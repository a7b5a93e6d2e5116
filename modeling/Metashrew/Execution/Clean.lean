import Metashrew.Execution.Calls
import Metashrew.Ledger.Histories

namespace Metashrew

open Bytes Durable Versioned

/-- An execution in which nothing goes wrong. -/
def Execution.clean (fs : List Flush) : Execution where
  hasStart := true
  flushes := fs.map fun f => ⟨some f,.none,none⟩
  hostFailure := false
  trap := none
  rootFaults := .none
  refreshError := none

/-- The pairs of several flushes, one after another. -/
def pairsOf (fs : List Flush) : List (Bytes × Bytes) := fs.flatMap Flush.list

theorem pairsOf_singleton (f : Flush) : pairsOf [f] = f.list := List.append_nil _

theorem updatesOf_append (key : Bytes) (xs ys : List (Bytes × Bytes)) :
    updatesOf key (xs ++ ys) = updatesOf key xs ++ updatesOf key ys := by
  simp [updatesOf]

theorem Ledger.appendAll_append (L : Ledger) (h : Nat) (xs ys : List (Bytes × Bytes)) :
    L.appendAll h (xs ++ ys) = (L.appendAll h xs).appendAll h ys :=
  List.foldl_append

theorem flushBatch_of_build {σ : Store} {h : Nat} {kvs : List (Bytes × Bytes)} {root : Bytes}
    {ops : List Op} (hb : buildStateRootBatchUnwritten (rocksDB σ) h kvs = .ok (root,ops)) :
    flushBatch σ .none h kvs = .ok ops := by
  rw [flushBatch, faultyDB_none, hb]
  rfl

theorem build_of_flushBatch {σ : Store} {h : Nat} {kvs : List (Bytes × Bytes)} {ops : List Op}
    (hb : flushBatch σ .none h kvs = .ok ops) :
    ∃ root, buildStateRootBatchUnwritten (rocksDB σ) h kvs = .ok (root,ops) := by
  rw [flushBatch, faultyDB_none] at hb
  cases hbuild : buildStateRootBatchUnwritten (rocksDB σ) h kvs with
  | error e => rw [hbuild] at hb; cases hb
  | ok built =>
    rw [hbuild] at hb
    cases hb
    exact ⟨built.1,rfl⟩

theorem getCurrentStateRoot_rocksDB (σ : Store) :
    ∃ root, getCurrentStateRoot (rocksDB σ) = .ok root := by
  have hscan : backendError ((rocksDB σ).scanPrefix smtRootPrefix) =
      .ok (σ.toList.filter fun e => smtRootPrefix.isPrefixOf e.1) := rfl
  rw [getCurrentStateRoot, hscan]
  dsimp only [bind, Except.bind]
  cases (σ.toList.filter fun e => smtRootPrefix.isPrefixOf e.1).foldl higherRoot none with
  | none => exact ⟨emptyNodeHash,rfl⟩
  | some best => exact ⟨best.2,rfl⟩

/-- The pointer that the adapter writes first is an internal record. -/
theorem HoldsHistories.adapterWrite {σ : Store} {H : Bytes → History Nat Bytes} {ops : List Op}
    (hσ : HoldsHistories (KV.write σ ops) H) (tip : Bytes) :
    HoldsHistories (KV.write σ (.put tipHeightKey tip::ops)) H := by
  apply hσ.of_agree
  intro name hn
  have hne : tipHeightKey ≠ name := by
    rintro rfl
    exact hn .tipHeight
  rw [KV.get_write, KV.get_write, KV.effect]
  simp [KV.Op.key, hne]

namespace MetashrewRuntime

variable {rt : MetashrewRuntime} {L : Ledger} {f : Flush} {fs : List Flush}

/-- No batch is pending, and nothing has gone wrong before. -/
structure Idle (rt : MetashrewRuntime) : Prop where
  slot : rt.pendingAtomicBatch = none
  failure : rt.hadFailure = false
  adapter : rt.adapterHeight+1<2^32

theorem flush_armed {batch : List Op} (harmed : rt.pendingAtomicBatch.isSome = true)
    (hb : flushBatch rt.db .none rt.height f.list = .ok batch) :
    rt.flush ⟨some f,.none,none⟩ = .ok { rt with pendingAtomicBatch := some batch, state := 1 } := by
  have hs : rt.storeFlush ⟨some f,.none,none⟩ f.list =
      .ok { rt with pendingAtomicBatch := some batch } := by
    rw [storeFlush, if_pos harmed, hb]
    rfl
  rw [flush]
  dsimp only
  rw [hs]

theorem flush_unarmed {batch : List Op} (hnone : rt.pendingAtomicBatch = none)
    (ha : rt.adapterHeight+1<2^32) (hb : flushBatch rt.db .none rt.height f.list = .ok batch) :
    rt.flush ⟨some f,.none,none⟩ = .ok { rt with
      db := KV.write rt.db (.put tipHeightKey (u32le (rt.adapterHeight+1))::batch), state := 1 } := by
  have hs : rt.storeFlush ⟨some f,.none,none⟩ f.list = .ok { rt with
      db := KV.write rt.db (.put tipHeightKey (u32le (rt.adapterHeight+1))::batch) } := by
    rw [storeFlush, if_neg (by rw [hnone]; decide), calculateAndStoreStateRootBatched, hb]
    change ((adapterWrite rt.adapterHeight none rt.db batch).bind fun db => .ok { rt with db }) = _
    rw [adapterWrite, addU32, if_pos ha]
    rfl
  rw [flush]
  dsimp only
  rw [hs]

private theorem short_prefix {h : Nat} (xs : List (Bytes × Bytes)) {ys : List (Bytes × Bytes)}
    (hs : ∀ key, ((L.appendAll h (xs ++ ys)).history key).length<2^32) :
    ∀ key, ((L.appendAll h xs).history key).length<2^32 := by
  intro key
  have hk := hs key
  rw [Ledger.appendAll_append, Ledger.appendAll_history, List.length_append] at hk
  omega

theorem flushAll_cons_ok {rt rt' : MetashrewRuntime} {call : FlushCall} {calls : List FlushCall}
    (h : rt.flush call = .ok rt') : rt.flushAll (call::calls) = rt'.flushAll calls := by
  rw [flushAll, h]

/-- With the slot free, flush after flush goes into the store. -/
theorem flushAll_clean (rt : MetashrewRuntime) (fs : List Flush)
    (hnone : rt.pendingAtomicBatch = none) (ha : rt.adapterHeight+1<2^32)
    (hσ : HoldsHistories rt.db L.history)
    (hs : ∀ key, ((L.appendAll rt.height (pairsOf fs)).history key).length<2^32) :
    ∃ σ', rt.flushAll (Execution.clean fs).flushes =
        ({ rt with db := σ', state := if fs = [] then rt.state else 1 },none) ∧
      HoldsHistories σ' (L.appendAll rt.height (pairsOf fs)).history := by
  induction fs generalizing rt L with
  | nil => exact ⟨rt.db,rfl,hσ⟩
  | cons f fs ih =>
    change ∀ key, ((L.appendAll rt.height (f.list ++ pairsOf fs)).history key).length<2^32 at hs
    have hf := short_prefix f.list hs
    have h0 : ∀ key, (L.history key).length<2^32 := short_prefix [] hs
    obtain ⟨root,batch,hb⟩ := build_total hσ hf
    have hstep := flush_unarmed hnone ha (flushBatch_of_build hb)
    have hnext := (build_histories hσ h0 hb).1.adapterWrite (u32le (rt.adapterHeight+1))
    rw [Ledger.appendAll_append] at hs
    obtain ⟨σ',hall,hh⟩ := ih { rt with
      db := KV.write rt.db (.put tipHeightKey (u32le (rt.adapterHeight+1))::batch), state := 1 }
      hnone ha hnext hs
    refine ⟨σ',?_,?_⟩
    · have hcall : rt.flushAll (Execution.clean (f::fs)).flushes =
          rt.flushAll (⟨some f,.none,none⟩::(Execution.clean fs).flushes) := rfl
      rw [hcall, flushAll_cons_ok hstep, hall]
      simp
    · change HoldsHistories σ' (L.appendAll rt.height (f.list ++ pairsOf fs)).history
      rw [Ledger.appendAll_append]
      exact hh

/-- With the slot armed, the store stays as it is and the last batch wins. -/
theorem flushAll_clean_armed (rt : MetashrewRuntime) (fs : List Flush)
    (harmed : rt.pendingAtomicBatch.isSome = true)
    (hσ : HoldsHistories rt.db L.history)
    (hs : ∀ f ∈ fs, ∀ key, ((L.appendAll rt.height f.list).history key).length<2^32) :
    (fs = [] ∧ rt.flushAll (Execution.clean fs).flushes = (rt,none)) ∨
      ∃ last batch, fs.getLast? = some last ∧
        flushBatch rt.db .none rt.height last.list = .ok batch ∧
        rt.flushAll (Execution.clean fs).flushes =
          ({ rt with pendingAtomicBatch := some batch, state := 1 },none) := by
  induction fs generalizing rt with
  | nil => exact .inl ⟨rfl,rfl⟩
  | cons f fs ih =>
    right
    obtain ⟨root,batch,hb⟩ := build_total hσ (hs f (by simp))
    have hstep := flush_armed harmed (flushBatch_of_build hb)
    have hall : rt.flushAll (Execution.clean (f::fs)).flushes =
        { rt with pendingAtomicBatch := some batch, state := 1 }.flushAll
          (Execution.clean fs).flushes := flushAll_cons_ok hstep
    rw [hall]
    rcases ih { rt with pendingAtomicBatch := some batch, state := 1 } rfl hσ
      (fun g hg => hs g (by simp [hg])) with ⟨rfl,hnil⟩ | ⟨last,batch',hlast,hb',hrest⟩
    · exact ⟨f,batch,rfl,flushBatch_of_build hb,hnil⟩
    · refine ⟨last,batch',?_,hb',hrest⟩
      rw [List.getLast?_cons, hlast]
      rfl

private theorem executionResult_clean (rt : MetashrewRuntime) (hf : rt.hadFailure = false)
    (he : rt.lastFlushError = none) (suffix calling : String) : rt.executionResult none suffix calling =
      if rt.state = 1 then .ok ()
      else .error (.message s!"indexer exited unexpectedly{suffix}") := by
  unfold executionResult
  rw [he, hf]
  by_cases hs : rt.state=1
  · simp [hs]
  · simp [hs]

/-- A clean `process_block` writes all its flushes. -/
theorem processBlock_clean (hrt : rt.Idle) (hσ : HoldsHistories rt.db L.history) {h : Nat}
    (hs : ∀ key, ((L.appendAll h (pairsOf fs)).history key).length<2^32) :
    HoldsHistories (rt.processBlock (.clean fs) h).1.db (L.appendAll h (pairsOf fs)).history ∧
      (fs ≠ [] → (rt.processBlock (.clean fs) h).2 = .ok ()) := by
  have hfail : (rt.preparedFor (.clean fs) h).hadFailure = false := by
    change (rt.hadFailure || false) = false
    rw [hrt.failure, Bool.or_false]
  obtain ⟨σ',hall,hh⟩ := (rt.preparedFor (.clean fs) h).flushAll_clean fs hrt.slot hrt.adapter hσ hs
  rw [processBlock_eq rfl, hall]
  refine ⟨hh,fun hne => ?_⟩
  rw [if_neg hne]
  exact executionResult_clean
    { rt.preparedFor (.clean fs) h with db := σ', state := 1 } hfail rfl "" "Error calling _start function"

private theorem completeAtomic_clean (rt : MetashrewRuntime) (fs : List Flush)
    (hf : rt.hadFailure = false) (he : rt.lastFlushError = none) (h : Nat) (hash : Bytes) : ∃ root, (rt.completeAtomic (.clean fs) h hash).2 =
      if rt.state = 1 then .ok ⟨root,rt.pendingAtomicBatch.getD [],h,hash⟩
      else .error (.message "indexer exited unexpectedly during atomic processing") := by
  obtain ⟨root,hroot⟩ := getCurrentStateRoot_rocksDB rt.db
  have hcalc : rt.calculateStateRoot (Execution.clean fs).rootFaults = .ok root := hroot
  have hres := rt.executionResult_clean hf he " during atomic processing"
    "Error calling _start function in atomic processing"
  refine ⟨root,?_⟩
  unfold completeAtomic
  rw [show (Execution.clean fs).trap = none from rfl, hres]
  by_cases hs : rt.state=1
  · rw [if_pos hs, if_pos hs, hcalc]
    rfl
  · rw [if_neg hs, if_neg hs]
    rfl

/-- A clean `process_block_atomic` hands over the batch of its last flush. -/
theorem processBlockAtomic_clean (hrt : rt.Idle) (hσ : HoldsHistories rt.db L.history) {h : Nat}
    (hash : Bytes) (hs : ∀ f ∈ fs, ∀ key, ((L.appendAll h f.list).history key).length<2^32)
    {last : Flush} (hlast : fs.getLast? = some last) :
    ∃ root batch, flushBatch rt.db .none h last.list = .ok batch ∧
      (rt.processBlockAtomic (.clean fs) h hash).2 = .ok ⟨root,batch,h,hash⟩ := by
  have hfail : (rt.armedFor (.clean fs) h hash).hadFailure = false := by
    change (rt.hadFailure || false) = false
    rw [hrt.failure, Bool.or_false]
  rcases (rt.armedFor (.clean fs) h hash).flushAll_clean_armed fs rfl hσ hs with
    ⟨rfl,_⟩ | ⟨last',batch,hlast',hb,hall⟩
  · cases hlast
  · rw [hlast] at hlast'
    obtain rfl := Option.some.inj hlast'
    obtain ⟨root,hroot⟩ := completeAtomic_clean { rt.armedFor (.clean fs) h hash with
      pendingAtomicBatch := some batch, state := 1 } fs hfail rfl h hash
    refine ⟨root,batch,hb,?_⟩
    rw [processBlockAtomic_eq rfl, hall]
    exact hroot

/-- An execution without a flush is an error on the atomic path. -/
theorem processBlockAtomic_no_flush (hrt : rt.Idle) (h : Nat) (hash : Bytes) :
    (rt.processBlockAtomic (.clean []) h hash).2 =
      .error (.message "indexer exited unexpectedly during atomic processing") := by
  have hfail : (rt.armedFor (.clean []) h hash).hadFailure = false := by
    change (rt.hadFailure || false) = false
    rw [hrt.failure, Bool.or_false]
  obtain ⟨root,hroot⟩ := (rt.armedFor (.clean []) h hash).completeAtomic_clean [] hfail rfl h hash
  rw [processBlockAtomic_eq rfl]
  exact hroot

end MetashrewRuntime

end Metashrew
