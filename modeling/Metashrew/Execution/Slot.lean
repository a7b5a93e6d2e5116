import Metashrew.Runtime.Execution

namespace Metashrew

open Bytes

namespace MetashrewRuntime

variable {rt rt' : MetashrewRuntime} {call : FlushCall} {calls : List FlushCall}

theorem calculateAndStore_eq_ok {kvs : List (Bytes × Bytes)} {σ : Store}
    (h : rt.calculateAndStoreStateRootBatched call kvs = .ok σ) :
    ∃ batch, flushBatch rt.db call.readFaults rt.height kvs = .ok batch ∧
      σ = KV.write rt.db (.put tipHeightKey (u32le (rt.adapterHeight+1))::batch) := by
  rw [calculateAndStoreStateRootBatched] at h
  cases hb : flushBatch rt.db call.readFaults rt.height kvs with
  | error e => rw [hb] at h; cases h
  | ok batch =>
    rw [hb] at h
    change adapterWrite rt.adapterHeight call.writeError rt.db batch = .ok σ at h
    rw [adapterWrite, addU32] at h
    split_ifs at h
    · cases hw : call.writeError with
      | some e => rw [hw] at h; cases h
      | none =>
        rw [hw] at h
        exact ⟨batch,rfl,(Except.ok.inj h).symm⟩
    · cases h

/-- All that one flush can do: note a failure, fill the armed slot, or write. -/
theorem flush_cases (hf : rt.flush call = .ok rt') :
    (∃ e, rt' = { rt with lastFlushError := e, hadFailure := true }) ∨
    ∃ kvs batch, call.keyValues = some kvs ∧
      flushBatch rt.db call.readFaults rt.height kvs.list = .ok batch ∧
      (rt.pendingAtomicBatch.isSome = true ∧
          rt' = { rt with pendingAtomicBatch := some batch, state := 1 } ∨
        rt.pendingAtomicBatch = none ∧ rt' = { rt with
          db := KV.write rt.db (.put tipHeightKey (u32le (rt.adapterHeight+1))::batch), state := 1 }) := by
  rw [flush] at hf
  cases hk : call.keyValues with
  | none =>
    rw [hk] at hf
    cases hf
    exact .inl ⟨rt.lastFlushError,rfl⟩
  | some kvs =>
    simp only [hk] at hf
    cases hs : rt.storeFlush call kvs.list with
    | error e =>
      rw [hs] at hf
      cases e with
      | message text =>
        cases hf
        exact .inl ⟨some text,rfl⟩
      | panic text => cases hf
    | ok rt1 =>
      rw [hs] at hf
      obtain rfl := Except.ok.inj hf
      rw [storeFlush] at hs
      refine .inr ⟨kvs,?_⟩
      split_ifs at hs with harmed
      · cases hb : flushBatch rt.db call.readFaults rt.height kvs.list with
        | error e => rw [hb] at hs; cases hs
        | ok batch =>
          rw [hb] at hs
          cases hs
          exact ⟨batch,rfl,rfl,.inl ⟨harmed,rfl⟩⟩
      · cases hc : rt.calculateAndStoreStateRootBatched call kvs.list with
        | error e => rw [hc] at hs; cases hs
        | ok σ =>
          rw [hc] at hs
          cases hs
          obtain ⟨batch,hb,rfl⟩ := calculateAndStore_eq_ok hc
          have hnone : rt.pendingAtomicBatch = none := by simpa using harmed
          exact ⟨batch,rfl,hb,.inr ⟨hnone,rfl⟩⟩

/-- A flush changes neither the heights nor whether the slot is armed, forgets no failure, and
writes only while the slot is not armed. -/
theorem flush_frame (hf : rt.flush call = .ok rt') :
    rt'.height = rt.height ∧ rt'.adapterHeight = rt.adapterHeight ∧
      rt'.pendingAtomicBatch.isSome = rt.pendingAtomicBatch.isSome ∧
      (rt.hadFailure = true → rt'.hadFailure = true) ∧
      (rt.pendingAtomicBatch.isSome = true → rt'.db = rt.db) := by
  rcases flush_cases hf with ⟨e,rfl⟩ | ⟨kvs,batch,_,_,⟨harmed,rfl⟩ | ⟨hnone,rfl⟩⟩
  · exact ⟨rfl,rfl,rfl,fun _ => rfl,fun _ => rfl⟩
  · exact ⟨rfl,rfl,harmed.symm,id,fun _ => rfl⟩
  · exact ⟨rfl,rfl,rfl,id,fun h => by rw [hnone] at h; cases h⟩

theorem flushAll_frame (rt : MetashrewRuntime) (calls : List FlushCall) :
    (rt.flushAll calls).1.height = rt.height ∧
      (rt.flushAll calls).1.adapterHeight = rt.adapterHeight ∧
      (rt.flushAll calls).1.pendingAtomicBatch.isSome = rt.pendingAtomicBatch.isSome ∧
      (rt.hadFailure = true → (rt.flushAll calls).1.hadFailure = true) ∧
      (rt.pendingAtomicBatch.isSome = true → (rt.flushAll calls).1.db = rt.db) := by
  induction calls generalizing rt with
  | nil => exact ⟨rfl,rfl,rfl,id,fun _ => rfl⟩
  | cons call calls ih =>
    rw [flushAll]
    cases hf : rt.flush call with
    | error text => exact ⟨rfl,rfl,rfl,id,fun _ => rfl⟩
    | ok rt1 =>
      obtain ⟨h1,h2,h3,h4,h5⟩ := flush_frame hf
      obtain ⟨g1,g2,g3,g4,g5⟩ := ih rt1
      exact ⟨g1.trans h1,g2.trans h2,g3.trans h3,fun h => g4 (h4 h),
        fun h => (g5 (h3.trans h)).trans (h5 h)⟩

end MetashrewRuntime

/-- The store after the flushes of one execution, each written over the one before. -/
inductive Written (adapterHeight height : Nat) : Store → List FlushCall → Store → Prop where
  | nil (σ : Store) : Written adapterHeight height σ [] σ
  | cons {σ σ' : Store} {call : FlushCall} {calls : List FlushCall} {kvs : Flush} {batch : List Op}
      (hk : call.keyValues = some kvs)
      (hb : flushBatch σ call.readFaults height kvs.list = .ok batch)
      (hw : Written adapterHeight height
        (KV.write σ (.put tipHeightKey (u32le (adapterHeight+1))::batch)) calls σ') :
      Written adapterHeight height σ (call::calls) σ'

namespace MetashrewRuntime

variable {rt : MetashrewRuntime} {calls : List FlushCall}

/-- Without a failure the slot ends up with the batch of the last flush. -/
theorem flushAll_armed (rt : MetashrewRuntime) (calls : List FlushCall)
    (harmed : rt.pendingAtomicBatch.isSome = true)
    (hp : (rt.flushAll calls).2 = none) (hf : (rt.flushAll calls).1.hadFailure = false) :
    (calls = [] ∧ rt.flushAll calls = (rt,none)) ∨
      ∃ call kvs batch, calls.getLast? = some call ∧ call.keyValues = some kvs ∧
        flushBatch rt.db call.readFaults rt.height kvs.list = .ok batch ∧
        (rt.flushAll calls).1.pendingAtomicBatch = some batch := by
  induction calls generalizing rt with
  | nil => exact .inl ⟨rfl,rfl⟩
  | cons call calls ih =>
    rw [flushAll] at hp hf ⊢
    cases hc : rt.flush call with
    | error text => rw [hc] at hp; cases hp
    | ok rt1 =>
      rw [hc] at hp hf
      obtain ⟨h1,h2,h3,h4,h5⟩ := flush_frame hc
      obtain ⟨_,_,_,g4,_⟩ := rt1.flushAll_frame calls
      refine .inr ?_
      rcases ih rt1 (h3.trans harmed) hp hf with ⟨rfl,hnil⟩ | ⟨last,kvs,batch,hlast,hk,hb,hpend⟩
      · rcases flush_cases hc with ⟨e,rfl⟩ | ⟨kvs,batch,hk,hb,⟨_,rfl⟩ | ⟨hnone,_⟩⟩
        · rw [g4 rfl] at hf
          cases hf
        · exact ⟨call,kvs,batch,rfl,hk,hb,rfl⟩
        · rw [hnone] at harmed
          cases harmed
      · rw [h5 harmed, h1] at hb
        refine ⟨last,kvs,batch,?_,hk,hb,hpend⟩
        rw [List.getLast?_cons, hlast]
        rfl

/-- Without a failure, and with the slot not armed, every flush is in the store. -/
theorem flushAll_written (rt : MetashrewRuntime) (calls : List FlushCall)
    (hnone : rt.pendingAtomicBatch = none)
    (hp : (rt.flushAll calls).2 = none) (hf : (rt.flushAll calls).1.hadFailure = false) :
    Written rt.adapterHeight rt.height rt.db calls (rt.flushAll calls).1.db := by
  induction calls generalizing rt with
  | nil => exact .nil rt.db
  | cons call calls ih =>
    rw [flushAll] at hp hf ⊢
    cases hc : rt.flush call with
    | error text => rw [hc] at hp; cases hp
    | ok rt1 =>
      rw [hc] at hp hf
      obtain ⟨h1,h2,h3,_,_⟩ := flush_frame hc
      obtain ⟨_,_,_,g4,_⟩ := rt1.flushAll_frame calls
      have hnone1 : rt1.pendingAtomicBatch = none := by
        rw [hnone] at h3
        simpa using h3
      have hw := ih rt1 hnone1 hp hf
      rw [h1, h2] at hw
      rcases flush_cases hc with ⟨e,rfl⟩ | ⟨kvs,batch,hk,hb,⟨harmed,_⟩ | ⟨_,rfl⟩⟩
      · rw [g4 rfl] at hf
        cases hf
      · rw [hnone] at harmed
        cases harmed
      · exact .cons hk hb hw

theorem executionResult_eq_ok {trap : Option String} {suffix calling : String}
    (h : rt.executionResult trap suffix calling = .ok ()) :
    rt.state = 1 ∧ rt.hadFailure = false := by
  unfold executionResult at h
  cases trap with
  | some e => cases h
  | none =>
    cases he : rt.lastFlushError with
    | some msg => rw [he] at h; cases h
    | none =>
      rw [he] at h
      dsimp only at h
      split_ifs at h with h1 h2
      rw [Bool.not_eq_true] at h2
      exact ⟨by tauto,h2⟩

/-- The runtime as `process_block_atomic` hands it to the guest. -/
def armedFor (rt : MetashrewRuntime) (x : Execution) (height : Nat) (blockHash : Bytes) :
    MetashrewRuntime :=
  { rt with
    pendingAtomicBatch := some []
    height
    currentBlockHash := blockHash
    state := 0
    lastFlushError := none
    hadFailure := rt.hadFailure || x.hostFailure }

/-- The runtime as `process_block` hands it to the guest. -/
def preparedFor (rt : MetashrewRuntime) (x : Execution) (height : Nat) : MetashrewRuntime :=
  { rt with
    height
    currentBlockHash := []
    state := 0
    lastFlushError := none
    hadFailure := rt.hadFailure || x.hostFailure }

theorem refreshMemory_frame (rt : MetashrewRuntime) (refreshError : Option String) :
    (rt.refreshMemory refreshError).1.db = rt.db ∧
      (rt.refreshMemory refreshError).1.pendingAtomicBatch = rt.pendingAtomicBatch := by
  cases refreshError with
  | none => exact ⟨rfl,rfl⟩
  | some e => exact ⟨rfl,rfl⟩

variable {x : Execution} {height : Nat} {blockHash : Bytes}

theorem processBlockAtomic_eq (hs : x.hasStart = true) :
    rt.processBlockAtomic x height blockHash =
      match (rt.armedFor x height blockHash).flushAll x.flushes with
      | (rt,some text) => (rt,.error (.panic text))
      | (rt,none) => rt.completeAtomic x height blockHash := by
  unfold processBlockAtomic
  rw [hs]
  rfl

theorem processBlock_eq (hs : x.hasStart = true) :
    rt.processBlock x height =
      match (rt.preparedFor x height).flushAll x.flushes with
      | (rt,some text) => (rt,.error (.panic text))
      | (rt,none) => rt.completeRun x := by
  unfold processBlock run
  rw [hs]
  rfl

theorem completeAtomic_db (rt : MetashrewRuntime) (x : Execution) (height : Nat)
    (blockHash : Bytes) : (rt.completeAtomic x height blockHash).1.db = rt.db := by
  unfold completeAtomic
  split
  · split
    · rfl
    · cases x.refreshError with
      | none => rfl
      | some e => rfl
  · exact (refreshMemory_frame _ _).1

/-- Every exit of `process_block_atomic` leaves the store alone. -/
theorem processBlockAtomic_db (rt : MetashrewRuntime) (x : Execution) (height : Nat)
    (blockHash : Bytes) : (rt.processBlockAtomic x height blockHash).1.db = rt.db := by
  cases hs : x.hasStart with
  | false => simp [processBlockAtomic, hs]
  | true =>
    obtain ⟨_,_,_,_,hdb⟩ := (rt.armedFor x height blockHash).flushAll_frame x.flushes
    have hkeep := hdb rfl
    rw [processBlockAtomic_eq hs]
    split
    · rename_i rt1 text he
      rw [he] at hkeep
      exact hkeep
    · rename_i rt1 he
      rw [he] at hkeep
      rw [completeAtomic_db]
      exact hkeep

/-- A result of `process_block_atomic` carries the batch of the last flush of its execution. -/
theorem processBlockAtomic_ok {result : AtomicBlockResult}
    (h : (rt.processBlockAtomic x height blockHash).2 = .ok result) :
    result.height = height ∧ result.blockHash = blockHash ∧ ∃ call kvs,
      x.flushes.getLast? = some call ∧ call.keyValues = some kvs ∧
        flushBatch rt.db call.readFaults height kvs.list = .ok result.batchData := by
  cases hs : x.hasStart with
  | false => simp [processBlockAtomic, hs] at h
  | true =>
    have hlast := (rt.armedFor x height blockHash).flushAll_armed x.flushes rfl
    rw [processBlockAtomic_eq hs] at h
    cases hall : (rt.armedFor x height blockHash).flushAll x.flushes with
    | mk rt1 panicked =>
      rw [hall] at h hlast
      cases panicked with
      | some text => cases h
      | none =>
        dsimp only at h
        unfold completeAtomic at h
        split at h
        · rename_i hok
          obtain ⟨hstate,hfail⟩ := executionResult_eq_ok hok
          split at h
          · cases h
          · cases hr : x.refreshError with
            | some e => rw [hr] at h; cases h
            | none =>
              rw [hr] at h
              obtain rfl := Except.ok.inj h
              refine ⟨rfl,rfl,?_⟩
              rcases hlast rfl hfail with ⟨_,hnil⟩ | ⟨call,kvs,batch,hcall,hk,hb,hpend⟩
              · rw [Prod.mk.injEq] at hnil
                rw [hnil.1] at hstate
                cases hstate
              · refine ⟨call,kvs,hcall,hk,?_⟩
                dsimp only at hpend ⊢
                rw [hpend]
                exact hb
        · cases h

/-- With the slot not armed, a `process_block` that succeeds has written its flushes. -/
theorem processBlock_ok (hnone : rt.pendingAtomicBatch = none)
    (h : (rt.processBlock x height).2 = .ok ()) :
    x.flushes ≠ [] ∧
      Written rt.adapterHeight height rt.db x.flushes (rt.processBlock x height).1.db := by
  cases hs : x.hasStart with
  | false => simp [processBlock, run, hs] at h
  | true =>
    have hwritten := (rt.preparedFor x height).flushAll_written x.flushes hnone
    rw [processBlock_eq hs] at h ⊢
    cases hall : (rt.preparedFor x height).flushAll x.flushes with
    | mk rt1 panicked =>
      rw [hall] at h hwritten
      cases panicked with
      | some text => cases h
      | none =>
        dsimp only at h ⊢
        unfold completeRun at h ⊢
        cases hr : x.refreshError with
        | some e => rw [hr] at h; cases h
        | none =>
          rw [hr] at h
          obtain ⟨hstate,hfail⟩ := executionResult_eq_ok h
          refine ⟨?_,hwritten rfl hfail⟩
          intro hnil
          rw [hnil] at hall
          obtain rfl := (Prod.mk.inj hall).1
          cases hstate

end MetashrewRuntime

end Metashrew
