import Metashrew.Execution.Clean

namespace Metashrew

open Bytes Durable Versioned

/-- The store after the legacy path has processed a block. -/
def legacyStore (rt : MetashrewRuntime) (fs : List Flush) (h : Nat) : Store :=
  (rt.processBlock (.clean fs) h).1.db

/-- The store after the atomic path, with the commit of its batch when there is one. -/
def atomicStore (rt : MetashrewRuntime) (fs : List Flush) (h : Nat) (hash : Bytes) : Store :=
  match rt.processBlockAtomic (.clean fs) h hash with
  | (rt,.ok result) =>
    (commitAtomic result.height result.blockHash result.stateRoot result.batchData).finalState rt.db
  | (rt,.error _) => rt.db

/-- What a key reads at `h` when the flushes of one more block follow a run of blocks. -/
def readAfterFlushes (blocks : List Block) (fs : List Flush) (key : Bytes) (h : Nat) :
    Option Bytes :=
  if h < blocks.length then lastWrite blocks h key
  else (updatesOf key (pairsOf fs)).getLast?.or (lastWrite blocks h key)

/-- On both paths every user key reads, at every height, as if the flushes had been applied one after
another. -/
def NoUpdateLost (rt : MetashrewRuntime) (blocks : List Block) (fs : List Flush) (hash : Bytes) :
    Prop :=
  ∀ key, ¬Reserved key → ∀ h,
    getAtHeight (rocksDB (atomicStore rt fs blocks.length hash)) key h =
      getAtHeight (rocksDB (legacyStore rt fs blocks.length)) key h ∧
    getAtHeight (rocksDB (legacyStore rt fs blocks.length)) key h =
      .ok (readAfterFlushes blocks fs key h)

/-- What an earlier flush leaves in a key that the last one does not write is what the key reads
anyway. -/
def FlushesAgree (blocks : List Block) (fs : List Flush) : Prop :=
  ∀ key, ¬Reserved key → ∀ last, fs.getLast? = some last → updatesOf key last.list = [] →
    ∀ v, (updatesOf key (pairsOf fs)).getLast? = some v → lastWrite blocks blocks.length key = some v

section Reads

variable {blocks : List Block} {key : Bytes}

theorem lastWrite_of_le {h : Nat} (hh : blocks.length≤h) :
    lastWrite blocks h key = lastWrite blocks blocks.length key := by
  rw [lastWrite, lastWrite, List.take_of_length_le (by omega), List.take_of_length_le (by omega)]

/-- A read after the updates of one more height. -/
theorem asOf_next (vs : List Bytes) (h : Nat) :
    asOf h (writesOf key 0 blocks ++ vs.map fun v => (blocks.length,v)) =
      if h < blocks.length then lastWrite blocks h key else vs.getLast?.or (lastWrite blocks h key) := by
  split_ifs with hh
  · rw [asOf_append_of_gt, asOf_writesOf]
    intro e he
    obtain ⟨v,_,rfl⟩ := List.mem_map.mp he
    exact hh
  · rw [asOf_append_of_le, asOf_writesOf, List.getLast?_map, Option.map_map]
    · cases vs.getLast? <;> rfl
    · intro e he
      obtain ⟨v,_,rfl⟩ := List.mem_map.mp he
      exact not_lt.mp hh

/-- Reading a key whose history is that of the blocks and the updates of one more height. -/
theorem getAtHeight_next {σ : Store} {H : Bytes → History Nat Bytes} (hσ : HoldsHistories σ H)
    (hk : ¬Reserved key) (vs : List Bytes)
    (hH : H key = writesOf key 0 blocks ++ vs.map fun v => (blocks.length,v))
    (hlen : blocks.length<2^32) (hcount : updateCount key blocks+vs.length≤2^31) (h : Nat) :
    getAtHeight (rocksDB σ) key h =
      .ok (if h < blocks.length then lastWrite blocks h key
        else vs.getLast?.or (lastWrite blocks h key)) := by
  rw [← asOf_next, ← hH, getAtHeight]
  refine (hσ.hasHistory (.inl hk)).searchUpdates ?_ ?_ ?_ h
  · rw [hH]
    refine (writesOf_ordered key 0 blocks).append ?_ ?_
    · exact List.pairwise_map.mpr (List.pairwise_of_forall fun _ _ => le_rfl)
    · intro a ha e he
      obtain ⟨v,_,rfl⟩ := List.mem_map.mp he
      have hlt := writesOf_lt ha
      omega
  · rw [hH]
    intro e he
    rcases List.mem_append.mp he with he | he
    · have hlt := writesOf_lt he
      omega
    · obtain ⟨v,_,rfl⟩ := List.mem_map.mp he
      exact hlen
  · rw [hH, List.length_append, writesOf_length, List.length_map]
    exact hcount

end Reads

section Paths

variable {rt : MetashrewRuntime} {blocks : List Block} {fs : List Flush} {key : Bytes}

private theorem appendAll_ofBlocks (blocks : List Block) (kvs : List (Bytes × Bytes)) (key : Bytes) :
    ((Ledger.ofBlocks 0 blocks).appendAll blocks.length kvs).history key =
      writesOf key 0 blocks ++ (updatesOf key kvs).map fun v => (blocks.length,v) := by
  rw [Ledger.appendAll_history, Ledger.ofBlocks_history]

private theorem appendAll_ofBlocks_short (blocks : List Block) (kvs : List (Bytes × Bytes))
    (hcount : ∀ key, updateCount key blocks+(updatesOf key kvs).length≤2^31) (key : Bytes) :
    (((Ledger.ofBlocks 0 blocks).appendAll blocks.length kvs).history key).length<2^32 := by
  rw [appendAll_ofBlocks, List.length_append, writesOf_length, List.length_map]
  have hk := hcount key
  omega

/-- The legacy path has the effect of the flushes in order. -/
theorem legacyStore_reads (hlen : blocks.length<2^32) (hrt : rt.Idle)
    (hcount : ∀ key, updateCount key blocks+(updatesOf key (pairsOf fs)).length≤2^31)
    (hc : commitBlocks 0 ∅ blocks = .ok rt.db) (hk : ¬Reserved key) (h : Nat) :
    getAtHeight (rocksDB (legacyStore rt fs blocks.length)) key h =
      .ok (readAfterFlushes blocks fs key h) := by
  obtain ⟨hh,_⟩ := MetashrewRuntime.processBlock_clean hrt (commitBlocks_ofBlocks_histories hc)
    (appendAll_ofBlocks_short blocks _ hcount)
  exact getAtHeight_next hh hk _ (appendAll_ofBlocks blocks (pairsOf fs) key) hlen (hcount key) h

/-- A commit of the next height writes its batch. -/
theorem commitAtomic_finalState {σ : Store} {h : Nat} (hash root : Bytes) (ops : List Op)
    (ha : isFreshDb σ = true ∨ h = saturatingSucc (getIndexedHeight σ)) :
    (commitAtomic h hash root ops).finalState σ = KV.write σ (commitOps h hash root ops) := by
  rw [Prog.finalState_eq (commitAtomic_run ha hash root ops)]
  rfl

private theorem updatesOf_pairsOf {last : Flush} (hlast : fs.getLast? = some last) (key : Bytes) :
    updatesOf key (pairsOf fs) =
      updatesOf key (pairsOf fs.dropLast) ++ updatesOf key last.list := by
  have hfs := List.dropLast_append_getLast? last hlast
  conv_lhs => rw [← hfs]
  rw [pairsOf, List.flatMap_append, List.flatMap_singleton, updatesOf_append]
  rfl

/-- The atomic path has the effect of the last flush alone. -/
theorem atomicStore_reads (hlen : blocks.length<2^32) (hrt : rt.Idle)
    (hcount : ∀ key, updateCount key blocks+(updatesOf key (pairsOf fs)).length≤2^31)
    (hc : commitBlocks 0 ∅ blocks = .ok rt.db) (hash : Bytes) (hk : ¬Reserved key) (h : Nat) :
    getAtHeight (rocksDB (atomicStore rt fs blocks.length hash)) key h =
      .ok (readAfterFlushes blocks fs.getLast?.toList key h) := by
  have hσ := commitBlocks_ofBlocks_histories hc
  cases hlast : fs.getLast? with
  | none =>
    obtain rfl := List.getLast?_eq_none_iff.mp hlast
    have hdb := rt.processBlockAtomic_db (.clean []) blocks.length hash
    have herr := MetashrewRuntime.processBlockAtomic_no_flush hrt blocks.length hash
    have hstore : atomicStore rt [] blocks.length hash = rt.db := by
      rw [atomicStore]
      split
      · rename_i hr
        rw [hr] at herr
        cases herr
      · rename_i hr
        rw [hr] at hdb
        exact hdb
    rw [hstore]
    exact getAtHeight_next hσ hk [] (by rw [Ledger.ofBlocks_history]; simp) hlen
      (by simpa [pairsOf, updatesOf] using hcount key) h
  | some last =>
    have hmem := List.mem_of_getLast? hlast
    have hcountOf : ∀ f ∈ fs, ∀ key, updateCount key blocks+(updatesOf key f.list).length≤2^31 := by
      intro f hf key
      have hk := hcount key
      obtain ⟨xs,ys,rfl⟩ := List.append_of_mem hf
      simp only [pairsOf, List.flatMap_append, List.flatMap_cons, updatesOf_append,
        List.length_append] at hk
      omega
    obtain ⟨root,batch,hb,hres⟩ := MetashrewRuntime.processBlockAtomic_clean hrt hσ hash
      (fun f hf => appendAll_ofBlocks_short blocks f.list (hcountOf f hf)) hlast
    have hdb := rt.processBlockAtomic_db (.clean fs) blocks.length hash
    have hstore : atomicStore rt fs blocks.length hash =
        KV.write rt.db (commitOps blocks.length hash root batch) := by
      rw [atomicStore]
      split
      · rename_i rt' result hr
        rw [hr] at hres hdb
        obtain rfl := Except.ok.inj hres
        change (commitAtomic blocks.length hash root batch).finalState rt'.db = _
        rw [show rt'.db = rt.db from hdb]
        exact commitAtomic_finalState hash root batch (commitBlocks_accepts hlen hc)
      · rename_i hr
        rw [hr] at hres
        cases hres
    obtain ⟨built,hbuild⟩ := build_of_flushBatch hb
    have h0 := appendAll_ofBlocks_short blocks []
      (fun key => le_trans (by simp [updatesOf]) (hcount key))
    obtain ⟨hh,_⟩ := build_histories hσ h0 hbuild
    rw [hstore]
    have hread := getAtHeight_next (commitOps_histories (h := blocks.length) hh hash root) hk _
      (appendAll_ofBlocks blocks last.list key) hlen (hcountOf last hmem key) h
    rw [hread, readAfterFlushes]
    simp [pairsOf]

end Paths

/-- No update is lost exactly when what the last flush does not repeat was there before. -/
theorem no_update_lost_iff (blocks : List Block) (fs : List Flush) (hash : Bytes)
    (hlen : blocks.length<2^32)
    (hcount : ∀ key, updateCount key blocks+(updatesOf key (pairsOf fs)).length≤2^31)
    (rt : MetashrewRuntime) (hrt : rt.Idle) (hc : commitBlocks 0 ∅ blocks = .ok rt.db) :
    NoUpdateLost rt blocks fs hash ↔ FlushesAgree blocks fs := by
  have hlegacy : ∀ key, ¬Reserved key → ∀ h, getAtHeight (rocksDB (legacyStore rt fs blocks.length))
      key h = .ok (readAfterFlushes blocks fs key h) := fun key hk h =>
    legacyStore_reads hlen hrt hcount hc hk h
  have hatomic : ∀ key, ¬Reserved key → ∀ h, getAtHeight
      (rocksDB (atomicStore rt fs blocks.length hash)) key h =
        .ok (readAfterFlushes blocks fs.getLast?.toList key h) := fun key hk h =>
    atomicStore_reads hlen hrt hcount hc hash hk h
  constructor
  · intro hkeep key hk last hlast hnil v hv
    obtain ⟨hsame,_⟩ := hkeep key hk blocks.length
    rw [hlegacy key hk, hatomic key hk, hlast, Except.ok.injEq, readAfterFlushes, readAfterFlushes,
      if_neg (lt_irrefl _), if_neg (lt_irrefl _), hv] at hsame
    simpa [pairsOf, hnil] using hsame
  · intro hagree key hk h
    refine ⟨?_,hlegacy key hk h⟩
    rw [hlegacy key hk, hatomic key hk, readAfterFlushes, readAfterFlushes]
    split_ifs with hh
    · rfl
    · cases hlast : fs.getLast? with
      | none =>
        obtain rfl := List.getLast?_eq_none_iff.mp hlast
        rfl
      | some last =>
        have hsplit := updatesOf_pairsOf hlast key
        have hone : pairsOf (some last).toList = last.list := by simp [pairsOf]
        rw [hone]
        by_cases hnil : updatesOf key last.list=[]
        · have hagree' := hagree key hk last hlast hnil
          rw [hnil]
          cases hv : (updatesOf key (pairsOf fs)).getLast? with
          | none => rfl
          | some v =>
            rw [lastWrite_of_le (not_lt.mp hh), hagree' v hv]
            rfl
        · rw [hsplit, List.getLast?_append]
          cases hv : (updatesOf key last.list).getLast? with
          | none => exact absurd (List.getLast?_eq_none_iff.mp hv) hnil
          | some v => rfl

private def firstBlock : List Block := [⟨.single 'a' [1],[7],[8]⟩]

theorem no_update_lost_same_key :
    ∃ σ, commitBlocks 0 ∅ firstBlock = .ok σ ∧ NoUpdateLost (.new σ 0 0) firstBlock
      [⟨[(ascii "a",[2])],by decide⟩,⟨[(ascii "a",[3])],by decide⟩] [9] := by
  have hrun : (commitBlocks 0 ∅ firstBlock).toOption.isSome = true := by decide +kernel
  cases hσ : commitBlocks 0 ∅ firstBlock with
  | error e => rw [hσ] at hrun; cases hrun
  | ok σ =>
    refine ⟨σ,rfl,?_⟩
    rw [no_update_lost_iff _ _ _ (by decide) ?_ _ ⟨rfl,rfl,by norm_num [MetashrewRuntime.new]⟩ hσ]
    · intro key _ last hlast hnil v hv
      obtain rfl := Option.some.inj hlast
      rw [updatesOf_eq_nil] at hnil
      have hk : ascii "a" ≠ key := hnil (ascii "a",[3]) (by simp)
      have hnone : updatesOf key (pairsOf [⟨[(ascii "a",[2])],by decide⟩,
          ⟨[(ascii "a",[3])],by decide⟩]) = [] := by
        apply updatesOf_eq_nil.mpr
        simpa [pairsOf] using hk
      rw [hnone] at hv
      cases hv
    · intro key
      have h1 := updateCount_le key firstBlock
      have h2 : (updatesOf key (pairsOf [⟨[(ascii "a",[2])],by decide⟩,
          ⟨[(ascii "a",[3])],by decide⟩])).length≤2 := by
        rw [updatesOf, List.length_map]
        exact List.length_filter_le ..
      have h3 : (firstBlock.map fun b => b.flush.list.length).sum = 1 := rfl
      omega

/-- Two flushes of different keys in the first block: the first is lost on the atomic path. -/
theorem update_lost :
    ¬NoUpdateLost (.new ∅ 0 0) []
      [⟨[(ascii "a",[1])],by decide⟩,⟨[(ascii "b",[2])],by decide⟩] [7] := by
  intro hkeep
  have hdiff : getAtHeight (rocksDB (atomicStore (.new ∅ 0 0)
      [⟨[(ascii "a",[1])],by decide⟩,⟨[(ascii "b",[2])],by decide⟩] 0 [7])) (ascii "a") 0 ≠
      getAtHeight (rocksDB (legacyStore (.new ∅ 0 0)
      [⟨[(ascii "a",[1])],by decide⟩,⟨[(ascii "b",[2])],by decide⟩] 0)) (ascii "a") 0 := by
    decide +kernel
  exact hdiff (hkeep (ascii "a") (by decide) 0).1

end Metashrew
