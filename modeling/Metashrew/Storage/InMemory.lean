import Metashrew.Execution.MultiFlush
import Metashrew.Recovery.Reapply
import Metashrew.Recovery.Retry
import Metashrew.Sync.Runs

namespace Metashrew

open Bytes Durable Versioned

/-- The in-memory adapter of the sync engine: the shared map, and the height of this instance. -/
structure MemStorage where
  db : Store
  height : Nat

namespace MemStorage

/-- The pointer holds the next height. Without one the instance answers. -/
def getIndexedHeight (m : MemStorage) : Nat :=
  match (KV.get m.db tipHeightKey).bind readU32le with
  | some next => next-1
  | none => m.height

def setIndexedHeight (m : MemStorage) (height : Nat) : Except Fault MemStorage := do
  let next ← addU32 height 1
  return ⟨KV.write m.db [.put tipHeightKey (u32le next)],height⟩

def storeBlockHash (m : MemStorage) (height : Nat) (hash : Bytes) : MemStorage :=
  { m with db := KV.write m.db [.put (blockHashMetaKey height) hash] }

def getBlockHash (m : MemStorage) (height : Nat) : Option Bytes :=
  KV.get m.db (blockHashMetaKey height)

def storeStateRoot (m : MemStorage) (height : Nat) (root : Bytes) : MemStorage :=
  { m with db := KV.write m.db [.put (stateRootMetaKey height) root] }

/-- The default `commit_atomic`: three writes, and nothing of the batch. -/
def commitAtomic (m : MemStorage) (height : Nat) (blockHash stateRoot : Bytes)
    (_batchData : List Op) : MemStorage × Except Fault Unit :=
  let current := m.getIndexedHeight
  let allowFirst := current == 0 && (m.getBlockHash 0).isNone
  if !allowFirst && height != saturatingSucc current then
    (m,.error (.message s!"out-of-order commit rejected: attempted height {height} but current tip is {current} (commit_atomic only accepts height == tip + 1)"))
  else
    let m := (m.storeBlockHash height blockHash).storeStateRoot height stateRoot
    match m.setIndexedHeight height with
    | .ok m => (m,.ok ())
    | .error e => (m,.error e)

/-- The shared slow rollback, then the pointer. -/
def rollbackToHeight (m : MemStorage) (height : Nat) : MemStorage × Except Fault Unit :=
  let rollback : DbProg Unit := rollbackSmtData height m.getIndexedHeight
  let rolled := { m with db := rollback.finalState m.db }
  match (rollback.run m.db).result with
  | .error (.message e) => (rolled,.error (.message s!"SMT rollback failed: {e}"))
  | .error e => (rolled,.error e)
  | .ok _ =>
    match rolled.setIndexedHeight height with
    | .ok m => (m,.ok ())
    | .error e => (rolled,.error e)

end MemStorage

/-- What happens to a node: the guest flushes in a block that is processed and committed, or a
rollback. -/
inductive NodeStep where
  | block (height : Nat) (flushes : List Flush) (hash : Bytes)
  | rollback (height : Nat)

/-- Heights are `u32`, and no flush writes a key with internal record names. -/
def NodeStep.Valid : NodeStep → Prop
  | block height flushes _ => height<2^32 ∧ ∀ f ∈ flushes, f.Plain
  | rollback height => height<2^32

/-- One step on RocksDB. -/
def MetashrewRuntime.nodeStep (rt : MetashrewRuntime) : NodeStep → MetashrewRuntime
  | .block height flushes hash =>
    match rt.processBlockAtomic (.clean flushes) height hash with
    | (rt,.ok result) => { rt with
        db := (commitAtomic result.height result.blockHash result.stateRoot result.batchData).finalState rt.db }
    | (rt,.error _) => rt
  | .rollback height => { rt with db := (rollbackToHeight height).finalState rt.db }

/-- A runtime whose store is the map of an in-memory adapter. The map answers lookups and sorted
scans as RocksDB does. -/
structure MemNode where
  runtime : MetashrewRuntime
  height : Nat

namespace MemNode

def storage (n : MemNode) : MemStorage := ⟨n.runtime.db,n.height⟩

def withStorage (rt : MetashrewRuntime) (m : MemStorage) : MemNode := ⟨{ rt with db := m.db },m.height⟩

/-- The same step in memory. The batch has no byte form: `to_bytes` is empty. -/
def step (n : MemNode) : NodeStep → MemNode
  | .block height flushes hash =>
    match n.runtime.processBlockAtomic (.clean flushes) height hash with
    | (rt,.ok result) => withStorage rt ((⟨rt.db,n.height⟩ : MemStorage).commitAtomic result.height
        result.blockHash result.stateRoot []).1
    | (rt,.error _) => ⟨rt,n.height⟩
  | .rollback height => withStorage n.runtime (n.storage.rollbackToHeight height).1

end MemNode

/-- The two nodes report one height, and user keys read the same. -/
def BackendsAgree (rt : MetashrewRuntime) (n : MemNode) : Prop :=
  n.storage.getIndexedHeight = getIndexedHeight rt.db ∧ ∀ key, ¬Reserved key → ∀ h,
    getAtHeight (rocksDB n.runtime.db) key h = getAtHeight (rocksDB rt.db) key h

/-- They do after each step. -/
def AgreeAlong (rt : MetashrewRuntime) (n : MemNode) : List NodeStep → Prop
  | [] => True
  | s::rest => BackendsAgree (rt.nodeStep s) (n.step s) ∧ AgreeAlong (rt.nodeStep s) (n.step s) rest

/-- A step is below the last height, and a block that is the next one has an empty last flush. -/
def MetashrewRuntime.Quiet (rt : MetashrewRuntime) : NodeStep → Prop
  | .block height flushes _ =>
    (isFreshDb rt.db = true ∨ height = saturatingSucc (getIndexedHeight rt.db)) →
      ∀ last, flushes.getLast? = some last → height+1<2^32 ∧ last.list = []
  | .rollback height => height+1<2^32

def QuietAlong (rt : MetashrewRuntime) : List NodeStep → Prop
  | [] => True
  | s::rest => rt.Quiet s ∧ QuietAlong (rt.nodeStep s) rest

section Flat

variable {σ : Store} {r m h : Nat} {name : Bytes}

/-- Without length records the slow rollback deletes metadata records, and nothing else. -/
theorem rollbackSmtData_flat (hσ : ∀ key, KV.get σ (lengthKey key) = none) (r m : Nat) :
    ∃ names : List Bytes, (∀ name ∈ names, ∃ h, metadataHeight name = some h ∧ r < h) ∧
      ((rollbackSmtData r m).run σ).result = .ok () ∧
      (rollbackSmtData r m).finalState σ = KV.write σ (names.map .delete) := by
  by_cases hr : m ≤ r
  · refine ⟨[],by simp,?_,?_⟩
    · rw [rollbackSmtData, if_pos hr]
      rfl
    · rw [Prog.finalState, rollbackSmtData, if_pos hr]
      rfl
  · have hnone : KV.sortedKeys (baseKeys σ.keys) = [] := by
      rw [List.eq_nil_iff_forall_not_mem]
      intro key hkey
      exact (mem_smtStructures_iff σ key).mp hkey (hσ key)
    have hrun : (rollbackSmtData r m).run σ =
        ⟨if ((metadataKeysToDelete r σ.keys).map .delete : List Op) = [] then []
          else [KV.write σ ((metadataKeysToDelete r σ.keys).map .delete)],.ok ()⟩ := by
      rw [rollbackSmtData, if_neg hr, Prog.run_read_bind, Prog.run_bind_ok (applyAtomic_run _), hnone]
      show Trace.mk (_ ++ []) _ = _
      rw [List.append_nil]
      rfl
    refine ⟨metadataKeysToDelete r σ.keys,?_,by rw [hrun],?_⟩
    · intro name hname
      rw [metadataKeysToDelete, List.mem_filter] at hname
      obtain ⟨h,hh,hlt⟩ := (Option.any_eq_true _ _).mp hname.2
      exact ⟨h,hh,of_decide_eq_true hlt⟩
    · rw [Prog.finalState_eq hrun]
      split_ifs with hnil
      · rw [hnil]
        rfl
      · rfl

theorem HoldsHistories.deletes {names : List Bytes} (hσ : HoldsHistories σ fun _ => []) :
    HoldsHistories (KV.write σ (names.map .delete)) fun _ => [] where
  length key := by
    rw [KV.get_write_deletes, hσ.length]
    exact ite_self _
  update key hk i := by
    rw [KV.get_write_deletes, hσ.update key hk]
    exact ite_self _

theorem rollbackToHeight_flat (hσ : ∀ key, KV.get σ (lengthKey key) = none)
    (hm : ∀ h, KV.get σ (manifestKey h) = none) (r : Nat) :
    ∃ names : List Bytes, (∀ name ∈ names, ∃ h, metadataHeight name = some h ∧ r < h) ∧
      (rollbackToHeight r).finalState σ =
        KV.write (KV.write σ (names.map .delete)) [.put indexedHeightKey (u32le r)] := by
  by_cases hr : getIndexedHeight σ ≤ r
  · refine ⟨[],by simp,?_⟩
    rw [Prog.finalState_eq (rollbackToHeight_above rfl hr)]
    rfl
  · obtain ⟨names,hnames,hok,hfinal⟩ := rollbackSmtData_flat hσ r (getIndexedHeight σ)
    have hslow : manifestsExist σ r (getIndexedHeight σ) = false := by
      rw [manifestsExist, List.all_eq_false]
      refine ⟨getIndexedHeight σ,mem_heightsAbove.mpr ⟨not_le.mp hr,le_rfl⟩,?_⟩
      rw [hm]
      decide
    refine ⟨names,hnames,?_⟩
    cases hrun : (rollbackSmtData r (getIndexedHeight σ)).run σ with
    | mk states result =>
      rw [hrun] at hok
      dsimp only at hok
      rw [hok] at hrun
      have hall : (rollbackToHeight r).run σ = ⟨states ++
          [KV.write (states.getLastD σ) [.put indexedHeightKey (u32le r)]],.ok ()⟩ := by
        rw [rollbackToHeight, Prog.run_read_bind,
          Prog.run_bind_quiet (rollbackWithManifests_missing (not_le.mp hr) hslow)]
        show ((rollbackSmtData r (getIndexedHeight σ)) >>= fun _ => setIndexedHeight r).run σ = _
        rw [Prog.run_bind_ok hrun]
        rfl
      rw [Prog.finalState_eq hrun] at hfinal
      rw [Prog.finalState_eq hall, ← hfinal, List.getLastD_concat]

end Flat

namespace MetashrewRuntime

variable {rt : MetashrewRuntime} {flushes : List Flush} {height : Nat} {hash : Bytes}

theorem Idle.withStore (hrt : rt.Idle) (σ : Store) : { rt with db := σ }.Idle :=
  ⟨hrt.slot,hrt.failure,hrt.adapter⟩

/-- A block without a flush is an error, and leaves the runtime idle. -/
theorem processBlockAtomic_nil (hrt : rt.Idle) (height : Nat) (hash : Bytes) :
    ∃ rt' e, rt.processBlockAtomic (.clean []) height hash = (rt',.error e) ∧ rt'.Idle ∧
      rt'.db = rt.db := by
  have herr := processBlockAtomic_no_flush hrt height hash
  have hdb := rt.processBlockAtomic_db (.clean []) height hash
  have hidle : (rt.processBlockAtomic (.clean []) height hash).1.Idle := by
    rw [processBlockAtomic_eq rfl]
    show (MetashrewRuntime.completeAtomic (rt.armedFor (.clean []) height hash) (.clean []) height
      hash).1.Idle
    have hres : (rt.armedFor (.clean []) height hash).executionResult none
        " during atomic processing" "Error calling _start function in atomic processing" =
        .error (.message "indexer exited unexpectedly during atomic processing") := by
      unfold executionResult
      simp only [armedFor, hrt.failure, Execution.clean]
      rfl
    unfold completeAtomic
    rw [show (Execution.clean []).trap = none from rfl, hres]
    exact ⟨rfl,rfl,hrt.adapter⟩
  cases hblock : rt.processBlockAtomic (.clean []) height hash with
  | mk rt' result =>
    rw [hblock] at herr hdb hidle
    dsimp only at herr
    exact ⟨rt',_,by rw [herr],hidle,hdb⟩

/-- Over a store without histories a block gives the batch of its last flush. -/
theorem processBlockAtomic_last (hrt : rt.Idle) (hσ : HoldsHistories rt.db fun _ => [])
    {last : Flush} (hlast : flushes.getLast? = some last) (height : Nat) (hash : Bytes) :
    ∃ rt' root batch, rt.processBlockAtomic (.clean flushes) height hash =
        (rt',.ok ⟨root,batch,height,hash⟩) ∧ rt'.Idle ∧ rt'.db = rt.db ∧
      flushBatch rt.db .none height last.list = .ok batch := by
  have hs : ∀ f ∈ flushes, ∀ key,
      ((Ledger.empty.appendAll height f.list).history key).length<2^32 := by
    intro f _ key
    rw [Ledger.appendAll_history, List.length_append, List.length_map]
    have hle := updatesOf_length_le key f.list
    have hshort := f.short.1
    have hnil : (Ledger.empty.history key).length = 0 := rfl
    omega
  obtain ⟨root,batch,hb,hres⟩ := processBlockAtomic_clean (L := .empty) hrt hσ hash hs hlast
  have hdb := rt.processBlockAtomic_db (.clean flushes) height hash
  cases hblock : rt.processBlockAtomic (.clean flushes) height hash with
  | mk rt' result =>
    rw [hblock] at hres hdb
    dsimp only at hres hdb
    rw [hres] at hblock
    exact ⟨rt',root,batch,by rw [hres],processBlockAtomic_ok_idle hrt hblock,hdb,hb⟩

end MetashrewRuntime

/-- The condition of both commits. -/
def AcceptsHeight (σ : Store) (height : Nat) : Prop :=
  isFreshDb σ = true ∨ height = saturatingSucc (getIndexedHeight σ)

/-- The records of a commit in memory. -/
def memCommitOps (h : Nat) (hash root : Bytes) : List Op :=
  [.put (blockHashMetaKey h) hash,.put (stateRootMetaKey h) root,.put tipHeightKey (u32le (h+1))]

namespace MemStorage

variable {m : MemStorage} {height : Nat} {blockHash stateRoot : Bytes} {ops : List Op}

theorem setIndexedHeight_eq (m : MemStorage) (height : Nat) :
    m.setIndexedHeight height = if height+1<2^32 then
      .ok ⟨KV.write m.db [.put tipHeightKey (u32le (height+1))],height⟩
      else .error (.panic "attempt to add with overflow") := by
  rw [setIndexedHeight, addU32]
  split_ifs <;> rfl

theorem commitAtomic_rejected (h0 : ¬(m.getIndexedHeight = 0 ∧ m.getBlockHash 0 = none))
    (h1 : height ≠ saturatingSucc m.getIndexedHeight) :
    (m.commitAtomic height blockHash stateRoot ops).1 = m := by
  rw [commitAtomic]
  dsimp only
  rw [if_pos]
  rw [Bool.and_eq_true, Bool.not_eq_true', bne_iff_ne]
  refine ⟨?_,h1⟩
  rw [Bool.and_eq_false_iff, beq_eq_false_iff_ne, Option.isNone_eq_false_iff,
    Option.isSome_iff_ne_none]
  exact not_and_or.mp h0

theorem commitAtomic_accepted (h : m.getIndexedHeight = 0 ∧ m.getBlockHash 0 = none ∨
      height = saturatingSucc m.getIndexedHeight) :
    (m.commitAtomic height blockHash stateRoot ops).1 = if height+1<2^32 then
      ⟨KV.write m.db (memCommitOps height blockHash stateRoot),height⟩
      else ⟨KV.write m.db [.put (blockHashMetaKey height) blockHash,
        .put (stateRootMetaKey height) stateRoot],m.height⟩ := by
  have hthree : ∀ a b c : Op, KV.write m.db [a,b,c] =
      KV.write (KV.write (KV.write m.db [a]) [b]) [c] := fun _ _ _ => rfl
  have htwo : ∀ a b : Op, KV.write m.db [a,b] = KV.write (KV.write m.db [a]) [b] := fun _ _ => rfl
  rw [commitAtomic]
  dsimp only
  rw [if_neg, setIndexedHeight_eq]
  · by_cases hh : height+1<2^32
    · rw [if_pos hh, if_pos hh, memCommitOps, hthree]
      rfl
    · rw [if_neg hh, if_neg hh, htwo]
      rfl
  · rcases h with ⟨h0,hnone⟩ | h
    · simp [h0, hnone]
    · simp [h]

end MemStorage

theorem MemStorage.rollbackToHeight_flat {m : MemStorage}
    (hσ : ∀ key, KV.get m.db (lengthKey key) = none) (r : Nat) :
    ∃ names : List Bytes, (∀ name ∈ names, ∃ h, metadataHeight name = some h ∧ r < h) ∧
      (m.rollbackToHeight r).1 = if r+1<2^32 then
        ⟨KV.write (KV.write m.db (names.map .delete)) [.put tipHeightKey (u32le (r+1))],r⟩
        else ⟨KV.write m.db (names.map .delete),m.height⟩ := by
  obtain ⟨names,hnames,hok,hfinal⟩ := rollbackSmtData_flat hσ r m.getIndexedHeight
  refine ⟨names,hnames,?_⟩
  rw [MemStorage.rollbackToHeight, hok, hfinal, MemStorage.setIndexedHeight_eq]
  by_cases hr : r+1<2^32
  · rw [if_pos hr, if_pos hr]
  · rw [if_neg hr, if_neg hr]

section Kept

variable {σ : Store} {names : List Bytes} {r : Nat}

/-- A name with a slash is not deleted. -/
theorem get_rolled_slash (hnames : ∀ name ∈ names, ∃ h, metadataHeight name = some h ∧ r < h)
    {name : Bytes} (hs : (47:UInt8) ∈ name) :
    KV.get (KV.write σ (names.map .delete)) name = KV.get σ name := by
  rw [KV.get_write_deletes, if_neg]
  intro hm
  obtain ⟨h,hh,_⟩ := hnames name hm
  rw [metadataHeight_of_slash hs] at hh
  cases hh

/-- The hash of block 0 in memory is above no height. -/
theorem get_rolled_genesis (hnames : ∀ name ∈ names, ∃ h, metadataHeight name = some h ∧ r < h) :
    KV.get (KV.write σ (names.map .delete)) (blockHashMetaKey 0) = KV.get σ (blockHashMetaKey 0) := by
  rw [KV.get_write_deletes, if_neg]
  intro hm
  obtain ⟨h,hh,hlt⟩ := hnames _ hm
  have hzero : metadataHeight (blockHashMetaKey 0) = some 0 := by decide +kernel
  rw [hzero] at hh
  obtain rfl := Option.some.inj hh
  exact absurd hlt (Nat.not_lt_zero r)

end Kept

/-- What holds after quiet steps: one height, one answer to whether block 0 is there, and no record
of a user key on either side. -/
structure InStep (rt : MetashrewRuntime) (n : MemNode) : Prop where
  rocksIdle : rt.Idle
  memIdle : n.runtime.Idle
  height : n.storage.getIndexedHeight = getIndexedHeight rt.db
  bound : n.storage.getIndexedHeight+1<2^32
  genesis : n.storage.getBlockHash 0 = none ↔ getBlockHash rt.db 0 = none
  rocks : HoldsHistories rt.db fun _ => []
  mem : HoldsHistories n.runtime.db fun _ => []
  manifest : ∀ h, KV.get rt.db (manifestKey h) = none

section Records

variable {σ : Store} {h : Nat} {hash root name : Bytes}

theorem flushBatch_nil (σ : Store) (h : Nat) : flushBatch σ .none h [] =
    .ok [.put (rootKey h) (previousRoot (rocksDB σ) h),.put tipHeightKey (u32le h)] := rfl

/-- The commit of an empty flush writes the records of its height and the pointers. -/
theorem get_commit_empty (prev tip : Bytes) (h1 : rootKey h ≠ name) (h2 : tipHeightKey ≠ name)
    (h3 : blockHashKey h ≠ name) (h4 : indexedHeightKey ≠ name) :
    KV.get (KV.write σ (commitOps h hash root [.put (rootKey h) prev,.put tipHeightKey tip])) name =
      KV.get σ name := by
  apply KV.get_write_of_not_mem
  intro op hop
  simp only [commitOps, List.cons_append, List.nil_append, List.mem_cons, List.not_mem_nil,
    or_false] at hop
  rcases hop with rfl | rfl | rfl | rfl | rfl
  · exact h1
  · exact h2
  · exact h3
  · exact h1
  · exact h4

theorem commit_empty_histories (hσ : HoldsHistories σ fun _ => []) (hash root : Bytes) :
    HoldsHistories (KV.write σ (commitOps h hash root
      [.put (rootKey h) (previousRoot (rocksDB σ) h),.put tipHeightKey (u32le h)])) fun _ => [] := by
  obtain ⟨built,hbuild⟩ := build_of_flushBatch (flushBatch_nil σ h)
  obtain ⟨hh,_⟩ := build_histories (L := .empty) hσ (fun _ => Nat.two_pow_pos 32) hbuild
  exact commitOps_histories hh hash root

theorem commit_empty_manifest (prev tip : Bytes) (i : Nat) :
    KV.get (KV.write σ (commitOps h hash root [.put (rootKey h) prev,.put tipHeightKey tip]))
      (manifestKey i) = KV.get σ (manifestKey i) := by
  apply get_commit_empty
  · exact Record.name_ne (r := .root h) (s := .update manifestBase i) (by simp)
  · exact Record.name_ne (r := .tipHeight) (s := .update manifestBase i) (by simp)
  · apply Record.name_ne (r := .update blockHashBase h) (s := .update manifestBase i)
    simp [manifestBase_ne_blockHashBase.symm]
  · exact Record.name_ne (r := .indexedHeight) (s := .update manifestBase i) (by simp)

theorem commit_empty_genesis (prev tip : Bytes) :
    getBlockHash (KV.write σ (commitOps h hash root [.put (rootKey h) prev,.put tipHeightKey tip])) 0 =
      none ↔ h ≠ 0 ∧ getBlockHash σ 0 = none := by
  by_cases h0 : h = 0
  · subst h0
    rw [commitOps_hash_self]
    simp
  · rw [getBlockHash, get_commit_empty, and_iff_right h0, getBlockHash]
    · exact Record.name_ne (r := .root h) (s := .update blockHashBase 0) (by simp)
    · exact Record.name_ne (r := .tipHeight) (s := .update blockHashBase 0) (by simp)
    · exact Record.name_ne (r := .update blockHashBase h) (s := .update blockHashBase 0) (by simp [h0])
    · exact Record.name_ne (r := .indexedHeight) (s := .update blockHashBase 0) (by simp)

theorem memCommitOps_histories {H : Bytes → History Nat Bytes} (hσ : HoldsHistories σ H) :
    HoldsHistories (KV.write σ (memCommitOps h hash root)) H := by
  apply hσ.internal
  intro op hop
  simp only [memCommitOps, List.mem_cons, List.not_mem_nil, or_false] at hop
  rcases hop with rfl | rfl | rfl
  · exact .blockHashMeta h
  · exact .stateRootMeta h
  · exact .tipHeight

theorem memCommitOps_tip (σ : Store) :
    KV.get (KV.write σ (memCommitOps h hash root)) tipHeightKey = some (u32le (h+1)) := by
  rw [KV.get_write]
  rfl

theorem memCommitOps_genesis (σ : Store) :
    KV.get (KV.write σ (memCommitOps h hash root)) (blockHashMetaKey 0) = none ↔
      h ≠ 0 ∧ KV.get σ (blockHashMetaKey 0) = none := by
  have h1 : stateRootMetaKey h ≠ blockHashMetaKey 0 :=
    Record.name_ne (r := .stateRootMeta h) (s := .blockHashMeta 0) (by simp)
  have h2 : tipHeightKey ≠ blockHashMetaKey 0 :=
    Record.name_ne (r := .tipHeight) (s := .blockHashMeta 0) (by simp)
  have h3 : blockHashMetaKey h = blockHashMetaKey 0 ↔ h = 0 := by
    constructor
    · intro he
      have hr := Record.name_injective (r := .blockHashMeta h) (s := .blockHashMeta 0) he
      simpa using hr
    · intro h0
      rw [h0]
  rw [KV.get_write]
  simp only [memCommitOps, KV.effect, KV.Op.key, KV.Op.value, h1, h2, h3, if_false, Option.none_or]
  by_cases h0 : h = 0
  · simp [h0]
  · simp [h0]

end Records

section Steps

variable {rt : MetashrewRuntime} {n : MemNode} {flushes : List Flush} {height : Nat} {hash : Bytes}
  {last : Flush}

theorem nodeStep_block (hrt : rt.Idle) (hσ : HoldsHistories rt.db fun _ => [])
    (hlast : flushes.getLast? = some last) (height : Nat) (hash : Bytes) :
    ∃ (rt' : MetashrewRuntime) (root : Bytes) (batch : List Op), rt'.Idle ∧ flushBatch rt.db .none height last.list = .ok batch ∧
      rt.nodeStep (.block height flushes hash) =
        { rt' with db := (commitAtomic height hash root batch).finalState rt.db } := by
  obtain ⟨rt',root,batch,hblock,hidle,hdb,hb⟩ :=
    MetashrewRuntime.processBlockAtomic_last hrt hσ hlast height hash
  refine ⟨rt',root,batch,hidle,hb,?_⟩
  rw [MetashrewRuntime.nodeStep, hblock, ← hdb]

theorem step_block (hrt : n.runtime.Idle) (hσ : HoldsHistories n.runtime.db fun _ => [])
    (hlast : flushes.getLast? = some last) (height : Nat) (hash : Bytes) :
    ∃ (rt' : MetashrewRuntime) (root : Bytes), rt'.Idle ∧ n.step (.block height flushes hash) =
      .withStorage rt' (n.storage.commitAtomic height hash root []).1 := by
  obtain ⟨rt',root,batch,hblock,hidle,hdb,_⟩ :=
    MetashrewRuntime.processBlockAtomic_last hrt hσ hlast height hash
  refine ⟨rt',root,hidle,?_⟩
  rw [MemNode.step, hblock, MemNode.storage, ← hdb]

theorem commitAtomic_rejected_finalState {σ : Store} (h : ¬AcceptsHeight σ height) (hash root : Bytes)
    (ops : List Op) : (commitAtomic height hash root ops).finalState σ = σ := by
  rw [AcceptsHeight, not_or] at h
  have hrun := commitAtomic_eq σ height hash root ops
  rw [if_pos (by simp [h.1, h.2])] at hrun
  exact Prog.finalState_eq hrun

theorem isFreshDb_iff (σ : Store) :
    isFreshDb σ = true ↔ getIndexedHeight σ = 0 ∧ getBlockHash σ 0 = none := by
  rw [isFreshDb, Bool.and_eq_true, beq_iff_eq, Option.isNone_iff_eq_none]

namespace InStep

theorem nextHeight (h : InStep rt n) (height : Nat) :
    n.storage.getIndexedHeight = 0 ∧ n.storage.getBlockHash 0 = none ∨
      height = saturatingSucc n.storage.getIndexedHeight ↔ AcceptsHeight rt.db height := by
  rw [AcceptsHeight, isFreshDb_iff, h.height, h.genesis]

theorem agree (h : InStep rt n) : BackendsAgree rt n := by
  refine ⟨h.height,?_⟩
  intro key hk i
  have hmem := (h.mem.hasHistory (.inl hk)).searchUpdates .nil (by simp) (Nat.zero_le _) i
  have hrocks := (h.rocks.hasHistory (.inl hk)).searchUpdates .nil (by simp) (Nat.zero_le _) i
  exact hmem.trans hrocks.symm

/-- A block that is not committed. -/
theorem same_stores (h : InStep rt n) {rt' rt'' : MetashrewRuntime} (hrt' : rt'.Idle)
    (hrt'' : rt''.Idle) (hdb' : rt'.db = rt.db) (hdb'' : rt''.db = n.runtime.db) :
    InStep rt' ⟨rt'',n.height⟩ where
  rocksIdle := hrt'
  memIdle := hrt''
  height := by
    rw [MemNode.storage, hdb', hdb'']
    exact h.height
  bound := by
    rw [MemNode.storage, hdb'']
    exact h.bound
  genesis := by
    rw [MemNode.storage, hdb', hdb'']
    exact h.genesis
  rocks := by
    rw [hdb']
    exact h.rocks
  mem := by
    rw [hdb'']
    exact h.mem
  manifest := by
    rw [hdb']
    exact h.manifest

/-- An empty flush of the next block. -/
theorem block_empty (h : InStep rt n) (hlast : flushes.getLast? = some last) (hnil : last.list = [])
    (hnext : AcceptsHeight rt.db height) (hh : height+1<2^32) (hash : Bytes) :
    InStep (rt.nodeStep (.block height flushes hash)) (n.step (.block height flushes hash)) := by
  obtain ⟨rt',root,batch,hidle,hb,hrocks⟩ := nodeStep_block h.rocksIdle h.rocks hlast height hash
  obtain ⟨rt'',root',hidle'',hmem⟩ := step_block h.memIdle h.mem hlast height hash
  rw [hnil, flushBatch_nil] at hb
  obtain rfl := Except.ok.inj hb
  rw [MemStorage.commitAtomic_accepted ((h.nextHeight height).mpr hnext), if_pos hh] at hmem
  rw [commitAtomic_finalState hash root _ hnext] at hrocks
  rw [hrocks, hmem]
  have htip : MemStorage.getIndexedHeight
      ⟨KV.write n.runtime.db (memCommitOps height hash root'),height⟩ = height := by
    rw [MemStorage.getIndexedHeight, memCommitOps_tip, Option.bind_some, readU32le_u32le hh]
    exact Nat.add_sub_cancel height 1
  refine ⟨hidle.withStore _,hidle''.withStore _,?_,?_,?_,?_,?_,?_⟩
  · show MemStorage.getIndexedHeight _ = getIndexedHeight _
    rw [commitOps_indexed (by omega)]
    exact htip
  · show MemStorage.getIndexedHeight _+1<2^32
    exact htip.symm ▸ hh
  · show KV.get _ (blockHashMetaKey 0) = none ↔ getBlockHash _ 0 = none
    rw [commit_empty_genesis]
    exact (memCommitOps_genesis n.runtime.db).trans (and_congr_right fun _ => h.genesis)
  · exact commit_empty_histories h.rocks hash root
  · exact memCommitOps_histories h.mem
  · intro i
    show KV.get (KV.write rt.db _) (manifestKey i) = none
    rw [commit_empty_manifest]
    exact h.manifest i

/-- A block whose flush has a pair: its key reads in RocksDB alone. -/
theorem block_update (h : InStep rt n) (hlast : flushes.getLast? = some last) (hne : last.list ≠ [])
    (hp : last.Plain) (hnext : AcceptsHeight rt.db height) (hh : height<2^32) (hash : Bytes) :
    ¬BackendsAgree (rt.nodeStep (.block height flushes hash)) (n.step (.block height flushes hash)) := by
  obtain ⟨rt',root,batch,_,hb,hrocks⟩ := nodeStep_block h.rocksIdle h.rocks hlast height hash
  obtain ⟨rt'',root',_,hmem⟩ := step_block h.memIdle h.mem hlast height hash
  rw [commitAtomic_finalState hash root batch hnext] at hrocks
  rw [MemStorage.commitAtomic_accepted ((h.nextHeight height).mpr hnext)] at hmem
  obtain ⟨kv,hkv⟩ := List.exists_mem_of_ne_nil _ hne
  obtain ⟨built,hbuild⟩ := build_of_flushBatch hb
  obtain ⟨hh',hshort⟩ := build_histories (L := .empty) h.rocks (fun _ => Nat.two_pow_pos 32) hbuild
  have hσ := commitOps_histories (h := height) hh' hash root
  have hmemσ : HoldsHistories (n.step (.block height flushes hash)).runtime.db fun _ => [] := by
    rw [hmem]
    split_ifs
    · exact memCommitOps_histories h.mem
    · apply h.mem.internal
      intro op hop
      simp only [List.mem_cons, List.not_mem_nil, or_false] at hop
      rcases hop with rfl | rfl
      · exact .blockHashMeta height
      · exact .stateRootMeta height
  intro hagree
  have hread := hagree.2 kv.1 (hp kv hkv) height
  have hnone := (hmemσ.hasHistory (.inl (hp kv hkv))).searchUpdates .nil (by simp) (Nat.zero_le _) height
  have hupdates : updatesOf kv.1 last.list ≠ [] := by
    rw [ne_eq, updatesOf_eq_nil]
    push Not
    exact ⟨kv,hkv,rfl⟩
  have hhist : (Ledger.empty.appendAll height last.list).history kv.1 =
      (updatesOf kv.1 last.list).map fun v => (height,v) := by
    rw [Ledger.appendAll_history]
    rfl
  have hle : ∀ e ∈ (updatesOf kv.1 last.list).map (fun v => (height,v)), e.1 = height := by
    intro e he
    obtain ⟨v,_,rfl⟩ := List.mem_map.mp he
    rfl
  have hsome := (hσ.hasHistory (.inl (hp kv hkv))).searchUpdates_eq
    (by
      rw [hhist]
      exact List.pairwise_map.mpr (List.pairwise_of_forall fun _ _ => le_rfl))
    (by
      rw [hhist]
      intro e he
      rwa [hle e he]) (hshort kv.1) height
  have hvalue : asOf height ((Ledger.empty.appendAll height last.list).history kv.1) ≠ none := by
    rw [hhist, asOf, upTo_of_le fun e he => (hle e he).le, ne_eq, Option.map_eq_none_iff,
      List.getLast?_eq_none_iff, List.map_eq_nil_iff]
    exact hupdates
  rw [hrocks] at hread
  have hboth := (hread.symm.trans hnone).symm.trans hsome
  split_ifs at hboth
  · exact hvalue (Except.ok.inj hboth).symm

/-- At the last height the pointer of the in-memory adapter overflows. -/
theorem block_last (h : InStep rt n) (hlast : flushes.getLast? = some last)
    (hnext : AcceptsHeight rt.db height) (hh : height<2^32) (hover : ¬height+1<2^32) (hash : Bytes) :
    ¬BackendsAgree (rt.nodeStep (.block height flushes hash)) (n.step (.block height flushes hash)) := by
  obtain ⟨rt',root,batch,_,_,hrocks⟩ := nodeStep_block h.rocksIdle h.rocks hlast height hash
  obtain ⟨rt'',root',_,hmem⟩ := step_block h.memIdle h.mem hlast height hash
  rw [commitAtomic_finalState hash root batch hnext] at hrocks
  rw [MemStorage.commitAtomic_accepted ((h.nextHeight height).mpr hnext), if_neg hover] at hmem
  intro hagree
  have hheight := hagree.1
  have h1 : blockHashMetaKey height ≠ tipHeightKey :=
    Record.name_ne (r := .blockHashMeta height) (s := .tipHeight) (by simp)
  have h2 : stateRootMetaKey height ≠ tipHeightKey :=
    Record.name_ne (r := .stateRootMeta height) (s := .tipHeight) (by simp)
  have hkeep : (n.step (.block height flushes hash)).storage.getIndexedHeight =
      n.storage.getIndexedHeight := by
    rw [hmem]
    show MemStorage.getIndexedHeight ⟨KV.write n.runtime.db _,n.height⟩ = _
    rw [MemStorage.getIndexedHeight, MemStorage.getIndexedHeight, KV.get_write]
    simp [KV.effect, KV.Op.key, h1, h2, MemNode.storage]
  have hrocksHeight : getIndexedHeight (rt.nodeStep (.block height flushes hash)).db = height := by
    rw [hrocks]
    exact commitOps_indexed hh
  rw [hkeep, hrocksHeight] at hheight
  have hbound := h.bound
  omega

theorem rollback (h : InStep rt n) {r : Nat} (hr : r+1<2^32) :
    InStep (rt.nodeStep (.rollback r)) (n.step (.rollback r)) := by
  obtain ⟨names,hnames,hrocks⟩ := rollbackToHeight_flat h.rocks.length h.manifest r
  obtain ⟨names',hnames',hmem⟩ := MemStorage.rollbackToHeight_flat (m := n.storage) h.mem.length r
  rw [if_pos hr] at hmem
  rw [MetashrewRuntime.nodeStep, hrocks, MemNode.step, hmem]
  have htip : MemStorage.getIndexedHeight ⟨KV.write (KV.write n.storage.db (names'.map .delete))
      [.put tipHeightKey (u32le (r+1))],r⟩ = r := by
    rw [MemStorage.getIndexedHeight, KV.get_write_put, if_pos rfl, Option.bind_some,
      readU32le_u32le hr]
    exact Nat.add_sub_cancel r 1
  have hindexed : indexedHeightKey ≠ blockHashKey 0 :=
    Record.name_ne (r := .indexedHeight) (s := .update blockHashBase 0) (by simp)
  have htipName : tipHeightKey ≠ blockHashMetaKey 0 :=
    Record.name_ne (r := .tipHeight) (s := .blockHashMeta 0) (by simp)
  refine ⟨h.rocksIdle.withStore _,h.memIdle.withStore _,?_,?_,?_,?_,?_,?_⟩
  · refine htip.trans ?_
    rw [getIndexedHeight, readPointer, KV.get_write_put, if_pos rfl, Option.bind_some,
      readU32le_u32le (by omega)]
    rfl
  · show MemStorage.getIndexedHeight _+1<2^32
    exact htip.symm ▸ hr
  · show KV.get (KV.write (KV.write n.storage.db (names'.map .delete))
        [.put tipHeightKey (u32le (r+1))]) (blockHashMetaKey 0) = none ↔
      KV.get (KV.write (KV.write rt.db (names.map .delete)) [.put indexedHeightKey (u32le r)])
        (blockHashKey 0) = none
    rw [KV.get_write_put, if_neg htipName, KV.get_write_put, if_neg hindexed,
      get_rolled_genesis hnames', get_rolled_slash hnames (by decide +kernel)]
    exact h.genesis
  · apply h.rocks.deletes.internal
    intro op hop
    rw [List.mem_singleton.mp hop]
    exact .indexedHeight
  · apply h.mem.deletes.internal
    intro op hop
    rw [List.mem_singleton.mp hop]
    exact .tipHeight
  · intro i
    have hne : indexedHeightKey ≠ manifestKey i :=
      Record.name_ne (r := .indexedHeight) (s := .update manifestBase i) (by simp)
    show KV.get (KV.write _ _) (manifestKey i) = none
    rw [KV.get_write_put, if_neg hne, KV.get_write_deletes, h.manifest]
    exact ite_self _

theorem rollback_last (h : InStep rt n) {r : Nat} (hr : r<2^32) (hover : ¬r+1<2^32) :
    ¬BackendsAgree (rt.nodeStep (.rollback r)) (n.step (.rollback r)) := by
  obtain ⟨names,hnames,hrocks⟩ := rollbackToHeight_flat h.rocks.length h.manifest r
  obtain ⟨names',hnames',hmem⟩ := MemStorage.rollbackToHeight_flat (m := n.storage) h.mem.length r
  rw [if_neg hover] at hmem
  intro hagree
  have hheight := hagree.1
  have hkeep : (n.step (.rollback r)).storage.getIndexedHeight = n.storage.getIndexedHeight := by
    rw [MemNode.step, hmem]
    show MemStorage.getIndexedHeight ⟨KV.write n.storage.db _,n.height⟩ = _
    rw [MemStorage.getIndexedHeight, get_rolled_slash hnames' (by decide +kernel)]
    rfl
  have hindexed : getIndexedHeight (rt.nodeStep (.rollback r)).db = r := by
    rw [MetashrewRuntime.nodeStep, hrocks, getIndexedHeight, readPointer, KV.get_write_put,
      if_pos rfl, Option.bind_some, readU32le_u32le hr]
    rfl
  rw [hkeep, hindexed] at hheight
  have hbound := h.bound
  omega

/-- A block that is not the next one, or has no flush, changes neither store. -/
theorem block_kept (h : InStep rt n)
    (hkept : flushes.getLast? = none ∨ ¬AcceptsHeight rt.db height) (hash : Bytes) :
    InStep (rt.nodeStep (.block height flushes hash)) (n.step (.block height flushes hash)) := by
  cases hlast : flushes.getLast? with
  | none =>
    obtain rfl := List.getLast?_eq_none_iff.mp hlast
    obtain ⟨rt',e,hblock,hidle,hdb⟩ :=
      MetashrewRuntime.processBlockAtomic_nil h.rocksIdle height hash
    obtain ⟨rt'',e',hblock',hidle',hdb'⟩ :=
      MetashrewRuntime.processBlockAtomic_nil h.memIdle height hash
    rw [MetashrewRuntime.nodeStep, hblock, MemNode.step, hblock']
    exact h.same_stores hidle hidle' hdb hdb'
  | some last =>
    have hrej : ¬AcceptsHeight rt.db height := by
      rcases hkept with hnone | hrej
      · rw [hlast] at hnone
        cases hnone
      · exact hrej
    obtain ⟨rt',root,batch,hidle,_,hrocks⟩ := nodeStep_block h.rocksIdle h.rocks hlast height hash
    obtain ⟨rt'',root',hidle'',hmem⟩ := step_block h.memIdle h.mem hlast height hash
    have hrej' := (h.nextHeight height).not.mpr hrej
    rw [not_or] at hrej'
    rw [commitAtomic_rejected_finalState hrej] at hrocks
    rw [MemStorage.commitAtomic_rejected hrej'.1 hrej'.2] at hmem
    rw [hrocks, hmem]
    exact h.same_stores (hidle.withStore rt.db) (hidle''.withStore n.runtime.db) rfl rfl

/-- A quiet step keeps the nodes in step. -/
theorem step (h : InStep rt n) {s : NodeStep} (hq : rt.Quiet s) :
    InStep (rt.nodeStep s) (n.step s) := by
  cases s with
  | rollback r => exact h.rollback hq
  | block height flushes hash =>
    by_cases hnext : AcceptsHeight rt.db height
    · cases hlast : flushes.getLast? with
      | none => exact h.block_kept (.inl hlast) hash
      | some last =>
        obtain ⟨hh,hnil⟩ := hq hnext last hlast
        exact h.block_empty hlast hnil hnext hh hash
    · exact h.block_kept (.inr hnext) hash

/-- Any other step parts them. -/
theorem parts (h : InStep rt n) {s : NodeStep} (hv : s.Valid) (hq : ¬rt.Quiet s) :
    ¬BackendsAgree (rt.nodeStep s) (n.step s) := by
  cases s with
  | rollback r => exact h.rollback_last hv hq
  | block height flushes hash =>
    rw [MetashrewRuntime.Quiet] at hq
    push Not at hq
    obtain ⟨hnext,last,hlast,hbusy⟩ := hq
    by_cases hh : height+1<2^32
    · exact h.block_update hlast (hbusy hh) (hv.2 last (List.mem_of_getLast? hlast)) hnext hv.1 hash
    · exact h.block_last hlast hnext hv.1 hh hash

end InStep

end Steps

/-- In memory the node agrees with RocksDB after every step exactly when no committed block flushes an
update and no step is at the last height. -/
theorem in_memory_agrees_iff (rt : MetashrewRuntime) (n : MemNode) (hrt : rt.Idle)
    (hn : n.runtime.Idle) (hdb : rt.db = ∅) (hmem : n.runtime.db = ∅) (hheight : n.height = 0)
    (steps : List NodeStep) (hv : ∀ s ∈ steps, s.Valid) :
    AgreeAlong rt n steps ↔ QuietAlong rt steps := by
  have hinit : InStep rt n := by
    have hzero : n.storage.getIndexedHeight = 0 := by
      rw [MemNode.storage, hmem, hheight, MemStorage.getIndexedHeight, KV.get_empty]
      rfl
    refine ⟨hrt,hn,?_,?_,?_,?_,?_,?_⟩
    · rw [hzero, hdb]
      decide +kernel
    · rw [hzero]
      decide
    · rw [MemStorage.getBlockHash, getBlockHash, MemNode.storage, hdb, hmem, KV.get_empty, KV.get_empty]
    · rw [hdb]
      exact HoldsHistories.empty
    · rw [hmem]
      exact HoldsHistories.empty
    · intro h
      rw [hdb, KV.get_empty]
  clear hrt hn hdb hmem hheight
  induction steps generalizing rt n with
  | nil => exact Iff.rfl
  | cons s rest ih =>
    have hrest : ∀ s ∈ rest, s.Valid := fun s' hs' => hv s' (List.mem_cons_of_mem s hs')
    rw [AgreeAlong, QuietAlong]
    by_cases hq : rt.Quiet s
    · have hnext := hinit.step hq
      rw [and_iff_right hnext.agree, and_iff_right hq]
      exact ih _ _ hrest hnext
    · have hpart := hinit.parts (hv s List.mem_cons_self) hq
      exact iff_of_false (fun h => hpart h.1) fun h => hq h.1

/-- Two blocks with empty flushes, and back to the first. -/
theorem in_memory_agrees_empty_blocks :
    AgreeAlong (.new ∅ 0 0) ⟨.new ∅ 0 0,0⟩
      [.block 0 [.nil] [7],.block 1 [.nil] [8],.rollback 0] := by
  apply (in_memory_agrees_iff (.new ∅ 0 0) ⟨.new ∅ 0 0,0⟩ ⟨rfl,rfl,by decide⟩ ⟨rfl,rfl,by decide⟩ rfl
    rfl rfl [.block 0 [.nil] [7],.block 1 [.nil] [8],.rollback 0] ?_).mpr
  · refine ⟨?_,?_,?_,trivial⟩
    · intro _ last hlast
      obtain rfl := Option.some.inj hlast
      exact ⟨by decide,rfl⟩
    · intro _ last hlast
      obtain rfl := Option.some.inj hlast
      exact ⟨by decide,rfl⟩
    · show 0+1<2^32
      decide
  · intro s hs
    simp only [List.mem_cons, List.not_mem_nil, or_false] at hs
    rcases hs with rfl | rfl | rfl
    · exact ⟨by decide,by simp [Flush.Plain]⟩
    · exact ⟨by decide,by simp [Flush.Plain]⟩
    · show 0<2^32
      decide

/-- The first block with an update: RocksDB has it, the map has not. -/
theorem in_memory_drops_update :
    ¬∀ (rt : MetashrewRuntime) (n : MemNode) (steps : List NodeStep), rt.Idle → n.runtime.Idle →
      rt.db = ∅ → n.runtime.db = ∅ → n.height = 0 → (∀ s ∈ steps, s.Valid) → AgreeAlong rt n steps := by
  intro h
  have hagree := h (.new ∅ 0 0) ⟨.new ∅ 0 0,0⟩ [.block 0 [.single 'a' [1]] [7]] ⟨rfl,rfl,by decide⟩
    ⟨rfl,rfl,by decide⟩ rfl rfl rfl (by
      intro s hs
      rw [List.mem_singleton.mp hs]
      refine ⟨by decide,?_⟩
      intro f hf kv hkv
      rw [List.mem_singleton.mp hf] at hkv
      rw [List.mem_singleton.mp hkv]
      decide)
  have hread := hagree.1.2 (ascii "a") (by decide) 0
  have hdiff : getAtHeight (rocksDB ((⟨.new ∅ 0 0,0⟩ : MemNode).step
      (.block 0 [.single 'a' [1]] [7])).runtime.db) (ascii "a") 0 ≠
      getAtHeight (rocksDB ((MetashrewRuntime.new ∅ 0 0).nodeStep
        (.block 0 [.single 'a' [1]] [7])).db) (ascii "a") 0 := by decide +kernel
  exact hdiff hread

end Metashrew
