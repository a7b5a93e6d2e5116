import Mathlib
import Metashrew.Ledger.Reads
import Metashrew.Snapshot.Fidelity
import Metashrew.Sync.Heal

namespace Metashrew

open Bytes Durable Versioned

section Format

variable {kv : Bytes × Bytes} {pairs : List (Bytes × Bytes)} {rest : Bytes}

/-- A key and a value whose lengths fit their fields. -/
def PairFits (kv : Bytes × Bytes) : Prop := kv.1.length < 2^32 ∧ kv.2.length < 2^32

end Format

section Names

variable {d : DiffData} {h : Nat}

theorem slash_not_mem_repoRootKey (h : Nat) : (47:UInt8) ∉ repoRootKey h := by
  rw [repoRootKey, List.mem_append, not_or]
  exact ⟨by decide,not_mem_decimal (by decide) h⟩

theorem repoRootKey_ne_rootKey (h h' : Nat) : repoRootKey h ≠ rootKey h' := by
  intro he
  rw [repoRootKey, rootKey, smtRootPrefix, List.append_assoc] at he
  have hcolon : (58:UInt8) ∈ decimal h' := by
    rw [← List.append_cancel_left he]
    exact List.mem_append_left _ (by decide)
  exact not_mem_decimal (by decide) h' hcolon

/-- The names that a sync puts. -/
inductive Restored : Bytes → Prop where
  | length (key : Bytes) : Restored (lengthKey key)
  | update (key : Bytes) (i : Nat) : Restored (updateKey key i)
  | root (h : Nat) : Restored (repoRootKey h)
  | tipHeight : Restored tipHeightKey

theorem restored_restorePair {op : Op} {kv : Bytes × Bytes} (hop : op ∈ restorePair h kv) :
    Restored op.key := by
  rw [restorePair, List.mem_cons, List.mem_singleton] at hop
  rcases hop with rfl | rfl
  · exact .length _
  · exact .update _ _

theorem restored_restoreOps {op : Op} (hop : op ∈ restoreOps d) : Restored op.key := by
  rw [restoreOps, List.mem_append, List.mem_append, List.mem_singleton, List.mem_singleton] at hop
  rcases hop with (hop | rfl) | rfl
  · obtain ⟨kv,_,hkv⟩ := List.mem_flatMap.mp hop
    exact restored_restorePair hkv
  · exact .root _
  · exact .tipHeight

theorem not_restored_rootKey (h : Nat) : ¬Restored (rootKey h) := by
  intro hr
  generalize hn : rootKey h = name at hr
  cases hr with
  | length key => exact Record.name_ne (r := .root h) (s := .length key) (by simp) hn
  | update key i => exact Record.name_ne (r := .root h) (s := .update key i) (by simp) hn
  | root h' => exact repoRootKey_ne_rootKey h' h hn.symm
  | tipHeight => exact Record.name_ne (r := .root h) (s := .tipHeight) (by simp) hn

theorem not_restored_indexedHeight : ¬Restored indexedHeightKey := by
  intro hr
  generalize hn : indexedHeightKey = name at hr
  cases hr with
  | length key => exact Record.name_ne (r := .indexedHeight) (s := .length key) (by simp) hn
  | update key i => exact Record.name_ne (r := .indexedHeight) (s := .update key i) (by simp) hn
  | root h' =>
    apply slash_not_mem_repoRootKey h'
    rw [← hn]
    decide
  | tipHeight => exact absurd hn (by decide)

theorem get_foldl_apply {name : Bytes} (hn : ¬Restored name) (ds : List DiffData) (s : RepoSync) :
    KV.get (ds.foldl RepoSync.apply s).db name = KV.get s.db name := by
  induction ds generalizing s with
  | nil => rfl
  | cons d ds ih =>
    rw [List.foldl_cons, ih]
    apply KV.get_write_of_not_mem
    intro op hop he
    exact hn (he ▸ restored_restoreOps hop)

end Names

section Histories

variable {d : DiffData} {key : Bytes} {σ : Store} {l : History Nat Bytes}

/-- The entries that an applied interval has for a key. -/
def restoredEntries (key : Bytes) (d : DiffData) : History Nat Bytes :=
  ((parseDiff d.diffData).1.filter fun kv => lossyText kv.1 = key).map fun kv =>
    ((d.interval.endHeight:Nat),kv.2)

theorem get_restorePair (σ : Store) (h : Nat) (kv : Bytes × Bytes) (r : Record) :
    KV.get (KV.write σ (restorePair h kv)) r.name =
      if Record.update (lossyText kv.1) 0 = r then some (formatUpdate h kv.2)
      else if Record.length (lossyText kv.1) = r then some (decimal 1)
      else KV.get σ r.name := by
  have hupdate : updateKey (lossyText kv.1) 0 = r.name ↔ Record.update (lossyText kv.1) 0 = r :=
    Record.name_inj (r := .update (lossyText kv.1) 0)
  have hlength : lengthKey (lossyText kv.1) = r.name ↔ Record.length (lossyText kv.1) = r :=
    Record.name_inj (r := .length (lossyText kv.1))
  rw [restorePair, KV.get_write]
  simp only [KV.effect, KV.Op.key, KV.Op.value, Option.none_or, hupdate, hlength]
  split_ifs <;> rfl

/-- A pair replaces the history of the key that its text spells. -/
theorem HasHistory.restorePair (hσ : HasHistory σ key l) (h : Nat) (kv : Bytes × Bytes) :
    HasHistory (KV.write σ (Metashrew.restorePair h kv)) key
      (if lossyText kv.1 = key then [(h,kv.2)] else l) := by
  have hlength := get_restorePair σ h kv (.length key)
  have hupdate := fun i => get_restorePair σ h kv (.update key i)
  simp only [Record.name, reduceCtorEq, if_false, Record.length.injEq, Record.update.injEq]
    at hlength hupdate
  by_cases hk : lossyText kv.1 = key
  · rw [if_pos hk]
    constructor
    · rw [hlength, if_pos hk]
      rfl
    · intro i hi
      have hzero : i = 0 := by simpa using hi
      subst hzero
      rw [hupdate, if_pos ⟨hk,rfl⟩]
      rfl
  · rw [if_neg hk]
    constructor
    · rw [hlength, if_neg hk, hσ.length]
    · intro i hi
      rw [hupdate, if_neg fun h => hk h.1, hσ.update i hi]

/-- The histories of what a store and then some entries say of a key. -/
theorem HasHistory.restorePairs (hσ : HasHistory σ key l) (h : Nat) (kvs : List (Bytes × Bytes)) :
    HasHistory (KV.write σ (kvs.flatMap (Metashrew.restorePair h))) key
      (((((kvs.filter fun kv => lossyText kv.1 = key).map fun kv => (h,kv.2)).getLast?).map
        fun e => [e]).getD l) := by
  induction kvs generalizing σ l with
  | nil => exact hσ
  | cons kv kvs ih =>
    rw [List.flatMap_cons, KV.write_append]
    have hrest := ih (hσ.restorePair h kv)
    by_cases hk : lossyText kv.1 = key
    · rw [if_pos hk] at hrest
      rw [List.filter_cons_of_pos (by simpa using hk), List.map_cons, List.getLast?_cons]
      cases hlast : ((kvs.filter fun kv => lossyText kv.1 = key).map fun kv => (h,kv.2)).getLast? with
      | none =>
        rw [hlast] at hrest
        exact hrest
      | some e =>
        rw [hlast] at hrest
        exact hrest
    · rw [if_neg hk] at hrest
      rw [List.filter_cons_of_neg (by simpa using hk)]
      exact hrest

/-- Names without a history record keep the histories. -/
theorem HasHistory.write_beside {ops : List Op} (hσ : HasHistory σ key l)
    (hl : ∀ op ∈ ops, op.key ≠ lengthKey key) (hu : ∀ op ∈ ops, ∀ i, op.key ≠ updateKey key i) :
    HasHistory (KV.write σ ops) key l where
  length := by
    rw [KV.get_write_of_not_mem hl]
    exact hσ.length
  update i hi := by
    rw [KV.get_write_of_not_mem fun op hop => hu op hop i]
    exact hσ.update i hi

theorem HasHistory.restoreOps (hσ : HasHistory σ key l) (d : DiffData) :
    HasHistory (KV.write σ (Metashrew.restoreOps d)) key
      ((((restoredEntries key d).getLast?).map fun e => [e]).getD l) := by
  rw [Metashrew.restoreOps, KV.write_append, KV.write_append]
  have htip : ∀ r : Record, r ≠ .tipHeight → tipHeightKey ≠ r.name := by
    intro r hr
    exact Record.name_ne (r := .tipHeight) (Ne.symm hr)
  have hroot : ∀ name : Bytes, (47:UInt8) ∈ name → ∀ h, repoRootKey h ≠ name := by
    intro name hname h he
    exact slash_not_mem_repoRootKey h (he ▸ hname)
  apply HasHistory.write_beside
  · apply HasHistory.write_beside (hσ.restorePairs _ _)
    · intro op hop
      rw [List.mem_singleton] at hop
      subst hop
      exact hroot _ (slash_mem_lengthKey key) _
    · intro op hop i
      rw [List.mem_singleton] at hop
      subst hop
      exact hroot _ (slash_mem_updateKey key i) _
  · intro op hop
    rw [List.mem_singleton] at hop
    subst hop
    exact htip (.length key) (by simp)
  · intro op hop i
    rw [List.mem_singleton] at hop
    subst hop
    exact htip (.update key i) (by simp)

end Histories

section Synced

variable {files : List Bytes} {intervals : List RepoInterval} {indexerPath : Option Bytes}
  {out : RepoSynced}

/-- A fresh node after a sync: it has applied intervals to an empty database. -/
theorem synced_db (h : syncFromRepo files (.ok intervals) indexerPath ∅ = .ok out) :
    out.db = (out.applied.foldl RepoSync.apply (.start ∅)).db := by
  by_cases hne : intervals = []
  · subst hne
    cases h
    rfl
  · obtain ⟨s,hs,hsync⟩ := syncFromRepo_eq hne files indexerPath ∅
    obtain ⟨happlied,_,_⟩ := syncFromRepo_spec hne h
    rw [hsync] at h
    cases h
    show s.db = (s.applied.foldl RepoSync.apply (.start ∅)).db
    have heq : s.applied = _ := happlied
    rw [heq, ← hs]

/-- The roots are under names with a second colon, where no reader looks. -/
theorem synced_root_missing (h : syncFromRepo files (.ok intervals) indexerPath ∅ = .ok out)
    (height : Nat) : getSmtRootAtHeight (rocksDB out.db) height =
      .error (.message s!"No state root found for height {height} or any previous height") := by
  have hnone : ∀ i, readRoot (rocksDB out.db) i = .ok none := by
    intro i
    have hget : KV.get out.db (rootKey i) = none := by
      rw [synced_db h, get_foldl_apply (not_restored_rootKey i)]
      exact KV.get_empty _
    have hread : storageError ((rocksDB out.db).getImmutable (rootKey i)) = .ok none := by
      rw [← hget]
      rfl
    rw [readRoot, hread]
    rfl
  have hbelow : rootAtOrBelow (rocksDB out.db) height = .ok none := by
    induction height with
    | zero => exact hnone 0
    | succ i ih =>
      rw [rootAtOrBelow, hnone]
      exact ih
  rw [getSmtRootAtHeight, hbelow]
  rfl

/-- The indexed height is never put, so the next heal goes back to 0. -/
theorem synced_heal (h : syncFromRepo files (.ok intervals) indexerPath ∅ = .ok out)
    {node : BitcoinNodeAdapter} {config : SyncConfig} {s : Nat} {o : StartupHealOutcome}
    {σ' : Store} (hheal : (healPointerDivergenceAtStartup node config).exec out.db = .ok ((s,o),σ')) :
    s = 0 := by
  have hindexed : getIndexedHeight out.db = 0 := by
    have hget : KV.get out.db indexedHeightKey = none := by
      rw [synced_db h, get_foldl_apply not_restored_indexedHeight]
      exact KV.get_empty _
    rw [getIndexedHeight, readPointer, hget]
    rfl
  have hle := (heal_cases hheal).2.1
  omega

end Synced

/-- A fresh node that has synced reads what the source does at the height it has reached, and keeps
that height when it starts. -/
structure SnapshotRoundTrip (source : Store) (out : RepoSynced) : Prop where
  current : ∀ key, ¬Reserved key →
    getCurrent (rocksDB out.db) key = getCurrent (rocksDB source) key
  atHeight : ∀ key, ¬Reserved key →
    getAtHeight (rocksDB out.db) key out.height = getAtHeight (rocksDB source) key out.height
  root : ∃ root, getSmtRootAtHeight (rocksDB source) out.height = .ok root ∧
    getSmtRootAtHeight (rocksDB out.db) out.height = .ok root
  heal : ∀ (node : BitcoinNodeAdapter) (config : SyncConfig) (s : Nat) (o : StartupHealOutcome)
    (σ' : Store), (healPointerDivergenceAtStartup node config).exec out.db = .ok ((s,o),σ') →
      s = out.height

/-- No sync gives back the source: there is no root that it could read. -/
theorem snapshot_never_round_trips {files : List Bytes} {intervals : List RepoInterval}
    {indexerPath : Option Bytes} {out : RepoSynced}
    (h : syncFromRepo files (.ok intervals) indexerPath ∅ = .ok out) (source : Store) :
    ¬SnapshotRoundTrip source out := by
  intro hround
  obtain ⟨root,_,hroot⟩ := hround.root
  rw [synced_root_missing h] at hroot
  cases hroot

/-- A written interval as a repository serves it when nothing fails. -/
def WrittenInterval.served (w : WrittenInterval) : RepoInterval where
  metadata := ⟨Fin.ofNat (2^32) w.startHeight,Fin.ofNat (2^32) w.endHeight,w.wasmFile⟩
  wasm := .stored
  diff := some w.diff
  root := some w.stateRoot

/-- Two blocks, the second with a root of 32 bytes and a snapshot after it. -/
def rootedBlocks : List Block :=
  [⟨.nil,[6],List.replicate 32 5⟩,⟨.single 'a' [1],[7],List.replicate 32 8⟩]

def rootedNode : SnapshotNode :=
  (trackedGenesis.step false (.block ⟨.single 'a' [1],[7],List.replicate 32 8⟩)).step false
    (.snapshot 1 (List.replicate 32 8))

/-- What the node of the two blocks has written. -/
def rootedRepo : List RepoInterval := rootedNode.written.map fun w => w.1.served

theorem rootedRepo_ne_nil : rootedRepo ≠ [] := by decide +kernel

theorem snapshot_never_round_trips_two_blocks :
    ∃ out, syncFromRepo [] (.ok rootedRepo) none ∅ = .ok out ∧
      ∀ source : Store, ¬SnapshotRoundTrip source out := by
  obtain ⟨s,_,hsync⟩ := syncFromRepo_eq rootedRepo_ne_nil [] none ∅
  exact ⟨_,hsync,snapshot_never_round_trips hsync⟩

/-- The source has a root at height 1 and the synced node, which says that it is there, has not. -/
theorem snapshot_loses_root :
    ∃ source out, commitBlocks 0 ∅ rootedBlocks = .ok source ∧
      syncFromRepo [] (.ok rootedRepo) none ∅ = .ok out ∧ out.height = 1 ∧
      getSmtRootAtHeight (rocksDB source) 1 = .ok (List.replicate 32 8) ∧
      getSmtRootAtHeight (rocksDB out.db) 1 =
        .error (.message "No state root found for height 1 or any previous height") ∧
      ¬SnapshotRoundTrip source out := by
  obtain ⟨s,_,hsync⟩ := syncFromRepo_eq rootedRepo_ne_nil [] none ∅
  obtain ⟨happlied,hheight,_⟩ := syncFromRepo_spec rootedRepo_ne_nil hsync
  have hsource : ((commitBlocks 0 ∅ rootedBlocks).bind fun σ =>
      getSmtRootAtHeight (rocksDB σ) 1) = .ok (List.replicate 32 8) := by decide +kernel
  have hends : lastEnd 0 (appliedFrom 0 (fetchedAbove [] rootedRepo 0)) = 1 := by decide +kernel
  have hone : s.currentHeight = 1 :=
    hheight.trans ((congrArg (lastEnd 0) happlied).trans hends)
  have hmissing := synced_root_missing hsync 1
  cases hcommit : commitBlocks 0 ∅ rootedBlocks with
  | error e =>
    rw [hcommit] at hsource
    cases hsource
  | ok source =>
    rw [hcommit] at hsource
    refine ⟨source,_,rfl,hsync,hone,hsource,hmissing,?_⟩
    intro hround
    obtain ⟨root,_,hroot⟩ := hround.root
    have hread : getSmtRootAtHeight (rocksDB s.db) s.currentHeight = .ok root := hroot
    rw [hone] at hread
    exact absurd (hread.symm.trans hmissing) (by simp)

end Metashrew
