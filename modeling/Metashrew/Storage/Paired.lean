import Metashrew.Ledger.Flushed
import Metashrew.Ledger.Frame
import Metashrew.Ledger.Heights
import Metashrew.Lib.Splits
import Metashrew.Recovery.Retry
import Metashrew.Storage.Labels

namespace Metashrew

open Bytes Durable Versioned

section Names

/-- A label holds a colon and a slash. -/
theorem not_label_prefix {s name : Bytes} (h : (58:UInt8) ∉ name ∨ (47:UInt8) ∉ name) :
    ¬labelBytes (some s) <+: name := by
  rintro ⟨t,rfl⟩
  have hsep : ∀ b ∈ ascii "://", b ∈ labelBytes (some s) ++ t := by
    intro b hb
    rw [labelBytes, List.append_assoc]
    exact List.mem_append_right s (List.mem_append_left t hb)
  obtain h | h := h
  · exact h (hsep 58 (by decide))
  · exact h (hsep 47 (by decide))

private theorem colon_not_mem_decimal (n : Nat) : (58:UInt8) ∉ decimal n := not_mem_decimal (by decide) n

private theorem slash_not_mem_decimal' (n : Nat) : (47:UInt8) ∉ decimal n :=
  not_mem_decimal (by decide) n

variable (s : Bytes)

theorem indexedHeightKey_beside : ¬labelBytes (some s) <+: indexedHeightKey :=
  not_label_prefix (.inl (by decide))

theorem tipHeightKey_beside : ¬labelBytes (some s) <+: tipHeightKey :=
  not_label_prefix (.inl (by decide))

theorem blockHashKey_beside (h : Nat) : ¬labelBytes (some s) <+: blockHashKey h := by
  apply not_label_prefix
  left
  rw [blockHashKey, List.mem_append, not_or]
  exact ⟨by decide,colon_not_mem_decimal h⟩

theorem manifestKey_beside (h : Nat) : ¬labelBytes (some s) <+: manifestKey h := by
  apply not_label_prefix
  left
  rw [manifestKey, List.mem_append, not_or]
  exact ⟨by decide,colon_not_mem_decimal h⟩

theorem rootKey_beside (h : Nat) : ¬labelBytes (some s) <+: rootKey h := by
  apply not_label_prefix
  right
  rw [rootKey, List.mem_append, not_or]
  exact ⟨by decide,slash_not_mem_decimal' h⟩

theorem lengthKey_behind (pre key : Bytes) : lengthKey (pre ++ key) = pre ++ lengthKey key :=
  List.append_assoc ..

theorem updateKey_behind (pre key : Bytes) (i : Nat) :
    updateKey (pre ++ key) i = pre ++ updateKey key i := by
  simp only [updateKey, List.append_assoc]

end Names

section Reads

theorem labelledDB_get (label : Bytes) (σ : Store) (key : Bytes) :
    (labelledDB label σ).getImmutable key = .ok (KV.get σ (label ++ key)) := by
  have hget : (runtimeHandle 0).getImmutable label ⟨[σ],[],[]⟩ key =
      (KV.get σ (makeLabeledKey label key)).or none := by
    cases hvalue : KV.get σ (makeLabeledKey label key) <;>
      simp [RocksDBRuntimeAdapter.getImmutable, runtimeHandle, Heap.db, hvalue]
  show Except.ok ((runtimeHandle 0).getImmutable label ⟨[σ],[],[]⟩ key) = _
  rw [hget, Option.or_none, makeLabeledKey]

/-- Under a label the runtime reads the records of the label. -/
theorem labelledDB_under {label : Bytes} {σ U P : Store} (h : KV.Splits label σ U P) :
    (labelledDB label σ).getImmutable = (rocksDB U).getImmutable := by
  funext key
  rw [labelledDB_get, h.under]
  rfl

theorem labelledDB_plain (σ : Store) : (labelledDB [] σ).getImmutable = (rocksDB σ).getImmutable := by
  funext key
  rw [labelledDB_get]
  rfl

theorem rocksDBBatch_eq (label : Bytes) (ops : List Op) :
    rocksDBBatch label ops = ops.map (KV.Op.behind label) := by
  have h : labelOp label = KV.Op.behind label := by
    funext op
    cases op <;> rfl
  rw [rocksDBBatch, h]

/-- A scan finds nothing when no name begins with the labelled prefix. -/
theorem scanPrefix_nil {label pre : Bytes} {σ : Store}
    (h : ∀ name ∈ σ.keys, (label ++ pre).isPrefixOf name = false) :
    (runtimeHandle 0).scanPrefix label ⟨[σ],[],[]⟩ pre = [] := by
  rw [RocksDBRuntimeAdapter.scanPrefix_eq]
  refine (KV.Overlay.merge_empty ..).trans ?_
  apply List.filter_eq_nil_iff.mpr
  intro e he
  have hmem : e.1 ∈ σ.keys := by
    rw [← Std.ExtTreeMap.map_fst_toList_eq_keys]
    exact List.mem_map_of_mem he
  rw [makeLabeledKey, h e.1 hmem]
  exact Bool.false_ne_true

end Reads

/-- Every key with an update above `r` is named by a manifest of the heights that a fast rollback from
the tip to `r` undoes. -/
def coversRollback (σ : Store) (r : Nat) : Bool :=
  getIndexedHeight σ ≤ r || !manifestsExist σ r (getIndexedHeight σ) ||
    (baseKeys σ.keys).all fun key =>
      ((heightsAbove r (getIndexedHeight σ)).reverse.flatMap fun h =>
          ((KV.get σ (manifestKey h)).map deserializeKeyManifest).getD []).contains key ||
        (getHeightsForKey (rocksDB σ) key).toOption.all fun heights => heights.all fun t => t ≤ r

/-- The keys collide with no internal name, and no key has an update at the height or above. -/
def fitsFlush (σ : Store) (height : Nat) (keyValues : List (Bytes × Bytes)) : Bool :=
  keyValues.all (fun kv => ¬Reserved kv.1) && (baseKeys σ.keys).all fun key =>
    (getHeightsForKey (rocksDB σ) key).toOption.all fun heights => heights.all fun t => t < height

section Plain

variable {σ : Store} {L : Ledger} {n : Nat}

private theorem mem_baseKeys (hσ : Represents σ L) {key : Bytes} :
    key ∈ baseKeys σ.keys ↔ L.history key ≠ [] := by
  rw [← mem_smtStructures hσ, smtStructures, KV.mem_sortedKeys]

theorem fitsFlush_spec (hσ : Represents σ L) (hL : L.Sound n) (hn : n ≤ 2^32) {h : Nat}
    {kvs : List (Bytes × Bytes)} (hf : fitsFlush σ h kvs = true) :
    (∀ kv ∈ kvs, ¬Reserved kv.1) ∧ ∀ key, ∀ e ∈ L.history key, e.1 < h := by
  obtain ⟨hp,hall⟩ := (Bool.and_eq_true _ _).mp hf
  refine ⟨by simpa using hp,?_⟩
  intro key e he
  obtain ⟨heights,hheights,hmem⟩ := getHeightsForKey_spec hσ hL hn key
  have hone := List.all_eq_true.mp hall key ((mem_baseKeys hσ).mpr (List.ne_nil_of_mem he))
  rw [hheights] at hone
  exact of_decide_eq_true (List.all_eq_true.mp hone e.1 ((hmem e.1).mpr ⟨e,he,rfl⟩))

theorem coversRollback_spec (hσ : Represents σ L) (hL : L.Sound n) (hn : n ≤ 2^32) {r m : Nat}
    (hcur : getIndexedHeight σ = m) (hr : r < m) (hf : coversRollback σ r = true)
    (hfast : manifestsExist σ r m = true) (key : Bytes) :
    (L.unwind r (heightsAbove r m).reverse).history key = upTo r (L.history key) := by
  rw [coversRollback, hcur, hfast, decide_eq_false (not_le.mpr hr), Bool.not_true, Bool.or_false,
    Bool.false_or, List.all_eq_true] at hf
  show (if _ then _ else _) = _
  split_ifs with hk
  · rfl
  · refine (upTo_of_le fun e he => ?_).symm
    have hone := hf key ((mem_baseKeys hσ).mpr (List.ne_nil_of_mem he))
    obtain ⟨heights,hheights,hmem⟩ := getHeightsForKey_spec hσ hL hn key
    have hout : ((heightsAbove r m).reverse.flatMap fun h =>
        ((KV.get σ (manifestKey h)).map deserializeKeyManifest).getD []).contains key = false := by
      rw [Bool.eq_false_iff]
      intro hin
      apply hk
      rw [List.contains_iff_mem, List.mem_flatMap] at hin
      obtain ⟨h,hh,hkey⟩ := hin
      refine List.mem_flatMap.mpr ⟨h,hh,?_⟩
      rw [hσ.get_manifest] at hkey
      cases hman : L.manifest h with
      | none =>
        rw [hman] at hkey
        cases hkey
      | some keys =>
        rw [hman, Option.map_some, Option.map_some, Option.getD_some,
          deserialize_serialize (hL.sized h keys hman)] at hkey
        exact hkey
    rw [hout, Bool.false_or, hheights] at hone
    exact of_decide_eq_true (List.all_eq_true.mp hone e.1 ((hmem e.1).mpr ⟨e,he,rfl⟩))

end Plain

/-- What the database keeps beside the records of the label. -/
structure Beside (P τ : Store) : Prop where
  length : ∀ key, KV.get P (lengthKey key) = none
  manifest : ∀ h, KV.get P (manifestKey h) = none
  indexed : KV.get P indexedHeightKey = KV.get τ indexedHeightKey
  hash : KV.get P (blockHashKey 0) = KV.get τ (blockHashKey 0)

/-- A database `σ` under a label beside `τ` without one: the records `U` of the label have the same
histories, and the records `P` that take no label the same pointer. -/
structure Paired (s : Bytes) (σ τ U P : Store) (LU L : Ledger) : Prop where
  splits : KV.Splits (labelBytes (some s)) σ U P
  under : Represents U LU
  plain : Represents τ L
  soundUnder : ∃ n, n ≤ 2^32 ∧ LU.Sound n
  soundPlain : ∃ n, n ≤ 2^32 ∧ L.Sound n
  history : ∀ key, LU.history key = L.history key
  bare : KV.get U (ascii "length") = none
  beside : Beside P τ
  fresh : KV.get U tipHeightKey = none → σ = τ

theorem Paired.empty (s : Bytes) : Paired s ∅ ∅ ∅ ∅ .empty .empty where
  splits := .empty _
  under := .empty
  plain := .empty
  soundUnder := ⟨0,by norm_num,.empty 0⟩
  soundPlain := ⟨0,by norm_num,.empty 0⟩
  history _ := rfl
  bare := KV.get_empty _
  beside := ⟨fun _ => KV.get_empty _,fun _ => KV.get_empty _,rfl,rfl⟩
  fresh _ := rfl

section Same

variable {s : Bytes} {σ τ U P : Store} {LU L : Ledger} (hp : Paired s σ τ U P LU L)
include hp

namespace Paired

theorem getIndexedHeight_eq : getIndexedHeight σ = getIndexedHeight τ := by
  rw [getIndexedHeight, readPointer, readPointer, hp.splits.beside _ (indexedHeightKey_beside s),
    hp.beside.indexed]

theorem isFreshDb_eq : isFreshDb σ = isFreshDb τ := by
  rw [isFreshDb, isFreshDb, hp.getIndexedHeight_eq, getBlockHash, getBlockHash,
    hp.splits.beside _ (blockHashKey_beside s 0), hp.beside.hash]

theorem get_length (key : Bytes) : KV.get U (lengthKey key) = KV.get τ (lengthKey key) := by
  rw [hp.under.get_length, hp.plain.get_length, hp.history]

/-- Lookups agree; a key with the name of an internal record has no updates in either. -/
theorem getAtHeight_eq (key : Bytes) (h : Nat) :
    getAtHeight (labelledDB (labelBytes (some s)) σ) key h = getAtHeight (labelledDB [] τ) key h := by
  have hlen : (labelledDB (labelBytes (some s)) σ).getImmutable (lengthKey key) =
      (labelledDB [] τ).getImmutable (lengthKey key) := by
    rw [labelledDB_under hp.splits, labelledDB_plain]
    exact congrArg Except.ok (hp.get_length key)
  by_cases hk : Reserved key
  · obtain ⟨n,_,hs⟩ := hp.soundPlain
    have hnone : (labelledDB [] τ).getImmutable (lengthKey key) = .ok none := by
      rw [labelledDB_plain]
      show Except.ok (KV.get τ (lengthKey key)) = _
      rw [hp.plain.get_length, hs.reserved key hk]
      rfl
    rw [getAtHeight, getAtHeight, searchUpdates, searchUpdates, hlen, hnone]
    rfl
  · apply searchUpdates_congr hlen
    intro i
    rw [labelledDB_under hp.splits, labelledDB_plain]
    show Except.ok (KV.get U (updateKey key i)) = .ok (KV.get τ (updateKey key i))
    rw [hp.under.get_update hk, hp.plain.get_update hk, hp.history]

/-- Under a label that is no part of this one, nothing is found. -/
theorem getAtHeight_other {other : Bytes} (h1 : ¬labelBytes (some s) <+: other)
    (h2 : ¬other <+: labelBytes (some s)) (key : Bytes) (h : Nat) :
    getAtHeight (labelledDB other σ) key h = .ok none := by
  have hout : ¬labelBytes (some s) <+: other ++ lengthKey key := by
    intro hpre
    rcases List.prefix_or_prefix_of_prefix hpre (List.prefix_append other _) with h | h
    · exact h1 h
    · exact h2 h
  have hnone : (labelledDB other σ).getImmutable (lengthKey key) = .ok none := by
    rw [labelledDB_get, hp.splits.beside _ hout, ← lengthKey_behind, hp.beside.length]
  rw [getAtHeight, searchUpdates, hnone]
  rfl

end Paired

end Same

/-- The batch of a flush whose updates have been appended. -/
def batchOps (st : BatchState) (h : Nat) (kvs : List (Bytes × Bytes)) (root : Bytes) : List Op :=
  st.batch ++ [.put (rootKey h) root] ++ manifestOps h kvs ++ [.put tipHeightKey (u32le h)]

theorem effect_batchOps_tip (st : BatchState) (h : Nat) (kvs : List (Bytes × Bytes)) (root : Bytes) :
    KV.effect (batchOps st h kvs root) tipHeightKey = some (some (u32le h)) := by
  rw [batchOps, KV.effect_append]
  rfl

section Flush

variable {s : Bytes} {σ τ U P : Store} {LU L : Ledger} {h : Nat} {f : Flush} {st : BatchState}

private theorem batchOps_build {db : KeyValueStoreLike} {kvs : List (Bytes × Bytes)}
    (hst : kvs.foldlM (appendUpdate db h) ⟨[],∅⟩ = .ok st) :
    buildStateRootBatchUnwritten db h kvs =
      .ok (previousRoot db h,batchOps st h kvs (previousRoot db h)) := by
  rw [build_eq, hst]
  rfl

/-- Under a label and without one the same updates are appended; the roots may differ. -/
theorem Paired.batch (hp : Paired s σ τ U P LU L) (h : Nat) (kvs : List (Bytes × Bytes)) :
    (∃ e, StoreCall.labelledBatch (labelBytes (some s)) σ h kvs = .error e ∧
      StoreCall.labelledBatch [] τ h kvs = .error e) ∨
    ∃ st, kvs.foldlM (appendUpdate (rocksDB U) h) ⟨[],∅⟩ = .ok st ∧
      kvs.foldlM (appendUpdate (rocksDB τ) h) ⟨[],∅⟩ = .ok st ∧
      StoreCall.labelledBatch (labelBytes (some s)) σ h kvs = .ok ((batchOps st h kvs
        (previousRoot (rocksDB U) h)).map (KV.Op.behind (labelBytes (some s)))) ∧
      StoreCall.labelledBatch [] τ h kvs =
        .ok (batchOps st h kvs (previousRoot (rocksDB τ) h)) := by
  have hfold : appendUpdate (rocksDB U) h = appendUpdate (rocksDB τ) h :=
    appendUpdate_congr (fun key => congrArg Except.ok (hp.get_length key)) h
  have hU : StoreCall.labelledBatch (labelBytes (some s)) σ h kvs =
      (buildStateRootBatchUnwritten (rocksDB U) h kvs).bind fun built =>
        .ok (rocksDBBatch (labelBytes (some s)) built.2) := by
    rw [StoreCall.labelledBatch, build_congr (labelledDB_under hp.splits)]
    rfl
  have hτ : StoreCall.labelledBatch [] τ h kvs =
      (buildStateRootBatchUnwritten (rocksDB τ) h kvs).bind fun built => .ok built.2 := by
    rw [StoreCall.labelledBatch, build_congr (labelledDB_plain τ)]
    simp only [rocksDBBatch_nil]
    rfl
  rw [hU, hτ]
  cases hst : kvs.foldlM (appendUpdate (rocksDB U) h) ⟨[],∅⟩ with
  | error e =>
    refine .inl ⟨e,?_,?_⟩
    · rw [build_eq, hst]
      rfl
    · rw [build_eq, ← hfold, hst]
      rfl
  | ok st =>
    have hst' := hst
    rw [hfold] at hst'
    refine .inr ⟨st,rfl,hst',?_,?_⟩
    · rw [batchOps_build hst]
      exact congrArg Except.ok (rocksDBBatch_eq ..)
    · rw [batchOps_build hst']
      rfl

/-- A flush on top of all updates. -/
private theorem flush_spec {n : Nat} (hσ : Represents σ L) (hL : L.Sound n) (hn : n ≤ 2^32)
    (hh : h < 2^32) (hk : ∀ kv ∈ f.list, ¬Reserved kv.1) (hlt : ∀ key, ∀ e ∈ L.history key, e.1 < h)
    (hst : f.list.foldlM (appendUpdate (rocksDB σ) h) ⟨[],∅⟩ = .ok st) (root : Bytes) :
    Represents (KV.write σ (batchOps st h f.list root)) (L.flush h f.list root) ∧
      ∃ n', n' ≤ 2^32 ∧ (L.flush h f.list root).Sound n' := by
  obtain ⟨hrep,hshort⟩ := flushOps_represents hσ hL.short hk hst root
  refine ⟨hrep,max n (h+1),by omega,?_⟩
  refine hL.flushed_at hlt (.cons (.nil _ h)) ?_ hshort
  intro g hg
  rw [List.mem_singleton.mp hg]
  exact hk

private theorem flush_frame (L : Ledger) (h : Nat) (kvs : List (Bytes × Bytes)) (root : Bytes) :
    (∀ key, (L.flush h kvs root).history key = (L.appendAll h kvs).history key) ∧
      (L.flush h kvs root).indexed = L.indexed ∧ (L.flush h kvs root).hash = L.hash := by
  obtain ⟨_,_,hhash,hindexed⟩ := L.appendAll_frame h kvs
  rw [Ledger.flush]
  split_ifs
  · exact ⟨fun _ => rfl,hindexed,hhash⟩
  · exact ⟨fun _ => rfl,hindexed,hhash⟩

/-- The bare word is no name of a batch. -/
private theorem length_not_batchName {h : Nat} {kvs : List (Bytes × Bytes)} :
    ¬BatchName h kvs (ascii "length") := by
  have hslash : (47:UInt8) ∉ ascii "length" := by decide
  rintro (⟨kv,_,hk | ⟨i,hk⟩⟩ | hk | hk | hk)
  · apply hslash
    rw [hk, lengthKey, List.mem_append]
    exact .inr (by decide)
  · apply hslash
    rw [hk, updateKey, List.mem_append, List.mem_append]
    exact .inl (.inr (by decide))
  · have htake : (rootKey h).take 1 = [115] := rfl
    rw [← hk] at htake
    exact absurd htake (by decide)
  · apply hslash
    rw [hk, manifestKey, List.mem_append]
    exact .inl (by decide)
  · exact absurd hk (by decide)

/-- A flush of both. -/
theorem Paired.flush (hp : Paired s σ τ U P LU L) (hh : h < 2^32)
    (hf : fitsFlush τ h f.list = true)
    (hU : f.list.foldlM (appendUpdate (rocksDB U) h) ⟨[],∅⟩ = .ok st)
    (hτ : f.list.foldlM (appendUpdate (rocksDB τ) h) ⟨[],∅⟩ = .ok st) :
    ∃ U', Paired s (KV.write σ ((batchOps st h f.list (previousRoot (rocksDB U) h)).map
        (KV.Op.behind (labelBytes (some s)))))
      (KV.write τ (batchOps st h f.list (previousRoot (rocksDB τ) h))) U' P
      (LU.flush h f.list (previousRoot (rocksDB U) h))
      (L.flush h f.list (previousRoot (rocksDB τ) h)) ∧ KV.get U' tipHeightKey ≠ none := by
  obtain ⟨n,hn,hs⟩ := hp.soundPlain
  obtain ⟨n',hn',hs'⟩ := hp.soundUnder
  obtain ⟨hk,hlt⟩ := fitsFlush_spec hp.plain hs hn hf
  have hlt' : ∀ key, ∀ e ∈ LU.history key, e.1 < h := fun key e he => hlt key e (hp.history key ▸ he)
  obtain ⟨hrepU,hsoundU⟩ := flush_spec hp.under hs' hn' hh hk hlt' hU (previousRoot (rocksDB U) h)
  obtain ⟨hrepτ,hsoundτ⟩ := flush_spec hp.plain hs hn hh hk hlt hτ (previousRoot (rocksDB τ) h)
  obtain ⟨hhistU,_,_⟩ := flush_frame LU h f.list (previousRoot (rocksDB U) h)
  obtain ⟨hhistτ,hindexed,hhash⟩ := flush_frame L h f.list (previousRoot (rocksDB τ) h)
  have htip : KV.get (KV.write U (batchOps st h f.list (previousRoot (rocksDB U) h)))
      tipHeightKey ≠ none := by
    rw [KV.get_write, effect_batchOps_tip]
    exact Option.some_ne_none _
  refine ⟨_,⟨hp.splits.write_under _,hrepU,hrepτ,hsoundU,hsoundτ,?_,?_,?_,?_⟩,htip⟩
  · intro key
    rw [hhistU, hhistτ, Ledger.appendAll_history, Ledger.appendAll_history, hp.history]
  · rw [KV.get_write_of_not_mem, hp.bare]
    intro op hop he
    have hname := build_names (batchOps_build hU) op hop
    rw [he] at hname
    exact length_not_batchName hname
  · refine ⟨hp.beside.length,hp.beside.manifest,?_,?_⟩
    · rw [hrepτ.get_indexed, hindexed, ← hp.plain.get_indexed, hp.beside.indexed]
    · rw [hrepτ.get_hash, hhash, ← hp.plain.get_hash, hp.beside.hash]
  · intro hnone
    exact absurd hnone htip

end Flush

/-- A name that the storage adapter writes without a label. -/
def RawName (name : Bytes) : Prop :=
  name = indexedHeightKey ∨ name = tipHeightKey ∨ (∃ h, name = blockHashKey h) ∨ ∃ h, name = rootKey h

section Raw

variable {s : Bytes} {σ τ U P : Store} {LU L : Ledger}

theorem RawName.beside {name : Bytes} (h : RawName name) : ¬labelBytes (some s) <+: name := by
  obtain rfl | rfl | ⟨i,rfl⟩ | ⟨i,rfl⟩ := h
  · exact indexedHeightKey_beside s
  · exact tipHeightKey_beside s
  · exact blockHashKey_beside s i
  · exact rootKey_beside s i

theorem RawName.ne_lengthKey {name : Bytes} (h : RawName name) (key : Bytes) :
    name ≠ lengthKey key := by
  obtain rfl | rfl | ⟨i,rfl⟩ | ⟨i,rfl⟩ := h
  · exact Record.name_ne (r := .indexedHeight) (s := .length key) (by simp)
  · exact Record.name_ne (r := .tipHeight) (s := .length key) (by simp)
  · exact Record.name_ne (r := .update blockHashBase i) (s := .length key) (by simp)
  · exact Record.name_ne (r := .root i) (s := .length key) (by simp)

theorem RawName.ne_manifestKey {name : Bytes} (h : RawName name) (i : Nat) :
    name ≠ manifestKey i := by
  obtain rfl | rfl | ⟨j,rfl⟩ | ⟨j,rfl⟩ := h
  · exact Record.name_ne (r := .indexedHeight) (s := .update manifestBase i) (by simp)
  · exact Record.name_ne (r := .tipHeight) (s := .update manifestBase i) (by simp)
  · apply Record.name_ne (r := .update blockHashBase j) (s := .update manifestBase i)
    intro he
    rw [Record.update.injEq] at he
    exact manifestBase_ne_blockHashBase he.1.symm
  · exact Record.name_ne (r := .root j) (s := .update manifestBase i) (by simp)

/-- The same write without a label to both. -/
theorem Paired.raw {L' : Ledger} {ops : List Op} (hp : Paired s σ τ U P LU L)
    (ho : ∀ op ∈ ops, RawName op.key) (hrep : Represents (KV.write τ ops) L')
    (hs : ∃ n, n ≤ 2^32 ∧ L'.Sound n) (hh : ∀ key, L'.history key = L.history key) :
    Paired s (KV.write σ ops) (KV.write τ ops) U (KV.write P ops) LU L' where
  splits := hp.splits.write_beside fun op hop => (ho op hop).beside
  under := hp.under
  plain := hrep
  soundUnder := hp.soundUnder
  soundPlain := hs
  history key := by rw [hp.history, hh]
  bare := hp.bare
  beside := by
    refine ⟨?_,?_,?_,?_⟩
    · intro key
      rw [KV.get_write_of_not_mem fun op hop => (ho op hop).ne_lengthKey key, hp.beside.length]
    · intro h
      rw [KV.get_write_of_not_mem fun op hop => (ho op hop).ne_manifestKey h, hp.beside.manifest]
    · rw [KV.get_write, KV.get_write, hp.beside.indexed]
    · rw [KV.get_write, KV.get_write, hp.beside.hash]
  fresh hnone := by rw [hp.fresh hnone]

theorem Ledger.Sound.commit {n h : Nat} (hL : L.Sound n) (hash root : Bytes) :
    (L.commit h hash root).Sound (max n (h+1)) where
  reserved := hL.reserved
  ordered := hL.ordered
  below key e he := lt_of_lt_of_le (hL.below key e he) (le_max_left ..)
  short := hL.short
  sized := hL.sized
  unwritten i hi := by
    obtain ⟨h1,h2,h3⟩ := hL.unwritten i (by omega)
    have hne : i ≠ h := by omega
    refine ⟨?_,h2,?_⟩
    · exact (Function.update_of_ne hne _ L.root).trans h1
    · exact (Function.update_of_ne hne _ L.hash).trans h3

/-- What `commit_atomic` appends to a batch. -/
theorem Paired.commitRecords (hp : Paired s σ τ U P LU L) {h : Nat} (hh : h < 2^32)
    (hash root : Bytes) : ∃ P', Paired s (KV.write σ (commitOps h hash root []))
      (KV.write τ (commitOps h hash root [])) U P' LU (L.commit h hash root) := by
  obtain ⟨n,hn,hs⟩ := hp.soundPlain
  have hplain : Represents (KV.write τ []) L := hp.plain
  refine ⟨_,hp.raw ?_ (hplain.commitOps h hash root) ⟨max n (h+1),by omega,hs.commit hash root⟩ fun _ => rfl⟩
  intro op hop
  simp only [Metashrew.commitOps, List.nil_append, List.mem_cons, List.not_mem_nil, or_false] at hop
  rcases hop with rfl | rfl | rfl
  · exact .inr (.inr (.inl ⟨h,rfl⟩))
  · exact .inr (.inr (.inr ⟨h,rfl⟩))
  · exact .inl rfl

end Raw

section Slow

variable {s : Bytes} {σ τ U P : Store} {LU L : Ledger} {r m : Nat}

/-- The part of a name before a final `/length` cannot reach into the label. -/
private theorem behind_of_lengthKey {t key : Bytes} (h : labelBytes (some s) ++ t = lengthKey key) :
    t = ascii "length" ∨ ∃ key', key = labelBytes (some s) ++ key' ∧ t = lengthKey key' := by
  rw [lengthKey] at h
  rcases List.append_eq_append_iff.mp h with ⟨a,hkey,ht⟩ | ⟨c,hlabel,hsuffix⟩
  · exact .inr ⟨a,hkey,ht⟩
  · rcases List.eq_nil_or_concat c with rfl | ⟨d,b,rfl⟩
    · right
      refine ⟨[],?_,hsuffix.symm⟩
      rw [hlabel, List.append_nil, List.append_nil]
    · left
      -- the label ends in a slash, and `/length` has one slash only, its first byte
      have hb : b = 47 := by
        have hlast := congrArg List.getLast? hlabel
        rw [labelBytes, List.concat_eq_append, ← List.append_assoc, List.getLast?_append,
          List.getLast?_append] at hlast
        have hsep : (ascii "://").getLast? = some 47 := by decide
        rw [hsep] at hlast
        exact (Option.some.inj hlast).symm
      subst hb
      have hlength : lengthSuffix = 47::ascii "length" := by decide
      rw [List.concat_eq_append, hlength, List.append_assoc] at hsuffix
      cases d with
      | nil => exact (List.cons.inj hsuffix).2.symm
      | cons a d =>
        have hmem : (47:UInt8) ∈ ascii "length" := by
          have hrest : ascii "length" = d ++ ([47] ++ t) := (List.cons.inj hsuffix).2
          rw [hrest]
          simp
        exact absurd hmem (by decide)

/-- Under a label the slow rollback works through the keys behind the label. -/
private theorem Paired.structures (hp : Paired s σ τ U P LU L) :
    ∃ ks : List Bytes, smtStructures σ = ks.map (labelBytes (some s) ++ ·) ∧ ks.Nodup ∧
      ∀ key, key ∈ ks ↔ LU.history key ≠ [] := by
  have hmem : ∀ key, key ∈ smtStructures σ →
      ∃ key', key = labelBytes (some s) ++ key' := by
    intro key hkey
    rw [mem_smtStructures_iff] at hkey
    by_cases hpre : labelBytes (some s) <+: lengthKey key
    · obtain ⟨t,ht⟩ := hpre
      rcases behind_of_lengthKey ht with rfl | ⟨key',rfl,_⟩
      · rw [← ht, hp.splits.under, hp.bare] at hkey
        exact absurd rfl hkey
      · exact ⟨key',rfl⟩
    · rw [hp.splits.beside _ hpre, hp.beside.length] at hkey
      exact absurd rfl hkey
  have hall : smtStructures σ = ((smtStructures σ).map
      fun key => key.drop (labelBytes (some s)).length).map (labelBytes (some s) ++ ·) := by
    rw [List.map_map]
    conv_lhs => rw [← List.map_id (smtStructures σ)]
    apply List.map_congr_left
    intro key hkey
    obtain ⟨key',rfl⟩ := hmem key hkey
    simp
  refine ⟨_,hall,?_,?_⟩
  · have hnd : (smtStructures σ).Nodup := KV.nodup_sortedKeys _
    rw [hall] at hnd
    exact hnd.of_map
  · intro key
    have hin : labelBytes (some s) ++ key ∈ smtStructures σ ↔ LU.history key ≠ [] := by
      rw [mem_smtStructures_iff, lengthKey_behind, hp.splits.under, ← mem_smtStructures_iff,
        mem_smtStructures hp.under]
    rw [← hin]
    constructor
    · intro h
      rw [hall]
      exact List.mem_map_of_mem h
    · intro h
      rw [hall] at h
      obtain ⟨key',h,he⟩ := List.mem_map.mp h
      exact (List.append_cancel_left he) ▸ h

private theorem compactionOps_behind {pre : Bytes} {σ U : Store}
    (h : ∀ name, KV.get σ (pre ++ name) = KV.get U name) (r : Nat) (key : Bytes) (len : Nat) :
    compactionOps σ r (pre ++ key) len = (compactionOps U r key len).map (KV.Op.behind pre) := by
  have hvalid : validUpdates σ r (pre ++ key) len = validUpdates U r key len := by
    simp only [validUpdates, updateKey_behind, h]
  simp only [compactionOps, hvalid, List.map_append, List.map_map, updateKey_behind,
    lengthKey_behind]
  congr 1
  split_ifs <;> rfl

/-- One structure of the slow rollback. -/
private theorem rollbackStructure_behind {ρ V Q : Store} {LV : Ledger} {n : Nat}
    (hρ : KV.Splits (labelBytes (some s)) ρ V Q) (hV : Represents V LV) (hL : LV.Sound n)
    (hn : n ≤ 2^32) (hbare : KV.get V (ascii "length") = none) {key : Bytes}
    (hk : LV.history key ≠ []) :
    ∃ ρ' V', (rollbackStructure r (labelBytes (some s) ++ key)).run ρ = ⟨[ρ'],.ok ()⟩ ∧
      KV.Splits (labelBytes (some s)) ρ' V' Q ∧ Represents V' (LV.trimKeys r [key]) ∧
      KV.get V' (ascii "length") = none := by
  have hplain : ¬Reserved key := fun hr => hk (hL.reserved key hr)
  have htrims := compactionOps_trims (r := r) hV hL hn hplain
  have hparse : parseLength (decimal (LV.history key).length) = (LV.history key).length := by
    rw [parseLength, parseU32_decimal (hL.short key)]
    rfl
  refine ⟨KV.write ρ ((compactionOps V r key (LV.history key).length).map
    (KV.Op.behind (labelBytes (some s)))),_,?_,hρ.write_under _,htrims.write hV,?_⟩
  · rw [rollbackStructure, getValue, Prog.run_read_bind, lengthKey_behind, hρ.under, hV.get_length,
      Ledger.lengthRecord_of_ne_nil hk]
    dsimp only
    rw [Prog.run_read_bind, hparse, compactionOps_behind hρ.under, applyAtomic_run,
      if_neg (by simp [compactionOps])]
  · rw [KV.get_write_of_not_mem, hbare]
    intro op hop he
    have hslash : (47:UInt8) ∉ ascii "length" := by decide
    apply hslash
    rcases compactionOps_names V r key _ op hop with hn | ⟨i,hn⟩
    · rw [← he, hn, lengthKey, List.mem_append]
      exact .inr (by decide)
    · rw [← he, hn, updateKey, List.mem_append, List.mem_append]
      exact .inl (.inr (by decide))

/-- The first batch of the slow rollback. -/
def metadataOps (σ : Store) (r : Nat) : List Op := (metadataKeysToDelete r σ.keys).map .delete

private theorem slash_not_mem_metadata {name : Bytes} {keys : List Bytes}
    (h : name ∈ metadataKeysToDelete r keys) : (47:UInt8) ∉ name := by
  intro hs
  have hm := (List.mem_filter.mp h).2
  rw [metadataHeight_of_slash hs] at hm
  cases hm

/-- The slow rollback under a label cuts the histories of the label. -/
private theorem Paired.rollbackSmtData (hp : Paired s σ τ U P LU L) (hr : r < m) :
    ∃ ss U' LU', (rollbackSmtData r m).run σ = ⟨ss,.ok ()⟩ ∧
      KV.Splits (labelBytes (some s)) (ss.getLastD σ) U'
        (KV.write P (metadataOps σ r)) ∧
      Represents U' LU' ∧ (∃ n, n ≤ 2^32 ∧ LU'.Sound n) ∧
      (∀ key, LU'.history key = upTo r (LU.history key)) ∧ LU'.tip = LU.tip ∧
      KV.get U' (ascii "length") = none := by
  obtain ⟨n,hn,hs⟩ := hp.soundUnder
  obtain ⟨ks,hks,hnd,hmem⟩ := hp.structures
  have hmeta : KV.Splits (labelBytes (some s))
      (KV.write σ (metadataOps σ r)) U
      (KV.write P (metadataOps σ r)) := by
    apply hp.splits.write_beside
    intro op hop
    obtain ⟨name,hname,rfl⟩ := List.mem_map.mp hop
    exact not_label_prefix (.inr (slash_not_mem_metadata hname))
  have hpart := fun keys => LU.trimKeys_partly r keys
  have hstep : ∀ done key rest ρ, ks = done ++ key::rest →
      (∃ V, KV.Splits (labelBytes (some s)) ρ V
        (KV.write P (metadataOps σ r)) ∧
        Represents V (LU.trimKeys r done) ∧ KV.get V (ascii "length") = none) →
      ∃ ρ', (rollbackStructure r (labelBytes (some s) ++ key)).run ρ = ⟨[ρ'],.ok ()⟩ ∧
        ∃ V, KV.Splits (labelBytes (some s)) ρ' V
          (KV.write P (metadataOps σ r)) ∧
          Represents V (LU.trimKeys r (done ++ [key])) ∧ KV.get V (ascii "length") = none := by
    rintro done key rest ρ hsplit ⟨V,hρ,hV,hbare⟩
    have hout : key ∉ done := by
      intro hd
      have hnd' : (done ++ key::rest).Nodup := hsplit ▸ hnd
      exact (List.nodup_append.mp hnd').2.2 key hd key (by simp) rfl
    have hhist : (LU.trimKeys r done).history key ≠ [] := by
      show (if key ∈ done then _ else LU.history key) ≠ []
      rw [if_neg hout]
      exact (hmem key).mp (hsplit ▸ by simp)
    obtain ⟨ρ',V',hrun,hρ',hV',hbare'⟩ :=
      rollbackStructure_behind (r := r) hρ hV ((hpart done).sound hs) hn hbare hhist
    rw [Ledger.trimKeys_append] at hV'
    exact ⟨ρ',hrun,V',hρ',hV',hbare'⟩
  obtain ⟨ss,hrun,hlen,hinv⟩ := Prog.forEach_spec ks hstep
    (KV.write σ (metadataOps σ r))
    ⟨U,hmeta,by rw [Ledger.trimKeys_nil]; exact hp.under,hp.bare⟩
  obtain ⟨V,hsplits,hV,hbare⟩ := hinv ss.length _ Prog.getElem?_getLastD
  rw [hlen, List.take_length] at hV
  have hcut : ∀ key, (LU.trimKeys r ks).history key = upTo r (LU.history key) :=
    Ledger.trimKeys_history fun key hk => (hmem key).mpr hk
  have hall : (Metashrew.rollbackSmtData r m).run σ =
      ⟨(if metadataOps σ r = [] then []
        else [KV.write σ (metadataOps σ r)]) ++ ss,.ok ()⟩ := by
    have hfirst := applyAtomic_run (σ := σ) (metadataOps σ r)
    have hlast : (if metadataOps σ r = [] then []
        else [KV.write σ (metadataOps σ r)]).getLastD σ =
          KV.write σ (metadataOps σ r) := by
      split_ifs with hnil
      · rw [hnil]
        rfl
      · rfl
    rw [Metashrew.rollbackSmtData, if_neg (by omega), Prog.run_read_bind]
    show (applyAtomic (metadataOps σ r) >>= fun _ =>
      Prog.forEach (smtStructures σ) (rollbackStructure r)).run σ = _
    rw [Prog.run_bind_ok hfirst, hlast]
    show Trace.mk (_ ++ ((Prog.forEach (smtStructures σ) _).run _).states)
      ((Prog.forEach (smtStructures σ) _).run _).result = _
    rw [hks, Prog.forEach_map, hrun]
  refine ⟨_,V,LU.trimKeys r ks,hall,?_,hV,⟨n,hn,(hpart ks).sound hs⟩,hcut,rfl,hbare⟩
  have hend : (((if metadataOps σ r = [] then []
      else [KV.write σ (metadataOps σ r)]) ++ ss).getLastD σ) =
        ss.getLastD (KV.write σ (metadataOps σ r)) := by
    split_ifs with hnil
    · rw [hnil]
      rfl
    · rw [List.singleton_append, List.getLastD_cons]
  rw [hend]
  exact hsplits

end Slow

section Rollback

variable {s : Bytes} {σ τ U P : Store} {LU L : Ledger} {r m n : Nat}

theorem Ledger.Sound.setIndexed (hL : L.Sound n) (r : Nat) : (L.setIndexed r).Sound n :=
  { hL with }

/-- Without a label a rollback below the tip cuts every history before it moves the pointer. -/
private theorem rollback_cuts (hσ : Represents σ L) (hL : L.Sound n) (hn : n ≤ 2^32)
    (hcur : getIndexedHeight σ = m) (hr : r < m) (hc : coversRollback σ r = true) :
    ∃ ss L', (rollbackToHeight r).run σ =
        ⟨ss ++ [KV.write (ss.getLastD σ) [.put indexedHeightKey (u32le r)]],.ok ()⟩ ∧
      Represents (ss.getLastD σ) L' ∧ L.PartlyRolledBack r L' ∧
      ∀ key, L'.history key = upTo r (L.history key) := by
  obtain ⟨ss,L',hrun,hend,hrep,_⟩ := rollbackToHeight_ends hσ hL hn hcur r
  refine ⟨ss,L',hrun,hrep,hend.partly,?_⟩
  cases hend with
  | above h => omega
  | fast _ hfast => exact coversRollback_spec hσ hL hn hcur hr hc hfast
  | slow =>
    exact Ledger.trimKeys_history (L := L.dropRoots r) fun key hk => (mem_smtStructures hσ).mpr hk

/-- Under a label the manifests are not found, and the slow rollback runs. -/
private theorem Paired.rollback_slow (hp : Paired s σ τ U P LU L)
    (hcur : Metashrew.getIndexedHeight σ = m) (hr : r < m) {ss : List Store}
    (hrun : (Metashrew.rollbackSmtData r m).run σ = ⟨ss,.ok ()⟩) : (rollbackToHeight r).run σ =
      ⟨ss ++ [KV.write (ss.getLastD σ) [.put indexedHeightKey (u32le r)]],.ok ()⟩ := by
  have hmissing : manifestsExist σ r m = false := by
    rw [manifestsExist, List.all_eq_false]
    refine ⟨m,mem_heightsAbove.mpr ⟨hr,le_rfl⟩,?_⟩
    rw [hp.splits.beside _ (manifestKey_beside s m), hp.beside.manifest]
    exact Bool.false_ne_true
  rw [rollbackToHeight, Prog.run_read_bind, hcur,
    Prog.run_bind_quiet (rollbackWithManifests_missing hr hmissing)]
  show (Metashrew.rollbackSmtData r m >>= fun _ => setIndexedHeight r).run σ = _
  rw [Prog.run_bind_ok hrun]
  rfl

private theorem get_metadataOps (ρ : Store) {name : Bytes} (h : (47:UInt8) ∈ name) :
    KV.get (KV.write ρ (metadataOps σ r)) name = KV.get ρ name := by
  apply KV.get_write_of_not_mem
  intro op hop he
  obtain ⟨name',hname,rfl⟩ := List.mem_map.mp hop
  have hsame : name' = name := he
  exact slash_not_mem_metadata hname (hsame ▸ h)

theorem Paired.rollback (hp : Paired s σ τ U P LU L) (hr : r < 2^32)
    (hc : coversRollback τ r = true) :
    ∃ ss ss', (rollbackToHeight r).run σ = ⟨ss,.ok ()⟩ ∧ (rollbackToHeight r).run τ = ⟨ss',.ok ()⟩ ∧
      ∃ U' P' LU' L', Paired s (ss.getLastD σ) (ss'.getLastD τ) U' P' LU' L' := by
  obtain ⟨n,hn,hs⟩ := hp.soundPlain
  have hcur := hp.getIndexedHeight_eq
  have hraw : ∀ op ∈ [KV.Op.put indexedHeightKey (u32le r)], RawName op.key := by
    intro op hop
    rw [List.mem_singleton.mp hop]
    exact .inl rfl
  by_cases hm : getIndexedHeight τ ≤ r
  · have hnew := hp.raw hraw (hp.plain.setIndexed r) ⟨n,hn,hs.setIndexed r⟩ fun _ => rfl
    exact ⟨_,_,rollbackToHeight_above (hcur ▸ rfl) hm,rollbackToHeight_above rfl hm,_,_,_,_,hnew⟩
  · rw [not_le] at hm
    obtain ⟨ss',L',hrun',hrep,hpart,hcut⟩ := rollback_cuts hp.plain hs hn rfl hm hc
    obtain ⟨ss,U',LU',hslow,hsplits,hU,hsU,hcutU,htip,hbare⟩ := hp.rollbackSmtData hm
    have hrun := hp.rollback_slow hcur hm hslow
    refine ⟨_,_,hrun,hrun',U',
      KV.write (KV.write P (metadataOps σ r)) [.put indexedHeightKey (u32le r)],LU',L'.setIndexed r,?_⟩
    rw [List.getLastD_concat, List.getLastD_concat]
    have hmid : Paired s (ss.getLastD σ) (ss'.getLastD τ) U' (KV.write P (metadataOps σ r)) LU' L' := by
      refine ⟨hsplits,hU,hrep,hsU,⟨n,hn,hpart.sound hs⟩,?_,hbare,⟨?_,?_,?_,?_⟩,?_⟩
      · intro key
        rw [hcutU, hcut, hp.history]
      · intro key
        rw [get_metadataOps P (by rw [lengthKey, List.mem_append]; exact .inr (by decide)),
          hp.beside.length]
      · intro h
        rw [get_metadataOps P (by rw [manifestKey, List.mem_append]; exact .inl (by decide)),
          hp.beside.manifest]
      · rw [get_metadataOps P (by decide), hp.beside.indexed, hp.plain.get_indexed,
          hrep.get_indexed, hpart.indexed]
      · have hhash : L'.hash 0 = L.hash 0 := by
          obtain h | ⟨h,_⟩ := hpart.hash 0
          · exact h
          · omega
        rw [get_metadataOps P (by decide), hp.beside.hash, hp.plain.get_hash, hrep.get_hash, hhash]
      · intro hnone
        have hsame : σ = τ := by
          apply hp.fresh
          rw [hp.under.get_tip, ← htip, ← hU.get_tip]
          exact hnone
        subst hsame
        rw [hrun] at hrun'
        have hstates := congrArg Trace.states hrun'
        rw [(List.append_inj' hstates rfl).1]
    exact hmid.raw hraw (hrep.setIndexed r) ⟨n,hn,(hpart.sound hs).setIndexed r⟩ fun _ => rfl

end Rollback

end Metashrew
