import Metashrew.Ledger.Records
import Metashrew.Storage.Adapter

namespace Metashrew

open Bytes

/-- The values written to one key by a list of pairs, in order. -/
def updatesOf (key : Bytes) (keyValues : List (Bytes × Bytes)) : List Bytes :=
  (keyValues.filter fun kv => kv.1 = key).map Prod.snd

theorem updatesOf_cons (key : Bytes) (kv : Bytes × Bytes) (kvs : List (Bytes × Bytes)) :
    updatesOf key (kv::kvs) = if kv.1 = key then kv.2::updatesOf key kvs else updatesOf key kvs := by
  by_cases h : kv.1=key <;> simp [updatesOf, h]

theorem updatesOf_eq_nil {key : Bytes} {kvs : List (Bytes × Bytes)} :
    updatesOf key kvs = [] ↔ ∀ kv ∈ kvs, kv.1 ≠ key := by
  simp [updatesOf, List.filter_eq_nil_iff]

theorem updatesOf_length_le (key : Bytes) (kvs : List (Bytes × Bytes)) :
    (updatesOf key kvs).length ≤ kvs.length := by
  rw [updatesOf, List.length_map]
  exact List.length_filter_le ..

namespace Ledger

def appendAll (L : Ledger) (h : Nat) (keyValues : List (Bytes × Bytes)) : Ledger :=
  keyValues.foldl (fun L kv => L.append h kv.1 kv.2) L

/-- The ledger after the batch of one flush. -/
def flush (L : Ledger) (h : Nat) (keyValues : List (Bytes × Bytes)) (root : Bytes) : Ledger :=
  let L' := (L.appendAll h keyValues).setRoot h (some root)
  (if keyValues = [] then L' else
    L'.setManifest h (some (KV.sortedKeys (keyValues.map Prod.fst)))).setTip h

/-- The ledger after the records that `commit_atomic` appends. -/
def commit (L : Ledger) (h : Nat) (blockHash stateRoot : Bytes) : Ledger :=
  ((L.setHash h (some blockHash)).setRoot h (some stateRoot)).setIndexed h

theorem appendAll_history (L : Ledger) (h : Nat) (kvs : List (Bytes × Bytes)) (key : Bytes) :
    (L.appendAll h kvs).history key = L.history key ++ (updatesOf key kvs).map fun v => (h,v) := by
  induction kvs generalizing L with
  | nil => simp [appendAll, updatesOf]
  | cons kv kvs ih =>
    change ((L.append h kv.1 kv.2).appendAll h kvs).history key = _
    rw [ih, updatesOf_cons]
    by_cases hk : kv.1=key
    · subst hk; simp [append]
    · simp [append, hk, Function.update_of_ne (Ne.symm hk)]

theorem appendAll_frame (L : Ledger) (h : Nat) (kvs : List (Bytes × Bytes)) :
    (L.appendAll h kvs).root = L.root ∧ (L.appendAll h kvs).manifest = L.manifest ∧
      (L.appendAll h kvs).hash = L.hash ∧ (L.appendAll h kvs).indexed = L.indexed := by
  induction kvs generalizing L with
  | nil => exact ⟨rfl,rfl,rfl,rfl⟩
  | cons kv kvs ih => exact ih (L.append h kv.1 kv.2)

end Ledger

/-- One update of `key` at height `h` keeps the relation. -/
def KeepsAppend (R : Store → Ledger → Prop) (h : Nat) (key value : Bytes) : Prop :=
  ∀ τ L, R τ L → R (KV.write τ [.put (updateKey key (L.history key).length) (formatUpdate h value),
    .put (lengthKey key) (decimal ((L.history key).length+1))]) (L.append h key value)

/-- What the loop over the pairs of a flush keeps: the store with the batch so far is related to the
ledger so far, and the lengths it works with are those of that ledger. -/
structure BatchInvariant (R : Store → Ledger → Prop) (σ : Store) (L : Ledger) (st : BatchState) :
    Prop where
  related : R (KV.write σ st.batch) L
  lengths : ∀ key, currentLength (rocksDB σ) st key = .ok (L.history key).length
  short : ∀ key, (L.history key).length < 2^32

namespace BatchInvariant

variable {R : Store → Ledger → Prop} {σ : Store} {L : Ledger} {st : BatchState} {h : Nat}

theorem init (hR : R σ L) (hσ : HoldsHistories σ L.history)
    (hs : ∀ key, (L.history key).length < 2^32) : BatchInvariant R σ L ⟨[],∅⟩ := by
  refine ⟨hR,fun key => ?_,hs⟩
  have hp := hσ.parse_length (hs key)
  have hread : backendError ((rocksDB σ).getImmutable (lengthKey key)) =
      .ok (KV.get σ (lengthKey key)) := rfl
  rw [currentLength, KV.get_empty]
  dsimp only
  rw [hread]
  cases hl : KV.get σ (lengthKey key) with
  | none =>
    rw [hl] at hp
    exact congrArg Except.ok hp
  | some b =>
    rw [hl] at hp
    exact congrArg Except.ok hp

/-- One pair: it is appended when the length still fits 32 bits, else the addition panics. -/
theorem step {kv : Bytes × Bytes} (hI : BatchInvariant R σ L st)
    (hk : KeepsAppend R h kv.1 kv.2) :
    if (L.history kv.1).length+1 < 2^32 then
      ∃ st', appendUpdate (rocksDB σ) h st kv = .ok st' ∧
        BatchInvariant R σ (L.append h kv.1 kv.2) st'
    else ∃ e, appendUpdate (rocksDB σ) h st kv = .error e := by
  have happ : appendUpdate (rocksDB σ) h st kv =
      (addU32 (L.history kv.1).length 1).bind fun newLength => .ok {
        batch := st.batch ++ [.put (updateKey kv.1 (L.history kv.1).length) (formatUpdate h kv.2),
          .put (lengthKey kv.1) (decimal newLength)]
        keyLengths := st.keyLengths.insert kv.1 newLength } := by
    rw [appendUpdate, hI.lengths kv.1]
    rfl
  rw [happ]
  split_ifs with hlt
  · rw [addU32, if_pos hlt]
    refine ⟨_,rfl,?_,fun key => ?_,fun key => ?_⟩
    · rw [KV.write_append]
      exact hk _ L hI.related
    · by_cases he : kv.1=key
      · subst he
        simp [currentLength, KV.get, Ledger.append]
      · have hl := hI.lengths key
        simp only [currentLength, KV.get, Std.ExtTreeMap.getElem?_insert] at hl ⊢
        simpa [Ledger.append, he, Function.update_of_ne (Ne.symm he)] using hl
    · by_cases he : kv.1=key
      · subst he; simpa [Ledger.append] using hlt
      · simpa [Ledger.append, Function.update_of_ne (Ne.symm he)] using hI.short key
  · rw [addU32, if_neg hlt]
    exact ⟨_,rfl⟩

/-- A whole flush keeps the invariant when it succeeds. -/
theorem run {kvs : List (Bytes × Bytes)} (hk : ∀ kv ∈ kvs, KeepsAppend R h kv.1 kv.2)
    (hI : BatchInvariant R σ L st) {st' : BatchState}
    (hr : kvs.foldlM (appendUpdate (rocksDB σ) h) st = .ok st') :
    BatchInvariant R σ (L.appendAll h kvs) st' := by
  induction kvs generalizing L st with
  | nil =>
    cases hr
    exact hI
  | cons kv kvs ih =>
    have hs := hI.step (hk kv (by simp))
    rw [List.foldlM_cons] at hr
    split_ifs at hs with hlt
    · obtain ⟨st1,he,h1⟩ := hs
      rw [he] at hr
      exact ih (fun kv' hkv => hk kv' (by simp [hkv])) h1 hr
    · obtain ⟨e,he⟩ := hs
      rw [he] at hr
      cases hr

private theorem length_appendAll_cons (L : Ledger) (h : Nat) (kv : Bytes × Bytes)
    (kvs : List (Bytes × Bytes)) (hs : ∀ key, ((L.appendAll h (kv::kvs)).history key).length < 2^32) :
    (L.history kv.1).length+1 < 2^32 := by
  have hk := hs kv.1
  rw [Ledger.appendAll_history, updatesOf_cons, if_pos rfl] at hk
  simp only [List.length_append, List.length_map, List.length_cons] at hk
  omega

/-- It succeeds when the lengths fit 32 bits at the end. -/
theorem run_total {kvs : List (Bytes × Bytes)} (hk : ∀ kv ∈ kvs, KeepsAppend R h kv.1 kv.2)
    (hI : BatchInvariant R σ L st)
    (hs : ∀ key, ((L.appendAll h kvs).history key).length < 2^32) :
    ∃ st', kvs.foldlM (appendUpdate (rocksDB σ) h) st = .ok st' := by
  induction kvs generalizing L st with
  | nil => exact ⟨st,rfl⟩
  | cons kv kvs ih =>
    have hstep := hI.step (hk kv (by simp))
    rw [if_pos (length_appendAll_cons L h kv kvs hs)] at hstep
    obtain ⟨st1,he,h1⟩ := hstep
    obtain ⟨st',hst⟩ := ih (fun kv' hkv => hk kv' (by simp [hkv])) h1 hs
    refine ⟨st',?_⟩
    rw [List.foldlM_cons, he]
    exact hst

end BatchInvariant

theorem Represents.keepsAppend {key : Bytes} (hk : ¬Reserved key) (h : Nat) (value : Bytes) :
    KeepsAppend Represents h key value := fun _ _ hτ => hτ.append hk h value

theorem HoldsHistories.keepsAppend (h : Nat) (key value : Bytes) :
    KeepsAppend (fun σ L => HoldsHistories σ L.history) h key value :=
  fun _ _ hτ => hτ.append h key value

section Build

variable {σ : Store} {L : Ledger} {h : Nat} {kvs : List (Bytes × Bytes)}

theorem build_eq (db : KeyValueStoreLike) (h : Nat) (kvs : List (Bytes × Bytes)) :
    buildStateRootBatchUnwritten db h kvs =
      (kvs.foldlM (appendUpdate db h) ⟨[],∅⟩).bind fun st =>
        .ok (previousRoot db h,st.batch ++ [.put (rootKey h) (previousRoot db h)] ++
          manifestOps h kvs ++ [.put tipHeightKey (u32le h)]) := rfl

theorem Represents.manifestOps (hσ : Represents σ L) :
    Represents (KV.write σ (manifestOps h kvs))
      (if kvs = [] then L else L.setManifest h (some (KV.sortedKeys (kvs.map Prod.fst)))) := by
  rw [Metashrew.manifestOps]
  split_ifs with he
  · exact hσ
  · exact hσ.setManifest h rfl rfl

/-- The operations of a flush represent the flush on the ledger, whatever state root they carry. -/
theorem flushOps_represents (hσ : Represents σ L) (hs : ∀ key, (L.history key).length < 2^32)
    (hp : ∀ kv ∈ kvs, ¬Reserved kv.1) {st : BatchState}
    (hf : kvs.foldlM (appendUpdate (rocksDB σ) h) ⟨[],∅⟩ = .ok st) (root : Bytes) :
    Represents (KV.write σ (st.batch ++ [.put (rootKey h) root] ++ Metashrew.manifestOps h kvs ++
      [.put tipHeightKey (u32le h)])) (L.flush h kvs root) ∧
      ∀ key, ((L.flush h kvs root).history key).length < 2^32 := by
  have hI := (BatchInvariant.init hσ hσ.holdsHistories hs).run
    (fun kv hkv => Represents.keepsAppend (hp kv hkv) h kv.2) hf
  constructor
  · rw [KV.write_append, KV.write_append, KV.write_append]
    exact ((hI.related.setRoot h rfl).manifestOps).setTip h
  · intro key
    have hkey := hI.short key
    rw [Ledger.flush]
    split_ifs <;> exact hkey

/-- The batch of a flush represents the flush on the ledger. -/
theorem build_represents (hσ : Represents σ L) (hs : ∀ key, (L.history key).length < 2^32)
    (hp : ∀ kv ∈ kvs, ¬Reserved kv.1) {root : Bytes} {ops : List Op}
    (hb : buildStateRootBatchUnwritten (rocksDB σ) h kvs = .ok (root,ops)) :
    Represents (KV.write σ ops) (L.flush h kvs root) ∧
      ∀ key, ((L.flush h kvs root).history key).length < 2^32 := by
  rw [build_eq] at hb
  cases hf : kvs.foldlM (appendUpdate (rocksDB σ) h) ⟨[],∅⟩ with
  | error e => rw [hf] at hb; cases hb
  | ok st =>
    rw [hf] at hb
    have hpair := Except.ok.inj hb
    rw [Prod.mk.injEq] at hpair
    obtain ⟨rfl,rfl⟩ := hpair
    exact flushOps_represents hσ hs hp hf _

/-- What the operations of a flush append, whatever its keys and its state root are. -/
theorem flushOps_histories (hσ : HoldsHistories σ L.history)
    (hs : ∀ key, (L.history key).length < 2^32) {st : BatchState}
    (hf : kvs.foldlM (appendUpdate (rocksDB σ) h) ⟨[],∅⟩ = .ok st) (root : Bytes) :
    HoldsHistories (KV.write σ (st.batch ++ [.put (rootKey h) root] ++ Metashrew.manifestOps h kvs ++
      [.put tipHeightKey (u32le h)])) (L.appendAll h kvs).history ∧
      ∀ key, ((L.appendAll h kvs).history key).length < 2^32 := by
  have hI := (BatchInvariant.init (R := fun σ L => HoldsHistories σ L.history) hσ hσ hs).run
    (fun kv _ => HoldsHistories.keepsAppend h kv.1 kv.2) hf
  refine ⟨?_,hI.short⟩
  rw [List.append_assoc, List.append_assoc, KV.write_append]
  apply hI.related.internal
  intro op hop
  simp only [List.mem_append, List.mem_singleton, Metashrew.manifestOps] at hop
  rcases hop with rfl | hop | rfl
  · exact .root h
  · split_ifs at hop
    · cases hop
    · rw [List.mem_singleton.mp hop]
      exact .manifest h
  · exact .tipHeight

/-- What the batch of a flush appends. -/
theorem build_histories (hσ : HoldsHistories σ L.history)
    (hs : ∀ key, (L.history key).length < 2^32) {root : Bytes} {ops : List Op}
    (hb : buildStateRootBatchUnwritten (rocksDB σ) h kvs = .ok (root,ops)) :
    HoldsHistories (KV.write σ ops) (L.appendAll h kvs).history ∧
      ∀ key, ((L.appendAll h kvs).history key).length < 2^32 := by
  rw [build_eq] at hb
  cases hf : kvs.foldlM (appendUpdate (rocksDB σ) h) ⟨[],∅⟩ with
  | error e => rw [hf] at hb; cases hb
  | ok st =>
    rw [hf] at hb
    have hpair := Except.ok.inj hb
    rw [Prod.mk.injEq] at hpair
    obtain ⟨rfl,rfl⟩ := hpair
    exact flushOps_histories hσ hs hf _

theorem build_total (hσ : HoldsHistories σ L.history)
    (hs : ∀ key, ((L.appendAll h kvs).history key).length < 2^32) :
    ∃ root ops, buildStateRootBatchUnwritten (rocksDB σ) h kvs = .ok (root,ops) := by
  have hs0 : ∀ key, (L.history key).length < 2^32 := by
    intro key
    have hk := hs key
    rw [Ledger.appendAll_history, List.length_append] at hk
    omega
  obtain ⟨st,hst⟩ := (BatchInvariant.init (R := fun σ L => HoldsHistories σ L.history)
    hσ hσ hs0).run_total (fun kv _ => HoldsHistories.keepsAppend h kv.1 kv.2) hs
  exact ⟨_,_,by rw [build_eq, hst]; rfl⟩

end Build

section Congr

variable {db db' : KeyValueStoreLike}

theorem rootAtOrBelow_congr (h : db.getImmutable = db'.getImmutable) (height : Nat) :
    rootAtOrBelow db height = rootAtOrBelow db' height := by
  have hroot : ∀ height, readRoot db height = readRoot db' height := by
    intro height
    rw [readRoot, readRoot, h]
  induction height with
  | zero => exact hroot 0
  | succ height ih => rw [rootAtOrBelow, rootAtOrBelow, hroot, ih]

/-- The updates of a batch depend on the length records alone. -/
theorem appendUpdate_congr (h : ∀ key, db.getImmutable (lengthKey key) = db'.getImmutable (lengthKey key))
    (height : Nat) : appendUpdate db height = appendUpdate db' height := by
  have hlen : currentLength db = currentLength db' := by
    funext st key
    rw [currentLength, currentLength, h]
  funext st kv
  rw [appendUpdate, appendUpdate, hlen]

/-- A batch depends on the lookups alone, not on scans. -/
theorem build_congr (h : db.getImmutable = db'.getImmutable) (height : Nat)
    (kvs : List (Bytes × Bytes)) :
    buildStateRootBatchUnwritten db height kvs = buildStateRootBatchUnwritten db' height kvs := by
  have happend := appendUpdate_congr (fun key => congrFun h (lengthKey key)) height
  have hprev : previousRoot db height = previousRoot db' height := by
    cases height with
    | zero => rfl
    | succ height =>
      simp only [previousRoot, getSmtRootAtHeight, rootAtOrBelow_congr h]
  rw [build_eq, build_eq, happend, hprev]

/-- A lookup depends on the records of its key alone. -/
theorem searchUpdates_congr {key : Bytes}
    (hlen : db.getImmutable (lengthKey key) = db'.getImmutable (lengthKey key))
    (h : ∀ i, db.getImmutable (updateKey key i) = db'.getImmutable (updateKey key i)) (height : Nat) :
    searchUpdates db key height = searchUpdates db' key height := by
  have hread : readUpdate db key height = readUpdate db' key height := by
    funext mid
    rw [readUpdate, readUpdate, h]
  rw [searchUpdates, searchUpdates, hlen, hread]

end Congr

end Metashrew
