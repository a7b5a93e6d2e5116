import Metashrew.Tree.Calls

namespace Metashrew

open Bytes Versioned Durable

namespace SMTHelper

section Batch

variable (db : KeyValueStoreLike) (targetHeight : Nat)

/-- The loop over the entries of a key, with the length so far: entries above the target height are
deleted, malformed ones are passed over. -/
def rollbackEntries (key : Bytes) : List Nat → Nat → Except Fault (List Op × Nat)
  | [], newLength => return ([],newLength)
  | i::is, newLength => do
    match (← storageError (db.getImmutable (updateKey key i))).bind parseHeightFromSmtValue with
    | none => rollbackEntries key is newLength
    | some updateHeight =>
      if updateHeight ≤ targetHeight then rollbackEntries key is (i+1)
      else
        let rest ← rollbackEntries key is newLength
        return (.delete (updateKey key i)::rest.1,rest.2)

/-- The length record is written even when no entry is left. -/
def rollbackKeyToBatch (key : Bytes) : Except Fault (List Op) := do
  let _ ← getHeightsForKey db key
  match ← storageError (db.getImmutable (lengthKey key)) with
  | none => return []
  | some lengthBytes =>
    let entries ← rollbackEntries db targetHeight key (List.range (parseLength lengthBytes)) 0
    return entries.1 ++ [.put (lengthKey key) (decimal entries.2)]

def rollbackKeysToBatch : List Bytes → Except Fault (List Op)
  | [] => return []
  | key::keys => do
    let ops ← rollbackKeyToBatch db targetHeight key
    return ops ++ (← rollbackKeysToBatch keys)

def rollbackToHeightToBatch : Except Fault (List Op) := do
  let entries ← storageError (db.scanPrefix [])
  rollbackKeysToBatch db targetHeight (entries.filterMap fun e => stripLengthSuffix e.1)

end Batch

def rollbackToHeight (σ : Store) (targetHeight : Nat) : Except Fault Store := do
  return KV.write σ (← rollbackToHeightToBatch (rocksDB σ) targetHeight)

end SMTHelper

/-- The arguments of a `put`. -/
structure Put where
  key : Bytes
  value : Bytes
  height : Fin (2^32)

def putAll : Store → List Put → Except Fault Store
  | σ, [] => .ok σ
  | σ, p::puts => do putAll (← SMTHelper.put σ p.key p.value p.height) puts

/-- The reads of a key. -/
structure AlikeReads (σ σ' : Store) : Prop where
  atHeight : ∀ key h, getAtHeight (rocksDB σ) key h = getAtHeight (rocksDB σ') key h
  current : ∀ key, getCurrent (rocksDB σ) key = getCurrent (rocksDB σ') key
  heights : ∀ key, getHeightsForKey (rocksDB σ) key = getHeightsForKey (rocksDB σ') key

/-- Both fail in the same way, or both give stores with the same reads. -/
def SameOutcome : Except Fault Store → Except Fault Store → Prop
  | .ok σ, .ok σ' => AlikeReads σ σ'
  | .error e, .error e' => e = e'
  | _, _ => False

/-- Puts above a height read the same afterwards. -/
def SameAbove (t : Nat) (σ σ' : Store) : Prop :=
  ∀ later : List Put, (∀ p ∈ later, t < p.height) → SameOutcome (putAll σ later) (putAll σ' later)

/-- The rollback of a store that the puts lead to, with the store that only the kept puts lead to
and the one that the slow rollback leaves. -/
structure RollbackKeeps (puts : List Put) (t : Nat) (σ σ' : Store) : Prop where
  past : ∀ key h, h ≤ t → getAtHeight (rocksDB σ') key h = getAtHeight (rocksDB σ) key h
  current : ∀ key, getCurrent (rocksDB σ') key = getAtHeight (rocksDB σ) key t
  gone : ∀ key i h,
    (KV.get σ' (updateKey key i)).bind parseHeightFromSmtValue = some h → h ≤ t
  never : ∃ kept, putAll ∅ (puts.filter fun p => p.height ≤ t) = .ok kept ∧ SameAbove t σ' kept
  slow : ∀ current, (∀ p ∈ puts, p.height ≤ current) →
    ((rollbackSmtData t current).run σ).result = .ok () ∧
      SameAbove t σ' ((rollbackSmtData t current).finalState σ)

/-- What the reads of the keys see: the lengths, where a missing record counts as 0, and the
entries. -/
structure ReadsAs (σ : Store) (H : Bytes → History Nat Bytes) : Prop where
  length : ∀ key, lengthOf σ key = (H key).length
  update : ∀ key i, KV.get σ (updateKey key i) = (H key)[i]?.map fun e => formatUpdate e.1 e.2

section Reads

variable {σ σ' : Store} {H : Bytes → History Nat Bytes} {key value : Bytes} {h : Nat}

theorem getAtHeight_lengthOf (σ : Store) (key : Bytes) (h : Nat) :
    getAtHeight (rocksDB σ) key h = if lengthOf σ key = 0 then .ok none
      else Search.bisect midpoint (readUpdate (rocksDB σ) key h) (lengthOf σ key) 0
        (lengthOf σ key) none := by
  rw [lengthOf, getAtHeight, searchUpdates]
  show (Except.ok (KV.get σ (lengthKey key))).bind _ = _
  cases KV.get σ (lengthKey key) <;> rfl

theorem getCurrent_lengthOf (σ : Store) (key : Bytes) :
    getCurrent (rocksDB σ) key = if lengthOf σ key = 0 then .ok none
      else match KV.get σ (updateKey key (lengthOf σ key-1)) with
        | none => .ok none
        | some updateData =>
          match splitAtByte 58 updateData with
          | none => .error (.message "Invalid update format")
          | some (_,valueHex) =>
            match hexDecode valueHex with
            | some value => .ok (some value)
            | none => .error (.message "Invalid hex encoding in stored value") := by
  rw [lengthOf, getCurrent]
  show (Except.ok (KV.get σ (lengthKey key))).bind _ = _
  cases KV.get σ (lengthKey key) with
  | none => rfl
  | some lengthBytes => rfl

theorem ReadsAs.alikeReads (hσ : ReadsAs σ H) (hσ' : ReadsAs σ' H) : AlikeReads σ σ' := by
  have hlen : ∀ key, lengthOf σ key = lengthOf σ' key := by
    intro key
    rw [hσ.length, hσ'.length]
  have hget : ∀ key i, KV.get σ (updateKey key i) = KV.get σ' (updateKey key i) := by
    intro key i
    rw [hσ.update, hσ'.update]
  refine ⟨?_,?_,?_⟩
  · intro key h
    have hprobe : readUpdate (rocksDB σ) key h = readUpdate (rocksDB σ') key h := by
      funext i
      rw [readUpdate, readUpdate]
      show (Except.ok (KV.get σ (updateKey key i))).bind _ = _
      rw [hget]
      rfl
    rw [getAtHeight_lengthOf, getAtHeight_lengthOf, hlen, hprobe]
  · intro key
    rw [getCurrent_lengthOf, getCurrent_lengthOf, hlen, hget]
  · intro key
    have hcollect : ∀ is : List Nat,
        collectHeights (rocksDB σ) key is = collectHeights (rocksDB σ') key is := by
      intro is
      induction is with
      | nil => rfl
      | cons i is ih =>
        rw [collectHeights, collectHeights, ih]
        show (Except.ok (KV.get σ (updateKey key i))).bind _ = _
        rw [hget]
        rfl
    rw [getHeightsForKey_lengthOf, getHeightsForKey_lengthOf, hlen, hcollect]

/-- The entry that a put adds. -/
theorem ReadsAs.write (hσ : ReadsAs σ H) (hlt : (H key).length+1<2^32) :
    ReadsAs (KV.write σ [.put (updateKey key (H key).length) (formatUpdate h value),
        .put (lengthKey key) (decimal ((H key).length+1))])
      (Function.update H key (H key ++ [(h,value)])) := by
  constructor
  · intro key'
    rw [lengthOf, HoldsHistories.get_length_append]
    by_cases he : key = key'
    · rw [← he, if_pos rfl, Function.update_self, List.length_append]
      show parseLength _ = _
      rw [parseLength, parseU32_decimal hlt]
      rfl
    · rw [if_neg he, Function.update_of_ne (Ne.symm he)]
      exact hσ.length key'
  · intro key' i
    rw [HoldsHistories.get_update_append, hσ.update]
    by_cases he : key = key'
    · subst he
      rw [Function.update_self]
      by_cases hi : (H key).length = i
      · subst hi
        simp
      · rw [if_neg fun hc => hi hc.2, List.getElem?_append]
        split_ifs with hlt
        · rfl
        · have hge : (H key).length < i := by omega
          have hone : [(h,value)].length ≤ i-(H key).length := by
            rw [List.length_singleton]
            omega
          rw [List.getElem?_eq_none (by omega), List.getElem?_eq_none hone]
    · rw [if_neg fun hc => he hc.1, Function.update_of_ne (Ne.symm he)]

/-- Puts on stores with the same reads. -/
theorem ReadsAs.sameOutcome (hσ : ReadsAs σ H) (hσ' : ReadsAs σ' H) (puts : List Put) :
    SameOutcome (putAll σ puts) (putAll σ' puts) := by
  induction puts generalizing σ σ' H with
  | nil => exact hσ.alikeReads hσ'
  | cons p puts ih =>
    rw [putAll, putAll, put_lengthOf, put_lengthOf, hσ.length, hσ'.length]
    by_cases hlt : (H p.key).length+1<2^32
    · rw [if_pos hlt, if_pos hlt]
      exact ih (hσ.write hlt) (hσ'.write hlt)
    · rw [if_neg hlt, if_neg hlt]
      rfl

end Reads

/-- The entries of a key after some puts, from no entries on. -/
def entriesOf (puts : List Put) (key : Bytes) : History Nat Bytes :=
  (puts.filter fun p => p.key = key).map fun p => ((p.height : Nat),p.value)

/-- A store that holds the records of the keys and nothing else. -/
structure HasRecords (σ : Store) (H : Bytes → History Nat Bytes) : Prop extends ReadsAs σ H where
  record : ∀ key, KV.get σ (lengthKey key) = Ledger.lengthRecord (H key)
  short : ∀ key, (H key).length<2^32
  only : ∀ name, KV.get σ name ≠ none → ∃ key, KeyName key name

section Puts

variable {σ σ' : Store} {H : Bytes → History Nat Bytes} {key value : Bytes} {h t : Nat}
  {puts : List Put}

theorem entriesOf_cons (p : Put) (puts : List Put) (key : Bytes) : entriesOf (p::puts) key =
    (if p.key = key then [((p.height : Nat),p.value)] else []) ++ entriesOf puts key := by
  rw [entriesOf, List.filter_cons]
  by_cases hk : p.key = key
  · rw [if_pos hk, if_pos (decide_eq_true hk)]
    rfl
  · rw [if_neg hk, if_neg (by simpa using hk)]
    rfl

theorem upTo_entriesOf (t : Nat) (puts : List Put) (key : Bytes) :
    upTo t (entriesOf puts key) = entriesOf (puts.filter fun p => p.height ≤ t) key := by
  rw [upTo, entriesOf, entriesOf, List.filter_map, List.filter_filter, List.filter_filter]
  congr 1
  apply List.filter_congr
  intro p _
  exact Bool.and_comm _ _

theorem ordered_entriesOf (hord : puts.Pairwise fun p p' => p.height ≤ p'.height) (key : Bytes) :
    Ordered (entriesOf puts key) := by
  rw [Ordered, entriesOf, List.pairwise_map]
  exact (hord.filter _).imp fun h => h

theorem entriesOf_lt {e : Nat × Bytes} (he : e ∈ entriesOf puts key) : e.1<2^32 := by
  obtain ⟨p,_,hp⟩ := List.mem_map.mp he
  rw [← hp]
  exact p.height.isLt

theorem HasRecords.empty : HasRecords ∅ fun _ => [] where
  length _ := rfl
  update _ _ := rfl
  record _ := rfl
  short _ := by
    show 0<2^32
    decide
  only name hn := absurd (KV.get_empty name) hn

theorem HasRecords.hasHistory (hσ : HasRecords σ H) (key : Bytes) : HasHistory σ key (H key) where
  length := hσ.record key
  update i hi := by
    rw [hσ.update, List.getElem?_eq_getElem hi]
    rfl

theorem HasRecords.put (hσ : HasRecords σ H) (hlt : (H key).length+1<2^32) :
    HasRecords (KV.write σ [.put (updateKey key (H key).length) (formatUpdate h value),
        .put (lengthKey key) (decimal ((H key).length+1))])
      (Function.update H key (H key ++ [(h,value)])) := by
  refine ⟨hσ.write hlt,?_,?_,?_⟩
  · intro key'
    exact (HasHistory.append (hσ.hasHistory key) (hσ.hasHistory key') h value).length
  · intro key'
    by_cases hk : key' = key
    · rw [hk, Function.update_self, List.length_append]
      exact hlt
    · rw [Function.update_of_ne hk]
      exact hσ.short key'
  · intro name hn
    by_cases hu : updateKey key (H key).length = name
    · exact ⟨key,.inr ⟨_,hu.symm⟩⟩
    · by_cases hl : lengthKey key = name
      · exact ⟨key,.inl hl.symm⟩
      · apply hσ.only name
        rwa [KV.get_write_of_not_mem] at hn
        intro op hop
        simp only [List.mem_cons, List.not_mem_nil, or_false] at hop
        obtain rfl | rfl := hop
        · exact hu
        · exact hl

theorem update_append_entriesOf (p : Put) (puts : List Put) : (fun key =>
    Function.update H p.key (H p.key ++ [((p.height : Nat),p.value)]) key ++ entriesOf puts key) =
      fun key => H key ++ entriesOf (p::puts) key := by
  funext key
  rw [entriesOf_cons]
  by_cases hk : p.key = key
  · subst hk
    rw [Function.update_self, if_pos rfl, List.append_assoc]
  · rw [Function.update_of_ne (Ne.symm hk), if_neg hk, List.nil_append]

theorem HasRecords.after (hσ : HasRecords σ H) (hp : putAll σ puts = .ok σ') :
    HasRecords σ' fun key => H key ++ entriesOf puts key := by
  induction puts generalizing σ H with
  | nil =>
    cases hp
    simpa [entriesOf] using hσ
  | cons p puts ih =>
    rw [putAll, put_lengthOf, hσ.length] at hp
    by_cases hlt : (H p.key).length+1<2^32
    · rw [if_pos hlt] at hp
      have hrest := ih (hσ.put hlt) hp
      rwa [update_append_entriesOf] at hrest
    · rw [if_neg hlt] at hp
      cases hp

theorem HasRecords.putAll_total (hσ : HasRecords σ H) (puts : List Put)
    (hlt : ∀ key, (H key ++ entriesOf puts key).length<2^32) :
    ∃ σ', putAll σ puts = .ok σ' := by
  induction puts generalizing σ H with
  | nil => exact ⟨σ,rfl⟩
  | cons p puts ih =>
    have hone : (H p.key).length+1<2^32 := by
      have hk := hlt p.key
      rw [entriesOf_cons, if_pos rfl, List.length_append, List.length_append] at hk
      have h1 : [((p.height : Nat),p.value)].length = 1 := rfl
      omega
    rw [putAll, put_lengthOf, hσ.length, if_pos hone]
    apply ih (hσ.put hone)
    intro key
    have heq := congrFun (update_append_entriesOf (H := H) p puts) key
    rw [heq]
    exact hlt key

end Puts

section Rollback

variable {σ : Store} {H : Bytes → History Nat Bytes} {key : Bytes} {t : Nat}

private theorem entry_height_eq (hσ : HasRecords σ H) (hb : ∀ e ∈ H key, e.1<2^32) {i : Nat}
    (hi : i < (H key).length) :
    (KV.get σ (updateKey key i)).bind parseHeightFromSmtValue = some (H key)[i].1 := by
  rw [(hσ.hasHistory key).update i hi]
  exact parseHeight_formatUpdate (hb _ (List.getElem_mem hi)) _

theorem rollbackEntries_cons (i : Nat) (is : List Nat) (newLength : Nat) :
    SMTHelper.rollbackEntries (rocksDB σ) t key (i::is) newLength =
      match (KV.get σ (updateKey key i)).bind parseHeightFromSmtValue with
      | none => SMTHelper.rollbackEntries (rocksDB σ) t key is newLength
      | some updateHeight =>
        if updateHeight ≤ t then SMTHelper.rollbackEntries (rocksDB σ) t key is (i+1)
        else (SMTHelper.rollbackEntries (rocksDB σ) t key is newLength).map
          fun rest => (.delete (updateKey key i)::rest.1,rest.2) := by
  rw [SMTHelper.rollbackEntries]
  show (Except.ok (KV.get σ (updateKey key i))).bind _ = _
  rw [Except.bind]
  cases (KV.get σ (updateKey key i)).bind parseHeightFromSmtValue with
  | none => rfl
  | some updateHeight =>
    dsimp only
    split_ifs
    · rfl
    · cases SMTHelper.rollbackEntries (rocksDB σ) t key is newLength <;> rfl

/-- The deletions of the entries from index `b` on. -/
def dropEntries (key : Bytes) (b n : Nat) : List Op :=
  ((List.range' b (n-b)).map (updateKey key)).map .delete

/-- The loop deletes what is above the target height and counts what is not. -/
theorem rollbackEntries_spec (hσ : HasRecords σ H) (ho : Ordered (H key))
    (hb : ∀ e ∈ H key, e.1<2^32) (k start newLength : Nat) (hk : start+k = (H key).length) :
    SMTHelper.rollbackEntries (rocksDB σ) t key (List.range' start k) newLength =
      .ok (dropEntries key (max (upTo t (H key)).length start) (H key).length,
        if start < (upTo t (H key)).length then (upTo t (H key)).length else newLength) := by
  have hle : (upTo t (H key)).length≤(H key).length := upTo_length_le ..
  induction k generalizing start newLength with
  | zero =>
    have hmax : (H key).length-max (upTo t (H key)).length start = 0 := by omega
    rw [if_neg (by omega), dropEntries, hmax]
    rfl
  | succ k ih =>
    have hi : start < (H key).length := by omega
    have he := List.getElem?_eq_getElem hi
    rw [List.range'_succ, rollbackEntries_cons, entry_height_eq hσ hb hi]
    dsimp only
    by_cases hs : start < (upTo t (H key)).length
    · have hmax : max (upTo t (H key)).length (start+1) = max (upTo t (H key)).length start := by
        omega
      rw [if_pos (ho.le_of_lt_length hs he), ih (start+1) (start+1) (by omega), hmax, if_pos hs]
      split_ifs
      · rfl
      · have heq : start+1 = (upTo t (H key)).length := by omega
        rw [heq]
    · have hgt := ho.gt_of_length_le (not_lt.mp hs) he
      have hm : max (upTo t (H key)).length start = start := by omega
      have hm' : max (upTo t (H key)).length (start+1) = start+1 := by omega
      have hlen : (H key).length-start = ((H key).length-(start+1))+1 := by omega
      rw [if_neg (by omega), ih (start+1) newLength (by omega), if_neg (by omega), if_neg hs, hm,
        hm', dropEntries, dropEntries, hlen, List.range'_succ]
      rfl

/-- What the rollback of a key adds to the batch. -/
def rollbackKeyOps (H : Bytes → History Nat Bytes) (t : Nat) (key : Bytes) : List Op :=
  dropEntries key (upTo t (H key)).length (H key).length ++
    [.put (lengthKey key) (decimal (upTo t (H key)).length)]

theorem rollbackKeyToBatch_eq (hσ : HasRecords σ H) (ho : Ordered (H key))
    (hb : ∀ e ∈ H key, e.1<2^32) (hne : H key ≠ []) :
    SMTHelper.rollbackKeyToBatch (rocksDB σ) t key = .ok (rollbackKeyOps H t key) := by
  obtain ⟨heights,hheights,_⟩ := (hσ.hasHistory key).getHeightsForKey hb (hσ.short key)
  have hparse : parseLength (decimal (H key).length) = (H key).length := by
    rw [parseLength, parseU32_decimal (hσ.short key)]
    rfl
  have hloop := rollbackEntries_spec (t := t) hσ ho hb (H key).length 0 0 (Nat.zero_add _)
  rw [← List.range_eq_range', Nat.max_zero] at hloop
  have hlen : (if 0 < (upTo t (H key)).length then (upTo t (H key)).length else 0) =
      (upTo t (H key)).length := by
    split_ifs <;> omega
  have hget : storageError ((rocksDB σ).getImmutable (lengthKey key)) =
      .ok (Ledger.lengthRecord (H key)) := by
    rw [← hσ.record]
    rfl
  rw [SMTHelper.rollbackKeyToBatch, hheights, hget, Ledger.lengthRecord_of_ne_nil hne]
  show (SMTHelper.rollbackEntries (rocksDB σ) t key (List.range (parseLength
    (decimal (H key).length))) 0).bind _ = _
  rw [hparse, hloop, hlen]
  rfl

theorem rollbackKeysToBatch_eq (hσ : HasRecords σ H) (ho : ∀ key, Ordered (H key))
    (hb : ∀ key, ∀ e ∈ H key, e.1<2^32) (keys : List Bytes) (hne : ∀ key ∈ keys, H key ≠ []) :
    SMTHelper.rollbackKeysToBatch (rocksDB σ) t keys = .ok (keys.flatMap (rollbackKeyOps H t)) := by
  induction keys with
  | nil => rfl
  | cons key keys ih =>
    have hkey := rollbackKeyToBatch_eq (t := t) hσ (ho key) (hb key) (hne key List.mem_cons_self)
    have hrest := ih fun key' hk => hne key' (List.mem_cons_of_mem key hk)
    rw [SMTHelper.rollbackKeysToBatch, hkey, hrest]
    rfl

/-- The keys that the scan finds. -/
def scannedKeys (σ : Store) : List Bytes := σ.toList.filterMap fun e => stripLengthSuffix e.1

theorem mem_scannedKeys (hσ : HasRecords σ H) : key ∈ scannedKeys σ ↔ H key ≠ [] := by
  have hrecord : H key ≠ [] ↔ KV.get σ (lengthKey key) ≠ none := by
    rw [hσ.record]
    cases H key <;> simp [Ledger.lengthRecord]
  rw [hrecord, scannedKeys, List.mem_filterMap, Option.ne_none_iff_exists']
  constructor
  · intro h
    obtain ⟨e,he,hs⟩ := h
    have hname := stripLengthSuffix_eq_some.mp hs
    exact ⟨e.2,by rw [← hname]; exact Std.ExtTreeMap.mem_toList_iff_getElem?_eq_some.mp he⟩
  · intro h
    obtain ⟨v,hv⟩ := h
    exact ⟨(lengthKey key,v),Std.ExtTreeMap.mem_toList_iff_getElem?_eq_some.mpr hv,
      stripLengthSuffix_eq_some.mpr rfl⟩

theorem rollbackToHeight_eq (hσ : HasRecords σ H) (ho : ∀ key, Ordered (H key))
    (hb : ∀ key, ∀ e ∈ H key, e.1<2^32) : SMTHelper.rollbackToHeight σ t =
      .ok (KV.write σ ((scannedKeys σ).flatMap (rollbackKeyOps H t))) := by
  have hkeys := rollbackKeysToBatch_eq (t := t) hσ ho hb (scannedKeys σ)
    fun key hk => (mem_scannedKeys hσ).mp hk
  have hscan : storageError ((rocksDB σ).scanPrefix []) = .ok σ.toList := by
    simp [rocksDB, storageError]
  rw [SMTHelper.rollbackToHeight, SMTHelper.rollbackToHeightToBatch, hscan]
  show (SMTHelper.rollbackKeysToBatch (rocksDB σ) t (scannedKeys σ)).bind _ = _
  rw [hkeys]
  rfl

theorem rollbackKeyOps_names : ∀ op ∈ rollbackKeyOps H t key, KeyName key op.key := by
  intro op hop
  rw [rollbackKeyOps, dropEntries, List.map_map, List.mem_append, List.mem_map,
    List.mem_singleton] at hop
  rcases hop with ⟨i,_,he⟩ | he
  · rw [← he]
    exact .inr ⟨i,rfl⟩
  · rw [he]
    exact .inl rfl

theorem effect_rollbackKeyOps_length : KV.effect (rollbackKeyOps H t key) (lengthKey key) =
    some (some (decimal (upTo t (H key)).length)) := by
  rw [rollbackKeyOps, KV.effect_append]
  simp [KV.effect, KV.Op.key, KV.Op.value]

theorem effect_rollbackKeyOps_update (i : Nat) :
    KV.effect (rollbackKeyOps H t key) (updateKey key i) =
      if (upTo t (H key)).length ≤ i ∧ i < (H key).length then some none else none := by
  have hlength : KV.effect [(.put (lengthKey key) (decimal (upTo t (H key)).length) : Op)]
      (updateKey key i) = none := by
    apply KV.effect_eq_none
    intro op hop
    rw [List.mem_singleton.mp hop]
    exact Record.name_ne (r := .length key) (s := .update key i) (by simp)
  rw [rollbackKeyOps, KV.effect_append, hlength, Option.none_or, dropEntries, KV.effect_deletes]
  congr 1
  simp only [List.mem_map, List.mem_range'_1, updateKey_inj, exists_eq_right, eq_iff_iff]
  omega

/-- The batch leaves a record as the rollback of its key does. -/
theorem get_rollback (hσ : HasRecords σ H) (rec : Record) (hname : KeyName key rec.name) :
    KV.get (KV.write σ ((scannedKeys σ).flatMap (rollbackKeyOps H t))) rec.name =
      if H key = [] then KV.get σ rec.name
      else (KV.effect (rollbackKeyOps H t key) rec.name).getD (KV.get σ rec.name) := by
  have hnone : ∀ key', key' ≠ key → KV.effect (rollbackKeyOps H t key') rec.name = none := by
    intro key' hk
    apply KV.effect_eq_none
    intro op hop he
    exact hk (KeyName.unique (he ▸ rollbackKeyOps_names op hop) hname)
  rw [KV.get_write]
  split_ifs with hnil
  · have hmem : key ∉ scannedKeys σ := fun hk => (mem_scannedKeys hσ).mp hk hnil
    rw [KV.effect_eq_none]
    · rfl
    · intro op hop he
      obtain ⟨key',hk',hop'⟩ := List.mem_flatMap.mp hop
      have heq := KeyName.unique (he ▸ rollbackKeyOps_names op hop') hname
      exact hmem (heq ▸ hk')
  · rw [KV.effect_flatMap _ key _ _ ((mem_scannedKeys hσ).mpr hnil) hnone]

/-- After the rollback the keys read as their entries up to the target height. -/
theorem HasRecords.rollback (hσ : HasRecords σ H) (ho : ∀ key, Ordered (H key)) :
    ReadsAs (KV.write σ ((scannedKeys σ).flatMap (rollbackKeyOps H t))) fun key => upTo t (H key) := by
  constructor
  · intro key
    have hget := get_rollback (t := t) hσ (.length key) (.inl rfl)
    rw [lengthOf]
    show ((KV.get _ (Record.length key).name).map parseLength).getD 0 = _
    rw [hget]
    have hle : (upTo t (H key)).length≤(H key).length := upTo_length_le ..
    have hs := hσ.short key
    split_ifs with hnil
    · show ((KV.get σ (lengthKey key)).map parseLength).getD 0 = _
      rw [hσ.record, hnil]
      rfl
    · show (((KV.effect (rollbackKeyOps H t key) (lengthKey key)).getD _).map parseLength).getD 0 = _
      rw [effect_rollbackKeyOps_length]
      show parseLength _ = _
      rw [parseLength, parseU32_decimal (by omega)]
      rfl
  · intro key i
    have hget := get_rollback (t := t) hσ (.update key i) (.inr ⟨i,rfl⟩)
    refine hget.trans ?_
    show (if H key = [] then KV.get σ (updateKey key i)
      else (KV.effect _ (updateKey key i)).getD (KV.get σ (updateKey key i))) = _
    rw [hσ.update, effect_rollbackKeyOps_update]
    by_cases hi : i<(upTo t (H key)).length
    · have hkeep : ¬((upTo t (H key)).length ≤ i ∧ i < (H key).length) := by omega
      rw [if_neg hkeep, (ho key).getElem_upTo hi, Option.getD_none, ite_self]
    · rw [List.getElem?_eq_none (l := upTo t (H key)) (by omega)]
      split_ifs with hnil hin
      · rw [hnil]
        rfl
      · rfl
      · rw [List.getElem?_eq_none (by omega)]
        rfl

end Rollback

section Slow

variable {σ : Store} {H : Bytes → History Nat Bytes} {key : Bytes} {t : Nat}

/-- A compaction leaves the entries up to the target height of its key. -/
theorem HasRecords.compact (hσ : HasRecords σ H) (key : Bytes) (ho : Ordered (H key))
    (hb : ∀ e ∈ H key, e.1<2^32) :
    HasRecords (KV.write σ (compactionOps σ t key (H key).length))
      (Function.update H key (upTo t (H key))) := by
  have hle : (upTo t (H key)).length≤(H key).length := upTo_length_le ..
  have hshort : ∀ key', (Function.update H key (upTo t (H key)) key').length<2^32 := by
    intro key'
    by_cases hk : key' = key
    · rw [hk, Function.update_self]
      exact hle.trans_lt (hσ.short key)
    · rw [Function.update_of_ne hk]
      exact hσ.short key'
  have hother : ∀ key' rec, key' ≠ key → KeyName key' (Record.name rec) →
      KV.get (KV.write σ (compactionOps σ t key (H key).length)) rec.name = KV.get σ rec.name := by
    intro key' rec hk hname
    apply KV.get_write_of_not_mem
    intro op hop he
    exact hk (KeyName.unique hname (he ▸ compactionOps_names σ t key _ op hop))
  have hrecord : ∀ key', KV.get (KV.write σ (compactionOps σ t key (H key).length))
      (lengthKey key') = Ledger.lengthRecord (Function.update H key (upTo t (H key)) key') := by
    intro key'
    by_cases hk : key' = key
    · rw [hk, Function.update_self, KV.get_write,
        (hσ.hasHistory key).effect_compactionOps_length hb]
      rfl
    · rw [Function.update_of_ne hk, ← hσ.record]
      exact hother key' (.length key') hk (.inl rfl)
  refine ⟨⟨fun key' => lengthOf_record (hrecord key') (hshort key'),?_⟩,hrecord,hshort,?_⟩
  · intro key' i
    by_cases hk : key' = key
    · rw [hk, Function.update_self, KV.get_write,
        (hσ.hasHistory key).effect_compactionOps_update ho hb, hσ.update]
      by_cases hi : i<(upTo t (H key)).length
      · rw [if_pos hi, ho.getElem_upTo hi]
        rfl
      · rw [if_neg hi, List.getElem?_eq_none (l := upTo t (H key)) (by omega)]
        split_ifs with hlt
        · rfl
        · rw [List.getElem?_eq_none (by omega)]
          rfl
    · rw [Function.update_of_ne hk, ← hσ.update]
      exact hother key' (.update key' i) hk (.inr ⟨i,rfl⟩)
  · intro name hn
    by_cases hname : KeyName key name
    · exact ⟨key,hname⟩
    · apply hσ.only name
      rwa [KV.get_write_of_not_mem] at hn
      intro op hop he
      exact hname (he ▸ compactionOps_names σ t key _ op hop)

theorem HasRecords.rollbackStructure (hσ : HasRecords σ H) (key : Bytes) (hne : H key ≠ []) :
    (rollbackStructure t key).run σ =
      ⟨[KV.write σ (compactionOps σ t key (H key).length)],.ok ()⟩ := by
  have hparse : parseLength (decimal (H key).length) = (H key).length := by
    rw [parseLength, parseU32_decimal (hσ.short key)]
    rfl
  rw [Metashrew.rollbackStructure, getValue, Prog.run_read_bind, hσ.record,
    Ledger.lengthRecord_of_ne_nil hne]
  dsimp only
  rw [Prog.run_read_bind, hparse, applyAtomic_run, if_neg (by simp [compactionOps])]

theorem HasRecords.mem_smtStructures (hσ : HasRecords σ H) : key ∈ smtStructures σ ↔ H key ≠ [] := by
  rw [mem_smtStructures_iff, hσ.record]
  cases H key <;> simp [Ledger.lengthRecord]

/-- The names of records hold a slash, those of metadata do not. -/
theorem HasRecords.metadata (hσ : HasRecords σ H) : metadataKeysToDelete t σ.keys = [] := by
  rw [metadataKeysToDelete, List.filter_eq_nil_iff]
  intro name hname
  obtain ⟨key,hk⟩ := hσ.only name ((KV.mem_keys_iff σ name).mp hname)
  have hslash : (47:UInt8) ∈ name := by
    rcases hk with rfl | ⟨i,rfl⟩
    · exact List.mem_append_right _ (by decide)
    · exact List.mem_append_left _ (List.mem_append_right _ (by decide))
  rw [metadataHeight_of_slash hslash]
  simp

/-- After the slow rollback the keys have their entries up to the target height. -/
theorem HasRecords.rollbackSmtData (hσ : HasRecords σ H) (ho : ∀ key, Ordered (H key))
    (hb : ∀ key, ∀ e ∈ H key, e.1<2^32) {current : Nat}
    (hcurrent : ∀ key, ∀ e ∈ H key, e.1 ≤ current) :
    ((rollbackSmtData t current).run σ).result = .ok () ∧
      HasRecords ((rollbackSmtData t current).finalState σ) fun key => upTo t (H key) := by
  by_cases hr : current ≤ t
  · have hsame : (fun key => upTo t (H key)) = H := by
      funext key
      exact upTo_of_le fun e he => (hcurrent key e he).trans hr
    rw [hsame, Metashrew.rollbackSmtData, if_pos hr]
    exact ⟨rfl,hσ⟩
  · have hstep : ∀ done key rest ρ, smtStructures σ = done ++ key::rest →
        HasRecords ρ (fun key => if key ∈ done then upTo t (H key) else H key) →
        ∃ ρ', (Metashrew.rollbackStructure t key).run ρ = ⟨[ρ'],.ok ()⟩ ∧
          HasRecords ρ' fun key' => if key' ∈ done ++ [key] then upTo t (H key') else H key' := by
      intro done key rest ρ hsplit hρ
      have hnd : (done ++ key::rest).Nodup := hsplit ▸ KV.nodup_sortedKeys _
      have hout : key∉done := fun hd => (List.nodup_append.mp hnd).2.2 key hd key (by simp) rfl
      have hne : H key ≠ [] := by
        apply hσ.mem_smtStructures.mp
        rw [hsplit]
        simp
      have hrun := hρ.rollbackStructure (t := t) key
      have hcompact := hρ.compact (t := t) key
      simp only [if_neg hout] at hrun hcompact
      refine ⟨_,hrun hne,?_⟩
      have heq : (fun key' => if key' ∈ done ++ [key] then upTo t (H key') else H key') =
          Function.update (fun key => if key ∈ done then upTo t (H key) else H key) key
            (upTo t (H key)) := by
        funext key'
        by_cases hk : key' = key
        · subst hk
          simp
        · simp [hk]
      rw [heq]
      exact hcompact (ho key) (hb key)
    obtain ⟨ss,hrun,hlen,hinv⟩ := Prog.forEach_spec (smtStructures σ) hstep σ (by simpa using hσ)
    have hall : (Metashrew.rollbackSmtData t current).run σ = ⟨ss,.ok ()⟩ := by
      rw [Metashrew.rollbackSmtData, if_neg hr, Prog.run_read_bind, hσ.metadata,
        Prog.run_bind_ok (applyAtomic_run _)]
      exact hrun
    rw [Prog.finalState_eq hall, hall]
    refine ⟨rfl,?_⟩
    have hlast := hinv _ _ Prog.getElem?_getLastD
    rw [hlen, List.take_length] at hlast
    have heq : (fun key => if key ∈ smtStructures σ then upTo t (H key) else H key) =
        fun key => upTo t (H key) := by
      funext key
      by_cases hnil : H key = []
      · rw [hnil]
        exact ite_self _
      · rw [if_pos (hσ.mem_smtStructures.mpr hnil)]
    rwa [heq] at hlast

end Slow

/-- At most 2^31 entries of a key are at or below the target height, and no binary search for a height
up to it, over all entries of the key, meets two bounds whose sum overflows. -/
def SearchesFit (puts : List Put) (t : Nat) : Prop :=
  ∀ key, (upTo t (entriesOf puts key)).length ≤ 2^31 ∧ ∀ h, h ≤ t →
    Search.fits (2^32) (upTo h (entriesOf puts key)).length (entriesOf puts key).length 0
      (entriesOf puts key).length

section Law

variable {σ : Store} {H : Bytes → History Nat Bytes} {puts : List Put} {t : Nat}

theorem HasRecords.ofPuts (hp : putAll ∅ puts = .ok σ) : HasRecords σ (entriesOf puts) := by
  have h := HasRecords.empty.after hp
  simpa only [List.nil_append] using h

theorem HasRecords.reads (hσ : HasRecords σ H) (ho : ∀ key, Ordered (H key))
    (hb : ∀ key, ∀ e ∈ H key, e.1<2^32) (key : Bytes) (h : Nat) :
    getAtHeight (rocksDB σ) key h =
      if Search.fits (2^32) (upTo h (H key)).length (H key).length 0 (H key).length
      then .ok (asOf h (H key)) else .error (.panic "attempt to add with overflow") :=
  (hσ.hasHistory key).searchUpdates_eq (ho key) (hb key) (hσ.short key) h

/-- The current value of a key is that of its last entry. -/
theorem ReadsAs.current (hσ : ReadsAs σ H) (key : Bytes) :
    getCurrent (rocksDB σ) key = .ok ((H key).getLast?.map Prod.snd) := by
  rw [getCurrent_lengthOf, hσ.length]
  by_cases hnil : H key = []
  · rw [hnil]
    rfl
  · have hpos : (H key).length ≠ 0 := fun h0 => hnil (List.length_eq_zero_iff.mp h0)
    have hi : (H key).length-1 < (H key).length := by omega
    rw [if_neg hpos, hσ.update, List.getLast?_eq_getElem?, List.getElem?_eq_getElem hi]
    dsimp only [Option.map_some]
    rw [splitAtByte_formatUpdate]
    dsimp only
    rw [hexDecode_hexEncode]

/-- What the rollback keeps at all lengths: the current value, no entries above the target height,
and the reads after later puts. -/
theorem HasRecords.rollbackKeeps_iff (hord : puts.Pairwise fun p p' => p.height ≤ p'.height)
    (hp : putAll ∅ puts = .ok σ) :
    ∃ σ', SMTHelper.rollbackToHeight σ t = .ok σ' ∧ ReadsAs σ' (fun key => upTo t (entriesOf puts key)) ∧
      (∃ kept, HasRecords kept fun key => upTo t (entriesOf puts key)) ∧
      (RollbackKeeps puts t σ σ' ↔
        (∀ key h, h ≤ t → getAtHeight (rocksDB σ') key h = getAtHeight (rocksDB σ) key h) ∧
        ∀ key, getCurrent (rocksDB σ') key = getAtHeight (rocksDB σ) key t) := by
  have ho : ∀ key, Ordered (entriesOf puts key) := ordered_entriesOf hord
  have hb : ∀ key, ∀ e ∈ entriesOf puts key, e.1<2^32 := fun key e he => entriesOf_lt he
  have hσ := HasRecords.ofPuts hp
  have hroll := hσ.rollback (t := t) ho
  have hshort : ∀ key, ([] ++ entriesOf (puts.filter fun p => p.height ≤ t) key).length<2^32 := by
    intro key
    rw [List.nil_append, ← upTo_entriesOf]
    exact (upTo_length_le ..).trans_lt (hσ.short key)
  obtain ⟨kept,hkeep⟩ := HasRecords.empty.putAll_total _ hshort
  have hkept := HasRecords.ofPuts hkeep
  have heq : entriesOf (puts.filter fun p => p.height ≤ t) =
      fun key => upTo t (entriesOf puts key) := funext fun key => (upTo_entriesOf t puts key).symm
  rw [heq] at hkept
  refine ⟨_,rollbackToHeight_eq hσ ho hb,hroll,⟨kept,hkept⟩,?_⟩
  constructor
  · intro h
    exact ⟨h.past,h.current⟩
  · intro h
    refine ⟨h.1,h.2,?_,?_,?_⟩
    · intro key i height he
      rw [hroll.update] at he
      cases hi : (upTo t (entriesOf puts key))[i]? with
      | none =>
        rw [hi] at he
        cases he
      | some e =>
        have hmem := mem_upTo.mp (List.mem_of_getElem? hi)
        rw [hi] at he
        have hparse : some e.1 = some height :=
          (parseHeight_formatUpdate (hb key e hmem.1) e.2).symm.trans he
        rw [← Option.some.inj hparse]
        exact hmem.2
    · refine ⟨kept,hkeep,?_⟩
      intro later _
      exact hroll.sameOutcome hkept.toReadsAs later
    · intro current hcurrent
      have hle : ∀ key, ∀ e ∈ entriesOf puts key, e.1 ≤ current := by
        intro key e he
        obtain ⟨p,hmem,hp⟩ := List.mem_map.mp he
        rw [← hp]
        exact hcurrent p (List.mem_of_mem_filter hmem)
      obtain ⟨hok,hslow⟩ := hσ.rollbackSmtData (t := t) ho hb hle
      refine ⟨hok,?_⟩
      intro later _
      exact hroll.sameOutcome hslow.toReadsAs later

end Law

/-- The rollback of the helper keeps the past, agrees with the slow rollback and leaves nothing
behind exactly when the binary searches of the past heights stay within `u32`. -/
theorem helper_rollback_keeps_past_iff (puts : List Put)
    (hord : puts.Pairwise fun p p' => p.height ≤ p'.height) (t : Nat) (σ : Store)
    (hp : putAll ∅ puts = .ok σ) :
    (∃ σ', SMTHelper.rollbackToHeight σ t = .ok σ' ∧ RollbackKeeps puts t σ σ') ↔ SearchesFit puts t := by
  have ho : ∀ key, Ordered (entriesOf puts key) := ordered_entriesOf hord
  have hb : ∀ key, ∀ e ∈ entriesOf puts key, e.1<2^32 := fun key e he => entriesOf_lt he
  have hread := (HasRecords.ofPuts hp).reads ho hb
  obtain ⟨σ',hroll,hreads,⟨kept,hkept⟩,hiff⟩ := HasRecords.rollbackKeeps_iff (t := t) hord hp
  -- the reads after the rollback are those of the kept entries
  have hafter : ∀ key h, h ≤ t → getAtHeight (rocksDB σ') key h =
      if Search.fits (2^32) (upTo h (entriesOf puts key)).length
        (upTo t (entriesOf puts key)).length 0 (upTo t (entriesOf puts key)).length
      then .ok (asOf h (entriesOf puts key)) else .error (.panic "attempt to add with overflow") := by
    intro key h hh
    rw [(hreads.alikeReads hkept.toReadsAs).atHeight, hkept.reads (fun key => (ho key).upTo t)
      (fun key e he => hb key e (mem_upTo.mp he).1), upTo_upTo_of_le hh, asOf_upTo_of_le hh]
  have hcurrent : ∀ key, getCurrent (rocksDB σ') key = .ok (asOf t (entriesOf puts key)) :=
    fun key => hreads.current key
  have hexists : (∃ σ', SMTHelper.rollbackToHeight σ t = .ok σ' ∧ RollbackKeeps puts t σ σ') ↔
      RollbackKeeps puts t σ σ' := by
    constructor
    · intro h
      obtain ⟨σ'',hroll',hkeeps⟩ := h
      rw [hroll] at hroll'
      cases hroll'
      exact hkeeps
    · intro h
      exact ⟨σ',hroll,h⟩
  rw [hexists, hiff]
  constructor
  · intro h key
    obtain ⟨hpast,hnow⟩ := h
    have hfit := hnow key
    rw [hcurrent, hread] at hfit
    have hat := hpast key t le_rfl
    rw [hafter key t le_rfl, hread, ← hfit] at hat
    have hshort : (upTo t (entriesOf puts key)).length ≤ 2^31 := by
      by_contra hlong
      rw [Search.not_fits (by omega) _ 0 (by omega) (by omega)] at hat
      cases hat
    refine ⟨hshort,fun h hh => ?_⟩
    have heq := hpast key h hh
    rw [hafter key h hh, hread, if_pos (Search.fits_of_le _ (by omega) _ _ _ le_rfl)] at heq
    by_contra hno
    rw [if_neg hno] at heq
    cases heq
  · intro h
    constructor
    · intro key h' hh
      obtain ⟨hshort,hfits⟩ := h key
      rw [hafter key h' hh, hread, if_pos (Search.fits_of_le _ (by omega) _ _ _ le_rfl),
        if_pos (hfits h' hh)]
    · intro key
      rw [hcurrent, hread, if_pos ((h key).2 t le_rfl)]

/-- A key with an entry on each side of the target height. -/
theorem helper_rollback_keeps_past_two_heights :
    ∃ σ, putAll ∅ [⟨[7],[1],3⟩,⟨[7],[2],5⟩] = .ok σ ∧
      ∃ σ', SMTHelper.rollbackToHeight σ 4 = .ok σ' ∧
        RollbackKeeps [⟨[7],[1],3⟩,⟨[7],[2],5⟩] 4 σ σ' := by
  have hlen : ∀ key, (entriesOf [⟨[7],[1],3⟩,⟨[7],[2],5⟩] key).length ≤ 2 := by
    intro key
    rw [entriesOf, List.length_map]
    exact List.length_filter_le _ _
  obtain ⟨σ,hσ⟩ := HasRecords.empty.putAll_total [⟨[7],[1],3⟩,⟨[7],[2],5⟩] (by
    intro key
    have h2 := hlen key
    rw [List.nil_append]
    omega)
  refine ⟨σ,hσ,(helper_rollback_keeps_past_iff _ (by decide) 4 σ hσ).mpr ?_⟩
  intro key
  have h2 := hlen key
  have hle : (upTo 4 (entriesOf [⟨[7],[1],3⟩,⟨[7],[2],5⟩] key)).length ≤
    (entriesOf [⟨[7],[1],3⟩,⟨[7],[2],5⟩] key).length := upTo_length_le ..
  refine ⟨by omega,?_⟩
  intro h _
  exact Search.fits_of_le _ (by omega) _ _ _ le_rfl

/-- With more than 2^31 entries of one key the lookup at the target height overflows, and the current
value after the rollback does not. -/
theorem helper_rollback_keeps_past_long_history :
    ¬∀ puts : List Put, (puts.Pairwise fun p p' => p.height ≤ p'.height) → ∀ t σ,
      putAll ∅ puts = .ok σ →
        ∃ σ', SMTHelper.rollbackToHeight σ t = .ok σ' ∧ RollbackKeeps puts t σ σ' := by
  intro h
  obtain ⟨n,hn⟩ : ∃ n, n = 2^31+1 := ⟨_,rfl⟩
  have hord : (List.replicate n (⟨[7],[],0⟩ : Put)).Pairwise fun p p' => p.height ≤ p'.height := by
    rw [List.pairwise_replicate]
    exact .inr le_rfl
  have hentries : ∀ key, (entriesOf (List.replicate n ⟨[7],[],0⟩) key).length ≤ n := by
    intro key
    rw [entriesOf, List.length_map]
    exact (List.length_filter_le _ _).trans_eq List.length_replicate
  have hkey : entriesOf (List.replicate n ⟨[7],[],0⟩) [7] = List.replicate n (0,[]) := by
    rw [entriesOf, List.filter_eq_self.mpr, List.map_replicate]
    · rfl
    · intro p hp
      rw [List.eq_of_mem_replicate hp]
      rfl
  obtain ⟨σ,hσ⟩ := HasRecords.empty.putAll_total (List.replicate n ⟨[7],[],0⟩) (by
    intro key
    have hk := hentries key
    rw [List.nil_append]
    omega)
  obtain ⟨σ',hroll',hkeeps⟩ := h _ hord 0 σ hσ
  obtain ⟨σ'',hroll,hreads,_⟩ := HasRecords.rollbackKeeps_iff (t := 0) hord hσ
  rw [hroll] at hroll'
  cases hroll'
  have hall : upTo 0 (List.replicate n ((0,[]) : Nat × Bytes)) = List.replicate n (0,[]) := by
    apply upTo_of_le
    intro e he
    rw [List.eq_of_mem_replicate he]
  have hnow := hkeeps.current [7]
  rw [hreads.current, (HasRecords.ofPuts hσ).reads (ordered_entriesOf hord)
    (fun key e he => entriesOf_lt he), hkey, hall, List.length_replicate,
    Search.not_fits (by omega) _ 0 (by omega) (by omega)] at hnow
  cases hnow

end Metashrew
