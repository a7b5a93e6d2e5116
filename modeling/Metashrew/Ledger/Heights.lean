import Metashrew.Ledger.Rollback
import Metashrew.Ledger.Reads

namespace Metashrew

open Bytes Versioned

variable {σ : Store} {L : Ledger} {H : Bytes → History Nat Bytes} {l : History Nat Bytes} {n : Nat}
  {key : Bytes}

/-- The length of a key; a missing record and one that is no number count as 0. -/
def lengthOf (σ : Store) (key : Bytes) : Nat := ((KV.get σ (lengthKey key)).map parseLength).getD 0

theorem lengthOf_record {l : History Nat Bytes} (hr : KV.get σ (lengthKey key) = Ledger.lengthRecord l)
    (hs : l.length<2^32) : lengthOf σ key = l.length := by
  rw [lengthOf, hr]
  cases l with
  | nil => rfl
  | cons e l =>
    show parseLength _ = _
    rw [parseLength, parseU32_decimal hs]
    rfl

theorem getHeightsForKey_lengthOf (σ : Store) (key : Bytes) :
    getHeightsForKey (rocksDB σ) key =
      (collectHeights (rocksDB σ) key (List.range (lengthOf σ key))).map
        fun heights => heights.insertionSort (· ≤ ·) := by
  rw [lengthOf, getHeightsForKey]
  show (Except.ok (KV.get σ (lengthKey key))).bind _ = _
  cases KV.get σ (lengthKey key) with
  | none => rfl
  | some lengthBytes =>
    rw [Option.map_some, Option.getD_some]
    show (collectHeights (rocksDB σ) key (List.range (parseLength lengthBytes))).bind _ = _
    cases collectHeights (rocksDB σ) key (List.range (parseLength lengthBytes)) <;> rfl

private theorem collectHeights_cons (σ : Store) (key : Bytes) (i : Nat) (is : List Nat) :
    collectHeights (rocksDB σ) key (i::is) =
      (collectHeights (rocksDB σ) key is).bind fun rest => .ok
        (match (KV.get σ (updateKey key i)).bind parseHeightFromSmtValue with
          | some height => height::rest
          | none => rest) := by
  have h : collectHeights (rocksDB σ) key (i::is) =
      (collectHeights (rocksDB σ) key is).bind fun rest =>
        match (KV.get σ (updateKey key i)).bind parseHeightFromSmtValue with
        | some height => .ok (height::rest)
        | none => .ok rest := rfl
  rw [h]
  congr 1
  funext rest
  cases (KV.get σ (updateKey key i)).bind parseHeightFromSmtValue <;> rfl

/-- The heights of the listed updates, one for each. -/
theorem collectHeights_spec (hσ : HasHistory σ key l) (hb : ∀ e ∈ l, e.1<2^32) (start : Nat) :
    collectHeights (rocksDB σ) key (List.range' start (l.length-start)) =
      .ok ((l.drop start).map Prod.fst) := by
  by_cases hlt : start<l.length
  · have hlen : l.length-start = (l.length-(start+1))+1 := by omega
    have hheight : (KV.get σ (updateKey key start)).bind parseHeightFromSmtValue =
        some l[start].1 := by
      rw [hσ.update start hlt]
      exact parseHeight_formatUpdate (hb _ (List.getElem_mem hlt)) _
    have ih := collectHeights_spec hσ hb (start+1)
    rw [hlen, List.range'_succ, collectHeights_cons, ih, hheight, List.drop_eq_getElem_cons hlt]
    rfl
  · have hzero : l.length-start = 0 := by omega
    rw [hzero, List.drop_eq_nil_of_le (by omega)]
    rfl
termination_by l.length-start

theorem HasHistory.getHeightsForKey_eq (hσ : HasHistory σ key l) (hb : ∀ e ∈ l, e.1<2^32)
    (hs : l.length<2^32) :
    getHeightsForKey (rocksDB σ) key = .ok ((l.map Prod.fst).insertionSort (· ≤ ·)) := by
  have hget : storageError ((rocksDB σ).getImmutable (lengthKey key)) =
      .ok (Ledger.lengthRecord l) := by
    rw [← hσ.length]
    rfl
  rw [Metashrew.getHeightsForKey, hget]
  by_cases hnil : l=[]
  · rw [hnil]
    rfl
  · have hparse : parseLength (decimal l.length) = l.length := by
      rw [parseLength, parseU32_decimal hs]
      rfl
    have hall := collectHeights_spec hσ hb 0
    rw [Nat.sub_zero, List.drop_zero, ← List.range_eq_range'] at hall
    rw [Ledger.lengthRecord_of_ne_nil hnil]
    change ((collectHeights (rocksDB σ) key (List.range (parseLength (decimal l.length)))).bind
      fun heights => .ok (heights.insertionSort (· ≤ ·))) = _
    rw [hparse, hall]
    rfl

/-- The heights of a key are those of its history. -/
theorem HasHistory.getHeightsForKey (hσ : HasHistory σ key l) (hb : ∀ e ∈ l, e.1<2^32)
    (hs : l.length<2^32) : ∃ heights, getHeightsForKey (rocksDB σ) key = .ok heights ∧
      ∀ h, h ∈ heights ↔ ∃ e ∈ l, e.1 = h := by
  refine ⟨_,hσ.getHeightsForKey_eq hb hs,?_⟩
  intro h
  rw [List.mem_insertionSort, List.mem_map]

theorem getHeightsForKey_spec (hσ : Represents σ L) (hL : L.Sound n) (hn : n≤2^32) (key : Bytes) :
    ∃ heights, getHeightsForKey (rocksDB σ) key = .ok heights ∧
      ∀ h, h ∈ heights ↔ ∃ e ∈ L.history key, e.1 = h :=
  (hσ.hasHistory hL key).getHeightsForKey (fun e he => lt_of_lt_of_le (hL.below key e he) hn)
    (hL.short key)

private theorem filterKeysAtHeight_spec {h : Nat} {R : Bytes → Prop}
    (hR : ∀ key, ∃ heights, getHeightsForKey (rocksDB σ) key = .ok heights ∧ (h ∈ heights ↔ R key))
    (entries : List (Bytes × Bytes)) :
    ∃ keys, filterKeysAtHeight (rocksDB σ) h entries = .ok keys ∧
      ∀ key, key ∈ keys ↔ R key ∧ ∃ e ∈ entries, stripLengthSuffix e.1 = some key := by
  induction entries with
  | nil => exact ⟨[],rfl,by simp⟩
  | cons e entries ih =>
    obtain ⟨keys,hkeys,hmem⟩ := ih
    rw [filterKeysAtHeight]
    cases hs : stripLengthSuffix e.1 with
    | none =>
      refine ⟨keys,hkeys,fun key => ?_⟩
      rw [hmem]
      simp [hs]
    | some originalKey =>
      obtain ⟨heights,hheights,hiff⟩ := hR originalKey
      dsimp only
      rw [hheights, hkeys]
      refine ⟨_,rfl,fun key => ?_⟩
      simp only [List.mem_cons, exists_eq_or_imp, hs, Option.some.injEq]
      split_ifs with hh
      · rw [List.mem_cons, hmem]
        have := hiff.mp hh
        constructor
        · rintro (rfl | ⟨h1,h2⟩)
          · exact ⟨this,.inl rfl⟩
          · exact ⟨h1,.inr h2⟩
        · rintro ⟨h1,rfl | h2⟩
          · exact .inl rfl
          · exact .inr ⟨h1,h2⟩
      · rw [hmem]
        constructor
        · rintro ⟨h1,h2⟩
          exact ⟨h1,.inr h2⟩
        · rintro ⟨h1,rfl | h2⟩
          · exact absurd (hiff.mpr h1) hh
          · exact ⟨h1,h2⟩

/-- The keys at a height are those with an update at that height, when no other key has a length. -/
theorem getKeysAtHeight_of_histories {K : Set Bytes} (hσ : ∀ key ∈ K, HasHistory σ key (H key))
    (hother : ∀ key ∉ K, lengthOf σ key = 0) (hb : ∀ key ∈ K, ∀ e ∈ H key, e.1<2^32)
    (hs : ∀ key ∈ K, (H key).length<2^32) (h : Nat) :
    ∃ keys, getKeysAtHeight (rocksDB σ) h = .ok keys ∧
      ∀ key, key ∈ keys ↔ key ∈ K ∧ ∃ e ∈ H key, e.1 = h := by
  have hR : ∀ key, ∃ heights, getHeightsForKey (rocksDB σ) key = .ok heights ∧
      (h ∈ heights ↔ key ∈ K ∧ ∃ e ∈ H key, e.1 = h) := by
    intro key
    by_cases hk : key ∈ K
    · obtain ⟨heights,hheights,hiff⟩ := (hσ key hk).getHeightsForKey (hb key hk) (hs key hk)
      exact ⟨heights,hheights,by rw [hiff]; simp [hk]⟩
    · refine ⟨[],?_,by simp [hk]⟩
      rw [getHeightsForKey_lengthOf, hother key hk]
      rfl
  obtain ⟨keys,hkeys,hmem⟩ := filterKeysAtHeight_spec hR σ.toList
  have hscan : storageError ((rocksDB σ).scanPrefix []) = .ok σ.toList := by
    simp [rocksDB, storageError]
  refine ⟨keys,?_,fun key => ?_⟩
  · rw [Metashrew.getKeysAtHeight, hscan]
    exact hkeys
  · rw [hmem]
    refine and_iff_left_of_imp ?_
    rintro ⟨hk,e,he,_⟩
    have hne : KV.get σ (lengthKey key) ≠ none := by
      rw [(hσ key hk).length, Ledger.lengthRecord_of_ne_nil (List.ne_nil_of_mem he)]
      exact Option.some_ne_none _
    obtain ⟨v,hv⟩ := Option.ne_none_iff_exists'.mp hne
    refine ⟨(lengthKey key,v),?_,stripLengthSuffix_eq_some.mpr rfl⟩
    exact Std.ExtTreeMap.mem_toList_iff_getElem?_eq_some.mpr hv

theorem getKeysAtHeight_spec (hσ : Represents σ L) (hL : L.Sound n) (hn : n≤2^32) (h : Nat) :
    ∃ keys, getKeysAtHeight (rocksDB σ) h = .ok keys ∧
      ∀ key, key ∈ keys ↔ ∃ e ∈ L.history key, e.1 = h := by
  obtain ⟨keys,hkeys,hmem⟩ := getKeysAtHeight_of_histories (K := Set.univ)
    (fun key _ => hσ.hasHistory hL key) (fun key hk => absurd (Set.mem_univ key) hk)
    (fun key _ e he => lt_of_lt_of_le (hL.below key e he) hn) (fun key _ => hL.short key) h
  exact ⟨keys,hkeys,fun key => by rw [hmem]; simp⟩

end Metashrew
