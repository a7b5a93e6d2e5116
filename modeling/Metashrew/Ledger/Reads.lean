import Metashrew.Ledger.Sound

namespace Metashrew

open Bytes Versioned

section Lookup

variable {σ : Store} {L : Ledger} {H : Bytes → History Nat Bytes} {l : History Nat Bytes} {n : Nat}
  {key : Bytes}

theorem Represents.hasHistory (hσ : Represents σ L) (hL : L.Sound n) (key : Bytes) :
    HasHistory σ key (L.history key) :=
  hσ.holdsHistories.hasHistory (or_iff_not_imp_left.mpr fun h => hL.reserved key (not_not.mp h))

private theorem storageError_get (σ : Store) (name : Bytes) :
    storageError ((rocksDB σ).getImmutable name) = .ok (KV.get σ name) := rfl

/-- One probe of the binary search. -/
theorem readUpdate_spec (hσ : HasHistory σ key l) (h : Nat) {i : Nat} (hi : i < l.length)
    (hlt : l[i].1<2^32) :
    readUpdate (rocksDB σ) key h i = .ok (if l[i].1≤h then some l[i].2 else none) := by
  rw [readUpdate, storageError_get, hσ.update i hi]
  exact decodeUpdate_formatUpdate hlt l[i].2 h

private theorem midpoint_eq {l r : Nat} (h : l+r<2^32) : midpoint l r = .ok ((l+r)/2) := by
  rw [midpoint, addU32, if_pos h]
  rfl

private theorem parseLength_decimal {n : Nat} (h : n<2^32) : parseLength (decimal n) = n := by
  rw [parseLength, parseU32_decimal h]
  rfl

private theorem before_upTo {l : History Nat Bytes} (ho : Ordered l) (h : Nat) :
    Search.before (fun i => (l[i]?.map Prod.snd).getD []) (upTo h l).length = asOf h l := by
  rw [asOf]
  cases hb : (upTo h l).length with
  | zero =>
    rw [List.length_eq_zero_iff.mp hb]
    rfl
  | succ i =>
    have hi : i<(upTo h l).length := by omega
    have hlast : (upTo h l).getLast? = l[i]? := by
      rw [List.getLast?_eq_getElem?, hb, Nat.add_sub_cancel, ho.getElem_upTo hi]
    have hsome := ho.getElem_upTo hi
    rw [List.getElem?_eq_getElem hi] at hsome
    rw [Search.before, hlast, ← hsome]
    rfl

/-- The binary search finds the value of the key at the height unless two bounds overflow. -/
theorem HasHistory.searchUpdates_eq (hσ : HasHistory σ key l) (ho : Ordered l)
    (hb : ∀ e ∈ l, e.1<2^32) (hlen : l.length<2^32) (h : Nat) :
    searchUpdates (rocksDB σ) key h =
      if Search.fits (2^32) (upTo h l).length l.length 0 l.length then .ok (asOf h l)
      else .error (.panic "attempt to add with overflow") := by
  rw [Metashrew.searchUpdates, storageError_get, hσ.length]
  by_cases hnil : l=[]
  · rw [hnil]
    rfl
  · have hpos : l.length≠0 := fun h0 => hnil (List.length_eq_zero_iff.mp h0)
    rw [Ledger.lengthRecord_of_ne_nil hnil]
    change (if parseLength (decimal l.length) = 0 then _ else _) = _
    rw [parseLength_decimal hlen, if_neg hpos, ← before_upTo ho h]
    refine Search.bisect_fits (n := l.length) ?_ ?_ ?_ _ _ _ le_rfl (Nat.zero_le _)
      (upTo_length_le ..) le_rfl
    · intro l r
      rw [midpoint, addU32]
      split_ifs <;> rfl
    · intro i hi
      have hlt : i<l.length := lt_of_lt_of_le hi (upTo_length_le ..)
      have he := List.getElem?_eq_getElem hlt
      rw [readUpdate_spec hσ h hlt (hb _ (List.getElem_mem hlt)),
        if_pos (ho.le_of_lt_length hi he), he]
      rfl
    · intro i hi hlt
      have he := List.getElem?_eq_getElem hlt
      have hgt := ho.gt_of_length_le hi he
      rw [readUpdate_spec hσ h hlt (hb _ (List.getElem_mem hlt)), if_neg (by omega)]

theorem HasHistory.searchUpdates (hσ : HasHistory σ key l) (ho : Ordered l)
    (hb : ∀ e ∈ l, e.1<2^32) (hlen : l.length≤2^31) (h : Nat) :
    searchUpdates (rocksDB σ) key h = .ok (asOf h l) := by
  rw [hσ.searchUpdates_eq ho hb (by omega) h, if_pos]
  exact Search.fits_of_le _ (by omega) _ _ _ le_rfl

/-- A lookup at the height of entries that stand behind later ones: it finds the last of them when
the search passes over the gap, and else what stands before it. -/
theorem HasHistory.searchUpdates_behind {l : History Nat Bytes} {vs : List Bytes} {h : Nat}
    (hσ : HasHistory σ key (l ++ vs.map fun v => (h,v))) (ho : Ordered l)
    (hb : ∀ e ∈ l, e.1<2^32) (hh : h<2^32) (hlen : l.length+vs.length≤2^31) (hvs : vs≠[]) :
    Metashrew.searchUpdates (rocksDB σ) key h =
      .ok (if Search.skipsGap (upTo h l).length l.length (l.length+vs.length) (l.length+vs.length) 0
        then vs.getLast? else asOf h l) := by
  have hn : (l ++ vs.map fun v => (h,v)).length = l.length+vs.length := by
    rw [List.length_append, List.length_map]
  have hpos : 0<vs.length := List.length_pos_iff.mpr hvs
  have hnil : l ++ vs.map (fun v => (h,v)) ≠ [] := by
    intro h0
    rw [← List.length_eq_zero_iff, hn] at h0
    omega
  have hle : (upTo h l).length≤l.length := upTo_length_le ..
  let val : Nat → Bytes := fun i => ((l ++ vs.map fun v => (h,v))[i]?.map Prod.snd).getD []
  have hprobe : ∀ i (hi : i<(l ++ vs.map fun v => (h,v)).length), readUpdate (rocksDB σ) key h i =
      .ok (if (l ++ vs.map fun v => (h,v))[i].1≤h then some (val i) else none) := by
    intro i hi
    have hval : val i = (l ++ vs.map fun v => (h,v))[i].2 := by
      show ((l ++ vs.map fun v => (h,v))[i]?.map Prod.snd).getD [] = _
      rw [List.getElem?_eq_getElem hi]
      rfl
    rw [hval]
    apply readUpdate_spec hσ h hi
    rcases List.mem_append.mp (List.getElem_mem hi) with he | he
    · exact hb _ he
    · obtain ⟨v,_,he⟩ := List.mem_map.mp he
      rw [← he]
      exact hh
  rw [Metashrew.searchUpdates, storageError_get, hσ.length, Ledger.lengthRecord_of_ne_nil hnil, hn]
  change (if parseLength (decimal (l.length+vs.length)) = 0 then _ else _) = _
  rw [parseLength_decimal (by omega), if_neg (by omega)]
  have hsearch : Search.bisect midpoint (readUpdate (rocksDB σ) key h) (l.length+vs.length) 0
      (l.length+vs.length) (Search.before val 0) = .ok (Search.before val
        (if Search.skipsGap (upTo h l).length l.length (l.length+vs.length) (l.length+vs.length) 0
          then l.length+vs.length else (upTo h l).length)) := by
    apply Search.bisect_gap hle (by omega) ?_ ?_ ?_ ?_ _ 0 (by omega) (Nat.zero_le _)
    · intro l r hlr hr
      exact midpoint_eq (by omega)
    · intro i hi
      have hl : i<l.length := by omega
      have he := List.getElem?_eq_getElem hl
      rw [hprobe i (by omega), List.getElem_append_left hl, if_pos (ho.le_of_lt_length hi he)]
    · intro i hi hl
      have he := List.getElem?_eq_getElem hl
      have hgt := ho.gt_of_length_le hi he
      rw [hprobe i (by omega), List.getElem_append_left hl, if_neg (by omega)]
    · intro i hi hlt
      rw [hprobe i (by omega), List.getElem_append_right hi, List.getElem_map, if_pos le_rfl]
  refine hsearch.trans (congrArg Except.ok ?_)
  split_ifs
  · obtain ⟨m,hm⟩ : ∃ m, vs.length = m+1 := ⟨vs.length-1,by omega⟩
    rw [hm, ← Nat.add_assoc, Search.before, List.getLast?_eq_getElem?, hm]
    show some (((l ++ vs.map fun v => (h,v))[l.length+m]?.map Prod.snd).getD []) = _
    rw [List.getElem?_append_right (by omega)]
    simp [List.getElem?_eq_getElem (by omega : m<vs.length)]
  · rw [← before_upTo ho h]
    cases hb : (upTo h l).length with
    | zero => rfl
    | succ m =>
      show some (((l ++ vs.map fun v => (h,v))[m]?.map Prod.snd).getD []) = _
      rw [Search.before, List.getElem?_append_left (by omega)]

theorem searchUpdates_spec (hσ : Represents σ L) (hL : L.Sound n) (hn : n≤2^32)
    (hlen : (L.history key).length≤2^31) (h : Nat) :
    searchUpdates (rocksDB σ) key h = .ok (asOf h (L.history key)) :=
  (hσ.hasHistory hL key).searchUpdates (hL.ordered key)
    (fun e he => lt_of_lt_of_le (hL.below key e he) hn) hlen h

/-- The current value is the last update. -/
theorem HasHistory.getCurrent (hσ : HasHistory σ key l) (hlen : l.length<2^32) :
    getCurrent (rocksDB σ) key = .ok (l.getLast?.map Prod.snd) := by
  rw [Metashrew.getCurrent, storageError_get, hσ.length]
  by_cases hnil : l=[]
  · rw [hnil]
    rfl
  · have hpos : l.length≠0 := fun h0 => hnil (List.length_eq_zero_iff.mp h0)
    have hlt : l.length-1<l.length := by omega
    rw [Ledger.lengthRecord_of_ne_nil hnil, List.getLast?_eq_getElem?, List.getElem?_eq_getElem hlt]
    change (if parseLength (decimal l.length) = 0 then _ else _) = _
    rw [parseLength_decimal hlen, if_neg hpos, storageError_get, hσ.update _ hlt]
    dsimp only [bind, Except.bind]
    rw [splitAtByte_formatUpdate]
    simp only [hexDecode_hexEncode, Option.map_some]
    rfl

theorem getCurrent_spec (hσ : Represents σ L) (hL : L.Sound n) :
    getCurrent (rocksDB σ) key = .ok ((L.history key).getLast?.map Prod.snd) :=
  (hσ.hasHistory hL key).getCurrent (hL.short key)

end Lookup

/-- The last value written to a key by the blocks at heights up to `h`, with the first block at
height 0. -/
def lastWrite (blocks : List Block) (h : Nat) (key : Bytes) : Option Bytes :=
  ((blocks.take (h+1)).flatMap fun b => updatesOf key b.flush.list).getLast?

/-- How often the blocks update a key. -/
def updateCount (key : Bytes) (blocks : List Block) : Nat :=
  (blocks.flatMap fun b => updatesOf key b.flush.list).length

theorem writesOf_map_snd (key : Bytes) (start : Nat) (blocks : List Block) :
    (writesOf key start blocks).map Prod.snd =
      blocks.flatMap fun b => updatesOf key b.flush.list := by
  induction blocks generalizing start with
  | nil => rfl
  | cons b bs ih =>
    have hb : ((updatesOf key b.flush.list).map fun v => (start,v)).map Prod.snd =
        updatesOf key b.flush.list := by simp [Function.comp_def]
    rw [writesOf, List.map_append, ih, hb, List.flatMap_cons]

theorem asOf_writesOf (key : Bytes) (h : Nat) (blocks : List Block) :
    asOf h (writesOf key 0 blocks) = lastWrite blocks h key := by
  rw [asOf, writesOf_upTo, lastWrite, ← writesOf_map_snd key 0, List.getLast?_map]
  rfl

theorem writesOf_length (key : Bytes) (start : Nat) (blocks : List Block) :
    (writesOf key start blocks).length = updateCount key blocks := by
  rw [updateCount, ← writesOf_map_snd key start, List.length_map]

theorem updateCount_le (key : Bytes) (blocks : List Block) :
    updateCount key blocks≤(blocks.map fun b => b.flush.list.length).sum := by
  induction blocks with
  | nil => rfl
  | cons b bs ih =>
    have hb := updatesOf_length_le key b.flush.list
    have hc : updateCount key (b::bs) =
        (updatesOf key b.flush.list).length+updateCount key bs := by
      simp [updateCount, List.flatMap_cons]
    rw [hc, List.map_cons, List.sum_cons]
    omega

/-- What the two lookups and the current value give after a run over `blocks`. -/
def ReadsLastWrites (σ : Store) (blocks : List Block) : Prop :=
  ∀ key, (∀ h, h<blocks.length → getAtHeight (rocksDB σ) key h = .ok (lastWrite blocks h key) ∧
      getAtHeightFast (rocksDB σ) key h = .ok (lastWrite blocks h key)) ∧
    ∀ n, blocks.length = n+1 → getCurrent (rocksDB σ) key = getAtHeight (rocksDB σ) key n

/-- A run of plain blocks from height 0 reads back, at every height, the last write up to it. -/
theorem reads_last_writes (blocks : List Block) (hlen : blocks.length≤2^32)
    (hp : PlainKeys blocks) (hcount : ∀ key, updateCount key blocks<2^31) :
    ∃ σ, commitBlocks 0 ∅ blocks = .ok σ ∧ ReadsLastWrites σ blocks := by
  have hshort : ∀ key, ((Ledger.ofBlocks 0 blocks).history key).length<2^31 := by
    intro key
    rw [Ledger.ofBlocks_history, writesOf_length]
    exact hcount key
  obtain ⟨σ,hσ⟩ := commitBlocks_total Represents.empty (.empty 0) hp (.inl ⟨rfl,rfl⟩) (fun i hi => by cases hi)
    (by omega) fun key => lt_trans (hshort key) (by norm_num)
  obtain ⟨hrep,hsound⟩ := commitBlocks_ofBlocks hp hσ
  rw [Nat.zero_add] at hsound
  have hread : ∀ key h, searchUpdates (rocksDB σ) key h = .ok (lastWrite blocks h key) := by
    intro key h
    rw [searchUpdates_spec hrep hsound hlen (le_of_lt (hshort key)), Ledger.ofBlocks_history,
      asOf_writesOf]
  refine ⟨σ,hσ,fun key => ⟨fun h _ => ⟨hread key h,hread key h⟩,fun n hn => ?_⟩⟩
  rw [getCurrent_spec hrep hsound, getAtHeight, hread, Ledger.ofBlocks_history, ← asOf_writesOf, asOf,
    upTo_of_le]
  intro e he
  have hlt := writesOf_lt he
  omega

theorem reads_last_writes_two_blocks :
    let blocks : List Block :=
      [⟨⟨[(ascii "a",[1]),(ascii "a",[2])],by decide⟩,[7],[8]⟩,⟨⟨[(ascii "b",[3])],by decide⟩,[9],[10]⟩]
    ∃ σ, commitBlocks 0 ∅ blocks = .ok σ ∧ ReadsLastWrites σ blocks :=
  reads_last_writes _ (by decide) (by unfold PlainKeys; decide)
    fun key => lt_of_le_of_lt (updateCount_le key _) (by decide)

end Metashrew
