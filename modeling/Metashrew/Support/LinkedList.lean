import Metashrew.Support.Stack

namespace Metashrew

open Bytes

def headKey (base : Bytes) : Bytes := base ++ ascii "/head"

def nextKey (base : Bytes) (i : Nat) : Bytes := base ++ (ascii "/next" ++ toBytes .u32 i)

inductive LinkedAction where
  | appendLl (v : Bytes)
  | deleteValue (i : Nat)

namespace PointerMemory

variable (base : Bytes) (m : PointerMemory)

def next (i : Nat) : Option Nat := m.getValue .u32 (nextKey base i)

def head : Option Nat := m.getValue .u32 (headKey base)

def appendLl (v : Bytes) : Option PointerMemory := do
  let length ← m.length base
  let m := if 0 < length then m.setValue .u32 (nextKey base (length-1)) length else m
  let newLength ← succU32 length
  return (m.setValue .u32 (lengthKey base) newLength).set (selectIndex base length) v

def deleteValue (i : Nat) : Option PointerMemory := do
  let head ← m.head base
  if i = head then
    let next ← m.next base i
    return (m.setValue .u32 (headKey base) next).dropIndex base i
  else if i = 0 then none  -- the index before it underflows
  else
    let next ← m.next base i
    return (m.setValue .u32 (nextKey base (i-1)) next).dropIndex base i

/-- The loop of `map_ll` from an index on: the visited indices with what they hold. None when the
rounds do not suffice. -/
def mapLlFrom (length : Nat) : Nat → Nat → Option (List (Nat × Bytes))
  | 0, i => if i < length then none else some []
  | rounds+1, i =>
    if i < length then
      match m.next base i with
      | none => none
      | some next =>
        if next = 0 then some [(i,m (selectIndex base i))]
        else (mapLlFrom length rounds next).map fun visited => (i,m (selectIndex base i))::visited
    else some []

def mapLl (rounds : Nat) : Option (List (Nat × Bytes)) := do
  let length ← m.length base
  let i ← m.head base
  m.mapLlFrom base length rounds i

/-- One operation; none is a panic. -/
def linkedStep : LinkedAction → Option (PointerMemory × Unit)
  | .appendLl v => (m.appendLl base v).map fun m => (m,())
  | .deleteValue i => (m.deleteValue base i).map fun m => (m,())

end PointerMemory

/-- The elements that are not deleted, under their indices, and the number of elements appended. -/
structure LinkedElements where
  entries : List (Nat × Bytes)
  appended : Nat

namespace LinkedElements

def act (s : LinkedElements) : LinkedAction → LinkedElements × Unit
  | .appendLl v => (⟨s.entries ++ [(s.appended,v)],s.appended+1⟩,())
  | .deleteValue i => ({ s with entries := s.entries.filter fun e => e.1 ≠ i },())

def indices (s : LinkedElements) : List Nat := s.entries.map Prod.fst

/-- A live index is deleted. -/
def Allowed (s : LinkedElements) : LinkedAction → Prop
  | .appendLl _ => True
  | .deleteValue i => i ∈ s.indices

/-- An append that overflows the length, or after a deletion of the last index; a deletion of the
only element, or of one behind a deleted index other than the first element. -/
def Slips (s : LinkedElements) : LinkedAction → Prop
  | .appendLl _ => 2^32 ≤ s.appended+1 ∨ s.appended ≠ 0 ∧ s.appended-1 ∉ s.indices
  | .deleteValue i => s.indices = [i] ∨ s.indices.head? ≠ some i ∧ i-1 ∉ s.indices

end LinkedElements

/-- The traversal ends and visits the elements in order. -/
def PointerMemory.Visits (base : Bytes) (m : PointerMemory) (s : LinkedElements) : Prop :=
  ∃ rounds, m.mapLl base rounds = some s.entries

/-- Each index leads to the one after it, and the last one to 0. -/
def Links (next : Nat → Option Nat) : List Nat → Prop
  | [] => True
  | i::is => next i = some (is.headD 0) ∧ Links next is

section Chains

variable {next next' : Nat → Option Nat} {is js : List Nat} {a b : Nat}

theorem Links.congr (h : Links next is) (he : ∀ i ∈ is, next' i = next i) : Links next' is := by
  induction is with
  | nil => trivial
  | cons i is ih =>
    refine ⟨?_,ih h.2 fun j hj => he j (List.mem_cons_of_mem i hj)⟩
    rw [he i List.mem_cons_self]
    exact h.1

/-- An index is taken out by leading its predecessor past it. -/
theorem Links.unlink (h : Links next (is ++ a::b::js)) (ha : next' a = next b)
    (hother : ∀ i ∈ is ++ js, next' i = next i) : Links next' (is ++ a::js) := by
  induction is with
  | nil =>
    obtain ⟨_,hb,hjs⟩ := h
    exact ⟨ha.trans hb,hjs.congr hother⟩
  | cons i is ih =>
    refine ⟨?_,ih h.2 fun j hj => hother j (List.mem_cons_of_mem i hj)⟩
    rw [hother i List.mem_cons_self, h.1]
    cases is <;> rfl

/-- An index is put at the end by leading the last one to it. -/
theorem Links.extend (h : Links next (is ++ [a])) (ha : next' a = some b) (hb : next' b = some 0)
    (hother : ∀ i ∈ is, next' i = next i) : Links next' (is ++ [a,b]) := by
  induction is with
  | nil => exact ⟨ha,hb,trivial⟩
  | cons i is ih =>
    refine ⟨?_,ih h.2 fun j hj => hother j (List.mem_cons_of_mem i hj)⟩
    rw [hother i List.mem_cons_self, h.1]
    cases is <;> rfl

theorem Links.next_eq (h : Links next (is ++ a::js)) : next a = some (js.headD 0) := by
  induction is with
  | nil => exact h.1
  | cons i is ih => exact ih h.2

end Chains

section LinkKeys

variable {base : Bytes} {i j : Nat}

private theorem selectIndex_eq (base : Bytes) (i : Nat) :
    selectIndex base i = base ++ (ascii "/" ++ decimal i) := by
  rw [selectIndex, updateKey, List.append_assoc]

theorem headKey_ne_lengthKey : headKey base ≠ lengthKey base := by
  intro h
  have hs := List.append_cancel_left h
  revert hs
  decide

theorem headKey_ne_selectIndex : headKey base ≠ selectIndex base i := by
  rw [selectIndex_eq]
  intro h
  have hs : ascii "head" = decimal i := congrArg List.tail (List.append_cancel_left h)
  exact not_mem_decimal (b := 104) (by decide) i (hs ▸ by decide)

theorem nextKey_ne_headKey : nextKey base i ≠ headKey base := by
  intro h
  have hs := congrArg (fun key => key.getD 1 0) (List.append_cancel_left h)
  revert hs
  show (110 : UInt8) = 104 → False
  decide

theorem nextKey_ne_lengthKey : nextKey base i ≠ lengthKey base := by
  intro h
  have hs := congrArg (fun key => key.getD 1 0) (List.append_cancel_left h)
  revert hs
  show (110 : UInt8) = 108 → False
  decide

theorem nextKey_ne_selectIndex : nextKey base i ≠ selectIndex base j := by
  rw [selectIndex_eq]
  intro h
  have hs : ascii "next" ++ toBytes .u32 i = decimal j :=
    congrArg List.tail (List.append_cancel_left h)
  exact not_mem_decimal (b := 110) (by decide) j (hs ▸ List.mem_append_left _ (by decide))

theorem nextKey_ne (hi : i<2^32) (hj : j<2^32) (h : i ≠ j) : nextKey base i ≠ nextKey base j := by
  intro he
  have hs : toLE 4 i = toLE 4 j := List.append_cancel_left (List.append_cancel_left he)
  have hv := congrArg ofLE hs
  rw [ofLE_toLE (by omega), ofLE_toLE (by omega)] at hv
  exact h hv

end LinkKeys

/-- The representation of the elements: the count, the first index, and the chain through the
others, which ends at the last. -/
structure PointerMemory.Chains (base : Bytes) (m : PointerMemory) (s : LinkedElements) : Prop where
  length : m.length base = some s.appended
  small : s.appended<2^32
  sorted : s.entries.Pairwise fun e e' => e.1 < e'.1
  below : ∀ i ∈ s.indices, i < s.appended
  nonempty : s.entries = [] → s.appended = 0
  head : m.head base = some (s.indices.headD 0)
  links : Links (m.next base) s.indices
  values : ∀ e ∈ s.entries, m (selectIndex base e.1) = e.2
  fresh : ∀ i, s.appended ≤ i+1 → i<2^32 → m.next base i = some 0

namespace PointerMemory

variable {base : Bytes} {m m' : PointerMemory}

/-- Enough rounds visit a chain of growing indices. -/
theorem mapLlFrom_links {length i : Nat} {is : List Nat} (hl : Links (m.next base) (i::is))
    (hs : (i::is).Pairwise (· < ·)) (hb : ∀ j ∈ i::is, j < length) :
    m.mapLlFrom base length (is.length+1) i =
      some ((i::is).map fun j => (j,m (selectIndex base j))) := by
  induction is generalizing i with
  | nil => rw [List.length_nil, mapLlFrom, if_pos (hb i List.mem_cons_self), hl.1]; rfl
  | cons j is ih =>
    have hij : i < j := List.rel_of_pairwise_cons hs List.mem_cons_self
    have hrest := ih hl.2 hs.of_cons fun k hk => hb k (List.mem_cons_of_mem i hk)
    rw [List.length_cons, mapLlFrom, if_pos (hb i List.mem_cons_self), hl.1]
    dsimp only [List.headD_cons]
    rw [if_neg (by omega), hrest]
    rfl

theorem mapLlFrom_mono {length rounds i : Nat} {visited : List (Nat × Bytes)}
    (h : m.mapLlFrom base length rounds i = some visited) (k : Nat) :
    m.mapLlFrom base length (rounds+k) i = some visited := by
  induction rounds generalizing i visited with
  | zero =>
    rw [mapLlFrom] at h
    split_ifs at h with hi
    cases k with
    | zero => rw [mapLlFrom, if_neg hi, h]
    | succ k => rw [Nat.zero_add, mapLlFrom, if_neg hi, h]
  | succ rounds ih =>
    rw [Nat.add_right_comm, mapLlFrom]
    rw [mapLlFrom] at h
    split_ifs at h ⊢ with hi
    · cases hn : m.next base i with
      | none =>
        rw [hn] at h
        cases h
      | some next =>
        rw [hn] at h
        dsimp only at h ⊢
        split_ifs at h ⊢ with hz
        · exact h
        · obtain ⟨rest,hr,he⟩ := Option.map_eq_some_iff.mp h
          rw [ih hr, ← he]
          rfl
    · exact h

theorem mapLl_eq {length i : Nat} (hl : m.length base = some length) (hi : m.head base = some i)
    (rounds : Nat) : m.mapLl base rounds = m.mapLlFrom base length rounds i := by
  rw [mapLl, hl, hi]
  rfl

/-- However many rounds are given, a traversal that ends visits the same. -/
theorem mapLl_unique {rounds rounds' : Nat} {visited visited' : List (Nat × Bytes)}
    (h : m.mapLl base rounds = some visited) (h' : m.mapLl base rounds' = some visited') :
    visited = visited' := by
  have hbind := h
  rw [mapLl] at hbind
  obtain ⟨length,hl,hbind⟩ := Option.bind_eq_some_iff.mp hbind
  obtain ⟨i,hi,_⟩ := Option.bind_eq_some_iff.mp hbind
  rw [mapLl_eq hl hi] at h h'
  have hm := mapLlFrom_mono h rounds'
  rw [Nat.add_comm, mapLlFrom_mono h' rounds] at hm
  exact (Option.some.inj hm).symm

/-- A chain from the head is visited with what its indices hold. -/
theorem mapLl_links {length : Nat} {is : List Nat} (hlen : m.length base = some length)
    (hhead : m.head base = some (is.headD 0)) (hl : Links (m.next base) is)
    (hs : is.Pairwise (· < ·)) (hb : ∀ j ∈ is, j < length) (hne : is = [] → length = 0) :
    m.mapLl base is.length = some (is.map fun j => (j,m (selectIndex base j))) := by
  rw [mapLl_eq hlen hhead]
  cases is with
  | nil =>
    rw [hne rfl]
    rfl
  | cons i is => exact mapLlFrom_links hl hs hb

theorem mapLlFrom_ne_nil {length rounds i : Nat} (hi : i < length) :
    m.mapLlFrom base length rounds i ≠ some [] := by
  cases rounds with
  | zero =>
    rw [mapLlFrom, if_pos hi]
    simp
  | succ rounds =>
    rw [mapLlFrom, if_pos hi]
    cases m.next base i with
    | none => simp
    | some next =>
      dsimp only
      split_ifs <;> simp

/-- The memory after an append of an element behind `length` others. -/
def linkLast (base : Bytes) (m : PointerMemory) (length : Nat) (v : Bytes) : PointerMemory :=
  ((if 0 < length then m.setValue .u32 (nextKey base (length-1)) length else m).setValue .u32
    (lengthKey base) (length+1)).set (selectIndex base length) v

theorem appendLl_eq {length : Nat} (hl : m.length base = some length) (v : Bytes) :
    m.appendLl base v = if length+1<2^32 then some (m.linkLast base length v) else none := by
  rw [appendLl, hl]
  show (succU32 length).bind _ = _
  rw [succU32]
  by_cases hlt : length+1<2^32
  · rw [if_pos hlt, if_pos hlt]
    rfl
  · rw [if_neg hlt, if_neg hlt]
    rfl

section Frames

variable {length i j : Nat} {v : Bytes}

theorem length_linkLast (hs : length+1<2^32) :
    (m.linkLast base length v).length base = some (length+1) := by
  rw [PointerMemory.length, linkLast, getValue_congr (set_of_ne lengthKey_ne_selectIndex)]
  exact getValue_setValue_self (T := .u32) (by show length+1 < 256^4; omega)

theorem head_linkLast : (m.linkLast base length v).head base = m.head base := by
  apply getValue_congr
  rw [linkLast, set_of_ne headKey_ne_selectIndex, setValue_of_ne headKey_ne_lengthKey]
  split_ifs
  · exact setValue_of_ne nextKey_ne_headKey.symm
  · rfl

theorem next_linkLast (hl : length<2^32) (hi : i<2^32) :
    (m.linkLast base length v).next base i =
      if 0 < length ∧ i = length-1 then some length else m.next base i := by
  rw [next, linkLast, getValue_congr (set_of_ne nextKey_ne_selectIndex),
    getValue_congr (setValue_of_ne nextKey_ne_lengthKey)]
  by_cases h0 : 0 < length
  · rw [if_pos h0]
    by_cases he : i = length-1
    · rw [if_pos ⟨h0,he⟩, he]
      exact getValue_setValue_self (T := .u32) (by show length < 256^4; omega)
    · rw [if_neg fun hc => he hc.2]
      exact getValue_congr (setValue_of_ne (nextKey_ne hi (by omega) he))
  · rw [if_neg h0, if_neg fun hc => h0 hc.1]
    rfl

theorem linkLast_element (hi : i ≠ length) :
    m.linkLast base length v (selectIndex base i) = m (selectIndex base i) := by
  rw [linkLast, set_of_ne (selectIndex_ne hi), setValue_of_ne selectIndex_ne_lengthKey]
  split_ifs
  · exact setValue_of_ne nextKey_ne_selectIndex.symm
  · rfl

theorem linkLast_last : m.linkLast base length v (selectIndex base length) = v := by
  rw [linkLast, set_self]

theorem length_dropIndex : (m.dropIndex base j).length base = m.length base :=
  getValue_congr (set_of_ne lengthKey_ne_selectIndex)

theorem head_dropIndex : (m.dropIndex base j).head base = m.head base :=
  getValue_congr (set_of_ne headKey_ne_selectIndex)

theorem next_dropIndex : (m.dropIndex base j).next base i = m.next base i :=
  getValue_congr (set_of_ne nextKey_ne_selectIndex)

theorem dropIndex_element (h : i ≠ j) :
    m.dropIndex base j (selectIndex base i) = m (selectIndex base i) :=
  set_of_ne (selectIndex_ne h)

end Frames

namespace Chains

variable {s : LinkedElements}

theorem indices_sorted (h : m.Chains base s) : s.indices.Pairwise (· < ·) := by
  rw [LinkedElements.indices, List.pairwise_map]
  exact h.sorted

theorem visits (h : m.Chains base s) : m.Visits base s := by
  refine ⟨s.indices.length,?_⟩
  rw [mapLl_links h.length h.head h.links h.indices_sorted h.below]
  · rw [LinkedElements.indices, List.map_map]
    congr 1
    conv_rhs => rw [← List.map_id s.entries]
    apply List.map_congr_left
    intro e he
    exact Prod.ext rfl (h.values e he)
  · intro hnil
    exact h.nonempty (List.map_eq_nil_iff.mp hnil)

/-- The chain of the live indices is visited as long as nothing on it changes. -/
theorem visits_of_frame (h : m.Chains base s) {length : Nat} (hlen : m'.length base = some length)
    (hle : s.appended ≤ length) (hne : s.entries ≠ []) (hhead : m'.head base = m.head base)
    (hnext : ∀ i ∈ s.indices, m'.next base i = m.next base i) :
    m'.mapLl base s.indices.length =
      some (s.indices.map fun i => (i,m' (selectIndex base i))) := by
  apply mapLl_links hlen (hhead.trans h.head) (h.links.congr hnext) h.indices_sorted
  · intro i hi
    exact (h.below i hi).trans_le hle
  · intro hnil
    exact absurd (List.map_eq_nil_iff.mp hnil) hne

/-- A live last index ends the list of indices. -/
theorem indices_eq_concat (h : m.Chains base s) (hlast : s.appended-1 ∈ s.indices) :
    ∃ is, s.indices = is ++ [s.appended-1] := by
  obtain ⟨is,js,he⟩ := List.append_of_mem hlast
  cases js with
  | nil => exact ⟨is,he⟩
  | cons j js =>
    -- a later index would not be below the count
    have hs := h.indices_sorted
    rw [he, List.pairwise_append] at hs
    have hlt : s.appended-1 < j := List.rel_of_pairwise_cons hs.2.1 List.mem_cons_self
    have hb := h.below j (by rw [he]; simp)
    omega

theorem append (h : m.Chains base s) (v : Bytes) (hlt : s.appended+1<2^32)
    (hlast : s.appended = 0 ∨ s.appended-1 ∈ s.indices) :
    (m.linkLast base s.appended v).Chains base ⟨s.entries ++ [(s.appended,v)],s.appended+1⟩ := by
  have hsmall := h.small
  have hindices : LinkedElements.indices ⟨s.entries ++ [(s.appended,v)],s.appended+1⟩ =
      s.indices ++ [s.appended] := by simp [LinkedElements.indices]
  refine ⟨length_linkLast hlt,hlt,?_,?_,by simp,?_,?_,?_,?_⟩
  · rw [List.pairwise_append]
    refine ⟨h.sorted,List.pairwise_singleton _ _,?_⟩
    intro e he e' he'
    rw [List.mem_singleton] at he'
    rw [he']
    exact h.below e.1 (List.mem_map_of_mem he)
  · intro i hi
    rw [hindices, List.mem_append, List.mem_singleton] at hi
    rcases hi with hi | rfl
    · exact (h.below i hi).trans (Nat.lt_succ_self _)
    · exact Nat.lt_succ_self _
  · rw [head_linkLast, h.head, hindices]
    cases hi : s.indices with
    | nil =>
      rw [h.nonempty (List.map_eq_nil_iff.mp hi)]
      rfl
    | cons i is => rfl
  · rw [hindices]
    have hend : m.next base s.appended = some 0 := h.fresh _ (Nat.le_succ _) hsmall
    rcases hlast with h0 | hlive
    · have hnil : s.indices = [] := by
        rw [List.eq_nil_iff_forall_not_mem]
        intro i hi
        have hb := h.below i hi
        omega
      rw [hnil]
      refine ⟨?_,trivial⟩
      rw [next_linkLast hsmall hsmall, if_neg (by omega)]
      exact hend
    · obtain ⟨is,he⟩ := h.indices_eq_concat hlive
      have hpos : 0 < s.appended := by
        have hb := h.below _ hlive
        omega
      have hl := h.links
      have hs := h.indices_sorted
      rw [he] at hl hs ⊢
      rw [List.append_assoc]
      apply hl.extend
      · rw [next_linkLast hsmall (by omega), if_pos ⟨hpos,rfl⟩]
      · rw [next_linkLast hsmall hsmall, if_neg (by omega)]
        exact hend
      · intro i hi
        have hlt := (List.pairwise_append.mp hs).2.2 i hi _ (List.mem_singleton_self _)
        rw [next_linkLast hsmall (by omega), if_neg (by omega)]
  · intro e he
    rw [List.mem_append, List.mem_singleton] at he
    rcases he with he | rfl
    · have hb := h.below e.1 (List.mem_map_of_mem he)
      rw [linkLast_element (by omega)]
      exact h.values e he
    · exact linkLast_last
  · intro i hi hi32
    dsimp only at hi
    rw [next_linkLast hsmall hi32, if_neg (by omega)]
    exact h.fresh i (by omega) hi32

end Chains

end PointerMemory

namespace LinkedElements

variable {s : LinkedElements} {i : Nat}

theorem indices_delete : (s.act (.deleteValue i)).1.indices = s.indices.filter (· ≠ i) := by
  rw [indices, indices, act, List.filter_map]
  rfl

/-- In growing indices, one is filtered out by joining what is before and behind it. -/
theorem filter_ne_middle (is : List Nat) {js : List Nat} (h : (is ++ i::js).Pairwise (· < ·)) :
    (is ++ i::js).filter (· ≠ i) = is ++ js := by
  have hsplit := List.pairwise_append.mp h
  have his : is.filter (· ≠ i) = is := by
    rw [List.filter_eq_self]
    intro j hj
    have hlt := hsplit.2.2 j hj i List.mem_cons_self
    simp only [ne_eq, decide_not, Bool.not_eq_true', decide_eq_false_iff_not]
    omega
  have hjs : js.filter (· ≠ i) = js := by
    rw [List.filter_eq_self]
    intro j hj
    have hlt := List.rel_of_pairwise_cons hsplit.2.1 hj
    simp only [ne_eq, decide_not, Bool.not_eq_true', decide_eq_false_iff_not]
    omega
  rw [List.filter_append, his, List.filter_cons_of_neg (by simp), hjs]

end LinkedElements

namespace PointerMemory

variable {base : Bytes} {m m' : PointerMemory} {s : LinkedElements} {i : Nat}

/-- The memory after the chain is led past an index at the key before it. -/
def unlinkAt (base : Bytes) (m : PointerMemory) (key : Bytes) (next i : Nat) : PointerMemory :=
  (m.setValue .u32 key next).dropIndex base i

section Frames

variable {key : Bytes} {next j : Nat}

theorem length_unlinkAt (hk : lengthKey base ≠ key) :
    (m.unlinkAt base key next i).length base = m.length base :=
  length_dropIndex.trans (getValue_congr (setValue_of_ne hk))

theorem head_unlinkAt (hk : headKey base ≠ key) :
    (m.unlinkAt base key next i).head base = m.head base :=
  head_dropIndex.trans (getValue_congr (setValue_of_ne hk))

theorem next_unlinkAt (hk : nextKey base j ≠ key) :
    (m.unlinkAt base key next i).next base j = m.next base j :=
  next_dropIndex.trans (getValue_congr (setValue_of_ne hk))

theorem unlinkAt_element (hk : selectIndex base j ≠ key) (h : j ≠ i) :
    m.unlinkAt base key next i (selectIndex base j) = m (selectIndex base j) :=
  (dropIndex_element h).trans (setValue_of_ne hk)

theorem head_unlinkAt_head (hn : next<2^32) :
    (m.unlinkAt base (headKey base) next i).head base = some next :=
  head_dropIndex.trans (getValue_setValue_self (T := .u32) (by show next < 256^4; omega))

theorem next_unlinkAt_next (hn : next<2^32) :
    (m.unlinkAt base (nextKey base j) next i).next base j = some next :=
  next_dropIndex.trans (getValue_setValue_self (T := .u32) (by show next < 256^4; omega))

end Frames

theorem deleteValue_head {next : Nat} (hh : m.head base = some i) (hn : m.next base i = some next) :
    m.deleteValue base i = some (m.unlinkAt base (headKey base) next i) := by
  rw [deleteValue, hh]
  show (if i = i then (m.next base i).bind _ else _) = _
  rw [if_pos rfl, hn]
  rfl

theorem deleteValue_next {head next : Nat} (hh : m.head base = some head) (hi : i ≠ head)
    (h0 : i ≠ 0) (hn : m.next base i = some next) :
    m.deleteValue base i = some (m.unlinkAt base (nextKey base (i-1)) next i) := by
  rw [deleteValue, hh]
  show (if i = head then _ else if i = 0 then none else (m.next base i).bind _) = _
  rw [if_neg hi, if_neg h0, hn]
  rfl

end PointerMemory

namespace PointerMemory.Chains

variable {base : Bytes} {m m' : PointerMemory} {s : LinkedElements} {i : Nat}

theorem appended_pos (h : m.Chains base s) (hi : i ∈ s.indices) : 0 < s.appended :=
  (Nat.zero_le i).trans_lt (h.below i hi)

theorem index_lt (h : m.Chains base s) (hi : i ∈ s.indices) : i<2^32 :=
  (h.below i hi).trans h.small

theorem next_index_lt (h : m.Chains base s) {is js : List Nat} (hs : s.indices = is ++ i::js) :
    js.headD 0 < 2^32 := by
  cases js with
  | nil =>
    show 0 < 2^32
    decide
  | cons j js => exact h.index_lt (by rw [hs]; simp)

/-- A chain that misses one index, where the rest of the memory is as it was. -/
theorem without (h : m.Chains base s) {is : List Nat}
    (hs : (s.act (.deleteValue i)).1.indices = is) (hne : is ≠ [])
    (hlength : m'.length base = m.length base) (hhead : m'.head base = some (is.headD 0))
    (hlinks : Links (m'.next base) is)
    (hvalues : ∀ j, j ≠ i → m' (selectIndex base j) = m (selectIndex base j))
    (hfresh : ∀ j, s.appended ≤ j+1 → j<2^32 → m'.next base j = m.next base j) :
    m'.Chains base (s.act (.deleteValue i)).1 := by
  refine ⟨hlength.trans h.length,h.small,h.sorted.filter _,?_,?_,?_,?_,?_,?_⟩
  · intro j hj
    rw [LinkedElements.indices_delete, List.mem_filter] at hj
    exact h.below j hj.1
  · intro hnil
    rw [← hs, LinkedElements.indices, hnil] at hne
    exact absurd rfl hne
  · rw [hs]
    exact hhead
  · rw [hs]
    exact hlinks
  · intro e he
    have hmem := List.mem_filter.mp he
    rw [hvalues e.1 (by simpa using hmem.2)]
    exact h.values e hmem.1
  · intro j hj hj32
    rw [hfresh j hj hj32]
    exact h.fresh j hj hj32

/-- The first index is deleted while there is another. -/
theorem deleteFirst (h : m.Chains base s) {j : Nat} {is : List Nat} (hs : s.indices = i::j::is) :
    ∃ m', m.deleteValue base i = some m' ∧ m'.Chains base (s.act (.deleteValue i)).1 := by
  have hhead : m.head base = some i := by
    rw [h.head, hs]
    rfl
  have hl := h.links
  have hsorted := h.indices_sorted
  rw [hs] at hl hsorted
  have hjlt : j<2^32 := h.index_lt (by rw [hs]; simp)
  have hdelete : (s.act (.deleteValue i)).1.indices = j::is := by
    rw [LinkedElements.indices_delete, hs]
    exact LinkedElements.filter_ne_middle [] hsorted
  refine ⟨_,deleteValue_head hhead hl.1,?_⟩
  apply h.without hdelete (List.cons_ne_nil j is)
  · exact length_unlinkAt headKey_ne_lengthKey.symm
  · exact head_unlinkAt_head hjlt
  · apply hl.2.congr
    intro k _
    exact next_unlinkAt nextKey_ne_headKey
  · intro k hk
    exact unlinkAt_element headKey_ne_selectIndex.symm hk
  · intro k _ _
    exact next_unlinkAt nextKey_ne_headKey

/-- The entry of an index's live predecessor is just before its own. -/
theorem indices_eq_middle (h : m.Chains base s) (hi : i ∈ s.indices) (h0 : i ≠ 0)
    (hprev : i-1 ∈ s.indices) : ∃ is js, s.indices = is ++ (i-1)::i::js := by
  obtain ⟨is,js,hs⟩ := List.append_of_mem hprev
  have hsorted := h.indices_sorted
  rw [hs] at hsorted hi
  have hsplit := List.pairwise_append.mp hsorted
  have hmem : i ∈ js := by
    rw [List.mem_append, List.mem_cons] at hi
    rcases hi with hi | hi | hi
    · have hlt := hsplit.2.2 i hi (i-1) List.mem_cons_self
      omega
    · omega
    · exact hi
  cases js with
  | nil => cases hmem
  | cons j js =>
    have hlt : i-1 < j := List.rel_of_pairwise_cons hsplit.2.1 List.mem_cons_self
    have hle : j ≤ i := by
      rw [List.mem_cons] at hmem
      rcases hmem with hj | hj
      · omega
      · exact (List.rel_of_pairwise_cons hsplit.2.1.of_cons hj).le
    have hj : j = i := by omega
    exact ⟨is,js,by rw [hs, hj]⟩

/-- An index is deleted behind a live one. -/
theorem deleteNext (h : m.Chains base s) (hi : i ∈ s.indices) (hfirst : s.indices.head? ≠ some i)
    (hprev : i-1 ∈ s.indices) :
    ∃ m', m.deleteValue base i = some m' ∧ m'.Chains base (s.act (.deleteValue i)).1 := by
  have h0 : i ≠ 0 := by
    intro h0
    rw [h0] at hi hfirst
    cases hs : s.indices with
    | nil =>
      rw [hs] at hi
      cases hi
    | cons j is =>
      have hsorted := h.indices_sorted
      rw [hs] at hi hfirst hsorted
      rw [List.mem_cons] at hi
      rcases hi with hi | hi
      · exact hfirst (by rw [← hi]; rfl)
      · exact absurd (List.rel_of_pairwise_cons hsorted hi) (Nat.not_lt_zero j)
  obtain ⟨is,js,hs⟩ := h.indices_eq_middle hi h0 hprev
  have hi32 := h.index_lt hi
  have hl := h.links
  have hsorted := h.indices_sorted
  have hs' : s.indices = (is ++ [i-1]) ++ i::js := by simp [hs]
  have hnext : m.next base i = some (js.headD 0) := by
    rw [hs'] at hl
    exact hl.next_eq
  have hhead : m.head base = some ((is ++ [i-1]).headD 0) := by
    rw [h.head, hs]
    cases is <;> rfl
  have hne : i ≠ (is ++ [i-1]).headD 0 := by
    intro he
    apply hfirst
    rw [hs]
    cases is with
    | nil =>
      have hb : i = i-1 := he
      omega
    | cons k is => exact congrArg some he.symm
  have hdelete : (s.act (.deleteValue i)).1.indices = is ++ (i-1)::js := by
    rw [LinkedElements.indices_delete, hs']
    rw [hs'] at hsorted
    rw [LinkedElements.filter_ne_middle _ hsorted]
    simp
  rw [hs] at hl hsorted
  refine ⟨_,deleteValue_next hhead hne h0 hnext,?_⟩
  have hother : ∀ k, k ≠ i-1 → k<2^32 →
      (m.unlinkAt base (nextKey base (i-1)) (js.headD 0) i).next base k = m.next base k := by
    intro k hk hk32
    exact next_unlinkAt (nextKey_ne hk32 (by omega) hk)
  apply h.without hdelete (by simp)
  · exact length_unlinkAt nextKey_ne_lengthKey.symm
  · rw [head_unlinkAt nextKey_ne_headKey.symm, hhead]
    cases is <;> rfl
  · apply hl.unlink
    · rw [next_unlinkAt_next (h.next_index_lt hs'), hnext]
    · intro k hk
      apply hother
      · have hsplit := List.pairwise_append.mp hsorted
        rw [List.mem_append] at hk
        rcases hk with hk | hk
        · exact (hsplit.2.2 k hk (i-1) List.mem_cons_self).ne
        · exact (List.rel_of_pairwise_cons hsplit.2.1 (List.mem_cons_of_mem i hk)).ne'
      · apply h.index_lt
        rw [hs, List.mem_append]
        rw [List.mem_append] at hk
        exact hk.imp_right fun hk => List.mem_cons_of_mem _ (List.mem_cons_of_mem i hk)
  · intro k hk
    exact unlinkAt_element nextKey_ne_selectIndex.symm hk
  · intro k hk hk32
    have hb := h.below i hi
    exact hother k (by omega) hk32

end PointerMemory.Chains

namespace PointerMemory.Chains

variable {base : Bytes} {m m' : PointerMemory} {s : LinkedElements} {i : Nat} {a : LinkedAction}

/-- An operation that does not slip keeps the chain. -/
theorem step (h : m.Chains base s) (ha : s.Allowed a) (hs : ¬s.Slips a) :
    ∃ m', m.linkedStep base a = some (m',(s.act a).2) ∧ m'.Chains base (s.act a).1 := by
  cases a with
  | appendLl v =>
    rw [LinkedElements.Slips, not_or, not_and_or, not_not, not_not, Nat.not_le] at hs
    refine ⟨m.linkLast base s.appended v,?_,h.append v hs.1 hs.2⟩
    rw [linkedStep, appendLl_eq h.length, if_pos hs.1]
    rfl
  | deleteValue i =>
    rw [LinkedElements.Slips, not_or, not_and_or, not_not, not_not] at hs
    obtain ⟨honly,hprev⟩ := hs
    have hdelete : ∃ m', m.deleteValue base i = some m' ∧
        m'.Chains base (s.act (.deleteValue i)).1 := by
      by_cases hfirst : s.indices.head? = some i
      · obtain ⟨is,hi⟩ := List.head?_eq_some_iff.mp hfirst
        cases is with
        | nil => exact absurd hi honly
        | cons j is => exact h.deleteFirst hi
      · exact h.deleteNext ha hfirst (hprev.resolve_left hfirst)
    obtain ⟨m',hm,hc⟩ := hdelete
    exact ⟨m',by rw [linkedStep, hm]; rfl,hc⟩

/-- A memory that still leads through the old indices does not visit others. -/
theorem not_visits (h : m.Chains base s) {s' : LinkedElements} {length : Nat}
    (hlen : m'.length base = some length) (hle : s.appended ≤ length) (hne : s.entries ≠ [])
    (hhead : m'.head base = m.head base)
    (hnext : ∀ i ∈ s.indices, m'.next base i = m.next base i) (hs : s'.indices ≠ s.indices) :
    ¬m'.Visits base s' := by
  intro hv
  obtain ⟨rounds,hr⟩ := hv
  apply hs
  rw [LinkedElements.indices, mapLl_unique hr (h.visits_of_frame hlen hle hne hhead hnext),
    List.map_map]
  exact List.map_id _

/-- After a slip the traversal visits something else. -/
theorem slip (h : m.Chains base s) (ha : s.Allowed a) (hs : s.Slips a)
    (hstep : m.linkedStep base a = some (m',(s.act a).2)) : ¬m'.Visits base (s.act a).1 := by
  cases a with
  | appendLl v =>
    rw [linkedStep, appendLl_eq h.length] at hstep
    split_ifs at hstep with hlt
    · cases hstep
      rw [LinkedElements.Slips, or_iff_right (Nat.not_le.mpr hlt)] at hs
      obtain ⟨hpos,hdead⟩ := hs
      -- the new element is linked from a deleted one, which the chain does not reach
      apply h.not_visits (length_linkLast hlt) (Nat.le_succ _) (fun hnil => hpos (h.nonempty hnil))
        head_linkLast
      · intro i hi
        rw [next_linkLast h.small (h.index_lt hi), if_neg]
        rintro ⟨_,he⟩
        exact hdead (he ▸ hi)
      · simp [LinkedElements.indices, LinkedElements.act]
    · cases hstep
  | deleteValue i =>
    have hi : i ∈ s.indices := ha
    have hne : s.entries ≠ [] := by
      intro hnil
      rw [LinkedElements.indices, hnil] at hi
      cases hi
    rw [linkedStep] at hstep
    obtain ⟨m'',hdelete,hm⟩ := Option.map_eq_some_iff.mp hstep
    cases hm
    by_cases honly : s.indices = [i]
    · -- the head key is 0 again, an index below the length
      have hhead : m.head base = some i := by
        rw [h.head, honly]
        rfl
      have hl := h.links
      rw [honly] at hl
      have hnext : m.next base i = some 0 := hl.1
      rw [deleteValue_head hhead hnext] at hdelete
      cases hdelete
      intro hv
      obtain ⟨rounds,hr⟩ := hv
      have hlen : (m.unlinkAt base (headKey base) 0 i).length base = some s.appended :=
        (length_unlinkAt headKey_ne_lengthKey.symm).trans h.length
      have hz : (m.unlinkAt base (headKey base) 0 i).head base = some 0 :=
        head_unlinkAt_head (by decide)
      have hgone : (s.act (.deleteValue i)).1.entries = [] := by
        apply List.map_eq_nil_iff.mp
        show (s.act (.deleteValue i)).1.indices = []
        rw [LinkedElements.indices_delete, honly]
        simp
      rw [hgone, mapLl_eq hlen hz] at hr
      exact mapLlFrom_ne_nil (h.appended_pos hi) hr
    · rw [LinkedElements.Slips, or_iff_right honly] at hs
      obtain ⟨hfirst,hdead⟩ := hs
      have hgone : (s.act (.deleteValue i)).1.indices ≠ s.indices := by
        intro he
        rw [← he, LinkedElements.indices_delete, List.mem_filter] at hi
        simp at hi
      have hhead : i ≠ s.indices.headD 0 := by
        intro he
        apply hfirst
        cases hs : s.indices with
        | nil =>
          rw [hs] at hi
          cases hi
        | cons j is =>
          rw [hs] at he
          rw [he]
          rfl
      obtain ⟨is,js,hsplit⟩ := List.append_of_mem hi
      have hl := h.links
      rw [hsplit] at hl
      by_cases h0 : i = 0
      · rw [deleteValue, h.head] at hdelete
        change (if i = s.indices.headD 0 then _ else if i = 0 then none else _) = _ at hdelete
        rw [if_neg hhead, if_pos h0] at hdelete
        cases hdelete
      · rw [deleteValue_next h.head hhead h0 hl.next_eq] at hdelete
        cases hdelete
        -- the deleted index before it is patched, not the one that leads to it
        apply h.not_visits (length_unlinkAt nextKey_ne_lengthKey.symm |>.trans h.length) le_rfl hne
          (head_unlinkAt nextKey_ne_headKey.symm)
        · intro j hj
          apply next_unlinkAt
          have hj32 := h.index_lt hj
          have hi32 := h.index_lt hi
          apply nextKey_ne hj32 (by omega)
          intro he
          exact hdead (he ▸ hj)
        · exact hgone

end PointerMemory.Chains

/-- A memory in which nothing was written for the list. -/
def PointerMemory.Unused (base : Bytes) (m : PointerMemory) : Prop :=
  m.length base = some 0 ∧ m.head base = some 0 ∧ ∀ i, i<2^32 → m.next base i = some 0

theorem PointerMemory.Unused.chains {base : Bytes} {m : PointerMemory} (h : m.Unused base) :
    m.Chains base ⟨[],0⟩ := by
  obtain ⟨hlength,hhead,hnext⟩ := h
  refine ⟨hlength,?_,List.Pairwise.nil,?_,fun _ => rfl,hhead,trivial,?_,fun i _ hi => hnext i hi⟩
  · show 0<2^32
    decide
  · intro i hi
    cases hi
  · intro e he
    cases he

/-- From an unused list on, the traversal visits the remaining elements exactly along the operations
that append behind a live last element, and delete the first of several elements or one behind a
live index. -/
theorem linked_list_visits_iff (base : Bytes) (m : PointerMemory) (hm : m.Unused base)
    (as : List LinkedAction) (ha : Abides.Along LinkedElements.act LinkedElements.Allowed ⟨[],0⟩ as) :
    Abides.AgreesAlong (PointerMemory.linkedStep base) LinkedElements.act
        (PointerMemory.Visits base) m ⟨[],0⟩ as ↔
      Abides.Along LinkedElements.act (fun s a => ¬LinkedElements.Slips s a) ⟨[],0⟩ as := by
  apply Abides.agreesAlong_iff (PointerMemory.Chains base) LinkedElements.Allowed
  · intro m s h
    exact h.visits
  · intro m s a h hall hs
    exact h.step hall hs
  · intro m s a m' h hall hs hstep
    exact h.slip hall hs hstep
  · exact hm.chains
  · exact ha

/-- Three elements, of which the second and then the first are deleted. -/
theorem linked_list_visits_three_elements :
    Abides.AgreesAlong (PointerMemory.linkedStep [1]) LinkedElements.act (PointerMemory.Visits [1])
      (fun _ => []) ⟨[],0⟩
      [.appendLl [5],.appendLl [6],.appendLl [7],.deleteValue 1,.deleteValue 0] := by
  apply (linked_list_visits_iff [1] (fun _ => []) ⟨rfl,rfl,fun _ _ => rfl⟩ _ ?_).mpr
  · refine ⟨?_,?_,?_,?_,?_,trivial⟩ <;>
      simp [LinkedElements.Slips, LinkedElements.act, LinkedElements.indices]
  · refine ⟨trivial,trivial,trivial,?_,?_,trivial⟩ <;>
      simp [LinkedElements.Allowed, LinkedElements.act, LinkedElements.indices]

/-- The only element is visited after its deletion. -/
theorem linked_list_visits_deleted_only :
    ¬∀ as : List LinkedAction,
      Abides.Along LinkedElements.act LinkedElements.Allowed ⟨[],0⟩ as →
        Abides.AgreesAlong (PointerMemory.linkedStep [1]) LinkedElements.act
          (PointerMemory.Visits [1]) (fun _ => []) ⟨[],0⟩ as := by
  intro h
  have ha : Abides.Along LinkedElements.act LinkedElements.Allowed ⟨[],0⟩
      [.appendLl [5],.deleteValue 0] := by
    refine ⟨trivial,?_,trivial⟩
    simp [LinkedElements.Allowed, LinkedElements.act, LinkedElements.indices]
  obtain ⟨_,m₁,h₁,_,m₂,h₂,rounds,hr⟩ := h _ ha
  cases h₁
  cases h₂
  generalize hm : PointerMemory.dropIndex [1] _ 0 = m at hr
  have hlength : m.length [1] = some 1 := by
    rw [← hm]
    decide +kernel
  have hhead : m.head [1] = some 0 := by
    rw [← hm]
    decide +kernel
  rw [PointerMemory.mapLl_eq hlength hhead] at hr
  exact PointerMemory.mapLlFrom_ne_nil (by decide) hr

end Metashrew
