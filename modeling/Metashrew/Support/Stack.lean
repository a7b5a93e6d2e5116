import Metashrew.Lib.Abides
import Metashrew.Support.Pointer

namespace Metashrew

open Bytes

/-- The key of the element with this index. -/
abbrev selectIndex (base : Bytes) (index : Nat) : Bytes := updateKey base index

/-- The operations of a list of `T` under a key. -/
inductive ListAction (T : IntType) where
  | appendValue (v : T.Value)
  | pop
  | popValue
  | dropIndex (index : Nat)
  | getList
  | getListValues

/-- What an operation returns. -/
inductive ListResult where
  | done
  | bytes (b : Bytes)
  | value (v : Nat)
  | list (bs : List Bytes)
  | values (vs : List Nat)

namespace PointerMemory

variable (T : IntType) (base : Bytes) (m : PointerMemory)

def length : Option Nat := m.getValue .u32 (lengthKey base)

/-- Addition of 1 with its overflow check. -/
def succU32 (n : Nat) : Option Nat := if n+1<2^32 then some (n+1) else none

def appendValue (v : Nat) : Option PointerMemory := do
  let length ← m.length base
  let newLength ← succU32 length
  return (m.setValue .u32 (lengthKey base) newLength).setValue T (selectIndex base length) v

def pop : Option (PointerMemory × Bytes) := do
  let length ← m.length base
  if length = 0 then return (m,[])
  else
    let m := m.setValue .u32 (lengthKey base) (length-1)
    return (m,m (selectIndex base (length-1)))

def popValue : Option (PointerMemory × Nat) := do
  let length ← m.length base
  if length = 0 then return (m,← fromBytes T [])
  else
    let m := m.setValue .u32 (lengthKey base) (length-1)
    return (m,← m.getValue T (selectIndex base (length-1)))

def dropIndex (index : Nat) : PointerMemory := m.nullify (selectIndex base index)

def getList : Option (List Bytes) := do
  let length ← m.length base
  return (List.range length).map fun i => m (selectIndex base i)

def getListValues : Option (List Nat) := do
  let length ← m.length base
  (List.range length).mapM fun i => m.getValue T (selectIndex base i)

/-- One operation; none is a panic. -/
def listStep : ListAction T → Option (PointerMemory × ListResult)
  | .appendValue v => (m.appendValue T base v).map fun m => (m,.done)
  | .pop => (m.pop base).map fun r => (r.1,.bytes r.2)
  | .popValue => (m.popValue T base).map fun r => (r.1,.value r.2)
  | .dropIndex index => some (m.dropIndex base index,.done)
  | .getList => (m.getList base).map fun bs => (m,.list bs)
  | .getListValues => (m.getListValues T base).map fun vs => (m,.values vs)

end PointerMemory

/-- The sequence that a list stands for; none is an element that has been dropped. -/
abbrev Elements (T : IntType) := List (Option T.Value)

namespace Elements

variable {T : IntType}

/-- The bytes of an element; those of a dropped one are a single zero. -/
def raw : Option T.Value → Bytes
  | some v => toBytes T v
  | none => [0]

def value : Option T.Value → Nat
  | some v => v
  | none => 0

/-- The operations of a stack; an element that is dropped reads as zero. -/
def act (s : Elements T) : ListAction T → Elements T × ListResult
  | .appendValue v => (s ++ [some v],.done)
  | .pop => (s.dropLast,.bytes ((s.getLast?.map raw).getD []))
  | .popValue => (s.dropLast,.value ((s.getLast?.map value).getD 0))
  | .dropIndex index => (s.set index none,.done)
  | .getList => (s,.list (s.map raw))
  | .getListValues => (s,.values (s.map value))

/-- A live index is dropped, and a list has at most 2^32-1 elements. -/
def Allowed (s : Elements T) : ListAction T → Prop
  | .appendValue _ => s.length+1<2^32
  | .dropIndex index => index < s.length
  | _ => True

/-- Typed reads of an element that the type cannot decode: of the empty list's, and of a dropped one
unless the type has one byte. -/
def Slips (s : Elements T) : ListAction T → Prop
  | .popValue => s = [] ∨ T.width ≠ 1 ∧ s.getLast? = some none
  | .getListValues => T.width ≠ 1 ∧ none ∈ s
  | _ => False

end Elements

/-- The length and the bytes of the elements are those of the sequence. -/
structure PointerMemory.Lists {T : IntType} (base : Bytes) (m : PointerMemory) (s : Elements T) :
    Prop where
  length : m.length base = some s.length
  list : m.getList base = some (s.map Elements.raw)

section Keys

variable {base : Bytes} {i j : Nat}

theorem lengthKey_ne_selectIndex : lengthKey base ≠ selectIndex base i :=
  Record.name_ne (r := .length base) (s := .update base i) (by simp)

theorem selectIndex_ne_lengthKey : selectIndex base i ≠ lengthKey base :=
  lengthKey_ne_selectIndex.symm

theorem selectIndex_ne (h : i ≠ j) : selectIndex base i ≠ selectIndex base j :=
  Record.name_ne (r := .update base i) (s := .update base j) (by simp [h])

end Keys

/-- The length record counts the elements, and each is stored under its index. -/
structure PointerMemory.Stores {T : IntType} (base : Bytes) (m : PointerMemory) (s : Elements T) :
    Prop where
  length : m.length base = some s.length
  small : s.length<2^32
  elements : ∀ i e, s[i]? = some e → m (selectIndex base i) = Elements.raw e

/-- What a typed read makes of an element. -/
def Elements.decode {T : IntType} : Option T.Value → Option Nat
  | some v => some v
  | none => if T.width = 1 then some 0 else none

theorem mapM_range {α β : Type} {s : List α} {f : Nat → Option β} {g : α → Option β}
    (h : ∀ i a, s[i]? = some a → f i = g a) : (List.range s.length).mapM f = s.mapM g := by
  induction s generalizing f with
  | nil => rfl
  | cons a s ih =>
    have hrest : (List.range s.length).mapM (fun i => f (i+1)) = s.mapM g :=
      ih fun i b hb => h (i+1) b (by simpa using hb)
    rw [List.length_cons, List.range_succ_eq_map, List.mapM_cons, List.mapM_map, List.mapM_cons,
      h 0 a rfl, ← hrest]
    rfl

namespace Elements

variable {T : IntType} {s : Elements T}

/-- Typed reads of all elements succeed unless a dropped one has the wrong length. -/
theorem mapM_decode (h : T.width = 1 ∨ none ∉ s) : s.mapM decode = some (s.map value) := by
  induction s with
  | nil => rfl
  | cons e s ih =>
    have hrest : T.width = 1 ∨ none ∉ s := h.imp_right fun hn hm => hn (List.mem_cons_of_mem e hm)
    have he : decode e = some (value e) := by
      cases e with
      | some v => rfl
      | none =>
        rcases h with hw | hn
        · rw [decode, if_pos hw]
          rfl
        · exact absurd List.mem_cons_self hn
    rw [List.mapM_cons, he, ih hrest]
    rfl

theorem mapM_decode_eq_none (hw : T.width ≠ 1) (hn : none ∈ s) : s.mapM decode = none := by
  induction s with
  | nil => cases hn
  | cons e s ih =>
    rw [List.mapM_cons]
    cases e with
    | none =>
      rw [decode, if_neg hw]
      rfl
    | some v =>
      have hm : none ∈ s := by simpa using hn
      rw [ih hm]
      rfl

end Elements

namespace PointerMemory

variable {T : IntType} {base : Bytes} {m m' : PointerMemory} {s : Elements T}

theorem getValue_raw {key : Bytes} {e : Option T.Value} (h : m key = Elements.raw e) :
    m.getValue T key = Elements.decode e := by
  cases e with
  | some v =>
    rw [getValue, h, Elements.raw, toBytes, if_neg (toLE_ne_nil T.width_pos v), fromBytes,
      length_toLE, if_pos rfl, ofLE_toLE v.isLt, Elements.decode]
  | none =>
    rw [getValue, h, Elements.raw, if_neg (by simp), fromBytes, Elements.decode]
    exact if_congr eq_comm rfl rfl

namespace Stores

theorem getList (h : m.Stores base s) : m.getList base = some (s.map Elements.raw) := by
  rw [PointerMemory.getList, h.length]
  show some _ = some _
  congr 1
  apply List.ext_getElem (by simp)
  intro i hi hi'
  have hlt : i < s.length := by simpa using hi
  rw [List.getElem_map, List.getElem_map, List.getElem_range]
  exact h.elements i _ (List.getElem?_eq_getElem hlt)

theorem getListValues (h : m.Stores base s) :
    m.getListValues T base = s.mapM Elements.decode := by
  rw [PointerMemory.getListValues, h.length]
  exact mapM_range fun i e he => getValue_raw (h.elements i e he)

theorem lists (h : m.Stores base s) : m.Lists base s := ⟨h.length,h.getList⟩

theorem appendValue (h : m.Stores base s) (v : T.Value) (hlt : s.length+1<2^32) :
    ∃ m', m.appendValue T base v = some m' ∧ m'.Stores base (s ++ [some v]) := by
  refine ⟨(m.setValue .u32 (lengthKey base) (s.length+1)).setValue T (selectIndex base s.length) v,
    ?_,?_⟩
  · rw [PointerMemory.appendValue, h.length]
    show (succU32 s.length).bind _ = _
    rw [succU32, if_pos hlt]
    rfl
  · refine ⟨?_,?_,?_⟩
    · have hlen : (s ++ [some v]).length = s.length+1 := by simp
      rw [PointerMemory.length, getValue_congr (setValue_of_ne lengthKey_ne_selectIndex),
        getValue_setValue_self hlt, hlen]
    · simpa using hlt
    · intro i e he
      rcases Nat.lt_trichotomy i s.length with hi | hi | hi
      · rw [List.getElem?_append_left hi] at he
        rw [setValue_of_ne (selectIndex_ne (by omega)), setValue_of_ne selectIndex_ne_lengthKey]
        exact h.elements i e he
      · rw [hi, List.getElem?_append_right (by omega), Nat.sub_self] at he
        cases he
        rw [hi, setValue, set_self]
        rfl
      · rw [List.getElem?_eq_none (by simp; omega)] at he
        cases he

/-- A shorter length drops the last element, which stays stored above it. -/
theorem dropLast (h : m.Stores base s) :
    (m.setValue .u32 (lengthKey base) (s.length-1)).Stores base s.dropLast := by
  have hsmall := h.small
  refine ⟨?_,?_,?_⟩
  · rw [PointerMemory.length, getValue_setValue_self (T := .u32)]
    · rw [List.length_dropLast]
    · show s.length-1 < 256^4
      omega
  · rw [List.length_dropLast]
    omega
  · intro i e he
    rw [setValue_of_ne selectIndex_ne_lengthKey]
    rw [List.getElem?_dropLast] at he
    split_ifs at he with hi
    exact h.elements i e he

theorem last (h : m.Stores base s) (hs : s ≠ []) :
    ∃ e, s.getLast? = some e ∧
      m.setValue .u32 (lengthKey base) (s.length-1) (selectIndex base (s.length-1)) =
        Elements.raw e := by
  refine ⟨s.getLast hs,List.getLast?_eq_getLast_of_ne_nil hs,?_⟩
  rw [setValue_of_ne selectIndex_ne_lengthKey]
  apply h.elements
  rw [← List.getLast?_eq_getElem?, List.getLast?_eq_getLast_of_ne_nil hs]

theorem dropIndex (h : m.Stores base s) {index : Nat} (hi : index < s.length) :
    (m.dropIndex base index).Stores base (s.set index none) := by
  refine ⟨?_,?_,?_⟩
  · rw [PointerMemory.length, PointerMemory.dropIndex, nullify,
      getValue_congr (set_of_ne lengthKey_ne_selectIndex), List.length_set]
    exact h.length
  · rw [List.length_set]
    exact h.small
  · intro i e he
    rw [PointerMemory.dropIndex, nullify]
    rw [List.getElem?_set] at he
    split_ifs at he with heq
    · cases he
      rw [heq, set_self]
      rfl
    · rw [set_of_ne (selectIndex_ne (Ne.symm heq))]
      exact h.elements i e he

end Stores

end PointerMemory

namespace PointerMemory.Stores

variable {T : IntType} {base : Bytes} {m m' : PointerMemory} {s : Elements T} {a : ListAction T}

theorem pop (h : m.Stores base s) :
    ∃ m', m.pop base = some (m',(s.getLast?.map Elements.raw).getD []) ∧
      m'.Stores base s.dropLast := by
  rw [PointerMemory.pop, h.length]
  by_cases hs : s = []
  · subst hs
    exact ⟨m,rfl,h⟩
  · obtain ⟨e,he,hm⟩ := h.last hs
    have hpos : ¬s.length = 0 := by simpa using hs
    refine ⟨_,?_,h.dropLast⟩
    show (if s.length = 0 then some (m,[]) else some (_,_)) = _
    rw [if_neg hpos, hm, he]
    rfl

/-- A typed pop decodes the last element, and an empty list's bytes. -/
theorem popValue (h : m.Stores base s) :
    m.popValue T base = match s.getLast? with
      | none => none
      | some e => (Elements.decode e).map fun v =>
        (m.setValue .u32 (lengthKey base) (s.length-1),v) := by
  rw [PointerMemory.popValue, h.length]
  by_cases hs : s = []
  · subst hs
    show (fromBytes T []).bind _ = none
    have hl : ¬([] : Bytes).length = T.width := T.width_pos.ne
    rw [fromBytes, if_neg hl]
    rfl
  · obtain ⟨e,he,hm⟩ := h.last hs
    have hpos : ¬s.length = 0 := by simpa using hs
    show (if s.length = 0 then (fromBytes T []).bind fun v => some (m,v)
      else (getValue T _ _).bind fun v => some (_,v)) = _
    rw [if_neg hpos, getValue_raw hm, he]
    dsimp only
    cases Elements.decode e <;> rfl

/-- An operation that does not slip gives the sequence's result and stores its sequence. -/
theorem step (h : m.Stores base s) (ha : s.Allowed a) (hs : ¬s.Slips a) :
    ∃ m', m.listStep T base a = some (m',(s.act a).2) ∧ m'.Stores base (s.act a).1 := by
  cases a with
  | appendValue v =>
    obtain ⟨m',hm,hst⟩ := h.appendValue v ha
    exact ⟨m',by rw [listStep, hm]; rfl,hst⟩
  | pop =>
    obtain ⟨m',hm,hst⟩ := h.pop
    exact ⟨m',by rw [listStep, hm]; rfl,hst⟩
  | popValue =>
    rw [Elements.Slips, not_or] at hs
    obtain ⟨hne,hdropped⟩ := hs
    obtain ⟨e,he,_⟩ := h.last hne
    refine ⟨_,?_,h.dropLast⟩
    have hd : Elements.decode e = some (Elements.value e) := by
      cases e with
      | some v => rfl
      | none =>
        rw [Elements.decode, if_pos]
        · rfl
        · by_contra hw
          exact hdropped ⟨hw,he⟩
    rw [listStep, h.popValue, he, Elements.act]
    dsimp only
    rw [hd, he]
    rfl
  | dropIndex index => exact ⟨_,rfl,h.dropIndex ha⟩
  | getList => exact ⟨m,by rw [listStep, h.getList]; rfl,h⟩
  | getListValues =>
    have hok : T.width = 1 ∨ none ∉ s := by
      rw [Elements.Slips] at hs
      tauto
    refine ⟨m,?_,h⟩
    rw [listStep, h.getListValues, Elements.mapM_decode hok]
    rfl

/-- An operation that slips panics. -/
theorem slip (h : m.Stores base s) (hs : s.Slips a) : m.listStep T base a = none := by
  cases a with
  | popValue =>
    rw [listStep, h.popValue]
    rcases hs with hnil | ⟨hw,hlast⟩
    · subst hnil
      rfl
    · have hd : Elements.decode (none : Option T.Value) = none := if_neg hw
      rw [hlast]
      dsimp only
      rw [hd]
      rfl
  | getListValues =>
    rw [listStep, h.getListValues, Elements.mapM_decode_eq_none hs.1 hs.2]
    rfl
  | appendValue v => exact absurd hs id
  | pop => exact absurd hs id
  | dropIndex index => exact absurd hs id
  | getList => exact absurd hs id

end PointerMemory.Stores

/-- From an empty list on, the list is the sequence exactly along the operations whose typed reads
find elements of the type's width. -/
theorem pointer_list_stack_iff (T : IntType) (base : Bytes) (m : PointerMemory)
    (hm : m.length base = some 0) (as : List (ListAction T))
    (ha : Abides.Along Elements.act Elements.Allowed [] as) :
    Abides.AgreesAlong (PointerMemory.listStep T base) Elements.act (PointerMemory.Lists base) m []
        as ↔
      Abides.Along Elements.act (fun s a => ¬Elements.Slips s a) [] as := by
  apply Abides.agreesAlong_iff (PointerMemory.Stores base) Elements.Allowed
  · intro m s h
    exact h.lists
  · intro m s a h hall hs
    exact h.step hall hs
  · intro m s a m' h _ hs hstep
    rw [h.slip hs] at hstep
    cases hstep
  · exact ⟨hm,by simp,by simp⟩
  · exact ha

/-- Two elements, of which the second is popped and the first dropped and popped as bytes. -/
theorem pointer_list_stack_two_elements :
    Abides.AgreesAlong (PointerMemory.listStep .u32 [1]) Elements.act (PointerMemory.Lists [1])
      (fun _ => []) [] [.appendValue 5,.appendValue 7,.popValue,.getListValues,.dropIndex 0,.pop] := by
  apply (pointer_list_stack_iff .u32 [1] (fun _ => []) rfl _ ?_).mpr
  · refine ⟨id,id,?_,?_,id,id,trivial⟩
    · simp [Elements.act, Elements.Slips]
    · simp [Elements.act, Elements.Slips]
  · refine ⟨?_,?_,trivial,trivial,?_,trivial,trivial⟩
    · show 0+1<2^32
      decide
    · show 1+1<2^32
      decide
    · show 0 < 1
      decide

/-- A typed pop of the empty list panics. -/
theorem pointer_list_stack_empty_pop :
    ¬∀ as : List (ListAction .u32), Abides.Along Elements.act Elements.Allowed [] as →
      Abides.AgreesAlong (PointerMemory.listStep .u32 [1]) Elements.act (PointerMemory.Lists [1])
        (fun _ => []) [] as := by
  intro h
  obtain ⟨_,m,hm,_⟩ := h [.popValue] ⟨trivial,trivial⟩
  cases hm

end Metashrew
