import Mathlib

/-- The updates of one key, oldest first, each with the version that made it. -/
abbrev History (τ ν : Type*) := List (τ × ν)

namespace Versioned

variable {τ ν : Type*} [LinearOrder τ]

/-- The updates made at versions up to `h`. -/
def upTo (h : τ) (l : History τ ν) : History τ ν := l.filter fun e => e.1≤h

/-- The value a key has at version `h`. -/
def asOf (h : τ) (l : History τ ν) : Option ν := (upTo h l).getLast?.map Prod.snd

/-- Versions never decrease along a history. -/
def Ordered (l : History τ ν) : Prop := l.Pairwise fun a b => a.1≤b.1

@[simp] theorem upTo_nil (h : τ) : upTo h ([] : History τ ν) = [] := rfl

@[simp] theorem asOf_nil (h : τ) : asOf h ([] : History τ ν) = none := rfl

theorem upTo_append (h : τ) (l l' : History τ ν) : upTo h (l ++ l') = upTo h l ++ upTo h l' :=
  List.filter_append ..

theorem mem_upTo {h : τ} {l : History τ ν} {e : τ × ν} : e ∈ upTo h l ↔ e ∈ l ∧ e.1≤h := by
  simp [upTo]

theorem upTo_of_le {h : τ} {l : History τ ν} (hl : ∀ e ∈ l, e.1≤h) : upTo h l = l :=
  List.filter_eq_self.mpr fun e he => by simpa using hl e he

theorem upTo_of_gt {h : τ} {l : History τ ν} (hl : ∀ e ∈ l, h<e.1) : upTo h l = [] :=
  List.filter_eq_nil_iff.mpr fun e he => by simpa using hl e he

theorem upTo_upTo (h h' : τ) (l : History τ ν) : upTo h (upTo h' l) = upTo (min h h') l := by
  simp [upTo, List.filter_filter]

theorem upTo_upTo_of_le {h h' : τ} (hh : h≤h') (l : History τ ν) : upTo h (upTo h' l) = upTo h l := by
  rw [upTo_upTo, min_eq_left hh]

theorem upTo_upTo_of_ge {h h' : τ} (hh : h'≤h) (l : History τ ν) : upTo h (upTo h' l) = upTo h' l := by
  rw [upTo_upTo, min_eq_right hh]

/-- Forgetting what is newer than `h'` does not change a read at `h ≤ h'`. -/
theorem asOf_upTo_of_le {h h' : τ} (hh : h≤h') (l : History τ ν) : asOf h (upTo h' l) = asOf h l := by
  rw [asOf, upTo_upTo_of_le hh, asOf]

theorem asOf_upTo_of_ge {h h' : τ} (hh : h'≤h) (l : History τ ν) : asOf h (upTo h' l) = asOf h' l := by
  rw [asOf, upTo_upTo_of_ge hh, asOf]

theorem asOf_upTo (h h' : τ) (l : History τ ν) : asOf h (upTo h' l) = asOf (min h h') l := by
  rw [asOf, upTo_upTo, asOf]

/-- Forgetting what is newer than `r` is not seen by the reads up to `s` exactly when they all give
the value at `r` from there on. -/
theorem asOf_upTo_eq_iff {r s : τ} {l : History τ ν} :
    (∀ h, asOf h (upTo s (upTo r l)) = asOf h (upTo s l)) ↔
      ∀ h, r<h → h ≤ s → asOf h l = asOf r l := by
  constructor
  · intro hsame h hr hs
    have hh := hsame h
    rw [asOf_upTo_of_le hs, asOf_upTo_of_le hs, asOf_upTo_of_ge (le_of_lt hr)] at hh
    exact hh.symm
  · intro hconst h
    rw [asOf_upTo h s, asOf_upTo h s]
    rcases le_or_gt (min h s) r with hle | hlt
    · exact asOf_upTo_of_le hle l
    · rw [asOf_upTo_of_ge (le_of_lt hlt)]
      exact (hconst _ hlt (min_le_right h s)).symm

theorem asOf_append_of_gt {h : τ} (l : History τ ν) {l' : History τ ν} (hl : ∀ e ∈ l', h<e.1) :
    asOf h (l ++ l') = asOf h l := by
  rw [asOf, upTo_append, upTo_of_gt hl, List.append_nil, asOf]

/-- Updates made at versions up to `h` win over everything before them. -/
theorem asOf_append_of_le {h : τ} (l : History τ ν) {l' : History τ ν} (hl : ∀ e ∈ l', e.1≤h) :
    asOf h (l ++ l') = (l'.getLast?.map Prod.snd).or (asOf h l) := by
  rw [asOf, upTo_append, upTo_of_le hl, List.getLast?_append, asOf]
  cases l'.getLast? <;> rfl

theorem Ordered.nil : Ordered ([] : History τ ν) := List.Pairwise.nil

theorem Ordered.upTo {l : History τ ν} (ho : Ordered l) (h : τ) : Ordered (upTo h l) :=
  List.Pairwise.filter _ ho

theorem Ordered.append {l l' : History τ ν} (ho : Ordered l) (ho' : Ordered l')
    (hle : ∀ a ∈ l, ∀ b ∈ l', a.1≤b.1) : Ordered (l ++ l') :=
  List.pairwise_append.mpr ⟨ho,ho',hle⟩

/-- In an ordered history the updates up to `h` form a prefix. -/
theorem Ordered.upTo_prefix {l : History τ ν} (ho : Ordered l) (h : τ) :
    ∃ rest, l = Versioned.upTo h l ++ rest ∧ ∀ e ∈ rest, h<e.1 := by
  induction l with
  | nil => exact ⟨[],rfl,by simp⟩
  | cons a l ih =>
    obtain ⟨ha,hl⟩ := List.pairwise_cons.mp ho
    obtain ⟨rest,hr,hgt⟩ := ih hl
    by_cases hah : a.1≤h
    · refine ⟨rest,?_,hgt⟩
      have hc : Versioned.upTo h (a::l) = a :: Versioned.upTo h l := by simp [Versioned.upTo, hah]
      rw [hc, List.cons_append, ← hr]
    · have hall : ∀ e ∈ a::l, h<e.1 := by
        intro e he
        rcases List.mem_cons.mp he with rfl | he
        · exact not_le.mp hah
        · exact lt_of_lt_of_le (not_le.mp hah) (ha e he)
      exact ⟨a::l,by rw [upTo_of_gt hall]; rfl,hall⟩

theorem upTo_length_le (h : τ) (l : History τ ν) : (upTo h l).length≤l.length :=
  List.length_filter_le ..

theorem Ordered.getElem_upTo {l : History τ ν} (ho : Ordered l) {h : τ} {i : Nat}
    (hi : i<(Versioned.upTo h l).length) : (Versioned.upTo h l)[i]? = l[i]? := by
  obtain ⟨rest,hr,_⟩ := ho.upTo_prefix h
  conv_rhs => rw [hr]
  rw [List.getElem?_append_left hi]

theorem Ordered.le_of_lt_length {l : History τ ν} (ho : Ordered l) {h : τ} {i : Nat} {e : τ × ν}
    (hi : i<(Versioned.upTo h l).length) (he : l[i]? = some e) : e.1≤h := by
  rw [← ho.getElem_upTo hi] at he
  exact (mem_upTo.mp (List.mem_of_getElem? he)).2

theorem Ordered.gt_of_length_le {l : History τ ν} (ho : Ordered l) {h : τ} {i : Nat} {e : τ × ν}
    (hi : (Versioned.upTo h l).length ≤ i) (he : l[i]? = some e) : h<e.1 := by
  obtain ⟨rest,hr,hgt⟩ := ho.upTo_prefix h
  rw [hr, List.getElem?_append_right hi] at he
  exact hgt e (List.mem_of_getElem? he)

/-- What an update reads back at its own version: the last update there. -/
theorem Ordered.asOf_of_mem {l : History τ ν} (ho : Ordered l) {e : τ × ν} (he : e ∈ l) :
    ∃ e' ∈ l, e'.1 = e.1 ∧ asOf e.1 l = some e'.2 := by
  have hmem : e ∈ Versioned.upTo e.1 l := mem_upTo.mpr ⟨he,le_rfl⟩
  have hne : Versioned.upTo e.1 l ≠ [] := List.ne_nil_of_mem hmem
  have hlast := List.getLast_mem hne
  have hle : e.1 ≤ ((Versioned.upTo e.1 l).getLast hne).1 := by
    rcases List.mem_iff_append.mp hmem with ⟨before,rest,hsplit⟩
    have hord := ho.upTo e.1
    simp only [hsplit] at hord ⊢
    cases rest using List.reverseRecOn with
    | nil => simp
    | append_singleton rest a =>
      have hpair := (List.pairwise_cons.mp (List.pairwise_append.mp hord).2.1).1 a (by simp)
      simpa using hpair
  refine ⟨_,(mem_upTo.mp hlast).1,le_antisymm (mem_upTo.mp hlast).2 hle,?_⟩
  rw [asOf, List.getLast?_eq_getLast_of_ne_nil hne]
  rfl

end Versioned
