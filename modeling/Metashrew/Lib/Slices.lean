import Mathlib

namespace Slices

variable {α : Type*}

/-- The elements from `start` to `stop`; `none` is an access out of bounds. -/
def slice (xs : List α) (start stop : Nat) : Option (List α) :=
  if start ≤ stop ∧ stop ≤ xs.length then some ((xs.drop start).take (stop-start)) else none

theorem slice_of_le (xs : List α) {start stop : Nat} (h1 : start ≤ stop) (h2 : stop ≤ xs.length) :
    slice xs start stop = some ((xs.drop start).take (stop-start)) := if_pos ⟨h1,h2⟩

/-- A slice is the middle of the list, and where it stands is told by its bounds. -/
theorem slice_eq_some_iff {xs ys : List α} {start stop : Nat} :
    slice xs start stop = some ys ↔
      ∃ pre post, xs = pre ++ ys ++ post ∧ start = pre.length ∧ stop = start+ys.length := by
  constructor
  · intro h
    by_cases hb : start ≤ stop ∧ stop ≤ xs.length
    · rw [slice_of_le xs hb.1 hb.2, Option.some_inj] at h
      have hl : ys.length = stop-start := by
        rw [← h, List.length_take, List.length_drop]
        omega
      refine ⟨xs.take start,(xs.drop start).drop (stop-start),?_,?_,by omega⟩
      · rw [← h, List.append_assoc, List.take_append_drop, List.take_append_drop]
      · rw [List.length_take]
        omega
    · rw [slice, if_neg hb] at h
      exact absurd h (Option.some_ne_none _).symm
  · intro h
    obtain ⟨pre,post,rfl,rfl,rfl⟩ := h
    have hl : (pre ++ ys ++ post).length = pre.length+ys.length+post.length := by
      rw [List.length_append, List.length_append]
    rw [slice_of_le _ (by omega) (by omega), List.append_assoc, List.drop_left, Nat.add_sub_cancel_left,
      List.take_left]

/-- A list begins its own continuation of `p` exactly when it repeats `p`. -/
theorem prefix_append_self_iff {p v : List α} (hp : 0 < p.length) :
    v <+: p ++ v ↔ ∀ i < v.length, v[i]? = p[i%p.length]? := by
  rw [List.prefix_iff_getElem?]
  constructor
  · intro h i
    induction i using Nat.strong_induction_on with
    | _ i ih =>
      intro hi
      have hv := h i hi
      by_cases hlt : i < p.length
      · rw [List.getElem?_append_left hlt] at hv
        rw [Nat.mod_eq_of_lt hlt, hv, List.getElem?_eq_getElem hi]
      · rw [List.getElem?_append_right (by omega)] at hv
        rw [List.getElem?_eq_getElem hi, ← hv, ih (i-p.length) (by omega) (by omega),
          Nat.mod_eq_sub_mod (by omega : i ≥ p.length)]
  · intro h i hi
    rw [← List.getElem?_eq_getElem hi, h i hi]
    by_cases hlt : i < p.length
    · rw [List.getElem?_append_left hlt, Nat.mod_eq_of_lt hlt]
    · rw [List.getElem?_append_right (by omega), h (i-p.length) (by omega),
        Nat.mod_eq_sub_mod (by omega : i ≥ p.length)]

/-- No value is written as the beginning of another. -/
def PrefixFree {β : Type*} (f : β → List α) : Prop :=
  ∀ x y s t, f x ++ s = f y ++ t → x = y ∧ s = t

/-- Of two lists that are written alike the shorter one begins the longer one. -/
theorem PrefixFree.flatMap {β : Type*} {f : β → List α} (hf : PrefixFree f) {xs ys : List β}
    {s t : List α} (h : xs.flatMap f ++ s = ys.flatMap f ++ t) (hle : ys.length ≤ xs.length) :
    ∃ rest, xs = ys ++ rest ∧ rest.flatMap f ++ s = t := by
  induction ys generalizing xs with
  | nil => exact ⟨xs,rfl,h⟩
  | cons y ys ih =>
    cases xs with
    | nil => cases hle
    | cons x xs =>
      rw [List.flatMap_cons, List.flatMap_cons, List.append_assoc, List.append_assoc] at h
      obtain ⟨rfl,htail⟩ := hf x y _ _ h
      obtain ⟨rest,rfl,hrest⟩ := ih htail (Nat.le_of_succ_le_succ hle)
      exact ⟨rest,rfl,hrest⟩

end Slices
