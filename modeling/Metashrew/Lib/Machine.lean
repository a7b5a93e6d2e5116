import Metashrew.Lib.Parse
import Metashrew.Lib.Slices

/-- How wide the indices of a target are, and whether their overflow panics or wraps. -/
structure Machine where
  bits : Nat
  checked : Bool

/-- Why there is no result: the input is refused, or the run panics. -/
inductive Stop where
  | refused
  | panicked
  deriving DecidableEq, Repr

namespace Machine

open Slices

variable {α β : Type} {m : Machine}

def add (m : Machine) (a b : Nat) : Except Stop Nat :=
  if a+b < 2^m.bits then .ok (a+b)
  else if m.checked then .error .panicked
  else .ok ((a+b)%2^m.bits)

/-- No list takes more than half of the addresses. -/
def Holds (m : Machine) (xs : List α) : Prop := xs.length < 2^(m.bits-1)

instance (m : Machine) (xs : List α) : Decidable (m.Holds xs) :=
  inferInstanceAs (Decidable (xs.length < 2^(m.bits-1)))

/-- The next `n` elements from an index on, and the index behind them. -/
def take (m : Machine) (xs : List α) (start n : Nat) : Except Stop (List α × Nat) :=
  match m.add start n with
  | .error e => .error e
  | .ok stop =>
    match slice xs start stop with
    | none => .error .refused
    | some s => .ok (s,stop)

theorem add_of_lt {a b : Nat} (h : a+b < 2^m.bits) : m.add a b = .ok (a+b) := if_pos h

/-- An index past what it starts at, where nothing overflows. -/
theorem take_append (pre rest : List α) {n : Nat} (h : pre.length+n < 2^m.bits) :
    m.take (pre ++ rest) pre.length n =
      ((Parser.takeN .refused n).run rest).map fun r => (r.1,(pre ++ r.1).length) := by
  rw [take, add_of_lt h]
  dsimp only
  by_cases hn : n ≤ rest.length
  · obtain ⟨s,t,rfl,hs⟩ : ∃ s t, rest = s ++ t ∧ s.length = n :=
      ⟨rest.take n,rest.drop n,(List.take_append_drop n rest).symm,by rw [List.length_take]; omega⟩
    have hslice : slice (pre ++ (s ++ t)) pre.length (pre.length+n) = some s :=
      slice_eq_some_iff.mpr ⟨pre,t,(List.append_assoc pre s t).symm,rfl,by rw [hs]⟩
    rw [hslice, Parser.run_takeN hs, ← hs, ← List.length_append]
    rfl
  · have hslice : slice (pre ++ rest) pre.length (pre.length+n) = none := by
      rw [slice, if_neg]
      rw [List.length_append]
      omega
    rw [hslice, Parser.run_takeN_short (by omega)]
    rfl

/-- Going on by indices is going on in the rest of the list. -/
theorem take_bind {pre rest : List α} {n : Nat} (h : pre.length+n < 2^m.bits)
    {f : List α × Nat → Except Stop β} {q : List α → Parser α Stop β}
    (hf : ∀ s t, rest = s ++ t → s.length = n →
      f (s,(pre ++ s).length) = ((q s).run t).map Prod.fst) :
    (m.take (pre ++ rest) pre.length n >>= f) =
      ((Parser.takeN .refused n >>= q).run rest).map Prod.fst := by
  rw [take_append pre rest h]
  by_cases hn : n ≤ rest.length
  · obtain ⟨s,t,rfl,hs⟩ : ∃ s t, rest = s ++ t ∧ s.length = n :=
      ⟨rest.take n,rest.drop n,(List.take_append_drop n rest).symm,by rw [List.length_take]; omega⟩
    rw [Parser.run_bind_ok (Parser.run_takeN hs t), Parser.run_takeN hs]
    exact hf s t rfl hs
  · have hshort : (Parser.takeN (α := α) Stop.refused n).run rest = .error .refused :=
      Parser.run_takeN_short (by omega)
    rw [Parser.run_bind_error hshort, hshort]
    rfl

theorem take_bind_start {xs : List α} {n : Nat} (h : n < 2^m.bits)
    {f : List α × Nat → Except Stop β} {q : List α → Parser α Stop β}
    (hf : ∀ s t, xs = s ++ t → s.length = n → f (s,s.length) = ((q s).run t).map Prod.fst) :
    (m.take xs 0 n >>= f) = ((Parser.takeN .refused n >>= q).run xs).map Prod.fst := by
  have hbind := take_bind (m := m) (show ([] : List α).length+n < _ by simpa using h) hf
  exact hbind

end Machine
