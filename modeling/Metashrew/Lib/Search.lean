import Mathlib

namespace Search

variable {ε α : Type*}

/-- Binary search for the last index whose probe yields a value: `left` and `right` delimit the
undecided indices, `best` is the value at `left-1`. `mid` is the midpoint of the source,
`probe` answers with a value to go right and with none to go left. -/
def bisect (mid : Nat → Nat → Except ε Nat) (probe : Nat → Except ε (Option α)) :
    Nat → Nat → Nat → Option α → Except ε (Option α)
  | 0, _, _, best => .ok best
  | fuel+1, left, right, best =>
    if left < right then
      match mid left right with
      | .error e => .error e
      | .ok m =>
        match probe m with
        | .error e => .error e
        | .ok (some v) => bisect mid probe fuel (m+1) right (some v)
        | .ok none => bisect mid probe fuel left m best
    else .ok best

/-- The value before index `i`, and none at the start. -/
def before (val : Nat → α) : Nat → Option α
  | 0 => none
  | i+1 => some (val i)

section Rounds

variable {mid : Nat → Nat → Except ε Nat} {probe : Nat → Except ε (Option α)} {val : Nat → α}
  {n b : Nat}

/-- `right-left` rounds suffice: the search returns the value before the boundary `b` between
the indices that yield a value and those that do not. Only indices from `lo` on matter. -/
theorem bisect_from (lo : Nat) (hmid : ∀ l r, l < r → r ≤ n → mid l r = .ok ((l+r)/2))
    (hyes : ∀ i, lo ≤ i → i < b → probe i = .ok (some (val i)))
    (hno : ∀ i, b ≤ i → i < n → probe i = .ok none) :
    ∀ fuel left right, right-left ≤ fuel → lo ≤ left → left ≤ b → b ≤ right → right ≤ n →
      bisect mid probe fuel left right (before val left) = .ok (before val b) := by
  intro fuel
  induction fuel with
  | zero =>
    intro left right hf hlo hl hr _
    obtain rfl : left=b := by omega
    rfl
  | succ fuel ih =>
    intro left right hf hlo hl hr hn
    unfold bisect
    by_cases hlt : left<right
    · rw [if_pos hlt, hmid left right hlt hn]
      have h1 : left≤(left+right)/2 := by omega
      have h2 : (left+right)/2<right := by omega
      by_cases hb : (left+right)/2<b
      · simp only [hyes _ (by omega) hb]
        exact ih ((left+right)/2+1) right (by omega) (by omega) (by omega) hr hn
      · simp only [hno _ (by omega) (by omega : (left+right)/2<n)]
        exact ih left ((left+right)/2) (by omega) hlo hl (by omega) (by omega)
    · rw [if_neg hlt]
      obtain rfl : left=b := by omega
      rfl

/-- Of the midpoints towards the end `n`, the first one that is not below `a` is not below `c`. -/
def skipsGap (a c n : Nat) : Nat → Nat → Bool
  | 0, _ => false
  | fuel+1, left =>
    if (left+n)/2 < a then skipsGap a c n fuel ((left+n)/2+1) else c ≤ (left+n)/2

/-- An empty gap is passed over. -/
theorem skipsGap_self {c n : Nat} (hc : c < n) : ∀ fuel left, n-left ≤ fuel → left ≤ c →
    skipsGap c c n fuel left = true := by
  intro fuel
  induction fuel with
  | zero =>
    intro left hf hl
    omega
  | succ fuel ih =>
    intro left hf hl
    rw [skipsGap]
    split_ifs with hm
    · exact ih ((left+n)/2+1) (by omega) (by omega)
    · exact decide_eq_true (not_lt.mp hm)

/-- With a gap from `a` to `c` among the indices that yield a value, the search ends behind the last
index or before the gap. -/
theorem bisect_gap {a c : Nat} (hac : a ≤ c) (hc : c < n)
    (hmid : ∀ l r, l < r → r ≤ n → mid l r = .ok ((l+r)/2))
    (hbelow : ∀ i, i < a → probe i = .ok (some (val i)))
    (hgap : ∀ i, a ≤ i → i < c → probe i = .ok none)
    (habove : ∀ i, c ≤ i → i < n → probe i = .ok (some (val i))) :
    ∀ fuel left, n-left ≤ fuel → left ≤ a →
      bisect mid probe fuel left n (before val left) =
        .ok (before val (if skipsGap a c n fuel left then n else a)) := by
  intro fuel
  induction fuel with
  | zero =>
    intro left hf hl
    omega
  | succ fuel ih =>
    intro left hf hl
    have hlt : left<n := by omega
    unfold bisect skipsGap
    rw [if_pos hlt, hmid left n hlt le_rfl]
    have h1 : left≤(left+n)/2 := by omega
    have h2 : (left+n)/2<n := by omega
    by_cases hm : (left+n)/2<a
    · simp only [hbelow _ hm, if_pos hm]
      exact ih ((left+n)/2+1) (by omega) (by omega)
    · rw [if_neg hm]
      by_cases hmc : (left+n)/2<c
      · have hge : ¬c≤(left+n)/2 := by omega
        simp only [hgap _ (by omega) hmc, hge, decide_false, Bool.false_eq_true, if_false]
        refine bisect_from (n := (left+n)/2) left ?_ ?_ ?_ fuel left ((left+n)/2) (by omega) le_rfl hl
          (by omega) le_rfl
        · intro l r hlr hr
          exact hmid l r hlr (by omega)
        · intro i _ hi
          exact hbelow i hi
        · intro i hi hlt
          exact hgap i hi (by omega)
      · have hge : c≤(left+n)/2 := by omega
        simp only [habove _ hge h2, hge, decide_true, if_true]
        refine bisect_from ((left+n)/2+1) hmid ?_ ?_ fuel ((left+n)/2+1) n (by omega) le_rfl (by omega)
          le_rfl le_rfl
        · intro i hi hlt
          exact habove i (by omega) hlt
        · intro i hi hlt
          omega

end Rounds

section Limit

/-- The bounds that the search for the boundary `b` meets have sums below the limit. -/
def fits (limit b : Nat) : Nat → Nat → Nat → Bool
  | 0, _, _ => true
  | fuel+1, left, right =>
    if left < right then
      decide (left+right < limit) &&
        if (left+right)/2 < b then fits limit b fuel ((left+right)/2+1) right
        else fits limit b fuel left ((left+right)/2)
    else true

theorem fits_of_le {limit n : Nat} (b : Nat) (h : 2*n ≤ limit) (fuel left right : Nat)
    (hr : right ≤ n) : fits limit b fuel left right = true := by
  induction fuel generalizing left right with
  | zero => rfl
  | succ fuel ih =>
    rw [fits]
    split_ifs with hlt hm
    · rw [ih _ _ hr, decide_eq_true (by omega)]
      rfl
    · rw [ih _ _ (by omega), decide_eq_true (by omega)]
      rfl
    · rfl

/-- Towards the end the bounds grow to the length itself. -/
theorem not_fits {limit n : Nat} (h : limit+2 ≤ 2*n) (fuel left : Nat) (hf : n-left ≤ fuel)
    (hl : left < n) : fits limit n fuel left n = false := by
  induction fuel generalizing left with
  | zero => omega
  | succ fuel ih =>
    rw [fits, if_pos hl, if_pos (by omega)]
    by_cases hsum : left+n<limit
    · rw [ih _ (by omega) (by omega), Bool.and_false]
    · rw [decide_eq_false hsum, Bool.false_and]

variable {mid : Nat → Nat → Except ε Nat} {probe : Nat → Except ε (Option α)} {val : Nat → α}
  {n b limit : Nat} {e : ε}

/-- With a midpoint that fails from a limit on, the search finds the value before the boundary when
its bounds stay below the limit. -/
theorem bisect_fits (hmid : ∀ l r, mid l r = if l+r < limit then .ok ((l+r)/2) else .error e)
    (hyes : ∀ i, i < b → probe i = .ok (some (val i)))
    (hno : ∀ i, b ≤ i → i < n → probe i = .ok none) (fuel left right : Nat)
    (hf : right-left ≤ fuel) (hl : left ≤ b) (hr : b ≤ right) (hn : right ≤ n) :
    bisect mid probe fuel left right (before val left) =
      if fits limit b fuel left right then .ok (before val b) else .error e := by
  induction fuel generalizing left right with
  | zero =>
    obtain rfl : left=b := by omega
    rfl
  | succ fuel ih =>
    rw [bisect, fits]
    by_cases hlt : left<right
    · rw [if_pos hlt, if_pos hlt, hmid]
      by_cases hsum : left+right<limit
      · rw [if_pos hsum, decide_eq_true hsum, Bool.true_and]
        dsimp only
        by_cases hb : (left+right)/2<b
        · rw [hyes _ hb, if_pos hb]
          exact ih _ _ (by omega) (by omega) hr hn
        · rw [hno _ (by omega) (by omega), if_neg hb]
          exact ih _ _ (by omega) hl (by omega) (by omega)
      · rw [if_neg hsum, decide_eq_false hsum]
        rfl
    · rw [if_neg hlt, if_neg hlt]
      obtain rfl : left=b := by omega
      rfl

end Limit

end Search
