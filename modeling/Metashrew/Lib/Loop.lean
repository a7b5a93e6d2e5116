import Mathlib

namespace Loop

variable {σ ρ : Type*}

/-- The results of a `loop` that starts in `s`: a round returns, or leaves the state of the next one.
A loop that goes on forever has none. -/
inductive Returns (round : σ → ρ ⊕ σ) : σ → ρ → Prop where
  | done {s : σ} {r : ρ} : round s = .inl r → Returns round s r
  | next {s s' : σ} {r : ρ} : round s = .inr s' → Returns round s' r → Returns round s r

section Rules

variable {round : σ → ρ ⊕ σ} {s s' : σ} {r r' : ρ}

theorem returns_next_iff (h : round s = .inr s') : Returns round s r ↔ Returns round s' r := by
  constructor
  · intro hr
    cases hr with
    | done hd =>
      rw [h] at hd
      cases hd
    | next hn hr =>
      rw [h] at hn
      cases hn
      exact hr
  · exact .next h

theorem returns_done_iff (h : round s = .inl r) : Returns round s r' ↔ r' = r := by
  constructor
  · intro hr
    cases hr with
    | done hd =>
      rw [h] at hd
      exact (Sum.inl.inj hd).symm
    | next hn _ =>
      rw [h] at hn
      cases hn
  · rintro rfl
    exact .done h

/-- A loop has one result at most. -/
theorem Returns.unique (h : Returns round s r) (h' : Returns round s r') : r = r' := by
  induction h with
  | done hd => exact ((returns_done_iff hd).mp h').symm
  | next hn _ ih => exact ih ((returns_next_iff hn).mp h')

/-- Loop rule: what every round keeps, and what the returning round makes of it. -/
theorem Returns.invariant {I : σ → Prop} {Q : ρ → Prop}
    (hnext : ∀ s s', I s → round s = .inr s' → I s') (hdone : ∀ s r, I s → round s = .inl r → Q r)
    (hs : I s) (h : Returns round s r) : Q r := by
  induction h with
  | done hd => exact hdone _ _ hs hd
  | next hn _ ih => exact ih (hnext _ _ hs hn)

end Rules

end Loop
