import Mathlib

namespace Steps

variable {σ α : Type*} {step : σ → α → Option σ} {P Q : σ → α → Prop} {s t : σ}

/-- The states that a system reaches from `s` when each action it takes meets `P`. -/
inductive Run (step : σ → α → Option σ) (P : σ → α → Prop) (s : σ) : σ → Prop where
  | start : Run step P s s
  | next {t t' : σ} {a : α} :
      Run step P s t → P t a → step t a = some t' → Run step P s t'

/-- What holds at the start and is kept by each step holds in every state reached. -/
theorem Run.invariant {I : σ → Prop} (hs : I s)
    (hstep : ∀ t a t', I t → P t a → step t a = some t' → I t') (h : Run step P s t) : I t := by
  induction h with
  | start => exact hs
  | next _ hp ht ih => exact hstep _ _ _ ih hp ht

theorem Run.trans {u : σ} (h : Run step P s t) (h' : Run step P t u) : Run step P s u := by
  induction h' with
  | start => exact h
  | next _ hp ht ih => exact .next ih hp ht

/-- Takes the actions in turn, as long as each of them meets `P` and is enabled. -/
def follow (step : σ → α → Option σ) (P : σ → α → Prop) [∀ s a, Decidable (P s a)] :
    σ → List α → Option σ
  | s, [] => some s
  | s, a::as => if P s a then (step s a).bind fun t => follow step P t as else none

/-- Actions that can be taken in turn are a run. -/
theorem Run.of_follow [∀ s a, Decidable (P s a)] {as : List α}
    (hQ : ∀ s, ∀ a ∈ as, P s a → Q s a) (h : follow step P s as = some t) : Run step Q s t := by
  induction as generalizing s with
  | nil =>
    rw [follow] at h
    cases h
    exact .start
  | cons a as ih =>
    rw [follow] at h
    split_ifs at h with hp
    obtain ⟨s',hs',ht⟩ := Option.bind_eq_some_iff.mp h
    apply Run.trans (Run.next .start (hQ s a List.mem_cons_self hp) hs')
    exact ih (fun s a ha => hQ s a (List.mem_cons_of_mem _ ha)) ht

theorem Run.exists_of_follow [∀ s a, Decidable (P s a)] {as : List α} {p : σ → Bool}
    (hQ : ∀ s, ∀ a ∈ as, P s a → Q s a) (h : (follow step P s as).any p = true) :
    ∃ t, Run step Q s t ∧ p t = true := by
  obtain ⟨t,ht,hp⟩ := (Option.any_eq_true p _).mp h
  exact ⟨t,Run.of_follow hQ ht,hp⟩

end Steps
