import Mathlib

/-! A system with results, whose steps can panic, beside the model of what it should do. -/

namespace Abides

variable {σ τ α ρ : Type*}

/-- The predicate holds of every action in the state of the model before it. -/
def Along (model : τ → α → τ × ρ) (P : τ → α → Prop) : τ → List α → Prop
  | _, [] => True
  | t, a::as => P t a ∧ Along model P (model t a).1 as

/-- The system agrees with the model before and after every action and gives the model's results. -/
def AgreesAlong (step : σ → α → Option (σ × ρ)) (model : τ → α → τ × ρ) (agree : σ → τ → Prop) :
    σ → τ → List α → Prop
  | s, t, [] => agree s t
  | s, t, a::as =>
    agree s t ∧ ∃ s', step s a = some (s',(model t a).2) ∧
      AgreesAlong step model agree s' (model t a).1 as

variable {step : σ → α → Option (σ × ρ)} {model : τ → α → τ × ρ} {agree : σ → τ → Prop}
  {slips : τ → α → Prop}

theorem Along.of_forall {P : τ → α → Prop} (h : ∀ t a, P t a) {t : τ} (as : List α) :
    Along model P t as := by
  induction as generalizing t with
  | nil => trivial
  | cons a as ih => exact ⟨h t a,ih⟩

/-- Agreement along some actions starts with agreement. -/
theorem AgreesAlong.here {s : σ} {t : τ} {as : List α}
    (h : AgreesAlong step model agree s t as) : agree s t := by
  cases as with
  | nil => exact h
  | cons a as => exact h.1

/-- When an action keeps a relation unless it slips, and a slip breaks the agreement or the result,
the system agrees along exactly the actions that do not slip. -/
theorem agreesAlong_iff (R : σ → τ → Prop) (allowed : τ → α → Prop) (hR : ∀ s t, R s t → agree s t)
    (hkeep : ∀ s t a, R s t → allowed t a → ¬slips t a →
      ∃ s', step s a = some (s',(model t a).2) ∧ R s' (model t a).1)
    (hslip : ∀ s t a s', R s t → allowed t a → slips t a →
      step s a = some (s',(model t a).2) → ¬agree s' (model t a).1)
    {s : σ} {t : τ} (h : R s t) {as : List α} (ha : Along model allowed t as) :
    AgreesAlong step model agree s t as ↔ Along model (fun t a => ¬slips t a) t as := by
  induction as generalizing s t with
  | nil => exact iff_of_true (hR s t h) trivial
  | cons a as ih =>
    obtain ⟨hall,hrest⟩ := ha
    rw [AgreesAlong, Along]
    constructor
    · intro hagree
      obtain ⟨_,s',hs',hnext⟩ := hagree
      have hn : ¬slips t a := fun hs => hslip s t a s' h hall hs hs' hnext.here
      obtain ⟨s'',hs'',hR'⟩ := hkeep s t a h hall hn
      rw [hs'] at hs''
      cases hs''
      exact ⟨hn,(ih hR' hrest).mp hnext⟩
    · intro hspares
      obtain ⟨hn,hnext⟩ := hspares
      obtain ⟨s',hs',hR'⟩ := hkeep s t a h hall hn
      exact ⟨hR s t h,s',hs',(ih hR' hrest).mpr hnext⟩

end Abides
