import Mathlib

/-! Programs that ask questions and emit outputs, where an answer may depend on the outputs before. -/

inductive Dialogue (κ ν ω τ : Type*) where
  | stop (how : τ)
  | ask (k : κ) (next : ν → Dialogue κ ν ω τ)
  | emit (w : ω) (next : Dialogue κ ν ω τ)

namespace Dialogue

variable {κ ν ω τ : Type*}

/-- A play of a program: the questions with the outputs before each, the outputs, and the end. -/
structure Play (κ ω τ : Type*) where
  points : List (List ω × κ)
  emitted : List ω
  how : τ

/-- The program with the answers that `see` gives, after the outputs `done`. -/
def play (see : List ω → κ → ν) : List ω → Dialogue κ ν ω τ → Play κ ω τ
  | _, .stop how => ⟨[],[],how⟩
  | done, .ask k next =>
    let p := play see done (next (see done k))
    { p with points := (done,k)::p.points }
  | done, .emit w next =>
    let p := play see (done ++ [w]) next
    { p with emitted := w::p.emitted }

/-- The questions of a play with their answers. -/
def Play.answers (see : List ω → κ → ν) (p : Play κ ω τ) : List (κ × ν) :=
  p.points.map fun q => (q.2,see q.1 q.2)

/-- Every output, whatever the answers are, satisfies the predicate. -/
def Emits (P : ω → Prop) : Dialogue κ ν ω τ → Prop
  | .stop _ => True
  | .ask _ next => ∀ v, Emits P (next v)
  | .emit w next => P w ∧ Emits P next

variable {see see' : List ω → κ → ν} {done : List ω} {d : Dialogue κ ν ω τ}

theorem emitted_of_emits {P : ω → Prop} (h : d.Emits P) : ∀ w ∈ (play see done d).emitted, P w := by
  induction d generalizing done with
  | stop how =>
    intro w hw
    cases hw
  | ask k next ih => exact ih _ (h _)
  | emit w next ih =>
    intro w' hw
    rw [play, List.mem_cons] at hw
    rcases hw with rfl | hw
    · exact h.1
    · exact ih h.2 w' hw

/-- A play depends only on the answers to its own questions. -/
theorem play_congr (h : ∀ q ∈ (play see done d).points, see' q.1 q.2 = see q.1 q.2) :
    play see' done d = play see done d := by
  induction d generalizing done with
  | stop how => rfl
  | ask k next ih =>
    have hk := h (done,k) List.mem_cons_self
    rw [play, play, hk, ih _ fun q hq => h q (List.mem_cons_of_mem _ hq)]
  | emit w next ih => rw [play, play, ih h]

/-- Two plays get the same answers exactly when the answers to the questions of one are the same. -/
theorem answers_eq_iff :
    (play see' done d).answers see' = (play see done d).answers see ↔
      ∀ q ∈ (play see done d).points, see' q.1 q.2 = see q.1 q.2 := by
  constructor
  · intro h
    induction d generalizing done with
    | stop how =>
      intro q hq
      cases hq
    | ask k next ih =>
      rw [play, play, Play.answers, Play.answers, List.map_cons, List.map_cons, List.cons.injEq,
        Prod.mk.injEq] at h
      obtain ⟨⟨_,hk⟩,hrest⟩ := h
      dsimp only at hk hrest
      rw [hk] at hrest
      intro q hq
      rw [play, List.mem_cons] at hq
      rcases hq with rfl | hq
      · exact hk
      · exact ih _ hrest q hq
    | emit w next ih => exact ih h
  · intro h
    rw [play_congr h, Play.answers, Play.answers]
    apply List.map_congr_left
    intro q hq
    rw [h q hq]

end Dialogue
