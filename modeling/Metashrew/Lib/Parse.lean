import Mathlib

/-- A parser takes values off the front of a list, or fails. -/
abbrev Parser (α ε : Type) := StateT (List α) (Except ε)

namespace Parser

variable {α ε β γ : Type}

/-- The next `n` elements. -/
def takeN (e : ε) (n : Nat) : Parser α ε (List α) := fun bs =>
  if n ≤ bs.length then .ok (bs.take n,bs.drop n) else .error e

def fail (e : ε) : Parser α ε β := fun _ => .error e

/-- As many values as counted, one after the other. -/
def repeatN (p : Parser α ε β) : Nat → Parser α ε (List β)
  | 0 => pure []
  | n+1 => do
    let x ← p
    let xs ← repeatN p n
    return x::xs

/-- The parser takes exactly `s` and gives `x`, whatever follows. -/
def Reads (p : Parser α ε β) (s : List α) (x : β) : Prop := ∀ rest, p.run (s ++ rest) = .ok (x,rest)

/-- What the parser gives depends only on what it takes, and there is one way for it to fail. -/
structure Local (p : Parser α ε β) (e : ε) : Prop where
  reads : ∀ bs x rest, p.run bs = .ok (x,rest) → ∃ s, bs = s ++ rest ∧ p.Reads s x
  fails : ∀ bs e', p.run bs = .error e' → e' = e

section Run

variable {p : Parser α ε β} {f : β → Parser α ε γ} {s t bs rest : List α} {x : β} {y : γ}

theorem run_bind_ok (hp : p.run bs = .ok (x,rest)) : (p >>= f).run bs = (f x).run rest := by
  show p.run bs >>= _ = _
  rw [hp]
  rfl

theorem run_bind_error {e : ε} (hp : p.run bs = .error e) : (p >>= f).run bs = .error e := by
  show p.run bs >>= _ = _
  rw [hp]
  rfl

/-- A parser that succeeds went through both its parts. -/
theorem exists_of_run_bind (h : (p >>= f).run bs = .ok (y,rest)) :
    ∃ x mid, p.run bs = .ok (x,mid) ∧ (f x).run mid = .ok (y,rest) := by
  cases hp : p.run bs with
  | error e =>
    rw [run_bind_error hp] at h
    cases h
  | ok r =>
    rw [run_bind_ok hp] at h
    exact ⟨r.1,r.2,rfl,h⟩

theorem run_bind_iff : (p >>= f).run bs = .ok (y,rest) ↔
    ∃ x mid, p.run bs = .ok (x,mid) ∧ (f x).run mid = .ok (y,rest) := by
  constructor
  · exact exists_of_run_bind
  · intro h
    obtain ⟨x,mid,hp,hf⟩ := h
    rw [run_bind_ok hp]
    exact hf

theorem run_pure_iff {x' : β} :
    (pure x : Parser α ε β).run bs = .ok (x',rest) ↔ x = x' ∧ bs = rest := by
  show Except.ok (x,bs) = Except.ok (x',rest) ↔ _
  simp

theorem run_takeN {e : ε} {n : Nat} (h : s.length = n) (rest : List α) :
    (takeN e n).run (s ++ rest) = .ok (s,rest) := by
  have hle : n ≤ (s ++ rest).length := by
    rw [List.length_append]
    omega
  show (if n ≤ (s ++ rest).length then _ else _) = _
  rw [if_pos hle, List.take_left' h, List.drop_left' h]

theorem run_takeN_short {e : ε} {n : Nat} (h : bs.length < n) : (takeN e n).run bs = .error e :=
  if_neg (by omega)

theorem run_takeN_iff {e : ε} {n : Nat} :
    (takeN e n).run bs = .ok (s,rest) ↔ s.length = n ∧ bs = s ++ rest := by
  constructor
  · intro h
    by_cases hn : n ≤ bs.length
    · have hrun : (takeN e n).run bs = .ok (bs.take n,bs.drop n) := if_pos hn
      rw [hrun] at h
      cases h
      refine ⟨?_,(List.take_append_drop n bs).symm⟩
      rw [List.length_take]
      omega
    · rw [run_takeN_short (by omega)] at h
      cases h
  · intro h
    rw [h.2]
    exact run_takeN h.1 rest

theorem run_takeN_one {e : ε} (a : α) (rest : List α) (g : List α → Parser α ε γ) :
    (takeN e 1 >>= g).run (a::rest) = (g [a]).run rest :=
  run_bind_ok (run_takeN (s := [a]) rfl rest)

end Run

section Rules

variable {p : Parser α ε β} {f : β → Parser α ε γ} {s t : List α} {x : β} {y : γ} {e : ε}

theorem Reads.pure (x : β) : Reads (Pure.pure x : Parser α ε β) [] x := fun _ => rfl

theorem Reads.bind (hp : p.Reads s x) (hf : (f x).Reads t y) : (p >>= f).Reads (s ++ t) y := by
  intro rest
  rw [List.append_assoc, run_bind_ok (hp _)]
  exact hf rest

theorem Reads.bind_pure {g : β → γ} (hp : p.Reads s x) :
    (p >>= fun x => Pure.pure (g x)).Reads s (g x) := by
  rw [← List.append_nil s]
  exact hp.bind (.pure _)

theorem Reads.takeN {n : Nat} (h : s.length = n) : Reads (takeN e n) s s := run_takeN h

theorem Reads.takeN_bind {n : Nat} {g : List α → Parser α ε γ} (h : s.length = n)
    (hg : (g s).Reads t y) : (Parser.takeN e n >>= g).Reads (s ++ t) y :=
  (Reads.takeN h).bind hg

theorem Local.pure (x : β) : Local (Pure.pure x : Parser α ε β) e where
  reads bs y rest h := by
    cases h
    exact ⟨[],rfl,.pure x⟩
  fails bs e' h := by cases h

theorem Local.fail : Local (fail e : Parser α ε β) e where
  reads bs x rest h := by cases h
  fails bs e' h := by
    cases h
    rfl

theorem Local.takeN (n : Nat) : Local (takeN e n : Parser α ε (List α)) e where
  reads bs s rest h := by
    obtain ⟨hlen,hsplit⟩ := run_takeN_iff.mp h
    exact ⟨s,hsplit,.takeN hlen⟩
  fails bs e' h := by
    by_cases hn : n ≤ bs.length
    · have hrun : (Parser.takeN e n).run bs = .ok (bs.take n,bs.drop n) := if_pos hn
      rw [hrun] at h
      cases h
    · rw [run_takeN_short (by omega)] at h
      cases h
      rfl

theorem Local.bind (hp : p.Local e) (hf : ∀ x, (f x).Local e) : (p >>= f).Local e where
  reads bs y rest h := by
    obtain ⟨x,mid,h1,h2⟩ := exists_of_run_bind h
    obtain ⟨s,rfl,hs⟩ := hp.reads bs x mid h1
    obtain ⟨t,rfl,ht⟩ := (hf x).reads mid y rest h2
    exact ⟨s ++ t,(List.append_assoc s t rest).symm,hs.bind ht⟩
  fails bs e' h := by
    cases hrun : p.run bs with
    | error e'' =>
      rw [run_bind_error hrun] at h
      cases h
      exact hp.fails bs e' hrun
    | ok r =>
      rw [run_bind_ok hrun] at h
      exact (hf r.1).fails r.2 e' h

theorem Local.repeatN (hp : p.Local e) (n : Nat) : (p.repeatN n).Local e := by
  induction n with
  | zero => exact .pure []
  | succ n ih =>
    apply hp.bind
    intro x
    apply ih.bind
    intro xs
    exact .pure (x::xs)

theorem Reads.repeatN {enc : β → List α} {xs : List β} (h : ∀ x ∈ xs, p.Reads (enc x) x) :
    (p.repeatN xs.length).Reads (xs.flatMap enc) xs := by
  induction xs with
  | nil => exact .pure []
  | cons x xs ih =>
    have hxs := ih fun y hy => h y (List.mem_cons_of_mem _ hy)
    rw [List.flatMap_cons, List.length_cons]
    apply (h x List.mem_cons_self).bind
    exact hxs.bind_pure

/-- No strict beginning of what a parser reads is accepted. -/
theorem Local.run_prefix (hp : p.Local e) (hs : p.Reads s x) (ht : t <+: s) (hne : t ≠ s) :
    p.run t = .error e := by
  cases h : p.run t with
  | error e' => rw [hp.fails t e' h]
  | ok r =>
    obtain ⟨u,rfl,hu⟩ := hp.reads t r.1 r.2 h
    obtain ⟨v,rfl⟩ := ht
    have h1 := hs []
    rw [List.append_nil, List.append_assoc, hu (r.2 ++ v)] at h1
    have h2 : r.2 ++ v = [] := congrArg Prod.snd (Except.ok.inj h1)
    obtain ⟨hr,rfl⟩ := List.append_eq_nil_iff.mp h2
    exact absurd (List.append_nil _).symm hne

/-- Another way to fail is not met. -/
theorem Local.map_ne {e' : ε} {g : β × List α → γ} (hp : p.Local e) (hne : e' ≠ e) (bs : List α) :
    (p.run bs).map g ≠ .error e' := by
  intro h
  cases hrun : p.run bs with
  | ok r =>
    rw [hrun] at h
    cases h
  | error e'' =>
    rw [hrun] at h
    cases h
    exact hne (hp.fails bs e' hrun)

end Rules

end Parser
