import Mathlib

namespace Durable

universe u

variable {σ ε ι : Type*} {α β : Type u}

/-- What a program does from one state: the durable states its atomic writes pass through, oldest
first, and its result. -/
structure Trace (σ ε α : Type*) where
  states : List σ
  result : Except ε α

/-- A program that makes atomic writes to a durable state. -/
structure Prog (σ ε α : Type*) where
  run : σ → Trace σ ε α

/-- The durable state at the end. -/
def Trace.final (s : σ) (t : Trace σ ε α) : σ := t.states.getLastD s

namespace Prog

def pure (a : α) : Prog σ ε α := ⟨fun _ => ⟨[],.ok a⟩⟩

def bind (p : Prog σ ε α) (f : α → Prog σ ε β) : Prog σ ε β where
  run s :=
    match (p.run s).result with
    | .error e => ⟨(p.run s).states,.error e⟩
    | .ok a =>
      let t := (f a).run ((p.run s).final s)
      ⟨(p.run s).states ++ t.states,t.result⟩

instance : Monad (Prog σ ε) where
  pure := pure
  bind := bind

/-- A read of the durable state. -/
def read (f : σ → α) : Prog σ ε α := ⟨fun s => ⟨[],.ok (f s)⟩⟩

/-- One atomic write. -/
def modify (f : σ → σ) : Prog σ ε Unit := ⟨fun s => ⟨[f s],.ok ()⟩⟩

def fail (e : ε) : Prog σ ε α := ⟨fun _ => ⟨[],.error e⟩⟩

/-- Runs a program and hands its error on as a value. -/
def attempt (p : Prog σ ε α) : Prog σ ε (Except ε α) :=
  ⟨fun s => ⟨(p.run s).states,.ok (p.run s).result⟩⟩

/-- The rounds of a loop, one for each element. -/
def forEach : List ι → (ι → Prog σ ε Unit) → Prog σ ε Unit
  | [], _ => pure ()
  | x::xs, f => bind (f x) fun _ => forEach xs f

/-- The durable state when the program stops. -/
def finalState (p : Prog σ ε α) (s : σ) : σ := (p.run s).final s

/-- A complete run: the result and the final state, or the error. -/
def exec (p : Prog σ ε α) (s : σ) : Except ε (α × σ) :=
  match (p.run s).result with
  | .ok a => .ok (a,p.finalState s)
  | .error e => .error e

/-- A crash between two atomic writes: `j` of them are durable, at least one is not. -/
def CrashAfter (p : Prog σ ε α) (s : σ) (j : Nat) (s' : σ) : Prop :=
  j<(p.run s).states.length ∧ (s::(p.run s).states)[j]? = some s'

@[simp] theorem run_pure (a : α) (s : σ) : (Pure.pure a : Prog σ ε α).run s = ⟨[],.ok a⟩ := rfl

@[simp] theorem run_read (f : σ → α) (s : σ) :
    (read f : Prog σ ε α).run s = ⟨[],.ok (f s)⟩ := rfl

@[simp] theorem run_modify (f : σ → σ) (s : σ) :
    (modify f : Prog σ ε Unit).run s = ⟨[f s],.ok ()⟩ := rfl

@[simp] theorem run_fail (e : ε) (s : σ) : (fail e : Prog σ ε α).run s = ⟨[],.error e⟩ := rfl

theorem run_bind_ok {p : Prog σ ε α} {f : α → Prog σ ε β} {s : σ} {ss : List σ} {a : α}
    (h : p.run s = ⟨ss,.ok a⟩) : (p >>= f).run s =
      ⟨ss ++ ((f a).run (ss.getLastD s)).states,((f a).run (ss.getLastD s)).result⟩ := by
  change (bind p f).run s = _
  simp only [bind, h]
  rfl

theorem run_bind_error {p : Prog σ ε α} {f : α → Prog σ ε β} {s : σ} {ss : List σ} {e : ε}
    (h : p.run s = ⟨ss,.error e⟩) : (p >>= f).run s = ⟨ss,.error e⟩ := by
  change (bind p f).run s = _
  simp only [bind, h]

/-- A program that writes nothing leaves no trace before the rest. -/
theorem run_bind_quiet {p : Prog σ ε α} {f : α → Prog σ ε β} {s : σ} {a : α}
    (h : p.run s = ⟨[],.ok a⟩) : (p >>= f).run s = (f a).run s := by
  rw [run_bind_ok h]
  rfl

@[simp] theorem run_read_bind (r : σ → α) (f : α → Prog σ ε β) (s : σ) :
    (read r >>= f).run s = (f (r s)).run s := rfl

@[simp] theorem run_pure_bind (a : α) (f : α → Prog σ ε β) (s : σ) :
    (Pure.pure a >>= f : Prog σ ε β).run s = (f a).run s := rfl

theorem run_bind_write {p : Prog σ ε α} {f : α → Prog σ ε β} {s s' : σ} {a : α}
    (h : p.run s = ⟨[s'],.ok a⟩) :
    (p >>= f).run s = ⟨s' :: ((f a).run s').states,((f a).run s').result⟩ :=
  run_bind_ok h

theorem finalState_eq {p : Prog σ ε α} {s : σ} {ss : List σ} {r : Except ε α}
    (h : p.run s = ⟨ss,r⟩) : p.finalState s = ss.getLastD s := by
  rw [finalState, h]
  rfl

theorem exec_ok {p : Prog σ ε α} {s : σ} {ss : List σ} {a : α} (h : p.run s = ⟨ss,.ok a⟩) :
    p.exec s = .ok (a,ss.getLastD s) := by
  rw [exec, finalState_eq h, h]

theorem run_attempt {p : Prog σ ε α} {s : σ} {ss : List σ} {r : Except ε α} (h : p.run s = ⟨ss,r⟩) :
    (attempt p).run s = ⟨ss,.ok r⟩ := by
  simp only [attempt, h]

theorem exec_error {p : Prog σ ε α} {s : σ} {ss : List σ} {e : ε} (h : p.run s = ⟨ss,.error e⟩) :
    p.exec s = .error e := by
  rw [exec, h]

theorem exec_result {p : Prog σ ε α} {s s' : σ} {a : α} (h : p.exec s = .ok (a,s')) :
    (p.run s).result = .ok a ∧ p.finalState s = s' := by
  rw [exec] at h
  cases hr : (p.run s).result with
  | error e =>
    rw [hr] at h
    cases h
  | ok b =>
    rw [hr] at h
    cases h
    exact ⟨rfl,rfl⟩

/-- The state after all writes is the final one. -/
theorem getElem?_getLastD {s : σ} {ss : List σ} : (s::ss)[ss.length]? = some (ss.getLastD s) := by
  induction ss generalizing s with
  | nil => rfl
  | cons a ss ih =>
    rw [List.length_cons, List.getElem?_cons_succ, ih]
    cases ss <;> rfl

/-- Loop rule. When every round makes one write and carries the invariant from the elements done
to one more, the loop makes one write for each element, and the invariant holds of the elements
done at every point between two writes. -/
theorem forEach_spec {f : ι → Prog σ ε Unit} {I : List ι → σ → Prop} (xs : List ι)
    (hstep : ∀ done x rest s, xs = done ++ x::rest → I done s →
      ∃ s', (f x).run s = ⟨[s'],.ok ()⟩ ∧ I (done ++ [x]) s') (s : σ) (h0 : I [] s) :
    ∃ ss, (forEach xs f).run s = ⟨ss,.ok ()⟩ ∧ ss.length = xs.length ∧
      ∀ j s', (s::ss)[j]? = some s' → I (xs.take j) s' := by
  induction xs generalizing s I with
  | nil =>
    refine ⟨[],rfl,rfl,?_⟩
    intro j s' hj
    cases j with
    | zero => cases hj; exact h0
    | succ j => simp at hj
  | cons x xs ih =>
    obtain ⟨s1,hf,h1⟩ := hstep [] x xs s rfl h0
    obtain ⟨ss,hss,hlen,hinv⟩ := ih (I := fun done => I (x::done))
      (fun done y rest t ht hI => by
        have hx : x::xs = (x::done) ++ y::rest := by rw [ht, List.cons_append]
        simpa using hstep (x::done) y rest t hx hI) s1 h1
    refine ⟨s1::ss,?_,by simp [hlen],?_⟩
    · change (f x >>= fun _ => forEach xs f).run s = _
      rw [run_bind_write hf, hss]
    · intro j s' hj
      cases j with
      | zero => cases hj; exact h0
      | succ j => exact hinv j s' (by simpa using hj)

theorem forEach_map {κ : Type*} (g : κ → ι) (xs : List κ) (f : ι → Prog σ ε Unit) :
    forEach (xs.map g) f = forEach xs fun x => f (g x) := by
  induction xs with
  | nil => rfl
  | cons x xs ih => rw [List.map_cons, forEach, forEach, ih]

/-- Every write of the program keeps `P`. -/
def Preserves (P : σ → Prop) (p : Prog σ ε α) : Prop := ∀ s, P s → ∀ s' ∈ (p.run s).states, P s'

namespace Preserves

variable {P : σ → Prop}

theorem pure (a : α) : Preserves P (Pure.pure a : Prog σ ε α) := fun _ _ _ h =>
  absurd h List.not_mem_nil

theorem read (f : σ → α) : Preserves P (Prog.read f : Prog σ ε α) := fun _ _ _ h =>
  absurd h List.not_mem_nil

theorem fail (e : ε) : Preserves P (Prog.fail e : Prog σ ε α) := fun _ _ _ h =>
  absurd h List.not_mem_nil

theorem modify {f : σ → σ} (hf : ∀ s, P s → P (f s)) :
    Preserves P (Prog.modify f : Prog σ ε Unit) := by
  intro s hs s' h
  rw [run_modify, List.mem_singleton] at h
  rw [h]
  exact hf s hs

theorem final {p : Prog σ ε α} (hp : Preserves P p) {s : σ} (hs : P s) : P (p.finalState s) := by
  rw [finalState, Trace.final]
  rcases List.eq_nil_or_concat (p.run s).states with h | ⟨ss,a,h⟩
  · rw [h]
    exact hs
  · rw [h, List.concat_eq_append, List.getLastD_concat]
    exact hp s hs a (by rw [h, List.concat_eq_append]; simp)

theorem bind {p : Prog σ ε α} {f : α → Prog σ ε β} (hp : Preserves P p)
    (hf : ∀ s a, P s → (p.run s).result = .ok a → Preserves P (f a)) : Preserves P (p >>= f) := by
  intro s hs s' h
  cases hr : p.run s with
  | mk ss r =>
    cases r with
    | error e =>
      rw [run_bind_error hr] at h
      exact hp s hs s' (by rw [hr]; exact h)
    | ok a =>
      rw [run_bind_ok hr] at h
      rcases List.mem_append.mp h with h | h
      · exact hp s hs s' (by rw [hr]; exact h)
      · have hend := hp.final hs
        rw [finalState_eq hr] at hend
        exact hf s a hs (by rw [hr]) _ hend s' h

theorem forEach {f : ι → Prog σ ε Unit} {xs : List ι} (hf : ∀ x ∈ xs, Preserves P (f x)) :
    Preserves P (Prog.forEach xs f) := by
  induction xs with
  | nil => exact pure ()
  | cons x xs ih =>
    exact bind (hf x (by simp)) fun _ _ _ _ => ih fun y hy => hf y (by simp [hy])

end Preserves

theorem exec_bind {p : Prog σ ε α} {f : α → Prog σ ε β} {s t : σ} {a : α}
    (h : p.exec s = .ok (a,t)) : (p >>= f).exec s = (f a).exec t := by
  cases hr : p.run s with
  | mk ss r =>
    cases r with
    | error e =>
      rw [exec_error hr] at h
      cases h
    | ok a' =>
      rw [exec_ok hr] at h
      cases h
      cases hf : (f a).run (ss.getLastD s) with
      | mk ts r' =>
        have hb := run_bind_ok (f := f) hr
        rw [hf] at hb
        cases r' with
        | error e => rw [exec_error hb, exec_error hf]
        | ok b =>
          rw [exec_ok hb, exec_ok hf]
          simp [List.getLastD_eq_getLast?, List.getLast?_append, Option.getD_or]

theorem exec_bind_ok {p : Prog σ ε α} {f : α → Prog σ ε β} {s s' : σ} {b : β}
    (h : (p >>= f).exec s = .ok (b,s')) :
    ∃ a t, p.exec s = .ok (a,t) ∧ (f a).exec t = .ok (b,s') := by
  cases hp : p.exec s with
  | error e =>
    cases hr : p.run s with
    | mk ss r =>
      cases r with
      | error e' =>
        rw [exec_error (run_bind_error hr)] at h
        cases h
      | ok a =>
        rw [exec_ok hr] at hp
        cases hp
  | ok at_ =>
    rw [exec_bind hp] at h
    exact ⟨at_.1,at_.2,rfl,h⟩

/-- What every write keeps holds at the end of a complete run. -/
theorem Preserves.exec {P : σ → Prop} {p : Prog σ ε α} (hp : Preserves P p) {s s' : σ} {a : α}
    (hs : P s) (h : p.exec s = .ok (a,s')) : P s' := by
  have hend := hp.final hs
  rw [Prog.exec] at h
  split at h
  · cases h
    exact hend
  · cases h

/-- The program never fails. -/
def Total (p : Prog σ ε α) : Prop := ∀ s, ∃ a, (p.run s).result = .ok a

namespace Total

theorem pure (a : α) : Total (Pure.pure a : Prog σ ε α) := fun _ => ⟨a,rfl⟩

theorem read (f : σ → α) : Total (Prog.read f : Prog σ ε α) := fun s => ⟨f s,rfl⟩

theorem modify (f : σ → σ) : Total (Prog.modify f : Prog σ ε Unit) := fun _ => ⟨(),rfl⟩

theorem bind {p : Prog σ ε α} {f : α → Prog σ ε β} (hp : Total p) (hf : ∀ a, Total (f a)) :
    Total (p >>= f) := by
  intro s
  obtain ⟨a,ha⟩ := hp s
  cases hr : p.run s with
  | mk ss r =>
    rw [hr] at ha
    obtain rfl : r = .ok a := ha
    rw [run_bind_ok hr]
    exact hf a _

theorem forEach {f : ι → Prog σ ε Unit} (hf : ∀ x, Total (f x)) (xs : List ι) :
    Total (Prog.forEach xs f) := by
  induction xs with
  | nil => exact pure ()
  | cons x xs ih => exact bind (hf x) fun _ => ih

theorem exec {p : Prog σ ε α} (hp : Total p) (s : σ) : ∃ a s', p.exec s = .ok (a,s') := by
  obtain ⟨a,ha⟩ := hp s
  exact ⟨a,p.finalState s,by rw [Prog.exec, ha]⟩

end Total

/-- Between any two writes there is a crash. -/
theorem crashAfter_succ {p : Prog σ ε α} {s : σ} {j : Nat} (h : j+1 < (p.run s).states.length) :
    p.CrashAfter s (j+1) (p.run s).states[j] :=
  ⟨h,List.getElem?_cons_succ.trans (List.getElem?_eq_getElem _)⟩

/-- A crash of a run whose last write is `t`. -/
theorem CrashAfter.before_last {p : Prog σ ε α} {s s' t : σ} {ss : List σ} {r : Except ε α} {j : Nat}
    (h : p.run s = ⟨ss ++ [t],r⟩) (hc : p.CrashAfter s j s') :
    j ≤ ss.length ∧ (s::ss)[j]? = some s' := by
  obtain ⟨hlt,hget⟩ := hc
  rw [h] at hlt hget
  rw [List.length_append, List.length_singleton] at hlt
  rw [← List.cons_append, List.getElem?_append_left (by simpa using hlt)] at hget
  exact ⟨by omega,hget⟩

/-- Any number of interrupted runs in a row. -/
def Interrupted (p : Prog σ ε α) : σ → σ → Prop :=
  Relation.ReflTransGen fun s s' => ∃ j, CrashAfter p s j s'

/-- What every single crash keeps, every sequence of crashes keeps. -/
theorem Interrupted.invariant {p : Prog σ ε α} {I : σ → Prop}
    (hcrash : ∀ s j s', I s → CrashAfter p s j s' → I s') {s s' : σ} (h0 : I s)
    (h : Interrupted p s s') : I s' := by
  induction h with
  | refl => exact h0
  | tail _ hstep ih =>
    obtain ⟨j,hj⟩ := hstep
    exact hcrash _ j _ ih hj

/-- What a sequence of programs passes through, one of the two passes through. -/
theorem mem_states_bind {p : Prog σ ε α} {f : α → Prog σ ε β} {s t : σ}
    (h : t ∈ ((p >>= f).run s).states) :
    t ∈ (p.run s).states ∨ ∃ a s', p.exec s = .ok (a,s') ∧ t ∈ ((f a).run s').states := by
  cases hr : p.run s with
  | mk ss r =>
    cases r with
    | error e =>
      rw [run_bind_error hr] at h
      exact .inl h
    | ok a =>
      rw [run_bind_ok hr] at h
      rcases List.mem_append.mp h with h | h
      · exact .inl h
      · exact .inr ⟨a,_,exec_ok hr,h⟩

theorem finalState_mem (p : Prog σ ε α) (s : σ) :
    p.finalState s = s ∧ (p.run s).states = [] ∨ p.finalState s ∈ (p.run s).states := by
  rw [finalState, Trace.final]
  rcases List.eq_nil_or_concat (p.run s).states with hs | ⟨ss,u,hs⟩
  · rw [hs]
    exact .inl ⟨rfl,rfl⟩
  · rw [hs, List.concat_eq_append, List.getLastD_concat]
    exact .inr (by simp)

/-- A complete run ends where it began or in one of its states. -/
theorem mem_states_exec {p : Prog σ ε α} {a : α} {s t : σ} (h : p.exec s = .ok (a,t)) :
    t = s ∨ t ∈ (p.run s).states := by
  obtain ⟨_,rfl⟩ := exec_result h
  exact (finalState_mem p s).imp_left And.left

/-- When every round fails without a write or makes one write and carries the invariant to one more
element, each state of the loop has it for the elements done. -/
theorem forEach_states {f : ι → Prog σ ε Unit} {I : List ι → σ → Prop} (xs : List ι)
    (hstep : ∀ done x s, I done s → (∃ e, (f x).run s = ⟨[],.error e⟩) ∨
      ∃ s', (f x).run s = ⟨[s'],.ok ()⟩ ∧ I (done ++ [x]) s') {s t : σ} (h0 : I [] s)
    (h : t ∈ ((forEach xs f).run s).states) : ∃ done, done <+: xs ∧ I done t := by
  induction xs generalizing s I with
  | nil => exact absurd h List.not_mem_nil
  | cons x xs ih =>
    change t ∈ ((f x >>= fun _ => forEach xs f).run s).states at h
    rcases hstep [] x s h0 with ⟨e,he⟩ | ⟨s',hs,hI⟩
    · rw [run_bind_error he] at h
      exact absurd h List.not_mem_nil
    · rw [run_bind_write hs] at h
      rcases List.mem_cons.mp h with rfl | h
      · exact ⟨[x],by simp,hI⟩
      · obtain ⟨done,hpre,ht⟩ := ih (I := fun done => I (x::done))
          (fun done y u hu => by simpa using hstep (x::done) y u hu) hI h
        exact ⟨x::done,by simpa using hpre,ht⟩

end Prog

end Durable
