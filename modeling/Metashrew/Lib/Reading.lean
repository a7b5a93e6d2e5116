import Mathlib

/-- A computation that looks keys up one after the other. The store may change between two of its
lookups, so each of them is a step of its own. -/
inductive Reading (κ ν α : Type*) where
  | done (a : α)
  | ask (k : κ) (next : Option ν → Reading κ ν α)

namespace Reading

variable {κ ν α : Type*}

/-- The result when all lookups are answered by one store. -/
def run (f : κ → Option ν) : Reading κ ν α → α
  | done a => a
  | ask k next => (next (f k)).run f

/-- The keys looked up on the way. -/
def asked (f : κ → Option ν) : Reading κ ν α → List κ
  | done _ => []
  | ask k next => k::(next (f k)).asked f

/-- A change of other keys is not noticed. -/
theorem run_congr {f g : κ → Option ν} {p : Reading κ ν α} (h : ∀ k ∈ p.asked f, g k = f k) :
    p.run g = p.run f ∧ p.asked g = p.asked f := by
  induction p with
  | done a => exact ⟨rfl,rfl⟩
  | ask k next ih =>
    have hk : g k = f k := h k List.mem_cons_self
    obtain ⟨hrun,hasked⟩ := ih (f k) fun j hj => h j (List.mem_cons_of_mem k hj)
    rw [run, run, asked, asked, hk, hrun, hasked]
    exact ⟨rfl,rfl⟩

end Reading
