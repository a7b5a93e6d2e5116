import Metashrew.Lib.Store

namespace KV

variable {α ν : Type*}

/-- The operation on the key behind a prefix. -/
def Op.behind (pre : List α) : Op (List α) ν → Op (List α) ν
  | .put k v => .put (pre ++ k) v
  | .delete k => .delete (pre ++ k)

@[simp] theorem Op.key_behind (pre : List α) (op : Op (List α) ν) : (op.behind pre).key = pre ++ op.key := by
  cases op <;> rfl

@[simp] theorem Op.value_behind (pre : List α) (op : Op (List α) ν) : (op.behind pre).value = op.value := by
  cases op <;> rfl

section Effect

variable [DecidableEq α]

theorem effect_behind (pre : List α) (ops : List (Op (List α) ν)) (k : List α) :
    effect (ops.map (Op.behind pre)) (pre ++ k) = effect ops k := by
  induction ops with
  | nil => rfl
  | cons op ops ih => simp only [List.map_cons, effect, ih, Op.key_behind, Op.value_behind,
      List.append_cancel_left_eq]

theorem effect_behind_beside {pre k : List α} (hk : ¬pre <+: k) (ops : List (Op (List α) ν)) :
    effect (ops.map (Op.behind pre)) k = none := by
  apply effect_eq_none
  intro op hop he
  obtain ⟨op',_,rfl⟩ := List.mem_map.mp hop
  rw [Op.key_behind] at he
  exact hk ⟨op'.key,he⟩

end Effect

variable [Ord (List α)] [Std.TransOrd (List α)]

/-- A store in which the keys behind a prefix are those of one store and the others those of
another. -/
structure Splits (pre : List α) (σ under beside : Store (List α) ν) : Prop where
  under : ∀ k, get σ (pre ++ k) = get under k
  beside : ∀ k, ¬pre <+: k → get σ k = get beside k

namespace Splits

variable {pre : List α} {σ under beside : Store (List α) ν}

theorem empty (pre : List α) : Splits pre (∅ : Store (List α) ν) ∅ ∅ where
  under _ := by rw [get_empty, get_empty]
  beside _ _ := rfl

variable [Std.LawfulEqOrd (List α)] [DecidableEq α]

/-- Writes behind the prefix are writes to the store under it. -/
theorem write_under (h : Splits pre σ under beside) (ops : List (Op (List α) ν)) :
    Splits pre (write σ (ops.map (Op.behind pre))) (write under ops) beside where
  under k := by rw [get_write, get_write, effect_behind, h.under]
  beside k hk := by
    rw [get_write, effect_behind_beside hk, Option.getD_none, h.beside k hk]

/-- Writes to other keys leave the store under the prefix alone. -/
theorem write_beside (h : Splits pre σ under beside) {ops : List (Op (List α) ν)}
    (ho : ∀ op ∈ ops, ¬pre <+: op.key) : Splits pre (write σ ops) under (write beside ops) where
  under k := by
    rw [get_write_of_not_mem, h.under]
    intro op hop he
    exact ho op hop (he ▸ List.prefix_append pre k)
  beside k hk := by rw [get_write, get_write, h.beside k hk]

end Splits

end KV
