import Metashrew.Lib.Store

namespace KV

variable {κ ν : Type*}

/-- The entries as the writes of one batch. -/
def puts (entries : List (κ × ν)) : List (Op κ ν) := entries.map fun e => .put e.1 e.2

section Entries

variable [DecidableEq κ]

theorem effect_puts_of_mem {entries : List (κ × ν)} (hn : (entries.map Prod.fst).Nodup) {k : κ}
    {v : ν} (h : (k,v) ∈ entries) : effect (puts entries) k = some (some v) := by
  induction entries with
  | nil => simp at h
  | cons e rest ih =>
    rw [List.map_cons, List.nodup_cons] at hn
    rw [puts, List.map_cons, effect]
    rcases List.mem_cons.mp h with rfl | hr
    · -- the rest does not write the key again
      have hrest : effect (puts rest) k = none := by
        apply effect_eq_none
        intro op hop hk
        obtain ⟨e,he,rfl⟩ := List.mem_map.mp hop
        exact hn.1 (List.mem_map.mpr ⟨e,he,hk⟩)
      rw [puts] at hrest
      rw [hrest]
      simp [Op.key, Op.value]
    · have hi := ih hn.2 hr
      rw [puts] at hi
      rw [hi]
      rfl

theorem effect_puts_of_not_mem {entries : List (κ × ν)} {k : κ}
    (h : k ∉ entries.map Prod.fst) : effect (puts entries) k = none := by
  apply effect_eq_none
  intro op hop hk
  obtain ⟨e,he,rfl⟩ := List.mem_map.mp hop
  exact h (List.mem_map.mpr ⟨e,he,hk⟩)

end Entries

/-- An order in which the entries of a hash map are visited, each once. -/
structure VisitOrder (κ ν : Type*) [Ord κ] [Std.TransOrd κ] where
  visit : Store κ ν → List (κ × ν)
  perm : ∀ map, (visit map).Perm map.toList

namespace VisitOrder

variable [Ord κ] [Std.TransOrd κ] [Std.LawfulEqOrd κ]

/-- The order of the keys. -/
def sorted : VisitOrder κ ν where
  visit map := map.toList
  perm map := .refl map.toList

def reversed : VisitOrder κ ν where
  visit map := map.toList.reverse
  perm map := List.reverse_perm map.toList

theorem mem_visit (o : VisitOrder κ ν) {map : Store κ ν} {k : κ} {v : ν} :
    (k,v) ∈ o.visit map ↔ get map k = some v := by
  rw [(o.perm map).mem_iff]
  exact Std.ExtTreeMap.mem_toList_iff_getElem?_eq_some

theorem nodup_visit (o : VisitOrder κ ν) (map : Store κ ν) :
    ((o.visit map).map Prod.fst).Nodup := by
  rw [((o.perm map).map Prod.fst).nodup_iff, List.nodup_iff_pairwise_ne, List.pairwise_map]
  apply Std.ExtTreeMap.distinct_keys_toList.imp
  intro a b hne he
  rw [he] at hne
  exact hne Std.compare_self

variable [DecidableEq κ]

/-- Whatever the order, the writes say of a key what the map holds. -/
theorem effect_visit (o : VisitOrder κ ν) (map : Store κ ν) (k : κ) :
    effect (puts (o.visit map)) k = (get map k).map some := by
  cases h : get map k with
  | some v =>
    rw [effect_puts_of_mem (o.nodup_visit map) (o.mem_visit.mpr h)]
    rfl
  | none =>
    apply effect_puts_of_not_mem
    intro hm
    obtain ⟨⟨_,v⟩,he,rfl⟩ := List.mem_map.mp hm
    rw [o.mem_visit.mp he] at h
    cases h

theorem write_visit (o o' : VisitOrder κ ν) (σ map : Store κ ν) :
    write σ (puts (o.visit map)) = write σ (puts (o'.visit map)) := by
  apply Std.ExtTreeMap.ext_getElem?
  intro k
  show get _ k = get _ k
  rw [get_write, get_write, effect_visit, effect_visit]

end VisitOrder

end KV
