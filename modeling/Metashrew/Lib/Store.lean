import Mathlib

namespace KV

variable {κ ν : Type*}

/-- One write of a batch. -/
inductive Op (κ ν : Type*) where
  | put (k : κ) (v : ν)
  | delete (k : κ)
  deriving Repr, DecidableEq

def Op.key : Op κ ν → κ
  | .put k _ => k
  | .delete k => k

def Op.value : Op κ ν → Option ν
  | .put _ v => some v
  | .delete _ => none

/-- An ordered key-value store. -/
abbrev Store (κ ν : Type*) [Ord κ] := Std.ExtTreeMap κ ν compare

section Effect

variable [DecidableEq κ]

/-- What a batch says about one key: nothing, a deletion, or a last value. -/
def effect : List (Op κ ν) → κ → Option (Option ν)
  | [], _ => none
  | op::ops, k => (effect ops k).or (if op.key = k then some op.value else none)

@[simp] theorem effect_nil (k : κ) : effect ([] : List (Op κ ν)) k = none := rfl

theorem effect_append (xs ys : List (Op κ ν)) (k : κ) :
    effect (xs ++ ys) k = (effect ys k).or (effect xs k) := by
  induction xs with
  | nil => simp
  | cons x xs ih => simp only [List.cons_append, effect, ih, Option.or_assoc]

theorem effect_eq_none {ops : List (Op κ ν)} {k : κ} (h : ∀ op ∈ ops, op.key ≠ k) :
    effect ops k = none := by
  induction ops with
  | nil => rfl
  | cons op ops ih =>
    simp only [List.mem_cons, forall_eq_or_imp] at h
    simp [effect, ih h.2, h.1]

theorem effect_deletes (ks : List κ) (k : κ) :
    effect (ks.map fun k => (.delete k : Op κ ν)) k = if k ∈ ks then some none else none := by
  induction ks with
  | nil => rfl
  | cons a ks ih =>
    simp only [List.map_cons, effect, ih, Op.key, Op.value, List.mem_cons]
    by_cases ha : a=k
    · subst ha; split_ifs <;> simp_all
    · have hk : k≠a := Ne.symm ha
      simp [ha, hk]

/-- Values put at consecutive places of an injective family of keys. -/
theorem effect_puts {f : Nat → κ} (hf : Function.Injective f) (vs : List ν) (start i : Nat) :
    effect ((vs.zipIdx start).map fun d => (.put (f d.2) d.1 : Op κ ν)) (f i) =
      if start ≤ i then vs[i-start]?.map some else none := by
  induction vs generalizing start with
  | nil => simp
  | cons v vs ih =>
    rw [List.zipIdx_cons, List.map_cons, effect, ih]
    by_cases he : start=i
    · subst he
      simp [Op.key, Op.value]
    · have hne : f start≠f i := fun h => he (hf h)
      by_cases hle : start+1≤ i
      · have hi : i-start = (i-(start+1))+1 := by omega
        rw [if_pos hle, if_pos (by omega : start≤ i), hi, List.getElem?_cons_succ]
        simp [Op.key, hne]
      · rw [if_neg hle, if_neg (by omega : ¬start≤ i)]
        simp [Op.key, hne]

/-- In a batch assembled from groups that own disjoint keys, only the group owning `k` counts. -/
theorem effect_flatMap {ι : Type*} [DecidableEq ι] (f : ι → List (Op κ ν)) (i : ι) (is : List ι)
    (k : κ) (hi : i ∈ is) (hother : ∀ j, j ≠ i → effect (f j) k = none) :
    effect (is.flatMap f) k = effect (f i) k := by
  have hnone : ∀ js : List ι, i ∉ js → effect (js.flatMap f) k = none := by
    intro js hjs
    induction js with
    | nil => rfl
    | cons j js ih =>
      simp only [List.mem_cons, not_or] at hjs
      rw [List.flatMap_cons, effect_append, ih hjs.2, hother j (Ne.symm hjs.1)]
      rfl
  induction is with
  | nil => simp at hi
  | cons j js ih =>
    rw [List.flatMap_cons, effect_append]
    by_cases hj : i ∈ js
    · rw [ih hj]
      by_cases he : j=i
      · subst he; cases effect (f j) k <;> rfl
      · rw [hother j he]; cases effect (f i) k <;> rfl
    · obtain rfl : i=j := by simpa [hj] using hi
      rw [hnone js hj]
      rfl

end Effect

variable [Ord κ] [Std.TransOrd κ]

/-- Sorts a list of keys and drops the repetitions. -/
def sortedKeys [DecidableEq κ] (ks : List κ) : List κ :=
  (ks.insertionSort fun a b => (compare a b).isLE).destutter (· ≠ ·)

def get (σ : Store κ ν) (k : κ) : Option ν := σ[k]?

def applyOp (σ : Store κ ν) : Op κ ν → Store κ ν
  | .put k v => σ.insert k v
  | .delete k => σ.erase k

/-- A batch is applied in order and as a whole. -/
def write (σ : Store κ ν) (ops : List (Op κ ν)) : Store κ ν := ops.foldl applyOp σ

@[simp] theorem write_nil (σ : Store κ ν) : write σ [] = σ := rfl

theorem write_append (σ : Store κ ν) (xs ys : List (Op κ ν)) :
    write σ (xs ++ ys) = write (write σ xs) ys := by
  simp [write, List.foldl_append]

@[simp] theorem get_empty (k : κ) : get (∅ : Store κ ν) k = none := by
  simp [get]

omit [Std.TransOrd κ] [Ord κ] in
private theorem mem_destutter' [DecidableEq κ] {a k : κ} {ks : List κ} :
    k ∈ ks.destutter' (· ≠ ·) a ↔ k ∈ a::ks := by
  induction ks generalizing a with
  | nil => simp
  | cons b ks ih =>
    by_cases h : a=b
    · subst h
      rw [List.destutter'_cons_neg _ (by simp), ih]
      simp
    · rw [List.destutter'_cons_pos _ h, List.mem_cons, ih]
      simp

omit [Std.TransOrd κ] in
theorem mem_sortedKeys [DecidableEq κ] {k : κ} {ks : List κ} : k ∈ sortedKeys ks ↔ k ∈ ks := by
  have hs := List.mem_insertionSort (fun a b : κ => ((compare a b).isLE : Prop)) (l := ks) (x := k)
  rw [← hs, sortedKeys]
  cases (ks.insertionSort fun a b => (compare a b).isLE) with
  | nil => rfl
  | cons a l => exact mem_destutter'

variable [Std.LawfulEqOrd κ]

private theorem isLE_antisymm {a b : κ} (h : (compare a b).isLE) (h' : (compare b a).isLE) : a=b := by
  rw [Std.OrientedOrd.eq_swap] at h'
  cases hc : compare a b with
  | lt => rw [hc] at h'; cases h'
  | eq => exact Std.LawfulEqOrd.eq_of_compare hc
  | gt => rw [hc] at h; cases h

private theorem nodup_of_sorted {l : List κ} (hs : l.Pairwise fun a b => (compare a b).isLE)
    (hc : l.IsChain (· ≠ ·)) : l.Nodup := by
  induction l with
  | nil => exact List.nodup_nil
  | cons a l ih =>
    obtain ⟨ha,hl⟩ := List.pairwise_cons.mp hs
    refine List.nodup_cons.mpr ⟨?_,ih hl hc.tail⟩
    cases l with
    | nil => simp
    | cons b l =>
      have hab : a≠b := (List.isChain_cons_cons.mp hc).1
      intro hmem
      rcases List.mem_cons.mp hmem with h | h
      · exact hab h
      · exact hab (isLE_antisymm (ha b (by simp)) ((List.pairwise_cons.mp hl).1 a h))

instance total_isLE : Std.Total fun a b : κ => ((compare a b).isLE : Prop) where
  total a b := by
    cases h : compare a b with
    | lt => exact .inl rfl
    | eq => exact .inl rfl
    | gt => exact .inr (by rw [Std.OrientedOrd.eq_swap, h]; rfl)

instance isTrans_isLE : IsTrans κ fun a b : κ => ((compare a b).isLE : Prop) where
  trans _ _ _ := Std.TransOrd.isLE_trans

theorem nodup_sortedKeys [DecidableEq κ] (ks : List κ) : (sortedKeys ks).Nodup := by
  have hsub : (sortedKeys ks).Sublist (ks.insertionSort fun a b => (compare a b).isLE) :=
    List.destutter_sublist ..
  exact nodup_of_sorted (List.Pairwise.sublist hsub (List.pairwise_insertionSort _ ks))
    (List.isChain_destutter ..)

/-- The order and the repetitions of a list do not matter. -/
theorem sortedKeys_congr [DecidableEq κ] {ks ks' : List κ} (h : ∀ k, k ∈ ks ↔ k ∈ ks') :
    sortedKeys ks = sortedKeys ks' := by
  have hsorted : ∀ l : List κ, (sortedKeys l).Pairwise fun a b => (compare a b).isLE := by
    intro l
    exact List.Pairwise.sublist (List.destutter_sublist ..) (List.pairwise_insertionSort _ l)
  have hperm : (sortedKeys ks).Perm (sortedKeys ks') := by
    apply (List.perm_ext_iff_of_nodup (nodup_sortedKeys ks) (nodup_sortedKeys ks')).mpr
    intro k
    rw [mem_sortedKeys, mem_sortedKeys, h k]
  exact hperm.eq_of_pairwise (fun a b _ _ => isLE_antisymm) (hsorted ks) (hsorted ks')

theorem mem_keys_iff (σ : Store κ ν) (k : κ) : k ∈ σ.keys ↔ get σ k ≠ none := by
  rw [Std.ExtTreeMap.mem_keys, get, ← Option.isSome_iff_ne_none]
  simp

variable [DecidableEq κ]

theorem get_applyOp (σ : Store κ ν) (op : Op κ ν) (k : κ) :
    get (applyOp σ op) k = if op.key = k then op.value else get σ k := by
  cases op with
  | put a v =>
    by_cases h : a=k <;> simp [get, applyOp, Op.key, Op.value, Std.ExtTreeMap.getElem?_insert, h]
  | delete a =>
    by_cases h : a=k <;> simp [get, applyOp, Op.key, Op.value, Std.ExtTreeMap.getElem?_erase, h]

/-- A read after a batch sees the batch's last word on the key, else the old value. -/
theorem get_write (σ : Store κ ν) (ops : List (Op κ ν)) (k : κ) :
    get (write σ ops) k = (effect ops k).getD (get σ k) := by
  induction ops generalizing σ with
  | nil => rfl
  | cons op ops ih =>
    change get (write (applyOp σ op) ops) k = _
    rw [ih, get_applyOp, effect]
    cases effect ops k with
    | some e => simp
    | none => split_ifs <;> simp

/-- An operation whose key the rest of the batch writes again leaves no trace. -/
theorem get_write_cons {σ : Store κ ν} {op : Op κ ν} {ops : List (Op κ ν)}
    (h : effect ops op.key ≠ none) (k : κ) : get (write σ (op::ops)) k = get (write σ ops) k := by
  rw [get_write, get_write, effect]
  by_cases hk : op.key=k
  · obtain ⟨v,hv⟩ := Option.ne_none_iff_exists'.mp (hk ▸ h)
    rw [hv]
    rfl
  · rw [if_neg hk, Option.or_none]

theorem write_cons {σ : Store κ ν} {op : Op κ ν} {ops : List (Op κ ν)}
    (h : effect ops op.key ≠ none) : write σ (op::ops) = write σ ops :=
  Std.ExtTreeMap.ext_getElem? (get_write_cons h)

theorem get_write_of_not_mem {σ : Store κ ν} {ops : List (Op κ ν)} {k : κ}
    (h : ∀ op ∈ ops, op.key ≠ k) : get (write σ ops) k = get σ k := by
  rw [get_write, effect_eq_none h]
  rfl

theorem get_write_put (σ : Store κ ν) (a k : κ) (v : ν) :
    get (write σ [.put a v]) k = if a = k then some v else get σ k := by
  rw [get_write]
  by_cases h : a=k <;> simp [effect, Op.key, Op.value, h]

theorem get_write_deletes (σ : Store κ ν) (ks : List κ) (k : κ) :
    get (write σ (ks.map .delete)) k = if k ∈ ks then none else get σ k := by
  rw [get_write, effect_deletes]
  split_ifs <;> rfl

/-- What is under a name after a batch was there before or was put by the batch. -/
theorem get_write_cases {σ : Store κ ν} {ops : List (Op κ ν)} {k : κ} {v : ν}
    (h : get (write σ ops) k = some v) :
    get σ k = some v ∨ ∃ op ∈ ops, op.key = k ∧ op.value = some v := by
  induction ops generalizing σ with
  | nil => exact .inl h
  | cons op ops ih =>
    rcases ih (σ := write σ [op]) h with hone | ⟨op',hmem,hop⟩
    · rw [get_write] at hone
      by_cases hk : op.key = k
      · right
        refine ⟨op,List.mem_cons_self,hk,?_⟩
        simpa [effect, hk] using hone
      · left
        simpa [effect, hk] using hone
    · exact .inr ⟨op',List.mem_cons_of_mem _ hmem,hop⟩

end KV
