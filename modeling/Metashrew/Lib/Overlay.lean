import Metashrew.Lib.Store

namespace KV

section Scan

variable {α ν : Type*} [Ord α]

/-- Seeks the first key that is not below the prefix and reads on while the keys have it. -/
def seekPrefix [BEq α] (p : List α) (es : List (List α × ν)) : List (List α × ν) :=
  (es.dropWhile fun e => compare e.1 p == .lt).takeWhile fun e => p.isPrefixOf e.1

theorem compare_cons (x y : α) (xs ys : List α) :
    compare (x::xs) (y::ys) = (compare x y).then (compare xs ys) := by
  rw [List.compare_eq_compareLex, List.compareLex_cons_cons]

theorem compare_nil_cons (y : α) (ys : List α) : compare ([] : List α) (y::ys) = .lt := by
  rw [List.compare_eq_compareLex, List.compareLex_nil_cons]

variable [Std.TransOrd α] [Std.LawfulEqOrd α]

/-- A prefix of a key is not above it. -/
theorem compare_of_prefix {p k : List α} (h : p <+: k) : compare k p ≠ .lt := by
  induction p generalizing k with
  | nil =>
    cases k with
    | nil => simp
    | cons y ys =>
      rw [Std.OrientedOrd.eq_swap, compare_nil_cons]
      simp
  | cons x p ih =>
    obtain ⟨t,rfl⟩ := h
    rw [List.cons_append, compare_cons, Std.ReflOrd.compare_self]
    exact ih (List.prefix_append p t)

omit [Std.TransOrd α] in
/-- Behind a key that is past the prefix, no key has it. -/
theorem not_prefix_of_lt {p a b : List α} (hp : compare a p ≠ .lt) (ha : ¬p <+: a)
    (hab : compare a b = .lt) : ¬p <+: b := by
  induction p generalizing a b with
  | nil => exact absurd List.nil_prefix ha
  | cons x p ih =>
    rintro ⟨t,rfl⟩
    cases a with
    | nil => exact hp (compare_nil_cons x p)
    | cons y a =>
      rw [compare_cons] at hp
      rw [List.cons_append, compare_cons] at hab
      cases hc : compare y x with
      | lt => rw [hc] at hp; exact hp rfl
      | gt => rw [hc] at hab; cases hab
      | eq =>
        rw [hc] at hp hab
        have hyx : y=x := Std.LawfulEqOrd.eq_of_compare hc
        subst hyx
        have hna : ¬p <+: a := by
          intro h
          exact ha (List.cons_prefix_cons.mpr ⟨rfl,h⟩)
        exact ih hp hna hab (List.prefix_append p t)

variable [BEq α] [LawfulBEq α]

omit [Std.TransOrd α] in
/-- Among keys that are not below the prefix, the first one without it ends the scan. -/
private theorem takeWhile_prefix {p : List α} {es : List (List α × ν)}
    (hge : ∀ e ∈ es, compare e.1 p ≠ .lt) (hs : es.Pairwise fun a b => compare a.1 b.1 = .lt) :
    (es.takeWhile fun e => p.isPrefixOf e.1) = es.filter fun e => p.isPrefixOf e.1 := by
  induction es with
  | nil => rfl
  | cons e es ih =>
    obtain ⟨he,hs⟩ := List.pairwise_cons.mp hs
    have ih := ih (fun d hd => hge d (List.mem_cons_of_mem _ hd)) hs
    by_cases hpre : p <+: e.1
    · have hp : p.isPrefixOf e.1 = true := List.isPrefixOf_iff_prefix.mpr hpre
      simp only [List.takeWhile_cons, List.filter_cons, hp, if_true, ih]
    · have hp : p.isPrefixOf e.1 = false := by
        rw [Bool.eq_false_iff]
        exact fun h => hpre (List.isPrefixOf_iff_prefix.mp h)
      simp only [List.takeWhile_cons, List.filter_cons, hp, Bool.false_eq_true, if_false]
      symm
      apply List.filter_eq_nil_iff.mpr
      intro d hd hdp
      exact not_prefix_of_lt (hge e List.mem_cons_self) hpre (he d hd)
        (List.isPrefixOf_iff_prefix.mp hdp)

/-- In a sorted list the keys with a prefix stand together, so the scan misses none. -/
theorem seekPrefix_eq_filter (p : List α) {es : List (List α × ν)}
    (hs : es.Pairwise fun a b => compare a.1 b.1 = .lt) :
    seekPrefix p es = es.filter fun e => p.isPrefixOf e.1 := by
  induction es with
  | nil => rfl
  | cons e es ih =>
    obtain ⟨he,hes⟩ := List.pairwise_cons.mp hs
    rw [seekPrefix]
    by_cases hlt : compare e.1 p = .lt
    · have hp : p.isPrefixOf e.1 = false := by
        rw [Bool.eq_false_iff]
        exact fun h => compare_of_prefix (List.isPrefixOf_iff_prefix.mp h) hlt
      rw [List.dropWhile_cons_of_pos (by simp [hlt]), List.filter_cons_of_neg (by simp [hp])]
      exact ih hes
    · rw [List.dropWhile_cons_of_neg (by simp [hlt])]
      apply takeWhile_prefix _ hs
      intro d hd
      rcases List.mem_cons.mp hd with rfl | hd
      · exact hlt
      · exact fun h => hlt (Std.TransCmp.lt_trans (he d hd) h)

end Scan

section Overlay

variable {κ ν : Type*} [Ord κ] [Std.TransOrd κ]

/-- Writes kept beside a store: a value or a tombstone for each written key. -/
abbrev Overlay (κ ν : Type*) [Ord κ] := Store κ (Option ν)

namespace Overlay

/-- A write as the overlay keeps it; a deletion leaves a tombstone. -/
def record (op : Op κ ν) : Op κ (Option ν) := .put op.key op.value

omit [Std.TransOrd κ] [Ord κ] in
@[simp] theorem record_key (op : Op κ ν) : (record op).key = op.key := rfl

omit [Std.TransOrd κ] [Ord κ] in
@[simp] theorem record_value (op : Op κ ν) : (record op).value = some op.value := rfl

def apply (o : Overlay κ ν) (ops : List (Op κ ν)) : Overlay κ ν := write o (ops.map record)

/-- What the overlay makes of an entry below it. -/
def resolve (o : Overlay κ ν) (base : Option ν) (k : κ) : Option ν := (get o k).getD base

/-- An entry of the overlay in a scan; a tombstone gives none. -/
def shown (keep : κ → Bool) (e : κ × Option ν) : Option (κ × ν) :=
  if keep e.1 then e.2.map fun v => (e.1,v) else none

/-- The entries of a scan that the overlay does not hide, then its own values. -/
def merge (o : Overlay κ ν) (keep : κ → Bool) (es : List (κ × ν)) : List (κ × ν) :=
  (es.filter fun e => !o.contains e.1) ++ o.toList.filterMap (shown keep)

/-- The keys of the same scan. -/
def mergeKeys (o : Overlay κ ν) (ks : List κ) : List κ :=
  (ks.filter fun k => !o.contains k) ++
    o.toList.filterMap fun e => if e.2.isSome then some e.1 else none

theorem mergeKeys_eq (o : Overlay κ ν) (es : List (κ × ν)) :
    o.mergeKeys (es.map Prod.fst) = (o.merge (fun _ => true) es).map Prod.fst := by
  rw [mergeKeys, merge, List.map_append, List.filter_map, List.map_filterMap]
  congr 1
  apply List.filterMap_congr
  rintro ⟨k,x⟩ _
  cases x <;> rfl

theorem apply_append (o : Overlay κ ν) (xs ys : List (Op κ ν)) :
    o.apply (xs ++ ys) = (o.apply xs).apply ys := by
  rw [apply, List.map_append, write_append]
  rfl

@[simp] theorem apply_nil (o : Overlay κ ν) : o.apply [] = o := rfl

@[simp] theorem resolve_empty (base : Option ν) (k : κ) :
    resolve (∅ : Overlay κ ν) base k = base := by
  simp [resolve]

@[simp] theorem merge_empty (keep : κ → Bool) (es : List (κ × ν)) :
    merge (∅ : Overlay κ ν) keep es = es := by
  simp [merge]

omit [Std.TransOrd κ] [Ord κ] in
theorem shown_eq_some {keep : κ → Bool} {e : κ × Option ν} {d : κ × ν} :
    shown keep e = some d ↔ keep d.1 ∧ e = (d.1,some d.2) := by
  obtain ⟨k,x⟩ := e
  obtain ⟨a,v⟩ := d
  rw [shown, Option.ite_none_right_eq_some, Option.map_eq_some_iff]
  constructor
  · rintro ⟨hk,w,rfl,he⟩
    cases he
    exact ⟨hk,rfl⟩
  · rintro ⟨hk,he⟩
    cases he
    exact ⟨hk,v,rfl,rfl⟩

omit [Std.TransOrd κ] [Ord κ] in
theorem shown_sublist (keep : κ → Bool) (l : List (κ × Option ν)) :
    ((l.filterMap (shown keep)).map Prod.fst).Sublist (l.map Prod.fst) := by
  induction l with
  | nil => exact List.Sublist.refl _
  | cons e l ih =>
    cases hx : shown keep e with
    | none =>
      rw [List.filterMap_cons_none hx]
      exact ih.cons _
    | some d =>
      rw [List.filterMap_cons_some hx, (shown_eq_some.mp hx).2]
      exact ih.cons_cons _

variable [Std.LawfulEqOrd κ] [DecidableEq κ]

omit [Std.TransOrd κ] [Std.LawfulEqOrd κ] [Ord κ] in
theorem effect_records (ops : List (Op κ ν)) (k : κ) :
    effect (ops.map record) k = (effect ops k).map some := by
  induction ops with
  | nil => rfl
  | cons op ops ih =>
    rw [List.map_cons, effect, effect, ih, record_key, record_value]
    by_cases h : op.key=k
    · rw [if_pos h, if_pos h]
      cases effect ops k <;> rfl
    · rw [if_neg h, if_neg h, Option.or_none, Option.or_none]

theorem get_apply (o : Overlay κ ν) (ops : List (Op κ ν)) (k : κ) :
    get (o.apply ops) k = (effect ops k).or (get o k) := by
  rw [apply, get_write, effect_records]
  cases effect ops k <;> rfl

theorem resolve_apply (o : Overlay κ ν) (ops : List (Op κ ν)) (base : Option ν) (k : κ) :
    (o.apply ops).resolve base k = (effect ops k).getD (o.resolve base k) := by
  rw [resolve, get_apply]
  cases effect ops k <;> rfl

/-- Below an overlay of writes stands the store to which they were applied. -/
theorem resolve_write (σ : Store κ ν) (ops : List (Op κ ν)) (k : κ) :
    resolve (apply ∅ ops) (get σ k) k = get (write σ ops) k := by
  rw [resolve_apply, resolve_empty, get_write]

omit [DecidableEq κ] in
/-- A merged scan of a store lists each key with the value that the overlay makes of it. -/
theorem mem_merge {o : Overlay κ ν} {keep : κ → Bool} {σ : Store κ ν} {k : κ} {v : ν} :
    (k,v) ∈ o.merge keep (σ.toList.filter fun e => keep e.1) ↔
      keep k ∧ o.resolve (get σ k) k = some v := by
  have hmem : ∀ x, (k,x) ∈ o.toList ↔ get o k = some x := fun x =>
    Std.ExtTreeMap.mem_toList_iff_getElem?_eq_some
  have hbase : (k,v) ∈ σ.toList ↔ get σ k = some v :=
    Std.ExtTreeMap.mem_toList_iff_getElem?_eq_some
  have hcon : o.contains k = (get o k).isSome := by simp [get]
  have hown : (k,v) ∈ o.toList.filterMap (shown keep) ↔ keep k ∧ get o k = some (some v) := by
    rw [List.mem_filterMap]
    constructor
    · rintro ⟨e,he,hx⟩
      obtain ⟨hk,rfl⟩ := shown_eq_some.mp hx
      exact ⟨hk,(hmem _).mp he⟩
    · rintro ⟨hk,hv⟩
      exact ⟨(k,some v),(hmem _).mpr hv,shown_eq_some.mpr ⟨hk,rfl⟩⟩
  rw [merge, List.mem_append, hown, List.mem_filter, List.mem_filter, hbase, hcon, resolve]
  cases get o k with
  | none => simp [and_comm]
  | some x => simp

omit [DecidableEq κ] in
/-- A merged scan lists no key twice. -/
theorem merge_nodup (o : Overlay κ ν) (keep keep' : κ → Bool) (σ : Store κ ν) :
    ((o.merge keep (σ.toList.filter fun e => keep' e.1)).map Prod.fst).Nodup := by
  have hsub : ((σ.toList.filter fun e => keep' e.1).filter fun e => !o.contains e.1).Sublist σ.toList :=
    List.filter_sublist.trans List.filter_sublist
  have hbase : (((σ.toList.filter fun e => keep' e.1).filter fun e => !o.contains e.1).map
      Prod.fst).Nodup := by
    apply List.Nodup.sublist (hsub.map Prod.fst)
    rw [Std.ExtTreeMap.map_fst_toList_eq_keys]
    exact Std.ExtTreeMap.nodup_keys
  have hown : ((o.toList.filterMap (shown keep)).map Prod.fst).Sublist o.keys := by
    rw [← Std.ExtTreeMap.map_fst_toList_eq_keys]
    exact shown_sublist keep o.toList
  rw [merge, List.map_append]
  apply List.nodup_append.mpr
  refine ⟨hbase,List.Nodup.sublist hown Std.ExtTreeMap.nodup_keys,?_⟩
  rintro k hk _ hk' rfl
  obtain ⟨e,he,rfl⟩ := List.mem_map.mp hk
  have hin : e.1 ∈ o := Std.ExtTreeMap.mem_keys.mp (hown.subset hk')
  have hout : o.contains e.1 = false := by simpa using (List.mem_filter.mp he).2
  rw [← Std.ExtTreeMap.contains_iff_mem, hout] at hin
  cases hin

omit [DecidableEq κ] in
theorem merge_perm_iff {o o' : Overlay κ ν} {keep : κ → Bool} {σ σ' : Store κ ν} :
    (o.merge keep (σ.toList.filter fun e => keep e.1)).Perm
        (o'.merge keep (σ'.toList.filter fun e => keep e.1)) ↔
      ∀ k, keep k → o.resolve (get σ k) k = o'.resolve (get σ' k) k := by
  rw [List.perm_ext_iff_of_nodup (merge_nodup o keep keep σ).of_map
    (merge_nodup o' keep keep σ').of_map]
  constructor
  · intro h k hk
    apply Option.ext
    intro v
    have hkv := h (k,v)
    rw [mem_merge, mem_merge] at hkv
    simpa [hk] using hkv
  · rintro h ⟨k,v⟩
    rw [mem_merge, mem_merge]
    exact and_congr_right fun hk => by rw [h k hk]

/-- A scan under an overlay of writes is the scan of the store to which they were applied. -/
theorem merge_write (keep : κ → Bool) (σ : Store κ ν) (ops : List (Op κ ν)) :
    (merge (apply ∅ ops) keep (σ.toList.filter fun e => keep e.1)).Perm
      ((write σ ops).toList.filter fun e => keep e.1) := by
  have h : (merge (apply ∅ ops) keep (σ.toList.filter fun e => keep e.1)).Perm
      (merge ∅ keep ((write σ ops).toList.filter fun e => keep e.1)) := by
    apply merge_perm_iff.mpr
    intro k _
    rw [resolve_write, resolve_empty]
  rwa [merge_empty] at h

end Overlay

end Overlay

end KV
