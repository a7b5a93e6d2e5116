import Metashrew.Storage.Isolation

namespace Metashrew

open Bytes

/-- A database opened over a read-only fork, with the variant of the adapter that the fork asks for. -/
structure Forked where
  own : Store
  fork : Store
  height : Nat
  isLegacy : Bool

namespace Forked

def adapter (o : Forked) : ForkAdapter :=
  if o.isLegacy then .legacy ⟨0,some 1,o.height⟩ else .modern ⟨0,some 1,o.height,none⟩

def heap (o : Forked) : Heap := ⟨[o.own,o.fork],[],[]⟩

/-- The databases after calls. -/
def after (label : Bytes) (o : Forked) (calls : List WriteCall) : Heap :=
  (Backend.fork o.adapter).runCalls label calls o.heap

/-- A modern batch panics on the highest height. -/
def returns (o : Forked) : WriteCall → Bool
  | .write _ => o.isLegacy || o.height+1 < 2^32
  | _ => true

/-- The calls up to the first one that panics. -/
def performed (o : Forked) (calls : List WriteCall) : List WriteCall := calls.takeWhile o.returns

/-- What these calls ask for. -/
def asked (o : Forked) (calls : List WriteCall) : List Op :=
  (o.performed calls).flatMap (WriteCall.ops [])

/-- What a later lookup should find: the last value put, nothing after a deletion, and for a key never
touched what was there before. -/
def lookup (label : Bytes) (o : Forked) (calls : List WriteCall) (key : Bytes) : Option Bytes :=
  match KV.effect (o.asked calls) key with
  | some last => last
  | none => (KV.get o.own (label ++ key)).or (KV.get o.fork (label ++ key))

/-- The two databases answer as one store. -/
structure OneStore (label : Bytes) (o : Forked) (calls : List WriteCall) : Prop where
  lookup : ∀ key, (Backend.fork o.adapter).getImmutable label (o.after label calls) key =
    o.lookup label calls key
  scan : ∀ pre key,
    key ∈ ((Backend.fork o.adapter).scanPrefix label (o.after label calls) pre).map Prod.fst ↔
      pre <+: key ∧ (Backend.fork o.adapter).getImmutable label (o.after label calls) key ≠ none
  keys : ∀ key, key ∈ (Backend.fork o.adapter).keys (o.after label calls) ↔
    (Backend.fork o.adapter).getImmutable label (o.after label calls) key ≠ none

/-- The operations of a call as they reach the database. -/
def ops (label : Bytes) (o : Forked) : WriteCall → List Op
  | .write batch =>
    if o.isLegacy then rocksDBBatch label (rocksDBBatch label batch)
    else .put (makeLabeledKey label tipHeightKey) (u32le (o.height+1))::rocksDBBatch label batch
  | c => c.ops label

/-- A batch leaves its height record when neither it nor a later call writes the record. -/
def leavesTip : List WriteCall → Bool
  | [] => false
  | c::cs => leavesTip cs || match c with
    | .write _ => (KV.effect ((c::cs).flatMap (WriteCall.ops [])) tipHeightKey).isNone
    | _ => false

def leftTip (o : Forked) (calls : List WriteCall) : Bool := !o.isLegacy && leavesTip (o.performed calls)

/-- The content of the database itself after what the calls ask for. -/
def ownLast (o : Forked) (calls : List WriteCall) (key : Bytes) : Option Bytes :=
  (KV.effect (o.asked calls) key).getD (KV.get o.own key)

/-- Without a label: every key of the fork is one of the database itself in the end, and the height
record of a batch, where it is left, is what the lookup should find. With a label: nothing should be
found, and nothing is stored. -/
def Seamless (label : Bytes) (o : Forked) (calls : List WriteCall) : Prop :=
  if label = [] then
    (∀ key, KV.get o.fork key ≠ none →
      o.ownLast calls key ≠ none ∨ key = tipHeightKey ∧ o.leftTip calls = true) ∧
    (o.leftTip calls = true → o.lookup [] calls tipHeightKey = some (u32le (o.height+1)))
  else
    (∀ key, o.lookup label calls key = none) ∧
    (∀ name, (KV.effect ((o.performed calls).flatMap (o.ops label)) name).getD (KV.get o.own name) = none) ∧
    ∀ key, KV.get o.fork (label ++ key) = none

section After

variable (label : Bytes) (o : Forked) (calls : List WriteCall)

private theorem callOps_eq (c : WriteCall) :
    (o.returns c = true → o.adapter.callOps label c = .ok (o.ops label c)) ∧
      (o.returns c = false → ∃ e, o.adapter.callOps label c = .error e) := by
  obtain ⟨own,fork,height,isLegacy⟩ := o
  cases isLegacy with
  | true =>
    refine ⟨fun _ => ?_,fun h => ?_⟩
    · cases c <;> rfl
    · cases c <;> cases h
  | false =>
    cases c with
    | put key value => exact ⟨fun _ => rfl,fun h => by cases h⟩
    | delete key => exact ⟨fun _ => rfl,fun h => by cases h⟩
    | write batch =>
      have hcall : (Forked.adapter ⟨own,fork,height,false⟩).callOps label (.write batch) =
          (addU32 height 1).bind fun tip =>
            .ok (.put (makeLabeledKey label tipHeightKey) (u32le tip)::rocksDBBatch label batch) := rfl
      rw [hcall, addU32]
      simp only [returns, Bool.false_or, decide_eq_true_eq, decide_eq_false_iff_not]
      constructor
      · intro h
        rw [if_pos h]
        rfl
      · intro h
        rw [if_neg h]
        exact ⟨_,rfl⟩

/-- All that the calls write. -/
theorem written_eq : o.adapter.written label calls = (o.performed calls).flatMap (o.ops label) := by
  rw [ForkAdapter.written, performed]
  induction calls with
  | nil => rfl
  | cons c cs ih =>
    obtain ⟨hok,herr⟩ := callOps_eq label o c
    rw [writtenBy]
    cases hr : o.returns c with
    | true => rw [hok hr, List.takeWhile_cons_of_pos hr, List.flatMap_cons, ih]
    | false =>
      obtain ⟨e,he⟩ := herr hr
      rw [he, List.takeWhile_cons_of_neg (by simp [hr])]
      rfl

/-- The calls change the database itself only. -/
theorem after_eq : o.after label calls =
    ⟨[KV.write o.own ((o.performed calls).flatMap (o.ops label)),o.fork],[],[]⟩ := by
  have h := Backend.runCalls_eq (ForkAdapter.call_eq label o.adapter)
    o.adapter.handle.land_nil o.adapter.handle.land_append calls o.heap
  rw [after, h]
  show o.adapter.handle.land (o.adapter.written label calls) o.heap = _
  rw [written_eq]
  obtain ⟨own,fork,height,isLegacy⟩ := o
  cases isLegacy <;> rfl

/-- What the database itself holds under a name after the calls. -/
def stored (name : Bytes) : Option Bytes :=
  (KV.effect ((o.performed calls).flatMap (o.ops label)) name).getD (KV.get o.own name)

theorem getImmutable_after (key : Bytes) :
    (Backend.fork o.adapter).getImmutable label (o.after label calls) key =
      (o.stored label calls (label ++ key)).or (KV.get o.fork (label ++ key)) := by
  have hget : ∀ σ : Heap, (Backend.fork o.adapter).getImmutable label σ key =
      (KV.get (σ.db 0) (label ++ key)).or (KV.get (σ.db 1) (label ++ key)) := by
    intro σ
    obtain ⟨own,fork,height,isLegacy⟩ := o
    cases hvalue : KV.get (σ.db 0) (label ++ key) <;> cases isLegacy <;>
      simp [Backend.getImmutable, ForkAdapter.getImmutable, adapter, RocksDBRuntimeAdapter.getImmutable,
        LegacyRocksDBRuntimeAdapter.getImmutable, makeLabeledKey, hvalue]
  rw [hget, after_eq, stored, ← KV.get_write]
  rfl

theorem mem_keys_after (key : Bytes) :
    key ∈ (Backend.fork o.adapter).keys (o.after label calls) ↔ o.stored label calls key ≠ none := by
  have hkeys : ∀ σ : Heap, (Backend.fork o.adapter).keys σ = (σ.db 0).keys := by
    intro σ
    obtain ⟨own,fork,height,isLegacy⟩ := o
    cases isLegacy <;> rfl
  rw [hkeys, KV.mem_keys_iff, after_eq, stored, ← KV.get_write]
  rfl

theorem mem_scan_after (pre key : Bytes) :
    key ∈ ((Backend.fork o.adapter).scanPrefix label (o.after label calls) pre).map Prod.fst ↔
      label ++ pre <+: key ∧ o.stored label calls key ≠ none := by
  have hscan : ∀ σ : Heap, (Backend.fork o.adapter).scanPrefix label σ pre =
      (σ.db 0).toList.filter fun e => (label ++ pre).isPrefixOf e.1 := by
    intro σ
    have h : (Backend.fork o.adapter).scanPrefix label σ pre =
        KV.seekPrefix (label ++ pre) (σ.db 0).toList := by
      obtain ⟨own,fork,height,isLegacy⟩ := o
      cases isLegacy <;> rfl
    rw [h, KV.seekPrefix_eq_filter _ Std.ExtTreeMap.ordered_keys_toList]
  have hstored : o.stored label calls key = KV.get ((o.after label calls).db 0) key := by
    rw [after_eq, stored, ← KV.get_write]
    rfl
  rw [hscan, List.mem_map, hstored, ← KV.mem_keys_iff, ← Std.ExtTreeMap.map_fst_toList_eq_keys,
    List.mem_map]
  constructor
  · rintro ⟨e,he,rfl⟩
    obtain ⟨hmem,hpre⟩ := List.mem_filter.mp he
    exact ⟨List.isPrefixOf_iff_prefix.mp hpre,e,hmem,rfl⟩
  · rintro ⟨hpre,e,hmem,rfl⟩
    exact ⟨e,List.mem_filter.mpr ⟨hmem,List.isPrefixOf_iff_prefix.mpr hpre⟩,rfl⟩

end After

section Plain

variable (o : Forked) (calls : List WriteCall)

/-- Without a label the calls write what they ask for, and a modern batch its height record. -/
private theorem effect_ops (cs : List WriteCall) (key : Bytes) :
    KV.effect (cs.flatMap (o.ops [])) key =
      if key = tipHeightKey ∧ (!o.isLegacy && leavesTip cs) = true then some (some (u32le (o.height+1)))
      else KV.effect (cs.flatMap (WriteCall.ops [])) key := by
  induction cs with
  | nil => simp [leavesTip]
  | cons c cs ih =>
    rw [List.flatMap_cons, List.flatMap_cons, KV.effect_append, KV.effect_append, ih]
    have hsame : (∀ batch, c ≠ .write batch) ∨ o.isLegacy = true →
        o.ops [] c = c.ops [] ∧ (!o.isLegacy && leavesTip (c::cs)) = (!o.isLegacy && leavesTip cs) := by
      intro h
      cases c with
      | put k v => exact ⟨rfl,by simp [leavesTip]⟩
      | delete k => exact ⟨rfl,by simp [leavesTip]⟩
      | write batch =>
        obtain h | h := h
        · exact absurd rfl (h batch)
        · refine ⟨?_,by simp [h]⟩
          rw [ops, if_pos h, rocksDBBatch_nil]
          rfl
    by_cases hplain : (∀ batch, c ≠ .write batch) ∨ o.isLegacy = true
    · obtain ⟨hops,hleaves⟩ := hsame hplain
      rw [hops, hleaves]
      split_ifs <;> rfl
    push Not at hplain
    obtain ⟨⟨batch,rfl⟩,hmodern⟩ := hplain
    replace hmodern := Bool.eq_false_of_not_eq_true hmodern
    have hops : o.ops [] (.write batch) = .put tipHeightKey (u32le (o.height+1))::batch := by
      rw [ops, if_neg (by simp [hmodern]), rocksDBBatch_nil]
      rfl
    have hask : WriteCall.ops [] (.write batch) = batch := rocksDBBatch_nil batch
    rw [hops, hask, KV.effect, hmodern, leavesTip, List.flatMap_cons, KV.effect_append, hask]
    simp only [Bool.not_false, Bool.true_and, KV.Op.key, KV.Op.value]
    by_cases hk : key = tipHeightKey
    · subst hk
      cases hcs : KV.effect (cs.flatMap (WriteCall.ops [])) tipHeightKey <;>
        cases hb : KV.effect batch tipHeightKey <;> cases leavesTip cs <;> simp
    · simp [hk, Ne.symm hk]

private theorem stored_plain (key : Bytes) : o.stored [] calls key =
    if key = tipHeightKey ∧ o.leftTip calls = true then some (u32le (o.height+1))
    else o.ownLast calls key := by
  rw [stored, effect_ops, ownLast, asked, leftTip]
  split_ifs <;> rfl

theorem oneStore_plain : o.OneStore [] calls ↔ o.Seamless [] calls := by
  have hget := o.getImmutable_after [] calls
  have hstored := o.stored_plain calls
  rw [Seamless, if_pos rfl]
  constructor
  · intro h
    constructor
    · intro key hfork
      have hfound : (Backend.fork o.adapter).getImmutable [] (o.after [] calls) key ≠ none := by
        rw [hget, List.nil_append]
        cases hs : o.stored [] calls key with
        | none => exact hfork
        | some v => exact Option.some_ne_none v
      have hkey := (o.mem_keys_after [] calls key).mp ((h.keys key).mpr hfound)
      rw [hstored] at hkey
      split_ifs at hkey with htip
      · exact .inr htip
      · exact .inl hkey
    · intro hleft
      rw [← h.lookup, hget, List.nil_append, hstored, if_pos ⟨rfl,hleft⟩]
      rfl
  · rintro ⟨hfork,htip⟩
    have hown : ∀ key, (Backend.fork o.adapter).getImmutable [] (o.after [] calls) key =
        o.stored [] calls key := by
      intro key
      rw [hget, List.nil_append]
      cases hs : o.stored [] calls key with
      | some v => rfl
      | none =>
        by_contra hne
        rw [hstored] at hs
        split_ifs at hs with hk
        obtain h | h := hfork key hne
        · exact h hs
        · exact hk h
    constructor
    · intro key
      rw [hown, hstored]
      split_ifs with hk
      · obtain ⟨rfl,hleft⟩ := hk
        exact (htip hleft).symm
      · have hs := hstored key
        rw [if_neg hk] at hs
        have hsum := (hget key).symm.trans (hown key)
        rw [List.nil_append, hs] at hsum
        rw [← hsum, lookup, ownLast, List.nil_append]
        cases he : KV.effect (o.asked calls) key with
        | none => rfl
        | some last =>
          rw [ownLast, he] at hsum
          exact hsum
    · intro pre key
      rw [mem_scan_after, hown, List.nil_append]
    · intro key
      rw [mem_keys_after, hown]

end Plain

section Labelled

variable (label : Bytes) (o : Forked) (calls : List WriteCall)

/-- Under a label a key that is listed under its own name begins with the label, so it makes another
one be found; a shortest one is not. -/
private theorem nothing_found (hlabel : label ≠ []) (h : o.OneStore label calls) (key : Bytes) :
    (Backend.fork o.adapter).getImmutable label (o.after label calls) key = none := by
  by_contra hne
  obtain ⟨hpre,hstored⟩ := (o.mem_scan_after label calls [] key).mp ((h.scan [] key).mpr
    ⟨List.nil_prefix,hne⟩)
  rw [List.append_nil] at hpre
  obtain ⟨rest,rfl⟩ := hpre
  have hshorter : rest.length < (label ++ rest).length := by
    have hpos := List.length_pos_iff.mpr hlabel
    rw [List.length_append]
    omega
  have hrest := nothing_found hlabel h rest
  rw [getImmutable_after, Option.or_eq_none_iff] at hrest
  exact hstored hrest.1
termination_by key.length

theorem oneStore_labelled (hlabel : label ≠ []) :
    o.OneStore label calls ↔ o.Seamless label calls := by
  rw [Seamless, if_neg hlabel]
  constructor
  · intro h
    have hnone := o.nothing_found label calls hlabel h
    refine ⟨?_,?_,?_⟩
    · intro key
      rw [← h.lookup, hnone]
    · intro name
      by_contra hne
      exact (h.keys name).mp ((o.mem_keys_after label calls name).mpr hne) (hnone name)
    · intro key
      have hkey := hnone key
      rw [getImmutable_after, Option.or_eq_none_iff] at hkey
      exact hkey.2
  · rintro ⟨hlookup,hstored,hfork⟩
    have hnone : ∀ key, (Backend.fork o.adapter).getImmutable label (o.after label calls) key = none := by
      intro key
      rw [getImmutable_after, hfork key]
      show (o.stored label calls (label ++ key)).or none = none
      rw [show o.stored label calls (label ++ key) = none from hstored _]
      rfl
    constructor
    · intro key
      rw [hnone, hlookup]
    · intro pre key
      rw [mem_scan_after, hnone]
      exact iff_of_false (fun h => h.2 (hstored key)) (fun h => h.2 rfl)
    · intro key
      rw [mem_keys_after, hnone]
      exact iff_of_false (fun h => h (hstored key)) (fun h => h rfl)

end Labelled

/-- The overlay behaves as one store exactly under the condition. -/
theorem fork_overlay_iff (label : Bytes) (o : Forked) (calls : List WriteCall) :
    o.OneStore label calls ↔ o.Seamless label calls := by
  by_cases hlabel : label = []
  · subst hlabel
    exact o.oneStore_plain calls
  · exact o.oneStore_labelled label calls hlabel

/-- A key of the fork is deleted, with either variant: the lookup finds it again. A batch under a label,
handed to a legacy adapter: the lookup does not find it. -/
theorem fork_overlay_torn :
    (∀ isLegacy, ¬(Forked.mk ∅ (KV.write ∅ [.put (ascii "a") [1]]) 0 isLegacy).OneStore []
      [.delete (ascii "a")]) ∧
    (Forked.mk ∅ ∅ 0 true).lookup (ascii "x://") [.write [.put (ascii "a") [1]]] (ascii "a") = some [1] ∧
    ¬(Forked.mk ∅ ∅ 0 true).OneStore (ascii "x://") [.write [.put (ascii "a") [1]]] := by
  refine ⟨?_,by decide +kernel,?_⟩
  · intro isLegacy h
    have hlookup := h.lookup (ascii "a")
    revert hlookup
    cases isLegacy <;> decide +kernel
  · intro h
    have hlookup := h.lookup (ascii "a")
    revert hlookup
    decide +kernel

end Forked

end Metashrew
