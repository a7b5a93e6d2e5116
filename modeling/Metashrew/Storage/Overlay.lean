import Metashrew.Storage.Backends

namespace Metashrew

open Bytes

namespace Heap

@[simp] theorem db_writeShadow (σ : Heap) (s i : Nat) (ops : List Op) :
    (σ.writeShadow s ops).db i = σ.db i := rfl

@[simp] theorem map_writeShadow (σ : Heap) (s i : Nat) (ops : List Op) :
    (σ.writeShadow s ops).map i = σ.map i := rfl

@[simp] theorem shadow_writeDb (σ : Heap) (d i : Nat) (ops : List Op) :
    (σ.writeDb d ops).shadow i = σ.shadow i := rfl

@[simp] theorem db_writeMap (σ : Heap) (m i : Nat) (ops : List Op) :
    (σ.writeMap m ops).db i = σ.db i := rfl

@[simp] theorem shadow_writeMap (σ : Heap) (m i : Nat) (ops : List Op) :
    (σ.writeMap m ops).shadow i = σ.shadow i := rfl

theorem writeDb_nil (σ : Heap) (i : Nat) : σ.writeDb i [] = σ := by
  show { σ with dbs := σ.dbs.modify i id } = σ
  rw [List.modify_id]

theorem writeMap_nil (σ : Heap) (i : Nat) : σ.writeMap i [] = σ := by
  show { σ with maps := σ.maps.modify i id } = σ
  rw [List.modify_id]

theorem writeShadow_nil (σ : Heap) (i : Nat) : σ.writeShadow i [] = σ := by
  show { σ with shadows := σ.shadows.modify i id } = σ
  rw [List.modify_id]

theorem writeDb_append (σ : Heap) (i : Nat) (xs ys : List Op) :
    (σ.writeDb i xs).writeDb i ys = σ.writeDb i (xs ++ ys) := by
  simp only [writeDb, List.modify_modify_eq]
  congr 2
  funext db
  exact (KV.write_append db xs ys).symm

theorem writeMap_append (σ : Heap) (i : Nat) (xs ys : List Op) :
    (σ.writeMap i xs).writeMap i ys = σ.writeMap i (xs ++ ys) := by
  simp only [writeMap, List.modify_modify_eq]
  congr 2
  funext db
  exact (KV.write_append db xs ys).symm

theorem writeShadow_append (σ : Heap) (i : Nat) (xs ys : List Op) :
    (σ.writeShadow i xs).writeShadow i ys = σ.writeShadow i (xs ++ ys) := by
  simp only [writeShadow, List.modify_modify_eq]
  congr 2
  funext shadow
  exact (KV.Overlay.apply_append shadow xs ys).symm

theorem shadow_writeShadow {σ : Heap} {i : Nat} (hi : i < σ.shadows.length) (ops : List Op) :
    (σ.writeShadow i ops).shadow i = (σ.shadow i).apply ops := by
  simp [shadow, writeShadow, List.getD, hi]

theorem db_writeDb {σ : Heap} {i : Nat} (hi : i < σ.dbs.length) (ops : List Op) :
    (σ.writeDb i ops).db i = KV.write (σ.db i) ops := by
  simp [db, writeDb, List.getD, hi]

end Heap

theorem rocksDBBatch_nil (ops : List Op) : rocksDBBatch [] ops = ops := by
  have hid : labelOp [] = id := by
    funext op
    cases op <;> rfl
  rw [rocksDBBatch, hid, List.map_id]

/-- The writes that a call asks for, under the label. -/
def WriteCall.ops (label : Bytes) : WriteCall → List Op
  | .put key value => [.put (makeLabeledKey label key) value]
  | .delete key => [.delete (makeLabeledKey label key)]
  | .write batch => rocksDBBatch label batch

/-- The writes of calls up to the first one that panics. -/
def writtenBy (callOps : WriteCall → Except Fault (List Op)) : List WriteCall → List Op
  | [] => []
  | c::cs =>
    match callOps c with
    | .ok ops => ops ++ writtenBy callOps cs
    | .error _ => []

theorem writtenBy_ok (f : WriteCall → List Op) (calls : List WriteCall) :
    writtenBy (fun c => .ok (f c)) calls = calls.flatMap f := by
  induction calls with
  | nil => rfl
  | cons c cs ih => rw [writtenBy, ih, List.flatMap_cons]

/-- Calls that land in one place leave all their writes there, in order. -/
theorem Backend.runCalls_eq {label : Bytes} {b : Backend}
    {callOps : WriteCall → Except Fault (List Op)} {land : List Op → Heap → Heap}
    (hcall : ∀ σ c, b.call label σ c = (callOps c).map fun ops => land ops σ)
    (hnil : ∀ σ, land [] σ = σ) (happend : ∀ xs ys σ, land ys (land xs σ) = land (xs ++ ys) σ)
    (calls : List WriteCall) (σ : Heap) :
    b.runCalls label calls σ = land (writtenBy callOps calls) σ := by
  induction calls generalizing σ with
  | nil => exact (hnil σ).symm
  | cons c cs ih =>
    rw [Backend.runCalls, hcall, writtenBy]
    cases callOps c with
    | error e => exact (hnil σ).symm
    | ok ops =>
      show b.runCalls label cs (land ops σ) = _
      rw [ih, happend]

namespace RocksDBRuntimeAdapter

/-- The overlay of an adapter; without a shadow it is empty. -/
def overlay (a : RocksDBRuntimeAdapter) (σ : Heap) : Shadow :=
  match a.writeShadow with
  | some s => σ.shadow s
  | none => ∅

/-- The content that a lookup falls through to: the database over the forked one. -/
def lookedUp (a : RocksDBRuntimeAdapter) (σ : Heap) : Store :=
  match a.forkDb with
  | some f => σ.db f ∪ σ.db a.db
  | none => σ.db a.db

theorem get_lookedUp (a : RocksDBRuntimeAdapter) (σ : Heap) (key : Bytes) :
    KV.get (a.lookedUp σ) key =
      (KV.get (σ.db a.db) key).or (a.forkDb.bind fun f => KV.get (σ.db f) key) := by
  rw [lookedUp]
  cases a.forkDb with
  | none => simp
  | some f => exact Std.ExtTreeMap.getElem?_union

/-- A lookup reads the content under the overlay. -/
theorem getImmutable_eq (label : Bytes) (a : RocksDBRuntimeAdapter) (σ : Heap) (key : Bytes) :
    a.getImmutable label σ key =
      (a.overlay σ).resolve (KV.get (a.lookedUp σ) (makeLabeledKey label key))
        (makeLabeledKey label key) := by
  rw [get_lookedUp, getImmutable, overlay, KV.Overlay.resolve]
  cases a.writeShadow with
  | none =>
    simp only [Option.bind_none, KV.get_empty, Option.getD_none]
    cases KV.get (σ.db a.db) (makeLabeledKey label key) <;> rfl
  | some s =>
    simp only [Option.bind_some]
    cases KV.get (σ.shadow s) (makeLabeledKey label key) with
    | none => cases KV.get (σ.db a.db) (makeLabeledKey label key) <;> rfl
    | some opt => rfl

theorem scanPrefix_eq (label : Bytes) (a : RocksDBRuntimeAdapter) (σ : Heap) (pre : Bytes) :
    a.scanPrefix label σ pre =
      (a.overlay σ).merge (fun key => (makeLabeledKey label pre).isPrefixOf key)
        ((σ.db a.db).toList.filter fun e => (makeLabeledKey label pre).isPrefixOf e.1) := by
  rw [scanPrefix, overlay, KV.seekPrefix_eq_filter _ Std.ExtTreeMap.ordered_keys_toList]
  cases a.writeShadow with
  | none => exact (KV.Overlay.merge_empty ..).symm
  | some s => rfl

theorem keys_eq (a : RocksDBRuntimeAdapter) (σ : Heap) :
    a.keys σ = ((a.overlay σ).merge (fun _ => true) (σ.db a.db).toList).map Prod.fst := by
  rw [keys, overlay]
  cases a.writeShadow with
  | none => rw [KV.Overlay.merge_empty, Std.ExtTreeMap.map_fst_toList_eq_keys]
  | some s => rw [← KV.Overlay.mergeKeys_eq, Std.ExtTreeMap.map_fst_toList_eq_keys]

/-- All calls of an adapter with a shadow land in the shadow, and none fails. -/
theorem runCalls_shadow (label : Bytes) {a : RocksDBRuntimeAdapter} {s : Nat}
    (hs : a.writeShadow = some s) (calls : List WriteCall) (σ : Heap) :
    (Backend.rocks a).runCalls label calls σ =
      σ.writeShadow s (calls.flatMap (WriteCall.ops label)) := by
  have hcall : ∀ (σ : Heap) c, (Backend.rocks a).call label σ c =
      (Except.ok (c.ops label)).map fun ops => σ.writeShadow s ops := by
    intro σ c
    cases c <;> simp only [Backend.call, put, delete, write, hs] <;> rfl
  rw [Backend.runCalls_eq hcall (fun σ => σ.writeShadow_nil s)
    (fun xs ys σ => σ.writeShadow_append s xs ys), writtenBy_ok]

section Copy

variable (label : Bytes) (a : RocksDBRuntimeAdapter) (σ : Heap) (calls : List WriteCall)

/-- What the heap is after calls on an isolated copy. -/
def copyRun : Heap :=
  (Backend.rocks (a.createIsolatedCopy σ).1).runCalls label calls (a.createIsolatedCopy σ).2

theorem copyRun_db (i : Nat) : (a.copyRun label σ calls).db i = σ.db i := by
  rw [copyRun, runCalls_shadow label rfl]
  rfl

theorem copy_lookedUp :
    (a.createIsolatedCopy σ).1.lookedUp (a.copyRun label σ calls) = a.lookedUp σ := by
  simp only [lookedUp, copyRun_db]
  rfl

theorem copy_overlay :
    (a.createIsolatedCopy σ).1.overlay (a.copyRun label σ calls) =
      KV.Overlay.apply ∅ (calls.flatMap (WriteCall.ops label)) := by
  rw [copyRun, runCalls_shadow label rfl]
  have hlen : σ.shadows.length < (a.createIsolatedCopy σ).2.shadows.length := by
    simp [createIsolatedCopy]
  have hfresh : (a.createIsolatedCopy σ).2.shadow σ.shadows.length = ∅ := by
    simp [createIsolatedCopy, Heap.shadow]
  exact (Heap.shadow_writeShadow hlen _).trans (by rw [hfresh])

theorem copy_getImmutable (key : Bytes) :
    (a.createIsolatedCopy σ).1.getImmutable label (a.copyRun label σ calls) key =
      KV.get (KV.write (a.lookedUp σ) (calls.flatMap (WriteCall.ops label)))
        (makeLabeledKey label key) := by
  rw [getImmutable_eq, copy_overlay, copy_lookedUp, KV.Overlay.resolve_write]

theorem copy_merge (keep : Bytes → Bool) :
    (((a.createIsolatedCopy σ).1.overlay (a.copyRun label σ calls)).merge keep
      (((a.copyRun label σ calls).db a.db).toList.filter fun e => keep e.1)).Perm
      ((KV.write (σ.db a.db) (calls.flatMap (WriteCall.ops label))).toList.filter
        fun e => keep e.1) := by
  rw [copy_overlay, copyRun_db]
  exact KV.Overlay.merge_write keep (σ.db a.db) _

end Copy

/-- A handle without fork or shadow on a database of its own. -/
def deepCopy (content : Store) : RocksDBRuntimeAdapter × Heap := (⟨0,none,0,none⟩,⟨[content],[],[]⟩)

section DeepCopy

variable (content : Store)

theorem deepCopy_getImmutable (key : Bytes) :
    (deepCopy content).1.getImmutable [] (deepCopy content).2 key = KV.get content key := by
  rw [getImmutable_eq]
  exact KV.Overlay.resolve_empty ..

theorem deepCopy_scanPrefix (pre : Bytes) :
    (deepCopy content).1.scanPrefix [] (deepCopy content).2 pre =
      content.toList.filter fun e => pre.isPrefixOf e.1 := by
  rw [scanPrefix_eq]
  exact KV.Overlay.merge_empty ..

theorem deepCopy_keys :
    (deepCopy content).1.keys (deepCopy content).2 = content.toList.map Prod.fst := by
  rw [keys_eq]
  exact congrArg _ (KV.Overlay.merge_empty ..)

end DeepCopy

/-- An isolated copy answers like a deep copy to which its writes were applied, whatever the calls
were, and that one reads its content as it is. Only a lookup sees a forked database, so with one the
two contents differ; without one both are the database. -/
theorem isolated_copy_refines (a : RocksDBRuntimeAdapter) (σ : Heap) (calls : List WriteCall) :
    let copy := (a.createIsolatedCopy σ).1
    let τ := a.copyRun [] σ calls
    let ops := calls.flatMap (WriteCall.ops [])
    let looked := KV.write (a.lookedUp σ) ops
    let scanned := KV.write (σ.db a.db) ops
    (∀ key, copy.getImmutable [] τ key = KV.get looked key ∧
      (deepCopy looked).1.getImmutable [] (deepCopy looked).2 key = KV.get looked key) ∧
    (∀ pre, (copy.scanPrefix [] τ pre).Perm (scanned.toList.filter fun e => pre.isPrefixOf e.1) ∧
      (deepCopy scanned).1.scanPrefix [] (deepCopy scanned).2 pre =
        scanned.toList.filter fun e => pre.isPrefixOf e.1) ∧
    (copy.keys τ).Perm (scanned.toList.map Prod.fst) ∧
      (deepCopy scanned).1.keys (deepCopy scanned).2 = scanned.toList.map Prod.fst := by
  intro copy τ ops looked scanned
  refine ⟨?_,?_,?_,deepCopy_keys scanned⟩
  · exact fun key => ⟨a.copy_getImmutable [] σ calls key,deepCopy_getImmutable looked key⟩
  · intro pre
    refine ⟨?_,deepCopy_scanPrefix scanned pre⟩
    rw [scanPrefix_eq]
    exact a.copy_merge [] σ calls _
  · have hall : ∀ es : List (Bytes × Bytes), es.filter (fun _ => true) = es := fun es => by simp
    have hm := a.copy_merge [] σ calls fun _ => true
    rw [hall, hall] at hm
    rw [keys_eq]
    exact hm.map Prod.fst

end RocksDBRuntimeAdapter

end Metashrew
