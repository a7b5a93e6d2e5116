import Metashrew.Storage.Overlay

namespace Metashrew

open Bytes

namespace Backend

/-- Two heaps answer all reads of a handle alike; scans and listings promise no order. -/
def SameReads (label : Bytes) (b : Backend) (σ σ' : Heap) : Prop :=
  (∀ key, b.getImmutable label σ key = b.getImmutable label σ' key) ∧
  (∀ pre, (b.scanPrefix label σ pre).Perm (b.scanPrefix label σ' pre)) ∧
  (b.keys σ).Perm (b.keys σ')

end Backend

def RocksDBRuntimeAdapter.Live (a : RocksDBRuntimeAdapter) (σ : Heap) : Prop :=
  a.db < σ.dbs.length ∧ (∀ f ∈ a.forkDb, f < σ.dbs.length) ∧
    ∀ s ∈ a.writeShadow, s < σ.shadows.length

/-- The fork variants as one handle; a legacy one has no shadow. -/
def ForkAdapter.handle : ForkAdapter → RocksDBRuntimeAdapter
  | .modern adapter => adapter
  | .legacy adapter => ⟨adapter.db,adapter.forkDb,adapter.height,none⟩

/-- All that a handle holds exists. -/
def Backend.Live (σ : Heap) : Backend → Prop
  | .rocks adapter => adapter.Live σ
  | .fork adapter => adapter.handle.Live σ
  | .mem adapter => adapter.db < σ.maps.length

/-- A handle and the heap in which it is open. -/
structure Opened where
  heap : Heap
  backend : Backend
  live : backend.Live heap

/-- The heap after calls on an isolated copy of the handle. -/
def Opened.previewed (label : Bytes) (o : Opened) (calls : List WriteCall) : Heap :=
  (o.backend.createIsolatedCopy o.heap).1.runCalls label calls
    (o.backend.createIsolatedCopy o.heap).2

namespace RocksDBRuntimeAdapter

/-- What scans and listings make of a key. -/
def listed (a : RocksDBRuntimeAdapter) (σ : Heap) (key : Bytes) : Option Bytes :=
  (a.overlay σ).resolve (KV.get (σ.db a.db) key) key

/-- What a lookup makes of a key. -/
def looked (a : RocksDBRuntimeAdapter) (σ : Heap) (key : Bytes) : Option Bytes :=
  (a.overlay σ).resolve (KV.get (a.lookedUp σ) key) key

def land (a : RocksDBRuntimeAdapter) (ops : List Op) (σ : Heap) : Heap :=
  match a.writeShadow with
  | some s => σ.writeShadow s ops
  | none => σ.writeDb a.db ops

theorem land_nil (a : RocksDBRuntimeAdapter) (σ : Heap) : a.land [] σ = σ := by
  rw [land]
  cases a.writeShadow with
  | some s => exact σ.writeShadow_nil s
  | none => exact σ.writeDb_nil a.db

theorem land_append (a : RocksDBRuntimeAdapter) (xs ys : List Op) (σ : Heap) :
    a.land ys (a.land xs σ) = a.land (xs ++ ys) σ := by
  rw [land, land, land]
  cases a.writeShadow with
  | some s => exact σ.writeShadow_append s xs ys
  | none => exact σ.writeDb_append a.db xs ys

theorem listed_land {a : RocksDBRuntimeAdapter} {σ : Heap} (hl : a.Live σ) (ops : List Op)
    (key : Bytes) :
    a.listed (a.land ops σ) key = (KV.effect ops key).getD (a.listed σ key) := by
  rw [listed, listed, land, overlay, overlay]
  cases hs : a.writeShadow with
  | some s =>
    simp only [Heap.db_writeShadow]
    rw [Heap.shadow_writeShadow (hl.2.2 s hs), KV.Overlay.resolve_apply]
  | none =>
    simp only [KV.Overlay.resolve_empty]
    rw [Heap.db_writeDb hl.1, KV.get_write]

theorem looked_land {a : RocksDBRuntimeAdapter} {σ : Heap} (hl : a.Live σ)
    (hs : a.writeShadow.isSome) (ops : List Op) (key : Bytes) :
    a.looked (a.land ops σ) key = (KV.effect ops key).getD (a.looked σ key) := by
  obtain ⟨s,hs⟩ := Option.isSome_iff_exists.mp hs
  have hbase : a.lookedUp (σ.writeShadow s ops) = a.lookedUp σ := rfl
  simp only [looked, land, overlay, hs, hbase]
  rw [Heap.shadow_writeShadow (hl.2.2 s hs), KV.Overlay.resolve_apply]

/-- Writing back what the database holds leaves the heap as it is. -/
theorem writeDb_same {σ : Heap} {i : Nat} {ops : List Op}
    (h : ∀ key x, KV.effect ops key = some x → x = KV.get (σ.db i) key) : σ.writeDb i ops = σ := by
  have hdb : ∀ db, σ.dbs[i]? = some db → KV.write db ops = db := by
    intro db hdb
    have hi : σ.db i = db := by simp [Heap.db, List.getD, hdb]
    apply Std.ExtTreeMap.ext_getElem?
    intro key
    show KV.get (KV.write db ops) key = KV.get db key
    rw [KV.get_write]
    cases he : KV.effect ops key with
    | none => rfl
    | some x => exact (h key x he).trans (by rw [hi])
  have hdbs : σ.dbs.modify i (fun db => KV.write db ops) = σ.dbs := by
    apply List.ext_getElem?
    intro j
    rw [List.getElem?_modify]
    cases hj : σ.dbs[j]? with
    | none => rfl
    | some db =>
      by_cases hij : i=j
      · subst hij
        simp [hdb db hj]
      · simp [hij]
  rw [Heap.writeDb, hdbs]

end RocksDBRuntimeAdapter

namespace ForkAdapter

def callOps (label : Bytes) : ForkAdapter → WriteCall → Except Fault (List Op)
  | .modern adapter, .write batch =>
    if adapter.writeShadow.isSome then .ok (rocksDBBatch label batch)
    else adapter.createAtomicBatch label (rocksDBBatch label batch)
  | .legacy _, .write batch => .ok (rocksDBBatch label (rocksDBBatch label batch))
  | _, c => .ok (c.ops label)

/-- All that calls write, the height record of a modern adapter among it. -/
def written (label : Bytes) (f : ForkAdapter) : List WriteCall → List Op := writtenBy (f.callOps label)

theorem call_eq (label : Bytes) (f : ForkAdapter) (σ : Heap) (c : WriteCall) :
    (Backend.fork f).call label σ c = (f.callOps label c).map fun ops => f.handle.land ops σ := by
  cases f with
  | legacy a => cases c <;> rfl
  | modern a =>
    cases hs : a.writeShadow with
    | some s =>
      cases c <;> simp only [Backend.call, put, delete, write, callOps, handle,
        RocksDBRuntimeAdapter.put, RocksDBRuntimeAdapter.delete, RocksDBRuntimeAdapter.write,
        RocksDBRuntimeAdapter.land, hs] <;> rfl
    | none =>
      cases c with
      | write batch =>
        simp only [Backend.call, write, callOps, handle, RocksDBRuntimeAdapter.write,
          RocksDBRuntimeAdapter.land, hs]
        cases a.createAtomicBatch label (rocksDBBatch label batch) <;> rfl
      | put key value =>
        simp only [Backend.call, put, callOps, handle, RocksDBRuntimeAdapter.put,
          RocksDBRuntimeAdapter.land, hs]
        rfl
      | delete key =>
        simp only [Backend.call, delete, callOps, handle, RocksDBRuntimeAdapter.delete,
          RocksDBRuntimeAdapter.land, hs]
        rfl

/-- Each written key ends with the value that it had. -/
def WritesBack (label : Bytes) (f : ForkAdapter) (σ : Heap) (calls : List WriteCall) : Prop :=
  ∀ key x, KV.effect (f.written label calls) key = some x →
    x = f.handle.listed σ key ∧ (f.handle.writeShadow.isSome → x = f.handle.looked σ key)

/-- The label stands before every key that calls write. -/
theorem labeled_of_written {label : Bytes} {f : ForkAdapter} {calls : List WriteCall} {op : Op}
    (h : op ∈ f.written label calls) : ∃ key, op.key = makeLabeledKey label key := by
  have hbatch : ∀ ops : List Op, ∀ op ∈ rocksDBBatch label ops,
      ∃ key, op.key = makeLabeledKey label key := by
    intro ops op hop
    obtain ⟨d,_,rfl⟩ := List.mem_map.mp hop
    cases d with
    | put key value => exact ⟨key,rfl⟩
    | delete key => exact ⟨key,rfl⟩
  have hplain : ∀ c : WriteCall, ∀ op ∈ c.ops label, ∃ key, op.key = makeLabeledKey label key := by
    intro c op hop
    cases c with
    | put key value => exact ⟨key,by rw [List.mem_singleton.mp hop]; rfl⟩
    | delete key => exact ⟨key,by rw [List.mem_singleton.mp hop]; rfl⟩
    | write batch => exact hbatch batch op hop
  have hcall : ∀ c ops, f.callOps label c = .ok ops → ∀ op ∈ ops,
      ∃ key, op.key = makeLabeledKey label key := by
    intro c ops hc op hop
    cases f with
    | legacy a =>
      cases c with
      | write batch => cases hc; exact hbatch _ op hop
      | put key value => cases hc; exact hplain (.put key value) op hop
      | delete key => cases hc; exact hplain (.delete key) op hop
    | modern a =>
      cases c with
      | put key value => cases hc; exact hplain (.put key value) op hop
      | delete key => cases hc; exact hplain (.delete key) op hop
      | write batch =>
        rw [callOps] at hc
        by_cases hs : a.writeShadow.isSome
        · rw [if_pos hs] at hc
          cases hc
          exact hbatch _ op hop
        · rw [if_neg hs, RocksDBRuntimeAdapter.createAtomicBatch] at hc
          cases ha : addU32 a.height 1 with
          | error e => rw [ha] at hc; cases hc
          | ok tip =>
            rw [ha] at hc
            cases hc
            rcases List.mem_cons.mp hop with rfl | hop
            · exact ⟨tipHeightKey,rfl⟩
            · exact hbatch _ op hop
  rw [written] at h
  induction calls with
  | nil => cases h
  | cons c cs ih =>
    rw [writtenBy] at h
    cases hc : f.callOps label c with
    | error e => rw [hc] at h; cases h
    | ok ops =>
      rw [hc] at h
      rcases List.mem_append.mp h with h | h
      · exact hcall c ops hc op h
      · exact ih h

end ForkAdapter

namespace ForkAdapter

theorem getImmutable_handle (label : Bytes) (f : ForkAdapter) (σ : Heap) (key : Bytes) :
    (Backend.fork f).getImmutable label σ key = f.handle.looked σ (makeLabeledKey label key) := by
  have h : (Backend.fork f).getImmutable label σ key = f.handle.getImmutable label σ key := by
    cases f <;> rfl
  rw [h, RocksDBRuntimeAdapter.getImmutable_eq]
  rfl

/-- Scans agree when every key behind the label is listed with the same value. -/
theorem scanPrefix_perm_iff (label : Bytes) (f : ForkAdapter) (σ σ' : Heap) :
    (∀ pre, ((Backend.fork f).scanPrefix label σ pre).Perm
      ((Backend.fork f).scanPrefix label σ' pre)) ↔
      ∀ key, f.handle.listed σ (makeLabeledKey label key) =
        f.handle.listed σ' (makeLabeledKey label key) := by
  have h : ∀ σ pre, (Backend.fork f).scanPrefix label σ pre = f.handle.scanPrefix label σ pre := by
    intro σ pre
    cases f <;> rfl
  simp only [h, RocksDBRuntimeAdapter.scanPrefix_eq, KV.Overlay.merge_perm_iff]
  constructor
  · intro hscan key
    apply hscan [] (makeLabeledKey label key)
    rw [makeLabeledKey, makeLabeledKey, List.append_nil]
    exact List.isPrefixOf_iff_prefix.mpr (List.prefix_append label key)
  · intro hlisted pre key hpre
    obtain ⟨t,rfl⟩ := List.isPrefixOf_iff_prefix.mp hpre
    rw [makeLabeledKey, List.append_assoc]
    exact hlisted (pre ++ t)

theorem keys_perm {f : ForkAdapter} {σ σ' : Heap}
    (h : ∀ key, f.handle.listed σ key = f.handle.listed σ' key) :
    ((Backend.fork f).keys σ).Perm ((Backend.fork f).keys σ') := by
  have hkeys : ∀ σ, (Backend.fork f).keys σ = f.handle.keys σ := by
    intro σ
    cases f <;> rfl
  have hall : ∀ es : List (Bytes × Bytes), es.filter (fun _ => true) = es := fun es => by simp
  rw [hkeys, hkeys, RocksDBRuntimeAdapter.keys_eq, RocksDBRuntimeAdapter.keys_eq]
  apply List.Perm.map
  rw [← hall (σ.db f.handle.db).toList, ← hall (σ'.db f.handle.db).toList]
  apply KV.Overlay.merge_perm_iff.mpr
  intro key _
  exact h key

theorem sameReads_iff {label : Bytes} {f : ForkAdapter} {σ : Heap} (hl : f.handle.Live σ)
    (calls : List WriteCall) :
    (Backend.fork f).SameReads label σ (f.handle.land (f.written label calls) σ) ↔
      f.WritesBack label σ calls := by
  have hlanded := RocksDBRuntimeAdapter.listed_land hl (f.written label calls)
  constructor
  · rintro ⟨hget,hscan,-⟩ key x he
    have hlisted := (f.scanPrefix_perm_iff label σ _).mp hscan
    obtain ⟨k,rfl⟩ : ∃ k, key = makeLabeledKey label k := by
      by_contra hno
      have hnone : KV.effect (f.written label calls) key = none := by
        apply KV.effect_eq_none
        rintro op hop rfl
        exact hno (labeled_of_written hop)
      rw [hnone] at he
      cases he
    constructor
    · rw [hlisted k, hlanded, he]
      rfl
    · intro hs
      have hk := hget k
      rw [getImmutable_handle, getImmutable_handle, RocksDBRuntimeAdapter.looked_land hl hs, he] at hk
      exact hk.symm
  · intro hback
    have hsame : ∀ key, f.handle.listed σ key =
        f.handle.listed (f.handle.land (f.written label calls) σ) key := by
      intro key
      rw [hlanded]
      cases he : KV.effect (f.written label calls) key with
      | none => rfl
      | some x => exact (hback key x he).1.symm
    refine ⟨?_,(f.scanPrefix_perm_iff label σ _).mpr fun key => hsame _,keys_perm hsame⟩
    intro key
    rw [getImmutable_handle, getImmutable_handle]
    cases hs : f.handle.writeShadow with
    | some s =>
      have hsome : f.handle.writeShadow.isSome := by rw [hs]; rfl
      rw [RocksDBRuntimeAdapter.looked_land hl hsome]
      cases he : KV.effect (f.written label calls) (makeLabeledKey label key) with
      | none => rfl
      | some x => exact ((hback _ x he).2 hsome).symm
    | none =>
      -- without a shadow the database itself keeps its content, so no handle sees a change
      have hdb : f.handle.land (f.written label calls) σ = σ := by
        rw [RocksDBRuntimeAdapter.land, hs]
        apply RocksDBRuntimeAdapter.writeDb_same
        intro key x he
        rw [(hback key x he).1, RocksDBRuntimeAdapter.listed, RocksDBRuntimeAdapter.overlay, hs]
        exact KV.Overlay.resolve_empty ..
      rw [hdb]

end ForkAdapter

/-- The calls on the copy leave the original's own shadow and all databases. -/
theorem RocksDBRuntimeAdapter.copy_sameReads {label : Bytes} {a : RocksDBRuntimeAdapter} {σ : Heap}
    (hl : a.Live σ) (calls : List WriteCall) :
    (Backend.rocks a).SameReads label σ (a.copyRun label σ calls) := by
  have hoverlay : a.overlay (a.copyRun label σ calls) = a.overlay σ := by
    rw [overlay, overlay]
    cases hs : a.writeShadow with
    | none => rfl
    | some s =>
      have hlt := hl.2.2 s hs
      have hne : σ.shadows.length≠s := Nat.ne_of_gt hlt
      rw [copyRun, runCalls_shadow label rfl]
      simp [Heap.shadow, Heap.writeShadow, createIsolatedCopy, List.getD, hne,
        List.getElem?_append_left hlt]
  have hlooked : a.lookedUp (a.copyRun label σ calls) = a.lookedUp σ := by
    simp only [lookedUp, copyRun_db]
  refine ⟨?_,?_,?_⟩
  · intro key
    show a.getImmutable label σ key = a.getImmutable label (a.copyRun label σ calls) key
    rw [getImmutable_eq, getImmutable_eq, hoverlay, hlooked]
  · intro pre
    show (a.scanPrefix label σ pre).Perm (a.scanPrefix label (a.copyRun label σ calls) pre)
    rw [scanPrefix_eq, scanPrefix_eq, hoverlay, copyRun_db]
  · show (a.keys σ).Perm (a.keys (a.copyRun label σ calls))
    rw [keys_eq, keys_eq, hoverlay, copyRun_db]

theorem MemStoreAdapter.runCalls_map (label : Bytes) (a : MemStoreAdapter) (calls : List WriteCall)
    (σ : Heap) : ∃ ops, (Backend.mem a).runCalls label calls σ = σ.writeMap a.db ops := by
  induction calls generalizing σ with
  | nil => exact ⟨[],(σ.writeMap_nil a.db).symm⟩
  | cons c cs ih =>
    have hcall : ∀ σ', (Backend.mem a).call label σ c = .ok σ' → ∃ ops, σ' = σ.writeMap a.db ops := by
      intro σ' hc
      cases c with
      | put key value => cases hc; exact ⟨_,rfl⟩
      | delete key => cases hc; exact ⟨_,rfl⟩
      | write batch =>
        rw [Backend.call, write] at hc
        cases ha : addU32 a.height 1 with
        | error e => rw [ha] at hc; cases hc
        | ok tip => rw [ha] at hc; cases hc; exact ⟨_,rfl⟩
    rw [Backend.runCalls]
    cases hc : (Backend.mem a).call label σ c with
    | error e => exact ⟨[],(σ.writeMap_nil a.db).symm⟩
    | ok σ' =>
      obtain ⟨xs,rfl⟩ := hcall σ' hc
      obtain ⟨ys,hys⟩ := ih (σ.writeMap a.db xs)
      exact ⟨xs ++ ys,hys.trans (σ.writeMap_append a.db xs ys)⟩

/-- The copy has a map of its own. -/
theorem MemStoreAdapter.copy_sameReads {label : Bytes} {a : MemStoreAdapter} {σ : Heap}
    (hl : a.db < σ.maps.length) (calls : List WriteCall) :
    (Backend.mem a).SameReads label σ
      ((Backend.mem (a.createIsolatedCopy σ).1).runCalls label calls (a.createIsolatedCopy σ).2) := by
  obtain ⟨ops,hrun⟩ := (a.createIsolatedCopy σ).1.runCalls_map label calls (a.createIsolatedCopy σ).2
  have hne : σ.maps.length≠a.db := Nat.ne_of_gt hl
  have hmap : ((a.createIsolatedCopy σ).2.writeMap (a.createIsolatedCopy σ).1.db ops).map a.db =
      σ.map a.db := by
    simp [Heap.map, Heap.writeMap, createIsolatedCopy, List.getD, hne,
      List.getElem?_append_left hl]
  rw [hrun]
  refine ⟨?_,?_,?_⟩
  · intro key
    show KV.get (σ.map a.db) _ = KV.get (Heap.map _ a.db) _
    rw [hmap]
  · intro pre
    show List.Perm (List.filter _ (σ.map a.db).toList) (List.filter _ (Heap.map _ a.db).toList)
    rw [hmap]
  · show (σ.map a.db).keys.Perm (Heap.map _ a.db).keys
    rw [hmap]

/-- A preview leaves the reads of its handle alone, unless the handle is a fork adapter and the
calls write a key whose value they change: its copy is a clone that shares the database. -/
theorem preview_isolated_iff (label : Bytes) (o : Opened) (calls : List WriteCall) :
    o.backend.SameReads label o.heap (o.previewed label calls) ↔
      ∀ f, o.backend = .fork f → f.WritesBack label o.heap calls := by
  obtain ⟨σ,b,hl⟩ := o
  cases b with
  | rocks a =>
    constructor
    · intro _ f hf
      cases hf
    · intro _
      exact a.copy_sameReads hl calls
  | mem a =>
    constructor
    · intro _ f hf
      cases hf
    · intro _
      exact a.copy_sameReads hl calls
  | fork f =>
    have hrun : (Opened.mk σ (.fork f) hl).previewed label calls =
        f.handle.land (f.written label calls) σ :=
      Backend.runCalls_eq (f.call_eq label) f.handle.land_nil
        (fun xs ys σ => f.handle.land_append xs ys σ) calls σ
    rw [hrun, ForkAdapter.sameReads_iff hl]
    constructor
    · intro h g hg
      cases hg
      exact h
    · intro h
      exact h f rfl

/-- A fork adapter without forked database, open on an empty database. -/
private def emptyFork : Opened where
  heap := ⟨[∅],[],[]⟩
  backend := .fork (.modern ⟨0,none,0,none⟩)
  live := by simp [Backend.Live, RocksDBRuntimeAdapter.Live, ForkAdapter.handle]

private def emptyLegacy : Opened where
  heap := ⟨[∅],[],[]⟩
  backend := .fork (.legacy ⟨0,none,0⟩)
  live := by simp [Backend.Live, RocksDBRuntimeAdapter.Live, ForkAdapter.handle]

/-- One `put` on the copy of either variant shows up in the original. -/
theorem fork_preview_writes_through :
    ¬ emptyFork.backend.SameReads [] emptyFork.heap (emptyFork.previewed [] [.put [65] [1]]) ∧
    ¬ emptyLegacy.backend.SameReads [] emptyLegacy.heap
      (emptyLegacy.previewed [] [.put [65] [1]]) := by
  constructor
  · intro h
    have hget := h.1 [65]
    revert hget
    decide +kernel
  · intro h
    have hget := h.1 [65]
    revert hget
    decide +kernel

end Metashrew
