import Metashrew.Execution.Slot

namespace Metashrew

open Bytes

/-- What happens to a runtime: a block is processed on one of the two paths, or the storage adapter
has changed the store in between. -/
inductive Call where
  | atomic (x : Execution) (height : Nat) (blockHash : Bytes)
  | legacy (x : Execution) (height : Nat)
  | storage (σ : Store)

namespace MetashrewRuntime

/-- A runtime as it is set up. -/
def new (db : Store) (adapterHeight height : Nat) : MetashrewRuntime where
  db
  adapterHeight
  height
  currentBlockHash := []
  state := 0
  pendingAtomicBatch := none
  hadFailure := false
  lastFlushError := none

def step (rt : MetashrewRuntime) : Call → MetashrewRuntime
  | .atomic x height blockHash => (rt.processBlockAtomic x height blockHash).1
  | .legacy x height => (rt.processBlock x height).1
  | .storage σ => { rt with db := σ }

/-- The atomic path leaves the store alone and hands over the batch of its own last flush; the
legacy path has written its flushes when it reports success. -/
def KeepsFlush (rt : MetashrewRuntime) : Call → Prop
  | .atomic x height blockHash =>
    (rt.processBlockAtomic x height blockHash).1.db = rt.db ∧
      ∀ result, (rt.processBlockAtomic x height blockHash).2 = .ok result →
        result.height = height ∧ result.blockHash = blockHash ∧ ∃ call kvs,
          x.flushes.getLast? = some call ∧ call.keyValues = some kvs ∧
            flushBatch rt.db call.readFaults height kvs.list = .ok result.batchData
  | .legacy x height =>
    (rt.processBlock x height).2 = .ok () → x.flushes ≠ [] ∧
      Written rt.adapterHeight height rt.db x.flushes (rt.processBlock x height).1.db
  | .storage _ => True

/-- Every call of a run keeps its flush. -/
def KeepsFlushes (rt : MetashrewRuntime) : List Call → Prop
  | [] => True
  | c::cs => rt.KeepsFlush c ∧ (rt.step c).KeepsFlushes cs

/-- The slot is not armed whenever `process_block` is called. -/
def SlotFree (rt : MetashrewRuntime) : List Call → Prop
  | [] => True
  | c::cs => (∀ x height, c = .legacy x height → rt.pendingAtomicBatch = none) ∧
    (rt.step c).SlotFree cs

theorem step_keepsFlush {rt : MetashrewRuntime} {c : Call}
    (h : ∀ x height, c = .legacy x height → rt.pendingAtomicBatch = none) : rt.KeepsFlush c := by
  cases c with
  | atomic x height blockHash =>
    exact ⟨rt.processBlockAtomic_db x height blockHash,fun result hr => processBlockAtomic_ok hr⟩
  | legacy x height =>
    intro hok
    exact processBlock_ok (h x height rfl) hok
  | storage σ => trivial

/-- No flush is dropped in a run that never calls `process_block` with the slot armed. -/
theorem no_flush_dropped (rt : MetashrewRuntime) (calls : List Call) (h : rt.SlotFree calls) :
    rt.KeepsFlushes calls := by
  induction calls generalizing rt with
  | nil => trivial
  | cons c cs ih =>
    obtain ⟨hc,hcs⟩ := h
    exact ⟨step_keepsFlush hc,ih (rt.step c) hcs⟩

theorem completeRun_slot (rt : MetashrewRuntime) (x : Execution) :
    (rt.completeRun x).1.pendingAtomicBatch = rt.pendingAtomicBatch := by
  unfold completeRun
  cases x.refreshError with
  | none => rfl
  | some e => rfl

/-- `process_block` neither arms nor frees the slot. -/
theorem processBlock_slot (rt : MetashrewRuntime) (x : Execution) (height : Nat) :
    (rt.processBlock x height).1.pendingAtomicBatch.isSome = rt.pendingAtomicBatch.isSome := by
  cases hs : x.hasStart with
  | false => simp [processBlock, run, hs]
  | true =>
    obtain ⟨_,_,hslot,_,_⟩ := (rt.preparedFor x height).flushAll_frame x.flushes
    rw [processBlock_eq hs]
    cases hall : (rt.preparedFor x height).flushAll x.flushes with
    | mk rt1 panicked =>
      rw [hall] at hslot
      cases panicked with
      | some text => exact hslot
      | none =>
        change (rt1.completeRun x).1.pendingAtomicBatch.isSome = _
        rw [completeRun_slot]
        exact hslot

/-- One flush of one pair. -/
private def onePair (rootFaults : ReadFaults) : Execution where
  hasStart := true
  flushes := [⟨some (.single 'a' [1]),.none,none⟩]
  hostFailure := false
  trap := none
  rootFaults
  refreshError := none

theorem no_flush_dropped_two_calls :
    (new ∅ 0 0).KeepsFlushes [.atomic (onePair .none) 0 [7],.legacy (onePair .none) 1] := by
  apply no_flush_dropped
  refine ⟨(by simp),fun x height _ => ?_,trivial⟩
  have hfree : ((new ∅ 0 0).processBlockAtomic (onePair .none) 0 [7]).1.pendingAtomicBatch =
      none := by decide +kernel
  exact hfree

private def unreadableRoot : Execution :=
  onePair ⟨fun _ => none,fun _ => some "IO error"⟩

/-- After a failed read of the state root the slot stays armed, and the next `process_block` reports
success without a write. -/
theorem flush_dropped :
    ¬(new ∅ 0 0).KeepsFlushes [.atomic unreadableRoot 0 [7],.legacy (onePair .none) 0] := by
  let rt := (new ∅ 0 0).step (.atomic unreadableRoot 0 [7])
  have hok : (rt.processBlock (onePair .none) 0).2 = .ok () := by decide +kernel
  have hlost : KV.get (rt.processBlock (onePair .none) 0).1.db (lengthKey (ascii "a")) = none := by
    decide +kernel
  have hbatch : (flushBatch rt.db .none 0 [(ascii "a",[1])]).toOption.all (fun batch =>
      (KV.get (KV.write rt.db (.put tipHeightKey (u32le 1)::batch)) (lengthKey (ascii "a"))).isSome) =
      true := by decide +kernel
  intro hkeeps
  obtain ⟨_,hw⟩ := hkeeps.2.1 hok
  change Written 0 0 rt.db (onePair .none).flushes _ at hw
  generalize (rt.processBlock (onePair .none) 0).1.db = τ at hlost hw
  cases hw with
  | cons hk hb hw =>
    cases hk
    cases hw
    change flushBatch rt.db .none 0 [(ascii "a",[1])] = _ at hb
    rw [hb] at hbatch
    simp only [Except.toOption, Option.all_some] at hbatch
    rw [hlost] at hbatch
    cases hbatch

end MetashrewRuntime

end Metashrew
