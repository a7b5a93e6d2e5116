import Metashrew.Ledger.Records

namespace Metashrew

open Bytes

/-- The errors injected into the storage reads of one call, by name and by prefix. -/
structure ReadFaults where
  get : Bytes → Option String
  scan : Bytes → Option String

def ReadFaults.none : ReadFaults := ⟨fun _ => .none,fun _ => .none⟩

def faultyDB (σ : Store) (faults : ReadFaults) : KeyValueStoreLike where
  getImmutable key := match faults.get key with
    | some e => .error e
    | none => (rocksDB σ).getImmutable key
  scanPrefix pre := match faults.scan pre with
    | some e => .error e
    | none => (rocksDB σ).scanPrefix pre

@[simp] theorem faultyDB_none (σ : Store) : faultyDB σ .none = rocksDB σ := rfl

/-- One call of `__flush`. There are no pairs when the memory export, the array buffer or the
decoding fails. -/
structure FlushCall where
  keyValues : Option Flush
  readFaults : ReadFaults
  writeError : Option String

/-- One execution of the guest and what goes wrong in and after it: other host functions, a trap,
the read of the state root, the new instance. -/
structure Execution where
  hasStart : Bool
  flushes : List FlushCall
  hostFailure : Bool
  trap : Option String
  rootFaults : ReadFaults
  refreshError : Option String

/-- The runtime with its shared context and the state of its instance. The batch slot holds
operations instead of serialized bytes. -/
structure MetashrewRuntime where
  db : Store
  adapterHeight : Nat
  height : Nat
  currentBlockHash : Bytes
  state : Nat
  pendingAtomicBatch : Option (List Op)
  hadFailure : Bool
  lastFlushError : Option String

structure AtomicBlockResult where
  stateRoot : Bytes
  batchData : List Op
  height : Nat
  blockHash : Bytes
  deriving DecidableEq, Repr

/-- The write of the adapter, which puts a tip pointer of its own in front of the batch. -/
def adapterWrite (adapterHeight : Nat) (writeError : Option String) (σ : Store) (batch : List Op) :
    Except Fault Store := do
  let tip ← addU32 adapterHeight 1
  match writeError with
  | some e => .error (.message s!"Storage error: {e}")
  | none => return KV.write σ (.put tipHeightKey (u32le tip)::batch)

/-- The batch of one flush at one height, over a store. -/
def flushBatch (σ : Store) (faults : ReadFaults) (height : Nat) (kvs : List (Bytes × Bytes)) :
    Except Fault (List Op) := do
  return (← buildStateRootBatchUnwritten (faultyDB σ faults) height kvs).2

namespace MetashrewRuntime

def calculateAndStoreStateRootBatched (rt : MetashrewRuntime) (call : FlushCall)
    (kvs : List (Bytes × Bytes)) : Except Fault Store := do
  let batch ← flushBatch rt.db call.readFaults rt.height kvs
  adapterWrite rt.adapterHeight call.writeError rt.db batch

/-- What `__flush` does with its pairs: the armed slot takes the batch, otherwise it is written. -/
def storeFlush (rt : MetashrewRuntime) (call : FlushCall) (kvs : List (Bytes × Bytes)) :
    Except Fault MetashrewRuntime := do
  if rt.pendingAtomicBatch.isSome then
    let batch ← flushBatch rt.db call.readFaults rt.height kvs
    return { rt with pendingAtomicBatch := some batch }
  else
    let db ← rt.calculateAndStoreStateRootBatched call kvs
    return { rt with db }

/-- The `__flush` host function. An error here is a panic; it leaves the runtime as it was. -/
def flush (rt : MetashrewRuntime) (call : FlushCall) : Except String MetashrewRuntime :=
  match call.keyValues with
  | none => .ok { rt with hadFailure := true }
  | some kvs =>
    match rt.storeFlush call kvs.list with
    | .ok rt => .ok { rt with state := 1 }
    | .error (.message text) => .ok { rt with lastFlushError := some text, hadFailure := true }
    | .error (.panic text) => .error text

/-- The flushes of one execution, up to a panic. -/
def flushAll (rt : MetashrewRuntime) : List FlushCall → MetashrewRuntime × Option String
  | [] => (rt,none)
  | call::calls =>
    match rt.flush call with
    | .error text => (rt,some text)
    | .ok rt => rt.flushAll calls

/-- The checks after `_start` has returned, with the wording of the caller. -/
def executionResult (rt : MetashrewRuntime) (trap : Option String) (suffix calling : String) :
    Except Fault Unit :=
  match trap with
  | some e => .error (.message s!"{calling}: {e}")
  | none =>
    match rt.lastFlushError with
    | some msg => .error (.message s!"__flush atomic write failed: {msg}")
    | none =>
      if rt.state ≠ 1 ∧ rt.hadFailure = false then
        .error (.message s!"indexer exited unexpectedly{suffix}")
      else if rt.hadFailure then
        .error (.message s!"indexer host function reported failure{suffix}")
      else .ok ()

/-- A new instance starts with a clear state; without one the old instance stays. -/
def refreshMemory (rt : MetashrewRuntime) (refreshError : Option String) :
    MetashrewRuntime × Except String Unit :=
  match refreshError with
  | some e => (rt,.error e)
  | none => ({ rt with hadFailure := false, lastFlushError := none },.ok ())

def calculateStateRoot (rt : MetashrewRuntime) (faults : ReadFaults) : Except Fault Bytes :=
  getCurrentStateRoot (faultyDB rt.db faults)

/-- `process_block_atomic` once the guest has stopped. -/
def completeAtomic (rt : MetashrewRuntime) (x : Execution) (height : Nat) (blockHash : Bytes) :
    MetashrewRuntime × Except Fault AtomicBlockResult :=
  match rt.executionResult x.trap " during atomic processing"
    "Error calling _start function in atomic processing" with
  | .ok () =>
    match rt.calculateStateRoot x.rootFaults with
    -- an early return: the slot stays armed
    | .error e => (rt,.error e)
    | .ok stateRoot =>
      let batchData := rt.pendingAtomicBatch.getD []
      match { rt with pendingAtomicBatch := none }.refreshMemory x.refreshError with
      | (rt,.error e) =>
        (rt,.error (.message s!"Memory refresh failed after atomic block execution: {e}"))
      | (rt,.ok ()) => (rt,.ok { stateRoot, batchData, height, blockHash })
  | .error e => (({ rt with pendingAtomicBatch := none }.refreshMemory x.refreshError).1,.error e)

/-- Processes a block and hands its batch over without writing it. -/
def processBlockAtomic (rt : MetashrewRuntime) (x : Execution) (height : Nat) (blockHash : Bytes) :
    MetashrewRuntime × Except Fault AtomicBlockResult :=
  let rt := { rt with
    pendingAtomicBatch := some []
    height
    currentBlockHash := blockHash
    state := 0
    lastFlushError := none }
  if !x.hasStart then (rt,.error (.message "Failed to get _start function"))
  else
    match { rt with hadFailure := rt.hadFailure || x.hostFailure }.flushAll x.flushes with
    | (rt,some text) => (rt,.error (.panic text))
    | (rt,none) => rt.completeAtomic x height blockHash

/-- `run` once the guest has stopped. -/
def completeRun (rt : MetashrewRuntime) (x : Execution) : MetashrewRuntime × Except Fault Unit :=
  let result := rt.executionResult x.trap "" "Error calling _start function"
  match rt.refreshMemory x.refreshError with
  | (rt,.error e) => (rt,.error (.message s!"Memory refresh failed after block execution: {e}"))
  | (rt,.ok ()) => (rt,result)

def run (rt : MetashrewRuntime) (x : Execution) : MetashrewRuntime × Except Fault Unit :=
  let rt := { rt with state := 0, lastFlushError := none }
  if !x.hasStart then (rt,.error (.message "Failed to get _start function"))
  else
    match { rt with hadFailure := rt.hadFailure || x.hostFailure }.flushAll x.flushes with
    | (rt,some text) => (rt,.error (.panic text))
    | (rt,none) => rt.completeRun x

/-- Processes a block and writes every flush at once. -/
def processBlock (rt : MetashrewRuntime) (x : Execution) (height : Nat) :
    MetashrewRuntime × Except Fault Unit :=
  { rt with height, currentBlockHash := [], state := 0 }.run x

end MetashrewRuntime

end Metashrew
