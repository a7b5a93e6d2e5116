import Metashrew.Snapshot.Repo

namespace Metashrew

open Bytes

/-- The tracker of a snapshot interval. The raw operations are only counted. -/
structure SnapshotManager where
  enabled : Bool
  currentWasm : Option Bytes
  currentWasmHash : Option Bytes
  lastSnapshotHeight : Nat
  keyChanges : Store
  rawOperations : List (Bytes × Bytes)
  keyChangeHeights : KV.Store Bytes Nat
  currentProcessingHeight : Nat
  maxTrackedChanges : Nat

/-- An interval that has been written: its diff before compression, and its entry of the index. -/
structure WrittenInterval where
  startHeight : Nat
  endHeight : Nat
  diff : Bytes
  stateRoot : Bytes
  wasmFile : Bytes
  deriving DecidableEq

/-- The parts of a text before and after its last slash. -/
def rsplitSlash (bs : Bytes) : Option (Bytes × Bytes) :=
  (splitAtByte 47 bs.reverse).map fun parts => (parts.2.reverse,parts.1.reverse)

/-- The logical key and value of a key that looks like a record of the append-only store. The empty
suffix counts as a number. -/
def extractLogicalKv (key value : Bytes) : Option (Bytes × Bytes) :=
  let keyStr := lossyText key
  if (ascii "smt:root:").isPrefixOf keyStr then some (key,value)
  else if (ascii "smt:").isPrefixOf keyStr then none
  else if (ascii "__INTERNAL/").isPrefixOf keyStr then none
  else if lengthSuffix.isSuffixOf keyStr then none
  else
    match rsplitSlash keyStr with
    | none => some (key,value)
    | some (baseKey,suffix) =>
      if suffix.all isDigit then some (baseKey,value) else some (key,value)

namespace SnapshotManager

def memoryCheckInterval : Nat := 50

def new (enabled : Bool) (maxTrackedChanges : Nat) : SnapshotManager where
  enabled := enabled
  currentWasm := none
  currentWasmHash := none
  lastSnapshotHeight := 0
  keyChanges := ∅
  rawOperations := []
  keyChangeHeights := ∅
  currentProcessingHeight := 0
  maxTrackedChanges := maxTrackedChanges

def clearTrackedChanges (m : SnapshotManager) : SnapshotManager :=
  { m with keyChanges := ∅, rawOperations := [], keyChangeHeights := ∅ }

/-- A change of a logical key at the height in work. -/
def record (m : SnapshotManager) (key value : Bytes) : SnapshotManager :=
  { m with
    keyChanges := m.keyChanges.insert key value
    keyChangeHeights := m.keyChangeHeights.insert key m.currentProcessingHeight }

def trackKeyChange (m : SnapshotManager) (key value : Bytes) : SnapshotManager :=
  if m.enabled then
    let m := if m.maxTrackedChanges ≤ m.keyChanges.size then m.clearTrackedChanges else m
    let m := { m with rawOperations := m.rawOperations ++ [(key,value)] }
    let keyStr := lossyText key
    if 47 ∈ keyStr ∧ ¬lengthSuffix.isSuffixOf keyStr then
      match extractLogicalKv key value with
      | some (logicalKey,logicalValue) => m.record logicalKey logicalValue
      | none => m
    else if ¬(ascii "__INTERNAL").isPrefixOf keyStr ∧ ¬(ascii "smt:node:").isPrefixOf keyStr then
      m.record key value
    else m
  else m

def estimateMemoryUsage (m : SnapshotManager) : Nat :=
  (m.keyChanges.toList.map fun e => e.1.length+e.2.length+64).sum +
    (m.rawOperations.map fun e => e.1.length+e.2.length+32).sum +
    (m.keyChangeHeights.toList.map fun e => e.1.length+4+32).sum

def setCurrentHeight (m : SnapshotManager) (height : Nat) : SnapshotManager :=
  let m := { m with currentProcessingHeight := height }
  if height % memoryCheckInterval = 0 ∧ 500000000 < m.estimateMemoryUsage then
    m.clearTrackedChanges
  else m

/-- The tracked changes above the last snapshot, and those without a height. -/
def incrementalChanges (m : SnapshotManager) : Store :=
  m.keyChanges.filter fun key _ =>
    match KV.get m.keyChangeHeights key with
    | some changeHeight => m.lastSnapshotHeight < changeHeight
    | none => true

end SnapshotManager

def serializePair (kv : Bytes × Bytes) : Bytes :=
  u32le kv.1.length ++ kv.1 ++ (u32le kv.2.length ++ kv.2)

def serializeDiff (pairs : List (Bytes × Bytes)) : Bytes := pairs.flatMap serializePair

namespace SnapshotManager

/-- The pairs of a diff, sorted by their keys. -/
def diffPairs (changes : Store) : List (Bytes × Bytes) :=
  (KV.sortedKeys changes.keys).map fun key => (key,(KV.get changes key).getD [])

def wasmFilename (m : SnapshotManager) : Bytes :=
  match m.currentWasm.bind fileName with
  | some name => lossyText name
  | none => ascii "unknown.wasm"

/-- Writes the interval up to a height, and forgets the changes that it contains. -/
def createSnapshot (m : SnapshotManager) (height : Nat) (stateRoot : Bytes) :
    SnapshotManager × Option WrittenInterval :=
  if m.enabled then
    let changes := m.incrementalChanges
    let wasmHash := m.currentWasmHash.getD (ascii "unknown")
    let removals : List Bytes := KV.sortedKeys changes.keys
    ({ m with
        lastSnapshotHeight := height
        keyChanges := KV.write m.keyChanges (removals.map .delete)
        keyChangeHeights := KV.write m.keyChangeHeights (removals.map .delete)
        rawOperations := [] },
      some {
        startHeight := m.lastSnapshotHeight
        endHeight := height
        diff := serializeDiff (diffPairs changes)
        stateRoot := stateRoot
        wasmFile := ascii "wasm/" ++ m.wasmFilename ++ ascii "_" ++ wasmHash.take 8 ++
          ascii ".wasm" })
  else (m,none)

end SnapshotManager

/-- The provider with its own manager and, when the runtime has one, the manager that tracks. -/
structure SnapshotProvider where
  manager : SnapshotManager
  runtimeManager : Option SnapshotManager

namespace SnapshotProvider

/-- The manager that the snapshots take the changes from. -/
def tracker (p : SnapshotProvider) : SnapshotManager := p.runtimeManager.getD p.manager

def updateTracker (p : SnapshotProvider) (f : SnapshotManager → SnapshotManager) :
    SnapshotProvider :=
  match p.runtimeManager with
  | some m => { p with runtimeManager := some (f m) }
  | none => { p with manager := f p.manager }

/-- What a caller tells the tracker of a block: its height, then the pairs of its flush. The functions
are there for this, but nothing in the repository calls them. -/
def trackBlock (p : SnapshotProvider) (height : Nat) (pairs : List (Bytes × Bytes)) :
    SnapshotProvider :=
  p.updateTracker fun m =>
    pairs.foldl (fun m kv => m.trackKeyChange kv.1 kv.2) (m.setCurrentHeight height)

/-- The manager that writes the snapshot, with the changes of the runtime copied into it. -/
def writer (p : SnapshotProvider) : SnapshotManager :=
  match p.runtimeManager with
  | some m => { p.manager with
      keyChanges := m.keyChanges
      rawOperations := m.rawOperations
      keyChangeHeights := m.keyChangeHeights }
  | none => p.manager

def createSnapshot (p : SnapshotProvider) (height : Nat) (stateRoot : Bytes) :
    SnapshotProvider × Option WrittenInterval :=
  let (manager,written) := p.writer.createSnapshot height stateRoot
  ({ p with manager := manager },written)

/-- A provider at a height, with tracking on. -/
def initialized (height maxTrackedChanges : Nat) (runtimeManager : Option Nat) : SnapshotProvider where
  manager := { SnapshotManager.new true maxTrackedChanges with lastSnapshotHeight := height }
  runtimeManager := runtimeManager.map (SnapshotManager.new true)

end SnapshotProvider

end Metashrew
