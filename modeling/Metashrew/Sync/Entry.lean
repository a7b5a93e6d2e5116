import Metashrew.Sync.Process

namespace Metashrew

open Bytes Durable

/-- What the engine uses of the Bitcoin library: decoding a block down to its header, encoding the
header, and SHA-256. -/
structure BitcoinCodec where
  Header : Type
  deserialize : Bytes → Except String Header
  consensusEncode : Header → Bytes
  prevBlockhash : Header → Bytes
  sha256 : Bytes → Bytes

structure ValidationRequest where
  height : Nat
  header : Bytes
  claimedHash : Bytes
  prevHash : Option Bytes

/-- A chain-validation policy: whether it accepts. -/
abbrev ChainValidator := ValidationRequest → Bool

/-- The request for a block on a storage; there is none for a hash of the wrong length. -/
def validationRequest (σ : Store) (height : Nat) (blockData providedHash : Bytes) :
    Option ValidationRequest :=
  if providedHash.length ≠ 32 then none
  else some {
    height
    header := blockData.take 80
    claimedHash := providedHash
    prevHash :=
      if height = 0 then none
      else (getBlockHash σ (height-1)).filter fun stored => stored.length = 32 }

/-- The check before a block is applied. A validator replaces the built-in one. -/
def validateBlockConnects (bitcoin : BitcoinCodec) (validator : Option ChainValidator)
    (height : Nat) (blockData providedHash : Bytes) (σ : Store) : Except Fault Bool :=
  match validator with
  | some validator =>
    match validationRequest σ height blockData providedHash with
    | none => .ok false
    | some request => .ok (validator request)
  | none =>
    match bitcoin.deserialize blockData with
    | .error e => .error (.message
        s!"Block processing error at height {height}: Failed to deserialize block: {e}")
    | .ok header =>
      let computedHash := (bitcoin.sha256 (bitcoin.sha256 (bitcoin.consensusEncode header))).reverse
      if computedHash ≠ providedHash then .ok false
      else if height = 0 then .ok true
      else
        match getBlockHash σ (height-1) with
        | some storedHash => .ok (storedHash == (bitcoin.prevBlockhash header).reverse)
        | none => .ok true

/-- The two engines check a block and apply it within the retry budget. -/
def processValidated (bitcoin : BitcoinCodec) (validator : Option ChainValidator) (label : String)
    (tracksCursor : Bool) (attempts : Nat → Attempt) (height : Nat) (blockData blockHash : Bytes) :
    EngineProg Bool := do
  match ← .read fun e : Engine =>
      validateBlockConnects bitcoin validator height blockData blockHash e.storage with
  | .error f => .fail f
  | .ok false => .fail (.message
      s!"Block processing error at height {height}: Block does not connect to previous block - possible reorg or chain inconsistency")
  | .ok true =>
    applyBlock label tracksCursor attempts height blockHash maxAtomicCommitAttempts 1 none

def MetashrewSync.processBlock (bitcoin : BitcoinCodec) (validator : Option ChainValidator) :
    (Nat → Attempt) → Nat → Bytes → Bytes → EngineProg Bool :=
  processValidated bitcoin validator "process_block" false

def SnapshotMetashrewSync.processBlock (bitcoin : BitcoinCodec) (validator : Option ChainValidator) :
    (Nat → Attempt) → Nat → Bytes → Bytes → EngineProg Bool :=
  processValidated bitcoin validator "snapshot-path" true

/-- The endless retries of the pipeline, cut off after `count` attempts: whether one has committed
by then. -/
def ProcessingClone.processBlock (attempts : Nat → Attempt) (height : Nat) (blockHash : Bytes) :
    Nat → Nat → EngineProg Bool
  | 0, _ => return false
  | count+1, attempt =>
    match (attempts attempt).execution with
    | .error _ => processBlock attempts height blockHash count (attempt+1)
    | .ok (stateRoot,batchData) => do
      match ← (onStorage (commitAttempt height blockHash stateRoot batchData
          (attempts attempt).writeError)).attempt with
      | .ok () => return true
      | .error _ => processBlock attempts height blockHash count (attempt+1)

/-- A block that a call has committed, with the storage it was committed on. -/
structure Committed where
  before : Store
  height : Nat
  blockData : Bytes
  blockHash : Bytes

/-- Runs the pass over a block and says what it has committed. -/
def committing (height : Nat) (blockData blockHash : Bytes) (pass : EngineProg Bool) :
    EngineProg (Option Committed) := do
  let before ← .read Engine.storage
  if ← pass then return some { before, height, blockData, blockHash } else return none

def nodeAnswer {α : Type} : Except String α → EngineProg α
  | .ok a => return a
  | .error e => .fail (.message s!"Bitcoin node error: {e}")

/-- The entry of the snapshot loop: the hash comes from the node, and nothing is checked. -/
def SnapshotMetashrewSync.processBlockWithSnapshots (node : BitcoinNodeAdapter)
    (attempts : Nat → Attempt) (height : Nat) (blockData : Bytes) :
    EngineProg (Option Committed) := do
  let blockHash ← nodeAnswer (node.getBlockHash height)
  committing height blockData blockHash
    (applyBlock "snapshot-loop" true attempts height blockHash maxAtomicCommitAttempts 1 none)

/-- One block for a caller of its own: a restart at height 0, the reorg check, then the block. -/
def SnapshotMetashrewSync.processNextBlock (node : BitcoinNodeAdapter) (config : SyncConfig)
    (refresh : Except String Unit) (attempts : Nat → Attempt) :
    EngineProg (Option Nat × Option Committed) := do
  if (← .read Engine.currentHeight) = 0 then
    let start ← onStorage (init node config)
    storeCurrentHeight start
  let height ← .read Engine.currentHeight
  let reorgHeight ←
    (if 0 < height then onStorage (handleReorg height node refresh config) else pure height)
  if reorgHeight < height then
    storeCurrentHeight reorgHeight
    return (some reorgHeight,none)
  else if config.exitAt.any fun exitAt => exitAt < height then return (none,none)
  else
    let remoteTip ← nodeAnswer node.getTipHeight
    if remoteTip < height then return (none,none)
    else
      let blockData ← nodeAnswer (node.getBlockData height)
      let committed ← processBlockWithSnapshots node attempts height blockData
      return (some (height+1),committed)

/-- The calls through which a block can reach the storage. -/
inductive EntryPoint where
  | processBlock (height : Nat) (blockData blockHash : Bytes)
  | processSingleBlock (height : Nat)
  | pipelineProcessBlock (height : Nat) (blockData blockHash : Bytes) (count : Nat)
  | snapshotProcessBlock (height : Nat) (blockData blockHash : Bytes)
  | processBlockWithSnapshots (height : Nat) (blockData : Bytes)
  | snapshotProcessSingleBlock (height : Nat)
  | processNextBlock

def EntryPoint.run (bitcoin : BitcoinCodec) (validator : Option ChainValidator)
    (node : BitcoinNodeAdapter) (config : SyncConfig) (refresh : Except String Unit)
    (attempts : Nat → Attempt) : EntryPoint → EngineProg (Option Committed)
  | .processBlock height blockData blockHash =>
    committing height blockData blockHash
      (MetashrewSync.processBlock bitcoin validator attempts height blockData blockHash)
  | .processSingleBlock height => do
    let blockData ← nodeAnswer (node.getBlockData height)
    let blockHash ← nodeAnswer (node.getBlockHash height)
    committing height blockData blockHash
      (MetashrewSync.processBlock bitcoin validator attempts height blockData blockHash)
  | .pipelineProcessBlock height blockData blockHash count =>
    committing height blockData blockHash
      (ProcessingClone.processBlock attempts height blockHash count 1)
  | .snapshotProcessBlock height blockData blockHash =>
    committing height blockData blockHash
      (SnapshotMetashrewSync.processBlock bitcoin validator attempts height blockData blockHash)
  | .processBlockWithSnapshots height blockData =>
    SnapshotMetashrewSync.processBlockWithSnapshots node attempts height blockData
  | .snapshotProcessSingleBlock height => do
    let blockData ← nodeAnswer (node.getBlockData height)
    SnapshotMetashrewSync.processBlockWithSnapshots node attempts height blockData
  | .processNextBlock => do
    return (← SnapshotMetashrewSync.processNextBlock node config refresh attempts).2

end Metashrew
