import Metashrew.Storage.Adapter

namespace Metashrew

open Bytes Durable

structure SyncConfig where
  startBlock : Nat
  exitAt : Option Nat
  maxReorgDepth : Nat
  reorgCheckThreshold : Nat
  enableStartupHeal : Bool

/-- The node as it answers during one call of the engine. -/
structure BitcoinNodeAdapter where
  isConnected : Bool
  getTipHeight : Except String Nat
  getBlockHash : Nat → Except String Bytes
  getBlockData : Nat → Except String Bytes

inductive StartupHealOutcome where
  | healed (source healedTo : Nat)
  | alreadyConsistent (tip : Nat)
  | disabled
  deriving DecidableEq, Repr

/-- The walk down from `h` until a stored hash is the node's. At height 0 every exit gives 0. -/
def safeHeight (σ : Store) (node : BitcoinNodeAdapter) (candidate floor : Nat) : Nat → Nat
  | 0 => 0
  | h+1 =>
    let next := if h+1 ≤ floor then h+1 else safeHeight σ node candidate floor h
    match getBlockHash σ (h+1) with
    | some storedHash =>
      match node.getBlockHash (h+1) with
      | .ok remoteHash => if remoteHash = storedHash then h+1 else next
      | .error _ => min candidate (h+1)
    | none => next

/-- The pointers that the startup heal compares. -/
structure Pointers where
  indexedHeight : Nat
  runtimeTip : Nat
  maxBlockhash : Nat

namespace Pointers

def ofStore (σ : Store) : Pointers where
  indexedHeight := getIndexedHeight σ
  runtimeTip := getRuntimeTipHeight σ
  maxBlockhash := findMaxStoredBlockHashHeight (getIndexedHeight σ-256) σ

def allAgree (p : Pointers) : Bool :=
  p.indexedHeight == p.runtimeTip && p.runtimeTip == p.maxBlockhash

def source (p : Pointers) : Nat := max (max p.indexedHeight p.runtimeTip) p.maxBlockhash

def candidate (p : Pointers) : Nat := min (min p.indexedHeight p.runtimeTip) p.maxBlockhash

/-- Whether the agreed height needs no walk: the node confirms it or cannot be asked. -/
def confirmed (p : Pointers) (σ : Store) (node : BitcoinNodeAdapter) : Bool :=
  p.allAgree && node.isConnected &&
    (getBlockHash σ p.candidate).any fun storedHash =>
      match node.getBlockHash p.candidate with
      | .ok remoteHash => remoteHash == storedHash
      | .error _ => true

/-- The height the heal settles on after the walk. -/
def safe (p : Pointers) (σ : Store) (node : BitcoinNodeAdapter) (maxReorgDepth : Nat) : Nat :=
  if node.isConnected then
    safeHeight σ node p.candidate (p.candidate-maxReorgDepth) p.candidate
  else p.candidate

end Pointers

/-- Brings the pointers together before the engine starts, and returns the height they are at. -/
def healPointerDivergenceAtStartup (node : BitcoinNodeAdapter) (config : SyncConfig) :
    DbProg (Nat × StartupHealOutcome) := do
  if !config.enableStartupHeal then
    let h ← .read fun σ => getIndexedHeight σ
    return (h,.disabled)
  else
    let p ← .read fun σ => Pointers.ofStore σ
    if p.allAgree && p.indexedHeight == 0 then
      return (p.indexedHeight,.alreadyConsistent p.indexedHeight)
    else
      let confirmed ← .read fun σ => p.confirmed σ node
      if confirmed then return (p.candidate,.alreadyConsistent p.candidate)
      else
        let safe ← .read fun σ => p.safe σ node config.maxReorgDepth
        if safe < p.indexedHeight ∨ safe < p.runtimeTip ∨ safe < p.maxBlockhash then
          healPointersAtomic safe
          return (safe,.healed p.source safe)
        else return (safe,.alreadyConsistent safe)

/-- The next height to process, from the indexed height after the heal. -/
def startHeight (config : SyncConfig) (indexedHeight : Nat) : Except Fault Nat :=
  if 0 < config.startBlock ∧ indexedHeight < config.startBlock then .ok config.startBlock
  else if 0 < indexedHeight then addU32 indexedHeight 1
  else .ok config.startBlock

/-- The state root below the first block, when no root is stored there yet. -/
def storeInitialStateRoot (config : SyncConfig) (indexedHeight : Nat) : DbProg Unit := do
  if indexedHeight = 0 ∧ 0 < config.startBlock then
    let stateRoot ← .read fun σ => getSmtRootAtHeight (rocksDB σ) (config.startBlock-1)
    match stateRoot with
    | .ok _ => pure ()
    | .error _ =>
      let root : Op := .put (rootKey (config.startBlock-1)) (List.replicate 32 0)
      .modify fun σ => KV.write σ [root]
  else pure ()

/-- `MetashrewSync::init`; the result is the cursor. `SnapshotMetashrewSync::init` has the same
body. A failed heal is a panic. -/
def init (node : BitcoinNodeAdapter) (config : SyncConfig) : DbProg Nat := do
  let _ ← healPointerDivergenceAtStartup node config
  let indexedHeight ← .read fun σ => getIndexedHeight σ
  match startHeight config indexedHeight with
  | .error e => .fail e
  | .ok start =>
    storeInitialStateRoot config indexedHeight
    return start

/-- The walk of `handle_reorg` down from `h`: where it stops and whether it has met a different hash,
or nothing when the node fails. Heights without a stored hash are passed over. -/
def reorgWalk (σ : Store) (node : BitcoinNodeAdapter) (floor : Nat) :
    Nat → Bool → Option (Nat × Bool)
  | 0, reorgDetected => some (0,reorgDetected)
  | h+1, reorgDetected =>
    if h+1 < floor then some (h+1,reorgDetected)
    else
      match getBlockHash σ (h+1) with
      | none => reorgWalk σ node floor h reorgDetected
      | some localHash =>
        match node.getBlockHash (h+1) with
        | .error _ => none
        | .ok remoteHash =>
          if localHash = remoteHash then some (h+1,reorgDetected)
          else reorgWalk σ node floor h true

/-- Rolls back to the common ancestor; the result is the next height to process. `refresh` is the
outcome of the runtime's memory refresh. -/
def handleReorg (currentHeight : Nat) (node : BitcoinNodeAdapter) (refresh : Except String Unit)
    (config : SyncConfig) : DbProg Nat := do
  if currentHeight = 0 then return 0
  else
    let walk ← .read fun σ =>
      reorgWalk σ node (currentHeight-config.maxReorgDepth) (currentHeight-1) false
    match walk with
    | none => return currentHeight
    | some (rollbackHeight,reorgDetected) =>
      if reorgDetected then
        rollbackToHeight rollbackHeight
        match refresh with
        | .error e => .fail (.message e)
        | .ok () => return rollbackHeight+1
      else return currentHeight

end Metashrew
