import Metashrew.Runtime.Rollback

namespace Metashrew

open Bytes Durable

/-- A height pointer; missing or too short means 0. -/
def readPointer (key : Bytes) (σ : Store) : Nat := ((KV.get σ key).bind readU32le).getD 0

theorem readPointer_lt (key : Bytes) (σ : Store) : readPointer key σ<2^32 := by
  rw [readPointer]
  cases h : (KV.get σ key).bind readU32le with
  | none => exact Nat.two_pow_pos 32
  | some n =>
    obtain ⟨bs,_,hn⟩ := Option.bind_eq_some_iff.mp h
    exact readU32le_lt hn

def getIndexedHeight : Store → Nat := readPointer indexedHeightKey

def getRuntimeTipHeight : Store → Nat := readPointer tipHeightKey

def getBlockHash (σ : Store) (height : Nat) : Option Bytes := KV.get σ (blockHashKey height)

def setIndexedHeight (height : Nat) : DbProg Unit :=
  .modify fun σ => KV.write σ [.put indexedHeightKey (u32le height)]

def saturatingSucc (height : Nat) : Nat := min (height+1) (2^32-1)

/-- An empty database, as the in-order check sees it. -/
def isFreshDb (σ : Store) : Bool := getIndexedHeight σ == 0 && (getBlockHash σ 0).isNone

def commitOps (height : Nat) (blockHash stateRoot : Bytes) (batchData : List Op) : List Op :=
  batchData ++ [.put (blockHashKey height) blockHash,.put (rootKey height) stateRoot,
    .put indexedHeightKey (u32le height)]

/-- Commits one block in one batch, if it is the next one. `batchData` is the batch itself instead
of its serialized bytes, with the empty list for empty data. -/
def commitAtomic (height : Nat) (blockHash stateRoot : Bytes) (batchData : List Op) :
    DbProg Unit := do
  let fresh ← .read fun σ => isFreshDb σ
  let current ← .read fun σ => getIndexedHeight σ
  if !fresh && height != saturatingSucc current then
    .fail (.message s!"out-of-order commit rejected: attempted height {height} but current tip is {current} (commit_atomic only accepts height == tip + 1)")
  else .modify fun σ => KV.write σ (commitOps height blockHash stateRoot batchData)

/-- Fast rollback when every manifest is there, else the slow one; then the pointer. -/
def rollbackToHeight (height : Nat) : DbProg Unit := do
  let currentHeight ← .read fun σ => getIndexedHeight σ
  let usedFast ← rollbackWithManifests height currentHeight
  if !usedFast then
    rollbackSmtData height currentHeight
  setIndexedHeight height

/-- The walk down from `h` to the highest height that has a block hash; 0 below the floor. -/
def maxBlockHashFrom (σ : Store) (floor : Nat) : Nat → Nat
  | 0 => 0
  | h+1 =>
    if (getBlockHash σ (h+1)).isSome then h+1
    else if h+1 ≤ floor then 0
    else maxBlockHashFrom σ floor h

def findMaxStoredBlockHashHeight (floor : Nat) (σ : Store) : Nat :=
  maxBlockHashFrom σ floor (getIndexedHeight σ)

/-- Brings both pointers to the target, rolling back first when the tip is above it. -/
def healPointersAtomic (targetHeight : Nat) : DbProg Unit := do
  let currentIndexed ← .read fun σ => getIndexedHeight σ
  let currentRuntimeTip ← .read fun σ => getRuntimeTipHeight σ
  if currentIndexed = targetHeight ∧ currentRuntimeTip = targetHeight then pure ()
  else if currentIndexed < targetHeight then
    .fail (.message s!"heal_pointers_atomic refused to advance tip: current_indexed={currentIndexed} target={targetHeight} (heal only rolls back, never forward)")
  else do
    if targetHeight < currentIndexed then rollbackToHeight targetHeight
    .modify fun σ => KV.write σ
      [.put indexedHeightKey (u32le targetHeight),.put tipHeightKey (u32le targetHeight)]

end Metashrew
