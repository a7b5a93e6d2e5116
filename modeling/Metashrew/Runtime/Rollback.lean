import Metashrew.Lib.Durable
import Metashrew.Runtime.Smt

namespace Metashrew

open Bytes Durable

/-- A program over the database. Writes are atomic batches. -/
abbrev DbProg := Prog Store Fault

def getValue (key : Bytes) : DbProg (Option Bytes) := .read fun σ => KV.get σ key

/-- One batch; nothing is written for an empty list. -/
def applyAtomic (ops : List Op) : DbProg Unit :=
  if ops = [] then pure () else .modify fun σ => KV.write σ ops

def stripPrefix (pre key : Bytes) : Option Bytes :=
  if pre.isPrefixOf key then some (key.drop pre.length) else none

/-- The height in a metadata name, with the prefixes tried in order. -/
def metadataHeight (key : Bytes) : Option Nat :=
  match stripPrefix (ascii "block_hash_") key with
  | some stripped => parseU32 stripped
  | none =>
    match stripPrefix (ascii "state_root_") key with
    | some stripped => parseU32 stripped
    | none => (stripPrefix smtRootPrefix key).bind parseU32

/-- First half of the scan: metadata names above the rollback height. -/
def metadataKeysToDelete (rollbackHeight : Nat) (keys : List Bytes) : List Bytes :=
  keys.filter fun key => (metadataHeight key).any fun h => rollbackHeight < h

/-- Second half of the scan: the keys that have a length record. -/
def baseKeys (keys : List Bytes) : List Bytes :=
  keys.filterMap fun key => if (metadataHeight key).isSome then none else stripLengthSuffix key

/-- The records of a structure at heights up to the rollback height, in index order. -/
def validUpdates (σ : Store) (rollbackHeight : Nat) (key : Bytes) (oldLength : Nat) : List Bytes :=
  (List.range oldLength).filterMap fun i => do
    let updateData ← KV.get σ (updateKey key i)
    let updateHeight ← parseHeightFromSmtValue updateData
    if updateHeight ≤ rollbackHeight then some updateData else none

/-- Deletes every old slot and writes the survivors at compacted indices. -/
def compactionOps (σ : Store) (rollbackHeight : Nat) (key : Bytes) (oldLength : Nat) : List Op :=
  let valid := validUpdates σ rollbackHeight key oldLength
  (List.range oldLength).map (fun i => .delete (updateKey key i)) ++
    valid.zipIdx.map (fun d => .put (updateKey key d.2) d.1) ++
    [if 0 < valid.length then .put (lengthKey key) (decimal valid.length)
      else .delete (lengthKey key)]

def rollbackStructure (rollbackHeight : Nat) (key : Bytes) : DbProg Unit := do
  match ← getValue (lengthKey key) with
  | none => pure ()
  | some lengthBytes =>
    let ops ← .read fun σ => compactionOps σ rollbackHeight key (parseLength lengthBytes)
    applyAtomic ops

/-- The slow rollback: a full scan, then one batch for each structure. -/
def rollbackSmtData (rollbackHeight currentHeight : Nat) : DbProg Unit :=
  if currentHeight ≤ rollbackHeight then pure ()
  else do
    let keys ← .read fun σ => σ.keys
    applyAtomic ((metadataKeysToDelete rollbackHeight keys).map .delete)
    .forEach (KV.sortedKeys (baseKeys keys)) (rollbackStructure rollbackHeight)

/-- The walk over the entries below `i`, newest first: the deletions and the new length. Missing
and malformed entries are passed over, an entry at or below the rollback height ends it. -/
def walkBack (σ : Store) (rollbackHeight : Nat) (key : Bytes) : Nat → Nat → List Op × Nat
  | 0, newLength => ([],newLength)
  | i+1, newLength =>
    match (KV.get σ (updateKey key i)).bind parseHeightFromSmtValue with
    | none => walkBack σ rollbackHeight key i newLength
    | some entryHeight =>
      if rollbackHeight < entryHeight then
        let rest := walkBack σ rollbackHeight key i i
        (.delete (updateKey key i)::rest.1,rest.2)
      else ([],newLength)

/-- Trims the entries of one key above the rollback height. -/
def trimKey (σ : Store) (rollbackHeight : Nat) (key : Bytes) : List Op :=
  match KV.get σ (lengthKey key) with
  | none => []
  | some lengthBytes =>
    let length := parseLength lengthBytes
    let walk := walkBack σ rollbackHeight key length length
    if walk.2 = length then walk.1
    else walk.1 ++ [if 0 < walk.2 then .put (lengthKey key) (decimal walk.2)
      else .delete (lengthKey key)]

/-- The manifest and metadata records of a height. -/
def heightRecordOps (h : Nat) : List Op :=
  [.delete (manifestKey h),.delete (rootKey h),.delete (blockHashMetaKey h),
    .delete (stateRootMetaKey h),.delete (blockHashKey h)]

/-- One height of the fast rollback, as one batch. -/
def rollbackManifestHeight (rollbackHeight h : Nat) : DbProg Unit := do
  match ← getValue (manifestKey h) with
  | none => .fail (.panic "called `Option::unwrap()` on a `None` value")
  | some manifestData =>
    let trims ← .read fun σ =>
      (deserializeKeyManifest manifestData).flatMap (trimKey σ rollbackHeight)
    applyAtomic (trims ++ heightRecordOps h)

/-- The heights above the rollback height, up to the current one. -/
def heightsAbove (rollbackHeight currentHeight : Nat) : List Nat :=
  List.range' (rollbackHeight+1) (currentHeight-rollbackHeight)

def manifestsExist (σ : Store) (rollbackHeight currentHeight : Nat) : Bool :=
  (heightsAbove rollbackHeight currentHeight).all fun h => (KV.get σ (manifestKey h)).isSome

/-- The fast rollback; `false` asks for the slow one. -/
def rollbackWithManifests (rollbackHeight currentHeight : Nat) : DbProg Bool :=
  if currentHeight ≤ rollbackHeight then pure true
  else do
    if ← .read fun σ => manifestsExist σ rollbackHeight currentHeight then
      .forEach (heightsAbove rollbackHeight currentHeight).reverse
        (rollbackManifestHeight rollbackHeight)
      return true
    else return false

end Metashrew
