import Metashrew.Lib.Search
import Metashrew.Lib.Store
import Metashrew.Runtime.Keys

namespace Metashrew

open Bytes

abbrev Op := KV.Op Bytes Bytes
abbrev Store := KV.Store Bytes Bytes

/-- An error of the source, with its text, or a panic. -/
inductive Fault where
  | message (text : String)
  | panic (text : String)
  deriving DecidableEq, Repr

/-- The reads of a storage backend; an error is its `Debug` text. -/
structure KeyValueStoreLike where
  getImmutable : Bytes → Except String (Option Bytes)
  scanPrefix : Bytes → Except String (List (Bytes × Bytes))

/-- RocksDB answers every read and scans in key order. -/
def rocksDB (σ : Store) : KeyValueStoreLike where
  getImmutable key := .ok (KV.get σ key)
  scanPrefix pre := .ok (σ.toList.filter fun e => pre.isPrefixOf e.1)

def storageError {α : Type} : Except String α → Except Fault α
  | .ok a => .ok a
  | .error e => .error (.message s!"Storage error: {e}")

/-- The `?` on a storage error, without a text around it. -/
def backendError {α : Type} : Except String α → Except Fault α
  | .ok a => .ok a
  | .error e => .error (.message e)

instance neZero_u32 : NeZero (2^32) := ⟨by decide⟩

/-- Addition of `u32` with its overflow check. -/
def addU32 (a b : Nat) : Except Fault Nat :=
  if a+b < 2^32 then .ok (a+b) else .error (.panic "attempt to add with overflow")

def emptyNodeHash : Bytes := List.replicate 32 0

/-- A length record read as text. The lossy conversion to UTF-8 keeps ASCII bytes and turns others
into non-digits, so parsing the bytes gives the same answer. -/
def parseLength (b : Bytes) : Nat := (parseU32 b).getD 0

def serializeKeyManifest (keys : List Bytes) : Bytes :=
  u32le keys.length ++ keys.flatMap fun key => u32le key.length ++ key

/-- The entry loop: it stops early when the data runs out. -/
def readKeys : Nat → Bytes → List Bytes
  | 0, _ => []
  | n+1, data =>
    match readU32le data with
    | none => []
    | some keyLen =>
      if (data.drop 4).length < keyLen then []
      else (data.drop 4).take keyLen :: readKeys n ((data.drop 4).drop keyLen)

/-- The decoder's keys, given the room that it asks for up front. -/
def deserializeKeyManifest (data : Bytes) : List Bytes :=
  match readU32le data with
  | none => []
  | some numKeys => readKeys numKeys (data.drop 4)

/-- The root record of one height, when it has 32 bytes. -/
def readRoot (db : KeyValueStoreLike) (height : Nat) : Except Fault (Option Bytes) := do
  match ← storageError (db.getImmutable (rootKey height)) with
  | some rootData => return if rootData.length = 32 then some rootData else none
  | none => return none

/-- The walk from a height down to 0. -/
def rootAtOrBelow (db : KeyValueStoreLike) : Nat → Except Fault (Option Bytes)
  | 0 => readRoot db 0
  | height+1 => do
    match ← readRoot db (height+1) with
    | some root => return some root
    | none => rootAtOrBelow db height

def getSmtRootAtHeight (db : KeyValueStoreLike) (height : Nat) : Except Fault Bytes := do
  match ← rootAtOrBelow db height with
  | some root => return root
  | none => .error (.message s!"No state root found for height {height} or any previous height")

/-- One entry of the scan for the highest root; the best height and root so far are carried. -/
def higherRoot (best : Option (Nat × Bytes)) (entry : Bytes × Bytes) : Option (Nat × Bytes) :=
  match parseU32 (entry.1.drop smtRootPrefix.length) with
  | none => best
  | some height =>
    if (best.all fun b => b.1 < height) && entry.2.length == 32 then some (height,entry.2) else best

def getCurrentStateRoot (db : KeyValueStoreLike) : Except Fault Bytes := do
  let entries ← backendError (db.scanPrefix smtRootPrefix)
  match entries.foldl higherRoot none with
  | some (_,root) => return root
  | none => return emptyNodeHash

def formatUpdate (height : Nat) (value : Bytes) : Bytes :=
  decimal height ++ ascii ":" ++ hexEncode value

/-- The batch under construction and the lengths of the keys it has updated. -/
structure BatchState where
  batch : List Op
  keyLengths : KV.Store Bytes Nat

/-- The length of a key, from the batch first and from storage otherwise. -/
def currentLength (db : KeyValueStoreLike) (st : BatchState) (key : Bytes) : Except Fault Nat :=
  match KV.get st.keyLengths key with
  | some len => .ok len
  | none => do
    match ← backendError (db.getImmutable (lengthKey key)) with
    | some lengthBytes => return parseLength lengthBytes
    | none => return 0

def appendUpdate (db : KeyValueStoreLike) (height : Nat) (st : BatchState) (kv : Bytes × Bytes) :
    Except Fault BatchState := do
  let length ← currentLength db st kv.1
  let newLength ← addU32 length 1
  return {
    batch := st.batch ++ [.put (updateKey kv.1 length) (formatUpdate height kv.2),
      .put (lengthKey kv.1) (decimal newLength)]
    keyLengths := st.keyLengths.insert kv.1 newLength }

/-- The root of the previous height, zero when there is none. -/
def previousRoot (db : KeyValueStoreLike) : Nat → Bytes
  | 0 => emptyNodeHash
  | height+1 =>
    match getSmtRootAtHeight db height with
    | .ok root => root
    | .error _ => emptyNodeHash

/-- No manifest is written for an empty flush. -/
def manifestOps (height : Nat) (keyValues : List (Bytes × Bytes)) : List Op :=
  if keyValues = [] then []
  else [.put (manifestKey height) (serializeKeyManifest (KV.sortedKeys (keyValues.map Prod.fst)))]

/-- The state root is a placeholder carried over from the previous height. -/
def buildStateRootBatchUnwritten (db : KeyValueStoreLike) (height : Nat)
    (keyValues : List (Bytes × Bytes)) : Except Fault (Bytes × List Op) := do
  let newRoot := previousRoot db height
  let st ← keyValues.foldlM (appendUpdate db height) ⟨[],∅⟩
  return (newRoot,st.batch ++ [.put (rootKey height) newRoot] ++ manifestOps height keyValues ++
    [.put tipHeightKey (u32le height)])

/-- What one update record says at a height: a value, or that it is too recent. -/
def decodeUpdate (height : Nat) (updateData : Bytes) : Except Fault (Option Bytes) :=
  match splitAtByte 58 updateData with
  | none => .error (.message "Invalid update format")
  | some (heightStr,valueHex) =>
    match parseU32 heightStr with
    | none => .error (.message "Invalid height format in update")
    | some updateHeight =>
      if updateHeight ≤ height then
        match hexDecode valueHex with
        | some value => .ok (some value)
        | none => .error (.message "Invalid hex encoding in stored value")
      else .ok none

def readUpdate (db : KeyValueStoreLike) (key : Bytes) (height mid : Nat) :
    Except Fault (Option Bytes) := do
  match ← storageError (db.getImmutable (updateKey key mid)) with
  | some updateData => decodeUpdate height updateData
  | none => .error (.message s!"Missing update at index {mid}")

def midpoint (left right : Nat) : Except Fault Nat := do
  return (← addU32 left right)/2

/-- The lookup that `get_at_height` and `get_at_height_fast` both spell out. -/
def searchUpdates (db : KeyValueStoreLike) (key : Bytes) (height : Nat) :
    Except Fault (Option Bytes) := do
  match ← storageError (db.getImmutable (lengthKey key)) with
  | none => return none
  | some lengthBytes =>
    let length := parseLength lengthBytes
    if length = 0 then return none
    else Search.bisect midpoint (readUpdate db key height) length 0 length none

def getAtHeight (db : KeyValueStoreLike) (key : Bytes) (height : Nat) :
    Except Fault (Option Bytes) := searchUpdates db key height

def getAtHeightFast (db : KeyValueStoreLike) (key : Bytes) (height : Nat) :
    Except Fault (Option Bytes) := searchUpdates db key height

def getCurrent (db : KeyValueStoreLike) (key : Bytes) : Except Fault (Option Bytes) := do
  match ← storageError (db.getImmutable (lengthKey key)) with
  | none => return none
  | some lengthBytes =>
    let length := parseLength lengthBytes
    if length = 0 then return none
    else
      match ← storageError (db.getImmutable (updateKey key (length-1))) with
      | none => return none
      | some updateData =>
        match splitAtByte 58 updateData with
        | none => .error (.message "Invalid update format")
        | some (_,valueHex) =>
          match hexDecode valueHex with
          | some value => return some value
          | none => .error (.message "Invalid hex encoding in stored value")

/-- The height before the colon of an update record. -/
def parseHeightFromSmtValue (value : Bytes) : Option Nat :=
  match splitAtByte 58 value with
  | some (heightStr,_) => parseU32 heightStr
  | none => none

/-- The heights of the updates of the listed indices; a missing or malformed record is skipped. -/
def collectHeights (db : KeyValueStoreLike) (key : Bytes) : List Nat → Except Fault (List Nat)
  | [] => return []
  | i::is => do
    let updateData ← storageError (db.getImmutable (updateKey key i))
    let rest ← collectHeights db key is
    match updateData.bind parseHeightFromSmtValue with
    | some height => return height::rest
    | none => return rest

def getHeightsForKey (db : KeyValueStoreLike) (key : Bytes) : Except Fault (List Nat) := do
  match ← storageError (db.getImmutable (lengthKey key)) with
  | none => return []
  | some lengthBytes =>
    let heights ← collectHeights db key (List.range (parseLength lengthBytes))
    return heights.insertionSort (· ≤ ·)

/-- The part of a stored key before a final `/length`. -/
def stripLengthSuffix (key : Bytes) : Option Bytes :=
  if lengthSuffix.isSuffixOf key then some (key.take (key.length-lengthSuffix.length)) else none

def filterKeysAtHeight (db : KeyValueStoreLike) (height : Nat) :
    List (Bytes × Bytes) → Except Fault (List Bytes)
  | [] => return []
  | (storedKey,_)::entries => do
    match stripLengthSuffix storedKey with
    | none => filterKeysAtHeight db height entries
    | some originalKey =>
      let heights ← getHeightsForKey db originalKey
      let rest ← filterKeysAtHeight db height entries
      return if height ∈ heights then originalKey::rest else rest

def getKeysAtHeight (db : KeyValueStoreLike) (height : Nat) : Except Fault (List Bytes) := do
  filterKeysAtHeight db height (← storageError (db.scanPrefix []))

end Metashrew
