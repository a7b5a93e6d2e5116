import Metashrew.Lib.Trie
import Metashrew.Runtime.Smt

namespace Metashrew

open Bytes

/-- A 32-byte hash of a key or a value. -/
abbrev Hash32 := Vector UInt8 32

namespace Hash32

instance lawfulBEq : LawfulBEq Hash32 := inferInstance

instance transOrd : Std.TransOrd Hash32 := inferInstance

end Hash32

/-- A node of the sparse Merkle tree; its children are named by their hashes. -/
inductive SMTNode (δ : Type) where
  | internal (leftChild rightChild : δ)
  | leaf (key : Bytes) (valueIndex : Hash32)
  deriving DecidableEq

/-- The hash functions and the hash of the empty tree. The hashes of nodes have a type of their own,
in which they need not collide. -/
structure SmtHash (δ : Type) where
  hashKey : Bytes → Hash32
  hashValue : Bytes → Hash32
  hashNode : SMTNode δ → δ
  empty : δ

/-- No two nodes have the same hash, and none has the hash of the empty tree. -/
structure SmtHash.Ideal {δ : Type} (H : SmtHash δ) : Prop where
  injective : Function.Injective H.hashNode
  ne_empty : ∀ n, H.hashNode n ≠ H.empty

/-- The bit `(hash[byteDepth / 8] >> (7 - (shiftDepth % 8))) & 1`. -/
def hashBit (hash : Hash32) (byteDepth shiftDepth : Nat) : Bool :=
  (hash.toArray.getD (byteDepth/8) 0).toNat.testBit (7-shiftDepth%8)

/-- The bit of a path at a depth. -/
def pathBit (hash : Hash32) (depth : Nat) : Bool := hashBit hash depth depth

/-- The nodes that are stored, by node hash. -/
abbrev NodeStore (δ : Type) := δ → Option (SMTNode δ)

/-- A read of a node; a record that is not one is an error. -/
abbrev NodeReader (δ : Type) := δ → Except Fault (Option (SMTNode δ))

/-- The reads that find the nodes and never fail. -/
def found {δ : Type} (get : δ → Option (SMTNode δ)) : NodeReader δ := fun nodeHash => .ok (get nodeHash)

/-- A node that the walk has passed, and whether it is a leaf to be replaced. -/
structure PathNode (δ : Type) where
  depth : Nat
  node : SMTNode δ
  isReplacement : Bool

section Code

variable {δ : Type} [DecidableEq δ] (H : SmtHash δ)

namespace NodeStore

def put (nodes : NodeStore δ) (node : SMTNode δ) : NodeStore δ :=
  Function.update nodes (H.hashNode node) (some node)

/-- A batch puts nodes under their hashes. -/
def write (nodes : NodeStore δ) (batch : List (SMTNode δ)) : NodeStore δ := batch.foldl (put H) nodes

end NodeStore

def getNode (nodes : NodeStore δ) (nodeHash : δ) : Option (SMTNode δ) :=
  if nodeHash = H.empty then none else nodes nodeHash

/-- The cache comes first. It also keeps the nodes it has read from storage, which changes no
answer. -/
def getNodeCached (nodes cache : NodeStore δ) (nodeHash : δ) : Option (SMTNode δ) :=
  if nodeHash = H.empty then none else (cache nodeHash).or (nodes nodeHash)

/-- The walk down, with the depth at which it ends. A node that is not found ends it too. -/
def descend (get : NodeReader δ) (keyHash : Hash32) :
    Nat → Nat → δ → Except Fault (List (PathNode δ) × Nat)
  | 0, _, _ => .error (.message "Maximum SMT depth exceeded")
  | fuel+1, depth, currentHash =>
    match get currentHash with
    | .error f => .error f
    | .ok none => .ok ([],depth)
    | .ok (some (.leaf existingKey valueIndex)) =>
      .ok ([⟨depth,.leaf existingKey valueIndex,H.hashKey existingKey == keyHash⟩],depth)
    | .ok (some (.internal leftChild rightChild)) =>
      if 256 ≤ depth+1 then .error (.message "Maximum SMT depth exceeded")
      else do
        let (path,last) ← descend get keyHash fuel (depth+1)
          (if pathBit keyHash depth then rightChild else leftChild)
        return (⟨depth,.internal leftChild rightChild,false⟩::path,last)

/-- The internal node over a child on the side of the bit. -/
def internalNode (bit : Bool) (child sibling : δ) : SMTNode δ :=
  if bit then .internal sibling child else .internal child sibling

/-- The nodes that separate two leaves, from the first bit in which they differ up to the start
depth; the four copies of the source differ in what they store. The batch lists them bottom up. -/
def createSeparatingInternals (existingKeyHash : Hash32) (existingLeafHash : δ)
    (newKeyHash : Hash32) (newLeafHash : δ) : Nat → Nat → Except Fault (δ × List (SMTNode δ))
  | 0, _ => .error (.message "Keys are identical - cannot separate")
  | remaining+1, depth =>
    if pathBit existingKeyHash depth = pathBit newKeyHash depth then do
      let (currentHash,batch) ← createSeparatingInternals existingKeyHash existingLeafHash
        newKeyHash newLeafHash remaining (depth+1)
      let parent := internalNode (pathBit newKeyHash depth) currentHash H.empty
      return (H.hashNode parent,batch ++ [parent])
    else
      let internal := internalNode (pathBit existingKeyHash depth) existingLeafHash newLeafHash
      .ok (H.hashNode internal,[internal])

/-- The nodes above the new leaf, bottom up along the path; the last update is the new root. `bitAt`
is the bit that the copy tests at the depth of a node. -/
def rebuild (keyHash : Hash32) (newLeafHash : δ) (bitAt : Nat → Bool) :
    List (PathNode δ) → Except Fault (δ × List (SMTNode δ))
  | [] => .ok (newLeafHash,[])
  | p::path => do
    let (child,batch) ← rebuild keyHash newLeafHash bitAt path
    match p.node with
    | .leaf existingKey valueIndex =>
      if p.isReplacement then return (child,batch)
      else
        let (hash,separating) ← createSeparatingInternals H (H.hashKey existingKey)
          (H.hashNode (.leaf existingKey valueIndex)) keyHash child (256-p.depth) p.depth
        return (hash,batch ++ separating)
    | .internal leftChild rightChild =>
      let bit := bitAt p.depth
      let internal := internalNode bit child (if bit then leftChild else rightChild)
      return (H.hashNode internal,batch ++ [internal])

/-- A path update: the walk, then the nodes above the leaf. The bit may depend on where the walk has
ended. -/
def pathUpdate (get : NodeReader δ) (bitAt : Nat → Nat → Bool) (currentRoot : δ)
    (keyHash : Hash32) (newLeafHash : δ) : Except Fault (δ × List (SMTNode δ)) := do
  let (path,last) ← descend H get keyHash 256 0 currentRoot
  rebuild H keyHash newLeafHash (bitAt last) path

def SMTHelper.computePathUpdates (get : NodeReader δ) (currentRoot : δ) (keyHash : Hash32)
    (newLeafHash : δ) : Except Fault (δ × List (SMTNode δ)) :=
  pathUpdate H get (fun _ depth => hashBit keyHash depth depth) currentRoot keyHash newLeafHash

/-- The same body, with the batch of the caller. -/
def SMTHelper.computePathUpdatesBatched : NodeReader δ → δ → Hash32 → δ →
    Except Fault (δ × List (SMTNode δ)) :=
  SMTHelper.computePathUpdates H

/-- The shift of the bit is taken from the depth at which the walk has ended. -/
def BatchedSMTHelper.computePathUpdatesBatched (nodes cache : NodeStore δ) (currentRoot : δ)
    (keyHash : Hash32) (newLeafHash : δ) : Except Fault (δ × List (SMTNode δ)) :=
  pathUpdate H (found (getNodeCached H nodes cache)) (fun last depth => hashBit keyHash depth last)
    currentRoot keyHash newLeafHash

/-- Nothing is stored and nothing new is cached. -/
def BatchedSMTHelper.computePathRootOnly (nodes cache : NodeStore δ) (currentRoot : δ)
    (keyHash : Hash32) (newLeafHash : δ) : Except Fault δ := do
  return (← pathUpdate H (found (getNodeCached H nodes cache))
    (fun _ depth => hashBit keyHash depth depth) currentRoot keyHash newLeafHash).1

def newLeaf (key value : Bytes) : SMTNode δ := .leaf key (H.hashValue value)

/-- The update of one key as all copies frame it: the root and the nodes of the batch. -/
def updateForKey (compute : δ → Hash32 → δ → Except Fault (δ × List (SMTNode δ))) (currentRoot : δ)
    (key value : Bytes) : Except Fault (δ × List (SMTNode δ)) :=
  let leaf : SMTNode δ := newLeaf H key value
  if currentRoot = H.empty then .ok (H.hashNode leaf,[leaf])
  else do
    let (newRoot,batch) ← compute currentRoot (H.hashKey key) (H.hashNode leaf)
    return (newRoot,leaf::batch)

/-- The root, and the nodes it has built. -/
def SMTHelper.pathUpdateForKey (nodes : NodeStore δ) : δ → Bytes → Bytes →
    Except Fault (δ × List (SMTNode δ)) :=
  updateForKey H (SMTHelper.computePathUpdates H (found (getNode H nodes)))

/-- Writes its batch before it returns, except on an empty tree. -/
def SMTHelper.updateSmtForKey (nodes : NodeStore δ) (currentRoot : δ) (key value : Bytes) :
    Except Fault (δ × NodeStore δ) := do
  let (newRoot,batch) ← SMTHelper.pathUpdateForKey H nodes currentRoot key value
  return (newRoot,if currentRoot = H.empty then nodes else nodes.write H batch)

/-- Reads the storage only, and hands the nodes to the batch of the call. -/
def SMTHelper.updateSmtForKeyBatched (get : NodeReader δ) (currentRoot : δ) (key value : Bytes)
    (batch : List (SMTNode δ)) : Except Fault (δ × List (SMTNode δ)) := do
  let (newRoot,built) ←
    updateForKey H (SMTHelper.computePathUpdatesBatched H get) currentRoot key value
  return (newRoot,batch ++ built)

def SMTHelper.computeBatchedSmtRoot (get : NodeReader δ) :
    δ → List (Bytes × Bytes) → List (SMTNode δ) → Except Fault (δ × List (SMTNode δ))
  | workingRoot, [], batch => .ok (workingRoot,batch)
  | workingRoot, kv::keyValues, batch => do
    let (workingRoot,batch) ← updateSmtForKeyBatched H get workingRoot kv.1 kv.2 batch
    computeBatchedSmtRoot get workingRoot keyValues batch

/-- The new nodes go to the cache as well, the leaf before the walk. -/
def BatchedSMTHelper.computeBatchedSmtRoot (nodes : NodeStore δ) :
    NodeStore δ → δ → List (Bytes × Bytes) → List (SMTNode δ) → Except Fault (δ × List (SMTNode δ))
  | _, workingRoot, [], batch => .ok (workingRoot,batch)
  | cache, workingRoot, kv::keyValues, batch => do
    let cache := cache.put H (newLeaf H kv.1 kv.2)
    let (workingRoot,built) ←
      updateForKey H (computePathUpdatesBatched H nodes cache) workingRoot kv.1 kv.2
    computeBatchedSmtRoot nodes (cache.write H built) workingRoot keyValues (batch ++ built)

def BatchedSMTHelper.computeRootHashOnly (nodes cache : NodeStore δ) (currentRoot : δ)
    (key value : Bytes) : Except Fault δ :=
  let leaf : SMTNode δ := newLeaf H key value
  if currentRoot = H.empty then .ok (H.hashNode leaf)
  else computePathRootOnly H nodes cache currentRoot (H.hashKey key) (H.hashNode leaf)

def BatchedSMTHelper.computeMinimalSmtRoot (nodes cache : NodeStore δ) :
    δ → List (Bytes × Bytes) → Except Fault δ
  | workingRoot, [] => .ok workingRoot
  | workingRoot, kv::keyValues => do
    let workingRoot ← computeRootHashOnly H nodes cache workingRoot kv.1 kv.2
    computeMinimalSmtRoot nodes cache workingRoot keyValues

/-- The walk of `get_smt_leaf`; the depth is checked at the end of a round. -/
def getSmtLeafFrom (get : NodeReader δ) (keyHash : Hash32) :
    Nat → Nat → δ → Except Fault (Option (SMTNode δ))
  | 0, _, _ => .error (.message "Maximum SMT depth exceeded")
  | fuel+1, depth, currentHash =>
    match get currentHash with
    | .error f => .error f
    | .ok none => .ok none
    | .ok (some (.leaf key valueIndex)) =>
      if H.hashKey key = keyHash then .ok (some (.leaf key valueIndex)) else .ok none
    | .ok (some (.internal leftChild rightChild)) =>
      let child := if pathBit keyHash depth then rightChild else leftChild
      if child = H.empty then .ok none
      else if 256 ≤ depth+1 then .error (.message "Maximum SMT depth exceeded")
      else getSmtLeafFrom get keyHash fuel (depth+1) child

end Code

end Metashrew
