import Metashrew.Tree.Calls
import Metashrew.Tree.Nodes

namespace Metashrew

open Bytes Versioned

/-- How the hashes and the nodes of a tree stand in the records of a database. -/
structure SmtCodec (δ : Type) where
  hashBytes : δ → Bytes
  readHash : Bytes → Option δ
  serializeNode : SMTNode δ → Bytes
  deserializeNode : Bytes → Except Fault (SMTNode δ)

/-- What is written is read back, and no node is read as a number. -/
structure SmtCodec.Lawful {δ : Type} (C : SmtCodec δ) : Prop where
  readHash : ∀ hash, C.readHash (C.hashBytes hash) = some hash
  deserializeNode : ∀ node : SMTNode δ, node.Short → C.deserializeNode (C.serializeNode node) = .ok node
  parseU32 : ∀ node, parseU32 (C.serializeNode node) = none

/-- The records of 32-byte hashes. -/
def hashCodec : SmtCodec Hash32 where
  hashBytes hash := hash.toList
  readHash rootData := if h : rootData.length = 32 then some ⟨rootData.toArray,h⟩ else none
  serializeNode := serializeNode
  deserializeNode := deserializeNode

theorem hashCodec_lawful : hashCodec.Lawful where
  readHash hash := by
    have hl : hash.toList.length = 32 := by simp
    rw [hashCodec]
    dsimp only
    rw [dif_pos hl]
    apply congrArg some
    apply Vector.toArray_inj.mp
    exact Array.toArray_toList
  deserializeNode _ := deserializeNode_serializeNode
  parseU32 node := by
    cases node <;> rfl

namespace SmtCodec

section Code

variable {δ : Type} (C : SmtCodec δ) (H : SmtHash δ)

def nodeKey (nodeHash : δ) : Bytes := smtNodeKey (C.hashBytes nodeHash)

/-- The root record of a height, when it has the length of a hash. -/
def rootAt (σ : Store) (height : Nat) : Option δ := (KV.get σ (rootKey height)).bind C.readHash

def getSmtRootAtHeight (σ : Store) (height : Nat) : Except Fault δ :=
  match SMTHelper.rootAtOrBelow (C.rootAt σ) height with
  | some root => .ok root
  | none => .error (.message s!"No state root found for height {height} or any previous height")

def previousRoot (σ : Store) : Nat → δ
  | 0 => H.empty
  | height+1 =>
    match C.getSmtRootAtHeight σ height with
    | .ok root => root
    | .error _ => H.empty

def rootOp (height : Nat) (root : δ) : Op := .put (rootKey height) (C.hashBytes root)

/-- The writes of a batch of nodes, each under its own hash. -/
def nodeOps (batch : List (SMTNode δ)) : List Op :=
  batch.map fun node => .put (C.nodeKey (H.hashNode node)) (C.serializeNode node)

variable [DecidableEq δ]

def getNode (σ : Store) : NodeReader δ := fun nodeHash =>
  if nodeHash = H.empty then .ok none
  else
    match KV.get σ (C.nodeKey nodeHash) with
    | some nodeData => (C.deserializeNode nodeData).map some
    | none => .ok none

def getSmtLeaf (σ : Store) (root : δ) (keyHash : Hash32) : Except Fault (Option (SMTNode δ)) :=
  if root = H.empty then .ok none else getSmtLeafFrom H (C.getNode H σ) keyHash 256 0 root

/-- Writes its batch before it returns, except on an empty tree. -/
def updateSmtForKey (σ : Store) (currentRoot : δ) (key value : Bytes) : Except Fault (δ × Store) := do
  let (newRoot,batch) ←
    updateForKey H (SMTHelper.computePathUpdates H (C.getNode H σ)) currentRoot key value
  return (newRoot,if currentRoot = H.empty then σ else KV.write σ (C.nodeOps H batch))

/-- One key after the other, each written before the next is read. -/
def computeIncrementalSmtRoot (height : Nat) : Store → δ → List Bytes → Except Fault (δ × Store)
  | σ, workingRoot, [] => .ok (workingRoot,σ)
  | σ, workingRoot, key::keys => do
    match ← getAtHeight (rocksDB σ) key height with
    | none => computeIncrementalSmtRoot height σ workingRoot keys
    | some value =>
      let (workingRoot,σ) ← C.updateSmtForKey H σ workingRoot key value
      computeIncrementalSmtRoot height σ workingRoot keys

def calculateAndStoreStateRoot (σ : Store) (height : Nat) : Except Fault (δ × Store) := do
  let prevRoot := C.previousRoot H σ height
  let updatedKeys ← getKeysAtHeight (rocksDB σ) height
  if updatedKeys = [] then return (prevRoot,KV.write σ [C.rootOp height prevRoot])
  else
    let (newRoot,σ) ← C.computeIncrementalSmtRoot H height σ prevRoot updatedKeys
    return (newRoot,KV.write σ [C.rootOp height newRoot])

/-- The nodes and the root are written in one batch at the end. -/
def calculateAndStoreStateRootBatched (σ : Store) (height : Nat) (updatedKeys : List Bytes) :
    Except Fault (δ × Store) := do
  let prevRoot := C.previousRoot H σ height
  if updatedKeys = [] then return (prevRoot,KV.write σ [C.rootOp height prevRoot])
  else
    let keyValues ← SMTHelper.valuesAtHeight σ height updatedKeys
    let (newRoot,batch) ← SMTHelper.computeBatchedSmtRoot H (C.getNode H σ) prevRoot keyValues []
    return (newRoot,KV.write σ (C.nodeOps H batch ++ [C.rootOp height newRoot]))

end Code

end SmtCodec

/-- A list of pairs put at a height, and the call that then computes the state root. -/
structure RootCall where
  height : Nat
  keyValues : List (Bytes × Bytes)
  batched : Bool

section Runs

variable {δ : Type} [DecidableEq δ] (C : SmtCodec δ) (H : SmtHash δ)

def RootCall.calculate (c : RootCall) (σ : Store) : Except Fault (δ × Store) :=
  if c.batched
  then C.calculateAndStoreStateRootBatched H σ c.height (c.keyValues.map Prod.fst)
  else C.calculateAndStoreStateRoot H σ c.height

def runCall (σ : Store) (c : RootCall) : Except Fault Store := do
  let σ ← putPairs c.height σ c.keyValues
  return (← c.calculate C H σ).2

def runCalls : Store → List RootCall → Except Fault Store
  | σ, [] => .ok σ
  | σ, c::calls => do runCalls (← runCall C H σ c) calls

end Runs

theorem bound_ok {α β : Type} {x : Except Fault α} {f : α → Except Fault β} {b : β} (h : x >>= f = .ok b) :
    ∃ a, x = .ok a ∧ f a = .ok b := by
  cases x with
  | error e => cases h
  | ok a => exact ⟨a,rfl,h⟩

namespace SmtCodec

/-- The nodes that are read from a database. -/
def nodesIn {δ : Type} (C : SmtCodec δ) (σ : Store) : NodeStore δ := fun nodeHash =>
  (KV.get σ (C.nodeKey nodeHash)).bind fun nodeData => (C.deserializeNode nodeData).toOption

/-- Under the name of a node there is that node. -/
def HoldsNodes {δ : Type} (C : SmtCodec δ) (H : SmtHash δ) (σ : Store) : Prop :=
  ∀ nodeHash nodeData, KV.get σ (C.nodeKey nodeHash) = some nodeData →
    ∃ node : SMTNode δ, node.Short ∧ H.hashNode node = nodeHash ∧ nodeData = C.serializeNode node

/-- The keys are short, and no record of theirs has the name of a node. -/
structure Apart {δ : Type} (C : SmtCodec δ) (K : Set Bytes) : Prop where
  short : ∀ key ∈ K, key.length < 2^32
  names : ∀ key ∈ K, ∀ nodeHash, ¬KeyName key (C.nodeKey nodeHash)

section Names

variable {δ : Type} {C : SmtCodec δ} {H : SmtHash δ} {σ σ' : Store} {K : Set Bytes} {key : Bytes}
  {batch : List (SMTNode δ)} {nodeHash : δ} {h : Nat}

theorem nodeKey_injective (hC : C.Lawful) : Function.Injective C.nodeKey := by
  intro d d' h
  have hbytes : C.hashBytes d = C.hashBytes d' := List.append_cancel_left h
  have hread := hC.readHash d
  rw [hbytes, hC.readHash] at hread
  exact (Option.some.inj hread).symm

theorem nodeKey_ne_rootKey : C.nodeKey nodeHash ≠ rootKey h := by
  intro he
  have hn : (C.nodeKey nodeHash).take 5 = [115,109,116,58,110] := rfl
  have hr : (rootKey h).take 5 = [115,109,116,58,114] := rfl
  rw [he, hr] at hn
  exact absurd hn (by decide)

theorem not_keyName_rootKey : ¬KeyName key (rootKey h) := by
  intro hname
  obtain he | ⟨i,he⟩ := keyName_iff.mp (show KeyName key (Record.root h).name from hname)
  · cases he
  · cases he

/-- A name after the nodes of a batch: as before, or that of one of them. -/
theorem get_nodeOps (C : SmtCodec δ) (H : SmtHash δ) (σ : Store) (batch : List (SMTNode δ)) (name : Bytes) :
    KV.get (KV.write σ (C.nodeOps H batch)) name = KV.get σ name ∨
      ∃ node ∈ batch, name = C.nodeKey (H.hashNode node) ∧
        KV.get (KV.write σ (C.nodeOps H batch)) name = some (C.serializeNode node) := by
  induction batch generalizing σ with
  | nil => exact .inl rfl
  | cons n batch ih =>
    have hcons : KV.write σ (C.nodeOps H (n::batch)) =
        KV.write (KV.write σ [.put (C.nodeKey (H.hashNode n)) (C.serializeNode n)]) (C.nodeOps H batch) := rfl
    rw [hcons]
    obtain hsame | ⟨node,hmem,hnode⟩ := ih (KV.write σ [.put (C.nodeKey (H.hashNode n)) (C.serializeNode n)])
    · rw [hsame, KV.get_write_put]
      split_ifs with hname
      · exact .inr ⟨n,List.mem_cons_self,hname.symm,rfl⟩
      · exact .inl rfl
    · exact .inr ⟨node,List.mem_cons_of_mem _ hmem,hnode⟩

end Names

section Nodes

variable {δ : Type} [DecidableEq δ] {C : SmtCodec δ} {H : SmtHash δ} {σ σ' : Store}
  {batch : List (SMTNode δ)}

omit [DecidableEq δ] in
theorem HoldsNodes.empty : C.HoldsNodes H ∅ := by
  intro nodeHash nodeData h
  rw [KV.get_empty] at h
  cases h

omit [DecidableEq δ] in
theorem HoldsNodes.congr (hσ : C.HoldsNodes H σ)
    (h : ∀ nodeHash, KV.get σ' (C.nodeKey nodeHash) = KV.get σ (C.nodeKey nodeHash)) : C.HoldsNodes H σ' := by
  intro nodeHash nodeData hget
  rw [h] at hget
  exact hσ nodeHash nodeData hget

omit [DecidableEq δ] in
theorem HoldsNodes.write (hC : C.Lawful) (hσ : C.HoldsNodes H σ) (hshort : ∀ n ∈ batch, n.Short) :
    C.HoldsNodes H (KV.write σ (C.nodeOps H batch)) := by
  intro nodeHash nodeData hget
  obtain hsame | ⟨node,hmem,hname,hnode⟩ := get_nodeOps C H σ batch (C.nodeKey nodeHash)
  · rw [hsame] at hget
    exact hσ nodeHash nodeData hget
  · rw [hnode] at hget
    cases hget
    exact ⟨node,hshort node hmem,(nodeKey_injective hC hname).symm,rfl⟩

/-- The code reads the nodes of the database, and never fails on one. -/
theorem HoldsNodes.getNode (hC : C.Lawful) (hσ : C.HoldsNodes H σ) :
    C.getNode H σ = found (Metashrew.getNode H (C.nodesIn σ)) := by
  funext nodeHash
  rw [SmtCodec.getNode, found, Metashrew.getNode]
  split_ifs
  · rfl
  · rw [nodesIn]
    cases hget : KV.get σ (C.nodeKey nodeHash) with
    | none => rfl
    | some nodeData =>
      obtain ⟨node,hshort,_,rfl⟩ := hσ nodeHash nodeData hget
      dsimp only [Option.bind_some]
      rw [hC.deserializeNode node hshort]
      rfl

omit [DecidableEq δ] in
theorem HoldsNodes.proper (hC : C.Lawful) (hσ : C.HoldsNodes H σ) : (C.nodesIn σ).Proper H := by
  intro nodeHash n hn
  rw [nodesIn] at hn
  obtain ⟨nodeData,hget,hdata⟩ := Option.bind_eq_some_iff.mp hn
  obtain ⟨node,hshort,hhash,rfl⟩ := hσ nodeHash nodeData hget
  rw [hC.deserializeNode node hshort] at hdata
  cases hdata
  exact hhash

omit [DecidableEq δ] in
theorem nodesIn_congr (h : ∀ nodeHash, KV.get σ' (C.nodeKey nodeHash) = KV.get σ (C.nodeKey nodeHash)) :
    C.nodesIn σ' = C.nodesIn σ := by
  funext nodeHash
  rw [nodesIn, nodesIn, h]

/-- The batch puts its nodes. -/
theorem nodesIn_write (hC : C.Lawful) (hshort : ∀ n ∈ batch, n.Short) :
    C.nodesIn (KV.write σ (C.nodeOps H batch)) = (C.nodesIn σ).write H batch := by
  induction batch generalizing σ with
  | nil => rfl
  | cons n batch ih =>
    have hone : C.nodesIn (KV.write σ [.put (C.nodeKey (H.hashNode n)) (C.serializeNode n)]) =
        (C.nodesIn σ).put H n := by
      funext nodeHash
      rw [nodesIn, KV.get_write_put, NodeStore.put]
      by_cases he : nodeHash = H.hashNode n
      · rw [he, if_pos rfl, Function.update_self]
        dsimp only [Option.bind_some]
        rw [hC.deserializeNode n (hshort n List.mem_cons_self)]
        rfl
      · rw [if_neg fun h => he (nodeKey_injective hC h).symm, Function.update_of_ne he]
        rfl
    have hrest := ih (fun x hx => hshort x (List.mem_cons_of_mem _ hx))
      (σ := KV.write σ [.put (C.nodeKey (H.hashNode n)) (C.serializeNode n)])
    rw [hone] at hrest
    exact hrest

end Nodes

/-- The records of the keys and those of the nodes, neither of which disturbs the other. -/
structure HoldsData {δ : Type} (C : SmtCodec δ) (H : SmtHash δ) (K : Set Bytes) (σ : Store)
    (hist : Bytes → History Nat Bytes) (m : Values) (next : Nat) : Prop where
  records : HoldsRecords σ K hist m next
  nodes : C.HoldsNodes H σ

/-- Only the root of the height may have changed, and no node is lost. -/
structure Grows {δ : Type} (C : SmtCodec δ) (H : SmtHash δ) (height : Nat) (σ σ' : Store) : Prop where
  roots : ∀ i, i ≠ height → C.rootAt σ' i = C.rootAt σ i
  nodes : ∀ ns, Finds H (C.nodesIn σ) ns → Finds H (C.nodesIn σ') ns

section Frames

variable {δ : Type} {C : SmtCodec δ} {H : SmtHash δ} {σ σ' : Store} {K : Set Bytes}
  {hist : Bytes → History Nat Bytes} {m : Values} {next h : Nat} {batch : List (SMTNode δ)} {root : δ}

theorem Apart.nodeKey (hK : C.Apart K) (honly : OnlyKeys K σ σ') (nodeHash : δ) :
    KV.get σ' (C.nodeKey nodeHash) = KV.get σ (C.nodeKey nodeHash) :=
  honly _ fun key hk => hK.names key hk nodeHash

theorem rootAt_only (honly : OnlyKeys K σ σ') : C.rootAt σ' = C.rootAt σ := by
  funext i
  rw [rootAt, rootAt, honly _ fun key _ => not_keyName_rootKey]

theorem rootAt_nodeOps : C.rootAt (KV.write σ (C.nodeOps H batch)) = C.rootAt σ := by
  funext i
  rw [rootAt, rootAt]
  obtain hsame | ⟨_,_,hname,_⟩ := get_nodeOps C H σ batch (rootKey i)
  · rw [hsame]
  · exact absurd hname.symm nodeKey_ne_rootKey

theorem rootAt_rootOp (hC : C.Lawful) :
    C.rootAt (KV.write σ [C.rootOp h root]) = Function.update (C.rootAt σ) h (some root) := by
  funext i
  rw [rootAt, rootOp, KV.get_write_put]
  by_cases hi : i = h
  · rw [hi, if_pos rfl, Function.update_self]
    exact hC.readHash root
  · have hne : rootKey h ≠ rootKey i := by
      intro he
      exact hi (decimal_injective (List.append_cancel_left he)).symm
    rw [if_neg hne, Function.update_of_ne hi]
    rfl

theorem nodeKey_rootOp (nodeHash : δ) : KV.get (KV.write σ [C.rootOp h root]) (C.nodeKey nodeHash) =
    KV.get σ (C.nodeKey nodeHash) := by
  rw [rootOp, KV.get_write_put, if_neg (Ne.symm nodeKey_ne_rootKey)]

/-- The nodes of a batch are no records of the keys, and no lengths. -/
theorem HoldsData.write (hC : C.Lawful) (hK : C.Apart K) (hσ : C.HoldsData H K σ hist m next)
    (hshort : ∀ n ∈ batch, n.Short) :
    C.HoldsData H K (KV.write σ (C.nodeOps H batch)) hist m next := by
  refine ⟨hσ.records.congr ?_ ?_,hσ.nodes.write hC hshort⟩
  · intro key hk name hname
    obtain hsame | ⟨_,_,rfl,_⟩ := get_nodeOps C H σ batch name
    · exact hsame
    · exact absurd hname (hK.names key hk _)
  · intro key hk
    rw [lengthOf]
    obtain hsame | ⟨node,_,_,hnode⟩ := get_nodeOps C H σ batch (lengthKey key)
    · rw [hsame]
      exact hσ.records.others key hk
    · rw [hnode, Option.map_some, parseLength, hC.parseU32]
      rfl

theorem HoldsData.storeRoot (hσ : C.HoldsData H K σ hist m next) :
    C.HoldsData H K (KV.write σ [C.rootOp h root]) hist m next := by
  have hget : ∀ key name, KeyName key name →
      KV.get (KV.write σ [C.rootOp h root]) name = KV.get σ name := by
    intro key name hname
    rw [rootOp, KV.get_write_put, if_neg fun he => not_keyName_rootKey (he ▸ hname)]
  refine ⟨hσ.records.congr (fun key _ => hget key) ?_,hσ.nodes.congr nodeKey_rootOp⟩
  intro key hk
  rw [lengthOf, hget key _ (.inl rfl)]
  exact hσ.records.others key hk

theorem Grows.refl : C.Grows H h σ σ := ⟨fun _ _ => rfl,fun _ hn => hn⟩

theorem Grows.trans {σ'' : Store} (h1 : C.Grows H h σ σ') (h2 : C.Grows H h σ' σ'') : C.Grows H h σ σ'' where
  roots i hi := (h2.roots i hi).trans (h1.roots i hi)
  nodes ns hn := h2.nodes ns (h1.nodes ns hn)

theorem Grows.only (hK : C.Apart K) (honly : OnlyKeys K σ σ') : C.Grows H h σ σ' where
  roots i _ := by rw [rootAt_only honly]
  nodes ns hn := by rwa [nodesIn_congr (hK.nodeKey honly)]

theorem Grows.write [DecidableEq δ] (hC : C.Lawful) (hI : H.Ideal) (hshort : ∀ n ∈ batch, n.Short) :
    C.Grows H h σ (KV.write σ (C.nodeOps H batch)) where
  roots i _ := by rw [rootAt_nodeOps]
  nodes ns hn := by
    rw [nodesIn_write hC hshort]
    exact fun n hmem => hn.write hI n (List.mem_append_left _ hmem)

theorem Grows.storeRoot (hC : C.Lawful) : C.Grows H h σ (KV.write σ [C.rootOp h root]) where
  roots i hi := by rw [rootAt_rootOp hC, Function.update_of_ne hi]
  nodes ns hn := by rwa [nodesIn_congr nodeKey_rootOp]

end Frames

section Short

variable {δ : Type} [DecidableEq δ] {H : SmtHash δ} {get : NodeReader δ} {root root' leafHash : δ}
  {batch built : List (SMTNode δ)}

omit [DecidableEq δ] in
theorem internalNode_short (bit : Bool) (child sibling : δ) : (internalNode bit child sibling).Short := by
  cases bit <;> exact trivial

omit [DecidableEq δ] in
theorem createSeparatingInternals_short {a b : Hash32} {existing : δ} {remaining depth : Nat}
    (h : createSeparatingInternals H a existing b leafHash remaining depth = .ok (root,batch)) :
    ∀ n ∈ batch, n.Short := by
  induction remaining generalizing depth root batch with
  | zero => cases h
  | succ remaining ih =>
    rw [createSeparatingInternals] at h
    split_ifs at h
    · obtain ⟨below,hbelow,h⟩ := bound_ok h
      cases h
      intro n hn
      obtain hn | hn := List.mem_append.mp hn
      · exact ih hbelow n hn
      · rw [List.mem_singleton.mp hn]
        exact internalNode_short ..
    · cases h
      intro n hn
      rw [List.mem_singleton.mp hn]
      exact internalNode_short ..

omit [DecidableEq δ] in
/-- The nodes above a leaf are internal ones. -/
theorem rebuild_short {keyHash : Hash32} {bitAt : Nat → Bool} {path : List (PathNode δ)}
    (h : rebuild H keyHash leafHash bitAt path = .ok (root,batch)) : ∀ n ∈ batch, n.Short := by
  induction path generalizing root batch with
  | nil =>
    cases h
    simp
  | cons p path ih =>
    obtain ⟨below,hbelow,h⟩ := bound_ok h
    have hih := ih hbelow
    cases hp : p.node with
    | internal leftChild rightChild =>
      rw [hp] at h
      cases h
      intro n hn
      obtain hn | hn := List.mem_append.mp hn
      · exact hih n hn
      · rw [List.mem_singleton.mp hn]
        exact internalNode_short ..
    | leaf existingKey valueIndex =>
      rw [hp] at h
      dsimp only at h
      split_ifs at h
      · cases h
        exact hih
      · obtain ⟨separated,hseparated,h⟩ := bound_ok h
        cases h
        intro n hn
        obtain hn | hn := List.mem_append.mp hn
        · exact hih n hn
        · exact createSeparatingInternals_short hseparated n hn

/-- An update of a short key builds short nodes. -/
theorem updateForKey_short {key value : Bytes} (hkey : key.length < 2^32)
    (h : updateForKey H (SMTHelper.computePathUpdates H get) root key value = .ok (root',batch)) :
    ∀ n ∈ batch, n.Short := by
  rw [updateForKey] at h
  dsimp only at h
  split_ifs at h
  · cases h
    intro n hn
    rw [List.mem_singleton.mp hn]
    exact hkey
  · obtain ⟨built,hbuilt,h⟩ := bound_ok h
    cases h
    obtain ⟨walked,_,hrebuild⟩ := bound_ok hbuilt
    intro n hn
    obtain rfl | hn := List.mem_cons.mp hn
    · exact hkey
    · exact rebuild_short hrebuild n hn

theorem computeBatchedSmtRoot_short {keyValues : List (Bytes × Bytes)}
    (hkeys : ∀ kv ∈ keyValues, kv.1.length < 2^32) (hbatch : ∀ n ∈ batch, n.Short)
    (h : SMTHelper.computeBatchedSmtRoot H get root keyValues batch = .ok (root',built)) :
    ∀ n ∈ built, n.Short := by
  induction keyValues generalizing root batch with
  | nil =>
    cases h
    exact hbatch
  | cons kv keyValues ih =>
    obtain ⟨updated,hupdated,h⟩ := bound_ok h
    obtain ⟨one,hone,hupdated⟩ := bound_ok hupdated
    cases hupdated
    refine ih (fun x hx => hkeys x (List.mem_cons_of_mem _ hx)) ?_ h
    intro n hn
    obtain hn | hn := List.mem_append.mp hn
    · exact hbatch n hn
    · exact updateForKey_short (hkeys kv List.mem_cons_self) hone n hn

end Short

end SmtCodec

end Metashrew
