import Metashrew.Tree.Copies
import Metashrew.Tree.Holds

namespace Metashrew

open Bytes

/-- A record to be written: the leaf under the hash of its key, a node under its own hash, and the
root of a height. -/
inductive SmtUpdate (δ : Type) where
  | keyLeaf (keyHash : Hash32) (node : SMTNode δ)
  | node (nodeHash : δ) (node : SMTNode δ)
  | root (height : Nat) (hash : δ)

def SmtUpdate.rootHash {δ : Type} : SmtUpdate δ → Option δ
  | root _ hash => some hash
  | _ => none

/-- A pair, and the records over which `compute_incremental_smt_root` reads it. -/
structure PairInsert where
  records : Store
  key : Bytes
  value : Bytes

def PairInsert.pair (p : PairInsert) : Bytes × Bytes := (p.key,p.value)

namespace SMTHelper

variable {δ : Type} [DecidableEq δ] (H : SmtHash δ)

/-- The nodes from the root down with the side that the walk takes. It stops at an empty child before
it looks at the depth. -/
def collectPathNodesFrom (nodes : NodeStore δ) (keyHash : Hash32) :
    Nat → Nat → δ → Except Fault (List (Bool × SMTNode δ))
  | 0, _, _ => .error (.message "Maximum SMT depth exceeded")
  | fuel+1, depth, currentHash =>
    match getNode H nodes currentHash with
    | none => .ok []
    | some (.leaf key valueIndex) => .ok [(false,.leaf key valueIndex)]
    | some (.internal leftChild rightChild) =>
      let bit := pathBit keyHash depth
      let child := if bit then rightChild else leftChild
      if child = H.empty then .ok [(bit,.internal leftChild rightChild)]
      else if 256 ≤ depth+1 then .error (.message "Maximum SMT depth exceeded")
      else do
        let path ← collectPathNodesFrom nodes keyHash fuel (depth+1) child
        return (bit,.internal leftChild rightChild)::path

def collectPathNodes (nodes : NodeStore δ) (root : δ) (keyHash : Hash32) :
    Except Fault (List (Bool × SMTNode δ)) :=
  if root = H.empty then .ok [] else collectPathNodesFrom H nodes keyHash 256 0 root

/-- A node of the path over the newest node, which at the end of the path is the new leaf. A leaf of
the path is skipped, whatever its key. -/
def updatePathNode (p : Bool × SMTNode δ) (built : List (SmtUpdate δ) × δ) :
    List (SmtUpdate δ) × δ :=
  match p.2 with
  | .leaf _ _ => built
  | .internal leftChild rightChild =>
    let newNode := internalNode p.1 built.2 (if p.1 then leftChild else rightChild)
    (built.1 ++ [.node (H.hashNode newNode) newNode],H.hashNode newNode)

/-- An empty path leaves the leaf as the root. -/
def computeSmtUpdates (nodes : NodeStore δ) (key value : Bytes) (currentRoot : δ) (height : Nat) :
    Except Fault (List (SmtUpdate δ)) := do
  let leaf := newLeaf H key value
  let leafHash := H.hashNode leaf
  let pathNodes ← collectPathNodes H nodes currentRoot (H.hashKey key)
  let built := pathNodes.foldr (updatePathNode H)
    ([.keyLeaf (H.hashKey key) leaf,.node leafHash leaf],leafHash)
  return built.1 ++ [.root height built.2]

/-- Only the last pair is looked at. -/
def computeNewRoot (nodes : NodeStore δ) (currentRoot : δ) (kvs : List (Bytes × Bytes))
    (height : Nat) : Except Fault δ :=
  match kvs.getLast? with
  | none => .ok currentRoot
  | some (lastKey,lastValue) => do
    let updates ← computeSmtUpdates H nodes lastKey lastValue currentRoot height
    return (updates.reverse.findSome? SmtUpdate.rootHash).getD currentRoot

/-- The pairs one by one, each by an incremental update of its key. -/
def insertPairs (height : Nat) : NodeStore δ → δ → List PairInsert → Except Fault (δ × NodeStore δ)
  | nodes, root, [] => .ok (root,nodes)
  | nodes, root, p::pairs => do
    let (root,nodes) ← computeIncrementalSmtRoot H p.records height nodes root [p.key]
    insertPairs height nodes root pairs

end SMTHelper

/-- The tree of the root has a leaf of the key. -/
def UnderRoot {δ : Type} (H : SmtHash δ) (root : δ) (key : Bytes) : Prop :=
  ∃ t, digest H t = root ∧ ∃ e, Trie.Mem e t ∧ e.1 = key

/-- The root computed at once is that of the pairs inserted one by one, and no key is lost under it. -/
def NewRootAgrees {δ : Type} [DecidableEq δ] (H : SmtHash δ) (height : Nat) (nodes : NodeStore δ)
    (root : δ) (pairs : List PairInsert) : Prop :=
  SMTHelper.computeNewRoot H nodes root (pairs.map PairInsert.pair) height =
      (SMTHelper.insertPairs H height nodes root pairs).map Prod.fst ∧
    ∀ newRoot, SMTHelper.computeNewRoot H nodes root (pairs.map PairInsert.pair) height = .ok newRoot →
      ∀ key, UnderRoot H root key → UnderRoot H newRoot key

/-- The walk of the last key ends at its own leaf or where there is none, and the tree has the other
keys of the list already, with their values. On an empty tree only the first pair may have another key,
when its leaf is not stored. -/
def NewRootSafe {δ : Type} (H : SmtHash δ) (nodes : NodeStore δ) (t : Trie Entry)
    (kvs : List (Bytes × Bytes)) : Prop :=
  ∀ last, kvs.getLast? = some last →
    (t = .empty → (∀ kv ∈ kvs.tail, kv.1 = last.1) ∧ ∀ first, kvs.head? = some first →
      nodes (H.hashNode (newLeaf H first.1 first.2)) ≠ none → first.1 = last.1) ∧
    (t ≠ .empty → ∀ o, Trie.endOf pathBit 256 (H.hashKey last.1) 0 t = .ok o →
      (∀ b, o = some b → b.1 = last.1) ∧ ∀ key value, key ≠ last.1 →
        putValues (fun _ => none) kvs key = some value →
        Trie.endOf pathBit 256 (H.hashKey key) 0 t = .ok (some (key,H.hashValue value)))

section Bits

theorem pathBit_eq (hash : Hash32) (j k : Nat) (hk : k < 8) (hj : j < 32) :
    pathBit hash (8*j+(7-k)) = hash[j].toNat.testBit k := by
  have hdiv : (8*j+(7-k))/8 = j := by omega
  have hmod : 7-(8*j+(7-k))%8 = k := by omega
  have hget : hash.toArray.getD j 0 = hash[j] := by simp [Array.getD, hj]
  rw [pathBit, hashBit, hdiv, hmod, hget]

/-- The 256 bits are the hash. -/
theorem hash_eq_of_bits (hash hash' : Hash32) (h : ∀ i < 256, pathBit hash i = pathBit hash' i) :
    hash = hash' := by
  apply Vector.ext
  intro j hj
  apply UInt8.toNat_inj.mp
  apply Nat.eq_of_testBit_eq
  intro k
  by_cases hk : k < 8
  · rw [← pathBit_eq hash j k hk hj, ← pathBit_eq hash' j k hk hj]
    exact h _ (by omega)
  · have hlarge : ∀ b : UInt8, b.toNat.testBit k = false := by
      intro b
      apply Nat.testBit_lt_two_pow
      calc b.toNat < 2^8 := b.toNat_lt
        _ ≤ 2^k := Nat.pow_le_pow_right (by decide) (by omega)
    rw [hlarge, hlarge]

end Bits

section Walk

variable {δ : Type} [DecidableEq δ] {H : SmtHash δ} {nodes : NodeStore δ} {t l r : Trie Entry}
  {d fuel : Nat} {e : Entry}

/-- The walk of an entry is collected, and the nodes built above its leaf are those of the grafted
tree. -/
def Collects (H : SmtHash δ) (nodes : NodeStore δ) (e : Entry) (fuel d : Nat) (t : Trie Entry) :
    Prop :=
  match Trie.endOf pathBit 256 (H.hashKey e.1) d t with
  | .error f => SMTHelper.collectPathNodesFrom H nodes (H.hashKey e.1) fuel d (digest H t) =
      .error (overflowFault f)
  | .ok _ => ∃ path,
      SMTHelper.collectPathNodesFrom H nodes (H.hashKey e.1) fuel d (digest H t) = .ok path ∧
      ∀ us, ∃ us', path.foldr (SMTHelper.updatePathNode H) (us,H.hashNode (leafNode e)) =
        (us',digest H (Trie.graft (entryPath H) pathBit e d t))

theorem Collects.leaf {b : Entry} (hget : getNode H nodes (digest H (.leaf b)) = some (leafNode b)) :
    Collects H nodes e (fuel+1) d (.leaf b) := by
  show ∃ path, _ ∧ _
  refine ⟨[(false,leafNode b)],?_,fun us => ⟨us,rfl⟩⟩
  rw [SMTHelper.collectPathNodesFrom, hget]
  rfl

omit [DecidableEq δ] in
theorem graft_node : Trie.graft (entryPath H) pathBit e d (.node l r) =
    .fork (pathBit (H.hashKey e.1) d)
      (Trie.graft (entryPath H) pathBit e (d+1) (if pathBit (H.hashKey e.1) d then r else l))
      (if pathBit (H.hashKey e.1) d then l else r) := by
  have hpath : entryPath H e = H.hashKey e.1 := rfl
  rw [Trie.graft, hpath]
  cases pathBit (H.hashKey e.1) d <;> rfl

omit [DecidableEq δ] in
/-- The node built over a child has the hash of the fork. -/
theorem updatePathNode_digest (bit : Bool) (us : List (SmtUpdate δ)) (child : Trie Entry) :
    ∃ us', SMTHelper.updatePathNode H (bit,.internal (digest H l) (digest H r)) (us,digest H child) =
      (us',digest H (.fork bit child (if bit then l else r))) := by
  rw [digest_fork, apply_ite (digest H)]
  exact ⟨_,rfl⟩

/-- The walk stops over an empty child. -/
theorem Collects.aboveEmpty
    (hget : getNode H nodes (digest H (.node l r)) = some (.internal (digest H l) (digest H r)))
    (hd : ¬256 ≤ d+1) (hempty : (if pathBit (H.hashKey e.1) d then r else l) = .empty) :
    Collects H nodes e (fuel+1) d (.node l r) := by
  have hchild : (if pathBit (H.hashKey e.1) d then digest H r else digest H l) = H.empty := by
    rw [← apply_ite (digest H), hempty]
    rfl
  rw [Collects, Trie.endOf_child hd, hempty]
  refine ⟨[(pathBit (H.hashKey e.1) d,.internal (digest H l) (digest H r))],?_,fun us => ?_⟩
  · rw [SMTHelper.collectPathNodesFrom, hget]
    dsimp only
    rw [if_pos hchild]
  · rw [graft_node, hempty]
    exact updatePathNode_digest _ us (.leaf e)

/-- One round of the walk. -/
theorem Collects.above (hI : H.Ideal)
    (hget : getNode H nodes (digest H (.node l r)) = some (.internal (digest H l) (digest H r)))
    (hchild : (if pathBit (H.hashKey e.1) d then r else l) ≠ .empty)
    (h : d+1 < 256 →
      Collects H nodes e fuel (d+1) (if pathBit (H.hashKey e.1) d then r else l)) :
    Collects H nodes e (fuel+1) d (.node l r) := by
  rw [Collects, SMTHelper.collectPathNodesFrom, hget]
  dsimp only
  rw [← apply_ite (digest H), if_neg fun h => hchild ((digest_eq_empty hI).mp h)]
  by_cases hmax : 256 ≤ d+1
  · rw [Trie.endOf, if_pos hmax, if_pos hmax]
    rfl
  · replace h := h (by omega)
    rw [Collects] at h
    rw [Trie.endOf_child hmax, if_neg hmax, graft_node]
    cases hend : Trie.endOf pathBit 256 (H.hashKey e.1) (d+1)
        (if pathBit (H.hashKey e.1) d then r else l) with
    | error f =>
      rw [hend] at h
      dsimp only at h ⊢
      rw [h]
      rfl
    | ok o =>
      rw [hend] at h
      obtain ⟨path,hpath,hfold⟩ := h
      dsimp only
      rw [hpath]
      refine ⟨_,rfl,fun us => ?_⟩
      obtain ⟨us',hus⟩ := hfold us
      rw [List.foldr_cons, hus]
      exact updatePathNode_digest _ us' _

omit [DecidableEq δ] in
/-- What agrees with a path above a node and lies on its side agrees with it below. -/
theorem bits_below {keyHash : Hash32} {c : Trie Entry}
    (hpre : ∀ b, Trie.Mem b t → ∀ i < d, pathBit (entryPath H b) i = pathBit keyHash i)
    (hsub : ∀ b, Trie.Mem b c → Trie.Mem b t)
    (hside : ∀ b, Trie.Mem b c → pathBit (entryPath H b) d = pathBit keyHash d) :
    ∀ b, Trie.Mem b c → ∀ i < d+1, pathBit (entryPath H b) i = pathBit keyHash i := by
  intro b hb i hi
  by_cases hid : i = d
  · rw [hid]
    exact hside b hb
  · exact hpre b (hsub b hb) i (by omega)

theorem collectPathNodesFrom_spec (hI : H.Ideal) (ht : Trie.WellFormed (entryPath H) pathBit d t)
    (hget : Finds H nodes (nodesOf H t)) (hne : t ≠ .empty) (hd : fuel+d = 256) (hlt : d < 256)
    (hpre : ∀ b, Trie.Mem b t → ∀ i < d,
      pathBit (entryPath H b) i = pathBit (H.hashKey e.1) i) :
    Collects H nodes e fuel d t := by
  obtain ⟨fuel,rfl⟩ : ∃ n, fuel = n+1 := ⟨fuel-1,by omega⟩
  induction ht generalizing fuel with
  | empty => exact absurd rfl hne
  | leaf d b =>
    apply Collects.leaf
    rw [digest, getNode_hash hI]
    exact hget _ List.mem_cons_self
  | @node d l r hl hr hfalse htrue htwo ihl ihr =>
    have hnode : getNode H nodes (digest H (.node l r)) =
        some (.internal (digest H l) (digest H r)) := by
      rw [digest, getNode_hash hI]
      exact hget _ List.mem_cons_self
    by_cases hempty : (if pathBit (H.hashKey e.1) d then r else l) = .empty
    · -- at the last bit a node has entries on both sides
      apply Collects.aboveEmpty hnode ?_ hempty
      intro hmax
      exact (Trie.WellFormed.node hl hr hfalse htrue htwo).child_ne_empty hash_eq_of_bits hmax hpre
        hempty
    · apply Collects.above hI hnode hempty
      intro hdeep
      obtain ⟨fuel,rfl⟩ : ∃ n, fuel = n+1 := ⟨fuel-1,by omega⟩
      cases hbit : pathBit (H.hashKey e.1) d with
      | true =>
        rw [hbit] at hempty
        apply ihr (hget.child true) hempty hdeep ?_ fuel (by omega)
        exact bits_below hpre (fun b => .inr) fun b hb => (htrue b hb).trans hbit.symm
      | false =>
        rw [hbit] at hempty
        apply ihl (hget.child false) hempty hdeep ?_ fuel (by omega)
        exact bits_below hpre (fun b => .inl) fun b hb => (hfalse b hb).trans hbit.symm

/-- The root computed at once is that of the grafted tree of the last pair. -/
theorem computeNewRoot_eq (hI : H.Ideal) (ht : Trie.WellFormed (entryPath H) pathBit 0 t)
    (hget : Finds H nodes (nodesOf H t)) (kvs : List (Bytes × Bytes)) {last : Bytes × Bytes}
    (hlast : kvs.getLast? = some last) (height : Nat) :
    SMTHelper.computeNewRoot H nodes (digest H t) kvs height =
      rootOf H ((Trie.endOf pathBit 256 (H.hashKey last.1) 0 t).map fun _ =>
        Trie.graft (entryPath H) pathBit (last.1,H.hashValue last.2) 0 t) := by
  have hroot : ∀ (us : List (SmtUpdate δ)) root, ((us ++ [SmtUpdate.root height root]).reverse.findSome?
      SmtUpdate.rootHash).getD (digest H t) = root := by
    intro us root
    rw [List.reverse_append]
    rfl
  rw [SMTHelper.computeNewRoot, hlast]
  dsimp only
  rw [SMTHelper.computeSmtUpdates, SMTHelper.collectPathNodes]
  by_cases hempty : t = .empty
  · rw [if_pos ((digest_eq_empty hI).mpr hempty), hempty]
    show Except.ok _ = _
    rw [← hempty, hroot, hempty]
    rfl
  · have hwalk : Collects H nodes (last.1,H.hashValue last.2) 256 0 t :=
      collectPathNodesFrom_spec hI ht hget hempty rfl (by decide)
        fun b _ i hi => absurd hi (Nat.not_lt_zero i)
    rw [if_neg fun h => hempty ((digest_eq_empty hI).mp h)]
    rw [Collects] at hwalk
    cases hend : Trie.endOf pathBit 256 (H.hashKey last.1) 0 t with
    | error f =>
      rw [hend] at hwalk
      dsimp only at hwalk
      rw [hwalk]
      rfl
    | ok o =>
      rw [hend] at hwalk
      obtain ⟨path,hpath,hfold⟩ := hwalk
      obtain ⟨us,hus⟩ := hfold [.keyLeaf (H.hashKey last.1) (newLeaf H last.1 last.2),
        .node (H.hashNode (newLeaf H last.1 last.2)) (newLeaf H last.1 last.2)]
      rw [hpath]
      show Except.ok (((_ ++ [SmtUpdate.root height _]).reverse.findSome? SmtUpdate.rootHash).getD
        (digest H t)) = _
      rw [hroot]
      exact congrArg (fun x => Except.ok x.2) hus

end Walk

section Insertions

variable {δ : Type} {H : SmtHash δ} {m : Values} {t t' : Trie Entry} {K : Set Bytes}
  {kvs : List (Bytes × Bytes)} {last : Bytes × Bytes} {key : Bytes} {f : Trie.Overflow}

/-- The values of a list come before those there were. -/
theorem putValues_eq (m : Values) (kvs : List (Bytes × Bytes)) (key : Bytes) :
    putValues m kvs key = (putValues (fun _ => none) kvs key).or (m key) := by
  by_cases hkey : key ∈ kvs.map Prod.fst
  · induction kvs generalizing m with
    | nil => cases hkey
    | cons kv kvs ih =>
      rw [putValues, putValues]
      by_cases hrest : key ∈ kvs.map Prod.fst
      · have hsome : putValues (fun _ => none) kvs key ≠ none := putValues_ne_none (.inl hrest)
        obtain ⟨v,hv⟩ := Option.ne_none_iff_exists'.mp hsome
        rw [ih (Function.update m kv.1 (some kv.2)) hrest,
          ih (Function.update (fun _ => none) kv.1 (some kv.2)) hrest, hv]
        rfl
      · obtain rfl : key = kv.1 := (List.mem_cons.mp hkey).resolve_right hrest
        rw [putValues_of_not_mem hrest, putValues_of_not_mem hrest, Function.update_self,
          Function.update_self]
        rfl
  · rw [putValues_of_not_mem hkey, putValues_of_not_mem hkey]
    rfl

theorem putValues_last (hlast : kvs.getLast? = some last) (m : Values) :
    putValues m kvs last.1 = some last.2 := by
  obtain ⟨init,rfl⟩ := List.getLast?_eq_some_iff.mp hlast
  induction init generalizing m with
  | nil => exact Function.update_self _ _ _
  | cons kv init ih =>
    rw [List.cons_append, putValues]
    apply ih
    rw [List.getLast?_append]
    rfl

theorem insertAll_cons_ok {kv : Bytes × Bytes}
    (h : insertEntry H (kv.1,H.hashValue kv.2) 0 t = .ok t') :
    insertAll H t (kv::kvs) = insertAll H t' kvs := by
  rw [insertAll, h]
  rfl

theorem insertAll_cons_error {kv : Bytes × Bytes}
    (h : insertEntry H (kv.1,H.hashValue kv.2) 0 t = .error f) :
    insertAll H t (kv::kvs) = .error f := by
  rw [insertAll, h]
  rfl

/-- Insertions that succeed leave the values of the list. -/
theorem insertAll_holds (ht : HoldsValues H m t) (hinj : Set.InjOn H.hashKey K)
    (hm : ∀ key, m key ≠ none → key ∈ K) (hK : ∀ kv ∈ kvs, kv.1 ∈ K)
    (h : insertAll H t kvs = .ok t') : HoldsValues H (putValues m kvs) t' := by
  induction kvs generalizing m t with
  | nil =>
    cases h
    exact ht
  | cons kv kvs ih =>
    cases hi : insertEntry H (kv.1,H.hashValue kv.2) 0 t with
    | error f =>
      rw [insertAll_cons_error hi] at h
      cases h
    | ok t1 =>
      rw [insertAll_cons_ok hi] at h
      have hk := hK kv List.mem_cons_self
      exact ih (ht.of_insert hinj hm hk hi) (update_mem hm hk)
        (fun kv' hkv => hK kv' (List.mem_cons_of_mem _ hkv)) h

/-- A key whose walk has no end is not inserted. -/
theorem insertAll_error (ht : HoldsValues H m t) (hinj : Set.InjOn H.hashKey K)
    (hm : ∀ key, m key ≠ none → key ∈ K) (hK : ∀ kv ∈ kvs, kv.1 ∈ K)
    (hkey : key ∈ kvs.map Prod.fst) (hend : Trie.endOf pathBit 256 (H.hashKey key) 0 t = .error f) :
    insertAll H t kvs = .error .depth := by
  induction kvs generalizing m t with
  | nil => cases hkey
  | cons kv kvs ih =>
    cases hi : insertEntry H (kv.1,H.hashValue kv.2) 0 t with
    | error g =>
      have hdeep := Trie.endOf_of_insert_error hash_eq_of_bits ht.wellFormed.placed
        (fun b _ i hi => absurd hi (Nat.not_lt_zero i)) hi
      rw [insertAll_cons_error hi]
      have hg := Trie.insert_of_endOf_error hdeep
      exact congrArg Except.error (Except.error.inj (hi.symm.trans hg))
    | ok t1 =>
      have hk := hK kv List.mem_cons_self
      rw [insertAll_cons_ok hi]
      apply ih (ht.of_insert hinj hm hk hi) (update_mem hm hk)
        (fun kv' hkv => hK kv' (List.mem_cons_of_mem _ hkv)) ?_ (Trie.endOf_error_insert hend hi)
      rw [List.map_cons, List.mem_cons] at hkey
      obtain rfl | hkey := hkey
      · have hno : insertEntry H (kv.1,H.hashValue kv.2) 0 t = .error f :=
          Trie.insert_of_endOf_error hend
        rw [hi] at hno
        cases hno
      · exact hkey

/-- The walk of every key of the list ends at its own leaf, or for the one key at an empty place. -/
def Ready (H : SmtHash δ) (key : Bytes) (t : Trie Entry) (kvs : List (Bytes × Bytes)) : Prop :=
  ∀ kv ∈ kvs, ∃ o, Trie.endOf pathBit 256 (H.hashKey kv.1) 0 t = .ok o ∧
    (∀ b, o = some b → H.hashKey b.1 = H.hashKey kv.1) ∧ (o = none → kv.1 = key)

theorem Ready.fits {kv : Bytes × Bytes} (h : Ready H key t kvs) (hkv : kv ∈ kvs) :
    Trie.Fits (entryPath H) pathBit 256 (kv.1,H.hashValue kv.2) 0 t := by
  obtain ⟨o,ho,hown,_⟩ := h kv hkv
  exact ⟨o,ho,hown⟩

/-- What one insertion leaves for the others. -/
theorem Ready.step {kv : Bytes × Bytes} (h : Ready H key t (kv::kvs)) :
    Ready H key (Trie.graft (entryPath H) pathBit (kv.1,H.hashValue kv.2) 0 t) kvs := by
  intro kv' hkv'
  obtain ⟨o',ho',hown',hnone'⟩ := h kv' (List.mem_cons_of_mem _ hkv')
  obtain ⟨o,ho,hown,hnone⟩ := h kv List.mem_cons_self
  cases o' with
  | some b =>
    obtain ⟨c,hc,hpath⟩ := (h.fits List.mem_cons_self).endOf_graft ho'
    refine ⟨some c,hc,fun b' hb' => ?_,fun h => by cases h⟩
    cases hb'
    exact hpath.trans (hown' b rfl)
  | none =>
    cases o with
    | some b =>
      have hplace : Trie.endOf pathBit 256 (entryPath H (kv.1,H.hashValue kv.2)) 0 t = .ok (some b) := ho
      exact ⟨none,Trie.endOf_graft_none hplace ho',fun b' hb' => (by cases hb'),fun _ => hnone' rfl⟩
    | none =>
      have hkey : kv.1 = kv'.1 := (hnone rfl).trans (hnone' rfl).symm
      have hplace : Trie.endOf pathBit 256 (entryPath H (kv.1,H.hashValue kv.2)) 0 t = .ok none := ho
      refine ⟨some (kv.1,H.hashValue kv.2),?_,fun b' hb' => ?_,fun h => by cases h⟩
      · rw [← hkey]
        exact Trie.endOf_graft_self hplace
      · cases hb'
        rw [hkey]

theorem Ready.succeeds (h : Ready H key t kvs) : ∃ t', insertAll H t kvs = .ok t' := by
  induction kvs generalizing t with
  | nil => exact ⟨t,rfl⟩
  | cons kv kvs ih =>
    obtain ⟨t',ht'⟩ := ih h.step
    refine ⟨t',?_⟩
    rw [insertAll_cons_ok (h.fits List.mem_cons_self).insert_eq]
    exact ht'

/-- An entry beside the grafted one was there before. -/
theorem mem_of_graft {value : Bytes} {e : Entry}
    (h : HoldsValues H m (Trie.graft (entryPath H) pathBit e 0 t)) (hkey : key ≠ e.1)
    (hvalue : m key = some value) : Trie.Mem (key,H.hashValue value) t := by
  have hentry := (h.mem (key,H.hashValue value)).mpr ⟨value,hvalue,rfl⟩
  apply (Trie.mem_graft hentry).resolve_left
  intro hself
  exact hkey (congrArg Prod.fst hself)

/-- A graft that keeps all keys takes the place of no other key. -/
theorem key_of_graft {m' : Values} {e b : Entry} (ht : HoldsValues H m t)
    (h : HoldsValues H m' (Trie.graft (entryPath H) pathBit e 0 t))
    (hkeeps : ∀ key, m key ≠ none → m' key ≠ none)
    (hend : Trie.endOf pathBit 256 (entryPath H e) 0 t = .ok (some b)) : b.1 = e.1 := by
  by_contra hne
  have hb := Trie.mem_of_endOf hend
  obtain ⟨v,hv,_⟩ := (ht.mem b).mp hb
  obtain ⟨w,hw⟩ := Option.ne_none_iff_exists'.mp
    (hkeeps b.1 (by rw [hv]; exact Option.some_ne_none v))
  -- the entry that the key has after the graft is the leaf that the graft has replaced
  have hold := mem_of_graft h hne hw
  have hsame : (b.1,H.hashValue w) = b := ht.wellFormed.eq_of_path hold hb rfl
  have hentry := (h.mem (b.1,H.hashValue w)).mpr ⟨w,hw,rfl⟩
  rw [hsame] at hentry
  exact ht.wellFormed.not_mem_graft hend (fun hself => hne (congrArg Prod.fst hself)) hentry

/-- When the other keys have their values, the insertions are that of the last pair. -/
theorem Ready.insertAll_eq (h : Ready H last.1 t kvs) (ht : HoldsValues H m t)
    (hinj : Set.InjOn H.hashKey K) (hm : ∀ key, m key ≠ none → key ∈ K) (hK : ∀ kv ∈ kvs, kv.1 ∈ K)
    (hlast : kvs.getLast? = some last)
    (hothers : ∀ key value, key ≠ last.1 → putValues (fun _ => none) kvs key = some value →
      Trie.Mem (key,H.hashValue value) t) :
    insertAll H t kvs =
      .ok (Trie.graft (entryPath H) pathBit (last.1,H.hashValue last.2) 0 t) := by
  have hmem : last ∈ kvs := List.mem_of_getLast? hlast
  obtain ⟨t',ht'⟩ := h.succeeds
  have hall := insertAll_holds ht hinj hm hK ht'
  have hone := ht.of_insert hinj hm (hK last hmem) (h.fits hmem).insert_eq
  rw [ht']
  apply congrArg Except.ok
  apply hall.wellFormed.unique hone.wellFormed
  intro e
  rw [hone.mem, hall.mem]
  by_cases hkey : e.1 = last.1
  · rw [hkey, Function.update_self, putValues_last hlast]
  · rw [Function.update_of_ne hkey, putValues_eq]
    cases hv : putValues (fun _ => none) kvs e.1 with
    | none => rfl
    | some value =>
      obtain ⟨w,hw,hhash⟩ := (ht.mem (e.1,H.hashValue value)).mp (hothers e.1 value hkey hv)
      rw [hw]
      simp only [Option.some.injEq, exists_eq_left', Option.some_or]
      rw [← hhash]

/-- The graft of the last pair is the insertion of all pairs exactly when its walk has no end, or it
ends at no leaf of another key and the other keys have their values. -/
theorem graft_eq_insertAll_iff (ht : HoldsValues H m t) (hinj : Set.InjOn H.hashKey K)
    (hm : ∀ key, m key ≠ none → key ∈ K) (hK : ∀ kv ∈ kvs, kv.1 ∈ K)
    (hlast : kvs.getLast? = some last) :
    ((Trie.endOf pathBit 256 (H.hashKey last.1) 0 t).map fun _ =>
        Trie.graft (entryPath H) pathBit (last.1,H.hashValue last.2) 0 t) = insertAll H t kvs ↔
      ∀ o, Trie.endOf pathBit 256 (H.hashKey last.1) 0 t = .ok o →
        (∀ b, o = some b → b.1 = last.1) ∧ ∀ key value, key ≠ last.1 →
          putValues (fun _ => none) kvs key = some value →
          Trie.endOf pathBit 256 (H.hashKey key) 0 t = .ok (some (key,H.hashValue value)) := by
  have hmem : last ∈ kvs := List.mem_of_getLast? hlast
  constructor
  · intro heq o ho
    rw [ho] at heq
    have hall := insertAll_holds ht hinj hm hK heq.symm
    constructor
    · intro b hb
      rw [hb] at ho
      exact key_of_graft ht hall (fun key hkey => putValues_ne_none (.inr hkey)) ho
    · intro key value hkey hvalue
      have hput : putValues m kvs key = some value := by
        rw [putValues_eq, hvalue]
        rfl
      have hold := mem_of_graft hall hkey hput
      cases hend : Trie.endOf pathBit 256 (H.hashKey key) 0 t with
      | ok o' =>
        have hpath : entryPath H (key,H.hashValue value) = H.hashKey key := rfl
        rw [← hpath] at hend
        rw [ht.wellFormed.endOf_mem hold hend]
      | error f =>
        have hlisted : key ∈ kvs.map Prod.fst := by
          by_contra hno
          rw [putValues_of_not_mem hno] at hvalue
          cases hvalue
        rw [insertAll_error ht hinj hm hK hlisted hend] at heq
        cases heq
  · intro h
    cases hend : Trie.endOf pathBit 256 (H.hashKey last.1) 0 t with
    | error f =>
      rw [insertAll_error ht hinj hm hK (List.mem_map_of_mem hmem) hend,
        Trie.eq_depth_of_endOf hend]
      rfl
    | ok o =>
      obtain ⟨hown,hothers⟩ := h o hend
      have hready : Ready H last.1 t kvs := by
        intro kv hkv
        by_cases hkey : kv.1 = last.1
        · rw [hkey]
          exact ⟨o,hend,fun b hb => by rw [hown b hb],fun _ => rfl⟩
        · have hsome : putValues (fun _ => none) kvs kv.1 ≠ none :=
            putValues_ne_none (.inl (List.mem_map_of_mem hkv))
          obtain ⟨v,hv⟩ := Option.ne_none_iff_exists'.mp hsome
          refine ⟨_,hothers kv.1 v hkey hv,fun b hb => ?_,fun h => by cases h⟩
          cases hb
          rfl
      rw [hready.insertAll_eq ht hinj hm hK hlast fun key value hkey hvalue =>
        Trie.mem_of_endOf (hothers key value hkey hvalue)]
      rfl

end Insertions

section OneByOne

variable {δ : Type} [DecidableEq δ] {H : SmtHash δ} {nodes : NodeStore δ} {m : Values}
  {t : Trie Entry} {K : Set Bytes} {pairs : List PairInsert} {p : PairInsert} {height : Nat} {root : δ}

theorem insertPairs_cons (hread : getAtHeight (rocksDB p.records) p.key height = .ok (some p.value)) :
    SMTHelper.insertPairs H height nodes root (p::pairs) =
      (SMTHelper.updateSmtForKey H nodes root p.key p.value >>= fun x =>
        SMTHelper.insertPairs H height x.2 x.1 pairs) := by
  rw [SMTHelper.insertPairs, SMTHelper.computeIncrementalSmtRoot, hread]
  show ((SMTHelper.updateSmtForKey H nodes root p.key p.value >>= fun x => Except.ok (x.1,x.2)) >>=
    fun x => SMTHelper.insertPairs H height x.2 x.1 pairs) = _
  cases SMTHelper.updateSmtForKey H nodes root p.key p.value <;> rfl

/-- On a stored tree with a leaf the pairs are inserted in it one by one. -/
theorem insertPairs_eq (hI : H.Ideal) (ht : HoldsValues H m t) (hinj : Set.InjOn H.hashKey K)
    (hm : ∀ key, m key ≠ none → key ∈ K) (hne : t ≠ .empty) (hget : Finds H nodes (nodesOf H t))
    (hK : ∀ p ∈ pairs, p.key ∈ K)
    (hread : ∀ p ∈ pairs, getAtHeight (rocksDB p.records) p.key height = .ok (some p.value)) :
    (SMTHelper.insertPairs H height nodes (digest H t) pairs).map Prod.fst =
      rootOf H (insertAll H t (pairs.map PairInsert.pair)) := by
  induction pairs generalizing m t nodes with
  | nil => rfl
  | cons p pairs ih =>
    have hk := hK p List.mem_cons_self
    have hins := SMTHelper.pathUpdateForKey_inserts p.key p.value hI (keyed_of_finds hget)
      (reads_of_finds hget)
    rw [insertPairs_cons (hread p List.mem_cons_self), List.map_cons, SMTHelper.updateSmtForKey]
    cases hi : insertEntry H (p.key,H.hashValue p.value) 0 t with
    | error f =>
      rw [hi] at hins
      have hrun : SMTHelper.pathUpdateForKey H nodes (digest H t) p.key p.value =
          .error (overflowFault f) := hins
      rw [insertAll_cons_error hi, hrun]
      rfl
    | ok t' =>
      rw [hi] at hins
      obtain ⟨batch,hbatch,hnodes⟩ := hins
      have hroot : digest H t ≠ H.empty := fun h => hne ((digest_eq_empty hI).mp h)
      rw [insertAll_cons_ok hi, hbatch]
      show (SMTHelper.insertPairs H height (if digest H t = H.empty then nodes
        else nodes.write H batch) (digest H t') pairs).map Prod.fst = _
      have ht' := ht.of_insert hinj hm hk hi
      rw [if_neg hroot]
      apply ih ht' (update_mem hm hk)
      · apply (holdsValues_ne_empty ht').mpr
        refine ⟨p.key,?_⟩
        rw [Function.update_self]
        exact Option.some_ne_none p.value
      · intro n hn
        apply hget.write hI n
        rw [List.mem_append]
        obtain h | rfl | h := hnodes n hn
        · exact .inl h
        · exact .inr (updateForKey_leaf hbatch)
        · exact .inr h
      · exact fun p' hp => hK p' (List.mem_cons_of_mem _ hp)
      · exact fun p' hp => hread p' (List.mem_cons_of_mem _ hp)

theorem updateSmtForKey_empty (key value : Bytes) :
    SMTHelper.updateSmtForKey H nodes H.empty key value =
      .ok (digest H (.leaf (key,H.hashValue value)),nodes) := by
  rw [SMTHelper.updateSmtForKey, SMTHelper.pathUpdateForKey, updateForKey, if_pos rfl]
  show Except.ok (_,if H.empty = H.empty then nodes else _) = _
  rw [if_pos rfl]
  rfl

omit [DecidableEq δ] in
theorem HoldsValues.leaf (key value : Bytes) :
    HoldsValues H (Function.update (fun _ => none) key (some value)) (.leaf (key,H.hashValue value)) := by
  apply HoldsValues.empty.of_insert (Set.injOn_singleton H.hashKey key)
  · exact fun key hkey => absurd rfl hkey
  · exact Set.mem_singleton key
  · rfl

/-- On an empty tree the first leaf is not written, so a second pair takes its place unless that leaf
is stored. -/
theorem insertPairs_empty (hI : H.Ideal) (hp : nodes.Proper H) (hinj : Set.InjOn H.hashKey K)
    {q : PairInsert} (hK : ∀ p' ∈ p::q::pairs, p'.key ∈ K)
    (hread : ∀ p' ∈ p::q::pairs,
      getAtHeight (rocksDB p'.records) p'.key height = .ok (some p'.value)) :
    (SMTHelper.insertPairs H height nodes H.empty (p::q::pairs)).map Prod.fst =
      rootOf H (if nodes (H.hashNode (newLeaf H p.key p.value)) = none
        then insertAll H (.leaf (q.key,H.hashValue q.value)) (pairs.map PairInsert.pair)
        else insertAll H (.leaf (p.key,H.hashValue p.value)) ((q::pairs).map PairInsert.pair)) := by
  have hrest := fun p' (hp' : p' ∈ q::pairs) => hread p' (List.mem_cons_of_mem _ hp')
  rw [insertPairs_cons (hread p List.mem_cons_self), updateSmtForKey_empty]
  show (SMTHelper.insertPairs H height nodes (digest H _) (q::pairs)).map Prod.fst = _
  cases hstored : nodes (H.hashNode (newLeaf H p.key p.value)) with
  | some n =>
    rw [if_neg (Option.some_ne_none n)]
    apply insertPairs_eq hI (.leaf p.key p.value) hinj ?_ (fun h => by cases h) ?_
      (fun p' hp' => hK p' (List.mem_cons_of_mem _ hp')) hrest
    · exact update_mem (fun key hkey => absurd rfl hkey) (hK p List.mem_cons_self)
    · intro n' hn'
      obtain rfl := List.mem_singleton.mp hn'
      rw [hI.injective (hp _ n hstored)] at hstored
      exact hstored
  | none =>
    -- the walk from the root does not find the first leaf
    have hroot : digest H (.leaf (p.key,H.hashValue p.value)) ≠ H.empty := hI.ne_empty _
    have hsecond : SMTHelper.updateSmtForKey H nodes (digest H (.leaf (p.key,H.hashValue p.value)))
        q.key q.value = .ok (digest H (.leaf (q.key,H.hashValue q.value)),
          nodes.write H [newLeaf H q.key q.value]) := by
      have hnode : getNode H nodes (digest H (.leaf (p.key,H.hashValue p.value))) = none := by
        rw [digest, getNode_hash hI]
        exact hstored
      rw [SMTHelper.updateSmtForKey, SMTHelper.pathUpdateForKey, updateForKey, if_neg hroot,
        SMTHelper.computePathUpdates, pathUpdate, descend, found, hnode]
      show Except.ok (_,if _ then nodes else _) = _
      rw [if_neg hroot]
      rfl
    rw [if_pos rfl, insertPairs_cons (hrest q List.mem_cons_self), hsecond]
    apply insertPairs_eq hI (.leaf q.key q.value) hinj ?_ (fun h => by cases h) ?_
      (fun p' hp' => hK p' (by simp [hp'])) fun p' hp' => hrest p' (List.mem_cons_of_mem _ hp')
    · exact update_mem (fun key hkey => absurd rfl hkey) (hK q (by simp))
    · intro n hn
      obtain rfl := List.mem_singleton.mp hn
      have hwrite : nodes.write H [newLeaf H q.key q.value] (H.hashNode (newLeaf H q.key q.value)) =
          some (newLeaf H q.key q.value) := by
        rw [NodeStore.write_hash hI, if_pos (List.mem_singleton_self _)]
      exact hwrite

omit [DecidableEq δ] in
/-- From a leaf on, the pairs leave nothing but the last one exactly when all have its key. -/
theorem leaf_eq_insertAll_iff (kv : Bytes × Bytes) {last : Bytes × Bytes}
    {kvs : List (Bytes × Bytes)} (hinj : Set.InjOn H.hashKey K) (hK : ∀ kv' ∈ kv::kvs, kv'.1 ∈ K)
    (hlast : (kv::kvs).getLast? = some last) :
    Except.ok (.leaf (last.1,H.hashValue last.2)) =
        insertAll H (.leaf (kv.1,H.hashValue kv.2)) kvs ↔
      ∀ kv' ∈ kv::kvs, kv'.1 = last.1 := by
  cases kvs with
  | nil =>
    obtain rfl : kv = last := Option.some.inj hlast
    refine ⟨fun _ kv' hkv' => ?_,fun _ => rfl⟩
    rw [List.mem_singleton.mp hkv']
  | cons kv₁ kvs =>
    have hlast' : (kv₁::kvs).getLast? = some last := hlast
    have hm := update_mem (v := some kv.2) (fun key hkey => absurd rfl hkey) (hK kv List.mem_cons_self)
    have hiff := graft_eq_insertAll_iff (.leaf kv.1 kv.2) hinj hm
      (fun kv' hkv' => hK kv' (List.mem_cons_of_mem _ hkv')) hlast'
    refine Iff.trans hiff ⟨fun h kv' hkv' => ?_,fun h o ho => ?_⟩
    · obtain ⟨hown,hothers⟩ := h _ rfl
      have hkey := hown _ rfl
      obtain rfl | hkv' := List.mem_cons.mp hkv'
      · exact hkey
      · by_contra hne
        have hsome : putValues (fun _ => none) (kv₁::kvs) kv'.1 ≠ none :=
          putValues_ne_none (.inl (List.mem_map_of_mem hkv'))
        obtain ⟨v,hv⟩ := Option.ne_none_iff_exists'.mp hsome
        have hleaf := Option.some.inj (Except.ok.inj (hothers kv'.1 v hne hv))
        exact hne ((congrArg Prod.fst hleaf).symm.trans hkey)
    · cases ho
      constructor
      · intro b hb
        cases hb
        exact h kv List.mem_cons_self
      · intro key value hne hvalue
        have hlisted : key ∈ (kv₁::kvs).map Prod.fst := by
          by_contra hno
          rw [putValues_of_not_mem hno] at hvalue
          cases hvalue
        obtain ⟨kv',hkv',rfl⟩ := List.mem_map.mp hlisted
        exact absurd (h kv' (List.mem_cons_of_mem _ hkv')) hne

end OneByOne

section Agreement

variable {δ : Type} [DecidableEq δ] {H : SmtHash δ} {nodes : NodeStore δ} {m : Values}
  {t : Trie Entry} {K : Set Bytes} {pairs : List PairInsert} {height : Nat} {key : Bytes}

omit [DecidableEq δ] in
/-- The keys under the root of a tree of values are those with a value. -/
theorem underRoot_iff (hI : H.Ideal) (ht : HoldsValues H m t) :
    UnderRoot H (digest H t) key ↔ m key ≠ none := by
  constructor
  · rintro ⟨t',ht',e,he,rfl⟩
    rw [digest_injective hI ht'] at he
    obtain ⟨v,hv,_⟩ := (ht.mem e).mp he
    rw [hv]
    exact Option.some_ne_none v
  · intro hkey
    obtain ⟨v,hv⟩ := Option.ne_none_iff_exists'.mp hkey
    exact ⟨t,rfl,(key,H.hashValue v),(ht.mem _).mpr ⟨v,hv,rfl⟩,rfl⟩

/-- No key is lost by insertions one by one. -/
theorem underRoot_insertPairs (hI : H.Ideal) (ht : HoldsValues H m t)
    (hinj : Set.InjOn H.hashKey K) (hm : ∀ key, m key ≠ none → key ∈ K)
    (hget : Finds H nodes (nodesOf H t)) (hK : ∀ p ∈ pairs, p.key ∈ K)
    (hread : ∀ p ∈ pairs, getAtHeight (rocksDB p.records) p.key height = .ok (some p.value))
    {newRoot : δ}
    (hrun : (SMTHelper.insertPairs H height nodes (digest H t) pairs).map Prod.fst = .ok newRoot)
    (hkey : UnderRoot H (digest H t) key) : UnderRoot H newRoot key := by
  have hvalue := (underRoot_iff hI ht).mp hkey
  have hne : t ≠ .empty := (holdsValues_ne_empty ht).mpr ⟨key,hvalue⟩
  rw [insertPairs_eq hI ht hinj hm hne hget hK hread] at hrun
  cases hall : insertAll H t (pairs.map PairInsert.pair) with
  | error f =>
    rw [hall] at hrun
    cases hrun
  | ok t' =>
    rw [hall] at hrun
    cases hrun
    have hpairs : ∀ kv ∈ pairs.map PairInsert.pair, kv.1 ∈ K := by
      intro kv hkv
      obtain ⟨p,hp,rfl⟩ := List.mem_map.mp hkv
      exact hK p hp
    apply (underRoot_iff hI (insertAll_holds ht hinj hm hpairs hall)).mpr
    exact putValues_ne_none (.inr hvalue)

/-- The two roots on an empty tree. -/
theorem newRoot_eq_empty_iff (hI : H.Ideal) (hp : nodes.Proper H) (hinj : Set.InjOn H.hashKey K)
    (hK : ∀ p ∈ pairs, p.key ∈ K)
    (hread : ∀ p ∈ pairs, getAtHeight (rocksDB p.records) p.key height = .ok (some p.value))
    {last : Bytes × Bytes} (hlast : (pairs.map PairInsert.pair).getLast? = some last) :
    SMTHelper.computeNewRoot H nodes H.empty (pairs.map PairInsert.pair) height =
        (SMTHelper.insertPairs H height nodes H.empty pairs).map Prod.fst ↔
      (∀ kv ∈ (pairs.map PairInsert.pair).tail, kv.1 = last.1) ∧
        ∀ first, (pairs.map PairInsert.pair).head? = some first →
          nodes (H.hashNode (newLeaf H first.1 first.2)) ≠ none → first.1 = last.1 := by
  have hnew : SMTHelper.computeNewRoot H nodes H.empty (pairs.map PairInsert.pair) height =
      rootOf H (.ok (.leaf (last.1,H.hashValue last.2))) :=
    computeNewRoot_eq hI (.empty 0) (fun n hn => absurd hn List.not_mem_nil) _ hlast height
  rw [hnew]
  match pairs with
  | [] => cases hlast
  | [p] =>
    obtain rfl : p.pair = last := Option.some.inj hlast
    rw [insertPairs_cons (hread p List.mem_cons_self), updateSmtForKey_empty]
    refine ⟨fun _ => ⟨fun kv hkv => absurd hkv List.not_mem_nil,fun first hfirst _ => ?_⟩,fun _ => rfl⟩
    cases hfirst
    rfl
  | p::q::pairs =>
    have hkeys : ∀ kv ∈ (p::q::pairs).map PairInsert.pair, kv.1 ∈ K := by
      intro kv hkv
      obtain ⟨p',hp',rfl⟩ := List.mem_map.mp hkv
      exact hK p' hp'
    have htail : ((q::pairs).map PairInsert.pair).getLast? = some last := hlast
    rw [insertPairs_empty hI hp hinj hK hread, (rootOf_injective hI).eq_iff]
    cases hstored : nodes (H.hashNode (newLeaf H p.key p.value)) with
    | none =>
      rw [if_pos rfl]
      refine Iff.trans (leaf_eq_insertAll_iff q.pair hinj
        (fun kv hkv => hkeys kv (List.mem_cons_of_mem _ hkv)) htail) ⟨fun h => ⟨h,?_⟩,And.left⟩
      intro first hfirst hsome
      cases hfirst
      exact absurd hstored hsome
    | some n =>
      rw [if_neg (Option.some_ne_none n)]
      refine Iff.trans (leaf_eq_insertAll_iff p.pair hinj hkeys hlast) ⟨fun h => ?_,fun h => ?_⟩
      · refine ⟨fun kv hkv => h kv (List.mem_cons_of_mem _ hkv),fun first hfirst _ => ?_⟩
        cases hfirst
        exact h p.pair List.mem_cons_self
      · obtain ⟨htails,hfirst⟩ := h
        intro kv hkv
        obtain rfl | hkv := List.mem_cons.mp hkv
        · apply hfirst _ rfl
          show nodes (H.hashNode (newLeaf H p.key p.value)) ≠ none
          rw [hstored]
          exact Option.some_ne_none n
        · exact htails kv hkv

/-- The root computed at once agrees with the pairs inserted one by one exactly when the last pair is
all there was to insert and its leaf takes the place of no other key. -/
theorem new_root_agrees_iff (hI : H.Ideal) (hp : nodes.Proper H) (ht : HoldsValues H m t)
    (hget : Finds H nodes (nodesOf H t)) (height : Nat) (pairs : List PairInsert)
    (hinj : Set.InjOn H.hashKey {key | m key ≠ none ∨ key ∈ pairs.map PairInsert.key})
    (hread : ∀ p ∈ pairs, getAtHeight (rocksDB p.records) p.key height = .ok (some p.value)) :
    NewRootAgrees H height nodes (digest H t) pairs ↔
      NewRootSafe H nodes t (pairs.map PairInsert.pair) := by
  have hm : ∀ key, m key ≠ none → key ∈ {key | m key ≠ none ∨ key ∈ pairs.map PairInsert.key} :=
    fun key => .inl
  have hK : ∀ p ∈ pairs, p.key ∈ {key | m key ≠ none ∨ key ∈ pairs.map PairInsert.key} :=
    fun p hp => .inr (List.mem_map_of_mem hp)
  have hkeys : ∀ kv ∈ pairs.map PairInsert.pair,
      kv.1 ∈ {key | m key ≠ none ∨ key ∈ pairs.map PairInsert.key} := by
    intro kv hkv
    obtain ⟨p,hp,rfl⟩ := List.mem_map.mp hkv
    exact hK p hp
  have hroots : NewRootAgrees H height nodes (digest H t) pairs ↔
      SMTHelper.computeNewRoot H nodes (digest H t) (pairs.map PairInsert.pair) height =
        (SMTHelper.insertPairs H height nodes (digest H t) pairs).map Prod.fst := by
    refine ⟨And.left,fun heq => ⟨heq,fun newRoot hnew key hkey => ?_⟩⟩
    exact underRoot_insertPairs hI ht hinj hm hget hK hread (heq.symm.trans hnew) hkey
  rw [hroots, NewRootSafe]
  cases hlast : (pairs.map PairInsert.pair).getLast? with
  | none =>
    obtain rfl : pairs = [] := List.map_eq_nil_iff.mp (List.getLast?_eq_none_iff.mp hlast)
    exact ⟨fun _ last h => (by cases h),fun _ => rfl⟩
  | some last =>
    by_cases hne : t = .empty
    · rw [hne]
      refine Iff.trans (newRoot_eq_empty_iff hI hp hinj hK hread hlast) ⟨fun h last' h' => ?_,fun h => ?_⟩
      · cases h'
        exact ⟨fun _ => h,fun hno => absurd rfl hno⟩
      · exact (h last rfl).1 rfl
    · rw [computeNewRoot_eq hI ht.wellFormed hget _ hlast, insertPairs_eq hI ht hinj hm hne hget hK hread,
        (rootOf_injective hI).eq_iff, graft_eq_insertAll_iff ht hinj hm hkeys hlast]
      constructor
      · intro h last' h'
        cases h'
        exact ⟨fun hempty => absurd hempty hne,fun _ => h⟩
      · exact fun h => (h last rfl).2 hne

end Agreement

/-- A first update of a key at height 0. -/
def firstUpdate (key value : Bytes) : PairInsert where
  records := KV.write ∅ [.put (updateKey key 0) (formatUpdate 0 value),.put (lengthKey key) (decimal 1)]
  key := key
  value := value

/-- A store with one leaf. -/
def oneLeaf : NodeStore HashTerm :=
  NodeStore.write termHash (fun _ => none) [leafNode ([1],termHash.hashValue [7])]

theorem oneLeaf_finds :
    Finds termHash oneLeaf (nodesOf termHash (.leaf ([1],termHash.hashValue [7]))) := by
  intro n hn
  obtain rfl := List.mem_singleton.mp hn
  rfl

def oneValue : Values := Function.update (fun _ => none) [1] (some [7])

theorem oneLeaf_injOn {key : Bytes} (h : key ∈ ({[1],[128]} : Set Bytes)) :
    Set.InjOn termHash.hashKey {k | oneValue k ≠ none ∨ k ∈ [key]} := by
  have hsub : ∀ k, oneValue k ≠ none ∨ k ∈ [key] → k ∈ ({[1],[128]} : Set Bytes) := by
    intro k hk
    obtain hk | hk := hk
    · exact update_mem (fun k hk => absurd rfl hk) (.inl rfl) k hk
    · rw [List.mem_singleton.mp hk]
      exact h
  exact fun k hk k' hk' => (pair_separated.inj (hsub k hk) (hsub k' hk')).mp

/-- A pair that is put in an empty database is read from it. -/
theorem firstUpdate_reads (key value : Bytes) :
    getAtHeight (rocksDB (firstUpdate key value).records) key 0 = .ok (some value) := by
  have hempty : HoldsRecords ∅ Set.univ (fun _ => []) (fun _ => none) (0+1) :=
    HoldsRecords.empty.mono (Nat.zero_le 1)
  obtain ⟨σ,hput,_,hσ⟩ := hempty.put (Set.mem_univ key) (by decide : ([] : History Nat Bytes).length+1 < 2^32) value
  rw [put_lengthOf, lengthOf, KV.get_empty] at hput
  cases hput
  have hread := hσ.getAtHeight (by decide) (Set.mem_univ key)
    (by rw [Function.update_self]; exact Nat.le_of_ble_eq_true rfl)
  rw [Function.update_self] at hread
  exact hread

/-- A stored tree of two leaves. -/
def pairTree : Trie Entry :=
  .node (.leaf ([1],termHash.hashValue [7])) (.leaf ([128],termHash.hashValue [8]))

def pairNodes : NodeStore HashTerm := NodeStore.write termHash (fun _ => none) (nodesOf termHash pairTree)

theorem pairTree_holds : HoldsValues termHash (putValues (fun _ => none) [([1],[7]),([128],[8])]) pairTree := by
  have hone : HoldsValues termHash oneValue (.leaf ([1],termHash.hashValue [7])) := .leaf [1] [7]
  obtain ⟨t,ht,hvalues⟩ := hone.insert pair_separated (update_mem (fun k hk => absurd rfl hk) (.inl rfl))
    (.inr rfl) [8]
  have hpair : insertEntry termHash ([128],termHash.hashValue [8]) 0
      (.leaf ([1],termHash.hashValue [7])) = .ok pairTree := rfl
  cases hpair.symm.trans ht
  exact hvalues

theorem pairNodes_finds : Finds termHash pairNodes (nodesOf termHash pairTree) :=
  have hnone : Finds termHash (fun _ => none) [] := fun _ hn => absurd hn List.not_mem_nil
  hnone.write termHash_ideal

/-- A list that puts again what one leaf has and changes the other leaf. -/
def againAndNew : List PairInsert := [firstUpdate [128] [8],firstUpdate [1] [9]]

theorem new_root_agrees_same_key :
    NewRootAgrees termHash 0 pairNodes (digest termHash pairTree) againAndNew := by
  refine (new_root_agrees_iff termHash_ideal (NodeStore.Proper.write (fun _ _ h => by cases h) _)
    pairTree_holds pairNodes_finds 0 againAndNew ?_ ?_).mpr ?_
  · have hkeys : ∀ k, putValues (fun _ => none) [([1],[7]),([128],[8])] k ≠ none ∨
        k ∈ againAndNew.map PairInsert.key → k ∈ ({[1],[128]} : Set Bytes) := by
      rintro k (hk | hk)
      · exact update_mem (update_mem (fun k hk => absurd rfl hk) (.inl rfl)) (.inr rfl) k hk
      · simp [againAndNew, firstUpdate] at hk
        exact hk.symm
    exact fun k hk k' hk' => (pair_separated.inj (hkeys k hk) (hkeys k' hk')).mp
  · intro p hp
    simp only [againAndNew, List.mem_cons, List.not_mem_nil, or_false] at hp
    obtain rfl | rfl := hp
    · exact firstUpdate_reads [128] [8]
    · exact firstUpdate_reads [1] [9]
  · intro last hlast
    cases hlast
    refine ⟨fun h => (by cases h),fun _ o ho => ⟨fun b hb => ?_,fun key value hne hvalue => ?_⟩⟩
    · cases ho
      cases hb
      rfl
    · -- the only other key is that of the leaf that stays
      have hkey : key = [128] := by
        by_contra h
        have hnone : putValues (fun _ => none) [([128],[8]),([1],[9])] key = none :=
          putValues_of_not_mem (by simpa using ⟨h,hne⟩)
        exact absurd (hnone.symm.trans hvalue) (Option.some_ne_none value).symm
      subst hkey
      cases hvalue
      rfl

/-- The leaf of another key at the end of the walk is dropped. -/
theorem new_root_drops_leaf :
    HoldsValues termHash oneValue (.leaf ([1],termHash.hashValue [7])) ∧
      Finds termHash oneLeaf (nodesOf termHash (.leaf ([1],termHash.hashValue [7]))) ∧
      Set.InjOn termHash.hashKey {key | oneValue key ≠ none ∨ key ∈ [[128]]} ∧
      getAtHeight (rocksDB (firstUpdate [128] [8]).records) [128] 0 = .ok (some [8]) ∧
      ¬NewRootAgrees termHash 0 oneLeaf (digest termHash (.leaf ([1],termHash.hashValue [7])))
        [firstUpdate [128] [8]] := by
  refine ⟨.leaf [1] [7],oneLeaf_finds,oneLeaf_injOn (.inr rfl),firstUpdate_reads [128] [8],fun h => ?_⟩
  exact absurd (congrArg Except.toOption h.1) (by decide +kernel)

end Metashrew
