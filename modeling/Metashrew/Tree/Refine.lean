import Metashrew.Tree.Basic

namespace Metashrew

open Bytes

/-- What a leaf holds: the key and the hash of its value. -/
abbrev Entry := Bytes × Hash32

section Digest

variable {δ : Type} (H : SmtHash δ)

def entryPath (e : Entry) : Hash32 := H.hashKey e.1

def leafNode (e : Entry) : SMTNode δ := .leaf e.1 e.2

/-- The root hash of a tree. -/
def digest : Trie Entry → δ
  | .empty => H.empty
  | .leaf e => H.hashNode (leafNode e)
  | .node l r => H.hashNode (.internal (digest l) (digest r))

/-- The nodes of a tree. -/
def nodesOf : Trie Entry → List (SMTNode δ)
  | .empty => []
  | .leaf e => [leafNode e]
  | .node l r => .internal (digest H l) (digest H r)::(nodesOf l ++ nodesOf r)

/-- The nodes that the walk of a key hash reads, up to the depth at which it gives up. -/
def walkNodes (keyHash : Hash32) : Nat → Trie Entry → List (SMTNode δ)
  | _, .empty => []
  | _, .leaf e => [leafNode e]
  | d, .node l r => .internal (digest H l) (digest H r)::
      (if 256 ≤ d+1 then []
      else if pathBit keyHash d then walkNodes keyHash (d+1) r else walkNodes keyHash (d+1) l)

/-- The insertion of an entry below depth `d`. -/
def insertEntry (e : Entry) (d : Nat) (t : Trie Entry) : Except Trie.Overflow (Trie Entry) :=
  Trie.insert (entryPath H) pathBit 256 e d t

def insertAll (t : Trie Entry) : List (Bytes × Bytes) → Except Trie.Overflow (Trie Entry)
  | [] => .ok t
  | kv::kvs => do insertAll (← insertEntry H (kv.1,H.hashValue kv.2) 0 t) kvs

end Digest

/-- The error of the code. -/
def overflowFault : Trie.Overflow → Fault
  | .depth => .message "Maximum SMT depth exceeded"
  | .identical => .message "Keys are identical - cannot separate"

section Seen

variable {δ : Type} (H : SmtHash δ) (seen : Trie Entry → Bool)

/-- The insertion by a walk that takes what it does not see for an empty tree, and by a rebuilding
that goes by bits of its own. -/
def insertSeen (bitAt : Nat → Bool) (e : Entry) : Nat → Trie Entry → Except Trie.Overflow (Trie Entry)
  | _, .empty => .ok (.leaf e)
  | d, .leaf b => if seen (.leaf b) then insertEntry H e d (.leaf b) else .ok (.leaf e)
  | d, .node l r =>
    if seen (.node l r) then
      if 256 ≤ d+1 then .error .depth
      else (if pathBit (entryPath H e) d then insertSeen bitAt e (d+1) r
        else insertSeen bitAt e (d+1) l).map fun t => .fork (bitAt d) t (if bitAt d then l else r)
    else .ok (.leaf e)

/-- The depth at which the walk of a key hash ends. -/
def walkDepth (keyHash : Hash32) : Nat → Trie Entry → Nat
  | d, .empty => d
  | d, .leaf _ => d
  | d, .node l r =>
    if seen (.node l r) then
      if pathBit keyHash d then walkDepth keyHash (d+1) r else walkDepth keyHash (d+1) l
    else d

variable {H seen}

theorem le_walkDepth {keyHash : Hash32} {d : Nat} {t : Trie Entry} :
    d ≤ walkDepth seen keyHash d t := by
  induction t generalizing d with
  | empty => exact le_rfl
  | leaf e => exact le_rfl
  | node l r ihl ihr =>
    rw [walkDepth]
    split_ifs
    · exact (Nat.le_succ d).trans ihr
    · exact (Nat.le_succ d).trans ihl
    · exact le_rfl

theorem lt_walkDepth_node {keyHash : Hash32} {d : Nat} {l r : Trie Entry}
    (h : seen (.node l r) = true) : d < walkDepth seen keyHash d (.node l r) := by
  rw [walkDepth, if_pos h]
  split_ifs <;> exact le_walkDepth

end Seen

section Update

variable {δ : Type} {H : SmtHash δ} {t l r : Trie Entry} {d : Nat} {e : Entry} {keyHash : Hash32}
  {get : δ → Option (SMTNode δ)}

/-- The nodes are found under their hashes. -/
def Finds (H : SmtHash δ) (get : δ → Option (SMTNode δ)) (ns : List (SMTNode δ)) : Prop :=
  ∀ n ∈ ns, get (H.hashNode n) = some n

/-- Under the hash of a node there is that node or none. -/
def Keyed (H : SmtHash δ) (get : δ → Option (SMTNode δ)) (ns : List (SMTNode δ)) : Prop :=
  ∀ n ∈ ns, get (H.hashNode n) = some n ∨ get (H.hashNode n) = none

/-- Every node is under its own hash. -/
def NodeStore.Proper {δ : Type} (H : SmtHash δ) (nodes : NodeStore δ) : Prop :=
  ∀ h n, nodes h = some n → H.hashNode n = h

/-- The root of a tree is found. -/
def sees (H : SmtHash δ) (get : δ → Option (SMTNode δ)) (t : Trie Entry) : Bool :=
  (get (digest H t)).isSome

/-- The result of an update of the tree is that of the insertion: the root of the new tree, and every
node that the old tree does not have; or the same error. -/
def Inserts (H : SmtHash δ) (t : Trie Entry) (e : Entry)
    (inserted : Except Trie.Overflow (Trie Entry)) (result : Except Fault (δ × List (SMTNode δ))) :
    Prop :=
  match inserted with
  | .ok t' => ∃ batch, result = .ok (digest H t',batch) ∧
      ∀ n ∈ nodesOf H t', n ∈ nodesOf H t ∨ n = leafNode e ∨ n ∈ batch
  | .error f => result = .error (overflowFault f)

theorem digest_fork (s : Bool) (l r : Trie Entry) :
    digest H (Trie.fork s l r) = H.hashNode (internalNode s (digest H l) (digest H r)) := by
  cases s <;> rfl

theorem mem_nodesOf_fork {s : Bool} {n : SMTNode δ} : n ∈ nodesOf H (Trie.fork s l r) ↔
    n = internalNode s (digest H l) (digest H r) ∨ n ∈ nodesOf H l ∨ n ∈ nodesOf H r := by
  cases s with
  | false => simp [Trie.fork, nodesOf, internalNode]
  | true => simp [Trie.fork, nodesOf, internalNode, or_comm (a := n ∈ nodesOf H l)]

/-- The separating nodes of the code are the separated tree. -/
theorem createSeparatingInternals_spec (a b : Entry) (remaining d : Nat) :
    Inserts H (.leaf b) a (Trie.separate (entryPath H) pathBit a b remaining d)
      (createSeparatingInternals H (H.hashKey b.1) (H.hashNode (leafNode b)) (H.hashKey a.1)
        (H.hashNode (leafNode a)) remaining d) := by
  induction remaining generalizing d with
  | zero => rfl
  | succ remaining ih =>
    rw [Trie.separate, createSeparatingInternals]
    by_cases hb : pathBit (H.hashKey b.1) d = pathBit (H.hashKey a.1) d
    · have hb' : pathBit (entryPath H b) d = pathBit (entryPath H a) d := hb
      rw [if_pos hb, if_pos hb']
      have hrest := ih (d+1)
      cases hs : Trie.separate (entryPath H) pathBit a b remaining (d+1) with
      | error f =>
        rw [hs, Inserts] at hrest
        rw [hrest]
        rfl
      | ok t =>
        rw [hs] at hrest
        obtain ⟨batch,hbatch,hnodes⟩ := hrest
        rw [hbatch]
        refine ⟨_,by rw [digest_fork]; rfl,?_⟩
        intro n hn
        rw [mem_nodesOf_fork] at hn
        rw [List.mem_append, List.mem_singleton]
        obtain rfl | hn | hn := hn
        · exact .inr (.inr (.inr rfl))
        · obtain h | h | h := hnodes n hn
          · exact .inl h
          · exact .inr (.inl h)
          · exact .inr (.inr (.inl h))
        · cases hn
    · have hb' : ¬pathBit (entryPath H b) d = pathBit (entryPath H a) d := hb
      rw [if_neg hb, if_neg hb']
      refine ⟨_,by rw [digest_fork]; rfl,?_⟩
      intro n hn
      rw [mem_nodesOf_fork] at hn
      rw [List.mem_singleton]
      obtain rfl | hn | hn := hn
      · exact .inr (.inr rfl)
      · exact .inl hn
      · exact .inr (.inl (List.mem_singleton.mp hn))

/-- One node of the rebuilding. -/
theorem Inserts.above {c : Trie Entry} (hc : c = l ∨ c = r) {bitAt : Nat → Bool}
    {inserted : Except Trie.Overflow (Trie Entry)} {path : List (PathNode δ)}
    (h : Inserts H c e inserted
      (rebuild H (H.hashKey e.1) (H.hashNode (leafNode e)) bitAt path)) :
    Inserts H (.node l r) e
      (inserted.map fun t => .fork (bitAt d) t (if bitAt d then l else r))
      (rebuild H (H.hashKey e.1) (H.hashNode (leafNode e)) bitAt
        (⟨d,.internal (digest H l) (digest H r),false⟩::path)) := by
  have hchild : ∀ n, n ∈ nodesOf H c → n ∈ nodesOf H (.node l r) := by
    intro n hn
    rw [nodesOf, List.mem_cons, List.mem_append]
    obtain rfl | rfl := hc
    · exact .inr (.inl hn)
    · exact .inr (.inr hn)
  rw [rebuild]
  cases inserted with
  | error f =>
    rw [Inserts] at h
    rw [h]
    rfl
  | ok t' =>
    obtain ⟨batch,hbatch,hnodes⟩ := h
    rw [hbatch]
    refine ⟨_,by rw [digest_fork, apply_ite (digest H)]; rfl,fun n hn => ?_⟩
    rw [mem_nodesOf_fork, apply_ite (digest H)] at hn
    rw [List.mem_append, List.mem_singleton]
    obtain hn | hn | hn := hn
    · exact .inr (.inr (.inr hn))
    · obtain h | h | h := hnodes n hn
      · exact .inl (hchild n h)
      · exact .inr (.inl h)
      · exact .inr (.inr (.inl h))
    · refine .inl ?_
      rw [nodesOf, List.mem_cons, List.mem_append]
      split_ifs at hn
      · exact .inr (.inl hn)
      · exact .inr (.inr hn)

/-- The insertion below depth `d` by the walk and the nodes above the new leaf. -/
def Walks (H : SmtHash δ) (get : δ → Option (SMTNode δ)) (bitAt : Nat → Bool) (e : Entry)
    (fuel d : Nat) (t : Trie Entry) : Prop :=
  match descend H (found get) (H.hashKey e.1) fuel d (digest H t) with
  | .ok (path,last) => last = walkDepth (sees H get) (H.hashKey e.1) d t ∧
      Inserts H t e (insertSeen H (sees H get) bitAt e d t)
        (rebuild H (H.hashKey e.1) (H.hashNode (leafNode e)) bitAt path)
  | .error f => f = overflowFault .depth ∧ insertSeen H (sees H get) bitAt e d t = .error .depth

/-- A walk that ends at once, at a node it does not see. -/
theorem Walks.unseen {bitAt : Nat → Bool} {fuel : Nat} (hget : get (digest H t) = none) :
    Walks H get bitAt e (fuel+1) d t := by
  have hsees : sees H get t = false := by rw [sees, hget]; rfl
  rw [Walks, descend, found, hget]
  have hinsert : insertSeen H (sees H get) bitAt e d t = .ok (.leaf e) := by
    cases t <;> simp [insertSeen, hsees]
  refine ⟨by cases t <;> simp [walkDepth, hsees],?_⟩
  rw [hinsert]
  exact ⟨[],rfl,fun n hn => .inr (.inl (List.mem_singleton.mp hn))⟩

/-- A walk that ends at a leaf. -/
theorem Walks.leaf {bitAt : Nat → Bool} {fuel : Nat} {b : Entry}
    (hget : get (digest H (.leaf b)) = some (leafNode b)) :
    Walks H get bitAt e (fuel+1) d (.leaf b) := by
  have hsees : sees H get (.leaf b) = true := by rw [sees, hget]; rfl
  rw [Walks, descend, found, hget, leafNode, insertSeen, if_pos hsees]
  refine ⟨rfl,?_⟩
  rw [insertEntry, Trie.insert]
  by_cases hb : H.hashKey b.1 = H.hashKey e.1
  · have hb' : entryPath H b = entryPath H e := hb
    rw [if_pos hb']
    refine ⟨[],by simp [rebuild, hb]; rfl,?_⟩
    intro n hn
    exact .inr (.inl (List.mem_singleton.mp hn))
  · have hb' : ¬entryPath H b = entryPath H e := hb
    rw [if_neg hb']
    have hrun : rebuild H (H.hashKey e.1) (H.hashNode (leafNode e)) bitAt
        [⟨d,.leaf b.1 b.2,H.hashKey b.1 == H.hashKey e.1⟩] =
        createSeparatingInternals H (H.hashKey b.1) (H.hashNode (leafNode b)) (H.hashKey e.1)
          (H.hashNode (leafNode e)) (256-d) d := by
      rw [rebuild, beq_eq_false_iff_ne.mpr hb]
      change (createSeparatingInternals H (H.hashKey b.1) (H.hashNode (leafNode b))
        (H.hashKey e.1) (H.hashNode (leafNode e)) (256-d) d >>= pure) = _
      exact bind_pure _
    rw [hrun]
    exact createSeparatingInternals_spec e b (256-d) d

/-- One round of the walk. -/
theorem Walks.above {fuel : Nat} {bitAt : Nat → Bool}
    (hget : get (digest H (.node l r)) = some (.internal (digest H l) (digest H r)))
    (h : d+1 < 256 → Walks H get bitAt e fuel (d+1) (if pathBit (H.hashKey e.1) d then r else l)) :
    Walks H get bitAt e (fuel+1) d (.node l r) := by
  have hsees : sees H get (.node l r) = true := by rw [sees, hget]; rfl
  rw [Walks, descend, found, hget, insertSeen, if_pos hsees, walkDepth, if_pos hsees,
    ← apply_ite (walkDepth (sees H get) (H.hashKey e.1) (d+1)),
    ← apply_ite (insertSeen H (sees H get) bitAt e (d+1))]
  dsimp only
  by_cases hmax : 256 ≤ d+1
  · rw [if_pos hmax, if_pos hmax]
    exact ⟨rfl,rfl⟩
  · replace h := h (by omega)
    rw [Walks, apply_ite (digest H)] at h
    rw [if_neg hmax, if_neg hmax]
    have hbit : pathBit (entryPath H e) d = pathBit (H.hashKey e.1) d := rfl
    cases hrun : descend H (found get) (H.hashKey e.1) fuel (d+1)
        (if pathBit (H.hashKey e.1) d then digest H r else digest H l) with
    | error f =>
      rw [hrun] at h
      refine ⟨h.1,?_⟩
      rw [hbit, h.2]
      rfl
    | ok x =>
      rw [hrun] at h
      refine ⟨h.1,h.2.above ?_⟩
      split_ifs
      · exact .inr rfl
      · exact .inl rfl

theorem mem_walkNodes_below {n : SMTNode δ} (hd : d+1 < 256)
    (h : n ∈ walkNodes H keyHash (d+1) (if pathBit keyHash d then r else l)) :
    n ∈ walkNodes H keyHash d (.node l r) := by
  rw [walkNodes, if_neg (by omega), ← apply_ite (walkNodes H keyHash (d+1))]
  exact List.mem_cons_of_mem _ h

/-- The code inserts as the walk sees the tree. -/
theorem descend_rebuild (h0 : get H.empty = none) {fuel : Nat} (hd : fuel+d = 256) (hlt : d < 256)
    (hget : Keyed H get (walkNodes H (H.hashKey e.1) d t)) (bitAt : Nat → Bool) :
    Walks H get bitAt e fuel d t := by
  induction t generalizing d fuel with
  | empty =>
    obtain ⟨fuel,rfl⟩ : ∃ n, fuel = n+1 := ⟨fuel-1,by omega⟩
    exact .unseen h0
  | leaf b =>
    obtain ⟨fuel,rfl⟩ : ∃ n, fuel = n+1 := ⟨fuel-1,by omega⟩
    obtain hb | hb := hget (leafNode b) (by simp [walkNodes])
    · exact .leaf hb
    · exact .unseen hb
  | node l r ihl ihr =>
    obtain ⟨fuel,rfl⟩ : ∃ n, fuel = n+1 := ⟨fuel-1,by omega⟩
    obtain hb | hb := hget (.internal (digest H l) (digest H r)) List.mem_cons_self
    · apply Walks.above hb
      intro hmax
      have hbelow := fun n hn => hget n (mem_walkNodes_below hmax hn)
      split_ifs at hbelow ⊢
      · exact ihr (by omega) hmax hbelow
      · exact ihl (by omega) hmax hbelow
    · exact .unseen hb

/-- The walk finds every node it meets, unless it is a leaf to be replaced. -/
def Reads (H : SmtHash δ) (get : δ → Option (SMTNode δ)) (keyHash : Hash32) (d : Nat)
    (t : Trie Entry) : Prop :=
  ∀ n ∈ walkNodes H keyHash d t, get (H.hashNode n) = none →
    ∃ b, n = leafNode b ∧ H.hashKey b.1 = keyHash

theorem Reads.below (h : Reads H get keyHash d (.node l r)) (hd : d+1 < 256) :
    Reads H get keyHash (d+1) (if pathBit keyHash d then r else l) :=
  fun n hn => h n (mem_walkNodes_below hd hn)

theorem Reads.sees_node (h : Reads H get keyHash d (.node l r)) :
    sees H get (.node l r) = true := by
  rw [sees, Option.isSome_iff_ne_none]
  intro hnone
  obtain ⟨b,hb,_⟩ := h _ List.mem_cons_self hnone
  cases hb

/-- The child on the side of the bit, and the other one. -/
theorem insertEntry_node (hd : d+1 < 256) : insertEntry H e d (.node l r) =
    (insertEntry H e (d+1) (if pathBit (H.hashKey e.1) d then r else l)).map fun t =>
      .fork (pathBit (H.hashKey e.1) d) t (if pathBit (H.hashKey e.1) d then l else r) := by
  have hpath : pathBit (entryPath H e) d = pathBit (H.hashKey e.1) d := rfl
  rw [insertEntry, Trie.insert, if_neg (by omega), hpath]
  cases pathBit (H.hashKey e.1) d <;> rfl

theorem insertSeen_node {seen : Trie Entry → Bool} {bitAt : Nat → Bool} (hd : d+1 < 256)
    (hsees : seen (.node l r) = true) : insertSeen H seen bitAt e d (.node l r) =
    (insertSeen H seen bitAt e (d+1) (if pathBit (H.hashKey e.1) d then r else l)).map fun t =>
      .fork (bitAt d) t (if bitAt d then l else r) := by
  have hpath : pathBit (entryPath H e) d = pathBit (H.hashKey e.1) d := rfl
  rw [insertSeen, if_pos hsees, if_neg (by omega), hpath]
  cases pathBit (H.hashKey e.1) d <;> rfl

theorem insertSeen_max {seen : Trie Entry → Bool} {bitAt : Nat → Bool} (hd : 256 ≤ d+1)
    (hsees : seen (.node l r) = true) :
    insertSeen H seen bitAt e d (.node l r) = insertEntry H e d (.node l r) := by
  rw [insertSeen, if_pos hsees, if_pos hd, insertEntry, Trie.insert, if_pos hd]

/-- The walk as the code sees it is that of the tree, and the bits are those of the key. -/
theorem insertSeen_eq (hreads : Reads H get (H.hashKey e.1) d t) {bitAt : Nat → Bool}
    (hbit : ∀ i, d ≤ i → i < walkDepth (sees H get) (H.hashKey e.1) d t →
      bitAt i = pathBit (H.hashKey e.1) i) :
    insertSeen H (sees H get) bitAt e d t = insertEntry H e d t := by
  induction t generalizing d with
  | empty => rfl
  | leaf b =>
    rw [insertSeen]
    split_ifs with hb
    · rfl
    · have hnone : get (H.hashNode (leafNode b)) = none := by
        simpa [sees, digest] using hb
      obtain ⟨b',hb',hkey⟩ := hreads (leafNode b) (by simp [walkNodes]) hnone
      have hpath : entryPath H b = entryPath H e :=
        (congrArg H.hashKey (SMTNode.leaf.inj hb').1).trans hkey
      rw [insertEntry, Trie.insert, if_pos hpath]
  | node l r ihl ihr =>
    have hsees := hreads.sees_node
    have hd : bitAt d = pathBit (H.hashKey e.1) d := hbit d le_rfl (lt_walkDepth_node hsees)
    rw [walkDepth, if_pos hsees] at hbit
    by_cases hmax : 256 ≤ d+1
    · exact insertSeen_max hmax hsees
    · have hbelow := hreads.below (by omega)
      rw [insertSeen_node (by omega) hsees, insertEntry_node (by omega), hd]
      cases hs : pathBit (H.hashKey e.1) d with
      | true =>
        rw [hs] at hbit hbelow
        have hr := ihr hbelow fun i hi => hbit i (by omega)
        simp only [↓reduceIte, hr]
      | false =>
        rw [hs] at hbit hbelow
        have hl := ihl hbelow fun i hi => hbit i (by omega)
        simp only [Bool.false_eq_true, ↓reduceIte, hl]

theorem mem_nodesOf_of_walk {n : SMTNode δ} (h : n ∈ walkNodes H keyHash d t) :
    n ∈ nodesOf H t := by
  induction t generalizing d with
  | empty => exact h
  | leaf b => exact h
  | node l r ihl ihr =>
    rw [walkNodes, List.mem_cons] at h
    rw [nodesOf, List.mem_cons, List.mem_append]
    split_ifs at h
    · exact h.imp id fun h => absurd h List.not_mem_nil
    · exact h.imp id fun h => .inr (ihr h)
    · exact h.imp id fun h => .inl (ihl h)

theorem Finds.child (hget : Finds H get (nodesOf H (.node l r))) (s : Bool) :
    Finds H get (nodesOf H (if s then r else l)) := by
  intro n hn
  apply hget
  rw [nodesOf, List.mem_cons, List.mem_append]
  split_ifs at hn
  · exact .inr (.inr hn)
  · exact .inr (.inl hn)

/-- The tree is the stored one: all of its nodes are found. -/
theorem reads_of_finds (h : Finds H get (nodesOf H t)) : Reads H get keyHash d t := by
  intro n hn hnone
  rw [h n (mem_nodesOf_of_walk hn)] at hnone
  cases hnone

theorem keyed_of_finds (h : Finds H get (nodesOf H t)) : Keyed H get (walkNodes H keyHash d t) :=
  fun n hn => .inl (h n (mem_nodesOf_of_walk hn))

theorem digest_eq_empty (hI : H.Ideal) : digest H t = H.empty ↔ t = .empty := by
  cases t with
  | empty => exact ⟨fun _ => rfl,fun _ => rfl⟩
  | leaf b => exact ⟨fun h => absurd h (hI.ne_empty _),fun h => by cases h⟩
  | node l r => exact ⟨fun h => absurd h (hI.ne_empty _),fun h => by cases h⟩

theorem digest_injective (hI : H.Ideal) : Function.Injective (digest H) := by
  intro t t' h
  induction t generalizing t' with
  | empty => exact ((digest_eq_empty hI).mp h.symm).symm
  | leaf b =>
    cases t' with
    | empty => exact absurd h (hI.ne_empty _)
    | leaf c =>
      obtain ⟨hkey,hvalue⟩ := SMTNode.leaf.inj (hI.injective h)
      exact congrArg Trie.leaf (Prod.ext hkey hvalue)
    | node l r => cases hI.injective h
  | node l r ihl ihr =>
    cases t' with
    | empty => exact absurd h (hI.ne_empty _)
    | leaf c => cases hI.injective h
    | node l' r' =>
      obtain ⟨hl,hr⟩ := SMTNode.internal.inj (hI.injective h)
      rw [ihl hl, ihr hr]

section Storage

variable [DecidableEq δ] {nodes cache : NodeStore δ} {key value : Bytes}

/-- The update of a key inserts as its walk sees the tree. -/
theorem updateForKey_inserts (hI : H.Ideal) (h0 : get H.empty = none)
    (hget : Keyed H get (walkNodes H (H.hashKey key) 0 t)) (value : Bytes)
    (rule : Nat → Nat → Bool)
    {compute : δ → Hash32 → δ → Except Fault (δ × List (SMTNode δ))}
    (hcompute : ∀ leaf, compute (digest H t) (H.hashKey key) leaf =
      pathUpdate H (found get) rule (digest H t) (H.hashKey key) leaf) :
    Inserts H t (key,H.hashValue value)
      (insertSeen H (sees H get) (rule (walkDepth (sees H get) (H.hashKey key) 0 t))
        (key,H.hashValue value) 0 t)
      (updateForKey H compute (digest H t) key value) := by
  rw [updateForKey]
  by_cases ht : t = .empty
  · rw [if_pos ((digest_eq_empty hI).mpr ht), ht]
    exact ⟨_,rfl,fun n hn => .inr (.inl (List.mem_singleton.mp hn))⟩
  · have hwalk := descend_rebuild (e := (key,H.hashValue value)) h0 rfl (by decide) hget
      (rule (walkDepth (sees H get) (H.hashKey key) 0 t))
    rw [if_neg fun h => ht ((digest_eq_empty hI).mp h), hcompute, pathUpdate]
    rw [Walks] at hwalk
    cases hrun : descend H (found get) (H.hashKey key) 256 0 (digest H t) with
    | error f =>
      rw [hrun] at hwalk
      obtain ⟨rfl,hinsert⟩ := hwalk
      rw [hinsert]
      rfl
    | ok x =>
      rw [hrun] at hwalk
      obtain ⟨hlast,hinserts⟩ := hwalk
      rw [← hlast] at hinserts ⊢
      change Inserts H t _ _ (rebuild H _ _ (rule x.2) x.1 >>= fun y => .ok (y.1,_::y.2))
      cases hins : insertSeen H (sees H get) (rule x.2) (key,H.hashValue value) 0 t with
      | error f =>
        rw [hins, Inserts] at hinserts
        have hrebuild : rebuild H (H.hashKey key) (H.hashNode (newLeaf H key value)) (rule x.2) x.1 =
            .error (overflowFault f) := hinserts
        rw [hrebuild]
        rfl
      | ok t' =>
        rw [hins] at hinserts
        obtain ⟨batch,hbatch,hnodes⟩ := hinserts
        have hrebuild : rebuild H (H.hashKey key) (H.hashNode (newLeaf H key value)) (rule x.2) x.1 =
            .ok (digest H t',batch) := hbatch
        rw [hrebuild]
        refine ⟨_,rfl,fun n hn => ?_⟩
        exact (hnodes n hn).imp id (.imp id (List.mem_cons_of_mem _))

/-- The new leaf is in the batch. -/
theorem updateForKey_leaf {compute : δ → Hash32 → δ → Except Fault (δ × List (SMTNode δ))}
    {root newRoot : δ} {batch : List (SMTNode δ)}
    (h : updateForKey H compute root key value = .ok (newRoot,batch)) :
    newLeaf H key value ∈ batch := by
  rw [updateForKey] at h
  split_ifs at h
  · cases h
    exact List.mem_singleton_self _
  · cases hc : compute root (H.hashKey key) (H.hashNode (newLeaf H key value)) with
    | error f =>
      rw [hc] at h
      cases h
    | ok x =>
      rw [hc] at h
      cases h
      exact List.mem_cons_self

/-- A batch adds its nodes and keeps those that are found. -/
theorem NodeStore.write_hash (hI : H.Ideal) {batch : List (SMTNode δ)} {n : SMTNode δ} :
    nodes.write H batch (H.hashNode n) = if n ∈ batch then some n else nodes (H.hashNode n) := by
  induction batch generalizing nodes with
  | nil => rfl
  | cons m batch ih =>
    rw [write, List.foldl_cons, ← write, ih, put]
    by_cases hn : n = m
    · rw [hn, Function.update_self]
      simp
    · rw [Function.update_of_ne fun h => hn (hI.injective h)]
      simp [hn]

theorem Finds.write (hI : H.Ideal) {ns batch : List (SMTNode δ)} (h : Finds H nodes ns) :
    Finds H (nodes.write H batch) (ns ++ batch) := by
  intro n hn
  rw [NodeStore.write_hash hI]
  by_cases hb : n ∈ batch
  · rw [if_pos hb]
  · rw [if_neg hb]
    exact h n ((List.mem_append.mp hn).resolve_right hb)

theorem NodeStore.Proper.write (h : nodes.Proper H) (batch : List (SMTNode δ)) :
    (nodes.write H batch).Proper H := by
  induction batch generalizing nodes with
  | nil => exact h
  | cons m batch ih =>
    apply ih
    intro g n hn
    rw [NodeStore.put] at hn
    by_cases hg : g = H.hashNode m
    · rw [hg, Function.update_self] at hn
      cases hn
      exact hg.symm
    · rw [Function.update_of_ne hg] at hn
      exact h g n hn

omit [DecidableEq δ] in
theorem NodeStore.Proper.keyed (hI : H.Ideal) (h : nodes.Proper H) (ns : List (SMTNode δ)) :
    Keyed H nodes ns := by
  intro n _
  cases hn : nodes (H.hashNode n) with
  | none => exact .inr rfl
  | some m =>
    rw [hI.injective (h _ m hn)]
    exact .inl rfl

theorem getNode_hash (hI : H.Ideal) {n : SMTNode δ} :
    getNode H nodes (H.hashNode n) = nodes (H.hashNode n) := if_neg (hI.ne_empty n)

theorem getNode_empty : getNode H nodes H.empty = none := if_pos rfl

theorem getNodeCached_hash (hI : H.Ideal) {n : SMTNode δ} :
    getNodeCached H nodes cache (H.hashNode n) =
      (cache (H.hashNode n)).or (nodes (H.hashNode n)) := if_neg (hI.ne_empty n)

theorem getNodeCached_empty : getNodeCached H nodes cache H.empty = none := if_pos rfl

/-- A path update that reads what it needs inserts, when its bits are those of the key. -/
theorem updateForKey_insertEntry (hI : H.Ideal) (h0 : get H.empty = none)
    (hget : Keyed H get (walkNodes H (H.hashKey key) 0 t)) (hreads : Reads H get (H.hashKey key) 0 t)
    (rule : Nat → Nat → Bool) (hrule : ∀ i < walkDepth (sees H get) (H.hashKey key) 0 t,
      rule (walkDepth (sees H get) (H.hashKey key) 0 t) i = pathBit (H.hashKey key) i)
    {compute : δ → Hash32 → δ → Except Fault (δ × List (SMTNode δ))}
    (hcompute : ∀ leaf, compute (digest H t) (H.hashKey key) leaf =
      pathUpdate H (found get) rule (digest H t) (H.hashKey key) leaf) :
    Inserts H t (key,H.hashValue value) (insertEntry H (key,H.hashValue value) 0 t)
      (updateForKey H compute (digest H t) key value) := by
  have h := updateForKey_inserts hI h0 hget value rule hcompute
  rwa [insertSeen_eq hreads fun i _ => hrule i] at h

theorem SMTHelper.pathUpdateForKey_inserts (key value : Bytes) (hI : H.Ideal)
    (hget : Keyed H nodes (walkNodes H (H.hashKey key) 0 t))
    (hreads : Reads H nodes (H.hashKey key) 0 t) :
    Inserts H t (key,H.hashValue value) (insertEntry H (key,H.hashValue value) 0 t)
      (pathUpdateForKey H nodes (digest H t) key value) := by
  have h0 : getNode H nodes H.empty = none := getNode_empty
  refine updateForKey_insertEntry hI h0 ?_ ?_ (fun _ depth => pathBit (H.hashKey key) depth) ?_ ?_
  · intro n hn
    rw [getNode_hash hI]
    exact hget n hn
  · intro n hn hnone
    rw [getNode_hash hI] at hnone
    exact hreads n hn hnone
  · intro i _
    rfl
  · intro leaf
    rfl

end Storage

end Update

end Metashrew
