import Metashrew.Tree.Canonical

namespace Metashrew

open Bytes

section Code

variable {δ : Type} [DecidableEq δ] (H : SmtHash δ)

/-- The incremental update over a list, with every node written before the next key. -/
def SMTHelper.foldWritten : NodeStore δ → δ → List (Bytes × Bytes) → Except Fault δ
  | _, root, [] => .ok root
  | nodes, root, kv::keyValues => do
    let (newRoot,batch) ← pathUpdateForKey H nodes root kv.1 kv.2
    foldWritten (nodes.write H batch) newRoot keyValues

/-- The three roots of a list are equal. -/
def CopiesAgree (nodes cache : NodeStore δ) (root : δ) (keyValues : List (Bytes × Bytes)) : Prop :=
  (BatchedSMTHelper.computeBatchedSmtRoot H nodes cache root keyValues []).map Prod.fst =
      SMTHelper.foldWritten H nodes root keyValues ∧
    BatchedSMTHelper.computeMinimalSmtRoot H nodes cache root keyValues =
      SMTHelper.foldWritten H nodes root keyValues

end Code

/-- The bits that the batched copy tests above the end of a walk are those of the key. -/
def BitsAgree (keyHash : Hash32) (t : Trie Entry) : Prop :=
  ∀ i < walkDepth (fun _ => true) keyHash 0 t,
    hashBit keyHash i (walkDepth (fun _ => true) keyHash 0 t) = pathBit keyHash i

/-- At every update the walk finds its nodes without those of the earlier updates, and the batched copy
tests the bits of the key. -/
def UpdatesAgree {δ : Type} (H : SmtHash δ) (get : δ → Option (SMTNode δ)) :
    Trie Entry → List (Bytes × Bytes) → Prop
  | _, [] => True
  | t, kv::keyValues => Reads H get (H.hashKey kv.1) 0 t ∧
      ∀ t', insertEntry H (kv.1,H.hashValue kv.2) 0 t = .ok t' →
        BitsAgree (H.hashKey kv.1) t ∧ UpdatesAgree H get t' keyValues

section Tries

variable {δ : Type} {H : SmtHash δ} {get : δ → Option (SMTNode δ)} {t t' l r : Trie Entry} {d : Nat}
  {e : Entry} {keyHash : Hash32} {bitAt : Nat → Bool} {seen : Trie Entry → Bool}

/-- An insertion into a node gives no leaf. -/
theorem insertEntry_node_ne {b : Entry} : insertEntry H e d (.node l r) ≠ .ok (.leaf b) := by
  rw [insertEntry, Trie.insert]
  split_ifs with hmax hbit
  · exact fun h => by cases h
  · cases Trie.insert (entryPath H) pathBit 256 e (d+1) r <;> exact fun h => by cases h
  · cases Trie.insert (entryPath H) pathBit 256 e (d+1) l <;> exact fun h => by cases h

theorem separate_ne {a b c : Entry} {remaining : Nat} :
    Trie.separate (entryPath H) pathBit a b remaining d ≠ .ok (.leaf c) := by
  cases remaining with
  | zero => exact fun h => by cases h
  | succ remaining =>
    rw [Trie.separate]
    split_ifs with hb
    · cases Trie.separate (entryPath H) pathBit a b remaining (d+1) with
      | error f => exact fun h => by cases h
      | ok t => cases pathBit (entryPath H a) d <;> exact fun h => by cases h
    · cases pathBit (entryPath H b) d <;> exact fun h => by cases h

theorem map_injective {α β ε : Type} {f : α → β} (hf : Function.Injective f) {x y : Except ε α}
    (h : x.map f = y.map f) : x = y := by
  cases x with
  | error a =>
    cases y with
    | error b =>
      cases h
      rfl
    | ok b => cases h
  | ok a =>
    cases y with
    | error b => cases h
    | ok b => exact congrArg Except.ok (hf (Except.ok.inj h))

theorem map_eq_ok {α β ε : Type} {f : α → β} {x : Except ε α} {b : β} (h : x.map f = .ok b) :
    ∃ a, x = .ok a ∧ f a = b := by
  cases x with
  | error e => cases h
  | ok a => exact ⟨a,rfl,Except.ok.inj h⟩

theorem map_eq_error {α β ε : Type} {f : α → β} {x : Except ε α} {e : ε} (h : x.map f = .error e) :
    x = .error e := by
  cases x with
  | error e' => exact congrArg Except.error (Except.error.inj h)
  | ok a => cases h

theorem fork_injective (s : Bool) (r : Trie Entry) :
    Function.Injective fun t : Trie Entry => Trie.fork s t r := by
  intro t t' h
  cases s <;> cases h <;> rfl

/-- A walk that misses a node it needs inserts something else. -/
theorem reads_of_insertSeen_eq
    (h : insertSeen H (sees H get) (pathBit (H.hashKey e.1)) e d t = insertEntry H e d t) :
    Reads H get (H.hashKey e.1) d t := by
  induction t generalizing d with
  | empty => exact fun n hn => absurd hn List.not_mem_nil
  | leaf b =>
    intro n hn hnone
    obtain rfl : n = leafNode b := List.mem_singleton.mp hn
    have hsees : ¬sees H get (.leaf b) = true := by
      rw [sees, digest, hnone]
      exact Bool.false_ne_true
    rw [insertSeen, if_neg hsees, insertEntry, Trie.insert] at h
    by_cases hb : entryPath H b = entryPath H e
    · exact ⟨b,rfl,hb⟩
    · rw [if_neg hb] at h
      exact absurd h.symm separate_ne
  | node l r ihl ihr =>
    by_cases hsees : sees H get (.node l r) = true
    · have hnode : get (H.hashNode (.internal (digest H l) (digest H r))) ≠ none :=
        Option.isSome_iff_ne_none.mp hsees
      intro n hn hnone
      rw [walkNodes, List.mem_cons] at hn
      obtain rfl | hn := hn
      · exact absurd hnone hnode
      · split_ifs at hn with hmax hs
        · exact absurd hn List.not_mem_nil
        · rw [insertSeen_node (by omega) hsees, insertEntry_node (by omega), hs] at h
          exact ihr (map_injective (fork_injective _ _) h) n hn hnone
        · rw [insertSeen_node (by omega) hsees, insertEntry_node (by omega),
            Bool.eq_false_of_not_eq_true hs] at h
          exact ihl (map_injective (fork_injective _ _) h) n hn hnone
    · rw [insertSeen, if_neg hsees] at h
      exact absurd h.symm insertEntry_node_ne

/-- The new entry is in the tree, whatever bits the rebuilding goes by. -/
theorem mem_insertSeen (h : insertSeen H seen bitAt e d t = .ok t') : Trie.Mem e t' := by
  induction t generalizing d t' with
  | empty =>
    cases h
    exact rfl
  | leaf b =>
    rw [insertSeen, insertEntry, Trie.insert] at h
    split_ifs at h with hs hb
    · cases h
      exact rfl
    · exact ((Trie.separate_placed h).2 e).mpr (.inl rfl)
    · cases h
      exact rfl
  | node l r ihl ihr =>
    by_cases hs : seen (.node l r) = true
    · by_cases hmax : 256 ≤ d+1
      · rw [insertSeen, if_pos hs, if_pos hmax] at h
        cases h
      · rw [insertSeen_node (by omega) hs] at h
        obtain ⟨x,hx,rfl⟩ := map_eq_ok h
        apply Trie.mem_fork.mpr
        left
        split_ifs at hx
        · exact ihr hx
        · exact ihl hx
    · rw [insertSeen, if_neg hs] at h
      cases h
      exact rfl

theorem sees_of_finds (hget : Finds H get (nodesOf H (.node l r))) :
    sees H get (.node l r) = true := by
  rw [sees, digest, hget _ List.mem_cons_self]
  rfl

/-- An insertion that sees the tree fails as the right one does, whatever its bits. -/
theorem insertSeen_error (hget : Finds H get (nodesOf H t)) {f : Trie.Overflow}
    (h : insertEntry H e d t = .error f) : insertSeen H (sees H get) bitAt e d t = .error f := by
  induction t generalizing d with
  | empty => cases h
  | leaf b =>
    have hsees : sees H get (.leaf b) = true := by
      rw [sees, digest, hget _ List.mem_cons_self]
      rfl
    rw [insertSeen, if_pos hsees]
    exact h
  | node l r ihl ihr =>
    have hsees := sees_of_finds hget
    by_cases hmax : 256 ≤ d+1
    · rw [insertSeen_max hmax hsees]
      exact h
    · have hchild := hget.child (pathBit (H.hashKey e.1) d)
      rw [insertEntry_node (by omega)] at h
      rw [insertSeen_node (by omega) hsees]
      replace h := map_eq_error h
      have hbelow : insertSeen H (sees H get) bitAt e (d+1)
          (if pathBit (H.hashKey e.1) d then r else l) = .error f := by
        split_ifs at h hchild ⊢
        · exact ihr hchild h
        · exact ihl hchild h
      rw [hbelow]
      rfl

theorem walkDepth_of_finds (hget : Finds H get (nodesOf H t)) :
    walkDepth (sees H get) keyHash d t = walkDepth (fun _ => true) keyHash d t := by
  induction t generalizing d with
  | empty => rfl
  | leaf b => rfl
  | node l r ihl ihr =>
    rw [walkDepth, walkDepth, if_pos (sees_of_finds hget), if_pos rfl]
    split_ifs
    · exact ihr (hget.child true)
    · exact ihl (hget.child false)

/-- Only the bits of the key rebuild the tree. -/
theorem bits_of_insertSeen_eq (hget : Finds H get (nodesOf H t))
    (hp : Trie.Placed (entryPath H) pathBit d t) (ht' : insertEntry H e d t = .ok t')
    (h : insertSeen H (sees H get) bitAt e d t = .ok t') {i : Nat} (hi : d ≤ i)
    (hlt : i < walkDepth (fun _ => true) (H.hashKey e.1) d t) :
    bitAt i = pathBit (H.hashKey e.1) i := by
  induction t generalizing d t' with
  | empty =>
    rw [walkDepth] at hlt
    omega
  | leaf b =>
    rw [walkDepth] at hlt
    omega
  | node l r ihl ihr =>
    obtain ⟨⟨hfalse,htrue⟩,hl,hr⟩ := hp
    by_cases hmax : 256 ≤ d+1
    · rw [insertEntry, Trie.insert, if_pos hmax] at ht'
      cases ht'
    · rw [insertEntry_node (by omega)] at ht'
      rw [insertSeen_node (by omega) (sees_of_finds hget)] at h
      obtain ⟨x,hx,rfl⟩ := map_eq_ok ht'
      obtain ⟨y,hy,hfork⟩ := map_eq_ok h
      rw [walkDepth, if_pos rfl] at hlt
      have hmem := mem_insertSeen hy
      -- a bit on the wrong side would put the new entry into the other child
      have hd : bitAt d = pathBit (H.hashKey e.1) d := by
        cases hs : pathBit (H.hashKey e.1) d <;> cases hb : bitAt d
        · rfl
        · rw [hs, hb] at hfork
          cases hfork
          exact absurd (htrue e hmem) (by rw [entryPath, hs]; decide)
        · rw [hs, hb] at hfork
          cases hfork
          exact absurd (hfalse e hmem) (by rw [entryPath, hs]; decide)
        · rfl
      obtain rfl | hne := Nat.eq_or_lt_of_le hi
      · exact hd
      · rw [hd] at hfork
        have hxy : y = x := fork_injective _ _ hfork
        rw [hxy] at hy
        have hchild := hget.child (pathBit (H.hashKey e.1) d)
        cases hs : pathBit (H.hashKey e.1) d with
        | true =>
          rw [hs] at hx hy hlt hchild
          exact ihr hchild hr hx hy hne hlt
        | false =>
          rw [hs] at hx hy hlt hchild
          exact ihl hchild hl hx hy hne hlt

end Tries

section Roots

variable {δ : Type} {H : SmtHash δ} {t : Trie Entry} {e : Entry}

/-- The root of a tree, or the error of the code. -/
def rootOf (H : SmtHash δ) : Except Trie.Overflow (Trie Entry) → Except Fault δ
  | .ok t => .ok (digest H t)
  | .error f => .error (overflowFault f)

theorem rootOf_injective (hI : H.Ideal) : Function.Injective (rootOf H) := by
  intro x y h
  cases x with
  | error f =>
    cases y with
    | error g => cases f <;> cases g <;> simp [rootOf, overflowFault] at h ⊢
    | ok t => cases h
  | ok t =>
    cases y with
    | error g => cases h
    | ok t' => exact congrArg Except.ok (digest_injective hI (Except.ok.inj h))

theorem Inserts.root {inserted : Except Trie.Overflow (Trie Entry)}
    {result : Except Fault (δ × List (SMTNode δ))} (h : Inserts H t e inserted result) :
    result.map Prod.fst = rootOf H inserted := by
  cases inserted with
  | error f =>
    have hf : result = .error (overflowFault f) := h
    rw [hf]
    rfl
  | ok t' =>
    obtain ⟨batch,hbatch,_⟩ := h
    rw [hbatch]
    rfl

variable [DecidableEq δ] {nodes cache : NodeStore δ}

/-- The cache and the storage hold the nodes. -/
def Cached (H : SmtHash δ) (nodes cache : NodeStore δ) (ns : List (SMTNode δ)) : Prop :=
  ∀ n ∈ ns, cache (H.hashNode n) = some n ∨ nodes (H.hashNode n) = some n

theorem NodeStore.Proper.keyedCached (hI : H.Ideal) (hn : nodes.Proper H) (hc : cache.Proper H)
    (ns : List (SMTNode δ)) : Keyed H (getNodeCached H nodes cache) ns := by
  intro n _
  rw [getNodeCached_hash hI]
  cases h : cache (H.hashNode n) with
  | some m =>
    rw [hI.injective (hc _ m h)]
    exact .inl rfl
  | none =>
    cases h' : nodes (H.hashNode n) with
    | none => exact .inr rfl
    | some m =>
      rw [hI.injective (hn _ m h')]
      exact .inl rfl

theorem Cached.finds (hI : H.Ideal) (hc : cache.Proper H) {ns : List (SMTNode δ)}
    (h : Cached H nodes cache ns) : Finds H (getNodeCached H nodes cache) ns := by
  intro n hn
  rw [getNodeCached_hash hI]
  obtain h | h := h n hn
  · rw [h]
    rfl
  · cases h' : cache (H.hashNode n) with
    | none => exact h
    | some m =>
      rw [hI.injective (hc _ m h')]
      rfl

theorem Cached.write (hI : H.Ideal) {ns : List (SMTNode δ)} (h : Cached H nodes cache ns)
    (batch : List (SMTNode δ)) : Cached H nodes (cache.write H batch) (ns ++ batch) := by
  intro n hn
  rw [NodeStore.write_hash hI]
  by_cases hb : n ∈ batch
  · rw [if_pos hb]
    exact .inl rfl
  · rw [if_neg hb]
    exact h n ((List.mem_append.mp hn).resolve_right hb)

/-- The minimal copy inserts as its walk sees the tree. -/
theorem computeRootHashOnly_root (hI : H.Ideal) (hn : nodes.Proper H) (hc : cache.Proper H)
    (key value : Bytes) : BatchedSMTHelper.computeRootHashOnly H nodes cache (digest H t) key value =
      rootOf H (insertSeen H (sees H (getNodeCached H nodes cache)) (pathBit (H.hashKey key))
        (key,H.hashValue value) 0 t) := by
  have h0 : getNodeCached H nodes cache H.empty = none := getNodeCached_empty
  have hins : Inserts H t (key,H.hashValue value) _
      (updateForKey H (pathUpdate H (found (getNodeCached H nodes cache)) fun _ =>
        pathBit (H.hashKey key)) (digest H t) key value) :=
    updateForKey_inserts hI h0 (hn.keyedCached hI hc _) value (fun _ => pathBit (H.hashKey key))
      fun leaf => rfl
  rw [← hins.root, BatchedSMTHelper.computeRootHashOnly, updateForKey]
  split_ifs
  · rfl
  · change (pathUpdate H (found (getNodeCached H nodes cache)) (fun _ => pathBit (H.hashKey key))
      (digest H t) (H.hashKey key) (H.hashNode (newLeaf H key value)) >>= fun x => .ok x.1) = _
    cases pathUpdate H (found (getNodeCached H nodes cache)) (fun _ => pathBit (H.hashKey key))
      (digest H t) (H.hashKey key) (H.hashNode (newLeaf H key value)) <;> rfl

/-- The batched copy inserts with its own bits. -/
theorem updateForKey_cached (hI : H.Ideal) (hc : cache.Proper H)
    (h : Cached H nodes cache (nodesOf H t)) (key value : Bytes) :
    Inserts H t (key,H.hashValue value)
      (insertSeen H (sees H (getNodeCached H nodes cache))
        (fun i => hashBit (H.hashKey key) i (walkDepth (fun _ => true) (H.hashKey key) 0 t))
        (key,H.hashValue value) 0 t)
      (updateForKey H (BatchedSMTHelper.computePathUpdatesBatched H nodes cache) (digest H t) key
        value) := by
  have hget := h.finds hI hc
  have h0 : getNodeCached H nodes cache H.empty = none := getNodeCached_empty
  rw [← walkDepth_of_finds hget]
  exact updateForKey_inserts hI h0 (keyed_of_finds hget) value
    (fun last depth => hashBit (H.hashKey key) depth last) fun leaf => rfl

end Roots

section Agreement

variable {δ : Type} [DecidableEq δ] {H : SmtHash δ} {nodes cache stored : NodeStore δ}
  {t t' : Trie Entry} {kv : Bytes × Bytes} {rest : List (Bytes × Bytes)} {f : Trie.Overflow}

/-- A key of the incremental update. -/
theorem foldWritten_cons (hI : H.Ideal) (hs : Finds H stored (nodesOf H t))
    (ht' : insertEntry H (kv.1,H.hashValue kv.2) 0 t = .ok t') :
    ∃ stored', Finds H stored' (nodesOf H t') ∧ ∀ rest,
      SMTHelper.foldWritten H stored (digest H t) (kv::rest) =
        SMTHelper.foldWritten H stored' (digest H t') rest := by
  have hins := SMTHelper.pathUpdateForKey_inserts kv.1 kv.2 hI (keyed_of_finds hs)
    (reads_of_finds hs)
  rw [ht'] at hins
  obtain ⟨batch,hbatch,hnodes⟩ := hins
  refine ⟨stored.write H batch,?_,fun rest => ?_⟩
  · intro n hn
    apply hs.write hI n
    rw [List.mem_append]
    obtain h | rfl | h := hnodes n hn
    · exact .inl h
    · exact .inr (updateForKey_leaf hbatch)
    · exact .inr h
  · rw [SMTHelper.foldWritten, hbatch]
    rfl

theorem foldWritten_error (hI : H.Ideal) (hs : Finds H stored (nodesOf H t))
    (hf : insertEntry H (kv.1,H.hashValue kv.2) 0 t = .error f) :
    SMTHelper.foldWritten H stored (digest H t) (kv::rest) = .error (overflowFault f) := by
  have hins := SMTHelper.pathUpdateForKey_inserts kv.1 kv.2 hI (keyed_of_finds hs)
    (reads_of_finds hs)
  rw [hf] at hins
  have hrun : SMTHelper.pathUpdateForKey H stored (digest H t) kv.1 kv.2 =
      .error (overflowFault f) := hins
  rw [SMTHelper.foldWritten, hrun]
  rfl

/-- The insertion of the batched copy. -/
def insertBatched (H : SmtHash δ) (get : δ → Option (SMTNode δ)) (kv : Bytes × Bytes)
    (t : Trie Entry) : Except Trie.Overflow (Trie Entry) :=
  insertSeen H (sees H get)
    (fun i => hashBit (H.hashKey kv.1) i (walkDepth (fun _ => true) (H.hashKey kv.1) 0 t))
    (kv.1,H.hashValue kv.2) 0 t

/-- A key of the batched copy. -/
theorem computeBatchedSmtRoot_cons (hI : H.Ideal) (hc : cache.Proper H)
    (hs : Cached H nodes cache (nodesOf H t)) (kv : Bytes × Bytes) :
    ∃ get, Finds H get (nodesOf H t) ∧
      (∀ f, insertBatched H get kv t = .error f → ∀ rest batch,
        BatchedSMTHelper.computeBatchedSmtRoot H nodes cache (digest H t) (kv::rest) batch =
          .error (overflowFault f)) ∧
      ∀ t', insertBatched H get kv t = .ok t' → ∃ cache', cache'.Proper H ∧
        Cached H nodes cache' (nodesOf H t') ∧ ∀ batch, ∃ batch', ∀ rest,
          BatchedSMTHelper.computeBatchedSmtRoot H nodes cache (digest H t) (kv::rest) batch =
            BatchedSMTHelper.computeBatchedSmtRoot H nodes cache' (digest H t') rest batch' := by
  have hc' : (cache.put H (newLeaf H kv.1 kv.2)).Proper H := hc.write [_]
  have hs' : Cached H nodes (cache.put H (newLeaf H kv.1 kv.2)) (nodesOf H t) := fun n hn =>
    hs.write hI [newLeaf H kv.1 kv.2] n (List.mem_append_left _ hn)
  have hins := updateForKey_cached hI hc' hs' kv.1 kv.2
  refine ⟨getNodeCached H nodes (cache.put H (newLeaf H kv.1 kv.2)),hs'.finds hI hc',?_,?_⟩
  · intro f hf rest batch
    rw [insertBatched] at hf
    rw [hf] at hins
    have hrun : updateForKey H (BatchedSMTHelper.computePathUpdatesBatched H nodes
        (cache.put H (newLeaf H kv.1 kv.2))) (digest H t) kv.1 kv.2 = .error (overflowFault f) := hins
    rw [BatchedSMTHelper.computeBatchedSmtRoot]
    dsimp only
    rw [hrun]
    rfl
  · intro t' ht'
    rw [insertBatched] at ht'
    rw [ht'] at hins
    obtain ⟨built,hbuilt,hnodes⟩ := hins
    refine ⟨(cache.put H (newLeaf H kv.1 kv.2)).write H built,hc'.write built,?_,?_⟩
    · intro n hn
      apply hs'.write hI built n
      rw [List.mem_append]
      obtain h | rfl | h := hnodes n hn
      · exact .inl h
      · exact .inr (updateForKey_leaf hbuilt)
      · exact .inr h
    · intro batch
      refine ⟨batch ++ built,fun rest => ?_⟩
      rw [BatchedSMTHelper.computeBatchedSmtRoot]
      dsimp only
      rw [hbuilt]
      rfl

omit [DecidableEq δ] in
/-- The batched copy inserts as the incremental one exactly when an insertion that succeeds has the
bits of the key. -/
theorem insertBatched_eq_iff {get : δ → Option (SMTNode δ)} (hs : Finds H get (nodesOf H t))
    (hp : Trie.Placed (entryPath H) pathBit 0 t) :
    insertBatched H get kv t = insertEntry H (kv.1,H.hashValue kv.2) 0 t ↔
      ∀ t', insertEntry H (kv.1,H.hashValue kv.2) 0 t = .ok t' → BitsAgree (H.hashKey kv.1) t := by
  constructor
  · intro h t' ht'
    rw [ht', insertBatched] at h
    exact fun i hi => bits_of_insertSeen_eq hs hp ht' h (Nat.zero_le i) hi
  · intro h
    cases hins : insertEntry H (kv.1,H.hashValue kv.2) 0 t with
    | error f => exact insertSeen_error hs hins
    | ok t' =>
      rw [← hins]
      apply insertSeen_eq (reads_of_finds hs)
      intro i _ hi
      rw [walkDepth_of_finds hs] at hi
      exact h t' hins i hi

theorem computeMinimalSmtRoot_cons (hI : H.Ideal) (hn : nodes.Proper H) (hc : cache.Proper H) :
    BatchedSMTHelper.computeMinimalSmtRoot H nodes cache (digest H t) (kv::rest) =
      rootOf H (insertSeen H (sees H (getNodeCached H nodes cache)) (pathBit (H.hashKey kv.1))
        (kv.1,H.hashValue kv.2) 0 t) >>=
        fun root => BatchedSMTHelper.computeMinimalSmtRoot H nodes cache root rest := by
  rw [BatchedSMTHelper.computeMinimalSmtRoot, computeRootHashOnly_root hI hn hc]

omit [DecidableEq δ] in
theorem insertSeen_eq_iff {get : δ → Option (SMTNode δ)} :
    insertSeen H (sees H get) (pathBit (H.hashKey kv.1)) (kv.1,H.hashValue kv.2) 0 t =
        insertEntry H (kv.1,H.hashValue kv.2) 0 t ↔ Reads H get (H.hashKey kv.1) 0 t := by
  constructor
  · intro h
    exact reads_of_insertSeen_eq (e := (kv.1,H.hashValue kv.2)) h
  · intro h
    exact insertSeen_eq (e := (kv.1,H.hashValue kv.2)) h fun _ _ _ => rfl

/-- One key: the copies agree on it when they insert as the incremental update does. -/
theorem copies_agree_one (hI : H.Ideal) (hn : nodes.Proper H) (hc0 : cache.Proper H)
    {cache' : NodeStore δ} (hc : cache'.Proper H) (hst : Finds H stored (nodesOf H t))
    (hs : Cached H nodes cache' (nodesOf H t)) (hp : Trie.Placed (entryPath H) pathBit 0 t)
    {batch : List (SMTNode δ)}
    (h : (BatchedSMTHelper.computeBatchedSmtRoot H nodes cache' (digest H t) [kv] batch).map Prod.fst =
        SMTHelper.foldWritten H stored (digest H t) [kv] ∧
      BatchedSMTHelper.computeMinimalSmtRoot H nodes cache (digest H t) [kv] =
        SMTHelper.foldWritten H stored (digest H t) [kv]) :
    Reads H (getNodeCached H nodes cache) (H.hashKey kv.1) 0 t ∧
      ∀ t', insertEntry H (kv.1,H.hashValue kv.2) 0 t = .ok t' → BitsAgree (H.hashKey kv.1) t := by
  have hfold : SMTHelper.foldWritten H stored (digest H t) [kv] =
      rootOf H (insertEntry H (kv.1,H.hashValue kv.2) 0 t) := by
    cases hins : insertEntry H (kv.1,H.hashValue kv.2) 0 t with
    | error f => exact foldWritten_error hI hst hins
    | ok t' =>
      obtain ⟨stored',_,hrest⟩ := foldWritten_cons hI hst hins
      exact hrest []
  constructor
  · apply insertSeen_eq_iff.mp
    apply rootOf_injective hI
    rw [← hfold, ← h.2, computeMinimalSmtRoot_cons hI hn hc0]
    exact (bind_pure _).symm
  · obtain ⟨get,hget,herr,hok⟩ := computeBatchedSmtRoot_cons hI hc hs kv
    apply (insertBatched_eq_iff hget hp).mp
    apply rootOf_injective hI
    rw [← hfold, ← h.1]
    cases hins : insertBatched H get kv t with
    | error f =>
      rw [herr f hins]
      rfl
    | ok t' =>
      obtain ⟨_,_,_,hrest⟩ := hok t' hins
      obtain ⟨batch',hb⟩ := hrest batch
      rw [hb]
      rfl

/-- After any number of keys the copies agree exactly when every update reads what it needs and tests
the bits of its key. -/
theorem copies_agree_steps (hI : H.Ideal) (hn : nodes.Proper H) (hc0 : cache.Proper H)
    {cache' : NodeStore δ} (hc : cache'.Proper H) (hst : Finds H stored (nodesOf H t))
    (hs : Cached H nodes cache' (nodesOf H t)) (hp : Trie.Placed (entryPath H) pathBit 0 t)
    (batch : List (SMTNode δ)) (keyValues : List (Bytes × Bytes)) :
    (∀ pre, pre <+: keyValues →
      (BatchedSMTHelper.computeBatchedSmtRoot H nodes cache' (digest H t) pre batch).map Prod.fst =
        SMTHelper.foldWritten H stored (digest H t) pre ∧
      BatchedSMTHelper.computeMinimalSmtRoot H nodes cache (digest H t) pre =
        SMTHelper.foldWritten H stored (digest H t) pre) ↔
    UpdatesAgree H (getNodeCached H nodes cache) t keyValues := by
  induction keyValues generalizing t cache' stored batch with
  | nil =>
    refine ⟨fun _ => trivial,fun _ pre hpre => ?_⟩
    rw [List.prefix_nil.mp hpre]
    exact ⟨rfl,rfl⟩
  | cons kv keyValues ih =>
    rw [UpdatesAgree]
    constructor
    · intro h
      have hone := copies_agree_one hI hn hc0 hc hst hs hp (h [kv] (by simp))
      refine ⟨hone.1,fun t' ht' => ⟨hone.2 t' ht',?_⟩⟩
      obtain ⟨stored',hst',hfold⟩ := foldWritten_cons hI hst ht'
      obtain ⟨get,hget,_,hok⟩ := computeBatchedSmtRoot_cons hI hc hs kv
      obtain ⟨cache₁,hc₁,hs₁,hbatch⟩ := hok t'
        (((insertBatched_eq_iff hget hp).mpr hone.2).trans ht')
      obtain ⟨batch',hbatch⟩ := hbatch batch
      have hmin := insertSeen_eq_iff.mpr hone.1
      apply (ih hc₁ hst' hs₁ (hp.insert ht').1 batch').mp
      intro pre hpre
      have hall := h (kv::pre) (List.cons_prefix_cons.mpr ⟨rfl,hpre⟩)
      rw [hfold, hbatch, computeMinimalSmtRoot_cons hI hn hc0, hmin, ht'] at hall
      exact hall
    · rintro ⟨hreads,hnext⟩ pre hpre
      obtain rfl | ⟨pre,rfl,hpre'⟩ := List.prefix_cons_iff.mp hpre
      · exact ⟨rfl,rfl⟩
      · obtain ⟨get,hget,herr,hok⟩ := computeBatchedSmtRoot_cons hI hc hs kv
        have hins := (insertBatched_eq_iff hget hp).mpr fun t' ht' => (hnext t' ht').1
        rw [computeMinimalSmtRoot_cons hI hn hc0, insertSeen_eq_iff.mpr hreads]
        cases ht' : insertEntry H (kv.1,H.hashValue kv.2) 0 t with
        | error f =>
          rw [herr f (hins.trans ht'), foldWritten_error hI hst ht']
          exact ⟨rfl,rfl⟩
        | ok t' =>
          obtain ⟨stored',hst',hfold⟩ := foldWritten_cons hI hst ht'
          obtain ⟨cache₁,hc₁,hs₁,hbatch⟩ := hok t' (hins.trans ht')
          obtain ⟨batch',hbatch⟩ := hbatch batch
          rw [hfold, hbatch]
          exact (ih hc₁ hst' hs₁ (hp.insert ht').1 batch').mpr (hnext t' ht').2 pre hpre'

/-- On a stored tree the three roots are equal after every key of a list exactly when every update finds
the nodes it needs without those of the earlier ones, and the batched copy tests the bits of its key. -/
theorem copies_agree_iff (hI : H.Ideal) (hn : nodes.Proper H) (hc : cache.Proper H)
    (hst : Finds H nodes (nodesOf H t)) (hp : Trie.Placed (entryPath H) pathBit 0 t)
    (keyValues : List (Bytes × Bytes)) :
    (∀ pre, pre <+: keyValues → CopiesAgree H nodes cache (digest H t) pre) ↔
      UpdatesAgree H (getNodeCached H nodes cache) t keyValues :=
  copies_agree_steps hI hn hc hc hst (fun n hn => .inr (hst n hn)) hp [] keyValues

end Agreement

/-- Three keys, the last of which has the bits that the batched copy tests. -/
def threeKeys : List (Bytes × Bytes) := [([1],[7]),([128],[8]),([192],[9])]

theorem allNodes_proper : allNodes.Proper termHash := by
  intro h n hn
  cases h <;> cases hn <;> rfl

theorem copies_agree_three_keys :
    CopiesAgree termHash allNodes (fun _ => none) (digest termHash .empty) threeKeys := by
  have hreads : ∀ keyHash t, Reads termHash (getNodeCached termHash allNodes fun _ => none) keyHash 0 t := by
    intro keyHash t n _ hnone
    rw [getNodeCached_hash termHash_ideal] at hnone
    cases n <;> cases hnone
  refine (copies_agree_iff termHash_ideal allNodes_proper (fun _ _ h => by cases h)
    (t := .empty) (allNodes_finds _) trivial threeKeys).mpr ?_ threeKeys (List.prefix_refl _)
  refine ⟨hreads _ _,fun t ht => ⟨fun i hi => absurd hi (Nat.not_lt_zero i),hreads _ _,?_⟩⟩
  cases ht
  intro t ht
  refine ⟨fun i hi => absurd hi (Nat.not_lt_zero i),hreads _ _,fun t' _ => ⟨?_,trivial⟩⟩
  have htwo : insertEntry termHash ([128],termHash.hashValue [8]) 0
      (.leaf ([1],termHash.hashValue [7])) = .ok (.node (.leaf ([1],termHash.hashValue [7]))
        (.leaf ([128],termHash.hashValue [8]))) := rfl
  cases htwo.symm.trans ht
  intro i hi
  obtain rfl : i = 0 := Nat.lt_one_iff.mp hi
  decide

/-- The third update tests a bit of its key one level too deep, and the minimal root misses the nodes of
the first two. -/
theorem copies_diverge :
    (BatchedSMTHelper.computeBatchedSmtRoot termHash (fun _ => none) (fun _ => none) .empty
      [([0],[7]),([64],[8]),([64],[9])] []).map Prod.fst ≠
      SMTHelper.foldWritten termHash (fun _ => none) .empty [([0],[7]),([64],[8]),([64],[9])] ∧
    BatchedSMTHelper.computeMinimalSmtRoot termHash (fun _ => none) (fun _ => none) .empty
      [([0],[7]),([64],[8]),([64],[9])] ≠
      SMTHelper.foldWritten termHash (fun _ => none) .empty [([0],[7]),([64],[8]),([64],[9])] := by
  constructor
  · intro h
    exact absurd (congrArg Except.toOption h) (by decide +kernel)
  · intro h
    exact absurd (congrArg Except.toOption h) (by decide +kernel)

end Metashrew
