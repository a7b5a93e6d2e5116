import Metashrew.Tree.Storage

namespace Metashrew

open Bytes Versioned

/-- Every update of the list finds the nodes it needs in the storage as it was before the list. -/
def UpdatesRead {δ : Type} (H : SmtHash δ) (nodes : NodeStore δ) :
    Trie Entry → List (Bytes × Bytes) → Prop
  | _, [] => True
  | t, kv::keyValues => Reads H nodes (H.hashKey kv.1) 0 t ∧
      ∀ t', insertEntry H (kv.1,H.hashValue kv.2) 0 t = .ok t' → UpdatesRead H nodes t' keyValues

/-- The keys with their values. -/
def latest (m : Values) (keys : List Bytes) : List (Bytes × Bytes) :=
  keys.map fun key => (key,(m key).getD [])

/-- A call reads the tree of the values before it: a batched one needs no node of its own batch, and
the other one does not start from the empty tree. -/
def CallReads {δ : Type} (H : SmtHash δ) (nodes : NodeStore δ) (m : Values) (c : RootCall) : Prop :=
  if c.batched then ∀ t, HoldsValues H m t →
    UpdatesRead H nodes t (latest (putValues m c.keyValues) (c.keyValues.map Prod.fst))
  else c.keyValues = [] ∨ ∃ key, m key ≠ none

/-- Every call of the run reads the tree of the values before it. -/
def CallsRead {δ : Type} [DecidableEq δ] (C : SmtCodec δ) (H : SmtHash δ) :
    Store → Values → List RootCall → Prop
  | _, _, [] => True
  | σ, m, c::calls => CallReads H (C.nodesIn σ) m c ∧
      ∀ σ', runCall C H σ c = .ok σ' → CallsRead C H σ' (putValues m c.keyValues) calls

/-- From the stored root of the height the leaf of every key is found, with the hash of its latest
value, and no leaf of a key without one. -/
def HoldsLatest {δ : Type} [DecidableEq δ] (C : SmtCodec δ) (H : SmtHash δ) (K : Set Bytes) (σ : Store)
    (height : Nat) (m : Values) : Prop :=
  ∃ root, C.getSmtRootAtHeight σ height = .ok root ∧ ∀ key ∈ K,
    C.getSmtLeaf H σ root (H.hashKey key) = .ok ((m key).map fun value => .leaf key (H.hashValue value))

section Leaves

variable {δ : Type} [DecidableEq δ] {C : SmtCodec δ} {H : SmtHash δ} {σ : Store} {nodes : NodeStore δ}
  {t : Trie Entry} {d : Nat}
  {keyHash : Hash32} {m : Values} {K : Set Bytes}

/-- The walk of `get_smt_leaf` finds the entry on the path. -/
theorem getSmtLeafFrom_spec (hI : H.Ideal) (hwf : Trie.WellFormed (entryPath H) pathBit d t)
    (hget : Finds H nodes (nodesOf H t)) (hne : t ≠ .empty) {fuel : Nat} (hd : fuel+d = 256)
    (hlt : d < 256)
    (hpre : ∀ b, Trie.Mem b t → ∀ i < d, pathBit (entryPath H b) i = pathBit keyHash i)
    (hsep : ∀ a b, Trie.Mem a t → Trie.Mem b t → entryPath H a ≠ entryPath H b →
      ∃ i, i+1 < 256 ∧ pathBit (entryPath H a) i ≠ pathBit (entryPath H b) i) :
    getSmtLeafFrom H (found (getNode H nodes)) keyHash fuel d (digest H t) =
      .ok ((Trie.find (entryPath H) pathBit keyHash d t).map leafNode) := by
  induction hwf generalizing fuel with
  | empty => exact absurd rfl hne
  | leaf d b =>
    obtain ⟨fuel,rfl⟩ : ∃ n, fuel = n+1 := ⟨fuel-1,by omega⟩
    have hnode : getNode H nodes (digest H (.leaf b)) = some (leafNode b) := by
      rw [digest, getNode_hash hI]
      exact hget _ List.mem_cons_self
    rw [getSmtLeafFrom, found, hnode, leafNode, Trie.find]
    have hpath : entryPath H b = H.hashKey b.1 := rfl
    dsimp only
    rw [hpath]
    split_ifs <;> rfl
  | @node d l r hl hr hfalse htrue htwo ihl ihr =>
    obtain ⟨fuel,rfl⟩ : ∃ n, fuel = n+1 := ⟨fuel-1,by omega⟩
    have hnode : getNode H nodes (digest H (.node l r)) =
        some (.internal (digest H l) (digest H r)) := by
      rw [digest, getNode_hash hI]
      exact hget _ List.mem_cons_self
    have hdeep : d+1 < 256 := by
      obtain ⟨a,b,ha,hb,hab⟩ := htwo
      obtain ⟨i,hi,hdiff⟩ := hsep a b ha hb hab
      have hle : d ≤ i := by
        by_contra hlt
        exact hdiff ((hpre a ha i (by omega)).trans (hpre b hb i (by omega)).symm)
      omega
    have hbelow : ∀ c, (∀ b, Trie.Mem b c → Trie.Mem b (.node l r)) →
        (∀ b, Trie.Mem b c → pathBit (entryPath H b) d = pathBit keyHash d) →
        ∀ b, Trie.Mem b c → ∀ i < d+1, pathBit (entryPath H b) i = pathBit keyHash i := by
      intro c hsub hside b hb i hi
      by_cases hid : i = d
      · rw [hid]
        exact hside b hb
      · exact hpre b (hsub b hb) i (by omega)
    rw [getSmtLeafFrom, found, hnode, Trie.find]
    dsimp only
    cases hbit : pathBit keyHash d with
    | true =>
      rw [if_pos rfl, if_pos rfl]
      by_cases hr0 : r = .empty
      · rw [if_pos ((digest_eq_empty hI).mpr hr0), hr0]
        rfl
      · rw [if_neg fun h => hr0 ((digest_eq_empty hI).mp h), if_neg (by omega)]
        apply ihr _ hr0 (by omega) hdeep
        · exact hbelow r (fun b hb => .inr hb) fun b hb => (htrue b hb).trans hbit.symm
        · exact fun a b ha hb => hsep a b (.inr ha) (.inr hb)
        · exact hget.child true
    | false =>
      rw [if_neg Bool.false_ne_true, if_neg Bool.false_ne_true]
      by_cases hl0 : l = .empty
      · rw [if_pos ((digest_eq_empty hI).mpr hl0), hl0]
        rfl
      · rw [if_neg fun h => hl0 ((digest_eq_empty hI).mp h), if_neg (by omega)]
        apply ihl _ hl0 (by omega) hdeep
        · exact hbelow l (fun b hb => .inl hb) fun b hb => (hfalse b hb).trans hbit.symm
        · exact fun a b ha hb => hsep a b (.inl ha) (.inl hb)
        · exact hget.child false

/-- The leaves of a stored tree. -/
theorem getSmtLeaf_spec (hI : H.Ideal) (hC : C.Lawful) (hσ : C.HoldsNodes H σ) (h : HoldsValues H m t)
    (hget : Finds H (C.nodesIn σ) (nodesOf H t)) (hsep : Separated H K)
    (hm : ∀ key, m key ≠ none → key ∈ K) {key : Bytes} (hk : key ∈ K) :
    C.getSmtLeaf H σ (digest H t) (H.hashKey key) =
      .ok ((m key).map fun value => .leaf key (H.hashValue value)) := by
  have hfind : (Trie.find (entryPath H) pathBit (H.hashKey key) 0 t).map leafNode =
      (m key).map fun value => (.leaf key (H.hashValue value) : SMTNode δ) := by
    cases hmk : m key with
    | some value =>
      have hmem : Trie.Mem (key,H.hashValue value) t := (h.mem _).mpr ⟨value,hmk,rfl⟩
      have hf : Trie.find (entryPath H) pathBit (H.hashKey key) 0 t = some (key,H.hashValue value) :=
        h.wellFormed.find_eq.mpr ⟨hmem,rfl⟩
      rw [hf]
      rfl
    | none =>
      cases hf : Trie.find (entryPath H) pathBit (H.hashKey key) 0 t with
      | none => rfl
      | some e =>
        obtain ⟨hmem,hpath⟩ := h.wellFormed.find_eq.mp hf
        have hkey : e.1 = key := (hsep.inj (h.mem_keys hm hmem) hk).mp hpath
        obtain ⟨w,hw,_⟩ := (h.mem e).mp hmem
        rw [hkey, hmk] at hw
        cases hw
  rw [SmtCodec.getSmtLeaf, hσ.getNode hC, ← hfind]
  by_cases ht : t = .empty
  · rw [if_pos ((digest_eq_empty hI).mpr ht), ht]
    rfl
  · rw [if_neg fun h => ht ((digest_eq_empty hI).mp h)]
    apply getSmtLeafFrom_spec hI h.wellFormed hget ht rfl (by decide)
    · exact fun b _ i hi => absurd hi (Nat.not_lt_zero i)
    · intro a b ha hb hne
      exact hsep.parts (h.mem_keys hm ha) (h.mem_keys hm hb) fun hkey => hne (congrArg H.hashKey hkey)

end Leaves

section Values

variable {m m' : Values} {keys : List Bytes} {keyValues : List (Bytes × Bytes)} {key : Bytes}

theorem putValues_of_not_mem (h : key ∉ keyValues.map Prod.fst) : putValues m keyValues key = m key := by
  induction keyValues generalizing m with
  | nil => rfl
  | cons kv keyValues ih =>
    rw [List.map_cons, List.mem_cons, not_or] at h
    rw [putValues, ih h.2, Function.update_of_ne h.1]

theorem putValues_ne_none (h : key ∈ keyValues.map Prod.fst ∨ m key ≠ none) :
    putValues m keyValues key ≠ none := by
  induction keyValues generalizing m with
  | nil => exact h.resolve_left List.not_mem_nil
  | cons kv keyValues ih =>
    rw [putValues]
    apply ih
    by_cases hk : key = kv.1
    · right
      rw [hk, Function.update_self]
      exact Option.some_ne_none _
    · rw [Function.update_of_ne hk]
      exact h.imp_left fun h => (List.mem_cons.mp h).resolve_left hk

/-- Putting the latest values of all keys that differ gives the latest values. -/
theorem putValues_latest (hsame : ∀ key, key ∉ keys → m key = m' key)
    (hsome : ∀ key ∈ keys, m' key ≠ none) : putValues m (latest m' keys) = m' := by
  induction keys generalizing m with
  | nil => exact funext fun key => hsame key List.not_mem_nil
  | cons k keys ih =>
    have hk : some ((m' k).getD []) = m' k := by
      obtain ⟨v,hv⟩ := Option.ne_none_iff_exists'.mp (hsome k List.mem_cons_self)
      rw [hv]
      rfl
    apply ih
    · intro key hkey
      change Function.update m k (some ((m' k).getD [])) key = _
      rw [hk]
      by_cases he : key = k
      · rw [he, Function.update_self]
      · rw [Function.update_of_ne he]
        apply hsame
        rw [List.mem_cons, not_or]
        exact ⟨he,hkey⟩
    · exact fun key hkey => hsome key (List.mem_cons_of_mem _ hkey)

end Values

section Loops

variable {δ : Type} [DecidableEq δ] {C : SmtCodec δ} {H : SmtHash δ} {nodes : NodeStore δ} {t : Trie Entry}
  {m m' : Values} {K P : Set Bytes} {σ : Store} {hist : Bytes → History Nat Bytes} {h : Nat}
  {keys : List Bytes} {keyValues : List (Bytes × Bytes)}

theorem update_mem {k : Bytes} {v : Option Bytes} (hm : ∀ key, m key ≠ none → key ∈ K) (hk : k ∈ K) :
    ∀ key, Function.update m k v key ≠ none → key ∈ K := by
  intro key hkey
  by_cases he : key = k
  · rw [he]
    exact hk
  · rw [Function.update_of_ne he] at hkey
    exact hm key hkey

omit [DecidableEq δ] in
theorem holdsValues_ne_empty (ht : HoldsValues H m t) : t ≠ .empty ↔ ∃ key, m key ≠ none := by
  constructor
  · intro hne
    by_contra hall
    push Not at hall
    have hm : m = fun _ => none := funext hall
    rw [hm] at ht
    exact hne (ht.unique .empty)
  · rintro ⟨key,hkey⟩ rfl
    obtain ⟨v,hv⟩ := Option.ne_none_iff_exists'.mp hkey
    exact (ht.mem (key,H.hashValue v)).mpr ⟨v,hv,rfl⟩

/-- The incremental update of a list of keys, from a tree with a node. -/
theorem computeIncremental_spec (hI : H.Ideal) (hC : C.Lawful) (hP : C.Apart P) (hsep : Separated H K)
    (hPK : P ⊆ K) (hσ : C.HoldsData H P σ hist m' (h+1)) (hh : h < 2^32)
    (hlen : ∀ key, (hist key).length ≤ 2^31) (ht : HoldsValues H m t)
    (hm : ∀ key, m key ≠ none → key ∈ P) (hne : ∃ key, m key ≠ none)
    (hget : Finds H (C.nodesIn σ) (nodesOf H t)) (hkeys : ∀ key ∈ keys, key ∈ P)
    (hsome : ∀ key ∈ keys, m' key ≠ none) :
    ∃ t' σ', C.computeIncrementalSmtRoot H h σ (digest H t) keys = .ok (digest H t',σ') ∧
      HoldsValues H (putValues m (latest m' keys)) t' ∧ C.HoldsData H P σ' hist m' (h+1) ∧
      Finds H (C.nodesIn σ') (nodesOf H t') ∧ C.Grows H h σ σ' ∧ C.rootAt σ' = C.rootAt σ := by
  induction keys generalizing m t σ with
  | nil => exact ⟨t,σ,rfl,ht,hσ,hget,.refl,rfl⟩
  | cons k keys ih =>
    obtain ⟨v,hv⟩ := Option.ne_none_iff_exists'.mp (hsome k List.mem_cons_self)
    have hk := hkeys k List.mem_cons_self
    obtain ⟨t1,batch,hrun,ht1,hnodes⟩ := SMTHelper.pathUpdateForKey_holds hI ht hsep
      (fun key hkey => hPK (hm key hkey)) (hPK hk) (v := v) hget
    have hroot : digest H t ≠ H.empty := fun h =>
      (holdsValues_ne_empty ht).mpr hne ((digest_eq_empty hI).mp h)
    have hshort : ∀ n ∈ batch, n.Short := SmtCodec.updateForKey_short (hP.short k hk) hrun
    have hupdate : C.updateSmtForKey H σ (digest H t) k v =
        .ok (digest H t1,KV.write σ (C.nodeOps H batch)) := by
      rw [SMTHelper.pathUpdateForKey] at hrun
      rw [SmtCodec.updateSmtForKey, hσ.nodes.getNode hC, hrun]
      change Except.ok (_,if digest H t = H.empty then σ else KV.write σ (C.nodeOps H batch)) = _
      rw [if_neg hroot]
    rw [SmtCodec.computeIncrementalSmtRoot, hσ.records.getAtHeight hh hk (hlen k), hv]
    change ∃ t' σ', (C.updateSmtForKey H σ (digest H t) k v >>= fun x =>
      C.computeIncrementalSmtRoot H h x.2 x.1 keys) = _ ∧ _
    rw [hupdate]
    have hlatest : putValues m (latest m' (k::keys)) =
        putValues (Function.update m k (some v)) (latest m' keys) := by
      rw [latest, List.map_cons, putValues, hv]
      rfl
    have hstored : Finds H (C.nodesIn (KV.write σ (C.nodeOps H batch))) (nodesOf H t1) := by
      rw [SmtCodec.nodesIn_write hC hshort]
      intro n hn
      exact hget.write hI n (List.mem_append.mpr (hnodes n hn))
    obtain ⟨t',σ',hrest,hvalues,hdata,hfinds,hgrows,hroots⟩ := ih (hσ.write hC hP hshort) ht1
      (update_mem hm hk) ⟨k,by rw [Function.update_self]; exact Option.some_ne_none v⟩ hstored
      (fun key hkey => hkeys key (List.mem_cons_of_mem _ hkey))
      fun key hkey => hsome key (List.mem_cons_of_mem _ hkey)
    refine ⟨t',σ',hrest,?_,hdata,hfinds,(SmtCodec.Grows.write hC hI hshort).trans hgrows,?_⟩
    · rw [hlatest]
      exact hvalues
    · rw [hroots, SmtCodec.rootAt_nodeOps]

/-- The batched update of a list that reads what was stored before it. -/
theorem computeBatched_spec (hI : H.Ideal) (hsep : Separated H K) (hp : nodes.Proper H)
    (ht : HoldsValues H m t) (hm : ∀ key, m key ≠ none → key ∈ K) (batch : List (SMTNode δ))
    (hget : ∀ n ∈ nodesOf H t, nodes (H.hashNode n) = some n ∨ n ∈ batch)
    (hkeys : ∀ kv ∈ keyValues, kv.1 ∈ K) (hreads : UpdatesRead H nodes t keyValues) :
    ∃ t' batch', SMTHelper.computeBatchedSmtRoot H (found (getNode H nodes)) (digest H t) keyValues batch =
        .ok (digest H t',batch') ∧ HoldsValues H (putValues m keyValues) t' ∧
      ∀ n ∈ nodesOf H t', nodes (H.hashNode n) = some n ∨ n ∈ batch' := by
  induction keyValues generalizing m t batch with
  | nil => exact ⟨t,batch,rfl,ht,hget⟩
  | cons kv keyValues ih =>
    have hk := hkeys kv List.mem_cons_self
    obtain ⟨t1,ht1,hvalues⟩ := ht.insert hsep hm hk kv.2
    have hins := SMTHelper.pathUpdateForKey_inserts kv.1 kv.2 hI (hp.keyed hI _) hreads.1
    rw [ht1] at hins
    obtain ⟨built,hbuilt,hnodes⟩ := hins
    have hrun : SMTHelper.updateSmtForKeyBatched H (found (getNode H nodes)) (digest H t) kv.1 kv.2 batch =
        .ok (digest H t1,batch ++ built) := by
      change (SMTHelper.pathUpdateForKey H nodes (digest H t) kv.1 kv.2 >>= fun x =>
        .ok (x.1,batch ++ x.2)) = _
      rw [hbuilt]
      rfl
    rw [SMTHelper.computeBatchedSmtRoot, hrun]
    apply ih hvalues (update_mem hm hk)
    · intro n hn
      rw [List.mem_append]
      obtain hold | rfl | hnew := hnodes n hn
      · exact (hget n hold).imp_right .inl
      · exact .inr (.inr (updateForKey_leaf hbuilt))
      · exact .inr (.inr hnew)
    · exact fun kv' hkv => hkeys kv' (List.mem_cons_of_mem _ hkv)
    · exact hreads.2 t1 ht1

omit [DecidableEq δ] in
theorem valuesAtHeight_spec (hσ : HoldsRecords σ P hist m' (h+1)) (hh : h < 2^32)
    (hlen : ∀ key, (hist key).length ≤ 2^31) (hkeys : ∀ key ∈ keys, key ∈ P)
    (hsome : ∀ key ∈ keys, m' key ≠ none) :
    SMTHelper.valuesAtHeight σ h keys = .ok (latest m' keys) := by
  induction keys with
  | nil => rfl
  | cons k keys ih =>
    obtain ⟨v,hv⟩ := Option.ne_none_iff_exists'.mp (hsome k List.mem_cons_self)
    rw [SMTHelper.valuesAtHeight, hσ.getAtHeight hh (hkeys k List.mem_cons_self) (hlen k), hv,
      ih (fun key hkey => hkeys key (List.mem_cons_of_mem _ hkey))
        fun key hkey => hsome key (List.mem_cons_of_mem _ hkey), latest, latest, List.map_cons, hv]
    rfl

end Loops

/-- What every call of a run keeps: the records of the keys `P` have the values, all nodes of their tree
are stored, and its root is the last one. -/
structure HoldsTree {δ : Type} (C : SmtCodec δ) (H : SmtHash δ) (P : Set Bytes) (σ : Store)
    (hist : Bytes → History Nat Bytes) (m : Values) (t : Trie Entry) (next : Nat) : Prop where
  data : C.HoldsData H P σ hist m next
  tree : HoldsValues H m t
  stored : Finds H (C.nodesIn σ) (nodesOf H t)
  unwritten : ∀ i, next ≤ i → C.rootAt σ i = none
  root : (next = 0 ∧ t = .empty) ∨ ∃ r, next = r+1 ∧ C.rootAt σ r = some (digest H t)

section Runs

variable {δ : Type} {C : SmtCodec δ} {H : SmtHash δ} {σ σ' : Store} {hist hist' : Bytes → History Nat Bytes}
  {m m' : Values} {t t' : Trie Entry} {next h r : Nat} {K P : Set Bytes} {c : RootCall} {root : δ}

theorem HoldsTree.empty : HoldsTree C H P ∅ (fun _ => []) (fun _ => none) .empty 0 where
  data := ⟨.empty,.empty⟩
  tree := .empty
  stored _ hn := absurd hn List.not_mem_nil
  unwritten i _ := by
    rw [SmtCodec.rootAt, KV.get_empty]
    rfl
  root := .inl ⟨rfl,rfl⟩

theorem rootAtOrBelow_last {roots : Nat → Option δ} (hroot : roots r = some root)
    (hnone : ∀ i, r < i → i ≤ h → roots i = none) (hle : r ≤ h) :
    SMTHelper.rootAtOrBelow roots h = some root := by
  induction h with
  | zero =>
    obtain rfl : r = 0 := Nat.le_zero.mp hle
    exact hroot
  | succ h ih =>
    rw [SMTHelper.rootAtOrBelow]
    by_cases hr : r = h+1
    · rw [← hr, hroot]
      rfl
    · rw [hnone (h+1) (by omega) le_rfl]
      exact ih (fun i hi hih => hnone i hi (by omega)) (by omega)

theorem rootAtOrBelow_none {roots : Nat → Option δ} (hnone : ∀ i, roots i = none) :
    SMTHelper.rootAtOrBelow roots h = none := by
  induction h with
  | zero => exact hnone 0
  | succ h ih => rw [SMTHelper.rootAtOrBelow, hnone, ih]; rfl

/-- A call starts from the tree of the last one. -/
theorem HoldsTree.previousRoot (hσ : HoldsTree C H P σ hist m t next) (hn : next ≤ h) :
    C.previousRoot H σ h = digest H t := by
  obtain ⟨rfl,rfl⟩ | ⟨r,rfl,hroot⟩ := hσ.root
  · cases h with
    | zero => rfl
    | succ h =>
      have hnone : SMTHelper.rootAtOrBelow (C.rootAt σ) h = none :=
        rootAtOrBelow_none fun i => hσ.unwritten i (Nat.zero_le i)
      rw [SmtCodec.previousRoot, SmtCodec.getSmtRootAtHeight, hnone]
      rfl
  · obtain ⟨h,rfl⟩ : ∃ i, h = i+1 := ⟨h-1,by omega⟩
    have hlast : SMTHelper.rootAtOrBelow (C.rootAt σ) h = some (digest H t) :=
      rootAtOrBelow_last hroot (fun i hi _ => hσ.unwritten i hi) (by omega)
    rw [SmtCodec.previousRoot, SmtCodec.getSmtRootAtHeight, hlast]

/-- The puts of a call change neither the nodes nor the roots. -/
theorem HoldsTree.previousRoot_only (hσ : HoldsTree C H P σ hist m t next) (hn : next ≤ h)
    (honly : OnlyKeys P σ σ') : C.previousRoot H σ' h = digest H t := by
  rw [← hσ.previousRoot hn]
  cases h with
  | zero => rfl
  | succ h => rw [SmtCodec.previousRoot, SmtCodec.previousRoot, SmtCodec.getSmtRootAtHeight,
      SmtCodec.getSmtRootAtHeight, SmtCodec.rootAt_only honly]

/-- The root of a call is stored at its height, with the nodes of its tree. -/
theorem HoldsTree.store (hC : C.Lawful) (hσ : HoldsTree C H P σ hist m t next) (hn : next ≤ h)
    (hroots : C.rootAt σ' = C.rootAt σ) (hdata : C.HoldsData H P σ' hist' m' (h+1))
    (htree : HoldsValues H m' t') (hstored : Finds H (C.nodesIn σ') (nodesOf H t')) :
    HoldsTree C H P (KV.write σ' [C.rootOp h (digest H t')]) hist' m' t' (h+1) where
  data := hdata.storeRoot
  tree := htree
  stored := by rwa [SmtCodec.nodesIn_congr SmtCodec.nodeKey_rootOp]
  unwritten i hi := by
    rw [SmtCodec.rootAt_rootOp hC, Function.update_of_ne (by omega), hroots]
    exact hσ.unwritten i (by omega)
  root := .inr ⟨h,rfl,by rw [SmtCodec.rootAt_rootOp hC, Function.update_self]⟩

/-- The keys of a call are those with an update at its height. -/
theorem mem_putHistories_iff (hb : ∀ key, ∀ e ∈ hist key, e.1 < h) {key : Bytes}
    {keyValues : List (Bytes × Bytes)} :
    (∃ e ∈ putHistories hist h keyValues key, e.1 = h) ↔ key ∈ keyValues.map Prod.fst := by
  constructor
  · rintro ⟨e,he,heq⟩
    rw [putHistories, List.mem_append, List.mem_map] at he
    obtain he | ⟨v,hv,_⟩ := he
    · exact absurd heq (ne_of_lt (hb key e he))
    · by_contra hkey
      have hnil : updatesOf key keyValues = [] :=
        updatesOf_eq_nil.mpr fun kv hkv hk => hkey (List.mem_map.mpr ⟨kv,hkv,hk⟩)
      rw [hnil] at hv
      cases hv
  · intro hkey
    have hne : updatesOf key keyValues ≠ [] := by
      intro hnil
      obtain ⟨kv,hkv,hk⟩ := List.mem_map.mp hkey
      exact updatesOf_eq_nil.mp hnil kv hkv hk
    obtain ⟨v,hv⟩ := List.exists_mem_of_ne_nil _ hne
    exact ⟨(h,v),List.mem_append_right _ (List.mem_map.mpr ⟨v,hv,rfl⟩),rfl⟩

variable [DecidableEq δ]

/-- The batched call after its puts. -/
theorem HoldsTree.callBatched (hI : H.Ideal) (hC : C.Lawful) (hP : C.Apart P) (hsep : Separated H K)
    (hPK : P ⊆ K) (hσ : HoldsTree C H P σ hist m t next) (hn : next ≤ h) (hh : h < 2^32)
    (hm : ∀ key, m key ≠ none → key ∈ P) {keys : List Bytes} (honly : OnlyKeys P σ σ')
    (hdata : C.HoldsData H P σ' hist' m' (h+1)) (hlen : ∀ key, (hist' key).length ≤ 2^31)
    (hkeys : ∀ key ∈ keys, key ∈ P) (hsome : ∀ key ∈ keys, m' key ≠ none)
    (hsame : ∀ key, key ∉ keys → m key = m' key)
    (hreads : UpdatesRead H (C.nodesIn σ) t (latest m' keys)) :
    ∃ root σ'' t', C.calculateAndStoreStateRootBatched H σ' h keys = .ok (root,σ'') ∧
      HoldsTree C H P σ'' hist' m' t' (h+1) ∧ C.Grows H h σ' σ'' := by
  have hnodes : C.nodesIn σ' = C.nodesIn σ := SmtCodec.nodesIn_congr (hP.nodeKey honly)
  have hstored : Finds H (C.nodesIn σ') (nodesOf H t) := by rw [hnodes]; exact hσ.stored
  rw [SmtCodec.calculateAndStoreStateRootBatched, hσ.previousRoot_only hn honly]
  dsimp only
  by_cases hnil : keys = []
  · have hmm : m = m' := funext fun key => hsame key (by rw [hnil]; exact List.not_mem_nil)
    rw [if_pos hnil]
    exact ⟨_,_,t,rfl,hσ.store hC hn (SmtCodec.rootAt_only honly) hdata (hmm ▸ hσ.tree) hstored,
      .storeRoot hC⟩
  · have hpairs : ∀ kv ∈ latest m' keys, kv.1 ∈ P := by
      intro kv hkv
      obtain ⟨key,hkey,rfl⟩ := List.mem_map.mp hkv
      exact hkeys key hkey
    rw [← hnodes] at hreads
    obtain ⟨t',batch,hrun,htree,hbatch⟩ := computeBatched_spec hI hsep (hdata.nodes.proper hC) hσ.tree
      (fun key hkey => hPK (hm key hkey)) [] (fun n hn => .inl (hstored n hn))
      (fun kv hkv => hPK (hpairs kv hkv)) hreads
    rw [putValues_latest hsame hsome] at htree
    have hshort : ∀ n ∈ batch, n.Short := SmtCodec.computeBatchedSmtRoot_short
      (fun kv hkv => hP.short kv.1 (hpairs kv hkv)) (by simp) hrun
    rw [if_neg hnil, valuesAtHeight_spec hdata.records hh hlen hkeys hsome, hdata.nodes.getNode hC]
    change ∃ root σ'' t', (SMTHelper.computeBatchedSmtRoot H (found (getNode H (C.nodesIn σ'))) (digest H t)
      (latest m' keys) [] >>= _) = _ ∧ _
    rw [hrun]
    have hall : Finds H (C.nodesIn (KV.write σ' (C.nodeOps H batch))) (nodesOf H t') := by
      intro n hn
      rw [SmtCodec.nodesIn_write hC hshort, NodeStore.write_hash hI]
      split_ifs with hb
      · rfl
      · exact (hbatch n hn).resolve_right hb
    refine ⟨_,_,t',rfl,?_,?_⟩
    · rw [KV.write_append]
      exact hσ.store hC hn (SmtCodec.rootAt_nodeOps.trans (SmtCodec.rootAt_only honly))
        (hdata.write hC hP hshort) htree hall
    · rw [KV.write_append]
      exact (SmtCodec.Grows.write hC hI hshort).trans (.storeRoot hC)

/-- The incremental call after its puts. -/
theorem HoldsTree.callIncremental (hI : H.Ideal) (hC : C.Lawful) (hP : C.Apart P) (hsep : Separated H K)
    (hPK : P ⊆ K) (hσ : HoldsTree C H P σ hist m t next) (hn : next ≤ h) (hh : h < 2^32)
    (hm : ∀ key, m key ≠ none → key ∈ P) {keys : List Bytes} (honly : OnlyKeys P σ σ')
    (hdata : C.HoldsData H P σ' hist' m' (h+1)) (hlen : ∀ key, (hist' key).length ≤ 2^31)
    (hkeys : ∀ key ∈ keys, key ∈ P) (hsome : ∀ key ∈ keys, m' key ≠ none)
    (hsame : ∀ key, key ∉ keys → m key = m' key)
    (hupdated : ∀ key, key ∈ keys ↔ ∃ e ∈ hist' key, e.1 = h)
    (hne : keys = [] ∨ ∃ key, m key ≠ none) :
    ∃ root σ'' t', C.calculateAndStoreStateRoot H σ' h = .ok (root,σ'') ∧
      HoldsTree C H P σ'' hist' m' t' (h+1) ∧ C.Grows H h σ' σ'' := by
  have hstored : Finds H (C.nodesIn σ') (nodesOf H t) := by
    rw [SmtCodec.nodesIn_congr (hP.nodeKey honly)]
    exact hσ.stored
  obtain ⟨updated,hscan,hmem⟩ := getKeysAtHeight_of_histories hdata.records.records hdata.records.others
    (fun key _ e he => by have := hdata.records.below key e he; omega)
    (fun key _ => lt_of_le_of_lt (hlen key) (by decide)) h
  have hsame' : ∀ key, key ∈ updated ↔ key ∈ keys := by
    intro key
    rw [hmem, ← hupdated]
    exact and_iff_right_of_imp (hkeys key)
  rw [SmtCodec.calculateAndStoreStateRoot, hσ.previousRoot_only hn honly]
  dsimp only
  rw [hscan]
  change ∃ root σ'' t', (if updated = [] then _ else _) = _ ∧ _
  by_cases hnil : updated = []
  · have hmm : m = m' := funext fun key => hsame key (by rw [← hsame', hnil]; exact List.not_mem_nil)
    rw [if_pos hnil]
    exact ⟨_,_,t,rfl,hσ.store hC hn (SmtCodec.rootAt_only honly) hdata (hmm ▸ hσ.tree) hstored,
      .storeRoot hC⟩
  · have hne' : ∃ key, m key ≠ none := by
      refine hne.resolve_left fun hkeys => hnil ?_
      rw [List.eq_nil_iff_forall_not_mem]
      intro key hkey
      rw [hsame', hkeys] at hkey
      cases hkey
    obtain ⟨t',σ'',hrun,htree,hdata',hfinds,hgrows,hroots⟩ := computeIncremental_spec hI hC hP hsep hPK
      hdata hh hlen hσ.tree hm hne' hstored (fun key hkey => hkeys key ((hsame' key).mp hkey))
      fun key hkey => hsome key ((hsame' key).mp hkey)
    rw [putValues_latest (fun key hkey => hsame key fun h => hkey ((hsame' key).mpr h))
      fun key hkey => hsome key ((hsame' key).mp hkey)] at htree
    rw [if_neg hnil, hrun]
    exact ⟨_,_,t',rfl,hσ.store hC hn (hroots.trans (SmtCodec.rootAt_only honly)) hdata' htree hfinds,
      hgrows.trans (.storeRoot hC)⟩

/-- A call that reads its tree leaves the tree of the values after it, and all earlier ones. -/
theorem HoldsTree.call (hI : H.Ideal) (hC : C.Lawful) (hP : C.Apart P) (hsep : Separated H K)
    (hPK : P ⊆ K) (hσ : HoldsTree C H P σ hist m t next) (hn : next ≤ c.height) (hh : c.height < 2^32)
    (hm : ∀ key, m key ≠ none → key ∈ P) (hkv : ∀ kv ∈ c.keyValues, kv.1 ∈ P)
    (hlen : ∀ key, (putHistories hist c.height c.keyValues key).length ≤ 2^31)
    (hreads : CallReads H (C.nodesIn σ) m c) :
    ∃ σ' t', runCall C H σ c = .ok σ' ∧ C.Grows H c.height σ σ' ∧
      HoldsTree C H P σ' (putHistories hist c.height c.keyValues) (putValues m c.keyValues) t'
        (c.height+1) := by
  obtain ⟨σ1,hput,honly,hrec⟩ := (hσ.data.records.mono (by omega : next ≤ c.height+1)).putPairs hkv
    fun key => lt_of_le_of_lt (hlen key) (by decide)
  have hdata : C.HoldsData H P σ1 _ _ _ := ⟨hrec,hσ.data.nodes.congr (hP.nodeKey honly)⟩
  have hkeys : ∀ key ∈ c.keyValues.map Prod.fst, key ∈ P := by
    intro key hkey
    obtain ⟨kv,hmem,rfl⟩ := List.mem_map.mp hkey
    exact hkv kv hmem
  have hsome : ∀ key ∈ c.keyValues.map Prod.fst, putValues m c.keyValues key ≠ none :=
    fun key hkey => putValues_ne_none (.inl hkey)
  have hsame : ∀ key, key ∉ c.keyValues.map Prod.fst → m key = putValues m c.keyValues key :=
    fun key hkey => (putValues_of_not_mem hkey).symm
  rw [CallReads] at hreads
  rw [runCall, hput]
  change ∃ σ' t', (c.calculate C H σ1 >>= fun x => Except.ok x.2) = _ ∧ _
  rw [RootCall.calculate]
  split_ifs at hreads ⊢ with hb
  · obtain ⟨root,σ',t',hrun,hholds,hgrows⟩ := hσ.callBatched hI hC hP hsep hPK hn hh hm honly hdata hlen
      hkeys hsome hsame (hreads t hσ.tree)
    rw [hrun]
    exact ⟨σ',t',rfl,(SmtCodec.Grows.only hP honly).trans hgrows,hholds⟩
  · obtain ⟨root,σ',t',hrun,hholds,hgrows⟩ := hσ.callIncremental hI hC hP hsep hPK hn hh hm honly hdata
      hlen hkeys hsome hsame (fun key => (mem_putHistories_iff fun key e he =>
        lt_of_lt_of_le (hσ.data.records.below key e he) hn).symm)
      (hreads.imp_left fun h => by rw [h]; rfl)
    rw [hrun]
    exact ⟨σ',t',rfl,(SmtCodec.Grows.only hP honly).trans hgrows,hholds⟩

theorem putValues_mem {keyValues : List (Bytes × Bytes)} (hm : ∀ key, m key ≠ none → key ∈ K)
    (hK : ∀ kv ∈ keyValues, kv.1 ∈ K) : ∀ key, putValues m keyValues key ≠ none → key ∈ K := by
  intro key hkey
  by_cases hmem : key ∈ keyValues.map Prod.fst
  · obtain ⟨kv,hkv,rfl⟩ := List.mem_map.mp hmem
    exact hK kv hkv
  · rw [putValues_of_not_mem hmem] at hkey
    exact hm key hkey

end Runs

/-- The values after a run of calls. -/
def valuesAfter : Values → List RootCall → Values
  | m, [] => m
  | m, c::calls => valuesAfter (putValues m c.keyValues) calls

/-- The values put at heights up to `h`. -/
def valuesUpTo (h : Nat) (calls : List RootCall) : Values :=
  valuesAfter (fun _ => none) (calls.filter fun c => c.height ≤ h)

/-- How often the calls update a key. -/
def putCount (key : Bytes) (calls : List RootCall) : Nat :=
  (calls.flatMap fun c => updatesOf key c.keyValues).length

/-- The keys that the calls put. -/
def putKeys (calls : List RootCall) : Set Bytes := {key | ∃ c ∈ calls, ∃ kv ∈ c.keyValues, kv.1 = key}

/-- A run of calls over keys of `K` at increasing heights, each of which reads the tree of the values
before it. No key that is put has a record with the name of a node. -/
structure RootRun {δ : Type} [DecidableEq δ] (C : SmtCodec δ) (H : SmtHash δ) (K : Set Bytes)
    (calls : List RootCall) : Prop where
  keys : putKeys calls ⊆ K
  apart : C.Apart (putKeys calls)
  heights : ∀ c ∈ calls, c.height < 2^32
  increasing : calls.Pairwise fun c c' => c.height < c'.height
  counts : ∀ key, putCount key calls ≤ 2^31
  reads : CallsRead C H ∅ (fun _ => none) calls

section Claims

variable {δ : Type} [DecidableEq δ] {C : SmtCodec δ} {H : SmtHash δ} {σ : Store}
  {hist : Bytes → History Nat Bytes} {m : Values} {t : Trie Entry} {next : Nat} {K P : Set Bytes}
  {c : RootCall} {calls : List RootCall}

/-- After a run the root of every height stands for the values up to there, and its tree is stored. -/
theorem runCalls_roots (hI : H.Ideal) (hC : C.Lawful) (hP : C.Apart P) (hsep : Separated H K) (hPK : P ⊆ K)
    (hσ : HoldsTree C H P σ hist m t next) (hm : ∀ key, m key ≠ none → key ∈ P)
    (hkv : ∀ c ∈ calls, ∀ kv ∈ c.keyValues, kv.1 ∈ P)
    (hheights : ∀ c ∈ calls, next ≤ c.height ∧ c.height < 2^32)
    (hincreasing : calls.Pairwise fun c c' => c.height < c'.height)
    (hlen : ∀ key, (hist key).length+putCount key calls ≤ 2^31) (hreads : CallsRead C H σ m calls) :
    ∃ σ', runCalls C H σ calls = .ok σ' ∧ C.HoldsNodes H σ' ∧
      (∀ i, (∀ c ∈ calls, c.height ≠ i) → C.rootAt σ' i = C.rootAt σ i) ∧
      (∀ ns, Finds H (C.nodesIn σ) ns → Finds H (C.nodesIn σ') ns) ∧
      ∀ h, (∃ c ∈ calls, c.height ≤ h) → ∃ t',
        SMTHelper.rootAtOrBelow (C.rootAt σ') h = some (digest H t') ∧
        HoldsValues H (valuesAfter m (calls.filter fun c => c.height ≤ h)) t' ∧
        Finds H (C.nodesIn σ') (nodesOf H t') := by
  induction calls generalizing σ hist m t next with
  | nil => exact ⟨σ,rfl,hσ.data.nodes,fun _ _ => rfl,fun _ hn => hn,fun h hc => by simp at hc⟩
  | cons c calls ih =>
    obtain ⟨hn,hh⟩ := hheights c List.mem_cons_self
    obtain ⟨hlt,hincreasing⟩ := List.pairwise_cons.mp hincreasing
    have hcount : ∀ key, (putHistories hist c.height c.keyValues key).length+putCount key calls =
        (hist key).length+putCount key (c::calls) := by
      intro key
      rw [putHistories, putCount, putCount, List.flatMap_cons, List.length_append, List.length_append,
        List.length_map]
      omega
    have hkv' := hkv c List.mem_cons_self
    obtain ⟨σ1,t1,hrun,hgrows,h1⟩ := hσ.call hI hC hP hsep hPK hn hh hm hkv'
      (fun key => by have := hcount key; have := hlen key; omega) hreads.1
    obtain ⟨σ',hrest,hnodes,hroots,hstored,hup⟩ := ih h1 (putValues_mem hm hkv')
      (fun x hx => hkv x (List.mem_cons_of_mem _ hx))
      (fun x hx => ⟨hlt x hx,(hheights x (List.mem_cons_of_mem _ hx)).2⟩) hincreasing
      (fun key => (hcount key).trans_le (hlen key)) (hreads.2 σ1 hrun)
    refine ⟨σ',by rw [runCalls, hrun]; exact hrest,hnodes,?_,fun ns hns => hstored ns (hgrows.nodes ns hns),?_⟩
    · intro i hi
      rw [hroots i fun x hx => hi x (List.mem_cons_of_mem _ hx)]
      exact hgrows.roots i (hi c List.mem_cons_self).symm
    · rintro h ⟨x,hx,hxh⟩
      have hch : c.height ≤ h := by
        rcases List.mem_cons.mp hx with rfl | hx
        · exact hxh
        · exact (hlt x hx).le.trans hxh
      rw [List.filter_cons_of_pos (by simpa using hch), valuesAfter]
      by_cases hlater : ∃ x ∈ calls, x.height ≤ h
      · exact hup h hlater
      · -- no later call has written up to `h`
        push Not at hlater
        have hnil : (calls.filter fun x => decide (x.height ≤ h)) = [] := by
          rw [List.filter_eq_nil_iff]
          intro x hx
          simpa using hlater x hx
        have hroot : C.rootAt σ' c.height = some (digest H t1) := by
          rw [hroots _ fun x hx => (hlt x hx).ne']
          obtain ⟨hzero,_⟩ | ⟨r,hr,hroot⟩ := h1.root
          · omega
          · obtain rfl : c.height = r := by omega
            exact hroot
        have hnone : ∀ i, c.height < i → i ≤ h → C.rootAt σ' i = none := by
          intro i hi hih
          rw [hroots i fun x hx => (hih.trans_lt (hlater x hx)).ne']
          exact h1.unwritten i hi
        refine ⟨t1,rootAtOrBelow_last hroot hnone hch,?_,hstored _ h1.stored⟩
        rw [hnil]
        exact h1.tree

theorem valuesAfter_mem (hm : ∀ key, m key ≠ none → key ∈ P)
    (hkv : ∀ c ∈ calls, ∀ kv ∈ c.keyValues, kv.1 ∈ P) : ∀ key, valuesAfter m calls key ≠ none → key ∈ P := by
  induction calls generalizing m with
  | nil => exact hm
  | cons c calls ih =>
    exact ih (putValues_mem hm (hkv c List.mem_cons_self)) fun x hx => hkv x (List.mem_cons_of_mem _ hx)

theorem RootRun.valuesUpTo_mem (hrun : RootRun C H K calls) (h : Nat) :
    ∀ key, valuesUpTo h calls key ≠ none → key ∈ K :=
  valuesAfter_mem (fun _ hkey => absurd rfl hkey)
    fun c hc kv hkv => hrun.keys ⟨c,(List.mem_filter.mp hc).1,kv,hkv,rfl⟩

/-- From the empty database. -/
theorem RootRun.roots (hI : H.Ideal) (hC : C.Lawful) (hsep : Separated H K) (hrun : RootRun C H K calls) :
    ∃ σ, runCalls C H ∅ calls = .ok σ ∧ C.HoldsNodes H σ ∧ ∀ h, (∃ c ∈ calls, c.height ≤ h) →
      ∃ t, C.getSmtRootAtHeight σ h = .ok (digest H t) ∧ HoldsValues H (valuesUpTo h calls) t ∧
        Finds H (C.nodesIn σ) (nodesOf H t) := by
  obtain ⟨σ,hσ,hnodes,_,_,hup⟩ := runCalls_roots hI hC hrun.apart hsep hrun.keys .empty
    (fun key hkey => absurd rfl hkey) (fun c hc kv hkv => ⟨c,hc,kv,hkv,rfl⟩)
    (fun c hc => ⟨Nat.zero_le _,hrun.heights c hc⟩) hrun.increasing
    (fun key => by rw [List.length_nil, Nat.zero_add]; exact hrun.counts key) hrun.reads
  refine ⟨σ,hσ,hnodes,fun h hc => ?_⟩
  obtain ⟨t,hroot,ht,hstored⟩ := hup h hc
  exact ⟨t,by rw [SmtCodec.getSmtRootAtHeight, hroot],ht,hstored⟩

theorem CallsRead.take (h : CallsRead C H σ m calls) (n : Nat) : CallsRead C H σ m (calls.take n) := by
  induction calls generalizing σ m n with
  | nil => simpa using h
  | cons c calls ih =>
    cases n with
    | zero => exact trivial
    | succ n => exact ⟨h.1,fun σ' hσ' => ih (h.2 σ' hσ') n⟩

theorem putKeys_take (n : Nat) : putKeys (calls.take n) ⊆ putKeys calls := by
  rintro key ⟨c,hc,h⟩
  exact ⟨c,List.mem_of_mem_take hc,h⟩

theorem putCount_take (key : Bytes) (n : Nat) : putCount key (calls.take n) ≤ putCount key calls :=
  ((List.take_sublist n calls).flatMap _).length_le

theorem RootRun.take (hrun : RootRun C H K calls) (n : Nat) : RootRun C H K (calls.take n) where
  keys := (putKeys_take n).trans hrun.keys
  apart := ⟨fun key hk => hrun.apart.short key (putKeys_take n hk),
    fun key hk => hrun.apart.names key (putKeys_take n hk)⟩
  heights c hc := hrun.heights c (List.mem_of_mem_take hc)
  increasing := hrun.increasing.sublist (List.take_sublist n calls)
  counts key := (putCount_take key n).trans (hrun.counts key)
  reads := hrun.reads.take n

theorem RootRun.valuesUpTo_take (hrun : RootRun C H K calls) {n : Nat} (hc : calls[n]? = some c) :
    valuesUpTo c.height (calls.take (n+1)) = valuesAfter (fun _ => none) (calls.take (n+1)) := by
  have hall : (calls.take (n+1)).filter (fun x => decide (x.height ≤ c.height)) = calls.take (n+1) := by
    rw [List.filter_eq_self]
    intro x hx
    obtain ⟨i,hi,rfl⟩ := List.mem_take_iff_getElem.mp hx
    obtain ⟨hn,rfl⟩ := List.getElem?_eq_some_iff.mp hc
    rw [decide_eq_true_iff]
    rcases Nat.lt_or_eq_of_le (show i ≤ n by omega) with hlt | rfl
    · exact (List.pairwise_iff_getElem.mp hrun.increasing i n (by omega) hn hlt).le
    · exact le_rfl
  rw [valuesUpTo, hall]

/-- In a run of calls at increasing heights that read their trees, after each call the stored root
finds exactly what was inserted. -/
theorem tree_holds_inserted (hI : H.Ideal) (hC : C.Lawful) (hsep : Separated H K)
    (hrun : RootRun C H K calls) :
    ∀ n c, calls[n]? = some c → ∃ σ, runCalls C H ∅ (calls.take (n+1)) = .ok σ ∧
      HoldsLatest C H K σ c.height (valuesAfter (fun _ => none) (calls.take (n+1))) := by
  intro n c hc
  have hmem : c ∈ calls.take (n+1) := by
    obtain ⟨hn,rfl⟩ := List.getElem?_eq_some_iff.mp hc
    exact List.mem_take_iff_getElem.mpr ⟨n,by omega,rfl⟩
  obtain ⟨σ,hσ,hnodes,hroots⟩ := (hrun.take (n+1)).roots hI hC hsep
  obtain ⟨t,hroot,ht,hstored⟩ := hroots c.height ⟨c,hmem,le_rfl⟩
  have hm := (hrun.take (n+1)).valuesUpTo_mem c.height
  rw [hrun.valuesUpTo_take hc] at ht hm
  exact ⟨σ,hσ,digest H t,hroot,fun key hkey => getSmtLeaf_spec hI hC hnodes ht hstored hsep hm hkey⟩

end Claims

/-- Bytes with their length in front, counted in ones. -/
def framed (bs : Bytes) : Bytes := List.replicate bs.length 1 ++ 0::bs

def unframe (data : Bytes) : Bytes × Bytes :=
  let len := (data.takeWhile (· == 1)).length
  ((data.drop (len+1)).take len,(data.drop (len+1)).drop len)

theorem unframe_framed (bs rest : Bytes) : unframe (framed bs ++ rest) = (bs,rest) := by
  have hones : ((framed bs ++ rest).takeWhile (· == 1)) = List.replicate bs.length 1 := by
    rw [framed, List.append_assoc, List.takeWhile_append_of_pos (by simp)]
    simp
  have hdrop : (framed bs ++ rest).drop (bs.length+1) = bs ++ rest := by
    rw [framed, List.append_assoc, ← List.drop_drop, List.drop_left' List.length_replicate]
    rfl
  rw [unframe, hones, List.length_replicate, hdrop, List.take_left, List.drop_left]

/-- A node as one byte string. -/
def encodeNode : SMTNode Bytes → Bytes
  | .internal leftChild rightChild => 0::(framed leftChild ++ rightChild)
  | .leaf key valueIndex => 1::(framed key ++ valueIndex.toList)

def decodeNode : Bytes → Except Fault (SMTNode Bytes)
  | [] => .error (.message "Empty node data")
  | tag::data =>
    let parts := unframe data
    if tag = 0 then .ok (.internal parts.1 parts.2)
    else if tag = 1 then do return .leaf parts.1 (← copyFromSlice parts.2)
    else .error (.message "Invalid node type")

theorem decodeNode_encodeNode (node : SMTNode Bytes) : decodeNode (encodeNode node) = .ok node := by
  cases node with
  | internal leftChild rightChild => simp [encodeNode, decodeNode, unframe_framed]
  | leaf key valueIndex =>
    rw [encodeNode, decodeNode, unframe_framed, if_neg (by decide), if_pos rfl, copyFromSlice_toList]
    rfl

/-- Nodes as their own hashes. -/
def plainHash : SmtHash Bytes where
  hashKey := termHash.hashKey
  hashValue := termHash.hashValue
  hashNode := encodeNode
  empty := []

def plainSmtCodec : SmtCodec Bytes where
  hashBytes nodeHash := nodeHash
  readHash := some
  serializeNode := encodeNode
  deserializeNode := decodeNode

theorem plainHash_ideal : plainHash.Ideal where
  injective n n' h := by
    have hdecode := congrArg decodeNode (show encodeNode n = encodeNode n' from h)
    rw [decodeNode_encodeNode, decodeNode_encodeNode] at hdecode
    exact Except.ok.inj hdecode
  ne_empty n h := by
    cases n <;> cases h

theorem plainSmtCodec_lawful : plainSmtCodec.Lawful where
  readHash _ := rfl
  deserializeNode node _ := decodeNode_encodeNode node
  parseU32 node := by
    cases node <;> rfl

/-- The name of a record starts as its key does. -/
theorem KeyName.head {b : UInt8} {bs name : Bytes} (h : KeyName (b::bs) name) : name.head? = some b := by
  obtain rfl | ⟨i,rfl⟩ := h <;> rfl

theorem pair_apart {P : Set Bytes} (hP : P ⊆ {[1],[128]}) : plainSmtCodec.Apart P where
  short key hk := by
    obtain rfl | rfl := hP hk <;> decide
  names key hk nodeHash hname := by
    obtain rfl | rfl := hP hk <;> cases hname.head

theorem pair_separated_plain : Separated plainHash {[1],[128]} := pair_separated

/-- A first key in a batched call, then two keys in an incremental one. -/
def twoCalls : List RootCall := [⟨0,[([1],[7])],true⟩,⟨1,[([128],[8]),([1],[9])],false⟩]

theorem twoCalls_run : RootRun plainSmtCodec plainHash {[1],[128]} twoCalls := by
  have hkeys : putKeys twoCalls ⊆ {[1],[128]} := by
    rintro key ⟨c,hc,kv,hkv,rfl⟩
    simp only [twoCalls, List.mem_cons, List.not_mem_nil, or_false] at hc
    obtain rfl | rfl := hc <;> simp at hkv
    · exact .inl (congrArg Prod.fst hkv)
    · obtain rfl | rfl := hkv
      · exact .inr rfl
      · exact .inl rfl
  refine ⟨hkeys,pair_apart hkeys,by decide,by decide,?_,?_⟩
  · intro key
    have h1 := updatesOf_length_le key [([1],[7])]
    have h2 := updatesOf_length_le key [([128],[8]),([1],[9])]
    simp only [putCount, twoCalls, List.flatMap_cons, List.flatMap_nil, List.length_append,
      List.length_cons, List.length_nil] at *
    omega
  · refine ⟨fun t ht => ?_,fun _ _ => ⟨.inr ⟨[1],by decide⟩,fun _ _ => trivial⟩⟩
    obtain rfl : t = .empty := ht.unique .empty
    exact ⟨fun n hn => absurd hn List.not_mem_nil,fun t' _ => trivial⟩

theorem tree_holds_inserted_two_calls : ∃ σ, runCalls plainSmtCodec plainHash ∅ twoCalls = .ok σ ∧
    HoldsLatest plainSmtCodec plainHash {[1],[128]} σ 1 (valuesAfter (fun _ => none) twoCalls) :=
  tree_holds_inserted plainHash_ideal plainSmtCodec_lawful pair_separated_plain twoCalls_run 1 _ rfl

/-- A value whose hash ends in the index of a first update. -/
def slashed : Bytes := List.replicate 30 7 ++ [47,48]

/-- The key whose first update has the name of the leaf of `[1]` with that value. -/
def leafName : Bytes :=
  (plainSmtCodec.nodeKey (plainHash.hashNode (newLeaf plainHash [1] slashed))).dropLast.dropLast

/-- A first leaf that is then overwritten by an update of another key. -/
def collidingCalls : List RootCall := [⟨0,[([1],slashed)],true⟩,⟨1,[(leafName,[8])],true⟩]

/-- An incremental call does not write the first leaf, a batched one does not find it, and after a key
with the name of the leaf the next call fails. -/
theorem tree_loses_first_leaf :
    (¬∃ σ, runCalls plainSmtCodec plainHash ∅ [⟨0,[([1],[7])],false⟩] = .ok σ ∧
      HoldsLatest plainSmtCodec plainHash {[1]} σ 0 (valuesAfter (fun _ => none) [⟨0,[([1],[7])],false⟩])) ∧
    (¬∃ σ, runCalls plainSmtCodec plainHash ∅ [⟨0,[([1],[7]),([128],[8])],true⟩] = .ok σ ∧
      HoldsLatest plainSmtCodec plainHash {[1],[128]} σ 0
        (valuesAfter (fun _ => none) [⟨0,[([1],[7]),([128],[8])],true⟩])) ∧
    ¬∃ σ, runCalls plainSmtCodec plainHash ∅ collidingCalls = .ok σ ∧
      HoldsLatest plainSmtCodec plainHash {[1],leafName} σ 1 (valuesAfter (fun _ => none) collidingCalls) := by
  -- a run after which the root gives no leaf of the first key
  have hmissing : ∀ calls K m v, m [1] = some v → [1] ∈ K →
      (runCalls plainSmtCodec plainHash ∅ calls).toOption.any (fun σ =>
        (plainSmtCodec.getSmtRootAtHeight σ 0).toOption.any fun root =>
          (plainSmtCodec.getSmtLeaf plainHash σ root (plainHash.hashKey [1])).toOption ==
            some none) = true →
      ¬∃ σ, runCalls plainSmtCodec plainHash ∅ calls = .ok σ ∧ HoldsLatest plainSmtCodec plainHash K σ 0 m := by
    intro calls K m v hv hK h
    rintro ⟨σ,hrun,root,hroot,hleaf⟩
    rw [hrun] at h
    simp only [Except.toOption, Option.any_some, hroot, hleaf [1] hK, hv] at h
    cases h
  refine ⟨hmissing _ _ _ [7] rfl rfl (by decide +kernel),hmissing _ _ _ [7] (by decide) (.inl rfl)
    (by decide +kernel),?_⟩
  rintro ⟨σ,hrun,_⟩
  have hfails : (runCalls plainSmtCodec plainHash ∅ collidingCalls).toOption.isNone = true := by
    decide +kernel
  rw [hrun] at hfails
  cases hfails

end Metashrew
