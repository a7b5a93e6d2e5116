import Metashrew.Lib.Graft
import Metashrew.Tree.Refine

namespace Metashrew

open Bytes

/-- The values of the keys. -/
abbrev Values := Bytes → Option Bytes

/-- The tree has one leaf for each key with a value, on the path of the key. -/
structure HoldsValues {δ : Type} (H : SmtHash δ) (m : Values) (t : Trie Entry) : Prop where
  wellFormed : Trie.WellFormed (entryPath H) pathBit 0 t
  mem : ∀ e, Trie.Mem e t ↔ ∃ v, m e.1 = some v ∧ e.2 = H.hashValue v

/-- No two of the keys have hashes that agree on the first 255 bits. -/
def Separated {δ : Type} (H : SmtHash δ) (K : Set Bytes) : Prop :=
  ∀ k ∈ K, ∀ k' ∈ K, (∀ i < 255, pathBit (H.hashKey k) i = pathBit (H.hashKey k') i) → k = k'

/-- An insertion, and the node store it reads. -/
structure InsertStep (δ : Type) where
  nodes : NodeStore δ
  key : Bytes
  value : Bytes

/-- The values that a sequence of insertions leaves. -/
def valuesOf {δ : Type} : Values → List (InsertStep δ) → Values
  | m, [] => m
  | m, s::steps => valuesOf (Function.update m s.key (some s.value)) steps

section Steps

variable {δ : Type} [DecidableEq δ] (H : SmtHash δ)

/-- The insertions one after the other, with all leaves and nodes created so far. -/
def insertSteps : δ → List (SMTNode δ) → List (InsertStep δ) → Except Fault (δ × List (SMTNode δ))
  | root, created, [] => .ok (root,created)
  | root, created, s::steps => do
    let (newRoot,batch) ← SMTHelper.pathUpdateForKey H s.nodes root s.key s.value
    insertSteps newRoot (created ++ batch) steps

/-- Every insertion reads a store that holds every leaf and every node created so far. -/
def HoldsCreated (steps : List (InsertStep δ)) : Prop :=
  ∀ pre s post, steps = pre ++ s::post → ∀ root created,
    insertSteps H H.empty [] pre = .ok (root,created) → Finds H s.nodes created

end Steps

section Canonical

variable {δ : Type} [DecidableEq δ] {H : SmtHash δ} {m m' : Values} {t t' : Trie Entry}
  {K : Set Bytes} {k v : Bytes} {root : δ} {created : List (SMTNode δ)}
  {steps steps' : List (InsertStep δ)}

omit [DecidableEq δ] in
theorem HoldsValues.empty : HoldsValues H (fun _ => none) .empty :=
  ⟨.empty 0,fun e => by simp⟩

omit [DecidableEq δ] in
/-- Trees of the same values are equal. -/
theorem HoldsValues.unique (h : HoldsValues H m t) (h' : HoldsValues H m t') : t = t' :=
  h.wellFormed.unique h'.wellFormed fun e => (h.mem e).trans (h'.mem e).symm

omit [DecidableEq δ] in
/-- Different keys part before the last bit. -/
theorem Separated.parts (h : Separated H K) {k k' : Bytes} (hk : k ∈ K) (hk' : k' ∈ K)
    (hne : k ≠ k') : ∃ i, i+1 < 256 ∧ pathBit (H.hashKey k) i ≠ pathBit (H.hashKey k') i := by
  by_contra hall
  push Not at hall
  exact hne (h k hk k' hk' fun i hi => hall i (by omega))

omit [DecidableEq δ] in
theorem Separated.inj (h : Separated H K) {k k' : Bytes} (hk : k ∈ K) (hk' : k' ∈ K) :
    H.hashKey k = H.hashKey k' ↔ k = k' :=
  ⟨fun heq => h k hk k' hk' fun i _ => by rw [heq],fun heq => by rw [heq]⟩

omit [DecidableEq δ] in
theorem HoldsValues.mem_keys (h : HoldsValues H m t) (hm : ∀ k, m k ≠ none → k ∈ K) {e : Entry}
    (he : Trie.Mem e t) : e.1 ∈ K := by
  obtain ⟨w,hw,_⟩ := (h.mem e).mp he
  apply hm
  rw [hw]
  exact Option.some_ne_none w

omit [DecidableEq δ] in
/-- An insertion that succeeds sets the value of its key. -/
theorem HoldsValues.of_insert (h : HoldsValues H m t) (hinj : Set.InjOn H.hashKey K)
    (hm : ∀ k, m k ≠ none → k ∈ K) (hk : k ∈ K)
    (ht' : insertEntry H (k,H.hashValue v) 0 t = .ok t') :
    HoldsValues H (Function.update m k (some v)) t' := by
  obtain ⟨hwf,hmem⟩ := h.wellFormed.of_insert ht'
  refine ⟨hwf,fun e => ?_⟩
  rw [hmem]
  by_cases hek : e.1 = k
  · rw [hek, Function.update_self]
    constructor
    · rintro (rfl | ⟨_,hne⟩)
      · exact ⟨v,rfl,rfl⟩
      · exact absurd (congrArg H.hashKey hek) hne
    · rintro ⟨w,hw,hv⟩
      cases hw
      exact .inl (Prod.ext hek hv)
  · rw [Function.update_of_ne hek, ← h.mem]
    constructor
    · rintro (rfl | ⟨hmem,_⟩)
      · exact absurd rfl hek
      · exact hmem
    · intro hmem
      exact .inr ⟨hmem,fun heq => hek (hinj (h.mem_keys hm hmem) hk heq)⟩

omit [DecidableEq δ] in
/-- An insertion sets the value of its key. -/
theorem HoldsValues.insert (h : HoldsValues H m t) (hsep : Separated H K)
    (hm : ∀ k, m k ≠ none → k ∈ K) (hk : k ∈ K) (v : Bytes) :
    ∃ t', insertEntry H (k,H.hashValue v) 0 t = .ok t' ∧
      HoldsValues H (Function.update m k (some v)) t' := by
  obtain ⟨t',ht'⟩ : ∃ t', insertEntry H (k,H.hashValue v) 0 t = .ok t' := by
    apply h.wellFormed.insert (by decide)
    · intro b _ i hi
      exact absurd hi (Nat.not_lt_zero i)
    · intro b hb hne
      exact hsep.parts hk (h.mem_keys hm hb) fun heq => hne (congrArg H.hashKey heq.symm)
  refine ⟨t',ht',h.of_insert ?_ hm hk ht'⟩
  exact fun a ha b hb => (hsep.inj ha hb).mp

/-- One insertion over a store that has the tree. -/
theorem SMTHelper.pathUpdateForKey_holds (hI : H.Ideal) (h : HoldsValues H m t)
    (hsep : Separated H K) (hm : ∀ k, m k ≠ none → k ∈ K) (hk : k ∈ K) {nodes : NodeStore δ}
    (hget : Finds H nodes (nodesOf H t)) :
    ∃ t' batch, pathUpdateForKey H nodes (digest H t) k v = .ok (digest H t',batch) ∧
      HoldsValues H (Function.update m k (some v)) t' ∧
      ∀ n ∈ nodesOf H t', n ∈ nodesOf H t ∨ n ∈ batch := by
  obtain ⟨t',ht',hrep⟩ := h.insert hsep hm hk v
  have hins := pathUpdateForKey_inserts k v hI (keyed_of_finds hget) (reads_of_finds hget)
  rw [ht'] at hins
  obtain ⟨batch,hbatch,hnodes⟩ := hins
  refine ⟨t',batch,hbatch,hrep,fun n hn => ?_⟩
  obtain h | rfl | h := hnodes n hn
  · exact .inl h
  · exact .inr (updateForKey_leaf hbatch)
  · exact .inr h

/-- A run of insertions over stores that have the nodes created so far ends at the tree of the values
it leaves. -/
theorem insertSteps_holds (hI : H.Ideal) (hsep : Separated H K) (h : HoldsValues H m t)
    (hm : ∀ k, m k ≠ none → k ∈ K) (hcreated : ∀ n ∈ nodesOf H t, n ∈ created)
    (hK : ∀ s ∈ steps, s.key ∈ K)
    (hholds : ∀ pre s post, steps = pre ++ s::post → ∀ root' created',
      insertSteps H (digest H t) created pre = .ok (root',created') → Finds H s.nodes created') :
    ∃ t' created', insertSteps H (digest H t) created steps = .ok (digest H t',created') ∧
      HoldsValues H (valuesOf m steps) t' := by
  induction steps generalizing m t created with
  | nil => exact ⟨t,created,rfl,h⟩
  | cons s steps ih =>
    have hget : Finds H s.nodes (nodesOf H t) := fun n hn =>
      hholds [] s steps rfl _ _ rfl n (hcreated n hn)
    have hs := hK s List.mem_cons_self
    obtain ⟨t',batch,hrun,hrep,hnodes⟩ :=
      SMTHelper.pathUpdateForKey_holds hI h hsep hm hs (v := s.value) hget
    rw [insertSteps, hrun]
    apply ih hrep
    · intro k hk
      by_cases hks : k = s.key
      · rw [hks]
        exact hs
      · rw [Function.update_of_ne hks] at hk
        exact hm k hk
    · intro n hn
      rw [List.mem_append]
      exact (hnodes n hn).imp (hcreated n) id
    · intro s' hs'
      exact hK s' (List.mem_cons_of_mem _ hs')
    · intro pre s' post hpre root' created' hpre'
      apply hholds (s::pre) s' post (by rw [hpre, List.cons_append]) root' created'
      rw [insertSteps, hrun]
      exact hpre'

omit [DecidableEq δ] in
/-- A key that is inserted has a value. -/
theorem valuesOf_ne_none (h : m k ≠ none ∨ ∃ s ∈ steps, s.key = k) : valuesOf m steps k ≠ none := by
  induction steps generalizing m with
  | nil => exact h.resolve_right (by simp)
  | cons s steps ih =>
    rw [valuesOf]
    apply ih
    by_cases hk : k = s.key
    · left
      rw [hk, Function.update_self]
      exact Option.some_ne_none _
    · rw [Function.update_of_ne hk]
      obtain h | ⟨s',hs',hkey⟩ := h
      · exact .inl h
      · obtain rfl | hs' := List.mem_cons.mp hs'
        · exact absurd hkey.symm hk
        · exact .inr ⟨s',hs',hkey⟩

/-- Any two sequences of insertions that leave the same values end at the same root. -/
theorem state_root_canonical (hI : H.Ideal) (m : Values)
    (hsep : Separated H {k | m k ≠ none})
    (hm : valuesOf (fun _ => none) steps = m) (hm' : valuesOf (fun _ => none) steps' = m)
    (hholds : HoldsCreated H steps) (hholds' : HoldsCreated H steps') :
    ∃ root created created', insertSteps H H.empty [] steps = .ok (root,created) ∧
      insertSteps H H.empty [] steps' = .ok (root,created') := by
  have hrun : ∀ s : List (InsertStep δ), valuesOf (fun _ => none) s = m → HoldsCreated H s →
      ∃ t created, insertSteps H H.empty [] s = .ok (digest H t,created) ∧ HoldsValues H m t := by
    intro s hs hcreated
    have hkeys : ∀ x ∈ s, x.key ∈ {k | m k ≠ none} := by
      intro x hx
      rw [← hs]
      exact valuesOf_ne_none (.inr ⟨x,hx,rfl⟩)
    rw [← hs]
    exact insertSteps_holds hI hsep .empty (fun k hk => absurd rfl hk) (by simp [nodesOf]) hkeys
      hcreated
  obtain ⟨t,created,ht,hrep⟩ := hrun steps hm hholds
  obtain ⟨t',created',ht',hrep'⟩ := hrun steps' hm' hholds'
  rw [hrep'.unique hrep] at ht'
  exact ⟨digest H t,created,created',ht,ht'⟩

end Canonical

/-- Hashes as terms. -/
inductive HashTerm where
  | empty
  | internal (leftChild rightChild : HashTerm)
  | leaf (key : Bytes) (valueIndex : Hash32)
  deriving DecidableEq

def HashTerm.ofNode : SMTNode HashTerm → HashTerm
  | .internal leftChild rightChild => .internal leftChild rightChild
  | .leaf key valueIndex => .leaf key valueIndex

/-- Short keys and values as their own hashes. -/
def termHash : SmtHash HashTerm where
  hashKey key := Vector.ofFn fun i => key.getD i 0
  hashValue value := Vector.ofFn fun i => value.getD i 0
  hashNode := HashTerm.ofNode
  empty := .empty

theorem termHash_ideal : termHash.Ideal := by
  constructor
  · intro n n' h
    cases n <;> cases n' <;> cases h <;> rfl
  · intro n h
    cases n <;> cases h

/-- A store of all nodes. -/
def allNodes : NodeStore HashTerm
  | .empty => none
  | .internal leftChild rightChild => some (.internal leftChild rightChild)
  | .leaf key valueIndex => some (.leaf key valueIndex)

theorem allNodes_finds (ns : List (SMTNode HashTerm)) : Finds termHash allNodes ns := by
  intro n _
  cases n <;> rfl

/-- Two keys in one order, and in the other with the second one overwritten. -/
def twoKeys : List (InsertStep HashTerm) := [⟨allNodes,[1],[7]⟩,⟨allNodes,[128],[8]⟩]

def twoKeysBack : List (InsertStep HashTerm) :=
  [⟨allNodes,[128],[9]⟩,⟨allNodes,[1],[7]⟩,⟨allNodes,[128],[8]⟩]

theorem twoKeys_holds {steps : List (InsertStep HashTerm)} (h : ∀ s ∈ steps, s.nodes = allNodes) :
    HoldsCreated termHash steps := by
  rintro pre s post rfl root created _
  rw [h s (by simp)]
  exact allNodes_finds created

theorem pair_separated : Separated termHash {[1],[128]} := by
  intro k hk k' hk' h
  have h0 := h 0 (by decide)
  obtain rfl | rfl := hk <;> obtain rfl | rfl := hk'
  · rfl
  · exact absurd h0 (by decide)
  · exact absurd h0 (by decide)
  · rfl

theorem twoKeys_separated : Separated termHash {k | valuesOf (fun _ => none) twoKeys k ≠ none} := by
  have hkeys : ∀ k, valuesOf (fun _ => none) twoKeys k ≠ none → k ∈ ({[1],[128]} : Set Bytes) := by
    intro k hk
    by_contra hne
    rw [Set.mem_insert_iff, Set.mem_singleton_iff, not_or] at hne
    simp [twoKeys, valuesOf, Function.update_of_ne hne.1, Function.update_of_ne hne.2] at hk
  exact fun k hk k' hk' => pair_separated k (hkeys k hk) k' (hkeys k' hk')

theorem state_root_canonical_two_orders : ∃ root created created',
    insertSteps termHash .empty [] twoKeys = .ok (root,created) ∧
      insertSteps termHash .empty [] twoKeysBack = .ok (root,created') := by
  apply state_root_canonical termHash_ideal _ twoKeys_separated rfl
  · simp only [twoKeys, twoKeysBack, valuesOf]
    rw [Function.update_comm (by decide), Function.update_idem]
    exact Function.update_comm (by decide) _ _ _
  · exact twoKeys_holds (by simp [twoKeys])
  · exact twoKeys_holds (by simp [twoKeysBack])

end Metashrew
