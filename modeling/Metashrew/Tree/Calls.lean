import Metashrew.Ledger.Heights
import Metashrew.Tree.Canonical

namespace Metashrew

open Bytes Versioned

namespace SMTHelper

variable {δ : Type}

def put (σ : Store) (key value : Bytes) (height : Nat) : Except Fault Store := do
  let st ← appendUpdate (rocksDB σ) height ⟨[],∅⟩ (key,value)
  return KV.write σ st.batch

/-- The root of a height, or of the closest one below. -/
def rootAtOrBelow (roots : Nat → Option δ) : Nat → Option δ
  | 0 => roots 0
  | height+1 => (roots (height+1)).or (rootAtOrBelow roots height)

/-- The values of the keys at a height; a key without one is skipped. -/
def valuesAtHeight (records : Store) (height : Nat) : List Bytes → Except Fault (List (Bytes × Bytes))
  | [] => .ok []
  | key::keys => do
    let value ← getAtHeight (rocksDB records) key height
    let rest ← valuesAtHeight records height keys
    match value with
    | some value => return (key,value)::rest
    | none => return rest

/-- One key after the other, each written before the next is read; the nodes stand for themselves. -/
def computeIncrementalSmtRoot [DecidableEq δ] (H : SmtHash δ) (records : Store) (height : Nat) :
    NodeStore δ → δ → List Bytes → Except Fault (δ × NodeStore δ)
  | nodes, workingRoot, [] => .ok (workingRoot,nodes)
  | nodes, workingRoot, key::keys => do
    match ← getAtHeight (rocksDB records) key height with
    | none => computeIncrementalSmtRoot H records height nodes workingRoot keys
    | some value =>
      let (workingRoot,nodes) ← updateSmtForKey H nodes workingRoot key value
      computeIncrementalSmtRoot H records height nodes workingRoot keys

end SMTHelper

def putPairs (height : Nat) : Store → List (Bytes × Bytes) → Except Fault Store
  | σ, [] => .ok σ
  | σ, kv::keyValues => do putPairs height (← SMTHelper.put σ kv.1 kv.2 height) keyValues

/-- The values after a list of pairs. -/
def putValues : Values → List (Bytes × Bytes) → Values
  | m, [] => m
  | m, kv::keyValues => putValues (Function.update m kv.1 (some kv.2)) keyValues

/-- The histories after a list of pairs at a height. -/
def putHistories (hist : Bytes → History Nat Bytes) (height : Nat) (keyValues : List (Bytes × Bytes)) :
    Bytes → History Nat Bytes :=
  fun key => hist key ++ (updatesOf key keyValues).map fun v => (height,v)

/-- The records of the keys `K`, with the values they have and the height they stay below. No other key
has a length. -/
structure HoldsRecords (σ : Store) (K : Set Bytes) (hist : Bytes → History Nat Bytes) (m : Values)
    (next : Nat) : Prop where
  records : ∀ key ∈ K, HasHistory σ key (hist key)
  others : ∀ key ∉ K, lengthOf σ key = 0
  ordered : ∀ key, Ordered (hist key)
  below : ∀ key, ∀ e ∈ hist key, e.1 < next
  values : ∀ key, m key = (hist key).getLast?.map Prod.snd

/-- Only records of the keys have changed. -/
def OnlyKeys (K : Set Bytes) (σ σ' : Store) : Prop :=
  ∀ name, (∀ key ∈ K, ¬KeyName key name) → KV.get σ' name = KV.get σ name

section Records

variable {σ σ' : Store} {K : Set Bytes} {hist : Bytes → History Nat Bytes} {m : Values}
  {next h : Nat} {key : Bytes} {keyValues : List (Bytes × Bytes)}

theorem HoldsRecords.empty : HoldsRecords ∅ K (fun _ => []) (fun _ => none) 0 where
  records _ _ := HoldsHistories.empty.hasHistory (.inr rfl)
  others key _ := by
    rw [lengthOf, KV.get_empty]
    rfl
  ordered _ := .nil
  below _ _ he := absurd he List.not_mem_nil
  values _ := rfl

theorem HoldsRecords.mono (hσ : HoldsRecords σ K hist m next) (hn : next ≤ h) :
    HoldsRecords σ K hist m h where
  records := hσ.records
  others := hσ.others
  ordered := hσ.ordered
  below key e he := lt_of_lt_of_le (hσ.below key e he) hn
  values := hσ.values

/-- Another store with the same records of the keys. -/
theorem HoldsRecords.congr (hσ : HoldsRecords σ K hist m next)
    (hkeys : ∀ key ∈ K, ∀ name, KeyName key name → KV.get σ' name = KV.get σ name)
    (hothers : ∀ key ∉ K, lengthOf σ' key = 0) : HoldsRecords σ' K hist m next where
  records key hk := by
    constructor
    · rw [hkeys key hk _ (.inl rfl), (hσ.records key hk).length]
    · intro i hi
      rw [hkeys key hk _ (.inr ⟨i,rfl⟩), (hσ.records key hk).update i hi]
  others := hothers
  ordered := hσ.ordered
  below := hσ.below
  values := hσ.values

theorem put_lengthOf (σ : Store) (key value : Bytes) (h : Nat) :
    SMTHelper.put σ key value h =
      if lengthOf σ key+1<2^32 then .ok (KV.write σ
        [.put (updateKey key (lengthOf σ key)) (formatUpdate h value),
          .put (lengthKey key) (decimal (lengthOf σ key+1))])
      else .error (.panic "attempt to add with overflow") := by
  have hlen : currentLength (rocksDB σ) ⟨[],∅⟩ key = .ok (lengthOf σ key) := by
    rw [currentLength, KV.get_empty, lengthOf]
    show (Except.ok (KV.get σ (lengthKey key))).bind _ = _
    cases KV.get σ (lengthKey key) <;> rfl
  rw [SMTHelper.put, appendUpdate, hlen]
  show ((addU32 (lengthOf σ key) 1).bind _).bind _ = _
  rw [addU32]
  split_ifs <;> rfl

theorem put_names (key value : Bytes) (n l : Nat) :
    ∀ op ∈ [(.put (updateKey key n) value : Op),.put (lengthKey key) (decimal l)], KeyName key op.key := by
  intro op hop
  simp only [List.mem_cons, List.not_mem_nil, or_false] at hop
  obtain rfl | rfl := hop
  · exact .inr ⟨n,rfl⟩
  · exact .inl rfl

/-- A pair that is put is the latest update of its key. -/
theorem HoldsRecords.put (hσ : HoldsRecords σ K hist m (h+1)) (hk : key ∈ K)
    (hlt : (hist key).length+1 < 2^32) (value : Bytes) :
    ∃ σ', SMTHelper.put σ key value h = .ok σ' ∧ OnlyKeys K σ σ' ∧
      HoldsRecords σ' K (Function.update hist key (hist key ++ [(h,value)]))
        (Function.update m key (some value)) (h+1) := by
  have hlen : lengthOf σ key = (hist key).length :=
    lengthOf_record (hσ.records key hk).length (by omega)
  refine ⟨_,by rw [put_lengthOf, hlen, if_pos hlt],?_,?_,?_,?_,?_,?_⟩
  · intro name hname
    apply KV.get_write_of_not_mem
    intro op hop he
    exact hname key hk (he ▸ put_names key _ _ _ op hop)
  · exact fun key' hk' => HasHistory.append (hσ.records key hk) (hσ.records key' hk') h value
  · intro key' hk'
    rw [lengthOf, HoldsHistories.get_length_append, if_neg (ne_of_mem_of_not_mem hk hk')]
    exact hσ.others key' hk'
  · intro key'
    by_cases he : key' = key
    · rw [he, Function.update_self]
      apply (hσ.ordered key).append (List.pairwise_singleton _ _)
      intro a ha b hb
      obtain rfl := List.mem_singleton.mp hb
      exact Nat.lt_succ_iff.mp (hσ.below key a ha)
    · rw [Function.update_of_ne he]
      exact hσ.ordered key'
  · intro key' e he
    by_cases hk' : key' = key
    · rw [hk', Function.update_self, List.mem_append, List.mem_singleton] at he
      obtain he | rfl := he
      · exact hσ.below key e he
      · exact Nat.lt_succ_self h
    · rw [Function.update_of_ne hk'] at he
      exact hσ.below key' e he
  · intro key'
    by_cases hk' : key' = key
    · rw [hk', Function.update_self, Function.update_self, List.getLast?_append]
      rfl
    · rw [Function.update_of_ne hk', Function.update_of_ne hk']
      exact hσ.values key'

theorem putHistories_cons (kv : Bytes × Bytes) : putHistories hist h (kv::keyValues) =
    putHistories (Function.update hist kv.1 (hist kv.1 ++ [(h,kv.2)])) h keyValues := by
  funext key
  rw [putHistories, putHistories, updatesOf_cons]
  by_cases hk : kv.1 = key
  · subst hk
    simp
  · rw [if_neg hk, Function.update_of_ne (Ne.symm hk)]

/-- The pairs of a call. -/
theorem HoldsRecords.putPairs (hσ : HoldsRecords σ K hist m (h+1)) (hK : ∀ kv ∈ keyValues, kv.1 ∈ K)
    (hlt : ∀ key, (putHistories hist h keyValues key).length < 2^32) :
    ∃ σ', putPairs h σ keyValues = .ok σ' ∧ OnlyKeys K σ σ' ∧
      HoldsRecords σ' K (putHistories hist h keyValues) (putValues m keyValues) (h+1) := by
  induction keyValues generalizing σ hist m with
  | nil =>
    refine ⟨σ,rfl,fun _ _ => rfl,?_⟩
    have hnil : putHistories hist h [] = hist := funext fun key => List.append_nil _
    rw [hnil]
    exact hσ
  | cons kv keyValues ih =>
    have hone : (hist kv.1).length+1 < 2^32 := by
      have hk := hlt kv.1
      rw [putHistories, updatesOf_cons, if_pos rfl, List.length_append, List.length_map,
        List.length_cons] at hk
      omega
    obtain ⟨σ1,hput,honly,h1⟩ := hσ.put (hK kv List.mem_cons_self) hone kv.2
    rw [putHistories_cons] at hlt ⊢
    obtain ⟨σ2,hrest,honly2,h2⟩ := ih h1 (fun x hx => hK x (List.mem_cons_of_mem _ hx)) hlt
    rw [Metashrew.putPairs, hput]
    exact ⟨σ2,hrest,fun name hn => (honly2 name hn).trans (honly name hn),h2⟩

/-- The value of a key at a height that no update is beyond. -/
theorem HoldsRecords.getAtHeight (hσ : HoldsRecords σ K hist m (h+1)) (hh : h < 2^32) (hk : key ∈ K)
    (hlt : (hist key).length ≤ 2^31) : getAtHeight (rocksDB σ) key h = .ok (m key) := by
  rw [Metashrew.getAtHeight, (hσ.records key hk).searchUpdates (hσ.ordered key)
    (fun e he => by have := hσ.below key e he; omega) hlt, asOf,
    upTo_of_le fun e he => Nat.lt_succ_iff.mp (hσ.below key e he), hσ.values]

end Records

end Metashrew
