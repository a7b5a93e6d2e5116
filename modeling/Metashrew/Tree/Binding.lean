import Metashrew.Tree.Holds

namespace Metashrew

open Bytes Versioned

/-- The same keys have values, and those of each have one hash. -/
def SameHashes {δ : Type} (H : SmtHash δ) (m m' : Values) : Prop :=
  ∀ key, (m key).map H.hashValue = (m' key).map H.hashValue

section Binding

variable {δ : Type} {H : SmtHash δ} {m m' : Values} {t t' : Trie Entry} {K : Set Bytes}
  {C : SmtCodec δ} {σ : Store} {nodes : NodeStore δ} {keyHash : Hash32} {d : Nat}

/-- Two trees are one exactly when the hashes of their values agree. -/
theorem HoldsValues.eq_iff (h : HoldsValues H m t) (h' : HoldsValues H m' t') :
    t = t' ↔ SameHashes H m m' := by
  constructor
  · rintro rfl key
    have hsub : ∀ {m m' : Values}, HoldsValues H m t → HoldsValues H m' t → ∀ v, m key = some v →
        (m' key).map H.hashValue = some (H.hashValue v) := by
      intro m m' h h' v hv
      have hmem : Trie.Mem (key,H.hashValue v) t := (h.mem _).mpr ⟨v,hv,rfl⟩
      obtain ⟨w,hw,heq⟩ := (h'.mem _).mp hmem
      have hw' : m' key = some w := hw
      have heq' : H.hashValue v = H.hashValue w := heq
      rw [hw', heq']
      rfl
    cases hv : m key with
    | some v => exact (hsub h h' v hv).symm
    | none =>
      cases hw : m' key with
      | none => rfl
      | some w =>
        have hback := hsub h' h w hw
        rw [hv] at hback
        cases hback
  · intro hsame
    refine h.wellFormed.unique h'.wellFormed fun e => ?_
    rw [h.mem, h'.mem]
    have hiff : ∀ m : Values, (∃ v, m e.1 = some v ∧ e.2 = H.hashValue v) ↔
        (m e.1).map H.hashValue = some e.2 := by
      intro m
      rw [Option.map_eq_some_iff]
      exact exists_congr fun v => and_congr_right fun _ => eq_comm
    rw [hiff, hiff, hsame]

variable [DecidableEq δ]

theorem NodeStore.Proper.getNode_eq (hI : H.Ideal) (hp : nodes.Proper H) (n : SMTNode δ) :
    getNode H nodes (H.hashNode n) = some n ∨ getNode H nodes (H.hashNode n) = none := by
  rw [getNode_hash hI]
  cases hn : nodes (H.hashNode n) with
  | none => exact .inr rfl
  | some n' => exact .inl (congrArg some (hI.injective (hp _ _ hn)))

/-- Over any nodes that are under their own hashes, the walk of `get_smt_leaf` ends at the entry on the
path or finds nothing. -/
theorem getSmtLeafFrom_sound (hI : H.Ideal) (hwf : Trie.WellFormed (entryPath H) pathBit d t)
    (hp : nodes.Proper H) (hne : t ≠ .empty) {fuel : Nat} (hd : fuel+d = 256) (hlt : d < 256)
    (hpre : ∀ b, Trie.Mem b t → ∀ i < d, pathBit (entryPath H b) i = pathBit keyHash i)
    (hsep : ∀ a b, Trie.Mem a t → Trie.Mem b t → entryPath H a ≠ entryPath H b →
      ∃ i, i+1 < 256 ∧ pathBit (entryPath H a) i ≠ pathBit (entryPath H b) i) :
    getSmtLeafFrom H (found (getNode H nodes)) keyHash fuel d (digest H t) = .ok none ∨ ∃ e, Trie.Mem e t ∧
      entryPath H e = keyHash ∧
        getSmtLeafFrom H (found (getNode H nodes)) keyHash fuel d (digest H t) =
          .ok (some (leafNode e)) := by
  induction hwf generalizing fuel with
  | empty => exact absurd rfl hne
  | leaf d b =>
    obtain ⟨fuel,rfl⟩ : ∃ n, fuel = n+1 := ⟨fuel-1,by omega⟩
    rw [getSmtLeafFrom, found]
    rcases hp.getNode_eq hI (leafNode b) with hnode | hnode
    · have hnode' : getNode H nodes (digest H (.leaf b)) = some (.leaf b.1 b.2) := hnode
      rw [hnode']
      dsimp only
      split_ifs with hkey
      · exact .inr ⟨b,rfl,hkey,rfl⟩
      · exact .inl rfl
    · left
      have hnode' : getNode H nodes (digest H (.leaf b)) = none := hnode
      rw [hnode']
  | @node d l r hl hr hfalse htrue htwo ihl ihr =>
    obtain ⟨fuel,rfl⟩ : ∃ n, fuel = n+1 := ⟨fuel-1,by omega⟩
    have hdeep : d+1 < 256 := by
      obtain ⟨a,b,ha,hb,hab⟩ := htwo
      obtain ⟨i,hi,hdiff⟩ := hsep a b ha hb hab
      have hle : d ≤ i := by
        by_contra hlt
        exact hdiff ((hpre a ha i (by omega)).trans (hpre b hb i (by omega)).symm)
      omega
    have hbelow : ∀ c, (∀ b, Trie.Mem b c → Trie.Mem b (.node l r)) →
        (∀ b, Trie.Mem b c → pathBit (entryPath H b) d = pathBit keyHash d) →
        ∀ b, Trie.Mem b c → ∀ i < d+1, pathBit (entryPath H b) i = pathBit keyHash i := by
      intro c hsub hside b hb i hi
      by_cases hid : i = d
      · rw [hid]
        exact hside b hb
      · exact hpre b (hsub b hb) i (by omega)
    rw [getSmtLeafFrom, found]
    rcases hp.getNode_eq hI (.internal (digest H l) (digest H r)) with hnode | hnode
    · have hnode' : getNode H nodes (digest H (.node l r)) = some (.internal (digest H l) (digest H r)) := hnode
      rw [hnode']
      dsimp only
      cases hbit : pathBit keyHash d with
      | true =>
        rw [if_pos rfl]
        by_cases hr0 : r = .empty
        · rw [if_pos ((digest_eq_empty hI).mpr hr0)]
          exact .inl rfl
        · rw [if_neg fun h => hr0 ((digest_eq_empty hI).mp h), if_neg (by omega)]
          have hih := ihr hr0 (show fuel+(d+1) = 256 by omega) hdeep
            (hbelow r (fun b hb => .inr hb) fun b hb => (htrue b hb).trans hbit.symm)
            fun a b ha hb => hsep a b (.inr ha) (.inr hb)
          refine hih.imp_right ?_
          rintro ⟨e,he,h⟩
          exact ⟨e,.inr he,h⟩
      | false =>
        rw [if_neg Bool.false_ne_true]
        by_cases hl0 : l = .empty
        · rw [if_pos ((digest_eq_empty hI).mpr hl0)]
          exact .inl rfl
        · rw [if_neg fun h => hl0 ((digest_eq_empty hI).mp h), if_neg (by omega)]
          have hih := ihl hl0 (show fuel+(d+1) = 256 by omega) hdeep
            (hbelow l (fun b hb => .inl hb) fun b hb => (hfalse b hb).trans hbit.symm)
            fun a b ha hb => hsep a b (.inl ha) (.inl hb)
          refine hih.imp_right ?_
          rintro ⟨e,he,h⟩
          exact ⟨e,.inl he,h⟩
    · left
      have hnode' : getNode H nodes (digest H (.node l r)) = none := hnode
      rw [hnode']

/-- No store can forge a leaf under the root of a tree. -/
theorem getSmtLeaf_sound (hI : H.Ideal) (hC : C.Lawful) (hσ : C.HoldsNodes H σ) (h : HoldsValues H m t)
    (hsep : Separated H K) (hm : ∀ key, m key ≠ none → key ∈ K) (keyHash : Hash32) :
    C.getSmtLeaf H σ (digest H t) keyHash = .ok none ∨
      ∃ key value, m key = some value ∧ H.hashKey key = keyHash ∧
        C.getSmtLeaf H σ (digest H t) keyHash = .ok (some (.leaf key (H.hashValue value))) := by
  rw [SmtCodec.getSmtLeaf, hσ.getNode hC]
  by_cases ht : t = .empty
  · rw [if_pos ((digest_eq_empty hI).mpr ht)]
    exact .inl rfl
  · rw [if_neg fun h => ht ((digest_eq_empty hI).mp h)]
    have hparts : ∀ a b, Trie.Mem a t → Trie.Mem b t → entryPath H a ≠ entryPath H b →
        ∃ i, i+1 < 256 ∧ pathBit (entryPath H a) i ≠ pathBit (entryPath H b) i := fun a b ha hb hne =>
      hsep.parts (h.mem_keys hm ha) (h.mem_keys hm hb) fun hkey => hne (congrArg H.hashKey hkey)
    refine Or.imp_right ?_ (getSmtLeafFrom_sound hI h.wellFormed (hσ.proper hC) ht
      (show 256+0 = 256 from rfl) (by decide) (fun b _ i hi => absurd hi (Nat.not_lt_zero i)) hparts)
    rintro ⟨e,he,hpath,hleaf⟩
    obtain ⟨value,hvalue,hhash⟩ := (h.mem e).mp he
    refine ⟨e.1,value,hvalue,hpath,?_⟩
    rw [hleaf, leafNode, hhash]

end Binding

section Runs

variable {δ : Type} [DecidableEq δ] {C : SmtCodec δ} {H : SmtHash δ} {K : Set Bytes}
  {calls calls' : List RootCall}

/-- A state root binds: the roots of two runs, at any of their heights, are one exactly when the hashes
of the values up to there agree. -/
theorem state_root_binds (hI : H.Ideal) (hC : C.Lawful) (hsep : Separated H K) (hrun : RootRun C H K calls)
    (hrun' : RootRun C H K calls') :
    ∃ σ σ', runCalls C H ∅ calls = .ok σ ∧ runCalls C H ∅ calls' = .ok σ' ∧
      ∀ h h', (∃ c ∈ calls, c.height ≤ h) → (∃ c ∈ calls', c.height ≤ h') →
        ∃ root root', C.getSmtRootAtHeight σ h = .ok root ∧ C.getSmtRootAtHeight σ' h' = .ok root' ∧
          (root = root' ↔ SameHashes H (valuesUpTo h calls) (valuesUpTo h' calls')) := by
  obtain ⟨σ,hσ,_,hroots⟩ := hrun.roots hI hC hsep
  obtain ⟨σ',hσ',_,hroots'⟩ := hrun'.roots hI hC hsep
  refine ⟨σ,σ',hσ,hσ',fun h h' hc hc' => ?_⟩
  obtain ⟨t,hroot,ht,_⟩ := hroots h hc
  obtain ⟨t',hroot',ht',_⟩ := hroots' h' hc'
  exact ⟨_,_,hroot,hroot',(digest_injective hI).eq_iff.trans (ht.eq_iff ht')⟩

/-- A state root authenticates: at any time after its height the database itself finds every leaf from
it, and no other store, as long as each of its nodes is under its own hash, gives a leaf that was not
there. -/
theorem state_root_authenticates (hI : H.Ideal) (hC : C.Lawful) (hsep : Separated H K)
    (hrun : RootRun C H K calls) :
    ∃ σ, runCalls C H ∅ calls = .ok σ ∧ ∀ h, (∃ c ∈ calls, c.height ≤ h) →
      ∃ root, C.getSmtRootAtHeight σ h = .ok root ∧
        (∀ key ∈ K, C.getSmtLeaf H σ root (H.hashKey key) =
          .ok ((valuesUpTo h calls key).map fun value => .leaf key (H.hashValue value))) ∧
        ∀ σ', C.HoldsNodes H σ' → ∀ keyHash,
          C.getSmtLeaf H σ' root keyHash = .ok none ∨
            ∃ key value, valuesUpTo h calls key = some value ∧ H.hashKey key = keyHash ∧
              C.getSmtLeaf H σ' root keyHash = .ok (some (.leaf key (H.hashValue value))) := by
  obtain ⟨σ,hσ,hnodes,hroots⟩ := hrun.roots hI hC hsep
  refine ⟨σ,hσ,fun h hc => ?_⟩
  obtain ⟨t,hroot,ht,hstored⟩ := hroots h hc
  have hm := hrun.valuesUpTo_mem h
  exact ⟨_,hroot,fun key hkey => getSmtLeaf_spec hI hC hnodes ht hstored hsep hm hkey,
    fun σ' hσ' keyHash => getSmtLeaf_sound hI hC hσ' ht hsep hm keyHash⟩

end Runs

/-- One batched call. -/
def oneCall (height : Nat) (value : Bytes) : List RootCall := [⟨height,[([1],value)],true⟩]

theorem oneCall_run {height : Nat} (hh : height < 2^32) (value : Bytes) :
    RootRun plainSmtCodec plainHash {[1],[128]} (oneCall height value) := by
  have hkeys : putKeys (oneCall height value) ⊆ {[1],[128]} := by
    rintro key ⟨c,hc,kv,hkv,rfl⟩
    rw [List.mem_singleton.mp hc] at hkv
    rw [List.mem_singleton.mp hkv]
    exact .inl rfl
  refine ⟨hkeys,pair_apart hkeys,?_,List.pairwise_singleton _ _,?_,?_⟩
  · intro c hc
    rw [List.mem_singleton.mp hc]
    exact hh
  · intro key
    have hle := updatesOf_length_le key [([1],value)]
    simp only [putCount, oneCall, List.flatMap_cons, List.flatMap_nil, List.append_nil] at hle ⊢
    exact hle.trans (by simp)
  · refine ⟨fun t ht => ?_,fun _ _ => trivial⟩
    obtain rfl : t = .empty := ht.unique .empty
    exact ⟨fun n hn => absurd hn List.not_mem_nil,fun t' _ => trivial⟩

/-- One value put at two heights gives one root, another value another. -/
theorem state_root_binds_one_key : ∃ σ σ' root,
    runCalls plainSmtCodec plainHash ∅ (oneCall 0 [7]) = .ok σ ∧
    runCalls plainSmtCodec plainHash ∅ (oneCall 3 [7]) = .ok σ' ∧
    plainSmtCodec.getSmtRootAtHeight σ 0 = .ok root ∧ plainSmtCodec.getSmtRootAtHeight σ' 5 = .ok root := by
  obtain ⟨σ,σ',hσ,hσ',hroots⟩ := state_root_binds plainHash_ideal plainSmtCodec_lawful pair_separated_plain
    (oneCall_run (show 0 < 2^32 by decide) [7]) (oneCall_run (show 3 < 2^32 by decide) [7])
  obtain ⟨root,root',hroot,hroot',hiff⟩ := hroots 0 5 ⟨_,List.mem_singleton_self _,le_rfl⟩
    ⟨_,List.mem_singleton_self _,by decide⟩
  obtain rfl := hiff.mpr fun key => rfl
  exact ⟨σ,σ',root,hσ,hσ',hroot,hroot'⟩

/-- Another store, with a leaf of a key that was not put. -/
def otherLeaf : Store := KV.write ∅ (plainSmtCodec.nodeOps plainHash [newLeaf plainHash [128] [9]])

/-- It gives no leaf of this key under the root. -/
theorem state_root_authenticates_one_key : ∃ σ root,
    runCalls plainSmtCodec plainHash ∅ (oneCall 0 [7]) = .ok σ ∧
      plainSmtCodec.getSmtRootAtHeight σ 4 = .ok root ∧
      plainSmtCodec.getSmtLeaf plainHash otherLeaf root (plainHash.hashKey [128]) = .ok none := by
  have hother : plainSmtCodec.HoldsNodes plainHash otherLeaf := by
    refine SmtCodec.HoldsNodes.write plainSmtCodec_lawful .empty fun n hn => ?_
    rw [List.mem_singleton.mp hn]
    show ([128] : Bytes).length < 2^32
    decide
  obtain ⟨σ,hσ,hroots⟩ := state_root_authenticates plainHash_ideal plainSmtCodec_lawful pair_separated_plain
    (oneCall_run (show 0 < 2^32 by decide) [7])
  obtain ⟨root,hroot,_,hsound⟩ := hroots 4 ⟨_,List.mem_singleton_self _,by decide⟩
  refine ⟨σ,root,hσ,hroot,(hsound otherLeaf hother (plainHash.hashKey [128])).resolve_right ?_⟩
  rintro ⟨key,value,hvalue,hkey,_⟩
  have hone : key = [1] := by
    by_contra hne
    have hnone : valuesUpTo 4 (oneCall 0 [7]) key = none := by
      simp [valuesUpTo, oneCall, valuesAfter, putValues, Function.update_of_ne hne]
    rw [hnone] at hvalue
    cases hvalue
  rw [hone] at hkey
  exact absurd hkey (by decide)

end Metashrew
