import Metashrew.Ledger.Rollback

namespace Metashrew

open Bytes Durable Versioned

section Complete

variable {σ : Store} {L : Ledger} {n r m : Nat}

/-- With every manifest there, the heights unwound cover every update above `r`. -/
theorem Ledger.unwind_history (hbelow : ∀ key, ∀ e ∈ L.history key, e.1 ≤ m) (hcov : L.Covered)
    (hman : ∀ h, r < h → h ≤ m → L.manifest h ≠ none) (key : Bytes) :
    (L.unwind r (heightsAbove r m).reverse).history key = upTo r (L.history key) := by
  change (if _ then _ else _) = _
  split_ifs with hk
  · rfl
  · refine (upTo_of_le fun e he => ?_).symm
    by_contra hgt
    have hle := hbelow key e he
    obtain ⟨keys,hkeys⟩ := Option.ne_none_iff_exists'.mp (hman e.1 (by omega) hle)
    refine hk (List.mem_flatMap.mpr ⟨e.1,?_,?_⟩)
    · rw [List.mem_reverse, mem_heightsAbove]
      omega
    · rw [hkeys]
      exact hcov key e he keys hkeys

/-- The slow rollback cuts every history. -/
theorem Ledger.trimKeys_history {keys : List Bytes} (hk : ∀ key, L.history key ≠ [] → key ∈ keys)
    (key : Bytes) : (L.trimKeys r keys).history key = upTo r (L.history key) := by
  change (if key ∈ keys then _ else _) = _
  split_ifs with h
  · rfl
  · have hnil : L.history key=[] := by
      by_contra hne
      exact h (hk key hne)
    rw [hnil, upTo_nil]

private theorem setIndexedHeight_run (σ : Store) (r : Nat) : (setIndexedHeight r).run σ =
    ⟨[KV.write σ [.put indexedHeightKey (u32le r)]],.ok ()⟩ := rfl

theorem getIndexedHeight_eq (hσ : Represents σ L) (hm : m<2^32) (hi : L.indexed = some m) :
    getIndexedHeight σ = m := by
  rw [hσ.readPointer_indexed fun i h => by rw [hi] at h; cases h; exact hm, hi]
  rfl

/-- The fast path: one height after the other, then the pointer. -/
theorem rollbackToHeight_fast (hσ : Represents σ L) (hL : L.Sound n) (hn : n≤2^32)
    (hcur : getIndexedHeight σ = m) (hr : r < m) (hfast : manifestsExist σ r m = true) :
    ∃ ss, (rollbackToHeight r).run σ =
        ⟨ss ++ [KV.write (ss.getLastD σ) [.put indexedHeightKey (u32le r)]],.ok ()⟩ ∧
      ss.length = m-r ∧ ∀ j σ', (σ::ss)[j]? = some σ' →
        Represents σ' (L.unwind r ((heightsAbove r m).reverse.take j)) := by
  obtain ⟨ss,hrun,hlen,hinv⟩ := rollbackWithManifests_run hσ hL hn hr hfast
  refine ⟨ss,?_,hlen,hinv⟩
  rw [rollbackToHeight, Prog.run_read_bind, hcur, Prog.run_bind_ok hrun]
  rfl

/-- The slow path: the metadata records, when there are any, then one structure after the other and
the pointer. -/
theorem rollbackToHeight_slow (hσ : Represents σ L) (hL : L.Sound n) (hn : n≤2^32)
    (hcur : getIndexedHeight σ = m) (hr : r < m) (hslow : manifestsExist σ r m = false) :
    ∃ ρ ss, (rollbackToHeight r).run σ =
        ⟨(if metadataKeysToDelete r σ.keys = [] then [] else [ρ]) ++ ss ++
          [KV.write (ss.getLastD ρ) [.put indexedHeightKey (u32le r)]],.ok ()⟩ ∧
      (metadataKeysToDelete r σ.keys = [] → ρ = σ) ∧ ss.length = (smtStructures σ).length ∧
      ∀ i σ', (ρ::ss)[i]? = some σ' →
        Represents σ' ((L.dropRoots r).trimKeys r ((smtStructures σ).take i)) := by
  obtain ⟨ρ,ss,hrun,hnil,hlen,hinv⟩ := rollbackSmtData_run hσ hL hn hr
  refine ⟨ρ,ss,?_,hnil,hlen,hinv⟩
  rw [rollbackToHeight, Prog.run_read_bind, hcur,
    Prog.run_bind_quiet (rollbackWithManifests_missing hr hslow)]
  show ((rollbackSmtData r m) >>= fun _ => setIndexedHeight r).run σ = _
  rw [Prog.run_bind_ok hrun, setIndexedHeight_run]
  split_ifs with he
  · rw [hnil he, List.nil_append]
  · rw [List.singleton_append, List.getLastD_cons]

/-- At or above the tip a rollback moves the pointer alone. -/
theorem rollbackToHeight_above (hcur : getIndexedHeight σ = m) (hr : m≤r) :
    (rollbackToHeight r).run σ = ⟨[KV.write σ [.put indexedHeightKey (u32le r)]],.ok ()⟩ := by
  rw [rollbackToHeight, Prog.run_read_bind, hcur, rollbackWithManifests, if_pos hr]
  rfl

/-- The ledger that a rollback from `m` to `r` leaves before it moves the pointer, on each path. -/
inductive Ledger.RolledBackTo (σ : Store) (L : Ledger) (r m : Nat) : Ledger → Prop where
  | above (h : m ≤ r) : RolledBackTo σ L r m L
  | fast (h : r < m) (hm : manifestsExist σ r m = true) :
      RolledBackTo σ L r m (L.unwind r (heightsAbove r m).reverse)
  | slow (h : r < m) (hm : manifestsExist σ r m = false) :
      RolledBackTo σ L r m ((L.dropRoots r).trimKeys r (smtStructures σ))

private theorem unwind_take_partly (L : Ledger) (r m j : Nat) :
    L.PartlyRolledBack r (L.unwind r ((heightsAbove r m).reverse.take j)) := by
  apply L.unwind_partly
  intro h hh
  exact (mem_heightsAbove.mp (List.mem_reverse.mp (List.mem_of_mem_take hh))).1

private theorem trimRoots_partly (L : Ledger) (r : Nat) (keys : List Bytes) :
    L.PartlyRolledBack r ((L.dropRoots r).trimKeys r keys) :=
  (L.dropRoots_partly r).trans ((L.dropRoots r).trimKeys_partly r keys)

theorem Ledger.RolledBackTo.partly {L' : Ledger} (h : L.RolledBackTo σ r m L') :
    L.PartlyRolledBack r L' := by
  cases h with
  | above => exact .refl L r
  | fast =>
    have hall := unwind_take_partly L r m (heightsAbove r m).reverse.length
    rwa [List.take_length] at hall
  | slow => exact trimRoots_partly L r _

/-- Where no update is above the tip and the manifests name all keys updated, every history is cut. -/
theorem Ledger.RolledBackTo.cut {L' : Ledger} (h : L.RolledBackTo σ r m L') (hσ : Represents σ L)
    (hcov : L.Covered) (hbelow : ∀ key, ∀ e ∈ L.history key, e.1 ≤ m) (key : Bytes) :
    L'.history key = upTo r (L.history key) := by
  cases h with
  | above hr => exact (upTo_of_le fun e he => le_trans (hbelow key e he) hr).symm
  | fast _ hfast => exact L.unwind_history hbelow hcov ((manifestsExist_iff hσ).mp hfast) key
  | slow =>
    exact Ledger.trimKeys_history (L := L.dropRoots r) (fun key hk => (mem_smtStructures hσ).mpr hk) key

/-- A rollback ends by moving the pointer, and every state before is a partial rollback. -/
theorem rollbackToHeight_ends (hσ : Represents σ L) (hL : L.Sound n) (hn : n≤2^32)
    (hcur : getIndexedHeight σ = m) (r : Nat) :
    ∃ ss L', (rollbackToHeight r).run σ =
        ⟨ss ++ [KV.write (ss.getLastD σ) [.put indexedHeightKey (u32le r)]],.ok ()⟩ ∧
      L.RolledBackTo σ r m L' ∧ Represents (ss.getLastD σ) L' ∧
      ∀ (j : Nat) (σ' : Store), (σ::ss)[j]? = some σ' → ∃ L'', L.PartlyRolledBack r L'' ∧ Represents σ' L'' := by
  have hzero : ∀ (ss : List Store) (σ' : Store), (σ::ss)[0]? = some σ' →
      ∃ L'', L.PartlyRolledBack r L'' ∧ Represents σ' L'' := by
    intro ss σ' hj
    obtain rfl := Option.some.inj hj
    exact ⟨L,.refl L r,hσ⟩
  by_cases hr : m≤r
  · refine ⟨[],L,rollbackToHeight_above hcur hr,.above hr,hσ,?_⟩
    intro j σ' hj
    cases j with
    | zero => exact hzero _ σ' hj
    | succ j => cases hj
  rw [not_le] at hr
  cases hfast : manifestsExist σ r m with
  | true =>
    obtain ⟨ss,hrun,hlen,hinv⟩ := rollbackToHeight_fast hσ hL hn hcur hr hfast
    have hfull : (heightsAbove r m).reverse.take ss.length = (heightsAbove r m).reverse :=
      List.take_of_length_le (by rw [hlen, List.length_reverse, heightsAbove, List.length_range'])
    have hfin := hinv ss.length _ Prog.getElem?_getLastD
    rw [hfull] at hfin
    exact ⟨ss,_,hrun,.fast hr hfast,hfin,fun j σ' hj => ⟨_,unwind_take_partly L r m j,hinv j σ' hj⟩⟩
  | false =>
    obtain ⟨ρ,ss,hrun,hnil,hlen,hinv⟩ := rollbackToHeight_slow hσ hL hn hcur hr hfast
    have hfin := hinv ss.length _ Prog.getElem?_getLastD
    rw [hlen, List.take_length] at hfin
    have hlast : ((if metadataKeysToDelete r σ.keys = [] then [] else [ρ]) ++ ss).getLastD σ =
        ss.getLastD ρ := by
      split_ifs with he
      · rw [hnil he, List.nil_append]
      · rw [List.singleton_append, List.getLastD_cons]
    rw [← hlast] at hrun hfin
    refine ⟨_,_,hrun,.slow hr hfast,hfin,?_⟩
    intro j σ' hj
    cases j with
    | zero => exact hzero _ σ' hj
    | succ j =>
      rw [List.getElem?_cons_succ] at hj
      split_ifs at hj
      · exact ⟨_,trimRoots_partly L r _,hinv (j+1) σ' hj⟩
      · exact ⟨_,trimRoots_partly L r _,hinv j σ' hj⟩

/-- The last write moves the pointer once every history is cut. -/
theorem rollbackToHeight_points (hσ : Represents σ L) (hL : L.Sound n) (hn : n≤2^32)
    (hcov : L.Covered) (hcur : getIndexedHeight σ = m)
    (hbelow : ∀ key, ∀ e ∈ L.history key, e.1 ≤ m) (r : Nat) :
    ∃ ss τ L', (rollbackToHeight r).run σ = ⟨ss ++ [τ],.ok ()⟩ ∧
      (∀ (j : Nat) (σ' : Store), (σ::ss)[j]? = some σ' → ∃ L'', L.PartlyRolledBack r L'' ∧ Represents σ' L'') ∧
      L.PartlyRolledBack r L' ∧ (∀ key, L'.history key = upTo r (L.history key)) ∧
      Represents τ (L'.setIndexed r) := by
  obtain ⟨ss,L',hrun,hend,hrep,hpoints⟩ := rollbackToHeight_ends hσ hL hn hcur r
  exact ⟨ss,_,L',hrun,hpoints,hend.partly,hend.cut hσ hcov hbelow,hrep.setIndexed r⟩

/-- A rollback from the tip of a chain whose records end there. -/
theorem rollbackToHeight_run (hσ : Represents σ L) (hL : L.Sound (m+1)) (hcov : L.Covered)
    (hm : m<2^32) (hi : L.indexed = some m) (r : Nat) :
    ∃ ss τ L', (rollbackToHeight r).run σ = ⟨ss ++ [τ],.ok ()⟩ ∧
      (∀ (j : Nat) (σ' : Store), (σ::ss)[j]? = some σ' → ∃ L'', L.PartlyRolledBack r L'' ∧ Represents σ' L'') ∧
      L.PartlyRolledBack r L' ∧ (∀ key, L'.history key = upTo r (L.history key)) ∧
      Represents τ (L'.setIndexed r) :=
  rollbackToHeight_points hσ hL (by omega) hcov (getIndexedHeight_eq hσ hm hi)
    (fun key e he => Nat.lt_succ_iff.mp (hL.below key e he)) r

end Complete

/-- A key of the user: one that a block writes, or any key that is not reserved. -/
def UserKey (blocks : List Block) (key : Bytes) : Prop :=
  ¬Reserved key ∨ ∃ b ∈ blocks, ∃ kv ∈ b.flush.list, kv.1 = key

/-- The same records of one key. -/
def SameKeyRecords (σ σ' : Store) (key : Bytes) : Prop :=
  KV.get σ (lengthKey key) = KV.get σ' (lengthKey key) ∧
    ∀ i, KV.get σ (updateKey key i) = KV.get σ' (updateKey key i)

/-- After any crashes of a rollback to `r`, running it again ends like one uninterrupted run. -/
def RollbackRetrySafe (blocks : List Block) (r : Nat) : Prop :=
  ∀ σ σ', commitBlocks 0 ∅ blocks = .ok σ → Prog.Interrupted (rollbackToHeight r) σ σ' →
    ∃ σ₁ σ₂, (rollbackToHeight r).exec σ = .ok ((),σ₁) ∧ (rollbackToHeight r).exec σ' = .ok ((),σ₂) ∧
      (∀ key, UserKey blocks key → SameKeyRecords σ₁ σ₂ key) ∧
      KV.get σ₁ indexedHeightKey = KV.get σ₂ indexedHeightKey

private theorem plain_of_userKey {blocks : List Block} (hp : PlainKeys blocks) {key : Bytes}
    (h : UserKey blocks key) : ¬Reserved key := by
  rcases h with h | ⟨b,hb,kv,hkv,rfl⟩
  · exact h
  · exact hp b hb kv hkv

section Retry

variable {σ : Store} {L : Ledger} {r m : Nat}

theorem sameKeyRecords_of_history {σ' : Store} {L' : Ledger} (hσ : Represents σ L)
    (hσ' : Represents σ' L') {key : Bytes} (hk : ¬Reserved key)
    (hh : L.history key = L'.history key) : SameKeyRecords σ σ' key := by
  refine ⟨?_,fun i => ?_⟩
  · rw [hσ.get_length, hσ'.get_length, hh]
  · rw [hσ.get_update hk, hσ'.get_update hk, hh]

/-- From any partial rollback of `L` a complete one ends with the histories of `L` cut at `r`. -/
theorem rollbackToHeight_exec (hL : L.Sound (m+1)) (hcov : L.Covered) (hm : m<2^32)
    (hi : L.indexed = some m) {L' : Ledger} (hp : L.PartlyRolledBack r L') (hσ : Represents σ L') :
    ∃ σ₁ L₁, (rollbackToHeight r).exec σ = .ok ((),σ₁) ∧ Represents σ₁ L₁ ∧
      (∀ key, L₁.history key = upTo r (L.history key)) ∧ L₁.indexed = some r := by
  obtain ⟨ss,τ,L₁,hrun,_,_,hhist,hrep⟩ := rollbackToHeight_run hσ (hp.sound hL)
    (hp.covered hcov) hm (hp.indexed.trans hi) r
  refine ⟨τ,L₁.setIndexed r,?_,hrep,fun key => ?_,rfl⟩
  · rw [Prog.exec_ok hrun, List.getLastD_concat]
  · refine (hhist key).trans ?_
    rcases hp.history key with h | h
    · rw [h]
    · rw [h, upTo_upTo_of_le le_rfl]

/-- A crash leaves a partial rollback. -/
theorem rollbackToHeight_crash (hL : L.Sound (m+1)) (hcov : L.Covered) (hm : m<2^32)
    (hi : L.indexed = some m) {L' : Ledger} (hp : L.PartlyRolledBack r L') (hσ : Represents σ L') {j : Nat}
    {σ' : Store} (hc : (rollbackToHeight r).CrashAfter σ j σ') :
    ∃ L'', L.PartlyRolledBack r L'' ∧ Represents σ' L'' := by
  obtain ⟨ss,τ,L₁,hrun,hpoint,_⟩ := rollbackToHeight_run hσ (hp.sound hL)
    (hp.covered hcov) hm (hp.indexed.trans hi) r
  obtain ⟨L'',hp',hrep⟩ := hpoint j σ' (hc.before_last hrun).2
  exact ⟨L'',hp.trans hp',hrep⟩

end Retry

/-- Interrupted rollbacks of a run of plain blocks can be retried. -/
theorem rollback_retry_safe (blocks : List Block) (n r : Nat) (hlen : blocks.length = n+1)
    (hn : n<2^32) (hp : PlainKeys blocks) : RollbackRetrySafe blocks r := by
  intro σ σ' hc hint
  obtain ⟨hrep,hsound⟩ := commitBlocks_ofBlocks hp hc
  have hidx := Ledger.ofBlocks_indexed 0 hlen
  rw [hlen, Nat.zero_add] at hsound
  rw [Nat.zero_add] at hidx
  have hcov := Ledger.ofBlocks_covered 0 blocks
  set L := Ledger.ofBlocks 0 blocks
  have hmid : ∃ L', L.PartlyRolledBack r L' ∧ Represents σ' L' := by
    refine Prog.Interrupted.invariant (I := fun τ => ∃ L', L.PartlyRolledBack r L' ∧ Represents τ L')
      ?_ ⟨L,.refl L r,hrep⟩ hint
    rintro τ j τ' ⟨L',hp',hτ⟩ hcrash
    exact rollbackToHeight_crash hsound hcov hn hidx hp' hτ hcrash
  obtain ⟨L',hp',hτ⟩ := hmid
  obtain ⟨σ₁,L₁,he₁,hrep₁,hh₁,hi₁⟩ := rollbackToHeight_exec hsound hcov hn hidx (.refl L r) hrep
  obtain ⟨σ₂,L₂,he₂,hrep₂,hh₂,hi₂⟩ := rollbackToHeight_exec hsound hcov hn hidx hp' hτ
  refine ⟨σ₁,σ₂,he₁,he₂,fun key hk => ?_,?_⟩
  · exact sameKeyRecords_of_history hrep₁ hrep₂ (plain_of_userKey hp hk)
      ((hh₁ key).trans (hh₂ key).symm)
  · rw [hrep₁.get_indexed, hrep₂.get_indexed, hi₁, hi₂]

private def retryRun : List Block :=
  [⟨.single 'a' [1],[7],[8]⟩,⟨.single 'a' [2],[7],[8]⟩,
    ⟨.single 'b' [3],[7],[8]⟩]

theorem rollback_retry_safe_three_blocks :
    ∃ σ σ' σ₁ σ₂, commitBlocks 0 ∅ retryRun = .ok σ ∧ (rollbackToHeight 0).CrashAfter σ 1 σ' ∧
      (rollbackToHeight 0).exec σ = .ok ((),σ₁) ∧ (rollbackToHeight 0).exec σ' = .ok ((),σ₂) ∧
      SameKeyRecords σ₁ σ₂ (ascii "a") := by
  have hrun : (commitBlocks 0 ∅ retryRun).toOption.any (fun σ =>
      2 ≤ ((rollbackToHeight 0).run σ).states.length) = true := by decide +kernel
  cases hσ : commitBlocks 0 ∅ retryRun with
  | error e => rw [hσ] at hrun; cases hrun
  | ok σ =>
    rw [hσ] at hrun
    have hlen : 2 ≤ ((rollbackToHeight 0).run σ).states.length := of_decide_eq_true hrun
    have hcrash := Prog.crashAfter_succ (j := 0) hlen
    obtain ⟨σ₁,σ₂,h₁,h₂,hsame,_⟩ := rollback_retry_safe retryRun 2 0 rfl (by decide)
      (by unfold PlainKeys; decide) σ _ hσ (.single ⟨1,hcrash⟩)
    exact ⟨σ,_,σ₁,σ₂,rfl,hcrash,h₁,h₂,hsame _ (.inl (by decide))⟩

/-- A user key whose update records are the block hashes, written before the rolled-back blocks. -/
private def reservedRun : List Block :=
  [⟨⟨[(blockHashBase,[1])],by decide⟩,[7],[8]⟩,⟨.single 'a' [2],[7],[8]⟩,
    ⟨.single 'a' [3],[7],[8]⟩]

/-- After a crash of the fast path the retry takes the slow one, which takes the block hashes for
updates of that key. -/
theorem rollback_retry_reserved : ¬RollbackRetrySafe reservedRun 0 := by
  have hrun : (commitBlocks 0 ∅ reservedRun).toOption.any (fun σ =>
      2 ≤ ((rollbackToHeight 0).run σ).states.length &&
        ((rollbackToHeight 0).exec σ).toOption.all (fun x =>
          (((rollbackToHeight 0).run σ).states[0]?).all fun σ' =>
            ((rollbackToHeight 0).exec σ').toOption.all fun y =>
              KV.get x.2 (lengthKey blockHashBase) != KV.get y.2 (lengthKey blockHashBase))) =
      true := by decide +kernel
  intro hsafe
  cases hσ : commitBlocks 0 ∅ reservedRun with
  | error e => rw [hσ] at hrun; cases hrun
  | ok σ =>
    rw [hσ] at hrun
    obtain ⟨hlen,hdiff⟩ := (Bool.and_eq_true _ _).mp hrun
    have hlt : 2 ≤ ((rollbackToHeight 0).run σ).states.length := of_decide_eq_true hlen
    have hcrash := Prog.crashAfter_succ (j := 0) hlt
    obtain ⟨σ₁,σ₂,h₁,h₂,hsame,_⟩ := hsafe σ _ hσ (.single ⟨1,hcrash⟩)
    have hkey : UserKey reservedRun blockHashBase :=
      .inr ⟨_,List.mem_cons_self ..,_,List.mem_cons_self ..,rfl⟩
    rw [h₁, List.getElem?_eq_getElem (by omega)] at hdiff
    simp only [Except.toOption, Option.all_some, h₂, (hsame _ hkey).1, bne_self_eq_false] at hdiff
    cases hdiff

end Metashrew
