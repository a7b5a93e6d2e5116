import Metashrew.Ledger.Foreign
import Metashrew.Ledger.Frame
import Metashrew.Recovery.Retry

namespace Metashrew

open Bytes Durable Versioned

namespace Ledger

/-- Later blocks leave the records of earlier heights alone. -/
theorem run_frame (start : Nat) (L : Ledger) (blocks : List Block) {h : Nat} (hh : h<start) :
    (run start L blocks).manifest h = L.manifest h ∧ (run start L blocks).root h = L.root h ∧
      (run start L blocks).hash h = L.hash h := by
  induction blocks generalizing start L with
  | nil => exact ⟨rfl,rfl,rfl⟩
  | cons b bs ih =>
    obtain ⟨h1,h2,h3⟩ := ih (start+1) (L.block start b) (Nat.lt_succ_of_lt hh)
    have hne : h≠start := by omega
    refine ⟨h1.trans ?_,h2.trans (Function.update_of_ne hne ..),
      h3.trans (Function.update_of_ne hne ..)⟩
    rw [block_manifest, if_neg (by tauto)]

theorem ofBlocks_take (blocks : List Block) (r : Nat) :
    ofBlocks 0 blocks = run (0+(blocks.take (r+1)).length) (ofBlocks 0 (blocks.take (r+1)))
      (blocks.drop (r+1)) := by
  conv_lhs => rw [← List.take_append_drop (r+1) blocks]
  rw [ofBlocks, run_append]
  rfl

end Ledger

/-- The same records on every length, update, manifest, root and block-hash name. -/
def SameRecords (σ σ' : Store) : Prop :=
  (∀ key, SameKeyRecords σ σ' key) ∧ (∀ h, KV.get σ (manifestKey h) = KV.get σ' (manifestKey h)) ∧
    (∀ h, KV.get σ (rootKey h) = KV.get σ' (rootKey h)) ∧
    ∀ h, KV.get σ (blockHashKey h) = KV.get σ' (blockHashKey h)

/-- The fast rollback of a run to `r` gives back the store of the blocks up to `r`. -/
def FastRollbackRestores (blocks : List Block) (r n : Nat) : Prop :=
  ∀ σ, commitBlocks 0 ∅ blocks = .ok σ →
    (∀ h, r < h → h ≤ n → KV.get σ (manifestKey h) ≠ none) →
    ∃ σ' σr, (rollbackWithManifests r n).exec σ = .ok (true,σ') ∧
      commitBlocks 0 ∅ (blocks.take (r+1)) = .ok σr ∧ SameRecords σ' σr

theorem commitBlocks_take {blocks : List Block} {σ : Store}
    (hc : commitBlocks 0 ∅ blocks = .ok σ) (k : Nat) :
    ∃ σr, commitBlocks 0 ∅ (blocks.take k) = .ok σr := by
  rw [← List.take_append_drop k blocks, commitBlocks_append] at hc
  cases ht : commitBlocks 0 ∅ (blocks.take k) with
  | error e => rw [ht] at hc; cases hc
  | ok σr => exact ⟨σr,rfl⟩

theorem manifestsExist_of_get {σ : Store} {r n : Nat}
    (hm : ∀ h, r < h → h ≤ n → KV.get σ (manifestKey h) ≠ none) : manifestsExist σ r n = true := by
  rw [manifestsExist, List.all_eq_true]
  intro h hh
  obtain ⟨h1,h2⟩ := mem_heightsAbove.mp hh
  exact Option.isSome_iff_ne_none.mpr (hm h h1 h2)

/-- The fast rollback of a run of plain blocks is exact. -/
theorem fast_rollback_restores (blocks : List Block) (n r : Nat) (hlen : blocks.length = n+1)
    (hn : n<2^32) (hr : r < n) (hp : PlainKeys blocks) : FastRollbackRestores blocks r n := by
  intro σ hc hman
  obtain ⟨σr,hcr⟩ := commitBlocks_take hc (r+1)
  obtain ⟨hrep,hsound⟩ := commitBlocks_ofBlocks hp hc
  obtain ⟨hrepr,hsoundr⟩ := commitBlocks_ofBlocks (fun b hb => hp b (List.mem_of_mem_take hb)) hcr
  have hlenr : 0+(blocks.take (r+1)).length = r+1 := by
    rw [List.length_take, hlen]
    omega
  rw [hlen, Nat.zero_add] at hsound
  rw [hlenr] at hsoundr
  have hexist := manifestsExist_of_get hman
  obtain ⟨ss,hrun,hss,hinv⟩ := rollbackWithManifests_run hrep hsound (by omega) hr hexist
  have hfin := hinv ss.length _ Prog.getElem?_getLastD
  have hfull : (heightsAbove r n).reverse.take ss.length = (heightsAbove r n).reverse :=
    List.take_of_length_le (by rw [hss, List.length_reverse, heightsAbove, List.length_range'])
  rw [hfull] at hfin
  have hhist : ∀ key, ((Ledger.ofBlocks 0 blocks).unwind r (heightsAbove r n).reverse).history key =
      (Ledger.ofBlocks 0 (blocks.take (r+1))).history key := by
    intro key
    rw [Ledger.unwind_history (fun key e he => Nat.lt_succ_iff.mp (hsound.below key e he))
      (Ledger.ofBlocks_covered 0 blocks)
      ((manifestsExist_iff hrep).mp hexist), Ledger.ofBlocks_history,
      Ledger.ofBlocks_history, writesOf_upTo]
    rfl
  -- Up to `r` the later blocks have changed nothing; above it both sides have no records.
  have hrec : ∀ {α : Type} (f g : Nat → Option α), (∀ h, h ≤ r → f h = g h) →
      (∀ h, n < h → f h = none) → (∀ h, r < h → g h = none) →
      ∀ h, (if h ∈ (heightsAbove r n).reverse then none else f h) = g h := by
    intro α f g hlow hhigh habove h
    simp only [List.mem_reverse, mem_heightsAbove]
    split_ifs with hh
    · exact (habove h hh.1).symm
    · rcases Nat.lt_or_ge r h with h1 | h1
      · rw [hhigh h (by omega), habove h h1]
      · exact hlow h h1
  have hframe : ∀ h, h ≤ r → (Ledger.ofBlocks 0 blocks).manifest h =
        (Ledger.ofBlocks 0 (blocks.take (r+1))).manifest h ∧
      (Ledger.ofBlocks 0 blocks).root h = (Ledger.ofBlocks 0 (blocks.take (r+1))).root h ∧
      (Ledger.ofBlocks 0 blocks).hash h = (Ledger.ofBlocks 0 (blocks.take (r+1))).hash h := by
    intro h hh
    have hf := Ledger.run_frame (0+(blocks.take (r+1)).length) (Ledger.ofBlocks 0 (blocks.take (r+1)))
      (blocks.drop (r+1)) (h := h) (by omega)
    rwa [← Ledger.ofBlocks_take] at hf
  have hmanifest := hrec _ _ (fun h hh => (hframe h hh).1)
    (fun h hh => (hsound.unwritten h hh).2.1) fun h hh => (hsoundr.unwritten h hh).2.1
  have hroot := hrec _ _ (fun h hh => (hframe h hh).2.1)
    (fun h hh => (hsound.unwritten h hh).1) fun h hh => (hsoundr.unwritten h hh).1
  have hhash := hrec _ _ (fun h hh => (hframe h hh).2.2)
    (fun h hh => (hsound.unwritten h hh).2.2) fun h hh => (hsoundr.unwritten h hh).2.2
  refine ⟨ss.getLastD σ,σr,Prog.exec_ok hrun,hcr,fun key => ⟨?_,fun i => ?_⟩,fun h => ?_,fun h => ?_,
    fun h => ?_⟩
  · rw [hfin.get_length, hrepr.get_length, hhist]
  · have h1 := hfin (.update key i)
    have h2 := hrepr (.update key i)
    simp only [Record.name, Ledger.lookup, Ledger.updateRecord] at h1 h2
    rw [h1, h2, hhist, ← hmanifest, ← hhash]
    rfl
  · rw [hfin.get_manifest, hrepr.get_manifest, ← hmanifest]
    rfl
  · rw [hfin.get_root, hrepr.get_root, ← hroot]
    rfl
  · rw [hfin.get_hash, hrepr.get_hash, ← hhash]
    rfl

private def restoreRun : List Block :=
  [⟨.single 'a' [1],[7],[8]⟩,⟨⟨[(ascii "a",[2]),(ascii "a",[3])],by decide⟩,[9],[8]⟩]

theorem fast_rollback_restores_two_blocks :
    ∃ σ σ' σr, commitBlocks 0 ∅ restoreRun = .ok σ ∧
      (rollbackWithManifests 0 1).exec σ = .ok (true,σ') ∧
      commitBlocks 0 ∅ (restoreRun.take 1) = .ok σr ∧ SameRecords σ' σr := by
  have hrun : (commitBlocks 0 ∅ restoreRun).toOption.any (fun σ =>
      (KV.get σ (manifestKey 1)).isSome) = true := by decide +kernel
  cases hσ : commitBlocks 0 ∅ restoreRun with
  | error e => rw [hσ] at hrun; cases hrun
  | ok σ =>
    rw [hσ] at hrun
    have hm : ∀ h, 0 < h → h ≤ 1 → KV.get σ (manifestKey h) ≠ none := by
      intro h h0 h1
      obtain rfl : h=1 := by omega
      exact Option.isSome_iff_ne_none.mp hrun
    obtain ⟨σ',σr,he,hr,hsame⟩ := fast_rollback_restores restoreRun 1 0 rfl (by decide) (by decide)
      (by unfold PlainKeys; decide) σ hσ hm
    exact ⟨σ,σ',σr,rfl,he,hr,hsame⟩

/-- A user key whose update records are the manifests: its first update replaces manifest 0. -/
private def manifestRun : List Block :=
  [⟨.single 'a' [1],[7],[8]⟩,⟨⟨[(manifestBase,[2])],by decide⟩,[9],[8]⟩]

theorem fast_rollback_reserved : ¬FastRollbackRestores manifestRun 0 1 := by
  have hrun : (commitBlocks 0 ∅ manifestRun).toOption.any (fun σ =>
      (KV.get σ (manifestKey 1)).isSome && ((rollbackWithManifests 0 1).exec σ).toOption.all fun x =>
        (commitBlocks 0 ∅ (manifestRun.take 1)).toOption.all fun σr =>
          KV.get x.2 (manifestKey 0) != KV.get σr (manifestKey 0)) = true := by decide +kernel
  intro hrestores
  cases hσ : commitBlocks 0 ∅ manifestRun with
  | error e => rw [hσ] at hrun; cases hrun
  | ok σ =>
    rw [hσ] at hrun
    obtain ⟨hm,hdiff⟩ := (Bool.and_eq_true _ _).mp hrun
    have hman : ∀ h, 0 < h → h ≤ 1 → KV.get σ (manifestKey h) ≠ none := by
      intro h h0 h1
      obtain rfl : h=1 := by omega
      exact Option.isSome_iff_ne_none.mp hm
    obtain ⟨σ',σr,he,hr,hsame⟩ := hrestores σ hσ hman
    rw [he, hr] at hdiff
    simp only [Except.toOption, Option.all_some, hsame.2.1 0, bne_self_eq_false] at hdiff
    cases hdiff

/-- Both rollbacks from the tip `n` to `r` leave the same records of user keys, the same roots, and
no manifest or block hash above `r`. -/
def RollbacksAgree (σ : Store) (r n : Nat) : Prop :=
  ∃ σf σs, (rollbackWithManifests r n).exec σ = .ok (true,σf) ∧
    (rollbackSmtData r n).exec σ = .ok ((),σs) ∧
    (∀ key, ¬Reserved key → SameKeyRecords σf σs key) ∧
    (∀ h, KV.get σf (rootKey h) = KV.get σs (rootKey h)) ∧
    ∀ h, r < h → KV.get σf (manifestKey h) = none ∧ KV.get σs (manifestKey h) = none ∧
      KV.get σf (blockHashKey h) = none ∧ KV.get σs (blockHashKey h) = none

/-- The slow rollback never touches a block hash unless `blockHashBase` is a user key. -/
theorem rollbackSmtData_keeps_hash {σ : Store} (hb : KV.get σ (lengthKey blockHashBase) = none)
    (r n h : Nat) (v : Option Bytes) (hv : KV.get σ (blockHashKey h) = v) :
    KV.get ((rollbackSmtData r n).finalState σ) (blockHashKey h) = v := by
  have hbare : Bare (· = blockHashBase) σ := by
    rintro key rfl
    exact hb
  have hkeep := (rollbackSmtData_foreign (r := r) (n := n) hbare).final (.refl _ _ σ)
  rw [hkeep _ (foreign_blockHashKey (K := (· = blockHashBase)) rfl h) id, hv]

/-- The two rollbacks never agree: the slow one leaves the block hash of the tip behind. -/
theorem rollbacks_never_agree (blocks : List Block) (n r : Nat) (σ : Store)
    (hlen : blocks.length = n+1) (hr : r < n) (hc : commitBlocks 0 ∅ blocks = .ok σ)
    (hw : ∀ b ∈ blocks, ∀ kv ∈ b.flush.list, kv.1 ≠ blockHashBase) : ¬RollbacksAgree σ r n := by
  rintro ⟨σf,σs,_,hslow,_,_,habove⟩
  have hb : KV.get σ (lengthKey blockHashBase) = none := by
    rw [commitBlocks_length hw hc, KV.get_empty]
  have hne : blocks ≠ [] := by
    rintro rfl
    cases hlen
  rw [← List.dropLast_append_getLast hne, commitBlocks_append] at hc
  have hd : 0+blocks.dropLast.length=n := by rw [List.length_dropLast, hlen]; omega
  cases hτ : commitBlocks 0 ∅ blocks.dropLast with
  | error e => rw [hτ] at hc; cases hc
  | ok τ =>
    rw [hτ, hd] at hc
    change ((commitBlock τ n (blocks.getLast hne)).bind fun ρ => .ok ρ) = _ at hc
    cases hlast : commitBlock τ n (blocks.getLast hne) with
    | error e => rw [hlast] at hc; cases hc
    | ok ρ =>
      rw [hlast] at hc
      cases hc
      have hkeep := rollbackSmtData_keeps_hash hb r n n _ (commitBlock_hash hlast)
      rw [Prog.exec] at hslow
      split at hslow
      · cases hslow
        rw [(habove n hr).2.2.2] at hkeep
        cases hkeep
      · cases hslow

theorem rollbacks_never_agree_two_blocks :
    ∃ σ, commitBlocks 0 ∅ restoreRun = .ok σ ∧ ¬RollbacksAgree σ 0 1 := by
  have hrun : (commitBlocks 0 ∅ restoreRun).toOption.isSome = true := by decide +kernel
  cases hσ : commitBlocks 0 ∅ restoreRun with
  | error e => rw [hσ] at hrun; cases hrun
  | ok σ =>
    exact ⟨σ,rfl,rollbacks_never_agree restoreRun 1 0 σ rfl (by decide) hσ (by decide)⟩

theorem rollbacks_disagree :
    ∃ σ, commitBlocks 0 ∅ restoreRun = .ok σ ∧ KV.get σ (manifestKey 1) ≠ none ∧
      ¬RollbacksAgree σ 0 1 := by
  have hrun : (commitBlocks 0 ∅ restoreRun).toOption.any (fun σ =>
      (KV.get σ (manifestKey 1)).isSome && ((rollbackSmtData 0 1).exec σ).toOption.all fun x =>
        (KV.get x.2 (blockHashKey 1)).isSome) = true := by decide +kernel
  cases hσ : commitBlocks 0 ∅ restoreRun with
  | error e => rw [hσ] at hrun; cases hrun
  | ok σ =>
    rw [hσ] at hrun
    obtain ⟨hm,hhash⟩ := (Bool.and_eq_true _ _).mp hrun
    refine ⟨σ,rfl,Option.isSome_iff_ne_none.mp hm,?_⟩
    rintro ⟨σf,σs,_,hslow,_,_,habove⟩
    rw [hslow] at hhash
    simp only [Except.toOption, Option.all_some, (habove 1 (by decide)).2.2.2] at hhash
    cases hhash

end Metashrew
