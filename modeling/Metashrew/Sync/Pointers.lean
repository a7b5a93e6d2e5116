import Metashrew.Sync.Runs

namespace Metashrew

open Bytes Durable

/-- The three records of the tip agree; without a stored hash the highest height is 0. -/
structure PointersAgree (σ : Store) : Prop where
  tip : getRuntimeTipHeight σ = getIndexedHeight σ
  highest : IsGreatest {h | h = 0 ∨ (getBlockHash σ h).isSome} (getIndexedHeight σ)

/-- One operation on the pointers. -/
inductive PointerCall where
  | commit (height : Nat) (keyValues : List (Bytes × Bytes))
  | rollback (height : Nat)
  | heal (targetHeight : Nat)

/-- The runs of completed operations that meet `P`. A batch may have been built over any store, for
its own height; heights are `u32`. -/
inductive PointerRuns (P : Store → PointerCall → Prop) : Store → Prop where
  | empty : PointerRuns P ∅
  | commit {σ σ' : Store} {db : KeyValueStoreLike} {h : Nat} {kvs : List (Bytes × Bytes)}
      {root blockHash stateRoot : Bytes} {ops : List Op} :
      PointerRuns P σ → P σ (.commit h kvs) → h<2^32 →
      buildStateRootBatchUnwritten db h kvs = .ok (root,ops) →
      (commitAtomic h blockHash stateRoot ops).exec σ = .ok ((),σ') → PointerRuns P σ'
  | rollback {σ σ' : Store} {r : Nat} :
      PointerRuns P σ → P σ (.rollback r) → r<2^32 →
      (rollbackToHeight r).exec σ = .ok ((),σ') → PointerRuns P σ'
  | heal {σ σ' : Store} {t : Nat} :
      PointerRuns P σ → P σ (.heal t) → t<2^32 →
      (healPointersAtomic t).exec σ = .ok ((),σ') → PointerRuns P σ'

/-- The operations that keep the pointers together: batches without the reserved keys, rollbacks to
the tip itself, heals to the tip or by the fast path to a height with a stored hash. -/
def KeepsPointers (σ : Store) : PointerCall → Prop
  | .commit _ kvs => ∀ kv ∈ kvs, ¬Reserved kv.1
  | .rollback r => r = getIndexedHeight σ
  | .heal t => t = getIndexedHeight σ ∨
      manifestsExist σ t (getIndexedHeight σ) ∧ (t = 0 ∨ (getBlockHash σ t).isSome)

section Rollback

variable {σ σ' : Store} {r n : Nat}

/-- One height of the fast rollback deletes the hash of that height and no other. -/
theorem rollbackManifestHeight_hash (hσ : Bare Reserved σ) {x : Nat}
    (hc : (rollbackManifestHeight r x).exec σ = .ok ((),σ')) :
    Bare Reserved σ' ∧ ∀ h, getBlockHash σ' h = if h = x then none else getBlockHash σ h := by
  have hkeep := (rollbackManifestHeight_foreign (r := r) hσ (S := (· = x)) rfl).exec
    (SameForeign.refl _ _ σ) hc
  have hbare : Bare Reserved σ' := by
    apply hkeep.bare hσ
    intro key _ hrec
    have hr := (recordOf_iff (x := .length key)).mp hrec
    simp at hr
  refine ⟨hbare,fun h => ?_⟩
  split_ifs with hx
  · subst hx
    rw [rollbackManifestHeight, getValue,
      Prog.exec_bind (a := KV.get σ (manifestKey h)) (t := σ) rfl] at hc
    cases hd : KV.get σ (manifestKey h) with
    | none =>
      rw [hd] at hc
      cases hc
    | some data =>
      rw [hd] at hc
      obtain ⟨trims,_,hread,hc⟩ := Prog.exec_bind_ok hc
      cases hread
      rw [Prog.exec_ok (applyAtomic_run _), if_neg (by simp [heightRecordOps])] at hc
      cases hc
      rw [getBlockHash, List.getLastD_cons, List.getLastD_nil, KV.get_write, KV.effect_append]
      simp [heightRecordOps, KV.effect, KV.Op.key, KV.Op.value]
  · apply hkeep _ (foreign_blockHashKey blockHashBase_reserved h)
    intro hrec
    obtain ⟨i,rfl,hr⟩ := (recordOf_iff (x := .update blockHashBase h)).mp hrec
    simp only [Record.update.injEq, reduceCtorEq, true_and, false_or] at hr
    rcases hr with ⟨hbase,_⟩ | rfl
    · exact manifestBase_ne_blockHashBase hbase.symm
    · exact hx rfl

/-- All heights of the fast rollback. -/
theorem rollbackManifestHeights_hash (hσ : Bare Reserved σ) {xs : List Nat}
    (hc : (Prog.forEach xs (rollbackManifestHeight r)).exec σ = .ok ((),σ')) :
    Bare Reserved σ' ∧ ∀ h, getBlockHash σ' h = if h ∈ xs then none else getBlockHash σ h := by
  induction xs generalizing σ with
  | nil =>
    cases hc
    exact ⟨hσ,fun h => rfl⟩
  | cons x xs ih =>
    obtain ⟨_,τ,hx,hc⟩ := Prog.exec_bind_ok hc
    obtain ⟨hτ,hone⟩ := rollbackManifestHeight_hash hσ hx
    obtain ⟨hσ',hall⟩ := ih hτ hc
    refine ⟨hσ',fun h => ?_⟩
    rw [hall, hone]
    by_cases hh : h=x <;> simp [hh]

/-- A rollback by the fast path deletes the hashes above its height. -/
theorem rollbackToHeight_hash (hσ : Bare Reserved σ) (hr : r < getIndexedHeight σ)
    (hm : manifestsExist σ r (getIndexedHeight σ) = true)
    (hc : (rollbackToHeight r).exec σ = .ok ((),σ')) (h : Nat) :
    getBlockHash σ' h = if r < h ∧ h ≤ getIndexedHeight σ then none else getBlockHash σ h := by
  rw [rollbackToHeight, Prog.exec_bind (a := getIndexedHeight σ) (t := σ) rfl] at hc
  obtain ⟨used,τ,hfast,hc⟩ := Prog.exec_bind_ok hc
  rw [rollbackWithManifests, if_neg (by omega), Prog.exec_bind (a := true) (t := σ) (by rw [← hm]; rfl),
    if_pos rfl] at hfast
  obtain ⟨_,ρ,heach,hfast⟩ := Prog.exec_bind_ok hfast
  cases hfast
  obtain ⟨_,hhash⟩ := rollbackManifestHeights_hash hσ heach
  cases hc
  have hne : indexedHeightKey ≠ blockHashKey h :=
    Record.name_ne (r := .indexedHeight) (s := .update blockHashBase h) (by simp)
  have hset : getBlockHash (KV.write ρ [.put indexedHeightKey (u32le r)]) h = getBlockHash ρ h := by
    rw [getBlockHash, KV.get_write_put, if_neg hne]
    rfl
  refine hset.trans ?_
  rw [hhash]
  simp only [List.mem_reverse, mem_heightsAbove]

end Rollback

section Steps

variable {σ σ' : Store} {h t : Nat} {blockHash stateRoot : Bytes} {ops : List Op}

theorem PointersAgree.empty : PointersAgree ∅ where
  tip := rfl
  highest := by
    refine ⟨.inl rfl,?_⟩
    rintro h (rfl | hs)
    · exact le_rfl
    · rw [getBlockHash, KV.get_empty] at hs
      cases hs

theorem PointersAgree.congr (hσ : PointersAgree σ) (hi : getIndexedHeight σ' = getIndexedHeight σ)
    (ht : getRuntimeTipHeight σ' = getRuntimeTipHeight σ)
    (hh : ∀ k, getBlockHash σ' k = getBlockHash σ k) : PointersAgree σ' := by
  constructor
  · rw [ht, hi, hσ.tip]
  · simp only [hh, hi]
    exact hσ.highest

/-- The batch puts the tip of its height last. -/
theorem build_tip {db : KeyValueStoreLike} {kvs : List (Bytes × Bytes)} {root : Bytes}
    (hb : buildStateRootBatchUnwritten db h kvs = .ok (root,ops)) :
    KV.effect ops tipHeightKey = some (some (u32le h)) := by
  rw [buildStateRootBatchUnwritten] at hb
  cases hf : kvs.foldlM (appendUpdate db h) ⟨[],∅⟩ with
  | error e => rw [hf] at hb; cases hb
  | ok st =>
    rw [hf] at hb
    cases hb
    rw [KV.effect_append]
    rfl

theorem commitOps_tip (hh : h<2^32) (ho : KV.effect ops tipHeightKey = some (some (u32le h))) :
    getRuntimeTipHeight (KV.write σ (commitOps h blockHash stateRoot ops)) = h := by
  have h1 : blockHashKey h ≠ tipHeightKey :=
    Record.name_ne (r := .update blockHashBase h) (s := .tipHeight) (by simp)
  have h2 : rootKey h ≠ tipHeightKey := Record.name_ne (r := .root h) (s := .tipHeight) (by simp)
  have h3 : indexedHeightKey ≠ tipHeightKey := by decide
  rw [getRuntimeTipHeight, readPointer, KV.get_write, commitOps, KV.effect_append, ho]
  simp [KV.effect, KV.Op.key, h1, h2, h3, readU32le_u32le hh]

/-- A commit moves all three records to its height. -/
theorem PointersAgree.commit (hσ : PointersAgree σ) (hh : h<2^32) (ho : CleanBatch ops)
    (htip : KV.effect ops tipHeightKey = some (some (u32le h)))
    (hacc : isFreshDb σ = true ∨ h = saturatingSucc (getIndexedHeight σ)) :
    PointersAgree (KV.write σ (commitOps h blockHash stateRoot ops)) := by
  refine ⟨?_,?_⟩
  · rw [commitOps_tip hh htip, commitOps_indexed hh]
  · rw [commitOps_indexed hh]
    refine ⟨.inr (by rw [commitOps_hash_self]; rfl),?_⟩
    intro k hk
    rw [Set.mem_ofPred_eq, commitOps_hash ho] at hk
    by_cases hkh : k=h
    · exact le_of_eq hkh
    · rw [if_neg hkh] at hk
      have hle : k ≤ getIndexedHeight σ := hσ.highest.2 hk
      obtain hfresh | hsucc := hacc
      · rw [isFreshDb, Bool.and_eq_true, beq_iff_eq] at hfresh
        omega
      · have hlt := readPointer_lt indexedHeightKey σ
        change getIndexedHeight σ<2^32 at hlt
        rw [hsucc, saturatingSucc]
        omega

/-- A heal moves all three down when the fast path deletes the hashes above its height. -/
theorem PointersAgree.heal (hσ : PointersAgree σ) (hbare : Bare Reserved σ) (ht : t<2^32)
    (hk : KeepsPointers σ (.heal t)) (hc : (healPointersAtomic t).exec σ = .ok ((),σ')) :
    PointersAgree σ' ∧ Bare Reserved σ' := by
  have hle : t ≤ getIndexedHeight σ := by
    by_contra hgt
    rw [healPointersAtomic, Prog.exec_bind (a := getIndexedHeight σ) (t := σ) rfl,
      Prog.exec_bind (a := getRuntimeTipHeight σ) (t := σ) rfl, if_neg (by omega),
      if_pos (by omega)] at hc
    cases hc
  obtain ⟨rfl,_⟩ | ⟨τ,hτ,rfl⟩ := healPointersAtomic_cases hle hc
  · exact ⟨hσ,hbare⟩
  · obtain ⟨hidx,htip⟩ := pointers_healed τ ht
    have hhash : ∀ k, getBlockHash (KV.write τ [.put indexedHeightKey (u32le t),
        .put tipHeightKey (u32le t)]) k = getBlockHash τ k := fun k =>
      get_healed τ t (x := .update blockHashBase k) (by simp) (by simp)
    have hbase : Bare Reserved τ ∧
        IsGreatest {h | h = 0 ∨ (getBlockHash τ h).isSome} t := by
      obtain ⟨rfl,rfl⟩ | ⟨hlt,hroll⟩ := hτ
      · exact ⟨hbare,hσ.highest⟩
      · obtain ⟨hm,hstored⟩ := hk.resolve_left (by omega)
        have hdrop := rollbackToHeight_hash hbare hlt hm hroll
        refine ⟨(rollbackToHeight_keeps hbare ht hroll).2.1,?_,?_⟩
        · rw [Set.mem_ofPred_eq, hdrop, if_neg (by omega)]
          exact hstored
        · intro k hk
          rw [Set.mem_ofPred_eq, hdrop] at hk
          have hkle : ¬(t < k ∧ k ≤ getIndexedHeight σ) → k ≤ getIndexedHeight σ := by
            intro hno
            rw [if_neg hno] at hk
            exact hσ.highest.2 hk
          by_contra hgt
          by_cases hin : t < k ∧ k ≤ getIndexedHeight σ
          · rw [if_pos hin] at hk
            simp only [Option.isSome_none, Bool.false_eq_true, or_false] at hk
            omega
          · have := hkle hin
            omega
    refine ⟨⟨htip.trans hidx.symm,?_⟩,?_⟩
    · rw [hidx]
      simp only [hhash]
      exact hbase.2
    · intro key hr
      exact (get_healed τ t (x := .length key) (by simp) (by simp)).trans (hbase.1 key hr)

/-- At the tip a rollback only writes the pointer again. -/
theorem rollbackToHeight_tip (σ : Store) : (rollbackToHeight (getIndexedHeight σ)).exec σ =
    .ok ((),KV.write σ [.put indexedHeightKey (u32le (getIndexedHeight σ))]) := by
  rw [rollbackToHeight, Prog.exec_bind (a := getIndexedHeight σ) (t := σ) rfl,
    Prog.exec_bind (a := true) (t := σ) (by rw [rollbackWithManifests, if_pos le_rfl]; rfl)]
  rfl

theorem PointersAgree.rollback_tip (hσ : PointersAgree σ) :
    PointersAgree (KV.write σ [.put indexedHeightKey (u32le (getIndexedHeight σ))]) := by
  have hget : ∀ x : Record, x ≠ .indexedHeight →
      KV.get (KV.write σ [.put indexedHeightKey (u32le (getIndexedHeight σ))]) x.name =
        KV.get σ x.name := by
    intro x hx
    rw [KV.get_write_put, if_neg]
    exact Record.name_ne (r := .indexedHeight) (Ne.symm hx)
  have hidx : getIndexedHeight (KV.write σ [.put indexedHeightKey (u32le (getIndexedHeight σ))]) =
      getIndexedHeight σ := by
    rw [getIndexedHeight, readPointer, KV.get_write_put, if_pos rfl, Option.bind_some,
      readU32le_u32le (readPointer_lt ..), Option.getD_some]
  apply hσ.congr hidx
  · exact congrArg (fun v => (v.bind readU32le).getD 0) (hget .tipHeight (by simp))
  · exact fun k => hget (.update blockHashBase k) (by simp)

end Steps

/-- Every state of a run keeps the pointers together, as long as every operation does. -/
theorem pointers_agree (σ : Store) (h : PointerRuns KeepsPointers σ) : PointersAgree σ := by
  suffices hall : PointersAgree σ ∧ Bare Reserved σ from hall.1
  induction h with
  | empty => exact ⟨.empty,fun _ _ => KV.get_empty _⟩
  | commit _ hk hh hb hc ih =>
    obtain ⟨hacc,rfl⟩ := commitAtomic_cases hc
    have hclean := build_clean hb hk
    exact ⟨ih.1.commit hh hclean (build_tip hb) hacc,commitOps_bare ih.2 hclean⟩
  | rollback _ hk hr hc ih =>
    obtain rfl := hk
    have hbare := (rollbackToHeight_keeps ih.2 hr hc).2.1
    rw [rollbackToHeight_tip] at hc
    cases hc
    exact ⟨ih.1.rollback_tip,hbare⟩
  | heal _ hk ht hc ih => exact ih.1.heal ih.2 ht hk hc

/-- Committing blocks is a run. -/
theorem PointerRuns.commitBlocks {P : Store → PointerCall → Prop} {start : Nat} {blocks : List Block}
    (hP : ∀ b ∈ blocks, ∀ τ h, P τ (.commit h b.flush.list)) (hlen : start+blocks.length<2^32)
    {σ σ' : Store} (h : PointerRuns P σ) (hc : Metashrew.commitBlocks start σ blocks = .ok σ') :
    PointerRuns P σ' := by
  induction blocks generalizing start σ with
  | nil =>
    cases hc
    exact h
  | cons b bs ih =>
    rw [List.length_cons] at hlen
    rw [Metashrew.commitBlocks] at hc
    cases hb : commitBlock σ start b with
    | error e =>
      rw [hb] at hc
      cases hc
    | ok τ =>
      rw [hb] at hc
      obtain ⟨root,ops,hbuild,hacc,rfl⟩ := commitBlock_cases hb
      have hcommit := Prog.exec_ok (commitAtomic_run hacc b.hash b.stateRoot ops)
      apply ih (fun c hc => hP c (by simp [hc])) (by omega) _ hc
      exact .commit h (hP b (by simp) _ _) (by omega) hbuild hcommit

private def pointerBlocks : List Block :=
  [⟨.single 'a' [1],[7],[8]⟩,⟨.single 'a' [2],[9],[8]⟩]

theorem pointers_agree_after_heal : ∃ σ σ', commitBlocks 0 ∅ pointerBlocks = .ok σ ∧
    (healPointersAtomic 0).exec σ = .ok ((),σ') ∧ PointersAgree σ' := by
  have hrun : (commitBlocks 0 ∅ pointerBlocks).toOption.any (fun σ =>
      getIndexedHeight σ == 1 && manifestsExist σ 0 1 &&
        ((healPointersAtomic 0).exec σ).toOption.isSome) = true := by decide +kernel
  cases hσ : commitBlocks 0 ∅ pointerBlocks with
  | error e =>
    rw [hσ] at hrun
    cases hrun
  | ok σ =>
    rw [hσ] at hrun
    simp only [Except.toOption, Option.any_some, Bool.and_eq_true, beq_iff_eq] at hrun
    obtain ⟨⟨hidx,hm⟩,hdone⟩ := hrun
    cases hc : (healPointersAtomic 0).exec σ with
    | error e =>
      rw [hc] at hdone
      cases hdone
    | ok done =>
      refine ⟨σ,done.2,rfl,hc,pointers_agree _ (.heal (σ := σ) ?_ ?_ (by decide) hc)⟩
      · apply PointerRuns.commitBlocks _ (by decide) .empty hσ
        intro b hb τ h
        exact (by unfold PlainKeys; decide : PlainKeys pointerBlocks) b hb
      · right
        rw [hidx]
        exact ⟨hm,.inl rfl⟩

/-- A rollback leaves the runtime's tip where it was. -/
theorem rollback_leaves_tip : ¬∀ σ, PointerRuns (fun _ _ => True) σ → PointersAgree σ := by
  intro hall
  have hrun : (commitBlocks 0 ∅ pointerBlocks).toOption.any (fun σ =>
      ((rollbackToHeight 0).exec σ).toOption.any fun done =>
        getRuntimeTipHeight done.2 == 1 && getIndexedHeight done.2 == 0) = true := by decide +kernel
  cases hσ : commitBlocks 0 ∅ pointerBlocks with
  | error e =>
    rw [hσ] at hrun
    cases hrun
  | ok σ =>
    rw [hσ] at hrun
    simp only [Except.toOption, Option.any_some] at hrun
    cases hc : (rollbackToHeight 0).exec σ with
    | error e =>
      rw [hc] at hrun
      cases hrun
    | ok done =>
      rw [hc] at hrun
      simp only [Option.any_some, Bool.and_eq_true, beq_iff_eq] at hrun
      have hstart : PointerRuns (fun _ _ => True) σ :=
        PointerRuns.commitBlocks (fun _ _ _ _ => trivial) (by decide) .empty hσ
      have htip := (hall _ (.rollback hstart trivial (by decide) hc)).tip
      rw [hrun.1, hrun.2] at htip
      cases htip

end Metashrew
