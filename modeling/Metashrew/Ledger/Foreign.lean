import Metashrew.Ledger.Rollback

namespace Metashrew

open Bytes Durable

/-- The name is a record of no key outside `K` and no metadata name. -/
structure Foreign (K : Bytes → Prop) (name : Bytes) : Prop where
  owner : ∀ key, KeyName key name → K key
  metadata : metadataHeight name = none

/-- No key in `K` has ever been written. -/
def Bare (K : Bytes → Prop) (σ : Store) : Prop := ∀ key, K key → KV.get σ (lengthKey key) = none

/-- `τ` has the records of `σ` under every foreign name outside `N`. -/
def SameForeign (K N : Bytes → Prop) (σ τ : Store) : Prop :=
  ∀ name, Foreign K name → ¬N name → KV.get τ name = KV.get σ name

theorem foreign_lengthKey {K : Bytes → Prop} {key : Bytes} (hk : K key) : Foreign K (lengthKey key) where
  owner key' hn := by
    rwa [KeyName.unique (x := .length key) hn (.inl rfl)]
  metadata := metadataHeight_of_slash (by rw [lengthKey, List.mem_append]; exact .inr (by decide))

theorem foreign_blockHashKey {K : Bytes → Prop} (hk : K blockHashBase) (h : Nat) :
    Foreign K (blockHashKey h) where
  owner key hn := by
    rwa [KeyName.unique (x := .update blockHashBase h) hn (.inr ⟨h,rfl⟩)]
  metadata := metadataHeight_of_slash (by rw [blockHashKey, List.mem_append]; exact .inl (by decide))

section Kept

variable {K N : Bytes → Prop} {σ τ : Store} {r n : Nat}

theorem SameForeign.refl (K N : Bytes → Prop) (σ : Store) : SameForeign K N σ σ := fun _ _ _ => rfl

theorem SameForeign.bare (h : SameForeign K N σ τ) (hσ : Bare K σ)
    (hN : ∀ key, K key → ¬N (lengthKey key)) : Bare K τ := by
  intro key hk
  rw [h _ (foreign_lengthKey hk) (hN key hk), hσ key hk]

theorem SameForeign.write (h : SameForeign K N σ τ) {ops : List Op}
    (ho : ∀ op ∈ ops, Foreign K op.key → N op.key) : SameForeign K N σ (KV.write τ ops) := by
  intro name hf hn
  rw [KV.get_write_of_not_mem, h name hf hn]
  rintro op hop rfl
  exact hn (ho op hop hf)

theorem SameForeign.applyAtomic {ops : List Op} (ho : ∀ op ∈ ops, Foreign K op.key → N op.key) :
    (applyAtomic ops).Preserves (SameForeign K N σ) := by
  rw [Metashrew.applyAtomic]
  split_ifs
  · exact .pure ()
  · exact .modify fun τ hτ => hτ.write ho

private theorem not_foreign {key name : Bytes} (hk : ¬K key) (hn : KeyName key name) :
    ¬Foreign K name := fun hf => hk (hf.owner key hn)

theorem trimKey_foreign (hτ : Bare K τ) (r : Nat) (key : Bytes) :
    ∀ op ∈ trimKey τ r key, ¬Foreign K op.key := by
  intro op hop
  by_cases hk : K key
  · rw [trimKey, hτ key hk] at hop
    cases hop
  · exact not_foreign hk (trimKey_names τ r key op hop)

/-- The slow rollback leaves the foreign names alone. -/
theorem rollbackSmtData_foreign (hσ : Bare K σ) :
    (rollbackSmtData r n).Preserves (SameForeign K (fun _ => False) σ) := by
  rw [rollbackSmtData]
  split_ifs
  · exact .pure ()
  · refine Prog.Preserves.bind (.read _) fun _ keys _ _ => ?_
    refine Prog.Preserves.bind (SameForeign.applyAtomic fun op hop hf => ?_) fun _ _ _ _ =>
      .forEach fun key _ => ?_
    · obtain ⟨name,hname,rfl⟩ := List.mem_map.mp hop
      obtain ⟨_,hm⟩ := List.mem_filter.mp hname
      rw [show metadataHeight name = none from hf.metadata] at hm
      cases hm
    · refine Prog.Preserves.bind (.read _) fun τ lengthBytes hτ hl => ?_
      cases lengthBytes with
      | none => exact .pure ()
      | some lengthBytes =>
        refine Prog.Preserves.bind (.read _) fun ρ ops _ hops => SameForeign.applyAtomic ?_
        cases hops
        intro op hop hf
        have hk : K key := hf.owner key (compactionOps_names ρ r key _ op hop)
        have hnone := (hτ.bare hσ fun _ _ => id) key hk
        change Except.ok (KV.get τ (lengthKey key)) = _ at hl
        rw [hnone] at hl
        cases hl

/-- The name is a manifest or metadata record of a height in `S`. -/
def RecordOf (S : Nat → Prop) (name : Bytes) : Prop :=
  ∃ h, S h ∧ ∃ op ∈ heightRecordOps h, op.key = name

private theorem heightRecordOps_names {h : Nat} {op : Op} (hop : op ∈ heightRecordOps h) :
    op.key = (Record.update manifestBase h).name ∨ op.key = (Record.root h).name ∨
      op.key = (Record.blockHashMeta h).name ∨ op.key = (Record.stateRootMeta h).name ∨
      op.key = (Record.update blockHashBase h).name := by
  simp only [heightRecordOps, List.mem_cons, List.not_mem_nil, or_false] at hop
  rcases hop with rfl | rfl | rfl | rfl | rfl
  · exact .inl rfl
  · exact .inr (.inl rfl)
  · exact .inr (.inr (.inl rfl))
  · exact .inr (.inr (.inr (.inl rfl)))
  · exact .inr (.inr (.inr (.inr rfl)))

theorem recordOf_iff {S : Nat → Prop} {x : Record} : RecordOf S x.name ↔
    ∃ h, S h ∧ (x = .update manifestBase h ∨ x = .root h ∨ x = .blockHashMeta h ∨
      x = .stateRootMeta h ∨ x = .update blockHashBase h) := by
  constructor
  · rintro ⟨h,hS,op,hop,he⟩
    refine ⟨h,hS,?_⟩
    have hn := heightRecordOps_names hop
    rw [he] at hn
    simpa only [Record.name_inj] using hn
  · rintro ⟨h,hS,hr⟩
    rcases hr with rfl | rfl | rfl | rfl | rfl
    · exact ⟨h,hS,.delete (manifestKey h),by simp [heightRecordOps],rfl⟩
    · exact ⟨h,hS,.delete (rootKey h),by simp [heightRecordOps],rfl⟩
    · exact ⟨h,hS,.delete (blockHashMetaKey h),by simp [heightRecordOps],rfl⟩
    · exact ⟨h,hS,.delete (stateRootMetaKey h),by simp [heightRecordOps],rfl⟩
    · exact ⟨h,hS,.delete (blockHashKey h),by simp [heightRecordOps],rfl⟩

private theorem not_recordOf_lengthKey (S : Nat → Prop) (key : Bytes) :
    ¬RecordOf S (lengthKey key) := by
  intro h
  have hr := (recordOf_iff (x := .length key)).mp h
  simp at hr

/-- One height of the fast rollback leaves the foreign names outside its records alone. -/
theorem rollbackManifestHeight_foreign {S : Nat → Prop} (hσ : Bare K σ) {h : Nat} (hS : S h) :
    (rollbackManifestHeight r h).Preserves (SameForeign K (RecordOf S) σ) := by
  refine Prog.Preserves.bind (.read _) fun _ manifestData _ _ => ?_
  cases manifestData with
  | none => exact .fail _
  | some manifestData =>
    refine Prog.Preserves.bind (.read _) fun τ trims hτ ht => SameForeign.applyAtomic ?_
    cases ht
    intro op hop hf
    rcases List.mem_append.mp hop with hop | hop
    · obtain ⟨key,_,hop⟩ := List.mem_flatMap.mp hop
      have hbare := hτ.bare hσ fun key _ => not_recordOf_lengthKey S key
      exact absurd hf (trimKey_foreign hbare r key op hop)
    · exact ⟨h,hS,op,hop,rfl⟩

theorem rollbackWithManifests_foreign (hσ : Bare K σ) :
    (rollbackWithManifests r n).Preserves (SameForeign K (RecordOf fun h => r < h) σ) := by
  rw [rollbackWithManifests]
  split_ifs
  · exact .pure true
  · refine Prog.Preserves.bind (.read _) fun _ all _ _ => ?_
    cases all with
    | false => exact .pure false
    | true =>
      refine Prog.Preserves.bind (.forEach fun h hh => ?_) fun _ _ _ _ => .pure true
      exact rollbackManifestHeight_foreign hσ (mem_heightsAbove.mp (List.mem_reverse.mp hh)).1

/-- A complete rollback sets the pointer and leaves the foreign names up to `r` alone. -/
theorem rollbackToHeight_foreign (hσ : Bare K σ) {σ' : Store}
    (h : (rollbackToHeight r).exec σ = .ok ((),σ')) :
    KV.get σ' indexedHeightKey = some (u32le r) ∧
      ∀ name, Foreign K name → ¬RecordOf (fun h => r < h) name → name ≠ indexedHeightKey →
        KV.get σ' name = KV.get σ name := by
  obtain ⟨current,σ0,hread,h⟩ := Prog.exec_bind_ok h
  cases hread
  obtain ⟨used,σ1,hfast,h⟩ := Prog.exec_bind_ok h
  have h1 := (rollbackWithManifests_foreign hσ).exec (SameForeign.refl _ _ σ) hfast
  have hbare := h1.bare hσ fun key _ => not_recordOf_lengthKey _ key
  have hend : ∀ τ, SameForeign K (RecordOf fun h => r < h) σ τ →
      (setIndexedHeight r).exec τ = .ok ((),σ') → KV.get σ' indexedHeightKey = some (u32le r) ∧
        ∀ name, Foreign K name → ¬RecordOf (fun h => r < h) name → name ≠ indexedHeightKey →
          KV.get σ' name = KV.get σ name := by
    intro τ hτ hset
    have he : σ' = KV.write τ [.put indexedHeightKey (u32le r)] := by
      cases hset
      rfl
    rw [he]
    refine ⟨by rw [KV.get_write_put, if_pos rfl],fun name hf hr hne => ?_⟩
    rw [KV.get_write_put, if_neg (Ne.symm hne), hτ name hf hr]
  cases used with
  | true => exact hend σ1 h1 h
  | false =>
    obtain ⟨_,σ2,hslow,h⟩ := Prog.exec_bind_ok h
    have h2 := (rollbackSmtData_foreign hbare).exec (SameForeign.refl _ _ σ1) hslow
    exact hend σ2 (fun name hf hr => (h2 name hf id).trans (h1 name hf hr)) h

theorem applyAtomic_total (ops : List Op) : (applyAtomic ops).Total := by
  intro σ
  exact ⟨(),by rw [applyAtomic_run]⟩

theorem rollbackSmtData_total (r n : Nat) : (rollbackSmtData r n).Total := by
  rw [rollbackSmtData]
  split_ifs
  · exact .pure ()
  · refine .bind (.read _) fun keys => .bind (applyAtomic_total _) fun _ => .forEach (fun key => ?_) _
    refine .bind (.read _) fun lengthBytes => ?_
    cases lengthBytes with
    | none => exact .pure ()
    | some lengthBytes => exact .bind (.read _) fun ops => applyAtomic_total ops

/-- The fast rollback never misses a manifest half way: no key it trims owns one. -/
theorem rollbackWithManifests_total (hσ : Bare K σ) (hK : K manifestBase) (r n : Nat) :
    ∃ done σ', (rollbackWithManifests r n).exec σ = .ok (done,σ') := by
  by_cases hr : r < n
  · cases hm : manifestsExist σ r n with
    | false => exact ⟨false,σ,Prog.exec_ok (rollbackWithManifests_missing hr hm)⟩
    | true =>
      have hforeign : ∀ h, Foreign K (manifestKey h) := fun h => {
        owner := fun key hn => by
          rwa [KeyName.unique (x := .update manifestBase h) hn (.inr ⟨h,rfl⟩)]
        metadata := metadataHeight_of_slash (by rw [manifestKey, List.mem_append]; exact .inl (by decide)) }
      have hstep : ∀ done h rest τ, (heightsAbove r n).reverse = done ++ h::rest →
          SameForeign K (RecordOf (· ∈ done)) σ τ → ∃ τ', (rollbackManifestHeight r h).run τ =
            ⟨[τ'],.ok ()⟩ ∧ SameForeign K (RecordOf (· ∈ done ++ [h])) σ τ' := by
        intro done h rest τ hsplit hτ
        have hnd : (done ++ h::rest).Nodup := by
          rw [← hsplit, List.nodup_reverse]
          exact List.nodup_range'
        have hh : h∉done := fun hd => (List.nodup_append.mp hnd).2.2 h hd h (by simp) rfl
        have hmem : h ∈ heightsAbove r n := by
          rw [← List.mem_reverse, hsplit]
          simp
        have hkept : KV.get τ (manifestKey h) = KV.get σ (manifestKey h) := by
          refine hτ _ (hforeign h) fun hrec => ?_
          obtain ⟨i,hi,hr⟩ := (recordOf_iff (x := .update manifestBase h)).mp hrec
          simp only [Record.update.injEq, true_and, reduceCtorEq, false_or] at hr
          rcases hr with rfl | ⟨hbase,_⟩
          · exact hh hi
          · exact manifestBase_ne_blockHashBase hbase
        obtain ⟨data,hdata⟩ := Option.isSome_iff_exists.mp (List.all_eq_true.mp hm h hmem)
        have hτ1 : SameForeign K (RecordOf (· ∈ done ++ [h])) σ τ := fun name hf hr =>
          hτ name hf fun ⟨i,hi,ho⟩ => hr ⟨i,by simp [hi],ho⟩
        have hrun : (rollbackManifestHeight r h).run τ = ⟨[KV.write τ
            ((deserializeKeyManifest data).flatMap (trimKey τ r) ++ heightRecordOps h)],.ok ()⟩ := by
          rw [rollbackManifestHeight, getValue, Prog.run_read_bind, hkept, hdata]
          dsimp only
          rw [Prog.run_read_bind, applyAtomic_run, if_neg (by simp [heightRecordOps])]
        have hkeeps := rollbackManifestHeight_foreign (r := r) hσ (S := (· ∈ done ++ [h])) (h := h)
          (by simp) τ hτ1
        rw [hrun] at hkeeps
        exact ⟨_,hrun,hkeeps _ (by simp)⟩
      obtain ⟨ss,hrun,_,_⟩ := Prog.forEach_spec (heightsAbove r n).reverse hstep σ
        (fun _ _ _ => rfl)
      refine ⟨true,ss.getLastD σ,Prog.exec_ok ?_⟩
      rw [rollbackWithManifests, if_neg (by omega), Prog.run_read_bind, if_pos hm,
        Prog.run_bind_ok hrun]
      simp
  · refine ⟨true,σ,?_⟩
    rw [rollbackWithManifests, if_pos (by omega)]
    rfl

theorem rollbackToHeight_total (hσ : Bare K σ) (hK : K manifestBase) (r : Nat) :
    ∃ σ', (rollbackToHeight r).exec σ = .ok ((),σ') := by
  obtain ⟨done,σ1,h1⟩ := rollbackWithManifests_total hσ hK r (getIndexedHeight σ)
  have hset : ∀ τ, ∃ τ', (setIndexedHeight r).exec τ = .ok ((),τ') := fun τ => ⟨_,rfl⟩
  rw [rollbackToHeight, Prog.exec_bind (a := getIndexedHeight σ) (t := σ) rfl, Prog.exec_bind h1]
  cases done with
  | true => exact hset σ1
  | false =>
    obtain ⟨_,σ2,h2⟩ := (rollbackSmtData_total r (getIndexedHeight σ)).exec σ1
    obtain ⟨σ3,h3⟩ := hset σ2
    exact ⟨σ3,(Prog.exec_bind h2).trans h3⟩

end Kept

end Metashrew
