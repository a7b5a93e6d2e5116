import Metashrew.Recovery.Crash
import Metashrew.Sync.Ancestor
import Metashrew.Sync.Pointers

namespace Metashrew

open Bytes Durable

/-- What any part of a rollback to `r` or of a heal leaves of the hashes and of the pointer: the
hashes of some heights down from the tip are gone. -/
structure HashesCut (r : Nat) (σ τ : Store) : Prop where
  bare : Bare Reserved τ
  pointer : getIndexedHeight τ = getIndexedHeight σ ∨ getIndexedHeight τ = r
  hash : ∃ k, r ≤ k ∧ ∀ h, getBlockHash τ h =
    if k < h ∧ h ≤ getIndexedHeight σ then none else getBlockHash σ h

section Cut

variable {σ τ : Store} {r : Nat}

theorem foreign_indexedHeightKey (K : Bytes → Prop) : Foreign K indexedHeightKey where
  owner key hn := by
    rcases hn with hn | ⟨h,hn⟩
    · exact absurd hn (Record.name_ne (r := .indexedHeight) (s := .length key) (by simp))
    · exact absurd hn (Record.name_ne (r := .indexedHeight) (s := .update key h) (by simp))
  metadata := metadataHeight_of_slash (by decide)

/-- The slow path touches neither the hashes nor the pointer. -/
theorem sameForeign_pointers (h : SameForeign Reserved (fun _ => False) σ τ) :
    getIndexedHeight τ = getIndexedHeight σ ∧ ∀ i, getBlockHash τ i = getBlockHash σ i := by
  refine ⟨?_,fun i => h _ (foreign_blockHashKey blockHashBase_reserved i) id⟩
  simp only [getIndexedHeight, readPointer, h _ (foreign_indexedHeightKey Reserved) id]

theorem HashesCut.refl (hσ : Bare Reserved σ) (hr : r ≤ getIndexedHeight σ) : HashesCut r σ σ where
  bare := hσ
  pointer := .inl rfl
  hash := ⟨getIndexedHeight σ,hr,fun h => by rw [if_neg (by omega)]⟩

theorem HashesCut.same {ρ : Store} (hc : HashesCut r σ τ)
    (h : SameForeign Reserved (fun _ => False) τ ρ) : HashesCut r σ ρ where
  bare := h.bare hc.bare fun _ _ => id
  pointer := by
    rw [(sameForeign_pointers h).1]
    exact hc.pointer
  hash := by
    obtain ⟨k,hk,hh⟩ := hc.hash
    exact ⟨k,hk,fun i => ((sameForeign_pointers h).2 i).trans (hh i)⟩

/-- So does a write of neither hashes nor length records that leaves the pointer or sets it to `r`. -/
theorem HashesCut.write (hc : HashesCut r σ τ) {ops : List Op} (ho : CleanBatch ops)
    (hp : getIndexedHeight (KV.write τ ops) = getIndexedHeight τ ∨
      getIndexedHeight (KV.write τ ops) = r) : HashesCut r σ (KV.write τ ops) where
  bare key hk := by
    rw [KV.get_write_of_not_mem fun op hop => (ho op hop).2 key hk]
    exact hc.bare key hk
  pointer := by
    rcases hp with hp | hp
    · rw [hp]
      exact hc.pointer
    · exact .inr hp
  hash := by
    obtain ⟨k,hk,hh⟩ := hc.hash
    refine ⟨k,hk,fun h => ?_⟩
    rw [getBlockHash, KV.get_write_of_not_mem fun op hop => (ho op hop).1 h]
    exact hh h

theorem cleanBatch_of_pointers {ops : List Op}
    (h : ∀ op ∈ ops, op.key = indexedHeightKey ∨ op.key = tipHeightKey ∨ ∃ i, op.key = rootKey i) :
    CleanBatch ops := by
  intro op hop
  rcases h op hop with he | he | ⟨i,he⟩ <;> rw [he]
  · exact ⟨fun k => Record.name_ne (r := .indexedHeight) (s := .update blockHashBase k) (by simp),
      fun key _ => Record.name_ne (r := .indexedHeight) (s := .length key) (by simp)⟩
  · exact ⟨fun k => Record.name_ne (r := .tipHeight) (s := .update blockHashBase k) (by simp),
      fun key _ => Record.name_ne (r := .tipHeight) (s := .length key) (by simp)⟩
  · exact ⟨fun k => Record.name_ne (r := .root i) (s := .update blockHashBase k) (by simp),
      fun key _ => Record.name_ne (r := .root i) (s := .length key) (by simp)⟩

theorem HashesCut.setIndexed (hc : HashesCut r σ τ) (hr : r<2^32) :
    HashesCut r σ (KV.write τ [.put indexedHeightKey (u32le r)]) := by
  refine hc.write (cleanBatch_of_pointers fun op hop => ?_) (.inr ?_)
  · rw [List.mem_singleton.mp hop]
    exact .inl rfl
  · rw [getIndexedHeight, readPointer, KV.get_write_put, if_pos rfl, Option.bind_some,
      readU32le_u32le hr, Option.getD_some]

theorem indexedHeightKey_not_record (P : Nat → Prop) : ¬RecordOf P indexedHeightKey := by
  intro hrec
  have hr := (recordOf_iff (x := .indexedHeight)).mp hrec
  simp at hr

/-- One height of the fast path fails before it writes, or takes the hash of that height. -/
theorem rollbackManifestHeight_cut (hσ : Bare Reserved σ) (r x : Nat) :
    (∃ e, (rollbackManifestHeight r x).run σ = ⟨[],.error e⟩) ∨
      ∃ τ, (rollbackManifestHeight r x).run σ = ⟨[τ],.ok ()⟩ ∧ Bare Reserved τ ∧
        getIndexedHeight τ = getIndexedHeight σ ∧
        ∀ h, getBlockHash τ h = if h = x then none else getBlockHash σ h := by
  have hkeep := rollbackManifestHeight_foreign (r := r) hσ (S := (· = x)) rfl σ
    (SameForeign.refl _ _ σ)
  cases hd : KV.get σ (manifestKey x) with
  | none =>
    left
    refine ⟨.panic "called `Option::unwrap()` on a `None` value",?_⟩
    rw [rollbackManifestHeight, getValue, Prog.run_read_bind, hd]
    rfl
  | some data =>
    have hrun : (rollbackManifestHeight r x).run σ = ⟨[KV.write σ
        ((deserializeKeyManifest data).flatMap (trimKey σ r) ++ heightRecordOps x)],.ok ()⟩ := by
      rw [rollbackManifestHeight, getValue, Prog.run_read_bind, hd]
      dsimp only
      rw [Prog.run_read_bind, applyAtomic_run, if_neg (by simp [heightRecordOps])]
    have hsame := hkeep _ (by rw [hrun]; exact List.mem_singleton_self _)
    obtain ⟨hbare,hhash⟩ := rollbackManifestHeight_hash hσ (Prog.exec_ok hrun)
    refine .inr ⟨_,hrun,hbare,?_,hhash⟩
    simp only [getIndexedHeight, readPointer,
      hsame _ (foreign_indexedHeightKey Reserved) (indexedHeightKey_not_record _)]

theorem mem_prefix_heightsAbove {n : Nat} {done : List Nat} (hr : r ≤ n)
    (h : done <+: (heightsAbove r n).reverse) : ∃ k, r ≤ k ∧ ∀ i, i ∈ done ↔ k < i ∧ i ≤ n := by
  have hlen : (heightsAbove r n).length = n-r := List.length_range' ..
  have hle : done.length ≤ n-r := by
    have hd := h.length_le
    rwa [List.length_reverse, hlen] at hd
  refine ⟨n-done.length,by omega,fun i => ?_⟩
  rcases Nat.eq_or_lt_of_le hr with rfl | hlt
  · have hnil : done = [] := List.eq_nil_of_length_eq_zero (by omega)
    simp [hnil]
  · have htake := List.prefix_iff_eq_take.mp h
    rw [heightsAbove_take hlt hle] at htake
    have hmem : i ∈ done ↔ i ∈ (heightsAbove (n-done.length) n).reverse := by rw [← htake]
    rw [hmem, List.mem_reverse, mem_heightsAbove]

/-- Every state that a rollback passes through is a cut. -/
theorem rollbackToHeight_cuts (hσ : Bare Reserved σ) (hr : r ≤ getIndexedHeight σ)
    (h : τ ∈ ((rollbackToHeight r).run σ).states) : HashesCut r σ τ := by
  have hr32 : r<2^32 := lt_of_le_of_lt hr (readPointer_lt ..)
  rw [rollbackToHeight, Prog.run_read_bind] at h
  -- the fast path takes the hashes from the tip down
  have hfast : ∀ ρ ∈ ((rollbackWithManifests r (getIndexedHeight σ)).run σ).states,
      HashesCut r σ ρ := by
    intro ρ hρ
    rw [rollbackWithManifests] at hρ
    split_ifs at hρ with hle
    · exact absurd hρ List.not_mem_nil
    · rw [Prog.run_read_bind] at hρ
      split_ifs at hρ with hm
      · rcases Prog.mem_states_bind hρ with hρ | ⟨_,_,_,hρ⟩
        · have hloop := Prog.forEach_states (I := fun done ρ => Bare Reserved ρ ∧
              getIndexedHeight ρ = getIndexedHeight σ ∧
              ∀ h, getBlockHash ρ h = if h ∈ done then none else getBlockHash σ h) _ ?_
            ⟨hσ,rfl,fun h => by simp⟩ hρ
          · obtain ⟨done,hpre,hbare,hptr,hhash⟩ := hloop
            obtain ⟨k,hk,hmem⟩ := mem_prefix_heightsAbove hr hpre
            refine ⟨hbare,.inl hptr,k,hk,fun h => ?_⟩
            rw [hhash]
            simp only [hmem]
          · rintro done x ρ ⟨hbare,hptr,hhash⟩
            rcases rollbackManifestHeight_cut hbare r x with hfail | ⟨ρ',hrun,hb,hp,hh⟩
            · exact .inl hfail
            · refine .inr ⟨ρ',hrun,hb,hp.trans hptr,fun h => ?_⟩
              rw [hh, hhash]
              by_cases hx : h = x <;> simp [hx]
        · exact absurd hρ List.not_mem_nil
      · exact absurd hρ List.not_mem_nil
  rcases Prog.mem_states_bind h with h | ⟨used,ρ,hx,h⟩
  · exact hfast τ h
  have hρ : HashesCut r σ ρ := by
    rcases Prog.mem_states_exec hx with rfl | hρ
    · exact .refl hσ hr
    · exact hfast ρ hρ
  have hset : ∀ ρ, HashesCut r σ ρ → ∀ υ ∈ ((setIndexedHeight r).run ρ).states, HashesCut r σ υ := by
    intro ρ hρ υ hυ
    obtain rfl := List.mem_singleton.mp hυ
    exact hρ.setIndexed hr32
  cases used with
  | true => exact hset ρ hρ τ h
  | false =>
    have hslow := rollbackSmtData_foreign (r := r) (n := getIndexedHeight σ) hρ.bare
    rcases Prog.mem_states_bind h with h | ⟨_,υ,hx',h⟩
    · exact hρ.same (hslow ρ (SameForeign.refl _ _ ρ) τ h)
    · exact hset υ (hρ.same (hslow.exec (SameForeign.refl _ _ ρ) hx')) τ h

theorem healPointersAtomic_cuts (hσ : Bare Reserved σ) (hr : r ≤ getIndexedHeight σ)
    (h : τ ∈ ((healPointersAtomic r).run σ).states) : HashesCut r σ τ := by
  have hr32 : r<2^32 := lt_of_le_of_lt hr (readPointer_lt ..)
  have hset : ∀ ρ, HashesCut r σ ρ →
      HashesCut r σ (KV.write ρ [.put indexedHeightKey (u32le r),.put tipHeightKey (u32le r)]) := by
    intro ρ hρ
    refine hρ.write (cleanBatch_of_pointers fun op hop => ?_) (.inr (pointers_healed ρ hr32).1)
    simp only [List.mem_cons, List.not_mem_nil, or_false] at hop
    rcases hop with rfl | rfl
    · exact .inl rfl
    · exact .inr (.inl rfl)
  rw [healPointersAtomic, Prog.run_read_bind, Prog.run_read_bind] at h
  split_ifs at h
  · exact absurd h List.not_mem_nil
  · exact absurd h List.not_mem_nil
  · rcases Prog.mem_states_bind h with h | ⟨_,ρ,hx,h⟩
    · exact rollbackToHeight_cuts hσ hr h
    · obtain rfl := List.mem_singleton.mp h
      apply hset
      rcases Prog.mem_states_exec hx with rfl | hρ
      · exact .refl hσ hr
      · exact rollbackToHeight_cuts hσ hr hρ
  · obtain rfl := List.mem_singleton.mp h
    exact hset σ (.refl hσ hr)

/-- The heal cuts down to a height of its choice. -/
theorem heal_cuts {node : BitcoinNodeAdapter} {config : SyncConfig} (hσ : Bare Reserved σ)
    (h : τ ∈ ((healPointerDivergenceAtStartup node config).run σ).states) :
    ∃ s ≤ getIndexedHeight σ, HashesCut s σ τ := by
  rw [healPointerDivergenceAtStartup] at h
  split_ifs at h
  · exact absurd h List.not_mem_nil
  · rw [Prog.run_read_bind] at h
    split_ifs at h
    · exact absurd h List.not_mem_nil
    · rw [Prog.run_read_bind] at h
      split_ifs at h
      · exact absurd h List.not_mem_nil
      · rw [Prog.run_read_bind] at h
        split_ifs at h
        · have hle := (Pointers.ofStore σ).safe_le σ node config.maxReorgDepth
          have hcand : (Pointers.ofStore σ).candidate ≤ getIndexedHeight σ := by
            rw [Pointers.candidate]
            exact (min_le_left _ _).trans (min_le_left _ _)
          refine ⟨_,hle.trans hcand,?_⟩
          rcases Prog.mem_states_bind h with h | ⟨_,_,_,h⟩
          · exact healPointersAtomic_cuts hσ (hle.trans hcand) h
          · exact absurd h List.not_mem_nil
        · exact absurd h List.not_mem_nil

theorem init_cuts {node : BitcoinNodeAdapter} {config : SyncConfig} (hσ : Bare Reserved σ)
    (h : τ ∈ ((init node config).run σ).states) : ∃ s ≤ getIndexedHeight σ, HashesCut s σ τ := by
  rw [init] at h
  rcases Prog.mem_states_bind h with h | ⟨_,ρ,hx,h⟩
  · exact heal_cuts hσ h
  · have hρ : ∃ s ≤ getIndexedHeight σ, HashesCut s σ ρ := by
      rcases Prog.mem_states_exec hx with rfl | hρ
      · exact ⟨_,le_rfl,.refl hσ le_rfl⟩
      · exact heal_cuts hσ hρ
    obtain ⟨s,hs,hcut⟩ := hρ
    refine ⟨s,hs,?_⟩
    rw [Prog.run_read_bind] at h
    split at h
    · exact absurd h List.not_mem_nil
    · rcases Prog.mem_states_bind h with h | ⟨_,_,_,h⟩
      · rw [storeInitialStateRoot] at h
        split_ifs at h
        · rw [Prog.run_read_bind] at h
          split at h
          · exact absurd h List.not_mem_nil
          · obtain rfl := List.mem_singleton.mp h
            refine hcut.write (cleanBatch_of_pointers fun op hop => ?_) (.inl ?_)
            · rw [List.mem_singleton.mp hop]
              exact .inr (.inr ⟨_,rfl⟩)
            · rw [getIndexedHeight, readPointer, readPointer, KV.get_write_put, if_neg]
              exact Record.name_ne (r := .root _) (s := .indexedHeight) (by simp)
        · exact absurd h List.not_mem_nil
      · exact absurd h List.not_mem_nil

/-- The reorg check cuts down to the height where its walk stops. -/
theorem handleReorg_cuts {node : BitcoinNodeAdapter} {config : SyncConfig}
    {refresh : Except String Unit} {currentHeight : Nat} (hσ : Bare Reserved σ)
    (hcur : currentHeight ≤ getIndexedHeight σ+1)
    (h : τ ∈ ((handleReorg currentHeight node refresh config).run σ).states) :
    ∃ s ≤ getIndexedHeight σ, HashesCut s σ τ := by
  rw [handleReorg] at h
  split_ifs at h
  · exact absurd h List.not_mem_nil
  · rw [Prog.run_read_bind] at h
    cases hw : reorgWalk σ node (currentHeight-config.maxReorgDepth) (currentHeight-1) false with
    | none =>
      rw [hw] at h
      exact absurd h List.not_mem_nil
    | some walk =>
      obtain ⟨rollbackHeight,reorgDetected⟩ := walk
      rw [hw] at h
      have hle := reorgWalk_le hw
      cases reorgDetected with
      | false => exact absurd h List.not_mem_nil
      | true =>
        refine ⟨rollbackHeight,by omega,?_⟩
        rcases Prog.mem_states_bind h with h | ⟨_,_,_,h⟩
        · exact rollbackToHeight_cuts hσ (by omega) h
        · cases refresh with
          | error e => exact absurd h List.not_mem_nil
          | ok u => exact absurd h List.not_mem_nil

end Cut

end Metashrew
