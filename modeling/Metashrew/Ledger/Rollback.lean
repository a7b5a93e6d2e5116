import Metashrew.Ledger.Trim

namespace Metashrew

open Bytes Durable Versioned

namespace Ledger

/-- `L'` is `L` with some keys cut down to height `r` and some records above `r` gone: what any part
of a rollback to `r` leaves. -/
structure PartlyRolledBack (L : Ledger) (r : Nat) (L' : Ledger) : Prop where
  history : ∀ key, L'.history key = L.history key ∨ L'.history key = upTo r (L.history key)
  manifest : ∀ h, L'.manifest h = L.manifest h ∨ r<h ∧ L'.manifest h = none
  root : ∀ h, L'.root h = L.root h ∨ r<h ∧ L'.root h = none
  hash : ∀ h, L'.hash h = L.hash h ∨ r<h ∧ L'.hash h = none
  tip : L'.tip = L.tip
  indexed : L'.indexed = L.indexed

namespace PartlyRolledBack

variable {L L' L'' : Ledger} {n r : Nat}

theorem refl (L : Ledger) (r : Nat) : L.PartlyRolledBack r L where
  history _ := .inl rfl
  manifest _ := .inl rfl
  root _ := .inl rfl
  hash _ := .inl rfl
  tip := rfl
  indexed := rfl

theorem trans (h : L.PartlyRolledBack r L') (h' : L'.PartlyRolledBack r L'') :
    L.PartlyRolledBack r L'' where
  history key := by
    rcases h'.history key with h1 | h1 <;> rcases h.history key with h2 | h2
    · exact .inl (h1.trans h2)
    · exact .inr (h1.trans h2)
    · exact .inr (by rw [h1, h2])
    · exact .inr (by rw [h1, h2, upTo_upTo_of_le le_rfl])
  manifest i := by
    rcases h'.manifest i with h1 | h1
    · rw [h1]; exact h.manifest i
    · exact .inr h1
  root i := by
    rcases h'.root i with h1 | h1
    · rw [h1]; exact h.root i
    · exact .inr h1
  hash i := by
    rcases h'.hash i with h1 | h1
    · rw [h1]; exact h.hash i
    · exact .inr h1
  tip := h'.tip.trans h.tip
  indexed := h'.indexed.trans h.indexed

theorem mem_history (h : L.PartlyRolledBack r L') {key : Bytes} {e : Nat × Bytes}
    (he : e ∈ L'.history key) : e ∈ L.history key := by
  rcases h.history key with hk | hk
  · rwa [hk] at he
  · rw [hk] at he
    exact (mem_upTo.mp he).1

private theorem some_of_some {α : Type} {o o' : Option α} {P : Prop} {a : α}
    (h : o' = o ∨ P ∧ o' = none) (ha : o' = some a) : o = some a := by
  rcases h with h | ⟨_,h⟩
  · rw [← h, ha]
  · rw [h] at ha
    cases ha

private theorem none_of_none {α : Type} {o o' : Option α} {P : Prop}
    (h : o' = o ∨ P ∧ o' = none) (ha : o = none) : o' = none := by
  rcases h with h | ⟨_,h⟩
  · rw [h, ha]
  · exact h

theorem covered (h : L.PartlyRolledBack r L') (hc : L.Covered) : L'.Covered :=
  fun key e he keys hk => hc key e (h.mem_history he) keys (some_of_some (h.manifest e.1) hk)

theorem sound (h : L.PartlyRolledBack r L') (hL : L.Sound n) : L'.Sound n where
  reserved key hk := by
    rcases h.history key with h1 | h1
    · rw [h1, hL.reserved key hk]
    · rw [h1, hL.reserved key hk, upTo_nil]
  ordered key := by
    rcases h.history key with h1 | h1
    · rw [h1]; exact hL.ordered key
    · rw [h1]; exact (hL.ordered key).upTo r
  below key e he := hL.below key e (h.mem_history he)
  short key := by
    rcases h.history key with h1 | h1
    · rw [h1]; exact hL.short key
    · rw [h1]; exact lt_of_le_of_lt (upTo_length_le ..) (hL.short key)
  sized i keys hk := hL.sized i keys (some_of_some (h.manifest i) hk)
  unwritten i hi := by
    obtain ⟨h1,h2,h3⟩ := hL.unwritten i hi
    exact ⟨none_of_none (h.root i) h1,none_of_none (h.manifest i) h2,none_of_none (h.hash i) h3⟩

end PartlyRolledBack

theorem trimKeys_partly (L : Ledger) (r : Nat) (keys : List Bytes) :
    L.PartlyRolledBack r (L.trimKeys r keys) := by
  refine { PartlyRolledBack.refl L r with history := fun key => ?_ }
  by_cases hk : key ∈ keys <;> simp [trimKeys, hk]

theorem dropRoots_partly (L : Ledger) (r : Nat) : L.PartlyRolledBack r (L.dropRoots r) := by
  refine { PartlyRolledBack.refl L r with root := fun h => ?_ }
  by_cases hh : r<h
  · exact .inr ⟨hh,if_pos hh⟩
  · exact .inl (if_neg hh)

/-- What the fast rollback to `r` has done after the listed heights. -/
def unwind (L : Ledger) (r : Nat) (heights : List Nat) : Ledger where
  history key := if key ∈ heights.flatMap fun h => (L.manifest h).getD [] then upTo r (L.history key)
    else L.history key
  manifest h := if h ∈ heights then none else L.manifest h
  root h := if h ∈ heights then none else L.root h
  hash h := if h ∈ heights then none else L.hash h
  tip := L.tip
  indexed := L.indexed

theorem unwind_nil (L : Ledger) (r : Nat) : L.unwind r [] = L := by
  simp [unwind]

theorem unwind_partly (L : Ledger) {r : Nat} (heights : List Nat) (hr : ∀ h ∈ heights, r<h) :
    L.PartlyRolledBack r (L.unwind r heights) where
  history key := by
    by_cases hk : key ∈ heights.flatMap fun h => (L.manifest h).getD []
    · exact .inr (if_pos hk)
    · exact .inl (if_neg hk)
  manifest h := by
    by_cases hh : h∈heights
    · exact .inr ⟨hr h hh,if_pos hh⟩
    · exact .inl (if_neg hh)
  root h := by
    by_cases hh : h∈heights
    · exact .inr ⟨hr h hh,if_pos hh⟩
    · exact .inl (if_neg hh)
  hash h := by
    by_cases hh : h∈heights
    · exact .inr ⟨hr h hh,if_pos hh⟩
    · exact .inl (if_neg hh)
  tip := rfl
  indexed := rfl

/-- One more height: the keys of its manifest, then its records. -/
theorem unwind_step (L : Ledger) (r : Nat) (heights : List Nat) (h : Nat) (keys : List Bytes)
    (hk : L.manifest h = some keys) :
    ((L.unwind r heights).trimKeys r keys).dropHeight h = L.unwind r (heights ++ [h]) := by
  have hget : (L.manifest h).getD [] = keys := by rw [hk]; rfl
  have hhist : ∀ key, ((L.unwind r heights).trimKeys r keys).history key =
      (L.unwind r (heights ++ [h])).history key := by
    intro key
    simp only [trimKeys, unwind, List.flatMap_append, List.flatMap_singleton, hget, List.mem_append]
    by_cases h1 : key ∈ keys <;>
      by_cases h2 : key ∈ heights.flatMap fun h => (L.manifest h).getD [] <;>
      simp [h1, h2, upTo_upTo_of_le]
  have hrec : ∀ {α : Type} (f : Nat → Option α), Function.update
      (fun i => if i ∈ heights then none else f i) h none =
        fun i => if i ∈ heights ++ [h] then none else f i := by
    intro α f
    funext i
    by_cases hi : i=h
    · subst hi; simp
    · simp [hi]
  change Ledger.mk _ _ _ _ _ _ = Ledger.mk _ _ _ _ _ _
  congr 1
  · exact funext hhist
  · exact hrec L.root
  · exact hrec L.manifest
  · exact hrec L.hash

end Ledger

theorem applyAtomic_run {σ : Store} (ops : List Op) :
    (applyAtomic ops).run σ =
      ⟨if ops = [] then [] else [KV.write σ ops],.ok ()⟩ := by
  rw [applyAtomic]
  split_ifs <;> rfl

section Fast

variable {σ : Store} {L : Ledger} {n r m : Nat}

theorem Represents.dropHeight (hσ : Represents σ L) (h : Nat) :
    Represents (KV.write σ (heightRecordOps h)) (L.dropHeight h) := by
  have hsplit : ∀ τ : Store, ∀ a b c d e : Op, KV.write τ [a,b,c,d,e] =
      KV.write (KV.write (KV.write (KV.write (KV.write τ [a]) [b]) [c]) [d]) [e] :=
    fun _ _ _ _ _ _ => rfl
  rw [heightRecordOps, hsplit]
  have h1 := (hσ.setManifest h (w := .delete (manifestKey h)) (k := none) rfl rfl).setRoot h
    (w := .delete (rootKey h)) rfl
  have h2 := h1.delete_absent (r := .blockHashMeta h) rfl
  have h3 := h2.delete_absent (r := .stateRootMeta h) rfl
  exact h3.setHash h (w := .delete (blockHashKey h)) rfl

/-- One height of the fast rollback is one write. -/
theorem rollbackManifestHeight_run (hσ : Represents σ L) (hL : L.Sound n) (hn : n≤2^32)
    {h : Nat} {keys : List Bytes} (hk : L.manifest h = some keys) :
    ∃ σ', (rollbackManifestHeight r h).run σ = ⟨[σ'],.ok ()⟩ ∧
      Represents σ' ((L.trimKeys r keys).dropHeight h) := by
  have hget : KV.get σ (manifestKey h) = some (serializeKeyManifest keys) := by
    rw [hσ.get_manifest, hk]
    rfl
  have htrim := TrimsKey.flatMap (trimKey_trims (r := r) hσ hL hn) hσ keys
  refine ⟨KV.write σ (keys.flatMap (trimKey σ r) ++ heightRecordOps h),?_,?_⟩
  · rw [rollbackManifestHeight, getValue, Prog.run_read_bind, hget]
    dsimp only
    rw [Prog.run_read_bind, deserialize_serialize (hL.sized h keys hk), applyAtomic_run,
      if_neg (by simp [heightRecordOps])]
  · rw [KV.write_append]
    exact htrim.dropHeight h

theorem mem_heightsAbove {h : Nat} : h ∈ heightsAbove r m ↔ r<h ∧ h≤ m := by
  rw [heightsAbove, List.mem_range'_1]
  omega

theorem manifestsExist_iff (hσ : Represents σ L) :
    manifestsExist σ r m = true ↔ ∀ h, r<h → h≤ m → L.manifest h ≠ none := by
  simp only [manifestsExist, List.all_eq_true, mem_heightsAbove, and_imp, hσ.get_manifest,
    Option.isSome_map, Option.isSome_iff_ne_none]

/-- The fast rollback undoes one height with each write, newest first. -/
theorem rollbackWithManifests_run (hσ : Represents σ L) (hL : L.Sound n) (hn : n≤2^32) (hr : r < m)
    (hm : manifestsExist σ r m = true) :
    ∃ ss, (rollbackWithManifests r m).run σ = ⟨ss,.ok true⟩ ∧ ss.length = m-r ∧
      ∀ j σ', (σ::ss)[j]? = some σ' →
        Represents σ' (L.unwind r ((heightsAbove r m).reverse.take j)) := by
  have hstep : ∀ done h rest τ, (heightsAbove r m).reverse = done ++ h::rest →
      Represents τ (L.unwind r done) → ∃ τ', (rollbackManifestHeight r h).run τ = ⟨[τ'],.ok ()⟩ ∧
        Represents τ' (L.unwind r (done ++ [h])) := by
    intro done h rest τ hsplit hτ
    have hmem : ∀ i ∈ done ++ h::rest, r < i ∧ i≤ m := fun i hi =>
      mem_heightsAbove.mp (List.mem_reverse.mp (hsplit ▸ hi))
    have hnd : (done ++ h::rest).Nodup := by
      rw [← hsplit, List.nodup_reverse]
      exact List.nodup_range'
    have hh : h∉done := fun hd =>
      (List.nodup_append.mp hnd).2.2 h hd h (by simp) rfl
    obtain ⟨hrh,hhm⟩ := hmem h (by simp)
    obtain ⟨keys,hk⟩ := Option.ne_none_iff_exists'.mp ((manifestsExist_iff hσ).mp hm h hrh hhm)
    have hpart := L.unwind_partly (r := r) done fun i hi => (hmem i (by simp [hi])).1
    have hman : (L.unwind r done).manifest h = some keys := by rw [← hk]; exact if_neg hh
    obtain ⟨τ',hrun,hrep⟩ := rollbackManifestHeight_run (r := r) hτ (hpart.sound hL) hn hman
    rw [Ledger.unwind_step L r done h keys hk] at hrep
    exact ⟨τ',hrun,hrep⟩
  obtain ⟨ss,hrun,hlen,hinv⟩ := Prog.forEach_spec (heightsAbove r m).reverse hstep σ
    (by rw [Ledger.unwind_nil]; exact hσ)
  refine ⟨ss,?_,by simpa [heightsAbove] using hlen,hinv⟩
  rw [rollbackWithManifests, if_neg (by omega), Prog.run_read_bind, if_pos hm,
    Prog.run_bind_ok hrun]
  simp

theorem rollbackWithManifests_missing (hr : r < m) (hm : manifestsExist σ r m = false) :
    (rollbackWithManifests r m).run σ = ⟨[],.ok false⟩ := by
  rw [rollbackWithManifests, if_neg (by omega), Prog.run_read_bind, hm]
  rfl

end Fast

section Names

theorem stripPrefix_eq_some {pre key rest : Bytes} (h : stripPrefix pre key = some rest) :
    key = pre ++ rest := by
  rw [stripPrefix] at h
  split_ifs at h with hp
  obtain ⟨t,ht⟩ := List.isPrefixOf_iff_prefix.mp hp
  rw [← Option.some.inj h, ← ht, List.drop_left]

theorem stripPrefix_append (pre rest : Bytes) : stripPrefix pre (pre ++ rest) = some rest := by
  rw [stripPrefix, if_pos (List.isPrefixOf_iff_prefix.mpr (List.prefix_append pre rest)),
    List.drop_left]

theorem stripLengthSuffix_eq_some {name key : Bytes} :
    stripLengthSuffix name = some key ↔ name = lengthKey key := by
  rw [stripLengthSuffix]
  constructor
  · intro h
    split_ifs at h with hs
    obtain ⟨t,ht⟩ := List.isSuffixOf_iff_suffix.mp hs
    rw [← ht, List.length_append, Nat.add_sub_cancel, List.take_left, Option.some.injEq] at h
    rw [← ht, h, lengthKey]
  · rintro rfl
    rw [lengthKey, if_pos (List.isSuffixOf_iff_suffix.mpr (List.suffix_append key lengthSuffix)),
      List.length_append, Nat.add_sub_cancel, List.take_left]

private theorem parse_of_strip (pre : Bytes) {name : Bytes} (hp : (47:UInt8) ∉ pre) (hs : (47:UInt8) ∈ name) :
    (stripPrefix pre name).bind parseU32 = none := by
  cases h : stripPrefix pre name with
  | none => rfl
  | some rest =>
    have he := stripPrefix_eq_some h
    rw [he, List.mem_append] at hs
    exact parseU32_eq_none (by decide) (by decide) (hs.resolve_left hp)

/-- A name with a slash in it is no metadata name. -/
theorem metadataHeight_of_slash {name : Bytes} (hs : (47:UInt8) ∈ name) :
    metadataHeight name = none := by
  have h1 := parse_of_strip (ascii "block_hash_") (by decide) hs
  have h2 := parse_of_strip (ascii "state_root_") (by decide) hs
  have h3 := parse_of_strip smtRootPrefix (by decide) hs
  rw [metadataHeight]
  cases hb : stripPrefix (ascii "block_hash_") name with
  | some rest => rwa [hb] at h1
  | none =>
    cases hr : stripPrefix (ascii "state_root_") name with
    | some rest => rwa [hr] at h2
    | none => exact h3

theorem metadataHeight_rootKey {h : Nat} (hh : h<2^32) : metadataHeight (rootKey h) = some h := by
  have h1 : stripPrefix (ascii "block_hash_") (rootKey h) = none := rfl
  have h2 : stripPrefix (ascii "state_root_") (rootKey h) = none := rfl
  rw [metadataHeight, h1]
  dsimp only
  rw [h2, rootKey, stripPrefix_append]
  exact parseU32_decimal hh

end Names

section Slow

variable {σ : Store} {L : Ledger} {n r m : Nat}

/-- The structures the slow rollback works through, in its order. -/
def smtStructures (σ : Store) : List Bytes := KV.sortedKeys (baseKeys σ.keys)

/-- A structure is a key with a length record. -/
theorem mem_smtStructures_iff (σ : Store) (key : Bytes) :
    key ∈ smtStructures σ ↔ KV.get σ (lengthKey key) ≠ none := by
  rw [smtStructures, KV.mem_sortedKeys, baseKeys, List.mem_filterMap]
  constructor
  · rintro ⟨name,hname,hs⟩
    split_ifs at hs
    rw [stripLengthSuffix_eq_some] at hs
    rw [← hs]
    exact (KV.mem_keys_iff σ name).mp hname
  · intro h
    refine ⟨lengthKey key,(KV.mem_keys_iff σ _).mpr h,?_⟩
    rw [metadataHeight_of_slash (slash_mem_lengthKey key), stripLengthSuffix_eq_some.mpr rfl]
    rfl

theorem mem_smtStructures (hσ : Represents σ L) {key : Bytes} :
    key ∈ smtStructures σ ↔ L.history key ≠ [] := by
  rw [mem_smtStructures_iff, hσ.get_length]
  cases L.history key <;> simp [Ledger.lengthRecord]

private theorem metadataHeight_record (rec : Record) (h : Nat)
    (hm : metadataHeight rec.name = some h) :
    (∃ i, rec = .root i ∧ (i < 2^32 → i = h)) ∨ (∃ i, rec = .blockHashMeta i) ∨
      ∃ i, rec = .stateRootMeta i := by
  have hslash : ∀ name : Bytes, metadataHeight name = some h → (47:UInt8) ∉ name := by
    intro name hn hs
    rw [metadataHeight_of_slash hs] at hn
    cases hn
  cases rec with
  | length key => exact absurd (slash_mem_lengthKey key) (hslash _ hm)
  | update key i => exact absurd (slash_mem_updateKey key i) (hslash _ hm)
  | root i =>
    refine .inl ⟨i,rfl,fun hi => ?_⟩
    have he := metadataHeight_rootKey hi
    exact Option.some.inj (he.symm.trans hm)
  | blockHashMeta i => exact .inr (.inl ⟨i,rfl⟩)
  | stateRootMeta i => exact .inr (.inr ⟨i,rfl⟩)
  | tipHeight => exact absurd (by decide) (hslash _ hm)
  | indexedHeight => exact absurd (by decide) (hslash _ hm)

private theorem mem_metadataKeys {keys : List Bytes} {name : Bytes} :
    name ∈ metadataKeysToDelete r keys ↔ name ∈ keys ∧ ∃ h, metadataHeight name = some h ∧ r < h := by
  rw [metadataKeysToDelete, List.mem_filter]
  cases metadataHeight name <;> simp

theorem rootKey_mem_metadataKeys (hσ : Represents σ L) {h : Nat} (hh : h<2^32) (hr : r < h)
    (hroot : L.root h ≠ none) : rootKey h ∈ metadataKeysToDelete r σ.keys := by
  refine mem_metadataKeys.mpr ⟨(KV.mem_keys_iff σ _).mpr ?_,h,metadataHeight_rootKey hh,hr⟩
  rwa [hσ.get_root]

/-- The first batch of the slow rollback deletes the roots above `r` and nothing else. -/
theorem Represents.dropRoots (hσ : Represents σ L) (hL : L.Sound n) (hn : n≤2^32) :
    Represents (KV.write σ ((metadataKeysToDelete r σ.keys).map .delete)) (L.dropRoots r) := by
  refine hσ.write fun rec => ?_
  rw [KV.effect_deletes]
  split_ifs with hmem
  · obtain ⟨hkey,h,hm,hr⟩ := mem_metadataKeys.mp hmem
    have hget := (KV.mem_keys_iff σ rec.name).mp hkey
    rw [hσ rec] at hget
    rcases metadataHeight_record rec h hm with ⟨i,rfl,hi⟩ | ⟨i,rfl⟩ | ⟨i,rfl⟩
    · have hlt : i<n := by
        by_contra hge
        exact hget (hL.unwritten i (by omega)).1
      have hih := hi (by omega)
      exact (if_pos (hih ▸ hr)).symm
    · rfl
    · rfl
  · cases rec with
    | root i =>
      change L.root i = if r < i then none else L.root i
      split_ifs with hi
      · by_contra hne
        have hlt : i<n := by
          by_contra hge
          exact hne (hL.unwritten i (by omega)).1
        exact hmem (rootKey_mem_metadataKeys hσ (by omega) hi hne)
      · rfl
    | _ => rfl

theorem rollbackStructure_run (hσ : Represents σ L) (hL : L.Sound n) (hn : n≤2^32) {key : Bytes}
    (hk : L.history key ≠ []) : ∃ σ', (rollbackStructure r key).run σ = ⟨[σ'],.ok ()⟩ ∧
      Represents σ' (L.trimKeys r [key]) := by
  have hplain : ¬Reserved key := fun hr => hk (hL.reserved key hr)
  have hparse : parseLength (decimal (L.history key).length) = (L.history key).length := by
    rw [parseLength, parseU32_decimal (hL.short key)]
    rfl
  have htrims := compactionOps_trims (r := r) hσ hL hn hplain
  refine ⟨KV.write σ (compactionOps σ r key (L.history key).length),?_,htrims.write hσ⟩
  rw [rollbackStructure, getValue, Prog.run_read_bind, hσ.get_length,
    Ledger.lengthRecord_of_ne_nil hk]
  dsimp only
  rw [Prog.run_read_bind, hparse, applyAtomic_run, if_neg (by simp [compactionOps])]

theorem Ledger.trimKeys_append (L : Ledger) (r : Nat) (xs ys : List Bytes) :
    (L.trimKeys r xs).trimKeys r ys = L.trimKeys r (xs ++ ys) := by
  simp only [trimKeys, mk.injEq, and_true, List.mem_append]
  funext key
  by_cases hx : key∈xs <;> by_cases hy : key∈ys <;> simp [hx, hy, upTo_upTo_of_le]

theorem Ledger.trimKeys_nil (L : Ledger) (r : Nat) : L.trimKeys r [] = L := by
  simp [trimKeys]

/-- The writes of the slow rollback: the metadata records, when there are any, which leads to `τ`,
then one structure after the other. -/
theorem rollbackSmtData_run (hσ : Represents σ L) (hL : L.Sound n) (hn : n≤2^32) (hr : r < m) :
    ∃ τ ss, (rollbackSmtData r m).run σ =
        ⟨(if metadataKeysToDelete r σ.keys = [] then [] else [τ]) ++ ss,.ok ()⟩ ∧
      (metadataKeysToDelete r σ.keys = [] → τ = σ) ∧ ss.length = (smtStructures σ).length ∧
      ∀ i σ', (τ::ss)[i]? = some σ' →
        Represents σ' ((L.dropRoots r).trimKeys r ((smtStructures σ).take i)) := by
  have hτ := hσ.dropRoots (r := r) hL hn
  have hD := (L.dropRoots_partly r).sound hL
  have hstep : ∀ done key rest ρ, smtStructures σ = done ++ key::rest →
      Represents ρ ((L.dropRoots r).trimKeys r done) →
      ∃ ρ', (rollbackStructure r key).run ρ = ⟨[ρ'],.ok ()⟩ ∧
        Represents ρ' ((L.dropRoots r).trimKeys r (done ++ [key])) := by
    intro done key rest ρ hsplit hρ
    have hnd : (done ++ key::rest).Nodup := hsplit ▸ KV.nodup_sortedKeys _
    have hout : key∉done := fun hd => (List.nodup_append.mp hnd).2.2 key hd key (by simp) rfl
    have hhist : L.history key ≠ [] := (mem_smtStructures hσ).mp (hsplit ▸ by simp)
    have hne : ((L.dropRoots r).trimKeys r done).history key ≠ [] := by
      change (if key ∈ done then _ else L.history key) ≠ []
      rwa [if_neg hout]
    have hsound := ((L.dropRoots r).trimKeys_partly r done).sound hD
    rw [← Ledger.trimKeys_append]
    exact rollbackStructure_run hρ hsound hn hne
  obtain ⟨ss,hrun,hlen,hinv⟩ := Prog.forEach_spec (smtStructures σ) hstep
    (KV.write σ ((metadataKeysToDelete r σ.keys).map .delete))
    (by rw [Ledger.trimKeys_nil]; exact hτ)
  refine ⟨_,ss,?_,fun hnil => by rw [hnil]; rfl,hlen,hinv⟩
  rw [rollbackSmtData, if_neg (by omega), Prog.run_read_bind, Prog.run_bind_ok (applyAtomic_run _)]
  by_cases hnil : metadataKeysToDelete r σ.keys=[]
  · simp only [hnil, List.map_nil, KV.write_nil, if_true, List.nil_append, List.getLastD_nil]
      at hrun ⊢
    change Trace.mk ((Prog.forEach (smtStructures σ) _).run σ).states
      ((Prog.forEach (smtStructures σ) _).run σ).result = _
    rw [hrun]
  · simp only [List.map_eq_nil_iff, hnil, if_false]
    change Trace.mk (_ ++ ((Prog.forEach (smtStructures σ) _).run _).states)
      ((Prog.forEach (smtStructures σ) _).run _).result = _
    rw [List.getLastD_cons, List.getLastD_nil, hrun]

end Slow

end Metashrew
