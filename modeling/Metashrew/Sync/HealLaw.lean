import Metashrew.Sync.Runs

namespace Metashrew

open Bytes Durable

/-- The stored hash at the height is the node's. -/
def Confirmed (σ : Store) (node : BitcoinNodeAdapter) (h : Nat) : Prop :=
  ∃ hash, getBlockHash σ h = some hash ∧ node.getBlockHash h = .ok hash

/-- What a heal that returns `s` is there for. The three pointers are read as the heal reads them. -/
structure Healed (σ : Store) (node : BitcoinNodeAdapter) (config : SyncConfig) (s : Nat)
    (σ' : Store) : Prop where
  below : s ≤ getIndexedHeight σ ∧ s ≤ getRuntimeTipHeight σ ∧
    s ≤ findMaxStoredBlockHashHeight (getIndexedHeight σ-256) σ
  together : Pointers.ofStore σ' = ⟨s,s,s⟩
  confirmed : s = 0 ∨ Confirmed σ' node s
  /-- No confirmed height is rolled back. -/
  highest : ∀ h, h ≤ getIndexedHeight σ → h ≤ getRuntimeTipHeight σ → Confirmed σ node h → h ≤ s
  /-- A second run returns the same height and writes nothing. -/
  again : ∃ o, (healPointerDivergenceAtStartup node config).run σ' = ⟨[],.ok (s,o)⟩

def HealLaw (σ : Store) (node : BitcoinNodeAdapter) (config : SyncConfig) : Prop :=
  ∀ s o σ', (healPointerDivergenceAtStartup node config).exec σ = .ok ((s,o),σ') →
    Healed σ node config s σ'

/-- The heights at which the walk down from the smallest pointer may end well: the height is
confirmed or 0, it is within reach, no higher one is confirmed, and the node knows every stored
height on the way. -/
structure WalkEnd (σ : Store) (node : BitcoinNodeAdapter) (config : SyncConfig) (g : Nat) :
    Prop where
  le : g ≤ (Pointers.ofStore σ).candidate
  confirmed : g = 0 ∨ Confirmed σ node g
  inReach : (Pointers.ofStore σ).candidate ≤ g+config.maxReorgDepth
  highest : ∀ h, g < h → h ≤ getIndexedHeight σ → h ≤ getRuntimeTipHeight σ → ¬Confirmed σ node h
  answered : ∀ h, g < h → h ≤ (Pointers.ofStore σ).candidate → (getBlockHash σ h).isSome →
    ∃ hash, node.getBlockHash h = .ok hash

/-- When the heal does what it is there for: the walk can end well, or the heal is disabled and
there is nothing to do. -/
def Healable (σ : Store) (node : BitcoinNodeAdapter) (config : SyncConfig) : Prop :=
  if config.enableStartupHeal then ∃ g, WalkEnd σ node config g
  else (Pointers.ofStore σ).allAgree = true ∧
    (getIndexedHeight σ = 0 ∨ Confirmed σ node (getIndexedHeight σ))

section Walk

variable {σ : Store} {node : BitcoinNodeAdapter} {floor c g h : Nat}

/-- The walk ends at the first confirmed height when nothing stops it before. -/
theorem safeHeight_eq (hg : g ≤ h) (hconf : g = 0 ∨ Confirmed σ node g) (hfloor : floor ≤ g)
    (hhigh : ∀ k, g < k → k ≤ h → ¬Confirmed σ node k)
    (hans : ∀ k, g < k → k ≤ h → (getBlockHash σ k).isSome → ∃ hash, node.getBlockHash k = .ok hash) :
    safeHeight σ node c floor h = g := by
  induction h with
  | zero =>
    rw [safeHeight]
    omega
  | succ h ih =>
    rw [safeHeight]
    by_cases he : g=h+1
    · subst he
      obtain hz | ⟨hash,hs,hn⟩ := hconf
      · omega
      · rw [hs, hn]
        simp
    · have hlt : g<h+1 := by omega
      have hnext : safeHeight σ node c floor h = g := by
        apply ih (by omega)
        · intro k hk hle
          exact hhigh k hk (by omega)
        · intro k hk hle
          exact hans k hk (by omega)
      have hfl : ¬h+1≤ floor := by omega
      cases hs : getBlockHash σ (h+1) with
      | none => simp only [hfl, if_false, hnext]
      | some stored =>
        obtain ⟨hash,hn⟩ := hans (h+1) hlt le_rfl (by rw [hs]; rfl)
        have hne : hash≠stored := by
          intro heq
          apply hhigh (h+1) hlt le_rfl
          exact ⟨stored,hs,by rw [hn, heq]⟩
        simp only [hn, hne, hfl, if_false, hnext]

/-- A walk that ends at 0 or at a confirmed height has passed unconfirmed heights only, and the node
has answered at each stored one. -/
theorem safeHeight_passed (hc : h ≤ c) (hf : floor ≤ h)
    (hconf : safeHeight σ node c floor h = 0 ∨ Confirmed σ node (safeHeight σ node c floor h)) :
    floor ≤ safeHeight σ node c floor h ∧
      ∀ k, safeHeight σ node c floor h < k → k ≤ h → ¬Confirmed σ node k ∧
        ((getBlockHash σ k).isSome → ∃ hash, node.getBlockHash k = .ok hash) := by
  induction h with
  | zero =>
    rw [safeHeight] at hconf ⊢
    exact ⟨by omega,fun k hk hle => by omega⟩
  | succ h ih =>
    have hstop : ∀ s, s = h+1 → floor ≤ s ∧ ∀ k, s < k → k ≤ h+1 → ¬Confirmed σ node k ∧
        ((getBlockHash σ k).isSome → ∃ hash, node.getBlockHash k = .ok hash) := by
      rintro s rfl
      exact ⟨hf,fun k hk hle => by omega⟩
    -- below `h+1` the walk goes on, unless the floor is reached
    have hpass : ¬Confirmed σ node (h+1) →
        ((getBlockHash σ (h+1)).isSome → ∃ hash, node.getBlockHash (h+1) = .ok hash) →
        safeHeight σ node c floor (h+1) =
          (if h+1 ≤ floor then h+1 else safeHeight σ node c floor h) →
        floor ≤ safeHeight σ node c floor (h+1) ∧
          ∀ k, safeHeight σ node c floor (h+1) < k → k ≤ h+1 → ¬Confirmed σ node k ∧
            ((getBlockHash σ k).isSome → ∃ hash, node.getBlockHash k = .ok hash) := by
      intro hno hans hs
      rw [hs] at hconf ⊢
      split_ifs at hconf ⊢ with hfl
      · exact hstop _ rfl
      · obtain ⟨hle,hall⟩ := ih (by omega) (by omega) hconf
        refine ⟨hle,fun k hk hkh => ?_⟩
        by_cases hk1 : k=h+1
        · subst hk1
          exact ⟨hno,hans⟩
        · exact hall k hk (by omega)
    cases hs : getBlockHash σ (h+1) with
    | none =>
      apply hpass
      · rintro ⟨hash,hstored,_⟩
        rw [hs] at hstored
        cases hstored
      · intro hsome
        rw [hs] at hsome
        cases hsome
      · rw [safeHeight, hs]
    | some stored =>
      cases hn : node.getBlockHash (h+1) with
      | error e =>
        apply hstop
        rw [safeHeight, hs, hn]
        simp only
        omega
      | ok remote =>
        by_cases heq : remote=stored
        · apply hstop
          rw [safeHeight, hs, hn]
          simp [heq]
        · apply hpass
          · rintro ⟨hash,hstored,hremote⟩
            rw [hs] at hstored
            rw [hn] at hremote
            cases hstored
            cases hremote
            exact heq rfl
          · intro _
            exact ⟨remote,hn⟩
          · rw [safeHeight, hs, hn]
            simp only [heq, if_false]

end Walk

section Law

variable {σ σ' : Store} {node : BitcoinNodeAdapter} {config : SyncConfig} {s g : Nat}

theorem Pointers.candidate_le (p : Pointers) :
    p.candidate ≤ p.indexedHeight ∧ p.candidate ≤ p.runtimeTip ∧ p.candidate ≤ p.maxBlockhash := by
  rw [candidate]
  omega

/-- The heal stays at pointers that agree, or walks. -/
theorem healedHeight_cases (σ : Store) (node : BitcoinNodeAdapter)
    (he : config.enableStartupHeal = true) :
    (healedHeight σ node config = (Pointers.ofStore σ).candidate ∧
      ((Pointers.ofStore σ).candidate = 0 ∨ (Pointers.ofStore σ).confirmed σ node = true)) ∨
    healedHeight σ node config = (Pointers.ofStore σ).safe σ node config.maxReorgDepth := by
  rw [healedHeight, he]
  cases hz : (Pointers.ofStore σ).allAgree && (Pointers.ofStore σ).indexedHeight == 0 with
  | true =>
    rw [Bool.and_eq_true, beq_iff_eq] at hz
    have hcand := candidate_of_agree hz.1
    refine .inl ⟨?_,.inl (hcand.trans hz.2)⟩
    simp only [Bool.or_true, Bool.true_or, if_true, hcand]
    rfl
  | false =>
    cases hc : (Pointers.ofStore σ).confirmed σ node with
    | true =>
      have hagree := hc
      rw [Pointers.confirmed, Bool.and_eq_true, Bool.and_eq_true] at hagree
      refine .inl ⟨?_,.inr rfl⟩
      simp only [Bool.or_true, if_true, candidate_of_agree hagree.1.1]
      rfl
    | false =>
      right
      simp

/-- The heal finds the end of the walk. -/
theorem WalkEnd.healedHeight_eq (hg : WalkEnd σ node config g) (hn : node.isConnected = true)
    (he : config.enableStartupHeal = true) : healedHeight σ node config = g := by
  have hle := (Pointers.ofStore σ).candidate_le
  have hcle := hg.le
  obtain ⟨hs,hcand⟩ | hs := healedHeight_cases σ node he
  · rw [hs]
    by_contra hne
    have hlt : g<(Pointers.ofStore σ).candidate := by omega
    obtain h0 | hc := hcand
    · omega
    · rw [Pointers.confirmed, Bool.and_eq_true] at hc
      obtain ⟨stored,hstored,hremote⟩ := (Option.any_eq_true _ _).mp hc.2
      obtain ⟨hash,hans⟩ := hg.answered _ hlt le_rfl (by rw [hstored]; rfl)
      rw [hans] at hremote
      apply hg.highest _ hlt hle.1 hle.2.1
      exact ⟨stored,hstored,by rw [hans, beq_iff_eq.mp hremote]⟩
  · rw [hs, Pointers.safe, hn, if_pos rfl]
    apply safeHeight_eq hcle hg.confirmed
    · have hreach := hg.inReach
      omega
    · intro k hk hkc
      exact hg.highest k hk (by have := hle.1; exact hkc.trans this) (hkc.trans hle.2.1)
    · exact hg.answered

/-- A height the heal settles on is the end of the walk when it is confirmed and no higher one is. -/
theorem walkEnd_healedHeight (hn : node.isConnected = true) (he : config.enableStartupHeal = true)
    (hconf : healedHeight σ node config = 0 ∨ Confirmed σ node (healedHeight σ node config))
    (hhigh : ∀ h, h ≤ getIndexedHeight σ → h ≤ getRuntimeTipHeight σ → Confirmed σ node h →
      h ≤ healedHeight σ node config) : WalkEnd σ node config (healedHeight σ node config) := by
  have hcle : healedHeight σ node config ≤ (Pointers.ofStore σ).candidate :=
    healedHeight_le_candidate he
  have hpassed : (Pointers.ofStore σ).candidate ≤ healedHeight σ node config+config.maxReorgDepth ∧
      ∀ h, healedHeight σ node config < h → h ≤ (Pointers.ofStore σ).candidate →
        (getBlockHash σ h).isSome → ∃ hash, node.getBlockHash h = .ok hash := by
    obtain ⟨hs,_⟩ | hs := healedHeight_cases σ node he
    · rw [hs]
      exact ⟨by omega,fun h hlt hle => by omega⟩
    · rw [hs, Pointers.safe, hn, if_pos rfl] at hconf ⊢
      obtain ⟨hfloor,hall⟩ := safeHeight_passed le_rfl (Nat.sub_le _ _) hconf
      refine ⟨by omega,fun h hlt hle => ?_⟩
      exact (hall h hlt hle).2
  refine ⟨hcle,hconf,hpassed.1,?_,hpassed.2⟩
  intro h hlt hi ht hc
  have := hhigh h hi ht hc
  omega

theorem healPointersAtomic_done (hσ : Bare Reserved σ) (hs : s ≤ getIndexedHeight σ) :
    ∃ σ', (healPointersAtomic s).exec σ = .ok ((),σ') := by
  rw [healPointersAtomic, Prog.exec_bind (a := getIndexedHeight σ) (t := σ) rfl,
    Prog.exec_bind (a := getRuntimeTipHeight σ) (t := σ) rfl]
  split_ifs with h1 h2 h3
  · exact ⟨σ,rfl⟩
  · omega
  · obtain ⟨τ,hroll⟩ := rollbackToHeight_done hσ s
    exact ⟨_,Prog.exec_bind hroll⟩
  · exact ⟨_,rfl⟩

/-- The heal never fails on a store without records of the reserved keys. -/
theorem heal_done (hσ : Bare Reserved σ) (node : BitcoinNodeAdapter) (config : SyncConfig) :
    ∃ o σ', (healPointerDivergenceAtStartup node config).exec σ =
      .ok ((healedHeight σ node config,o),σ') := by
  have hdone : ∃ r σ', (healPointerDivergenceAtStartup node config).exec σ = .ok (r,σ') := by
    rw [healPointerDivergenceAtStartup]
    split_ifs with hd
    · exact ⟨_,_,rfl⟩
    · rw [Prog.exec_bind (a := Pointers.ofStore σ) (t := σ) rfl]
      split_ifs
      · exact ⟨_,_,rfl⟩
      · rw [Prog.exec_bind (a := (Pointers.ofStore σ).confirmed σ node) (t := σ) rfl]
        split_ifs
        · exact ⟨_,_,rfl⟩
        · rw [Prog.exec_bind (a := (Pointers.ofStore σ).safe σ node config.maxReorgDepth) (t := σ) rfl]
          split_ifs
          · have hsafe := (Pointers.ofStore σ).safe_le σ node config.maxReorgDepth
            have hcand := (Pointers.ofStore σ).candidate_le.1
            obtain ⟨τ,hheal⟩ := healPointersAtomic_done hσ (hsafe.trans hcand)
            exact ⟨_,_,Prog.exec_bind hheal⟩
          · exact ⟨_,_,rfl⟩
  obtain ⟨⟨s,o⟩,σ',hexec⟩ := hdone
  obtain ⟨rfl,_⟩ := heal_cases hexec
  exact ⟨o,σ',hexec⟩

/-- What the heal leaves, once its height is 0 or confirmed. -/
theorem healed_of_confirmed (hσ : Bare Reserved σ)
    {o : StartupHealOutcome} (hc : (healPointerDivergenceAtStartup node config).exec σ = .ok ((s,o),σ'))
    (htip : getRuntimeTipHeight σ' = s) (hbelow : s ≤ (Pointers.ofStore σ).candidate)
    (hconf : s = 0 ∨ Confirmed σ node s)
    (hhigh : ∀ h, h ≤ getIndexedHeight σ → h ≤ getRuntimeTipHeight σ → Confirmed σ node h → h ≤ s) :
    Healed σ node config s σ' := by
  obtain ⟨_,hi,_,hkeep⟩ := heal_keeps hσ (readPointer_lt ..) hc
  have hconf' : s = 0 ∨ Confirmed σ' node s := by
    obtain h0 | ⟨hash,hstored,hremote⟩ := hconf
    · exact .inl h0
    · exact .inr ⟨hash,by rw [hkeep s le_rfl, hstored],hremote⟩
  have hstored : s = 0 ∨ (getBlockHash σ' s).isSome := by
    obtain h0 | ⟨hash,hs,_⟩ := hconf'
    · exact .inl h0
    · exact .inr (by rw [hs]; rfl)
  have hpointers : Pointers.ofStore σ' = ⟨s,s,s⟩ := by
    rw [Pointers.ofStore, htip, findMax_of_stored hi hstored, hi]
  have hle := (Pointers.ofStore σ).candidate_le
  refine ⟨⟨hbelow.trans hle.1,hbelow.trans hle.2.1,hbelow.trans hle.2.2⟩,hpointers,hconf',hhigh,?_⟩
  apply heal_stays hpointers
  obtain h0 | hc := hconf'
  · exact .inr (.inl h0)
  · exact .inr (.inr (.inr hc))

end Law

/-- The startup heal does what it is there for exactly when its walk can end well, or, disabled, when
the pointers agree at a height that needs no heal. -/
theorem heal_law_iff (σ : Store) (hσ : Bare Reserved σ) (node : BitcoinNodeAdapter)
    (hn : node.isConnected = true) (config : SyncConfig) :
    HealLaw σ node config ↔ Healable σ node config := by
  cases he : config.enableStartupHeal with
  | true =>
    rw [Healable, if_pos he]
    constructor
    · intro hlaw
      obtain ⟨o,σ',hc⟩ := heal_done hσ node config
      have hheal := hlaw _ _ _ hc
      refine ⟨_,walkEnd_healedHeight hn he ?_ hheal.highest⟩
      obtain h0 | ⟨hash,hstored,hremote⟩ := hheal.confirmed
      · exact .inl h0
      · obtain ⟨_,_,_,hkeep⟩ := heal_keeps hσ (readPointer_lt ..) hc
        exact .inr ⟨hash,by rw [← hkeep _ le_rfl, hstored],hremote⟩
    · intro h s o σ' hc
      obtain ⟨g,hg⟩ := h
      obtain ⟨rfl,_⟩ := heal_cases hc
      have hs := hg.healedHeight_eq hn he
      apply healed_of_confirmed hσ hc (heal_tip he hc)
      · exact healedHeight_le_candidate he
      · rw [hs]
        exact hg.confirmed
      · intro h hi ht hconf
        rw [hs]
        by_contra hlt
        exact hg.highest h (by omega) hi ht hconf
  | false =>
    rw [Healable, if_neg (by simp [he])]
    have hrun : (healPointerDivergenceAtStartup node config).exec σ =
        .ok ((getIndexedHeight σ,.disabled),σ) := by
      rw [healPointerDivergenceAtStartup, he]
      rfl
    have hagree : (Pointers.ofStore σ).allAgree = true ↔
        getRuntimeTipHeight σ = getIndexedHeight σ ∧
          findMaxStoredBlockHashHeight (getIndexedHeight σ-256) σ = getIndexedHeight σ := by
      simp only [Pointers.allAgree, Pointers.ofStore, Bool.and_eq_true, beq_iff_eq]
      omega
    rw [hagree]
    constructor
    · intro hlaw
      have hheal := hlaw _ _ _ hrun
      have hp := hheal.together
      rw [Pointers.ofStore, Pointers.mk.injEq] at hp
      exact ⟨hp.2,hheal.confirmed⟩
    · intro h s o σ' hc
      obtain ⟨⟨htip,hmax⟩,hconf⟩ := h
      rw [hrun] at hc
      cases hc
      apply healed_of_confirmed hσ hrun htip
      · simp only [Pointers.candidate, Pointers.ofStore]
        omega
      · exact hconf
      · intro h hi _ _
        exact hi

private def chainBatch (h : Nat) : List Op := [.put tipHeightKey (u32le h)]

private theorem chainBatch_clean (h : Nat) : CleanBatch (chainBatch h) := by
  intro op hop
  rw [List.mem_singleton.mp hop]
  constructor
  · intro k
    exact Record.name_ne (r := .tipHeight) (s := .update blockHashBase k) (by simp)
  · intro key _
    exact Record.name_ne (r := .tipHeight) (s := .length key) (by simp)

/-- A store with the blocks 0, 1 and 2. -/
private def threeBlocks : Store :=
  KV.write (KV.write (KV.write ∅ (commitOps 0 [0] [8] (chainBatch 0)))
    (commitOps 1 [1] [8] (chainBatch 1))) (commitOps 2 [2] [8] (chainBatch 2))

private theorem threeBlocks_bare : Bare Reserved threeBlocks := by
  have h0 : Bare Reserved (∅ : Store) := fun _ _ => KV.get_empty _
  exact commitOps_bare (commitOps_bare (commitOps_bare h0 (chainBatch_clean 0)) (chainBatch_clean 1))
    (chainBatch_clean 2)

/-- A node whose chain leaves the stored one after block 0. -/
private def forked : BitcoinNodeAdapter where
  isConnected := true
  getTipHeight := .ok 2
  getBlockHash
    | 0 => .ok [0]
    | h+1 => .ok [9,h.toUInt8]
  getBlockData _ := .error "unused"

private def reach (maxReorgDepth : Nat) : SyncConfig where
  startBlock := 0
  exitAt := none
  maxReorgDepth
  reorgCheckThreshold := 6
  enableStartupHeal := true

theorem heal_law_two_forked_blocks : HealLaw threeBlocks forked (reach 2) := by
  apply (heal_law_iff threeBlocks threeBlocks_bare forked rfl (reach 2)).mpr
  have hidx : getIndexedHeight threeBlocks = 2 := by decide +kernel
  have hcand : (Pointers.ofStore threeBlocks).candidate = 2 := by decide +kernel
  have hhash : getBlockHash threeBlocks 1 = some [1] ∧ getBlockHash threeBlocks 2 = some [2] := by
    decide +kernel
  rw [Healable, if_pos (by rfl)]
  refine ⟨0,Nat.zero_le _,.inl rfl,by rw [hcand]; decide,?_,?_⟩
  · intro h hpos hle _ ⟨hash,hstored,hremote⟩
    rw [hidx] at hle
    obtain rfl | rfl : h = 1 ∨ h = 2 := by omega
    · rw [hhash.1] at hstored
      cases hstored
      cases hremote
    · rw [hhash.2] at hstored
      cases hstored
      cases hremote
  · intro h hpos _ _
    obtain ⟨k,rfl⟩ := Nat.exists_eq_succ_of_ne_zero (Nat.pos_iff_ne_zero.mp hpos)
    exact ⟨_,rfl⟩

/-- With a reach of one block the heal settles on block 1, which the node does not have. -/
theorem heal_settles_on_fork :
    ¬∀ σ node config, node.isConnected = true → HealLaw σ node config := by
  intro hall
  have hlaw := hall threeBlocks forked (reach 1) rfl
  have hrun : ((healPointerDivergenceAtStartup forked (reach 1)).exec threeBlocks).toOption.any
      (fun done => done.1.1 == 1 && getBlockHash done.2 1 == some [1]) = true := by decide +kernel
  cases hc : (healPointerDivergenceAtStartup forked (reach 1)).exec threeBlocks with
  | error e =>
    rw [hc] at hrun
    cases hrun
  | ok done =>
    rw [hc] at hrun
    simp only [Except.toOption, Option.any_some, Bool.and_eq_true, beq_iff_eq] at hrun
    obtain hs | ⟨hash,hstored,hremote⟩ := (hlaw _ _ _ hc).confirmed
    · rw [hrun.1] at hs
      cases hs
    · rw [hrun.1, hrun.2] at hstored
      rw [hrun.1] at hremote
      cases hstored
      cases hremote

end Metashrew
