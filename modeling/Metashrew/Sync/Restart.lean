import Metashrew.Sync.InOrder

namespace Metashrew

open Bytes Durable

/-- The cursor after a restart: the storage accepts it next, and it is the height after the last
committed block. -/
structure RestartLaw (σ : Store) (heights : List Nat) (cursor : Nat) : Prop where
  accepted : ∀ blockHash stateRoot ops,
    ∃ σ', (commitAtomic cursor blockHash stateRoot ops).exec σ = .ok ((),σ')
  next : ∀ t, heights.getLast? = some t → cursor = t+1

/-- The condition on the height the heal settles on: a tip of 0 is the empty store or the start
block is 1, and no tip lies further below the start block than by one. -/
def Restartable (σ : Store) (t startBlock : Nat) : Prop :=
  (t = 0 ∧ getBlockHash σ 0 = none) ∨ (t = 0 ∧ startBlock = 1) ∨ (0 < t ∧ startBlock ≤ t+1)

section Init

variable {σ σ' : Store} {l : Log} {node : BitcoinNodeAdapter} {config : SyncConfig} {cursor : Nat}

theorem storeInitialStateRoot_get {t : Nat} (x : Record) (hx : ∀ h, x ≠ .root h)
    (hc : (storeInitialStateRoot config t).exec σ = .ok ((),σ')) :
    KV.get σ' x.name = KV.get σ x.name := by
  rw [storeInitialStateRoot] at hc
  split_ifs at hc with h0
  · rw [Prog.exec_bind (a := getSmtRootAtHeight (rocksDB σ) (config.startBlock-1)) (t := σ) rfl] at hc
    cases hroot : getSmtRootAtHeight (rocksDB σ) (config.startBlock-1) with
    | ok root =>
      rw [hroot] at hc
      cases hc
      rfl
    | error e =>
      rw [hroot] at hc
      cases hc
      apply KV.get_write_of_not_mem
      intro op hop he
      rw [List.mem_singleton.mp hop] at he
      exact hx _ (Record.name_injective (r := .root (config.startBlock-1)) he).symm
  · cases hc
    rfl

/-- A restart is the heal, then the start height, then at most one state root. -/
theorem init_cases (hc : (init node config).exec σ = .ok (cursor,σ')) :
    ∃ s o τ, (healPointerDivergenceAtStartup node config).exec σ = .ok ((s,o),τ) ∧
      startHeight config (getIndexedHeight τ) = .ok cursor ∧
      ∀ x : Record, (∀ h, x ≠ .root h) → KV.get σ' x.name = KV.get τ x.name := by
  obtain ⟨⟨s,o⟩,τ,hheal,hc⟩ := Prog.exec_bind_ok hc
  obtain ⟨i,_,hread,hc⟩ := Prog.exec_bind_ok hc
  cases hread
  cases hstart : startHeight config (getIndexedHeight τ) with
  | error e =>
    rw [hstart] at hc
    cases hc
  | ok start =>
    rw [hstart] at hc
    obtain ⟨_,ρ,hroot,hc⟩ := Prog.exec_bind_ok hc
    cases hc
    exact ⟨s,o,τ,hheal,hstart,fun x hx => storeInitialStateRoot_get x hx hroot⟩

/-- The store after a restart has the log of the healed one. -/
theorem InOrder.init (hl : InOrder σ l) (hc : (Metashrew.init node config).exec σ = .ok (cursor,σ')) :
    InOrder σ' (l.rollback (healedHeight σ node config)) ∧
      getIndexedHeight σ' = healedHeight σ node config ∧
      getBlockHash σ' 0 = getBlockHash σ 0 ∧
      startHeight config (healedHeight σ node config) = .ok cursor := by
  obtain ⟨s,o,τ,hheal,hstart,hget⟩ := init_cases hc
  obtain ⟨rfl,_⟩ := heal_cases hheal
  obtain ⟨hs,hi,hb,hk⟩ := heal_keeps hl.bare hl.lt hheal
  have hi' : getIndexedHeight σ' = getIndexedHeight τ := by
    have hp := hget .indexedHeight (by simp)
    simp only [Record.name] at hp
    rw [getIndexedHeight, readPointer, readPointer, hp]
  have hk' : ∀ h, getBlockHash σ' h = getBlockHash τ h := fun h =>
    hget (.update blockHashBase h) (by simp)
  have hb' : Bare Reserved σ' := fun key hr => (hget (.length key) (by simp)).trans (hb key hr)
  rw [hi] at hi' hstart
  refine ⟨hl.lower hs hi' hb' fun h hh => (hk' h).trans (hk h hh),hi',?_,hstart⟩
  exact (hk' 0).trans (hk 0 (Nat.zero_le _))

end Init

/-- The law of the cursor from the height, the hash of block 0 and the log. -/
theorem restartLaw_iff {σ : Store} {l : Log} {config : SyncConfig} {cursor : Nat} (hl : InOrder σ l)
    (hstart : startHeight config l.tip = .ok cursor) :
    RestartLaw σ l.heights cursor ↔ Restartable σ l.tip config.startBlock := by
  obtain ⟨first,hle,hrange⟩ := hl.heights
  have hsmall := hl.small
  have hlast : l.heights ≠ [] → l.heights.getLast? = some l.tip := by
    intro hne
    rw [hrange] at hne ⊢
    have hpos : l.tip+1-first ≠ 0 := fun h0 => hne (by rw [h0]; rfl)
    rw [List.getLast?_range', if_neg hpos]
    congr 1
    omega
  have hnext : cursor = l.tip+1 → RestartLaw σ l.heights cursor := by
    intro hcur
    constructor
    · intro blockHash stateRoot ops
      apply (commitAtomic_accepts ..).mpr
      right
      rw [hl.tip, saturatingSucc]
      omega
    · intro t ht
      rw [hlast (fun h => by rw [h] at ht; cases ht)] at ht
      cases ht
      exact hcur
  have hneeds : isFreshDb σ = false → RestartLaw σ l.heights cursor → cursor = l.tip+1 := by
    intro hf hlaw
    have hacc := (commitAtomic_accepts ..).mp (hlaw.accepted [] [] [])
    rw [hf, hl.tip, saturatingSucc] at hacc
    simp only [Bool.false_eq_true, false_or] at hacc
    omega
  have hcursor : cursor = if l.tip < config.startBlock ∨ l.tip = 0 then config.startBlock
      else l.tip+1 := by
    rw [startHeight] at hstart
    split_ifs at hstart with h1 h2
    · cases hstart
      rw [if_pos (.inl h1.2)]
    · rw [addU32, if_pos hsmall] at hstart
      cases hstart
      rw [if_neg (by omega)]
    · cases hstart
      rw [if_pos (by omega)]
  by_cases h0 : l.tip=0
  · rw [if_pos (.inr h0)] at hcursor
    cases hhash : getBlockHash σ 0 with
    | none =>
      have hfresh : isFreshDb σ = true := by
        rw [isFreshDb, hl.tip, h0, hhash]
        rfl
      refine iff_of_true ⟨fun _ _ _ => (commitAtomic_accepts ..).mpr (.inl hfresh),?_⟩ (.inl ⟨h0,hhash⟩)
      intro t ht
      rw [hl.heights_of_fresh hfresh] at ht
      cases ht
    | some hash =>
      have hf := isFreshDb_eq_false (σ := σ) (.inr (by rw [hhash]; rfl))
      rw [Restartable, h0, hhash]
      simp only [reduceCtorEq, and_false, lt_irrefl, false_and, or_false, false_or, true_and]
      rw [← hcursor]
      constructor
      · intro hlaw
        rw [hneeds hf hlaw, h0]
      · intro hone
        exact hnext (by omega)
  · have hf := isFreshDb_eq_false (σ := σ) (.inl (by rw [hl.tip]; omega))
    rw [Restartable]
    simp only [h0, false_and, false_or]
    constructor
    · intro hlaw
      have := hneeds hf hlaw
      split_ifs at hcursor <;> omega
    · intro hs
      apply hnext
      split_ifs at hcursor <;> omega

/-- After a restart of an orderly run the cursor is right exactly when the healed height allows it. -/
theorem restart_law_iff (σ : Store) (l : Log) (h : Runs Orderly σ l) (node : BitcoinNodeAdapter)
    (config : SyncConfig) (cursor : Nat) (σ' : Store)
    (hc : (init node config).exec σ = .ok (cursor,σ')) :
    RestartLaw σ' (l.rollback (getIndexedHeight σ')).heights cursor ↔
      Restartable σ (healedHeight σ node config) config.startBlock := by
  obtain ⟨hl,hi,hzero,hstart⟩ := (h.inOrder fun _ _ => id).init hc
  rw [hi]
  have htip : (l.rollback (healedHeight σ node config)).tip = healedHeight σ node config := by
    rw [← hl.tip, hi]
  rw [← htip] at hstart
  rw [restartLaw_iff hl hstart, htip, Restartable, Restartable, hzero]

private def tipBatch (h : Nat) : List Op := [.put tipHeightKey (u32le h)]

private theorem tipBatch_clean (h : Nat) : CleanBatch (tipBatch h) := by
  intro op hop
  rw [List.mem_singleton.mp hop]
  constructor
  · intro k hk
    exact absurd (Record.name_injective (r := .tipHeight) (s := .update blockHashBase k) hk) (by simp)
  · intro key _ hk
    exact absurd (Record.name_injective (r := .tipHeight) (s := .length key) hk) (by simp)

private def offline : BitcoinNodeAdapter where
  isConnected := false
  getTipHeight := .error "not connected"
  getBlockHash _ := .error "not connected"
  getBlockData _ := .error "not connected"

private def startAt (startBlock : Nat) : SyncConfig where
  startBlock
  exitAt := none
  maxReorgDepth := 100
  reorgCheckThreshold := 6
  enableStartupHeal := true

private def oneBlock (h : Nat) : Store := KV.write ∅ (commitOps h [7] [8] (tipBatch h))

private theorem oneBlock_runs {P : Store → StorageCall → Prop} {h : Nat} (hh : h<2^32)
    (hp : P ∅ (.commit h [7] [8] (tipBatch h))) : Runs P (oneBlock h) (Log.empty.commit h) := by
  refine .commit .empty hp hh ?_
  exact Prog.exec_ok (commitAtomic_run (.inl isFreshDb_empty) [7] [8] (tipBatch h))

theorem restart_law_one_block :
    ∃ cursor σ', (init offline (startAt 5)).exec (oneBlock 5) = .ok (cursor,σ') ∧
      RestartLaw σ' ((Log.empty.commit 5).rollback (getIndexedHeight σ')).heights cursor := by
  have hrun : ((init offline (startAt 5)).exec (oneBlock 5)).toOption.isSome = true := by
    decide +kernel
  cases hc : (init offline (startAt 5)).exec (oneBlock 5) with
  | error e =>
    rw [hc] at hrun
    cases hrun
  | ok done =>
    refine ⟨done.1,done.2,rfl,?_⟩
    refine (restart_law_iff _ _ (oneBlock_runs (by decide) ⟨by decide,tipBatch_clean 5⟩) offline
      (startAt 5) _ _ hc).mpr ?_
    right
    right
    have ht : healedHeight (oneBlock 5) offline (startAt 5) = 5 := by decide +kernel
    rw [ht]
    decide

/-- With start block 0 and only block 0 committed, the cursor after a restart is 0 again, and the
storage rejects it. -/
theorem restart_reapplies_block_zero :
    ¬∀ σ l, Runs (fun _ _ => True) σ l → ∀ node config cursor σ',
      (init node config).exec σ = .ok (cursor,σ') →
        RestartLaw σ' (l.rollback (getIndexedHeight σ')).heights cursor := by
  intro hall
  have hrun : ((init offline (startAt 0)).exec (oneBlock 0)).toOption.any (fun done =>
      done.1 == 0 && !isFreshDb done.2 && getIndexedHeight done.2 == 0) = true := by decide +kernel
  cases hc : (init offline (startAt 0)).exec (oneBlock 0) with
  | error e =>
    rw [hc] at hrun
    cases hrun
  | ok done =>
    have hlaw := hall _ _ (oneBlock_runs (h := 0) (by decide) trivial) offline (startAt 0) done.1
      done.2 hc
    rw [hc] at hrun
    simp only [Except.toOption, Option.any_some, Bool.and_eq_true, beq_iff_eq,
      Bool.not_eq_true'] at hrun
    obtain ⟨⟨h0,hfresh⟩,hi⟩ := hrun
    have hacc := (commitAtomic_accepts ..).mp (hlaw.accepted [] [] [])
    rw [h0, hfresh, hi] at hacc
    exact absurd hacc (by decide)

end Metashrew
