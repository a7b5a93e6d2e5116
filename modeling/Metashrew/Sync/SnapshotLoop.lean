import Metashrew.Sync.Policy
import Metashrew.Sync.Restart
import Metashrew.Sync.Stale

namespace Metashrew

open Bytes Durable

structure SnapshotMetadata where
  height : Nat
  blockHash : Bytes
  stateRoot : Bytes

/-- What one round of the snapshot loop meets: the node, the refresh after a rollback, the attempts
at a block, and the snapshot that the consumer offers when it is asked, with what applying it does. -/
structure LoopRound where
  node : BitcoinNodeAdapter
  refresh : Except String Unit
  attempts : Nat → Attempt
  snapshot : Except String (Option SnapshotMetadata)
  applySnapshot : Store → Except String Store

/-- Where a round leaves the loop: the local height, the block it has handed on with the storage at
that moment, and whether the loop goes on. -/
structure RoundEnd where
  height : Nat
  handed : Option (Store × Nat)
  running : Bool

/-- Applies the best snapshot, when there is one; the cursor is set to its height. -/
def attemptSnapshotSync (round : LoopRound) : EngineProg Bool := do
  match ← nodeAnswer round.snapshot with
  | none => return false
  | some bestSnapshot =>
    let applied ← .read fun e : Engine => round.applySnapshot e.storage
    let storage ← nodeAnswer applied
    .modify fun e => { e with storage }
    storeCurrentHeight bestSnapshot.height
    onStorage (setIndexedHeight bestSnapshot.height)
    onStorage (.modify fun σ =>
      KV.write σ [.put (blockHashKey bestSnapshot.height) bestSnapshot.blockHash])
    onStorage (.modify fun σ =>
      KV.write σ [.put (rootKey bestSnapshot.height) bestSnapshot.stateRoot])
    return true

/-- The local height that the snapshot loop starts from. -/
def loopStart (round : LoopRound) : EngineProg Nat := do
  let _ ← attemptSnapshotSync round
  .read Engine.currentHeight

/-- Whether a round looks for a reorg. -/
def nearTip (config : SyncConfig) (height remoteTip : Nat) : Bool :=
  0 < height && remoteTip-height ≤ config.reorgCheckThreshold

/-- One round of `run_snapshot_sync_loop` at the local height. -/
def snapshotRound (config : SyncConfig) (round : LoopRound) (height : Nat) : EngineProg RoundEnd :=
  match round.node.getTipHeight with
  | .error _ => return ⟨height,none,true⟩
  | .ok remoteTip => do
    let reorg ←
      (if nearTip config height remoteTip then
        (onStorage (handleReorg height round.node round.refresh config)).attempt
      else pure (.ok height))
    match reorg with
    | .error _ => return ⟨height,none,true⟩
    | .ok reorgHeight =>
      if reorgHeight < height then return ⟨reorgHeight,none,true⟩
      else if config.exitAt.any fun exitAt => exitAt ≤ height then return ⟨height,none,false⟩
      else if remoteTip < height then
        if ← attemptSnapshotSync round then
          let current ← .read Engine.currentHeight
          return ⟨current,none,true⟩
        else return ⟨height,none,true⟩
      else
        match round.node.getBlockData height with
        | .error _ => return ⟨height,none,true⟩
        | .ok blockData =>
          let before ← .read Engine.storage
          let done ← (SnapshotMetashrewSync.processBlockWithSnapshots round.node round.attempts
            height blockData).attempt
          match done with
          | .error _ => return ⟨height,some (before,height),true⟩
          | .ok _ => return ⟨height+1,some (before,height),true⟩

/-- The height is the next one to commit: the start block on an empty store, else the one after the
tip. -/
def NextHeight (config : SyncConfig) (σ : Store) (height : Nat) : Prop :=
  (isFreshDb σ = true ∧ height = config.startBlock) ∨
    (isFreshDb σ = false ∧ height = getIndexedHeight σ+1)

/-- The order that a round keeps: the block handed on is the next one, and the local height passes
only heights that are committed. -/
structure RoundOrder (config : SyncConfig) (height : Nat) (e' : Engine) (out : RoundEnd) : Prop where
  handed : ∀ σ h, out.handed = some (σ,h) → NextHeight config σ h
  passed : ∀ h, height ≤ h → h < out.height →
    h ≤ getIndexedHeight e'.storage ∧ (getBlockHash e'.storage h).isSome = true

/-- No snapshot is applied, no reorg is detected, and the height fits `u32`. -/
structure QuietRound (config : SyncConfig) (e : Engine) (round : LoopRound) (height : Nat) : Prop where
  snapshot : round.snapshot = .ok none
  reorg : ∀ remoteTip, round.node.getTipHeight = .ok remoteTip →
    nearTip config height remoteTip = true →
      ∀ r, reorgWalk e.storage round.node (height-config.maxReorgDepth) (height-1) false ≠
        some (r,true)
  small : height+1<2^32

/-- The runs of the loop after a restart whose start and rounds meet `S` and `P`. -/
inductive LoopRun (S : Store → BitcoinNodeAdapter → LoopRound → Prop)
    (P : Engine → LoopRound → Nat → Prop) (config : SyncConfig) : Engine → Nat → Prop where
  | start {σ σ' : Store} {l : Log} {node : BitcoinNodeAdapter} {round : LoopRound}
      {cursor height : Nat} {e : Engine} :
      Runs Orderly σ l → S σ node round → (init node config).exec σ = .ok (cursor,σ') →
      (loopStart round).exec ⟨σ',cursor⟩ = .ok (height,e) → LoopRun S P config e height
  | round {e e' : Engine} {height : Nat} {round : LoopRound} {out : RoundEnd} :
      LoopRun S P config e height → P e round height →
      (snapshotRound config round height).exec e = .ok (out,e') → out.running = true →
      LoopRun S P config e' out.height

section Rounds

variable {config : SyncConfig} {round : LoopRound} {e e' : Engine} {height : Nat} {out : RoundEnd}

/-- Handing a block on changes nothing, finds it stale, or commits it. -/
theorem processBlockWithSnapshots_cases (node : BitcoinNodeAdapter) (attempts : Nat → Attempt)
    (height : Nat) (blockData : Bytes) (e : Engine) :
    (∃ f, (SnapshotMetashrewSync.processBlockWithSnapshots node attempts height blockData).run e =
        ⟨[],.error f⟩) ∨
      ∃ ss c blockHash done, (SnapshotMetashrewSync.processBlockWithSnapshots node attempts height
          blockData).run e = ⟨ss,.ok c⟩ ∧
        Applied true attempts height blockHash e done (ss.getLastD e) := by
  rw [SnapshotMetashrewSync.processBlockWithSnapshots]
  cases hh : node.getBlockHash height with
  | error x => exact .inl ⟨_,rfl⟩
  | ok blockHash =>
    rw [nodeAnswer, Prog.run_pure_bind, committing, Prog.run_read_bind]
    rcases applyBlock_cases "snapshot-loop" true attempts height blockHash e maxAtomicCommitAttempts
      1 none with ⟨f,hf⟩ | ⟨ss,done,hrun,happ⟩
    · exact .inl ⟨f,Prog.run_bind_error hf⟩
    · right
      cases done with
      | false => exact ⟨ss,none,blockHash,false,by rw [Prog.run_bind_ok hrun]; simp,happ⟩
      | true =>
        exact ⟨ss,some ⟨e.storage,height,blockData,blockHash⟩,blockHash,true,
          by rw [Prog.run_bind_ok hrun]; simp,happ⟩

private theorem onStorage_quiet {α : Type} {p : DbProg α} {e : Engine} {r : Except Fault α}
    (h : p.run e.storage = ⟨[],r⟩) : (onStorage p).run e = ⟨[],r⟩ := by
  simp only [onStorage, h, List.map_nil]

theorem attemptSnapshotSync_none (e : Engine) (hs : round.snapshot = .ok none) :
    (attemptSnapshotSync round).run e = ⟨[],.ok false⟩ := by
  rw [attemptSnapshotSync, hs]
  rfl

/-- All that a quiet round can do: nothing, a failed attempt at the block, or the block. -/
theorem snapshotRound_cases (hq : QuietRound config e round height)
    (h : (snapshotRound config round height).exec e = .ok (out,e')) :
    (out.handed = none ∧ out.height = height ∧ e' = e) ∨
      (out.handed = some (e.storage,height) ∧ out.height = height ∧ e' = e) ∨
      (out.handed = some (e.storage,height) ∧ out.height = height+1 ∧ ∃ blockHash done,
        Applied true round.attempts height blockHash e done e') := by
  unfold snapshotRound at h
  cases ht : round.node.getTipHeight with
  | error x =>
    rw [ht] at h
    cases h
    exact .inl ⟨rfl,rfl,rfl⟩
  | ok remoteTip =>
    rw [ht] at h
    dsimp only at h
    have hreorg : (if nearTip config height remoteTip then
        (onStorage (handleReorg height round.node round.refresh config)).attempt
      else pure (.ok height)).run e = ⟨[],.ok (.ok height)⟩ := by
      cases hn : nearTip config height remoteTip with
      | false => rfl
      | true =>
        have hpos : 0 < height := by
          rw [nearTip, Bool.and_eq_true, decide_eq_true_eq] at hn
          exact hn.1
        rw [if_pos rfl]
        exact Prog.run_attempt (onStorage_quiet
          (handleReorg_unmoved (hq.reorg remoteTip ht hn)))
    rw [Prog.exec_bind (Prog.exec_ok hreorg), List.getLastD_nil] at h
    dsimp only at h
    rw [if_neg (lt_irrefl height)] at h
    split_ifs at h with hexit htip
    · cases h
      exact .inl ⟨rfl,rfl,rfl⟩
    · rw [Prog.exec_bind (Prog.exec_ok (attemptSnapshotSync_none e hq.snapshot)),
        List.getLastD_nil] at h
      cases h
      exact .inl ⟨rfl,rfl,rfl⟩
    · cases hd : round.node.getBlockData height with
      | error x =>
        rw [hd] at h
        cases h
        exact .inl ⟨rfl,rfl,rfl⟩
      | ok blockData =>
        rw [hd] at h
        dsimp only at h
        rw [Prog.exec_bind (a := e.storage) (t := e) rfl] at h
        right
        rcases processBlockWithSnapshots_cases round.node round.attempts height blockData e with
          ⟨f,hf⟩ | ⟨ss,c,blockHash,done,hrun,happ⟩
        · rw [Prog.exec_bind (Prog.exec_ok (Prog.run_attempt hf)), List.getLastD_nil] at h
          cases h
          exact .inl ⟨rfl,rfl,rfl⟩
        · rw [Prog.exec_bind (Prog.exec_ok (Prog.run_attempt hrun))] at h
          cases h
          exact .inr ⟨rfl,rfl,blockHash,done,happ⟩

/-- The loop's own height, the cursor and the tip agree. -/
structure LoopAgrees (config : SyncConfig) (e : Engine) (height : Nat) : Prop where
  cursor : e.currentHeight = height
  next : NextHeight config e.storage height

theorem LoopAgrees.afterRound (ha : LoopAgrees config e height) (hq : QuietRound config e round height)
    (h : (snapshotRound config round height).exec e = .ok (out,e')) :
    LoopAgrees config e' out.height ∧ RoundOrder config height e' out := by
  have hnext : ∀ σ k, out.handed = some (e.storage,height) → out.handed = some (σ,k) →
      NextHeight config σ k := by
    intro σ k h1 h2
    rw [h1] at h2
    cases h2
    exact ha.next
  rcases snapshotRound_cases hq h with ⟨hnone,hout,rfl⟩ | ⟨hsome,hout,rfl⟩ |
    ⟨hsome,hout,blockHash,done,happ⟩
  · rw [hout]
    refine ⟨ha,fun σ k hk => ?_,fun k h1 h2 => by omega⟩
    rw [hnone] at hk
    cases hk
  · rw [hout]
    exact ⟨ha,fun σ k => hnext σ k hsome,fun k h1 h2 => by omega⟩
  · cases happ with
    | stale _ hlt =>
      rw [ha.cursor] at hlt
      exact absurd hlt (lt_irrefl height)
    | @committed i stateRoot ops σ hcursor hx hc =>
      have hsmall := hq.small
      obtain ⟨hle,hhash⟩ := commitAtomic_committedAs (by omega) hc
      obtain ⟨_,rfl⟩ := commitAtomic_cases hc
      have hi : getIndexedHeight (KV.write e.storage (commitOps height blockHash stateRoot ops)) =
          height := commitOps_indexed (by omega)
      have hfresh : isFreshDb (KV.write e.storage (commitOps height blockHash stateRoot ops)) =
          false := by
        apply isFreshDb_eq_false
        rcases Nat.eq_zero_or_pos height with h0 | hpos
        · right
          rw [← h0, hhash]
          rfl
        · left
          rw [hi]
          exact hpos
      rw [hout]
      refine ⟨⟨rfl,.inr ⟨hfresh,by rw [hi]⟩⟩,fun σ k => hnext σ k hsome,fun k h1 h2 => ?_⟩
      obtain rfl : k=height := by omega
      exact ⟨hle,by rw [hhash]; rfl⟩

end Rounds

/-- A start without a snapshot, from a restart whose cursor is right. -/
def QuietStart (config : SyncConfig) (σ : Store) (node : BitcoinNodeAdapter) (round : LoopRound) :
    Prop :=
  round.snapshot = .ok none ∧ Restartable σ (healedHeight σ node config) config.startBlock

/-- A restart whose cursor is right sets it to the next height. -/
theorem InOrder.nextHeight {σ σ' : Store} {l : Log} {node : BitcoinNodeAdapter} {config : SyncConfig}
    {cursor : Nat} (hl : InOrder σ l) (hc : (Metashrew.init node config).exec σ = .ok (cursor,σ'))
    (hr : Restartable σ (healedHeight σ node config) config.startBlock) :
    NextHeight config σ' cursor := by
  obtain ⟨hl',hi,hzero,hstart⟩ := hl.init hc
  generalize healedHeight σ node config = t at *
  have hcursor : cursor = if t < config.startBlock ∨ t = 0 then config.startBlock else t+1 := by
    rw [startHeight] at hstart
    split_ifs at hstart with h1 h2
    · cases hstart
      rw [if_pos (.inl h1.2)]
    · rw [addU32] at hstart
      split_ifs at hstart
      cases hstart
      rw [if_neg (by omega)]
    · cases hstart
      rw [if_pos (by omega)]
  rw [NextHeight, hi]
  cases hf : isFreshDb σ' with
  | true =>
    left
    rw [isFreshDb, Bool.and_eq_true, beq_iff_eq, hi] at hf
    rw [if_pos (.inr hf.1)] at hcursor
    exact ⟨rfl,hcursor⟩
  | false =>
    right
    refine ⟨rfl,?_⟩
    rcases hr with ⟨h0,hnone⟩ | ⟨h0,hone⟩ | ⟨hpos,hle⟩
    · rw [isFreshDb, hi, h0, hzero, hnone] at hf
      cases hf
    · rw [if_pos (.inr h0)] at hcursor
      omega
    · split_ifs at hcursor <;> omega

theorem LoopRun.agrees {config : SyncConfig} {e : Engine} {height : Nat}
    (h : LoopRun (QuietStart config) (QuietRound config) config e height) :
    LoopAgrees config e height := by
  induction h with
  | start hrun hs hc hstart =>
    obtain ⟨done,e1,hsnap,hread⟩ := Prog.exec_bind_ok hstart
    rw [Prog.exec_ok (attemptSnapshotSync_none _ hs.1)] at hsnap
    cases hsnap
    cases hread
    exact ⟨rfl,(hrun.inOrder fun _ _ => id).nextHeight hc hs.2⟩
  | round _ hq hround _ ih => exact (ih.afterRound hq hround).1

/-- In quiet runs of the snapshot loop every block handed on is the next one, and the local height
passes only committed heights. -/
theorem snapshot_loop_in_order (config : SyncConfig) (e e' : Engine) (height : Nat)
    (h : LoopRun (QuietStart config) (QuietRound config) config e height) (round : LoopRound)
    (hq : QuietRound config e round height) (out : RoundEnd)
    (hround : (snapshotRound config round height).exec e = .ok (out,e')) :
    RoundOrder config height e' out :=
  (h.agrees.afterRound hq hround).2

private def loopNode : BitcoinNodeAdapter where
  isConnected := true
  getTipHeight := .ok 100
  getBlockHash _ := .ok [7]
  getBlockData _ := .ok []

private def loopConfig : SyncConfig where
  startBlock := 0
  exitAt := none
  maxReorgDepth := 100
  reorgCheckThreshold := 6
  enableStartupHeal := true

private def loopRound (snapshot : Option SnapshotMetadata) : LoopRound where
  node := loopNode
  refresh := .ok ()
  attempts _ := ⟨.ok ([8],[]),none⟩
  snapshot := .ok snapshot
  applySnapshot σ := .ok σ

private theorem loopStarts {S : Store → BitcoinNodeAdapter → LoopRound → Prop}
    {P : Engine → LoopRound → Nat → Prop} (snapshot : Option SnapshotMetadata)
    (hs : S ∅ loopNode (loopRound snapshot)) :
    ∃ height e, (loopStart (loopRound snapshot)).exec ⟨∅,0⟩ = .ok (height,e) ∧
      LoopRun S P loopConfig e height := by
  have hinit : ((init loopNode loopConfig).exec ∅).toOption.any (fun done => done.1 == 0) = true := by
    decide +kernel
  have hquiet : ((init loopNode loopConfig).run ∅).states = [] := by decide +kernel
  obtain ⟨⟨ss,r⟩,hr⟩ : ∃ t, (init loopNode loopConfig).run ∅ = t := ⟨_,rfl⟩
  rw [hr] at hquiet
  obtain rfl : ss = [] := hquiet
  cases r with
  | error f =>
    rw [Prog.exec_error hr] at hinit
    cases hinit
  | ok cursor =>
    have hexec := Prog.exec_ok hr
    rw [hexec] at hinit
    obtain rfl : cursor = 0 := by simpa [Except.toOption] using hinit
    cases snapshot with
    | none => exact ⟨0,⟨∅,0⟩,rfl,.start .empty hs hexec rfl⟩
    | some snapshot => exact ⟨_,_,rfl,.start .empty hs hexec rfl⟩

theorem snapshot_loop_in_order_first_round :
    ∃ e out e', LoopRun (QuietStart loopConfig) (QuietRound loopConfig) loopConfig e 0 ∧
      (snapshotRound loopConfig (loopRound none) 0).exec e = .ok (out,e') ∧
      RoundOrder loopConfig 0 e' out := by
  obtain ⟨height,e,hstart,hrun⟩ := loopStarts (S := QuietStart loopConfig)
    (P := QuietRound loopConfig) none ⟨rfl,.inl (by decide +kernel)⟩
  cases hstart
  have hround : ((snapshotRound loopConfig (loopRound none) 0).exec ⟨∅,0⟩).toOption.isSome = true := by
    decide +kernel
  cases hout : (snapshotRound loopConfig (loopRound none) 0).exec ⟨∅,0⟩ with
  | error f =>
    rw [hout] at hround
    cases hround
  | ok done =>
    have hq : QuietRound loopConfig ⟨∅,0⟩ (loopRound none) 0 := {
      snapshot := rfl
      reorg := fun _ _ hn => absurd hn (by simp [nearTip])
      small := by decide }
    exact ⟨_,done.1,done.2,hrun,hout,
      snapshot_loop_in_order loopConfig _ done.2 0 hrun (loopRound none) hq done.1 hout⟩

/-- After a snapshot at height 10 the loop hands on block 10, which is the tip itself. -/
theorem snapshot_loop_repeats_tip :
    ¬∀ config e e' height, LoopRun (fun _ _ _ => True) (fun _ _ _ => True) config e height →
      ∀ round out, (snapshotRound config round height).exec e = .ok (out,e') →
        RoundOrder config height e' out := by
  intro hall
  obtain ⟨height,e,hstart,hrun⟩ := loopStarts (S := fun _ _ _ => True) (P := fun _ _ _ => True)
    (some ⟨10,[7],[8]⟩) trivial
  have hround : ((loopStart (loopRound (some ⟨10,[7],[8]⟩))).exec ⟨∅,0⟩).toOption.any (fun s =>
      ((snapshotRound loopConfig (loopRound none) s.1).exec s.2).toOption.any fun done =>
        done.1.handed.any fun handed =>
          handed.2 == 10 && !isFreshDb handed.1 && getIndexedHeight handed.1 == 10) = true := by
    decide +kernel
  rw [hstart] at hround
  simp only [Except.toOption, Option.any_some] at hround
  cases hout : (snapshotRound loopConfig (loopRound none) height).exec e with
  | error f =>
    rw [hout] at hround
    cases hround
  | ok done =>
    rw [hout] at hround
    simp only [Option.any_some] at hround
    have horder := hall loopConfig e done.2 height hrun (loopRound none) done.1 hout
    cases hhanded : done.1.handed with
    | none =>
      rw [hhanded] at hround
      cases hround
    | some handed =>
      rw [hhanded] at hround
      simp only [Option.any_some, Bool.and_eq_true, beq_iff_eq, Bool.not_eq_true'] at hround
      obtain ⟨⟨hten,hfresh⟩,htip⟩ := hround
      rcases horder.handed handed.1 handed.2 hhanded with ⟨hf,_⟩ | ⟨_,hnext⟩
      · rw [hfresh] at hf
        cases hf
      · omega

end Metashrew
