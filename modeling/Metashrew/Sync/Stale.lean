import Metashrew.Sync.Policy

namespace Metashrew

open Bytes Durable

/-- The block at `h` is committed with that hash. -/
def CommittedAs (σ : Store) (h : Nat) (blockHash : Bytes) : Prop :=
  h ≤ getIndexedHeight σ ∧ getBlockHash σ h = some blockHash

theorem commitAtomic_committedAs {σ σ' : Store} {h : Nat} {blockHash stateRoot : Bytes}
    {ops : List Op} (hh : h<2^32)
    (hc : (commitAtomic h blockHash stateRoot ops).exec σ = .ok ((),σ')) :
    CommittedAs σ' h blockHash := by
  obtain ⟨_,rfl⟩ := commitAtomic_cases hc
  exact ⟨le_of_eq (commitOps_indexed hh).symm,commitOps_hash_self⟩

/-- What other tasks do to the storage and the cursor while attempt `i` at a block awaits: before its
guard reads the cursor, and from there to the commit (the backoff, the execution, the storage lock). -/
structure OtherTasks where
  beforeGuard : Nat → Engine → Engine
  beforeCommit : Nat → Engine → Engine

def OtherTasks.idle : OtherTasks where
  beforeGuard _ e := e
  beforeCommit _ e := e

/-- The attempts at one block of the snapshot engine, as in `applyBlock`, among other tasks: the guard
reads the cursor again at each attempt. -/
def applyBlockAmong (others : OtherTasks) (label : String) (attempts : Nat → Attempt) (height : Nat)
    (blockHash : Bytes) : Nat → Nat → Option String → EngineProg Bool
  | 0, attempt, lastErr => do
    .modify (others.beforeGuard attempt)
    let current ← .read Engine.currentHeight
    if height < current then return false
    else
      let msg := lastErr.getD "no error captured"
      .fail (.message
        s!"Storage error: {label}: commit_atomic at height {height} exceeded max-retry budget ({maxAtomicCommitAttempts} attempts): last error: {msg}")
  | remaining+1, attempt, _ => do
    .modify (others.beforeGuard attempt)
    let current ← .read Engine.currentHeight
    if height < current then return false
    else
      .modify (others.beforeCommit attempt)
      match (attempts attempt).execution with
      | .error msg =>
        applyBlockAmong others label attempts height blockHash remaining (attempt+1)
          (some s!"process_block_atomic: {msg}")
      | .ok (stateRoot,batchData) =>
        match ← (onStorage (commitAttempt height blockHash stateRoot batchData
            (attempts attempt).writeError)).attempt with
        | .ok () =>
          storeCurrentHeight (height+1)
          return true
        | .error (.panic text) => .fail (.panic text)
        | .error (.message text) =>
          if contains text "out-of-order commit rejected" then
            .fail (.message (rejectionText text))
          else
            applyBlockAmong others label attempts height blockHash remaining (attempt+1)
              (some s!"commit_atomic: Storage error: {text}")

/-- `process_block` of the snapshot engine, among other tasks. -/
def SnapshotMetashrewSync.processBlockAmong (bitcoin : BitcoinCodec) (validator : Option ChainValidator)
    (others : OtherTasks) (attempts : Nat → Attempt) (height : Nat) (blockData blockHash : Bytes) :
    EngineProg Bool := do
  match ← .read fun e : Engine =>
      validateBlockConnects bitcoin validator height blockData blockHash e.storage with
  | .error f => .fail f
  | .ok false => .fail (.message
      s!"Block processing error at height {height}: Block does not connect to previous block - possible reorg or chain inconsistency")
  | .ok true =>
    applyBlockAmong others "snapshot-path" attempts height blockHash maxAtomicCommitAttempts 1 none

/-- On that storage the attempt does not commit. -/
def Attempt.fails (a : Attempt) (height : Nat) (blockHash : Bytes) (σ : Store) : Prop :=
  ∀ stateRoot ops, a.execution = .ok (stateRoot,ops) →
    ∃ f, (commitAttempt height blockHash stateRoot ops a.writeError).run σ = ⟨[],.error f⟩

/-- From attempt `k` on, begun on the engine `e`, the guard of attempt `i` reads the cursor of `g`: the
guards before it have let the block pass and the attempts before it have failed. -/
inductive AtGuard (others : OtherTasks) (attempts : Nat → Attempt) (height : Nat) (blockHash : Bytes) :
    Nat → Engine → Nat → Engine → Prop
  | here {k : Nat} {e : Engine} :
      AtGuard others attempts height blockHash k e k (others.beforeGuard k e)
  | retry {k i : Nat} {e g : Engine} :
      (others.beforeGuard k e).currentHeight ≤ height →
      (attempts k).fails height blockHash (others.beforeCommit k (others.beforeGuard k e)).storage →
      AtGuard others attempts height blockHash (k+1) (others.beforeCommit k (others.beforeGuard k e)) i g →
      AtGuard others attempts height blockHash k e i g

section Among

variable {others : OtherTasks} {label : String} {attempts : Nat → Attempt} {height : Nat}
  {blockHash : Bytes} {e e' g : Engine} {done : Bool} {remaining attempt i : Nat} {lastErr : Option String}

/-- A commit of the engine fails and leaves the engine as it is, or writes the whole batch. -/
theorem commitAttempt_exec_cases (height : Nat) (blockHash stateRoot : Bytes) (ops : List Op)
    (writeError : Option String) (e : Engine) :
    (∃ f, (commitAttempt height blockHash stateRoot ops writeError).run e.storage = ⟨[],.error f⟩ ∧
        (onStorage (commitAttempt height blockHash stateRoot ops writeError)).attempt.exec e =
          .ok (.error f,e)) ∨
      ∃ σ, (commitAttempt height blockHash stateRoot ops writeError).run e.storage = ⟨[σ],.ok ()⟩ ∧
        (commitAtomic height blockHash stateRoot ops).exec e.storage = .ok ((),σ) ∧
        (onStorage (commitAttempt height blockHash stateRoot ops writeError)).attempt.exec e =
          .ok (.ok (),⟨σ,e.currentHeight⟩) := by
  rcases commitAttempt_cases height blockHash stateRoot ops writeError e.storage with
    ⟨f,hf⟩ | ⟨hc,hrun⟩
  · have hz : (onStorage (commitAttempt height blockHash stateRoot ops writeError)).run e =
        ⟨[],.error f⟩ := by
      simp only [onStorage, hf, List.map_nil]
    exact .inl ⟨f,hf,Prog.exec_ok (Prog.run_attempt hz)⟩
  · have hz : (onStorage (commitAttempt height blockHash stateRoot ops writeError)).run e =
        ⟨[⟨KV.write e.storage (commitOps height blockHash stateRoot ops),e.currentHeight⟩],.ok ()⟩ := by
      simp only [onStorage, hrun, List.map_cons, List.map_nil]
    exact .inr ⟨_,hrun,hc,Prog.exec_ok (Prog.run_attempt hz)⟩

/-- One attempt whose guard lets the block pass: it commits, or it fails and the next one begins where the
other tasks have brought the engine, or the pass ends with an error. -/
theorem applyBlockAmong_succ (label : String) (remaining : Nat) (lastErr : Option String)
    (hle : (others.beforeGuard attempt e).currentHeight ≤ height) :
    (∃ f, (applyBlockAmong others label attempts height blockHash (remaining+1) attempt lastErr).exec e =
        .error f) ∨
      ((attempts attempt).fails height blockHash
          (others.beforeCommit attempt (others.beforeGuard attempt e)).storage ∧
        ∃ lastErr', (applyBlockAmong others label attempts height blockHash (remaining+1) attempt
            lastErr).exec e =
          (applyBlockAmong others label attempts height blockHash remaining (attempt+1) lastErr').exec
            (others.beforeCommit attempt (others.beforeGuard attempt e))) ∨
      ∃ stateRoot ops σ, (attempts attempt).execution = .ok (stateRoot,ops) ∧
        ¬(attempts attempt).fails height blockHash
          (others.beforeCommit attempt (others.beforeGuard attempt e)).storage ∧
        (commitAtomic height blockHash stateRoot ops).exec
          (others.beforeCommit attempt (others.beforeGuard attempt e)).storage = .ok ((),σ) ∧
        (applyBlockAmong others label attempts height blockHash (remaining+1) attempt lastErr).exec e =
          .ok (true,⟨σ,height+1⟩) := by
  rw [applyBlockAmong, Prog.exec_bind (t := others.beforeGuard attempt e) rfl,
    Prog.exec_bind (t := others.beforeGuard attempt e)
      (a := (others.beforeGuard attempt e).currentHeight) rfl, if_neg (by omega),
    Prog.exec_bind (t := others.beforeCommit attempt (others.beforeGuard attempt e)) rfl]
  generalize others.beforeCommit attempt (others.beforeGuard attempt e) = g
  cases hx : (attempts attempt).execution with
  | error msg =>
    refine .inr (.inl ⟨fun _ _ hok => ?_,_,rfl⟩)
    rw [hx] at hok
    cases hok
  | ok built =>
    obtain ⟨stateRoot,batchData⟩ := built
    dsimp only
    rcases commitAttempt_exec_cases height blockHash stateRoot batchData (attempts attempt).writeError g
      with ⟨f,hf,hz⟩ | ⟨σ,hrun,hc,hz⟩
    · rw [Prog.exec_bind hz]
      cases f with
      | panic text => exact .inl ⟨_,rfl⟩
      | message text =>
        dsimp only
        split_ifs
        · exact .inl ⟨_,rfl⟩
        · refine .inr (.inl ⟨fun _ _ hok => ?_,_,rfl⟩)
          rw [hx] at hok
          cases hok
          exact ⟨_,hf⟩
    · rw [Prog.exec_bind hz]
      refine .inr (.inr ⟨stateRoot,batchData,σ,rfl,fun hfails => ?_,hc,rfl⟩)
      obtain ⟨f,hf⟩ := hfails _ _ hx
      rw [hrun] at hf
      cases hf

theorem applyBlockAmong_stale (lastErr : Option String)
    (hlt : height < (others.beforeGuard attempt e).currentHeight) :
    (applyBlockAmong others label attempts height blockHash remaining attempt lastErr).exec e =
      .ok (false,others.beforeGuard attempt e) := by
  cases remaining with
  | zero =>
    rw [applyBlockAmong, Prog.exec_bind (t := others.beforeGuard attempt e) rfl,
      Prog.exec_bind (t := others.beforeGuard attempt e) rfl, if_pos hlt]
    rfl
  | succ remaining =>
    rw [applyBlockAmong, Prog.exec_bind (t := others.beforeGuard attempt e) rfl,
      Prog.exec_bind (t := others.beforeGuard attempt e) rfl, if_pos hlt]
    rfl

/-- Where the guard takes the block for stale, it is the only one to read the cursor. -/
theorem committed_iff_of_stale (hlt : height < (others.beforeGuard attempt e).currentHeight) :
    CommittedAs (others.beforeGuard attempt e).storage height blockHash ↔
      ∀ i g, AtGuard others attempts height blockHash attempt e i g →
        g.currentHeight ≤ height ∨ CommittedAs g.storage height blockHash := by
  constructor
  · intro hcommitted i g hg
    cases hg with
    | here => exact .inr hcommitted
    | retry hle => omega
  · intro hall
    rcases hall _ _ .here with hle | hcommitted
    · omega
    · exact hcommitted

/-- Beyond the retry budget only a stale block is a success. -/
theorem applyBlockAmong_exhausted (label : String) (lastErr : Option String)
    (hle : (others.beforeGuard attempt e).currentHeight ≤ height) :
    ∃ f, (applyBlockAmong others label attempts height blockHash 0 attempt lastErr).exec e = .error f := by
  rw [applyBlockAmong, Prog.exec_bind (t := others.beforeGuard attempt e) rfl,
    Prog.exec_bind (t := others.beforeGuard attempt e) rfl, if_neg (by omega)]
  exact ⟨_,rfl⟩

/-- A success of the attempts means a commit exactly when no guard has found the cursor above a block
that is not committed. -/
theorem applyBlockAmong_committed_iff (hh : height<2^32)
    (h : (applyBlockAmong others label attempts height blockHash remaining attempt lastErr).exec e =
      .ok (done,e')) :
    CommittedAs e'.storage height blockHash ↔
      ∀ i g, AtGuard others attempts height blockHash attempt e i g →
        g.currentHeight ≤ height ∨ CommittedAs g.storage height blockHash := by
  induction remaining generalizing attempt e lastErr with
  | zero =>
    rcases Nat.lt_or_ge height (others.beforeGuard attempt e).currentHeight with hlt | hle
    · rw [applyBlockAmong_stale lastErr hlt] at h
      cases h
      exact committed_iff_of_stale hlt
    · obtain ⟨f,hf⟩ := applyBlockAmong_exhausted label lastErr hle
      rw [hf] at h
      cases h
  | succ remaining ih =>
    rcases Nat.lt_or_ge height (others.beforeGuard attempt e).currentHeight with hlt | hle
    · rw [applyBlockAmong_stale lastErr hlt] at h
      cases h
      exact committed_iff_of_stale hlt
    rcases applyBlockAmong_succ label remaining lastErr hle with
      ⟨f,hf⟩ | ⟨hfails,lastErr',hnext⟩ | ⟨stateRoot,ops,σ,_,hgood,hc,hend⟩
    · rw [hf] at h
      cases h
    · rw [hnext] at h
      rw [ih h]
      constructor
      · intro hall i g hg
        cases hg with
        | here => exact .inl hle
        | retry _ _ hg => exact hall i g hg
      · exact fun hall i g hg => hall i g (.retry hle hfails hg)
    · rw [hend] at h
      cases h
      refine iff_of_true (commitAtomic_committedAs hh hc) fun i g hg => ?_
      cases hg with
      | here => exact .inl hle
      | retry _ hfails => exact absurd hfails hgood

/-- Without other tasks the pass is the one of an engine that runs alone. -/
theorem applyBlockAmong_idle (label : String) (attempts : Nat → Attempt) (height : Nat)
    (blockHash : Bytes) (e : Engine) (remaining attempt : Nat) (lastErr : Option String) :
    (applyBlockAmong .idle label attempts height blockHash remaining attempt lastErr).exec e =
      (applyBlock label true attempts height blockHash remaining attempt lastErr).exec e := by
  induction remaining generalizing attempt lastErr with
  | zero =>
    rw [applyBlockAmong, applyBlock, Prog.exec_bind (t := e) rfl, Prog.exec_bind (t := e) rfl,
      Prog.exec_bind (t := e) rfl]
    simp only [Bool.true_and, decide_eq_true_eq]
  | succ remaining ih =>
    rw [applyBlockAmong, applyBlock, Prog.exec_bind (t := e) rfl, Prog.exec_bind (t := e) rfl,
      Prog.exec_bind (t := e) rfl]
    simp only [Bool.true_and, decide_eq_true_eq]
    split_ifs with hlt
    · rfl
    rw [Prog.exec_bind (t := e) rfl]
    cases (attempts attempt).execution with
    | error msg => exact ih ..
    | ok built =>
      obtain ⟨stateRoot,batchData⟩ := built
      dsimp only
      rcases commitAttempt_exec_cases height blockHash stateRoot batchData
        (attempts attempt).writeError e with ⟨f,_,hz⟩ | ⟨σ,_,_,hz⟩
      · rw [Prog.exec_bind hz, Prog.exec_bind hz]
        cases f with
        | panic text => rfl
        | message text =>
          dsimp only
          split_ifs
          · rfl
          · exact ih ..
      · rw [Prog.exec_bind hz, Prog.exec_bind hz]

/-- A success of `process_block` is one of its attempts. -/
theorem processBlockAmong_ok {bitcoin : BitcoinCodec} {validator : Option ChainValidator}
    {blockData : Bytes}
    (h : (SnapshotMetashrewSync.processBlockAmong bitcoin validator others attempts height blockData
      blockHash).exec e = .ok (done,e')) :
    (applyBlockAmong others "snapshot-path" attempts height blockHash maxAtomicCommitAttempts 1 none).exec
      e = .ok (done,e') := by
  rw [SnapshotMetashrewSync.processBlockAmong, Prog.exec_bind (t := e) rfl] at h
  dsimp only at h
  cases hv : validateBlockConnects bitcoin validator height blockData blockHash e.storage with
  | error f =>
    rw [hv] at h
    cases h
  | ok connects =>
    rw [hv] at h
    cases connects with
    | false => cases h
    | true => exact h

theorem atGuard_idle (h : AtGuard .idle attempts height blockHash attempt e i g) : g = e := by
  induction h with
  | here => rfl
  | retry _ _ _ ih => exact ih

/-- So it is of `process_block`. -/
theorem SnapshotMetashrewSync.processBlockAmong_idle (bitcoin : BitcoinCodec)
    (validator : Option ChainValidator) (attempts : Nat → Attempt) (height : Nat)
    (blockData blockHash : Bytes) (e : Engine) :
    (processBlockAmong bitcoin validator .idle attempts height blockData blockHash).exec e =
      (processBlock bitcoin validator attempts height blockData blockHash).exec e := by
  rw [processBlockAmong, processBlock, processValidated, Prog.exec_bind (t := e) rfl,
    Prog.exec_bind (t := e) rfl]
  dsimp only
  cases validateBlockConnects bitcoin validator height blockData blockHash e.storage with
  | error f => rfl
  | ok connects =>
    cases connects with
    | false => rfl
    | true => exact applyBlockAmong_idle ..

/-- An engine that runs alone commits exactly when its cursor is not above the block or the block was
committed before. -/
theorem SnapshotMetashrewSync.processBlock_committed_iff {bitcoin : BitcoinCodec}
    {validator : Option ChainValidator} {blockData : Bytes} (hh : height<2^32)
    (h : (processBlock bitcoin validator attempts height blockData blockHash).exec e =
      .ok (done,e')) :
    CommittedAs e'.storage height blockHash ↔
      e.currentHeight ≤ height ∨ CommittedAs e.storage height blockHash := by
  rw [← processBlockAmong_idle] at h
  rw [applyBlockAmong_committed_iff hh (processBlockAmong_ok h)]
  constructor
  · exact fun hall => hall _ _ .here
  · intro hcond i g hg
    rwa [atGuard_idle hg]

end Among

/-- A success of the snapshot engine's `process_block`, whatever other tasks do at its awaits, means a
durable commit exactly when each guard that reads the cursor finds it not above the block or the block
committed. -/
theorem success_means_committed_iff (bitcoin : BitcoinCodec) (validator : Option ChainValidator)
    (others : OtherTasks) (attempts : Nat → Attempt) (height : Nat) (hh : height<2^32)
    (blockData blockHash : Bytes) (e e' : Engine) (done : Bool)
    (h : (SnapshotMetashrewSync.processBlockAmong bitcoin validator others attempts height blockData
      blockHash).exec e = .ok (done,e')) :
    CommittedAs e'.storage height blockHash ↔
      ∀ i g, AtGuard others attempts height blockHash 1 e i g →
        g.currentHeight ≤ height ∨ CommittedAs g.storage height blockHash := by
  exact applyBlockAmong_committed_iff hh (processBlockAmong_ok h)

private def looseCodec : BitcoinCodec where
  Header := Bytes
  deserialize data := .ok data
  consensusEncode header := header
  prevBlockhash header := header.drop 1
  sha256 data := data

private def onlyAttempt (_ : Nat) : Attempt := ⟨.ok ([8],[]),none⟩

private def firstFails (i : Nat) : Attempt :=
  if i = 1 then ⟨.error "trap",none⟩ else onlyAttempt i

private def snapshotProcess (others : OtherTasks) (attempts : Nat → Attempt) (height : Nat)
    (blockData : Bytes) : EngineProg Bool :=
  SnapshotMetashrewSync.processBlockAmong looseCodec none others attempts height blockData
    blockData.reverse

private def forkedNode : BitcoinNodeAdapter where
  isConnected := true
  getTipHeight := .ok 2
  getBlockHash h := .ok (if h = 0 then [1] else [9])
  getBlockData _ := .ok []

private def forkConfig : SyncConfig where
  startBlock := 0
  exitAt := none
  maxReorgDepth := 100
  reorgCheckThreshold := 6
  enableStartupHeal := true

private def snapshotStart : Engine := ⟨∅,0⟩

/-- Another task applies the block while the second attempt is about to begin. -/
private def appliesFirst : OtherTasks where
  beforeGuard i e := if i = 2 then (snapshotProcess .idle onlyAttempt 0 [1]).finalState e else e
  beforeCommit _ e := e

private theorem witness_guards : ∀ i g, AtGuard appliesFirst firstFails 0 [1] 1 snapshotStart i g →
    g.currentHeight ≤ 0 ∨ CommittedAs g.storage 0 [1] := by
  intro i g hg
  cases hg with
  | here => exact .inl (by decide)
  | retry _ _ hg =>
    cases hg with
    | here => exact .inr ⟨by decide +kernel,by decide +kernel⟩
    | retry hle => exact absurd hle (by decide +kernel)

theorem success_means_committed_applied_meanwhile :
    ∃ done e', (snapshotProcess appliesFirst firstFails 0 [1]).exec snapshotStart = .ok (done,e') ∧
      CommittedAs e'.storage 0 [1] := by
  have hok : ((snapshotProcess appliesFirst firstFails 0 [1]).exec snapshotStart).toOption.isSome =
      true := by
    decide +kernel
  cases hrun : (snapshotProcess appliesFirst firstFails 0 [1]).exec snapshotStart with
  | error f =>
    rw [hrun] at hok
    cases hok
  | ok r =>
    exact ⟨r.1,r.2,rfl,(success_means_committed_iff looseCodec none appliesFirst firstFails 0
      (by decide) [1] [1] snapshotStart r.2 r.1 hrun).mpr witness_guards⟩

/-- Blocks 0 and 1 are applied; a reorg handled outside the engine's cursor takes block 1 back. -/
private def afterReorg : Engine :=
  (onStorage (handleReorg 2 forkedNode (.ok ()) forkConfig)).finalState
    ((snapshotProcess .idle onlyAttempt 1 [2,1]).finalState
      ((snapshotProcess .idle onlyAttempt 0 [1]).finalState snapshotStart))

/-- The new block 1 is then reported as applied, and nothing is committed. -/
theorem success_without_commit :
    ¬∀ bitcoin validator others attempts height, height<2^32 → ∀ blockData blockHash e e' done,
      (SnapshotMetashrewSync.processBlockAmong bitcoin validator others attempts height blockData
        blockHash).exec e = .ok (done,e') → CommittedAs e'.storage height blockHash := by
  intro hall
  have hrun : ((snapshotProcess .idle onlyAttempt 1 [9,1]).exec afterReorg).toOption.any (fun r =>
      getIndexedHeight r.2.storage == 0) = true := by decide +kernel
  cases hok : (snapshotProcess .idle onlyAttempt 1 [9,1]).exec afterReorg with
  | error f =>
    rw [hok] at hrun
    cases hrun
  | ok r =>
    obtain ⟨hle,_⟩ := hall looseCodec none .idle onlyAttempt 1 (by decide) [9,1] [1,9] afterReorg r.2
      r.1 hok
    rw [hok] at hrun
    simp only [Except.toOption, Option.any_some, beq_iff_eq] at hrun
    omega

end Metashrew
