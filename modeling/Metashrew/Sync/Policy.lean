import Metashrew.Sync.Entry

namespace Metashrew

open Bytes Durable

/-- The validator accepts the block on that storage. -/
def Accepted (validator : ChainValidator) (c : Committed) : Prop :=
  ∃ request, validationRequest c.before c.height c.blockData c.blockHash = some request ∧
    validator request = true

/-- The entry points that check the block first. -/
def EntryPoint.Validates : EntryPoint → Prop
  | .processBlock .. | .processSingleBlock _ | .snapshotProcessBlock .. => True
  | _ => False

/-- The runs of calls that meet `P` with the validator installed, and the blocks they commit.
Between the calls anything may happen to the engine. -/
inductive EntryRun (P : EntryPoint → Prop) (bitcoin : BitcoinCodec) (validator : ChainValidator) :
    Engine → List Committed → Prop where
  | start (e : Engine) : EntryRun P bitcoin validator e []
  | between {e : Engine} {cs : List Committed} (e' : Engine) :
      EntryRun P bitcoin validator e cs → EntryRun P bitcoin validator e' cs
  | call {e e' : Engine} {cs : List Committed} {entry : EntryPoint} {node : BitcoinNodeAdapter}
      {config : SyncConfig} {refresh : Except String Unit} {attempts : Nat → Attempt}
      {c : Option Committed} :
      EntryRun P bitcoin validator e cs → P entry →
      (entry.run bitcoin (some validator) node config refresh attempts).exec e = .ok (c,e') →
      EntryRun P bitcoin validator e' (cs ++ c.toList)

section Calls

variable {e e' : Engine} {bitcoin : BitcoinCodec} {validator : Option ChainValidator}
  {attempts : Nat → Attempt} {height : Nat} {blockData blockHash : Bytes} {label : String}
  {tracksCursor : Bool}

/-- A checked pass changes nothing, or the check has passed and the block is applied. -/
theorem processValidated_cases (bitcoin : BitcoinCodec) (validator : Option ChainValidator)
    (label : String) (tracksCursor : Bool) (attempts : Nat → Attempt) (height : Nat)
    (blockData blockHash : Bytes) (e : Engine) :
    (∃ f, (processValidated bitcoin validator label tracksCursor attempts height blockData
        blockHash).run e = ⟨[],.error f⟩) ∨
      (validateBlockConnects bitcoin validator height blockData blockHash e.storage = .ok true ∧
        ∃ ss done, (processValidated bitcoin validator label tracksCursor attempts height blockData
            blockHash).run e = ⟨ss,.ok done⟩ ∧
          Applied tracksCursor attempts height blockHash e done (ss.getLastD e)) := by
  rw [processValidated, Prog.run_read_bind]
  cases hv : validateBlockConnects bitcoin validator height blockData blockHash e.storage with
  | error f => exact .inl ⟨f,rfl⟩
  | ok accepted =>
    cases accepted with
    | false => exact .inl ⟨_,rfl⟩
    | true =>
      dsimp only
      rcases applyBlock_cases label tracksCursor attempts height blockHash e maxAtomicCommitAttempts
        1 none with hfail | happ
      · exact .inl hfail
      · exact .inr ⟨rfl,happ⟩

theorem processValidated_ok {done : Bool}
    (h : (processValidated bitcoin validator label tracksCursor attempts height blockData
      blockHash).exec e = .ok (done,e')) :
    validateBlockConnects bitcoin validator height blockData blockHash e.storage = .ok true ∧
      Applied tracksCursor attempts height blockHash e done e' := by
  rcases processValidated_cases bitcoin validator label tracksCursor attempts height blockData
    blockHash e with ⟨f,hf⟩ | ⟨hv,ss,done',hrun,happ⟩
  · rw [Prog.exec_error hf] at h
    cases h
  · rw [Prog.exec_ok hrun] at h
    cases h
    exact ⟨hv,happ⟩

/-- A failed pass leaves the engine as it was. -/
theorem processValidated_error {f : Fault}
    (h : (processValidated bitcoin validator label tracksCursor attempts height blockData
      blockHash).exec e = .error f) :
    (processValidated bitcoin validator label tracksCursor attempts height blockData
      blockHash).finalState e = e := by
  rcases processValidated_cases bitcoin validator label tracksCursor attempts height blockData
    blockHash e with ⟨f',hf⟩ | ⟨_,ss,done',hrun,_⟩
  · rw [Prog.finalState_eq hf]
    rfl
  · rw [Prog.exec_ok hrun] at h
    cases h

theorem committing_ok {pass : EngineProg Bool} {c : Committed}
    (h : (committing height blockData blockHash pass).exec e = .ok (some c,e')) :
    c = ⟨e.storage,height,blockData,blockHash⟩ ∧ pass.exec e = .ok (true,e') := by
  obtain ⟨before,e1,hread,h⟩ := Prog.exec_bind_ok h
  cases hread
  obtain ⟨done,e2,hpass,h⟩ := Prog.exec_bind_ok h
  cases done with
  | false => cases h
  | true =>
    cases h
    exact ⟨rfl,hpass⟩

theorem accepted_of_validated {validator : ChainValidator}
    (h : validateBlockConnects bitcoin (some validator) height blockData blockHash e.storage =
      .ok true) : Accepted validator ⟨e.storage,height,blockData,blockHash⟩ := by
  rw [validateBlockConnects] at h
  split at h
  · cases h
  · rename_i request hreq
    exact ⟨request,hreq,Except.ok.inj h⟩

/-- What a checking entry point commits is accepted. -/
theorem committing_accepted {validator : ChainValidator} {c : Committed}
    (h : (committing height blockData blockHash (processValidated bitcoin (some validator) label
      tracksCursor attempts height blockData blockHash)).exec e = .ok (some c,e')) :
    Accepted validator c := by
  obtain ⟨rfl,hpass⟩ := committing_ok h
  exact accepted_of_validated (processValidated_ok hpass).1

theorem EntryPoint.Validates.accepted {validator : ChainValidator} {entry : EntryPoint}
    (hv : entry.Validates) {node : BitcoinNodeAdapter} {config : SyncConfig}
    {refresh : Except String Unit} {c : Committed}
    (h : (entry.run bitcoin (some validator) node config refresh attempts).exec e =
      .ok (some c,e')) : Accepted validator c := by
  cases entry with
  | processBlock height blockData blockHash => exact committing_accepted h
  | processSingleBlock height =>
    obtain ⟨blockData,e1,_,h⟩ := Prog.exec_bind_ok h
    obtain ⟨blockHash,e2,_,h⟩ := Prog.exec_bind_ok h
    exact committing_accepted h
  | snapshotProcessBlock height blockData blockHash => exact committing_accepted h
  | pipelineProcessBlock => exact hv.elim
  | processBlockWithSnapshots => exact hv.elim
  | snapshotProcessSingleBlock => exact hv.elim
  | processNextBlock => exact hv.elim

end Calls

/-- Runs through the checking entry points commit only what the validator accepts. -/
theorem validator_not_bypassed (bitcoin : BitcoinCodec) (validator : ChainValidator) (e : Engine)
    (cs : List Committed) (h : EntryRun EntryPoint.Validates bitcoin validator e cs) :
    ∀ c ∈ cs, Accepted validator c := by
  induction h with
  | start => exact fun c hc => absurd hc List.not_mem_nil
  | between _ _ ih => exact ih
  | @call e e' cs entry node config refresh attempts c _ hp hcall ih =>
    intro d hd
    rcases List.mem_append.mp hd with hd | hd
    · exact ih d hd
    · cases c with
      | none => cases hd
      | some c =>
        rw [Option.toList_some, List.mem_singleton] at hd
        rw [hd]
        exact hp.accepted hcall

private def plainCodec : BitcoinCodec where
  Header := Bytes
  deserialize data := .ok data
  consensusEncode header := header
  prevBlockhash header := header
  sha256 data := data

private def quietNode : BitcoinNodeAdapter where
  isConnected := true
  getTipHeight := .ok 0
  getBlockHash _ := .ok (List.replicate 32 7)
  getBlockData _ := .ok []

private def mainnetConfig : SyncConfig where
  startBlock := 0
  exitAt := none
  maxReorgDepth := 100
  reorgCheckThreshold := 6
  enableStartupHeal := true

/-- One attempt that executes the block without a fault. -/
private def cleanAttempt (_ : Nat) : Attempt := ⟨.ok ([8],[]),none⟩

private def freshEngine : Engine := ⟨∅,0⟩

private theorem entry_commits (entry : EntryPoint) (validator : ChainValidator)
    (h : (((entry.run plainCodec (some validator) quietNode mainnetConfig (.ok ())
      cleanAttempt).exec freshEngine).toOption.any fun done => done.1.isSome) = true) :
    ∃ c e', (entry.run plainCodec (some validator) quietNode mainnetConfig (.ok ())
      cleanAttempt).exec freshEngine = .ok (some c,e') := by
  cases hc : (entry.run plainCodec (some validator) quietNode mainnetConfig (.ok ())
      cleanAttempt).exec freshEngine with
  | error f =>
    rw [hc] at h
    cases h
  | ok done =>
    obtain ⟨c,e'⟩ := done
    cases c with
    | none =>
      rw [hc] at h
      cases h
    | some c => exact ⟨c,e',rfl⟩

theorem validator_not_bypassed_one_block :
    ∃ e c, EntryRun EntryPoint.Validates plainCodec (fun request => request.height == 0) e [c] ∧
      ∀ d ∈ [c], Accepted (fun request => request.height == 0) d := by
  obtain ⟨c,e',hc⟩ := entry_commits (.processBlock 0 [1] (List.replicate 32 7))
    (fun request => request.height == 0) (by decide +kernel)
  have hrun := EntryRun.call (.start freshEngine) (P := EntryPoint.Validates) (by exact trivial) hc
  exact ⟨e',c,hrun,validator_not_bypassed plainCodec _ e' [c] hrun⟩

/-- The pipeline commits a block that the installed validator rejects. -/
theorem pipeline_bypasses_validator :
    ¬∀ bitcoin validator e cs, EntryRun (fun _ => True) bitcoin validator e cs →
      ∀ c ∈ cs, Accepted validator c := by
  intro hall
  obtain ⟨c,e',hc⟩ := entry_commits (.pipelineProcessBlock 0 [1] (List.replicate 32 7) 1)
    (fun _ => false) (by decide +kernel)
  obtain ⟨request,_,haccept⟩ := hall plainCodec (fun _ => false) e' _
    (.call (.start freshEngine) trivial hc) c (by simp)
  cases haccept

end Metashrew
