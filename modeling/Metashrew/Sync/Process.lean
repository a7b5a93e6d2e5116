import Metashrew.Runtime.Execution
import Metashrew.Sync.ResultLoop

namespace Metashrew

open Bytes Durable

/-- An engine: its storage and its cursor, the next height to process. -/
structure Engine where
  storage : Store
  currentHeight : Nat

abbrev EngineProg := Prog Engine Fault

/-- A program of the storage, run by the engine. -/
def onStorage {α : Type} (p : DbProg α) : EngineProg α :=
  ⟨fun e => ⟨(p.run e.storage).states.map fun σ => { e with storage := σ },(p.run e.storage).result⟩⟩

def storeCurrentHeight (height : Nat) : EngineProg Unit :=
  .modify fun e => { e with currentHeight := height }

/-- What one attempt at a block meets: the state root and the batch of its execution, or the text of
its error, and the text of a failing write. -/
structure Attempt where
  execution : Except String (Bytes × List Op)
  writeError : Option String

/-- `commit_atomic` with a database whose write may fail after the order check. -/
def commitAttempt (height : Nat) (blockHash stateRoot : Bytes) (batchData : List Op)
    (writeError : Option String) : DbProg Unit :=
  match writeError with
  | none => commitAtomic height blockHash stateRoot batchData
  | some e => do
    match ← .read fun σ => ((commitAtomic height blockHash stateRoot batchData).run σ).result with
    | .error f => .fail f
    | .ok () => .fail (.message s!"commit_atomic write failed at height {height}: {e}")

def maxAtomicCommitAttempts : Nat := 30

/-- The attempts at one block from number `attempt` on, at most `remaining` of them. The paths of
the snapshot engine track the cursor: each attempt starts with the staleness guard, and a commit
moves the cursor. No other task moves the engine in between. The result tells a commit from a stale
block, which the source does not. Texts are as displayed. -/
def applyBlock (label : String) (tracksCursor : Bool) (attempts : Nat → Attempt) (height : Nat)
    (blockHash : Bytes) : Nat → Nat → Option String → EngineProg Bool
  | 0, _, lastErr => do
    let current ← .read Engine.currentHeight
    if tracksCursor && height < current then return false
    else
      let msg := lastErr.getD "no error captured"
      .fail (.message
        s!"Storage error: {label}: commit_atomic at height {height} exceeded max-retry budget ({maxAtomicCommitAttempts} attempts): last error: {msg}")
  | remaining+1, attempt, _ => do
    let current ← .read Engine.currentHeight
    if tracksCursor && height < current then return false
    else
      match (attempts attempt).execution with
      | .error msg =>
        applyBlock label tracksCursor attempts height blockHash remaining (attempt+1)
          (some s!"process_block_atomic: {msg}")
      | .ok (stateRoot,batchData) =>
        match ← (onStorage (commitAttempt height blockHash stateRoot batchData
            (attempts attempt).writeError)).attempt with
        | .ok () =>
          if tracksCursor then storeCurrentHeight (height+1)
          return true
        | .error (.panic text) => .fail (.panic text)
        | .error (.message text) =>
          if contains text "out-of-order commit rejected" then
            .fail (.message (rejectionText text))
          else
            applyBlock label tracksCursor attempts height blockHash remaining (attempt+1)
              (some s!"commit_atomic: Storage error: {text}")

section Spec

variable {e e' : Engine} {height : Nat} {blockHash stateRoot : Bytes} {ops : List Op}
  {writeError : Option String} {attempts : Nat → Attempt} {label : String} {tracksCursor : Bool}

/-- A commit writes the whole batch or nothing. -/
theorem commitAttempt_cases (height : Nat) (blockHash stateRoot : Bytes) (ops : List Op)
    (writeError : Option String) (σ : Store) :
    (∃ f, (commitAttempt height blockHash stateRoot ops writeError).run σ = ⟨[],.error f⟩) ∨
      ((commitAtomic height blockHash stateRoot ops).exec σ =
          .ok ((),KV.write σ (commitOps height blockHash stateRoot ops)) ∧
        (commitAttempt height blockHash stateRoot ops writeError).run σ =
          ⟨[KV.write σ (commitOps height blockHash stateRoot ops)],.ok ()⟩) := by
  have ha := commitAtomic_eq σ height blockHash stateRoot ops
  cases writeError with
  | none =>
    rw [commitAttempt]
    split_ifs at ha with hrej
    · exact .inl ⟨_,ha⟩
    · exact .inr ⟨Prog.exec_ok ha,ha⟩
  | some w =>
    left
    rw [commitAttempt, Prog.run_read_bind, ha]
    split_ifs with hrej
    · exact ⟨_,rfl⟩
    · exact ⟨_,rfl⟩

/-- What a successful pass over a block has done: nothing, when the guard took it for stale, or the
commit of one attempt. -/
inductive Applied (tracksCursor : Bool) (attempts : Nat → Attempt) (height : Nat) (blockHash : Bytes)
    (e : Engine) : Bool → Engine → Prop where
  | stale : tracksCursor = true → height < e.currentHeight →
      Applied tracksCursor attempts height blockHash e false e
  | committed {i : Nat} {stateRoot : Bytes} {ops : List Op} {σ : Store} :
      (tracksCursor = true → e.currentHeight ≤ height) →
      (attempts i).execution = .ok (stateRoot,ops) →
      (commitAtomic height blockHash stateRoot ops).exec e.storage = .ok ((),σ) →
      Applied tracksCursor attempts height blockHash e true
        ⟨σ,if tracksCursor then height+1 else e.currentHeight⟩

/-- A pass over a block fails without a change, or applies the block. -/
theorem applyBlock_cases (label : String) (tracksCursor : Bool) (attempts : Nat → Attempt)
    (height : Nat) (blockHash : Bytes) (e : Engine) (remaining attempt : Nat)
    (lastErr : Option String) :
    (∃ f, (applyBlock label tracksCursor attempts height blockHash remaining attempt lastErr).run e =
        ⟨[],.error f⟩) ∨
      ∃ ss done, (applyBlock label tracksCursor attempts height blockHash remaining attempt
          lastErr).run e = ⟨ss,.ok done⟩ ∧
        Applied tracksCursor attempts height blockHash e done (ss.getLastD e) := by
  have hguard : ∀ rest : EngineProg Bool, (tracksCursor && decide (height < e.currentHeight)) = true →
      ∃ ss done, (if (tracksCursor && decide (height < e.currentHeight)) = true then return false else
        rest : EngineProg Bool).run e = ⟨ss,.ok done⟩ ∧
          Applied tracksCursor attempts height blockHash e done (ss.getLastD e) := by
    intro rest hstale
    rw [if_pos hstale]
    rw [Bool.and_eq_true, decide_eq_true_eq] at hstale
    exact ⟨[],false,rfl,.stale hstale.1 hstale.2⟩
  induction remaining generalizing attempt lastErr with
  | zero =>
    rw [applyBlock, Prog.run_read_bind]
    by_cases hstale : (tracksCursor && decide (height < e.currentHeight)) = true
    · exact .inr (hguard _ hstale)
    · rw [if_neg hstale]
      exact .inl ⟨_,rfl⟩
  | succ remaining ih =>
    rw [applyBlock, Prog.run_read_bind]
    by_cases hstale : (tracksCursor && decide (height < e.currentHeight)) = true
    · exact .inr (hguard _ hstale)
    rw [if_neg hstale]
    cases hx : (attempts attempt).execution with
    | error msg => exact ih ..
    | ok built =>
      obtain ⟨stateRoot,batchData⟩ := built
      dsimp only
      rcases commitAttempt_cases height blockHash stateRoot batchData (attempts attempt).writeError
        e.storage with ⟨f,hf⟩ | ⟨hc,hrun⟩
      · have hz : (onStorage (commitAttempt height blockHash stateRoot batchData
            (attempts attempt).writeError)).run e = ⟨[],.error f⟩ := by
          simp only [onStorage, hf, List.map_nil]
        rw [Prog.run_bind_quiet (Prog.run_attempt hz)]
        cases f with
        | panic text => exact .inl ⟨_,rfl⟩
        | message text =>
          dsimp only
          split_ifs
          · exact .inl ⟨_,rfl⟩
          · exact ih ..
      · have hz : (onStorage (commitAttempt height blockHash stateRoot batchData
            (attempts attempt).writeError)).run e =
            ⟨[⟨KV.write e.storage (commitOps height blockHash stateRoot batchData),
              e.currentHeight⟩],.ok ()⟩ := by
          simp only [onStorage, hrun, List.map_cons, List.map_nil]
        right
        have hcursor : tracksCursor = true → e.currentHeight ≤ height := by
          intro ht
          rw [ht, Bool.true_and, decide_eq_true_eq] at hstale
          omega
        have happ := Applied.committed hcursor hx hc
        rw [Prog.run_bind_write (Prog.run_attempt hz)]
        cases tracksCursor with
        | true => exact ⟨_,true,rfl,happ⟩
        | false => exact ⟨_,true,rfl,happ⟩

end Spec

end Metashrew
