import Metashrew.Lib.Loop
import Metashrew.Sync.Entry

namespace Metashrew

open Bytes Durable Loop

/-- What one attempt at a block meets: the cursor when it starts, the displayed error of
`process_block_atomic`, and that of `commit_atomic` on its result. -/
structure AttemptAnswer where
  currentHeight : Nat
  processBlockAtomic : Except String Unit
  commitAtomic : Except String Unit

/-- A retry loop between two attempts. -/
structure RetryState where
  calls : Nat
  attempt : Nat
  lastErr : Option String

/-- The result of a retry loop, with the number of attempts it took. -/
structure Verdict where
  calls : Nat
  result : Except String Unit

/-- One attempt of the loops with a retry budget. The copies of the snapshot engine have the
staleness guard in front. -/
def retryAttempt (label : String) (tracksCursor : Bool) (height : Nat)
    (answers : Nat → AttemptAnswer) (s : RetryState) : Verdict ⊕ RetryState :=
  let attempt := saturatingSucc s.attempt
  let answer := answers s.calls
  if tracksCursor && height < answer.currentHeight then .inl ⟨s.calls,.ok ()⟩
  else if maxAtomicCommitAttempts < attempt then
    let msg := s.lastErr.getD "no error captured"
    .inl ⟨s.calls,.error
      s!"Storage error: {label}: commit_atomic at height {height} exceeded max-retry budget ({maxAtomicCommitAttempts} attempts): last error: {msg}"⟩
  else
    match answer.processBlockAtomic with
    | .error msg => .inr ⟨s.calls+1,attempt,some s!"process_block_atomic: {msg}"⟩
    | .ok () =>
      match answer.commitAtomic with
      | .ok () => .inl ⟨s.calls+1,.ok ()⟩
      | .error msg =>
        if contains msg "out-of-order commit rejected" then
          .inl ⟨s.calls+1,.error s!"Storage error: commit_atomic: {msg}"⟩
        else .inr ⟨s.calls+1,attempt,some s!"commit_atomic: {msg}"⟩

def MetashrewSync.processBlockLoop : Nat → (Nat → AttemptAnswer) → RetryState → Verdict ⊕ RetryState :=
  retryAttempt "process_block" false

def SnapshotMetashrewSync.processBlockLoop :
    Nat → (Nat → AttemptAnswer) → RetryState → Verdict ⊕ RetryState :=
  retryAttempt "snapshot-path" true

def SnapshotMetashrewSync.processBlockWithSnapshotsLoop :
    Nat → (Nat → AttemptAnswer) → RetryState → Verdict ⊕ RetryState :=
  retryAttempt "snapshot-loop" true

/-- The copy of the pipeline: no budget, and every failure is retried. -/
def ProcessingClone.processBlockLoop (answers : Nat → AttemptAnswer) (s : RetryState) :
    Verdict ⊕ RetryState :=
  let attempt := saturatingSucc s.attempt
  let answer := answers s.calls
  match answer.processBlockAtomic with
  | .error _ => .inr { s with calls := s.calls+1, attempt }
  | .ok () =>
    match answer.commitAtomic with
    | .ok () => .inl ⟨s.calls+1,.ok ()⟩
    | .error _ => .inr { s with calls := s.calls+1, attempt }

def RetryState.start : RetryState := ⟨0,0,none⟩

inductive AttemptKind where
  | committed
  | rejected
  | failed
  deriving DecidableEq, Repr

/-- The three kinds of outcome. -/
def AttemptAnswer.kind (a : AttemptAnswer) : AttemptKind :=
  match a.processBlockAtomic,a.commitAtomic with
  | .error _,_ => .failed
  | .ok (),.ok () => .committed
  | .ok (),.error msg => if contains msg "out-of-order commit rejected" then .rejected else .failed

/-- The decision that the copies share: how many attempts it takes and whether it is `Ok`. -/
def decision (answers : Nat → AttemptAnswer) : Nat → Nat → Nat × Bool
  | 0, calls => (calls,false)
  | remaining+1, calls =>
    match (answers calls).kind with
    | .committed => (calls+1,true)
    | .rejected => (calls+1,false)
    | .failed => decision answers remaining (calls+1)

/-- The loop returns, with the given decision. -/
def Decides (loop : RetryState → Verdict ⊕ RetryState) (d : Nat × Bool) : Prop :=
  ∃ v, Returns loop .start v ∧ (v.calls,v.result.isOk) = d

/-- All four copies return with the same decision, the one of the retry budget. -/
structure LoopsAgree (height : Nat) (answers : Nat → AttemptAnswer) : Prop where
  processBlock : Decides (MetashrewSync.processBlockLoop height answers)
    (decision answers maxAtomicCommitAttempts 0)
  pipeline : Decides (ProcessingClone.processBlockLoop answers)
    (decision answers maxAtomicCommitAttempts 0)
  snapshot : Decides (SnapshotMetashrewSync.processBlockLoop height answers)
    (decision answers maxAtomicCommitAttempts 0)
  withSnapshots : Decides (SnapshotMetashrewSync.processBlockWithSnapshotsLoop height answers)
    (decision answers maxAtomicCommitAttempts 0)

/-- The first attempt that does not just fail is within the budget and commits, and up to it the
cursor stays at the block. -/
def CommitsInTime (height : Nat) (answers : Nat → AttemptAnswer) : Prop :=
  ∃ n < maxAtomicCommitAttempts, (answers n).kind = .committed ∧
    (∀ i < n, (answers i).kind = .failed) ∧ ∀ i ≤ n, (answers i).currentHeight ≤ height

section Attempts

variable {label : String} {tracksCursor : Bool} {height : Nat} {answers : Nat → AttemptAnswer}
  {s : RetryState} {n : Nat}

/-- One attempt within the budget, by its kind. -/
theorem retryAttempt_cases (label : String) (hb : s.attempt < maxAtomicCommitAttempts)
    (hg : tracksCursor = true → (answers s.calls).currentHeight ≤ height) :
    match (answers s.calls).kind with
    | .committed => retryAttempt label tracksCursor height answers s = .inl ⟨s.calls+1,.ok ()⟩
    | .rejected => ∃ msg, retryAttempt label tracksCursor height answers s =
        .inl ⟨s.calls+1,.error msg⟩
    | .failed => ∃ e, retryAttempt label tracksCursor height answers s =
        .inr ⟨s.calls+1,s.attempt+1,some e⟩ := by
  have hatt : saturatingSucc s.attempt = s.attempt+1 := by
    rw [saturatingSucc]
    rw [maxAtomicCommitAttempts] at hb
    omega
  have hguard : (tracksCursor && decide (height < (answers s.calls).currentHeight)) = false := by
    cases tracksCursor with
    | false => rfl
    | true => simpa using hg rfl
  have hbudget : ¬maxAtomicCommitAttempts < s.attempt+1 := by omega
  simp only [retryAttempt, AttemptAnswer.kind, hatt, hguard, hbudget, Bool.false_eq_true, if_false]
  cases (answers s.calls).processBlockAtomic with
  | error msg => exact ⟨_,rfl⟩
  | ok _ =>
    cases (answers s.calls).commitAtomic with
    | ok _ => rfl
    | error msg =>
      by_cases hc : contains msg "out-of-order commit rejected" = true
      · simp only [hc, if_true]
        exact ⟨_,rfl⟩
      · simp only [hc]
        exact ⟨_,rfl⟩

/-- Attempts that fail lead on to the next one, as long as the budget and the guard allow it. -/
theorem retry_passes (label : String) (tracksCursor : Bool) (hn : n ≤ maxAtomicCommitAttempts)
    (hf : ∀ i < n, (answers i).kind = .failed)
    (hg : ∀ i < n, tracksCursor = true → (answers i).currentHeight ≤ height) :
    ∃ lastErr, ∀ v, Returns (retryAttempt label tracksCursor height answers) .start v ↔
      Returns (retryAttempt label tracksCursor height answers) ⟨n,n,lastErr⟩ v := by
  induction n with
  | zero => exact ⟨none,fun v => Iff.rfl⟩
  | succ n ih =>
    obtain ⟨lastErr,hpass⟩ := ih (by omega) (fun i hi => hf i (by omega)) fun i hi => hg i (by omega)
    have hone := retryAttempt_cases label (s := ⟨n,n,lastErr⟩) (by simpa using hn)
      (hg n (by omega))
    simp only [hf n (by omega)] at hone
    obtain ⟨e,hnext⟩ := hone
    refine ⟨some e,fun v => ?_⟩
    rw [hpass, returns_next_iff hnext]

/-- So they do in the pipeline, without a budget; a rejection counts as a failure there. -/
theorem pipeline_passes (hf : ∀ i < n, (answers i).kind ≠ .committed) :
    ∃ attempt, ∀ v, Returns (ProcessingClone.processBlockLoop answers) .start v ↔
      Returns (ProcessingClone.processBlockLoop answers) ⟨n,attempt,none⟩ v := by
  induction n with
  | zero => exact ⟨0,fun v => Iff.rfl⟩
  | succ n ih =>
    obtain ⟨attempt,hpass⟩ := ih fun i hi => hf i (by omega)
    have hnext : ProcessingClone.processBlockLoop answers ⟨n,attempt,none⟩ =
        .inr ⟨n+1,saturatingSucc attempt,none⟩ := by
      have hkind := hf n (by omega)
      rw [AttemptAnswer.kind] at hkind
      rw [ProcessingClone.processBlockLoop]
      cases hx : (answers n).processBlockAtomic with
      | error msg => rfl
      | ok _ =>
        cases hc : (answers n).commitAtomic with
        | error msg => rfl
        | ok _ =>
          rw [hx, hc] at hkind
          exact absurd rfl hkind
    refine ⟨saturatingSucc attempt,fun v => ?_⟩
    rw [hpass, returns_next_iff hnext]

/-- The pipeline returns from a commit only. -/
theorem pipeline_ok {v : Verdict} (h : Returns (ProcessingClone.processBlockLoop answers) s v) :
    v.result = .ok () := by
  refine Returns.invariant (I := fun _ => True) (Q := fun v => v.result = .ok ())
    (fun _ _ _ _ => trivial) ?_ trivial h
  intro s r _ hr
  rw [ProcessingClone.processBlockLoop] at hr
  cases hx : (answers s.calls).processBlockAtomic with
  | error msg =>
    rw [hx] at hr
    cases hr
  | ok _ =>
    cases hc : (answers s.calls).commitAtomic with
    | error msg =>
      rw [hx, hc] at hr
      cases hr
    | ok _ =>
      rw [hx, hc] at hr
      cases hr
      rfl

/-- The decision is `Ok` when a commit comes first within the budget. -/
theorem decision_ok_iff {remaining calls : Nat} : (decision answers remaining calls).2 = true ↔
    ∃ k < remaining, (answers (calls+k)).kind = .committed ∧
      ∀ i < k, (answers (calls+i)).kind = .failed := by
  induction remaining generalizing calls with
  | zero => simp [decision]
  | succ remaining ih =>
    rw [decision]
    cases hk : (answers calls).kind with
    | committed =>
      refine iff_of_true rfl ⟨0,by omega,hk,fun i hi => by omega⟩
    | rejected =>
      refine iff_of_false (by simp) ?_
      rintro ⟨k,_,hcommit,hfail⟩
      cases k with
      | zero =>
        rw [Nat.add_zero, hk] at hcommit
        cases hcommit
      | succ k =>
        have h0 := hfail 0 (by omega)
        rw [Nat.add_zero, hk] at h0
        cases h0
    | failed =>
      rw [ih]
      constructor
      · rintro ⟨k,hlt,hcommit,hfail⟩
        refine ⟨k+1,by omega,by rwa [← Nat.add_right_comm] at hcommit,?_⟩
        intro i hi
        cases i with
        | zero => exact hk
        | succ i =>
          have := hfail i (by omega)
          rwa [Nat.add_right_comm] at this
      · rintro ⟨k,hlt,hcommit,hfail⟩
        cases k with
        | zero =>
          rw [Nat.add_zero, hk] at hcommit
          cases hcommit
        | succ k =>
          refine ⟨k,by omega,by rwa [Nat.add_right_comm],?_⟩
          intro i hi
          have := hfail (i+1) (by omega)
          rwa [Nat.add_right_comm]

/-- Then it takes the attempts up to the commit. -/
theorem decision_eq {remaining k calls : Nat} (hk : k < remaining)
    (hcommit : (answers (calls+k)).kind = .committed)
    (hfail : ∀ i < k, (answers (calls+i)).kind = .failed) :
    decision answers remaining calls = (calls+k+1,true) := by
  induction remaining generalizing k calls with
  | zero => omega
  | succ remaining ih =>
    cases k with
    | zero =>
      rw [Nat.add_zero] at hcommit
      simp only [decision, hcommit, Nat.add_zero]
    | succ k =>
      have h0 := hfail 0 (by omega)
      rw [Nat.add_zero] at h0
      simp only [decision, h0]
      rw [ih (k := k) (by omega) (by rwa [Nat.add_right_comm])]
      · rw [Nat.add_right_comm calls 1 k, Nat.add_assoc calls k 1]
      · intro i hi
        have := hfail (i+1) (by omega)
        rwa [Nat.add_right_comm]

/-- A copy with the budget returns from a commit in time. -/
theorem retry_commits (hn : n < maxAtomicCommitAttempts) (hcommit : (answers n).kind = .committed)
    (hf : ∀ i < n, (answers i).kind = .failed)
    (hg : ∀ i ≤ n, tracksCursor = true → (answers i).currentHeight ≤ height) :
    Returns (retryAttempt label tracksCursor height answers) .start ⟨n+1,.ok ()⟩ := by
  obtain ⟨lastErr,hpass⟩ := retry_passes label tracksCursor (by omega) hf fun i hi => hg i (by omega)
  have hone := retryAttempt_cases label (s := ⟨n,n,lastErr⟩) hn (hg n le_rfl)
  simp only [hcommit] at hone
  exact (hpass _).mpr (.done hone)

/-- A cursor that has passed the block by attempt `n` ends the loop there without a commit. -/
theorem retry_stale (label : String) (hn : n ≤ maxAtomicCommitAttempts) (hf : ∀ i < n, (answers i).kind = .failed)
    (hg : ∀ i < n, (answers i).currentHeight ≤ height) (hstale : height < (answers n).currentHeight) :
    Returns (retryAttempt label true height answers) .start ⟨n,.ok ()⟩ := by
  obtain ⟨lastErr,hpass⟩ := retry_passes label true hn hf
    fun i hi _ => hg i hi
  apply (hpass _).mpr
  apply Returns.done
  simp [retryAttempt, hstale]

end Attempts

/-- The four copies agree exactly when a commit ends the failures within the budget and no other
path moves the cursor past the block before. -/
theorem loops_agree_iff (height : Nat) (answers : Nat → AttemptAnswer) :
    LoopsAgree height answers ↔ CommitsInTime height answers := by
  constructor
  · intro h
    obtain ⟨v,hv,hd⟩ := h.pipeline
    have hok : (decision answers maxAtomicCommitAttempts 0).2 = true := by
      rw [← hd, pipeline_ok hv]
      rfl
    obtain ⟨n,hn,hcommit,hfail⟩ := decision_ok_iff.mp hok
    have hdec := decision_eq hn hcommit hfail
    simp only [Nat.zero_add] at hcommit hfail hdec
    refine ⟨n,hn,hcommit,hfail,?_⟩
    -- the first attempt at which the cursor has passed the block would end the snapshot loop
    by_contra hpast
    push Not at hpast
    have hex : ∃ i, i ≤ n ∧ height < (answers i).currentHeight := hpast
    obtain ⟨hle,hstale⟩ := Nat.find_spec hex
    have hbefore : ∀ i < Nat.find hex, (answers i).currentHeight ≤ height := by
      intro i hi
      have hmin := Nat.find_min hex hi
      by_contra hgt
      exact hmin ⟨by omega,by omega⟩
    obtain ⟨w,hw,hdw⟩ := h.snapshot
    have hret := retry_stale "snapshot-path" (hle.trans (le_of_lt hn))
      (fun i hi => hfail i (by omega)) hbefore hstale
    have hcalls := congrArg Prod.fst hdw
    rw [← hret.unique hw, hdec] at hcalls
    simp only at hcalls
    omega
  · intro ⟨n,hn,hcommit,hfail,hcursor⟩
    have hdec : decision answers maxAtomicCommitAttempts 0 = (n+1,true) := by
      have : decision answers maxAtomicCommitAttempts 0 = (0+n+1,true) :=
        decision_eq hn (by rwa [Nat.zero_add]) (by simpa using hfail)
      rwa [Nat.zero_add] at this
    have hbudget : ∀ label tracksCursor,
        Decides (retryAttempt label tracksCursor height answers) (n+1,true) := fun label tracksCursor =>
      ⟨_,retry_commits hn hcommit hfail fun i hi _ => hcursor i hi,rfl⟩
    have hpipeline : Decides (ProcessingClone.processBlockLoop answers) (n+1,true) := by
      obtain ⟨attempt,hpass⟩ := pipeline_passes fun i hi => by
        rw [hfail i hi]
        decide
      refine ⟨⟨n+1,.ok ()⟩,(hpass _).mpr (.done ?_),rfl⟩
      rw [AttemptAnswer.kind] at hcommit
      rw [ProcessingClone.processBlockLoop]
      cases hx : (answers n).processBlockAtomic with
      | error msg =>
        rw [hx] at hcommit
        cases hcommit
      | ok _ =>
        cases hc : (answers n).commitAtomic with
        | error msg =>
          rw [hx, hc] at hcommit
          simp only at hcommit
          split_ifs at hcommit
        | ok _ => rfl
    refine ⟨?_,?_,?_,?_⟩
    · rw [hdec]
      exact hbudget ..
    · rw [hdec]
      exact hpipeline
    · rw [hdec]
      exact hbudget ..
    · rw [hdec]
      exact hbudget ..

/-- The answers on an engine whose storage and cursor no other path moves. `commit_atomic` is only
asked after an execution. -/
def engineAnswers (e : Engine) (height : Nat) (blockHash : Bytes) (attempts : Nat → Attempt)
    (calls : Nat) : AttemptAnswer :=
  match (attempts (calls+1)).execution with
  | .error msg => ⟨e.currentHeight,.error msg,.ok ()⟩
  | .ok (stateRoot,batchData) =>
    ⟨e.currentHeight,.ok (),
      match ((commitAttempt height blockHash stateRoot batchData
          (attempts (calls+1)).writeError).run e.storage).result with
      | .ok () => .ok ()
      | .error (.message text) => .error s!"Storage error: {text}"
      | .error (.panic text) => .error text⟩

/-- A result as the caller sees it. -/
def displayed : Except Fault Bool → Except String Unit
  | .ok _ => .ok ()
  | .error (.message text) => .error text
  | .error (.panic text) => .error text

section Engine

variable {e : Engine} {label : String} {tracksCursor : Bool} {attempts : Nat → Attempt}
  {height : Nat} {blockHash : Bytes}

/-- The text of a rejection cannot begin inside the prefix of a displayed storage error. -/
theorem contains_storageError (text : String) :
    contains ("Storage error: " ++ text) "out-of-order commit rejected" =
      contains text "out-of-order commit rejected" := by
  rw [Bool.eq_iff_iff]
  constructor
  · intro h
    rw [contains, decide_eq_true_iff] at h ⊢
    rw [String.toList_append] at h
    obtain ⟨a,b,hab⟩ := h
    by_cases hlen : "Storage error: ".toList.length ≤ a.length
    · have hpre : "Storage error: ".toList <+: a := by
        have hwhole : "Storage error: ".toList <+: "Storage error: ".toList ++ text.toList :=
          List.prefix_append _ _
        apply List.prefix_of_prefix_length_le hwhole
        · rw [← hab, List.append_assoc]
          exact List.prefix_append _ _
        · exact hlen
      obtain ⟨c,rfl⟩ := hpre
      refine ⟨c,b,?_⟩
      rw [List.append_assoc, List.append_assoc] at hab
      rw [List.append_assoc]
      exact List.append_cancel_left hab
    · exfalso
      -- the letters `o` and `u` never follow each other in the prefix
      have h0 : ("Storage error: ".toList ++ text.toList)[a.length]? = some 'o' := by
        rw [← hab, List.append_assoc, List.getElem?_append_right le_rfl, Nat.sub_self]
        rfl
      have h1 : ("Storage error: ".toList ++ text.toList)[a.length+1]? = some 'u' := by
        rw [← hab, List.append_assoc, List.getElem?_append_right (by omega), Nat.add_sub_cancel_left]
        rfl
      have hl : "Storage error: ".toList.length = 15 := by decide
      rw [hl] at hlen
      generalize a.length = k at *
      have hk : k < 15 := by omega
      interval_cases k <;> revert h0 h1 <;> simp
  · exact contains_right

theorem commitAttempt_message {stateRoot : Bytes} {ops : List Op} {writeError : Option String}
    {σ : Store} {f : Fault}
    (h : ((commitAttempt height blockHash stateRoot ops writeError).run σ).result = .error f) :
    ∃ text, f = .message text := by
  have ha := commitAtomic_eq σ height blockHash stateRoot ops
  cases writeError with
  | none =>
    rw [commitAttempt, ha] at h
    split_ifs at h
    cases h
    exact ⟨_,rfl⟩
  | some w =>
    rw [commitAttempt, Prog.run_read_bind, ha] at h
    split_ifs at h
    · cases h
      exact ⟨_,rfl⟩
    · cases h
      exact ⟨_,rfl⟩

theorem engineAnswers_cursor (calls : Nat) :
    (engineAnswers e height blockHash attempts calls).currentHeight = e.currentHeight := by
  rw [engineAnswers]
  split <;> rfl

/-- A pass over a block on such an engine ends as the loop does on the engine's answers. -/
theorem applyBlock_returns {remaining calls : Nat} (hb : remaining+calls = maxAtomicCommitAttempts)
    (lastErr : Option String) :
    ∃ v, Returns (retryAttempt label tracksCursor height (engineAnswers e height blockHash attempts))
        ⟨calls,calls,lastErr⟩ v ∧
      v.result = displayed ((applyBlock label tracksCursor attempts height blockHash remaining
        (calls+1) lastErr).run e).result := by
  have hatt : saturatingSucc calls = calls+1 := by
    rw [maxAtomicCommitAttempts] at hb
    rw [saturatingSucc]
    omega
  have hcursor : (engineAnswers e height blockHash attempts calls).currentHeight = e.currentHeight :=
    engineAnswers_cursor calls
  induction remaining generalizing calls lastErr with
  | zero =>
    rw [applyBlock, Prog.run_read_bind]
    by_cases hstale : (tracksCursor && decide (height < e.currentHeight)) = true
    · rw [if_pos hstale]
      refine ⟨⟨calls,.ok ()⟩,.done ?_,rfl⟩
      rw [retryAttempt, hcursor, if_pos hstale]
    · rw [if_neg hstale]
      refine ⟨⟨calls,_⟩,.done ?_,rfl⟩
      rw [retryAttempt, hcursor, if_neg hstale, hatt, if_pos (by omega)]
  | succ remaining ih =>
    rw [applyBlock, Prog.run_read_bind]
    by_cases hstale : (tracksCursor && decide (height < e.currentHeight)) = true
    · rw [if_pos hstale]
      refine ⟨⟨calls,.ok ()⟩,.done ?_,rfl⟩
      rw [retryAttempt, hcursor, if_pos hstale]
    · rw [if_neg hstale]
      have hbudget : ¬maxAtomicCommitAttempts < calls+1 := by omega
      have hround : ∀ a, engineAnswers e height blockHash attempts calls = a →
          retryAttempt label tracksCursor height (engineAnswers e height blockHash attempts)
            ⟨calls,calls,lastErr⟩ =
          match a.processBlockAtomic with
          | .error msg => .inr ⟨calls+1,calls+1,some s!"process_block_atomic: {msg}"⟩
          | .ok () =>
            match a.commitAtomic with
            | .ok () => .inl ⟨calls+1,.ok ()⟩
            | .error msg =>
              if contains msg "out-of-order commit rejected" then
                .inl ⟨calls+1,.error s!"Storage error: commit_atomic: {msg}"⟩
              else .inr ⟨calls+1,calls+1,some s!"commit_atomic: {msg}"⟩ := by
        intro a ha
        rw [retryAttempt, hcursor, if_neg hstale, hatt, if_neg hbudget, ha]
      have hgo := fun err => @ih (calls+1) (by omega) err (by
        rw [maxAtomicCommitAttempts] at hb
        rw [saturatingSucc]
        omega) (engineAnswers_cursor _)
      cases hx : (attempts (calls+1)).execution with
      | error msg =>
        obtain ⟨v,hv,hres⟩ := hgo (some s!"process_block_atomic: {msg}")
        refine ⟨v,.next ?_ hv,hres⟩
        rw [hround _ rfl, engineAnswers, hx]
      | ok built =>
        obtain ⟨stateRoot,batchData⟩ := built
        dsimp only
        rcases commitAttempt_cases height blockHash stateRoot batchData
          (attempts (calls+1)).writeError e.storage with ⟨f,hf⟩ | ⟨_,hrun⟩
        · have hz : (onStorage (commitAttempt height blockHash stateRoot batchData
              (attempts (calls+1)).writeError)).run e = ⟨[],.error f⟩ := by
            simp only [onStorage, hf, List.map_nil]
          rw [Prog.run_bind_quiet (Prog.run_attempt hz)]
          obtain ⟨text,rfl⟩ := commitAttempt_message (congrArg Trace.result hf)
          have hans : engineAnswers e height blockHash attempts calls =
              ⟨e.currentHeight,.ok (),.error ("Storage error: " ++ text)⟩ := by
            rw [engineAnswers, hx]
            simp only [hf]
            rfl
          have hone := hround _ hans
          simp only [contains_storageError] at hone
          by_cases hrej : contains text "out-of-order commit rejected" = true
          · simp only [hrej, if_true] at hone ⊢
            refine ⟨_,.done hone,?_⟩
            rfl
          · simp only [hrej] at hone ⊢
            obtain ⟨v,hv,hres⟩ := hgo (some s!"commit_atomic: Storage error: {text}")
            refine ⟨v,.next ?_ hv,hres⟩
            rw [hone]
            rfl
        · have hz : (onStorage (commitAttempt height blockHash stateRoot batchData
              (attempts (calls+1)).writeError)).run e =
              ⟨[⟨KV.write e.storage (commitOps height blockHash stateRoot batchData),
                e.currentHeight⟩],.ok ()⟩ := by
            simp only [onStorage, hrun, List.map_cons, List.map_nil]
          rw [Prog.run_bind_write (Prog.run_attempt hz)]
          have hans : engineAnswers e height blockHash attempts calls =
              ⟨e.currentHeight,.ok (),.ok ()⟩ := by
            rw [engineAnswers, hx]
            simp only [hrun]
          refine ⟨⟨calls+1,.ok ()⟩,.done (hround _ hans),?_⟩
          cases tracksCursor with
          | true => rfl
          | false => rfl

/-- The endless loop of the pipeline returns when a pass that is cut off has committed. -/
theorem pipeline_returns {count calls attempt : Nat}
    (h : ((ProcessingClone.processBlock attempts height blockHash count (calls+1)).run e).result =
      .ok true) :
    ∃ v, Returns (ProcessingClone.processBlockLoop (engineAnswers e height blockHash attempts))
      ⟨calls,attempt,none⟩ v ∧ v.calls ≤ calls+count := by
  induction count generalizing calls attempt with
  | zero => cases h
  | succ count ih =>
    have hnext : ((ProcessingClone.processBlock attempts height blockHash count (calls+1+1)).run
          e).result = .ok true →
        ProcessingClone.processBlockLoop (engineAnswers e height blockHash attempts)
          ⟨calls,attempt,none⟩ = .inr ⟨calls+1,saturatingSucc attempt,none⟩ →
        ∃ v, Returns (ProcessingClone.processBlockLoop (engineAnswers e height blockHash attempts))
          ⟨calls,attempt,none⟩ v ∧ v.calls ≤ calls+(count+1) := by
      intro hrest hround
      obtain ⟨v,hv,hle⟩ := @ih _ (saturatingSucc attempt) hrest
      exact ⟨v,.next hround hv,by omega⟩
    rw [ProcessingClone.processBlock] at h
    cases hx : (attempts (calls+1)).execution with
    | error msg =>
      rw [hx] at h
      apply hnext h
      rw [ProcessingClone.processBlockLoop, engineAnswers, hx]
    | ok built =>
      obtain ⟨stateRoot,batchData⟩ := built
      rw [hx] at h
      dsimp only at h
      rcases commitAttempt_cases height blockHash stateRoot batchData
        (attempts (calls+1)).writeError e.storage with ⟨f,hf⟩ | ⟨_,hrun⟩
      · have hz : (onStorage (commitAttempt height blockHash stateRoot batchData
            (attempts (calls+1)).writeError)).run e = ⟨[],.error f⟩ := by
          simp only [onStorage, hf, List.map_nil]
        rw [Prog.run_bind_quiet (Prog.run_attempt hz)] at h
        obtain ⟨text,rfl⟩ := commitAttempt_message (congrArg Trace.result hf)
        apply hnext h
        rw [ProcessingClone.processBlockLoop, engineAnswers, hx]
        simp only [hf]
      · refine ⟨⟨calls+1,.ok ()⟩,.done ?_,by simp⟩
        rw [ProcessingClone.processBlockLoop, engineAnswers, hx]
        simp only [hrun]

end Engine

/-- A rejection at the first attempt and a commit after it. -/
private def rejectedOnce (i : Nat) : AttemptAnswer where
  currentHeight := 5
  processBlockAtomic := .ok ()
  commitAtomic := if i = 0 then
    .error "Storage error: out-of-order commit rejected: attempted height 5 but current tip is 3 (commit_atomic only accepts height == tip + 1)"
    else .ok ()

/-- The pipeline tries a rejected block again. -/
theorem pipeline_retries_rejection : ¬∀ height answers, LoopsAgree height answers := by
  intro hall
  have h := hall 5 rejectedOnce
  have hkind : (rejectedOnce 0).kind = .rejected := by decide +kernel
  have hdec : (decision rejectedOnce maxAtomicCommitAttempts 0).2 = false := by
    rw [maxAtomicCommitAttempts, decision, hkind]
  obtain ⟨v,hv,hd⟩ := h.pipeline
  rw [← hd, pipeline_ok hv] at hdec
  cases hdec

end Metashrew
