import Metashrew.Sync.Ancestor

namespace Metashrew

open Bytes Durable

/-- `str::contains`. -/
def contains (text pattern : String) : Bool :=
  decide (pattern.toList <:+: text.toList)

/-- What the processor reports for a block; the error is its text. -/
inductive BlockResult where
  | success (height : Nat)
  | error (height : Nat) (text : String)

/-- The errors that the result loop takes for a fork. -/
def needsReorg (text : String) : Bool :=
  contains text "does not connect to previous block" || contains text "CHAIN DISCONTINUITY" ||
    contains text "out-of-order commit rejected"

/-- One round of the result loop of the pipeline: the cursor it leaves, from the cursor it finds. -/
def handleBlockResult (node : BitcoinNodeAdapter) (refresh : Except String Unit)
    (config : SyncConfig) (currentHeight : Nat) : BlockResult → DbProg Nat
  | .success processedHeight => return processedHeight+1
  | .error failedHeight text =>
    if needsReorg text then do
      match ← (handleReorg failedHeight node refresh config).attempt with
      | .ok rollbackHeight => return rollbackHeight
      | .error _ => return currentHeight
    else if contains text "indexer exited unexpectedly" then
      .fail (.message s!"Block processing error at height {failedHeight}: {text}")
    else return currentHeight

/-- The text of an out-of-order rejection as `process_block` surfaces it. -/
def rejectionText (text : String) : String :=
  s!"Storage error: commit_atomic: Storage error: {text}"

theorem contains_left {s t pattern : String} (h : contains s pattern = true) :
    contains (s ++ t) pattern = true := by
  rw [contains, decide_eq_true_iff] at h ⊢
  rw [String.toList_append]
  exact h.trans (List.prefix_append _ _).isInfix

theorem contains_right {s t pattern : String} (h : contains t pattern = true) :
    contains (s ++ t) pattern = true := by
  rw [contains, decide_eq_true_iff] at h ⊢
  rw [String.toList_append]
  exact h.trans (List.suffix_append _ _).isInfix

section Rejection

variable {σ : Store} {h : Nat} {blockHash stateRoot : Bytes} {ops : List Op} {text : String}

private theorem outOfOrder_prefix : contains "out-of-order commit rejected: attempted height "
    "out-of-order commit rejected" = true := by
  decide +kernel

/-- Every rejection says that it is one. -/
theorem commitAtomic_rejection
    (hc : (commitAtomic h blockHash stateRoot ops).exec σ = .error (.message text)) :
    contains text "out-of-order commit rejected" = true := by
  have ha := commitAtomic_eq σ h blockHash stateRoot ops
  split_ifs at ha with hrej
  · rw [Prog.exec_error ha] at hc
    cases hc
    exact contains_left (contains_left (contains_left (contains_left outOfOrder_prefix)))
  · rw [Prog.exec_ok ha] at hc
    cases hc

theorem needsReorg_rejection
    (hc : (commitAtomic h blockHash stateRoot ops).exec σ = .error (.message text)) :
    needsReorg (rejectionText text) = true := by
  have hin : contains (rejectionText text) "out-of-order commit rejected" = true :=
    contains_right (commitAtomic_rejection hc)
  rw [needsReorg, hin, Bool.or_true]

end Rejection

section Drift

variable {σ : Store} {l : Log} {node : BitcoinNodeAdapter} {refresh : Except String Unit}
  {config : SyncConfig} {c : Nat}

/-- When every stored hash is the node's, a fork error leaves the store and sets the cursor to the
failed height itself. -/
theorem handleBlockResult_undetected
    (hs : ∀ k hash, getBlockHash σ k = some hash → node.getBlockHash k = .ok hash) (hc : 0 < c)
    {text : String} (ht : needsReorg text = true) (cursor : Nat) :
    (handleBlockResult node refresh config cursor (.error c text)).exec σ = .ok (c,σ) := by
  obtain ⟨r,hw⟩ := reorgWalk_undetected (c-config.maxReorgDepth) (c-1) fun k _ => hs k
  have hq : (handleReorg c node refresh config).run σ = ⟨[],.ok c⟩ := handleReorg_quiet hc hw
  have hrun : (handleBlockResult node refresh config cursor (.error c text)).run σ = ⟨[],.ok c⟩ := by
    rw [handleBlockResult, if_pos ht, Prog.run_bind_quiet (Prog.run_attempt hq)]
    rfl
  exact Prog.exec_ok hrun

end Drift

/-- What the comment on the fork branch promises: after the rejection of block `c` the cursor is the
height after the tip. -/
def Resynchronises (σ : Store) (node : BitcoinNodeAdapter) (refresh : Except String Unit)
    (config : SyncConfig) (c : Nat) : Prop :=
  ∀ blockHash stateRoot ops text,
    (commitAtomic c blockHash stateRoot ops).exec σ = .error (.message text) →
      ∃ σ', (handleBlockResult node refresh config c (.error c (rejectionText text))).exec σ =
        .ok (getIndexedHeight σ+1,σ')

theorem commitAtomic_rejected {σ : Store} {c : Nat} (hf : isFreshDb σ = false)
    (hc : getIndexedHeight σ+1 < c) (blockHash stateRoot : Bytes) (ops : List Op) :
    ∃ text, (commitAtomic c blockHash stateRoot ops).exec σ = .error (.message text) := by
  have ha := commitAtomic_eq σ c blockHash stateRoot ops
  rw [if_pos] at ha
  · exact ⟨_,Prog.exec_error ha⟩
  · rw [hf, saturatingSucc]
    simp
    omega

/-- No drift of the cursor above the tip is ever taken back, in any store with a committed tip whose
hashes are the node's. -/
theorem cursor_never_resynced (σ : Store) (hf : isFreshDb σ = false) (node : BitcoinNodeAdapter)
    (hs : ∀ k hash, getBlockHash σ k = some hash → node.getBlockHash k = .ok hash)
    (refresh : Except String Unit) (config : SyncConfig) (c : Nat)
    (hc : getIndexedHeight σ+1 < c) : ¬Resynchronises σ node refresh config c := by
  intro hsync
  obtain ⟨text,hrej⟩ := commitAtomic_rejected hf hc [] [] []
  obtain ⟨σ',he⟩ := hsync [] [] [] text hrej
  rw [handleBlockResult_undetected hs (by omega) (needsReorg_rejection hrej) c] at he
  cases he
  omega

private def driftNode : BitcoinNodeAdapter where
  isConnected := true
  getTipHeight := .ok 9
  getBlockHash _ := .ok [7]
  getBlockData _ := .ok []

private def driftConfig : SyncConfig where
  startBlock := 0
  exitAt := none
  maxReorgDepth := 100
  reorgCheckThreshold := 6
  enableStartupHeal := true

private def driftStore : Store := KV.write ∅ (commitOps 0 [7] [8] [])

private theorem driftStore_hashes (k : Nat) (hash : Bytes)
    (hk : getBlockHash driftStore k = some hash) : driftNode.getBlockHash k = .ok hash := by
  rw [driftStore, commitOps_hash (fun _ h => absurd h List.not_mem_nil), getBlockHash,
    get_of_empty] at hk
  split_ifs at hk
  cases hk
  rfl

theorem cursor_never_resynced_one_block :
    ¬Resynchronises driftStore driftNode (.ok ()) driftConfig 4 :=
  cursor_never_resynced driftStore (by decide +kernel) driftNode driftStore_hashes (.ok ())
    driftConfig 4 (by decide +kernel)

/-- With block 0 committed and the node's, a rejected block 4 leaves the cursor at 4. -/
theorem cursor_drift_stays :
    ¬∀ σ, isFreshDb σ = false → ∀ node : BitcoinNodeAdapter,
      (∀ k hash, getBlockHash σ k = some hash → node.getBlockHash k = .ok hash) →
        ∀ refresh config c, getIndexedHeight σ+1 < c → Resynchronises σ node refresh config c := by
  intro hall
  have hf : isFreshDb driftStore = false := by decide +kernel
  have hc : getIndexedHeight driftStore+1 < 4 := by decide +kernel
  obtain ⟨text,hrej⟩ := commitAtomic_rejected hf hc [] [] []
  obtain ⟨σ',he⟩ := hall driftStore hf driftNode driftStore_hashes (.ok ()) driftConfig 4 hc
    [] [] [] text hrej
  rw [handleBlockResult_undetected driftStore_hashes (by decide) (needsReorg_rejection hrej) 4] at he
  cases he

end Metashrew
