import Metashrew.Lib.Steps
import Metashrew.Sync.Entry

namespace Metashrew

open Bytes Durable Steps

/-- Where the fetcher stands between two steps. The height it carries is the cursor as it has loaded
it. -/
inductive FetcherAt where
  | top
  | running
  | loaded (height : Nat)
  | atTip (height remoteTip : Nat)
  | reorged (height remoteTip : Nat)
  | checked (height remoteTip : Nat)
  | absent (height : Nat)
  | fetched (height : Nat) (blockHash : Bytes)
  | inserted (height : Nat) (blockHash : Bytes)
  | done

/-- Where the processor stands. -/
inductive ProcessorAt where
  | idle
  | busy (height : Nat) (blockHash : Bytes)
  | finished (height : Nat)
  | done

/-- Where the result loop stands. Once it has left its loop it waits for the other tasks; after an
abort it is gone, and its channel with it. -/
inductive ResultsAt where
  | idle
  | received (result : BlockResult)
  | stored (height : Nat)
  | failed (height : Nat) (text : String)
  | rolledBack (height : Nat)
  | handled (height : Nat)
  | left
  | aborted

/-- What the three tasks of `run_pipeline` share, and where each of them stands. The heights that
the processor has taken from its channel are kept in `received`, oldest first. -/
structure Pipeline where
  storage : Store
  isRunning : Bool
  currentHeight : Nat
  processingHeights : Finset Nat
  blocks : List (Nat × Bytes)
  results : List BlockResult
  fetcher : FetcherAt
  processor : ProcessorAt
  resultLoop : ResultsAt
  received : List Nat

/-- One step of one task, with what it meets outside; `stop` comes from the owner of the engine. -/
inductive PipelineAction where
  | stop
  | fetcher (node : BitcoinNodeAdapter) (refresh : Except String Unit)
  | processor (attempts : Nat → Attempt) (count : Nat)
  | results (node : BitcoinNodeAdapter) (refresh : Except String Unit)

namespace Pipeline

/-- The next step of the fetcher. A send waits for room in the channel. -/
def fetcherStep (config : SyncConfig) (pipelineSize : Nat) (node : BitcoinNodeAdapter)
    (refresh : Except String Unit) (s : Pipeline) : Option Pipeline :=
  match s.fetcher with
  | .top => some { s with fetcher := if s.isRunning then .running else .done }
  | .running => some { s with fetcher := .loaded s.currentHeight }
  | .loaded height =>
    match node.getTipHeight with
    | .error _ => some { s with fetcher := .top }
    | .ok remoteTip => some { s with fetcher := .atTip height remoteTip }
  | .atTip height remoteTip =>
    if remoteTip-height ≤ config.reorgCheckThreshold then
      let storage := (handleReorg height node refresh config).finalState s.storage
      match ((handleReorg height node refresh config).run s.storage).result with
      | .error _ => some { s with storage, fetcher := .top }
      | .ok newHeight =>
        if newHeight = height then some { s with storage, fetcher := .checked height remoteTip }
        else some { s with storage, fetcher := .reorged newHeight remoteTip }
    else some { s with fetcher := .checked height remoteTip }
  | .reorged height remoteTip =>
    some { s with currentHeight := height, fetcher := .checked height remoteTip }
  | .checked height remoteTip =>
    if config.exitAt.any fun exitAt => exitAt ≤ height then some { s with fetcher := .done }
    else if remoteTip < height then some { s with fetcher := .top }
    else if height ∈ s.processingHeights then some { s with fetcher := .top }
    else some { s with fetcher := .absent height }
  | .absent height =>
    match node.getBlockData height, node.getBlockHash height with
    | .ok _, .ok blockHash => some { s with fetcher := .fetched height blockHash }
    | _, _ => some { s with fetcher := .top }
  | .fetched height blockHash =>
    some { s with
      processingHeights := insert height s.processingHeights
      fetcher := .inserted height blockHash }
  | .inserted height blockHash =>
    match s.processor with
    | .done => some { s with fetcher := .done }
    | _ =>
      if s.blocks.length < pipelineSize then
        some { s with blocks := s.blocks ++ [(height,blockHash)], fetcher := .top }
      else none
  | .done => none

/-- The next step of the processor. Its block stays with it until an attempt has committed. -/
def processorStep (pipelineSize : Nat) (attempts : Nat → Attempt) (count : Nat) (s : Pipeline) :
    Option Pipeline :=
  match s.processor with
  | .idle =>
    match s.blocks, s.fetcher, s.resultLoop with
    | (height,blockHash)::blocks, _, _ =>
      some { s with
        blocks, processor := .busy height blockHash, received := s.received ++ [height] }
    | [], .done, .left => some { s with processor := .done }
    | [], .done, .aborted => some { s with processor := .done }
    | [], _, _ => none
  | .busy height blockHash =>
    match (ProcessingClone.processBlock attempts height blockHash count 1).exec
        ⟨s.storage,s.currentHeight⟩ with
    | .ok (true,e) => some { s with storage := e.storage, processor := .finished height }
    | _ => some s
  | .finished height =>
    match s.resultLoop with
    | .aborted => some { s with processor := .done }
    | _ =>
      if s.results.length < pipelineSize then
        some { s with results := s.results ++ [.success height], processor := .idle }
      else none
  | .done => none

/-- The next step of the result loop. -/
def resultStep (config : SyncConfig) (node : BitcoinNodeAdapter) (refresh : Except String Unit)
    (s : Pipeline) : Option Pipeline :=
  match s.resultLoop with
  | .idle =>
    match s.results with
    | result::results => some { s with results, resultLoop := .received result }
    | [] => none
  | .received (.success height) =>
    match addU32 height 1 with
    | .ok next => some { s with currentHeight := next, resultLoop := .stored height }
    | .error _ => some { s with resultLoop := .aborted }
  | .received (.error height text) =>
    some { s with
      processingHeights := s.processingHeights.erase height
      resultLoop := .failed height text }
  | .stored height =>
    some { s with
      processingHeights := s.processingHeights.erase height
      resultLoop := .handled (height+1) }
  | .failed height text =>
    if needsReorg text then
      let storage := (handleReorg height node refresh config).finalState s.storage
      match ((handleReorg height node refresh config).run s.storage).result with
      | .error _ => some { s with storage, resultLoop := .handled height }
      | .ok rollbackHeight => some { s with storage, resultLoop := .rolledBack rollbackHeight }
    else if contains text "indexer exited unexpectedly" then
      some { s with isRunning := false, resultLoop := .aborted }
    else some { s with resultLoop := .handled height }
  | .rolledBack height =>
    some { s with currentHeight := height, resultLoop := .handled height }
  | .handled height =>
    if config.exitAt.any fun exitAt => exitAt ≤ height then some { s with resultLoop := .left }
    else some { s with resultLoop := if s.isRunning then .idle else .left }
  | .left => none
  | .aborted => none

def step (config : SyncConfig) (pipelineSize : Nat) (s : Pipeline) :
    PipelineAction → Option Pipeline
  | .stop => some { s with isRunning := false }
  | .fetcher node refresh => s.fetcherStep config pipelineSize node refresh
  | .processor attempts count => s.processorStep pipelineSize attempts count
  | .results node refresh => s.resultStep config node refresh

end Pipeline

end Metashrew
