import Metashrew.Lib.Steps
import Metashrew.Sync.Entry

namespace Metashrew

open Bytes Durable Steps

def lastSentUnset : Int := -1

def saturatingAddU32 (a b : Nat) : Nat := min (a+b) (2^32-1)

/-- The half-open range of heights to fetch next, if there is anything new. -/
def computeNextFetchRange (processorTip : Nat) (lastSent : Int) (prefetchSize remoteTip : Nat) :
    Option (Nat × Nat) :=
  let afterLastSent :=
    if lastSent < 0 then processorTip else saturatingSucc (lastSent.toNat % 2^32)
  let fetchStart := max afterLastSent processorTip
  if remoteTip < fetchStart then none
  else
    let fetchEnd := min (saturatingAddU32 fetchStart (prefetchSize % 2^32)) (saturatingSucc remoteTip)
    if fetchEnd ≤ fetchStart then none else some (fetchStart,fetchEnd)

/-- The least height that the path near the tip may send. -/
def nearTipMinSendHeight (lastSent : Int) : Nat :=
  if lastSent < 0 then 0 else saturatingSucc (lastSent.toNat % 2^32)

def nearTipShouldDrop (lastSent : Int) (candidateHeight : Nat) : Bool :=
  candidateHeight < nearTipMinSendHeight lastSent

/-- The height that decides between the path near the tip and the batch. -/
def nearTipFetchStart (processorTip : Nat) (lastSent : Int) : Nat :=
  if lastSent < 0 then processorTip else max (saturatingSucc (lastSent.toNat % 2^32)) processorTip

structure BlockData where
  height : Nat
  blockData : Bytes
  blockHash : Bytes

/-- Where the fetcher stands between two steps, with its local values. From `floor` to `fetching` it
is inside `get_next_block_data_with_floor`; a batch goes up to the height before `fetchEnd`, and a
single block has none. -/
inductive PrefetcherAt where
  | top
  | running
  | tipped (processorTip : Nat)
  | remote (processorTip remoteTip : Nat)
  | floor (lastSent : Int)
  | loaded (lastSent : Int) (currentHeight : Nat)
  | nearTip (lastSent : Int) (currentHeight remoteTip : Nat)
  | reorged (lastSent : Int) (newHeight remoteTip : Nat)
  | fetching (lastSent : Int) (currentHeight remoteTip : Nat)
  | batch (height fetchEnd : Nat)
  | sending (block : BlockData) (fetchEnd : Option Nat)
  | sent (height : Nat) (fetchEnd : Option Nat)
  | done

/-- Where the processor stands. The attempts at a block are numbered from 1. -/
inductive BlockProcessorAt where
  | idle
  | validating (block : BlockData)
  | trying (block : BlockData) (attempt : Nat) (lastErr : Option String)
  | executing (block : BlockData) (attempt : Nat)
  | committed (height : Nat)
  | reporting (result : BlockResult)
  | done

/-- Where the result task stands. -/
inductive ResultTaskAt where
  | idle
  | handling (result : BlockResult)
  | resetting
  | handled
  | done

/-- What the three tasks of the indexer share, and where each of them stands. -/
structure IndexerLoop where
  storage : Store
  currentHeight : Nat
  lastSent : Int
  blocks : List BlockData
  results : List BlockResult
  blockCount : Nat
  fetcher : PrefetcherAt
  processor : BlockProcessorAt
  resultTask : ResultTaskAt

/-- One step of one task, with what it meets outside. -/
inductive IndexerAction where
  | fetcher (node : BitcoinNodeAdapter) (refresh : Except String Unit)
  | processor (attempts : Nat → Attempt)
  | resultTask (node : BitcoinNodeAdapter) (refresh : Except String Unit)

/-- The errors that the result task takes for a fork. -/
def isDiscontinuity (text : String) : Bool :=
  contains text "does not connect to previous block" || contains text "CHAIN DISCONTINUITY"

namespace IndexerLoop

/-- The next step of the fetcher. A send waits for room in the channel. -/
def fetcherStep (config : SyncConfig) (prefetchSize : Nat) (node : BitcoinNodeAdapter)
    (refresh : Except String Unit) (s : IndexerLoop) : Option IndexerLoop :=
  match s.fetcher with
  | .top =>
    if config.exitAt.any fun exitAt => exitAt ≤ getIndexedHeight s.storage then
      some { s with fetcher := .done }
    else some { s with fetcher := .running }
  | .running => some { s with fetcher := .tipped s.currentHeight }
  | .tipped processorTip =>
    match node.getTipHeight with
    | .error _ => some { s with fetcher := .top }
    | .ok remoteTip => some { s with fetcher := .remote processorTip remoteTip }
  | .remote processorTip remoteTip =>
    if remoteTip-nearTipFetchStart processorTip s.lastSent ≤ config.reorgCheckThreshold then
      some { s with fetcher := .floor s.lastSent }
    else
      match computeNextFetchRange processorTip s.lastSent prefetchSize remoteTip with
      | none => some { s with fetcher := .top }
      | some (fetchStart,fetchEnd) => some { s with fetcher := .batch fetchStart fetchEnd }
  | .floor lastSent => some { s with fetcher := .loaded lastSent s.currentHeight }
  | .loaded lastSent currentHeight =>
    match node.getTipHeight with
    | .error _ => some { s with fetcher := .top }
    | .ok remoteTip => some { s with fetcher := .nearTip lastSent currentHeight remoteTip }
  | .nearTip lastSent currentHeight remoteTip =>
    if remoteTip-currentHeight ≤ config.reorgCheckThreshold then
      let storage := (handleReorg currentHeight node refresh config).finalState s.storage
      match ((handleReorg currentHeight node refresh config).run s.storage).result with
      | .error _ => some { s with storage, fetcher := .top }
      | .ok newHeight => some { s with storage, fetcher := .reorged lastSent newHeight remoteTip }
    else some { s with fetcher := .fetching lastSent currentHeight remoteTip }
  | .reorged lastSent newHeight remoteTip =>
    some { s with
      currentHeight := newHeight
      fetcher := .fetching lastSent newHeight remoteTip }
  | .fetching lastSent currentHeight remoteTip =>
    let fetchHeight := max (nearTipMinSendHeight lastSent) currentHeight
    if config.exitAt.any fun exitAt => exitAt ≤ fetchHeight then some { s with fetcher := .top }
    else if remoteTip < fetchHeight then some { s with fetcher := .top }
    else
      match node.getBlockData fetchHeight, node.getBlockHash fetchHeight with
      | .ok blockData, .ok blockHash =>
        if nearTipShouldDrop lastSent fetchHeight then some { s with fetcher := .top }
        else some { s with fetcher := .sending ⟨fetchHeight,blockData,blockHash⟩ none }
      | _, _ => some { s with fetcher := .top }
  | .batch height fetchEnd =>
    match node.getBlockData height, node.getBlockHash height with
    | .ok blockData, .ok blockHash =>
      some { s with fetcher := .sending ⟨height,blockData,blockHash⟩ (some fetchEnd) }
    | _, _ => some { s with fetcher := .top }
  | .sending block fetchEnd =>
    match s.processor with
    | .done => some { s with fetcher := if fetchEnd.isSome then .top else .done }
    | _ =>
      if s.blocks.length < prefetchSize then
        some { s with blocks := s.blocks ++ [block], fetcher := .sent block.height fetchEnd }
      else none
  | .sent height fetchEnd =>
    some { s with
      lastSent := max s.lastSent height
      fetcher :=
        if fetchEnd.any fun fetchEnd => height+1 < fetchEnd then
          .batch (height+1) (fetchEnd.getD 0)
        else .top }
  | .done => none

/-- The next step of the processor: `process_block` of the snapshot engine, between two channels. -/
def processorStep (bitcoin : BitcoinCodec) (validator : Option ChainValidator) (prefetchSize : Nat)
    (attempts : Nat → Attempt) (s : IndexerLoop) : Option IndexerLoop :=
  match s.processor with
  | .idle =>
    match s.blocks with
    | block::blocks => some { s with blocks, processor := .validating block }
    | [] => none
  | .validating block =>
    match validateBlockConnects bitcoin validator block.height block.blockData block.blockHash
        s.storage with
    | .ok true => some { s with processor := .trying block 1 none }
    | .ok false =>
      let text :=
        s!"Block processing error at height {block.height}: Block does not connect to previous block - possible reorg or chain inconsistency"
      some { s with processor := .reporting (.error block.height text) }
    | .error (.message text) =>
      some { s with processor := .reporting (.error block.height text) }
    | .error (.panic _) => some { s with processor := .done }
  | .trying block attempt lastErr =>
    if block.height < s.currentHeight then
      some { s with processor := .reporting (.success block.height) }
    else if maxAtomicCommitAttempts < attempt then
      let msg := lastErr.getD "no error captured"
      let text :=
        s!"Storage error: snapshot-path: commit_atomic at height {block.height} exceeded max-retry budget ({maxAtomicCommitAttempts} attempts): last error: {msg}"
      some { s with processor := .reporting (.error block.height text) }
    else some { s with processor := .executing block attempt }
  | .executing block attempt =>
    match (attempts attempt).execution with
    | .error msg =>
      let lastErr := s!"process_block_atomic: {msg}"
      some { s with processor := .trying block (attempt+1) (some lastErr) }
    | .ok (stateRoot,batchData) =>
      match (commitAttempt block.height block.blockHash stateRoot batchData
          (attempts attempt).writeError).exec s.storage with
      | .ok ((),storage) => some { s with storage, processor := .committed block.height }
      | .error (.message text) =>
        if contains text "out-of-order commit rejected" then
          some { s with processor := .reporting (.error block.height (rejectionText text)) }
        else
          let lastErr := s!"commit_atomic: Storage error: {text}"
          some { s with processor := .trying block (attempt+1) (some lastErr) }
      | .error (.panic _) => some { s with processor := .done }
  | .committed height =>
    some { s with currentHeight := height+1, processor := .reporting (.success height) }
  | .reporting result =>
    match s.resultTask with
    | .done => some { s with processor := .done }
    | _ =>
      if s.results.length < prefetchSize then
        some { s with results := s.results ++ [result], processor := .idle }
      else none
  | .done => none

/-- The next step of the result task. -/
def resultTaskStep (config : SyncConfig) (node : BitcoinNodeAdapter)
    (refresh : Except String Unit) (s : IndexerLoop) : Option IndexerLoop :=
  match s.resultTask with
  | .idle =>
    match s.results with
    | result::results => some { s with results, resultTask := .handling result }
    | [] => none
  | .handling (.success _) => some { s with blockCount := s.blockCount+1, resultTask := .handled }
  | .handling (.error height text) =>
    if isDiscontinuity text then
      let storage := (handleReorg height node refresh config).finalState s.storage
      match ((handleReorg height node refresh config).run s.storage).result with
      | .error _ => some { s with storage, resultTask := .handled }
      | .ok _ => some { s with storage, resultTask := .resetting }
    else some { s with resultTask := .handled }
  | .resetting => some { s with lastSent := lastSentUnset, resultTask := .handled }
  | .handled =>
    if config.exitAt.any fun exitAt => exitAt ≤ s.blockCount % 2^32 then
      some { s with resultTask := .done }
    else some { s with resultTask := .idle }
  | .done => none

def step (bitcoin : BitcoinCodec) (validator : Option ChainValidator) (config : SyncConfig)
    (prefetchSize : Nat) (s : IndexerLoop) : IndexerAction → Option IndexerLoop
  | .fetcher node refresh => s.fetcherStep config prefetchSize node refresh
  | .processor attempts => s.processorStep bitcoin validator prefetchSize attempts
  | .resultTask node refresh => s.resultTaskStep config node refresh

end IndexerLoop

end Metashrew
