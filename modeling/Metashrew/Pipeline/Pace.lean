import Metashrew.Pipeline.Indexer
import Metashrew.Sync.SnapshotLoop

namespace Metashrew

open Bytes Durable Steps

/-- The next height to commit, as a value. -/
def frontier (config : SyncConfig) (σ : Store) : Nat :=
  if isFreshDb σ then config.startBlock else getIndexedHeight σ+1

theorem nextHeight_iff {config : SyncConfig} {σ : Store} {height : Nat} :
    NextHeight config σ height ↔ height = frontier config σ := by
  rw [NextHeight, frontier]
  cases isFreshDb σ <;> simp

/-- The height that a reorg check from `height` would roll back to. -/
def detects (config : SyncConfig) (node : BitcoinNodeAdapter) (σ : Store) (height : Nat) :
    Option Nat :=
  (reorgWalk σ node (height-config.maxReorgDepth) (height-1) false).bind fun w =>
    if w.2 then some w.1 else none

def BlockResult.failures : BlockResult → Nat
  | .success _ => 0
  | .error _ _ => 1

def PrefetcherAt.isTop : PrefetcherAt → Bool
  | .top => true
  | _ => false

def BlockProcessorAt.outstanding : BlockProcessorAt → List Nat
  | .validating block => [block.height]
  | .trying block _ _ => [block.height]
  | .executing block _ => [block.height]
  | _ => []

def BlockProcessorAt.failures : BlockProcessorAt → Nat
  | .reporting result => result.failures
  | _ => 0

def ResultTaskAt.failures : ResultTaskAt → Nat
  | .handling result => result.failures
  | .resetting => 1
  | _ => 0

namespace IndexerLoop

/-- The height that the fetcher is about to send. -/
def sends (s : IndexerLoop) : Option Nat :=
  match s.fetcher with
  | .sending block _ => some block.height
  | _ => none

/-- The start of the three tasks, with the cursor right. -/
structure Starting (config : SyncConfig) (s : IndexerLoop) : Prop where
  storage : ∃ l, Runs Orderly s.storage l
  cursor : NextHeight config s.storage s.currentHeight
  small : s.currentHeight<2^32
  lastSent : s.lastSent = lastSentUnset
  blocks : s.blocks = []
  results : s.results = []
  fetcher : s.fetcher = .top
  processor : s.processor = .idle
  resultTask : s.resultTask = .idle

/-- The heights sent and not yet committed, oldest first. -/
def outstanding (s : IndexerLoop) : List Nat :=
  s.processor.outstanding ++ s.blocks.map BlockData.height

/-- The failures that the result task has not dealt with. -/
def failures (s : IndexerLoop) : Nat :=
  s.processor.failures+(s.results.map BlockResult.failures).sum+s.resultTask.failures

/-- The steps that keep the pace. The fetcher waits while a failure is open; it rolls back only while
its watermark is unset, to a height that leaves a tip. A block fails only with nothing behind it, the
fetcher at its top and the cursor right. The result task meets only discontinuities, and no different
hash on their account. -/
def keepsPace (bitcoin : BitcoinCodec) (validator : Option ChainValidator) (config : SyncConfig)
    (prefetchSize : Nat) (s : IndexerLoop) : IndexerAction → Bool
  | .fetcher node refresh =>
    s.failures == 0 &&
      match s.fetcher with
      | .nearTip lastSent currentHeight remoteTip =>
        decide (config.reorgCheckThreshold < remoteTip-currentHeight) ||
          (detects config node s.storage currentHeight).all fun r =>
            decide (lastSent < 0) && refresh.isOk && (0 < r || (getBlockHash s.storage 0).isSome)
      | .sending block _ => block.height+1 < 2^32
      | _ => true
  | .processor attempts =>
    (s.processorStep bitcoin validator prefetchSize attempts).all fun s' =>
      s'.failures ≤ s.failures ||
        s.blocks.isEmpty && s.fetcher.isTop && s.currentHeight == frontier config s.storage
  | .resultTask node _ =>
    match s.resultTask with
    | .handling (.error height text) =>
      isDiscontinuity text && (detects config node s.storage height).isNone
    | _ => true

/-- The batches that the processor commits name no record of the storage itself. -/
def CleanAttempts : IndexerAction → Prop
  | .processor attempts =>
    ∀ n stateRoot ops, (attempts n).execution = .ok (stateRoot,ops) → CleanBatch ops
  | _ => True

/-- The height to send next. -/
def ahead (config : SyncConfig) (s : IndexerLoop) : Nat :=
  frontier config s.storage+s.outstanding.length

/-- Nothing has been sent since the start or the last reset. -/
def Unset (s : IndexerLoop) : Prop :=
  s.lastSent = lastSentUnset ∧ s.outstanding = [] ∧ ∀ h, s.processor ≠ .committed h

/-- The cursor and its copies are the frontier while nothing is sent; after that the watermark leads,
and they stay at or below the frontier. -/
def Agrees (config : SyncConfig) (s : IndexerLoop) (cursors : List Nat) : Prop :=
  (s.Unset ∧ ∀ c ∈ cursors, c = frontier config s.storage) ∨
    (s.lastSent+1 = s.ahead config ∧ ∀ c ∈ cursors, c ≤ frontier config s.storage)

/-- What each place of the fetcher says about its local values. -/
def FetcherLaw (config : SyncConfig) (s : IndexerLoop) : PrefetcherAt → Prop
  | .tipped processorTip => s.Agrees config [s.currentHeight,processorTip]
  | .remote processorTip _ => s.Agrees config [s.currentHeight,processorTip]
  | .floor lastSent => lastSent = s.lastSent ∧ s.Agrees config [s.currentHeight]
  | .loaded lastSent currentHeight =>
    lastSent = s.lastSent ∧ s.Agrees config [s.currentHeight,currentHeight]
  | .nearTip lastSent currentHeight _ =>
    lastSent = s.lastSent ∧ s.Agrees config [s.currentHeight,currentHeight]
  | .reorged lastSent newHeight _ =>
    lastSent = s.lastSent ∧
      (s.Unset ∧ newHeight = frontier config s.storage ∨
        s.Agrees config [s.currentHeight,newHeight])
  | .fetching lastSent currentHeight _ =>
    lastSent = s.lastSent ∧ s.Agrees config [s.currentHeight,currentHeight]
  | .batch height _ => height = s.ahead config ∧ s.Agrees config [s.currentHeight]
  | .sending block _ => block.height = s.ahead config ∧ s.Agrees config [s.currentHeight]
  | .sent height _ =>
    height+1 = s.ahead config ∧ s.lastSent ≤ height ∧ s.currentHeight ≤ frontier config s.storage
  | _ => s.Agrees config [s.currentHeight]

/-- No failure is open: what is outstanding runs on from the frontier. -/
structure Paced (config : SyncConfig) (s : IndexerLoop) : Prop where
  bare : Bare Reserved s.storage
  outstanding : s.outstanding = List.range' (frontier config s.storage) s.outstanding.length
  small : s.ahead config<2^32
  failures : s.failures = 0
  committed : ∀ h, s.processor = .committed h → h+1 = frontier config s.storage
  fetcher : s.FetcherLaw config s.fetcher

/-- One failure is open, and the fetcher waits. -/
structure Stalled (config : SyncConfig) (s : IndexerLoop) : Prop where
  bare : Bare Reserved s.storage
  outstanding : s.outstanding = []
  small : s.currentHeight<2^32
  failures : s.failures = 1
  committed : ∀ h, s.processor ≠ .committed h
  fetcher : s.fetcher = .top
  cursor : s.currentHeight = frontier config s.storage

variable {bitcoin : BitcoinCodec} {validator : Option ChainValidator} {config : SyncConfig}
  {prefetchSize : Nat} {node : BitcoinNodeAdapter} {refresh : Except String Unit}
  {s s' : IndexerLoop}

theorem Starting.paced (hs : s.Starting config) : s.Paced config := by
  obtain ⟨l,hl⟩ := hs.storage
  have hcursor : s.currentHeight = frontier config s.storage := nextHeight_iff.mp hs.cursor
  have hout : s.outstanding = [] := by
    rw [IndexerLoop.outstanding, hs.processor, hs.blocks]
    rfl
  constructor
  case bare => exact (hl.inOrder fun _ _ => id).bare
  case outstanding => rw [hout, List.length_nil, List.range'_zero]
  case small =>
    rw [ahead, hout, ← hcursor]
    exact hs.small
  case failures =>
    rw [IndexerLoop.failures, hs.processor, hs.results, hs.resultTask]
    rfl
  case committed =>
    intro h hh
    rw [hs.processor] at hh
    cases hh
  case fetcher =>
    rw [hs.fetcher]
    left
    refine ⟨⟨hs.lastSent,hout,?_⟩,by simpa using hcursor⟩
    rw [hs.processor]
    simp

section Heights

variable {cursors : List Nat} {c : Nat}

/-- The watermark's successor, wherever one of the cursors stands. -/
theorem Agrees.ahead_eq (hs : s.Agrees config cursors) (hsmall : s.ahead config<2^32)
    (hc : c ∈ cursors) :
    (if s.lastSent < 0 then c else max (saturatingSucc (s.lastSent.toNat % 2^32)) c) =
      s.ahead config := by
  rcases hs with ⟨hu,hcur⟩ | ⟨hlast,hcur⟩
  · rw [hu.1, if_pos (by decide), hcur c hc, ahead, hu.2.1]
    rfl
  · have hle := hcur c hc
    have hge : frontier config s.storage ≤ s.ahead config := Nat.le_add_right _ _
    split_ifs with hneg
    · omega
    · rw [saturatingSucc, Nat.mod_eq_of_lt (by omega)]
      omega

theorem Agrees.fetchStart (hs : s.Agrees config cursors) (hsmall : s.ahead config<2^32)
    (hc : c ∈ cursors) {remoteTip fetchStart fetchEnd : Nat}
    (h : computeNextFetchRange c s.lastSent prefetchSize remoteTip = some (fetchStart,fetchEnd)) :
    fetchStart = s.ahead config := by
  have hahead := hs.ahead_eq hsmall hc
  rw [computeNextFetchRange] at h
  dsimp only at h
  split_ifs at h with _ h1 h2 h3 h4
  all_goals
    simp only [Option.some.injEq, Prod.mk.injEq] at h
    obtain ⟨rfl,_⟩ := h
  · rw [if_pos ‹_›] at hahead
    rw [hahead, max_self]
  · rw [if_neg ‹_›] at hahead
    exact hahead

theorem Agrees.fetchHeight (hs : s.Agrees config cursors) (hsmall : s.ahead config<2^32)
    (hc : c ∈ cursors) : max (nearTipMinSendHeight s.lastSent) c = s.ahead config := by
  have hahead := hs.ahead_eq hsmall hc
  rw [nearTipMinSendHeight]
  split_ifs at hahead ⊢
  · rw [hahead, Nat.zero_max]
  · exact hahead

/-- Fewer cursors agree as well. -/
theorem Agrees.subset {cursors' : List Nat} (hs : s.Agrees config cursors)
    (h : cursors' ⊆ cursors) : s.Agrees config cursors' :=
  hs.imp (fun hu => ⟨hu.1,fun c hc => hu.2 c (h hc)⟩) fun hl => ⟨hl.1,fun c hc => hl.2 c (h hc)⟩

end Heights

namespace Paced

/-- The fetcher moves. -/
theorem moveFetcher (hs : s.Paced config) {f : PrefetcherAt} (hf : s.FetcherLaw config f) :
    ({ s with fetcher := f } : IndexerLoop).Paced config where
  bare := hs.bare
  outstanding := hs.outstanding
  small := hs.small
  failures := hs.failures
  committed := hs.committed
  fetcher := by cases f <;> exact hf

/-- The fetcher stores the cursor that its reorg check has returned. -/
theorem storeCursor {lastSent : Int} {newHeight remoteTip : Nat} (hs : s.Paced config)
    (hf : s.FetcherLaw config (.reorged lastSent newHeight remoteTip)) :
    ({ s with currentHeight := newHeight, fetcher := .fetching lastSent newHeight remoteTip } :
      IndexerLoop).Paced config where
  bare := hs.bare
  outstanding := hs.outstanding
  small := hs.small
  failures := hs.failures
  committed := hs.committed
  fetcher := by
    obtain ⟨hlast,hf⟩ := hf
    refine ⟨hlast,?_⟩
    rcases hf with ⟨hu,hnew⟩ | hf
    · exact .inl ⟨hu,by simpa using hnew⟩
    · rcases hf with ⟨hu,hcur⟩ | ⟨hl,hcur⟩
      · exact .inl ⟨hu,by simpa using (hcur newHeight (by simp))⟩
      · exact .inr ⟨hl,by simpa using (hcur newHeight (by simp))⟩

theorem send {block : BlockData} {fetchEnd : Option Nat} (hs : s.Paced config)
    (hf : s.FetcherLaw config (.sending block fetchEnd)) (hb : block.height+1<2^32) :
    ({ s with blocks := s.blocks ++ [block], fetcher := .sent block.height fetchEnd } :
      IndexerLoop).Paced config := by
  obtain ⟨hheight,hagrees⟩ := hf
  have hout : ({ s with blocks := s.blocks ++ [block], fetcher := .sent block.height fetchEnd } :
      IndexerLoop).outstanding = s.outstanding ++ [block.height] := by
    simp [IndexerLoop.outstanding]
  have hahead : ({ s with
      blocks := s.blocks ++ [block]
      fetcher := .sent block.height fetchEnd } : IndexerLoop).ahead config = block.height+1 := by
    rw [ahead, hout, List.length_append, List.length_singleton, hheight, ahead]
    rfl
  constructor
  case bare => exact hs.bare
  case outstanding =>
    have hprev := hs.outstanding
    rw [hout, List.length_append, List.length_singleton, List.range'_1_concat, hheight, ahead]
    show _ = List.range' (frontier config s.storage) s.outstanding.length ++ _
    rw [← hprev]
  case small =>
    rw [hahead]
    exact hb
  case failures => exact hs.failures
  case committed => exact hs.committed
  case fetcher =>
    refine ⟨hahead.symm,?_⟩
    rcases hagrees with ⟨hu,hcur⟩ | ⟨hl,hcur⟩
    · constructor
      · show s.lastSent ≤ block.height
        rw [hu.1, lastSentUnset]
        omega
      · exact le_of_eq (hcur _ (List.mem_singleton_self _))
    · constructor
      · show s.lastSent ≤ block.height
        omega
      · exact hcur _ (List.mem_singleton_self _)

/-- The watermark follows a send. -/
theorem mark {height : Nat} {fetchEnd : Option Nat} {f : PrefetcherAt} (hs : s.Paced config)
    (hf : s.FetcherLaw config (.sent height fetchEnd))
    (hnext : f = .top ∨ ∃ n, f = .batch (height+1) n) :
    ({ s with lastSent := max s.lastSent height, fetcher := f } : IndexerLoop).Paced config := by
  obtain ⟨hheight,hlast,hcur⟩ := hf
  have hagrees : ({ s with
      lastSent := max s.lastSent height
      fetcher := f } : IndexerLoop).Agrees config [s.currentHeight] := by
    right
    constructor
    · show max s.lastSent height+1 = s.ahead config
      rw [max_eq_right hlast, ← hheight]
      rfl
    · simpa using hcur
  constructor
  case bare => exact hs.bare
  case outstanding => exact hs.outstanding
  case small => exact hs.small
  case failures => exact hs.failures
  case committed => exact hs.committed
  case fetcher =>
    rcases hnext with rfl | ⟨n,rfl⟩
    · exact hagrees
    · exact ⟨hheight,hagrees⟩

/-- A rollback before anything is sent moves the frontier to the height after the ancestor. -/
theorem rollBack {σ : Store} {lastSent : Int} {r remoteTip : Nat} (hs : s.Paced config)
    (hu : s.Unset) (hlast : lastSent = s.lastSent) (hr : r+1<2^32)
    (hroll : (rollbackToHeight r).exec s.storage = .ok ((),σ))
    (htip : 0 < r ∨ (getBlockHash s.storage 0).isSome = true) :
    ({ s with storage := σ, fetcher := .reorged lastSent (r+1) remoteTip } :
      IndexerLoop).Paced config := by
  obtain ⟨hi,hb,hk⟩ := rollbackToHeight_keeps hs.bare (by omega) hroll
  have hfresh : isFreshDb σ = false := by
    apply isFreshDb_eq_false
    rw [hi, hk 0 (Nat.zero_le r)]
    exact htip
  have hnext : frontier config σ = r+1 := by
    rw [frontier, hfresh, hi]
    rfl
  have hout := hu.2.1
  constructor
  case bare => exact hb
  case outstanding =>
    show s.outstanding = List.range' _ s.outstanding.length
    rw [hout]
    rfl
  case small =>
    show frontier config σ+s.outstanding.length<2^32
    rw [hnext, hout]
    exact hr
  case failures => exact hs.failures
  case committed => exact fun h hh => absurd hh (hu.2.2 h)
  case fetcher => exact ⟨hlast,.inl ⟨hu,hnext.symm⟩⟩

end Paced

theorem handleReorg_undetected {height : Nat} {σ : Store} (refresh : Except String Unit)
    (h : detects config node σ height = none) :
    (handleReorg height node refresh config).run σ = ⟨[],.ok height⟩ := by
  apply handleReorg_unmoved
  intro r hw
  rw [detects, hw] at h
  cases h

theorem detects_some {height r : Nat} {σ : Store} (h : detects config node σ height = some r) :
    0 < height ∧
      reorgWalk σ node (height-config.maxReorgDepth) (height-1) false = some (r,true) := by
  rw [detects] at h
  obtain ⟨⟨r',d⟩,hw,hr⟩ := Option.bind_eq_some_iff.mp h
  cases d with
  | false => cases hr
  | true =>
    cases hr
    refine ⟨?_,hw⟩
    rcases Nat.eq_zero_or_pos height with rfl | hpos
    · rw [Nat.zero_sub, Nat.zero_sub, reorgWalk] at hw
      cases hw
    · exact hpos

/-- The reorg check of the fetcher, whether it finds a reorg or not. -/
theorem Paced.reorgCheck {lastSent : Int} {currentHeight remoteTip : Nat} (hs : s.Paced config)
    (hf : s.FetcherLaw config (.nearTip lastSent currentHeight remoteTip))
    (hk : ((detects config node s.storage currentHeight).all fun r =>
      decide (lastSent < 0) && refresh.isOk && (0 < r || (getBlockHash s.storage 0).isSome)) = true) :
    ∃ newHeight, ((handleReorg currentHeight node refresh config).run s.storage).result =
        .ok newHeight ∧
      ({ s with
        storage := (handleReorg currentHeight node refresh config).finalState s.storage
        fetcher := .reorged lastSent newHeight remoteTip } : IndexerLoop).Paced config := by
  obtain ⟨hlast,hagrees⟩ := hf
  cases hd : detects config node s.storage currentHeight with
  | none =>
    have hrun := handleReorg_undetected refresh hd
    refine ⟨currentHeight,by rw [hrun],?_⟩
    rw [Prog.finalState_eq hrun]
    exact hs.moveFetcher (f := .reorged lastSent currentHeight remoteTip) ⟨hlast,.inr hagrees⟩
  | some r =>
    obtain ⟨hpos,hw⟩ := detects_some hd
    rw [hd, Option.all_some, Bool.and_eq_true, Bool.and_eq_true, Bool.or_eq_true,
      decide_eq_true_eq, decide_eq_true_eq] at hk
    obtain ⟨⟨hneg,hok⟩,htip⟩ := hk
    have hcur : s.Unset ∧ currentHeight = frontier config s.storage := by
      rcases hagrees with ⟨hu,hcur⟩ | ⟨hl,hcur⟩
      · exact ⟨hu,hcur currentHeight (by simp)⟩
      · have hle := hcur currentHeight (by simp)
        have hge : frontier config s.storage ≤ s.ahead config := Nat.le_add_right _ _
        omega
    obtain ⟨hu,hcur⟩ := hcur
    have hle : r ≤ currentHeight-1 := reorgWalk_le hw
    obtain ⟨σ,hroll⟩ := rollbackToHeight_done hs.bare r
    have hsmall := hs.small
    rw [ahead, hu.2.1, List.length_nil] at hsmall
    cases refresh with
    | error e => cases hok
    | ok u =>
      obtain ⟨hfin,hexec⟩ := handleReorg_rolls (.ok u) hpos hw hroll
      refine ⟨r+1,(Prog.exec_result hexec).1,?_⟩
      rw [hfin]
      exact hs.rollBack hu hlast (by omega) hroll htip

theorem fetcherStep_keeps (hs : s.Paced config)
    (hk : s.keepsPace bitcoin validator config prefetchSize (.fetcher node refresh) = true)
    (h : s.fetcherStep config prefetchSize node refresh = some s') : s'.Paced config := by
  have hlaw := hs.fetcher
  rw [keepsPace, Bool.and_eq_true] at hk
  obtain ⟨_,hk⟩ := hk
  cases hf : s.fetcher with
  | top =>
    rw [hf] at hlaw
    simp only [fetcherStep, hf] at h
    split_ifs at h <;> cases h
    · exact hs.moveFetcher (f := .done) hlaw
    · exact hs.moveFetcher (f := .running) hlaw
  | running =>
    rw [hf] at hlaw
    simp only [fetcherStep, hf, Option.some.injEq] at h
    rw [← h]
    exact hs.moveFetcher (f := .tipped s.currentHeight) (hlaw.subset (by simp))
  | tipped processorTip =>
    rw [hf] at hlaw
    simp only [fetcherStep, hf] at h
    split at h <;> cases h
    · exact hs.moveFetcher (f := .top) (hlaw.subset (by simp))
    · exact hs.moveFetcher (f := .remote processorTip _) hlaw
  | remote processorTip remoteTip =>
    rw [hf] at hlaw
    have hcur : s.Agrees config [s.currentHeight] := hlaw.subset (by simp)
    simp only [fetcherStep, hf] at h
    split_ifs at h
    · cases h
      exact hs.moveFetcher (f := .floor s.lastSent) ⟨rfl,hcur⟩
    · split at h
      · cases h
        exact hs.moveFetcher (f := .top) hcur
      · next fetchStart fetchEnd hrange =>
        cases h
        have hstart := hlaw.fetchStart hs.small (by simp) hrange
        exact hs.moveFetcher (f := .batch fetchStart fetchEnd) ⟨hstart,hcur⟩
  | floor lastSent =>
    rw [hf] at hlaw
    simp only [fetcherStep, hf, Option.some.injEq] at h
    rw [← h]
    exact hs.moveFetcher (f := .loaded lastSent s.currentHeight)
      ⟨hlaw.1,hlaw.2.subset (by simp)⟩
  | loaded lastSent currentHeight =>
    rw [hf] at hlaw
    simp only [fetcherStep, hf] at h
    split at h <;> cases h
    · exact hs.moveFetcher (f := .top) (hlaw.2.subset (by simp))
    · exact hs.moveFetcher (f := .nearTip lastSent currentHeight _) hlaw
  | nearTip lastSent currentHeight remoteTip =>
    rw [hf] at hlaw hk
    simp only [fetcherStep, hf] at h
    split_ifs at h with hnear
    · rw [Bool.or_eq_true, decide_eq_true_eq] at hk
      obtain ⟨newHeight,hres,hpaced⟩ := hs.reorgCheck hlaw (hk.resolve_left (by omega))
      rw [hres] at h
      cases h
      exact hpaced
    · cases h
      exact hs.moveFetcher (f := .fetching lastSent currentHeight remoteTip) hlaw
  | reorged lastSent newHeight remoteTip =>
    rw [hf] at hlaw
    simp only [fetcherStep, hf, Option.some.injEq] at h
    rw [← h]
    exact hs.storeCursor hlaw
  | fetching lastSent currentHeight remoteTip =>
    rw [hf] at hlaw
    obtain ⟨rfl,hagrees⟩ := hlaw
    have hheight := hagrees.fetchHeight hs.small (show currentHeight ∈ _ by simp)
    have hcur : s.Agrees config [s.currentHeight] := hagrees.subset (by simp)
    simp only [fetcherStep, hf] at h
    split_ifs at h with hexit htip hdrop
    · cases h
      exact hs.moveFetcher (f := .top) hcur
    · cases h
      exact hs.moveFetcher (f := .top) hcur
    · split at h <;> cases h <;> exact hs.moveFetcher (f := .top) hcur
    · split at h <;> cases h
      · exact hs.moveFetcher (f := .sending _ none) ⟨hheight,hcur⟩
      · exact hs.moveFetcher (f := .top) hcur
  | batch height fetchEnd =>
    rw [hf] at hlaw
    simp only [fetcherStep, hf] at h
    split at h <;> cases h
    · exact hs.moveFetcher (f := .sending _ (some fetchEnd)) hlaw
    · exact hs.moveFetcher (f := .top) hlaw.2
  | sending block fetchEnd =>
    rw [hf] at hlaw hk
    simp only [fetcherStep, hf] at h
    split at h
    · cases h
      apply hs.moveFetcher
      split_ifs
      · exact hlaw.2
      · exact hlaw.2
    · split_ifs at h
      cases h
      exact hs.send hlaw (of_decide_eq_true hk)
  | sent height fetchEnd =>
    rw [hf] at hlaw
    simp only [fetcherStep, hf, Option.some.injEq] at h
    rw [← h]
    apply hs.mark hlaw
    split_ifs
    · exact .inr ⟨_,rfl⟩
    · exact .inl rfl
  | done =>
    simp only [fetcherStep, hf] at h
    cases h

end IndexerLoop

end Metashrew
