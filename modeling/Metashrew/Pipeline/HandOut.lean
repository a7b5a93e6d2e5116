import Metashrew.Pipeline.Tasks

namespace Metashrew

open Bytes Durable Steps

def BlockResult.height : BlockResult → Nat
  | .success height => height
  | .error height _ => height

/-- The height that the fetcher has loaded and not yet looked up in the set. -/
def FetcherAt.held : FetcherAt → Option Nat
  | .loaded height => some height
  | .atTip height _ => some height
  | .reorged height _ => some height
  | .checked height _ => some height
  | _ => none

def ProcessorAt.pending : ProcessorAt → List Nat
  | .busy height _ => [height]
  | .finished height => [height]
  | _ => []

def ResultsAt.pending : ResultsAt → List Nat
  | .received result => [result.height]
  | _ => []

namespace Pipeline

/-- The start of `run_pipeline`: the tasks at their loops, the channels empty. -/
structure Starting (s : Pipeline) : Prop where
  blocks : s.blocks = []
  results : s.results = []
  fetcher : s.fetcher = .top
  processor : s.processor = .idle
  resultLoop : s.resultLoop = .idle
  received : s.received = []

/-- The fetcher's reorg check meets no different hash. -/
def reorgFree (config : SyncConfig) (s : Pipeline) : PipelineAction → Bool
  | .fetcher node _ =>
    match s.fetcher with
    | .atTip height _ =>
      (reorgWalk s.storage node (height-config.maxReorgDepth) (height-1) false).all fun w => !w.2
    | _ => true
  | _ => true

/-- The result loop takes no height out of the set that the fetcher holds since its load. -/
def keepsHeld (s : Pipeline) : PipelineAction → Bool
  | .results _ _ =>
    match s.resultLoop with
    | .stored height => s.fetcher.held != some height
    | _ => true
  | _ => true

/-- The heights that are sent and not yet stored in the cursor, oldest first. -/
def pending (s : Pipeline) : List Nat :=
  s.resultLoop.pending ++ s.results.map BlockResult.height ++ s.processor.pending ++
    s.blocks.map Prod.fst

def sentHeights (s : Pipeline) : List Nat := s.received ++ s.blocks.map Prod.fst

/-- Every height sent is below the cursor. -/
def Clear (start : Nat) (s : Pipeline) : Prop :=
  start+s.sentHeights.length = s.currentHeight ∧ s.pending = []

/-- The cursor itself has been sent, and the set says so; a task that is gone may have lost it. -/
def Waiting (start : Nat) (s : Pipeline) : Prop :=
  start+s.sentHeights.length = s.currentHeight+1 ∧ s.currentHeight ∈ s.processingHeights ∧
    (s.pending = [s.currentHeight] ∨ s.pending = [])

/-- A loaded height is the cursor, unless the result loop has just moved the cursor past it. -/
def Holds (s : Pipeline) (height : Nat) : Prop :=
  height = s.currentHeight ∨ s.resultLoop = .stored height

/-- What each place of the fetcher says about the height it carries. -/
def FetcherLaw (start : Nat) (s : Pipeline) : FetcherAt → Prop
  | .loaded height => s.Holds height
  | .atTip height _ => s.Holds height
  | .checked height _ => s.Holds height
  | .reorged _ _ => False
  | .absent height => height = s.currentHeight ∧ s.Clear start
  | .fetched height _ => height = s.currentHeight ∧ s.Clear start
  | .inserted height _ => (height = s.currentHeight ∧ s.Clear start) ∧ height ∈ s.processingHeights
  | _ => True

/-- What each place of the result loop says; nothing fails. -/
def ResultLaw (s : Pipeline) : ResultsAt → Prop
  | .received result => ∃ h, result = .success h
  | .stored height => s.currentHeight = height+1 ∧ height ∈ s.processingHeights
  | .failed _ _ => False
  | .rolledBack _ => False
  | _ => True

/-- The heights sent run from the start up to the cursor, or to the one before it. -/
structure HandsOut (start : Nat) (s : Pipeline) : Prop where
  sent : s.sentHeights = List.range' start s.sentHeights.length
  progress : s.Clear start ∨ s.Waiting start
  results : ∀ r ∈ s.results, ∃ h, r = .success h
  fetcher : s.FetcherLaw start s.fetcher
  resultLoop : s.ResultLaw s.resultLoop

variable {config : SyncConfig} {pipelineSize start : Nat} {node : BitcoinNodeAdapter}
  {refresh : Except String Unit} {s s' : Pipeline}

theorem Starting.handsOut (hs : s.Starting) : s.HandsOut s.currentHeight where
  sent := by simp [sentHeights, hs.received, hs.blocks]
  progress := by
    left
    simp [Clear, sentHeights, pending, hs.received, hs.blocks, hs.results, hs.processor,
      hs.resultLoop, ResultsAt.pending, ProcessorAt.pending]
  results := by simp [hs.results]
  fetcher := by simp [hs.fetcher, FetcherLaw]
  resultLoop := by simp [hs.resultLoop, ResultLaw]

namespace HandsOut

/-- The fetcher moves, with the storage as its reorg check leaves it. -/
theorem moveFetcher (hs : s.HandsOut start) (σ : Store) {f : FetcherAt}
    (hf : s.FetcherLaw start f) :
    ({ s with storage := σ, fetcher := f } : Pipeline).HandsOut start where
  sent := hs.sent
  progress := hs.progress
  results := hs.results
  fetcher := by cases f <;> exact hf
  resultLoop := by
    have hr := hs.resultLoop
    show ResultLaw _ s.resultLoop
    cases hl : s.resultLoop <;> rw [hl] at hr <;> exact hr

/-- A height that the fetcher holds and does not find in the set is the cursor, not yet sent. -/
theorem absent {height : Nat} (hs : s.HandsOut start) (hh : s.Holds height)
    (hm : height ∉ s.processingHeights) : height = s.currentHeight ∧ s.Clear start := by
  rcases hh with hc | hr
  · refine ⟨hc,?_⟩
    apply hs.progress.resolve_right
    intro hw
    rw [hc] at hm
    exact hm hw.2.1
  · have hl := hs.resultLoop
    rw [hr] at hl
    exact absurd hl.2 hm

theorem insertHeld {height : Nat} {blockHash : Bytes} (hs : s.HandsOut start)
    (hf : height = s.currentHeight ∧ s.Clear start) :
    ({ s with processingHeights := insert height s.processingHeights,
              fetcher := .inserted height blockHash } : Pipeline).HandsOut start where
  sent := hs.sent
  progress := .inl hf.2
  results := hs.results
  fetcher := ⟨hf,Finset.mem_insert_self _ _⟩
  resultLoop := by
    have hr := hs.resultLoop
    show ResultLaw _ s.resultLoop
    cases hl : s.resultLoop with
    | stored h =>
      rw [hl] at hr
      exact ⟨hr.1,Finset.mem_insert_of_mem hr.2⟩
    | _ =>
      rw [hl] at hr
      exact hr

theorem send {height : Nat} {blockHash : Bytes} (hs : s.HandsOut start)
    (hf : s.FetcherLaw start (.inserted height blockHash)) :
    ({ s with blocks := s.blocks ++ [(height,blockHash)], fetcher := .top } :
      Pipeline).HandsOut start := by
  obtain ⟨⟨rfl,hc,hp⟩,hm⟩ := hf
  have hsent : ({ s with blocks := s.blocks ++ [(s.currentHeight,blockHash)], fetcher := .top } :
      Pipeline).sentHeights = s.sentHeights ++ [s.currentHeight] := by
    simp [sentHeights]
  have hpending : ({ s with blocks := s.blocks ++ [(s.currentHeight,blockHash)], fetcher := .top } :
      Pipeline).pending = [s.currentHeight] := by
    rw [Pipeline.pending] at hp ⊢
    rw [List.map_append, ← List.append_assoc, hp]
    rfl
  constructor
  case sent =>
    have hprev := hs.sent
    rw [hsent, List.length_append, List.length_singleton, List.range'_1_concat, ← hprev, hc]
  case progress =>
    right
    refine ⟨?_,hm,.inl hpending⟩
    rw [hsent, List.length_append, List.length_singleton]
    show start+(s.sentHeights.length+1) = s.currentHeight+1
    omega
  case results => exact hs.results
  case fetcher => trivial
  case resultLoop =>
    have hr := hs.resultLoop
    show ResultLaw _ s.resultLoop
    cases hl : s.resultLoop <;> rw [hl] at hr <;> exact hr

/-- A block or its result moves on, or is lost with its task; the cursor, the set and the fetcher
stay. -/
theorem relay (hs : s.HandsOut start) (hsent : s'.sentHeights = s.sentHeights)
    (hp : s'.pending.Sublist s.pending) (hc : s'.currentHeight = s.currentHeight)
    (hm : s'.processingHeights = s.processingHeights) (hf : s'.fetcher = s.fetcher)
    (hstored : ∀ h, s.resultLoop = .stored h → s'.resultLoop = .stored h)
    (hres : ∀ r ∈ s'.results, ∃ h, r = .success h) (hlaw : s'.ResultLaw s'.resultLoop) :
    s'.HandsOut start := by
  have hclear : s.Clear start → s'.Clear start := by
    intro h
    rw [Clear, hsent, hc]
    exact ⟨h.1,List.sublist_nil.mp (h.2 ▸ hp)⟩
  have hholds : ∀ h, s.Holds h → s'.Holds h := by
    intro h hh
    rw [Holds, hc]
    exact hh.imp_right (hstored h)
  constructor
  case sent =>
    rw [hsent]
    exact hs.sent
  case progress =>
    apply hs.progress.imp hclear
    intro h
    rw [Waiting, hsent, hc, hm]
    refine ⟨h.1,h.2.1,?_⟩
    rcases h.2.2 with hone | hnone
    · rw [hone] at hp
      exact (List.sublist_singleton.mp hp).symm
    · rw [hnone] at hp
      exact .inr (List.sublist_nil.mp hp)
  case results => exact hres
  case fetcher =>
    have hfetcher := hs.fetcher
    rw [hf]
    cases hl : s.fetcher with
    | loaded height | atTip height _ | checked height _ =>
      rw [hl] at hfetcher
      exact hholds height hfetcher
    | absent height | fetched height _ =>
      rw [hl] at hfetcher
      exact ⟨hfetcher.1.trans hc.symm,hclear hfetcher.2⟩
    | inserted height _ =>
      rw [hl] at hfetcher
      exact ⟨⟨hfetcher.1.1.trans hc.symm,hclear hfetcher.1.2⟩,hm ▸ hfetcher.2⟩
    | reorged _ _ =>
      rw [hl] at hfetcher
      exact hfetcher
    | _ => trivial
  case resultLoop => exact hlaw

end HandsOut

/-- Without a different hash the reorg check changes nothing. -/
theorem handleReorg_free {height : Nat} {σ : Store}
    (hfree : (reorgWalk σ node (height-config.maxReorgDepth) (height-1) false).all
      (fun w => !w.2) = true) :
    (handleReorg height node refresh config).run σ = ⟨[],.ok height⟩ := by
  apply handleReorg_unmoved
  intro r hw
  rw [hw] at hfree
  cases hfree

theorem fetcherStep_keeps (hs : s.HandsOut start)
    (hfree : s.reorgFree config (.fetcher node refresh) = true)
    (h : s.fetcherStep config pipelineSize node refresh = some s') : s'.HandsOut start := by
  have hlaw := hs.fetcher
  cases hf : s.fetcher with
  | top =>
    simp only [fetcherStep, hf, Option.some.injEq] at h
    rw [← h]
    apply hs.moveFetcher s.storage
    split_ifs <;> trivial
  | running =>
    simp only [fetcherStep, hf, Option.some.injEq] at h
    rw [← h]
    exact hs.moveFetcher s.storage (f := .loaded s.currentHeight) (.inl rfl)
  | loaded height =>
    rw [hf] at hlaw
    simp only [fetcherStep, hf] at h
    split at h <;> cases h
    · exact hs.moveFetcher s.storage (f := .top) trivial
    · exact hs.moveFetcher s.storage (f := .atTip height _) hlaw
  | atTip height remoteTip =>
    rw [hf] at hlaw
    simp only [reorgFree, hf] at hfree
    simp only [fetcherStep, hf, handleReorg_free hfree] at h
    split_ifs at h
    · cases h
      exact hs.moveFetcher _ (f := .checked height remoteTip) hlaw
    · cases h
      exact hs.moveFetcher s.storage (f := .checked height remoteTip) hlaw
  | reorged height remoteTip =>
    rw [hf] at hlaw
    exact absurd hlaw id
  | checked height remoteTip =>
    rw [hf] at hlaw
    simp only [fetcherStep, hf] at h
    split_ifs at h with _ _ hm <;> cases h
    · exact hs.moveFetcher s.storage (f := .done) trivial
    · exact hs.moveFetcher s.storage (f := .top) trivial
    · exact hs.moveFetcher s.storage (f := .top) trivial
    · exact hs.moveFetcher s.storage (f := .absent height) (hs.absent hlaw hm)
  | absent height =>
    rw [hf] at hlaw
    simp only [fetcherStep, hf] at h
    split at h <;> cases h
    · exact hs.moveFetcher s.storage (f := .fetched height _) hlaw
    · exact hs.moveFetcher s.storage (f := .top) trivial
  | fetched height blockHash =>
    rw [hf] at hlaw
    simp only [fetcherStep, hf, Option.some.injEq] at h
    rw [← h]
    exact hs.insertHeld hlaw
  | inserted height blockHash =>
    rw [hf] at hlaw
    simp only [fetcherStep, hf] at h
    split at h
    · cases h
      exact hs.moveFetcher s.storage (f := .done) trivial
    · split_ifs at h
      cases h
      exact hs.send hlaw
  | done =>
    simp only [fetcherStep, hf] at h
    cases h

theorem processorStep_keeps {attempts : Nat → Attempt} {count : Nat} (hs : s.HandsOut start)
    (h : s.processorStep pipelineSize attempts count = some s') : s'.HandsOut start := by
  have hlaw := hs.resultLoop
  cases hp : s.processor with
  | idle =>
    simp only [processorStep, hp] at h
    split at h
    · next height blockHash blocks hb =>
      cases h
      refine hs.relay ?_ ?_ rfl rfl rfl (fun _ => id) hs.results hlaw
      · simp [sentHeights, hb]
      · simp [pending, hp, hb, ProcessorAt.pending]
    · cases h
      refine hs.relay rfl ?_ rfl rfl rfl (fun _ => id) hs.results hlaw
      simp [pending, hp, ProcessorAt.pending]
    · cases h
      refine hs.relay rfl ?_ rfl rfl rfl (fun _ => id) hs.results hlaw
      simp [pending, hp, ProcessorAt.pending]
    · cases h
  | busy height blockHash =>
    simp only [processorStep, hp] at h
    split at h
    · cases h
      refine hs.relay rfl ?_ rfl rfl rfl (fun _ => id) hs.results hlaw
      simp [pending, hp, ProcessorAt.pending]
    · cases h
      exact hs
  | finished height =>
    simp only [processorStep, hp] at h
    split at h
    · cases h
      refine hs.relay rfl ?_ rfl rfl rfl (fun _ => id) hs.results hlaw
      simp [pending, hp, ProcessorAt.pending]
    · split_ifs at h
      cases h
      refine hs.relay rfl ?_ rfl rfl rfl (fun _ => id) ?_ hlaw
      · simp [pending, hp, ProcessorAt.pending, BlockResult.height]
      · intro r hr
        rcases List.mem_append.mp hr with hr | hr
        · exact hs.results r hr
        · exact ⟨height,List.mem_singleton.mp hr⟩
  | done =>
    simp only [processorStep, hp] at h
    cases h

/-- The cursor moves past the block that the result loop has taken: nothing is left on its way. -/
theorem HandsOut.store {height : Nat} (hs : s.HandsOut start)
    (hl : s.resultLoop = .received (.success height)) :
    ({ s with currentHeight := height+1, resultLoop := .stored height } :
      Pipeline).HandsOut start := by
  have htaken : s.pending = [height] ++ (s.results.map BlockResult.height ++ s.processor.pending ++
      s.blocks.map Prod.fst) := by
    simp [pending, hl, ResultsAt.pending, BlockResult.height]
  have hne : s.pending ≠ [] := by
    rw [htaken]
    exact List.cons_ne_nil _ _
  obtain ⟨hlen,hm,hp⟩ := hs.progress.resolve_left fun hc => hne hc.2
  have hone := hp.resolve_right hne
  rw [htaken, List.singleton_append, List.cons.injEq] at hone
  obtain ⟨hh,hrest⟩ := hone
  rw [← hh] at hlen hm
  have hfetcher := hs.fetcher
  constructor
  case sent => exact hs.sent
  case progress => exact .inl ⟨hlen,hrest⟩
  case results => exact hs.results
  case fetcher =>
    show FetcherLaw start _ s.fetcher
    cases hf : s.fetcher with
    | loaded h | atTip h _ | checked h _ =>
      rw [hf] at hfetcher
      rcases hfetcher with hc | hstored
      · right
        show ResultsAt.stored height = .stored h
        rw [hc, hh]
      · rw [hl] at hstored
        cases hstored
    | absent h | fetched h _ =>
      rw [hf] at hfetcher
      exact absurd hfetcher.2.2 hne
    | inserted h _ =>
      rw [hf] at hfetcher
      exact absurd hfetcher.1.2.2 hne
    | reorged _ _ =>
      rw [hf] at hfetcher
      exact hfetcher
    | _ => trivial
  case resultLoop => exact ⟨rfl,hm⟩

/-- The block below the cursor leaves the set, unless the fetcher still holds its height. -/
theorem HandsOut.unmark {height : Nat} (hs : s.HandsOut start) (hl : s.resultLoop = .stored height)
    (hheld : s.fetcher.held ≠ some height) :
    ({ s with processingHeights := s.processingHeights.erase height,
              resultLoop := .handled (height+1) } : Pipeline).HandsOut start := by
  have hlaw := hs.resultLoop
  rw [hl] at hlaw
  obtain ⟨hc,_⟩ := hlaw
  have hpending : ({ s with
      processingHeights := s.processingHeights.erase height
      resultLoop := .handled (height+1) } : Pipeline).pending = s.pending := by
    simp [pending, hl, ResultsAt.pending]
  have hkeep : s.currentHeight ∈ s.processingHeights →
      s.currentHeight ∈ s.processingHeights.erase height := fun hm =>
    Finset.mem_erase.mpr ⟨by omega,hm⟩
  have hclear : s.Clear start → ({ s with
      processingHeights := s.processingHeights.erase height
      resultLoop := .handled (height+1) } : Pipeline).Clear start := fun h => ⟨h.1,hpending ▸ h.2⟩
  have hfetcher := hs.fetcher
  constructor
  case sent => exact hs.sent
  case progress =>
    apply hs.progress.imp hclear
    intro h
    exact ⟨h.1,hkeep h.2.1,hpending ▸ h.2.2⟩
  case results => exact hs.results
  case fetcher =>
    show FetcherLaw start _ s.fetcher
    cases hf : s.fetcher with
    | loaded h | atTip h _ | checked h _ =>
      rw [hf] at hfetcher hheld
      left
      apply hfetcher.resolve_right
      intro hstored
      rw [hl] at hstored
      cases hstored
      exact hheld rfl
    | absent h | fetched h _ =>
      rw [hf] at hfetcher
      exact ⟨hfetcher.1,hclear hfetcher.2⟩
    | inserted h _ =>
      rw [hf] at hfetcher
      have hh : h = s.currentHeight := hfetcher.1.1
      have hm : s.currentHeight ∈ s.processingHeights := hh ▸ hfetcher.2
      exact ⟨⟨hh,hclear hfetcher.1.2⟩,hh ▸ hkeep hm⟩
    | reorged _ _ =>
      rw [hf] at hfetcher
      exact hfetcher
    | _ => trivial
  case resultLoop => trivial

theorem resultStep_keeps (hs : s.HandsOut start) (hk : s.keepsHeld (.results node refresh) = true)
    (h : s.resultStep config node refresh = some s') : s'.HandsOut start := by
  have hlaw := hs.resultLoop
  cases hl : s.resultLoop with
  | idle =>
    simp only [resultStep, hl] at h
    split at h
    · next result results hr =>
      cases h
      refine hs.relay rfl ?_ rfl rfl rfl ?_ ?_ ?_
      · simp [pending, hl, hr, ResultsAt.pending]
      · intro h hstored
        rw [hl] at hstored
        cases hstored
      · intro r hmem
        apply hs.results
        rw [hr]
        exact List.mem_cons_of_mem _ hmem
      · apply hs.results
        rw [hr]
        exact List.mem_cons_self
    · cases h
  | received result =>
    rw [hl] at hlaw
    obtain ⟨height,rfl⟩ := hlaw
    simp only [resultStep, hl, addU32] at h
    split_ifs at h
    · cases h
      exact hs.store hl
    · cases h
      refine hs.relay rfl ?_ rfl rfl rfl ?_ hs.results trivial
      · simp [pending, hl, ResultsAt.pending]
      · intro h hstored
        rw [hl] at hstored
        cases hstored
  | stored height =>
    simp only [resultStep, hl, Option.some.injEq] at h
    simp only [keepsHeld, hl, bne_iff_ne] at hk
    rw [← h]
    exact hs.unmark hl hk
  | failed height text =>
    rw [hl] at hlaw
    exact absurd hlaw id
  | rolledBack height =>
    rw [hl] at hlaw
    exact absurd hlaw id
  | handled height =>
    have hnone : ∀ h, s.resultLoop ≠ .stored h := by
      rw [hl]
      intro h hstored
      cases hstored
    simp only [resultStep, hl] at h
    split_ifs at h <;> cases h <;>
    refine hs.relay rfl ?_ rfl rfl rfl (fun h hstored => absurd hstored (hnone h)) hs.results
      trivial <;>
    simp [pending, hl, ResultsAt.pending]
  | left =>
    simp only [resultStep, hl] at h
    cases h
  | aborted =>
    simp only [resultStep, hl] at h
    cases h

theorem step_keeps {a : PipelineAction} (hs : s.HandsOut start)
    (hfree : s.reorgFree config a = true) (hk : s.keepsHeld a = true)
    (h : step config pipelineSize s a = some s') : s'.HandsOut start := by
  cases a with
  | stop =>
    cases h
    exact hs.relay rfl (List.Sublist.refl _) rfl rfl rfl (fun _ => id) hs.results hs.resultLoop
  | fetcher node refresh => exact fetcherStep_keeps hs hfree h
  | processor attempts count => exact processorStep_keeps hs h
  | results node refresh => exact resultStep_keeps hs hk h

end Pipeline

/-- While the result loop takes no height out of the set that the fetcher holds, the processor
receives the heights from the cursor of the start on, each once and in order. -/
theorem pipeline_hands_out_once (config : SyncConfig) (pipelineSize : Nat) (start s : Pipeline)
    (hs : start.Starting)
    (hr : Run (Pipeline.step config pipelineSize)
      (fun s a => s.reorgFree config a = true ∧ s.keepsHeld a = true) start s) :
    s.received = List.range' start.currentHeight s.received.length := by
  have hout : s.HandsOut start.currentHeight :=
    hr.invariant hs.handsOut fun t a t' ht ha h => Pipeline.step_keeps ht ha.1 ha.2 h
  have hsent := congrArg (List.take s.received.length) hout.sent
  rw [Pipeline.sentHeights, List.take_left, List.length_append,
    List.take_range'_of_length_ge (Nat.le_add_right _ _)] at hsent
  exact hsent

private def handOutNode : BitcoinNodeAdapter where
  isConnected := true
  getTipHeight := .ok 100
  getBlockHash _ := .ok [7]
  getBlockData _ := .ok []

private def handOutConfig : SyncConfig where
  startBlock := 0
  exitAt := none
  maxReorgDepth := 100
  reorgCheckThreshold := 6
  enableStartupHeal := true

private def handOutStart : Pipeline where
  storage := ∅
  isRunning := true
  currentHeight := 0
  processingHeights := ∅
  blocks := []
  results := []
  fetcher := .top
  processor := .idle
  resultLoop := .idle
  received := []

private theorem handOutStart_starting : handOutStart.Starting := ⟨rfl,rfl,rfl,rfl,rfl,rfl⟩

/-- `f` steps of the fetcher, then three of the processor and `r` of the result loop. -/
private def handOutRound (f r : Nat) : List PipelineAction :=
  List.replicate f (.fetcher handOutNode (.ok ())) ++
    List.replicate 3 (.processor (fun _ => ⟨.ok ([],[]),none⟩) 1) ++
    List.replicate r (.results handOutNode (.ok ()))

theorem pipeline_hands_out_two_blocks :
    ∃ s : Pipeline, s.received = [0,1] ∧
      s.received = List.range' handOutStart.currentHeight s.received.length := by
  have hrun : (follow (Pipeline.step handOutConfig 4) (fun s a =>
      s.reorgFree handOutConfig a = true ∧ s.keepsHeld a = true) handOutStart
        (handOutRound 8 4 ++ handOutRound 8 4)).any (fun s => s.received == [0,1]) = true := by
    decide +kernel
  obtain ⟨s,hs,hreceived⟩ := Run.exists_of_follow (fun _ _ _ => id) hrun
  exact ⟨s,eq_of_beq hreceived,
    pipeline_hands_out_once handOutConfig 4 handOutStart s handOutStart_starting hs⟩

/-- The fetcher loads the cursor 0 a second time while block 0 is on its way, and looks at the set
only after the result loop has taken 0 out of it. -/
theorem pipeline_hands_out_twice :
    ¬∀ (config : SyncConfig) (pipelineSize : Nat) (start s : Pipeline), start.Starting →
      Run (Pipeline.step config pipelineSize) (fun s a => s.reorgFree config a = true) start s →
        s.received = List.range' start.currentHeight s.received.length := by
  intro hclaim
  have hrun : (follow (Pipeline.step handOutConfig 4) (fun s a =>
      s.reorgFree handOutConfig a = true) handOutStart
        (handOutRound 10 4 ++ handOutRound 6 0)).any (fun s => s.received == [0,0]) = true := by
    decide +kernel
  obtain ⟨s,hs,hreceived⟩ := Run.exists_of_follow (fun _ _ _ => id) hrun
  have htwice := hclaim handOutConfig 4 handOutStart s handOutStart_starting hs
  rw [eq_of_beq hreceived] at htwice
  cases htwice

end Metashrew
