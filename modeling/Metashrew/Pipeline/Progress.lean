import Metashrew.Pipeline.Pace

namespace Metashrew

open Bytes Durable Steps

namespace IndexerLoop

variable {bitcoin : BitcoinCodec} {validator : Option ChainValidator} {config : SyncConfig}
  {prefetchSize : Nat} {node : BitcoinNodeAdapter} {refresh : Except String Unit}
  {s s' : IndexerLoop}

/-- What a step of another task may change without the fetcher's knowledge. -/
theorem FetcherLaw.mono {f : PrefetcherAt} (hf : s.FetcherLaw config f)
    (hlast : s'.lastSent = s.lastSent) (hahead : s'.ahead config = s.ahead config)
    (hle : frontier config s.storage ≤ frontier config s'.storage)
    (hcur : s'.currentHeight = s.currentHeight ∨
      ¬s.Unset ∧ s'.currentHeight ≤ frontier config s'.storage)
    (hu : s.Unset → s'.Unset ∧ frontier config s'.storage = frontier config s.storage) :
    s'.FetcherLaw config f := by
  have hstep : ∀ rest, s.Agrees config (s.currentHeight::rest) →
      s'.Agrees config (s'.currentHeight::rest) := by
    intro rest h
    rcases h with ⟨hunset,hc⟩ | ⟨hl,hc⟩
    · obtain ⟨hunset',hfront⟩ := hu hunset
      left
      refine ⟨hunset',?_⟩
      rw [hfront, hcur.resolve_right fun h => h.1 hunset]
      exact hc
    · right
      rw [hlast, hahead]
      refine ⟨hl,?_⟩
      intro c hmem
      rcases List.mem_cons.mp hmem with rfl | hmem
      · rcases hcur with he | ⟨_,he⟩
        · rw [he]
          exact (hc _ List.mem_cons_self).trans hle
        · exact he
      · exact (hc c (List.mem_cons_of_mem _ hmem)).trans hle
  cases f with
  | top | running | done => exact hstep [] hf
  | tipped p | remote p _ => exact hstep [p] hf
  | floor _ => exact ⟨hf.1.trans hlast.symm,hstep [] hf.2⟩
  | loaded _ c | nearTip _ c _ | fetching _ c _ => exact ⟨hf.1.trans hlast.symm,hstep [c] hf.2⟩
  | reorged _ c _ =>
    refine ⟨hf.1.trans hlast.symm,?_⟩
    rcases hf.2 with ⟨hunset,hc⟩ | h
    · obtain ⟨hunset',hfront⟩ := hu hunset
      exact .inl ⟨hunset',hc.trans hfront.symm⟩
    · exact .inr (hstep [c] h)
  | batch h _ | sending h _ => exact ⟨hf.1.trans hahead.symm,hstep [] hf.2⟩
  | sent h _ =>
    refine ⟨hf.1.trans hahead.symm,hlast ▸ hf.2.1,?_⟩
    rcases hcur with he | ⟨_,he⟩
    · rw [he]
      exact hf.2.2.trans hle
    · exact he

/-- After a send the cursor is at most the frontier. -/
theorem FetcherLaw.cursor_le {f : PrefetcherAt} (hf : s.FetcherLaw config f) (hu : ¬s.Unset) :
    s.currentHeight ≤ frontier config s.storage := by
  have hle : ∀ rest, s.Agrees config (s.currentHeight::rest) →
      s.currentHeight ≤ frontier config s.storage := fun rest h =>
    (h.resolve_left fun h => hu h.1).2 _ List.mem_cons_self
  cases f with
  | top | running | done => exact hle [] hf
  | tipped p | remote p _ => exact hle [p] hf
  | floor _ | batch _ _ | sending _ _ => exact hle [] hf.2
  | loaded _ c | nearTip _ c _ | fetching _ c _ => exact hle [c] hf.2
  | reorged _ c _ => exact hle [c] (hf.2.resolve_left fun h => hu h.1)
  | sent _ _ => exact hf.2.2

/-- A block or its result moves on; nothing is committed. -/
theorem Paced.relay (hs : s.Paced config) (hσ : s'.storage = s.storage)
    (hlast : s'.lastSent = s.lastSent) (hcur : s'.currentHeight = s.currentHeight)
    (hf : s'.fetcher = s.fetcher) (hout : s'.outstanding = s.outstanding)
    (hfail : s'.failures = 0)
    (hcommitted : ∀ h, s'.processor = .committed h → s.processor = .committed h) :
    s'.Paced config := by
  have hahead : s'.ahead config = s.ahead config := by rw [ahead, ahead, hσ, hout]
  constructor
  case bare => exact hσ ▸ hs.bare
  case outstanding =>
    rw [hout, hσ]
    exact hs.outstanding
  case small => exact hahead ▸ hs.small
  case failures => exact hfail
  case committed =>
    rw [hσ]
    exact fun h hh => hs.committed h (hcommitted h hh)
  case fetcher =>
    rw [hf]
    apply hs.fetcher.mono hlast hahead (le_of_eq (by rw [hσ])) (.inl hcur)
    intro hu
    refine ⟨⟨hlast.trans hu.1,hout.trans hu.2.1,?_⟩,by rw [hσ]⟩
    exact fun h hh => hu.2.2 h (hcommitted h hh)

/-- The block at the frontier is committed; its cursor is not yet stored. -/
theorem Paced.commit {block : BlockData} {attempt : Nat} {stateRoot : Bytes} {ops : List Op}
    {σ : Store} (hs : s.Paced config) (hp : s.processor = .executing block attempt)
    (ho : CleanBatch ops)
    (hc : (commitAtomic block.height block.blockHash stateRoot ops).exec s.storage = .ok ((),σ)) :
    ({ s with storage := σ, processor := .committed block.height } :
      IndexerLoop).Paced config := by
  have hout : s.outstanding = block.height :: s.blocks.map BlockData.height := by
    rw [IndexerLoop.outstanding, hp]
    rfl
  have hrange := hs.outstanding
  rw [hout, List.length_cons, List.range'_succ, List.cons.injEq] at hrange
  obtain ⟨hheight,hrest⟩ := hrange
  have hsmall := hs.small
  rw [ahead, hout, List.length_cons] at hsmall
  obtain ⟨_,rfl⟩ := commitAtomic_cases hc
  have hfront : frontier config (KV.write s.storage
      (commitOps block.height block.blockHash stateRoot ops)) = block.height+1 := by
    have hi : getIndexedHeight (KV.write s.storage
        (commitOps block.height block.blockHash stateRoot ops)) = block.height :=
      commitOps_indexed (by omega)
    have hfresh : isFreshDb (KV.write s.storage
        (commitOps block.height block.blockHash stateRoot ops)) = false := by
      apply isFreshDb_eq_false
      rw [hi]
      rcases Nat.eq_zero_or_pos block.height with h0 | hpos
      · right
        rw [commitOps_hash ho, if_pos h0.symm]
        rfl
      · exact .inl hpos
    rw [frontier, hfresh, hi]
    rfl
  have hahead : ({ s with
      storage := KV.write s.storage (commitOps block.height block.blockHash stateRoot ops)
      processor := .committed block.height } : IndexerLoop).ahead config = s.ahead config := by
    rw [ahead, ahead, hout, List.length_cons]
    show frontier config (KV.write s.storage
      (commitOps block.height block.blockHash stateRoot ops))+(s.blocks.map BlockData.height).length = _
    rw [hfront]
    omega
  constructor
  case bare => exact commitOps_bare hs.bare ho
  case outstanding =>
    show s.blocks.map BlockData.height = List.range' (frontier config (KV.write s.storage
      (commitOps block.height block.blockHash stateRoot ops))) (s.blocks.map BlockData.height).length
    rw [hfront, hheight]
    exact hrest
  case small =>
    rw [hahead]
    exact hs.small
  case failures =>
    have hfail := hs.failures
    rw [IndexerLoop.failures, hp] at hfail
    exact hfail
  case committed =>
    intro h hh
    cases hh
    exact hfront.symm
  case fetcher =>
    refine hs.fetcher.mono rfl hahead ?_ (.inl rfl) ?_
    · show _ ≤ frontier config (KV.write s.storage
        (commitOps block.height block.blockHash stateRoot ops))
      rw [hfront]
      omega
    · intro hu
      rw [hu.2.1] at hout
      cases hout

/-- The processor stores the cursor of the block that it has committed. -/
theorem Paced.storeCommitted {height : Nat} (hs : s.Paced config)
    (hp : s.processor = .committed height) :
    ({ s with currentHeight := height+1, processor := .reporting (.success height) } :
      IndexerLoop).Paced config := by
  have hfront := hs.committed height hp
  have hout : s.outstanding = s.blocks.map BlockData.height := by
    rw [IndexerLoop.outstanding, hp]
    rfl
  have hahead : ({ s with
      currentHeight := height+1
      processor := .reporting (.success height) } : IndexerLoop).ahead config = s.ahead config := by
    rw [ahead, ahead, hout]
    rfl
  constructor
  case bare => exact hs.bare
  case outstanding =>
    have hrange := hs.outstanding
    rw [hout] at hrange
    exact hrange
  case small =>
    rw [hahead]
    exact hs.small
  case failures =>
    have hfail := hs.failures
    rw [IndexerLoop.failures, hp] at hfail
    exact hfail
  case committed => simp
  case fetcher =>
    have hnot : ¬s.Unset := fun hu => hu.2.2 height hp
    exact hs.fetcher.mono rfl hahead le_rfl (.inr ⟨hnot,le_of_eq hfront⟩) fun hu => absurd hu hnot

theorem validateBlockConnects_message {height : Nat} {blockData blockHash : Bytes} {σ : Store}
    {f : Fault} (h : validateBlockConnects bitcoin validator height blockData blockHash σ = .error f) :
    ∃ text, f = .message text := by
  unfold validateBlockConnects at h
  split at h
  · split at h <;> cases h
  · split at h
    · cases h
      exact ⟨_,rfl⟩
    · dsimp only at h
      split_ifs at h
      split at h <;> cases h

theorem commitAttempt_message {height : Nat} {blockHash stateRoot : Bytes} {ops : List Op}
    {writeError : Option String} {σ : Store} {f : Fault}
    (h : (commitAttempt height blockHash stateRoot ops writeError).exec σ = .error f) :
    ∃ text, f = .message text := by
  have ha := commitAtomic_eq σ height blockHash stateRoot ops
  cases writeError with
  | none =>
    rw [commitAttempt] at h
    split_ifs at ha with hrej
    · rw [Prog.exec_error ha] at h
      cases h
      exact ⟨_,rfl⟩
    · rw [Prog.exec_ok ha] at h
      cases h
  | some w =>
    have hrun : ∃ text, (commitAttempt height blockHash stateRoot ops (some w)).run σ =
        ⟨[],.error (.message text)⟩ := by
      rw [commitAttempt, Prog.run_read_bind, ha]
      split_ifs <;> exact ⟨_,rfl⟩
    obtain ⟨text,hrun⟩ := hrun
    rw [Prog.exec_error hrun] at h
    cases h
    exact ⟨text,rfl⟩

/-- The processor goes on with the same block. -/
theorem Paced.stay {block : BlockData} {p : BlockProcessorAt} (hs : s.Paced config)
    (hp : s.processor.outstanding = [block.height]) (hp' : p.outstanding = [block.height]) :
    ({ s with processor := p } : IndexerLoop).Paced config := by
  have hzero : p.failures = 0 := by
    cases p <;> first | rfl | cases hp'
  have hfail := hs.failures
  rw [IndexerLoop.failures] at hfail
  refine hs.relay rfl rfl rfl rfl ?_ ?_ ?_
  · rw [IndexerLoop.outstanding, IndexerLoop.outstanding, hp, hp']
  · show p.failures+(s.results.map BlockResult.failures).sum+s.resultTask.failures = 0
    omega
  · intro h hc
    change p = _ at hc
    rw [hc] at hp'
    cases hp'

/-- A block fails where that is allowed. -/
theorem Paced.fail {attempts : Nat → Attempt} {height : Nat} {text : String} (hs : s.Paced config)
    (hk : s.keepsPace bitcoin validator config prefetchSize (.processor attempts) = true)
    (h : s.processorStep bitcoin validator prefetchSize attempts =
      some { s with processor := .reporting (.error height text) })
    (hzero : s.processor.failures = 0) :
    ({ s with processor := .reporting (.error height text) } : IndexerLoop).Stalled config := by
  have hfail := hs.failures
  have hopen : ({ s with processor := .reporting (.error height text) } :
      IndexerLoop).failures = 1 := by
    rw [IndexerLoop.failures, hzero] at hfail
    simp only [IndexerLoop.failures, BlockProcessorAt.failures, BlockResult.failures]
    omega
  rw [keepsPace, h, Option.all_some, hopen, hfail] at hk
  simp only [Nat.le_zero, one_ne_zero, decide_false, Bool.false_or, Bool.and_eq_true, beq_iff_eq,
    List.isEmpty_iff] at hk
  obtain ⟨⟨hblocks,htop⟩,hcur⟩ := hk
  have hsmall := hs.small
  rw [ahead, ← hcur] at hsmall
  constructor
  case bare => exact hs.bare
  case outstanding =>
    rw [IndexerLoop.outstanding, hblocks]
    rfl
  case small => exact lt_of_le_of_lt (Nat.le_add_right _ _) hsmall
  case failures => exact hopen
  case committed => simp
  case fetcher =>
    show s.fetcher = .top
    cases hf : s.fetcher <;> rw [hf] at htop <;> first | rfl | cases htop
  case cursor => exact hcur

/-- The block that the processor works on is the one at the frontier, and it is not stale. -/
theorem Paced.busy {block : BlockData} (hs : s.Paced config)
    (hp : s.processor.outstanding = [block.height]) :
    block.height = frontier config s.storage ∧ s.currentHeight ≤ block.height := by
  have hout : s.outstanding = block.height :: s.blocks.map BlockData.height := by
    rw [IndexerLoop.outstanding, hp]
    rfl
  have hrange := hs.outstanding
  rw [hout, List.length_cons, List.range'_succ, List.cons.injEq] at hrange
  refine ⟨hrange.1,?_⟩
  rw [hrange.1]
  apply hs.fetcher.cursor_le
  intro hu
  rw [hu.2.1] at hout
  cases hout

/-- A step of the processor keeps the pace, opens a failure where that is allowed, or is its last. -/
theorem processorStep_keeps {attempts : Nat → Attempt} (hs : s.Paced config)
    (hclean : CleanAttempts (.processor attempts))
    (hk : s.keepsPace bitcoin validator config prefetchSize (.processor attempts) = true)
    (h : s.processorStep bitcoin validator prefetchSize attempts = some s') :
    s'.Paced config ∨ s'.Stalled config ∨ s'.processor = .done := by
  have hfail := hs.failures
  rw [IndexerLoop.failures] at hfail
  have hstep := h
  cases hp : s.processor with
  | idle =>
    simp only [processorStep, hp] at h
    split at h
    · next block blocks hb =>
      cases h
      left
      refine hs.relay rfl rfl rfl rfl ?_ ?_ (fun _ => by simp)
      · simp [IndexerLoop.outstanding, hp, hb, BlockProcessorAt.outstanding]
      · rw [hp] at hfail
        exact hfail
    · cases h
  | validating block =>
    have hbusy : s.processor.outstanding = [block.height] := by rw [hp]; rfl
    have hzero : s.processor.failures = 0 := by rw [hp]; rfl
    simp only [processorStep, hp] at h
    split at h
    · cases h
      exact .inl (hs.stay hbusy rfl)
    · cases h
      exact .inr (.inl (hs.fail hk hstep hzero))
    · cases h
      exact .inr (.inl (hs.fail hk hstep hzero))
    · next hval =>
      obtain ⟨text,hpanic⟩ := validateBlockConnects_message hval
      cases hpanic
  | trying block attempt lastErr =>
    have hbusy : s.processor.outstanding = [block.height] := by rw [hp]; rfl
    have hzero : s.processor.failures = 0 := by rw [hp]; rfl
    simp only [processorStep, hp] at h
    split_ifs at h with hstale
    · have hle := (hs.busy hbusy).2
      omega
    · cases h
      exact .inr (.inl (hs.fail hk hstep hzero))
    · cases h
      exact .inl (hs.stay hbusy rfl)
  | executing block attempt =>
    have hbusy : s.processor.outstanding = [block.height] := by rw [hp]; rfl
    have hzero : s.processor.failures = 0 := by rw [hp]; rfl
    simp only [processorStep, hp] at h
    split at h
    · cases h
      exact .inl (hs.stay hbusy rfl)
    · next stateRoot ops hx =>
      split at h
      · next σ hc =>
        cases h
        rcases commitAttempt_cases block.height block.blockHash stateRoot ops
          (attempts attempt).writeError s.storage with ⟨f,hrun⟩ | ⟨hcommit,hrun⟩
        · rw [Prog.exec_error hrun] at hc
          cases hc
        · rw [Prog.exec_ok hrun] at hc
          cases hc
          exact .inl (hs.commit hp (hclean attempt stateRoot ops hx) hcommit)
      · split_ifs at h
        · cases h
          exact .inr (.inl (hs.fail hk hstep hzero))
        · cases h
          exact .inl (hs.stay hbusy rfl)
      · next hc =>
        obtain ⟨text,hpanic⟩ := commitAttempt_message hc
        cases hpanic
  | committed height =>
    simp only [processorStep, hp, Option.some.injEq] at h
    rw [← h]
    exact .inl (hs.storeCommitted hp)
  | reporting result =>
    simp only [processorStep, hp] at h
    split at h
    · cases h
      exact .inr (.inr rfl)
    · split_ifs at h
      cases h
      left
      refine hs.relay rfl rfl rfl rfl ?_ ?_ (fun _ => by simp)
      · simp [IndexerLoop.outstanding, hp, BlockProcessorAt.outstanding]
      · simp only [IndexerLoop.failures, hp, BlockProcessorAt.failures, List.map_append,
          List.sum_append, List.map_cons, List.map_nil, List.sum_cons, List.sum_nil] at hfail ⊢
        omega
  | done =>
    simp only [processorStep, hp] at h
    cases h

/-- A result moves on while the failure stays open. -/
theorem Stalled.relay (hs : s.Stalled config) (hσ : s'.storage = s.storage)
    (hcur : s'.currentHeight = s.currentHeight) (hf : s'.fetcher = s.fetcher)
    (hout : s'.outstanding = s.outstanding) (hfail : s'.failures = s.failures)
    (hcommitted : ∀ h, s'.processor = .committed h → s.processor = .committed h) :
    s'.Stalled config where
  bare := hσ ▸ hs.bare
  outstanding := hout.trans hs.outstanding
  small := hcur ▸ hs.small
  failures := hfail.trans hs.failures
  committed h hh := hs.committed h (hcommitted h hh)
  fetcher := hf.trans hs.fetcher
  cursor := by rw [hcur, hσ, hs.cursor]

/-- With nothing outstanding the processor can only hand its result on. -/
theorem Stalled.processorStep_keeps {attempts : Nat → Attempt} (hs : s.Stalled config)
    (h : s.processorStep bitcoin validator prefetchSize attempts = some s') :
    s'.Stalled config ∨ s'.processor = .done := by
  obtain ⟨hbusy,hblocks⟩ := List.append_eq_nil_iff.mp hs.outstanding
  rw [List.map_eq_nil_iff] at hblocks
  cases hp : s.processor with
  | idle =>
    simp only [processorStep, hp, hblocks] at h
    cases h
  | validating block | trying block _ _ | executing block _ =>
    rw [hp] at hbusy
    cases hbusy
  | committed height => exact absurd hp (hs.committed height)
  | reporting result =>
    simp only [processorStep, hp] at h
    split at h
    · cases h
      exact .inr rfl
    · split_ifs at h
      cases h
      left
      refine hs.relay rfl rfl rfl ?_ ?_ (fun _ => by simp)
      · simp [IndexerLoop.outstanding, hp, BlockProcessorAt.outstanding]
      · simp only [IndexerLoop.failures, hp, BlockProcessorAt.failures, List.map_append,
          List.sum_append, List.map_cons, List.map_nil, List.sum_cons, List.sum_nil]
        omega
  | done =>
    simp only [processorStep, hp] at h
    cases h

theorem Paced.resultTaskStep_keeps (hs : s.Paced config)
    (h : s.resultTaskStep config node refresh = some s') : s'.Paced config := by
  have hfail := hs.failures
  have hrelay : ∀ results count task, (results.map BlockResult.failures).sum+task.failures = 0 →
      ({ s with results, blockCount := count, resultTask := task } : IndexerLoop).Paced config := by
    intro results count task hzero
    refine hs.relay rfl rfl rfl rfl rfl ?_ (fun _ => id)
    rw [IndexerLoop.failures] at hfail ⊢
    show s.processor.failures+(results.map BlockResult.failures).sum+task.failures = 0
    omega
  cases hr : s.resultTask with
  | idle =>
    simp only [resultTaskStep, hr] at h
    split at h
    · next result results hres =>
      cases h
      apply hrelay
      simp only [IndexerLoop.failures, hr, hres, ResultTaskAt.failures, List.map_cons,
        List.sum_cons] at hfail ⊢
      omega
    · cases h
  | handling result =>
    rw [IndexerLoop.failures, hr] at hfail
    cases result with
    | success height =>
      simp only [resultTaskStep, hr, Option.some.injEq] at h
      rw [← h]
      apply hrelay
      simp only [ResultTaskAt.failures] at hfail ⊢
      omega
    | error height text =>
      simp only [ResultTaskAt.failures, BlockResult.failures] at hfail
      omega
  | resetting =>
    rw [IndexerLoop.failures, hr] at hfail
    simp only [ResultTaskAt.failures] at hfail
    omega
  | handled =>
    rw [IndexerLoop.failures, hr] at hfail
    simp only [resultTaskStep, hr] at h
    split_ifs at h <;> cases h <;> apply hrelay <;> simp only [ResultTaskAt.failures] at hfail ⊢ <;>
      omega
  | done =>
    simp only [resultTaskStep, hr] at h
    cases h

/-- The result task brings the failure to its end: the watermark is unset, and the cursor right. -/
theorem Stalled.resultTaskStep_keeps (hs : s.Stalled config)
    (hk : s.keepsPace bitcoin validator config prefetchSize (.resultTask node refresh) = true)
    (h : s.resultTaskStep config node refresh = some s') : s'.Stalled config ∨ s'.Paced config := by
  have hfail := hs.failures
  have hrelay : ∀ results count task,
      (results.map BlockResult.failures).sum+task.failures =
        (s.results.map BlockResult.failures).sum+s.resultTask.failures →
      ({ s with results, blockCount := count, resultTask := task } :
        IndexerLoop).Stalled config := by
    intro results count task heq
    refine hs.relay rfl rfl rfl rfl ?_ (fun _ => id)
    rw [IndexerLoop.failures]
    show s.processor.failures+(results.map BlockResult.failures).sum+task.failures =
      s.processor.failures+_+_
    omega
  cases hr : s.resultTask with
  | idle =>
    simp only [resultTaskStep, hr] at h
    split at h
    · next result results hres =>
      cases h
      left
      apply hrelay
      simp only [hr, hres, ResultTaskAt.failures, List.map_cons, List.sum_cons]
      omega
    · cases h
  | handling result =>
    cases result with
    | success height =>
      simp only [resultTaskStep, hr, Option.some.injEq] at h
      rw [← h]
      left
      apply hrelay
      rw [hr]
      rfl
    | error height text =>
      rw [keepsPace, hr, Bool.and_eq_true, Option.isNone_iff_eq_none] at hk
      have hrun := handleReorg_undetected refresh hk.2
      have hfin : (handleReorg height node refresh config).finalState s.storage = s.storage :=
        Prog.finalState_eq hrun
      simp only [resultTaskStep, hr, if_pos hk.1, hrun, hfin, Option.some.injEq] at h
      rw [← h]
      left
      apply hrelay
      rw [hr]
      rfl
  | resetting =>
    simp only [resultTaskStep, hr, Option.some.injEq] at h
    rw [← h]
    right
    have hahead : s.ahead config = s.currentHeight := by
      rw [ahead, hs.outstanding, hs.cursor]
      rfl
    constructor
    case bare => exact hs.bare
    case outstanding =>
      show s.outstanding = List.range' _ s.outstanding.length
      rw [hs.outstanding]
      rfl
    case small =>
      show s.ahead config<2^32
      rw [hahead]
      exact hs.small
    case failures =>
      rw [IndexerLoop.failures, hr] at hfail
      rw [IndexerLoop.failures]
      simp only [ResultTaskAt.failures] at hfail ⊢
      omega
    case committed => exact fun h hh => absurd hh (hs.committed h)
    case fetcher =>
      show FetcherLaw config _ s.fetcher
      rw [hs.fetcher]
      exact .inl ⟨⟨rfl,hs.outstanding,hs.committed⟩,by simpa using hs.cursor⟩
  | handled =>
    simp only [resultTaskStep, hr] at h
    split_ifs at h <;> cases h <;> left <;> apply hrelay <;> rw [hr] <;> rfl
  | done =>
    simp only [resultTaskStep, hr] at h
    cases h

theorem fetcherStep_processor (h : s.fetcherStep config prefetchSize node refresh = some s') :
    s'.processor = s.processor := by
  simp only [fetcherStep] at h
  repeat' split at h
  all_goals
    cases h
    try rfl

theorem resultTaskStep_processor (h : s.resultTaskStep config node refresh = some s') :
    s'.processor = s.processor := by
  simp only [resultTaskStep] at h
  repeat' split at h
  all_goals
    cases h
    try rfl

/-- What holds in every state of a run that keeps the pace. -/
def Progress (config : SyncConfig) (s : IndexerLoop) : Prop :=
  s.Paced config ∨ s.Stalled config ∨ s.processor = .done

theorem Progress.step {a : IndexerAction} (hs : s.Progress config) (hclean : CleanAttempts a)
    (hk : s.keepsPace bitcoin validator config prefetchSize a = true)
    (h : step bitcoin validator config prefetchSize s a = some s') : s'.Progress config := by
  rcases hs with hs | hs | hdone
  · cases a with
    | fetcher node refresh => exact .inl (fetcherStep_keeps hs hk h)
    | processor attempts => exact processorStep_keeps hs hclean hk h
    | resultTask node refresh => exact .inl (hs.resultTaskStep_keeps h)
  · cases a with
    | fetcher node refresh =>
      rw [keepsPace, hs.failures] at hk
      cases hk
    | processor attempts => exact .inr (hs.processorStep_keeps h)
    | resultTask node refresh =>
      rcases hs.resultTaskStep_keeps hk h with hs' | hs'
      · exact .inr (.inl hs')
      · exact .inl hs'
  · right
    right
    cases a with
    | fetcher node refresh => exact (fetcherStep_processor h).trans hdone
    | processor attempts =>
      simp only [IndexerLoop.step, processorStep, hdone] at h
      cases h
    | resultTask node refresh => exact (resultTaskStep_processor h).trans hdone

end IndexerLoop

/-- In runs that keep the pace the fetcher, when nothing is on its way and the processor is idle, next
sends the height after the tip. -/
theorem next_sent_follows_tip (bitcoin : BitcoinCodec) (validator : Option ChainValidator)
    (config : SyncConfig) (prefetchSize : Nat) (start s : IndexerLoop) (hs : start.Starting config)
    (hr : Run (IndexerLoop.step bitcoin validator config prefetchSize)
      (fun s a => s.keepsPace bitcoin validator config prefetchSize a = true ∧
        IndexerLoop.CleanAttempts a) start s)
    (hblocks : s.blocks = []) (hidle : s.processor = .idle) (height : Nat)
    (hsend : s.sends = some height) : NextHeight config s.storage height := by
  have hprogress : s.Progress config :=
    hr.invariant (.inl hs.paced) fun t a t' ht ha h => ht.step ha.2 ha.1 h
  rw [IndexerLoop.sends] at hsend
  split at hsend
  · next block fetchEnd hf =>
    cases hsend
    rcases hprogress with hpaced | hstalled | hdone
    · have hlaw := hpaced.fetcher
      rw [hf] at hlaw
      have hout : s.outstanding = [] := by
        rw [IndexerLoop.outstanding, hblocks, hidle]
        rfl
      rw [nextHeight_iff, hlaw.1, IndexerLoop.ahead, hout]
      rfl
    · rw [hstalled.fetcher] at hf
      cases hf
    · rw [hidle] at hdone
      cases hdone
  · cases hsend

/-- Decodes only the empty block; every hash is `[7]`. -/
private def paceCodec : BitcoinCodec where
  Header := Unit
  deserialize data := if data.isEmpty then .ok () else .error "invalid block"
  consensusEncode _ := []
  prevBlockhash _ := [7]
  sha256 _ := [7]

/-- Block 1 of this node cannot be decoded. -/
private def paceNode : BitcoinNodeAdapter where
  isConnected := true
  getTipHeight := .ok 100
  getBlockHash _ := .ok [7]
  getBlockData h := .ok (if h = 1 then [1] else [])

private def paceConfig : SyncConfig where
  startBlock := 0
  exitAt := none
  maxReorgDepth := 100
  reorgCheckThreshold := 6
  enableStartupHeal := true

private def paceStart : IndexerLoop where
  storage := ∅
  currentHeight := 0
  lastSent := lastSentUnset
  blocks := []
  results := []
  blockCount := 0
  fetcher := .top
  processor := .idle
  resultTask := .idle

private theorem paceStart_starting : paceStart.Starting paceConfig where
  storage := ⟨.empty,.empty⟩
  cursor := .inl ⟨isFreshDb_empty,rfl⟩
  small := by decide
  lastSent := rfl
  blocks := rfl
  results := rfl
  fetcher := rfl
  processor := rfl
  resultTask := rfl

/-- `f` steps of the fetcher, then `p` of the processor and three of the result task. -/
private def paceRound (f p : Nat) : List IndexerAction :=
  List.replicate f (.fetcher paceNode (.ok ())) ++
    List.replicate p (.processor fun _ => ⟨.ok ([],[]),none⟩) ++
    List.replicate 3 (.resultTask paceNode (.ok ()))

private theorem paceRound_clean {f p : Nat} {a : IndexerAction} (h : a ∈ paceRound f p) :
    IndexerLoop.CleanAttempts a := by
  rw [paceRound, List.mem_append, List.mem_append] at h
  rcases h with (h | h) | h
  · rw [List.eq_of_mem_replicate h]
    trivial
  · rw [List.eq_of_mem_replicate h]
    intro n stateRoot ops hx
    cases hx
    exact fun _ h => absurd h List.not_mem_nil
  · rw [List.eq_of_mem_replicate h]
    trivial

/-- About to send `height` with nothing on its way. -/
private def paceSends (s : IndexerLoop) (height : Nat) : Bool :=
  s.sends == some height && s.blocks.isEmpty &&
    match s.processor with
    | .idle => true
    | _ => false

private theorem paceSends_spec {s : IndexerLoop} {height : Nat} (h : paceSends s height = true) :
    s.sends = some height ∧ s.blocks = [] ∧ s.processor = .idle := by
  rw [paceSends, Bool.and_eq_true, Bool.and_eq_true, beq_iff_eq, List.isEmpty_iff] at h
  obtain ⟨⟨hsends,hblocks⟩,hidle⟩ := h
  refine ⟨hsends,hblocks,?_⟩
  cases hp : s.processor <;> rw [hp] at hidle <;> first | rfl | cases hidle

theorem next_sent_follows_tip_second_block :
    ∃ s : IndexerLoop, s.sends = some 1 ∧ NextHeight paceConfig s.storage 1 := by
  have hrun : (follow (IndexerLoop.step paceCodec none paceConfig 1) (fun s a =>
      s.keepsPace paceCodec none paceConfig 1 a = true) paceStart
        (paceRound 7 6 ++ List.replicate 5 (.fetcher paceNode (.ok ())))).any
          (fun s => paceSends s 1) = true := by
    decide +kernel
  obtain ⟨s,hs,hsends⟩ := Run.exists_of_follow (Q := fun s a =>
    s.keepsPace paceCodec none paceConfig 1 a = true ∧ IndexerLoop.CleanAttempts a) (by
      intro s a ha hk
      refine ⟨hk,?_⟩
      rcases List.mem_append.mp ha with ha | ha
      · exact paceRound_clean ha
      · rw [List.eq_of_mem_replicate ha]
        trivial) hrun
  obtain ⟨hsend,hblocks,hidle⟩ := paceSends_spec hsends
  exact ⟨s,hsend,next_sent_follows_tip paceCodec none paceConfig 1 paceStart s paceStart_starting hs
    hblocks hidle 1 hsend⟩

/-- Block 1 cannot be decoded. The result task only waits, and the fetcher goes on to block 2 with the
tip at 0. -/
theorem next_sent_passes_failed_block :
    ¬∀ (bitcoin : BitcoinCodec) (validator : Option ChainValidator) (config : SyncConfig)
      (prefetchSize : Nat) (start s : IndexerLoop), start.Starting config →
      Run (IndexerLoop.step bitcoin validator config prefetchSize)
        (fun _ a => IndexerLoop.CleanAttempts a) start s →
      s.blocks = [] → s.processor = .idle → ∀ height, s.sends = some height →
        NextHeight config s.storage height := by
  intro hclaim
  have hrun : (follow (IndexerLoop.step paceCodec none paceConfig 1) (fun _ _ => True) paceStart
      (paceRound 7 6 ++ paceRound 7 3 ++ List.replicate 5 (.fetcher paceNode (.ok ())))).any
        (fun s => paceSends s 2 && frontier paceConfig s.storage == 1) = true := by
    decide +kernel
  obtain ⟨s,hs,hend⟩ := Run.exists_of_follow (Q := fun _ a => IndexerLoop.CleanAttempts a) (by
    intro s a ha _
    rcases List.mem_append.mp ha with ha | ha
    · rcases List.mem_append.mp ha with ha | ha
      · exact paceRound_clean ha
      · exact paceRound_clean ha
    · rw [List.eq_of_mem_replicate ha]
      trivial) hrun
  rw [Bool.and_eq_true, beq_iff_eq] at hend
  obtain ⟨hsend,hblocks,hidle⟩ := paceSends_spec hend.1
  have hnext := hclaim paceCodec none paceConfig 1 paceStart s paceStart_starting hs hblocks hidle 2
    hsend
  rw [nextHeight_iff, hend.2] at hnext
  cases hnext

end Metashrew
