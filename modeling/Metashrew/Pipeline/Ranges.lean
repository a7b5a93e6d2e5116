import Metashrew.Pipeline.Indexer

namespace Metashrew

open Steps

/-- A range that has been returned, with the height of the processor at the call. -/
structure FetchedRange where
  processorTip : Nat
  fetchStart : Nat
  fetchEnd : Nat

/-- What the fetcher reads, its watermark, and the ranges returned so far. -/
structure RangeFetcher where
  processorTip : Nat
  remoteTip : Nat
  lastSent : Int
  returned : List FetchedRange

inductive RangeAction where
  | processor (tip : Nat)
  | remote (tip : Nat)
  | fetch (prefetchSize : Nat)

def FetchedRange.heights (r : FetchedRange) : List Nat :=
  List.range' r.fetchStart (r.fetchEnd-r.fetchStart)

namespace RangeFetcher

/-- A returned range moves the watermark to its last height. -/
def returnRange (s : RangeFetcher) (fetchStart fetchEnd : Nat) : RangeFetcher :=
  { s with
    lastSent := (fetchEnd-1 : Nat)
    returned := s.returned ++ [⟨s.processorTip,fetchStart,fetchEnd⟩] }

def step (s : RangeFetcher) : RangeAction → Option RangeFetcher
  | .processor tip => some { s with processorTip := tip }
  | .remote tip => some { s with remoteTip := tip }
  | .fetch prefetchSize =>
    match computeNextFetchRange s.processorTip s.lastSent prefetchSize s.remoteTip with
    | none => some s
    | some (fetchStart,fetchEnd) => some (s.returnRange fetchStart fetchEnd)

/-- The tips advance, the processor at most to the height after the watermark, and no height needs
the last number of 32 bits. -/
def Advances (s : RangeFetcher) : RangeAction → Prop
  | .processor tip =>
    s.processorTip ≤ tip ∧ tip<2^32-1 ∧ (0 ≤ s.lastSent → (tip : Int) ≤ s.lastSent+1)
  | .remote tip => s.remoteTip ≤ tip ∧ tip<2^32-1
  | .fetch prefetchSize => 1 ≤ prefetchSize ∧ prefetchSize<2^32

instance (s : RangeFetcher) : (a : RangeAction) → Decidable (s.Advances a)
  | .processor _ => inferInstanceAs (Decidable (_ ∧ _ ∧ _))
  | .remote _ => inferInstanceAs (Decidable (_ ∧ _))
  | .fetch _ => inferInstanceAs (Decidable (_ ∧ _))

/-- The heights of the returned ranges, one range after the other. -/
def heights (s : RangeFetcher) : List Nat := s.returned.flatMap FetchedRange.heights

/-- The height of the processor at the first call that returned a range; until then, its height. -/
def start (s : RangeFetcher) : Nat :=
  match s.returned with
  | [] => s.processorTip
  | r::_ => r.processorTip

/-- The height after those returned. -/
def next (s : RangeFetcher) : Nat := s.start+s.heights.length

/-- The returned heights run on from the start, up to the watermark. -/
structure Covers (s : RangeFetcher) : Prop where
  processor : s.processorTip<2^32-1
  remote : s.remoteTip<2^32-1
  nonempty : ∀ r ∈ s.returned, r.fetchStart < r.fetchEnd
  heights : s.heights = List.range' s.start s.heights.length
  bounded : s.heights ≠ [] → s.next ≤ s.remoteTip+1
  watermark : s.returned = [] ∧ s.lastSent = lastSentUnset ∨
    s.returned ≠ [] ∧ s.lastSent+1 = s.next ∧ s.processorTip ≤ s.next

/-- A call returns the range from the successor of the watermark, as far as the batch and the remote
tip go. -/
theorem computeNextFetchRange_eq {processorTip prefetchSize remoteTip : Nat} {lastSent : Int}
    (hr : remoteTip<2^32-1) (h1 : 1 ≤ prefetchSize) (hsize : prefetchSize<2^32) :
    computeNextFetchRange processorTip lastSent prefetchSize remoteTip =
      if remoteTip < nearTipFetchStart processorTip lastSent then none
      else some (nearTipFetchStart processorTip lastSent,
        min (nearTipFetchStart processorTip lastSent+prefetchSize) (remoteTip+1)) := by
  have hstart : max (if lastSent < 0 then processorTip else
      saturatingSucc (lastSent.toNat % 2^32)) processorTip =
        nearTipFetchStart processorTip lastSent := by
    rw [nearTipFetchStart]
    split_ifs <;> simp
  rw [computeNextFetchRange]
  dsimp only
  rw [hstart, saturatingAddU32, saturatingSucc, Nat.mod_eq_of_lt hsize]
  split_ifs with hlt hle
  · rfl
  · omega
  · have hmin : min (min (nearTipFetchStart processorTip lastSent+prefetchSize) (2^32-1))
        (min (remoteTip+1) (2^32-1)) =
          min (nearTipFetchStart processorTip lastSent+prefetchSize) (remoteTip+1) := by omega
    rw [hmin]

variable {s s' : RangeFetcher}

/-- A range that is returned adds its heights after the others. -/
theorem heights_returnRange (s : RangeFetcher) (fetchStart fetchEnd : Nat) :
    (s.returnRange fetchStart fetchEnd).heights =
      s.heights ++ List.range' fetchStart (fetchEnd-fetchStart) := by
  simp [heights, returnRange, FetchedRange.heights]

theorem start_returnRange (s : RangeFetcher) (fetchStart fetchEnd : Nat) :
    (s.returnRange fetchStart fetchEnd).start = s.start := by
  rw [start, start, returnRange]
  cases s.returned with
  | nil => rfl
  | cons r rest => rfl

namespace Covers

theorem initial {processorTip remoteTip : Nat} (hp : processorTip<2^32-1)
    (hr : remoteTip<2^32-1) : Covers ⟨processorTip,remoteTip,lastSentUnset,[]⟩ where
  processor := hp
  remote := hr
  nonempty := by simp
  heights := rfl
  bounded := by simp [RangeFetcher.heights]
  watermark := .inl ⟨rfl,rfl⟩

theorem heights_ne_nil (hs : s.Covers) (h : s.returned ≠ []) : s.heights ≠ [] := by
  obtain ⟨r,rest,he⟩ := List.exists_cons_of_ne_nil h
  have hlt := hs.nonempty r (by rw [he]; exact List.mem_cons_self)
  intro hnil
  rw [RangeFetcher.heights, he, List.flatMap_cons, List.append_eq_nil_iff, FetchedRange.heights,
    List.range'_eq_nil_iff] at hnil
  omega

/-- The fetcher stands at the height after those returned. -/
theorem ahead (hs : s.Covers) : nearTipFetchStart s.processorTip s.lastSent = s.next := by
  rcases hs.watermark with ⟨hnil,hlast⟩ | ⟨hne,hlast,hle⟩
  · rw [nearTipFetchStart, hlast, if_pos (by decide), next, start, RangeFetcher.heights, hnil]
    rfl
  · have hh := hs.heights_ne_nil hne
    have hpos := List.length_pos_of_ne_nil hh
    have hb := hs.bounded hh
    have hr := hs.remote
    rw [next] at hlast hb hle ⊢
    rw [nearTipFetchStart, if_neg (by omega), saturatingSucc]
    omega

theorem advanceProcessor {tip : Nat} (hs : s.Covers) (ha : s.Advances (.processor tip)) :
    ({ s with processorTip := tip } : RangeFetcher).Covers := by
  obtain ⟨hle,hlt,hahead⟩ := ha
  rcases hs.watermark with ⟨hnil,hlast⟩ | ⟨hne,hlast,_⟩
  · have hh : s.heights = [] := by rw [RangeFetcher.heights, hnil]; rfl
    refine ⟨hlt,hs.remote,hs.nonempty,?_,?_,.inl ⟨hnil,hlast⟩⟩
    · show s.heights = _
      rw [hh]
      show [] = List.range' _ s.heights.length
      rw [hh]
      rfl
    · intro h
      exact absurd hh h
  · have hstart : ({ s with processorTip := tip } : RangeFetcher).start = s.start := by
      rw [start, start]
      obtain ⟨r,rest,he⟩ := List.exists_cons_of_ne_nil hne
      rw [he]
    have hnext : ({ s with processorTip := tip } : RangeFetcher).next = s.next := by
      rw [next, hstart]
      rfl
    have hpos := List.length_pos_of_ne_nil (hs.heights_ne_nil hne)
    refine ⟨hlt,hs.remote,hs.nonempty,?_,?_,.inr ⟨hne,?_,?_⟩⟩
    · rw [hstart]
      exact hs.heights
    · rw [hnext]
      exact hs.bounded
    · rw [hnext]
      exact hlast
    · rw [hnext]
      rw [next] at hlast ⊢
      show tip ≤ _
      omega

theorem advanceRemote {tip : Nat} (hs : s.Covers) (ha : s.Advances (.remote tip)) :
    ({ s with remoteTip := tip } : RangeFetcher).Covers where
  processor := hs.processor
  remote := ha.2
  nonempty := hs.nonempty
  heights := hs.heights
  bounded := fun h => (hs.bounded h).trans (Nat.succ_le_succ ha.1)
  watermark := hs.watermark

/-- A returned range carries on where the others end. -/
theorem fetch {fetchEnd : Nat} (hs : s.Covers) (hlt : s.next < fetchEnd)
    (hle : fetchEnd ≤ s.remoteTip+1) : (s.returnRange s.next fetchEnd).Covers := by
  have hp : s.processorTip ≤ s.next := by
    rw [← hs.ahead, nearTipFetchStart]
    split_ifs <;> simp
  have hnext : (s.returnRange s.next fetchEnd).next = fetchEnd := by
    rw [next, start_returnRange, heights_returnRange, List.length_append, List.length_range']
    rw [next] at hlt ⊢
    omega
  refine ⟨hs.processor,hs.remote,?_,?_,?_,.inr ⟨by simp [returnRange],?_,?_⟩⟩
  · intro r hr
    rw [returnRange, List.mem_append, List.mem_singleton] at hr
    rcases hr with hr | rfl
    · exact hs.nonempty r hr
    · exact hlt
  · rw [start_returnRange, heights_returnRange, List.length_append, List.length_range',
      ← List.range'_append_1, ← hs.heights]
    rfl
  · intro _
    rw [hnext]
    exact hle
  · rw [hnext, returnRange]
    dsimp only
    omega
  · rw [hnext]
    exact hp.trans hlt.le

theorem step {a : RangeAction} (hs : s.Covers) (ha : s.Advances a) (h : s.step a = some s') :
    s'.Covers := by
  cases a with
  | processor tip =>
    cases h
    exact hs.advanceProcessor ha
  | remote tip =>
    cases h
    exact hs.advanceRemote ha
  | fetch prefetchSize =>
    obtain ⟨h1,hsize⟩ := ha
    rw [RangeFetcher.step, computeNextFetchRange_eq hs.remote h1 hsize, hs.ahead] at h
    split_ifs at h with hlt
    · cases h
      exact hs
    · cases h
      exact hs.fetch (by omega) (by omega)

end Covers

/-- The returned ranges are the heights from the first processor height on, each once and up to the
remote tip, and a height that is still missing makes the next call return a range. -/
theorem fetch_ranges_cover (processorTip remoteTip : Nat) (hp : processorTip<2^32-1)
    (hr : remoteTip<2^32-1) (s : RangeFetcher)
    (h : Run step Advances ⟨processorTip,remoteTip,lastSentUnset,[]⟩ s) :
    (∀ r ∈ s.returned, r.fetchStart < r.fetchEnd) ∧
      s.heights = List.range' s.start s.heights.length ∧ (∀ height ∈ s.heights, height ≤ s.remoteTip) ∧
      ∀ prefetchSize, 1 ≤ prefetchSize → prefetchSize<2^32 →
        ∀ height, s.start ≤ height → height ≤ s.remoteTip → height ∉ s.heights →
          (computeNextFetchRange s.processorTip s.lastSent prefetchSize s.remoteTip).isSome = true := by
  have hs : s.Covers := h.invariant (Covers.initial hp hr) fun _ _ _ hi ha ht => hi.step ha ht
  have hmem : ∀ height, height ∈ s.heights ↔ s.start ≤ height ∧ height < s.next := by
    intro height
    rw [hs.heights, List.mem_range'_1, next]
  refine ⟨hs.nonempty,hs.heights,?_,?_⟩
  · intro height hh
    have hb := hs.bounded (List.ne_nil_of_mem hh)
    have hlt := ((hmem height).mp hh).2
    omega
  · intro prefetchSize h1 hsize height hge hle hnot
    rw [computeNextFetchRange_eq hs.remote h1 hsize, hs.ahead, if_neg]
    · rfl
    · rw [hmem] at hnot
      omega

/-- Two batches around an advance of both tips, and a call that finds nothing new in between. -/
theorem fetch_ranges_cover_two_batches :
    ∃ s : RangeFetcher, Run step Advances ⟨5,7,lastSentUnset,[]⟩ s ∧ s.heights = [5,6,7,8,9] ∧
      s.heights = List.range' s.start s.heights.length := by
  have hrun : (follow step Advances ⟨5,7,lastSentUnset,[]⟩
      [.fetch 6,.fetch 6,.processor 7,.remote 20,.fetch 2]).any
        (fun s => s.heights == [5,6,7,8,9]) = true := by decide +kernel
  obtain ⟨s,h,hh⟩ := Run.exists_of_follow (fun _ _ _ ha => ha) hrun
  exact ⟨s,h,by simpa using hh,(fetch_ranges_cover 5 7 (by decide) (by decide) s h).2.1⟩

end RangeFetcher

end Metashrew
