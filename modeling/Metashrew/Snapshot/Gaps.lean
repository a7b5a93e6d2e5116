import Mathlib
import Metashrew.Snapshot.Repo

namespace Metashrew

open Bytes

/-- Everything between the height that a sync starts from and the one that it returns is applied,
in order and to the last byte, and the sync has stopped at the first interval that it misses. -/
structure LeavesNoGap (intervals : List RepoInterval) (start : Nat) (out : RepoSynced) : Prop where
  tip : getRuntimeTipHeight out.db = out.height
  complete : out.applied.map DiffData.interval = (intervals.map RepoInterval.metadata).filter
    fun i => start < (i.endHeight:Nat) && (i.endHeight:Nat) ≤ out.height
  stops : out.applied.map DiffData.interval <+: (intervals.map RepoInterval.metadata).filter
    fun i => start < (i.endHeight:Nat)
  increasing : (start::out.applied.map fun d => (d.interval.endHeight:Nat)).Pairwise (· < ·)
  covered : ∀ b, start < b → b ≤ out.height →
    ∃ d ∈ out.applied, (d.interval.startHeight:Nat) < b ∧ b ≤ (d.interval.endHeight:Nat)
  whole : ∀ d ∈ out.applied, (parseDiff d.diffData).2 = []

/-- An interval above the height that the processor does not apply there. -/
def Fetched.Passed (c : Nat) (t : Fetched) : Prop :=
  c < (t.interval.endHeight:Nat) ∧ (t.data? = none ∨ (t.interval.startHeight:Nat) < c)

/-- Intervals that follow each other from a height on, each fetched and whole, and after them only
ones that are passed over. -/
def Contiguous : Nat → List Fetched → Prop
  | _, [] => True
  | c, t::ts =>
    (∃ d, t = .sent d ∧ (d.interval.startHeight:Nat) = c ∧ c < (d.interval.endHeight:Nat) ∧
      (parseDiff d.diffData).2 = [] ∧ Contiguous d.interval.endHeight ts) ∨
    ∀ u ∈ t::ts, u.Passed c

/-- The same of the intervals that a processor applies from a height on. -/
structure Gapless (c : Nat) (ts : List Fetched) : Prop where
  complete : (appliedFrom c ts).map DiffData.interval = (ts.map Fetched.interval).filter
    fun i => (i.endHeight:Nat) ≤ lastEnd c (appliedFrom c ts)
  stops : (appliedFrom c ts).map DiffData.interval <+: ts.map Fetched.interval
  increasing : (c::(appliedFrom c ts).map fun d => (d.interval.endHeight:Nat)).Pairwise (· < ·)
  covered : ∀ b, c < b → b ≤ lastEnd c (appliedFrom c ts) →
    ∃ d ∈ appliedFrom c ts, (d.interval.startHeight:Nat) < b ∧ b ≤ (d.interval.endHeight:Nat)
  whole : ∀ d ∈ appliedFrom c ts, (parseDiff d.diffData).2 = []

section Applied

variable {c : Nat} {d : DiffData} {ds : List DiffData} {t : Fetched} {ts : List Fetched}

theorem isPartial_iff {i : IntervalMetadata} : i.isPartial c = true ↔
    (i.startHeight:Nat) < c ∧ c < (i.endHeight:Nat) := by
  rw [IntervalMetadata.isPartial, Bool.and_eq_true, decide_eq_true_eq, decide_eq_true_eq]

theorem appliedFrom_sent (h : ¬d.interval.isPartial c = true) :
    appliedFrom c (.sent d::ts) = d::appliedFrom d.interval.endHeight ts := by
  rw [appliedFrom, if_neg h]

/-- A step that is not applied leaves the rest as it is. -/
theorem appliedFrom_passed (h : t.data? = none ∨ t.interval.isPartial c = true) :
    appliedFrom c (t::ts) = appliedFrom c ts := by
  cases t with
  | failed i => rfl
  | sent d =>
    have hpart : d.interval.isPartial c = true := by simpa using h
    rw [appliedFrom, if_pos hpart]

theorem Fetched.Passed.not_applied (h : t.Passed c) :
    t.data? = none ∨ t.interval.isPartial c = true :=
  h.2.imp id fun hstart => isPartial_iff.mpr ⟨hstart,h.1⟩

theorem appliedFrom_all_passed (h : ∀ t ∈ ts, t.Passed c) : appliedFrom c ts = [] := by
  induction ts with
  | nil => rfl
  | cons t ts ih =>
    rw [List.forall_mem_cons] at h
    rw [appliedFrom_passed h.1.not_applied, ih h.2]

theorem all_passed (h : appliedFrom c ts = []) (habove : ∀ t ∈ ts, c < (t.interval.endHeight:Nat)) :
    ∀ t ∈ ts, t.Passed c := by
  induction ts with
  | nil => simp
  | cons t ts ih =>
    rw [List.forall_mem_cons] at habove ⊢
    by_cases happ : t.data? = none ∨ t.interval.isPartial c = true
    · rw [appliedFrom_passed happ] at h
      refine ⟨⟨habove.1,?_⟩,ih h habove.2⟩
      exact happ.imp id fun hpart => (isPartial_iff.mp hpart).1
    · rw [not_or] at happ
      cases t with
      | failed i => exact absurd rfl happ.1
      | sent d =>
        rw [appliedFrom_sent happ.2] at h
        cases h

/-- The applied intervals are some of the ones that went through the fetcher. -/
theorem appliedFrom_sublist (c : Nat) (ts : List Fetched) :
    ((appliedFrom c ts).map DiffData.interval).Sublist (ts.map Fetched.interval) := by
  induction ts generalizing c with
  | nil => exact List.Sublist.refl _
  | cons t ts ih =>
    by_cases happ : t.data? = none ∨ t.interval.isPartial c = true
    · rw [appliedFrom_passed happ]
      exact (ih c).cons _
    · rw [not_or] at happ
      cases t with
      | failed i => exact absurd rfl happ.1
      | sent d =>
        rw [appliedFrom_sent happ.2]
        exact (ih _).cons_cons _

theorem le_lastEnd (h : (c::ds.map fun d => (d.interval.endHeight:Nat)).Pairwise (· < ·)) :
    c ≤ lastEnd c ds := by
  cases ds with
  | nil => exact le_rfl
  | cons d ds =>
    have hmem : lastEnd c (d::ds) ∈ (d::ds).map fun d => (d.interval.endHeight:Nat) := by
      rw [lastEnd, List.getLastD_eq_getLast?, List.getLast?_eq_some_getLast (by simp)]
      exact List.getLast_mem _
    exact (List.rel_of_pairwise_cons h hmem).le

/-- Heights that increase do not reach into an interval, so each applied one starts at the height
before it or above. -/
theorem le_startHeight (ts : List Fetched)
    (h : (c::(appliedFrom c ts).map fun d => (d.interval.endHeight:Nat)).Pairwise (· < ·)) :
    ∀ d ∈ appliedFrom c ts, c ≤ (d.interval.startHeight:Nat) := by
  induction ts generalizing c with
  | nil => simp [appliedFrom]
  | cons t ts ih =>
    by_cases happ : t.data? = none ∨ t.interval.isPartial c = true
    · rw [appliedFrom_passed happ] at h ⊢
      exact ih h
    · rw [not_or] at happ
      cases t with
      | failed i => exact absurd rfl happ.1
      | sent d =>
        rw [appliedFrom_sent happ.2] at h ⊢
        rw [List.map_cons, List.pairwise_cons] at h
        have hend : c < (d.interval.endHeight:Nat) := h.1 _ (List.mem_cons_self ..)
        intro d' hd'
        rcases List.mem_cons.mp hd' with rfl | hrest
        · by_contra hlt
          have hstart : (d'.interval.startHeight:Nat) < c := by omega
          exact happ.2 (isPartial_iff.mpr ⟨hstart,hend⟩)
        · exact hend.le.trans (ih h.2 d' hrest)

end Applied

namespace Gapless

variable {c : Nat} {d : DiffData} {t : Fetched} {ts : List Fetched}

/-- An applied interval has to start at the height before it, and the rest has to go on from its
end. -/
theorem sent_iff (happ : ¬d.interval.isPartial c = true) : Gapless c (.sent d::ts) ↔
    (d.interval.startHeight:Nat) = c ∧ c < (d.interval.endHeight:Nat) ∧
      (parseDiff d.diffData).2 = [] ∧ Gapless d.interval.endHeight ts := by
  have hA : appliedFrom c (.sent d::ts) = d::appliedFrom d.interval.endHeight ts :=
    appliedFrom_sent happ
  have hlast : lastEnd c (appliedFrom c (.sent d::ts)) =
      lastEnd d.interval.endHeight (appliedFrom d.interval.endHeight ts) := by
    rw [hA, lastEnd_cons]
  constructor
  · intro h
    have hinc := h.increasing
    rw [hA, List.map_cons, List.pairwise_cons] at hinc
    have hend : c < (d.interval.endHeight:Nat) := hinc.1 _ (List.mem_cons_self ..)
    have hle := le_lastEnd hinc.2
    have hstops := h.stops
    rw [hA, List.map_cons, List.map_cons, Fetched.interval_sent] at hstops
    have hcomplete := h.complete
    rw [hlast, hA, List.map_cons, List.map_cons, Fetched.interval_sent,
      List.filter_cons_of_pos (by simpa using hle)] at hcomplete
    have hcovered := h.covered
    rw [hlast, hA] at hcovered
    have hwhole := h.whole
    rw [hA, List.forall_mem_cons] at hwhole
    refine ⟨?_,hend,hwhole.1,⟨(List.cons.inj hcomplete).2,(List.cons_prefix_cons.mp hstops).2,
      hinc.2,?_,hwhole.2⟩⟩
    · -- the block after `c` is in this interval, as the later ones start above
      obtain ⟨d',hd',hlow,_⟩ := hcovered (c+1) (by omega) (by omega)
      have hge : c ≤ (d.interval.startHeight:Nat) := by
        by_contra hlt
        exact happ (isPartial_iff.mpr ⟨by omega,hend⟩)
      rcases List.mem_cons.mp hd' with rfl | hrest
      · omega
      · have hlater := le_startHeight ts hinc.2 d' hrest
        omega
    · intro b hb hbh
      obtain ⟨d',hd',hlow,hhigh⟩ := hcovered b (by omega) hbh
      rcases List.mem_cons.mp hd' with rfl | hrest
      · omega
      · exact ⟨d',hrest,hlow,hhigh⟩
  · intro h
    obtain ⟨hstart,hend,hwhole,hg⟩ := h
    have hle := le_lastEnd hg.increasing
    refine ⟨?_,?_,?_,?_,?_⟩
    · rw [hlast, hA, List.map_cons, List.map_cons, Fetched.interval_sent,
        List.filter_cons_of_pos (by simpa using hle), hg.complete]
    · rw [hA, List.map_cons, List.map_cons, Fetched.interval_sent]
      exact List.cons_prefix_cons.mpr ⟨rfl,hg.stops⟩
    · rw [hA, List.map_cons, List.pairwise_cons]
      refine ⟨?_,hg.increasing⟩
      rw [List.forall_mem_cons]
      exact ⟨hend,fun e he => hend.trans (List.rel_of_pairwise_cons hg.increasing he)⟩
    · rw [hlast, hA]
      intro b hb hbh
      by_cases hin : b ≤ (d.interval.endHeight:Nat)
      · exact ⟨d,List.mem_cons_self ..,by omega,hin⟩
      · obtain ⟨d',hd',hlow,hhigh⟩ := hg.covered b (by omega) hbh
        exact ⟨d',List.mem_cons_of_mem _ hd',hlow,hhigh⟩
    · rw [hA, List.forall_mem_cons]
      exact ⟨hwhole,hg.whole⟩

theorem of_passed (h : ∀ u ∈ ts, u.Passed c) : Gapless c ts := by
  have hA := appliedFrom_all_passed h
  have hnone : (ts.map Fetched.interval).filter (fun i => (i.endHeight:Nat) ≤ c) = [] := by
    rw [List.filter_eq_nil_iff]
    intro i hi
    obtain ⟨u,hu,rfl⟩ := List.mem_map.mp hi
    have habove := (h u hu).1
    simpa using habove
  refine ⟨?_,?_,?_,?_,?_⟩
  · rw [hA]
    exact hnone.symm
  · rw [hA]
    exact List.nil_prefix
  · simp [hA]
  · rw [hA]
    intro b hb hbh
    have hle : b ≤ c := hbh
    omega
  · simp [hA]

/-- After a step that is not applied no other may be. -/
theorem passed (happ : t.data? = none ∨ t.interval.isPartial c = true) (h : Gapless c (t::ts)) :
    ∀ u ∈ t::ts, u.Passed c := by
  have hA : appliedFrom c (t::ts) = appliedFrom c ts := appliedFrom_passed happ
  have hcomplete := h.complete
  have hstops := h.stops
  rw [hA] at hcomplete hstops
  -- the applied intervals are among the rest, so the first step is above the final height
  have hfirst : ¬(t.interval.endHeight:Nat) ≤ lastEnd c (appliedFrom c ts) := by
    intro hle
    have hsub := (appliedFrom_sublist c ts).filter
      fun i => (i.endHeight:Nat) ≤ lastEnd c (appliedFrom c ts)
    rw [hcomplete, List.filter_filter, List.map_cons, List.filter_cons_of_pos (by simpa using hle)]
      at hsub
    simp only [Bool.and_self] at hsub
    have hlen := hsub.length_le
    rw [List.length_cons] at hlen
    omega
  have hnil : appliedFrom c ts = [] := by
    cases hds : appliedFrom c ts with
    | nil => rfl
    | cons d ds =>
      rw [hds, List.map_cons, List.map_cons] at hstops
      have hhead : d.interval = t.interval := (List.cons_prefix_cons.mp hstops).1
      have hmem : d.interval ∈ (appliedFrom c ts).map DiffData.interval :=
        List.mem_map_of_mem (hds ▸ List.mem_cons_self ..)
      rw [hcomplete, hhead, List.mem_filter, decide_eq_true_eq] at hmem
      exact absurd hmem.2 hfirst
  apply all_passed (hA.trans hnil)
  rw [hnil] at hcomplete
  intro u hu
  have hnot := List.filter_eq_nil_iff.mp hcomplete.symm u.interval (List.mem_map_of_mem hu)
  have hlt : ¬(u.interval.endHeight:Nat) ≤ c := by simpa [lastEnd] using hnot
  omega

theorem iff_contiguous : Gapless c ts ↔ Contiguous c ts := by
  induction ts generalizing c with
  | nil => exact ⟨fun _ => trivial,fun _ => of_passed (by simp)⟩
  | cons t ts ih =>
    rw [Contiguous]
    by_cases happ : t.data? = none ∨ t.interval.isPartial c = true
    · constructor
      · intro h
        exact .inr (passed happ h)
      · intro h
        rcases h with ⟨d,rfl,hstart,_⟩ | hall
        · -- a fetched interval that starts here is neither missing nor partial
          rcases happ with hnone | hpart
          · cases hnone
          · have hlt := (isPartial_iff.mp hpart).1
            rw [Fetched.interval_sent] at hlt
            omega
        · exact of_passed hall
    · rw [not_or] at happ
      cases t with
      | failed i => exact absurd rfl happ.1
      | sent d =>
        rw [sent_iff happ.2, ih]
        constructor
        · intro h
          exact .inl ⟨d,rfl,h⟩
        · intro h
          rcases h with ⟨d',hd,h⟩ | hall
          · cases hd
            exact h
          · have hno := (hall _ (List.mem_cons_self ..)).not_applied
            rcases hno with hnone | hpart
            · cases hnone
            · exact absurd hpart happ.2

end Gapless

section Sync

variable {files : List Bytes} {intervals : List RepoInterval} {indexerPath : Option Bytes}
  {σ : Store} {out : RepoSynced}

theorem leavesNoGap_iff_gapless (hne : intervals ≠ [])
    (h : syncFromRepo files (.ok intervals) indexerPath σ = .ok out) :
    LeavesNoGap intervals (getRuntimeTipHeight σ) out ↔
      Gapless (getRuntimeTipHeight σ) (fetchedAbove files intervals (getRuntimeTipHeight σ)) := by
  obtain ⟨happlied,hheight,htip⟩ := syncFromRepo_spec hne h
  have habove : (fetchedAbove files intervals (getRuntimeTipHeight σ)).map Fetched.interval =
      (intervals.map RepoInterval.metadata).filter
        fun i => getRuntimeTipHeight σ < (i.endHeight:Nat) := by
    rw [fetchedAbove, fetchAll_interval, List.filter_map]
    rfl
  have hboth : (intervals.map RepoInterval.metadata).filter
      (fun i => getRuntimeTipHeight σ < (i.endHeight:Nat) && (i.endHeight:Nat) ≤ out.height) =
      ((fetchedAbove files intervals (getRuntimeTipHeight σ)).map Fetched.interval).filter
        fun i => (i.endHeight:Nat) ≤ out.height := by
    rw [habove, List.filter_filter]
    apply List.filter_congr
    intro i _
    exact Bool.and_comm ..
  rw [hheight, happlied] at hboth
  constructor
  · intro hg
    have hcomplete := hg.complete
    have hstops := hg.stops
    have hcovered := hg.covered
    rw [hheight, happlied] at hcomplete hcovered
    rw [← habove, happlied] at hstops
    exact ⟨hcomplete.trans hboth,hstops,happlied ▸ hg.increasing,hcovered,happlied ▸ hg.whole⟩
  · intro hg
    refine ⟨htip,?_,?_,?_,?_,?_⟩
    · rw [hheight, happlied, hboth]
      exact hg.complete
    · rw [← habove, happlied]
      exact hg.stops
    · rw [happlied]
      exact hg.increasing
    · rw [hheight, happlied]
      exact hg.covered
    · rw [happlied]
      exact hg.whole

/-- A sync leaves no gap exactly if the intervals of the index above the local height are, in its
order, a first part that is fetched whole and joins up from that height on, and others that lie
above and are passed over. For an empty index it answers 0, whatever the height is. -/
theorem repo_sync_leaves_no_gap_iff
    (h : syncFromRepo files (.ok intervals) indexerPath σ = .ok out) :
    LeavesNoGap intervals (getRuntimeTipHeight σ) out ↔
      (intervals = [] → getRuntimeTipHeight σ = 0) ∧
        Contiguous (getRuntimeTipHeight σ)
          (fetchedAbove files intervals (getRuntimeTipHeight σ)) := by
  by_cases hne : intervals = []
  · subst hne
    cases h
    constructor
    · intro hg
      exact ⟨fun _ => hg.tip,trivial⟩
    · intro hg
      refine ⟨hg.1 rfl,rfl,List.nil_prefix,by simp,?_,by simp⟩
      intro b hb hbh
      have hle : b ≤ 0 := hbh
      omega
  · rw [leavesNoGap_iff_gapless hne h, Gapless.iff_contiguous]
    exact ⟨fun hg => ⟨fun he => absurd he hne,hg⟩,And.right⟩

end Sync

/-- An interval with one pair in its diff, as a repository serves it. -/
def servedInterval (startHeight endHeight : Fin (2^32)) : RepoInterval where
  metadata := ⟨startHeight,endHeight,ascii "wasm/indexer.wasm_unknown.wasm"⟩
  wasm := .stored
  diff := some (u32le 1 ++ ascii "a" ++ u32le 1 ++ [endHeight.val.toUInt8])
  root := some [7]

/-- The same without its diff. -/
def missingInterval (startHeight endHeight : Fin (2^32)) : RepoInterval :=
  { servedInterval startHeight endHeight with diff := none }

def servedData (startHeight endHeight : Fin (2^32)) : DiffData where
  interval := (servedInterval startHeight endHeight).metadata
  wasmPath := ascii "indexer.wasm_unknown.wasm"
  diffData := u32le 1 ++ ascii "a" ++ u32le 1 ++ [endHeight.val.toUInt8]
  expectedRoot := [7]

/-- The second interval fails: the sync stops at the end of the first. -/
theorem repo_sync_leaves_no_gap_at_end :
    ∃ out, syncFromRepo [] (.ok [servedInterval 0 10,missingInterval 10 20]) none ∅ = .ok out ∧
      LeavesNoGap [servedInterval 0 10,missingInterval 10 20] 0 out := by
  obtain ⟨s,hs,hsync⟩ := syncFromRepo_eq
    (List.cons_ne_nil (servedInterval 0 10) [missingInterval 10 20]) [] none ∅
  have hsteps : fetchedAbove [] [servedInterval 0 10,missingInterval 10 20] 0 =
      [.sent (servedData 0 10),.failed (missingInterval 10 20).metadata] := by decide +kernel
  refine ⟨_,hsync,(repo_sync_leaves_no_gap_iff hsync).mpr ⟨fun _ => rfl,?_⟩⟩
  show Contiguous 0 (fetchedAbove [] [servedInterval 0 10,missingInterval 10 20] 0)
  rw [hsteps]
  refine .inl ⟨_,rfl,rfl,by decide,by decide +kernel,.inr ?_⟩
  intro u hu
  rw [List.mem_singleton] at hu
  subst hu
  exact ⟨by decide,.inl rfl⟩

/-- The first interval fails: the sync goes on to the second and returns its end. -/
theorem repo_sync_skips_interval :
    ∃ out, syncFromRepo [] (.ok [missingInterval 0 10,servedInterval 10 20]) none ∅ = .ok out ∧
      out.height = 20 ∧ ¬LeavesNoGap [missingInterval 0 10,servedInterval 10 20] 0 out := by
  obtain ⟨s,hs,hsync⟩ := syncFromRepo_eq
    (List.cons_ne_nil (missingInterval 0 10) [servedInterval 10 20]) [] none ∅
  obtain ⟨happlied,hheight,_⟩ := syncFromRepo_spec (List.cons_ne_nil _ _) hsync
  have hone : appliedFrom 0 (fetchedAbove [] [missingInterval 0 10,servedInterval 10 20] 0) =
      [servedData 10 20] := by decide +kernel
  have hA := happlied.trans hone
  refine ⟨_,hsync,?_,?_⟩
  · rw [hheight, hA]
    decide
  · intro hg
    obtain ⟨d,hd,hlow,_⟩ := hg.covered 1 (by decide) (by rw [hheight, hA]; decide)
    rw [hA, List.mem_singleton] at hd
    subst hd
    exact absurd hlow (by decide)

end Metashrew
