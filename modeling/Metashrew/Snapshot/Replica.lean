import Metashrew.Ledger.Histories
import Metashrew.Snapshot.RoundTrip

namespace Metashrew

open Bytes Versioned

section Chain

variable {blocks blocks' : List Block} {s e : Nat} {key : Bytes}

/-- Only the blocks up to `e` matter. -/
theorem changedPairs_congr (h : blocks'.take (e+1) = blocks.take (e+1)) :
    changedPairs blocks' s e = changedPairs blocks s e := by
  simp only [changedPairs, lastWrite, h]

end Chain

/-- Keys of the indexer that are text, with keys and values that fit. -/
def TextKeys (b : Block) : Prop :=
  ∀ kv ∈ b.flush.list, ¬Reserved kv.1 ∧ lossyText kv.1 = kv.1 ∧ PairFits kv

/-- The intervals follow each other from `c` to `e`. -/
def Chained : Nat → List WrittenInterval → Nat → Prop
  | c, [], e => c = e
  | c, w::ws, e => w.startHeight = c ∧ c ≤ w.endHeight ∧ Chained w.endHeight ws e

section Intervals

variable {blocks : List Block} {c e s0 : Nat} {ws : List WrittenInterval} {w : WrittenInterval}
  {key : Bytes}

theorem Chained.le (h : Chained c ws e) : c ≤ e := by
  induction ws generalizing c with
  | nil => exact le_of_eq h
  | cons w ws ih => exact h.2.1.trans (ih h.2.2)

theorem Chained.append (h : Chained c ws w.startHeight) (hw : w.startHeight ≤ w.endHeight) :
    Chained c (ws ++ [w]) w.endHeight := by
  induction ws generalizing c with
  | nil =>
    have hc : c = w.startHeight := h
    exact ⟨hc.symm,hc ▸ hw,rfl⟩
  | cons w' ws ih => exact ⟨h.1,h.2.1,ih h.2.2⟩

theorem Chained.bounds (h : Chained c ws e) : ∀ w ∈ ws, c ≤ w.startHeight ∧
    w.startHeight ≤ w.endHeight ∧ w.endHeight ≤ e := by
  induction ws generalizing c with
  | nil => exact fun w hw => absurd hw List.not_mem_nil
  | cons w ws ih =>
    obtain ⟨hstart,hle,hrest⟩ := h
    intro w' hw'
    rcases List.mem_cons.mp hw' with rfl | hw'
    · exact ⟨le_of_eq hstart.symm,hstart ▸ hle,hrest.le⟩
    · obtain ⟨h1,h2,h3⟩ := ih hrest w' hw'
      exact ⟨hle.trans h1,h2,h3⟩

/-- Without the intervals that end at 0 the chain is still one. -/
theorem Chained.filter (h : Chained c ws e) : Chained c (ws.filter fun w => 0 < w.endHeight) e := by
  induction ws generalizing c with
  | nil => exact h
  | cons w ws ih =>
    obtain ⟨hstart,hle,hrest⟩ := h
    by_cases hpos : 0 < w.endHeight
    · rw [List.filter_cons_of_pos (by simpa using hpos)]
      exact ⟨hstart,hle,ih hrest⟩
    · rw [List.filter_cons_of_neg (by simpa using hpos)]
      have hc : c = w.endHeight := by omega
      exact hc ▸ ih hrest

end Intervals

section Fetch

variable {ws : List WrittenInterval} {c e cur : Nat} {ds : List DiffData} {files : List Bytes}
  {indexerPath : Option Bytes} {out : RepoSynced}

private theorem splitOn_append (xs : Bytes) {suffix : Bytes} (hs : (47:UInt8) ∉ suffix) :
    ∃ before name, (xs ++ suffix).splitOn 47 = before ++ [name ++ suffix] := by
  rw [List.splitOn]
  induction xs with
  | nil =>
    refine ⟨[],[],?_⟩
    rw [List.nil_append, List.splitOnP_eq_singleton]
    · rfl
    · intro b hb
      rw [beq_eq_false_iff_ne]
      rintro rfl
      exact hs hb
  | cons x xs ih =>
    obtain ⟨before,name,hsplit⟩ := ih
    rw [List.cons_append, List.splitOnP_cons_eq_if_modifyHead, hsplit]
    by_cases hx : (x == 47) = true
    · exact ⟨[]::before,name,by rw [if_pos hx]; rfl⟩
    · rw [if_neg hx]
      cases before with
      | nil => exact ⟨[],x::name,rfl⟩
      | cons b bs => exact ⟨(x::b)::bs,name,rfl⟩

/-- The path of a written WASM file has a name. -/
theorem fileName_wasm (path : Bytes) : fileName (path ++ ascii ".wasm") ≠ none := by
  obtain ⟨before,name,hsplit⟩ := splitOn_append path (show (47:UInt8) ∉ ascii ".wasm" by decide)
  have hlen : ∀ text : Bytes, text.length < 5 → name ++ ascii ".wasm" ≠ text := by
    rintro text ht rfl
    rw [List.length_append, show (ascii ".wasm").length = 5 from rfl] at ht
    omega
  have hkept : [name ++ ascii ".wasm"].filter (fun c => c ≠ [] && c ≠ ascii ".") =
      [name ++ ascii ".wasm"] := by
    apply List.filter_eq_self.mpr
    intro c hc
    rw [List.mem_singleton.mp hc, Bool.and_eq_true, decide_eq_true_eq, decide_eq_true_eq]
    exact ⟨hlen [] (by decide),hlen (ascii ".") (by decide)⟩
  rw [fileName, hsplit, List.filter_append, hkept, List.getLast?_append, List.getLast?_singleton,
    Option.some_or]
  dsimp only
  rw [if_neg (hlen (ascii "..") (by decide))]
  exact Option.some_ne_none _

end Fetch

namespace SnapshotManager

theorem trackKeyChange_last (m : SnapshotManager) (key value : Bytes) :
    (m.trackKeyChange key value).lastSnapshotHeight = m.lastSnapshotHeight := by
  have hclear : (if m.maxTrackedChanges ≤ m.keyChanges.size then m.clearTrackedChanges
      else m).lastSnapshotHeight = m.lastSnapshotHeight := by
    split_ifs <;> rfl
  rw [trackKeyChange]
  by_cases hen : m.enabled = true
  · rw [if_pos hen]
    dsimp only
    by_cases happend : 47 ∈ lossyText key ∧ ¬lengthSuffix.isSuffixOf (lossyText key)
    · rw [if_pos happend]
      cases extractLogicalKv key value with
      | none => exact hclear
      | some kv => exact hclear
    · rw [if_neg happend]
      split_ifs <;> rfl
  · rw [if_neg hen]

theorem trackPairs_last (m : SnapshotManager) (kvs : List (Bytes × Bytes)) :
    (kvs.foldl (fun m kv => m.trackKeyChange kv.1 kv.2) m).lastSnapshotHeight =
      m.lastSnapshotHeight := by
  induction kvs generalizing m with
  | nil => rfl
  | cons kv kvs ih => rw [List.foldl_cons, ih, trackKeyChange_last]

theorem setCurrentHeight_last (m : SnapshotManager) (height : Nat) :
    (m.setCurrentHeight height).lastSnapshotHeight = m.lastSnapshotHeight := by
  rw [setCurrentHeight]
  split_ifs <;> rfl

theorem createSnapshot_named {m : SnapshotManager} {height : Nat} {stateRoot : Bytes}
    {w : WrittenInterval} (h : (m.createSnapshot height stateRoot).2 = some w) :
    fileName w.wasmFile ≠ none := by
  rw [createSnapshot] at h
  split_ifs at h
  cases h
  exact fileName_wasm _

end SnapshotManager

namespace SnapshotNode

variable {n : SnapshotNode} {s0 : Nat}

/-- What the actions of a source must meet besides: its keys are text, no rollback goes below the last
snapshot, and the snapshots go up to the tip at most. -/
def Replicates (n : SnapshotNode) : SnapshotAction → Prop
  | .block b => n.Keeps (.block b) ∧ TextKeys b
  | .rollback r => n.provider.manager.lastSnapshotHeight ≤ r
  | .snapshot height stateRoot => n.Keeps (.snapshot height stateRoot) ∧
      n.provider.manager.lastSnapshotHeight ≤ height ∧ height < n.blocks.length ∧ height < 2^32

/-- The snapshots of a source that tells its tracker nothing: each goes at least as far as the last. -/
def Advances (n : SnapshotNode) : SnapshotAction → Prop
  | .snapshot height _ => n.provider.manager.lastSnapshotHeight ≤ height ∧ height < 2^32
  | _ => True

/-- The intervals of the repository follow each other from `s0` to the last snapshot. -/
structure Listed (s0 : Nat) (n : SnapshotNode) : Prop where
  chained : Chained s0 (n.written.map Prod.fst) n.provider.manager.lastSnapshotHeight
  named : ∀ w ∈ n.written, fileName w.1.wasmFile ≠ none
  bound : n.written ≠ [] → n.provider.manager.lastSnapshotHeight < 2^32

/-- The repository has the changes of the canonical blocks from `s0` up to the last snapshot. -/
structure Serves (s0 : Nat) (n : SnapshotNode) : Prop where
  tracks : n.Tracks
  diffs : ∀ w ∈ n.written,
    w.1.diff = serializeDiff (changedPairs n.blocks w.1.startHeight w.1.endHeight)
  below : ∀ w ∈ n.written, w.1.endHeight < n.blocks.length
  listed : n.Listed s0
  text : ∀ i b, n.blocks[i]? = some b → s0 < i → TextKeys b

theorem Listed.start (blocks : List Block) (maxTrackedChanges : Nat) (runtimeManager : Option Nat) :
    (start blocks maxTrackedChanges runtimeManager).Listed (blocks.length-1) where
  chained := rfl
  named _ hw := absurd hw List.not_mem_nil
  bound h := absurd rfl h

/-- A snapshot adds one interval, from the last one to its height. -/
theorem Listed.snapshot {height : Nat} (hl : n.Listed s0) (told : Bool) (stateRoot : Bytes)
    (hen : n.provider.manager.enabled = true) (hlast : n.provider.manager.lastSnapshotHeight ≤ height)
    (hheight : height < 2^32) : (n.step told (.snapshot height stateRoot)).Listed s0 ∧
      ∃ w, (n.step told (.snapshot height stateRoot)).written = n.written ++ [(w,n.blocks)] ∧
        w.startHeight = n.provider.manager.lastSnapshotHeight ∧ w.endHeight = height ∧
        w.diff = serializeDiff (SnapshotManager.diffPairs n.provider.writer.incrementalChanges) := by
  obtain ⟨w,hsome,hstart,hend,hdiff,hafter⟩ :
      ∃ w, (n.provider.createSnapshot height stateRoot).2 = some w ∧ _ :=
    SnapshotProvider.createSnapshot_spec hen
  have hlog : (n.step told (.snapshot height stateRoot)).written = n.written ++ [(w,n.blocks)] := by
    show n.written ++ ((n.provider.createSnapshot height stateRoot).2.toList.map _) = _
    rw [hsome]
    rfl
  have hnew : (n.step told (.snapshot height stateRoot)).provider.manager.lastSnapshotHeight = height :=
    hafter.last
  refine ⟨⟨?_,?_,?_⟩,w,hlog,hstart,hend,hdiff⟩
  · rw [hlog, hnew, List.map_append, ← hend]
    apply Chained.append
    · rw [hstart]
      exact hl.chained
    · rw [hstart, hend]
      exact hlast
  · intro w' hw'
    rw [hlog, List.mem_append, List.mem_singleton] at hw'
    rcases hw' with hw' | rfl
    · exact hl.named w' hw'
    · exact SnapshotManager.createSnapshot_named hsome
  · rw [hnew]
    exact fun _ => hheight

theorem block_last (n : SnapshotNode) (b : Block) :
    (n.step true (.block b)).provider.manager.lastSnapshotHeight =
      n.provider.manager.lastSnapshotHeight := by
  have hkeep : ∀ m : SnapshotManager, (b.flush.list.foldl (fun m kv => m.trackKeyChange kv.1 kv.2)
      (m.setCurrentHeight n.blocks.length)).lastSnapshotHeight = m.lastSnapshotHeight := by
    intro m
    rw [SnapshotManager.trackPairs_last, SnapshotManager.setCurrentHeight_last]
  show (n.provider.updateTracker _).manager.lastSnapshotHeight = _
  rw [SnapshotProvider.updateTracker]
  cases n.provider.runtimeManager with
  | some m => rfl
  | none => exact hkeep n.provider.manager

theorem Serves.start (blocks : List Block) (maxTrackedChanges : Nat) (runtimeManager : Option Nat) :
    (start blocks maxTrackedChanges runtimeManager).Serves (blocks.length-1) where
  tracks := .start blocks maxTrackedChanges runtimeManager
  diffs w hw := absurd hw List.not_mem_nil
  below w hw := absurd hw List.not_mem_nil
  listed := .start blocks maxTrackedChanges runtimeManager
  text i b hb hi := by
    have hlt := (List.getElem?_eq_some_iff.mp hb).1
    change i < blocks.length at hlt
    omega

theorem Serves.step {a : SnapshotAction} (hs : n.Serves s0) (ha : n.Replicates a) :
    (n.step true a).Serves s0 := by
  cases a with
  | block b =>
    have hlast := block_last n b
    refine ⟨hs.tracks.block ha.1,?_,?_,⟨?_,hs.listed.named,?_⟩,?_⟩
    · intro w hw
      have hb := hs.below w hw
      rw [hs.diffs w hw]
      congr 1
      symm
      apply changedPairs_congr
      exact List.take_append_of_le_length (by omega)
    · intro w hw
      have hb := hs.below w hw
      show _ < (n.blocks ++ [b]).length
      rw [List.length_append]
      omega
    · rw [hlast]
      exact hs.listed.chained
    · rw [hlast]
      exact hs.listed.bound
    · intro i b' hb' hi
      have hget : (n.blocks ++ [b])[i]? = some b' := hb'
      rcases Nat.lt_or_ge i n.blocks.length with hlt | hge
      · rw [List.getElem?_append_left hlt] at hget
        exact hs.text i b' hget hi
      · rw [List.getElem?_append_right hge] at hget
        have hb0 := List.mem_of_getElem? hget
        rw [List.mem_singleton.mp hb0]
        exact ha.2
  | rollback r =>
    have hends : ∀ w ∈ n.written, w.1.endHeight ≤ r := fun w hw =>
      (hs.listed.chained.bounds w.1 (List.mem_map_of_mem hw)).2.2.trans ha
    refine ⟨hs.tracks.rollback,?_,?_,⟨hs.listed.chained,hs.listed.named,hs.listed.bound⟩,?_⟩
    · intro w hw
      have hle := hends w hw
      rw [hs.diffs w hw]
      congr 1
      symm
      apply changedPairs_congr
      show (n.blocks.take (r+1)).take _ = _
      rw [List.take_take, min_eq_left (by omega)]
    · intro w hw
      have hle := hends w hw
      have hb := hs.below w hw
      show _ < (n.blocks.take (r+1)).length
      rw [List.length_take]
      omega
    · intro i b hb hi
      have hget : (n.blocks.take (r+1))[i]? = some b := hb
      rw [List.getElem?_take] at hget
      split_ifs at hget
      exact hs.text i b hget hi
  | snapshot height stateRoot =>
    obtain ⟨hkeeps,hlast,htip,hheight⟩ := ha
    obtain ⟨hlisted,w,hlog,hstart,hend,hdiff⟩ :=
      hs.listed.snapshot true stateRoot hs.tracks.enabled.1 hlast hheight
    have hall : ∀ P : WrittenInterval × List Block → Prop, (∀ w ∈ n.written, P w) → P (w,n.blocks) →
        ∀ w' ∈ (n.step true (.snapshot height stateRoot)).written, P w' := by
      intro P hold hone w' hw'
      rw [hlog, List.mem_append, List.mem_singleton] at hw'
      rcases hw' with hw' | rfl
      · exact hold w' hw'
      · exact hone
    refine ⟨hs.tracks.snapshot hkeeps.1,?_,?_,hlisted,hs.text⟩
    · refine hall _ hs.diffs ?_
      rw [hdiff, hstart, hend, hs.tracks.diffPairs_eq hkeeps.1 hkeeps.2]
      rfl
    · refine hall _ hs.below ?_
      rw [hend]
      exact htip

theorem Serves.run {blocks : List Block} {maxTrackedChanges : Nat} {runtimeManager : Option Nat}
    (h : Steps.Run (fun n a => some (SnapshotNode.step true n a)) Replicates
      (.start blocks maxTrackedChanges runtimeManager) n) : n.Serves (blocks.length-1) := by
  apply h.invariant
  · exact .start blocks maxTrackedChanges runtimeManager
  · intro n a n' hn ha hstep
    cases hstep
    exact hn.step ha

end SnapshotNode

section Told

variable {n : SnapshotNode} {s0 : Nat} {files : List Bytes} {indexerPath : Option Bytes}
  {out : RepoSynced}

end Told

end Metashrew
