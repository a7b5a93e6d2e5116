import Mathlib
import Metashrew.Ledger.Reads
import Metashrew.Lib.Steps
import Metashrew.Snapshot.Manager

namespace Metashrew

open Bytes Versioned

/-- The logical key that the tracker keeps a pair under, if any. -/
def trackedAs (key : Bytes) : Option Bytes :=
  if 47 ∈ lossyText key ∧ ¬lengthSuffix.isSuffixOf (lossyText key) then
    (extractLogicalKv key []).map Prod.fst
  else if ¬(ascii "__INTERNAL").isPrefixOf (lossyText key) ∧
      ¬(ascii "smt:node:").isPrefixOf (lossyText key) then some key
  else none

theorem extractLogicalKv_value (key value : Bytes) :
    extractLogicalKv key value = ((extractLogicalKv key []).map Prod.fst).map fun k => (k,value) := by
  unfold extractLogicalKv
  dsimp only
  split_ifs
  all_goals first | rfl | skip
  cases rsplitSlash (lossyText key) with
  | none => rfl
  | some parts =>
    dsimp only
    split_ifs <;> rfl

namespace SnapshotManager

variable {m : SnapshotManager} {key value : Bytes} {kvs : List (Bytes × Bytes)} {height : Nat}

/-- A tracked change has its height. -/
def Paired (m : SnapshotManager) : Prop :=
  ∀ key, (KV.get m.keyChanges key).isSome = (KV.get m.keyChangeHeights key).isSome

/-- If the limit on tracked changes makes the tracker forget them, there are none. -/
def Calm (m : SnapshotManager) : Prop :=
  m.maxTrackedChanges ≤ m.keyChanges.size → m.keyChanges.isEmpty = true

/-- The tracker stays calm from pair to pair. -/
def CalmAlong : SnapshotManager → List (Bytes × Bytes) → Prop
  | _, [] => True
  | m, kv::kvs => m.Calm ∧ CalmAlong (m.trackKeyChange kv.1 kv.2) kvs

/-- The same of the check of the memory before a block. -/
def CalmBefore (m : SnapshotManager) (height : Nat) : Prop :=
  height % memoryCheckInterval = 0 → 500000000 < m.estimateMemoryUsage →
    m.keyChanges.isEmpty = true

/-- Two managers with the same tracked changes, switches and last snapshot. -/
structure SameChanges (m m' : SnapshotManager) : Prop where
  enabled : m'.enabled = m.enabled
  last : m'.lastSnapshotHeight = m.lastSnapshotHeight
  changes : m'.keyChanges = m.keyChanges
  heights : m'.keyChangeHeights = m.keyChangeHeights

theorem Paired.clear (hm : m.Paired) (h : m.keyChanges.isEmpty = true) :
    m.clearTrackedChanges.SameChanges m where
  enabled := rfl
  last := rfl
  changes := Std.ExtTreeMap.isEmpty_iff.mp h
  heights := by
    apply Std.ExtTreeMap.ext_getElem?
    intro key
    have hkey := hm key
    rw [Std.ExtTreeMap.isEmpty_iff.mp h, KV.get_empty, Option.isSome_none] at hkey
    have hnone : KV.get m.keyChangeHeights key = none := by
      rw [← Option.not_isSome_iff_eq_none, ← hkey]
      simp
    exact hnone.trans (KV.get_empty key).symm

theorem setCurrentHeight_spec (hm : m.Paired) (hcalm : m.CalmBefore height) :
    m.SameChanges (m.setCurrentHeight height) ∧
      (m.setCurrentHeight height).currentProcessingHeight = height := by
  rw [setCurrentHeight]
  by_cases h : height % memoryCheckInterval = 0 ∧
      500000000 < { m with currentProcessingHeight := height }.estimateMemoryUsage
  · have hsame := hm.clear (hcalm h.1 h.2)
    rw [if_pos h]
    exact ⟨⟨rfl,rfl,hsame.changes.symm,hsame.heights.symm⟩,rfl⟩
  · rw [if_neg h]
    exact ⟨⟨rfl,rfl,rfl,rfl⟩,rfl⟩

/-- A pair tracked as itself, with nothing forgotten. -/
theorem trackKeyChange_spec (henabled : m.enabled = true) (hm : m.Paired) (hcalm : m.Calm)
    (hkey : trackedAs key = some key) :
    SameChanges (m.record key value) (m.trackKeyChange key value) ∧
      (m.trackKeyChange key value).currentProcessingHeight = m.currentProcessingHeight := by
  have hcleared : m.SameChanges
      (if m.maxTrackedChanges ≤ m.keyChanges.size then m.clearTrackedChanges else m) ∧
      (if m.maxTrackedChanges ≤ m.keyChanges.size then m.clearTrackedChanges
        else m).currentProcessingHeight = m.currentProcessingHeight := by
    by_cases hmax : m.maxTrackedChanges ≤ m.keyChanges.size
    · have hsame := hm.clear (hcalm hmax)
      rw [if_pos hmax]
      exact ⟨⟨rfl,rfl,hsame.changes.symm,hsame.heights.symm⟩,rfl⟩
    · rw [if_neg hmax]
      exact ⟨⟨rfl,rfl,rfl,rfl⟩,rfl⟩
  rw [trackKeyChange, if_pos henabled]
  generalize (if m.maxTrackedChanges ≤ m.keyChanges.size then m.clearTrackedChanges else m) = m'
    at hcleared ⊢
  obtain ⟨⟨hen,hlast,hchanges,hheights⟩,hcur⟩ := hcleared
  rw [trackedAs] at hkey
  dsimp only
  by_cases hslash : 47 ∈ lossyText key ∧ ¬lengthSuffix.isSuffixOf (lossyText key)
  · rw [if_pos hslash] at hkey ⊢
    rw [extractLogicalKv_value, hkey]
    refine ⟨⟨hen,hlast,?_,?_⟩,hcur⟩
    · show m'.keyChanges.insert key value = m.keyChanges.insert key value
      rw [hchanges]
    · show m'.keyChangeHeights.insert key m'.currentProcessingHeight =
        m.keyChangeHeights.insert key m.currentProcessingHeight
      rw [hheights, hcur]
  · rw [if_neg hslash] at hkey ⊢
    split_ifs at hkey with hplain
    rw [if_pos hplain]
    refine ⟨⟨hen,hlast,?_,?_⟩,hcur⟩
    · show m'.keyChanges.insert key value = m.keyChanges.insert key value
      rw [hchanges]
    · show m'.keyChangeHeights.insert key m'.currentProcessingHeight =
        m.keyChangeHeights.insert key m.currentProcessingHeight
      rw [hheights, hcur]

/-- What tracking pairs does to the changes. -/
structure AfterPairs (m : SnapshotManager) (kvs : List (Bytes × Bytes)) (m' : SnapshotManager) :
    Prop where
  enabled : m'.enabled = m.enabled
  last : m'.lastSnapshotHeight = m.lastSnapshotHeight
  changes : ∀ key, KV.get m'.keyChanges key =
    (updatesOf key kvs).getLast?.or (KV.get m.keyChanges key)
  heights : ∀ key, KV.get m'.keyChangeHeights key =
    if updatesOf key kvs = [] then KV.get m.keyChangeHeights key
    else some m.currentProcessingHeight

theorem AfterPairs.paired {m' : SnapshotManager} (h : AfterPairs m kvs m') (hm : m.Paired) :
    m'.Paired := by
  intro key
  rw [h.changes, h.heights]
  by_cases hnil : updatesOf key kvs = []
  · rw [if_pos hnil, hnil, ← hm key]
    rfl
  · rw [if_neg hnil, List.getLast?_eq_some_getLast hnil]
    rfl

theorem get_record_changes (m : SnapshotManager) (key value k : Bytes) :
    KV.get (m.record key value).keyChanges k =
      if key = k then some value else KV.get m.keyChanges k :=
  KV.get_applyOp m.keyChanges (.put key value) k

theorem get_record_heights (m : SnapshotManager) (key value k : Bytes) :
    KV.get (m.record key value).keyChangeHeights k =
      if key = k then some m.currentProcessingHeight else KV.get m.keyChangeHeights k :=
  KV.get_applyOp m.keyChangeHeights (.put key m.currentProcessingHeight) k

theorem record_paired (hm : m.Paired) (key value : Bytes) : (m.record key value).Paired := by
  intro k
  rw [get_record_changes, get_record_heights]
  by_cases hk : key = k
  · rw [if_pos hk, if_pos hk]
    rfl
  · rw [if_neg hk, if_neg hk]
    exact hm k

theorem trackPairs_spec (henabled : m.enabled = true) (hm : m.Paired) (hcalm : m.CalmAlong kvs)
    (hkeys : ∀ kv ∈ kvs, trackedAs kv.1 = some kv.1) :
    AfterPairs m kvs (kvs.foldl (fun m kv => m.trackKeyChange kv.1 kv.2) m) := by
  induction kvs generalizing m with
  | nil => exact ⟨rfl,rfl,fun _ => rfl,fun _ => rfl⟩
  | cons kv kvs ih =>
    rw [List.forall_mem_cons] at hkeys
    have htracked : SameChanges (m.record kv.1 kv.2) (m.trackKeyChange kv.1 kv.2) ∧
        (m.trackKeyChange kv.1 kv.2).currentProcessingHeight = m.currentProcessingHeight :=
      trackKeyChange_spec henabled hm hcalm.1 hkeys.1
    obtain ⟨hsame,hcur⟩ := htracked
    have hpaired : (m.trackKeyChange kv.1 kv.2).Paired := by
      intro key
      rw [hsame.changes, hsame.heights]
      exact record_paired hm kv.1 kv.2 key
    have hrest := ih (hsame.enabled.trans henabled) hpaired hcalm.2 hkeys.2
    refine ⟨hrest.enabled.trans hsame.enabled,hrest.last.trans hsame.last,?_,?_⟩
    · intro key
      rw [List.foldl_cons, hrest.changes, hsame.changes, get_record_changes, updatesOf_cons]
      by_cases hk : kv.1 = key
      · rw [if_pos hk, if_pos hk, List.getLast?_cons]
        cases (updatesOf key kvs).getLast? <;> rfl
      · rw [if_neg hk, if_neg hk]
    · intro key
      rw [List.foldl_cons, hrest.heights, hsame.heights, get_record_heights, hcur, updatesOf_cons]
      by_cases hk : kv.1 = key
      · rw [if_pos hk, if_pos hk, if_neg (List.cons_ne_nil _ _), ite_self]
      · rw [if_neg hk, if_neg hk]

/-- A change is written if it is above the last snapshot. -/
theorem get_incrementalChanges (hm : m.Paired) (key : Bytes) :
    KV.get m.incrementalChanges key =
      if (KV.get m.keyChangeHeights key).any fun h => m.lastSnapshotHeight < h then
        KV.get m.keyChanges key
      else none := by
  have hkey := hm key
  rw [incrementalChanges, KV.get, Std.ExtTreeMap.getElem?_filter']
  show Option.filter _ (KV.get m.keyChanges key) = _
  cases hh : KV.get m.keyChangeHeights key with
  | none =>
    rw [hh, Option.isSome_none, Option.isSome_eq_false_iff, Option.isNone_iff_eq_none] at hkey
    rw [hkey]
    rfl
  | some h =>
    cases KV.get m.keyChanges key with
    | none => simp
    | some v => simp [Option.filter]

end SnapshotManager

/-- The keys that a block sets. -/
def Block.setKeys (b : Block) : List Bytes := b.flush.list.map Prod.fst

/-- The keys of the blocks above a height, with the heights of the blocks. -/
def droppedAbove (r : Nat) (blocks : List Block) : List (Bytes × Nat) :=
  (blocks.zipIdx.drop (r+1)).flatMap fun b => b.1.setKeys.map fun key => (key,b.2)

/-- The keys that the blocks above `s` and up to `e` change, with their values at height `e`. -/
def changedPairs (blocks : List Block) (s e : Nat) : List (Bytes × Bytes) :=
  (KV.sortedKeys (((blocks.take (e+1)).drop (s+1)).flatMap Block.setKeys)).map fun key =>
    (key,(lastWrite blocks e key).getD [])

/-- A node with tracking on. The canonical blocks start at height 0; `dropped` lists what rolled-back
blocks have set, with their heights, as long as no block has set the key again; `written` are the
intervals of the repository, each with the canonical blocks at that time. -/
structure SnapshotNode where
  blocks : List Block
  provider : SnapshotProvider
  dropped : List (Bytes × Nat)
  written : List (WrittenInterval × List Block)

inductive SnapshotAction where
  | block (b : Block)
  | rollback (height : Nat)
  | snapshot (height : Nat) (stateRoot : Bytes)

namespace SnapshotNode

/-- The provider hears nothing of a block, unless a caller tells it. -/
def step (told : Bool) (n : SnapshotNode) : SnapshotAction → SnapshotNode
  | .block b => { n with
      blocks := n.blocks ++ [b]
      provider := if told then n.provider.trackBlock n.blocks.length b.flush.list else n.provider
      dropped := n.dropped.filter fun d => d.1 ∉ b.setKeys }
  | .rollback height => { n with
      blocks := n.blocks.take (height+1)
      dropped := n.dropped ++ droppedAbove height n.blocks }
  | .snapshot height stateRoot =>
    let (provider,written) := n.provider.createSnapshot height stateRoot
    { n with
      provider := provider
      written := n.written ++ written.toList.map fun w => (w,n.blocks) }

/-- A node at the tip of its blocks, before the first tracked block. -/
def start (blocks : List Block) (maxTrackedChanges : Nat) (runtimeManager : Option Nat) :
    SnapshotNode where
  blocks := blocks
  provider := .initialized (blocks.length-1) maxTrackedChanges runtimeManager
  dropped := []
  written := []

/-- What an action must meet for the diffs of a tracker that is told to be right. A block sets keys
that are tracked as themselves, and the tracker forgets nothing at it. A snapshot is taken below no
block that sets a key, and after each rolled-back block above the last snapshot its keys have been set
again. -/
def Keeps (n : SnapshotNode) : SnapshotAction → Prop
  | .block b => (∀ key ∈ b.setKeys, trackedAs key = some key) ∧
      n.provider.tracker.CalmBefore n.blocks.length ∧
      (n.provider.tracker.setCurrentHeight n.blocks.length).CalmAlong b.flush.list
  | .rollback _ => True
  | .snapshot height _ => (∀ b ∈ n.blocks.drop (height+1), b.setKeys = []) ∧
      ∀ d ∈ n.dropped, d.2 ≤ n.provider.manager.lastSnapshotHeight

end SnapshotNode

section Chain

variable {blocks : List Block} {b : Block} {key : Bytes} {r h : Nat} {v : Bytes}

/-- The last write of a key, with its height. -/
def latestWrite (blocks : List Block) (key : Bytes) : Option (Nat × Bytes) :=
  (writesOf key 0 blocks).getLast?

theorem mem_setKeys : key ∈ b.setKeys ↔ updatesOf key b.flush.list ≠ [] := by
  rw [Block.setKeys, List.mem_map, ne_eq, updatesOf_eq_nil]
  simp

theorem updatesOf_of_not_set (h : key ∉ b.setKeys) : updatesOf key b.flush.list = [] := by
  by_contra hne
  exact h (mem_setKeys.mpr hne)

theorem latestWrite_append_of_set (h : key ∈ b.setKeys) : latestWrite (blocks ++ [b]) key =
    (updatesOf key b.flush.list).getLast?.map fun v => (blocks.length,v) := by
  have hne := mem_setKeys.mp h
  have hone : writesOf key (0+blocks.length) [b] =
      (updatesOf key b.flush.list).map fun v => (blocks.length,v) := by
    rw [writesOf, writesOf, List.append_nil, Nat.zero_add]
  rw [latestWrite, writesOf_append, hone, List.getLast?_append, List.getLast?_map,
    List.getLast?_eq_some_getLast hne]
  rfl

theorem latestWrite_append_of_not_set (h : key ∉ b.setKeys) :
    latestWrite (blocks ++ [b]) key = latestWrite blocks key := by
  rw [latestWrite, writesOf_append, writesOf, updatesOf_of_not_set h, writesOf, List.map_nil, List.append_nil,
    List.append_nil, latestWrite]

theorem latestWrite_lt (h : latestWrite blocks key = some (r,v)) : r < blocks.length := by
  have hlt := writesOf_lt (List.mem_of_getLast? h)
  rwa [Nat.zero_add] at hlt

theorem mem_droppedAbove : (key,h) ∈ droppedAbove r blocks ↔
    r < h ∧ ∃ b, blocks[h]? = some b ∧ key ∈ b.setKeys := by
  rw [droppedAbove, List.mem_flatMap]
  constructor
  · intro hmem
    obtain ⟨⟨b,i⟩,hb,hkey⟩ := hmem
    obtain ⟨k,hk,hpair⟩ := List.mem_map.mp hkey
    cases hpair
    obtain ⟨n,hn⟩ := List.mem_iff_getElem?.mp hb
    rw [List.getElem?_drop, List.getElem?_zipIdx] at hn
    obtain ⟨b',hb',he⟩ := Option.map_eq_some_iff.mp hn
    cases he
    refine ⟨by omega,b,?_,hk⟩
    rw [Nat.zero_add]
    exact hb'
  · intro hmem
    obtain ⟨hr,b,hb,hk⟩ := hmem
    refine ⟨(b,h),?_,List.mem_map.mpr ⟨key,hk,rfl⟩⟩
    apply List.mem_iff_getElem?.mpr
    refine ⟨h-(r+1),?_⟩
    have hh : r+1+(h-(r+1)) = h := by omega
    rw [List.getElem?_drop, List.getElem?_zipIdx, hh, hb, Nat.zero_add]
    rfl

/-- A write above `r` is one that a rollback to `r` drops. -/
theorem mem_droppedAbove_of_write (hw : (h,v) ∈ writesOf key 0 blocks) (hr : r < h) :
    (key,h) ∈ droppedAbove r blocks := by
  obtain ⟨_,b,hb,hv⟩ := mem_writesOf hw
  refine mem_droppedAbove.mpr ⟨hr,b,hb,mem_setKeys.mpr ?_⟩
  exact List.ne_nil_of_mem hv

/-- Blocks that do not set a key are not seen by its last write. -/
theorem latestWrite_take (hnot : ∀ h, (key,h) ∉ droppedAbove r blocks) :
    latestWrite (blocks.take (r+1)) key = latestWrite blocks key := by
  have htake : writesOf key 0 (blocks.take (r+1)) = upTo r (writesOf key 0 blocks) :=
    (writesOf_upTo key 0 r blocks).symm
  rw [latestWrite, htake, upTo_of_le, latestWrite]
  intro e he
  by_contra hlt
  exact hnot e.1 (mem_droppedAbove_of_write he (by omega))

theorem mem_writesOf_of_set {start : Nat} (hb : blocks[h]? = some b) (hk : key ∈ b.setKeys) :
    ∃ v, (start+h,v) ∈ writesOf key start blocks := by
  induction blocks generalizing start h with
  | nil => cases hb
  | cons b' bs ih =>
    cases h with
    | zero =>
      cases hb
      obtain ⟨v,hv⟩ := List.exists_mem_of_ne_nil _ (mem_setKeys.mp hk)
      refine ⟨v,List.mem_append_left _ ?_⟩
      exact List.mem_map_of_mem hv
    | succ h =>
      have hrest : ∃ v, (start+1+h,v) ∈ writesOf key (start+1) bs := ih hb
      obtain ⟨v,hv⟩ := hrest
      refine ⟨v,List.mem_append_right _ ?_⟩
      have hstart : start+(h+1) = start+1+h := by omega
      rwa [hstart]

/-- When a rollback drops a write of a key, it drops the last one. -/
theorem latestWrite_dropped (hmem : (key,h) ∈ droppedAbove r blocks) :
    ∃ h' v, latestWrite blocks key = some (h',v) ∧ (key,h') ∈ droppedAbove r blocks := by
  obtain ⟨hr,b,hb,hk⟩ := mem_droppedAbove.mp hmem
  have hset : ∃ v, (0+h,v) ∈ writesOf key 0 blocks := mem_writesOf_of_set hb hk
  obtain ⟨v,hv⟩ := hset
  rw [Nat.zero_add] at hv
  have hne := List.ne_nil_of_mem hv
  have hle : h ≤ ((writesOf key 0 blocks).getLast hne).1 :=
    (writesOf_ordered key 0 blocks).rel_getLast hv
  refine ⟨_,_,List.getLast?_eq_some_getLast hne,?_⟩
  exact mem_droppedAbove_of_write (List.getLast_mem hne) (by omega)

/-- Above a height no block sets a key. -/
def QuietAbove (e : Nat) (blocks : List Block) : Prop :=
  ∀ b ∈ blocks.drop (e+1), b.setKeys = []

theorem QuietAbove.write_le {e : Nat} (hq : QuietAbove e blocks)
    (hw : (h,v) ∈ writesOf key 0 blocks) : h ≤ e := by
  obtain ⟨_,b,hb,hv⟩ := mem_writesOf hw
  by_contra hlt
  have hdrop : b ∈ blocks.drop (e+1) := by
    apply List.mem_iff_getElem?.mpr
    refine ⟨h-(e+1),?_⟩
    have hh : e+1+(h-(e+1)) = h-0 := by omega
    rw [List.getElem?_drop, hh]
    exact hb
  have hset : key ∈ b.setKeys := mem_setKeys.mpr (List.ne_nil_of_mem hv)
  rw [hq b hdrop] at hset
  cases hset

theorem QuietAbove.lastWrite_eq {e : Nat} (hq : QuietAbove e blocks) (key : Bytes) :
    lastWrite blocks e key = (latestWrite blocks key).map Prod.snd := by
  rw [← asOf_writesOf, asOf, upTo_of_le, latestWrite]
  intro w hw
  exact hq.write_le hw

end Chain

namespace SnapshotProvider

variable {p : SnapshotProvider} {height : Nat} {stateRoot : Bytes}

theorem tracker_updateTracker (p : SnapshotProvider) (f : SnapshotManager → SnapshotManager) :
    (p.updateTracker f).tracker = f p.tracker := by
  rw [updateTracker, tracker, tracker]
  cases p.runtimeManager <;> rfl

theorem manager_updateTracker {f : SnapshotManager → SnapshotManager}
    (hen : (f p.tracker).enabled = p.tracker.enabled)
    (hlast : (f p.tracker).lastSnapshotHeight = p.tracker.lastSnapshotHeight) :
    (p.updateTracker f).manager.enabled = p.manager.enabled ∧
      (p.updateTracker f).manager.lastSnapshotHeight = p.manager.lastSnapshotHeight := by
  rw [tracker] at hen hlast
  rw [updateTracker]
  cases h : p.runtimeManager with
  | some m => exact ⟨rfl,rfl⟩
  | none =>
    rw [h] at hen hlast
    exact ⟨hen,hlast⟩

/-- The writer has the tracked changes and the last snapshot of the own manager. -/
theorem writer_spec (p : SnapshotProvider) : p.writer.enabled = p.manager.enabled ∧
    p.writer.lastSnapshotHeight = p.manager.lastSnapshotHeight ∧
    p.writer.keyChanges = p.tracker.keyChanges ∧
    p.writer.keyChangeHeights = p.tracker.keyChangeHeights := by
  rw [writer, tracker]
  cases p.runtimeManager <;> exact ⟨rfl,rfl,rfl,rfl⟩

/-- What is left of the tracked changes after a snapshot. -/
structure AfterSnapshot (p : SnapshotProvider) (height : Nat) (p' : SnapshotProvider) : Prop where
  enabled : p'.manager.enabled = p.manager.enabled ∧ p'.tracker.enabled = p.tracker.enabled
  last : p'.manager.lastSnapshotHeight = height
  kept : ∀ key, (KV.get p'.tracker.keyChanges key = KV.get p.tracker.keyChanges key ∧
      KV.get p'.tracker.keyChangeHeights key = KV.get p.tracker.keyChangeHeights key) ∨
    KV.get p'.tracker.keyChanges key = none ∧ KV.get p'.tracker.keyChangeHeights key = none

theorem createSnapshot_spec (hen : p.manager.enabled = true) : ∃ w,
    (p.createSnapshot height stateRoot).2 = some w ∧
      w.startHeight = p.manager.lastSnapshotHeight ∧ w.endHeight = height ∧
      w.diff = serializeDiff (SnapshotManager.diffPairs p.writer.incrementalChanges) ∧
      p.AfterSnapshot height (p.createSnapshot height stateRoot).1 := by
  obtain ⟨hwen,hwlast,hchanges,hheights⟩ := p.writer_spec
  rw [createSnapshot, SnapshotManager.createSnapshot, if_pos (hwen.trans hen)]
  refine ⟨_,rfl,hwlast,rfl,rfl,⟨⟨hwen,?_⟩,rfl,?_⟩⟩
  · rw [tracker, tracker]
    cases hr : p.runtimeManager with
    | some m => rfl
    | none => exact hwen
  · intro key
    rw [tracker]
    cases hr : p.runtimeManager with
    | some m =>
      left
      rw [tracker, hr]
      exact ⟨rfl,rfl⟩
    | none =>
      show (KV.get (KV.write p.writer.keyChanges _) key = _ ∧
        KV.get (KV.write p.writer.keyChangeHeights _) key = _) ∨
        KV.get (KV.write p.writer.keyChanges _) key = none ∧
          KV.get (KV.write p.writer.keyChangeHeights _) key = none
      rw [KV.get_write_deletes, KV.get_write_deletes, hchanges, hheights]
      by_cases hmem : key ∈ KV.sortedKeys p.writer.incrementalChanges.keys
      · right
        rw [if_pos hmem, if_pos hmem]
        exact ⟨rfl,rfl⟩
      · left
        rw [if_neg hmem, if_neg hmem]
        exact ⟨rfl,rfl⟩

end SnapshotProvider

namespace SnapshotNode

variable {n : SnapshotNode}

/-- Outside the dropped keys the tracked changes are the last writes of the canonical blocks, and
each last write above the last snapshot is tracked. A dropped key is tracked with a height at which
it has been dropped. -/
structure Tracks (n : SnapshotNode) : Prop where
  enabled : n.provider.manager.enabled = true ∧ n.provider.tracker.enabled = true
  paired : n.provider.tracker.Paired
  current : ∀ key h v, key ∉ n.dropped.map Prod.fst →
    KV.get n.provider.tracker.keyChangeHeights key = some h →
    KV.get n.provider.tracker.keyChanges key = some v → latestWrite n.blocks key = some (h,v)
  stale : ∀ key h, key ∈ n.dropped.map Prod.fst →
    KV.get n.provider.tracker.keyChangeHeights key = some h → (key,h) ∈ n.dropped
  covers : ∀ key h v, latestWrite n.blocks key = some (h,v) →
    n.provider.manager.lastSnapshotHeight < h →
    ∃ h', KV.get n.provider.tracker.keyChangeHeights key = some h' ∧ h ≤ h'

theorem Tracks.start (blocks : List Block) (maxTrackedChanges : Nat)
    (runtimeManager : Option Nat) : (start blocks maxTrackedChanges runtimeManager).Tracks := by
  have hempty : (SnapshotNode.start blocks maxTrackedChanges
      runtimeManager).provider.tracker.keyChanges = ∅ ∧ (SnapshotNode.start blocks maxTrackedChanges
      runtimeManager).provider.tracker.keyChangeHeights = ∅ := by
    cases runtimeManager <;> exact ⟨rfl,rfl⟩
  refine ⟨?_,?_,?_,?_,?_⟩
  · cases runtimeManager <;> exact ⟨rfl,rfl⟩
  · intro key
    rw [hempty.1, hempty.2, KV.get_empty, KV.get_empty]
    rfl
  · intro key h v _ hh
    rw [hempty.2, KV.get_empty] at hh
    cases hh
  · intro key h hmem
    cases hmem
  · intro key h v hw hlt
    have hlen := latestWrite_lt hw
    have hlast : blocks.length-1 < h := hlt
    have hblocks : h < blocks.length := hlen
    omega

/-- A block takes its keys out of the dropped ones. -/
theorem mem_dropped_block {b : Block} {key : Bytes} :
    key ∈ (n.step true (.block b)).dropped.map Prod.fst ↔
      key ∈ n.dropped.map Prod.fst ∧ key ∉ b.setKeys := by
  show key ∈ (n.dropped.filter fun d => d.1 ∉ b.setKeys).map Prod.fst ↔ _
  simp only [List.mem_map, List.mem_filter, decide_eq_true_eq]
  constructor
  · intro h
    obtain ⟨d,⟨hd,hset⟩,rfl⟩ := h
    exact ⟨⟨d,hd,rfl⟩,hset⟩
  · intro h
    obtain ⟨⟨d,hd,rfl⟩,hset⟩ := h
    exact ⟨d,⟨hd,hset⟩,rfl⟩

theorem Tracks.block {b : Block} (ht : n.Tracks) (hk : n.Keeps (.block b)) :
    (n.step true (.block b)).Tracks := by
  obtain ⟨hkeys,hbefore,hcalm⟩ := hk
  obtain ⟨hsame,hcur⟩ := SnapshotManager.setCurrentHeight_spec ht.paired hbefore
  have hpaired : (n.provider.tracker.setCurrentHeight n.blocks.length).Paired := by
    intro key
    rw [hsame.changes, hsame.heights]
    exact ht.paired key
  have hafter := SnapshotManager.trackPairs_spec (hsame.enabled.trans ht.enabled.2) hpaired hcalm
    fun kv hkv => hkeys kv.1 (List.mem_map_of_mem hkv)
  have htracker : (n.step true (.block b)).provider.tracker =
      b.flush.list.foldl (fun m kv => m.trackKeyChange kv.1 kv.2)
        (n.provider.tracker.setCurrentHeight n.blocks.length) :=
    SnapshotProvider.tracker_updateTracker ..
  have hmanager : (n.step true (.block b)).provider.manager.enabled = n.provider.manager.enabled ∧
      (n.step true (.block b)).provider.manager.lastSnapshotHeight =
        n.provider.manager.lastSnapshotHeight :=
    SnapshotProvider.manager_updateTracker (hafter.enabled.trans hsame.enabled)
      (hafter.last.trans hsame.last)
  rw [← htracker] at hafter
  have hchanges := hafter.changes
  have hheights := hafter.heights
  rw [hsame.changes] at hchanges
  rw [hsame.heights, hcur] at hheights
  refine ⟨⟨hmanager.1.trans ht.enabled.1,?_⟩,hafter.paired hpaired,?_,?_,?_⟩
  · exact (hafter.enabled.trans hsame.enabled).trans ht.enabled.2
  · intro key h v hnot hh hv
    rw [hheights] at hh
    rw [hchanges] at hv
    by_cases hset : key ∈ b.setKeys
    · rw [if_neg (mem_setKeys.mp hset)] at hh
      cases hh
      show latestWrite (n.blocks ++ [b]) key = _
      rw [latestWrite_append_of_set hset]
      rw [List.getLast?_eq_some_getLast (mem_setKeys.mp hset)] at hv ⊢
      cases hv
      rfl
    · have hnil := updatesOf_of_not_set hset
      rw [if_pos hnil] at hh
      rw [hnil] at hv
      show latestWrite (n.blocks ++ [b]) key = _
      rw [latestWrite_append_of_not_set hset]
      apply ht.current key h v _ hh hv
      intro hd
      exact hnot (mem_dropped_block.mpr ⟨hd,hset⟩)
  · intro key h hd hh
    obtain ⟨hold,hset⟩ := mem_dropped_block.mp hd
    rw [hheights, if_pos (updatesOf_of_not_set hset)] at hh
    apply List.mem_filter.mpr
    exact ⟨ht.stale key h hold hh,by simpa using hset⟩
  · intro key h v hw hlt
    rw [hmanager.2] at hlt
    rw [hheights]
    have hlatest : latestWrite (n.blocks ++ [b]) key = some (h,v) := hw
    by_cases hset : key ∈ b.setKeys
    · rw [if_neg (mem_setKeys.mp hset)]
      refine ⟨_,rfl,?_⟩
      have hlen := latestWrite_lt hlatest
      rw [List.length_append, List.length_singleton] at hlen
      omega
    · have hnil := updatesOf_of_not_set hset
      rw [latestWrite_append_of_not_set hset] at hlatest
      rw [if_pos hnil]
      exact ht.covers key h v hlatest hlt

theorem Tracks.rollback {r : Nat} (ht : n.Tracks) : (n.step true (.rollback r)).Tracks := by
  have hdropped : ∀ key, key ∉ (n.step true (.rollback r)).dropped.map Prod.fst →
      key ∉ n.dropped.map Prod.fst ∧ ∀ h, (key,h) ∉ droppedAbove r n.blocks := by
    intro key hnot
    have happ : (n.step true (.rollback r)).dropped = n.dropped ++ droppedAbove r n.blocks := rfl
    rw [happ, List.map_append, List.mem_append, not_or] at hnot
    refine ⟨hnot.1,fun h hmem => hnot.2 ?_⟩
    exact List.mem_map.mpr ⟨_,hmem,rfl⟩
  refine ⟨ht.enabled,ht.paired,?_,?_,?_⟩
  · intro key h v hnot hh hv
    obtain ⟨hold,habove⟩ := hdropped key hnot
    show latestWrite (n.blocks.take (r+1)) key = _
    rw [latestWrite_take habove]
    exact ht.current key h v hold hh hv
  · intro key h hd hh
    show (key,h) ∈ n.dropped ++ droppedAbove r n.blocks
    rw [List.mem_append]
    by_cases hold : key ∈ n.dropped.map Prod.fst
    · exact .inl (ht.stale key h hold hh)
    · right
      obtain ⟨⟨key',h₀⟩,hmem,rfl⟩ := List.mem_map.mp hd
      have habove : (key',h₀) ∈ droppedAbove r n.blocks := by
        rcases List.mem_append.mp hmem with hin | hin
        · exact absurd (List.mem_map.mpr ⟨_,hin,rfl⟩) hold
        · exact hin
      -- what is tracked is the last write, and it is above `r` too
      obtain ⟨h',v,hlatest,hdrop⟩ := latestWrite_dropped habove
      have hheight : KV.get n.provider.tracker.keyChangeHeights key' = some h := hh
      have hsome := ht.paired key'
      rw [hheight, Option.isSome_some] at hsome
      obtain ⟨w,hw⟩ := Option.isSome_iff_exists.mp hsome
      have hcur := ht.current key' h w hold hh hw
      rw [hlatest] at hcur
      cases hcur
      exact hdrop
  · intro key h v hw hlt
    have hlatest : latestWrite (n.blocks.take (r+1)) key = some (h,v) := hw
    have hmem := List.mem_of_getLast? hlatest
    have htake : writesOf key 0 (n.blocks.take (r+1)) = upTo r (writesOf key 0 n.blocks) :=
      (writesOf_upTo key 0 r n.blocks).symm
    rw [htake] at hmem
    have hin := (mem_upTo.mp hmem).1
    have hne := List.ne_nil_of_mem hin
    have hle : h ≤ ((writesOf key 0 n.blocks).getLast hne).1 :=
      (writesOf_ordered key 0 n.blocks).rel_getLast hin
    obtain ⟨h',hh',hle'⟩ := ht.covers key _ _ (List.getLast?_eq_some_getLast hne)
      (Nat.lt_of_lt_of_le hlt hle)
    exact ⟨h',hh',hle.trans hle'⟩

theorem Tracks.snapshot {height : Nat} {stateRoot : Bytes} (ht : n.Tracks)
    (hq : QuietAbove height n.blocks) : (n.step true (.snapshot height stateRoot)).Tracks := by
  have hafter : n.provider.AfterSnapshot height (n.provider.createSnapshot height stateRoot).1 := by
    obtain ⟨w,_,_,_,_,h⟩ := SnapshotProvider.createSnapshot_spec ht.enabled.1
    exact h
  have hkept : ∀ key h,
      KV.get (n.step true (.snapshot height stateRoot)).provider.tracker.keyChangeHeights key = some h →
      KV.get n.provider.tracker.keyChangeHeights key = some h ∧
        KV.get (n.step true (.snapshot height stateRoot)).provider.tracker.keyChanges key =
          KV.get n.provider.tracker.keyChanges key := by
    intro key h hh
    rcases hafter.kept key with hsame | hnone
    · exact ⟨hsame.2.symm.trans hh,hsame.1⟩
    · exact absurd (hnone.2.symm.trans hh) (by simp)
  refine ⟨⟨hafter.enabled.1.trans ht.enabled.1,hafter.enabled.2.trans ht.enabled.2⟩,?_,?_,?_,?_⟩
  · intro key
    rcases hafter.kept key with hsame | hnone
    · show (KV.get (n.provider.createSnapshot height stateRoot).1.tracker.keyChanges key).isSome = _
      rw [hsame.1]
      show _ = (KV.get (n.provider.createSnapshot height
        stateRoot).1.tracker.keyChangeHeights key).isSome
      rw [hsame.2]
      exact ht.paired key
    · show (KV.get (n.provider.createSnapshot height stateRoot).1.tracker.keyChanges key).isSome =
        (KV.get (n.provider.createSnapshot height stateRoot).1.tracker.keyChangeHeights key).isSome
      rw [hnone.1, hnone.2]
      rfl
  · intro key h v hnot hh hv
    obtain ⟨hold,hsame⟩ := hkept key h hh
    exact ht.current key h v hnot hold (hsame.symm.trans hv)
  · intro key h hd hh
    exact ht.stale key h hd (hkept key h hh).1
  · intro key h v hw hlt
    have hlast : height < h := hafter.last ▸ hlt
    have hle := hq.write_le (List.mem_of_getLast? hw)
    omega

/-- What is tracked above the last snapshot is the last write of a canonical block. -/
theorem Tracks.tracked_above (ht : n.Tracks)
    (hdropped : ∀ d ∈ n.dropped, d.2 ≤ n.provider.manager.lastSnapshotHeight) {key : Bytes}
    {h : Nat} (hh : KV.get n.provider.tracker.keyChangeHeights key = some h)
    (hlt : n.provider.manager.lastSnapshotHeight < h) :
    ∃ v, KV.get n.provider.tracker.keyChanges key = some v ∧
      latestWrite n.blocks key = some (h,v) := by
  have hsome := ht.paired key
  rw [hh, Option.isSome_some] at hsome
  obtain ⟨v,hv⟩ := Option.isSome_iff_exists.mp hsome
  refine ⟨v,hv,ht.current key h v ?_ hh hv⟩
  intro hmem
  have hle := hdropped _ (ht.stale key h hmem hh)
  have hle' : h ≤ n.provider.manager.lastSnapshotHeight := hle
  omega

theorem Tracks.diffPairs_eq {height : Nat} (ht : n.Tracks) (hq : QuietAbove height n.blocks)
    (hdropped : ∀ d ∈ n.dropped, d.2 ≤ n.provider.manager.lastSnapshotHeight) :
    SnapshotManager.diffPairs n.provider.writer.incrementalChanges =
      changedPairs n.blocks n.provider.manager.lastSnapshotHeight height := by
  obtain ⟨_,hlast,hchanges,hheights⟩ := n.provider.writer_spec
  have hpaired : n.provider.writer.Paired := by
    intro key
    rw [hchanges, hheights]
    exact ht.paired key
  have hget : ∀ key, KV.get n.provider.writer.incrementalChanges key =
      if (KV.get n.provider.tracker.keyChangeHeights key).any
        fun h => n.provider.manager.lastSnapshotHeight < h then
        KV.get n.provider.tracker.keyChanges key
      else none := by
    intro key
    rw [SnapshotManager.get_incrementalChanges hpaired, hlast, hchanges, hheights]
  -- a change is written exactly if its key has a last write above the last snapshot
  have hwritten : ∀ key v, KV.get n.provider.writer.incrementalChanges key = some v ↔
      ∃ h, n.provider.manager.lastSnapshotHeight < h ∧ latestWrite n.blocks key = some (h,v) := by
    intro key v
    rw [hget]
    constructor
    · intro h
      split_ifs at h with hany
      obtain ⟨h',hh',hlt⟩ := (Option.any_eq_true _ _).mp hany
      have hlt' := of_decide_eq_true hlt
      obtain ⟨v',hv',hlatest⟩ := ht.tracked_above hdropped hh' hlt'
      rw [hv'] at h
      cases h
      exact ⟨h',hlt',hlatest⟩
    · intro h
      obtain ⟨h',hlt,hlatest⟩ := h
      obtain ⟨h'',hh'',hle⟩ := ht.covers key h' v hlatest hlt
      have hlt'' : n.provider.manager.lastSnapshotHeight < h'' := by omega
      obtain ⟨v',hv',hlatest'⟩ := ht.tracked_above hdropped hh'' hlt''
      rw [hlatest] at hlatest'
      cases hlatest'
      rw [if_pos ((Option.any_eq_true _ _).mpr ⟨_,hh'',decide_eq_true hlt⟩), hv']
  have hkeys : ∀ key, key ∈ n.provider.writer.incrementalChanges.keys ↔
      key ∈ ((n.blocks.take (height+1)).drop
        (n.provider.manager.lastSnapshotHeight+1)).flatMap Block.setKeys := by
    intro key
    rw [KV.mem_keys_iff, List.mem_flatMap, ← Option.isSome_iff_ne_none, Option.isSome_iff_exists]
    constructor
    · intro h
      obtain ⟨v,hv⟩ := h
      obtain ⟨h',hlt,hlatest⟩ := (hwritten key v).mp hv
      have hmem := List.mem_of_getLast? hlatest
      have hle := hq.write_le hmem
      obtain ⟨_,b,hb,hv'⟩ := mem_writesOf hmem
      refine ⟨b,?_,mem_setKeys.mpr (List.ne_nil_of_mem hv')⟩
      apply List.mem_iff_getElem?.mpr
      refine ⟨h'-(n.provider.manager.lastSnapshotHeight+1),?_⟩
      have hh : n.provider.manager.lastSnapshotHeight+1 +
          (h'-(n.provider.manager.lastSnapshotHeight+1)) = h'-0 := by omega
      rw [List.getElem?_drop, hh, List.getElem?_take_of_lt (by omega)]
      exact hb
    · intro h
      obtain ⟨b,hb,hk⟩ := h
      obtain ⟨i,hi⟩ := List.mem_iff_getElem?.mp hb
      rw [List.getElem?_drop] at hi
      have hin : n.provider.manager.lastSnapshotHeight+1+i < height+1 := by
        by_contra hge
        rw [List.getElem?_take_eq_none (by omega)] at hi
        cases hi
      rw [List.getElem?_take_of_lt hin] at hi
      have hset : ∃ v, (0+(n.provider.manager.lastSnapshotHeight+1+i),v) ∈
          writesOf key 0 n.blocks := mem_writesOf_of_set hi hk
      obtain ⟨v,hv⟩ := hset
      have hne := List.ne_nil_of_mem hv
      have hle : 0+(n.provider.manager.lastSnapshotHeight+1+i) ≤
          ((writesOf key 0 n.blocks).getLast hne).1 :=
        (writesOf_ordered key 0 n.blocks).rel_getLast hv
      refine ⟨_,(hwritten key _).mpr ⟨_,?_,List.getLast?_eq_some_getLast hne⟩⟩
      omega
  rw [SnapshotManager.diffPairs, changedPairs, ← KV.sortedKeys_congr hkeys]
  apply List.map_congr_left
  intro key hkey
  rw [KV.mem_sortedKeys, KV.mem_keys_iff, ← Option.isSome_iff_ne_none,
    Option.isSome_iff_exists] at hkey
  obtain ⟨v,hv⟩ := hkey
  obtain ⟨h,_,hlatest⟩ := (hwritten key v).mp hv
  rw [hv, hq.lastWrite_eq, hlatest]
  rfl

/-- An interval whose diff consists of the keys that the canonical blocks have changed in it. -/
def Faithful (w : WrittenInterval × List Block) : Prop :=
  w.1.diff = serializeDiff (changedPairs w.2 w.1.startHeight w.1.endHeight)

theorem Tracks.step {a : SnapshotAction} (ht : n.Tracks) (hk : n.Keeps a)
    (hw : ∀ w ∈ n.written, Faithful w) :
    (n.step true a).Tracks ∧ ∀ w ∈ (n.step true a).written, Faithful w := by
  cases a with
  | block b => exact ⟨ht.block hk,hw⟩
  | rollback r => exact ⟨ht.rollback,hw⟩
  | snapshot height stateRoot =>
    refine ⟨ht.snapshot hk.1,?_⟩
    have hspec : ∃ w, (n.provider.createSnapshot height stateRoot).2 = some w ∧ _ :=
      SnapshotProvider.createSnapshot_spec ht.enabled.1
    obtain ⟨w,hsome,hstart,hend,hdiff,_⟩ := hspec
    have hlog : (n.step true (.snapshot height stateRoot)).written =
        n.written ++ [(w,n.blocks)] := by
      show n.written ++ ((n.provider.createSnapshot height stateRoot).2.toList.map _) = _
      rw [hsome]
      rfl
    intro w' hw'
    rw [hlog, List.mem_append, List.mem_singleton] at hw'
    rcases hw' with hold | rfl
    · exact hw w' hold
    · rw [Faithful, hdiff, hstart, hend, ht.diffPairs_eq hk.1 hk.2]

/-- A tracker that has heard nothing has nothing. -/
structure Silent (n : SnapshotNode) : Prop where
  enabled : n.provider.manager.enabled = true
  changes : ∀ key, KV.get n.provider.tracker.keyChanges key = none

theorem Silent.start (blocks : List Block) (maxTrackedChanges : Nat)
    (runtimeManager : Option Nat) : (start blocks maxTrackedChanges runtimeManager).Silent where
  enabled := rfl
  changes key := by
    cases runtimeManager <;> exact KV.get_empty key

theorem Silent.diffPairs_eq (hn : n.Silent) :
    SnapshotManager.diffPairs n.provider.writer.incrementalChanges = [] := by
  have hnone : ∀ key, KV.get n.provider.writer.incrementalChanges key = none := by
    intro key
    rw [SnapshotManager.incrementalChanges, KV.get, Std.ExtTreeMap.getElem?_filter',
      n.provider.writer_spec.2.2.1]
    show Option.filter _ (KV.get n.provider.tracker.keyChanges key) = none
    rw [hn.changes]
    rfl
  have hkeys : n.provider.writer.incrementalChanges.keys = [] := by
    rw [List.eq_nil_iff_forall_not_mem]
    intro key hkey
    exact (KV.mem_keys_iff _ _).mp hkey (hnone key)
  rw [SnapshotManager.diffPairs, hkeys]
  rfl

theorem Silent.step {a : SnapshotAction} (hn : n.Silent) (hw : ∀ w ∈ n.written, w.1.diff = []) :
    (n.step false a).Silent ∧ ∀ w ∈ (n.step false a).written, w.1.diff = [] := by
  cases a with
  | block b => exact ⟨⟨hn.enabled,hn.changes⟩,hw⟩
  | rollback r => exact ⟨⟨hn.enabled,hn.changes⟩,hw⟩
  | snapshot height stateRoot =>
    obtain ⟨w,hsome,_,_,hdiff,hafter⟩ :
        ∃ w, (n.provider.createSnapshot height stateRoot).2 = some w ∧ _ :=
      SnapshotProvider.createSnapshot_spec hn.enabled
    have hlog : (n.step false (.snapshot height stateRoot)).written = n.written ++ [(w,n.blocks)] := by
      show n.written ++ ((n.provider.createSnapshot height stateRoot).2.toList.map _) = _
      rw [hsome]
      rfl
    refine ⟨⟨hafter.enabled.1.trans hn.enabled,fun key => ?_⟩,?_⟩
    · rcases hafter.kept key with hsame | hnone
      · exact hsame.1.trans (hn.changes key)
      · exact hnone.1
    · intro w' hw'
      rw [hlog, List.mem_append, List.mem_singleton] at hw'
      rcases hw' with hold | rfl
      · exact hw w' hold
      · rw [hdiff, hn.diffPairs_eq]
        rfl

end SnapshotNode

theorem serializeDiff_eq_nil {pairs : List (Bytes × Bytes)} : serializeDiff pairs = [] ↔ pairs = [] := by
  cases pairs with
  | nil => exact ⟨fun _ => rfl,fun _ => rfl⟩
  | cons kv pairs =>
    constructor
    · intro h
      have hlen := congrArg List.length h
      rw [serializeDiff, List.flatMap_cons, serializePair] at hlen
      simp at hlen
    · exact fun h => by cases h

/-- Nothing is changed when no block sets a key. -/
theorem changedPairs_eq_nil {blocks : List Block} {s e : Nat} : changedPairs blocks s e = [] ↔
    ∀ b ∈ (blocks.take (e+1)).drop (s+1), b.setKeys = [] := by
  rw [← List.flatMap_eq_nil_iff, changedPairs, List.map_eq_nil_iff]
  constructor
  · intro h
    rw [List.eq_nil_iff_forall_not_mem]
    intro key hkey
    have hmem := KV.mem_sortedKeys.mpr hkey
    rw [h] at hmem
    cases hmem
  · intro h
    rw [h]
    rfl

/-- As the repository is, nothing tells the tracker of a block, and a diff has the changes of the
canonical blocks exactly if there are none. In a run whose tracker is told of every block, whose blocks
set keys that are tracked as themselves, with nothing forgotten, and whose snapshots are taken at the tip
with no dropped write above the last one that has not been made again, each diff has exactly the changes
of the canonical blocks. -/
theorem snapshot_diff_faithful (blocks : List Block) (maxTrackedChanges : Nat)
    (runtimeManager : Option Nat) (n : SnapshotNode) :
    (Steps.Run (fun n a => some (SnapshotNode.step false n a)) (fun _ _ => True)
        (.start blocks maxTrackedChanges runtimeManager) n →
      ∀ w ∈ n.written, (w.1.diff = serializeDiff (changedPairs w.2 w.1.startHeight w.1.endHeight) ↔
        ∀ b ∈ (w.2.take (w.1.endHeight+1)).drop (w.1.startHeight+1), b.setKeys = [])) ∧
    (Steps.Run (fun n a => some (SnapshotNode.step true n a)) SnapshotNode.Keeps
        (.start blocks maxTrackedChanges runtimeManager) n →
      ∀ w ∈ n.written,
        w.1.diff = serializeDiff (changedPairs w.2 w.1.startHeight w.1.endHeight)) := by
  constructor
  · intro h w hw
    have hinv : n.Silent ∧ ∀ w ∈ n.written, w.1.diff = [] := by
      apply h.invariant
      · exact ⟨.start blocks maxTrackedChanges runtimeManager,fun w hw => absurd hw List.not_mem_nil⟩
      · intro n a n' hn _ hstep
        cases hstep
        exact hn.1.step hn.2
    rw [hinv.2 w hw, eq_comm, serializeDiff_eq_nil, changedPairs_eq_nil]
  · intro h
    have hinv : n.Tracks ∧ ∀ w ∈ n.written, SnapshotNode.Faithful w := by
      apply h.invariant
      · exact ⟨.start blocks maxTrackedChanges runtimeManager,fun w hw => absurd hw List.not_mem_nil⟩
      · intro n a n' hn hk hstep
        cases hstep
        exact hn.1.step hk hn.2
    exact hinv.2

/-- A block that sets one key. -/
def settingBlock (key : Char) (value : Bytes) : Block := ⟨.single key value,[7],[8]⟩

/-- A node at height 0 whose own manager tracks. -/
def trackedGenesis : SnapshotNode := .start [⟨.nil,[6],[8]⟩] 1000000 none

instance (m : SnapshotManager) : Decidable m.Calm :=
  inferInstanceAs (Decidable (m.maxTrackedChanges ≤ m.keyChanges.size →
    m.keyChanges.isEmpty = true))

/-- A block is rolled back and another one sets its key again, by a caller that tells the tracker. -/
theorem snapshot_diff_faithful_reorg :
    ∃ n, Steps.Run (fun n a => some (SnapshotNode.step true n a)) SnapshotNode.Keeps trackedGenesis n ∧
      n.written.length = 1 ∧ ∀ w ∈ n.written,
        w.1.diff = serializeDiff (changedPairs w.2 w.1.startHeight w.1.endHeight) := by
  have hcalm : ∀ n : SnapshotNode, n.blocks.length = 1 → n.provider.tracker.CalmBefore
      n.blocks.length := by
    intro n hn hmod
    rw [hn] at hmod
    cases hmod
  have hkeys : ∀ key ∈ (settingBlock 'a' [1]).setKeys, trackedAs key = some key := by
    decide +kernel
  have hkeys' : ∀ key ∈ (settingBlock 'a' [2]).setKeys, trackedAs key = some key := by
    decide +kernel
  have hrun : Steps.Run (fun n a => some (SnapshotNode.step true n a)) SnapshotNode.Keeps
      trackedGenesis ((((trackedGenesis.step true (.block (settingBlock 'a' [1]))).step true
        (.rollback 0)).step true (.block (settingBlock 'a' [2]))).step true (.snapshot 1 [8])) := by
    apply Steps.Run.next (a := .snapshot 1 [8]) _ _ rfl
    · apply Steps.Run.next (a := .block (settingBlock 'a' [2])) _ _ rfl
      · apply Steps.Run.next (a := .rollback 0) _ trivial rfl
        apply Steps.Run.next (a := .block (settingBlock 'a' [1])) .start _ rfl
        exact ⟨hkeys,hcalm _ rfl,by decide +kernel,trivial⟩
      · exact ⟨hkeys',hcalm _ rfl,by decide +kernel,trivial⟩
    · constructor
      · decide +kernel
      · decide +kernel
  exact ⟨_,hrun,rfl,(snapshot_diff_faithful _ _ _ _).2 hrun⟩

/-- The diff of a block has nothing of it; told of the blocks, it keeps the key of one that has been rolled
back. -/
theorem snapshot_diff_misses_key :
    (∃ n, Steps.Run (fun n a => some (SnapshotNode.step false n a)) (fun _ _ => True) trackedGenesis n ∧
      ∃ w ∈ n.written, w.1.diff = [] ∧
        changedPairs w.2 w.1.startHeight w.1.endHeight = [(ascii "a",[1])] ∧
        w.1.diff ≠ serializeDiff (changedPairs w.2 w.1.startHeight w.1.endHeight)) ∧
    ∃ n, Steps.Run (fun n a => some (SnapshotNode.step true n a)) (fun _ _ => True) trackedGenesis n ∧
      ∃ w ∈ n.written, w.1.diff = serializeDiff [(ascii "a",[1]),(ascii "b",[2])] ∧
        changedPairs w.2 w.1.startHeight w.1.endHeight = [(ascii "b",[2])] ∧
        w.1.diff ≠ serializeDiff (changedPairs w.2 w.1.startHeight w.1.endHeight) := by
  constructor
  · refine ⟨(trackedGenesis.step false (.block (settingBlock 'a' [1]))).step false (.snapshot 1 [8]),?_,?_⟩
    · apply Steps.Run.next (a := .snapshot 1 [8]) _ trivial rfl
      exact Steps.Run.next (a := .block (settingBlock 'a' [1])) .start trivial rfl
    · decide +kernel
  · refine ⟨(((trackedGenesis.step true (.block (settingBlock 'a' [1]))).step true (.rollback 0)).step true
      (.block (settingBlock 'b' [2]))).step true (.snapshot 1 [8]),?_,?_⟩
    · apply Steps.Run.next (a := .snapshot 1 [8]) _ trivial rfl
      apply Steps.Run.next (a := .block (settingBlock 'b' [2])) _ trivial rfl
      apply Steps.Run.next (a := .rollback 0) _ trivial rfl
      exact Steps.Run.next (a := .block (settingBlock 'a' [1])) .start trivial rfl
    · decide +kernel

end Metashrew
