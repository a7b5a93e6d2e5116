import Metashrew.Lib.Utf8
import Metashrew.Storage.Adapter

namespace Metashrew

open Bytes

/-- What the index of a repository says of one interval, as far as the sync reads it. -/
structure IntervalMetadata where
  startHeight : Fin (2^32)
  endHeight : Fin (2^32)
  wasmFile : Bytes
  deriving DecidableEq

/-- How a download of the WASM file ends: without a file, with one that is not written or cannot be
read back, or well. -/
inductive WasmDownload where
  | missing
  | broken
  | stored
  deriving DecidableEq

/-- An interval of the index with what the repository answers when it is fetched: the diff after
decompression, and the state root after decoding. -/
structure RepoInterval where
  metadata : IntervalMetadata
  wasm : WasmDownload
  diff : Option Bytes
  root : Option Bytes

/-- The data that the fetcher sends to the processor. -/
structure DiffData where
  interval : IntervalMetadata
  wasmPath : Bytes
  diffData : Bytes
  expectedRoot : Bytes
  deriving DecidableEq

/-- The last component of a path, when it is a name. -/
def fileName (path : Bytes) : Option Bytes :=
  match ((path.splitOn 47).filter fun c => c ≠ [] && c ≠ ascii ".").getLast? with
  | none => none
  | some name => if name = ascii ".." then none else some name

/-- The files of the download directory after the WASM file, and whether it is there. A file that
exists is not downloaded again, even a broken one. -/
def downloadWasm (files : List Bytes) (name : Bytes) (download : WasmDownload) :
    List Bytes × Bool :=
  if name ∈ files then (files,true)
  else
    match download with
    | .missing => (files,false)
    | .broken => (name::files,false)
    | .stored => (name::files,true)

/-- An interval that has passed through the fetcher. -/
inductive Fetched where
  | failed (interval : IntervalMetadata)
  | sent (data : DiffData)
  deriving DecidableEq

def Fetched.interval : Fetched → IntervalMetadata
  | failed i => i
  | sent d => d.interval

def Fetched.data? : Fetched → Option DiffData
  | failed _ => none
  | sent d => some d

@[simp] theorem Fetched.interval_sent (d : DiffData) : (Fetched.sent d).interval = d.interval := rfl

@[simp] theorem Fetched.data?_sent (d : DiffData) : (Fetched.sent d).data? = some d := rfl

/-- The diff and the root of an interval whose WASM file is there. -/
def fetchData (r : RepoInterval) (wasmPath : Bytes) (ready : Bool) : Fetched :=
  match ready,r.diff,r.root with
  | true,some diff,some root => .sent ⟨r.metadata,wasmPath,diff,root⟩
  | _,_,_ => .failed r.metadata

/-- The fetcher task. It goes on after a failure; a path without a name ends it with a panic. -/
def fetchAll : List Bytes → List RepoInterval → List Fetched
  | _, [] => []
  | files, r::rs =>
    match fileName r.metadata.wasmFile with
    | none => (r::rs).map fun r => .failed r.metadata
    | some name =>
      let (files',ready) := downloadWasm files name r.wasm
      fetchData r name ready::fetchAll files' rs

/-- The next key and value of a diff and the bytes after them. -/
def readPair (data : Bytes) : Option ((Bytes × Bytes) × Bytes) := do
  let keyLen ← readU32le data
  let data := data.drop 4
  if data.length < keyLen then none
  else
    let key := data.take keyLen
    let data := data.drop keyLen
    let valueLen ← readU32le data
    let data := data.drop 4
    if data.length < valueLen then none
    else some ((key,data.take valueLen),data.drop valueLen)

def readPairs : Nat → Bytes → List (Bytes × Bytes) × Bytes
  | 0, data => ([],data)
  | fuel+1, data =>
    match readPair data with
    | none => ([],data)
    | some (pair,rest) =>
      let (pairs,left) := readPairs fuel rest
      (pair::pairs,left)

/-- The pairs of a diff, and what is left where the loop breaks off. -/
def parseDiff (data : Bytes) : List (Bytes × Bytes) × Bytes := readPairs data.length data

/-- Bytes as text, with replacement characters. -/
def lossyText (key : Bytes) : Bytes := asBytes (fromUtf8Lossy key)

/-- A pair becomes a history of one entry. -/
def restorePair (endHeight : Nat) (kv : Bytes × Bytes) : List Op :=
  [.put (lengthKey (lossyText kv.1)) (decimal 1),
    .put (updateKey (lossyText kv.1) 0) (formatUpdate endHeight kv.2)]

/-- The name of a root that comes from a repository: the prefix already has the second colon. -/
def repoRootKey (height : Nat) : Bytes := ascii "smt:root:" ++ ascii ":" ++ decimal height

/-- The processor; `applied` records the intervals that it has applied. -/
structure RepoSync where
  db : Store
  currentHeight : Nat
  latestWasmPath : Option Bytes
  applied : List DiffData

/-- The database is inside the interval. -/
def IntervalMetadata.isPartial (i : IntervalMetadata) (currentHeight : Nat) : Bool :=
  decide ((i.startHeight:Nat) < currentHeight) && decide (currentHeight < (i.endHeight:Nat))

def processInterval (s : RepoSync) (d : DiffData) : Except Fault RepoSync :=
  let endHeight : Nat := d.interval.endHeight
  let startHeight : Nat := d.interval.startHeight
  if d.interval.isPartial s.currentHeight then .ok s
  else
    let db := KV.write s.db ((parseDiff d.diffData).1.flatMap (restorePair endHeight) ++
      [.put (repoRootKey endHeight) d.expectedRoot])
    match KV.get db (repoRootKey endHeight) with
    | none => .error (.message s!"State root not found in database for height {endHeight}")
    | some storedRoot =>
      if storedRoot = d.expectedRoot then
        .ok {
          db := KV.write db [.put tipHeightKey (u32le endHeight)]
          currentHeight := endHeight
          latestWasmPath := some d.wasmPath
          applied := s.applied ++ [d] }
      else .error (.message s!"State root verification failed for blocks {startHeight}-{endHeight}")

/-- What a sync that returns has returned and left in the database. -/
structure RepoSynced where
  height : Nat
  wasmPath : Option Bytes
  db : Store
  applied : List DiffData

/-- Syncs from a repository. The index is what its download and its parsing give; `files` are the
names in the download directory. -/
def syncFromRepo (files : List Bytes) (index : Except Fault (List RepoInterval))
    (indexerPath : Option Bytes) (σ : Store) : Except Fault RepoSynced := do
  let intervals ← index
  if intervals.isEmpty then return ⟨0,none,σ,[]⟩
  else
    let currentDbHeight := getRuntimeTipHeight σ
    let applicable := intervals.filter fun r => currentDbHeight < (r.metadata.endHeight:Nat)
    if applicable.isEmpty then return ⟨currentDbHeight,none,σ,[]⟩
    else
      let s ← ((fetchAll files applicable).filterMap Fetched.data?).foldlM processInterval
        ⟨σ,currentDbHeight,none,[]⟩
      return ⟨s.currentHeight,if indexerPath.isNone then s.latestWasmPath else none,s.db,s.applied⟩

/-- All that the processor puts for one interval. -/
def restoreOps (d : DiffData) : List Op :=
  ((parseDiff d.diffData).1.flatMap (restorePair d.interval.endHeight) ++
    [.put (repoRootKey d.interval.endHeight) d.expectedRoot]) ++
    [.put tipHeightKey (u32le d.interval.endHeight)]

def RepoSync.apply (s : RepoSync) (d : DiffData) : RepoSync where
  db := KV.write s.db (restoreOps d)
  currentHeight := d.interval.endHeight
  latestWasmPath := some d.wasmPath
  applied := s.applied ++ [d]

/-- The intervals that the processor applies, from a height on. -/
def appliedFrom : Nat → List Fetched → List DiffData
  | _, [] => []
  | c, .failed _::rest => appliedFrom c rest
  | c, .sent d::rest =>
    if d.interval.isPartial c then appliedFrom c rest
    else d::appliedFrom d.interval.endHeight rest

def lastEnd (c : Nat) (ds : List DiffData) : Nat :=
  (ds.map fun d => (d.interval.endHeight:Nat)).getLastD c

section Process

variable {s : RepoSync} {d : DiffData} {ds : List DiffData} {c : Nat}

/-- The root is compared with itself, so an interval that is not partial is always applied. -/
theorem processInterval_eq (s : RepoSync) (d : DiffData) : processInterval s d =
    .ok (if d.interval.isPartial s.currentHeight then s else s.apply d) := by
  rw [processInterval]
  by_cases hpart : d.interval.isPartial s.currentHeight = true
  · rw [if_pos hpart, if_pos hpart]
  · rw [if_neg hpart, if_neg hpart]
    have hget : KV.get (KV.write s.db ((parseDiff d.diffData).1.flatMap
        (restorePair d.interval.endHeight) ++ [.put (repoRootKey d.interval.endHeight)
          d.expectedRoot])) (repoRootKey d.interval.endHeight) = some d.expectedRoot := by
      rw [KV.write_append, KV.get_write_put, if_pos rfl]
    dsimp only
    rw [hget]
    dsimp only
    rw [if_pos rfl, RepoSync.apply, restoreOps, ← KV.write_append]

theorem processAll_eq (steps : List Fetched) (s : RepoSync) :
    (steps.filterMap Fetched.data?).foldlM processInterval s =
      .ok ((appliedFrom s.currentHeight steps).foldl RepoSync.apply s) := by
  induction steps generalizing s with
  | nil => rfl
  | cons step steps ih =>
    cases step with
    | failed i => exact ih s
    | sent d =>
      have hcons : (Fetched.sent d::steps).filterMap Fetched.data? =
          d::steps.filterMap Fetched.data? := rfl
      rw [hcons, List.foldlM_cons, processInterval_eq, appliedFrom]
      by_cases hpart : d.interval.isPartial s.currentHeight = true
      · rw [if_pos hpart, if_pos hpart]
        exact ih s
      · rw [if_neg hpart, if_neg hpart]
        exact ih (s.apply d)

theorem lastEnd_cons (c : Nat) (d : DiffData) (ds : List DiffData) :
    lastEnd c (d::ds) = lastEnd d.interval.endHeight ds := by
  rw [lastEnd, lastEnd, List.map_cons, List.getLastD_cons]

theorem foldl_apply_height (ds : List DiffData) (s : RepoSync) :
    (ds.foldl RepoSync.apply s).currentHeight = lastEnd s.currentHeight ds := by
  induction ds generalizing s with
  | nil => rfl
  | cons d ds ih =>
    rw [List.foldl_cons, ih, lastEnd_cons]
    rfl

theorem foldl_apply_applied (ds : List DiffData) (s : RepoSync) :
    (ds.foldl RepoSync.apply s).applied = s.applied ++ ds := by
  induction ds generalizing s with
  | nil => simp
  | cons d ds ih =>
    rw [List.foldl_cons, ih]
    simp [RepoSync.apply]

/-- The tip pointer goes along with the height. -/
theorem foldl_apply_tip (ds : List DiffData) (htip : getRuntimeTipHeight s.db = s.currentHeight) :
    getRuntimeTipHeight (ds.foldl RepoSync.apply s).db =
      (ds.foldl RepoSync.apply s).currentHeight := by
  induction ds generalizing s with
  | nil => exact htip
  | cons d ds ih =>
    apply ih
    show ((KV.get (KV.write s.db (restoreOps d)) tipHeightKey).bind readU32le).getD 0 = _
    rw [restoreOps, KV.write_append, KV.get_write_put, if_pos rfl,
      Option.bind_some, readU32le_u32le d.interval.endHeight.isLt]
    rfl

end Process

/-- The intervals of the index that end above the height, after the fetcher. -/
def fetchedAbove (files : List Bytes) (intervals : List RepoInterval) (c : Nat) : List Fetched :=
  fetchAll files (intervals.filter fun r => c < (r.metadata.endHeight:Nat))

theorem fetchAll_interval (files : List Bytes) (rs : List RepoInterval) :
    (fetchAll files rs).map Fetched.interval = rs.map RepoInterval.metadata := by
  induction rs generalizing files with
  | nil => rfl
  | cons r rs ih =>
    have hdata : ∀ wasmPath ready, (fetchData r wasmPath ready).interval = r.metadata := by
      intro wasmPath ready
      unfold fetchData
      split <;> rfl
    rw [fetchAll]
    cases fileName r.metadata.wasmFile with
    | none => simp [Fetched.interval, Function.comp_def]
    | some name =>
      dsimp only
      rw [List.map_cons, List.map_cons, ih, hdata]

/-- What the processor starts from. -/
def RepoSync.start (σ : Store) : RepoSync := ⟨σ,getRuntimeTipHeight σ,none,[]⟩

section Sync

variable {files : List Bytes} {intervals : List RepoInterval} {indexerPath : Option Bytes}
  {σ : Store} {out : RepoSynced}

theorem syncFromRepo_eq (hne : intervals ≠ []) (files : List Bytes) (indexerPath : Option Bytes)
    (σ : Store) : ∃ s : RepoSync,
      s = (appliedFrom (getRuntimeTipHeight σ) (fetchedAbove files intervals
        (getRuntimeTipHeight σ))).foldl RepoSync.apply (.start σ) ∧
      syncFromRepo files (.ok intervals) indexerPath σ = .ok ⟨s.currentHeight,
        if indexerPath.isNone then s.latestWasmPath else none,s.db,s.applied⟩ := by
  refine ⟨_,rfl,?_⟩
  have hsome : intervals.isEmpty = false := by simpa using hne
  show (if intervals.isEmpty = true then _ else _) = _
  rw [hsome, if_neg (by simp)]
  by_cases happ : (intervals.filter fun r =>
      getRuntimeTipHeight σ < (r.metadata.endHeight:Nat)).isEmpty = true
  · rw [if_pos happ, fetchedAbove, List.isEmpty_iff.mp happ]
    show _ = Except.ok (RepoSynced.mk _ (if indexerPath.isNone = true then none else none) _ _)
    rw [ite_self]
    rfl
  · rw [if_neg happ, processAll_eq]
    rfl

theorem syncFromRepo_spec (hne : intervals ≠ [])
    (h : syncFromRepo files (.ok intervals) indexerPath σ = .ok out) :
    out.applied = appliedFrom (getRuntimeTipHeight σ)
        (fetchedAbove files intervals (getRuntimeTipHeight σ)) ∧
      out.height = lastEnd (getRuntimeTipHeight σ) out.applied ∧
      getRuntimeTipHeight out.db = out.height := by
  obtain ⟨s,hs,hsync⟩ := syncFromRepo_eq hne files indexerPath σ
  rw [hsync] at h
  cases h
  have happlied : s.applied = appliedFrom (getRuntimeTipHeight σ)
      (fetchedAbove files intervals (getRuntimeTipHeight σ)) := by
    rw [hs, foldl_apply_applied]
    rfl
  refine ⟨happlied,?_,?_⟩
  · show s.currentHeight = lastEnd _ s.applied
    rw [happlied, hs, foldl_apply_height]
    rfl
  · show getRuntimeTipHeight s.db = s.currentHeight
    rw [hs]
    exact foldl_apply_tip _ rfl

end Sync

end Metashrew
