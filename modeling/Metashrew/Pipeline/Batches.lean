import Metashrew.Lib.Steps
import Metashrew.Sync.Runs

namespace Metashrew

open Bytes Durable Steps

/-- A block under execution: what is appended so far, what is still to append, and the length records
that have been read. -/
structure BatchBuild where
  height : Nat
  blockHash : Bytes
  keyValues : List (Bytes × Bytes)
  newRoot : Bytes
  appended : Nat
  state : BatchState
  reads : List (Bytes × Option Bytes)

/-- The batch that a finished build hands to `commit_atomic`. -/
def BatchBuild.ops (b : BatchBuild) : List Op :=
  b.state.batch ++ [.put (rootKey b.height) b.newRoot] ++ manifestOps b.height b.keyValues ++
    [.put tipHeightKey (u32le b.height)]

/-- The storage, the writes that a rollback under way has still to make (it holds the write lock until
they are made), and the processor's build. -/
structure Batches where
  storage : Store
  rolling : List Store
  build : Option BatchBuild

inductive BatchAction where
  | rollback (height : Nat)
  | write
  | start (height : Nat) (blockHash : Bytes) (keyValues : List (Bytes × Bytes))
  | append
  | commit

namespace Batches

/-- One pair of the flush: one read of a length record, unless the batch has the length. -/
def append (s : Batches) (b : BatchBuild) : Option Batches :=
  match b.keyValues[b.appended]? with
  | none => none
  | some kv =>
    match appendUpdate (rocksDB s.storage) b.height b.state kv with
    | .error _ => some { s with build := none }
    | .ok state =>
      let reads :=
        if (KV.get b.state.keyLengths kv.1).isSome then b.reads
        else b.reads ++ [(kv.1,KV.get s.storage (lengthKey kv.1))]
      some { s with build := some { b with appended := b.appended+1, state, reads } }

/-- The execution reads without the lock; a rollback and a commit wait for it. -/
def step (s : Batches) : BatchAction → Option Batches
  | .rollback height =>
    if s.rolling = [] then some { s with rolling := ((rollbackToHeight height).run s.storage).states }
    else none
  | .write =>
    match s.rolling with
    | [] => none
    | storage::rolling => some { s with storage, rolling }
  | .start height blockHash keyValues =>
    match s.build with
    | none =>
      let newRoot := previousRoot (rocksDB s.storage) height
      some { s with build := some ⟨height,blockHash,keyValues,newRoot,0,⟨[],∅⟩,[]⟩ }
    | some _ => none
  | .append => s.build.bind s.append
  | .commit =>
    match s.build with
    | none => none
    | some b =>
      if s.rolling ≠ [] ∨ b.appended < b.keyValues.length then none
      else
        match (commitAtomic b.height b.blockHash b.newRoot b.ops).exec s.storage with
        | .ok ((),storage) => some { s with storage, build := none }
        | .error _ => some { s with build := none }

end Batches

/-- The length of a key as its record says. -/
def storedLength (σ : Store) (key : Bytes) : Nat :=
  ((KV.get σ (lengthKey key)).map parseLength).getD 0

/-- The length of a key after the pairs. -/
def lengthAfter (σ : Store) (kvs : List (Bytes × Bytes)) (key : Bytes) : Nat :=
  storedLength σ key+(kvs.filter fun kv => kv.1 = key).length

/-- The records of the pairs, each at the next index of its key in the store. -/
def appendOps (σ : Store) (height : Nat) (done : List (Bytes × Bytes)) :
    List (Bytes × Bytes) → List Op
  | [] => []
  | kv::kvs =>
    [.put (updateKey kv.1 (lengthAfter σ done kv.1)) (formatUpdate height kv.2),
      .put (lengthKey kv.1) (decimal (lengthAfter σ done kv.1+1))] ++
      appendOps σ height (done ++ [kv]) kvs

section Append

variable {σ : Store} {height : Nat} {done : List (Bytes × Bytes)} {st st' : BatchState}

/-- The lengths that the batch knows are those after the pairs done. -/
def KnowsLengths (σ : Store) (done : List (Bytes × Bytes)) (st : BatchState) : Prop :=
  ∀ key, KV.get st.keyLengths key =
    if key ∈ done.map Prod.fst then some (lengthAfter σ done key) else none

theorem lengthAfter_of_not_mem {key : Bytes} (h : key ∉ done.map Prod.fst) :
    lengthAfter σ done key = storedLength σ key := by
  rw [lengthAfter, List.filter_eq_nil_iff.mpr]
  · rfl
  · intro kv hkv hk
    rw [decide_eq_true_eq] at hk
    exact h (hk ▸ List.mem_map_of_mem hkv)

theorem lengthAfter_concat (kv : Bytes × Bytes) (key : Bytes) :
    lengthAfter σ (done ++ [kv]) key =
      if kv.1 = key then lengthAfter σ done key+1 else lengthAfter σ done key := by
  rw [lengthAfter, lengthAfter, List.filter_append, List.length_append]
  by_cases h : kv.1 = key
  · simp [h, Nat.add_assoc]
  · simp [h]

theorem KnowsLengths.currentLength (h : KnowsLengths σ done st) (key : Bytes) :
    currentLength (rocksDB σ) st key = .ok (lengthAfter σ done key) := by
  rw [Metashrew.currentLength, h key]
  split_ifs with hm
  · rfl
  · rw [lengthAfter_of_not_mem hm, storedLength]
    have hread : backendError ((rocksDB σ).getImmutable (lengthKey key)) =
        .ok (KV.get σ (lengthKey key)) := rfl
    rw [hread]
    cases KV.get σ (lengthKey key) <;> rfl

theorem KnowsLengths.appendUpdate_eq (h : KnowsLengths σ done st) (height : Nat)
    (kv : Bytes × Bytes) :
    appendUpdate (rocksDB σ) height st kv =
      (addU32 (lengthAfter σ done kv.1) 1).bind fun newLength => .ok {
        batch := st.batch ++ [.put (updateKey kv.1 (lengthAfter σ done kv.1))
          (formatUpdate height kv.2),.put (lengthKey kv.1) (decimal newLength)]
        keyLengths := st.keyLengths.insert kv.1 newLength } := by
  rw [appendUpdate, h.currentLength kv.1]
  rfl

/-- One pair goes to the next index of its key. -/
theorem KnowsLengths.append {kv : Bytes × Bytes} (h : KnowsLengths σ done st)
    (ha : appendUpdate (rocksDB σ) height st kv = .ok st') :
    KnowsLengths σ (done ++ [kv]) st' ∧ st'.batch = st.batch ++
      [.put (updateKey kv.1 (lengthAfter σ done kv.1)) (formatUpdate height kv.2),
        .put (lengthKey kv.1) (decimal (lengthAfter σ done kv.1+1))] := by
  rw [h.appendUpdate_eq height kv, addU32] at ha
  split_ifs at ha with hlt
  · cases ha
    refine ⟨?_,rfl⟩
    intro key
    have hk := h key
    rw [lengthAfter_concat]
    simp only [KV.get, Std.ExtTreeMap.getElem?_insert] at hk ⊢
    by_cases he : kv.1 = key
    · simp [he]
    · have hmem : key ∈ (done ++ [kv]).map Prod.fst ↔ key ∈ done.map Prod.fst := by
        rw [List.map_append, List.mem_append, List.map_singleton, List.mem_singleton]
        exact or_iff_left (Ne.symm he)
      simp only [hmem]
      simp [he, hk]
  · cases ha

/-- The whole loop puts every pair at the next index of its key. -/
theorem KnowsLengths.appendAll {kvs : List (Bytes × Bytes)} (h : KnowsLengths σ done st)
    (hr : kvs.foldlM (appendUpdate (rocksDB σ) height) st = .ok st') :
    st'.batch = st.batch ++ appendOps σ height done kvs := by
  induction kvs generalizing done st with
  | nil =>
    cases hr
    rw [appendOps, List.append_nil]
  | cons kv kvs ih =>
    rw [List.foldlM_cons] at hr
    cases ha : appendUpdate (rocksDB σ) height st kv with
    | error e =>
      rw [ha] at hr
      cases hr
    | ok st1 =>
      rw [ha] at hr
      obtain ⟨h1,hbatch⟩ := h.append ha
      rw [ih h1 hr, hbatch, appendOps, List.append_assoc]

theorem knowsLengths_nil : KnowsLengths σ [] ⟨[],∅⟩ := by
  intro key
  rw [KV.get_empty]
  rfl

end Append

/-- A store in which `commit_atomic` rejects the height. -/
def rejects (σ : Store) (height : Nat) : Bool :=
  !isFreshDb σ && height != saturatingSucc (getIndexedHeight σ)

namespace BatchBuild

/-- The length records that the build has read are those of the store. -/
def agrees (b : BatchBuild) (σ : Store) : Bool :=
  b.reads.all fun r => KV.get σ (lengthKey r.1) == r.2

end BatchBuild

namespace Batches

/-- The steps that spare the build: a rollback that ends meanwhile leaves a store that rejects its
height, or the length records as the build has read them. -/
def sparesBuild (s : Batches) : BatchAction → Bool
  | .write =>
    match s.rolling with
    | [storage] => s.build.all fun b => rejects storage b.height || b.agrees storage
    | _ => true
  | _ => true

/-- The start of the tasks. -/
structure Starting (s : Batches) : Prop where
  rolling : s.rolling = []
  build : s.build = none

/-- The batch so far is what any store with the same length records gives. -/
def Replays (b : BatchBuild) : Prop :=
  b.appended ≤ b.keyValues.length ∧ ∀ σ, b.agrees σ = true →
    (b.keyValues.take b.appended).foldlM (appendUpdate (rocksDB σ) b.height) ⟨[],∅⟩ = .ok b.state

/-- While the lock is free, the build has read the present records or its height is rejected. -/
def Sound (s : Batches) : Prop :=
  ∀ b, s.build = some b → Replays b ∧
    (s.rolling = [] → b.agrees s.storage = true ∨ rejects s.storage b.height = true)

variable {s s' : Batches} {b : BatchBuild}

theorem Replays.fold {σ : Store} (hb : Replays b) (hready : b.keyValues.length ≤ b.appended)
    (h : b.agrees σ = true) :
    b.keyValues.foldlM (appendUpdate (rocksDB σ) b.height) ⟨[],∅⟩ = .ok b.state := by
  have hfold := hb.2 σ h
  rwa [List.take_of_length_le hready] at hfold

/-- A finished build is `build_state_root_batch_unwritten` on any store with the records it has
read. -/
theorem Replays.build {σ : Store} (hb : Replays b) (hready : b.keyValues.length ≤ b.appended)
    (h : b.agrees σ = true) (hroot : b.newRoot = previousRoot (rocksDB σ) b.height) :
    buildStateRootBatchUnwritten (rocksDB σ) b.height b.keyValues = .ok (b.newRoot,b.ops) := by
  rw [buildStateRootBatchUnwritten, hb.fold hready h, BatchBuild.ops, hroot]
  rfl

theorem appendUpdate_congr {σ τ : Store} {height : Nat} {st : BatchState} {kv : Bytes × Bytes}
    (h : KV.get st.keyLengths kv.1 = none → KV.get σ (lengthKey kv.1) = KV.get τ (lengthKey kv.1)) :
    appendUpdate (rocksDB σ) height st kv = appendUpdate (rocksDB τ) height st kv := by
  rw [appendUpdate, appendUpdate]
  congr 1
  rw [currentLength, currentLength]
  cases hk : KV.get st.keyLengths kv.1 with
  | some len => rfl
  | none =>
    simp only [rocksDB, h hk]

/-- One more pair, with the record it has read. -/
theorem Replays.append {kv : Bytes × Bytes} {st : BatchState} {σ : Store} (hb : Replays b)
    (hkv : b.keyValues[b.appended]? = some kv)
    (ha : appendUpdate (rocksDB σ) b.height b.state kv = .ok st) :
    Replays { b with
      appended := b.appended+1
      state := st
      reads :=
        if (KV.get b.state.keyLengths kv.1).isSome then b.reads
        else b.reads ++ [(kv.1,KV.get σ (lengthKey kv.1))] } := by
  obtain ⟨hlt,hget⟩ := List.getElem?_eq_some_iff.mp hkv
  refine ⟨hlt,?_⟩
  intro τ hτ
  rw [BatchBuild.agrees] at hτ
  dsimp only at hτ ⊢
  have hold : b.agrees τ = true := by
    rw [BatchBuild.agrees]
    split_ifs at hτ
    · exact hτ
    · rw [List.all_append, Bool.and_eq_true] at hτ
      exact hτ.1
  have hsame : appendUpdate (rocksDB τ) b.height b.state kv = .ok st := by
    rw [← ha]
    apply appendUpdate_congr
    intro hnone
    rw [hnone] at hτ
    simp only [Option.isSome_none, Bool.false_eq_true, if_false, List.all_append, List.all_cons,
      List.all_nil, Bool.and_true, Bool.and_eq_true, beq_iff_eq] at hτ
    exact hτ.2
  rw [List.take_add_one, hkv, Option.toList_some, List.foldlM_append, hb.2 τ hold]
  show (appendUpdate (rocksDB τ) b.height b.state kv >>= fun st' => [].foldlM _ st') = _
  rw [hsame]
  rfl

theorem Sound.append (hs : s.Sound) (hb : s.build = some b) (h : s.append b = some s') :
    s'.Sound := by
  obtain ⟨hreplays,hstate⟩ := hs b hb
  rw [Batches.append] at h
  split at h
  · cases h
  · next kv hkv =>
    split at h
    · cases h
      intro b' hb'
      cases hb'
    · next st ha =>
      cases h
      intro b' hb'
      cases hb'
      refine ⟨hreplays.append hkv ha,?_⟩
      intro hroll
      apply (hstate hroll).imp_left
      intro hagrees
      rw [BatchBuild.agrees] at hagrees ⊢
      dsimp only
      split_ifs
      · exact hagrees
      · rw [List.all_append, hagrees]
        simp

theorem Sound.step {a : BatchAction} (hs : s.Sound) (hk : s.sparesBuild a = true)
    (h : step s a = some s') : s'.Sound := by
  cases a with
  | rollback height =>
    rw [Batches.step] at h
    split_ifs at h with hroll
    cases h
    intro b hb
    obtain ⟨hreplays,hstate⟩ := hs b hb
    exact ⟨hreplays,fun _ => hstate hroll⟩
  | write =>
    rw [Batches.step] at h
    rw [sparesBuild] at hk
    split at h
    · cases h
    · next storage rolling hroll =>
      cases h
      intro b hb
      change s.build = some b at hb
      refine ⟨(hs b hb).1,?_⟩
      intro hlast
      change rolling = [] at hlast
      rw [hroll, hlast, hb] at hk
      simp only [Option.all_some, Bool.or_eq_true] at hk
      exact hk.symm
  | start height blockHash keyValues =>
    rw [Batches.step] at h
    split at h
    · cases h
      intro b hb
      cases hb
      exact ⟨⟨Nat.zero_le _,fun σ _ => rfl⟩,fun _ => .inl rfl⟩
    · cases h
  | append =>
    obtain ⟨b,hb,h⟩ := Option.bind_eq_some_iff.mp h
    exact hs.append hb h
  | commit =>
    have hnone : s'.build = none := by
      rw [Batches.step] at h
      split at h
      · cases h
      · split_ifs at h
        split at h <;> cases h <;> rfl
    intro b hb
    rw [hnone] at hb
    cases hb

end Batches

/-- While the rollbacks spare the build, a batch that `commit_atomic` accepts was built from the length
records of the store that it is applied to: every record goes to the next index of its key there. -/
theorem accepted_batch_is_current (start s : Batches) (hs : start.Starting)
    (hr : Run Batches.step (fun s a => s.sparesBuild a = true) start s) (b : BatchBuild) (σ : Store)
    (hb : s.build = some b) (hlock : s.rolling = []) (hready : b.keyValues.length ≤ b.appended)
    (hc : (commitAtomic b.height b.blockHash b.newRoot b.ops).exec s.storage = .ok ((),σ)) :
    (∀ key record, (key,record) ∈ b.reads → KV.get s.storage (lengthKey key) = record) ∧
      b.state.batch = appendOps s.storage b.height [] b.keyValues := by
  have hsound : s.Sound := by
    refine hr.invariant ?_ fun t a t' ht ha h => ht.step ha h
    intro b hb
    rw [hs.build] at hb
    cases hb
  obtain ⟨hreplays,hstate⟩ := hsound b hb
  have hagrees : b.agrees s.storage = true := by
    apply (hstate hlock).resolve_right
    rw [rejects]
    rcases (commitAtomic_cases hc).1 with hf | hh
    · simp [hf]
    · simp [hh]
  constructor
  · intro key record hmem
    rw [BatchBuild.agrees, List.all_eq_true] at hagrees
    exact eq_of_beq (hagrees (key,record) hmem)
  · have hbatch := knowsLengths_nil.appendAll (hreplays.fold hready hagrees)
    rwa [List.nil_append] at hbatch

private def batchesStart : Batches := ⟨∅,[],none⟩

private theorem batchesStart_starting : batchesStart.Starting := ⟨rfl,rfl⟩

/-- A block that writes one value of one key. -/
private def batchesBlock (height : Nat) : List BatchAction :=
  [.start height [7] [([97],[7])],.append]

/-- At the commit of a build that has read `record`. -/
private def batchesReady (s : Batches) (record : Option Bytes) : Option (BatchBuild × Store) :=
  match s.build with
  | none => none
  | some b =>
    if s.rolling = [] ∧ b.keyValues.length ≤ b.appended ∧ b.reads = [([97],record)] then
      match (commitAtomic b.height b.blockHash b.newRoot b.ops).exec s.storage with
      | .ok ((),σ) => some (b,σ)
      | .error _ => none
    else none

private theorem batchesReady_spec {s : Batches} {record : Option Bytes}
    (h : (batchesReady s record).isSome = true) :
    ∃ b σ, s.build = some b ∧ s.rolling = [] ∧ b.keyValues.length ≤ b.appended ∧
      b.reads = [([97],record)] ∧
      (commitAtomic b.height b.blockHash b.newRoot b.ops).exec s.storage = .ok ((),σ) := by
  rw [batchesReady] at h
  split at h
  · cases h
  · next b hb =>
    split_ifs at h with hcond
    · split at h
      · next σ hc => exact ⟨b,σ,hb,hcond.1,hcond.2.1,hcond.2.2,hc⟩
      · cases h
    · cases h

theorem accepted_batch_is_current_second_block :
    ∃ s : Batches, KV.get s.storage (lengthKey [97]) = some (decimal 1) := by
  have hrun : (follow Batches.step (fun s a => s.sparesBuild a = true) batchesStart
      (batchesBlock 0 ++ [.commit] ++ batchesBlock 1)).any
        (fun s => (batchesReady s (some (decimal 1))).isSome) = true := by
    decide +kernel
  obtain ⟨s,hs,hend⟩ := Run.exists_of_follow (fun _ _ _ => id) hrun
  obtain ⟨b,σ,hb,hlock,hready,hreads,hc⟩ := batchesReady_spec hend
  have hcurrent := accepted_batch_is_current batchesStart s batchesStart_starting hs b σ hb hlock
    hready hc
  exact ⟨s,hcurrent.1 [97] _ (by rw [hreads]; exact List.mem_singleton_self _)⟩

/-- A build of block 1 reads length 2 while the old block 1 is still stored; then a rollback to 0 takes
the old record away, and the batch is accepted with index 2 over a length of 1. -/
theorem accepted_batch_is_stale :
    ¬∀ (start s : Batches), start.Starting → Run Batches.step (fun _ _ => True) start s →
      ∀ (b : BatchBuild) (σ : Store), s.build = some b → s.rolling = [] →
        b.keyValues.length ≤ b.appended →
        (commitAtomic b.height b.blockHash b.newRoot b.ops).exec s.storage = .ok ((),σ) →
        (∀ key record, (key,record) ∈ b.reads → KV.get s.storage (lengthKey key) = record) ∧
          b.state.batch = appendOps s.storage b.height [] b.keyValues := by
  intro hclaim
  have hrun : (follow Batches.step (fun _ _ => True) batchesStart
      (batchesBlock 0 ++ [.commit] ++ batchesBlock 1 ++ [.commit] ++ batchesBlock 1 ++
        [.rollback 0,.write,.write])).any
          (fun s => (batchesReady s (some (decimal 2))).isSome &&
            KV.get s.storage (lengthKey [97]) == some (decimal 1)) = true := by
    decide +kernel
  obtain ⟨s,hs,hend⟩ := Run.exists_of_follow (fun _ _ _ => id) hrun
  rw [Bool.and_eq_true, beq_iff_eq] at hend
  obtain ⟨b,σ,hb,hlock,hready,hreads,hc⟩ := batchesReady_spec hend.1
  have hcurrent := (hclaim batchesStart s batchesStart_starting hs b σ hb hlock hready hc).1 [97]
    (some (decimal 2)) (by rw [hreads]; exact List.mem_singleton_self _)
  rw [hend.2] at hcurrent
  revert hcurrent
  decide

end Metashrew
