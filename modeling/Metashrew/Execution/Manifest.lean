import Metashrew.Execution.Clean
import Metashrew.Ledger.Flushed
import Metashrew.Ledger.Heights

namespace Metashrew

open Bytes Durable Versioned

section Faults

variable {σ : Store} {faults : ReadFaults} {h : Nat}

private theorem currentLength_faulty {st : BatchState} {key : Bytes} {len : Nat}
    (hl : currentLength (faultyDB σ faults) st key = .ok len) :
    currentLength (rocksDB σ) st key = .ok len := by
  rw [currentLength] at hl ⊢
  cases hk : KV.get st.keyLengths key with
  | some n => rwa [hk] at hl
  | none =>
    rw [hk] at hl
    cases hf : faults.get (lengthKey key) with
    | some e =>
      have hget : (faultyDB σ faults).getImmutable (lengthKey key) = .error e := by
        simp [faultyDB, hf]
      rw [hget] at hl
      cases hl
    | none =>
      have hget : (faultyDB σ faults).getImmutable (lengthKey key) =
          (rocksDB σ).getImmutable (lengthKey key) := by simp [faultyDB, hf]
      rwa [hget] at hl

/-- Faults can make a batch fail, but a batch that is built is the right one. -/
private theorem appendUpdates_faulty {kvs : List (Bytes × Bytes)} {st st' : BatchState}
    (hs : kvs.foldlM (appendUpdate (faultyDB σ faults) h) st = .ok st') :
    kvs.foldlM (appendUpdate (rocksDB σ) h) st = .ok st' := by
  induction kvs generalizing st with
  | nil => exact hs
  | cons kv kvs ih =>
    rw [List.foldlM_cons] at hs ⊢
    cases ha : appendUpdate (faultyDB σ faults) h st kv with
    | error e => rw [ha] at hs; cases hs
    | ok st1 =>
      rw [ha] at hs
      have hrocks : appendUpdate (rocksDB σ) h st kv = .ok st1 := by
        rw [appendUpdate] at ha ⊢
        cases hl : currentLength (faultyDB σ faults) st kv.1 with
        | error e => rw [hl] at ha; cases ha
        | ok len =>
          rw [hl] at ha
          rw [currentLength_faulty hl]
          exact ha
      rw [hrocks]
      exact ih hs

/-- A batch that went through with faults still represents its flush. -/
theorem flushBatch_represents {L : Ledger} {kvs : List (Bytes × Bytes)} {batch : List Op}
    (hσ : Represents σ L) (hs : ∀ key, (L.history key).length<2^32)
    (hp : ∀ kv ∈ kvs, ¬Reserved kv.1) (hb : flushBatch σ faults h kvs = .ok batch) (tip : Bytes) :
    ∃ root, Represents (KV.write σ (.put tipHeightKey tip::batch)) (L.flush h kvs root) ∧
      ∀ key, ((L.flush h kvs root).history key).length<2^32 := by
  rw [flushBatch, build_eq] at hb
  cases hf : kvs.foldlM (appendUpdate (faultyDB σ faults) h) ⟨[],∅⟩ with
  | error e => rw [hf] at hb; cases hb
  | ok st =>
    rw [hf] at hb
    obtain rfl := Except.ok.inj hb
    obtain ⟨hrep,hshort⟩ := flushOps_represents hσ hs hp (appendUpdates_faulty hf)
      (previousRoot (faultyDB σ faults) h)
    refine ⟨_,fun r => ?_,hshort⟩
    rw [← hrep r]
    -- the pointer put first is put again at the end
    apply KV.get_write_cons
    rw [KV.effect_append]
    exact Option.some_ne_none _

/-- It appends its flush, whatever the keys are. -/
theorem flushBatch_histories {L : Ledger} {kvs : List (Bytes × Bytes)} {batch : List Op}
    (hσ : HoldsHistories σ L.history) (hs : ∀ key, (L.history key).length<2^32)
    (hb : flushBatch σ faults h kvs = .ok batch) (tip : Bytes) :
    HoldsHistories (KV.write σ (.put tipHeightKey tip::batch)) (L.appendAll h kvs).history ∧
      ∀ key, ((L.appendAll h kvs).history key).length<2^32 := by
  rw [flushBatch, build_eq] at hb
  cases hf : kvs.foldlM (appendUpdate (faultyDB σ faults) h) ⟨[],∅⟩ with
  | error e => rw [hf] at hb; cases hb
  | ok st =>
    rw [hf] at hb
    obtain rfl := Except.ok.inj hb
    obtain ⟨hh,hshort⟩ := flushOps_histories hσ hs (appendUpdates_faulty hf)
      (previousRoot (faultyDB σ faults) h)
    exact ⟨hh.adapterWrite tip,hshort⟩

end Faults

section Runs

variable {σ σ' : Store} {L : Ledger} {adapterHeight height start : Nat}

/-- The flushes of an execution that got as far as their pairs. -/
def Execution.flushed (x : Execution) : List Flush := x.flushes.filterMap FlushCall.keyValues

/-- Blocks processed on the legacy path, from height `start` on. -/
def legacyBlocks (rt : MetashrewRuntime) (start : Nat) :
    List Execution → Except Fault MetashrewRuntime
  | [] => .ok rt
  | x::xs =>
    match rt.processBlock x start with
    | (rt,.ok ()) => legacyBlocks rt (start+1) xs
    | (_,.error e) => .error e

theorem Written.represents {calls : List FlushCall}
    (hw : Written adapterHeight height σ calls σ') (hσ : Represents σ L)
    (hs : ∀ key, (L.history key).length<2^32)
    (hp : ∀ f ∈ calls.filterMap FlushCall.keyValues, ∀ kv ∈ f.list, ¬Reserved kv.1) :
    ∃ L', Represents σ' L' ∧ L.Flushed height (calls.filterMap FlushCall.keyValues) L' ∧
      ∀ key, (L'.history key).length<2^32 := by
  induction hw generalizing L with
  | nil σ => exact ⟨L,hσ,.nil L height,hs⟩
  | cons hk hb hw ih =>
    rename_i call calls kvs batch
    have hlist : (call::calls).filterMap FlushCall.keyValues =
        kvs::calls.filterMap FlushCall.keyValues := by simp [hk]
    rw [hlist] at hp ⊢
    obtain ⟨root,h1,hs1⟩ := flushBatch_represents hσ hs (hp kvs (by simp)) hb
      (u32le (adapterHeight+1))
    obtain ⟨L',h2,hf,hs2⟩ := ih h1 hs1 fun f hf => hp f (by simp [hf])
    exact ⟨L',h2,hf.cons,hs2⟩

/-- The writes of an execution append its flushes. -/
theorem Written.histories {calls : List FlushCall}
    (hw : Written adapterHeight height σ calls σ') (hσ : HoldsHistories σ L.history)
    (hs : ∀ key, (L.history key).length<2^32) :
    HoldsHistories σ' (L.appendAll height (pairsOf (calls.filterMap FlushCall.keyValues))).history ∧
      ∀ key, ((L.appendAll height
        (pairsOf (calls.filterMap FlushCall.keyValues))).history key).length<2^32 := by
  induction hw generalizing L with
  | nil σ => exact ⟨hσ,hs⟩
  | cons hk hb hw ih =>
    rename_i call calls kvs batch
    have hlist : (call::calls).filterMap FlushCall.keyValues =
        kvs::calls.filterMap FlushCall.keyValues := by simp [hk]
    obtain ⟨h1,hs1⟩ := flushBatch_histories hσ hs hb (u32le (adapterHeight+1))
    have hrest := ih h1 hs1
    rw [← Ledger.appendAll_append] at hrest
    rw [hlist]
    exact hrest

/-- A run on the legacy path keeps the manifests exact when the last writing flush of every block
writes every key of the block. -/
theorem legacyBlocks_represents {rt rt' : MetashrewRuntime} {blocks : List Execution}
    (hnone : rt.pendingAtomicBatch = none) (hσ : Represents rt.db L) (hL : L.Sound start)
    (hE : L.Exact) (hp : ∀ x ∈ blocks, ∀ f ∈ x.flushed, ∀ kv ∈ f.list, ¬Reserved kv.1)
    (hc : ∀ x ∈ blocks, Ledger.LastCovers x.flushed) (hrun : legacyBlocks rt start blocks = .ok rt') :
    ∃ L', Represents rt'.db L' ∧ L'.Sound (start+blocks.length) ∧ L'.Exact := by
  induction blocks generalizing rt L start with
  | nil =>
    cases hrun
    exact ⟨L,hσ,hL,hE⟩
  | cons x xs ih =>
    rw [legacyBlocks] at hrun
    have hslot := rt.processBlock_slot x start
    cases hblock : rt.processBlock x start with
    | mk rt1 result =>
      rw [hblock] at hrun hslot
      cases result with
      | error e => cases hrun
      | ok _ =>
        have hok : (rt.processBlock x start).2 = .ok () := by rw [hblock]
        obtain ⟨_,hw⟩ := MetashrewRuntime.processBlock_ok hnone hok
        rw [hblock] at hw
        obtain ⟨L1,h1,hf,hs1⟩ := hw.represents hσ hL.short (hp x (by simp))
        have hnone1 : rt1.pendingAtomicBatch = none := by
          rw [hnone] at hslot
          simpa using hslot
        have hlen : start+(x::xs).length = start+1+xs.length := by simp; omega
        rw [hlen]
        exact ih hnone1 h1 (hL.flushed hf (hp x (by simp)) hs1)
          (hE.flushed hL hf (hc x (by simp))) (fun y hy => hp y (by simp [hy]))
          (fun y hy => hc y (by simp [hy])) hrun

end Runs

/-- Every manifest up to the tip `n` lists the keys its height has updated, and the fast rollback from
the tip, whenever it is taken, leaves no update above its target. -/
def ManifestsComplete (σ : Store) (n : Nat) : Prop :=
  (∀ h, h ≤ n → ∀ data, KV.get σ (manifestKey h) = some data →
    ∃ keys, getKeysAtHeight (rocksDB σ) h = .ok keys ∧
      ∀ key, key ∈ deserializeKeyManifest data ↔ key ∈ keys) ∧
  ∀ r, ∃ done σ', (rollbackWithManifests r n).exec σ = .ok (done,σ') ∧
    (done = true → ∀ key, ∃ heights, getHeightsForKey (rocksDB σ') key = .ok heights ∧
      ∀ h ∈ heights, h ≤ r)

section Complete

variable {σ : Store} {L : Ledger} {n : Nat}

/-- With exact manifests the fast rollback cuts every key down. -/
theorem Ledger.Exact.unwind_le (hE : L.Exact) (hL : L.Sound (n+1)) {r : Nat}
    (hm : ∀ h, r < h → h ≤ n → L.manifest h ≠ none) (key : Bytes) :
    ∀ e ∈ (L.unwind r (heightsAbove r n).reverse).history key, e.1 ≤ r := by
  intro e he
  by_contra hgt
  have hpart := L.unwind_partly (r := r) (heightsAbove r n).reverse fun h hh =>
    (mem_heightsAbove.mp (List.mem_reverse.mp hh)).1
  have hmem := hpart.mem_history he
  have hlt := hL.below key e hmem
  obtain ⟨keys,hkeys⟩ := Option.ne_none_iff_exists'.mp (hm e.1 (by omega) (by omega))
  have hlisted : key ∈ (heightsAbove r n).reverse.flatMap fun h => (L.manifest h).getD [] := by
    refine List.mem_flatMap.mpr ⟨e.1,List.mem_reverse.mpr (mem_heightsAbove.mpr ⟨by omega,by omega⟩),?_⟩
    rw [hkeys]
    exact hE.covered key e hmem keys hkeys
  have hcut : (L.unwind r (heightsAbove r n).reverse).history key = upTo r (L.history key) :=
    if_pos hlisted
  rw [hcut] at he
  exact hgt (mem_upTo.mp he).2

theorem Ledger.Exact.manifestsComplete (hE : L.Exact) (hL : L.Sound (n+1)) (hn : n+1≤2^32)
    (hσ : Represents σ L) : ManifestsComplete σ n := by
  constructor
  · intro h hh data hdata
    obtain ⟨keys,hkeys,hmem⟩ := getKeysAtHeight_spec hσ hL hn h
    rw [hσ.get_manifest] at hdata
    obtain ⟨listed,hlisted,rfl⟩ := Option.map_eq_some_iff.mp hdata
    refine ⟨keys,hkeys,fun key => ?_⟩
    rw [deserialize_serialize (hL.sized h listed hlisted), hmem]
    exact hE h listed hlisted key
  · intro r
    by_cases hr : r < n
    · cases hm : manifestsExist σ r n with
      | false =>
        exact ⟨false,σ,Prog.exec_ok (rollbackWithManifests_missing hr hm),(by simp)⟩
      | true =>
        obtain ⟨ss,hrun,hlen,hstates⟩ := rollbackWithManifests_run hσ hL hn hr hm
        have hfin := hstates ss.length (ss.getLastD σ) Prog.getElem?_getLastD
        rw [List.take_of_length_le (by simp [heightsAbove, hlen])] at hfin
        refine ⟨true,ss.getLastD σ,Prog.exec_ok hrun,fun _ key => ?_⟩
        have hpart := L.unwind_partly (r := r) (heightsAbove r n).reverse fun h hh =>
          (mem_heightsAbove.mp (List.mem_reverse.mp hh)).1
        obtain ⟨heights,hheights,hiff⟩ := getHeightsForKey_spec hfin (hpart.sound hL) hn key
        refine ⟨heights,hheights,fun h hh => ?_⟩
        obtain ⟨e,he,rfl⟩ := (hiff h).mp hh
        exact hE.unwind_le hL ((manifestsExist_iff hσ).mp hm) key e he
    · have hrun : (rollbackWithManifests r n).run σ = ⟨[],.ok true⟩ := by
        rw [rollbackWithManifests, if_pos (by omega)]
        rfl
      refine ⟨true,σ,Prog.exec_ok hrun,fun _ key => ?_⟩
      obtain ⟨heights,hheights,hiff⟩ := getHeightsForKey_spec hσ hL hn key
      refine ⟨heights,hheights,fun h hh => ?_⟩
      obtain ⟨e,he,rfl⟩ := (hiff h).mp hh
      have hlt := hL.below key e he
      omega

end Complete

/-- Manifests are complete in every run whose blocks end with a flush that writes every key of the
block. -/
theorem manifests_complete (start n adapterHeight height : Nat) (blocks : List Execution)
    (hlen : blocks.length = n+1) (hn : start+n<2^32)
    (hp : ∀ x ∈ blocks, ∀ f ∈ x.flushed, ∀ kv ∈ f.list, ¬Reserved kv.1)
    (hc : ∀ x ∈ blocks, Ledger.LastCovers x.flushed) (rt : MetashrewRuntime)
    (hrun : legacyBlocks (.new ∅ adapterHeight height) start blocks = .ok rt) :
    ManifestsComplete rt.db (start+n) := by
  obtain ⟨L,hσ,hL,hE⟩ := legacyBlocks_represents (L := .empty) rfl .empty (.empty start)
    (fun i keys hi => by cases hi) hp hc hrun
  rw [hlen, ← Nat.add_assoc] at hL
  exact hE.manifestsComplete hL (by omega) hσ

/-- Two blocks; the second one flushes twice, with its last flush repeating the key of the first. -/
private def coveredRun : List Execution :=
  [.clean [.single 'a' [1]],
    .clean [.single 'a' [2],⟨[(ascii "b",[3]),(ascii "a",[4])],by decide⟩]]

theorem manifests_complete_two_blocks :
    ∃ rt, legacyBlocks (.new ∅ 0 0) 0 coveredRun = .ok rt ∧ ManifestsComplete rt.db 1 := by
  have hrun : (legacyBlocks (.new ∅ 0 0) 0 coveredRun).toOption.isSome = true := by decide +kernel
  cases hrt : legacyBlocks (.new ∅ 0 0) 0 coveredRun with
  | error e => rw [hrt] at hrun; cases hrun
  | ok rt =>
    refine ⟨rt,rfl,?_⟩
    apply manifests_complete 0 1 0 0 coveredRun rfl (by decide) (by decide) _ rt hrt
    intro x hx last hlast
    rcases List.mem_cons.mp hx with rfl | hx
    · obtain rfl := Option.some.inj hlast
      decide
    · obtain rfl := List.mem_singleton.mp hx
      obtain rfl := Option.some.inj hlast
      decide

/-- The last flush of the second block does not repeat the key of the first. -/
private def uncoveredRun : List Execution :=
  [.clean [.single 'c' [0]],
    .clean [.single 'a' [1],.single 'b' [2]]]

theorem manifest_incomplete :
    ∃ rt, legacyBlocks (.new ∅ 0 0) 0 uncoveredRun = .ok rt ∧ ¬ManifestsComplete rt.db 1 := by
  have hrun : (legacyBlocks (.new ∅ 0 0) 0 uncoveredRun).toOption.any (fun rt =>
      ((getKeysAtHeight (rocksDB rt.db) 1).toOption.all fun keys => keys.contains (ascii "a")) &&
        (KV.get rt.db (manifestKey 1)).any fun data =>
          !(deserializeKeyManifest data).contains (ascii "a")) = true := by decide +kernel
  cases hrt : legacyBlocks (.new ∅ 0 0) 0 uncoveredRun with
  | error e => rw [hrt] at hrun; cases hrun
  | ok rt =>
    rw [hrt] at hrun
    obtain ⟨hkeys,hdata⟩ := (Bool.and_eq_true _ _).mp hrun
    refine ⟨rt,rfl,?_⟩
    rintro ⟨hmanifest,_⟩
    obtain ⟨data,hget,hnot⟩ := (Option.any_eq_true _ _).mp hdata
    obtain ⟨keys,hk,hiff⟩ := hmanifest 1 le_rfl data hget
    rw [hk] at hkeys
    have hmem : ascii "a" ∈ keys := List.contains_iff_mem.mp hkeys
    have hlisted := List.contains_iff_mem.mpr ((hiff _).mpr hmem)
    rw [hlisted] at hnot
    cases hnot

end Metashrew
