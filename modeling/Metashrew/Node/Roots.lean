import Metashrew.Ledger.Frame
import Metashrew.Node.Reorg

namespace Metashrew

open Bytes Durable

/-- A name that the scan for the state root takes into account. -/
def RootName (name : Bytes) : Prop :=
  smtRootPrefix <+: name ∧ parseU32 (name.drop smtRootPrefix.length) ≠ none

/-- No state root but that of the empty tree is on record. -/
def EmptyRoots (σ : Store) : Prop :=
  ∀ name v, RootName name → KV.get σ name = some v → v = emptyNodeHash

section Names

variable {name : Bytes}

theorem not_rootName_of_slash (h : 47 ∈ name) : ¬RootName name := by
  rintro ⟨⟨rest,rfl⟩,hparse⟩
  rw [List.drop_left] at hparse
  rcases List.mem_append.mp h with hpre | hrest
  · have hno : (47 : UInt8) ∉ smtRootPrefix := by decide
    exact hno hpre
  · exact hparse (parseU32_eq_none (by decide) (by decide) hrest)

theorem KeyName.not_rootName {key : Bytes} (h : KeyName key name) : ¬RootName name := by
  apply not_rootName_of_slash
  rcases h with rfl | ⟨i,rfl⟩
  · have hslash : (47 : UInt8) ∈ lengthSuffix := by decide
    simp [lengthKey, hslash]
  · have hslash : (47 : UInt8) ∈ ascii "/" := by decide
    simp [updateKey, hslash]

theorem not_rootName_manifestKey (h : Nat) : ¬RootName (manifestKey h) := by
  have hslash : (47 : UInt8) ∈ manifestPrefix := by decide
  exact not_rootName_of_slash (by simp [manifestKey, hslash])

theorem not_rootName_blockHashKey (h : Nat) : ¬RootName (blockHashKey h) := by
  have hslash : (47 : UInt8) ∈ blockHashPrefix := by decide
  exact not_rootName_of_slash (by simp [blockHashKey, hslash])

theorem not_rootName_tipHeightKey : ¬RootName tipHeightKey := not_rootName_of_slash (by decide)

theorem not_rootName_indexedHeightKey : ¬RootName indexedHeightKey :=
  not_rootName_of_slash (by decide)

end Names

namespace EmptyRoots

variable {σ σ' : Store}

theorem empty : EmptyRoots ∅ := by
  intro name v _ h
  rw [KV.get_empty] at h
  cases h

/-- What a write leaves under a name was there or has been put there. -/
theorem write (hσ : EmptyRoots σ) {ops : List Op}
    (h : ∀ op ∈ ops, RootName op.key → op.value = none ∨ op.value = some emptyNodeHash) :
    EmptyRoots (KV.write σ ops) := by
  intro name v hname hget
  rcases KV.get_write_cases hget with hold | ⟨op,hmem,rfl,hv⟩
  · exact hσ name v hname hold
  · rcases h op hmem hname with hnone | hsome
    · rw [hnone] at hv
      cases hv
    · rw [hsome] at hv
      exact (Option.some.inj hv).symm

private theorem higherRoot_empty {entries : List (Bytes × Bytes)} {best : Option (Nat × Bytes)}
    (h : ∀ e ∈ entries, parseU32 (e.1.drop smtRootPrefix.length) ≠ none → e.2 = emptyNodeHash)
    (hbest : ∀ b ∈ best, b.2 = emptyNodeHash) :
    ∀ b ∈ entries.foldl higherRoot best, b.2 = emptyNodeHash := by
  induction entries generalizing best with
  | nil => exact hbest
  | cons e entries ih =>
    refine ih (fun e' he' => h e' (List.mem_cons_of_mem _ he')) ?_
    have he := h e List.mem_cons_self
    rw [higherRoot]
    cases hp : parseU32 (e.1.drop smtRootPrefix.length) with
    | none => exact hbest
    | some height =>
      dsimp only
      split_ifs
      · intro b hb
        cases hb
        exact he (by rw [hp]; simp)
      · exact hbest

/-- The root that the next block is committed with. -/
theorem getCurrentStateRoot (hσ : EmptyRoots σ) {faults : ReadFaults} {root : Bytes}
    (h : Metashrew.getCurrentStateRoot (faultyDB σ faults) = .ok root) : root = emptyNodeHash := by
  rw [Metashrew.getCurrentStateRoot, faultyDB] at h
  dsimp only at h
  cases hf : faults.scan smtRootPrefix with
  | some e =>
    rw [hf] at h
    cases h
  | none =>
    rw [hf] at h
    have hentries : ∀ e ∈ σ.toList.filter (fun e => smtRootPrefix.isPrefixOf e.1),
        parseU32 (e.1.drop smtRootPrefix.length) ≠ none → e.2 = emptyNodeHash := by
      intro e he hparse
      obtain ⟨hmem,hpre⟩ := List.mem_filter.mp he
      exact hσ e.1 e.2 ⟨List.isPrefixOf_iff_prefix.mp hpre,hparse⟩
        (Std.ExtTreeMap.mem_toList_iff_getElem?_eq_some.mp hmem)
    have hbest : ∀ best ∈ (σ.toList.filter fun e => smtRootPrefix.isPrefixOf e.1).foldl higherRoot none,
        best.2 = emptyNodeHash :=
      higherRoot_empty hentries (by simp)
    dsimp only [bind, Except.bind, rocksDB, backendError] at h
    split at h
    · rename_i hsome
      cases h
      exact hbest _ hsome
    · cases h
      rfl

/-- A commit with the empty root records no other, whatever pairs its batch is for. -/
theorem commit {n : Nat} {hash : Bytes} {ops : List Op} {kvs : List (Bytes × Bytes)} (hσ : EmptyRoots σ)
    (hops : ∀ op ∈ ops, BatchName n kvs op.key) :
    EmptyRoots (KV.write σ (commitOps n hash emptyNodeHash ops)) := by
  intro name v hname hget
  by_cases hroot : name = rootKey n
  · have h2 : indexedHeightKey ≠ rootKey n :=
      Record.name_ne (r := .indexedHeight) (s := .root n) (by simp)
    rw [hroot, KV.get_write, commitOps, KV.effect_append] at hget
    simp only [KV.effect, KV.Op.key, KV.Op.value, h2, if_false, if_true] at hget
    exact (Option.some.inj hget).symm
  · rw [KV.get_write_of_not_mem] at hget
    · exact hσ name v hname hget
    intro op hop he
    subst he
    rw [commitOps, List.mem_append] at hop
    rcases hop with hop | hop
    · rcases hops op hop with ⟨kv,_,hkey⟩ | h | h | h
      · exact hkey.not_rootName hname
      · exact hroot h
      · exact not_rootName_manifestKey n (h ▸ hname)
      · exact not_rootName_tipHeightKey (h ▸ hname)
    · simp only [List.mem_cons, List.not_mem_nil, or_false] at hop
      rcases hop with rfl | rfl | rfl
      · exact not_rootName_blockHashKey n hname
      · exact hroot rfl
      · exact not_rootName_indexedHeightKey hname

end EmptyRoots

/-- What the batches of a rollback consist of. -/
def RollbackOp (op : Op) : Prop :=
  op.value = none ∨ (∃ key, KeyName key op.key) ∨ op.key = indexedHeightKey

section Rollback

variable {P : Store → Prop} {r n : Nat}

theorem applyAtomic_preserves (hP : ∀ σ ops, P σ → (∀ op ∈ ops, RollbackOp op) → P (KV.write σ ops))
    {ops : List Op} (h : ∀ op ∈ ops, RollbackOp op) : (applyAtomic ops).Preserves P := by
  rw [applyAtomic]
  split_ifs
  · exact .pure ()
  · exact .modify fun σ hσ => hP σ ops hσ h

theorem rollbackSmtData_preserves
    (hP : ∀ σ ops, P σ → (∀ op ∈ ops, RollbackOp op) → P (KV.write σ ops)) :
    (rollbackSmtData r n).Preserves P := by
  rw [rollbackSmtData]
  split_ifs
  · exact .pure ()
  · refine Prog.Preserves.bind (.read _) fun _ keys _ _ => ?_
    refine Prog.Preserves.bind (applyAtomic_preserves hP fun op hop => ?_) fun _ _ _ _ =>
      .forEach fun key _ => ?_
    · obtain ⟨name,_,rfl⟩ := List.mem_map.mp hop
      exact .inl rfl
    · refine Prog.Preserves.bind (.read _) fun _ lengthBytes _ _ => ?_
      cases lengthBytes with
      | none => exact .pure ()
      | some lengthBytes =>
        refine Prog.Preserves.bind (.read _) fun τ ops _ hops => applyAtomic_preserves hP ?_
        cases hops
        exact fun op hop => .inr (.inl ⟨key,compactionOps_names τ r key _ op hop⟩)

theorem rollbackWithManifests_preserves
    (hP : ∀ σ ops, P σ → (∀ op ∈ ops, RollbackOp op) → P (KV.write σ ops)) :
    (rollbackWithManifests r n).Preserves P := by
  rw [rollbackWithManifests]
  split_ifs
  · exact .pure true
  · refine Prog.Preserves.bind (.read _) fun _ all _ _ => ?_
    cases all with
    | false => exact .pure false
    | true =>
      refine Prog.Preserves.bind (.forEach fun h _ => ?_) fun _ _ _ _ => .pure true
      refine Prog.Preserves.bind (.read _) fun _ manifestData _ _ => ?_
      cases manifestData with
      | none => exact .fail _
      | some manifestData =>
        refine Prog.Preserves.bind (.read _) fun τ trims _ ht => applyAtomic_preserves hP ?_
        cases ht
        intro op hop
        rcases List.mem_append.mp hop with hop | hop
        · obtain ⟨key,_,hop⟩ := List.mem_flatMap.mp hop
          exact .inr (.inl ⟨key,trimKey_names τ r key op hop⟩)
        · left
          simp only [heightRecordOps, List.mem_cons, List.not_mem_nil, or_false] at hop
          rcases hop with rfl | rfl | rfl | rfl | rfl <;> rfl

/-- What every batch of a rollback keeps, the rollback keeps at each point. -/
theorem rollbackToHeight_preserves
    (hP : ∀ σ ops, P σ → (∀ op ∈ ops, RollbackOp op) → P (KV.write σ ops)) (r : Nat) :
    (rollbackToHeight r).Preserves P := by
  rw [rollbackToHeight]
  refine Prog.Preserves.bind (.read _) fun _ current _ _ => ?_
  refine Prog.Preserves.bind (rollbackWithManifests_preserves hP) fun _ usedFast _ _ => ?_
  have hpointer : (setIndexedHeight r).Preserves P := .modify fun σ hσ => hP σ _ hσ fun op hop => by
    rw [List.mem_singleton.mp hop]
    exact .inr (.inr rfl)
  cases usedFast with
  | true => exact hpointer
  | false => exact Prog.Preserves.bind (rollbackSmtData_preserves hP) fun _ _ _ _ => hpointer

/-- So does the rollback tool. -/
theorem rollbackTool_preserves (hP : ∀ σ ops, P σ → (∀ op ∈ ops, RollbackOp op) → P (KV.write σ ops))
    (args : RockshrewRollback.Args) (confirmation : Except String Bool) :
    (RockshrewRollback.main args confirmation).Preserves P := by
  rw [RockshrewRollback.main]
  refine Prog.Preserves.bind (.read _) fun _ current _ _ => ?_
  split_ifs
  · exact .fail _
  · cases RockshrewRollback.confirmed args confirmation with
    | error e => exact .fail _
    | ok yes =>
      cases yes with
      | false => exact .pure ()
      | true =>
        refine Prog.Preserves.bind (rollbackSmtData_preserves hP) fun _ _ _ _ => ?_
        refine Prog.Preserves.bind (.modify fun σ hσ => hP σ _ hσ fun op hop => ?_) fun _ _ _ _ => ?_
        · rw [List.mem_singleton.mp hop]
          exact .inr (.inr rfl)
        · refine Prog.Preserves.bind (.read _) fun _ newHeight _ _ => ?_
          split_ifs
          · exact .fail _
          · exact .pure ()

theorem EmptyRoots.rollbackOps (σ : Store) (ops : List Op) (hσ : EmptyRoots σ)
    (h : ∀ op ∈ ops, RollbackOp op) : EmptyRoots (KV.write σ ops) := by
  refine hσ.write fun op hop hname => ?_
  rcases h op hop with hnone | ⟨key,hkey⟩ | hpointer
  · exact .inl hnone
  · exact absurd hname hkey.not_rootName
  · rw [hpointer] at hname
    exact absurd hname not_rootName_indexedHeightKey

end Rollback

section Restart

variable {σ σ' : Store}

theorem EmptyRoots.setPointers (s : Nat) (hσ : EmptyRoots σ) :
    EmptyRoots (KV.write σ [.put indexedHeightKey (u32le s),.put tipHeightKey (u32le s)]) := by
  refine hσ.write fun op hop hname => ?_
  simp only [List.mem_cons, List.not_mem_nil, or_false] at hop
  rcases hop with rfl | rfl
  · exact absurd hname not_rootName_indexedHeightKey
  · exact absurd hname not_rootName_tipHeightKey

theorem EmptyRoots.heal (node : BitcoinNodeAdapter) (config : SyncConfig) :
    (healPointerDivergenceAtStartup node config).Preserves EmptyRoots := by
  have hpointers : ∀ s, (healPointersAtomic s).Preserves EmptyRoots := by
    intro s
    rw [healPointersAtomic]
    refine Prog.Preserves.bind (.read _) fun _ current _ _ => ?_
    refine Prog.Preserves.bind (.read _) fun _ runtimeTip _ _ => ?_
    split_ifs
    · exact .pure ()
    · exact .fail _
    · exact Prog.Preserves.bind (rollbackToHeight_preserves EmptyRoots.rollbackOps s) fun _ _ _ _ =>
        .modify fun _ hτ => hτ.setPointers s
    · exact .modify fun _ hτ => hτ.setPointers s
  rw [healPointerDivergenceAtStartup]
  split_ifs
  · exact Prog.Preserves.bind (.read _) fun _ _ _ _ => .pure _
  · refine Prog.Preserves.bind (.read _) fun _ p _ _ => ?_
    split_ifs
    · exact .pure _
    · refine Prog.Preserves.bind (.read _) fun _ confirmed _ _ => ?_
      split_ifs
      · exact .pure _
      · refine Prog.Preserves.bind (.read _) fun _ safe _ _ => ?_
        split_ifs
        · exact Prog.Preserves.bind (hpointers safe) fun _ _ _ _ => .pure _
        · exact .pure _

/-- The root that a start may record is that of the empty tree. -/
theorem EmptyRoots.init (node : BitcoinNodeAdapter) (config : SyncConfig) :
    (Metashrew.init node config).Preserves EmptyRoots := by
  have hinitial : ∀ indexedHeight, (storeInitialStateRoot config indexedHeight).Preserves EmptyRoots := by
    intro indexedHeight
    rw [storeInitialStateRoot]
    split_ifs
    · refine Prog.Preserves.bind (.read _) fun _ stateRoot _ _ => ?_
      cases stateRoot with
      | ok root => exact .pure ()
      | error e =>
        refine .modify fun ρ hρ => hρ.write fun op hop _ => .inr ?_
        rw [List.mem_singleton.mp hop]
        rfl
    · exact .pure ()
  rw [Metashrew.init]
  refine Prog.Preserves.bind (EmptyRoots.heal node config) fun _ _ _ _ => ?_
  refine Prog.Preserves.bind (.read _) fun _ indexedHeight _ _ => ?_
  cases startHeight config indexedHeight with
  | error e => exact .fail e
  | ok start => exact Prog.Preserves.bind (hinitial indexedHeight) fun _ _ _ _ => .pure start

end Restart

/-- One step of a node where anything may go wrong: an attempt at any height with any execution, so on any
instance and with any reads and writes that fail, or one write of a rollback to any height, of the rollback tool
or of a start. -/
inductive AnyStep : Store → Store → Prop where
  | attempted {rt rt' : MetashrewRuntime} {x : Execution} {n : Nat} {blockHash : Bytes}
      {writeError : Option String} {res : Except Fault Unit}
      (h : rt.attemptBlock x n blockHash writeError = (rt',res)) : AnyStep rt.db rt'.db
  | rollback {σ σ' : Store} {r : Nat} (h : σ' ∈ ((rollbackToHeight r).run σ).states) : AnyStep σ σ'
  | rollbackTool {σ σ' : Store} {args : RockshrewRollback.Args} {confirmation : Except String Bool}
      (h : σ' ∈ ((RockshrewRollback.main args confirmation).run σ).states) : AnyStep σ σ'
  | start {σ σ' : Store} {node : BitcoinNodeAdapter} {config : SyncConfig}
      (h : σ' ∈ ((init node config).run σ).states) : AnyStep σ σ'

/-- The stores that such steps reach from an empty one. -/
def Touched : Store → Prop := Relation.ReflTransGen AnyStep ∅

section Reached

variable {prog : IndexerProgram} {start : Nat} {s s' : Node} {σ σ' : Store}

/-- A batch touches the records of its keys, whichever of its reads have failed. -/
theorem flushBatch_names {faults : ReadFaults} {n : Nat} {kvs : List (Bytes × Bytes)} {ops : List Op}
    (hb : flushBatch σ faults n kvs = .ok ops) : ∀ op ∈ ops, BatchName n kvs op.key := by
  rw [flushBatch] at hb
  cases hbuild : buildStateRootBatchUnwritten (faultyDB σ faults) n kvs with
  | error e =>
    rw [hbuild] at hb
    cases hb
  | ok built =>
    rw [hbuild] at hb
    cases hb
    exact build_names hbuild

theorem EmptyRoots.attempt {rt rt' : MetashrewRuntime} {x : Execution} {n : Nat} {blockHash : Bytes}
    {writeError : Option String} {res : Except Fault Unit} (hσ : EmptyRoots rt.db)
    (h : rt.attemptBlock x n blockHash writeError = (rt',res)) : EmptyRoots rt'.db := by
  have hdb := rt.processBlockAtomic_db x n blockHash
  cases hblock : rt.processBlockAtomic x n blockHash with
  | mk rt₁ result =>
  rw [hblock] at hdb
  rw [MetashrewRuntime.attemptBlock, hblock] at h
  cases result with
  | error e =>
    cases h
    exact hdb ▸ hσ
  | ok result =>
    dsimp only at h hdb
    have hres : (rt.processBlockAtomic x n blockHash).2 = .ok result := by rw [hblock]
    have hstart : x.hasStart = true := by
      by_contra hs
      rw [MetashrewRuntime.processBlockAtomic, if_pos (by simpa using hs)] at hres
      cases hres
    obtain ⟨hheight,hhash,call,f,_,_,hbatch⟩ := MetashrewRuntime.processBlockAtomic_ok hres
    have hroot := hσ.getCurrentStateRoot (MetashrewRuntime.processBlockAtomic_root hstart hres)
    rw [hheight, hhash, hroot, hdb] at h
    rcases commitAttempt_cases n blockHash emptyNodeHash result.batchData writeError rt.db with
      ⟨e,hrun⟩ | ⟨_,hrun⟩
    · rw [Prog.exec_error hrun] at h
      cases h
      exact hdb ▸ hσ
    · rw [Prog.exec_ok hrun] at h
      cases h
      exact hσ.commit (flushBatch_names hbatch)

theorem AnyStep.emptyRoots (h : AnyStep σ σ') (hσ : EmptyRoots σ) : EmptyRoots σ' := by
  cases h with
  | attempted h => exact hσ.attempt h
  | rollback h => exact rollbackToHeight_preserves EmptyRoots.rollbackOps _ _ hσ _ h
  | rollbackTool h => exact rollbackTool_preserves EmptyRoots.rollbackOps _ _ _ hσ _ h
  | start h => exact EmptyRoots.init _ _ _ hσ _ h

theorem Touched.emptyRoots (h : Touched σ) : EmptyRoots σ := by
  induction h with
  | refl => exact .empty
  | tail _ hstep ih => exact hstep.emptyRoots ih

/-- What a program whose writes are steps makes of a store, after any crashes, steps make of it. -/
theorem AnyStep.run {α : Type} {p : DbProg α} {a : α} {σ'' : Store}
    (hp : ∀ σ σ', σ' ∈ (p.run σ).states → AnyStep σ σ') (h : p.exec σ' = .ok (a,σ''))
    (hreached : Touched σ') : Touched σ'' := by
  rcases Prog.mem_states_exec h with rfl | hmem
  · exact hreached
  · exact hreached.tail (hp σ' σ'' hmem)

theorem AnyStep.crashed {α : Type} {p : DbProg α} (hp : ∀ σ σ', σ' ∈ (p.run σ).states → AnyStep σ σ')
    (h : Prog.Interrupted p σ σ') (hreached : Touched σ) : Touched σ' := by
  refine h.invariant (fun τ j τ' hτ hj => ?_) hreached
  rcases List.mem_cons.mp (List.mem_of_getElem? hj.2) with rfl | hmem
  · exact hτ
  · exact hτ.tail (hp τ τ' hmem)

/-- All that an indexing node does are such steps. -/
theorem IndexerStep.touched (h : IndexerStep prog start s s') (hs : Touched s.db) : Touched s'.db := by
  cases h with
  | indexed hroom hfirst hn h => exact hs.tail (.attempted h)
  | failed h => exact hs.tail (.attempted h)
  | rolledBack hlo hhi hcrash h =>
    exact AnyStep.run (fun _ _ => .rollback) h (AnyStep.crashed (fun _ _ => .rollback) hcrash hs)
  | rolledBackOffline hlo hhi hyes hcrash h =>
    exact AnyStep.run (fun _ _ => .rollbackTool) h (AnyStep.crashed (fun _ _ => .rollbackTool) hcrash hs)
  | restarted hstart h32 hlo hcrash h =>
    exact AnyStep.run (fun _ _ => .start) h (AnyStep.crashed (fun _ _ => .rollback) hcrash hs)

theorem Node.Reached.touched (h : s.Reached prog start) : Touched s.db := by
  induction h with
  | refl => exact .refl
  | tail _ hstep ih => exact hstep.touched ih

theorem rootAtOrBelow_empty {σ : Store} (hσ : EmptyRoots σ) {h : Nat} (hh : h<2^32) {found : Option Bytes}
    (hfound : rootAtOrBelow (rocksDB σ) h = .ok found) : ∀ root ∈ found, root = emptyNodeHash := by
  have hread : ∀ h < 2^32, ∃ o, readRoot (rocksDB σ) h = .ok o ∧ ∀ root ∈ o, root = emptyNodeHash := by
    intro h hh
    have hname : RootName (rootKey h) := by
      refine ⟨List.prefix_append _ _,?_⟩
      rw [rootKey, List.drop_left, parseU32_decimal hh]
      exact Option.some_ne_none _
    have hget : storageError ((rocksDB σ).getImmutable (rootKey h)) = .ok (KV.get σ (rootKey h)) := rfl
    rw [readRoot, hget]
    cases hrecord : KV.get σ (rootKey h) with
    | none => exact ⟨none,rfl,by simp⟩
    | some v =>
      have hv := hσ _ v hname hrecord
      refine ⟨some v,?_,by simpa using hv⟩
      rw [hv]
      rfl
  induction h with
  | zero =>
    obtain ⟨o,ho,hroot⟩ := hread 0 hh
    rw [rootAtOrBelow, ho] at hfound
    cases hfound
    exact hroot
  | succ h ih =>
    obtain ⟨o,ho,hroot⟩ := hread (h+1) hh
    rw [rootAtOrBelow, ho] at hfound
    cases o with
    | none => exact ih (by omega) hfound
    | some root =>
      cases hfound
      exact hroot

theorem getSmtRootAtHeight_empty {σ : Store} (hσ : EmptyRoots σ) {h : Nat} (hh : h<2^32) {root : Bytes}
    (hroot : getSmtRootAtHeight (rocksDB σ) h = .ok root) : root = emptyNodeHash := by
  rw [getSmtRootAtHeight] at hroot
  cases hfound : rootAtOrBelow (rocksDB σ) h with
  | error e =>
    rw [hfound] at hroot
    cases hroot
  | ok found =>
    rw [hfound] at hroot
    cases found with
    | none => cases hroot
    | some root' =>
      cases hroot
      exact rootAtOrBelow_empty hσ hh hfound _ rfl

/-- The state root never says anything of the state: whatever a node has indexed and rolled back, each
root that it reports or commits the next block with is that of the empty tree. -/
theorem state_roots_stay_empty (h : Touched σ) (height : Nat) (hheight : height<2^32) (root : Bytes)
    (hroot : getSmtRootAtHeight (rocksDB σ) height = .ok root ∨
      getCurrentStateRoot (rocksDB σ) = .ok root) : root = emptyNodeHash := by
  have hempty := h.emptyRoots
  rcases hroot with hroot | hroot
  · exact getSmtRootAtHeight_empty hempty hheight hroot
  · rw [← faultyDB_none] at hroot
    exact hempty.getCurrentStateRoot hroot

/-- After two blocks. -/
theorem state_roots_stay_empty_stale : ∃ root, getSmtRootAtHeight (rocksDB staleBlock.db) 1 = .ok root ∧
    root = emptyNodeHash := by
  have hok : getSmtRootAtHeight (rocksDB staleBlock.db) 1 = .ok emptyNodeHash := by decide +kernel
  exact ⟨_,hok,state_roots_stay_empty staleBlock_reached.touched 1 (by decide) _ (.inl hok)⟩

end Reached

end Metashrew
