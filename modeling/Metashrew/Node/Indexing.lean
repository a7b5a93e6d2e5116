import Metashrew.Recovery.Firm
import Metashrew.Recovery.Reapply
import Metashrew.Sync.Process

namespace Metashrew

open Bytes Durable Versioned

/-- A block as the node serves it. -/
structure NodeBlock where
  hash : Bytes
  data : Bytes

/-- What the indexer program does with a block, by its height and its bytes. -/
abbrev IndexerProgram := Nat → Bytes → Guest

/-- What can go wrong in an attempt whose guest runs on a fresh instance with all its reads answered, besides a
trap of the guest. -/
structure Mishaps where
  hostFailure : Bool
  rootFaults : ReadFaults
  refreshError : Option String
  writeError : Option String

def Mishaps.none : Mishaps := ⟨false,.none,.none,.none⟩

namespace MetashrewRuntime

/-- The interaction of a guest that `process_block_atomic` runs. -/
def atomicInteraction (rt : MetashrewRuntime) (g : Guest) (height : Nat) (blockHash : Bytes)
    (hostFailure : Bool) : Interaction :=
  { rt with
    pendingAtomicBatch := some []
    height
    currentBlockHash := blockHash
    state := 0
    lastFlushError := none
    hadFailure := rt.hadFailure || hostFailure }.interact g

def atomicExecution (rt : MetashrewRuntime) (g : Guest) (height : Nat) (blockHash : Bytes)
    (m : Mishaps) : Execution :=
  { (rt.atomicInteraction g height blockHash m.hostFailure).execution with
    hostFailure := m.hostFailure
    rootFaults := m.rootFaults
    refreshError := m.refreshError }

/-- One attempt at a block: the execution of the guest, whatever it is, then the commit of its batch. -/
def attemptBlock (rt : MetashrewRuntime) (x : Execution) (height : Nat) (blockHash : Bytes)
    (writeError : Option String) : MetashrewRuntime × Except Fault Unit :=
  match rt.processBlockAtomic x height blockHash with
  | (rt,.error e) => (rt,.error e)
  | (rt,.ok result) =>
    match (commitAttempt result.height result.blockHash result.stateRoot result.batchData
      writeError).exec rt.db with
    | .error e => (rt,.error e)
    | .ok ((),σ) => ({ rt with db := σ },.ok ())

/-- Whether an attempt that ends in `rt` has a new instance: `refresh_memory` follows where the slot is
cleared, and not after an early return. -/
def refreshed (rt : MetashrewRuntime) (x : Execution) : Bool :=
  rt.pendingAtomicBatch.isNone && x.refreshError.isNone

/-- An attempt on a fresh instance with every read of the guest and of `__flush` answered: the guest is the
program from its first instruction on. -/
def indexBlock (rt : MetashrewRuntime) (prog : IndexerProgram) (height : Nat) (b : NodeBlock)
    (m : Mishaps) : MetashrewRuntime × Except Fault Unit :=
  rt.attemptBlock (rt.atomicExecution (prog height b.data) height b.hash m) height b.hash m.writeError

/-- Indexes a chain from height `start` on, without a mishap. -/
def indexChain (prog : IndexerProgram) (rt : MetashrewRuntime) (start : Nat) :
    List NodeBlock → Except Fault MetashrewRuntime
  | [] => .ok rt
  | b::bs =>
    match rt.indexBlock prog start b .none with
    | (_,.error e) => .error e
    | (rt,.ok ()) => indexChain prog rt (start+1) bs

end MetashrewRuntime

/-- The latest value of a key, empty without one. -/
def latestIn (H : Bytes → History Nat Bytes) (key : Bytes) : Bytes :=
  ((H key).getLast?.map Prod.snd).getD []

/-- The program ends well on a block over the given histories: it reads the latest values, its flushes
have room, and `f` is the last of them. -/
structure Settles (prog : IndexerProgram) (H : Bytes → History Nat Bytes) (height : Nat)
    (data : Bytes) (f : Flush) : Prop where
  returns : ((prog height data).play (fun _ => latestIn H) []).how = none
  last : ((prog height data).play (fun _ => latestIn H) []).emitted.getLast? = some f
  room : ∀ g ∈ ((prog height data).play (fun _ => latestIn H) []).emitted, ∀ key,
    (H key).length+(updatesOf key g.list).length<2^32

/-- No block makes the program flush a key whose record names collide with the internal ones. -/
def IndexerProgram.Plain (prog : IndexerProgram) : Prop :=
  ∀ height data, (prog height data).Emits Flush.Plain

section Build

variable {σ : Store} {h : Nat} {kvs : List (Bytes × Bytes)} {e : Fault}

/-- A batch over a database that answers every read fails only when a length overflows. -/
theorem appendUpdate_error {st : BatchState} {kv : Bytes × Bytes}
    (he : appendUpdate (rocksDB σ) h st kv = .error e) : ∃ text, e = .panic text := by
  have hlen : ∃ n, currentLength (rocksDB σ) st kv.1 = .ok n := by
    have hread : backendError ((rocksDB σ).getImmutable (lengthKey kv.1)) =
        .ok (KV.get σ (lengthKey kv.1)) := rfl
    rw [currentLength]
    cases KV.get st.keyLengths kv.1 with
    | some len => exact ⟨len,rfl⟩
    | none =>
      dsimp only
      rw [hread]
      cases KV.get σ (lengthKey kv.1) with
      | none => exact ⟨0,rfl⟩
      | some b => exact ⟨parseLength b,rfl⟩
  obtain ⟨n,hn⟩ := hlen
  rw [appendUpdate, hn] at he
  change ((addU32 n 1).bind fun _ => _) = _ at he
  rw [addU32] at he
  split_ifs at he
  · cases he
  · cases he
    exact ⟨_,rfl⟩

theorem appendUpdates_error {st : BatchState}
    (he : kvs.foldlM (appendUpdate (rocksDB σ) h) st = .error e) : ∃ text, e = .panic text := by
  induction kvs generalizing st with
  | nil => cases he
  | cons kv kvs ih =>
    rw [List.foldlM_cons] at he
    cases hone : appendUpdate (rocksDB σ) h st kv with
    | error e' =>
      rw [hone] at he
      cases he
      exact appendUpdate_error hone
    | ok st' =>
      rw [hone] at he
      exact ih he

theorem flushBatch_error (he : flushBatch σ .none h kvs = .error e) : ∃ text, e = .panic text := by
  rw [flushBatch, faultyDB_none, build_eq] at he
  cases hall : kvs.foldlM (appendUpdate (rocksDB σ) h) ⟨[],∅⟩ with
  | error e' =>
    rw [hall] at he
    cases he
    exact appendUpdates_error hall
  | ok st =>
    rw [hall] at he
    cases he

end Build

namespace MetashrewRuntime

variable {rt rt' : MetashrewRuntime} {L : Ledger} {g : Guest} {see : Bytes → Bytes} {n : Nat}
  {prog : IndexerProgram} {b : NodeBlock} {m : Mishaps} {f : Flush}

/-- With the slot armed a flush fills it or panics. -/
theorem flush_armed_cases (harmed : rt.pendingAtomicBatch.isSome = true) (f : Flush) :
    (∃ batch, flushBatch rt.db .none rt.height f.list = .ok batch ∧
      rt.flush ⟨some f,.none,none⟩ = .ok { rt with pendingAtomicBatch := some batch, state := 1 }) ∨
    ∃ text, rt.flush ⟨some f,.none,none⟩ = .error text := by
  cases hb : flushBatch rt.db .none rt.height f.list with
  | ok batch => exact .inl ⟨batch,rfl,flush_armed harmed hb⟩
  | error e =>
    right
    obtain ⟨text,rfl⟩ := flushBatch_error hb
    have hs : rt.storeFlush ⟨some f,.none,none⟩ f.list = .error (.panic text) := by
      rw [storeFlush, if_pos harmed, hb]
      rfl
    refine ⟨text,?_⟩
    rw [flush]
    dsimp only
    rw [hs]

/-- With the slot armed a guest reads the store as it was before the block, whatever it has flushed,
or one of its flushes panics. -/
theorem interact_armed (harmed : rt.pendingAtomicBatch.isSome = true)
    (hsee : ∀ key, rt.hostGet key = .ok (see key)) (done : List Flush) :
    (rt.interact g = .ofPlay (fun _ => see) (g.play (fun _ => see) done) ∧
      ∀ f ∈ (g.play (fun _ => see) done).emitted,
        ∃ batch, flushBatch rt.db .none rt.height f.list = .ok batch) ∨
    ∃ rt' text, rt.flushAll (Execution.clean (rt.interact g).flushes).flushes = (rt',some text) := by
  induction g generalizing rt done with
  | stop trap =>
    left
    refine ⟨rfl,fun f hf => ?_⟩
    cases hf
  | ask key next ih =>
    have hrest := ih (see key) harmed hsee done
    rw [interact, hsee]
    rcases hrest with ⟨hplay,hall⟩ | hpanic
    · left
      refine ⟨?_,hall⟩
      dsimp only
      rw [hplay]
      rfl
    · exact .inr hpanic
  | emit f next ih =>
    rw [interact]
    rcases flush_armed_cases harmed f with ⟨batch,hb,hflush⟩ | ⟨text,hflush⟩
    · rw [hflush]
      dsimp only
      have harmed' : { rt with pendingAtomicBatch := some batch, state := 1 }.pendingAtomicBatch.isSome =
        true := rfl
      rcases ih harmed' hsee (done ++ [f])
        with ⟨hplay,hall⟩ | ⟨rt',text,hpanic⟩
      · left
        rw [hplay]
        refine ⟨rfl,?_⟩
        rw [Dialogue.play, List.forall_mem_cons]
        exact ⟨⟨batch,hb⟩,hall⟩
      · right
        refine ⟨rt',text,?_⟩
        exact (flushAll_cons_ok hflush).trans hpanic
    · right
      rw [hflush]
      refine ⟨rt,text,?_⟩
      show rt.flushAll [⟨some f,.none,none⟩] = _
      rw [flushAll, hflush]

/-- While all its flushes have room, the guest plays against the store as it was. -/
theorem interact_armed_of_room (harmed : rt.pendingAtomicBatch.isSome = true)
    (hsee : ∀ key, rt.hostGet key = .ok (see key)) (done : List Flush)
    (hroom : ∀ f ∈ (g.play (fun _ => see) done).emitted,
      ∃ batch, flushBatch rt.db .none rt.height f.list = .ok batch) :
    rt.interact g = .ofPlay (fun _ => see) (g.play (fun _ => see) done) := by
  induction g generalizing rt done with
  | stop trap => rfl
  | ask key next ih =>
    rw [interact, hsee]
    dsimp only
    rw [ih (see key) harmed hsee done hroom]
    rfl
  | emit f next ih =>
    rw [Dialogue.play, List.forall_mem_cons] at hroom
    obtain ⟨⟨batch,hb⟩,hrest⟩ := hroom
    have harmed' : { rt with pendingAtomicBatch := some batch, state := 1 }.pendingAtomicBatch.isSome =
      true := rfl
    have hnext := ih harmed' hsee (done ++ [f]) hrest
    rw [interact, flush_armed harmed hb]
    dsimp only
    rw [hnext]
    rfl

theorem hostGet_latest (hL : L.Firm) (hσ : Represents rt.db L) (hn : rt.height<2^32)
    (hlt : ∀ key, ∀ e ∈ L.history key, e.1 < rt.height)
    (hlen : ∀ key, (L.history key).length ≤ 2^31) (key : Bytes) :
    rt.hostGet key = .ok (latestIn L.history key) := by
  obtain ⟨_,_,hs⟩ := hL.sound
  have htidy : L.Tidy rt.height := ⟨hs.reserved,hs.ordered,hlt,hs.short⟩
  have htidy' : (L.appendAll rt.height (pairsOf [])).Tidy (rt.height+1) := htidy.mono (Nat.le_succ _)
  have hseen : rt.hostGet key = .ok (seenAt L rt.height [] key) :=
    hostGet_eq htidy' hn hσ.holdsHistories (hlen key)
  rw [hseen, seenAt_nil]
  rcases Nat.eq_zero_or_pos rt.height with hzero | hpos
  · rw [hzero] at htidy ⊢
    rw [seenAt_zero htidy, latestIn, htidy.history_nil]
    rfl
  · rw [seenAt_pos htidy hpos, latestIn]

theorem executionResult_trap {trap : Option String} {suffix calling : String}
    (h : rt.executionResult trap suffix calling = .ok ()) : trap = none := by
  cases trap with
  | none => rfl
  | some text => cases h

/-- What an attempt that succeeds has been through. -/
theorem processBlockAtomic_returns {x : Execution} {hash : Bytes} {result : AtomicBlockResult}
    (hs : x.hasStart = true) (h : (rt.processBlockAtomic x n hash).2 = .ok result) :
    x.trap = none ∧ ∀ rt₁ text, (rt.armedFor x n hash).flushAll x.flushes ≠ (rt₁,some text) := by
  rw [processBlockAtomic_eq hs] at h
  constructor
  · cases hall : (rt.armedFor x n hash).flushAll x.flushes with
    | mk rt₁ panicked =>
      rw [hall] at h
      cases panicked with
      | some text => cases h
      | none =>
        dsimp only at h
        unfold completeAtomic at h
        split at h
        · rename_i hok
          exact executionResult_trap hok
        · cases h
  · intro rt₁ text hall
    rw [hall] at h
    cases h

/-- The state root of a result is the one on record before. -/
theorem processBlockAtomic_root {x : Execution} {hash : Bytes} {result : AtomicBlockResult}
    (hs : x.hasStart = true) (h : (rt.processBlockAtomic x n hash).2 = .ok result) :
    getCurrentStateRoot (faultyDB rt.db x.rootFaults) = .ok result.stateRoot := by
  have hkeep : ((rt.armedFor x n hash).flushAll x.flushes).1.db = rt.db := by
    obtain ⟨_,_,_,_,hdb⟩ := (rt.armedFor x n hash).flushAll_frame x.flushes
    exact hdb rfl
  rw [processBlockAtomic_eq hs] at h
  cases hall : (rt.armedFor x n hash).flushAll x.flushes with
  | mk rt₁ panicked =>
    rw [hall] at h hkeep
    cases panicked with
    | some text => cases h
    | none =>
      dsimp only at h hkeep
      rw [completeAtomic, calculateStateRoot, hkeep] at h
      cases hroot : getCurrentStateRoot (faultyDB rt.db x.rootFaults) with
      | error e =>
        rw [hroot] at h
        split at h <;> cases h
      | ok root =>
        rw [hroot] at h
        split at h
        · dsimp only at h
          split at h
          · cases h
          · cases h
            rfl
        · cases h

/-- A block that is indexed has been committed with the last flush of a program that ended well. -/
theorem indexBlock_ok (hL : L.Firm) (hσ : Represents rt.db L) (hn : n<2^32-1)
    (hlen : ∀ key, (L.history key).length ≤ 2^31) (hp : prog.Plain)
    (h : rt.indexBlock prog n b m = (rt',.ok ())) :
    ∃ f root, Settles prog L.history n b.data f ∧ f.Plain ∧
      getCurrentStateRoot (faultyDB rt.db m.rootFaults) = .ok root ∧
      commitBlock rt.db n ⟨f,b.hash,root⟩ = .ok rt'.db := by
  have hdb := rt.processBlockAtomic_db (rt.atomicExecution (prog n b.data) n b.hash m) n b.hash
  rw [indexBlock, attemptBlock] at h
  cases hblock : rt.processBlockAtomic (rt.atomicExecution (prog n b.data) n b.hash m) n b.hash with
  | mk rt₁ res =>
  rw [hblock] at h hdb
  cases res with
  | error e => cases h
  | ok result =>
    dsimp only at h hdb
    rw [hdb] at h
    have hres : (rt.processBlockAtomic (rt.atomicExecution (prog n b.data) n b.hash m) n b.hash).2 =
      .ok result := by rw [hblock]
    obtain ⟨hheight,hhash,call,f,hcall,hkv,hbatch⟩ := processBlockAtomic_ok hres
    obtain ⟨htrap,hnopanic⟩ := processBlockAtomic_returns rfl hres
    rw [hheight, hhash] at h
    rcases commitAttempt_cases n b.hash result.stateRoot result.batchData m.writeError rt.db with
      ⟨e,he⟩ | ⟨hcommit,hrun⟩
    · rw [Prog.exec_error he] at h
      cases h
    have hacc := (commitAtomic_cases hcommit).1
    have htip : isFreshDb rt.db = true ∨ L.indexed.getD 0 < n := by
      refine hacc.imp_right fun he => ?_
      rw [hL.getIndexedHeight hσ, saturatingSucc] at he
      omega
    -- the guest has read the latest values, and none of its flushes has panicked
    have harmed : (rt.armedFor (rt.atomicExecution (prog n b.data) n b.hash m) n
      b.hash).pendingAtomicBatch.isSome = true := rfl
    have hread : ∀ key, (rt.armedFor (rt.atomicExecution (prog n b.data) n b.hash m) n
        b.hash).hostGet key = .ok (latestIn L.history key) :=
      hostGet_latest hL hσ (show n<2^32 by omega) (hL.lt_of_accepted hσ htip) hlen
    rcases interact_armed (g := prog n b.data) harmed hread [] with ⟨hplay,hroom⟩ | ⟨rt₂,text,hpanic⟩
    · have hi : rt.atomicInteraction (prog n b.data) n b.hash m.hostFailure = _ := hplay
      rw [atomicExecution, hi] at hcall htrap
      change ((((prog n b.data).play (fun _ => latestIn L.history) []).emitted.map
        fun f => (⟨some f,.none,none⟩ : FlushCall)).getLast?) = some call at hcall
      rw [List.getLast?_map, Option.map_eq_some_iff] at hcall
      obtain ⟨f',hlast,rfl⟩ := hcall
      obtain rfl := Option.some.inj hkv
      obtain ⟨root,hbuild⟩ := build_of_flushBatch hbatch
      obtain ⟨_,_,hs⟩ := hL.sound
      refine ⟨f',result.stateRoot,⟨htrap,hlast,?_⟩,?_,processBlockAtomic_root rfl hres,?_⟩
      · intro f hf key
        obtain ⟨batch,hb⟩ := hroom f hf
        obtain ⟨root',hbuild'⟩ := build_of_flushBatch hb
        have hshort := (build_histories hσ.holdsHistories hs.short hbuild').2 key
        rwa [Ledger.appendAll_history, List.length_append, List.length_map] at hshort
      · exact Dialogue.emitted_of_emits (hp n b.data) f' (List.mem_of_getLast? hlast)
      · rw [Prog.exec_ok hrun] at h
        cases h
        rw [commitBlock, hbuild]
        dsimp only [bind, Except.bind]
        rw [hcommit]
        rfl
    · exact absurd hpanic (hnopanic rt₂ text)

/-- An idle runtime indexes the next block when the program ends well on it. -/
theorem indexBlock_total (hrt : rt.Idle) (hL : L.Firm) (hσ : Represents rt.db L) (hn : n<2^32-1)
    (hlen : ∀ key, (L.history key).length ≤ 2^31) (hs : Settles prog L.history n b.data f)
    (hacc : isFreshDb rt.db = true ∨ n = saturatingSucc (getIndexedHeight rt.db)) :
    ∃ rt' root, rt.indexBlock prog n b .none = (rt',.ok ()) ∧ rt'.Idle ∧
      commitBlock rt.db n ⟨f,b.hash,root⟩ = .ok rt'.db := by
  have htip : isFreshDb rt.db = true ∨ L.indexed.getD 0 < n := by
    refine hacc.imp_right fun he => ?_
    rw [hL.getIndexedHeight hσ, saturatingSucc] at he
    omega
  let p := (prog n b.data).play (fun _ => latestIn L.history) []
  have hroom : ∀ g ∈ p.emitted, ∀ key, ((L.appendAll n g.list).history key).length<2^32 := by
    intro g hg key
    rw [Ledger.appendAll_history, List.length_append, List.length_map]
    exact hs.room g hg key
  obtain ⟨root,batch,hbatch,hres⟩ := processBlockAtomic_clean hrt hσ.holdsHistories b.hash hroom hs.last
  have hbuilds : ∀ g ∈ p.emitted, ∃ batch, flushBatch rt.db .none n g.list = .ok batch := by
    intro g hg
    obtain ⟨_,batch,hb⟩ := build_total hσ.holdsHistories (hroom g hg)
    exact ⟨batch,flushBatch_of_build hb⟩
  have hread : ∀ key, (rt.armedFor (.clean []) n b.hash).hostGet key =
      .ok (latestIn L.history key) :=
    hostGet_latest hL hσ (show n<2^32 by omega) (hL.lt_of_accepted hσ htip) hlen
  have harmed : (rt.armedFor (.clean []) n b.hash).pendingAtomicBatch.isSome = true := rfl
  have hplay : rt.atomicInteraction (prog n b.data) n b.hash false =
      .ofPlay (fun _ => latestIn L.history) p :=
    interact_armed_of_room harmed hread [] hbuilds
  have hexec : rt.atomicExecution (prog n b.data) n b.hash .none = .clean p.emitted := by
    rw [atomicExecution]
    change { (rt.atomicInteraction (prog n b.data) n b.hash false).execution with
      hostFailure := false, rootFaults := .none, refreshError := none } = _
    rw [hplay, Interaction.execution, Interaction.ofPlay]
    dsimp only
    rw [hs.returns]
    rfl
  have hdb := rt.processBlockAtomic_db (.clean p.emitted) n b.hash
  cases hblock : rt.processBlockAtomic (.clean p.emitted) n b.hash with
  | mk rt₁ res =>
  rw [hblock] at hres hdb
  obtain rfl : res = _ := hres
  have hidle := processBlockAtomic_ok_idle hrt hblock
  obtain ⟨root',hbuild⟩ := build_of_flushBatch hbatch
  have hrun := commitAtomic_run hacc b.hash root batch
  have hcommit := Prog.exec_ok hrun
  refine ⟨{ rt₁ with db := KV.write rt.db (commitOps n b.hash root batch) },root,?_,?_,?_⟩
  · dsimp only at hdb
    rw [indexBlock, hexec, attemptBlock, hblock]
    dsimp only
    rw [hdb, Mishaps.none, commitAttempt, hcommit]
    rfl
  · exact ⟨hidle.slot,hidle.failure,hidle.adapter⟩
  · rw [commitBlock, hbuild]
    dsimp only [bind, Except.bind]
    rw [hcommit]
    rfl

end MetashrewRuntime

end Metashrew
