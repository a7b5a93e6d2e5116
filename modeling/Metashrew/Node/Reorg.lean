import Metashrew.Node.Follows

namespace Metashrew

open Bytes Durable Versioned

/-- The store of a node, the chain that it has indexed, and whether its instance is as it was instantiated. -/
structure Node where
  db : Store
  chain : List NodeBlock
  fresh : Bool

/-- One step of a node that indexes from height `start` on. A block is committed by an attempt on a fresh
instance whose guest and `__flush` reads are all answered, while no key has more than 2^31 updates; an
attempt that commits nothing may be any, on any instance and with any reads that fail. Rollbacks go to a
height between the first block and the tip. A rollback that crashes is completed by the same rollback, or by
a restart whose heal settles on the same height. -/
inductive IndexerStep (prog : IndexerProgram) (start : Nat) : Node → Node → Prop where
  | indexed {rt rt' : MetashrewRuntime} {chain : List NodeBlock} {n : Nat} {b : NodeBlock} {m : Mishaps}
      (hroom : Roomy rt.db) (hfirst : chain = [] → n = start) (hn : n<2^32-1)
      (h : rt.indexBlock prog n b m = (rt',.ok ())) :
      IndexerStep prog start ⟨rt.db,chain,true⟩ ⟨rt'.db,chain ++ [b],true⟩
  | failed {rt rt' : MetashrewRuntime} {chain : List NodeBlock} {fresh : Bool} {x : Execution} {n : Nat}
      {blockHash : Bytes} {writeError : Option String} {e : Fault}
      (h : rt.attemptBlock x n blockHash writeError = (rt',.error e)) :
      IndexerStep prog start ⟨rt.db,chain,fresh⟩ ⟨rt'.db,chain,rt'.refreshed x || (fresh && !x.hasStart)⟩
  | rolledBack {σ σ' σ'' : Store} {chain : List NodeBlock} {fresh : Bool} {r : Nat} (hlo : start ≤ r)
      (hhi : r < start+chain.length) (hcrash : Prog.Interrupted (rollbackToHeight r) σ σ')
      (h : (rollbackToHeight r).exec σ' = .ok ((),σ'')) :
      IndexerStep prog start ⟨σ,chain,fresh⟩ ⟨σ'',chain.take (r+1-start),fresh⟩
  | rolledBackOffline {σ σ' σ'' : Store} {chain : List NodeBlock} {fresh : Bool}
      {args : RockshrewRollback.Args} {confirmation : Except String Bool} (hlo : start ≤ args.height)
      (hhi : args.height < start+chain.length)
      (hyes : RockshrewRollback.confirmed args confirmation = .ok true)
      (hcrash : Prog.Interrupted (RockshrewRollback.main args confirmation) σ σ')
      (h : (RockshrewRollback.main args confirmation).exec σ' = .ok ((),σ'')) :
      IndexerStep prog start ⟨σ,chain,fresh⟩ ⟨σ'',chain.take (args.height+1-start),true⟩
  | restarted {σ σ' σ'' : Store} {chain : List NodeBlock} {fresh : Bool} {node : BitcoinNodeAdapter}
      {config : SyncConfig} {cursor : Nat} (hstart : config.startBlock = start) (h32 : start<2^32)
      (hlo : chain = [] ∨ start ≤ healedHeight σ' node config)
      (hcrash : Prog.Interrupted (rollbackToHeight (healedHeight σ' node config)) σ σ')
      (h : (init node config).exec σ' = .ok (cursor,σ'')) :
      IndexerStep prog start ⟨σ,chain,fresh⟩ ⟨σ'',chain.take (healedHeight σ' node config+1-start),true⟩

/-- What every step keeps: the store says what the program makes of the chain. -/
def Node.Follows (prog : IndexerProgram) (start : Nat) (s : Node) : Prop :=
  ∃ L, Represents s.db L ∧ L.Follows prog start s.chain

section IndexerSteps

variable {prog : IndexerProgram} {start n : Nat} {s s' : Node} {rt rt' : MetashrewRuntime}
  {b : NodeBlock} {m : Mishaps}

/-- The entries counted by the length records. -/
theorem Represents.length_le {σ : Store} {L : Ledger} (hσ : Represents σ L) (hL : L.Firm) (h : Roomy σ)
    (key : Bytes) : (L.history key).length ≤ 2^31 := by
  obtain ⟨_,_,hs⟩ := hL.sound
  have hk := h key
  rwa [lengthOf_record (hσ.get_length key) (hs.short key)] at hk

/-- An attempt that fails leaves the store alone. -/
theorem attemptBlock_failed {x : Execution} {blockHash : Bytes} {writeError : Option String} {e : Fault}
    (h : rt.attemptBlock x n blockHash writeError = (rt',.error e)) : rt'.db = rt.db := by
  have hdb := rt.processBlockAtomic_db x n blockHash
  rw [MetashrewRuntime.attemptBlock] at h
  split at h
  · rename_i hblock
    rw [hblock] at hdb
    cases h
    exact hdb
  · rename_i hblock
    rw [hblock] at hdb
    split at h
    · cases h
      exact hdb
    · cases h

theorem IndexerStep.follows (hp : prog.Plain) (h : IndexerStep prog start s s') (hs : s.Follows prog start) :
    s'.Follows prog start := by
  obtain ⟨L,hσ,hL⟩ := hs
  cases h with
  | indexed hroom hfirst hn h =>
    have hlen := hσ.length_le hL.firm hroom
    obtain ⟨f,root,hsettles,hplain,_,hc⟩ := MetashrewRuntime.indexBlock_ok hL.firm hσ hn hlen hp h
    obtain ⟨_,_,_,hacc,_⟩ := commitBlock_cases hc
    obtain rfl := (hL.accepts_iff hσ hfirst hn).mp hacc
    obtain ⟨hσ',hL'⟩ := hL.block hσ hlen hn hsettles hplain hc
    exact ⟨_,hσ',hL'⟩
  | failed h =>
    refine ⟨L,?_,hL⟩
    rw [attemptBlock_failed h]
    exact hσ
  | rolledBack hlo hhi hcrash h => exact hL.rollback hσ hlo hhi hcrash h
  | rolledBackOffline hlo hhi hyes hcrash h => exact hL.rollbackTool hσ hlo hhi hyes hcrash h
  | restarted hstart h32 hlo hcrash h =>
    obtain ⟨⟨s,o⟩,τ,hheal,hc⟩ := Prog.exec_bind_ok h
    obtain ⟨rfl,_⟩ := heal_cases hheal
    obtain ⟨L₁,hτ,hL₁⟩ := hL.healed hσ hlo hcrash hheal
    obtain ⟨i,_,hread,hc⟩ := Prog.exec_bind_ok hc
    cases hread
    cases hcursor : startHeight _ (getIndexedHeight τ) with
    | error e =>
      rw [hcursor] at hc
      cases hc
    | ok cursor =>
      rw [hcursor] at hc
      obtain ⟨_,ρ,hroot,hc⟩ := Prog.exec_bind_ok hc
      cases hc
      exact hL₁.initialStateRoot hτ hstart h32 hroot

/-- The states that a node reaches from an empty store. -/
def Node.Reached (prog : IndexerProgram) (start : Nat) : Node → Prop :=
  Relation.ReflTransGen (IndexerStep prog start) ⟨∅,[],true⟩

theorem Node.Reached.follows (hp : prog.Plain) (h : s.Reached prog start) : s.Follows prog start := by
  induction h with
  | refl => exact ⟨.empty,Represents.empty,.empty prog start⟩
  | tail _ hstep ih => exact hstep.follows hp ih

end IndexerSteps

namespace MetashrewRuntime

variable {prog : IndexerProgram} {start : Nat} {chain : List NodeBlock} {blocks : List Block}
  {rt rt' : MetashrewRuntime}

theorem indexChain_append (prog : IndexerProgram) (rt : MetashrewRuntime) (start : Nat)
    (xs ys : List NodeBlock) : indexChain prog rt start (xs ++ ys) =
      (indexChain prog rt start xs).bind fun rt => indexChain prog rt (start+xs.length) ys := by
  induction xs generalizing rt start with
  | nil => rfl
  | cons b bs ih =>
    have hlen : start+1+bs.length = start+(b::bs).length := by simp; omega
    rw [List.cons_append, indexChain, indexChain]
    cases hb : rt.indexBlock prog start b .none with
    | mk rt₁ res =>
      cases res with
      | error e => rfl
      | ok u =>
        dsimp only
        rw [ih, hlen]

/-- What the program makes of a chain, an idle runtime over an empty store makes of it. -/
theorem indexChain_total (hrt : rt.Idle) (hdb : rt.db = ∅) (h : Indexes prog start chain blocks) :
    ∃ rt' L, rt.indexChain prog start chain = .ok rt' ∧ rt'.Idle ∧ Represents rt'.db L ∧
      L.Follows prog start chain ∧ ∀ key, L.history key = writesOf key start blocks := by
  induction h with
  | nil => exact ⟨rt,.empty,rfl,hrt,hdb ▸ Represents.empty,.empty prog start,fun _ => rfl⟩
  | snoc root h hn hlen hs hp ih =>
    rename_i chain blocks b f
    obtain ⟨rt₁,L,hrun,hidle,hσ,hL,hhist⟩ := ih
    have hfun : L.history = fun key => writesOf key start blocks := funext hhist
    rw [← hfun] at hs
    have hroom : ∀ key, (L.history key).length ≤ 2^31 :=
      fun key => (congrArg List.length (hhist key)).trans_le (hlen key)
    have hnil : chain = [] → start+chain.length = start := by
      rintro rfl
      rfl
    obtain ⟨rt₂,root',hblock,hidle₂,hc⟩ := indexBlock_total hidle hL.firm hσ hn hroom hs
      ((hL.accepts_iff hσ hnil hn).mpr rfl)
    obtain ⟨hσ₂,hL₂⟩ := hL.block hσ hroom hn hs hp hc
    refine ⟨rt₂,_,?_,hidle₂,hσ₂,hL₂,fun key => ?_⟩
    · rw [indexChain_append, hrun]
      show rt₁.indexChain prog (start+chain.length) [b] = _
      rw [indexChain, hblock]
      rfl
    · rw [writesOf_append, ← hhist key, h.length]
      simp [Ledger.block, writesOf]

end MetashrewRuntime

/-- Two stores that no reader of user keys, heights or hashes of the chain can tell apart. -/
structure AlikeFor (start : Nat) (chain : List NodeBlock) (σ σ' : Store) : Prop where
  records : ∀ key, ¬Reserved key → SameKeyRecords σ σ' key
  values : ∀ key h, getAtHeight (rocksDB σ) key h = getAtHeight (rocksDB σ') key h
  height : getIndexedHeight σ = getIndexedHeight σ'
  hashes : ∀ i b, chain[i]? = some b →
    getBlockHash σ (start+i) = some b.hash ∧ getBlockHash σ' (start+i) = some b.hash

/-- A lookup reads the records of its key alone. -/
theorem SameKeyRecords.getAtHeight {σ σ' : Store} {key : Bytes} (h : SameKeyRecords σ σ' key) (height : Nat) :
    Metashrew.getAtHeight (rocksDB σ) key height = Metashrew.getAtHeight (rocksDB σ') key height :=
  searchUpdates_congr (congrArg Except.ok h.1) (fun i => congrArg Except.ok (h.2 i)) height

/-- No key of the program has records under an internal name. -/
theorem Ledger.Follows.lengthOf_reserved {prog : IndexerProgram} {start : Nat} {chain : List NodeBlock}
    {L : Ledger} {σ : Store} (hL : L.Follows prog start chain) (hσ : Represents σ L) {key : Bytes}
    (hk : Reserved key) : lengthOf σ key = 0 := by
  obtain ⟨_,_,hs⟩ := hL.firm.sound
  have hlen := lengthOf_record (hσ.get_length key) (hs.short key)
  rw [hlen, hs.reserved key hk]
  rfl

theorem Ledger.Follows.getAtHeight {prog : IndexerProgram} {start : Nat} {chain : List NodeBlock}
    {L : Ledger} {σ : Store} (hL : L.Follows prog start chain) (hσ : Represents σ L) (hroom : Roomy σ)
    (key : Bytes) (h : Nat) :
    Metashrew.getAtHeight (rocksDB σ) key h = .ok (asOf h (L.history key)) := by
  obtain ⟨n,hn,hs⟩ := hL.firm.sound
  have hlen := hσ.length_le hL.firm hroom key
  rw [Metashrew.getAtHeight]
  exact searchUpdates_spec hσ hs hn hlen h

theorem Ledger.Follows.alike {prog : IndexerProgram} {start : Nat} {chain : List NodeBlock} {L L' : Ledger}
    {σ σ' : Store} (hL : L.Follows prog start chain) (hL' : L'.Follows prog start chain)
    (hσ : Represents σ L) (hσ' : Represents σ' L') (h : ∀ key, L.history key = L'.history key) :
    AlikeFor start chain σ σ' where
  records key hk := sameKeyRecords_of_history hσ hσ' hk (h key)
  values key height := by
    by_cases hk : Reserved key
    · rw [getAtHeight_lengthOf, getAtHeight_lengthOf, hL.lengthOf_reserved hσ hk, hL'.lengthOf_reserved hσ' hk]
      rfl
    · exact (sameKeyRecords_of_history hσ hσ' hk (h key)).getAtHeight height
  height := by
    rw [hL.firm.getIndexedHeight hσ, hL'.firm.getIndexedHeight hσ']
    by_cases hnil : chain = []
    · rw [(hL.fresh hnil).1, (hL'.fresh hnil).1]
    · rw [hL.tip hnil, hL'.tip hnil]
  hashes i b hb := by
    rw [getBlockHash, getBlockHash, hσ.get_hash, hσ'.get_hash]
    exact ⟨hL.hash i b hb,hL'.hash i b hb⟩

/-- What a node follows, indexing the chain alone ends alike. -/
theorem Node.Follows.alike {prog : IndexerProgram} {start : Nat} {s : Node} {rt : MetashrewRuntime}
    (h : s.Follows prog start) (hrt : rt.Idle) (hdb : rt.db = ∅) :
    ∃ rt', rt.indexChain prog start s.chain = .ok rt' ∧ AlikeFor start s.chain rt'.db s.db := by
  obtain ⟨L,hσ,hL⟩ := h
  obtain ⟨blocks,hblocks,hhist⟩ := hL.indexes
  obtain ⟨rt',L',hrun,_,hσ',hL',hhist'⟩ := MetashrewRuntime.indexChain_total hrt hdb hblocks
  exact ⟨rt',hrun,hL'.alike hL hσ' hσ fun key => (hhist' key).trans (hhist key).symm⟩

/-- Reorgs leave no trace: whatever blocks a node has indexed and rolled back, and whatever attempts,
rollbacks and restarts there have been on the way, indexing its present chain alone succeeds and ends
alike. -/
theorem reorgs_leave_no_trace {prog : IndexerProgram} {start : Nat} {s : Node} {rt : MetashrewRuntime}
    (hp : prog.Plain) (h : s.Reached prog start) (hrt : rt.Idle) (hdb : rt.db = ∅) :
    ∃ rt', rt.indexChain prog start s.chain = .ok rt' ∧ AlikeFor start s.chain rt'.db s.db :=
  (h.follows hp).alike hrt hdb

/-- A program that appends the data of each block to one key. -/
def appendProgram : IndexerProgram := fun _ data =>
  .ask (ofChars ['k']) fun value => .emit (.single 'k' (value ++ data)) (.stop none)

theorem appendProgram_plain : appendProgram.Plain := by
  intro height data value
  refine ⟨?_,trivial⟩
  intro kv hkv
  rw [List.mem_singleton.mp hkv, reserved_iff]
  show ¬(ofChars ['k'] = manifestBase ∨ ofChars ['k'] = blockHashBase)
  decide

theorem roomy_of_records {σ : Store} (h : ∀ e ∈ σ.toList, parseLength e.2 ≤ 2^31) : Roomy σ := by
  intro key
  rw [lengthOf]
  cases hget : KV.get σ (lengthKey key) with
  | none => exact Nat.zero_le _
  | some v => exact h _ (Std.ExtTreeMap.mem_toList_iff_getElem?_eq_some.mpr hget)

theorem IndexerStep.next {prog : IndexerProgram} {start n : Nat} {rt : MetashrewRuntime}
    {chain : List NodeBlock} {b : NodeBlock} (hroom : ∀ e ∈ rt.db.toList, parseLength e.2 ≤ 2^31)
    (hfirst : chain = [] → n = start) (hn : n<2^32-1)
    (hok : (rt.indexBlock prog n b .none).2.toBool = true) :
    IndexerStep prog start ⟨rt.db,chain,true⟩ ⟨(rt.indexBlock prog n b .none).1.db,chain ++ [b],true⟩ := by
  cases h : rt.indexBlock prog n b .none with
  | mk rt' res =>
    rw [h] at hok
    cases res with
    | error e => cases hok
    | ok u => exact .indexed (roomy_of_records hroom) hfirst hn h

/-- A node over a store that a rollback has finished with. -/
@[irreducible] def MetashrewRuntime.rewound (rt : MetashrewRuntime) (r : Nat) : MetashrewRuntime :=
  .new ((rollbackToHeight r).finalState rt.db) 0 0

theorem IndexerStep.rewind {prog : IndexerProgram} {start r : Nat} {rt : MetashrewRuntime}
    {chain : List NodeBlock} (hlo : start ≤ r) (hhi : r < start+chain.length)
    (hok : ((rollbackToHeight r).run rt.db).result.toBool = true) :
    IndexerStep prog start ⟨rt.db,chain,true⟩ ⟨(rt.rewound r).db,chain.take (r+1-start),true⟩ := by
  refine .rolledBack hlo hhi .refl ?_
  rw [MetashrewRuntime.rewound, Prog.exec]
  cases h : ((rollbackToHeight r).run rt.db).result with
  | error e =>
    rw [h] at hok
    cases hok
  | ok u => rfl

@[irreducible] def genesisIndexed : MetashrewRuntime :=
  ((MetashrewRuntime.new ∅ 0 0).indexBlock appendProgram 0 ⟨[1],[1]⟩ .none).1

@[irreducible] def staleBlock : MetashrewRuntime := (genesisIndexed.indexBlock appendProgram 1 ⟨[2],[2]⟩ .none).1

@[irreducible] def reorgedBlock : MetashrewRuntime :=
  ((staleBlock.rewound 0).indexBlock appendProgram 1 ⟨[3],[3]⟩ .none).1

theorem staleBlock_reached :
    Node.Reached appendProgram 0 ⟨staleBlock.db,[⟨[1],[1]⟩,⟨[2],[2]⟩],true⟩ := by
  have h1 : IndexerStep appendProgram 0 ⟨(MetashrewRuntime.new ∅ 0 0).db,[],true⟩
      ⟨genesisIndexed.db,[⟨[1],[1]⟩],true⟩ := by
    rw [genesisIndexed]
    exact .next (by decide) (fun _ => rfl) (by decide) (by decide)
  have h2 : IndexerStep appendProgram 0 ⟨genesisIndexed.db,[⟨[1],[1]⟩],true⟩
      ⟨staleBlock.db,[⟨[1],[1]⟩,⟨[2],[2]⟩],true⟩ := by
    rw [staleBlock]
    exact .next (by decide +kernel) (fun h => by cases h) (by decide) (by decide +kernel)
  exact (Relation.ReflTransGen.single h1).tail h2

theorem reorgedBlock_reached :
    Node.Reached appendProgram 0 ⟨reorgedBlock.db,[⟨[1],[1]⟩,⟨[3],[3]⟩],true⟩ := by
  have h3 : IndexerStep appendProgram 0 ⟨staleBlock.db,[⟨[1],[1]⟩,⟨[2],[2]⟩],true⟩
      ⟨(staleBlock.rewound 0).db,[⟨[1],[1]⟩],true⟩ :=
    .rewind (by decide) (by decide) (by decide +kernel)
  have h4 : IndexerStep appendProgram 0 ⟨(staleBlock.rewound 0).db,[⟨[1],[1]⟩],true⟩
      ⟨reorgedBlock.db,[⟨[1],[1]⟩,⟨[3],[3]⟩],true⟩ := by
    rw [reorgedBlock]
    exact .next (by decide +kernel) (fun h => by cases h) (by decide) (by decide +kernel)
  exact (staleBlock_reached.tail h3).tail h4

/-- Block 1 is replaced by another one. -/
theorem reorgs_leave_no_trace_replaced : ∃ rt',
    (MetashrewRuntime.new ∅ 0 0).indexChain appendProgram 0 [⟨[1],[1]⟩,⟨[3],[3]⟩] = .ok rt' ∧
      AlikeFor 0 [⟨[1],[1]⟩,⟨[3],[3]⟩] rt'.db reorgedBlock.db :=
  reorgs_leave_no_trace appendProgram_plain reorgedBlock_reached ⟨rfl,rfl,by decide⟩ rfl

end Metashrew
