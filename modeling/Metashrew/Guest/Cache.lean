import Metashrew.Execution.MultiFlush
import Metashrew.Guest.Order
import Metashrew.Recovery.Reapply
import Metashrew.Support.Pointer
import Metashrew.Sync.Runs

namespace Metashrew

open Bytes Durable Versioned

/-- What a guest calls of its library while it runs a block. -/
inductive GuestCall where
  | get (key : Bytes)
  | set (key value : Bytes)

/-- The pair of a `set`. -/
def GuestCall.pair : GuestCall → Option (Bytes × Bytes)
  | get _ => none
  | set key value => some (key,value)

/-- The pairs that some calls set, in order. -/
def setsOf (calls : List GuestCall) : List (Bytes × Bytes) := calls.filterMap GuestCall.pair

def latestSet (key : Bytes) (calls : List GuestCall) : Option Bytes :=
  (updatesOf key (setsOf calls)).getLast?

/-- The calls in one block, with `flush` after them. What they set fits the 32-bit memory of the
guest. -/
structure GuestBlock where
  calls : List GuestCall
  short : (setsOf calls).length<2^32 ∧ ∀ kv ∈ setsOf calls, kv.1.length<2^32

def callsOf (blocks : List GuestBlock) : List GuestCall := blocks.flatMap GuestBlock.calls

namespace GuestMemory

/-- `get` against a host that can panic. -/
def getFrom (host : Bytes → Except String Bytes) (m : GuestMemory) (key : Bytes) :
    Except String (GuestMemory × Bytes) :=
  match KV.get m.cache key with
  | some value => .ok (m,value)
  | none => do
    let value ← host key
    return ({ m with cache := m.cache.insert key value },value)

def perform (host : Bytes → Except String Bytes) : GuestMemory → List GuestCall →
    Except String GuestMemory
  | m, [] => .ok m
  | m, .get key::calls => do
    let got ← m.getFrom host key
    perform host got.1 calls
  | m, .set key value::calls => perform host (m.set key value) calls

/-- The statics of a new instance. -/
def fresh : GuestMemory := ⟨∅,[]⟩

/-- What `get` returns after some calls. -/
def getAfter (host : Bytes → Except String Bytes) (done : List GuestCall) (key : Bytes) :
    Except String Bytes := do
  let m ← fresh.perform host done
  let got ← m.getFrom host key
  return got.2

/-- The message of `flush`. More than the memory can hold is a trap. -/
def message (m : GuestMemory) : Option Flush :=
  m.flushed.bind fun kvs =>
    if h : kvs.length<2^32 ∧ ∀ kv ∈ kvs, kv.1.length<2^32 then some ⟨kvs,h⟩ else none

end GuestMemory

/-- How the host processes a block; the block hashes are those of the node. -/
inductive CommitPath where
  | legacy
  | atomic (hash : Nat → Bytes)

namespace MetashrewRuntime

/-- The host takes the flush of a guest and commits its block. -/
def commitFlushed (rt : MetashrewRuntime) (path : CommitPath) (height : Nat) (f : Flush) :
    Except Fault MetashrewRuntime :=
  match path with
  | .legacy =>
    match rt.processBlock (.clean [f]) height with
    | (rt,.ok _) => .ok rt
    | (_,.error e) => .error e
  | .atomic hash =>
    match rt.processBlockAtomic (.clean [f]) height (hash height) with
    | (rt,.ok result) => do
      let done ← (commitAtomic result.height result.blockHash result.stateRoot result.batchData).exec rt.db
      return { rt with db := done.2 }
    | (_,.error e) => .error e

/-- One block: the guest runs on fresh memory, its reads go to the host at this height. -/
def indexGuest (rt : MetashrewRuntime) (path : CommitPath) (height : Nat) (b : GuestBlock) :
    Except Fault MetashrewRuntime :=
  match GuestMemory.fresh.perform { rt with height }.hostGet b.calls with
  | .error text => .error (.panic text)
  | .ok m =>
    match m.message with
    | none => .error (.panic "called Option::unwrap() on a None value")
    | some f => rt.commitFlushed path height f

def indexGuests (path : CommitPath) : MetashrewRuntime → Nat → List GuestBlock →
    Except Fault MetashrewRuntime
  | rt, _, [] => .ok rt
  | rt, height, b::bs => do indexGuests path (← rt.indexGuest path height b) (height+1) bs

end MetashrewRuntime

/-- One more block `b`, which leads from `rt` to `rt'`. -/
structure CacheAgrees (rt rt' : MetashrewRuntime) (before : List GuestBlock) (b : GuestBlock) :
    Prop where
  committed : ∀ key, getCurrent (rocksDB rt.db) key = .ok (latestSet key (callsOf before))
  gets : ∀ done key rest, b.calls = done ++ .get key::rest →
    GuestMemory.getAfter { rt with height := before.length }.hostGet done key =
      .ok (((latestSet key done).or (latestSet key (callsOf before))).getD [])
  sets : ∀ key value, latestSet key b.calls = some value →
    getAtHeight (rocksDB rt'.db) key before.length = .ok (some value)

namespace GuestMemory

variable {answer : Bytes → Bytes} {m : GuestMemory} {done calls : List GuestCall} {key : Bytes}

theorem getFrom_ok (answer : Bytes → Bytes) (m : GuestMemory) (key : Bytes) :
    m.getFrom (fun key => .ok (answer key)) key = .ok (m.get answer key,m.read answer key) := by
  rw [getFrom, get, read]
  cases KV.get m.cache key <;> rfl

theorem setsOf_concat (done : List GuestCall) (key value : Bytes) :
    setsOf (done ++ [.set key value]) = setsOf done ++ [(key,value)] := by
  rw [setsOf, List.filterMap_append]
  rfl

theorem latestSet_concat_set (done : List GuestCall) (key value key' : Bytes) :
    latestSet key' (done ++ [.set key value]) =
      if key = key' then some value else latestSet key' done := by
  rw [latestSet, setsOf_concat, updatesOf_append, updatesOf_cons, latestSet]
  by_cases he : key = key'
  · rw [if_pos he, if_pos he, List.getLast?_append]
    rfl
  · rw [if_neg he, if_neg he]
    simp [updatesOf]

theorem setsOf_concat_get (done : List GuestCall) (key : Bytes) :
    setsOf (done ++ [.get key]) = setsOf done := by
  rw [setsOf, List.filterMap_append]
  exact List.append_nil _

/-- The memory after some calls: what each key reads as, the queue, and a value for each queued
key. -/
structure After (answer : Bytes → Bytes) (m : GuestMemory) (done : List GuestCall) : Prop where
  reads : ∀ key, m.read answer key = (latestSet key done).getD (answer key)
  queued : m.toFlush = (setsOf done).map Prod.fst
  held : ∀ key ∈ m.toFlush, KV.get m.cache key ≠ none

theorem After.init (answer : Bytes → Bytes) : After answer fresh [] where
  reads key := by
    rw [read, fresh, KV.get_empty]
    rfl
  queued := rfl
  held key hk := absurd hk List.not_mem_nil

theorem After.get (h : After answer m done) (key : Bytes) :
    After answer (m.get answer key) (done ++ [.get key]) := by
  have hkeep : ∀ key', KV.get m.cache key' ≠ none → KV.get (m.get answer key).cache key' ≠ none := by
    intro key' hk'
    rw [GuestMemory.get]
    cases hk : KV.get m.cache key with
    | some value => exact hk'
    | none =>
      have hput : KV.get (m.cache.insert key (answer key)) key' =
          if key = key' then some (answer key) else KV.get m.cache key' :=
        KV.get_write_put m.cache key key' (answer key)
      show KV.get (m.cache.insert key (answer key)) key' ≠ none
      rw [hput]
      split_ifs
      · simp
      · exact hk'
  have hqueue : (m.get answer key).toFlush = m.toFlush := by
    rw [GuestMemory.get]
    cases KV.get m.cache key <;> rfl
  refine ⟨?_,?_,?_⟩
  · intro key'
    rw [read_get, latestSet, setsOf_concat_get]
    exact h.reads key'
  · rw [hqueue, h.queued, setsOf_concat_get]
  · intro key' hk'
    rw [hqueue] at hk'
    exact hkeep key' (h.held key' hk')

theorem After.set (h : After answer m done) (key value : Bytes) :
    After answer (m.set key value) (done ++ [.set key value]) := by
  have hput : ∀ key', KV.get (m.set key value).cache key' =
      if key = key' then some value else KV.get m.cache key' := fun key' =>
    KV.get_write_put m.cache key key' value
  refine ⟨?_,?_,?_⟩
  · intro key'
    rw [read, hput, latestSet_concat_set]
    split_ifs
    · rfl
    · exact h.reads key'
  · rw [setsOf_concat, List.map_append, ← h.queued]
    rfl
  · intro key' hk'
    rw [hput]
    split_ifs with he
    · simp
    · apply h.held
      rcases List.mem_append.mp hk' with hk' | hk'
      · exact hk'
      · exact absurd (List.mem_singleton.mp hk').symm he

/-- A host that answers every read never stops the guest. -/
theorem After.perform (h : After answer m done) (calls : List GuestCall) :
    ∃ m', m.perform (fun key => .ok (answer key)) calls = .ok m' ∧ After answer m' (done ++ calls) := by
  induction calls generalizing m done with
  | nil =>
    refine ⟨m,rfl,?_⟩
    rwa [List.append_nil]
  | cons call calls ih =>
    cases call with
    | get key =>
      obtain ⟨m',hm',h'⟩ := ih (h.get key)
      refine ⟨m',?_,?_⟩
      · rw [GuestMemory.perform, getFrom_ok]
        exact hm'
      · rwa [List.append_assoc] at h'
    | set key value =>
      obtain ⟨m',hm',h'⟩ := ih (h.set key value)
      refine ⟨m',hm',?_⟩
      rwa [List.append_assoc] at h'

/-- `get` is the latest `set`, else what the host answers. -/
theorem getAfter_eq (answer : Bytes → Bytes) (done : List GuestCall) (key : Bytes) :
    getAfter (fun key => .ok (answer key)) done key =
      .ok ((latestSet key done).getD (answer key)) := by
  obtain ⟨m,hm,h⟩ := (After.init answer).perform done
  rw [getAfter, hm]
  show (do
    let got ← m.getFrom (fun key => .ok (answer key)) key
    return got.2 : Except String Bytes) = _
  rw [getFrom_ok, ← List.nil_append done, ← h.reads]
  rfl

/-- The flushed pairs: each `set` with the latest value of its key. -/
theorem After.flushed (h : After answer m done) :
    m.flushed = some ((setsOf done).map fun kv => (kv.1,(latestSet kv.1 done).getD [])) := by
  rw [flushed_eq, if_pos h.held, h.queued, List.map_map]
  congr 1
  apply List.map_congr_left
  intro kv hkv
  have hq : kv.1 ∈ m.toFlush := by
    rw [h.queued]
    exact List.mem_map_of_mem hkv
  obtain ⟨value,hvalue⟩ := Option.ne_none_iff_exists'.mp (h.held kv.1 hq)
  have hread := h.reads kv.1
  have hsome : latestSet kv.1 done ≠ none := by
    rw [latestSet, ne_eq, List.getLast?_eq_none_iff, updatesOf_eq_nil]
    push Not
    exact ⟨kv,hkv,rfl⟩
  obtain ⟨latest,hlatest⟩ := Option.ne_none_iff_exists'.mp hsome
  rw [read, hvalue, hlatest] at hread
  show (kv.1,(KV.get m.cache kv.1).getD []) = _
  rw [hvalue, hlatest]
  exact congrArg (Prod.mk kv.1) hread

end GuestMemory

section Pairs

variable {calls : List GuestCall} {key : Bytes}

/-- What `flush` hands over after some calls. -/
def flushedPairs (calls : List GuestCall) : List (Bytes × Bytes) :=
  (setsOf calls).map fun kv => (kv.1,(latestSet kv.1 calls).getD [])

theorem updatesOf_flushedPairs (calls : List GuestCall) (key : Bytes) :
    updatesOf key (flushedPairs calls) =
      (updatesOf key (setsOf calls)).map fun _ => (latestSet key calls).getD [] := by
  rw [flushedPairs]
  induction setsOf calls with
  | nil => rfl
  | cons kv kvs ih =>
    rw [List.map_cons, updatesOf_cons, updatesOf_cons, ih]
    by_cases he : kv.1 = key
    · rw [if_pos he, if_pos he, List.map_cons, he]
    · rw [if_neg he, if_neg he]

/-- The last update of a key is its latest value. -/
theorem updatesOf_flushedPairs_getLast? (calls : List GuestCall) (key : Bytes) :
    (updatesOf key (flushedPairs calls)).getLast? = latestSet key calls := by
  rw [updatesOf_flushedPairs, List.getLast?_map, latestSet]
  cases (updatesOf key (setsOf calls)).getLast? <;> rfl

theorem callsOf_concat (before : List GuestBlock) (b : GuestBlock) :
    callsOf (before ++ [b]) = callsOf before ++ b.calls := by
  rw [callsOf, List.flatMap_append, List.flatMap_singleton]
  rfl

theorem setsOf_append (calls calls' : List GuestCall) :
    setsOf (calls ++ calls') = setsOf calls ++ setsOf calls' := List.filterMap_append

theorem latestSet_append (calls calls' : List GuestCall) (key : Bytes) :
    latestSet key (calls ++ calls') = (latestSet key calls').or (latestSet key calls) := by
  rw [latestSet, setsOf_append, updatesOf_append, List.getLast?_append]
  rfl

end Pairs

theorem GuestMemory.After.message {answer : Bytes → Bytes} {m : GuestMemory} {b : GuestBlock}
    (h : After answer m b.calls) : ∃ f, m.message = some f ∧ f.list = flushedPairs b.calls := by
  have hshort : (flushedPairs b.calls).length<2^32 ∧
      ∀ kv ∈ flushedPairs b.calls, kv.1.length<2^32 := by
    constructor
    · rw [flushedPairs, List.length_map]
      exact b.short.1
    · intro kv hkv
      obtain ⟨kv',hkv',rfl⟩ := List.mem_map.mp hkv
      exact b.short.2 kv' hkv'
  refine ⟨⟨flushedPairs b.calls,hshort⟩,?_,rfl⟩
  rw [GuestMemory.message, h.flushed]
  exact dif_pos hshort

/-- The commit takes the next height. The legacy path takes any. -/
def CommitPath.Accepts (path : CommitPath) (σ : Store) (n : Nat) : Prop :=
  match path with
  | .legacy => True
  | .atomic _ => n<2^32 → isFreshDb σ = true ∨ n = saturatingSucc (getIndexedHeight σ)

namespace MetashrewRuntime

variable {rt rt' : MetashrewRuntime} {L : Ledger} {f : Flush} {n : Nat} {path : CommitPath}

/-- On both paths the next block appends its flush. -/
theorem commitFlushed_spec (hrt : rt.Idle) (hn : n<2^32) (hσ : HoldsHistories rt.db L.history)
    (hs : ∀ key, ((L.appendAll n f.list).history key).length<2^32) (hacc : path.Accepts rt.db n) :
    ∃ rt', rt.commitFlushed path n f = .ok rt' ∧ rt'.Idle ∧
      HoldsHistories rt'.db (L.appendAll n f.list).history ∧ path.Accepts rt'.db (n+1) := by
  have hone := pairsOf_singleton f
  cases path with
  | legacy =>
    have hspec : HoldsHistories (rt.processBlock (.clean [f]) n).1.db
          (L.appendAll n (pairsOf [f])).history ∧
        ([f] ≠ [] → (rt.processBlock (.clean [f]) n).2 = .ok ()) :=
      processBlock_clean hrt hσ (by rwa [hone])
    obtain ⟨hh,hok⟩ := hspec
    have hres := hok (List.cons_ne_nil f [])
    rw [hone] at hh
    cases hblock : rt.processBlock (.clean [f]) n with
    | mk rt' result =>
      rw [hblock] at hh hres
      dsimp only at hres
      rw [hres] at hblock
      refine ⟨rt',?_,(processBlock_ok_idle hrt hblock).2,hh,trivial⟩
      rw [commitFlushed, hblock]
  | atomic hash =>
    have hlast : [f].getLast? = some f := rfl
    obtain ⟨root,batch,hb,hres⟩ := processBlockAtomic_clean hrt hσ (hash n)
      (fun g hg => by rwa [List.mem_singleton.mp hg]) hlast
    have hdb := rt.processBlockAtomic_db (.clean [f]) n (hash n)
    obtain ⟨built,hbuild⟩ := build_of_flushBatch hb
    have h0 : ∀ key, (L.history key).length<2^32 := by
      intro key
      have hk := hs key
      rw [Ledger.appendAll_history, List.length_append] at hk
      omega
    obtain ⟨hh,_⟩ := build_histories hσ h0 hbuild
    cases hblock : rt.processBlockAtomic (.clean [f]) n (hash n) with
    | mk rt1 result =>
      rw [hblock] at hdb hres
      dsimp only at hdb hres
      rw [hres] at hblock
      have hidle := processBlockAtomic_ok_idle hrt hblock
      have hrun := Prog.exec_ok (commitAtomic_run (hacc hn) (hash n) root batch)
      refine ⟨{ rt1 with db := KV.write rt.db (commitOps n (hash n) root batch) },?_,
        ⟨hidle.slot,hidle.failure,hidle.adapter⟩,commitOps_histories hh (hash n) root,?_⟩
      · rw [commitFlushed, hblock]
        dsimp only
        rw [hdb, hrun]
        rfl
      · intro hn'
        right
        show n+1 = saturatingSucc (getIndexedHeight (KV.write rt.db _))
        rw [commitOps_indexed hn, saturatingSucc]
        omega

end MetashrewRuntime

/-- No block sets a key whose record names collide with the internal ones. -/
def PlainSets (blocks : List GuestBlock) : Prop :=
  ∀ b ∈ blocks, ∀ kv ∈ setsOf b.calls, ¬Reserved kv.1

/-- How often some blocks set a key. -/
def setCount (key : Bytes) (blocks : List GuestBlock) : Nat :=
  (updatesOf key (setsOf (callsOf blocks))).length

theorem setCount_concat (key : Bytes) (before : List GuestBlock) (b : GuestBlock) :
    setCount key (before ++ [b]) = setCount key before + (updatesOf key (setsOf b.calls)).length := by
  rw [setCount, callsOf_concat, setsOf_append, updatesOf_append, List.length_append, setCount]

/-- What holds after some blocks: the history of a key has one entry for each `set`, and ends with the
latest. -/
structure ChainOf (path : CommitPath) (rt : MetashrewRuntime) (L : Ledger)
    (before : List GuestBlock) : Prop where
  idle : rt.Idle
  accepts : path.Accepts rt.db before.length
  holds : HoldsHistories rt.db L.history
  tidy : L.Tidy before.length
  latest : ∀ key, (L.history key).getLast?.map Prod.snd = latestSet key (callsOf before)
  count : ∀ key, (L.history key).length = setCount key before

namespace ChainOf

variable {path : CommitPath} {rt : MetashrewRuntime} {L : Ledger} {before : List GuestBlock}
  {b : GuestBlock}

theorem init (path : CommitPath) (hrt : rt.Idle) (hdb : rt.db = ∅) : ChainOf path rt .empty [] where
  idle := hrt
  accepts := by
    rw [hdb]
    cases path with
    | legacy => trivial
    | atomic hash =>
      intro _
      left
      decide +kernel
  holds := by
    rw [hdb]
    exact HoldsHistories.empty
  tidy := .empty 0
  latest _ := rfl
  count _ := rfl

/-- The host answers with the values of the blocks before. -/
theorem hostGet (h : ChainOf path rt L before) (hn : before.length<2^32)
    (hcount : ∀ key, setCount key before ≤ 2^31) (key : Bytes) :
    { rt with height := before.length }.hostGet key =
      .ok ((latestSet key (callsOf before)).getD []) := by
  have htidy : (L.appendAll before.length (pairsOf [])).Tidy (before.length+1) :=
    h.tidy.mono (Nat.le_succ _)
  have hlen : (L.history key).length ≤ 2^31 := by
    rw [h.count]
    exact hcount key
  have hget : { rt with height := before.length }.hostGet key =
      .ok (seenAt L before.length [] key) := MetashrewRuntime.hostGet_eq htidy hn h.holds hlen
  rw [hget, ← h.latest]
  cases before with
  | cons b bs =>
    rw [seenAt_nil]
    exact congrArg Except.ok (seenAt_pos h.tidy (Nat.succ_pos _) [] [] key)
  | nil =>
    rw [h.tidy.history_nil, seenAt_nil]
    exact congrArg Except.ok (seenAt_zero h.tidy [] [] key)

/-- One block. -/
theorem step (h : ChainOf path rt L before) (hn : before.length<2^32) (hp : PlainSets [b])
    (hcount : ∀ key, setCount key (before ++ [b]) ≤ 2^31) :
    ∃ rt', rt.indexGuest path before.length b = .ok rt' ∧
      ChainOf path rt' (L.appendAll before.length (flushedPairs b.calls)) (before ++ [b]) ∧
      CacheAgrees rt rt' before b := by
  have hcountL : ∀ key, setCount key before ≤ 2^31 := by
    intro key
    have hk := hcount key
    rw [setCount_concat] at hk
    omega
  have hhost : { rt with height := before.length }.hostGet =
      fun key => .ok ((latestSet key (callsOf before)).getD []) :=
    funext (h.hostGet hn hcountL)
  obtain ⟨m,hm,hafter⟩ := (GuestMemory.After.init
    fun key => (latestSet key (callsOf before)).getD []).perform b.calls
  rw [List.nil_append] at hafter
  obtain ⟨f,hf,hlist⟩ := hafter.message
  have hlen : ∀ key, ((L.appendAll before.length (flushedPairs b.calls)).history key).length =
      setCount key (before ++ [b]) := by
    intro key
    rw [Ledger.appendAll_history, List.length_append, List.length_map, updatesOf_flushedPairs,
      List.length_map, h.count, setCount_concat]
  have hs : ∀ key, ((L.appendAll before.length (flushedPairs b.calls)).history key).length<2^32 := by
    intro key
    have hk := hcount key
    rw [hlen]
    omega
  obtain ⟨rt',hcommit,hidle,hσ,hacc⟩ := MetashrewRuntime.commitFlushed_spec (f := f) h.idle hn h.holds
    (by rwa [hlist]) h.accepts
  rw [hlist] at hσ
  have hplain : f.Plain := by
    intro kv hkv
    rw [hlist] at hkv
    obtain ⟨kv',hkv',rfl⟩ := List.mem_map.mp hkv
    exact hp b List.mem_cons_self kv' hkv'
  have hone : pairsOf [f] = flushedPairs b.calls := (pairsOf_singleton f).trans hlist
  have htidy := (h.tidy.mono (Nat.le_succ _)).append [f] (by simpa using hplain) (by rwa [hone])
  rw [hone] at htidy
  have hlatest : ∀ key, ((L.appendAll before.length (flushedPairs b.calls)).history key).getLast?.map
      Prod.snd = latestSet key (callsOf (before ++ [b])) := by
    intro key
    rw [Ledger.appendAll_history, callsOf_concat, latestSet_append, ← h.latest,
      ← updatesOf_flushedPairs_getLast? b.calls, List.getLast?_append, List.getLast?_map]
    cases (updatesOf key (flushedPairs b.calls)).getLast? <;> rfl
  have hindex : rt.indexGuest path before.length b = .ok rt' := by
    rw [MetashrewRuntime.indexGuest, hhost, hm]
    dsimp only
    rw [hf]
    exact hcommit
  refine ⟨rt',hindex,⟨hidle,?_,hσ,?_,hlatest,hlen⟩,?_,?_,?_⟩
  · rwa [List.length_append]
  · rwa [List.length_append]
  · intro key
    rw [h.tidy.getCurrent h.holds, h.latest]
  · intro done key rest _
    rw [hhost, GuestMemory.getAfter_eq]
    cases latestSet key done <;> rfl
  · intro key value hvalue
    have hkey : ((L.appendAll before.length (flushedPairs b.calls)).history key).length ≤ 2^31 := by
      rw [hlen]
      exact hcount key
    have hle : ∀ e ∈ (updatesOf key (flushedPairs b.calls)).map (fun v => (before.length,v)),
        e.1 ≤ before.length := by
      intro e he
      obtain ⟨v,_,rfl⟩ := List.mem_map.mp he
      exact le_rfl
    rw [htidy.getAtHeight hn hσ hkey, Ledger.appendAll_history, asOf_append_of_le _ hle,
      List.getLast?_map, updatesOf_flushedPairs_getLast?, hvalue]
    rfl

theorem run (h : ChainOf path rt L before) (blocks : List GuestBlock)
    (hn : (before ++ blocks).length ≤ 2^32) (hp : PlainSets blocks)
    (hcount : ∀ key, setCount key (before ++ blocks) ≤ 2^31) :
    ∃ rt' L', rt.indexGuests path before.length blocks = .ok rt' ∧
      ChainOf path rt' L' (before ++ blocks) := by
  induction blocks generalizing rt L before with
  | nil =>
    refine ⟨rt,L,rfl,?_⟩
    rwa [List.append_nil]
  | cons b bs ih =>
    have hsplit : before ++ b::bs = before ++ [b] ++ bs := by simp
    rw [hsplit] at hn hcount ⊢
    have hn0 : before.length<2^32 := by
      simp only [List.length_append, List.length_singleton] at hn
      omega
    have hcountb : ∀ key, setCount key (before ++ [b]) ≤ 2^31 := by
      intro key
      have hk := hcount key
      rw [setCount, callsOf, List.flatMap_append, setsOf_append, updatesOf_append,
        List.length_append] at hk
      exact (Nat.le_add_right _ _).trans hk
    obtain ⟨rt1,hblock,hchain,_⟩ := h.step hn0
      (fun x hx => hp x (List.mem_singleton.mp hx ▸ List.mem_cons_self)) hcountb
    obtain ⟨rt',L',hrest,h'⟩ := ih hchain hn (fun x hx => hp x (List.mem_cons_of_mem b hx)) hcount
    refine ⟨rt',L',?_,h'⟩
    rw [MetashrewRuntime.indexGuests, hblock]
    rw [List.length_append] at hrest
    exact hrest

end ChainOf

/-- While no block sets a key with internal record names, and no key more than 2^31 times, every
block from height 0 on succeeds and its cache agrees with the chain. -/
theorem guest_cache_agrees (path : CommitPath) (rt : MetashrewRuntime) (hrt : rt.Idle)
    (hdb : rt.db = ∅) (before : List GuestBlock) (b : GuestBlock) (hn : before.length<2^32)
    (hp : PlainSets (before ++ [b])) (hcount : ∀ key, setCount key (before ++ [b]) ≤ 2^31) :
    ∃ rt₁ rt₂, rt.indexGuests path 0 before = .ok rt₁ ∧
      rt₁.indexGuest path before.length b = .ok rt₂ ∧ CacheAgrees rt₁ rt₂ before b := by
  have hcountL : ∀ key, setCount key before ≤ 2^31 := by
    intro key
    have hk := hcount key
    rw [setCount_concat] at hk
    omega
  have hpL : PlainSets before := fun x hx => hp x (List.mem_append_left [b] hx)
  have hpb : PlainSets [b] := fun x hx => hp x (List.mem_append_right before hx)
  obtain ⟨rt₁,L,hrun,hchain⟩ := (ChainOf.init path hrt hdb).run before hn.le hpL hcountL
  obtain ⟨rt₂,hblock,_,hagree⟩ := hchain.step hn hpb hcount
  exact ⟨rt₁,rt₂,hrun,hblock,hagree⟩

/-- The second block reads a key before and after it sets it twice, and a key that nobody has set. -/
theorem guest_cache_agrees_two_blocks :
    ∃ rt₁ rt₂, (MetashrewRuntime.new ∅ 0 0).indexGuests (.atomic fun _ => [9]) 0
        [⟨[.set [7] [1]],by decide⟩] = .ok rt₁ ∧
      rt₁.indexGuest (.atomic fun _ => [9]) 1
        ⟨[.get [7],.set [7] [2],.set [7] [3],.get [7],.get [8]],by decide⟩ = .ok rt₂ ∧
      CacheAgrees rt₁ rt₂ [⟨[.set [7] [1]],by decide⟩]
        ⟨[.get [7],.set [7] [2],.set [7] [3],.get [7],.get [8]],by decide⟩ := by
  apply guest_cache_agrees (.atomic fun _ => [9]) (.new ∅ 0 0) ⟨rfl,rfl,by decide⟩ rfl
    [⟨[.set [7] [1]],by decide⟩]
  · decide
  · unfold PlainSets
    decide
  · intro key
    exact (updatesOf_length_le key _).trans (by decide)

/-- A key of which the manifests are the records: the manifest of block 0 overwrites its first
value. -/
private def setsManifestBase : GuestBlock := ⟨[.set manifestBase [1]],by decide⟩

private def getsManifestBase : GuestBlock := ⟨[.get manifestBase],by decide⟩

theorem guest_cache_internal_key :
    ¬∀ (path : CommitPath) (rt rt₁ rt₂ : MetashrewRuntime) (before : List GuestBlock) (b : GuestBlock),
      rt.Idle → rt.db = ∅ → rt.indexGuests path 0 before = .ok rt₁ →
      rt₁.indexGuest path before.length b = .ok rt₂ → CacheAgrees rt₁ rt₂ before b := by
  intro h
  have hread : ((MetashrewRuntime.new ∅ 0 0).indexGuests .legacy 0 [setsManifestBase]).toOption.map
      (fun rt => (GuestMemory.getAfter { rt with height := 1 }.hostGet [] manifestBase).toOption) =
      some (some []) := by decide +kernel
  have hnext : ((MetashrewRuntime.new ∅ 0 0).indexGuests .legacy 0 [setsManifestBase]).toOption.map
      (fun rt => (rt.indexGuest .legacy 1 getsManifestBase).toBool) = some true := by decide +kernel
  cases hfirst : (MetashrewRuntime.new ∅ 0 0).indexGuests .legacy 0 [setsManifestBase] with
  | error e =>
    rw [hfirst] at hread
    cases hread
  | ok rt₁ =>
    rw [hfirst] at hread hnext
    cases hsecond : rt₁.indexGuest .legacy 1 getsManifestBase with
    | error e =>
      change some (rt₁.indexGuest .legacy 1 getsManifestBase).toBool = some true at hnext
      rw [hsecond] at hnext
      cases hnext
    | ok rt₂ =>
      have hagree := h .legacy (.new ∅ 0 0) rt₁ rt₂ [setsManifestBase] getsManifestBase
        ⟨rfl,rfl,by decide⟩ rfl hfirst hsecond
      have hgot : (GuestMemory.getAfter { rt₁ with height := 1 }.hostGet [] manifestBase).toOption =
          some [1] := congrArg Except.toOption (hagree.gets [] manifestBase [] rfl)
      exact absurd (hgot.symm.trans (Option.some.inj hread)) (by decide)

end Metashrew
