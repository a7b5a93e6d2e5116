import Metashrew.Guest.Cache
import Metashrew.Node.State
import Metashrew.Views.Reads

namespace Metashrew

open Bytes Durable Versioned

namespace GuestMemory

/-- `get` in a guest: a value that is not cached is asked of the host. -/
def getThen (m : GuestMemory) (key : Bytes) (next : Bytes → GuestMemory → Guest) : Guest :=
  match KV.get m.cache key with
  | some value => next value m
  | none => .ask key fun value => next value { m with cache := m.cache.insert key value }

/-- `flush` in a guest. -/
def flushThen (m : GuestMemory) (next : Guest) : Guest :=
  match m.message with
  | none => .stop (some "called `Option::unwrap()` on a `None` value")
  | some f => .emit f next

end GuestMemory

namespace MetashrewMinimal

structure OutPoint where
  txid : Bytes
  vout : Nat
  deriving DecidableEq

/-- What the indexer uses of a transaction: the outpoints it spends and the scripts of its outputs. -/
structure Transaction where
  txid : Bytes
  input : List OutPoint
  output : List Bytes

structure Block where
  blockHash : Bytes
  txdata : List Transaction

/-- `consensus_decode::<bitcoin::Block>`. -/
abbrev BlockCodec := Bytes → Option Block

def protostoneMagic : Bytes := ascii "PRTO"

def extractProtostonePayload (script : Bytes) : Option Bytes :=
  if script.length < 2 ∨ script[0]? ≠ some 0x6a then none
  else
    let pushLen := (script.getD 1 0).toNat
    if pushLen = 0 ∨ 75 < pushLen then none
    else if script.length < 2+pushLen then none
    else
      let payload := (script.drop 2).take pushLen
      if payload.length < protostoneMagic.length+1+8 then none
      else if payload.take protostoneMagic.length ≠ protostoneMagic then none
      else some (payload.drop protostoneMagic.length)

def blockKey (height : Nat) : Bytes := ascii "/blocks/" ++ decimal height
def blockHashKey (height : Nat) : Bytes := ascii "/block-hashes/" ++ decimal height
def trackerKey : Bytes := ascii "/blocktracker"
def txidsKey (height : Nat) : Bytes := ascii "/txids-at-height/" ++ decimal height
def outpointKey (txid : Bytes) (vout : Nat) : Bytes :=
  ascii "/outpoint/" ++ hexEncode txid ++ ascii ":" ++ decimal vout
def traceKey (txid : Bytes) : Bytes := ascii "/trace/" ++ hexEncode txid

def writeOutpoint (m : GuestMemory) (txid : Bytes) (vout : Nat) (value : Bytes) : GuestMemory :=
  m.set (outpointKey txid vout) value

def writeTrace (m : GuestMemory) (txid trace : Bytes) : GuestMemory := m.set (traceKey txid) trace

/-- One output of a transaction. -/
def indexOutput (tx : Transaction) (m : GuestMemory) (script : Bytes) : GuestMemory :=
  match extractProtostonePayload script with
  | none => m
  | some payload =>
    let opcode := payload.headD 0
    let alkaneId := (payload.drop 1).take 8
    if opcode = 1 then
      writeTrace (writeOutpoint m tx.txid 1 alkaneId) tx.txid (1::alkaneId)
    else if opcode = 2 then
      writeTrace (writeOutpoint m tx.txid 1 []) tx.txid (2::alkaneId)
    else if opcode = 3 then
      let m := match tx.input.head? with
        | some prev => writeOutpoint m prev.txid prev.vout []
        | none => m
      writeTrace (writeOutpoint m tx.txid 1 alkaneId) tx.txid (3::alkaneId)
    else writeTrace m tx.txid []

/-- `_start`: block data, block hash, tracker, the outputs of all transactions, and the order of the
transactions. -/
def start (decode : BlockCodec) : IndexerProgram := fun height blockBytes =>
  let m := GuestMemory.fresh.set (blockKey height) blockBytes
  match decode blockBytes with
  | none => .stop (some "called `Result::unwrap()` on an `Err` value")
  | some block =>
    let m := m.set (blockHashKey height) block.blockHash
    m.getThen trackerKey fun tracker m =>
      let m := m.set trackerKey (tracker ++ block.blockHash.take 1)
      let m := block.txdata.foldl (fun m tx => tx.output.foldl (indexOutput tx) m) m
      let m := m.set (txidsKey height) (block.txdata.flatMap Transaction.txid)
      m.flushThen (.stop none)

/-- `consume_sized_int::<u32>` with its `unwrap`. -/
def consumeU32 (input : Bytes) : Option (Nat × Bytes) := do
  let n ← readU32le input
  return (n,input.drop 4)

/-- `read_exact` of a txid. -/
def readTxid (input : Bytes) : Option (Bytes × Bytes) :=
  if input.length < 32 then none else some (input.take 32,input.drop 32)

def getblock (get : Bytes → Bytes) (input : Bytes) : Option Bytes := do
  let (height,_) ← consumeU32 input
  return get (blockKey height)

def blocktracker (get : Bytes → Bytes) (_ : Bytes) : Option Bytes := some (get trackerKey)

def getOutpoint (get : Bytes → Bytes) (input : Bytes) : Option Bytes := do
  let (_,rest) ← consumeU32 input
  let (txid,rest) ← readTxid rest
  let (vout,_) ← consumeU32 rest
  return get (outpointKey txid vout)

def getTrace (get : Bytes → Bytes) (input : Bytes) : Option Bytes := do
  let (_,rest) ← consumeU32 input
  let (txid,_) ← readTxid rest
  return get (traceKey txid)

def getTxidsAtHeight (get : Bytes → Bytes) (input : Bytes) : Option Bytes := do
  let (_,rest) ← consumeU32 input
  let (queryHeight,_) ← consumeU32 rest
  return get (txidsKey queryHeight)

end MetashrewMinimal

/-- A view at a height: its input comes behind the height, its reads are lookups at the height. -/
def viewAt (σ : Store) (symbol : (Bytes → Bytes) → Bytes → Option Bytes) (height : Nat) (input : Bytes) :
    Option Bytes :=
  symbol (fun key => hostValue (getAtHeight (rocksDB σ) key height)) (u32le height ++ input)

namespace MetashrewMinimal

/-- What the indexer keeps. -/
inductive Entry where
  | block (height : Nat)
  | blockHash (height : Nat)
  | tracker
  | txids (height : Nat)
  | outpoint (txid : Bytes) (vout : Nat)
  | trace (txid : Bytes)
  deriving DecidableEq

namespace Entry

def name : Entry → Bytes
  | block h => blockKey h
  | blockHash h => blockHashKey h
  | tracker => trackerKey
  | txids h => txidsKey h
  | outpoint txid vout => outpointKey txid vout
  | trace txid => traceKey txid

/-- The first bytes of a name, which tell the kinds apart. -/
def tag : Entry → Bytes
  | block _ => ascii "/blocks"
  | blockHash _ => ascii "/block-"
  | tracker => ascii "/blockt"
  | txids _ => ascii "/txids-"
  | outpoint _ _ => ascii "/outpoi"
  | trace _ => ascii "/trace/"

theorem take_name (e : Entry) : e.name.take 7 = e.tag := by
  cases e with
  | tracker => decide
  | outpoint txid vout =>
    rw [name, outpointKey, List.append_assoc, List.append_assoc, List.take_append_of_le_length (by decide)]
    rfl
  | _ =>
    simp only [name, blockKey, blockHashKey, txidsKey, traceKey]
    rw [List.take_append_of_le_length (by decide)]
    rfl

theorem hexEncode_injective {xs ys : Bytes} (h : hexEncode xs = hexEncode ys) : xs = ys := by
  have hd := congrArg hexDecode h
  rw [hexDecode_hexEncode, hexDecode_hexEncode] at hd
  exact Option.some.inj hd

theorem colon_not_mem_hexEncode (xs : Bytes) : 58 ∉ hexEncode xs := by
  induction xs with
  | nil => exact List.not_mem_nil
  | cons b bs ih =>
    have hdigit : ∀ n < 16, 58 ≠ hexDigit n := by decide
    have hb := b.toNat_lt
    rw [hexEncode, List.mem_cons, List.mem_cons, not_or, not_or]
    exact ⟨hdigit _ (by omega),hdigit _ (by omega),ih⟩

theorem name_injective {e e' : Entry} (h : e.name = e'.name) : e = e' := by
  have htag : e.tag = e'.tag := by rw [← e.take_name, ← e'.take_name, h]
  cases e with
  | block height =>
    cases e' with
    | block height' => exact congrArg block (decimal_injective (List.append_cancel_left h))
    | _ => exact absurd htag (by simp only [tag]; decide)
  | blockHash height =>
    cases e' with
    | blockHash height' => exact congrArg blockHash (decimal_injective (List.append_cancel_left h))
    | _ => exact absurd htag (by simp only [tag]; decide)
  | tracker =>
    cases e' with
    | tracker => rfl
    | _ => exact absurd htag (by simp only [tag]; decide)
  | txids height =>
    cases e' with
    | txids height' => exact congrArg txids (decimal_injective (List.append_cancel_left h))
    | _ => exact absurd htag (by simp only [tag]; decide)
  | outpoint txid vout =>
    cases e' with
    | outpoint txid' vout' =>
      simp only [name, outpointKey, List.append_assoc] at h
      have hdigits : (58 : UInt8) ∉ decimal vout := not_mem_decimal (by decide) vout
      obtain ⟨htxid,_,hvout⟩ := (List.append_cons_inj_of_notMem (colon_not_mem_hexEncode txid)
        hdigits).mp (List.append_cancel_left h)
      rw [hexEncode_injective htxid, decimal_injective hvout]
    | _ => exact absurd htag (by simp only [tag]; decide)
  | trace txid =>
    cases e' with
    | trace txid' => exact congrArg trace (hexEncode_injective (List.append_cancel_left h))
    | _ => exact absurd htag (by simp only [tag]; decide)

theorem not_reserved (e : Entry) : ¬Reserved e.name := by
  intro h
  have htag := e.take_name
  rcases reserved_iff.mp h with h | h
  · rw [h] at htag
    cases e <;> exact absurd htag (by simp only [tag]; decide)
  · rw [h] at htag
    cases e <;> exact absurd htag (by simp only [tag]; decide)

end Entry

section Writes

/-- The writes for one output of a transaction. -/
def Transaction.outputWrites (tx : Transaction) (script : Bytes) : List (Entry × Bytes) :=
  match extractProtostonePayload script with
  | none => []
  | some payload =>
    let alkaneId := (payload.drop 1).take 8
    if payload.headD 0 = 1 then [(.outpoint tx.txid 1,alkaneId),(.trace tx.txid,1::alkaneId)]
    else if payload.headD 0 = 2 then [(.outpoint tx.txid 1,[]),(.trace tx.txid,2::alkaneId)]
    else if payload.headD 0 = 3 then
      (tx.input.head?.map fun prev => (Entry.outpoint prev.txid prev.vout,([] : Bytes))).toList ++
        [(.outpoint tx.txid 1,alkaneId),(.trace tx.txid,3::alkaneId)]
    else [(.trace tx.txid,[])]

def Transaction.writes (tx : Transaction) : List (Entry × Bytes) :=
  tx.output.flatMap tx.outputWrites

/-- What a block writes, except to the tracker. -/
def Block.writes (block : Block) (height : Nat) (blockBytes : Bytes) : List (Entry × Bytes) :=
  [(.block height,blockBytes),(.blockHash height,block.blockHash)] ++
    block.txdata.flatMap Transaction.writes ++
    [(.txids height,block.txdata.flatMap Transaction.txid)]

def named (writes : List (Entry × Bytes)) : List (Bytes × Bytes) := writes.map fun w => (w.1.name,w.2)

variable {see : Bytes → Bytes} {m : GuestMemory} {done : List GuestCall}

/-- The calls that write some pairs. -/
def setCalls (writes : List (Entry × Bytes)) : List GuestCall := (named writes).map fun kv => .set kv.1 kv.2

theorem indexOutput_eq (tx : Transaction) (m : GuestMemory) (script : Bytes) :
    indexOutput tx m script = m.setAll (named (tx.outputWrites script)) := by
  rw [indexOutput, Transaction.outputWrites]
  cases extractProtostonePayload script with
  | none => rfl
  | some payload =>
    dsimp only
    split_ifs
    · rfl
    · rfl
    · cases tx.input.head? <;> rfl
    · rfl

theorem setAll_append (m : GuestMemory) (xs ys : List (Bytes × Bytes)) :
    m.setAll (xs ++ ys) = (m.setAll xs).setAll ys := List.foldl_append

theorem named_append (xs ys : List (Entry × Bytes)) : named (xs ++ ys) = named xs ++ named ys :=
  List.map_append

theorem indexOutputs_eq (tx : Transaction) (m : GuestMemory) :
    tx.output.foldl (indexOutput tx) m = m.setAll (named tx.writes) := by
  rw [Transaction.writes]
  induction tx.output generalizing m with
  | nil => rfl
  | cons script scripts ih =>
    rw [List.foldl_cons, ih, indexOutput_eq, List.flatMap_cons, named_append, setAll_append]

theorem indexTransactions_eq (txs : List Transaction) (m : GuestMemory) :
    txs.foldl (fun m tx => tx.output.foldl (indexOutput tx) m) m =
      m.setAll (named (txs.flatMap Transaction.writes)) := by
  induction txs generalizing m with
  | nil => rfl
  | cons tx txs ih =>
    rw [List.foldl_cons, ih, indexOutputs_eq, List.flatMap_cons, named_append, setAll_append]

theorem After.setAll (h : GuestMemory.After see m done) (writes : List (Entry × Bytes)) :
    GuestMemory.After see (m.setAll (named writes)) (done ++ setCalls writes) := by
  induction writes generalizing m done with
  | nil =>
    rw [show setCalls [] = [] from rfl, List.append_nil]
    exact h
  | cons w ws ih =>
    have hnext := ih (h.set w.1.name w.2)
    rwa [List.append_assoc] at hnext

end Writes

/-- The last write of an entry. -/
def Entry.latest (e : Entry) (writes : List (Entry × Bytes)) : Option Bytes :=
  (writes.filter fun w => w.1 = e).getLast?.map Prod.snd

theorem Entry.latest_append (e : Entry) (xs ys : List (Entry × Bytes)) :
    e.latest (xs ++ ys) = (e.latest ys).or (e.latest xs) := by
  rw [latest, List.filter_append, List.getLast?_append, latest, latest]
  cases (ys.filter fun w => w.1 = e).getLast? <;> rfl

theorem Entry.latest_eq_none {e : Entry} {writes : List (Entry × Bytes)} (h : ∀ w ∈ writes, w.1 ≠ e) :
    e.latest writes = none := by
  rw [latest, List.filter_eq_nil_iff.mpr (by simpa using h)]
  rfl

/-- Under their names the entries are kept apart. -/
theorem updatesOf_named (e : Entry) (writes : List (Entry × Bytes)) :
    (updatesOf e.name (named writes)).getLast? = e.latest writes := by
  have hall : updatesOf e.name (named writes) = (writes.filter fun w => w.1 = e).map Prod.snd := by
    induction writes with
    | nil => rfl
    | cons w ws ih =>
      rw [named, List.map_cons, updatesOf_cons, List.filter_cons]
      change (if w.1.name = e.name then w.2::updatesOf e.name (named ws) else updatesOf e.name (named ws)) = _
      rw [ih]
      by_cases he : w.1 = e
      · simp [he]
      · have hn : w.1.name ≠ e.name := fun h => he (Entry.name_injective h)
        simp [he, hn]
  rw [hall, List.getLast?_map, Entry.latest]

section Play

variable {see : Bytes → Bytes} {m : GuestMemory} {done : List GuestCall} {decode : BlockCodec}

/-- All that a block writes, with the tracker in its place. -/
def Block.allWrites (block : Block) (height : Nat) (blockBytes tracker : Bytes) : List (Entry × Bytes) :=
  [(.block height,blockBytes),(.blockHash height,block.blockHash),
      (.tracker,tracker ++ block.blockHash.take 1)] ++
    block.txdata.flatMap Transaction.writes ++
    [(.txids height,block.txdata.flatMap Transaction.txid)]

theorem setsOf_setCalls (writes : List (Entry × Bytes)) : setsOf (setCalls writes) = named writes := by
  rw [setsOf, setCalls, List.filterMap_map]
  exact List.filterMap_some

theorem play_getThen (m : GuestMemory) (key : Bytes) (next : Bytes → GuestMemory → Guest)
    (outputs : List Flush) :
    ((m.getThen key next).play (fun _ => see) outputs).emitted =
      ((next (m.read see key) (m.get see key)).play (fun _ => see) outputs).emitted := by
  rw [GuestMemory.getThen, GuestMemory.read, GuestMemory.get]
  cases KV.get m.cache key <;> rfl

theorem flushThen_emitted {f : Flush} (h : GuestMemory.After see m done)
    (hlast : ((m.flushThen (.stop none)).play (fun _ => see) []).emitted.getLast? = some f) :
    f.list = flushedPairs done := by
  rw [GuestMemory.flushThen, GuestMemory.message, h.flushed] at hlast
  simp only [Option.bind_some] at hlast
  split at hlast
  · cases hlast
  · rename_i hmessage
    split_ifs at hmessage
    cases hmessage
    cases hlast
    rfl

/-- The last flush of a block: every entry with its last write. -/
theorem start_last {height : Nat} {blockBytes : Bytes} {f : Flush}
    (hlast : ((start decode height blockBytes).play (fun _ => see) []).emitted.getLast? = some f) :
    ∃ block, decode blockBytes = some block ∧ ∀ e : Entry,
      (updatesOf e.name f.list).getLast? =
        e.latest (block.allWrites height blockBytes (see trackerKey)) := by
  rw [start] at hlast
  cases hd : decode blockBytes with
  | none =>
    rw [hd] at hlast
    cases hlast
  | some block =>
    rw [hd] at hlast
    dsimp only at hlast
    rw [play_getThen] at hlast
    refine ⟨block,rfl,fun e => ?_⟩
    have h1 := ((GuestMemory.After.init see).set (blockKey height) blockBytes).set (blockHashKey height)
      block.blockHash
    -- nothing has been set under the name of the tracker yet
    have hread : ((GuestMemory.fresh.set (blockKey height) blockBytes).set (blockHashKey height)
        block.blockHash).read see trackerKey = see trackerKey := by
      have hnone : latestSet trackerKey ([] ++ [GuestCall.set (blockKey height) blockBytes] ++
          [.set (blockHashKey height) block.blockHash]) = none :=
        (updatesOf_named .tracker [(.block height,blockBytes),(.blockHash height,block.blockHash)]).trans
          (Entry.latest_eq_none (by simp))
      rw [h1.reads, hnone]
      rfl
    rw [hread, indexTransactions_eq] at hlast
    have h2 := (After.setAll ((h1.get trackerKey).set trackerKey (see trackerKey ++ block.blockHash.take 1))
      (block.txdata.flatMap Transaction.writes)).set (txidsKey height)
      (block.txdata.flatMap Transaction.txid)
    have hlist := flushThen_emitted h2 hlast
    rw [hlist, updatesOf_flushedPairs_getLast?, latestSet, ← updatesOf_named]
    congr 2
    rw [setsOf_append, setsOf_append, setsOf_setCalls, Block.allWrites, named_append, named_append]
    rfl

theorem Transaction.writes_ne_tracker {tx : Transaction} : ∀ w ∈ tx.writes, w.1 ≠ .tracker := by
  intro w hw
  obtain ⟨script,_,hw⟩ := List.mem_flatMap.mp hw
  rw [Transaction.outputWrites] at hw
  cases hp : extractProtostonePayload script with
  | none =>
    rw [hp] at hw
    cases hw
  | some payload =>
    rw [hp] at hw
    dsimp only at hw
    split_ifs at hw
    · simp only [List.mem_cons, List.not_mem_nil, or_false] at hw
      rcases hw with rfl | rfl <;> simp
    · simp only [List.mem_cons, List.not_mem_nil, or_false] at hw
      rcases hw with rfl | rfl <;> simp
    · cases hin : tx.input.head? with
      | none =>
        rw [hin] at hw
        simp at hw
        rcases hw with rfl | rfl <;> simp
      | some prev =>
        rw [hin] at hw
        simp at hw
        rcases hw with rfl | rfl | rfl <;> simp
    · rw [List.mem_singleton] at hw
      rw [hw]
      simp

/-- The tracker is written once in a block, the other entries are kept apart from it. -/
theorem Block.latest_allWrites (block : Block) (height : Nat) (blockBytes tracker : Bytes) (e : Entry) :
    e.latest (block.allWrites height blockBytes tracker) =
      if e = .tracker then some (tracker ++ block.blockHash.take 1)
      else e.latest (block.writes height blockBytes) := by
  have hsplit : ∀ (xs : List (Entry × Bytes)) (w : Entry × Bytes), e.latest (xs ++ [w]) =
      if w.1 = e then some w.2 else e.latest xs := by
    intro xs w
    rw [Entry.latest_append]
    by_cases h : w.1 = e <;> simp [Entry.latest, h]
  rw [allWrites, Block.writes, hsplit, hsplit, Entry.latest_append, Entry.latest_append]
  by_cases he : e = .tracker
  · subst he
    have hnone : Entry.tracker.latest (block.txdata.flatMap Transaction.writes) = none := by
      apply Entry.latest_eq_none
      intro w hw
      obtain ⟨tx,_,hw⟩ := List.mem_flatMap.mp hw
      exact tx.writes_ne_tracker w hw
    rw [hnone]
    simp [Entry.latest]
  · have hne : Entry.tracker ≠ e := fun h => he h.symm
    have hhead : ∀ a b : Entry × Bytes, e.latest [a,b,(.tracker,tracker ++ block.blockHash.take 1)] =
        e.latest [a,b] := by
      intro a b
      simp [Entry.latest, hne, List.filter_cons]
    rw [hhead, if_neg he]

end Play

/-- What the blocks of a chain write, except to the tracker. -/
def chainWrites (decode : BlockCodec) : Nat → List NodeBlock → List (Entry × Bytes)
  | _, [] => []
  | height, b::bs =>
    ((decode b.data).map fun block => block.writes height b.data).getD [] ++
      chainWrites decode (height+1) bs

/-- The first bytes of the block hashes of a chain. -/
def chainTracker (decode : BlockCodec) (chain : List NodeBlock) : Bytes :=
  chain.flatMap fun b => ((decode b.data).map fun block => block.blockHash.take 1).getD []

theorem chainWrites_append (decode : BlockCodec) (height : Nat) (xs ys : List NodeBlock) :
    chainWrites decode height (xs ++ ys) =
      chainWrites decode height xs ++ chainWrites decode (height+xs.length) ys := by
  induction xs generalizing height with
  | nil => rfl
  | cons b bs ih =>
    have hlen : height+1+bs.length = height+(b::bs).length := by simp; omega
    rw [List.cons_append, chainWrites, ih, chainWrites, List.append_assoc, hlen]

theorem chainTracker_append (decode : BlockCodec) (xs ys : List NodeBlock) :
    chainTracker decode (xs ++ ys) = chainTracker decode xs ++ chainTracker decode ys :=
  List.flatMap_append

/-- What an entry reads as after a chain. -/
def Entry.after (e : Entry) (decode : BlockCodec) (height : Nat) (chain : List NodeBlock) : Bytes :=
  if e = .tracker then chainTracker decode chain
  else (e.latest (chainWrites decode height chain)).getD []

/-- The entries of a chain that the program has indexed. -/
theorem Indexes.entry {decode : BlockCodec} {first : Nat} {chain : List NodeBlock}
    {blocks : List Metashrew.Block} (h : Indexes (start decode) first chain blocks) (e : Entry) :
    ((writesOf e.name first blocks).getLast?.map Prod.snd).getD [] = e.after decode first chain := by
  induction h generalizing e with
  | nil =>
    rw [Entry.after]
    split_ifs <;> rfl
  | snoc root h hn hlen hs hp ih =>
    rename_i chain blocks b f
    obtain ⟨block,hd,hwrites⟩ := start_last hs.last
    have htracker : latestIn (fun key => writesOf key first blocks) trackerKey =
        chainTracker decode chain := ih .tracker
    have hblock := hwrites e
    rw [htracker, block.latest_allWrites] at hblock
    rw [writesOf_concat_latest, hblock, Entry.after, chainWrites_append, chainTracker_append]
    by_cases he : e = .tracker
    · have hone : chainTracker decode [b] = block.blockHash.take 1 := by
        rw [chainTracker, List.flatMap_singleton, hd]
        rfl
      rw [if_pos he, if_pos he, hone]
      rfl
    · have hprev := ih e
      rw [Entry.after, if_neg he] at hprev
      rw [if_neg he, if_neg he, Entry.latest_append, chainWrites, chainWrites, List.append_nil, hd]
      show ((e.latest (block.writes _ _)).or _).getD [] = ((e.latest (block.writes _ _)).or _).getD []
      cases e.latest (block.writes (first+chain.length) b.data) with
      | some v => rfl
      | none => exact hprev

/-- Only entries are queued. -/
def Queued (m : GuestMemory) : Prop := ∀ key ∈ m.toFlush, ∃ e : Entry, key = e.name

theorem Queued.set {m : GuestMemory} (h : Queued m) (e : Entry) (value : Bytes) :
    Queued (m.set e.name value) := by
  intro key hkey
  rcases List.mem_append.mp hkey with hkey | hkey
  · exact h key hkey
  · exact ⟨e,List.mem_singleton.mp hkey⟩

theorem Queued.setAll {m : GuestMemory} (h : Queued m) (writes : List (Entry × Bytes)) :
    Queued (m.setAll (named writes)) := by
  induction writes generalizing m with
  | nil => exact h
  | cons w ws ih => exact ih (h.set w.1 w.2)

theorem Queued.flushThen {m : GuestMemory} (h : Queued m) :
    (m.flushThen (.stop none)).Emits Flush.Plain := by
  rw [GuestMemory.flushThen, GuestMemory.message, GuestMemory.flushed_eq]
  split
  · trivial
  · rename_i f hf
    split_ifs at hf
    · rw [Option.bind_some] at hf
      split_ifs at hf
      cases hf
      refine ⟨?_,trivial⟩
      intro kv hkv
      obtain ⟨key,hkey,rfl⟩ := List.mem_map.mp hkv
      obtain ⟨e,rfl⟩ := h key hkey
      exact e.not_reserved
    · cases hf

/-- All that the indexer flushes is under the names of its entries. -/
theorem plain (decode : BlockCodec) : (start decode).Plain := by
  intro height data
  have h1 : Queued (GuestMemory.fresh.set (blockKey height) data) := by
    refine Queued.set ?_ (.block height) data
    intro key hkey
    cases hkey
  rw [start]
  cases decode data with
  | none => trivial
  | some block =>
    dsimp only
    have h2 := h1.set (.blockHash height) block.blockHash
    have hrest : ∀ (tracker : Bytes) (m : GuestMemory), Queued m →
        Dialogue.Emits Flush.Plain (((block.txdata.foldl
          (fun m (tx : Transaction) => tx.output.foldl (indexOutput tx) m)
          (m.set trackerKey (tracker ++ block.blockHash.take 1))).set (txidsKey height)
            (block.txdata.flatMap Transaction.txid)).flushThen (.stop none)) := by
      intro tracker m hm
      rw [indexTransactions_eq]
      exact (((hm.set .tracker _).setAll _).set (.txids height) _).flushThen
    rw [GuestMemory.getThen]
    split
    · exact hrest _ _ h2
    · exact fun value => hrest value _ h2

/-- What the views of the indexer show at a height, for every input: what is too short for its arguments traps,
and what follows them is not read. -/
structure ViewsShow (decode : BlockCodec) (σ : Store) (first h : Nat) (chain : List NodeBlock) : Prop where
  getblock : ∀ input, viewAt σ getblock h input = some ((Entry.block h).after decode first chain)
  blocktracker : ∀ input, viewAt σ blocktracker h input = some (chainTracker decode chain)
  getOutpoint : ∀ txid vout rest, txid.length = 32 → vout<2^32 →
    viewAt σ getOutpoint h (txid ++ u32le vout ++ rest) =
      some ((Entry.outpoint txid vout).after decode first chain)
  getOutpointShort : ∀ input : Bytes, input.length < 36 → viewAt σ MetashrewMinimal.getOutpoint h input = none
  getTrace : ∀ txid rest, txid.length = 32 →
    viewAt σ getTrace h (txid ++ rest) = some ((Entry.trace txid).after decode first chain)
  getTraceShort : ∀ input : Bytes, input.length < 32 → viewAt σ MetashrewMinimal.getTrace h input = none
  getTxidsAtHeight : ∀ query rest, query<2^32 → viewAt σ getTxidsAtHeight h (u32le query ++ rest) =
    some ((Entry.txids query).after decode first chain)
  getTxidsAtHeightShort : ∀ input : Bytes, input.length < 4 →
    viewAt σ MetashrewMinimal.getTxidsAtHeight h input = none

section Inputs

variable {xs rest txid : Bytes} {n : Nat}

theorem consumeU32_append (hn : n<2^32) (rest : Bytes) : consumeU32 (u32le n ++ rest) = some (n,rest) := by
  rw [consumeU32, readU32le_append hn]
  rfl

theorem consumeU32_short (h : xs.length < 4) : consumeU32 xs = none := by
  rw [consumeU32, readU32le_eq_none_iff.mpr h]
  rfl

theorem readTxid_append (h : txid.length = 32) (rest : Bytes) :
    readTxid (txid ++ rest) = some (txid,rest) := by
  rw [readTxid, if_neg (by simp [h]), List.take_left' h, List.drop_left' h]

theorem readTxid_short (h : xs.length < 32) : readTxid xs = none := if_pos h

end Inputs

/-- At each height the views show what the blocks of the present chain up to there have written, whatever
the node has indexed and rolled back before. -/
theorem views_show_chain {decode : BlockCodec} {first h : Nat} {s : Node}
    (hs : s.Reached (start decode) first) (hroom : Roomy s.db) (hh : h<2^32) :
    ViewsShow decode s.db first h (s.chain.take (h+1-first)) := by
  obtain ⟨L,hσ,hL⟩ := hs.follows (plain decode)
  obtain ⟨blocks,hblocks,hhist⟩ := hL.indexes
  have hread : ∀ e : Entry, hostValue (getAtHeight (rocksDB s.db) e.name h) =
      e.after decode first (s.chain.take (h+1-first)) := by
    intro e
    rw [hL.getAtHeight hσ hroom, asOf, hhist, writesOf_upTo,
      ← Indexes.entry (hblocks.take (h+1-first)) e]
    cases (writesOf e.name first (blocks.take (h+1-first))).getLast?.map Prod.snd <;> rfl
  have hinput := consumeU32_append hh
  constructor
  case getblock =>
    intro input
    rw [viewAt, MetashrewMinimal.getblock, hinput, ← hread]
    rfl
  case blocktracker => exact fun _ => congrArg some (hread .tracker)
  case getOutpoint =>
    intro txid vout rest hlen hvout
    rw [viewAt, MetashrewMinimal.getOutpoint, hinput, ← hread, List.append_assoc]
    simp only [Option.bind_eq_bind, Option.bind_some, readTxid_append hlen, consumeU32_append hvout]
    rfl
  case getOutpointShort =>
    intro input hlen
    rw [viewAt, MetashrewMinimal.getOutpoint, hinput]
    simp only [Option.bind_eq_bind, Option.bind_some]
    rw [readTxid]
    split_ifs with h32
    · rfl
    · have hrest : (input.drop 32).length < 4 := by
        rw [List.length_drop]
        omega
      simp only [Option.bind_some, consumeU32_short hrest, Option.bind_none]
  case getTrace =>
    intro txid rest hlen
    rw [viewAt, MetashrewMinimal.getTrace, hinput, ← hread]
    simp only [Option.bind_eq_bind, Option.bind_some, readTxid_append hlen]
    rfl
  case getTraceShort =>
    intro input hlen
    rw [viewAt, MetashrewMinimal.getTrace, hinput]
    simp only [Option.bind_eq_bind, Option.bind_some, readTxid_short hlen, Option.bind_none]
  case getTxidsAtHeight =>
    intro query rest hquery
    rw [viewAt, MetashrewMinimal.getTxidsAtHeight, hinput, ← hread]
    simp only [Option.bind_eq_bind, Option.bind_some, consumeU32_append hquery]
    rfl
  case getTxidsAtHeightShort =>
    intro input hlen
    rw [viewAt, MetashrewMinimal.getTxidsAtHeight, hinput]
    simp only [Option.bind_eq_bind, Option.bind_some, consumeU32_short hlen, Option.bind_none]

/-- A codec for blocks of one transaction that mints. -/
def mintCodec : BlockCodec := fun data =>
  match data with
  | [n] =>
    let hash := List.replicate 32 n
    some ⟨hash,[⟨hash,[],[[0x6a,13] ++ protostoneMagic ++ [1] ++ List.replicate 8 n]⟩]⟩
  | _ => none

@[irreducible] def minted : MetashrewRuntime :=
  ((MetashrewRuntime.new ∅ 0 0).indexBlock (start mintCodec) 0 ⟨[1],[1]⟩ .none).1

@[irreducible] def mintedTwice : MetashrewRuntime := (minted.indexBlock (start mintCodec) 1 ⟨[2],[2]⟩ .none).1

@[irreducible] def remintedBlock : MetashrewRuntime :=
  ((mintedTwice.rewound 0).indexBlock (start mintCodec) 1 ⟨[3],[3]⟩ .none).1

theorem remintedBlock_reached :
    Node.Reached (start mintCodec) 0 ⟨remintedBlock.db,[⟨[1],[1]⟩,⟨[3],[3]⟩],true⟩ := by
  have h1 : IndexerStep (start mintCodec) 0 ⟨(MetashrewRuntime.new ∅ 0 0).db,[],true⟩
      ⟨minted.db,[⟨[1],[1]⟩],true⟩ := by
    rw [minted]
    exact .next (by decide +kernel) (fun _ => rfl) (by decide) (by decide +kernel)
  have h2 : IndexerStep (start mintCodec) 0 ⟨minted.db,[⟨[1],[1]⟩],true⟩
      ⟨mintedTwice.db,[⟨[1],[1]⟩,⟨[2],[2]⟩],true⟩ := by
    rw [mintedTwice]
    exact .next (by decide +kernel) (fun h => by cases h) (by decide) (by decide +kernel)
  have h3 : IndexerStep (start mintCodec) 0 ⟨mintedTwice.db,[⟨[1],[1]⟩,⟨[2],[2]⟩],true⟩
      ⟨(mintedTwice.rewound 0).db,[⟨[1],[1]⟩],true⟩ :=
    .rewind (by decide) (by decide) (by decide +kernel)
  have h4 : IndexerStep (start mintCodec) 0 ⟨(mintedTwice.rewound 0).db,[⟨[1],[1]⟩],true⟩
      ⟨remintedBlock.db,[⟨[1],[1]⟩,⟨[3],[3]⟩],true⟩ := by
    rw [remintedBlock]
    exact .next (by decide +kernel) (fun h => by cases h) (by decide) (by decide +kernel)
  exact (((Relation.ReflTransGen.single h1).tail h2).tail h3).tail h4

/-- A mint in a block that has been replaced is gone, the one in its replacement is there. -/
theorem views_show_chain_reminted :
    ViewsShow mintCodec remintedBlock.db 0 1 [⟨[1],[1]⟩,⟨[3],[3]⟩] ∧
      (Entry.trace (List.replicate 32 2)).after mintCodec 0 [⟨[1],[1]⟩,⟨[3],[3]⟩] = [] ∧
      (Entry.trace (List.replicate 32 3)).after mintCodec 0 [⟨[1],[1]⟩,⟨[3],[3]⟩] =
        1::List.replicate 8 3 := by
  have hroom : Roomy remintedBlock.db := roomy_of_records (by decide +kernel)
  have hshow := views_show_chain remintedBlock_reached hroom (show 1<2^32 by decide)
  exact ⟨hshow,by decide +kernel,by decide +kernel⟩

end MetashrewMinimal

end Metashrew
