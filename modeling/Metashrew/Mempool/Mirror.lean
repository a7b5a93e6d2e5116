import Metashrew.Mempool.Basic
import Metashrew.Mempool.Inventory

namespace Metashrew.Mempool

open Bytes

/-- What the bitcoin crate reads off a transaction: its id, the ids of the outputs it spends and its
size, with the rate of a fee and a size. -/
structure TxReader (Tx Rate : Type) where
  computeTxid : Tx → Txid
  spent : Tx → List Txid
  vsize : Tx → UInt64
  feeRate : UInt64 → UInt64 → Rate

/-- An id stands for the inputs. -/
def TxReader.Unique {Tx Rate : Type} (reader : TxReader Tx Rate) : Prop :=
  ∀ tx tx', reader.computeTxid tx = reader.computeTxid tx' → reader.spent tx = reader.spent tx'

/-- An id as it is displayed, in the reversed order of its bytes. -/
def toDisplay (txid : Txid) : Bytes := hexEncode txid.toList.reverse

/-- The bytes stay in the order of the text. -/
def fromHex (hexStr : Bytes) : Except Fault Txid :=
  match hexDecode hexStr with
  | none => .error (.message "Invalid character or odd number of digits")
  | some bs =>
    if h : bs.length = 32 then .ok ⟨bs.toArray,h⟩
    else .error (.message "could not convert slice to array")

/-- The node's record of a transaction, with the fees in satoshis. -/
structure RpcInfo (Rate : Type) where
  fee : UInt64
  vsize : UInt64
  feeRate : Rate
  depends : List Bytes

section Code

variable {Tx Rate : Type}

def isHeld (txs : Pool Tx Rate) (txid : Txid) : Bool := (KV.get txs txid).isSome

def insertDescendant (child : Txid) (txs : Pool Tx Rate) (ancestor : Txid) : Pool Tx Rate :=
  match KV.get txs ancestor with
  | none => txs
  | some info => KV.write txs [.put ancestor { info with
      descendants := info.descendants.insert child }]

/-- One round over the ids of the map, which loses none of them on the way. -/
def linkTransaction (txs : Pool Tx Rate) (txid : Txid) : Pool Tx Rate :=
  match KV.get txs txid with
  | none => txs
  | some info => info.ancestors.foldl (insertDescendant txid) txs

def linkAncestors (txids : List Txid) (txs : Pool Tx Rate) : Pool Tx Rate :=
  txids.foldl linkTransaction txs

section Node

variable (rawTransaction : Bytes → Except String Tx)

/-- The additions up to the first failure. -/
def addTransactions : List (Bytes × RpcInfo Rate) → Pool Tx Rate → Pool Tx Rate × Except Fault Unit
  | [], txs => (txs,.ok ())
  | (txidStr,info)::rest, txs =>
    match fromHex txidStr with
    | .error e => (txs,.error e)
    | .ok txid =>
      if isHeld txs txid then addTransactions rest txs
      else
        match rawTransaction txidStr with
        | .error text => (txs,.error (.message text))
        | .ok tx => addTransactions rest (KV.write txs [.put txid {
            tx := tx
            fee := info.fee
            vsize := info.vsize
            feeRate := info.feeRate
            ancestors := info.depends.filterMap fun v => (fromHex v).toOption
            descendants := [] }])

/-- What `update_mempool` does with the answer of the node. -/
def updateMempool (order : KV.VisitOrder Txid (MempoolTxInfo Tx Rate))
    (mempoolInfo : List (Bytes × RpcInfo Rate)) (txs : Pool Tx Rate) :
    Pool Tx Rate × Except Fault Unit :=
  let known := txs.filter fun txid _ => toDisplay txid ∈ mempoolInfo.map Prod.fst
  match addTransactions rawTransaction mempoolInfo known with
  | (txs,.error e) => (txs,.error e)
  | (txs,.ok ()) => (linkAncestors ((order.visit txs).map Prod.fst) txs,.ok ())

end Node

section Peer

variable (codec : ConsensusCodec) (reader : TxReader Tx Rate)

/-- A message of the peer that is not skipped. -/
inductive PeerMessage (Tx : Type) where
  | inv (payload : Bytes)
  | tx (tx : Tx)

structure PeerState (Tx Rate : Type) where
  txs : Pool Tx Rate
  newTxs : List Txid

def requestedIds : Option (List Inventory) → List Txid
  | none => []
  | some items => items.map fun
    | .block hash => hash
    | .transaction txid => txid

def receiveMessage (s : PeerState Tx Rate) : PeerMessage Tx → Except Fault (PeerState Tx Rate)
  | .inv payload => do
    let request ← handleInv codec (isHeld s.txs) payload
    return { s with newTxs := s.newTxs ++ requestedIds request }
  | .tx tx =>
    let txid := reader.computeTxid tx
    if txid ∈ s.newTxs then
      .ok {
        txs := KV.write s.txs [.put txid {
          tx := tx
          fee := reader.vsize tx*2
          vsize := reader.vsize tx
          feeRate := reader.feeRate (reader.vsize tx*2) (reader.vsize tx)
          ancestors := []
          descendants := [] }]
        newTxs := s.newTxs.filter (· ≠ txid) }
    else .ok s

/-- The map when the loop is left, and whether it is left without an error: after the last message the
session times out or breaks off. -/
def receiveMessages (timesOut : Bool) : List (PeerMessage Tx) → PeerState Tx Rate → Pool Tx Rate × Bool
  | [], s => (s.txs,timesOut)
  | message::messages, s =>
    match receiveMessage codec reader s message with
    | .error _ => (s.txs,false)
    | .ok s => if s.newTxs = [] then (s.txs,true) else receiveMessages timesOut messages s

def relateTransaction (txs : Pool Tx Rate) (txid : Txid) : Pool Tx Rate :=
  match KV.get txs txid with
  | none => txs
  | some info =>
    let ancestors := ((reader.spent info.tx).filter (isHeld txs ·)).dedup
    if ancestors = [] then txs
    else ancestors.foldl (insertDescendant txid)
      (KV.write txs [.put txid { info with ancestors := ancestors }])

def updateMempoolP2p (order : KV.VisitOrder Txid (MempoolTxInfo Tx Rate)) (timesOut : Bool)
    (messages : List (PeerMessage Tx)) (txs : Pool Tx Rate) : Pool Tx Rate :=
  match receiveMessages codec reader timesOut messages ⟨txs,[]⟩ with
  | (txs,false) => txs
  | (txs,true) => ((order.visit txs).map Prod.fst).foldl (relateTransaction reader) txs

end Peer

end Code

section Spec

variable {Tx Rate : Type} (codec : ConsensusCodec) (reader : TxReader Tx Rate)
  (order : KV.VisitOrder Txid (MempoolTxInfo Tx Rate))

/-- A transaction in the mempool of the node. -/
structure NodeTx (Tx Rate : Type) where
  tx : Tx
  fee : UInt64
  vsize : UInt64
  feeRate : Rate

def nodeIds (mempool : List (NodeTx Tx Rate)) : List Txid :=
  mempool.map fun t => reader.computeTxid t.tx

/-- The `depends` list names the parents that are in the mempool. -/
def rpcEntry (mempool : List (NodeTx Tx Rate)) (t : NodeTx Tx Rate) : Bytes × RpcInfo Rate :=
  (toDisplay (reader.computeTxid t.tx),⟨t.fee,t.vsize,t.feeRate,
    ((nodeIds reader mempool).filter fun a => a ∈ reader.spent t.tx).map toDisplay⟩)

/-- What happens to the map: a session with the peer, and the answers of the node, which gives out the
transactions of its mempool or none. -/
inductive Event (Tx Rate : Type) where
  | session (timesOut : Bool) (messages : List (PeerMessage Tx))
  | answer (mempool : List (NodeTx Tx Rate)) (rawTransaction : Bytes → Except String Tx)

def Event.Honest : Event Tx Rate → Prop
  | .session _ _ => True
  | .answer mempool rawTransaction => ∀ txid ∈ nodeIds reader mempool, ∀ tx,
      rawTransaction (toDisplay txid) = .ok tx → reader.computeTxid tx = txid

/-- The map afterwards, whether or not the update fails. -/
def Event.next (txs : Pool Tx Rate) : Event Tx Rate → Pool Tx Rate
  | .session timesOut messages => updateMempoolP2p codec reader order timesOut messages txs
  | .answer mempool rawTransaction =>
    (updateMempool rawTransaction order (mempool.map (rpcEntry reader mempool)) txs).1

def runEvents (events : List (Event Tx Rate)) (txs : Pool Tx Rate) : Pool Tx Rate :=
  events.foldl (Event.next codec reader order) txs

/-- Every id of the snapshot reads the same in both directions, and what is held of it has all its
parents in the snapshot recorded. -/
structure Mirrorable (txs : Pool Tx Rate) (mempool : List (NodeTx Tx Rate)) : Prop where
  palindrome : ∀ txid ∈ nodeIds reader mempool, txid.reverse = txid
  recorded : ∀ txid info, KV.get txs txid = some info → txid ∈ nodeIds reader mempool →
    ∀ a ∈ nodeIds reader mempool, a ∈ reader.spent info.tx → a ∈ info.ancestors

def Event.MeetsMirrorable (txs : Pool Tx Rate) : Event Tx Rate → Prop
  | .session _ _ => True
  | .answer mempool _ => Mirrorable reader txs mempool

/-- The answers of the node meet mirrorable states. -/
def AllMirrorable : List (Event Tx Rate) → Pool Tx Rate → Prop
  | [], _ => True
  | event::events, txs =>
    event.MeetsMirrorable reader txs ∧ AllMirrorable events (event.next codec reader order txs)

/-- The map holds the snapshot, each transaction under its id, and both kinds of relatives are right. -/
structure Faithful (txs : Pool Tx Rate) (mempool : List (NodeTx Tx Rate)) : Prop where
  held : ∀ txid, KV.get txs txid ≠ none ↔ txid ∈ nodeIds reader mempool
  own : ∀ txid info, KV.get txs txid = some info → reader.computeTxid info.tx = txid
  ancestors : ∀ a b infoA infoB, KV.get txs a = some infoA → KV.get txs b = some infoB →
    (a ∈ infoB.ancestors ↔ a ∈ reader.spent infoB.tx)
  descendants : ∀ a b infoA infoB, KV.get txs a = some infoA → KV.get txs b = some infoB →
    (a ∈ reader.spent infoB.tx ↔ b ∈ infoA.descendants)

/-- The same transaction with the same numbers. -/
structure SameEntry (info info' : MempoolTxInfo Tx Rate) : Prop where
  tx : info.tx = info'.tx
  fee : info.fee = info'.fee
  vsize : info.vsize = info'.vsize
  feeRate : info.feeRate = info'.feeRate

/-- An entry present before and after is kept. -/
def Kept (txs txs' : Pool Tx Rate) : Prop := ∀ txid info info',
  KV.get txs txid = some info → KV.get txs' txid = some info' → SameEntry info info'

end Spec

section Invariant

variable {Tx Rate : Type} {reader : TxReader Tx Rate} {txs txs' : Pool Tx Rate} {txid : Txid}
  {info : MempoolTxInfo Tx Rate}

/-- At any time an entry is under its own id and its relatives are relatives. -/
structure Sound (reader : TxReader Tx Rate) (txs : Pool Tx Rate) : Prop where
  own : ∀ txid info, KV.get txs txid = some info → reader.computeTxid info.tx = txid
  ancestors : ∀ txid info, KV.get txs txid = some info → ∀ a ∈ info.ancestors, a ∈ reader.spent info.tx
  descendants : ∀ txid info, KV.get txs txid = some info → ∀ child ∈ info.descendants,
    ∀ tx, reader.computeTxid tx = child → txid ∈ reader.spent tx

theorem Sound.put (hs : Sound reader txs) (hown : reader.computeTxid info.tx = txid)
    (hancestors : ∀ a ∈ info.ancestors, a ∈ reader.spent info.tx)
    (hdescendants : ∀ child ∈ info.descendants, ∀ tx, reader.computeTxid tx = child →
      txid ∈ reader.spent tx) : Sound reader (KV.write txs [.put txid info]) := by
  have hcases : ∀ txid' info', KV.get (KV.write txs [.put txid info]) txid' = some info' →
      (txid = txid' ∧ info = info') ∨ KV.get txs txid' = some info' := by
    intro txid' info' h
    rw [KV.get_write_put] at h
    by_cases heq : txid = txid'
    · rw [if_pos heq] at h
      exact .inl ⟨heq,Option.some.inj h⟩
    · rw [if_neg heq] at h
      exact .inr h
  refine ⟨?_,?_,?_⟩
  · intro txid' info' h
    rcases hcases txid' info' h with ⟨rfl,rfl⟩ | hold
    · exact hown
    · exact hs.own txid' info' hold
  · intro txid' info' h
    rcases hcases txid' info' h with ⟨rfl,rfl⟩ | hold
    · exact hancestors
    · exact hs.ancestors txid' info' hold
  · intro txid' info' h
    rcases hcases txid' info' h with ⟨rfl,rfl⟩ | hold
    · exact hdescendants
    · exact hs.descendants txid' info' hold

theorem Sound.empty : Sound reader (∅ : Pool Tx Rate) where
  own txid info h := by cases h
  ancestors txid info h := by cases h
  descendants txid info h := by cases h

theorem Sound.insertDescendant {child : Txid} (hs : Sound reader txs) (ancestor : Txid)
    (hspent : ∀ tx, reader.computeTxid tx = child → ancestor ∈ reader.spent tx) :
    Sound reader (insertDescendant child txs ancestor) := by
  rw [Mempool.insertDescendant]
  cases h : KV.get txs ancestor with
  | none => exact hs
  | some info =>
    apply hs.put
    · exact hs.own ancestor info h
    · exact hs.ancestors ancestor info h
    · intro c hc tx htx
      rcases List.mem_insert_iff.mp hc with rfl | hc
      · exact hspent tx htx
      · exact hs.descendants ancestor info h c hc tx htx

theorem Sound.insertDescendants {child : Txid} (ancestors : List Txid) (hs : Sound reader txs)
    (hspent : ∀ a ∈ ancestors, ∀ tx, reader.computeTxid tx = child → a ∈ reader.spent tx) :
    Sound reader (ancestors.foldl (Mempool.insertDescendant child) txs) := by
  induction ancestors generalizing txs with
  | nil => exact hs
  | cons a ancestors ih =>
    apply ih
    · exact hs.insertDescendant a (hspent a List.mem_cons_self)
    · intro a' ha
      exact hspent a' (List.mem_cons_of_mem a ha)

theorem Sound.linkAncestors (hunique : reader.Unique) (txids : List Txid) (hs : Sound reader txs) :
    Sound reader (linkAncestors txids txs) := by
  induction txids generalizing txs with
  | nil => exact hs
  | cons txid txids ih =>
    apply ih
    rw [linkTransaction]
    cases h : KV.get txs txid with
    | none => exact hs
    | some info =>
      apply hs.insertDescendants
      intro a ha tx htx
      rw [hunique tx info.tx (htx.trans (hs.own txid info h).symm)]
      exact hs.ancestors txid info h a ha

theorem Sound.filter (hs : Sound reader txs) (p : Txid → MempoolTxInfo Tx Rate → Bool) :
    Sound reader (txs.filter p) := by
  have hsub : ∀ txid info, KV.get (txs.filter p) txid = some info → KV.get txs txid = some info := by
    intro txid info h
    rw [KV.get, Std.ExtTreeMap.getElem?_filter'] at h
    exact (Option.filter_eq_some_iff.mp h).1
  exact ⟨fun txid info h => hs.own txid info (hsub txid info h),
    fun txid info h => hs.ancestors txid info (hsub txid info h),
    fun txid info h => hs.descendants txid info (hsub txid info h)⟩

theorem Sound.relateTransaction (hunique : reader.Unique) (txid : Txid) (hs : Sound reader txs) :
    Sound reader (relateTransaction reader txs txid) := by
  rw [Mempool.relateTransaction]
  cases h : KV.get txs txid with
  | none => exact hs
  | some info =>
    dsimp only
    have hspent : ∀ a ∈ ((reader.spent info.tx).filter (isHeld txs ·)).dedup,
        a ∈ reader.spent info.tx := by
      intro a ha
      exact List.mem_of_mem_filter (List.mem_dedup.mp ha)
    split_ifs
    · exact hs
    · apply Sound.insertDescendants
      · exact hs.put (hs.own txid info h) hspent (hs.descendants txid info h)
      · intro a ha tx htx
        rw [hunique tx info.tx (htx.trans (hs.own txid info h).symm)]
        exact hspent a ha

theorem Sound.relateTransactions (hunique : reader.Unique) (txids : List Txid)
    (hs : Sound reader txs) : Sound reader (txids.foldl (Mempool.relateTransaction reader) txs) := by
  induction txids generalizing txs with
  | nil => exact hs
  | cons txid txids ih => exact ih (hs.relateTransaction hunique txid)

theorem Sound.receiveMessages (codec : ConsensusCodec) (timesOut : Bool)
    (messages : List (PeerMessage Tx)) (s : PeerState Tx Rate) (hs : Sound reader s.txs) :
    Sound reader (receiveMessages codec reader timesOut messages s).1 := by
  induction messages generalizing s with
  | nil => exact hs
  | cons message messages ih =>
    rw [Mempool.receiveMessages]
    cases h : receiveMessage codec reader s message with
    | error e => exact hs
    | ok s' =>
      have hs' : Sound reader s'.txs := by
        cases message with
        | inv payload =>
          rw [receiveMessage] at h
          cases hreq : handleInv codec (isHeld s.txs) payload with
          | error e =>
            rw [hreq] at h
            cases h
          | ok request =>
            rw [hreq] at h
            cases h
            exact hs
        | tx tx =>
          rw [receiveMessage] at h
          by_cases hnew : reader.computeTxid tx ∈ s.newTxs
          · rw [if_pos hnew] at h
            cases h
            show Sound reader (KV.write s.txs [.put (reader.computeTxid tx) _])
            apply hs.put
            · rfl
            · intro a ha
              cases ha
            · intro a ha
              cases ha
          · rw [if_neg hnew] at h
            cases h
            exact hs
      dsimp only
      split_ifs
      · exact hs'
      · exact ih s' hs'

theorem Sound.session (codec : ConsensusCodec) (hunique : reader.Unique)
    (order : KV.VisitOrder Txid (MempoolTxInfo Tx Rate)) (timesOut : Bool)
    (messages : List (PeerMessage Tx)) (hs : Sound reader txs) :
    Sound reader (updateMempoolP2p codec reader order timesOut messages txs) := by
  have hreceived := hs.receiveMessages codec timesOut messages ⟨txs,[]⟩
  rw [updateMempoolP2p]
  split
  · rename_i h
    rw [h] at hreceived
    exact hreceived
  · rename_i h
    rw [h] at hreceived
    exact hreceived.relateTransactions hunique _

end Invariant

section Frames

variable {Tx Rate : Type} {reader : TxReader Tx Rate} {txs txs' txs'' : Pool Tx Rate} {txid : Txid}
  {info : MempoolTxInfo Tx Rate}

theorem SameEntry.refl (info : MempoolTxInfo Tx Rate) : SameEntry info info := ⟨rfl,rfl,rfl,rfl⟩

theorem SameEntry.trans (i j k : MempoolTxInfo Tx Rate) (h : SameEntry i j) (h' : SameEntry j k) :
    SameEntry i k :=
  ⟨h.tx.trans h'.tx,h.fee.trans h'.fee,h.vsize.trans h'.vsize,h.feeRate.trans h'.feeRate⟩

/-- What the first map holds, the second one holds with an entry that stands in the relation. -/
def Carries (R : MempoolTxInfo Tx Rate → MempoolTxInfo Tx Rate → Prop) (txs txs' : Pool Tx Rate) :
    Prop := ∀ txid info, KV.get txs txid = some info →
  ∃ info', KV.get txs' txid = some info' ∧ R info info'

section Carries

variable {R : MempoolTxInfo Tx Rate → MempoolTxInfo Tx Rate → Prop}

theorem Carries.refl (hrefl : ∀ info, R info info) (txs : Pool Tx Rate) : Carries R txs txs :=
  fun _ info h => ⟨info,h,hrefl info⟩

theorem Carries.trans (htrans : ∀ i j k, R i j → R j k → R i k) (h : Carries R txs txs')
    (h' : Carries R txs' txs'') : Carries R txs txs'' := by
  intro txid info hinfo
  obtain ⟨info',hinfo',hr⟩ := h txid info hinfo
  obtain ⟨info'',hinfo'',hr'⟩ := h' txid info' hinfo'
  exact ⟨info'',hinfo'',htrans _ _ _ hr hr'⟩

theorem Carries.foldl {ι : Type} {f : Pool Tx Rate → ι → Pool Tx Rate} (hrefl : ∀ info, R info info)
    (htrans : ∀ i j k, R i j → R j k → R i k) (hf : ∀ txs i, Carries R txs (f txs i)) (is : List ι)
    (txs : Pool Tx Rate) : Carries R txs (is.foldl f txs) := by
  induction is generalizing txs with
  | nil => exact .refl hrefl txs
  | cons i is ih => exact (hf txs i).trans htrans (ih _)

theorem Carries.foldl_back {ι : Type} {f : Pool Tx Rate → ι → Pool Tx Rate}
    (hrefl : ∀ info, R info info) (htrans : ∀ i j k, R i j → R j k → R i k)
    (hf : ∀ txs i, Carries R (f txs i) txs) (is : List ι) (txs : Pool Tx Rate) :
    Carries R (is.foldl f txs) txs := by
  induction is generalizing txs with
  | nil => exact .refl hrefl txs
  | cons i is ih => exact (ih _).trans htrans (hf txs i)

theorem Carries.put (hrefl : ∀ info, R info info) (h : KV.get txs txid = some info)
    {info' : MempoolTxInfo Tx Rate} (hr : R info info') :
    Carries R txs (KV.write txs [.put txid info']) := by
  intro txid' old hold
  rw [KV.get_write_put]
  by_cases heq : txid = txid'
  · rw [if_pos heq]
    rw [← heq, h] at hold
    cases hold
    exact ⟨info',rfl,hr⟩
  · rw [if_neg heq]
    exact ⟨old,hold,hrefl old⟩

theorem Carries.put_back (hrefl : ∀ info, R info info) (h : KV.get txs txid = some info)
    {info' : MempoolTxInfo Tx Rate} (hr : R info' info) :
    Carries R (KV.write txs [.put txid info']) txs := by
  intro txid' new hnew
  rw [KV.get_write_put] at hnew
  by_cases heq : txid = txid'
  · rw [if_pos heq] at hnew
    cases hnew
    exact ⟨info,heq ▸ h,hr⟩
  · rw [if_neg heq] at hnew
    exact ⟨new,hnew,hrefl new⟩

/-- A new entry leaves the others alone. -/
theorem Carries.put_new (hrefl : ∀ info, R info info) (h : KV.get txs txid = none)
    (info' : MempoolTxInfo Tx Rate) : Carries R txs (KV.write txs [.put txid info']) := by
  intro txid' old hold
  have hne : txid ≠ txid' := by
    intro heq
    rw [← heq, h] at hold
    cases hold
  rw [KV.get_write_put, if_neg hne]
  exact ⟨old,hold,hrefl old⟩

end Carries

/-- The same entry up to more descendants. -/
structure MoreDescendants (info info' : MempoolTxInfo Tx Rate) : Prop where
  same : info' = { info with descendants := info'.descendants }
  subset : info.descendants ⊆ info'.descendants

theorem MoreDescendants.refl (info : MempoolTxInfo Tx Rate) : MoreDescendants info info :=
  ⟨rfl,List.Subset.refl _⟩

theorem MoreDescendants.trans (i j k : MempoolTxInfo Tx Rate) (h : MoreDescendants i j)
    (h' : MoreDescendants j k) : MoreDescendants i k :=
  ⟨by rw [h'.same, h.same],fun _ hc => h'.subset (h.subset hc)⟩

theorem MoreDescendants.sameEntry {info info' : MempoolTxInfo Tx Rate}
    (h : MoreDescendants info info') : SameEntry info info' := by
  rw [h.same]
  exact ⟨rfl,rfl,rfl,rfl⟩

theorem MoreDescendants.insert (info : MempoolTxInfo Tx Rate) (child : Txid) :
    MoreDescendants info { info with descendants := info.descendants.insert child } :=
  ⟨rfl,fun _ h => List.mem_insert_of_mem h⟩

theorem insertDescendant_carries (child : Txid) (txs : Pool Tx Rate) (ancestor : Txid) :
    Carries MoreDescendants txs (insertDescendant child txs ancestor) := by
  rw [insertDescendant]
  cases h : KV.get txs ancestor with
  | none => exact .refl MoreDescendants.refl txs
  | some info => exact .put MoreDescendants.refl h (.insert info child)

/-- An entry without some of its descendants. -/
def FewerDescendants (info' info : MempoolTxInfo Tx Rate) : Prop := MoreDescendants info info'

theorem FewerDescendants.refl (info : MempoolTxInfo Tx Rate) : FewerDescendants info info :=
  MoreDescendants.refl info

theorem FewerDescendants.trans (i j k : MempoolTxInfo Tx Rate) (h : FewerDescendants i j)
    (h' : FewerDescendants j k) : FewerDescendants i k := MoreDescendants.trans k j i h' h

theorem insertDescendant_carries_back (child : Txid) (txs : Pool Tx Rate) (ancestor : Txid) :
    Carries FewerDescendants (insertDescendant child txs ancestor) txs := by
  rw [insertDescendant]
  cases h : KV.get txs ancestor with
  | none => exact .refl FewerDescendants.refl txs
  | some info =>
    have hfewer : FewerDescendants { info with descendants := info.descendants.insert child } info :=
      .insert info child
    exact .put_back FewerDescendants.refl h hfewer

theorem linkTransaction_carries (txs : Pool Tx Rate) (txid : Txid) :
    Carries MoreDescendants txs (linkTransaction txs txid) := by
  rw [linkTransaction]
  cases KV.get txs txid with
  | none => exact .refl MoreDescendants.refl txs
  | some info =>
    exact .foldl MoreDescendants.refl MoreDescendants.trans (insertDescendant_carries txid) _ txs

theorem linkTransaction_carries_back (txs : Pool Tx Rate) (txid : Txid) :
    Carries FewerDescendants (linkTransaction txs txid) txs := by
  rw [linkTransaction]
  cases KV.get txs txid with
  | none => exact .refl FewerDescendants.refl txs
  | some info =>
    exact .foldl_back FewerDescendants.refl FewerDescendants.trans
      (insertDescendant_carries_back txid) _ txs

theorem insertDescendants_mem (child : Txid) {a : Txid} {ancestors : List Txid} (ha : a ∈ ancestors)
    (hheld : KV.get txs a ≠ none) : ∃ info',
      KV.get (ancestors.foldl (insertDescendant child) txs) a = some info' ∧
        child ∈ info'.descendants := by
  induction ancestors generalizing txs with
  | nil => cases ha
  | cons first ancestors ih =>
    obtain ⟨info,hinfo⟩ := Option.ne_none_iff_exists'.mp hheld
    by_cases heq : a = first
    · have hput : KV.get (insertDescendant child txs first) a =
          some { info with descendants := info.descendants.insert child } := by
        rw [insertDescendant, ← heq, hinfo]
        dsimp only
        rw [KV.get_write_put, if_pos rfl]
      obtain ⟨info',hinfo',hmore⟩ := Carries.foldl MoreDescendants.refl MoreDescendants.trans
        (insertDescendant_carries child) ancestors _ a _ hput
      exact ⟨info',hinfo',hmore.subset (List.mem_insert_self ..)⟩
    · have hrest : a ∈ ancestors := (List.mem_cons.mp ha).resolve_left heq
      obtain ⟨info',hinfo',_⟩ := insertDescendant_carries child txs first a info hinfo
      exact ih hrest (Option.ne_none_iff_exists'.mpr ⟨info',hinfo'⟩)

/-- After the rounds every ancestor that is held knows its descendant. -/
theorem linkAncestors_mem {child a : Txid} {txids : List Txid} (hchild : child ∈ txids)
    (hinfo : KV.get txs child = some info) (ha : a ∈ info.ancestors) (hheld : KV.get txs a ≠ none) :
    ∃ infoA, KV.get (linkAncestors txids txs) a = some infoA ∧ child ∈ infoA.descendants := by
  induction txids generalizing txs info with
  | nil => cases hchild
  | cons txid txids ih =>
    by_cases heq : child = txid
    · obtain ⟨infoA,hinfoA,hmem⟩ := insertDescendants_mem txid ha hheld
      have hstep : KV.get (linkTransaction txs txid) a = some infoA := by
        rw [linkTransaction, ← heq, hinfo]
        rw [← heq] at hinfoA
        exact hinfoA
      obtain ⟨infoA',hinfoA',hmore⟩ := Carries.foldl MoreDescendants.refl MoreDescendants.trans
        linkTransaction_carries txids _ a _ hstep
      exact ⟨infoA',hinfoA',hmore.subset (heq ▸ hmem)⟩
    · obtain ⟨info',hinfo',hmore⟩ := linkTransaction_carries txs txid child info hinfo
      obtain ⟨infoA,hinfoA⟩ := Option.ne_none_iff_exists'.mp hheld
      obtain ⟨infoA',hinfoA',_⟩ := linkTransaction_carries txs txid a infoA hinfoA
      apply ih ((List.mem_cons.mp hchild).resolve_left heq) hinfo'
      · rw [hmore.same]
        exact ha
      · exact Option.ne_none_iff_exists'.mpr ⟨infoA',hinfoA'⟩

theorem Carries.mono {R S : MempoolTxInfo Tx Rate → MempoolTxInfo Tx Rate → Prop}
    (h : Carries R txs txs') (hrs : ∀ i j, R i j → S i j) : Carries S txs txs' := by
  intro txid info hinfo
  obtain ⟨info',hinfo',hr⟩ := h txid info hinfo
  exact ⟨info',hinfo',hrs _ _ hr⟩

theorem insertDescendant_sameEntry (child : Txid) (txs : Pool Tx Rate) (a : Txid) :
    Carries SameEntry txs (insertDescendant child txs a) :=
  (insertDescendant_carries child txs a).mono fun _ _ h => h.sameEntry

theorem relateTransaction_carries (txs : Pool Tx Rate) (txid : Txid) :
    Carries SameEntry txs (relateTransaction reader txs txid) := by
  rw [relateTransaction]
  cases h : KV.get txs txid with
  | none => exact .refl SameEntry.refl txs
  | some info =>
    dsimp only
    split_ifs
    · exact .refl SameEntry.refl txs
    · have hput : Carries SameEntry txs (KV.write txs [.put txid { info with
          ancestors := ((reader.spent info.tx).filter (isHeld txs ·)).dedup }]) :=
        .put SameEntry.refl h ⟨rfl,rfl,rfl,rfl⟩
      apply hput.trans SameEntry.trans
      exact .foldl SameEntry.refl SameEntry.trans (insertDescendant_sameEntry txid) _ _

end Frames

section Session

variable {Tx Rate : Type} {codec : ConsensusCodec} {reader : TxReader Tx Rate} {held : Txid → Bool}
  {payload : Bytes}

theorem exists_of_bind_ok {ε α β : Type} {x : Except ε α} {f : α → Except ε β} {b : β}
    (h : x.bind f = .ok b) : ∃ a, x = .ok a ∧ f a = .ok b := by
  cases x with
  | error e => cases h
  | ok a => exact ⟨a,rfl,h⟩

/-- Only ids that are not held are asked for. -/
theorem readInventory_unheld (left : Nat) : ∀ offset items,
    readInventory codec held payload left offset = .ok items →
      ∀ txid, txid ∈ requestedIds (some items) → held txid = false := by
  induction left with
  | zero =>
    intro offset items h txid hmem
    cases h
    cases hmem
  | succ left ih =>
    intro offset items h txid hmem
    rw [readInventory] at h
    obtain ⟨rest,_,h⟩ := exists_of_bind_ok h
    obtain ⟨word,_,h⟩ := exists_of_bind_ok h
    change (if word.1 = 1 then _ else _) = _ at h
    by_cases hone : word.1 = 1
    · rw [if_pos hone] at h
      obtain ⟨source,_,h⟩ := exists_of_bind_ok h
      obtain ⟨hash,_,h⟩ := exists_of_bind_ok h
      obtain ⟨later,hlater,h⟩ := exists_of_bind_ok h
      cases h
      by_cases hheld : held hash
      · rw [if_pos hheld] at hmem
        exact ih _ later hlater txid hmem
      · rw [if_neg hheld] at hmem
        rcases List.mem_cons.mp hmem with rfl | hmem
        · exact Bool.not_eq_true _ ▸ hheld
        · exact ih _ later hlater txid hmem
    · rw [if_neg hone] at h
      exact ih _ items h txid hmem

theorem handleInv_unheld {request : Option (List Inventory)}
    (h : handleInv codec held payload = .ok request) :
    ∀ txid ∈ requestedIds request, held txid = false := by
  rw [handleInv] at h
  obtain ⟨count,_,h⟩ := exists_of_bind_ok h
  obtain ⟨items,hitems,h⟩ := exists_of_bind_ok h
  have hrequest : requestFor items = request := Except.ok.inj h
  intro txid hmem
  rw [← hrequest, requestFor] at hmem
  by_cases hnil : items = []
  · rw [if_pos hnil] at hmem
    cases hmem
  · rw [if_neg hnil] at hmem
    exact readInventory_unheld _ _ items hitems txid hmem

/-- A message leaves every entry, and what is still waited for is not held. -/
theorem receiveMessage_carries {s s' : PeerState Tx Rate} {message : PeerMessage Tx}
    (h : receiveMessage codec reader s message = .ok s')
    (hnew : ∀ txid ∈ s.newTxs, KV.get s.txs txid = none) :
    Carries SameEntry s.txs s'.txs ∧ ∀ txid ∈ s'.newTxs, KV.get s'.txs txid = none := by
  cases message with
  | inv payload =>
    rw [receiveMessage] at h
    cases hreq : handleInv codec (isHeld s.txs) payload with
    | error e =>
      rw [hreq] at h
      cases h
    | ok request =>
      rw [hreq] at h
      cases h
      refine ⟨.refl SameEntry.refl _,?_⟩
      intro txid hmem
      rcases List.mem_append.mp hmem with hmem | hmem
      · exact hnew txid hmem
      · exact Option.isNone_iff_eq_none.mp (by
          rw [← Option.not_isSome, Bool.not_eq_true']
          exact handleInv_unheld hreq txid hmem)
  | tx tx =>
    rw [receiveMessage] at h
    by_cases hmem : reader.computeTxid tx ∈ s.newTxs
    · rw [if_pos hmem] at h
      cases h
      refine ⟨.put_new SameEntry.refl (hnew _ hmem) _,?_⟩
      intro txid htxid
      obtain ⟨hold,hne⟩ := List.mem_filter.mp htxid
      show KV.get (KV.write s.txs [.put (reader.computeTxid tx) _]) txid = none
      rw [KV.get_write_put, if_neg (fun heq => of_decide_eq_true hne heq.symm)]
      exact hnew txid hold
    · rw [if_neg hmem] at h
      cases h
      exact ⟨.refl SameEntry.refl _,hnew⟩

theorem receiveMessages_carries (codec : ConsensusCodec) (reader : TxReader Tx Rate) (timesOut : Bool)
    (messages : List (PeerMessage Tx)) (s : PeerState Tx Rate) (hnew : ∀ txid ∈ s.newTxs, KV.get s.txs txid = none) :
    Carries SameEntry s.txs (receiveMessages codec reader timesOut messages s).1 := by
  induction messages generalizing s with
  | nil => exact .refl SameEntry.refl _
  | cons message messages ih =>
    rw [receiveMessages]
    cases h : receiveMessage codec reader s message with
    | error e => exact .refl SameEntry.refl _
    | ok s' =>
      obtain ⟨hcarries,hnew'⟩ := receiveMessage_carries h hnew
      dsimp only
      split_ifs
      · exact hcarries
      · exact hcarries.trans SameEntry.trans (ih s' hnew')

/-- A session keeps every entry. -/
theorem session_carries (codec : ConsensusCodec) (reader : TxReader Tx Rate)
    (order : KV.VisitOrder Txid (MempoolTxInfo Tx Rate)) (timesOut : Bool)
    (messages : List (PeerMessage Tx)) (txs : Pool Tx Rate) :
    Carries SameEntry txs (updateMempoolP2p codec reader order timesOut messages txs) := by
  have hreceived := receiveMessages_carries codec reader timesOut messages ⟨txs,[]⟩ (fun txid h => by cases h)
  rw [updateMempoolP2p]
  split
  · rename_i h
    rw [h] at hreceived
    exact hreceived
  · rename_i h
    rw [h] at hreceived
    apply hreceived.trans SameEntry.trans
    exact .foldl SameEntry.refl SameEntry.trans relateTransaction_carries _ _

end Session

section Node

variable {Tx Rate : Type} {reader : TxReader Tx Rate} {txs txs' : Pool Tx Rate}
  {mempool : List (NodeTx Tx Rate)} {rawTransaction : Bytes → Except String Tx}

theorem fromHex_toDisplay (txid : Txid) : fromHex (toDisplay txid) = .ok txid.reverse := by
  have hlen : txid.toList.reverse.length = 32 := by simp
  rw [fromHex, toDisplay, hexDecode_hexEncode]
  dsimp only
  rw [dif_pos hlen]
  apply congrArg Except.ok
  apply Vector.toList_inj.mp
  simp

theorem toDisplay_injective : Function.Injective toDisplay := by
  intro txid txid' h
  have hread := fromHex_toDisplay txid
  rw [h, fromHex_toDisplay] at hread
  have hrev := congrArg Vector.reverse (Except.ok.inj hread)
  rw [Vector.reverse_reverse, Vector.reverse_reverse] at hrev
  exact hrev.symm

/-- The recorded parents of an entering transaction are its parents in the mempool. -/
theorem mem_depends (hpal : ∀ txid ∈ nodeIds reader mempool, txid.reverse = txid) (t : NodeTx Tx Rate)
    (a : Txid) :
    a ∈ ((rpcEntry reader mempool t).2.depends.filterMap fun v => (fromHex v).toOption) ↔
      a ∈ nodeIds reader mempool ∧ a ∈ reader.spent t.tx := by
  rw [rpcEntry]
  dsimp only
  rw [List.filterMap_map, List.mem_filterMap]
  constructor
  · intro h
    obtain ⟨x,hx,hread⟩ := h
    obtain ⟨hmem,hspent⟩ := List.mem_filter.mp hx
    rw [Function.comp_apply, fromHex_toDisplay, hpal x hmem] at hread
    rw [← Option.some.inj hread]
    exact ⟨hmem,of_decide_eq_true hspent⟩
  · intro h
    refine ⟨a,List.mem_filter.mpr ⟨h.1,decide_eq_true h.2⟩,?_⟩
    rw [Function.comp_apply, fromHex_toDisplay, hpal a h.1]
    rfl

/-- What additions from a snapshot do, whether or not they get through. -/
structure Added (reader : TxReader Tx Rate) (mempool : List (NodeTx Tx Rate))
    (txs txs' : Pool Tx Rate) : Prop where
  sound : Sound reader txs'
  keeps : ∀ txid info, KV.get txs txid = some info → KV.get txs' txid = some info
  added : ∀ txid info, KV.get txs' txid = some info → KV.get txs txid = some info ∨
    (txid ∈ nodeIds reader mempool ∧
      ∀ a ∈ nodeIds reader mempool, a ∈ reader.spent info.tx → a ∈ info.ancestors)

theorem Added.refl (hs : Sound reader txs) : Added reader mempool txs txs :=
  ⟨hs,fun _ _ => id,fun _ _ => .inl⟩

theorem addTransactions_added (hunique : reader.Unique)
    (hpal : ∀ txid ∈ nodeIds reader mempool, txid.reverse = txid)
    (hhonest : (Event.answer mempool rawTransaction).Honest reader) (rest : List (NodeTx Tx Rate))
    (hrest : ∀ t ∈ rest, t ∈ mempool) (txs : Pool Tx Rate) (hs : Sound reader txs) :
    Added reader mempool txs
        (addTransactions rawTransaction (rest.map (rpcEntry reader mempool)) txs).1 ∧
      ((addTransactions rawTransaction (rest.map (rpcEntry reader mempool)) txs).2 = .ok () →
        ∀ t ∈ rest, KV.get
          (addTransactions rawTransaction (rest.map (rpcEntry reader mempool)) txs).1
            (reader.computeTxid t.tx) ≠ none) := by
  induction rest generalizing txs with
  | nil =>
    refine ⟨.refl hs,?_⟩
    intro _ t ht
    cases ht
  | cons t rest ih =>
    have ih := ih fun t' ht => hrest t' (List.mem_cons_of_mem t ht)
    have hid : reader.computeTxid t.tx ∈ nodeIds reader mempool :=
      List.mem_map_of_mem (hrest t List.mem_cons_self)
    have hread : fromHex (rpcEntry reader mempool t).1 = .ok (reader.computeTxid t.tx) := by
      rw [rpcEntry, fromHex_toDisplay, hpal _ hid]
    rw [List.map_cons, addTransactions, hread]
    dsimp only
    by_cases hheld : isHeld txs (reader.computeTxid t.tx)
    · rw [if_pos hheld]
      obtain ⟨hadded,hall⟩ := ih txs hs
      refine ⟨hadded,?_⟩
      intro hok t' ht
      rcases List.mem_cons.mp ht with rfl | ht
      · obtain ⟨info,hinfo⟩ := Option.isSome_iff_exists.mp hheld
        rw [hadded.keeps _ info hinfo]
        exact Option.some_ne_none info
      · exact hall hok t' ht
    · rw [if_neg hheld]
      have hnone : KV.get txs (reader.computeTxid t.tx) = none := by
        rw [isHeld, Bool.not_eq_true, Option.isSome_eq_false_iff, Option.isNone_iff_eq_none] at hheld
        exact hheld
      cases hraw : rawTransaction (rpcEntry reader mempool t).1 with
      | error text =>
        refine ⟨.refl hs,?_⟩
        intro hok
        cases hok
      | ok tx =>
        dsimp only
        have htx : reader.computeTxid tx = reader.computeTxid t.tx := hhonest _ hid tx hraw
        obtain ⟨info,hinfo⟩ : ∃ info : MempoolTxInfo Tx Rate, info = {
            tx := tx
            fee := (rpcEntry reader mempool t).2.fee
            vsize := (rpcEntry reader mempool t).2.vsize
            feeRate := (rpcEntry reader mempool t).2.feeRate
            ancestors := (rpcEntry reader mempool t).2.depends.filterMap fun v => (fromHex v).toOption
            descendants := [] } := ⟨_,rfl⟩
        have hanc : ∀ a, a ∈ info.ancestors ↔ a ∈ nodeIds reader mempool ∧ a ∈ reader.spent info.tx := by
          intro a
          rw [hinfo, hunique tx t.tx htx]
          exact mem_depends hpal t a
        have hs' : Sound reader (KV.write txs [.put (reader.computeTxid t.tx) info]) := by
          apply hs.put
          · rw [hinfo]
            exact htx
          · intro a ha
            exact ((hanc a).mp ha).2
          · intro child hchild
            rw [hinfo] at hchild
            cases hchild
        rw [← hinfo]
        obtain ⟨hadded,hall⟩ := ih _ hs'
        have hput : ∀ txid, KV.get (KV.write txs [.put (reader.computeTxid t.tx) info]) txid =
            if reader.computeTxid t.tx = txid then some info else KV.get txs txid :=
          fun txid => KV.get_write_put txs _ txid info
        refine ⟨⟨hadded.sound,?_,?_⟩,?_⟩
        · intro txid old hold
          apply hadded.keeps
          rw [hput, if_neg]
          · exact hold
          · intro heq
            rw [← heq, hnone] at hold
            cases hold
        · intro txid new hnew
          rcases hadded.added txid new hnew with hput' | hnew'
          · rw [hput] at hput'
            by_cases heq : reader.computeTxid t.tx = txid
            · rw [if_pos heq] at hput'
              cases hput'
              exact .inr ⟨heq ▸ hid,fun a ha hspent => (hanc a).mpr ⟨ha,hspent⟩⟩
            · rw [if_neg heq] at hput'
              exact .inl hput'
          · exact .inr hnew'
        · intro hok t' ht
          rcases List.mem_cons.mp ht with rfl | ht
          · have hmem := hadded.keeps (reader.computeTxid t'.tx) info (by rw [hput, if_pos rfl])
            rw [hmem]
            exact Option.some_ne_none info
          · exact hall hok t' ht

/-- The entries that the answer knows. -/
theorem get_known (txid : Txid) : KV.get (txs.filter fun txid _ =>
      toDisplay txid ∈ (mempool.map (rpcEntry reader mempool)).map Prod.fst) txid =
    if txid ∈ nodeIds reader mempool then KV.get txs txid else none := by
  have hmem : toDisplay txid ∈ (mempool.map (rpcEntry reader mempool)).map Prod.fst ↔
      txid ∈ nodeIds reader mempool := by
    rw [List.map_map, nodeIds, List.mem_map, List.mem_map]
    constructor
    · intro h
      obtain ⟨t,ht,heq⟩ := h
      exact ⟨t,ht,toDisplay_injective heq⟩
    · intro h
      obtain ⟨t,ht,heq⟩ := h
      exact ⟨t,ht,congrArg toDisplay heq⟩
  rw [KV.get, Std.ExtTreeMap.getElem?_filter']
  show (KV.get txs txid).filter _ = _
  cases KV.get txs txid with
  | none => simp
  | some info =>
    by_cases h : txid ∈ nodeIds reader mempool
    · rw [if_pos h, Option.filter_some_pos]
      exact decide_eq_true (hmem.mpr h)
    · rw [if_neg h, Option.filter_some_neg]
      exact decide_eq_false fun hd => h (hmem.mp hd)

theorem Sound.answer (hunique : reader.Unique)
    (hpal : ∀ txid ∈ nodeIds reader mempool, txid.reverse = txid)
    (hhonest : (Event.answer mempool rawTransaction).Honest reader)
    (order : KV.VisitOrder Txid (MempoolTxInfo Tx Rate)) (hs : Sound reader txs) : Sound reader
      (updateMempool rawTransaction order (mempool.map (rpcEntry reader mempool)) txs).1 := by
  obtain ⟨hadded,_⟩ := addTransactions_added hunique hpal hhonest mempool (fun _ => id) _
    (hs.filter fun txid _ => toDisplay txid ∈ (mempool.map (rpcEntry reader mempool)).map Prod.fst)
  rw [updateMempool]
  split
  · rename_i h
    rw [h] at hadded
    exact hadded.sound
  · rename_i h
    rw [h] at hadded
    exact hadded.sound.linkAncestors hunique _

theorem updateMempool_ok {order : KV.VisitOrder Txid (MempoolTxInfo Tx Rate)}
    {mempoolInfo : List (Bytes × RpcInfo Rate)}
    (h : (updateMempool rawTransaction order mempoolInfo txs).2 = .ok ()) : ∃ added,
      addTransactions rawTransaction mempoolInfo
          (txs.filter fun txid _ => toDisplay txid ∈ mempoolInfo.map Prod.fst) = (added,.ok ()) ∧
        updateMempool rawTransaction order mempoolInfo txs =
          (linkAncestors ((order.visit added).map Prod.fst) added,.ok ()) := by
  rw [updateMempool] at h ⊢
  cases hadd : addTransactions rawTransaction mempoolInfo
      (txs.filter fun txid _ => toDisplay txid ∈ mempoolInfo.map Prod.fst) with
  | mk added result =>
    rw [hadd] at h
    cases result with
    | error e => cases h
    | ok u => exact ⟨added,rfl,rfl⟩

/-- An answer that is gone through leaves the snapshot, and keeps what stays. -/
theorem updateMempool_faithful (hunique : reader.Unique)
    (hhonest : (Event.answer mempool rawTransaction).Honest reader)
    (order : KV.VisitOrder Txid (MempoolTxInfo Tx Rate)) (hs : Sound reader txs)
    (hmirror : Mirrorable reader txs mempool)
    (hok : (updateMempool rawTransaction order (mempool.map (rpcEntry reader mempool)) txs).2 = .ok ()) :
    Faithful reader
        (updateMempool rawTransaction order (mempool.map (rpcEntry reader mempool)) txs).1 mempool ∧
      Kept txs (updateMempool rawTransaction order (mempool.map (rpcEntry reader mempool)) txs).1 := by
  have hfinal := hs.answer hunique hmirror.palindrome hhonest order
  obtain ⟨hadded,hall⟩ := addTransactions_added hunique hmirror.palindrome hhonest mempool
    (fun _ => id) _
    (hs.filter fun txid _ => toDisplay txid ∈ (mempool.map (rpcEntry reader mempool)).map Prod.fst)
  obtain ⟨added,hadd,heq⟩ := updateMempool_ok hok
  rw [hadd] at hadded hall
  rw [heq] at hfinal ⊢
  dsimp only at hadded hall hfinal ⊢
  have hlinked := Carries.foldl MoreDescendants.refl MoreDescendants.trans linkTransaction_carries
    ((order.visit added).map Prod.fst) added
  have hback := Carries.foldl_back FewerDescendants.refl FewerDescendants.trans
    linkTransaction_carries_back ((order.visit added).map Prod.fst) added
  -- what the additions leave of the snapshot
  have hadds : ∀ txid info, KV.get added txid = some info → txid ∈ nodeIds reader mempool ∧
      ∀ a ∈ nodeIds reader mempool, a ∈ reader.spent info.tx → a ∈ info.ancestors := by
    intro txid info h
    rcases hadded.added txid info h with hknown | hnew
    · rw [get_known] at hknown
      by_cases hmem : txid ∈ nodeIds reader mempool
      · rw [if_pos hmem] at hknown
        exact ⟨hmem,hmirror.recorded txid info hknown hmem⟩
      · rw [if_neg hmem] at hknown
        cases hknown
    · exact hnew
  have hheld : ∀ txid, KV.get (linkAncestors ((order.visit added).map Prod.fst) added) txid ≠ none ↔
      txid ∈ nodeIds reader mempool := by
    intro txid
    constructor
    · intro h
      obtain ⟨info,hinfo⟩ := Option.ne_none_iff_exists'.mp h
      obtain ⟨info',hinfo',_⟩ := hback txid info hinfo
      exact (hadds txid info' hinfo').1
    · intro h
      obtain ⟨t,ht,rfl⟩ := List.mem_map.mp h
      obtain ⟨info,hinfo⟩ := Option.ne_none_iff_exists'.mp (hall rfl t ht)
      obtain ⟨info',hinfo',_⟩ := hlinked _ info hinfo
      exact Option.ne_none_iff_exists'.mpr ⟨info',hinfo'⟩
  -- a parent that is held is recorded
  have hrecorded : ∀ a b infoA infoB,
      KV.get (linkAncestors ((order.visit added).map Prod.fst) added) a = some infoA →
      KV.get (linkAncestors ((order.visit added).map Prod.fst) added) b = some infoB →
      a ∈ reader.spent infoB.tx → ∃ info, KV.get added b = some info ∧ a ∈ info.ancestors ∧
        info.ancestors = infoB.ancestors ∧ KV.get added a ≠ none := by
    intro a b infoA infoB ha hb hspent
    obtain ⟨info,hinfo,hfewer⟩ := hback b infoB hb
    obtain ⟨info',hinfo',_⟩ := hback a infoA ha
    have hsame : infoB = { info with descendants := infoB.descendants } :=
      MoreDescendants.same hfewer
    rw [hsame] at hspent
    have hmem := (hadds b info hinfo).2 a (hadds a info' hinfo').1 hspent
    refine ⟨info,hinfo,hmem,?_,Option.ne_none_iff_exists'.mpr ⟨info',hinfo'⟩⟩
    rw [hsame]
  constructor
  · refine ⟨hheld,hfinal.own,?_,?_⟩
    · intro a b infoA infoB ha hb
      constructor
      · exact hfinal.ancestors b infoB hb a
      · intro hspent
        obtain ⟨info,_,hmem,heq,_⟩ := hrecorded a b infoA infoB ha hb hspent
        exact heq ▸ hmem
    · intro a b infoA infoB ha hb
      constructor
      · intro hspent
        obtain ⟨info,hinfo,hmem,_,hnone⟩ := hrecorded a b infoA infoB ha hb hspent
        have hvisit : b ∈ (order.visit added).map Prod.fst :=
          List.mem_map_of_mem (order.mem_visit.mpr hinfo)
        obtain ⟨infoA',hinfoA',hchild⟩ := linkAncestors_mem hvisit hinfo hmem hnone
        rw [ha] at hinfoA'
        cases hinfoA'
        exact hchild
      · intro hchild
        exact hfinal.descendants a infoA ha b hchild infoB.tx (hfinal.own b infoB hb)
  · intro txid info info' h h'
    obtain ⟨old,hold,hfewer⟩ := hback txid info' h'
    have hmem := (hadds txid old hold).1
    have hknown := hadded.keeps txid info (by rw [get_known, if_pos hmem, h])
    rw [hold] at hknown
    cases hknown
    exact MoreDescendants.sameEntry hfewer

end Node

section Runs

variable {Tx Rate : Type} (codec : ConsensusCodec) {reader : TxReader Tx Rate}
  (order : KV.VisitOrder Txid (MempoolTxInfo Tx Rate))

theorem Sound.next (hunique : reader.Unique) {event : Event Tx Rate} {txs : Pool Tx Rate}
    (hhonest : event.Honest reader) (hs : Sound reader txs)
    (hmeets : event.MeetsMirrorable reader txs) :
    Sound reader (event.next codec reader order txs) := by
  cases event with
  | session timesOut messages => exact hs.session codec hunique order timesOut messages
  | answer mempool rawTransaction =>
    have hmirror : Mirrorable reader txs mempool := hmeets
    exact hs.answer hunique hmirror.palindrome hhonest order

theorem AllMirrorable.append {events events' : List (Event Tx Rate)} {txs : Pool Tx Rate} :
    AllMirrorable codec reader order (events ++ events') txs ↔
      AllMirrorable codec reader order events txs ∧
        AllMirrorable codec reader order events' (runEvents codec reader order events txs) := by
  induction events generalizing txs with
  | nil => exact (and_iff_right trivial).symm
  | cons event events ih =>
    rw [List.cons_append, AllMirrorable, AllMirrorable, ih, and_assoc]
    rfl

theorem Sound.run (hunique : reader.Unique) (events : List (Event Tx Rate)) {txs : Pool Tx Rate}
    (hhonest : ∀ event ∈ events, event.Honest reader) (hs : Sound reader txs)
    (hmeets : AllMirrorable codec reader order events txs) :
    Sound reader (runEvents codec reader order events txs) := by
  induction events generalizing txs with
  | nil => exact hs
  | cons event events ih =>
    apply ih fun e he => hhonest e (List.mem_cons_of_mem event he)
    · exact hs.next codec order hunique (hhonest event List.mem_cons_self) hmeets.1
    · exact hmeets.2

/-- An update: a session where a peer is configured, then the answer of the node. -/
def updateEvents (session : Option (Bool × List (PeerMessage Tx))) (mempool : List (NodeTx Tx Rate))
    (rawTransaction : Bytes → Except String Tx) : List (Event Tx Rate) :=
  (session.map fun s => .session s.1 s.2).toList ++ [.answer mempool rawTransaction]

end Runs

/-- In a run whose answers all meet mirrorable states, every update that completes leaves a faithful
mirror and keeps the entries that stay. -/
theorem mempool_mirror_faithful {Tx Rate : Type} (codec : ConsensusCodec) (reader : TxReader Tx Rate)
    (hunique : reader.Unique) (order : KV.VisitOrder Txid (MempoolTxInfo Tx Rate))
    (before : List (Event Tx Rate)) (session : Option (Bool × List (PeerMessage Tx)))
    (mempool : List (NodeTx Tx Rate)) (rawTransaction : Bytes → Except String Tx)
    (hhonest : ∀ event ∈ before ++ updateEvents session mempool rawTransaction, event.Honest reader)
    (hmeets : AllMirrorable codec reader order
      (before ++ updateEvents session mempool rawTransaction) ∅)
    (hcompletes : (updateMempool rawTransaction order (mempool.map (rpcEntry reader mempool))
      (runEvents codec reader order (before ++ (session.map fun s => .session s.1 s.2).toList) ∅)).2 =
        .ok ()) :
    Faithful reader (runEvents codec reader order
        (before ++ updateEvents session mempool rawTransaction) ∅) mempool ∧
      Kept (runEvents codec reader order before ∅)
        (runEvents codec reader order (before ++ updateEvents session mempool rawTransaction) ∅) := by
  rw [updateEvents, ← List.append_assoc] at hhonest hmeets ⊢
  obtain ⟨hearlier,hlast⟩ := (AllMirrorable.append codec order).mp hmeets
  have hs := Sound.run codec order hunique _
    (fun event he => hhonest event (List.mem_append_left _ he)) .empty hearlier
  obtain ⟨hfaithful,hkept⟩ := updateMempool_faithful hunique
    (hhonest (.answer mempool rawTransaction) (by simp)) order hs hlast.1 hcompletes
  have hrun : runEvents codec reader order
      ((before ++ (session.map fun s => .session s.1 s.2).toList) ++ [.answer mempool rawTransaction]) ∅ =
      (updateMempool rawTransaction order (mempool.map (rpcEntry reader mempool))
        (runEvents codec reader order (before ++ (session.map fun s => .session s.1 s.2).toList) ∅)).1 := by
    rw [runEvents, List.foldl_append]
    rfl
  rw [hrun]
  refine ⟨hfaithful,?_⟩
  intro txid info info' h h'
  cases session with
  | none =>
    apply hkept txid info info' _ h'
    rw [Option.map_none, Option.toList_none, List.append_nil]
    exact h
  | some s =>
    obtain ⟨mid,hmid,hsame⟩ := session_carries codec reader order s.1 s.2
      (runEvents codec reader order before ∅) txid info h
    apply hsame.trans
    apply hkept txid mid info' _ h'
    rw [Option.map_some, Option.toList_some, runEvents, List.foldl_append]
    exact hmid

section Small

/-- Transactions that are their ids; the second one spends an output of the first. -/
def smallReader : TxReader Txid Nat where
  computeTxid tx := tx
  spent tx := if tx = Vector.replicate 32 2 then [Vector.replicate 32 1] else []
  vsize _ := 100
  feeRate _ _ := 2

theorem smallReader_unique : smallReader.Unique := fun _ _ h => congrArg smallReader.spent h

def parentAndChild : List (NodeTx Txid Nat) :=
  [⟨Vector.replicate 32 2,500,100,5⟩,⟨Vector.replicate 32 1,100,100,1⟩]

/-- The node gives out the transactions of its mempool. -/
def rawParentAndChild (txidStr : Bytes) : Except String Txid :=
  if txidStr = toDisplay (Vector.replicate 32 1) then .ok (Vector.replicate 32 1)
  else .ok (Vector.replicate 32 2)

/-- The mempool at the second update, when a third transaction has come in. -/
def parentChildAndOther : List (NodeTx Txid Nat) :=
  ⟨Vector.replicate 32 3,300,100,3⟩::parentAndChild

def rawParentChildAndOther (txidStr : Bytes) : Except String Txid :=
  if txidStr = toDisplay (Vector.replicate 32 3) then .ok (Vector.replicate 32 3)
  else rawParentAndChild txidStr

/-- The parent of what is held has been recorded. -/
theorem recorded_of_all {txs : Pool Txid Nat} {mempool : List (NodeTx Txid Nat)}
    (h : ∀ txid ∈ nodeIds smallReader mempool, (KV.get txs txid).all fun info =>
      (nodeIds smallReader mempool).all fun a =>
        a ∉ smallReader.spent info.tx ∨ a ∈ info.ancestors) :
    ∀ txid info, KV.get txs txid = some info → txid ∈ nodeIds smallReader mempool →
      ∀ a ∈ nodeIds smallReader mempool, a ∈ smallReader.spent info.tx → a ∈ info.ancestors := by
  intro txid info hget htxid a ha hspent
  have hall := h txid htxid
  rw [hget, Option.all_some, List.all_eq_true] at hall
  exact (of_decide_eq_true (hall a ha)).resolve_left (not_not_intro hspent)

/-- A child and its parent, with ids that read the same in both directions, and a second update after
a session in which the peer says nothing: they are kept and a third transaction is added. -/
theorem mempool_mirror_second_update :
    Faithful smallReader (runEvents shortestFormCodec smallReader .sorted
        (updateEvents none parentAndChild rawParentAndChild ++
          updateEvents (some (true,[])) parentChildAndOther rawParentChildAndOther) ∅)
      parentChildAndOther ∧
    Kept (runEvents shortestFormCodec smallReader .sorted
        (updateEvents none parentAndChild rawParentAndChild) ∅)
      (runEvents shortestFormCodec smallReader .sorted
        (updateEvents none parentAndChild rawParentAndChild ++
          updateEvents (some (true,[])) parentChildAndOther rawParentChildAndOther) ∅) := by
  apply mempool_mirror_faithful shortestFormCodec smallReader smallReader_unique
  · have hfirst : ∀ txid ∈ nodeIds smallReader parentAndChild,
        rawParentAndChild (toDisplay txid) = .ok txid := by decide
    have hsecond : ∀ txid ∈ nodeIds smallReader parentChildAndOther,
        rawParentChildAndOther (toDisplay txid) = .ok txid := by decide
    simp only [updateEvents, Option.map_none, Option.toList_none, Option.map_some,
      Option.toList_some, List.nil_append, List.cons_append, List.forall_mem_cons]
    refine ⟨?_,trivial,?_,fun _ h => absurd h List.not_mem_nil⟩
    · intro txid htxid tx htx
      rw [hfirst txid htxid] at htx
      exact (Except.ok.inj htx).symm
    · intro txid htxid tx htx
      rw [hsecond txid htxid] at htx
      exact (Except.ok.inj htx).symm
  · refine ⟨⟨by decide +kernel,?_⟩,trivial,⟨by decide +kernel,?_⟩,trivial⟩
    · intro txid info h
      cases h
    · exact recorded_of_all (by decide +kernel)
  · decide +kernel

/-- An id that reads differently backwards. -/
theorem mempool_mirror_reversed : ¬∀ (codec : ConsensusCodec) (reader : TxReader Txid Nat),
    reader.Unique → ∀ order before session mempool rawTransaction,
      (∀ event ∈ before ++ updateEvents session mempool rawTransaction, event.Honest reader) →
      (updateMempool rawTransaction order (mempool.map (rpcEntry reader mempool))
        (runEvents codec reader order
          (before ++ (session.map fun s => Event.session s.1 s.2).toList) ∅)).2 = .ok () →
      Faithful reader (runEvents codec reader order
        (before ++ updateEvents session mempool rawTransaction) ∅) mempool := by
  intro h
  have hfaithful := h shortestFormCodec smallReader smallReader_unique .sorted [] none
    [⟨(Vector.replicate 31 1).push 2,100,100,1⟩] (fun _ => .ok ((Vector.replicate 31 1).push 2)) ?_
    (by decide)
  · apply (hfaithful.held ((Vector.replicate 31 1).push 2)).mpr List.mem_cons_self
    rw [← Option.isNone_iff_eq_none]
    decide +kernel
  · intro event hevent
    obtain rfl := List.mem_singleton.mp hevent
    intro txid hmem tx htx
    rw [List.mem_singleton.mp hmem]
    exact (Except.ok.inj htx).symm

end Small

end Metashrew.Mempool
