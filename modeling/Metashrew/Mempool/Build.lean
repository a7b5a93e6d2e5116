import Metashrew.Mempool.Mirror
import Metashrew.Mempool.Templates
import Metashrew.Support.Auxpow

namespace Metashrew.Mempool

open Bytes Parser

/-- The map and the templates that the requests are answered from. -/
structure MempoolTracker (Tx Rate : Type) where
  mempoolTxs : Pool Tx Rate
  blockTemplates : List BlockTemplate

def MempoolTracker.new {Tx Rate : Type} : MempoolTracker Tx Rate := ⟨∅,[]⟩

def VERSION : Int32 := 1

/-- The root is never filled in. -/
def buildBlockHeader (timestamp : UInt32) : Bytes :=
  u32le VERSION.toUInt32.toNat ++ List.replicate 32 0 ++ List.replicate 32 0 ++
    u32le timestamp.toNat ++ u32le 0x1d00ffff ++ u32le 0

/-- What the background loop does, with the order in which the map is gone over: the templates are made
again once the last ones are old enough. -/
inductive Task (Tx Rate : Type) where
  | update (order : KV.VisitOrder Txid (MempoolTxInfo Tx Rate)) (event : Event Tx Rate)
  | generate (order : KV.VisitOrder Txid (MempoolTxInfo Tx Rate))

section Service

variable {Tx Rate : Type} (codec : BlockCodec Tx) (coinbaseTx : UInt64 → Tx)

/-- The answer to a `memshrew_build` request. -/
def MempoolTracker.memshrewBuild (timestamp : UInt32) (t : MempoolTracker Tx Rate) : List Bytes :=
  t.blockTemplates.map fun template =>
    encodeBlock codec.toConsensusCodec codec.encodeTx coinbaseTx (buildBlockHeader timestamp) template
      t.mempoolTxs

variable (reader : TxReader Tx Rate)

def Task.IsUpdate : Task Tx Rate → Prop
  | .update _ _ => True
  | .generate _ => False

/-- An answer of the node names all of these ids. -/
def Task.Names (txids : List Txid) : Task Tx Rate → Prop
  | .update _ (.answer mempool _) => ∀ txid ∈ txids, txid ∈ nodeIds reader mempool
  | _ => True

variable [LT Rate] [DecidableLT Rate] (minFeeRate : Rate)

def MempoolTracker.generateBlockTemplates (t : MempoolTracker Tx Rate)
    (order : KV.VisitOrder Txid (MempoolTxInfo Tx Rate)) : MempoolTracker Tx Rate :=
  { t with blockTemplates := [generateBlockTemplate t.mempoolTxs minFeeRate order] }

def Task.next (t : MempoolTracker Tx Rate) : Task Tx Rate → MempoolTracker Tx Rate
  | .update order event =>
    { t with mempoolTxs := event.next codec.toConsensusCodec reader order t.mempoolTxs }
  | .generate order => t.generateBlockTemplates minFeeRate order

def runTasks (tasks : List (Task Tx Rate)) (t : MempoolTracker Tx Rate) : MempoolTracker Tx Rate :=
  tasks.foldl (Task.next codec reader minFeeRate) t

end Service

section Bytes

variable {Tx Rate : Type} {codec : BlockCodec Tx} {coinbaseTx : UInt64 → Tx} {txs : Pool Tx Rate}
  {template : BlockTemplate}

/-- The header that is read off the first bytes. -/
def unminedHeader (timestamp : UInt32) : ConsensusHeader where
  version := VERSION
  prevBlockhash := Vector.replicate 32 0
  merkleRoot := Vector.replicate 32 0
  time := timestamp
  bits := 0x1d00ffff
  nonce := 0

theorem buildBlockHeader_eq (timestamp : UInt32) :
    buildBlockHeader timestamp = (unminedHeader timestamp).bytes := by
  simp [buildBlockHeader, ConsensusHeader.bytes, unminedHeader]

/-- Nothing is missing from the block exactly when the map has every listed transaction. -/
theorem blockTransactions_length_iff (coinbaseTx : UInt64 → Tx) :
    (blockTransactions coinbaseTx template txs).length = txCount template ↔
      ∀ txid ∈ template.txids, KV.get txs txid ≠ none := by
  rw [blockTransactions, txCount, List.length_cons, Nat.add_right_cancel_iff,
    List.length_filterMap_eq_countP, List.countP_eq_length]
  simp [Option.isSome_iff_ne_none]

theorem blockTransactions_length_le :
    (blockTransactions coinbaseTx template txs).length ≤ txCount template := by
  rw [blockTransactions, txCount, List.length_cons]
  exact Nat.succ_le_succ (List.length_filterMap_le _ _)

/-- More items are asked for than there are. -/
theorem repeatN_runs_out {α ε β : Type} {p : Parser α ε β} {enc : β → List α} {xs : List β} {n : Nat}
    (hreads : ∀ x ∈ xs, p.Reads (enc x) x) (hend : ∀ r, p.run [] ≠ .ok r) (hn : xs.length < n)
    (r : List β × List α) : (p.repeatN n).run (xs.flatMap enc) ≠ .ok r := by
  intro h
  induction xs generalizing n r with
  | nil =>
    obtain ⟨n,rfl⟩ : ∃ m, n = m+1 := ⟨n-1,by rw [List.length_nil] at hn; omega⟩
    obtain ⟨x,mid,hp,_⟩ := exists_of_run_bind h
    exact hend _ hp
  | cons x xs ih =>
    obtain ⟨n,rfl⟩ : ∃ m, n = m+1 := ⟨n-1,by rw [List.length_cons] at hn; omega⟩
    obtain ⟨y,mid,hp,hrest⟩ := exists_of_run_bind h
    rw [List.flatMap_cons, hreads x List.mem_cons_self] at hp
    cases hp
    obtain ⟨ys,mid,hmore,_⟩ := exists_of_run_bind hrest
    exact ih (fun y hy => hreads y (List.mem_cons_of_mem _ hy)) (Nat.lt_of_succ_lt_succ hn) _ hmore

/-- A built block is read back, as the header, the coinbase transaction and the listed transactions, if
none of these is missing, and is not a block else. -/
theorem encodeBlock_read (coinbaseTx : UInt64 → Tx) (txs : Pool Tx Rate) (hcodec : codec.Standard)
    (hend : ∀ r, codec.decodeTx [] ≠ .ok r) (hcount : txCount template < 2^64) (timestamp : UInt32) : ∃ bs,
      hexDecode (encodeBlock codec.toConsensusCodec codec.encodeTx coinbaseTx
        (buildBlockHeader timestamp) template txs) = some bs ∧
      ∀ block rest, (decodeBlock codec).run bs = .ok (block,rest) ↔
        (∀ txid ∈ template.txids, KV.get txs txid ≠ none) ∧ rest = [] ∧
          block = ⟨unminedHeader timestamp,blockTransactions coinbaseTx template txs⟩ := by
  have hreads : ∀ tx ∈ blockTransactions coinbaseTx template txs,
      (consensusDecode codec.decodeTx).Reads (codec.encodeTx tx) tx :=
    fun tx _ => Reads.transaction hcodec tx
  refine ⟨_,hexDecode_hexEncode _,?_⟩
  intro block rest
  rw [buildBlockHeader_eq, hcodec.encodeVarInt _ hcount, List.append_assoc,
    ← blockTransactions_length_iff coinbaseTx]
  by_cases hlength : (blockTransactions coinbaseTx template txs).length = txCount template
  · have hall := Reads.repeatN hreads []
    rw [List.append_nil, hlength] at hall
    have hrun : (decodeBlock codec).run ((unminedHeader timestamp).bytes ++ (CompactSize.encode
        (txCount template) ++ (blockTransactions coinbaseTx template txs).flatMap codec.encodeTx)) =
          .ok (⟨unminedHeader timestamp,blockTransactions coinbaseTx template txs⟩,[]) :=
      (run_decodeBlock_iff hcodec).mpr ⟨_,_,rfl,hcount,hall⟩
    rw [hrun]
    simp only [hlength, true_and, Except.ok.injEq, Prod.mk.injEq]
    constructor
    · intro h
      exact ⟨h.2.symm,h.1.symm⟩
    · intro h
      exact ⟨h.2.symm,h.1.symm⟩
  · rw [run_decodeBlock_iff hcodec]
    constructor
    · intro h
      obtain ⟨count,mid,hbs,hlt,htxs⟩ := h
      have hheader : (unminedHeader timestamp).bytes.length = block.header.bytes.length := by
        rw [header_bytes_length, header_bytes_length]
      obtain ⟨rfl,rfl⟩ := CompactSize.encode_append_inj hcount hlt (List.append_inj hbs hheader).2
      have hshort := Nat.lt_of_le_of_ne blockTransactions_length_le hlength
      refine absurd htxs (repeatN_runs_out hreads ?_ hshort _)
      intro r hr
      obtain ⟨consumed,hdecode,_⟩ := run_consensusDecode_iff.mp hr
      exact hend _ hdecode
    · intro h
      exact absurd h.1 hlength

end Bytes

section Selected

variable {Tx Rate : Type} {txs : Pool Tx Rate}

/-- Listing a transaction does not pay yet. -/
theorem includeAncestors_reward (queue : List Txid) (s : Selection) :
    (includeAncestors txs queue s).template.expectedReward = s.template.expectedReward := by
  induction queue, s using includeAncestors.induct txs with
  | case1 s => rw [includeAncestors_nil]
  | case2 s current queue hold ih => rw [includeAncestors_old hold, ih]
  | case3 s current queue hnew h ih => rw [includeAncestors_dangling hnew h, ih]
  | case4 s current queue hnew info h ih =>
    rw [includeAncestors_held hnew h, ih]
    simp [Selection.push]

def emptySelection : Selection := ⟨[],⟨[],0,0,6_25*100_000_000⟩⟩

theorem emptySelection_sound (txs : Pool Tx Rate) : emptySelection.Sound txs :=
  ⟨.nil,by simp [emptySelection],by simp [emptySelection],by simp [emptySelection]⟩

/-- Each listed transaction once, of those held, and the subsidy with their fees. -/
structure PaidFor (txs : Pool Tx Rate) (template : BlockTemplate) : Prop where
  nodup : template.txids.Nodup
  held : ∀ txid ∈ template.txids, KV.get txs txid ≠ none
  reward : template.expectedReward.toNat =
    (6_25*100_000_000+(template.txids.map (feeOf txs)).sum)%2^64

variable [LT Rate] [DecidableLT Rate] {minFeeRate : Rate}
  {order : KV.VisitOrder Txid (MempoolTxInfo Tx Rate)}

theorem foldl_reward (txs : Pool Tx Rate) (minFeeRate : Rate) (es : List (Txid × MempoolTxInfo Tx Rate))
    (s : Selection) :
    (es.foldl (considerEntry txs minFeeRate) s).template.expectedReward = s.template.expectedReward := by
  induction es generalizing s with
  | nil => simp
  | cons e es ih =>
    rw [List.foldl_cons, ih, considerEntry]
    split_ifs
    · rfl
    · rfl
    · exact includeAncestors_reward [e.1] s

theorem generateBlockTemplate_paidFor (txs : Pool Tx Rate) (minFeeRate : Rate)
    (order : KV.VisitOrder Txid (MempoolTxInfo Tx Rate)) :
    PaidFor txs (generateBlockTemplate txs minFeeRate order) := by
  have hsound : ((sortByFeeRate (order.visit txs)).foldl (considerEntry txs minFeeRate)
      emptySelection).Sound txs := (emptySelection_sound txs).foldl _
  have hreward := foldl_reward txs minFeeRate (sortByFeeRate (order.visit txs)) emptySelection
  refine ⟨hsound.nodup,fun txid h => ((hsound.mem txid).mp h).2,?_⟩
  have hfees : ((sortByFeeRate (order.visit txs)).foldl (considerEntry txs minFeeRate)
      emptySelection).template.totalFees.toNat =
        ((generateBlockTemplate txs minFeeRate order).txids.map (feeOf txs)).sum%2^64 := hsound.fees
  have hsum : (generateBlockTemplate txs minFeeRate order).expectedReward =
      ((sortByFeeRate (order.visit txs)).foldl (considerEntry txs minFeeRate)
        emptySelection).template.expectedReward+((sortByFeeRate (order.visit txs)).foldl
          (considerEntry txs minFeeRate) emptySelection).template.totalFees := rfl
  have hstart : emptySelection.template.expectedReward.toNat = 6_25*100_000_000 := rfl
  rw [hsum, hreward, UInt64.toNat_add, hfees, hstart, Nat.add_mod_mod]

end Selected

section Kept

variable {Tx Rate : Type} {reader : TxReader Tx Rate} {txs txs' : Pool Tx Rate} {txid : Txid}

/-- Additions leave what is held. -/
theorem addTransactions_keeps (rawTransaction : Bytes → Except String Tx) {info : MempoolTxInfo Tx Rate}
    (mempoolInfo : List (Bytes × RpcInfo Rate)) (h : KV.get txs txid = some info) :
    KV.get (addTransactions rawTransaction mempoolInfo txs).1 txid = some info := by
  induction mempoolInfo generalizing txs with
  | nil => exact h
  | cons entry mempoolInfo ih =>
    rw [addTransactions]
    cases fromHex entry.1 with
    | error e => exact h
    | ok txid' =>
      dsimp only
      by_cases hheld : isHeld txs txid'
      · rw [if_pos hheld]
        exact ih h
      · rw [if_neg hheld]
        cases rawTransaction entry.1 with
        | error text => exact h
        | ok tx =>
          apply ih
          rw [KV.get_write_put, if_neg]
          · exact h
          · rintro rfl
            exact hheld (by rw [isHeld, h]; rfl)

/-- An update keeps what the answer of the node names. -/
theorem Event.next_keeps (codec : ConsensusCodec) (order : KV.VisitOrder Txid (MempoolTxInfo Tx Rate))
    (event : Event Tx Rate) {txids : List Txid} (hnames : (Task.update order event).Names reader txids)
    (htxid : txid ∈ txids) {info : MempoolTxInfo Tx Rate} (h : KV.get txs txid = some info) :
    ∃ info', KV.get (event.next codec reader order txs) txid = some info' ∧ SameEntry info info' := by
  cases event with
  | session timesOut messages => exact session_carries codec reader order timesOut messages txs txid info h
  | answer mempool rawTransaction =>
    have hknown : KV.get (txs.filter fun txid _ =>
        toDisplay txid ∈ (mempool.map (rpcEntry reader mempool)).map Prod.fst) txid = some info := by
      rw [get_known, if_pos (hnames txid htxid), h]
    have hadded := addTransactions_keeps rawTransaction
      (mempool.map (rpcEntry reader mempool)) hknown
    rw [Event.next, updateMempool]
    split
    · rename_i heq
      rw [heq] at hadded
      exact ⟨info,hadded,.refl info⟩
    · rename_i heq
      rw [heq] at hadded
      obtain ⟨info',hinfo',hmore⟩ := Carries.foldl MoreDescendants.refl MoreDescendants.trans
        linkTransaction_carries _ _ txid info hadded
      exact ⟨info',hinfo',hmore.sameEntry⟩

/-- Only the listed entries matter, and of these the transactions. -/
theorem blockTransactions_congr (coinbaseTx : UInt64 → Tx) {template : BlockTemplate}
    (h : ∀ txid ∈ template.txids, ∃ info info', KV.get txs txid = some info ∧
      KV.get txs' txid = some info' ∧ SameEntry info info') :
    blockTransactions coinbaseTx template txs = blockTransactions coinbaseTx template txs' := by
  rw [blockTransactions, blockTransactions]
  congr 1
  apply List.filterMap_congr
  intro txid htxid
  obtain ⟨info,info',hinfo,hinfo',hsame⟩ := h txid htxid
  rw [hinfo, hinfo', Option.map_some, Option.map_some, hsame.tx]

end Kept

section Runs

variable {Tx Rate : Type} [LT Rate] [DecidableLT Rate] {codec : BlockCodec Tx} {reader : TxReader Tx Rate}
  {txids : List Txid} {txid : Txid}

theorem runTasks_keeps (codec : BlockCodec Tx) (minFeeRate : Rate) (updates : List (Task Tx Rate))
    (t : MempoolTracker Tx Rate)
    (hupdates : ∀ task ∈ updates, task.IsUpdate) (hnames : ∀ task ∈ updates, task.Names reader txids)
    (htxid : txid ∈ txids) {info : MempoolTxInfo Tx Rate} (h : KV.get t.mempoolTxs txid = some info) :
    ∃ info', KV.get (runTasks codec reader minFeeRate updates t).mempoolTxs txid = some info' ∧
      SameEntry info info' := by
  induction updates generalizing t info with
  | nil => exact ⟨info,h,.refl info⟩
  | cons task updates ih =>
    cases task with
    | generate order => exact absurd (hupdates _ List.mem_cons_self) id
    | update order event =>
      obtain ⟨mid,hmid,hsame⟩ := event.next_keeps codec.toConsensusCodec order
        (hnames _ List.mem_cons_self) htxid h
      obtain ⟨info',hinfo',hsame'⟩ := ih ((Task.update order event).next codec reader minFeeRate t)
        (fun task hmem => hupdates task (List.mem_cons_of_mem _ hmem))
        (fun task hmem => hnames task (List.mem_cons_of_mem _ hmem)) hmid
      exact ⟨info',hinfo',hsame.trans _ _ _ hsame'⟩

/-- The template that is there was made from the map of its time, by the last task that is no update. -/
theorem blockTemplates_of_run (codec : BlockCodec Tx) (reader : TxReader Tx Rate) (minFeeRate : Rate)
    (tasks : List (Task Tx Rate)) (t : MempoolTracker Tx Rate) :
    ((∀ task ∈ tasks, task.IsUpdate) ∧
      (runTasks codec reader minFeeRate tasks t).blockTemplates = t.blockTemplates) ∨
    ∃ before order after, tasks = before ++ Task.generate order::after ∧
      (∀ task ∈ after, task.IsUpdate) ∧
      (runTasks codec reader minFeeRate tasks t).blockTemplates =
        [generateBlockTemplate (runTasks codec reader minFeeRate before t).mempoolTxs minFeeRate order] := by
  induction tasks generalizing t with
  | nil => exact .inl ⟨by simp,rfl⟩
  | cons task tasks ih =>
    rcases ih (task.next codec reader minFeeRate t) with ⟨hupdates,hsame⟩ | hlater
    · cases task with
      | update order event => exact .inl ⟨by simpa [Task.IsUpdate] using hupdates,hsame⟩
      | generate order => exact .inr ⟨[],order,tasks,rfl,hupdates,hsame⟩
    · obtain ⟨before,order,after,rfl,hupdates,hmade⟩ := hlater
      exact .inr ⟨task::before,order,after,rfl,hupdates,hmade⟩

end Runs

/-- In any run, a block that is handed out pays the subsidy and the fees of distinct transactions held
when its template was last made. It is read back as a block, with nothing left over, exactly when all of
them are still held, and as long as the node goes on naming them these are the same transactions. -/
theorem built_blocks_read_back {Tx Rate : Type} [LT Rate] [DecidableLT Rate] (codec : BlockCodec Tx)
    (hcodec : codec.Standard) (hend : ∀ r, codec.decodeTx [] ≠ .ok r) (reader : TxReader Tx Rate)
    (coinbaseTx : UInt64 → Tx) (minFeeRate : Rate) (tasks : List (Task Tx Rate)) (timestamp : UInt32)
    (hex : Bytes) (hhex : hex ∈ (runTasks codec reader minFeeRate tasks .new).memshrewBuild codec
      coinbaseTx timestamp) :
    ∃ before order after template, tasks = before ++ Task.generate order::after ∧
      (∀ task ∈ after, task.IsUpdate) ∧
      template = generateBlockTemplate (runTasks codec reader minFeeRate before .new).mempoolTxs
        minFeeRate order ∧
      PaidFor (runTasks codec reader minFeeRate before .new).mempoolTxs template ∧
      (txCount template < 2^64 → ∃ bs, hexDecode hex = some bs ∧
        (∀ block rest, (decodeBlock codec).run bs = .ok (block,rest) ↔
          (∀ txid ∈ template.txids,
            KV.get (runTasks codec reader minFeeRate tasks .new).mempoolTxs txid ≠ none) ∧ rest = [] ∧
          block = ⟨unminedHeader timestamp,blockTransactions coinbaseTx template
            (runTasks codec reader minFeeRate tasks .new).mempoolTxs⟩) ∧
        ((∀ task ∈ after, task.Names reader template.txids) → (decodeBlock codec).run bs =
          .ok (⟨unminedHeader timestamp,blockTransactions coinbaseTx template
            (runTasks codec reader minFeeRate before .new).mempoolTxs⟩,[]))) := by
  rcases blockTemplates_of_run codec reader minFeeRate tasks .new with ⟨_,hnone⟩ | hmade
  · rw [MempoolTracker.memshrewBuild, hnone] at hhex
    cases hhex
  · obtain ⟨before,order,after,htasks,hupdates,htemplates⟩ := hmade
    rw [MempoolTracker.memshrewBuild, htemplates, List.map_singleton, List.mem_singleton] at hhex
    have hpaid := generateBlockTemplate_paidFor
      (runTasks codec reader minFeeRate before .new).mempoolTxs minFeeRate order
    refine ⟨before,order,after,_,htasks,hupdates,rfl,hpaid,?_⟩
    intro hcount
    obtain ⟨bs,hbs,hread⟩ := encodeBlock_read coinbaseTx
      (runTasks codec reader minFeeRate tasks .new).mempoolTxs hcodec hend hcount timestamp
    refine ⟨bs,by rw [hhex, hbs],hread,?_⟩
    intro hnames
    -- what the template lists goes through the updates
    have hkept : ∀ txid ∈ (generateBlockTemplate
        (runTasks codec reader minFeeRate before .new).mempoolTxs minFeeRate order).txids, ∃ info info',
          KV.get (runTasks codec reader minFeeRate before .new).mempoolTxs txid = some info ∧
          KV.get (runTasks codec reader minFeeRate tasks .new).mempoolTxs txid = some info' ∧
          SameEntry info info' := by
      intro txid htxid
      obtain ⟨info,hinfo⟩ := Option.ne_none_iff_exists'.mp (hpaid.held txid htxid)
      obtain ⟨info',hinfo',hsame⟩ := runTasks_keeps codec minFeeRate after
        ((runTasks codec reader minFeeRate before .new).generateBlockTemplates minFeeRate order)
        hupdates hnames htxid hinfo
      refine ⟨info,info',hinfo,?_,hsame⟩
      rw [htasks, runTasks, List.foldl_append]
      exact hinfo'
    rw [hread, blockTransactions_congr coinbaseTx hkept]
    refine ⟨?_,rfl,rfl⟩
    intro txid htxid
    obtain ⟨_,info',_,hinfo',_⟩ := hkept txid htxid
    rw [hinfo']
    exact Option.some_ne_none info'

section Small

/-- Transactions of one byte, each with that byte all over its id. -/
def byteReader : TxReader UInt8 Nat where
  computeTxid tx := Vector.replicate 32 tx
  spent _ := []
  vsize _ := 100
  feeRate _ _ := 2

/-- The node has one transaction, and a template is made of it. -/
def oneTransaction : List (Task UInt8 Nat) :=
  [.update .sorted (.answer [⟨7,200,100,2⟩] fun _ => .ok 7),.generate .sorted]

/-- The block is the coinbase transaction and the one of the node. -/
theorem built_blocks_read_back_one :
    ∃ hex bs, (runTasks byteCodec byteReader 1 oneTransaction .new).memshrewBuild byteCodec (fun _ => 1) 5 =
      [hex] ∧ hexDecode hex = some bs ∧
        (decodeBlock byteCodec).run bs = .ok (⟨unminedHeader 5,[1,7]⟩,[]) := by
  have hend : ∀ r, byteCodec.decodeTx [] ≠ .ok r := by
    intro r h
    cases h
  obtain ⟨before,order,after,template,htasks,_,htemplate,_,hblock⟩ := built_blocks_read_back byteCodec
    byteCodec_standard hend byteReader (fun _ => 1) 1 oneTransaction 5 _ (List.mem_singleton_self _)
  have hbefore : before = [.update .sorted (.answer [⟨7,200,100,2⟩] fun _ => .ok 7)] ∧
      order = .sorted ∧ after = [] := by
    rcases before with _ | ⟨first,_ | ⟨second,before⟩⟩
    · cases htasks
    · cases htasks
      exact ⟨rfl,rfl,rfl⟩
    · have hlen := congrArg List.length htasks
      simp [oneTransaction] at hlen
  obtain ⟨rfl,rfl,rfl⟩ := hbefore
  obtain ⟨bs,hbs,_,hread⟩ := hblock (by rw [htemplate]; decide +kernel)
  refine ⟨_,bs,rfl,hbs,?_⟩
  rw [hread (by simp), htemplate]
  have htxs : blockTransactions (fun _ => 1) (generateBlockTemplate (runTasks byteCodec byteReader 1
      [.update .sorted (.answer [⟨7,200,100,2⟩] fun _ => .ok 7)] .new).mempoolTxs 1 .sorted)
        (runTasks byteCodec byteReader 1 [.update .sorted (.answer [⟨7,200,100,2⟩] fun _ => .ok 7)]
          .new).mempoolTxs = [1,7] := by decide +kernel
  rw [htxs]

end Small

end Metashrew.Mempool
