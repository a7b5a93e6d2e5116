import Metashrew.Support.Consensus
import Metashrew.Tree.Nodes

namespace Metashrew

open Bytes Parser

def VERSION_AUXPOW : UInt32 := 0x100

/-- A merkle branch with its announced length. -/
structure AuxpowMerkleBranch where
  branchLength : UInt64
  branchHash : List Hash32
  branchSideMask : Int32

mutual

inductive Auxpow (Tx : Type) where
  | mk (coinbaseTxn : Tx) (blockHash : Hash32) (coinbaseBranch blockchainBranch : AuxpowMerkleBranch)
    (parentBlock : AuxpowHeader Tx)

inductive AuxpowHeader (Tx : Type) where
  | mk (version : UInt32) (prevBlockhash merkleRoot : Hash32) (time bits nonce : UInt32)
    (auxpow : Option (Auxpow Tx))

end

structure AuxpowBlock (Tx : Type) where
  header : AuxpowHeader Tx
  txdata : List Tx

/-- The header and the block of the bitcoin crate. -/
structure ConsensusHeader where
  version : Int32
  prevBlockhash : Hash32
  merkleRoot : Hash32
  time : UInt32
  bits : UInt32
  nonce : UInt32

structure ConsensusBlock (Tx : Type) where
  header : ConsensusHeader
  txdata : List Tx

/-- The codecs of the crate: decoding says how many bytes it went over. -/
structure BlockCodec (Tx : Type) extends ConsensusCodec where
  encodeTx : Tx → Bytes
  decodeTx : Bytes → Except String (Tx × Nat)
  decodeTxMerkleNode : Bytes → Except String (Hash32 × Nat)

structure BlockCodec.Standard {Tx : Type} (codec : BlockCodec Tx) : Prop extends
    codec.toConsensusCodec.Standard where
  decodeTx : ∀ tx rest,
    codec.decodeTx (codec.encodeTx tx ++ rest) = .ok (tx,(codec.encodeTx tx).length)
  decodeTxMerkleNode : ∀ bs hash n, codec.decodeTxMerkleNode bs = .ok (hash,n) ↔
    n = 32 ∧ ∃ rest, bs = hash.toList ++ rest

/-- A cursor is what is left to read. -/
abbrev Cursor := Parser UInt8 Fault

def consumeExact (n : Nat) : Cursor Bytes := takeN (.message "failed to fill whole buffer") n

def consumeSizedInt (size : Nat) : Cursor Nat := do
  let buffer ← consumeExact size
  return ofLE buffer

def consumeVarint : Cursor Nat := do
  let first ← consumeSizedInt 1
  if first = 0xFF then consumeSizedInt 8
  else if first = 0xFE then consumeSizedInt 4
  else if first = 0xFD then consumeSizedInt 2
  else return first

def consensusDecode {α : Type} (decode : Bytes → Except String (α × Nat)) : Cursor α := fun slice =>
  match decode slice with
  | .ok (deserialized,consumed) => .ok (deserialized,slice.drop consumed)
  | .error text => .error (.message text)

def consumeU32 : Cursor UInt32 := do
  let value ← consumeSizedInt 4
  return UInt32.ofNat value

def consumeBlockHash : Cursor Hash32 := do
  let buffer ← consumeExact 0x20
  copyFromSlice buffer

section Parse

variable {Tx : Type} (codec : BlockCodec Tx)

def AuxpowMerkleBranch.parse : Cursor AuxpowMerkleBranch := do
  let branchLength ← consumeVarint
  let branchHash ← consumeBlockHash.repeatN branchLength
  let branchSideMask ← consumeU32
  return ⟨UInt64.ofNat branchLength,branchHash,branchSideMask.toInt32⟩

def AuxpowHeader.parseWithoutAuxpow : Cursor (AuxpowHeader Tx) := do
  let version ← consumeU32
  let prevBlockhash ← consumeBlockHash
  let merkleRoot ← consensusDecode codec.decodeTxMerkleNode
  let time ← consumeU32
  let bits ← consumeU32
  let nonce ← consumeU32
  return .mk version prevBlockhash merkleRoot time bits nonce none

def Auxpow.parse : Cursor (Auxpow Tx) := do
  let coinbaseTxn ← consensusDecode codec.decodeTx
  let blockHash ← consumeBlockHash
  let coinbaseBranch ← AuxpowMerkleBranch.parse
  let blockchainBranch ← AuxpowMerkleBranch.parse
  let parentBlock ← AuxpowHeader.parseWithoutAuxpow codec
  return .mk coinbaseTxn blockHash coinbaseBranch blockchainBranch parentBlock

def isAuxpow (version : UInt32) : Bool := version &&& VERSION_AUXPOW ≠ 0

def AuxpowHeader.version : AuxpowHeader Tx → UInt32
  | .mk version _ _ _ _ _ _ => version

def AuxpowHeader.auxpow : AuxpowHeader Tx → Option (Auxpow Tx)
  | .mk _ _ _ _ _ _ auxpow => auxpow

def AuxpowHeader.withAuxpow : AuxpowHeader Tx → Option (Auxpow Tx) → AuxpowHeader Tx
  | .mk version prevBlockhash merkleRoot time bits nonce _, auxpow =>
    .mk version prevBlockhash merkleRoot time bits nonce auxpow

def AuxpowHeader.parse : Cursor (AuxpowHeader Tx) := do
  let result ← AuxpowHeader.parseWithoutAuxpow codec
  if isAuxpow result.version then
    let auxpow ← Auxpow.parse codec
    return result.withAuxpow (some auxpow)
  else return result.withAuxpow none

def AuxpowBlock.parse : Cursor (AuxpowBlock Tx) := do
  let header ← AuxpowHeader.parse codec
  let len ← consumeVarint
  let txdata ← (consensusDecode codec.decodeTx).repeatN len
  return ⟨header,txdata⟩

def AuxpowHeader.toHeader : AuxpowHeader Tx → ConsensusHeader
  | .mk version prevBlockhash merkleRoot time bits nonce _ =>
    ⟨version.toInt32,prevBlockhash,merkleRoot,time,bits,nonce⟩

def AuxpowBlock.toConsensus (block : AuxpowBlock Tx) : ConsensusBlock Tx := ⟨block.header.toHeader,block.txdata⟩

end Parse

section Formats

variable {Tx : Type} (codec : BlockCodec Tx)

/-- The 80 bytes of a header. -/
def ConsensusHeader.bytes (header : ConsensusHeader) : Bytes :=
  u32le header.version.toUInt32.toNat ++ (header.prevBlockhash.toList ++ (header.merkleRoot.toList ++
    (u32le header.time.toNat ++ (u32le header.bits.toNat ++ u32le header.nonce.toNat))))

def decodeVarInt : Cursor Nat := fun bs => consensusError (codec.decodeVarInt bs)

/-- A block of the bitcoin crate: the header, a variable-length count and that many transactions. -/
def decodeBlock : Cursor (ConsensusBlock Tx) := do
  let version ← consumeU32
  let prevBlockhash ← consensusDecode codec.decodeTxMerkleNode
  let merkleRoot ← consensusDecode codec.decodeTxMerkleNode
  let time ← consumeU32
  let bits ← consumeU32
  let nonce ← consumeU32
  let count ← decodeVarInt codec
  let txdata ← (consensusDecode codec.decodeTx).repeatN count
  return ⟨⟨version.toInt32,prevBlockhash,merkleRoot,time,bits,nonce⟩,txdata⟩

/-- The fields of a header without what may follow them. -/
def AuxpowHeader.bytes (header : AuxpowHeader Tx) : Bytes := header.toHeader.bytes

def AuxpowMerkleBranch.bytes (branch : AuxpowMerkleBranch) : Bytes :=
  CompactSize.encode branch.branchLength.toNat ++ (branch.branchHash.flatMap Vector.toList ++
    u32le branch.branchSideMask.toUInt32.toNat)

def Auxpow.bytes : Auxpow Tx → Bytes
  | .mk coinbaseTxn blockHash coinbaseBranch blockchainBranch parentBlock =>
    codec.encodeTx coinbaseTxn ++ (blockHash.toList ++ (coinbaseBranch.bytes ++
      (blockchainBranch.bytes ++ parentBlock.bytes)))

def AuxpowMerkleBranch.Proper (branch : AuxpowMerkleBranch) : Prop :=
  branch.branchHash.length = branch.branchLength.toNat

/-- The branches have the lengths they announce, and the parent is a bare header. -/
def Auxpow.Proper : Auxpow Tx → Prop
  | .mk _ _ coinbaseBranch blockchainBranch parentBlock =>
    coinbaseBranch.Proper ∧ blockchainBranch.Proper ∧ parentBlock.auxpow = none

/-- A block of a merged-mining chain. -/
structure MergedMined (block : AuxpowBlock Tx) (auxpow : Auxpow Tx) : Prop where
  flag : isAuxpow block.header.version
  carried : block.header.auxpow = some auxpow
  proper : auxpow.Proper
  count : block.txdata.length < 2^64

def mergedMinedBytes (block : AuxpowBlock Tx) (auxpow : Auxpow Tx) : Bytes :=
  block.header.bytes ++ (auxpow.bytes codec ++ (CompactSize.encode block.txdata.length ++
    block.txdata.flatMap codec.encodeTx))

/-- The version word has the merged-mining bit clear. -/
def VersionClear (bs : Bytes) : Prop :=
  ∀ (version : UInt32) (rest : Bytes), bs = u32le version.toNat ++ rest → ¬isAuxpow version

/-- Parsing succeeds as consensus decoding does, over the same bytes and with the same block. -/
def ParsesAsConsensus (bs : Bytes) : Prop := ∀ block rest,
  (∃ auxpowBlock, (AuxpowBlock.parse codec).run bs = .ok (auxpowBlock,rest) ∧
    auxpowBlock.toConsensus = block) ↔ (decodeBlock codec).run bs = .ok (block,rest)

/-- After the header stands a count in a longer form than it needs, and then that many
transactions. -/
def OverlongCount (bs : Bytes) : Prop := ∃ (header : ConsensusHeader) (count : Nat) (s rest : Bytes),
  bs = header.bytes ++ (s ++ rest) ∧ CompactSize.Overlong s count ∧
    ∃ txdata after, ((consensusDecode codec.decodeTx).repeatN count).run rest = .ok (txdata,after)

end Formats

section Stages

variable {Tx : Type} {codec : BlockCodec Tx} {bs rest : Bytes}

theorem run_consumeU32_iff {value : UInt32} :
    consumeU32.run bs = .ok (value,rest) ↔ bs = u32le value.toNat ++ rest := by
  have hint : ∀ n mid, (consumeSizedInt 4).run bs = .ok (n,mid) ↔ n < 256^4 ∧ bs = toLE 4 n ++ mid :=
    fun n mid => run_number_iff
  rw [consumeU32, run_bind_iff]
  simp only [hint, run_pure_iff]
  constructor
  · intro h
    obtain ⟨n,mid,⟨hlt,hbs⟩,hn,rfl⟩ := h
    have hvalue : value.toNat = n := by
      rw [← hn]
      exact UInt32.toNat_ofNat_of_lt' hlt
    rw [hvalue, u32le_eq_toLE]
    exact hbs
  · intro h
    refine ⟨value.toNat,rest,⟨value.toNat_lt,?_⟩,UInt32.ofNat_toNat,rfl⟩
    rw [← u32le_eq_toLE]
    exact h

theorem run_consumeBlockHash_iff {hash : Hash32} :
    consumeBlockHash.run bs = .ok (hash,rest) ↔ bs = hash.toList ++ rest := by
  rw [consumeBlockHash, run_bind_iff]
  constructor
  · intro h
    obtain ⟨buffer,mid,hread,hcopy⟩ := h
    obtain ⟨hlen,hbs⟩ := run_takeN_iff.mp hread
    obtain ⟨hash',rfl⟩ := exists_hash hlen
    have hlift : (do copyFromSlice hash'.toList : Cursor Hash32).run mid = .ok (hash',mid) := by
      rw [copyFromSlice_toList]
      rfl
    rw [hlift] at hcopy
    cases hcopy
    exact hbs
  · intro h
    refine ⟨hash.toList,rest,run_takeN_iff.mpr ⟨by simp,h⟩,?_⟩
    rw [copyFromSlice_toList]
    rfl

theorem run_consensusDecode_iff {α : Type} {decode : Bytes → Except String (α × Nat)} {x : α} :
    (consensusDecode decode).run bs = .ok (x,rest) ↔
      ∃ consumed, decode bs = .ok (x,consumed) ∧ bs.drop consumed = rest := by
  show consensusDecode decode bs = _ ↔ _
  rw [consensusDecode]
  cases decode bs with
  | error text => simp
  | ok r =>
    obtain ⟨y,consumed⟩ := r
    simp only [Except.ok.injEq, Prod.mk.injEq]
    constructor
    · intro h
      exact ⟨consumed,⟨h.1,rfl⟩,h.2⟩
    · intro h
      obtain ⟨consumed',⟨h1,h2⟩,h3⟩ := h
      exact ⟨h1,h2 ▸ h3⟩

theorem run_merkleNode_iff (hcodec : codec.Standard) {hash : Hash32} :
    (consensusDecode codec.decodeTxMerkleNode).run bs = .ok (hash,rest) ↔
      bs = hash.toList ++ rest := by
  rw [run_consensusDecode_iff]
  simp only [hcodec.decodeTxMerkleNode]
  constructor
  · intro h
    obtain ⟨_,⟨rfl,tail,rfl⟩,hrest⟩ := h
    rw [List.drop_left' (by simp)] at hrest
    rw [hrest]
  · intro h
    refine ⟨32,⟨rfl,rest,h⟩,?_⟩
    rw [h, List.drop_left' (by simp)]

theorem run_decodeVarInt_iff (hcodec : codec.Standard) {n : Nat} :
    (decodeVarInt codec).run bs = .ok (n,rest) ↔ n < 2^64 ∧ bs = CompactSize.encode n ++ rest := by
  rw [← hcodec.decodeVarInt]
  show consensusError (codec.decodeVarInt bs) = _ ↔ _
  cases codec.decodeVarInt bs <;> simp [consensusError]

/-- The bare header is read off its 80 bytes. -/
theorem run_parseWithoutAuxpow_iff (hcodec : codec.Standard) {header : AuxpowHeader Tx} :
    (AuxpowHeader.parseWithoutAuxpow codec).run bs = .ok (header,rest) ↔
      header.auxpow = none ∧ bs = header.bytes ++ rest := by
  rw [AuxpowHeader.parseWithoutAuxpow]
  simp only [run_bind_iff, run_consumeU32_iff, run_consumeBlockHash_iff, run_merkleNode_iff hcodec,
    run_pure_iff]
  constructor
  · intro h
    obtain ⟨version,_,rfl,prevBlockhash,_,rfl,merkleRoot,_,rfl,time,_,rfl,bits,_,rfl,nonce,_,rfl,rfl,
      rfl⟩ := h
    refine ⟨rfl,?_⟩
    simp [AuxpowHeader.bytes, AuxpowHeader.toHeader, ConsensusHeader.bytes]
  · intro h
    obtain ⟨hnone,rfl⟩ := h
    cases header with
    | mk version prevBlockhash merkleRoot time bits nonce auxpow =>
      obtain rfl : auxpow = none := hnone
      refine ⟨version,_,?_,prevBlockhash,_,rfl,merkleRoot,_,rfl,time,_,rfl,bits,_,rfl,nonce,_,rfl,rfl,rfl⟩
      simp [AuxpowHeader.bytes, AuxpowHeader.toHeader, ConsensusHeader.bytes]

/-- Consensus decoding takes a header, a count in its shortest form and that many transactions. -/
theorem run_decodeBlock_iff (hcodec : codec.Standard) {block : ConsensusBlock Tx} :
    (decodeBlock codec).run bs = .ok (block,rest) ↔ ∃ count mid,
      bs = block.header.bytes ++ (CompactSize.encode count ++ mid) ∧ count < 2^64 ∧
        ((consensusDecode codec.decodeTx).repeatN count).run mid = .ok (block.txdata,rest) := by
  rw [decodeBlock]
  simp only [run_bind_iff, run_consumeU32_iff, run_merkleNode_iff hcodec, run_decodeVarInt_iff hcodec,
    run_pure_iff]
  constructor
  · intro h
    obtain ⟨version,_,rfl,prevBlockhash,_,rfl,merkleRoot,_,rfl,time,_,rfl,bits,_,rfl,nonce,_,rfl,count,
      mid,⟨hlt,rfl⟩,txdata,_,htxs,rfl,rfl⟩ := h
    refine ⟨count,mid,?_,hlt,htxs⟩
    simp [ConsensusHeader.bytes]
  · intro h
    obtain ⟨count,mid,rfl,hlt,htxs⟩ := h
    refine ⟨block.header.version.toUInt32,_,?_,block.header.prevBlockhash,_,rfl,block.header.merkleRoot,_,
      rfl,block.header.time,_,rfl,block.header.bits,_,rfl,block.header.nonce,_,rfl,count,mid,⟨hlt,rfl⟩,
      block.txdata,rest,htxs,?_,rfl⟩
    · simp [ConsensusHeader.bytes]
    · simp

theorem toHeader_bytes (header : AuxpowHeader Tx) : ∃ tail,
    header.bytes = u32le header.version.toNat ++ tail := by
  cases header with
  | mk version prevBlockhash merkleRoot time bits nonce auxpow =>
    refine ⟨prevBlockhash.toList ++ (merkleRoot.toList ++ (u32le time.toNat ++ (u32le bits.toNat ++
      u32le nonce.toNat))),?_⟩
    simp [AuxpowHeader.bytes, AuxpowHeader.toHeader, ConsensusHeader.bytes, AuxpowHeader.version]

/-- With the bit clear the header is a bare one. -/
theorem run_header_clear_iff (hcodec : codec.Standard) (hclear : VersionClear bs)
    {header : AuxpowHeader Tx} : (AuxpowHeader.parse codec).run bs = .ok (header,rest) ↔
      header.auxpow = none ∧ bs = header.bytes ++ rest := by
  have hbit : ∀ (header : AuxpowHeader Tx) rest, bs = header.bytes ++ rest →
      isAuxpow header.version = false := by
    intro header rest hbs
    obtain ⟨tail,htail⟩ := toHeader_bytes header
    rw [htail, List.append_assoc] at hbs
    exact Bool.eq_false_of_not_eq_true (hclear header.version (tail ++ rest) hbs)
  rw [AuxpowHeader.parse]
  simp only [run_bind_iff, run_parseWithoutAuxpow_iff hcodec]
  constructor
  · intro h
    obtain ⟨result,mid,⟨hnone,hbs⟩,hrest⟩ := h
    rw [hbit result mid hbs, if_neg Bool.false_ne_true, run_pure_iff] at hrest
    obtain ⟨rfl,rfl⟩ := hrest
    cases result with
    | mk version prevBlockhash merkleRoot time bits nonce auxpow => exact ⟨rfl,hbs⟩
  · intro h
    obtain ⟨hnone,hbs⟩ := h
    refine ⟨header,rest,⟨hnone,hbs⟩,?_⟩
    rw [hbit header rest hbs, if_neg Bool.false_ne_true, run_pure_iff]
    cases header with
    | mk version prevBlockhash merkleRoot time bits nonce auxpow =>
      obtain rfl : auxpow = none := hnone
      exact ⟨rfl,rfl⟩

theorem run_block_clear_iff (hcodec : codec.Standard) (hclear : VersionClear bs)
    {block : AuxpowBlock Tx} : (AuxpowBlock.parse codec).run bs = .ok (block,rest) ↔
      block.header.auxpow = none ∧ ∃ count mid tail, bs = block.header.bytes ++ mid ∧
        consumeVarint.run mid = .ok (count,tail) ∧
          ((consensusDecode codec.decodeTx).repeatN count).run tail = .ok (block.txdata,rest) := by
  rw [AuxpowBlock.parse]
  simp only [run_bind_iff, run_header_clear_iff hcodec hclear, run_pure_iff]
  constructor
  · intro h
    obtain ⟨header,mid,⟨hnone,hbs⟩,count,tail,hcount,txdata,_,htxs,rfl,rfl⟩ := h
    exact ⟨hnone,count,mid,tail,hbs,hcount,htxs⟩
  · intro h
    obtain ⟨hnone,count,mid,tail,hbs,hcount,htxs⟩ := h
    exact ⟨block.header,mid,⟨hnone,hbs⟩,count,tail,hcount,block.txdata,rest,htxs,rfl,rfl⟩

/-- The bare header that consensus decoding sees. -/
def ConsensusHeader.toAuxpowHeader (header : ConsensusHeader) : AuxpowHeader Tx :=
  .mk header.version.toUInt32 header.prevBlockhash header.merkleRoot header.time header.bits
    header.nonce none

theorem toHeader_toAuxpowHeader (header : ConsensusHeader) :
    (header.toAuxpowHeader : AuxpowHeader Tx).toHeader = header := by
  simp [ConsensusHeader.toAuxpowHeader, AuxpowHeader.toHeader]

theorem header_bytes_length (header : ConsensusHeader) : header.bytes.length = 80 := by
  simp [ConsensusHeader.bytes]

/-- With the bit clear, parsing differs from consensus decoding in overlong counts alone. -/
theorem parsesAsConsensus_iff (hcodec : codec.Standard) (hclear : VersionClear bs) :
    ParsesAsConsensus codec bs ↔ ¬OverlongCount codec bs := by
  constructor
  · intro h hlong
    obtain ⟨header,count,s,mid,hbs,hover,txdata,after,htxs⟩ := hlong
    have hparse : (AuxpowBlock.parse codec).run bs =
        .ok (⟨header.toAuxpowHeader,txdata⟩,after) := by
      rw [run_block_clear_iff hcodec hclear]
      refine ⟨rfl,count,s ++ mid,mid,?_,?_,htxs⟩
      · rw [AuxpowHeader.bytes, toHeader_toAuxpowHeader]
        exact hbs
      · exact CompactSize.run_anyForm_iff.mpr (.inr ⟨s,hover,rfl⟩)
    have hdecode := (h ⟨header,txdata⟩ after).mp
      ⟨_,hparse,by rw [AuxpowBlock.toConsensus, toHeader_toAuxpowHeader]⟩
    obtain ⟨count',mid',hbs',hlt,_⟩ := (run_decodeBlock_iff hcodec).mp hdecode
    rw [hbs] at hbs'
    have hsplit := List.append_cancel_left hbs'
    -- both forms are read as the same number
    have hlong := CompactSize.run_anyForm_iff (e := ()) |>.mpr (.inr ⟨s,hover,rfl⟩ :
      _ ∨ ∃ s', CompactSize.Overlong s' count ∧ s ++ mid = s' ++ mid)
    rw [hsplit, CompactSize.Reads.anyForm hlt] at hlong
    obtain ⟨rfl,rfl⟩ := Prod.mk.inj (Except.ok.inj hlong)
    have hlen := hover.length_lt
    rw [List.append_cancel_right hsplit] at hlen
    omega
  · intro h block rest
    rw [run_decodeBlock_iff hcodec]
    constructor
    · intro hparse
      obtain ⟨auxpowBlock,hrun,rfl⟩ := hparse
      obtain ⟨_,count,mid,tail,hbs,hcount,htxs⟩ := (run_block_clear_iff hcodec hclear).mp hrun
      rcases CompactSize.run_anyForm_iff.mp hcount with ⟨hlt,rfl⟩ | ⟨s,hover,rfl⟩
      · exact ⟨count,tail,hbs,hlt,htxs⟩
      · exact absurd ⟨_,count,s,tail,hbs,hover,_,_,htxs⟩ h
    · intro hdecode
      obtain ⟨count,mid,hbs,hlt,htxs⟩ := hdecode
      refine ⟨⟨block.header.toAuxpowHeader,block.txdata⟩,?_,?_⟩
      · rw [run_block_clear_iff hcodec hclear]
        refine ⟨rfl,count,_,mid,?_,CompactSize.run_anyForm_iff.mpr (.inl ⟨hlt,rfl⟩),htxs⟩
        rw [AuxpowHeader.bytes, toHeader_toAuxpowHeader]
        exact hbs
      · rw [AuxpowBlock.toConsensus, toHeader_toAuxpowHeader]

/-! The merged-mining format, stage by stage. -/

theorem Reads.transaction (hcodec : codec.Standard) (tx : Tx) :
    (consensusDecode codec.decodeTx).Reads (codec.encodeTx tx) tx := by
  intro rest
  rw [run_consensusDecode_iff]
  exact ⟨_,hcodec.decodeTx tx rest,List.drop_left⟩

theorem Reads.varint {n : Nat} (h : n < 2^64) : consumeVarint.Reads (CompactSize.encode n) n :=
  CompactSize.Reads.anyForm h

theorem Reads.u32 (value : UInt32) : consumeU32.Reads (u32le value.toNat) value :=
  fun _ => run_consumeU32_iff.mpr rfl

theorem Reads.blockHash (hash : Hash32) : consumeBlockHash.Reads hash.toList hash :=
  fun _ => run_consumeBlockHash_iff.mpr rfl

theorem Reads.branch (branch : AuxpowMerkleBranch) (h : branch.Proper) :
    AuxpowMerkleBranch.parse.Reads branch.bytes branch := by
  have hhashes : (consumeBlockHash.repeatN branch.branchHash.length).Reads
      (branch.branchHash.flatMap Vector.toList) branch.branchHash :=
    Reads.repeatN fun hash _ => Reads.blockHash hash
  rw [show branch.branchHash.length = _ from h] at hhashes
  rw [AuxpowMerkleBranch.parse, AuxpowMerkleBranch.bytes]
  apply (Reads.varint branch.branchLength.toNat_lt).bind
  apply hhashes.bind
  have hmask := (Reads.u32 branch.branchSideMask.toUInt32).bind_pure (g := fun mask : UInt32 =>
    (⟨branch.branchLength,branch.branchHash,mask.toInt32⟩ : AuxpowMerkleBranch))
  rw [Int32.toInt32_toUInt32] at hmask
  simp only [UInt64.ofNat_toNat]
  exact hmask

theorem Reads.bareHeader (hcodec : codec.Standard) (header : AuxpowHeader Tx)
    (h : header.auxpow = none) : (AuxpowHeader.parseWithoutAuxpow codec).Reads header.bytes header :=
  fun _ => (run_parseWithoutAuxpow_iff hcodec).mpr ⟨h,rfl⟩

theorem Reads.auxpow (hcodec : codec.Standard) (auxpow : Auxpow Tx) (h : auxpow.Proper) :
    (Auxpow.parse codec).Reads (auxpow.bytes codec) auxpow := by
  cases auxpow with
  | mk coinbaseTxn blockHash coinbaseBranch blockchainBranch parentBlock =>
    obtain ⟨hcoinbase,hblockchain,hparent⟩ := h
    rw [Auxpow.parse, Auxpow.bytes]
    apply (Reads.transaction hcodec coinbaseTxn).bind
    apply (Reads.blockHash blockHash).bind
    apply (Reads.branch coinbaseBranch hcoinbase).bind
    apply (Reads.branch blockchainBranch hblockchain).bind
    exact (Reads.bareHeader hcodec parentBlock hparent).bind_pure

theorem Reads.mergedMined (hcodec : codec.Standard) {block : AuxpowBlock Tx} {auxpow : Auxpow Tx}
    (h : MergedMined block auxpow) :
    (AuxpowBlock.parse codec).Reads (mergedMinedBytes codec block auxpow) block := by
  obtain ⟨header,txdata⟩ := block
  cases header with
  | mk version prevBlockhash merkleRoot time bits nonce carried =>
    obtain rfl : carried = some auxpow := h.carried
    have hbare := Reads.bareHeader hcodec
      (.mk version prevBlockhash merkleRoot time bits nonce none) rfl
    have hheader : (AuxpowHeader.parse codec).Reads
        ((AuxpowHeader.mk version prevBlockhash merkleRoot time bits nonce (some auxpow)).bytes ++
          auxpow.bytes codec)
        (.mk version prevBlockhash merkleRoot time bits nonce (some auxpow)) := by
      have hflag : isAuxpow (AuxpowHeader.mk version prevBlockhash merkleRoot time bits nonce none :
        AuxpowHeader Tx).version = true := h.flag
      rw [AuxpowHeader.parse]
      apply hbare.bind
      rw [if_pos hflag]
      exact (Reads.auxpow hcodec auxpow h.proper).bind_pure
    have htxs : ((consensusDecode codec.decodeTx).repeatN txdata.length).Reads
        (txdata.flatMap codec.encodeTx) txdata :=
      Reads.repeatN fun tx _ => Reads.transaction hcodec tx
    rw [AuxpowBlock.parse, mergedMinedBytes, ← List.append_assoc]
    apply hheader.bind
    apply (Reads.varint h.count).bind
    exact htxs.bind_pure

end Stages

/-- A byte string with the merged-mining bit clear parses as consensus decoding has it, and a
merged-mined block followed by anything parses to itself, exactly when the transaction count of the
byte string is not overlong. -/
theorem auxpow_block_parse_iff {Tx : Type} (codec : BlockCodec Tx) (hcodec : codec.Standard)
    (bs : Bytes) (block : AuxpowBlock Tx) (auxpow : Auxpow Tx) (rest : Bytes) :
    ((VersionClear bs → ParsesAsConsensus codec bs) ∧
      (MergedMined block auxpow → (AuxpowBlock.parse codec).run
        (mergedMinedBytes codec block auxpow ++ rest) = .ok (block,rest))) ↔
      (VersionClear bs → ¬OverlongCount codec bs) := by
  constructor
  · intro h hclear
    exact (parsesAsConsensus_iff hcodec hclear).mp (h.1 hclear)
  · intro h
    refine ⟨?_,?_⟩
    · intro hclear
      exact (parsesAsConsensus_iff hcodec hclear).mpr (h hclear)
    · intro hmined
      exact Reads.mergedMined hcodec hmined rest

section Small

/-- Transactions of one byte. -/
def byteCodec : BlockCodec UInt8 where
  toConsensusCodec := shortestFormCodec
  encodeTx tx := [tx]
  decodeTx bs :=
    match bs with
    | [] => .error "unexpected end of file"
    | tx::_ => .ok (tx,1)
  decodeTxMerkleNode bs :=
    if h : (bs.take 32).length = 32 then .ok (⟨(bs.take 32).toArray,h⟩,32)
    else .error "unexpected end of file"

theorem byteCodec_standard : byteCodec.Standard where
  toStandard := shortestFormCodec_standard
  decodeTx _ _ := rfl
  decodeTxMerkleNode bs hash n := by
    show (if h : (bs.take 32).length = 32 then _ else _) = _ ↔ _
    constructor
    · intro h
      by_cases hlen : (bs.take 32).length = 32
      · rw [dif_pos hlen] at h
        cases h
        exact ⟨rfl,bs.drop 32,(List.take_append_drop 32 bs).symm⟩
      · rw [dif_neg hlen] at h
        cases h
    · intro h
      obtain ⟨rfl,rest,rfl⟩ := h
      have htake : (hash.toList ++ rest).take 32 = hash.toList := List.take_left' (by simp)
      have hlen : ((hash.toList ++ rest).take 32).length = 32 := by
        rw [htake]
        simp
      rw [dif_pos hlen]
      simp only [htake, Except.ok.injEq, Prod.mk.injEq, and_true]
      apply Vector.toList_inj.mp
      simp

theorem versionClear_of_read {bs : Bytes} (h : readU32le bs = some 0) : VersionClear bs := by
  intro version rest hbs
  rw [hbs, readU32le_append version.toNat_lt] at h
  obtain rfl : version = 0 := UInt32.toNat_inj.mp (Option.some.inj h)
  decide

/-- The proof of work of a merged-mined block: one hash in the coinbase branch, and a bare parent. -/
private def smallAuxpow : Auxpow UInt8 :=
  .mk 5 (Vector.replicate 32 1) ⟨1,[Vector.replicate 32 2],3⟩ ⟨0,[],0⟩
    (.mk 2 (Vector.replicate 32 4) (Vector.replicate 32 5) 6 7 8 none)

/-- A merged-mined block with three transactions. -/
private def smallMined : AuxpowBlock UInt8 :=
  ⟨.mk VERSION_AUXPOW (Vector.replicate 32 7) (Vector.replicate 32 8) 9 10 11 (some smallAuxpow),
    [1,2,3]⟩

/-- A block with two transactions parses as consensus decoding has it, and the merged-mined one
behind it parses to itself. -/
theorem auxpow_block_parse_one :
    ParsesAsConsensus byteCodec (List.replicate 80 0 ++ [2,7,8]) ∧
      (AuxpowBlock.parse byteCodec).run (mergedMinedBytes byteCodec smallMined smallAuxpow ++ [9]) =
        .ok (smallMined,[9]) := by
  have hclear : VersionClear (List.replicate 80 0 ++ [2,7,8]) := versionClear_of_read rfl
  have hmined : MergedMined smallMined smallAuxpow := ⟨by decide,rfl,⟨rfl,rfl,rfl⟩,by decide⟩
  have hshort : ¬OverlongCount byteCodec (List.replicate 80 0 ++ [2,7,8]) := by
    intro hlong
    obtain ⟨header,count,s,rest,hbs,hover,_⟩ := hlong
    have hlen : (List.replicate 80 (0 : UInt8)).length = header.bytes.length := by
      rw [header_bytes_length, List.length_replicate]
    have htail := (List.append_inj hbs hlen).2
    cases hover <;> cases htail
  obtain ⟨hparses,hparse⟩ := (auxpow_block_parse_iff byteCodec byteCodec_standard
    (List.replicate 80 0 ++ [2,7,8]) smallMined smallAuxpow [9]).mpr fun _ => hshort
  exact ⟨hparses hclear,hparse hmined⟩

/-- The count zero in three bytes is accepted. -/
theorem auxpow_block_overlong_count : ¬∀ {Tx : Type} (codec : BlockCodec Tx), codec.Standard →
    (∀ bs, VersionClear bs → ParsesAsConsensus codec bs) ∧
      ∀ block auxpow rest, MergedMined block auxpow → (AuxpowBlock.parse codec).run
        (mergedMinedBytes codec block auxpow ++ rest) = .ok (block,rest) := by
  intro h
  have hclear : VersionClear (List.replicate 80 0 ++ [0xFD,0,0]) := versionClear_of_read rfl
  have hparses := (h byteCodec byteCodec_standard).1 _ hclear
  rw [parsesAsConsensus_iff byteCodec_standard hclear] at hparses
  refine hparses ⟨⟨0,Vector.replicate 32 0,Vector.replicate 32 0,0,0,0⟩,0,[0xFD,0,0],[],?_,
    CompactSize.Overlong.two (n := 0) (by decide),[],[],rfl⟩
  decide

end Small

end Metashrew
