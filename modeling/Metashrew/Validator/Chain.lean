import Metashrew.Sync.Entry
import Metashrew.Validator.Target

namespace Metashrew.Validator

open Bytes

/-- SHA-256: 32 bytes for every input. -/
structure Sha256 where
  digest : Bytes → Bytes
  length_digest : ∀ data, (digest data).length = 32

structure Verdict where
  accepted : Bool
  reason : String

def Verdict.accept : Verdict := ⟨true,""⟩

def Verdict.reject (reason : String) : Verdict := ⟨false,reason⟩

/-- The double SHA-256 in display order. -/
def blockHash (sha : Sha256) (header : Bytes) : Bytes := (sha.digest (sha.digest header)).reverse

def bitsOf (header : Bytes) : Option UInt32 :=
  if header.length < 80 then none else (readU32le (header.drop 72)).map Nat.toUInt32

/-- The previous hash that a header names, in display order. -/
def prevHashOf (header : Bytes) : Option Bytes :=
  if header.length < 80 then none else some ((header.drop 4).take 32).reverse

def hexText (bs : Bytes) : String := String.ofList ((hexEncode bs).map fun b => Char.ofNat b.toNat)

/-- The two checks that every built-in policy makes: the hash of the header and its parent. -/
def checkContinuity (sha : Sha256) (req : ValidationRequest) : Except String Bytes :=
  if req.header.length < 80 then
    .error s!"block {req.height} header is {req.header.length} bytes, need at least 80"
  else
    let computed := blockHash sha (req.header.take 80)
    if computed ≠ req.claimedHash then
      .error s!"block {req.height} body hashes to {hexText computed} but the node called it {hexText req.claimedHash}"
    else if 0 < req.height then
      match prevHashOf req.header with
      | none => .error "short header"
      | some parent =>
        match req.prevHash with
        | some stored =>
          if parent ≠ stored then
            .error s!"block {req.height} names parent {hexText parent} but we stored {hexText stored} at height {req.height-1}"
          else .ok computed
        | none =>
          .error s!"block {req.height} cannot be linked: no stored hash for height {req.height-1}"
    else .ok computed

/-- The verdict of a policy that makes these two checks only. -/
def continuityVerdict (sha : Sha256) (req : ValidationRequest) : Verdict :=
  match checkContinuity sha req with
  | .ok _ => .accept
  | .error e => .reject e

def ContinuityValidator.validate : Sha256 → ValidationRequest → Verdict := continuityVerdict

def AuxPowValidator.validate : Sha256 → ValidationRequest → Verdict := continuityVerdict

inductive Network where
  | bitcoin
  | testnet
  | signet
  | regtest

def Network.display : Network → String
  | .bitcoin => "bitcoin"
  | .testnet => "testnet"
  | .signet => "signet"
  | .regtest => "regtest"

structure BitcoinValidator where
  network : Network
  genesis : Bytes

/-- Continuity, the genesis anchor, and the work that the header states. -/
def BitcoinValidator.validate (v : BitcoinValidator) (sha : Sha256) (req : ValidationRequest) :
    Verdict :=
  match checkContinuity sha req with
  | .error e => .reject e
  | .ok hash =>
    if req.height = 0 ∧ hash ≠ v.genesis then
      .reject s!"block 0 is {hexText hash} but {v.network.display} genesis is {hexText v.genesis} — this endpoint is not serving the chain we were configured for"
    else
      match bitsOf req.header with
      | none => .reject s!"block {req.height} header too short for bits"
      | some bits =>
        if meetsTarget hash bits then .accept
        else .reject s!"block {req.height} does not meet its own stated difficulty (hash {hexText hash}, bits 0x{hexText (u32be bits.toNat)})"

/-- The policy that the engines consult. -/
def policyOf (validate : ValidationRequest → Verdict) : ChainValidator :=
  fun req => (validate req).accepted

/-- The requests for heights 0, 1 and so on, the last one first, that the validator accepts. Each
carries the hash claimed for its predecessor. -/
inductive Validated (validator : ChainValidator) : List ValidationRequest → Prop where
  | genesis {req : ValidationRequest} :
      req.height = 0 → validator req = true → Validated validator [req]
  | extend {req parent : ValidationRequest} {chain : List ValidationRequest} :
      Validated validator (parent::chain) → req.height = parent.height+1 →
      req.prevHash = some parent.claimedHash → validator req = true →
      Validated validator (req::parent::chain)

/-- Every header hashes to its claimed hash and names the hash claimed before it. -/
structure HeaderChain (sha : Sha256) (chain : List ValidationRequest) : Prop where
  hashed : ∀ req ∈ chain, blockHash sha (req.header.take 80) = req.claimedHash
  linked : chain.IsChain fun req parent => prevHashOf req.header = some parent.claimedHash

/-- The bits of the header decode to a target, which has their value, and the hash, as a number, is at most
the target. -/
def MeetsOwnTarget (req : ValidationRequest) : Prop :=
  ∃ bits target, bitsOf req.header = some bits ∧ targetFromBits bits = some target ∧
    ofBE target = compactValue bits.toNat ∧ ofBE target < 2^256 ∧ ofBE req.claimedHash ≤ ofBE target

def genesisHash (chain : List ValidationRequest) : Option Bytes :=
  chain.getLast?.map ValidationRequest.claimedHash

section Accepted

variable {sha : Sha256} {req : ValidationRequest}

theorem length_blockHash (sha : Sha256) (header : Bytes) : (blockHash sha header).length = 32 := by
  rw [blockHash, List.length_reverse, sha.length_digest]

/-- What the two checks say about a request that passes them. -/
theorem checkContinuity_ok {hash : Bytes} (h : checkContinuity sha req = .ok hash) :
    80 ≤ req.header.length ∧ blockHash sha (req.header.take 80) = req.claimedHash ∧
      hash = req.claimedHash ∧
      (0 < req.height → ∀ stored, req.prevHash = some stored →
        prevHashOf req.header = some stored) := by
  rw [checkContinuity] at h
  dsimp only at h
  split_ifs at h with hl hc h0
  · have hlen : 80 ≤ req.header.length := by omega
    have hhash := not_not.mp hc
    cases hp : prevHashOf req.header with
    | none =>
      rw [hp] at h
      cases h
    | some parent =>
      rw [hp] at h
      cases hs : req.prevHash with
      | none =>
        rw [hs] at h
        cases h
      | some stored =>
        rw [hs] at h
        dsimp only at h
        split_ifs at h with hne
        refine ⟨hlen,hhash,(Except.ok.inj h).symm.trans hhash,?_⟩
        intro _ stored' he
        rw [← he, not_not.mp hne]
  · have hlen : 80 ≤ req.header.length := by omega
    have hhash := not_not.mp hc
    refine ⟨hlen,hhash,(Except.ok.inj h).symm.trans hhash,?_⟩
    intro hpos
    omega

theorem continuityVerdict_accepted :
    (continuityVerdict sha req).accepted = true ↔ ∃ hash, checkContinuity sha req = .ok hash := by
  rw [continuityVerdict]
  cases checkContinuity sha req with
  | ok hash => simp [Verdict.accept]
  | error e => simp [Verdict.reject]

/-- A request at height 0 passes when its header is long enough and hashes to its claimed hash. -/
theorem checkContinuity_genesis (h0 : req.height = 0) (hl : 80 ≤ req.header.length)
    (hh : blockHash sha (req.header.take 80) = req.claimedHash) :
    checkContinuity sha req = .ok req.claimedHash := by
  have hpos : ¬0 < req.height := by omega
  have hlen : ¬req.header.length < 80 := by omega
  rw [checkContinuity]
  dsimp only
  rw [if_neg hlen, hh, if_neg (not_not.mpr rfl), if_neg hpos]

/-- What the Bitcoin policy accepts is continuous, at height 0 the genesis, and mined. -/
theorem BitcoinValidator.validate_accepted {v : BitcoinValidator}
    (h : (v.validate sha req).accepted = true) :
    (∃ hash, checkContinuity sha req = .ok hash) ∧
      (req.height = 0 → req.claimedHash = v.genesis) ∧ MeetsOwnTarget req := by
  rw [BitcoinValidator.validate] at h
  cases hc : checkContinuity sha req with
  | error e =>
    rw [hc] at h
    cases h
  | ok hash =>
    rw [hc] at h
    dsimp only at h
    obtain ⟨_,hhash,rfl,_⟩ := checkContinuity_ok hc
    split_ifs at h with hg
    · cases h
    · refine ⟨⟨_,rfl⟩,?_,?_⟩
      · intro h0
        by_contra hne
        exact hg ⟨h0,hne⟩
      · cases hb : bitsOf req.header with
        | none =>
          rw [hb] at h
          cases h
        | some bits =>
          rw [hb] at h
          dsimp only at h
          split_ifs at h with hm
          · have hl : req.claimedHash.length = 32 := by rw [← hhash, length_blockHash]
            obtain ⟨t,ht,hle⟩ := (meetsTarget_iff hl bits).mp hm
            obtain ⟨hv,hlt⟩ := targetFromBits_value ht
            obtain ⟨target,htarget,rfl⟩ := Option.map_eq_some_iff.mp ht
            exact ⟨bits,target,hb,htarget,hv,hlt,hle⟩
          · cases h

/-- Validators that make the two checks accept linked chains only. -/
theorem Validated.headerChain {validator : ChainValidator}
    (hv : ∀ req, validator req = true → ∃ hash, checkContinuity sha req = .ok hash)
    {chain : List ValidationRequest} (h : Validated validator chain) : HeaderChain sha chain := by
  induction h with
  | genesis h0 hacc =>
    obtain ⟨hash,hc⟩ := hv _ hacc
    obtain ⟨_,hhash,_⟩ := checkContinuity_ok hc
    refine ⟨?_,List.isChain_singleton _⟩
    intro r hr
    rw [List.mem_singleton] at hr
    rw [hr]
    exact hhash
  | extend _ hnext hprev hacc ih =>
    obtain ⟨hash,hc⟩ := hv _ hacc
    obtain ⟨_,hhash,_,hparent⟩ := checkContinuity_ok hc
    refine ⟨?_,?_⟩
    · intro r hr
      rw [List.mem_cons] at hr
      rcases hr with rfl | hr
      · exact hhash
      · exact ih.hashed r hr
    · rw [List.isChain_cons_cons]
      exact ⟨hparent (by omega) _ hprev,ih.linked⟩

theorem Validated.accepted {validator : ChainValidator} {chain : List ValidationRequest}
    (h : Validated validator chain) : ∀ r ∈ chain, validator r = true := by
  induction h with
  | genesis _ hacc => simpa using hacc
  | extend _ _ _ hacc ih =>
    intro r hr
    rw [List.mem_cons] at hr
    rcases hr with rfl | hr
    · exact hacc
    · exact ih r hr

/-- A chain starts with a request at height 0. -/
theorem Validated.getLast {validator : ChainValidator} {chain : List ValidationRequest}
    (h : Validated validator chain) : ∃ r ∈ chain, chain.getLast? = some r ∧ r.height = 0 := by
  induction h with
  | @genesis req h0 _ => exact ⟨req,List.mem_singleton_self _,rfl,h0⟩
  | extend _ _ _ _ ih =>
    obtain ⟨r,hr,hlast,h0⟩ := ih
    refine ⟨r,List.mem_cons_of_mem _ hr,?_,h0⟩
    rw [List.getLast?_cons_cons]
    exact hlast

end Accepted

/-- The last `n` bytes of a number, the most significant byte first. -/
private def bytesOf (number : Nat) : Nat → Bytes
  | 0 => []
  | n+1 => (number/256^n%256).toUInt8 :: bytesOf number n

private def signetGenesisHeader : Bytes := bytesOf
  0x0100000000000000000000000000000000000000000000000000000000000000000000003ba3edfd7a7b12b27ac72c3e67768f617fc81bc3888a51323a9fb8aa4b1e5e4a008f4d5fae77031e8ad22203 80

private def signetBlockHeader : Bytes := bytesOf
  0x00000020f61eee3b63a380a477a063af32b2bbc97c9ff9f01f2c4225e973988108000000f575c83235984e7dc4afc1f30944c170462e84437ab6f2d52e16878a79e4678bd1914d5fae77031eccf40700 80

private def mainnetGenesisHeader : Bytes := bytesOf
  0x0100000000000000000000000000000000000000000000000000000000000000000000003ba3edfd7a7b12b27ac72c3e67768f617fc81bc3888a51323a9fb8aa4b1e5e4a29ab5f49ffff001d1dac2b7c 80

/-- The digests of the three headers; everything else gets zeros. -/
private def knownDigests : List (Bytes × Bytes) := [
  (signetGenesisHeader,
    bytesOf 0x63864a841b737767944dd851ca147e07c2b8d7bcb6490c2d33cc4e055adaaa44 32),
  (bytesOf 0x63864a841b737767944dd851ca147e07c2b8d7bcb6490c2d33cc4e055adaaa44 32,
    bytesOf 0xf61eee3b63a380a477a063af32b2bbc97c9ff9f01f2c4225e973988108000000 32),
  (signetBlockHeader,
    bytesOf 0xceb2dd61d43cff79f46649b9f389dfacdda5b55174c8a141521626199d81d20e 32),
  (bytesOf 0xceb2dd61d43cff79f46649b9f389dfacdda5b55174c8a141521626199d81d20e 32,
    bytesOf 0x533b53ded9bff4adc94101d32400a144c54edc5ed492a3b26c63b2d686000000 32),
  (mainnetGenesisHeader,
    bytesOf 0xaf42031e805ff493a07341e2f74ff58149d22ab9ba19f61343e2c86c71c5d66d 32),
  (bytesOf 0xaf42031e805ff493a07341e2f74ff58149d22ab9ba19f61343e2c86c71c5d66d 32,
    bytesOf 0x6fe28c0ab6f1b372c1a6a246ae63f74f931e8365e15a089c68d6190000000000 32)]

private def knownSha256 : Sha256 where
  digest data := (knownDigests.lookup data).getD (List.replicate 32 0)
  length_digest := by
    have hknown : ∀ entry ∈ knownDigests, entry.2.length = 32 := by decide +kernel
    intro data
    cases hl : knownDigests.lookup data with
    | none => simp
    | some digest =>
      obtain ⟨rest,rest',he⟩ := List.lookup_eq_some_iff.mp hl
      exact hknown (data,digest) (by simp [he])

private def signetGenesis : ValidationRequest where
  height := 0
  header := signetGenesisHeader
  claimedHash := bytesOf 0x00000008819873e925422c1ff0f99f7cc9bbb232af63a077a480a3633bee1ef6 32
  prevHash := none

private def signetBlock : ValidationRequest where
  height := 1
  header := signetBlockHeader
  claimedHash := bytesOf 0x00000086d6b2636cb2a392d45edc4ec544a10024d30141c9adf4bfd9de533b53 32
  prevHash := some signetGenesis.claimedHash

private def mainnetGenesis : ValidationRequest where
  height := 0
  header := mainnetGenesisHeader
  claimedHash := bytesOf 0x000000000019d6689c085ae165831e934ff763ae46a2a6c172b3f1b60a8ce26f 32
  prevHash := none

/-- What the Bitcoin policy accepts is a chain from the configured genesis whose headers are linked
and mined. -/
theorem bitcoin_chain_sound (sha : Sha256) (v : BitcoinValidator) (chain : List ValidationRequest)
    (h : Validated (policyOf (v.validate sha)) chain) :
    genesisHash chain = some v.genesis ∧ HeaderChain sha chain ∧
      ∀ req ∈ chain, MeetsOwnTarget req := by
  refine ⟨?_,?_,?_⟩
  · obtain ⟨r,hr,hlast,h0⟩ := h.getLast
    have hacc := BitcoinValidator.validate_accepted (h.accepted r hr)
    rw [genesisHash, hlast, Option.map_some, hacc.2.1 h0]
  · apply h.headerChain
    intro req hacc
    exact (BitcoinValidator.validate_accepted hacc).1
  · intro req hreq
    exact (BitcoinValidator.validate_accepted (h.accepted req hreq)).2.2

/-- The genesis of signet and its first block. -/
theorem bitcoin_chain_sound_signet :
    Validated (policyOf (BitcoinValidator.validate ⟨.signet,signetGenesis.claimedHash⟩ knownSha256))
        [signetBlock,signetGenesis] ∧
      genesisHash [signetBlock,signetGenesis] = some signetGenesis.claimedHash ∧
      HeaderChain knownSha256 [signetBlock,signetGenesis] ∧
      ∀ req ∈ [signetBlock,signetGenesis], MeetsOwnTarget req := by
  have h : Validated
      (policyOf (BitcoinValidator.validate ⟨.signet,signetGenesis.claimedHash⟩ knownSha256))
      [signetBlock,signetGenesis] :=
    .extend (.genesis rfl (by decide +kernel)) rfl rfl (by decide +kernel)
  exact ⟨h,bitcoin_chain_sound _ _ _ h⟩

/-- The requests that the validator accepts never start two chains: they agree on the genesis, and
their headers are linked. -/
def Anchored (sha : Sha256) (validator : ChainValidator) (serves : ValidationRequest → Prop) : Prop :=
  ∀ chain chain', Validated validator chain → Validated validator chain' →
    (∀ req ∈ chain, serves req) → (∀ req ∈ chain', serves req) →
    genesisHash chain = genesisHash chain' ∧ HeaderChain sha chain ∧ HeaderChain sha chain'

/-- A request for height 0 that carries a whole header under the hash of that header. -/
structure CarriesGenesis (sha : Sha256) (req : ValidationRequest) : Prop where
  height : req.height = 0
  header : 80 ≤ req.header.length
  hashed : blockHash sha (req.header.take 80) = req.claimedHash

/-- A chain that starts anywhere else is accepted as well: the merged-mining policy anchors the
requests of a node exactly when these hold no two headers for height 0. -/
theorem auxpow_anchored_iff (sha : Sha256) (serves : ValidationRequest → Prop) :
    Anchored sha (policyOf (AuxPowValidator.validate sha)) serves ↔
      ∀ req req', serves req → serves req' → CarriesGenesis sha req → CarriesGenesis sha req' →
        blockHash sha (req.header.take 80) = blockHash sha (req'.header.take 80) := by
  constructor
  · intro h req req' hs hs' hg hg'
    have hv : ∀ r, CarriesGenesis sha r → Validated (policyOf (AuxPowValidator.validate sha)) [r] := by
      intro r hr
      exact .genesis hr.height (continuityVerdict_accepted.mpr
        ⟨_,checkContinuity_genesis hr.height hr.header hr.hashed⟩)
    have ha := (h [req] [req'] (hv req hg) (hv req' hg') (by simpa using hs) (by simpa using hs')).1
    rw [hg.hashed, hg'.hashed]
    simpa [genesisHash] using ha
  · intro h chain chain' hv hv' hs hs'
    have hc : ∀ req, policyOf (AuxPowValidator.validate sha) req = true →
        ∃ hash, checkContinuity sha req = .ok hash :=
      fun _ hacc => continuityVerdict_accepted.mp hacc
    have hg : ∀ r, policyOf (AuxPowValidator.validate sha) r = true → r.height = 0 →
        CarriesGenesis sha r := by
      intro r hacc h0
      obtain ⟨_,hok⟩ := hc r hacc
      obtain ⟨hl,hhash,_⟩ := checkContinuity_ok hok
      exact ⟨h0,hl,hhash⟩
    obtain ⟨r,hr,hlast,h0⟩ := hv.getLast
    obtain ⟨r',hr',hlast',h0'⟩ := hv'.getLast
    have hcr := hg r (hv.accepted r hr) h0
    have hcr' := hg r' (hv'.accepted r' hr') h0'
    have he := h r r' (hs r hr) (hs' r' hr') hcr hcr'
    rw [hcr.hashed, hcr'.hashed] at he
    refine ⟨?_,hv.headerChain hc,hv'.headerChain hc⟩
    rw [genesisHash, genesisHash, hlast, hlast', Option.map_some, Option.map_some, he]

/-- One validator accepts the genesis of signet and the genesis of mainnet. -/
theorem auxpow_two_geneses :
    ¬Anchored knownSha256 (policyOf (AuxPowValidator.validate knownSha256)) fun _ => True := by
  intro h
  have hs : Validated (policyOf (AuxPowValidator.validate knownSha256)) [signetGenesis] :=
    .genesis rfl (by decide +kernel)
  have hm : Validated (policyOf (AuxPowValidator.validate knownSha256)) [mainnetGenesis] :=
    .genesis rfl (by decide +kernel)
  have he := (h _ _ hs hm (by simp) (by simp)).1
  revert he
  decide +kernel

/-- What is relied on of the block codec: a header is 80 bytes, with the previous hash at byte 4, and
a block starts with its header. The hash is SHA-256. -/
structure StandardCodec (sha : Sha256) (bitcoin : BitcoinCodec) : Prop where
  length_encode : ∀ header, (bitcoin.consensusEncode header).length = 80
  prevBlockhash : ∀ header,
    bitcoin.prevBlockhash header = ((bitcoin.consensusEncode header).drop 4).take 32
  deserialize : ∀ blockData header, bitcoin.deserialize blockData = .ok header →
    bitcoin.consensusEncode header <+: blockData
  sha256 : bitcoin.sha256 = sha.digest

section Continuity

variable {sha : Sha256} {bitcoin : BitcoinCodec}

/-- The continuity checks of a request that carries a whole header. -/
theorem continuityVerdict_of_header {req : ValidationRequest} (hl : req.header.length = 80) :
    (continuityVerdict sha req).accepted = true ↔ blockHash sha req.header = req.claimedHash ∧
      (0 < req.height → req.prevHash = some ((req.header.drop 4).take 32).reverse) := by
  have hlen : ¬req.header.length < 80 := by omega
  have htake : req.header.take 80 = req.header := List.take_of_length_le hl.le
  rw [continuityVerdict_accepted, checkContinuity, if_neg hlen, htake, prevHashOf, if_neg hlen]
  dsimp only
  by_cases hh : blockHash sha req.header = req.claimedHash
  · rw [if_neg (not_not.mpr hh), and_iff_right hh]
    by_cases h0 : 0 < req.height
    · rw [if_pos h0]
      cases hp : req.prevHash with
      | none => simp [h0]
      | some stored =>
        dsimp only
        by_cases he : ((req.header.drop 4).take 32).reverse = stored
        · simp [he]
        · rw [if_pos he]
          simp [h0, Ne.symm he]
    · simp [h0]
  · simp [hh]

/-- The request of a block that decodes carries the header that the built-in check encodes. -/
theorem StandardCodec.take_header (hstd : StandardCodec sha bitcoin) {blockData : Bytes}
    {header : bitcoin.Header} (h : bitcoin.deserialize blockData = .ok header) :
    blockData.take 80 = bitcoin.consensusEncode header := by
  obtain ⟨rest,rfl⟩ := hstd.deserialize blockData header h
  rw [← hstd.length_encode header, List.take_left]

end Continuity

/-- The continuity policy answers as the built-in check does. -/
theorem continuity_policy_transparent (sha : Sha256) (bitcoin : BitcoinCodec)
    (hstd : StandardCodec sha bitcoin) (height : Nat) (blockData claimedHash : Bytes) (σ : Store)
    (hdecodes : ∃ header, bitcoin.deserialize blockData = .ok header)
    (hclaimed : claimedHash.length = 32)
    (hstored : height = 0 ∨ ∃ stored, getBlockHash σ (height-1) = some stored ∧ stored.length = 32) :
    validateBlockConnects bitcoin (some (policyOf (ContinuityValidator.validate sha))) height blockData
        claimedHash σ =
      validateBlockConnects bitcoin none height blockData claimedHash σ := by
  obtain ⟨header,hd⟩ := hdecodes
  have htake := hstd.take_header hd
  have hl : (blockData.take 80).length = 80 := by rw [htake, hstd.length_encode]
  -- both checks compare these two hashes
  have hhash : (bitcoin.sha256 (bitcoin.sha256 (bitcoin.consensusEncode header))).reverse =
      blockHash sha (blockData.take 80) := by rw [hstd.sha256, htake, blockHash]
  have hprev : (bitcoin.prevBlockhash header).reverse =
      (((blockData.take 80).drop 4).take 32).reverse := by rw [htake, hstd.prevBlockhash]
  rw [validateBlockConnects, validateBlockConnects, validationRequest, if_neg (not_not.mpr hclaimed), hd]
  dsimp only
  rw [hhash, hprev]
  by_cases hc : blockHash sha (blockData.take 80) = claimedHash
  · rw [if_neg (not_not.mpr hc)]
    by_cases h0 : height = 0
    · rw [if_pos h0, if_pos h0]
      apply congrArg
      apply (continuityVerdict_of_header hl).mpr
      refine ⟨hc,fun hpos => ?_⟩
      dsimp only at hpos
      omega
    · obtain ⟨stored,hs,hs32⟩ := hstored.resolve_left h0
      rw [if_neg h0, if_neg h0, hs]
      apply congrArg
      rw [Option.filter_some, if_pos (by simpa using hs32), policyOf, Bool.eq_iff_iff, beq_iff_eq]
      apply (continuityVerdict_of_header hl).trans
      dsimp only
      rw [and_iff_right hc, Option.some_inj]
      simp [Nat.pos_of_ne_zero h0]
  · rw [if_pos hc]
    apply congrArg
    apply Bool.eq_false_of_not_eq_true
    intro hacc
    exact hc ((continuityVerdict_of_header hl).mp hacc).1

private def emptySignetBlock : Bytes := signetBlockHeader ++ [0]

/-- Decodes blocks without transactions. -/
private def emptyBlockCodec : BitcoinCodec where
  Header := { header : Bytes // header.length = 80 }
  deserialize blockData :=
    if h : blockData.length = 81 ∧ blockData.drop 80 = [0] then
      .ok ⟨blockData.take 80,by rw [List.length_take]; omega⟩
    else .error "not an empty block"
  consensusEncode := Subtype.val
  prevBlockhash header := (header.val.drop 4).take 32
  sha256 := knownSha256.digest

private theorem emptyBlockCodec_deserialize {blockData : Bytes} (hl : blockData.length = 81)
    (he : blockData.drop 80 = [0]) : ∃ header, emptyBlockCodec.deserialize blockData = .ok header := by
  simp only [emptyBlockCodec]
  rw [dif_pos ⟨hl,he⟩]
  exact ⟨_,rfl⟩

private theorem emptyBlockCodec_standard : StandardCodec knownSha256 emptyBlockCodec where
  length_encode := Subtype.property
  prevBlockhash _ := rfl
  deserialize blockData header h := by
    simp only [emptyBlockCodec] at h
    split at h
    · cases h
      exact List.take_prefix _ _
    · cases h
  sha256 := rfl

/-- The first block of signet over its genesis. -/
theorem continuity_policy_transparent_signet :
    validateBlockConnects emptyBlockCodec (some (policyOf (ContinuityValidator.validate knownSha256))) 1
        emptySignetBlock signetBlock.claimedHash
        (KV.write ∅ [.put (blockHashKey 0) signetGenesis.claimedHash]) =
      validateBlockConnects emptyBlockCodec none 1 emptySignetBlock signetBlock.claimedHash
        (KV.write ∅ [.put (blockHashKey 0) signetGenesis.claimedHash]) := by
  apply continuity_policy_transparent knownSha256 emptyBlockCodec emptyBlockCodec_standard
  · exact emptyBlockCodec_deserialize (by decide +kernel) (by decide +kernel)
  · decide +kernel
  · exact .inr ⟨signetGenesis.claimedHash,by decide +kernel,by decide +kernel⟩

end Metashrew.Validator
