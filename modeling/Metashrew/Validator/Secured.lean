import Metashrew.Sync.Cuts
import Metashrew.Sync.Linkage
import Metashrew.Validator.Chain

namespace Metashrew.Validator

open Bytes Durable

/-- The requests for the blocks stored from height `h` down to 0. `blocks` holds the block last
committed at each height. -/
structure StoredChain (σ : Store) (blocks : Nat → Option Bytes) (h : Nat)
    (chain : List ValidationRequest) : Prop where
  heights : chain.map ValidationRequest.height = (List.range (h+1)).reverse
  stored : ∀ req ∈ chain, getBlockHash σ req.height = some req.claimedHash
  header : ∀ req ∈ chain, ∃ blockData, blocks req.height = some blockData ∧
    req.header = blockData.take 80

/-- The policy makes the two checks of the built-in policies. -/
def Continuous (sha : Sha256) (validator : ChainValidator) : Prop :=
  ∀ req, validator req = true → ∃ hash, checkContinuity sha req = .ok hash

/-- Below every hash stored up to the tip there is a chain that the validator has accepted. -/
structure Secured (validator : ChainValidator) (σ : Store) (blocks : Nat → Option Bytes) : Prop where
  bare : Bare Reserved σ
  rooted : ∀ h, (getBlockHash σ h).isSome → (getBlockHash σ 0).isSome
  chain : ∀ h ≤ getIndexedHeight σ, (getBlockHash σ h).isSome →
    ∃ chain, StoredChain σ blocks h chain ∧ Validated validator chain

section Secured

variable {validator : ChainValidator} {σ σ' : Store} {blocks : Nat → Option Bytes} {h height : Nat}
  {blockData blockHash stateRoot : Bytes} {ops : List Op} {chain : List ValidationRequest}

theorem StoredChain.le (hc : StoredChain σ blocks h chain) {req : ValidationRequest}
    (hr : req ∈ chain) : req.height ≤ h := by
  have hmem := List.mem_map_of_mem (f := ValidationRequest.height) hr
  rw [hc.heights, List.mem_reverse, List.mem_range] at hmem
  omega

/-- Only the hashes and the blocks up to its height matter to a chain. -/
theorem StoredChain.congr {blocks' : Nat → Option Bytes} (hc : StoredChain σ blocks h chain)
    (hh : ∀ i ≤ h, getBlockHash σ' i = getBlockHash σ i) (hb : ∀ i ≤ h, blocks' i = blocks i) :
    StoredChain σ' blocks' h chain where
  heights := hc.heights
  stored req hr := by
    rw [hh _ (hc.le hr)]
    exact hc.stored req hr
  header req hr := by
    rw [hb _ (hc.le hr)]
    exact hc.header req hr

theorem Secured.empty (validator : ChainValidator) (blocks : Nat → Option Bytes) :
    Secured validator ∅ blocks where
  bare key _ := get_of_empty _
  rooted h hs := by
    rw [getBlockHash, get_of_empty] at hs
    cases hs
  chain h _ hs := by
    rw [getBlockHash, get_of_empty] at hs
    cases hs

/-- Above height 0 the two checks need a stored predecessor. -/
theorem checkContinuity_stored {sha : Sha256} {req : ValidationRequest} {hash : Bytes}
    (h : checkContinuity sha req = .ok hash) (h0 : 0 < req.height) :
    ∃ stored, req.prevHash = some stored := by
  rw [checkContinuity] at h
  dsimp only at h
  split_ifs at h
  cases hp : prevHashOf req.header with
  | none =>
    rw [hp] at h
    cases h
  | some parent =>
    rw [hp] at h
    cases hs : req.prevHash with
    | none =>
      rw [hs] at h
      cases h
    | some stored => exact ⟨stored,rfl⟩

/-- What an accepted request says about the storage. -/
theorem accepted_request {sha : Sha256} (hcont : Continuous sha validator)
    (hv : Accepted validator ⟨σ,height,blockData,blockHash⟩) : ∃ req : ValidationRequest,
    validator req = true ∧ req.height = height ∧ req.header = blockData.take 80 ∧
      req.claimedHash = blockHash ∧ (0 < height → ∃ stored,
        getBlockHash σ (height-1) = some stored ∧ req.prevHash = some stored) := by
  obtain ⟨req,hreq,hacc⟩ := hv
  dsimp only at hreq
  rw [validationRequest] at hreq
  by_cases hl : blockHash.length ≠ 32
  · rw [if_pos hl] at hreq
    cases hreq
  rw [if_neg hl] at hreq
  obtain ⟨hash,hok⟩ := hcont req hacc
  have hneeds := checkContinuity_stored hok
  cases hreq
  refine ⟨_,hacc,rfl,rfl,rfl,fun h0 => ?_⟩
  obtain ⟨stored,hstored⟩ := hneeds h0
  have hprev := hstored
  dsimp only at hprev
  rw [if_neg (by omega)] at hprev
  exact ⟨stored,(Option.filter_eq_some_iff.mp hprev).1,hstored⟩

/-- A chain one block longer. -/
theorem StoredChain.extend {req : ValidationRequest} (hc : StoredChain σ blocks h chain)
    (hheight : req.height = h+1) (hstored : getBlockHash σ (h+1) = some req.claimedHash)
    (hheader : ∃ blockData, blocks (h+1) = some blockData ∧ req.header = blockData.take 80) :
    StoredChain σ blocks (h+1) (req::chain) where
  heights := by
    rw [List.map_cons, hc.heights, hheight, List.range_succ (n := h+1), List.reverse_append]
    rfl
  stored r hr := by
    rcases List.mem_cons.mp hr with rfl | hr
    · rw [hheight]
      exact hstored
    · exact hc.stored r hr
  header r hr := by
    rcases List.mem_cons.mp hr with rfl | hr
    · rw [hheight]
      exact hheader
    · exact hc.header r hr

/-- The first request of a chain is for its height and its stored hash. -/
theorem StoredChain.head (hc : StoredChain σ blocks h chain) :
    ∃ parent rest, chain = parent::rest ∧ parent.height = h ∧
      getBlockHash σ h = some parent.claimedHash := by
  have hheights := hc.heights
  rw [List.range_succ, List.reverse_append, List.reverse_singleton, List.singleton_append] at hheights
  cases chain with
  | nil => cases hheights
  | cons parent rest =>
    have hp := (List.cons.inj hheights).1
    refine ⟨parent,rest,rfl,hp,?_⟩
    rw [← hp]
    exact hc.stored parent List.mem_cons_self

/-- A block that the validator accepts goes on a chain. -/
theorem Secured.commit {sha : Sha256} (hs : Secured validator σ blocks) (hcont : Continuous sha validator)
    (hh : height<2^32) (ho : CleanBatch ops) (hv : Accepted validator ⟨σ,height,blockData,blockHash⟩)
    (hc : (commitAtomic height blockHash stateRoot ops).exec σ = .ok ((),σ')) :
    Secured validator σ' (Function.update blocks height (some blockData)) := by
  obtain ⟨hacc,rfl⟩ := commitAtomic_cases hc
  obtain ⟨req,hreq,hheight,hheader,hclaimed,hprev⟩ := accepted_request hcont hv
  have hself : getBlockHash (KV.write σ (commitOps height blockHash stateRoot ops)) height =
      some blockHash := commitOps_hash_self
  have hbelow : ∀ i, i < height → getBlockHash (KV.write σ (commitOps height blockHash stateRoot ops)) i =
      getBlockHash σ i := by
    intro i hi
    rw [commitOps_hash ho, if_neg (by omega)]
  have hnew : Function.update blocks height (some blockData) height = some blockData :=
    Function.update_self ..
  refine ⟨commitOps_bare hs.bare ho,?_,?_⟩
  · intro h _
    rcases Nat.eq_zero_or_pos height with h0 | h0
    · rw [← h0, hself]
      rfl
    · obtain ⟨stored,hstored,_⟩ := hprev h0
      rw [hbelow 0 h0]
      exact hs.rooted _ (by rw [hstored]; rfl)
  · intro h htip hsome
    rw [commitOps_indexed hh] at htip
    rcases Nat.eq_zero_or_pos height with h0 | h0
    · -- the genesis block
      obtain rfl : h = height := by omega
      refine ⟨[req],⟨?_,?_,?_⟩,.genesis (hheight.trans h0) hreq⟩
      · simp [hheight, h0]
      · simp [hheight, hself, hclaimed]
      · simp [hheight, hheader]
    · obtain ⟨stored,hstored,hnames⟩ := hprev h0
      have hsome' : (getBlockHash σ (height-1)).isSome := by
        rw [hstored]
        rfl
      -- the parent is below the tip: a fresh storage holds no hash at all
      have hle : height-1 ≤ getIndexedHeight σ := by
        rcases hacc with hf | hnext
        · have hroot := hs.rooted _ hsome'
          rw [isFreshDb, Bool.and_eq_true, Option.isNone_iff_eq_none] at hf
          rw [hf.2] at hroot
          cases hroot
        · rw [saturatingSucc] at hnext
          omega
      have hkept : ∀ {j chain}, j < height → StoredChain σ blocks j chain →
          StoredChain (KV.write σ (commitOps height blockHash stateRoot ops))
            (Function.update blocks height (some blockData)) j chain := by
        intro j chain hj hchain
        refine hchain.congr (fun i hi => hbelow i (by omega)) fun i hi => ?_
        exact Function.update_of_ne (by omega) ..
      rcases Nat.lt_or_ge h height with hlt | hge
      · rw [hbelow h hlt] at hsome
        obtain ⟨chain,hchain,hvalid⟩ := hs.chain h (by omega) hsome
        exact ⟨chain,hkept hlt hchain,hvalid⟩
      · obtain rfl : h = height := by omega
        obtain ⟨chain,hchain,hvalid⟩ := hs.chain (h-1) hle hsome'
        obtain ⟨parent,rest,rfl,hparent,hphash⟩ := hchain.head
        obtain ⟨n,rfl⟩ : ∃ n, h = n+1 := ⟨h-1,by omega⟩
        rw [Nat.add_sub_cancel] at hchain hparent hphash hstored
        refine ⟨req::parent::rest,(hkept (by omega) hchain).extend hheight ?_ ⟨_,hnew,hheader⟩,
          .extend hvalid (by omega) ?_ hreq⟩
        · rw [hself, hclaimed]
        · rw [hnames, ← hstored, hphash]

/-- A cut keeps the chains below what it leaves. -/
theorem Secured.cut (hs : Secured validator σ blocks) {r : Nat} (hr : r ≤ getIndexedHeight σ)
    (hc : HashesCut r σ σ') : Secured validator σ' blocks := by
  obtain ⟨k,hk,hhash⟩ := hc.hash
  have hle : getIndexedHeight σ' ≤ getIndexedHeight σ := by
    rcases hc.pointer with hp | hp <;> omega
  have hkeep : ∀ i, (getBlockHash σ' i).isSome → getBlockHash σ' i = getBlockHash σ i := by
    intro i hi
    rw [hhash] at hi ⊢
    split_ifs at hi ⊢
    · cases hi
    · rfl
  refine ⟨hc.bare,fun h hsome => ?_,fun h htip hsome => ?_⟩
  · rw [hhash, if_neg (by omega)]
    exact hs.rooted h (by rwa [← hkeep h hsome])
  · have hcut : ¬(k < h ∧ h ≤ getIndexedHeight σ) := by
      intro hcut
      rw [hhash, if_pos hcut] at hsome
      cases hsome
    obtain ⟨chain,hstored,hvalid⟩ := hs.chain h (by omega) (by rwa [← hkeep h hsome])
    refine ⟨chain,hstored.congr (fun i hi => ?_) fun _ _ => rfl,hvalid⟩
    rw [hhash, if_neg (by omega)]

end Secured

section Calls

variable {bitcoin : BitcoinCodec} {validator : ChainValidator} {e e' : Engine} {height : Nat}
  {attempts : Nat → Attempt} {blockData blockHash : Bytes} {label : String} {tracksCursor : Bool}

/-- What a completed call has done: nothing to the storage, or the commit of a block that the
validator accepts. -/
def Commits (validator : ChainValidator) (attempts : Nat → Attempt) (e e' : Engine) :
    Option Committed → Prop
  | none => e'.storage = e.storage
  | some c => Accepted validator ⟨e.storage,c.height,c.blockData,c.blockHash⟩ ∧
      ∃ i stateRoot ops, (attempts i).execution = .ok (stateRoot,ops) ∧
        (commitAtomic c.height c.blockHash stateRoot ops).exec e.storage = .ok ((),e'.storage)

theorem committing_commits {c : Option Committed}
    (h : (committing height blockData blockHash (processValidated bitcoin (some validator) label
      tracksCursor attempts height blockData blockHash)).exec e = .ok (c,e')) :
    Commits validator attempts e e' c := by
  obtain ⟨before,e1,hread,h⟩ := Prog.exec_bind_ok h
  cases hread
  obtain ⟨done,e2,hpass,h⟩ := Prog.exec_bind_ok h
  obtain ⟨hv,happ⟩ := processValidated_ok hpass
  cases happ with
  | stale =>
    cases h
    rfl
  | committed _ hx hc =>
    cases h
    exact ⟨accepted_of_validated hv,_,_,_,hx,hc⟩

theorem committing_fails {f : Fault}
    (h : (committing height blockData blockHash (processValidated bitcoin (some validator) label
      tracksCursor attempts height blockData blockHash)).exec e = .error f) :
    (committing height blockData blockHash (processValidated bitcoin (some validator) label
      tracksCursor attempts height blockData blockHash)).finalState e = e := by
  have hrun : ∀ {r}, (committing height blockData blockHash (processValidated bitcoin (some validator)
      label tracksCursor attempts height blockData blockHash)).run e = r → r.result = .error f := by
    rintro r rfl
    rw [Prog.exec] at h
    split at h
    · cases h
    · cases h
      assumption
  rcases processValidated_cases bitcoin (some validator) label tracksCursor attempts height blockData
    blockHash e with ⟨f',hf⟩ | ⟨_,ss,done,hok,_⟩
  · rw [Prog.finalState, committing, Prog.run_read_bind, Prog.run_bind_error hf]
    rfl
  · have hres := hrun rfl
    rw [committing, Prog.run_read_bind, Prog.run_bind_ok hok] at hres
    cases done with
    | true => cases hres
    | false => cases hres

theorem commits_of_run {entry : EntryPoint} (hv : entry.Validates) {node : BitcoinNodeAdapter}
    {config : SyncConfig} {refresh : Except String Unit} {c : Option Committed}
    (h : (entry.run bitcoin (some validator) node config refresh attempts).exec e = .ok (c,e')) :
    Commits validator attempts e e' c := by
  cases entry with
  | processBlock height blockData blockHash => exact committing_commits h
  | processSingleBlock height =>
    rw [EntryPoint.run] at h
    cases hd : node.getBlockData height with
    | error text =>
      rw [hd] at h
      cases h
    | ok blockData =>
      cases hn : node.getBlockHash height with
      | error text =>
        rw [hd, hn] at h
        cases h
      | ok blockHash =>
        rw [hd, hn] at h
        exact committing_commits h
  | snapshotProcessBlock height blockData blockHash => exact committing_commits h
  | pipelineProcessBlock => exact hv.elim
  | processBlockWithSnapshots => exact hv.elim
  | snapshotProcessSingleBlock => exact hv.elim
  | processNextBlock => exact hv.elim

/-- A failed call leaves the engine as it was. -/
theorem run_fails {entry : EntryPoint} (hv : entry.Validates) {node : BitcoinNodeAdapter}
    {config : SyncConfig} {refresh : Except String Unit} {f : Fault}
    (h : (entry.run bitcoin (some validator) node config refresh attempts).exec e = .error f) :
    (entry.run bitcoin (some validator) node config refresh attempts).finalState e = e := by
  cases entry with
  | processBlock height blockData blockHash => exact committing_fails h
  | processSingleBlock height =>
    rw [EntryPoint.run] at h ⊢
    cases hd : node.getBlockData height with
    | error text => rfl
    | ok blockData =>
      cases hn : node.getBlockHash height with
      | error text => rfl
      | ok blockHash =>
        rw [hd, hn] at h
        exact committing_fails h
  | snapshotProcessBlock height blockData blockHash => exact committing_fails h
  | pipelineProcessBlock => exact hv.elim
  | processBlockWithSnapshots => exact hv.elim
  | snapshotProcessSingleBlock => exact hv.elim
  | processNextBlock => exact hv.elim

end Calls

/-- The blocks after a call. -/
def recorded (blocks : Nat → Option Bytes) : Option Committed → Nat → Option Bytes
  | none => blocks
  | some c => Function.update blocks c.height (some c.blockData)

/-- The runs of calls through the checking entry points with clean batches, of rollbacks that go
down, starts and reorg checks. These may stop between any two writes, and between the calls the cursor
may move. A reorg check is made at most one above the tip: from further up `handle_reorg` could raise the
tip over the hash of a block that has been replaced. Heights are `u32`. -/
inductive CheckedRun (bitcoin : BitcoinCodec) (validator : ChainValidator) :
    Engine → (Nat → Option Bytes) → Prop where
  | empty (cursor : Nat) : CheckedRun bitcoin validator ⟨∅,cursor⟩ fun _ => none
  | call {e e' : Engine} {blocks : Nat → Option Bytes} {entry : EntryPoint}
      {node : BitcoinNodeAdapter} {config : SyncConfig} {refresh : Except String Unit}
      {attempts : Nat → Attempt} {c : Option Committed} :
      CheckedRun bitcoin validator e blocks → entry.Validates →
      (∀ i stateRoot ops, (attempts i).execution = .ok (stateRoot,ops) → CleanBatch ops) →
      (∀ d ∈ c, d.height<2^32) →
      (entry.run bitcoin (some validator) node config refresh attempts).exec e = .ok (c,e') →
      CheckedRun bitcoin validator e' (recorded blocks c)
  | failed {e : Engine} {blocks : Nat → Option Bytes} {entry : EntryPoint}
      {node : BitcoinNodeAdapter} {config : SyncConfig} {refresh : Except String Unit}
      {attempts : Nat → Attempt} {f : Fault} :
      CheckedRun bitcoin validator e blocks → entry.Validates →
      (entry.run bitcoin (some validator) node config refresh attempts).exec e = .error f →
      CheckedRun bitcoin validator
        ((entry.run bitcoin (some validator) node config refresh attempts).finalState e) blocks
  | rollback {e : Engine} {σ : Store} {blocks : Nat → Option Bytes} {r : Nat} :
      CheckedRun bitcoin validator e blocks → r ≤ getIndexedHeight e.storage →
      σ ∈ ((rollbackToHeight r).run e.storage).states →
      CheckedRun bitcoin validator ⟨σ,e.currentHeight⟩ blocks
  | init {e : Engine} {σ : Store} {blocks : Nat → Option Bytes} {node : BitcoinNodeAdapter}
      {config : SyncConfig} :
      CheckedRun bitcoin validator e blocks → σ ∈ ((init node config).run e.storage).states →
      CheckedRun bitcoin validator ⟨σ,e.currentHeight⟩ blocks
  | reorg {e : Engine} {σ : Store} {blocks : Nat → Option Bytes} {node : BitcoinNodeAdapter}
      {config : SyncConfig} {refresh : Except String Unit} {currentHeight : Nat} :
      CheckedRun bitcoin validator e blocks → currentHeight ≤ getIndexedHeight e.storage+1 →
      σ ∈ ((handleReorg currentHeight node refresh config).run e.storage).states →
      CheckedRun bitcoin validator ⟨σ,e.currentHeight⟩ blocks
  | cursor {e : Engine} {blocks : Nat → Option Bytes} (cursor : Nat) :
      CheckedRun bitcoin validator e blocks →
      CheckedRun bitcoin validator ⟨e.storage,cursor⟩ blocks

/-- Every run with a policy that makes the two checks keeps the storage secured. -/
theorem CheckedRun.secured {sha : Sha256} {bitcoin : BitcoinCodec} {validator : ChainValidator}
    (hcont : Continuous sha validator) {e : Engine} {blocks : Nat → Option Bytes}
    (h : CheckedRun bitcoin validator e blocks) : Secured validator e.storage blocks := by
  induction h with
  | empty cursor => exact .empty validator _
  | @call e e' blocks entry node config refresh attempts c _ hv hclean hh hc ih =>
    have hcommits := commits_of_run hv hc
    cases c with
    | none =>
      rw [Commits] at hcommits
      rw [hcommits]
      exact ih
    | some c =>
      obtain ⟨hacc,_,_,_,hx,hcommit⟩ := hcommits
      exact ih.commit hcont (hh c rfl) (hclean _ _ _ hx) hacc hcommit
  | failed _ hv hc ih =>
    rw [run_fails hv hc]
    exact ih
  | rollback _ hr hσ ih => exact ih.cut hr (rollbackToHeight_cuts ih.bare hr hσ)
  | init _ hσ ih =>
    obtain ⟨s,hs,hcut⟩ := init_cuts ih.bare hσ
    exact ih.cut hs hcut
  | reorg _ hcur hσ ih =>
    obtain ⟨s,hs,hcut⟩ := handleReorg_cuts ih.bare hcur hσ
    exact ih.cut hs hcut
  | cursor _ _ ih => exact ih

/-- Takes the first 32 bytes for the digest. -/
private def headSha256 : Sha256 where
  digest data := (data ++ List.replicate 32 0).take 32
  length_digest data := by simp

private def headCodec : BitcoinCodec where
  Header := Bytes
  deserialize data := .ok (data.take 80)
  consensusEncode header := header
  prevBlockhash header := (header.drop 4).take 32
  sha256 := headSha256.digest

private def easyHeader (version : UInt8) (prev : Bytes) : Bytes :=
  [version,0,0,0] ++ prev ++ List.replicate 36 0 ++ [255,255,127,32] ++ List.replicate 4 0

private def easyGenesis : Bytes := easyHeader 1 (List.replicate 32 0)

private def easyNode : BitcoinNodeAdapter where
  isConnected := false
  getTipHeight := .ok 0
  getBlockHash _ := .ok []
  getBlockData _ := .ok []

private def easyConfig : SyncConfig where
  startBlock := 0
  exitAt := none
  maxReorgDepth := 100
  reorgCheckThreshold := 6
  enableStartupHeal := true

private def easyPolicy : BitcoinValidator := ⟨.regtest,blockHash headSha256 easyGenesis⟩

private def emptyBatch (_ : Nat) : Attempt := ⟨.ok (List.replicate 32 0,[]),none⟩

private def processEasy (height : Nat) (header : Bytes) : EngineProg (Option Committed) :=
  (EntryPoint.snapshotProcessBlock height header (blockHash headSha256 header)).run headCodec
    (some (policyOf (easyPolicy.validate headSha256))) easyNode easyConfig (.ok ()) emptyBatch

private theorem CheckedRun.easy {e : Engine} {blocks : Nat → Option Bytes}
    (h : CheckedRun headCodec (policyOf (easyPolicy.validate headSha256)) e blocks) (height : Nat)
    (header : Bytes)
    (hok : (((processEasy height header).exec e).toOption.any fun done =>
      done.1.any fun c => c.height < 2^32) = true) :
    ∃ blocks, CheckedRun headCodec (policyOf (easyPolicy.validate headSha256))
      ((processEasy height header).finalState e) blocks := by
  cases hx : (processEasy height header).exec e with
  | error f =>
    rw [hx] at hok
    cases hok
  | ok done =>
    obtain ⟨c,e'⟩ := done
    rw [hx] at hok
    obtain ⟨_,rfl⟩ := Prog.exec_result hx
    refine ⟨recorded blocks c,.call h ?_ ?_ ?_ (show ((EntryPoint.snapshotProcessBlock height header
      (blockHash headSha256 header)).run headCodec (some (policyOf (easyPolicy.validate headSha256)))
        easyNode easyConfig (.ok ()) emptyBatch).exec e = _ from hx)⟩
    · exact trivial
    · intro i stateRoot ops hex
      cases hex
      exact fun _ hop => absurd hop List.not_mem_nil
    · intro d hd
      cases hd
      exact of_decide_eq_true hok

private def easyStart : Engine := ⟨∅,0⟩
private def easyFirst : Engine := (processEasy 0 easyGenesis).finalState easyStart
private def easySecond : Engine :=
  (processEasy 1 (easyHeader 2 (headSha256.digest easyGenesis))).finalState easyFirst
private def easyBack : Engine := ⟨(rollbackToHeight 0).finalState easySecond.storage,1⟩
private def easyThird : Engine :=
  (processEasy 1 (easyHeader 3 (headSha256.digest easyGenesis))).finalState easyBack

/-- With the Bitcoin policy installed, every hash stored up to the tip ends a chain of the blocks
committed: from the configured genesis, linked by the hashes of the headers, and mined. -/
theorem chain_secured (bitcoin : BitcoinCodec) (sha : Sha256) (v : BitcoinValidator) (e : Engine)
    (blocks : Nat → Option Bytes)
    (hrun : CheckedRun bitcoin (policyOf (v.validate sha)) e blocks) (h : Nat)
    (hle : h ≤ getIndexedHeight e.storage) (hsome : (getBlockHash e.storage h).isSome = true) :
    ∃ chain, StoredChain e.storage blocks h chain ∧ genesisHash chain = some v.genesis ∧
      HeaderChain sha chain ∧ ∀ req ∈ chain, MeetsOwnTarget req := by
  have hcont : Continuous sha (policyOf (v.validate sha)) := fun req hacc =>
    (BitcoinValidator.validate_accepted hacc).1
  obtain ⟨chain,hstored,hvalid⟩ := (hrun.secured hcont).chain h hle hsome
  refine ⟨chain,hstored,?_,hvalid.headerChain hcont,fun req hreq => ?_⟩
  · obtain ⟨r,hr,hlast,h0⟩ := hvalid.getLast
    have hacc := BitcoinValidator.validate_accepted (hvalid.accepted r hr)
    rw [genesisHash, hlast, Option.map_some, hacc.2.1 h0]
  · exact (BitcoinValidator.validate_accepted (hvalid.accepted req hreq)).2.2

/-- A block replaces the one at height 1. -/
theorem chain_secured_replaced : ∃ blocks chain,
    CheckedRun headCodec (policyOf (easyPolicy.validate headSha256)) easyThird blocks ∧
      getBlockHash easyThird.storage 1 =
        some (blockHash headSha256 (easyHeader 3 (headSha256.digest easyGenesis))) ∧
      StoredChain easyThird.storage blocks 1 chain ∧
      genesisHash chain = some easyPolicy.genesis ∧ HeaderChain headSha256 chain ∧
      ∀ req ∈ chain, MeetsOwnTarget req := by
  obtain ⟨_,h1⟩ := (CheckedRun.empty 0).easy 0 easyGenesis (by decide +kernel)
  obtain ⟨_,h2⟩ := h1.easy 1 (easyHeader 2 (headSha256.digest easyGenesis)) (by decide +kernel)
  have hback : easyBack.storage ∈ ((rollbackToHeight 0).run easySecond.storage).states := by
    have hne : ((rollbackToHeight 0).run easySecond.storage).states ≠ [] := by
      rw [← List.isEmpty_eq_false_iff]
      decide +kernel
    exact (Prog.finalState_mem _ _).resolve_left fun h => hne h.2
  have h3 := (h2.rollback (Nat.zero_le _) hback).cursor 1
  obtain ⟨blocks,h4⟩ := h3.easy 1 (easyHeader 3 (headSha256.digest easyGenesis)) (by decide +kernel)
  have hstored : 1 ≤ getIndexedHeight easyThird.storage ∧ getBlockHash easyThird.storage 1 =
      some (blockHash headSha256 (easyHeader 3 (headSha256.digest easyGenesis))) := by
    decide +kernel
  obtain ⟨chain,hchain⟩ := chain_secured headCodec headSha256 easyPolicy easyThird blocks h4 1
    hstored.1 (by rw [hstored.2]; rfl)
  exact ⟨blocks,chain,h4,hstored.2,hchain⟩

end Metashrew.Validator
