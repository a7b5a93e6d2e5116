import Metashrew.Sync.Policy

namespace Metashrew

open Bytes Durable

/-- The header of the block names the hash as its previous block. -/
def NamesPrevious (bitcoin : BitcoinCodec) (blockData prevHash : Bytes) : Prop :=
  ∃ header, bitcoin.deserialize blockData = .ok header ∧
    (bitcoin.prevBlockhash header).reverse = prevHash

/-- Up to the tip, neighbouring stored hashes belong to blocks that are linked. `blocks` holds the
block last committed at each height. -/
def Linked (bitcoin : BitcoinCodec) (σ : Store) (blocks : Nat → Option Bytes) : Prop :=
  ∀ h, 0 < h → h ≤ getIndexedHeight σ → ∀ prevHash, getBlockHash σ (h-1) = some prevHash →
    (getBlockHash σ h).isSome = true →
      ∃ blockData, blocks h = some blockData ∧ NamesPrevious bitcoin blockData prevHash

inductive BlockCall where
  | process (attempts : Nat → Attempt) (height : Nat)
  | rollback (height : Nat)

/-- The runs of `process_block` without a validator and of rollbacks that meet `P`. -/
inductive BlockRun (P : Store → BlockCall → Prop) (bitcoin : BitcoinCodec) :
    Engine → (Nat → Option Bytes) → Prop where
  | empty (cursor : Nat) : BlockRun P bitcoin ⟨∅,cursor⟩ fun _ => none
  | process {e e' : Engine} {blocks : Nat → Option Bytes} {attempts : Nat → Attempt} {height : Nat}
      {blockData blockHash : Bytes} {done : Bool} :
      BlockRun P bitcoin e blocks → P e.storage (.process attempts height) → height<2^32 →
      (MetashrewSync.processBlock bitcoin none attempts height blockData blockHash).exec e =
        .ok (done,e') →
      BlockRun P bitcoin e' (Function.update blocks height (some blockData))
  | failed {e : Engine} {blocks : Nat → Option Bytes} {attempts : Nat → Attempt} {height : Nat}
      {blockData blockHash : Bytes} {f : Fault} :
      BlockRun P bitcoin e blocks →
      (MetashrewSync.processBlock bitcoin none attempts height blockData blockHash).exec e =
        .error f →
      BlockRun P bitcoin ((MetashrewSync.processBlock bitcoin none attempts height blockData
        blockHash).finalState e) blocks
  | rollback {e : Engine} {σ : Store} {blocks : Nat → Option Bytes} {r : Nat} :
      BlockRun P bitcoin e blocks → P e.storage (.rollback r) → r<2^32 →
      (rollbackToHeight r).exec e.storage = .ok ((),σ) →
      BlockRun P bitcoin ⟨σ,e.currentHeight⟩ blocks

/-- Clean batches, rollbacks that go down, and no stale hash below a block that a fresh-looking
store accepts. -/
def KeepsLinks (σ : Store) : BlockCall → Prop
  | .process attempts height =>
    (∀ i stateRoot ops, (attempts i).execution = .ok (stateRoot,ops) → CleanBatch ops) ∧
      (isFreshDb σ = true → ∀ h < height, getBlockHash σ h = none)
  | .rollback r => r ≤ getIndexedHeight σ

section Steps

variable {bitcoin : BitcoinCodec} {σ σ' : Store} {blocks : Nat → Option Bytes} {height : Nat}
  {blockData blockHash stateRoot : Bytes} {ops : List Op}

/-- What the built-in check says about the predecessor. -/
theorem validateBlockConnects_prev
    (h : validateBlockConnects bitcoin none height blockData blockHash σ = .ok true)
    (h0 : 0 < height) {prevHash : Bytes} (hp : getBlockHash σ (height-1) = some prevHash) :
    NamesPrevious bitcoin blockData prevHash := by
  rw [validateBlockConnects] at h
  cases hd : bitcoin.deserialize blockData with
  | error e =>
    rw [hd] at h
    cases h
  | ok header =>
    rw [hd] at h
    dsimp only at h
    split_ifs at h with hhash hz
    · cases h
    · omega
    · -- a stored predecessor: the check has compared it
      rw [hp] at h
      have he := Except.ok.inj h
      rw [beq_iff_eq] at he
      exact ⟨header,hd,he.symm⟩

theorem Linked.commit (hl : Linked bitcoin σ blocks) (hh : height<2^32) (ho : CleanBatch ops)
    (hv : validateBlockConnects bitcoin none height blockData blockHash σ = .ok true)
    (hfresh : isFreshDb σ = true → ∀ h < height, getBlockHash σ h = none)
    (hc : (commitAtomic height blockHash stateRoot ops).exec σ = .ok ((),σ')) :
    Linked bitcoin σ' (Function.update blocks height (some blockData)) := by
  obtain ⟨hacc,rfl⟩ := commitAtomic_cases hc
  intro h h0 hle prevHash hprev hsome
  rw [commitOps_indexed hh] at hle
  rw [commitOps_hash ho, if_neg (by omega)] at hprev
  by_cases he : h=height
  · subst he
    rw [Function.update_self]
    exact ⟨blockData,rfl,validateBlockConnects_prev hv h0 hprev⟩
  · rw [commitOps_hash ho, if_neg he] at hsome
    rw [Function.update_of_ne he]
    rcases hacc with hf | hnext
    · rw [hfresh hf h (by omega)] at hsome
      cases hsome
    · refine hl h h0 ?_ prevHash hprev hsome
      rw [saturatingSucc] at hnext
      omega

theorem Linked.rollback (hl : Linked bitcoin σ blocks) {r : Nat} (hr : r ≤ getIndexedHeight σ)
    (hi : getIndexedHeight σ' = r) (hk : ∀ h ≤ r, getBlockHash σ' h = getBlockHash σ h) :
    Linked bitcoin σ' blocks := by
  intro h h0 hle prevHash hprev hsome
  rw [hi] at hle
  rw [hk (h-1) (by omega)] at hprev
  rw [hk h hle] at hsome
  exact hl h h0 (by omega) prevHash hprev hsome

end Steps

/-- The stored chain is linked up to the tip in every run that keeps links. -/
theorem chain_linked (bitcoin : BitcoinCodec) (e : Engine) (blocks : Nat → Option Bytes)
    (h : BlockRun KeepsLinks bitcoin e blocks) : Linked bitcoin e.storage blocks := by
  have hinv : Bare Reserved e.storage ∧ Linked bitcoin e.storage blocks := by
    induction h with
    | empty cursor =>
      refine ⟨fun key _ => get_of_empty _,?_⟩
      intro h h0 hle
      rw [getIndexedHeight_empty] at hle
      omega
    | process _ hp hh hc ih =>
      obtain ⟨hv,happ⟩ := processValidated_ok hc
      cases happ with
      | stale ht => cases ht
      | committed _ hx hcommit =>
        have ho := hp.1 _ _ _ hx
        refine ⟨?_,ih.2.commit hh ho hv hp.2 hcommit⟩
        obtain ⟨_,rfl⟩ := commitAtomic_cases hcommit
        exact commitOps_bare ih.1 ho
    | failed _ hc ih =>
      rw [MetashrewSync.processBlock, processValidated_error hc]
      exact ih
    | rollback _ hp hr hc ih =>
      obtain ⟨hi,hb,hk⟩ := rollbackToHeight_keeps ih.1 hr hc
      exact ⟨hb,ih.2.rollback hp hi hk⟩
  exact hinv.2

/-- Blocks of one byte of their own and the bytes of the previous hash, with no mixing. -/
private def shortCodec : BitcoinCodec where
  Header := Bytes
  deserialize data := .ok data
  consensusEncode header := header
  prevBlockhash header := header.drop 1
  sha256 data := data

private def oneAttempt (_ : Nat) : Attempt := ⟨.ok ([8],[]),none⟩

private def processShort (height : Nat) (blockData : Bytes) : EngineProg Bool :=
  MetashrewSync.processBlock shortCodec none oneAttempt height blockData blockData.reverse

private theorem exec_final {α : Type} {p : EngineProg α} {e : Engine}
    (h : (p.exec e).toOption.isSome = true) : ∃ a, p.exec e = .ok (a,p.finalState e) := by
  rw [Prog.exec] at h ⊢
  cases hr : (p.run e).result with
  | error f =>
    rw [hr] at h
    cases h
  | ok a => exact ⟨a,rfl⟩

private theorem oneAttempt_clean (i : Nat) (stateRoot : Bytes) (ops : List Op)
    (h : (oneAttempt i).execution = .ok (stateRoot,ops)) : CleanBatch ops := by
  cases h
  exact fun _ hop => absurd hop List.not_mem_nil

private theorem BlockRun.short {P : Store → BlockCall → Prop} {e : Engine}
    {blocks : Nat → Option Bytes} (h : BlockRun P shortCodec e blocks) (height : Nat)
    (blockData : Bytes) (hp : P e.storage (.process oneAttempt height)) (hh : height<2^32)
    (hok : ((processShort height blockData).exec e).toOption.isSome = true) :
    BlockRun P shortCodec ((processShort height blockData).finalState e)
      (Function.update blocks height (some blockData)) := by
  obtain ⟨done,he⟩ := exec_final hok
  exact .process h hp hh he

private def linkStart : Engine := ⟨∅,0⟩
private def linkFirst : Engine := (processShort 0 [1]).finalState linkStart
private def linkSecond : Engine := (processShort 1 [2,1]).finalState linkFirst

theorem chain_linked_two_blocks :
    ∃ blocks, BlockRun KeepsLinks shortCodec linkSecond blocks ∧ blocks 1 = some [2,1] ∧
      Linked shortCodec linkSecond.storage blocks := by
  have h0 : BlockRun KeepsLinks shortCodec linkStart fun _ => none := .empty 0
  have h1 := h0.short 0 [1] ⟨oneAttempt_clean,fun _ h hh => absurd hh (Nat.not_lt_zero h)⟩ (by decide)
    (by decide +kernel)
  have hnot : isFreshDb linkFirst.storage = false := by decide +kernel
  have h2 := h1.short 1 [2,1]
    ⟨oneAttempt_clean,fun hf => by
      change isFreshDb linkFirst.storage = true at hf
      rw [hnot] at hf
      cases hf⟩ (by decide) (by decide +kernel)
  exact ⟨_,h2,by simp,chain_linked shortCodec linkSecond _ h2⟩

private def staleFirst : Engine := (processShort 5 [1]).finalState linkStart
private def staleSecond : Engine := (processShort 6 [2,1]).finalState staleFirst
private def rolledBackToZero (e : Engine) : Engine :=
  ⟨(rollbackToHeight 0).finalState e.storage,e.currentHeight⟩
private def staleBack : Engine := rolledBackToZero staleSecond
private def staleFork : Engine := (processShort 5 [3]).finalState staleBack
private def staleForkBack : Engine := rolledBackToZero staleFork
private def staleLast : Engine := (processShort 7 [4,2,1]).finalState staleForkBack

private theorem BlockRun.toZero {e : Engine} {blocks : Nat → Option Bytes}
    (h : BlockRun (fun _ _ => True) shortCodec e blocks)
    (hok : ((rollbackToHeight 0).exec e.storage).toOption.isSome = true) :
    BlockRun (fun _ _ => True) shortCodec (rolledBackToZero e) blocks := by
  refine .rollback (r := 0) h trivial (by decide) ?_
  rw [Prog.exec] at hok ⊢
  cases hr : ((rollbackToHeight 0).run e.storage).result with
  | error f =>
    rw [hr] at hok
    cases hok
  | ok a => rfl

/-- Two chains from height 5, each rolled back to 0 by the slow path, and a block at 7 that the
fresh-looking store accepts: height 6 still has the hash of the first chain, height 5 has that of the
second. -/
theorem chain_not_linked :
    ¬∀ bitcoin e blocks, BlockRun (fun _ _ => True) bitcoin e blocks →
      Linked bitcoin e.storage blocks := by
  intro hall
  have h0 : BlockRun (fun _ _ => True) shortCodec linkStart fun _ => none := .empty 0
  have h1 := h0.short 5 [1] trivial (by decide) (by decide +kernel)
  have h2 := h1.short 6 [2,1] trivial (by decide) (by decide +kernel)
  have h3 := h2.toZero (by decide +kernel)
  have h4 := h3.short 5 [3] trivial (by decide) (by decide +kernel)
  have h5 := h4.toZero (by decide +kernel)
  have h6 := h5.short 7 [4,2,1] trivial (by decide) (by decide +kernel)
  have hhash : getBlockHash staleLast.storage 5 = some [3] ∧
      (getBlockHash staleLast.storage 6).isSome = true ∧ 6 ≤ getIndexedHeight staleLast.storage := by
    decide +kernel
  obtain ⟨blockData,hb,header,hd,hprev⟩ := hall shortCodec staleLast _ h6 6 (by decide) hhash.2.2 _
    hhash.1 hhash.2.1
  simp at hb
  subst hb
  cases hd
  exact absurd hprev (by decide)

end Metashrew
