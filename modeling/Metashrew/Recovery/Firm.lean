import Metashrew.Ledger.Heights
import Metashrew.Ledger.Reads
import Metashrew.Recovery.Retry

namespace Metashrew

open Bytes Durable Versioned

/-- What holds of a committed chain state, also after rollbacks that leave records above the tip. -/
structure Ledger.Firm (L : Ledger) : Prop where
  sound : ∃ n, n ≤ 2^32 ∧ L.Sound n
  covered : L.Covered
  indexed : ∀ i, L.indexed = some i → i < 2^32
  below : ∀ key, ∀ e ∈ L.history key, e.1 ≤ L.indexed.getD 0
  first : ∀ key, ∀ e ∈ L.history key, e.1 = 0 → L.hash 0 ≠ none

namespace Ledger.Firm

variable {σ σ' : Store} {L : Ledger} {t r : Nat} {b : Block}

theorem empty : Ledger.empty.Firm where
  sound := ⟨0,by norm_num,.empty 0⟩
  covered _ _ he := absurd he List.not_mem_nil
  indexed _ h := by cases h
  below _ _ he := absurd he List.not_mem_nil
  first _ _ he := absurd he List.not_mem_nil

theorem getIndexedHeight (hL : L.Firm) (hσ : Represents σ L) :
    Metashrew.getIndexedHeight σ = L.indexed.getD 0 := hσ.readPointer_indexed hL.indexed

/-- A block above the tip, or on a fresh database, is above every update. -/
theorem lt_of_accepted (hL : L.Firm) (hσ : Represents σ L)
    (ht : isFreshDb σ = true ∨ L.indexed.getD 0 < t) (key : Bytes) :
    ∀ e ∈ L.history key, e.1 < t := by
  intro e he
  have hle := hL.below key e he
  obtain hfresh | hlt := ht
  · obtain ⟨hzero,hnone⟩ := (hσ.isFreshDb hL.indexed).mp hfresh
    exact absurd hnone (hL.first key e he (by omega))
  · omega

/-- A commit above the tip of keys that collide with no internal name appends the block. -/
theorem commit (hL : L.Firm) (hσ : Represents σ L) (ht : t < 2^32)
    (htip : isFreshDb σ = true ∨ L.indexed.getD 0 < t) (hp : ∀ kv ∈ b.flush.list, ¬Reserved kv.1)
    (hc : commitBlock σ t b = .ok σ') :
    Represents σ' (L.block t b) ∧ (L.block t b).Firm ∧ ∀ key, ∀ e ∈ L.history key, e.1 < t := by
  obtain ⟨n,hn,hs⟩ := hL.sound
  have hlt := hL.lt_of_accepted hσ htip
  obtain ⟨hrep,hshort⟩ := commitBlock_represents hσ hs.short hp hc
  refine ⟨hrep,?_,hlt⟩
  constructor
  case sound => exact ⟨max n (t+1),by omega,hs.block_at hlt hp hshort⟩
  case covered => exact hL.covered.block hlt b
  case indexed =>
    intro i hi
    cases hi
    exact ht
  case below =>
    intro key e he
    show e.1 ≤ t
    obtain he | ⟨he,_⟩ := mem_block_history he
    · exact le_of_lt (hlt key e he)
    · exact le_of_eq he
  case first =>
    intro key e he hzero
    show Function.update L.hash t (some b.hash) 0 ≠ none
    obtain he | ⟨he,_⟩ := mem_block_history he
    · have hpos := hlt key e he
      rw [Function.update_of_ne (by omega)]
      exact hL.first key e he hzero
    · rw [← he, hzero, Function.update_self]
      exact Option.some_ne_none _

/-- Any part of a rollback keeps it. -/
theorem partly {L' : Ledger} (hL : L.Firm) (hp : L.PartlyRolledBack r L') : L'.Firm := by
  obtain ⟨n,hn,hs⟩ := hL.sound
  constructor
  case sound => exact ⟨n,hn,hp.sound hs⟩
  case covered => exact hp.covered hL.covered
  case indexed => exact hp.indexed ▸ hL.indexed
  case below => exact fun key e he => hp.indexed ▸ hL.below key e (hp.mem_history he)
  case first =>
    intro key e he hzero
    have hhash : L'.hash 0 = L.hash 0 := by
      obtain h | ⟨h,_⟩ := hp.hash 0
      · exact h
      · omega
    rw [hhash]
    exact hL.first key e (hp.mem_history he) hzero

/-- So does the end of a rollback that has cut every history. -/
theorem rolledBack {L' : Ledger} (hL : L.Firm) (hr : r < 2^32)
    (hp : L.PartlyRolledBack r L') (hcut : ∀ key, L'.history key = upTo r (L.history key)) :
    (L'.setIndexed r).Firm := by
  have hpart := hL.partly hp
  obtain ⟨n,hn,hs⟩ := hpart.sound
  constructor
  case sound => exact ⟨n,hn,{ hs with }⟩
  case covered => exact hpart.covered
  case indexed =>
    intro i hi
    cases hi
    exact hr
  case below =>
    intro key e he
    have he : e ∈ L'.history key := he
    rw [hcut] at he
    exact (mem_upTo.mp he).2
  case first => exact hpart.first

/-- A complete rollback cuts every history and moves the pointer. -/
theorem rollback (hL : L.Firm) (hσ : Represents σ L) (hr : r < 2^32)
    (hx : (rollbackToHeight r).exec σ = .ok ((),σ')) :
    ∃ L', Represents σ' (L'.setIndexed r) ∧ L.RolledBackTo σ r (L.indexed.getD 0) L' ∧
      (∀ key, L'.history key = upTo r (L.history key)) ∧ (L'.setIndexed r).Firm := by
  obtain ⟨n,hn,hs⟩ := hL.sound
  obtain ⟨ss,L',hrun,hend,hrep,_⟩ := rollbackToHeight_ends hσ hs hn (hL.getIndexedHeight hσ) r
  rw [Prog.exec_ok hrun, List.getLastD_concat] at hx
  cases hx
  have hcut := hend.cut hσ hL.covered hL.below
  exact ⟨L',hrep.setIndexed r,hend,hcut,hL.rolledBack hr hend.partly hcut⟩

end Ledger.Firm

end Metashrew
