import Metashrew.Ledger.Frame
import Metashrew.Ledger.Reads

namespace Metashrew

open Bytes Versioned

variable {σ σ' : Store} {L : Ledger} {h start : Nat} {b : Block} {blocks : List Block}

theorem commitOps_histories {H : Bytes → History Nat Bytes} {ops : List Op}
    (hσ : HoldsHistories (KV.write σ ops) H) (hash root : Bytes) :
    HoldsHistories (KV.write σ (commitOps h hash root ops)) H := by
  rw [commitOps, KV.write_append]
  apply hσ.internal
  intro op hop
  simp only [List.mem_cons, List.not_mem_nil, or_false] at hop
  rcases hop with rfl | rfl | rfl
  · exact .blockHash h
  · exact .root h
  · exact .indexedHeight

/-- The histories after a commit, whatever its keys are. -/
theorem commitBlock_histories (hσ : HoldsHistories σ L.history)
    (hs : ∀ key, (L.history key).length<2^32) (hc : commitBlock σ h b = .ok σ') :
    HoldsHistories σ' (L.block h b).history ∧ ∀ key, ((L.block h b).history key).length<2^32 := by
  obtain ⟨root,ops,hb,_,rfl⟩ := commitBlock_cases hc
  obtain ⟨hh,hshort⟩ := build_histories hσ hs hb
  have hblock : (L.appendAll h b.flush.list).history = (L.block h b).history :=
    funext fun key => L.appendAll_history h b.flush.list key
  rw [hblock] at hh hshort
  exact ⟨commitOps_histories hh b.hash b.stateRoot,hshort⟩

theorem commitBlocks_histories (start : Nat) (hσ : HoldsHistories σ L.history)
    (hs : ∀ key, (L.history key).length<2^32) (hc : commitBlocks start σ blocks = .ok σ') :
    HoldsHistories σ' (L.run start blocks).history ∧
      ∀ n, blocks.length = n+1 → KV.get σ' indexedHeightKey = some (u32le (start+n)) := by
  induction blocks generalizing σ L start with
  | nil =>
    cases hc
    exact ⟨hσ,(by simp)⟩
  | cons b bs ih =>
    rw [commitBlocks] at hc
    cases hb : commitBlock σ start b with
    | error e => rw [hb] at hc; cases hc
    | ok σ1 =>
      rw [hb] at hc
      obtain ⟨h1,hs1⟩ := commitBlock_histories hσ hs hb
      obtain ⟨h2,hi2⟩ := ih (start+1) h1 hs1 hc
      refine ⟨h2,fun n hn => ?_⟩
      rw [List.length_cons, Nat.succ.injEq] at hn
      cases n with
      | zero =>
        rw [List.length_eq_zero_iff.mp hn] at hc
        cases hc
        exact commitBlock_indexed hb
      | succ n =>
        have hstart : start+(n+1) = start+1+n := by omega
        rw [hstart]
        exact hi2 n hn

/-- From the empty database. -/
theorem commitBlocks_ofBlocks_histories (hc : commitBlocks start ∅ blocks = .ok σ) :
    HoldsHistories σ (Ledger.ofBlocks start blocks).history :=
  (commitBlocks_histories (L := .empty) start .empty (fun _ => Nat.two_pow_pos 32) hc).1

/-- The height after a run is the next one that is accepted. -/
theorem commitBlocks_accepts (hlen : blocks.length<2^32) (hc : commitBlocks 0 ∅ blocks = .ok σ) :
    isFreshDb σ = true ∨ blocks.length = saturatingSucc (getIndexedHeight σ) := by
  obtain ⟨_,hi⟩ := commitBlocks_histories (L := .empty) 0 .empty (fun _ => Nat.two_pow_pos 32) hc
  cases hn : blocks.length with
  | zero =>
    rw [List.length_eq_zero_iff.mp hn] at hc
    cases hc
    exact .inl (by decide +kernel)
  | succ n =>
    right
    rw [getIndexedHeight, readPointer, hi n hn, Option.bind_some, readU32le_u32le (by omega)]
    rw [saturatingSucc, Option.getD_some]
    omega

end Metashrew
