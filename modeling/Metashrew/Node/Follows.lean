import Metashrew.Node.Indexing
import Metashrew.Recovery.Helper
import Metashrew.Recovery.Offline
import Metashrew.Sync.Heal

namespace Metashrew

open Bytes Durable Versioned

/-- No key has more than 2^31 updates. -/
def Roomy (σ : Store) : Prop := ∀ key, lengthOf σ key ≤ 2^31

/-- The blocks that a program makes of a chain: on each block it ends well over the histories of those
before it. -/
inductive Indexes (prog : IndexerProgram) (start : Nat) : List NodeBlock → List Block → Prop where
  | nil : Indexes prog start [] []
  | snoc {chain : List NodeBlock} {blocks : List Block} {b : NodeBlock} {f : Flush} (root : Bytes)
      (h : Indexes prog start chain blocks) (hn : start+chain.length<2^32-1)
      (hlen : ∀ key, (writesOf key start blocks).length ≤ 2^31)
      (hs : Settles prog (fun key => writesOf key start blocks) (start+chain.length) b.data f)
      (hp : f.Plain) : Indexes prog start (chain ++ [b]) (blocks ++ [⟨f,b.hash,root⟩])

namespace Indexes

variable {prog : IndexerProgram} {start k : Nat} {chain : List NodeBlock} {blocks : List Block}

theorem length (h : Indexes prog start chain blocks) : blocks.length = chain.length := by
  induction h with
  | nil => rfl
  | snoc root h hn hlen hs hp ih => simp [ih]

/-- What a program makes of a chain it makes of every beginning of it. -/
theorem take (h : Indexes prog start chain blocks) (k : Nat) :
    Indexes prog start (chain.take k) (blocks.take k) := by
  induction h with
  | nil => simpa using nil
  | snoc root h hn hlen hs hp ih =>
    have hl := h.length
    rename_i chain blocks b f
    by_cases hk : k ≤ chain.length
    · have hk' : k ≤ blocks.length := by omega
      simpa [List.take_append_of_le_length, hk, hk'] using ih
    · have hall : (chain ++ [b]).take k = chain ++ [b] := List.take_of_length_le (by simp; omega)
      have hall' : (blocks ++ [⟨f,b.hash,root⟩] : List Block).take k = blocks ++ [⟨f,b.hash,root⟩] :=
        List.take_of_length_le (by simp; omega)
      rw [hall, hall']
      exact snoc root h hn hlen hs hp

end Indexes

/-- Crashes leave a part of the rollback, when each of them does. -/
theorem Ledger.Firm.interrupted {p : DbProg Unit} {L : Ledger} {σ σ' : Store} {r : Nat}
    (hp : ∀ (L : Ledger) (σ σ' : Store) (j : Nat), L.Firm → Represents σ L → p.CrashAfter σ j σ' →
      ∃ L', L.PartlyRolledBack r L' ∧ Represents σ' L')
    (hL : L.Firm) (hσ : Represents σ L) (h : Prog.Interrupted p σ σ') :
    ∃ L', L.PartlyRolledBack r L' ∧ Represents σ' L' := by
  refine Prog.Interrupted.invariant (I := fun τ => ∃ L', L.PartlyRolledBack r L' ∧ Represents τ L')
    ?_ ⟨L,.refl L r,hσ⟩ h
  rintro τ j τ' ⟨L₁,hp₁,hτ⟩ hj
  obtain ⟨L₂,hp₂,hτ'⟩ := hp L₁ τ τ' j (hL.partly hp₁) hτ hj
  exact ⟨L₂,hp₁.trans hp₂,hτ'⟩

theorem rollbackToHeight_crashed {L : Ledger} {σ σ' : Store} {r j : Nat} (hL : L.Firm) (hσ : Represents σ L)
    (hc : (rollbackToHeight r).CrashAfter σ j σ') :
    ∃ L', L.PartlyRolledBack r L' ∧ Represents σ' L' := by
  obtain ⟨n,hn,hs⟩ := hL.sound
  obtain ⟨ss,_,hrun,_,_,hpoint⟩ := rollbackToHeight_ends hσ hs hn (hL.getIndexedHeight hσ) r
  exact hpoint j σ' (hc.before_last hrun).2

/-- The ledger says what a program makes of a chain; above the tip there may be records of blocks that
are gone. -/
structure Ledger.Follows (L : Ledger) (prog : IndexerProgram) (start : Nat) (chain : List NodeBlock) :
    Prop where
  firm : L.Firm
  indexes : ∃ blocks, Indexes prog start chain blocks ∧ ∀ key, L.history key = writesOf key start blocks
  tip : chain ≠ [] → L.indexed = some (start+chain.length-1)
  runtimeTip : chain ≠ [] → ∃ t, t<2^32 ∧ L.tip = some t ∧ start+chain.length ≤ t+1
  fresh : chain = [] → L.indexed.getD 0 = 0 ∧ L.hash 0 = none
  hash : ∀ i b, chain[i]? = some b → L.hash (start+i) = some b.hash

namespace Ledger.Follows

variable {prog : IndexerProgram} {start n r : Nat} {chain : List NodeBlock} {L : Ledger} {σ σ' : Store}
  {b : NodeBlock} {f : Flush} {root : Bytes}

theorem empty (prog : IndexerProgram) (start : Nat) : Ledger.empty.Follows prog start [] where
  firm := .empty
  indexes := ⟨[],.nil,fun _ => rfl⟩
  tip h := absurd rfl h
  runtimeTip h := absurd rfl h
  fresh _ := ⟨rfl,rfl⟩
  hash i b h := by simp at h

/-- The first block is accepted at any height, each later one behind the tip. -/
theorem accepts_iff (hL : L.Follows prog start chain) (hσ : Represents σ L) (hfirst : chain = [] → n = start)
    (hn : n<2^32-1) :
    (isFreshDb σ = true ∨ n = saturatingSucc (getIndexedHeight σ)) ↔ n = start+chain.length := by
  have hheight := hL.firm.getIndexedHeight hσ
  have hfresh := hσ.isFreshDb hL.firm.indexed
  by_cases hnil : chain = []
  · have hn' := hfirst hnil
    obtain ⟨hi,hh⟩ := hL.fresh hnil
    have hyes : isFreshDb σ = true := hfresh.mpr ⟨hi,hh⟩
    simp [hyes, hnil, hn']
  · have hpos := List.length_pos_iff.mpr hnil
    have htip := hL.tip hnil
    have hno : isFreshDb σ ≠ true := by
      intro hf
      obtain ⟨hzero,hnone⟩ := hfresh.mp hf
      rw [htip, Option.getD_some] at hzero
      have hb := hL.hash 0 chain[0] (List.getElem?_eq_getElem hpos)
      have hstart : start+0 = 0 := by omega
      rw [hstart, hnone] at hb
      cases hb
    rw [hheight, htip, Option.getD_some, saturatingSucc]
    constructor
    · rintro (hf | he)
      · exact absurd hf hno
      · omega
    · intro he
      right
      omega

/-- A commit of what the program makes of the next block follows the longer chain. -/
theorem block (hL : L.Follows prog start chain) (hσ : Represents σ L)
    (hroom : ∀ key, (L.history key).length ≤ 2^31) (hn : start+chain.length<2^32-1) (hs : Settles prog L.history (start+chain.length) b.data f) (hp : f.Plain)
    (hc : commitBlock σ (start+chain.length) ⟨f,b.hash,root⟩ = .ok σ') :
    Represents σ' (L.block (start+chain.length) ⟨f,b.hash,root⟩) ∧
      (L.block (start+chain.length) ⟨f,b.hash,root⟩).Follows prog start (chain ++ [b]) := by
  obtain ⟨blocks,hblocks,hhist⟩ := hL.indexes
  obtain ⟨_,_,_,hacc,_⟩ := commitBlock_cases hc
  have htip : isFreshDb σ = true ∨ L.indexed.getD 0 < start+chain.length := by
    refine hacc.imp_right fun he => ?_
    rw [hL.firm.getIndexedHeight hσ, saturatingSucc] at he
    omega
  obtain ⟨hrep,hfirm,_⟩ := hL.firm.commit (b := ⟨f,b.hash,root⟩) hσ (by omega) htip hp hc
  refine ⟨hrep,hfirm,?_,?_,?_,?_,?_⟩
  · have hfun : L.history = fun key => writesOf key start blocks := funext hhist
    rw [hfun] at hs hroom
    refine ⟨_,hblocks.snoc root hn hroom hs hp,fun key => ?_⟩
    rw [writesOf_append, ← hhist key, hblocks.length]
    simp [Ledger.block, writesOf]
  · intro _
    simp [Ledger.block]
  · intro _
    exact ⟨start+chain.length,by omega,rfl,by simp; omega⟩
  · simp
  · intro i b' hb'
    rcases Nat.lt_trichotomy i chain.length with hlt | rfl | hgt
    · rw [List.getElem?_append_left hlt] at hb'
      have hne : start+i ≠ start+chain.length := by omega
      exact (Function.update_of_ne hne _ _).trans (hL.hash i b' hb')
    · simp at hb'
      simp [Ledger.block, hb']
    · rw [List.getElem?_eq_none (by simp; omega)] at hb'
      cases hb'

/-- The end of a rollback that has cut every history follows the beginning of the chain. -/
theorem cut (hL : L.Follows prog start chain) (hlo : start ≤ r) (hhi : r < start+chain.length) {L' : Ledger}
    (hp : L.PartlyRolledBack r L') (hcut : ∀ key, L'.history key = upTo r (L.history key)) :
    (L'.setIndexed r).Follows prog start (chain.take (r+1-start)) := by
  obtain ⟨blocks,hblocks,hhist⟩ := hL.indexes
  have hne : chain ≠ [] := by
    intro h
    rw [h, List.length_nil] at hhi
    omega
  have hr : r<2^32 := by
    have hlt := hL.firm.indexed _ (hL.tip hne)
    omega
  have hlen : (chain.take (r+1-start)).length = r+1-start := by simp; omega
  refine ⟨hL.firm.rolledBack hr hp hcut,⟨_,hblocks.take (r+1-start),fun key => ?_⟩,?_,?_,?_,?_⟩
  · show L'.history key = _
    rw [hcut, ← writesOf_upTo, ← hhist]
  · intro _
    rw [hlen]
    show some r = _
    congr 1
    omega
  · intro _
    obtain ⟨t,ht,htip,hle⟩ := hL.runtimeTip hne
    exact ⟨t,ht,hp.tip.trans htip,by omega⟩
  · intro hnil
    rw [hnil, List.length_nil] at hlen
    omega
  · intro i b hb
    rw [List.getElem?_take] at hb
    split_ifs at hb with hi
    have hsame : L'.hash (start+i) = L.hash (start+i) := by
      rcases hp.hash (start+i) with h | ⟨hgt,_⟩
      · exact h
      · omega
    exact hsame.trans (hL.hash i b hb)

/-- A cut of a part of a rollback is a cut. -/
theorem cut_of_partly {L₁ L' : Ledger} (hp : L.PartlyRolledBack r L₁)
    (hcut : ∀ key, L'.history key = upTo r (L₁.history key)) (key : Bytes) :
    L'.history key = upTo r (L.history key) := by
  rw [hcut]
  rcases hp.history key with h | h
  · rw [h]
  · rw [h, upTo_upTo_of_le le_rfl]

/-- A rollback that has been completed after some crashes follows the beginning of the chain. -/
theorem rollback (hL : L.Follows prog start chain) (hσ : Represents σ L) (hlo : start ≤ r)
    (hhi : r < start+chain.length) {σ'' : Store} (hcrash : Prog.Interrupted (rollbackToHeight r) σ σ')
    (hx : (rollbackToHeight r).exec σ' = .ok ((),σ'')) :
    ∃ L', Represents σ'' L' ∧ L'.Follows prog start (chain.take (r+1-start)) := by
  obtain ⟨L₁,hp₁,hσ'⟩ := hL.firm.interrupted (fun _ _ _ _ h hσ hj => rollbackToHeight_crashed h hσ hj) hσ hcrash
  have hne : chain ≠ [] := by
    intro h
    rw [h, List.length_nil] at hhi
    omega
  have hlt := hL.firm.indexed _ (hL.tip hne)
  obtain ⟨L₂,hrep,hend,hcut,_⟩ := (hL.firm.partly hp₁).rollback hσ' (by omega) hx
  exact ⟨L₂.setIndexed r,hrep,hL.cut hlo hhi (hp₁.trans hend.partly) (cut_of_partly hp₁ hcut)⟩

/-- So does the rollback tool. -/
theorem rollbackTool (hL : L.Follows prog start chain) (hσ : Represents σ L) {σ'' : Store}
    {args : RockshrewRollback.Args} {confirmation : Except String Bool} (hlo : start ≤ args.height)
    (hhi : args.height < start+chain.length)
    (hyes : RockshrewRollback.confirmed args confirmation = .ok true)
    (hcrash : Prog.Interrupted (RockshrewRollback.main args confirmation) σ σ')
    (hx : (RockshrewRollback.main args confirmation).exec σ' = .ok ((),σ'')) :
    ∃ L', Represents σ'' L' ∧ L'.Follows prog start (chain.take (args.height+1-start)) := by
  obtain ⟨L₁,hp₁,hσ'⟩ := hL.firm.interrupted
    (fun _ _ _ _ h hσ hj => RockshrewRollback.main_crashed h hσ hyes hj) hσ hcrash
  obtain ⟨L₂,hrep,hp₂,hcut⟩ := RockshrewRollback.main_exec (hL.firm.partly hp₁) hσ' hyes hx
  exact ⟨L₂.setIndexed args.height,hrep,hL.cut hlo hhi (hp₁.trans hp₂) (cut_of_partly hp₁ hcut)⟩

/-- The tip as the storage tells it: the height of the last block, or 0. -/
theorem getIndexedHeight (hL : L.Follows prog start chain) (hσ : Represents σ L) :
    Metashrew.getIndexedHeight σ = if chain = [] then 0 else start+chain.length-1 := by
  rw [hL.firm.getIndexedHeight hσ]
  split_ifs with hnil
  · exact (hL.fresh hnil).1
  · rw [hL.tip hnil]
    rfl

/-- Both pointers set to the tip. -/
theorem setPointers (hL : L.Follows prog start chain) {s : Nat} (hs : L.indexed.getD 0 = s) :
    ((L.setIndexed s).setTip s).Follows prog start chain := by
  have hlt : s<2^32 := by
    cases hi : L.indexed with
    | none =>
      rw [hi, Option.getD_none] at hs
      omega
    | some i =>
      rw [hi, Option.getD_some] at hs
      exact hs ▸ hL.firm.indexed i hi
  obtain ⟨⟨n,hn,hsound⟩,hcov,_,hbelow,hfirst⟩ := hL.firm
  refine ⟨⟨⟨n,hn,{ hsound with }⟩,hcov,?_,?_,hfirst⟩,hL.indexes,?_,?_,?_,hL.hash⟩
  · intro i hi
    cases hi
    exact hlt
  · intro key e he
    exact (hbelow key e he).trans hs.le
  · intro hne
    rw [hL.tip hne, Option.getD_some] at hs
    show some s = _
    rw [hs]
  · intro hne
    have hpos := List.length_pos_iff.mpr hne
    rw [hL.tip hne, Option.getD_some] at hs
    exact ⟨s,hlt,rfl,by omega⟩
  · intro hnil
    obtain ⟨hi,hh⟩ := hL.fresh hnil
    exact ⟨hs.symm.trans hi,hh⟩

/-- A part of a rollback to the tip or above takes nothing away. -/
theorem partly_tip {L' : Ledger} (hL : L.Follows prog start chain) (hs : L.indexed.getD 0 = r)
    (hp : L.PartlyRolledBack r L') : L'.Follows prog start chain := by
  have hsame : ∀ key, L'.history key = L.history key := by
    intro key
    rcases hp.history key with h | h
    · exact h
    · rw [h, upTo_of_le fun e he => hs ▸ hL.firm.below key e he]
  obtain ⟨blocks,hblocks,hhist⟩ := hL.indexes
  refine ⟨hL.firm.partly hp,⟨blocks,hblocks,fun key => (hsame key).trans (hhist key)⟩,?_,?_,?_,?_⟩
  · exact fun hne => hp.indexed.trans (hL.tip hne)
  · intro hne
    obtain ⟨t,ht,htip,hle⟩ := hL.runtimeTip hne
    exact ⟨t,ht,hp.tip.trans htip,hle⟩
  · intro hnil
    obtain ⟨hi,hh⟩ := hL.fresh hnil
    refine ⟨hp.indexed ▸ hi,?_⟩
    rcases hp.hash 0 with h | ⟨_,h⟩
    · exact h.trans hh
    · exact h
  · intro i b hb
    have hi : i<chain.length := (List.getElem?_eq_some_iff.mp hb).1
    have hne : chain ≠ [] := List.length_pos_iff.mp (by omega)
    rw [hL.tip hne, Option.getD_some] at hs
    rcases hp.hash (start+i) with h | ⟨hgt,_⟩
    · exact h.trans (hL.hash i b hb)
    · omega

section Heal

variable {node : BitcoinNodeAdapter} {config : SyncConfig} {s : Nat} {o : StartupHealOutcome}

/-- The heal of a restart follows the beginning of the chain up to the height it settles on. -/
theorem healed (hL : L.Follows prog start chain) (hσ : Represents σ L) (hlo : chain = [] ∨ start ≤ s)
    {σ'' : Store} (hcrash : Prog.Interrupted (rollbackToHeight s) σ σ')
    (hc : (healPointerDivergenceAtStartup node config).exec σ' = .ok ((s,o),σ'')) :
    ∃ L', Represents σ'' L' ∧ L'.Follows prog start (chain.take (s+1-start)) := by
  obtain ⟨L₁,hp₁,hσ₁⟩ := hL.firm.interrupted (fun _ _ _ _ h hσ hj => rollbackToHeight_crashed h hσ hj) hσ hcrash
  have hcur : Metashrew.getIndexedHeight σ' = L.indexed.getD 0 := by
    rw [(hL.firm.partly hp₁).getIndexedHeight hσ₁, hp₁.indexed]
  have hpointers : ∀ (τ : Store) (L' : Ledger), Represents τ L' →
      Represents (KV.write τ [.put indexedHeightKey (u32le s),.put tipHeightKey (u32le s)])
        ((L'.setIndexed s).setTip s) := fun τ L' h => (h.setIndexed s).setTip s
  obtain ⟨_,hle,hcases⟩ := heal_cases hc
  rw [hcur] at hle
  by_cases hs : s = L.indexed.getD 0
  · have hL₁ := hL.partly_tip hs.symm hp₁
    have hall : chain.take (s+1-start) = chain := by
      by_cases hnil : chain = []
      · rw [hnil, List.take_nil]
      · have hpos := List.length_pos_iff.mpr hnil
        rw [hL.tip hnil, Option.getD_some] at hs
        exact List.take_of_length_le (by omega)
    rw [hall]
    rcases hcases with ⟨rfl,_⟩ | hheal
    · exact ⟨L₁,hσ₁,hL₁⟩
    · rcases healPointersAtomic_cases (hle.trans_eq hcur.symm) hheal with ⟨rfl,_⟩ | ⟨τ,⟨rfl,_⟩ | ⟨hlt,_⟩,rfl⟩
      · exact ⟨L₁,hσ₁,hL₁⟩
      · exact ⟨_,hpointers _ L₁ hσ₁,hL₁.setPointers (hp₁.indexed ▸ hs.symm)⟩
      · rw [hcur] at hlt
        omega
  · have hlt : s < L.indexed.getD 0 := by omega
    have hne : chain ≠ [] := by
      intro hnil
      rw [(hL.fresh hnil).1] at hlt
      omega
    have htip := hL.tip hne
    have hbound := hL.firm.indexed _ htip
    rw [htip, Option.getD_some] at hlt
    have hlo := hlo.resolve_left hne
    rcases hcases with ⟨_,hs',_⟩ | hheal
    · rw [hcur] at hs'
      exact absurd hs' hs
    · rcases healPointersAtomic_cases (hle.trans_eq hcur.symm) hheal with ⟨_,hs',_⟩ | ⟨τ,⟨_,hs'⟩ | ⟨_,hx⟩,rfl⟩
      · rw [hcur] at hs'
        exact absurd hs' hs
      · rw [hcur] at hs'
        exact absurd hs' hs
      · obtain ⟨L₂,hrep,hend,hcut,_⟩ := (hL.firm.partly hp₁).rollback hσ₁ (by omega) hx
        have hL₂ := hL.cut hlo (by omega) (hp₁.trans hend.partly) (cut_of_partly hp₁ hcut)
        exact ⟨_,hpointers _ _ hrep,hL₂.setPointers rfl⟩

end Heal

/-- The state root that a restart records below the first block says nothing of the blocks. -/
theorem initialStateRoot (hL : L.Follows prog start chain) (hσ : Represents σ L) {config : SyncConfig}
    (hstart : config.startBlock = start) (h32 : start<2^32)
    (hc : (storeInitialStateRoot config (Metashrew.getIndexedHeight σ)).exec σ = .ok ((),σ')) :
    ∃ L', Represents σ' L' ∧ L'.Follows prog start chain := by
  rw [storeInitialStateRoot, hstart] at hc
  split_ifs at hc with h0
  · rw [Prog.exec_bind (a := getSmtRootAtHeight (rocksDB σ) (start-1)) (t := σ) rfl] at hc
    cases hroot : getSmtRootAtHeight (rocksDB σ) (start-1) with
    | ok root =>
      rw [hroot] at hc
      cases hc
      exact ⟨L,hσ,hL⟩
    | error e =>
      rw [hroot] at hc
      cases hc
      refine ⟨_,hσ.setRoot (start-1) rfl,?_⟩
      obtain ⟨⟨n,hn,hsound⟩,hcov,hi,hbelow,hfirst⟩ := hL.firm
      have hsound' : (L.setRoot (start-1) (some (List.replicate 32 0))).Sound (max n start) := by
        refine ⟨hsound.reserved,hsound.ordered,fun key e he => ?_,hsound.short,hsound.sized,fun h hh => ?_⟩
        · exact (hsound.below key e he).trans_le (le_max_left _ _)
        · have hne : h ≠ start-1 := by omega
          obtain ⟨hr,hm,hb⟩ := hsound.unwritten h (by omega)
          exact ⟨(Function.update_of_ne hne _ _).trans hr,hm,hb⟩
      exact ⟨⟨⟨_,by omega,hsound'⟩,hcov,hi,hbelow,hfirst⟩,hL.indexes,hL.tip,hL.runtimeTip,hL.fresh,hL.hash⟩
  · cases hc
    exact ⟨L,hσ,hL⟩

end Ledger.Follows

end Metashrew
