import Metashrew.Ledger.Commit

namespace Metashrew

open Bytes Durable Versioned

/-- One block as the sync engine commits it: the flush of the guest, the block hash of the node and
the state root computed for it. -/
structure Block where
  flush : Flush
  hash : Bytes
  stateRoot : Bytes

/-- Builds the batch of a block and commits it. -/
def commitBlock (σ : Store) (height : Nat) (b : Block) : Except Fault Store := do
  let built ← buildStateRootBatchUnwritten (rocksDB σ) height b.flush.list
  let done ← (commitAtomic height b.hash b.stateRoot built.2).exec σ
  return done.2

/-- Commits blocks in order from height `start` on. -/
def commitBlocks (start : Nat) (σ : Store) : List Block → Except Fault Store
  | [] => .ok σ
  | b::bs => do commitBlocks (start+1) (← commitBlock σ start b) bs

/-- No flush writes a key whose records collide with internal names. -/
def PlainKeys (blocks : List Block) : Prop := ∀ b ∈ blocks, ∀ kv ∈ b.flush.list, ¬Reserved kv.1

/-- The updates of one key by a list of blocks, with their heights. -/
def writesOf (key : Bytes) (start : Nat) : List Block → History Nat Bytes
  | [] => []
  | b::bs => (updatesOf key b.flush.list).map (fun v => (start,v)) ++ writesOf key (start+1) bs

theorem mem_writesOf {key : Bytes} {start : Nat} {blocks : List Block} {e : Nat × Bytes}
    (he : e ∈ writesOf key start blocks) :
    start≤e.1 ∧ ∃ b, blocks[e.1-start]? = some b ∧ e.2 ∈ updatesOf key b.flush.list := by
  induction blocks generalizing start with
  | nil => cases he
  | cons b bs ih =>
    rcases List.mem_append.mp he with h | h
    · obtain ⟨v,hv,rfl⟩ := List.mem_map.mp h
      exact ⟨le_rfl,b,by simp,hv⟩
    · obtain ⟨hle,b',hb',hv⟩ := ih h
      refine ⟨by omega,b',?_,hv⟩
      have hi : e.1-start = (e.1-(start+1))+1 := by omega
      rw [hi, List.getElem?_cons_succ]
      exact hb'

theorem writesOf_lt {key : Bytes} {start : Nat} {blocks : List Block} {e : Nat × Bytes}
    (he : e ∈ writesOf key start blocks) : e.1<start+blocks.length := by
  obtain ⟨hle,b,hb,_⟩ := mem_writesOf he
  have hlt := (List.getElem?_eq_some_iff.mp hb).1
  omega

theorem writesOf_ordered (key : Bytes) (start : Nat) (blocks : List Block) :
    Ordered (writesOf key start blocks) := by
  induction blocks generalizing start with
  | nil => exact .nil
  | cons b bs ih =>
    refine Ordered.append ?_ (ih (start+1)) ?_
    · exact List.pairwise_map.mpr (List.pairwise_of_forall fun _ _ => le_rfl)
    · intro a ha e he
      obtain ⟨v,_,rfl⟩ := List.mem_map.mp ha
      exact le_trans (Nat.le_succ start) (mem_writesOf he).1

theorem writesOf_append (key : Bytes) (start : Nat) (xs ys : List Block) :
    writesOf key start (xs ++ ys) = writesOf key start xs ++ writesOf key (start+xs.length) ys := by
  induction xs generalizing start with
  | nil => simp [writesOf]
  | cons b bs ih =>
    have hlen : start+1+bs.length = start+(b::bs).length := by simp; omega
    rw [List.cons_append, writesOf, ih, writesOf, List.append_assoc, hlen]

/-- The updates up to height `h` are those of the blocks up to `h`. -/
theorem writesOf_upTo (key : Bytes) (start h : Nat) (blocks : List Block) :
    upTo h (writesOf key start blocks) = writesOf key start (blocks.take (h+1-start)) := by
  conv_lhs => rw [← List.take_append_drop (h+1-start) blocks]
  rw [writesOf_append, upTo_append, upTo_of_le, upTo_of_gt, List.append_nil]
  · intro e he
    have hle := (mem_writesOf he).1
    by_cases hd : h+1-start≤blocks.length
    · rw [List.length_take, min_eq_left hd] at hle
      omega
    · rw [List.drop_eq_nil_of_le (by omega)] at he
      cases he
  · intro e he
    have hlt := writesOf_lt he
    rw [List.length_take] at hlt
    have hge := (mem_writesOf he).1
    omega

namespace Ledger

/-- The ledger after one more block. -/
def block (L : Ledger) (h : Nat) (b : Block) : Ledger where
  history key := L.history key ++ (updatesOf key b.flush.list).map fun v => (h,v)
  root := Function.update L.root h (some b.stateRoot)
  manifest := if b.flush.list = [] then L.manifest
    else Function.update L.manifest h (some b.flush.keys)
  hash := Function.update L.hash h (some b.hash)
  tip := some h
  indexed := some h

def run (start : Nat) (L : Ledger) : List Block → Ledger
  | [] => L
  | b::bs => run (start+1) (L.block start b) bs

/-- The ledger of a chain of blocks from height `start` on. -/
def ofBlocks (start : Nat) (blocks : List Block) : Ledger := run start .empty blocks

/-- The state root of the batch is replaced by the one committed with it. -/
theorem commit_flush (L : Ledger) (h : Nat) (b : Block) (root : Bytes) :
    (L.flush h b.flush.list root).commit h b.hash b.stateRoot = L.block h b := by
  have hhist := fun key => L.appendAll_history h b.flush.list key
  obtain ⟨hroot,hman,hhash,_⟩ := L.appendAll_frame h b.flush.list
  by_cases he : b.flush.list=[]
  · simp only [flush, commit, block, setHash, setRoot, setIndexed, setTip, he, if_true] at *
    simp [hroot, hman, hhash, ← hhist]
  · simp only [flush, commit, block, setHash, setRoot, setIndexed, setTip, setManifest, he,
      if_false, Flush.keys]
    simp [hroot, hman, hhash, ← hhist]

theorem run_append (start : Nat) (L : Ledger) (xs ys : List Block) :
    run start L (xs ++ ys) = run (start+xs.length) (run start L xs) ys := by
  induction xs generalizing start L with
  | nil => simp [run]
  | cons b bs ih =>
    have hlen : start+1+bs.length = start+(b::bs).length := by simp; omega
    rw [List.cons_append, run, ih, run, hlen]

theorem run_history (start : Nat) (L : Ledger) (blocks : List Block) (key : Bytes) :
    (run start L blocks).history key = L.history key ++ writesOf key start blocks := by
  induction blocks generalizing start L with
  | nil => simp [run, writesOf]
  | cons b bs ih => rw [run, ih, writesOf, block, List.append_assoc]

theorem ofBlocks_history (start : Nat) (blocks : List Block) (key : Bytes) :
    (ofBlocks start blocks).history key = writesOf key start blocks := by
  rw [ofBlocks, run_history]
  rfl

theorem ofBlocks_indexed (start : Nat) {blocks : List Block} {n : Nat}
    (hlen : blocks.length = n+1) : (ofBlocks start blocks).indexed = some (start+n) := by
  have hne : blocks ≠ [] := by
    intro h
    rw [h] at hlen
    cases hlen
  have hsplit := List.dropLast_append_getLast hne
  have hd : blocks.dropLast.length=n := by rw [List.length_dropLast, hlen]; rfl
  rw [ofBlocks, ← hsplit, run_append, hd]
  rfl

end Ledger

/-- The heights `commit_atomic` accepts next: any height on a fresh database, else the tip's
successor. -/
def Ledger.Accepts (L : Ledger) (h : Nat) : Prop :=
  (L.indexed.getD 0 = 0 ∧ L.hash 0 = none) ∨ (0<h ∧ L.indexed = some (h-1))

section Commit

variable {σ : Store} {L : Ledger}

theorem Represents.readPointer_indexed (hσ : Represents σ L)
    (hi : ∀ i, L.indexed = some i → i < 2^32) : getIndexedHeight σ = L.indexed.getD 0 := by
  rw [getIndexedHeight, readPointer, hσ.get_indexed]
  cases h : L.indexed with
  | none => rfl
  | some i => simp [readU32le_u32le (hi i h)]

theorem Represents.isFreshDb (hσ : Represents σ L) (hi : ∀ i, L.indexed = some i → i < 2^32) :
    isFreshDb σ = true ↔ L.indexed.getD 0 = 0 ∧ L.hash 0 = none := by
  rw [Metashrew.isFreshDb, hσ.readPointer_indexed hi, getBlockHash, hσ.get_hash]
  simp

theorem commitAtomic_eq (σ : Store) (h : Nat) (hash root : Bytes) (ops : List Op) :
    (commitAtomic h hash root ops).run σ =
      if !isFreshDb σ && h != saturatingSucc (getIndexedHeight σ) then
        ⟨[],.error (.message s!"out-of-order commit rejected: attempted height {h} but current tip is {getIndexedHeight σ} (commit_atomic only accepts height == tip + 1)")⟩
      else ⟨[KV.write σ (commitOps h hash root ops)],.ok ()⟩ := by
  rw [commitAtomic, Prog.run_read_bind, Prog.run_read_bind]
  split_ifs <;> rfl

/-- A commit of the next height is one write. -/
theorem commitAtomic_run {h : Nat} (ha : isFreshDb σ = true ∨ h = saturatingSucc (getIndexedHeight σ))
    (hash root : Bytes) (ops : List Op) :
    (commitAtomic h hash root ops).run σ = ⟨[KV.write σ (commitOps h hash root ops)],.ok ()⟩ := by
  rw [commitAtomic_eq, if_neg]
  rcases ha with hf | hh
  · simp [hf]
  · simp [← hh]

/-- All that an accepted commit can have done. -/
theorem commitAtomic_cases {σ' : Store} {h : Nat} {hash root : Bytes} {ops : List Op}
    (hc : (commitAtomic h hash root ops).exec σ = .ok ((),σ')) :
    (isFreshDb σ = true ∨ h = saturatingSucc (getIndexedHeight σ)) ∧
      σ' = KV.write σ (commitOps h hash root ops) := by
  have ha := commitAtomic_eq σ h hash root ops
  split_ifs at ha with hrej
  · rw [Prog.exec_error ha] at hc
    cases hc
  · rw [Prog.exec_ok ha] at hc
    cases hc
    simp only [Bool.and_eq_true, Bool.not_eq_true', bne_iff_ne, ne_eq, not_and, not_not] at hrej
    cases hf : isFreshDb σ with
    | true => exact ⟨.inl rfl,rfl⟩
    | false => exact ⟨.inr (hrej hf),rfl⟩

/-- All that a successful commit of a block can have done. -/
theorem commitBlock_cases {σ' : Store} {h : Nat} {b : Block} (hc : commitBlock σ h b = .ok σ') :
    ∃ root ops, buildStateRootBatchUnwritten (rocksDB σ) h b.flush.list = .ok (root,ops) ∧
      (isFreshDb σ = true ∨ h = saturatingSucc (getIndexedHeight σ)) ∧
      σ' = KV.write σ (commitOps h b.hash b.stateRoot ops) := by
  rw [commitBlock] at hc
  cases hb : buildStateRootBatchUnwritten (rocksDB σ) h b.flush.list with
  | error e => rw [hb] at hc; cases hc
  | ok built =>
    obtain ⟨root,ops⟩ := built
    rw [hb] at hc
    change (((commitAtomic h b.hash b.stateRoot ops).exec σ).bind fun done => .ok done.2) = _ at hc
    cases hx : (commitAtomic h b.hash b.stateRoot ops).exec σ with
    | error e => rw [hx] at hc; cases hc
    | ok done =>
      rw [hx] at hc
      cases hc
      obtain ⟨hacc,hw⟩ := commitAtomic_cases hx
      exact ⟨root,ops,rfl,hacc,hw⟩

/-- The three records appended to a batch. -/
theorem Represents.commitOps {ops : List Op} (hσ : Represents (KV.write σ ops) L) (h : Nat)
    (hash root : Bytes) :
    Represents (KV.write σ (commitOps h hash root ops)) (L.commit h hash root) := by
  rw [Metashrew.commitOps, KV.write_append]
  have hsplit : ∀ τ : Store, ∀ a b c : Op, KV.write τ [a,b,c] =
      KV.write (KV.write (KV.write τ [a]) [b]) [c] := fun _ _ _ _ => rfl
  rw [hsplit]
  exact ((hσ.setHash h rfl).setRoot h rfl).setIndexed h

/-- A commit that succeeds adds its block to the ledger. -/
theorem commitBlock_represents (hσ : Represents σ L) (hs : ∀ key, (L.history key).length < 2^32)
    {b : Block} (hp : ∀ kv ∈ b.flush.list, ¬Reserved kv.1) {h : Nat} {σ' : Store}
    (hc : commitBlock σ h b = .ok σ') :
    Represents σ' (L.block h b) ∧ ∀ key, ((L.block h b).history key).length < 2^32 := by
  obtain ⟨root,ops,hb,_,rfl⟩ := commitBlock_cases hc
  obtain ⟨hr,hshort⟩ := build_represents hσ hs hp hb
  have hrep := hr.commitOps h b.hash b.stateRoot
  rw [Ledger.commit_flush] at hrep
  refine ⟨hrep,fun key => ?_⟩
  rw [← Ledger.commit_flush L h b root]
  exact hshort key

/-- The next block commits when the lengths still fit 32 bits. -/
theorem commitBlock_total (hσ : Represents σ L) {b : Block} {h : Nat} (hh : h < 2^32)
    (hi : ∀ i, L.indexed = some i → i < 2^32) (ha : L.Accepts h)
    (hs : ∀ key, ((L.block h b).history key).length < 2^32) : ∃ σ', commitBlock σ h b = .ok σ' := by
  have hs' : ∀ key, ((L.appendAll h b.flush.list).history key).length < 2^32 := by
    intro key
    rw [Ledger.appendAll_history]
    exact hs key
  obtain ⟨root,ops,hb⟩ := build_total hσ.holdsHistories hs'
  have hac : Metashrew.isFreshDb σ = true ∨ h = saturatingSucc (getIndexedHeight σ) := by
    rcases ha with hf | ⟨h0,hprev⟩
    · exact .inl ((hσ.isFreshDb hi).mpr hf)
    · right
      rw [hσ.readPointer_indexed hi, hprev, saturatingSucc, Option.getD_some]
      omega
  have hrun := commitAtomic_run hac b.hash b.stateRoot ops
  refine ⟨KV.write σ (commitOps h b.hash b.stateRoot ops),?_⟩
  rw [commitBlock, hb]
  change (((commitAtomic h b.hash b.stateRoot ops).exec σ).bind fun done => .ok done.2) = _
  rw [Prog.exec_ok hrun]
  rfl

end Commit

end Metashrew
