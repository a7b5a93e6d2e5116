import Metashrew.Node.Reorg

namespace Metashrew

open Bytes Durable Versioned

/-- The values of the keys; a key that was never set has none. -/
abbrev KeyValues := Bytes → Option Bytes

namespace IndexerProgram

/-- What one block makes of the values: the program reads them, and its last flush is kept. -/
def effect (prog : IndexerProgram) (values : KeyValues) (height : Nat) (data : Bytes) : KeyValues := fun key =>
  match ((prog height data).play (fun _ key => (values key).getD []) []).emitted.getLast? with
  | none => values key
  | some f => (updatesOf key f.list).getLast?.or (values key)

/-- The values after a chain of blocks. -/
def valuesAfter (prog : IndexerProgram) : KeyValues → Nat → List NodeBlock → KeyValues
  | values, _, [] => values
  | values, height, b::bs => valuesAfter prog (prog.effect values height b.data) (height+1) bs

theorem valuesAfter_append (prog : IndexerProgram) (values : KeyValues) (height : Nat) (xs ys : List NodeBlock) :
    prog.valuesAfter values height (xs ++ ys) =
      prog.valuesAfter (prog.valuesAfter values height xs) (height+xs.length) ys := by
  induction xs generalizing values height with
  | nil => rfl
  | cons b bs ih =>
    have hlen : height+1+bs.length = height+(b::bs).length := by simp; omega
    rw [List.cons_append, valuesAfter, valuesAfter, ih, hlen]

end IndexerProgram

/-- The latest value after one more block. -/
theorem writesOf_concat_latest (key : Bytes) (start : Nat) (blocks : List Block) (b : Block) :
    (writesOf key start (blocks ++ [b])).getLast?.map Prod.snd =
      (updatesOf key b.flush.list).getLast?.or ((writesOf key start blocks).getLast?.map Prod.snd) := by
  rw [writesOf_append]
  simp only [writesOf, List.append_nil, List.getLast?_append, List.getLast?_map]
  cases (updatesOf key b.flush.list).getLast? <;> simp

/-- The latest values of the blocks that a program makes of a chain are what it computes from the chain. -/
theorem Indexes.latest {prog : IndexerProgram} {start : Nat} {chain : List NodeBlock} {blocks : List Block}
    (h : Indexes prog start chain blocks) (key : Bytes) :
    (writesOf key start blocks).getLast?.map Prod.snd =
      prog.valuesAfter (fun _ => none) start chain key := by
  induction h generalizing key with
  | nil => rfl
  | snoc root h hn hlen hs hp ih =>
    rename_i chain blocks b f
    have hread : (fun key => latestIn (fun key => writesOf key start blocks) key) =
        fun key => (prog.valuesAfter (fun _ => none) start chain key).getD [] := by
      funext key
      rw [latestIn, ih key]
    have hlast := hs.last
    change ((prog _ _).play (fun _ => fun key => latestIn (fun key => writesOf key start blocks) key)
      []).emitted.getLast? = _ at hlast
    rw [hread] at hlast
    rw [prog.valuesAfter_append, IndexerProgram.valuesAfter, IndexerProgram.valuesAfter,
      IndexerProgram.effect, hlast, ← ih key]
    exact writesOf_concat_latest key start blocks _

/-- The state at a height is what the program computes from the chain up to there: in every state that a
node reaches, with any blocks indexed and rolled back before and any blocks above. -/
theorem state_at_height {prog : IndexerProgram} {start : Nat} {s : Node} (hp : prog.Plain)
    (hs : s.Reached prog start) (hroom : Roomy s.db) (h : Nat) (key : Bytes) :
    getAtHeight (rocksDB s.db) key h =
      .ok (prog.valuesAfter (fun _ => none) start (s.chain.take (h+1-start)) key) := by
  obtain ⟨L,hσ,hL⟩ := hs.follows hp
  obtain ⟨blocks,hblocks,hhist⟩ := hL.indexes
  have hlatest := (hblocks.take (h+1-start)).latest key
  rw [hL.getAtHeight hσ hroom, asOf, hhist, writesOf_upTo, hlatest]

/-- After block 1 has been replaced, the key holds what the two blocks of the chain have appended. -/
theorem state_at_height_replaced :
    getAtHeight (rocksDB reorgedBlock.db) (ofChars ['k']) 1 = .ok (some [1,3]) :=
  (state_at_height appendProgram_plain reorgedBlock_reached
    (roomy_of_records (by decide +kernel)) 1 (ofChars ['k'])).trans (by decide +kernel)

end Metashrew
