import Metashrew.Ledger.Histories
import Metashrew.Storage.Overlay

namespace Metashrew

open Bytes Versioned

def RocksDBRuntimeAdapter.reads (label : Bytes) (a : RocksDBRuntimeAdapter) (σ : Heap) :
    KeyValueStoreLike where
  getImmutable key := .ok (a.getImmutable label σ key)
  scanPrefix pre := .ok (a.scanPrefix label σ pre)

/-- What a host function reads; a missing value is an empty one. -/
def getValueAtHeight (db : KeyValueStoreLike) (key : Bytes) (height : Nat) : Except Fault Bytes :=
  match getAtHeight db key height with
  | .ok (some value) => .ok value
  | .ok none => .ok []
  | .error (.message e) => .error (.message s!"Append-only query error: {e}")
  | .error (.panic e) => .error (.panic e)

/-- What a view reads for a key in a preview whose block flushes `keyValues`. The block is run at the
next height on an isolated copy without an armed slot, and the view reads at that height. -/
def previewRead (a : RocksDBRuntimeAdapter) (σ : Heap) (keyValues : List (Bytes × Bytes))
    (height : Nat) (key : Bytes) : Except Fault Bytes := do
  let copy := a.createIsolatedCopy σ
  let previewHeight ← addU32 height 1
  let built ← buildStateRootBatchUnwritten (copy.1.reads [] copy.2) previewHeight keyValues
  let τ ← copy.1.write [] copy.2 built.2
  getValueAtHeight (copy.1.reads [] τ) key previewHeight

theorem copy_reads (a : RocksDBRuntimeAdapter) (σ : Heap) (calls : List WriteCall) :
    ((a.createIsolatedCopy σ).1.reads [] (a.copyRun [] σ calls)).getImmutable =
      (rocksDB (KV.write (a.lookedUp σ) (calls.flatMap (WriteCall.ops [])))).getImmutable := by
  funext key
  exact congrArg Except.ok (a.copy_getImmutable [] σ calls key)

/-- On an isolated copy a preview reads like on a plain store. -/
theorem previewRead_eq (a : RocksDBRuntimeAdapter) (σ : Heap) (kvs : List (Bytes × Bytes))
    {height : Nat} (hh : height+1<2^32) {root : Bytes} {ops : List Op}
    (hb : buildStateRootBatchUnwritten (rocksDB (a.lookedUp σ)) (height+1) kvs = .ok (root,ops))
    (key : Bytes) :
    previewRead a σ kvs height key =
      getValueAtHeight (rocksDB (KV.write (a.lookedUp σ) ops)) key (height+1) := by
  have hbuilt : buildStateRootBatchUnwritten
      ((a.createIsolatedCopy σ).1.reads [] (a.createIsolatedCopy σ).2) (height+1) kvs =
        .ok (root,ops) := by
    rw [← hb]
    exact build_congr (copy_reads a σ []) (height+1) kvs
  have hwrite : (a.createIsolatedCopy σ).1.write [] (a.createIsolatedCopy σ).2 ops =
      .ok (a.copyRun [] σ [.write ops]) := by
    rw [RocksDBRuntimeAdapter.copyRun, Backend.runCalls, Backend.call, rocksDBBatch_nil]
    rfl
  have hread : searchUpdates ((a.createIsolatedCopy σ).1.reads [] (a.copyRun [] σ [.write ops])) key
      (height+1) = searchUpdates (rocksDB (KV.write (a.lookedUp σ) ops)) key (height+1) := by
    have hreads := congrFun (copy_reads a σ [.write ops])
    rw [searchUpdates_congr (hreads _) fun i => hreads _, List.flatMap_singleton]
    rw [WriteCall.ops, rocksDBBatch_nil]
  rw [previewRead, addU32, if_pos hh]
  show (do
    let built ← buildStateRootBatchUnwritten
      ((a.createIsolatedCopy σ).1.reads [] (a.createIsolatedCopy σ).2) (height+1) kvs
    let τ ← (a.createIsolatedCopy σ).1.write [] (a.createIsolatedCopy σ).2 built.2
    getValueAtHeight ((a.createIsolatedCopy σ).1.reads [] τ) key (height+1)) = _
  rw [hbuilt]
  show (do
    let τ ← (a.createIsolatedCopy σ).1.write [] (a.createIsolatedCopy σ).2 ops
    getValueAtHeight ((a.createIsolatedCopy σ).1.reads [] τ) key (height+1)) = _
  rw [hwrite]
  show getValueAtHeight _ key (height+1) = _
  rw [getValueAtHeight, getAtHeight, hread]
  rfl

section Law

variable {a : RocksDBRuntimeAdapter} {σ : Heap} {blocks : List Block} {f : Flush} {h : Nat}

/-- A view in a preview at `h` reads the last flushed value of each key, and else the value that the
key has at `h`. -/
def PreviewAgrees (a : RocksDBRuntimeAdapter) (σ : Heap) (blocks : List Block) (f : Flush) (h : Nat) :
    Prop :=
  ∀ key, ¬Reserved key → previewRead a σ f.list h key =
    .ok (((updatesOf key f.list).getLast?.or (lastWrite blocks h key)).getD [])

/-- The search passes from the entries up to the height over the later ones to the flushed ones. -/
def PassesLater (blocks : List Block) (f : Flush) (h : Nat) (key : Bytes) : Bool :=
  Search.skipsGap (updateCount key (blocks.take (h+2))) (updateCount key blocks)
    (updateCount key blocks+(updatesOf key f.list).length)
    (updateCount key blocks+(updatesOf key f.list).length) 0

/-- The next block of the chain changes no key that the previewed block leaves, and for a key that it
writes the later updates are passed over or the next block has the same value. -/
def PreviewFits (blocks : List Block) (f : Flush) (h : Nat) : Prop :=
  ∀ key, ¬Reserved key →
    match (updatesOf key f.list).getLast? with
    | none => (lastWrite blocks (h+1) key).getD [] = (lastWrite blocks h key).getD []
    | some v => PassesLater blocks f h key = true ∨ (lastWrite blocks (h+1) key).getD [] = v

theorem upTo_writesOf_length (key : Bytes) (blocks : List Block) (h : Nat) :
    (upTo h (writesOf key 0 blocks)).length = updateCount key (blocks.take (h+1)) := by
  rw [writesOf_upTo, Nat.sub_zero, writesOf_length]

/-- What the view finds in a preview, at any height of the chain. -/
theorem previewRead_spec (hlen : blocks.length<2^32) (hh : h<blocks.length)
    (hcount : ∀ key, updateCount key blocks+(updatesOf key f.list).length≤2^31)
    (hc : commitBlocks 0 ∅ blocks = .ok (a.lookedUp σ)) {key : Bytes} (hk : ¬Reserved key) :
    previewRead a σ f.list h key =
      .ok ((if PassesLater blocks f h key then (updatesOf key f.list).getLast?.or
        (lastWrite blocks (h+1) key) else lastWrite blocks (h+1) key).getD []) := by
  have hσ := commitBlocks_ofBlocks_histories hc
  have hH : ∀ key, ((Ledger.ofBlocks 0 blocks).appendAll (h+1) f.list).history key =
      writesOf key 0 blocks ++ (updatesOf key f.list).map fun v => (h+1,v) := by
    intro key
    rw [Ledger.appendAll_history, Ledger.ofBlocks_history]
  have hshort : ∀ key, (((Ledger.ofBlocks 0 blocks).appendAll (h+1) f.list).history key).length<2^32 := by
    intro key
    have hk := hcount key
    rw [hH, List.length_append, writesOf_length, List.length_map]
    omega
  obtain ⟨root,ops,hb⟩ := build_total hσ hshort
  have hbound : ∀ e ∈ writesOf key 0 blocks, e.1<2^32 := by
    intro e he
    have hlt := writesOf_lt he
    omega
  have hhist := (build_histories hσ (fun key => by
    have hk := hcount key
    rw [Ledger.ofBlocks_history, writesOf_length]
    omega) hb).1.hasHistory (.inl hk)
  rw [hH] at hhist
  have hsearch : searchUpdates (rocksDB (KV.write (a.lookedUp σ) ops)) key (h+1) =
      .ok (if PassesLater blocks f h key then (updatesOf key f.list).getLast?.or
        (lastWrite blocks (h+1) key) else lastWrite blocks (h+1) key) := by
    have hkey := hcount key
    cases hvs : updatesOf key f.list with
    | nil =>
      rw [hvs, List.map_nil, List.append_nil] at hhist
      rw [hhist.searchUpdates (writesOf_ordered key 0 blocks) hbound (by rw [writesOf_length]; omega),
        asOf_writesOf]
      simp
    | cons v vs =>
      have hne : updatesOf key f.list≠[] := by rw [hvs]; exact List.cons_ne_nil v vs
      rw [hhist.searchUpdates_behind (writesOf_ordered key 0 blocks) hbound (by omega)
        (by rw [writesOf_length]; exact hkey) hne, asOf_writesOf, writesOf_length,
        upTo_writesOf_length, ← hvs]
      rw [List.getLast?_eq_some_getLast hne, Option.some_or]
      rfl
  rw [previewRead_eq a σ f.list (by omega) hb key, getValueAtHeight, getAtHeight, hsearch]
  cases (if PassesLater blocks f h key then (updatesOf key f.list).getLast?.or
    (lastWrite blocks (h+1) key) else lastWrite blocks (h+1) key) <;> rfl

/-- At the tip there is no later block and no later update, so every preview fits. -/
theorem previewFits_tip (blocks : List Block) (f : Flush) (hh : blocks.length = h+1) :
    PreviewFits blocks f h := by
  intro key _
  have hnext : lastWrite blocks (h+1) key = lastWrite blocks h key := by
    rw [lastWrite, lastWrite, List.take_of_length_le (by omega), List.take_of_length_le (by omega)]
  cases hv : (updatesOf key f.list).getLast? with
  | none => exact congrArg (Option.getD · []) hnext
  | some v =>
    have hpos : 0<(updatesOf key f.list).length := by
      apply List.length_pos_iff.mpr
      intro hnil
      rw [hnil] at hv
      cases hv
    left
    rw [PassesLater, List.take_of_length_le (by omega)]
    exact Search.skipsGap_self (by omega) _ 0 (by omega) (Nat.zero_le _)

/-- A preview at `h` shows the block applied to the chain up to `h` exactly when it fits: the blocks
above `h` stay in the store, and the block after `h` is read as well. -/
theorem preview_agrees_iff (hlen : blocks.length<2^32) (hh : h<blocks.length)
    (hcount : ∀ key, updateCount key blocks+(updatesOf key f.list).length≤2^31)
    (hc : commitBlocks 0 ∅ blocks = .ok (a.lookedUp σ)) :
    PreviewAgrees a σ blocks f h ↔ PreviewFits blocks f h := by
  apply forall_congr'
  intro key
  apply imp_congr_right
  intro hk
  rw [previewRead_spec hlen hh hcount hc hk, Except.ok.injEq]
  cases hv : (updatesOf key f.list).getLast? with
  | none => simp
  | some v => by_cases hp : PassesLater blocks f h key <;> simp [hp]

end Law

/-- Three blocks, of which the first and the last write two keys. -/
private def twoKeyBlocks : List Block :=
  [⟨⟨[(ascii "a",[1]),(ascii "b",[5])],by decide⟩,[7],[8]⟩,⟨.nil,[9],[10]⟩,
    ⟨⟨[(ascii "a",[3]),(ascii "b",[6])],by decide⟩,[11],[12]⟩]

/-- A block that writes the first key twice and leaves the second. -/
private def rewritten : Flush := ⟨[(ascii "a",[8]),(ascii "a",[9])],by decide⟩

private theorem rewritten_fits : PreviewFits twoKeyBlocks rewritten 0 := by
  intro key _
  by_cases hk : key = ascii "a"
  · subst hk
    exact .inl (by decide +kernel)
  · have hleaves : updatesOf key rewritten.list = [] := by
      rw [updatesOf_eq_nil]
      simp [rewritten, Ne.symm hk]
    have hnext : lastWrite twoKeyBlocks 1 key = lastWrite twoKeyBlocks 0 key := by
      simp [lastWrite, twoKeyBlocks, updatesOf]
    rw [hleaves]
    exact congrArg (Option.getD · []) hnext

/-- A preview below the tip: the search passes over the later entries of the first key, and the
second key reads as at the height. -/
theorem preview_agrees_below_tip :
    ∃ τ, commitBlocks 0 ∅ twoKeyBlocks = .ok τ ∧
      PreviewAgrees (RocksDBRuntimeAdapter.deepCopy τ).1 (RocksDBRuntimeAdapter.deepCopy τ).2 twoKeyBlocks
        rewritten 0 := by
  have hrun : (commitBlocks 0 ∅ twoKeyBlocks).toOption.isSome = true := by decide +kernel
  cases hτ : commitBlocks 0 ∅ twoKeyBlocks with
  | error e => rw [hτ] at hrun; cases hrun
  | ok τ =>
    refine ⟨τ,rfl,?_⟩
    apply (preview_agrees_iff (by decide) (by decide) ?_ hτ).mpr rewritten_fits
    intro key
    have h1 := updateCount_le key twoKeyBlocks
    have h2 := updatesOf_length_le key rewritten.list
    have h3 : (twoKeyBlocks.map fun b => b.flush.list.length).sum = 4 := rfl
    have h4 : rewritten.list.length = 2 := rfl
    omega

private def previewed : Flush := .single 'a' [9]

/-- Four blocks, of which all but the second write the key. -/
private def laterBlocks : List Block :=
  [⟨.single 'a' [1],[7],[8]⟩,⟨.nil,[9],[10]⟩,
    ⟨.single 'a' [2],[11],[12]⟩,⟨.single 'a' [3],[13],[14]⟩]

/-- In a preview at height 0 of four blocks the view does not find what the previewed block wrote. -/
theorem preview_misses_its_block :
    ∃ τ, commitBlocks 0 ∅ laterBlocks = .ok τ ∧
      ¬PreviewAgrees (RocksDBRuntimeAdapter.deepCopy τ).1 (RocksDBRuntimeAdapter.deepCopy τ).2
        laterBlocks previewed 0 := by
  have hrun : (commitBlocks 0 ∅ laterBlocks).toOption.any (fun τ =>
      (previewRead (RocksDBRuntimeAdapter.deepCopy τ).1 (RocksDBRuntimeAdapter.deepCopy τ).2
        previewed.list 0 (ascii "a")).toOption == some [1]) = true := by decide +kernel
  cases hτ : commitBlocks 0 ∅ laterBlocks with
  | error e => rw [hτ] at hrun; cases hrun
  | ok τ =>
    refine ⟨τ,rfl,?_⟩
    intro hagree
    rw [hτ] at hrun
    have hread := hagree (ascii "a") (by decide)
    have hval : (((updatesOf (ascii "a") previewed.list).getLast?.or
        (lastWrite laterBlocks 0 (ascii "a"))).getD []) = [9] := by decide +kernel
    rw [hval] at hread
    have hone : (previewRead (RocksDBRuntimeAdapter.deepCopy τ).1
        (RocksDBRuntimeAdapter.deepCopy τ).2 previewed.list 0 (ascii "a")).toOption = some [1] :=
      eq_of_beq hrun
    rw [hread] at hone
    cases hone

end Metashrew
