import Metashrew.Ledger.Reads
import Metashrew.Recovery.Restore
import Metashrew.Sync.Heal

namespace Metashrew

open Bytes Durable Versioned

namespace Ledger

/-- The records of the height of every block. -/
theorem run_records (start : Nat) (L : Ledger) {blocks : List Block} {i : Nat} {b : Block}
    (hb : blocks[i]? = some b) : (run start L blocks).hash (start+i) = some b.hash ∧
      (run start L blocks).root (start+i) = some b.stateRoot ∧
      (run start L blocks).manifest (start+i) =
        if b.flush.list = [] then L.manifest (start+i) else some b.flush.keys := by
  induction blocks generalizing start L i with
  | nil => cases hb
  | cons b' bs ih =>
    rw [run]
    cases i with
    | zero =>
      obtain rfl := Option.some.inj hb
      obtain ⟨h1,h2,h3⟩ := run_frame (start+1) (L.block start b') bs (h := start) (by omega)
      rw [Nat.add_zero start, h1, h2, h3, block_manifest]
      refine ⟨Function.update_self ..,Function.update_self ..,?_⟩
      by_cases he : b'.flush.list=[] <;> simp [he]
    | succ i =>
      have hi : start+(i+1)=start+1+i := by omega
      obtain ⟨h1,h2,h3⟩ := ih (start+1) (L.block start b') hb
      have hne : ¬(start+1+i=start ∧ b'.flush.list ≠ []) := by omega
      rw [hi, h1, h2, h3, block_manifest, if_neg hne]
      exact ⟨rfl,rfl,rfl⟩

theorem run_tip (start : Nat) {L : Ledger} (blocks : List Block) (h : L.tip = L.indexed) :
    (run start L blocks).tip = (run start L blocks).indexed := by
  induction blocks generalizing start L with
  | nil => exact h
  | cons b bs ih => exact ih (start+1) rfl

end Ledger

/-- Every block above `r` leaves a manifest: the rollback to `r` takes the fast path. -/
def hasManifests (blocks : List Block) (r : Nat) : Bool :=
  (blocks.drop (r+1)).all fun b => b.flush.list ≠ []

def writtenKeys (blocks : List Block) : List Bytes :=
  blocks.flatMap fun b => b.flush.list.map Prod.fst

/-- The keys that the first `j` writes of a rollback from the tip `n` to `r` cut down to `r`: those
of the blocks undone, or one after the other behind the metadata records. -/
def cutKeys (blocks : List Block) (n r j : Nat) : List Bytes :=
  if hasManifests blocks r then writtenKeys (blocks.drop (n+1-j))
  else (KV.sortedKeys (writtenKeys blocks)).take (j-1)

section Cut

variable {blocks : List Block} {σ : Store} {n r j : Nat}

theorem mem_writtenKeys {key : Bytes} :
    key ∈ writtenKeys blocks ↔ ∃ b ∈ blocks, key ∈ b.flush.keys := by
  simp only [writtenKeys, List.mem_flatMap, List.mem_map, Flush.mem_keys]

theorem mem_drop {α : Type} {l : List α} {k : Nat} {a : α} :
    a ∈ l.drop k ↔ ∃ i, k ≤ i ∧ l[i]? = some a := by
  rw [List.mem_iff_getElem?]
  simp only [List.getElem?_drop]
  constructor
  · rintro ⟨i,hi⟩
    exact ⟨k+i,by omega,hi⟩
  · rintro ⟨i,hki,hi⟩
    refine ⟨i-k,?_⟩
    rwa [Nat.add_sub_cancel' hki]

theorem writesOf_ne_nil {key : Bytes} (start : Nat) :
    writesOf key start blocks ≠ [] ↔ key ∈ writtenKeys blocks := by
  induction blocks generalizing start with
  | nil => simp [writesOf, writtenKeys]
  | cons b bs ih =>
    have hb : updatesOf key b.flush.list ≠ [] ↔ key ∈ b.flush.list.map Prod.fst := by
      rw [Ne, updatesOf_eq_nil, List.mem_map]
      push Not
      rfl
    have hcons : writtenKeys (b::bs) = b.flush.list.map Prod.fst ++ writtenKeys bs := rfl
    rw [writesOf, hcons, List.mem_append, ← hb, ← ih (start+1), Ne, List.append_eq_nil_iff,
      List.map_eq_nil_iff]
    tauto

theorem ofBlocks_manifest {i : Nat} {b : Block} (hb : blocks[i]? = some b) :
    (Ledger.ofBlocks 0 blocks).manifest i =
      if b.flush.list = [] then none else some b.flush.keys := by
  have h := (Ledger.run_records 0 .empty hb).2.2
  rw [Nat.zero_add] at h
  exact h

/-- The path that a rollback takes, from the blocks alone. -/
theorem manifestsExist_ofBlocks (hσ : Represents σ (.ofBlocks 0 blocks))
    (hlen : blocks.length = n+1) : manifestsExist σ r n = hasManifests blocks r := by
  rw [Bool.eq_iff_iff, manifestsExist_iff hσ, hasManifests, List.all_eq_true]
  constructor
  · intro h b hb
    obtain ⟨i,hi,hget⟩ := mem_drop.mp hb
    have hlt := (List.getElem?_eq_some_iff.mp hget).1
    have hm := h i (by omega) (by omega)
    rw [ofBlocks_manifest hget] at hm
    by_contra he
    rw [decide_eq_true_eq, Ne, not_not] at he
    exact hm (if_pos he)
  · intro h i hri hin
    have hget := List.getElem?_eq_getElem (l := blocks) (i := i) (by omega)
    have hne := h _ (mem_drop.mpr ⟨i,by omega,hget⟩)
    rw [decide_eq_true_eq] at hne
    rw [ofBlocks_manifest hget, if_neg hne]
    exact Option.some_ne_none _

/-- So are the structures that the slow path works through. -/
theorem smtStructures_ofBlocks (hσ : Represents σ (.ofBlocks 0 blocks)) :
    smtStructures σ = KV.sortedKeys (writtenKeys blocks) := by
  apply KV.sortedKeys_congr
  intro key
  have h : key ∈ smtStructures σ ↔ _ := mem_smtStructures hσ
  rw [smtStructures, KV.mem_sortedKeys, Ledger.ofBlocks_history, writesOf_ne_nil] at h
  exact h

theorem heightsAbove_take (hr : r < n) (hj : j ≤ n-r) :
    (heightsAbove r n).reverse.take j = (heightsAbove (n-j) n).reverse := by
  have hlen : (heightsAbove r n).length=n-r := List.length_range' ..
  rw [List.take_reverse, hlen, heightsAbove, heightsAbove, List.drop_range']
  congr 2
  · omega
  · omega

/-- The keys in the manifests of the heights undone. -/
private theorem mem_undone (hlen : blocks.length = n+1) (hf : hasManifests blocks r = true)
    (hj : j ≤ n-r) (key : Bytes) :
    (key ∈ (heightsAbove (n-j) n).reverse.flatMap fun h =>
        ((Ledger.ofBlocks 0 blocks).manifest h).getD []) ↔ key ∈ cutKeys blocks n r j := by
  rw [cutKeys, if_pos hf, mem_writtenKeys, List.mem_flatMap]
  have hman : ∀ {i : Nat} {b : Block}, r < i → blocks[i]? = some b →
      ((Ledger.ofBlocks 0 blocks).manifest i).getD [] = b.flush.keys := by
    intro i b hi hb
    have hne := List.all_eq_true.mp hf b (mem_drop.mpr ⟨i,hi,hb⟩)
    rw [ofBlocks_manifest hb, if_neg (of_decide_eq_true hne)]
    rfl
  constructor
  · rintro ⟨h,hh,hkey⟩
    rw [List.mem_reverse, mem_heightsAbove] at hh
    have hget := List.getElem?_eq_getElem (l := blocks) (i := h) (by omega)
    rw [hman (by omega) hget] at hkey
    exact ⟨_,mem_drop.mpr ⟨h,by omega,hget⟩,hkey⟩
  · rintro ⟨b,hb,hkey⟩
    obtain ⟨i,hi,hget⟩ := mem_drop.mp hb
    have hlt := (List.getElem?_eq_some_iff.mp hget).1
    refine ⟨i,List.mem_reverse.mpr (mem_heightsAbove.mpr ⟨by omega,by omega⟩),?_⟩
    rw [hman (by omega) hget]
    exact hkey

/-- What a crash after `j` writes of a rollback from the tip `n` to `r` leaves. -/
structure CrashedAt (blocks : List Block) (n r j : Nat) (L : Ledger) : Prop where
  partly : (Ledger.ofBlocks 0 blocks).PartlyRolledBack r L
  history : ∀ key, L.history key =
    if key ∈ cutKeys blocks n r j then upTo r (writesOf key 0 blocks) else writesOf key 0 blocks
  reached : hasManifests blocks r = true → r ≤ n-j ∧ ∀ h, n-j < h → L.hash h = none
  kept : hasManifests blocks r = false → L.hash = (Ledger.ofBlocks 0 blocks).hash

theorem rollbackToHeight_crashedAt {σ' : Store} (hσ : Represents σ (.ofBlocks 0 blocks))
    (hL : (Ledger.ofBlocks 0 blocks).Sound (n+1)) (hlen : blocks.length = n+1) (hn : n<2^32)
    (hr : r < n) (hc : (rollbackToHeight r).CrashAfter σ j σ') :
    ∃ L, CrashedAt blocks n r j L ∧ Represents σ' L := by
  have hi : (Ledger.ofBlocks 0 blocks).indexed = some n := by
    rw [Ledger.ofBlocks_indexed 0 hlen, Nat.zero_add]
  have hpath := manifestsExist_ofBlocks (r := r) hσ hlen
  cases hf : hasManifests blocks r with
  | true =>
    obtain ⟨ss,hrun,hss,hpoint⟩ := rollbackToHeight_fast hσ hL (by omega) (getIndexedHeight_eq hσ hn hi) hr (hpath.trans hf)
    obtain ⟨hj,hget⟩ := hc.before_last hrun
    rw [hss] at hj
    have hrep := hpoint j σ' hget
    rw [heightsAbove_take hr hj] at hrep
    refine ⟨_,?_,hrep⟩
    constructor
    case partly =>
      apply Ledger.unwind_partly
      intro h hh
      rw [List.mem_reverse, mem_heightsAbove] at hh
      omega
    case history =>
      intro key
      rw [Ledger.unwind]
      simp only [mem_undone hlen hf hj, Ledger.ofBlocks_history]
    case reached =>
      refine fun _ => ⟨by omega,fun h hh => ?_⟩
      simp only [Ledger.unwind, List.mem_reverse, mem_heightsAbove]
      split_ifs with hle
      · rfl
      · exact (hL.unwritten h (by omega)).2.2
    case kept =>
      intro hf'
      rw [hf] at hf'
      cases hf'
  | false =>
    obtain ⟨ρ,ss,hrun,_,hss,hpoint⟩ := rollbackToHeight_slow hσ hL (by omega) (getIndexedHeight_eq hσ hn hi) hr (hpath.trans hf)
    obtain ⟨hj,hget⟩ := hc.before_last hrun
    -- The root of the tip is there, so the first write deletes metadata records.
    have hmeta : metadataKeysToDelete r σ.keys ≠ [] := by
      have hb := List.getElem?_eq_getElem (l := blocks) (i := n) (by omega)
      have hroot := (Ledger.run_records 0 .empty hb).2.1
      rw [Nat.zero_add] at hroot
      apply List.ne_nil_of_mem
      apply rootKey_mem_metadataKeys hσ hn hr
      rw [Ledger.ofBlocks, hroot]
      exact Option.some_ne_none _
    rw [if_neg hmeta] at hget
    have hslow : ∀ L : Ledger, (Ledger.ofBlocks 0 blocks).PartlyRolledBack r L →
        L.hash = (Ledger.ofBlocks 0 blocks).hash → (∀ key, L.history key =
          if key ∈ cutKeys blocks n r j then upTo r (writesOf key 0 blocks)
          else writesOf key 0 blocks) → CrashedAt blocks n r j L := by
      intro L hp hh hk
      refine ⟨hp,hk,fun hf' => ?_,fun _ => hh⟩
      rw [hf] at hf'
      cases hf'
    cases j with
    | zero =>
      obtain rfl := Option.some.inj hget
      refine ⟨_,hslow _ (.refl _ r) rfl ?_,hσ⟩
      intro key
      rw [Ledger.ofBlocks_history, cutKeys, hf]
      simp
    | succ j =>
      have hrep := hpoint j σ' hget
      rw [smtStructures_ofBlocks hσ] at hrep
      refine ⟨_,hslow (((Ledger.ofBlocks 0 blocks).dropRoots r).trimKeys r _) ?_ rfl ?_,hrep⟩
      · exact (Ledger.dropRoots_partly _ r).trans (Ledger.trimKeys_partly _ r _)
      · intro key
        rw [cutKeys, hf]
        show (if _ then upTo r ((Ledger.ofBlocks 0 blocks).history key)
          else (Ledger.ofBlocks 0 blocks).history key) = _
        rw [Ledger.ofBlocks_history]
        rfl

end Cut

/-- The two lookups and the current value give the same on every key. -/
def SameReads (σ σ' : Store) : Prop :=
  ∀ key, (∀ h, getAtHeight (rocksDB σ) key h = getAtHeight (rocksDB σ') key h ∧
      getAtHeightFast (rocksDB σ) key h = getAtHeightFast (rocksDB σ') key h) ∧
    getCurrent (rocksDB σ) key = getCurrent (rocksDB σ') key

/-- The store reads as after committing the blocks at heights 0 to `s`. -/
def ReadsAsAfter (blocks : List Block) (s : Nat) (σ : Store) : Prop :=
  ∃ σs, commitBlocks 0 ∅ (blocks.take (s+1)) = .ok σs ∧ SameReads σ σs

section Reads

variable {σ σ' : Store} {L L' : Ledger} {m m' : Nat}

/-- Reads see of a history the value at every height. -/
theorem sameReads_iff (hσ : Represents σ L) (hL : L.Sound m) (hm : m≤2^32)
    (hs : ∀ key, (L.history key).length≤2^31) (hσ' : Represents σ' L') (hL' : L'.Sound m')
    (hm' : m'≤2^32) (hs' : ∀ key, (L'.history key).length≤2^31) :
    SameReads σ σ' ↔ ∀ key h, asOf h (L.history key) = asOf h (L'.history key) := by
  have hread : ∀ key h, getAtHeight (rocksDB σ) key h = .ok (asOf h (L.history key)) :=
    fun key h => searchUpdates_spec hσ hL hm (hs key) h
  have hread' : ∀ key h, getAtHeight (rocksDB σ') key h = .ok (asOf h (L'.history key)) :=
    fun key h => searchUpdates_spec hσ' hL' hm' (hs' key) h
  constructor
  · intro hsame key h
    have hh := ((hsame key).1 h).1
    rw [hread, hread'] at hh
    exact Except.ok.inj hh
  · intro hsame key
    have heq : ∀ h, getAtHeight (rocksDB σ) key h = getAtHeight (rocksDB σ') key h := by
      intro h
      rw [hread, hread', hsame]
    refine ⟨fun h => ⟨heq h,heq h⟩,?_⟩
    have hlast := hsame key (2^32)
    have hall : upTo (2^32) (L.history key) = L.history key := by
      apply upTo_of_le
      intro e he
      have hlt := hL.below key e he
      omega
    have hall' : upTo (2^32) (L'.history key) = L'.history key := by
      apply upTo_of_le
      intro e he
      have hlt := hL'.below key e he
      omega
    rw [asOf, asOf, hall, hall'] at hlast
    rw [getCurrent_spec hσ hL, getCurrent_spec hσ' hL', hlast]

/-- The heal cuts every history at the height it returns. -/
theorem heal_upTo {node : BitcoinNodeAdapter} {config : SyncConfig} {s : Nat}
    {o : StartupHealOutcome} (hσ : Represents σ L) (hL : L.Sound (m+1)) (hcov : L.Covered)
    (hm : m<2^32) (hi : L.indexed = some m)
    (h : (healPointerDivergenceAtStartup node config).exec σ = .ok ((s,o),σ')) :
    s = healedHeight σ node config ∧ s ≤ m ∧ ∃ L', Represents σ' L' ∧ L'.Sound (m+1) ∧
      ∀ key, L'.history key = upTo s (L.history key) := by
  have hcur := getIndexedHeight_eq hσ hm hi
  obtain ⟨hs,hle,hcase⟩ := heal_cases h
  rw [hcur] at hle hcase
  refine ⟨hs,hle,?_⟩
  have hstay : s = m → ∀ key, L.history key = upTo s (L.history key) := by
    intro hsm key
    refine (upTo_of_le fun e he => ?_).symm
    have hlt := hL.below key e he
    omega
  obtain ⟨rfl,hsm,_⟩ | hheal := hcase
  · exact ⟨L,hσ,hL,hstay hsm⟩
  · obtain ⟨rfl,hsm,_⟩ | ⟨τ,hτ,rfl⟩ := healPointersAtomic_cases (hcur ▸ hle) hheal
    · exact ⟨L,hσ,hL,hstay (hsm.trans hcur)⟩
    · have hroll : ∃ L', Represents τ L' ∧ L'.Sound (m+1) ∧
          ∀ key, L'.history key = upTo s (L.history key) := by
        obtain ⟨rfl,hsm⟩ | ⟨hlt,hexec⟩ := hτ
        · exact ⟨L,hσ,hL,hstay (hsm.trans hcur)⟩
        · rw [hcur] at hlt
          obtain ⟨ss,ρ,L',hrun,_,hpart,hcut,hrep⟩ := rollbackToHeight_run hσ hL hcov hm hi s
          rw [Prog.exec_ok hrun, List.getLastD_concat] at hexec
          cases hexec
          exact ⟨_,hrep,{ hpart.sound hL with },hcut⟩
      obtain ⟨L',hrep,hsound,hcut⟩ := hroll
      refine ⟨(L'.setIndexed s).setTip s,?_,{ hsound with },hcut⟩
      exact (hrep.setIndexed s).setTip s

end Reads

/-- No read at a height up to `s` misses what was cut. -/
def CutUnseen (blocks : List Block) (n r j s : Nat) : Prop :=
  ∀ key ∈ cutKeys blocks n r j, ∀ h, r < h → h ≤ s →
    lastWrite blocks h key = lastWrite blocks r key

theorem CutUnseen.mono {blocks : List Block} {n r j s s' : Nat} (h : CutUnseen blocks n r j s)
    (hs : s' ≤ s) : CutUnseen blocks n r j s' :=
  fun key hk i hr hi => h key hk i hr (le_trans hi hs)

/-- The height up to which a cut can be seen: the startup heal notices the missing block hashes of
the fast path, and nothing else of a crash. -/
def exposedHeight (blocks : List Block) (config : SyncConfig) (n r j : Nat) : Nat :=
  if hasManifests blocks r && config.enableStartupHeal then n-j else n

/-- Whatever the node serves at the restart after a crash between `σ` and `σ'`, a heal that returns
`s` leaves the reads of the blocks 0 to `s`; and the fast path has left a clean height. -/
def Recovers (blocks : List Block) (config : SyncConfig) (n r j : Nat) (σ σ' : Store) : Prop :=
  (∀ node s o τ, (healPointerDivergenceAtStartup node config).exec σ' = .ok ((s,o),τ) →
    ReadsAsAfter blocks s τ) ∧
    (manifestsExist σ r n = true → ReadsAsAfter blocks (n-j) σ')

section Recovery

variable {blocks : List Block} {config : SyncConfig} {σ σ' τ : Store} {L L' : Ledger}
  {n r j s : Nat}

/-- With every history of the crashed ledger cut at `s`, the reads tell exactly the cut keys. -/
theorem readsAsAfter_iff (hc : commitBlocks 0 ∅ blocks = .ok σ) (hp : PlainKeys blocks)
    (hcount : ∀ key, updateCount key blocks<2^31) (hn : n<2^32) (hs : s ≤ n)
    (hL : CrashedAt blocks n r j L) (hτ : Represents τ L') (hL' : L'.Sound (n+1))
    (hcut : ∀ key, L'.history key = upTo s (L.history key)) :
    ReadsAsAfter blocks s τ ↔ CutUnseen blocks n r j s := by
  obtain ⟨σs,hσs⟩ := commitBlocks_take hc (s+1)
  obtain ⟨hrep,hsound⟩ := commitBlocks_ofBlocks (fun b hb => hp b (List.mem_of_mem_take hb)) hσs
  have htake : 0+(blocks.take (s+1)).length≤2^32 := by
    rw [List.length_take]
    omega
  have hwrites : ∀ key, (Ledger.ofBlocks 0 (blocks.take (s+1))).history key =
      upTo s (writesOf key 0 blocks) := by
    intro key
    rw [Ledger.ofBlocks_history, writesOf_upTo]
    rfl
  have hshort : ∀ (key : Bytes) (h : Nat), (upTo h (writesOf key 0 blocks)).length≤2^31 := by
    intro key h
    have hle := upTo_length_le h (writesOf key 0 blocks)
    have hlt := hcount key
    rw [writesOf_length] at hle
    omega
  have hshort' : ∀ key, (L'.history key).length≤2^31 := by
    intro key
    rw [hcut, hL.history]
    split_ifs
    · exact (upTo_length_le ..).trans (hshort key r)
    · exact hshort key s
  have hiff := sameReads_iff hτ hL' (by omega) hshort' hrep hsound htake
    fun key => (hwrites key).symm ▸ hshort key s
  have hreads : ReadsAsAfter blocks s τ ↔ SameReads τ σs := by
    constructor
    · rintro ⟨σ₁,h₁,hsame⟩
      rw [hσs] at h₁
      cases h₁
      exact hsame
    · exact fun hsame => ⟨σs,hσs,hsame⟩
  rw [hreads, hiff]
  apply forall_congr'
  intro key
  rw [hwrites, hcut, hL.history]
  split_ifs with hk
  · rw [asOf_upTo_eq_iff]
    simp only [asOf_writesOf, hk, true_implies]
  · simp only [hk, false_implies, implies_true]

/-- The heal that cannot reach the node keeps the indexed height unless the pointers differ. -/
private theorem heal_unreachable (hσ : Represents σ L) (hL : CrashedAt blocks n r j L)
    (hlen : blocks.length = n+1) (hn : n<2^32) (hr : r < n)
    (hexp : (hasManifests blocks r && config.enableStartupHeal) = false)
    (node : BitcoinNodeAdapter) (hnode : node.isConnected = false) :
    ∃ o, (healPointerDivergenceAtStartup node config).exec σ = .ok ((n,o),σ) := by
  have hi : L.indexed = some n := by
    rw [hL.partly.indexed, Ledger.ofBlocks_indexed 0 hlen, Nat.zero_add]
  have hcur := getIndexedHeight_eq hσ hn hi
  cases he : config.enableStartupHeal with
  | false =>
    refine ⟨.disabled,?_⟩
    rw [healPointerDivergenceAtStartup, he, if_pos (by decide)]
    show Except.ok ((getIndexedHeight σ,_),σ) = _
    rw [hcur]
  | true =>
    rw [he, Bool.and_true] at hexp
    have hpointers : Pointers.ofStore σ = ⟨n,n,n⟩ := by
      have htip : getRuntimeTipHeight σ = n := by
        have ht : L.tip = some n := by
          rw [hL.partly.tip, ← hi, hL.partly.indexed]
          exact Ledger.run_tip 0 blocks rfl
        rw [getRuntimeTipHeight, readPointer, hσ.get_tip, ht]
        simp [readU32le_u32le hn]
      have hhash : findMaxStoredBlockHashHeight (n-256) σ = n := by
        have hb := List.getElem?_eq_getElem (l := blocks) (i := n) (by omega)
        have hsome := (Ledger.run_records 0 .empty hb).1
        rw [Nat.zero_add] at hsome
        have hget : (getBlockHash σ n).isSome = true := by
          rw [getBlockHash, hσ.get_hash, hL.kept hexp, Ledger.ofBlocks, hsome]
          rfl
        obtain ⟨k,rfl⟩ := Nat.exists_eq_succ_of_ne_zero (by omega : n≠0)
        rw [findMaxStoredBlockHashHeight, hcur, maxBlockHashFrom, if_pos hget]
      rw [Pointers.ofStore, hcur, htip, hhash]
    have hsafe : Pointers.safe ⟨n,n,n⟩ σ node config.maxReorgDepth = n := by
      rw [Pointers.safe, hnode, if_neg (by decide)]
      simp [Pointers.candidate]
    have hzero : ((Pointers.mk n n n).allAgree && n == 0) = false := by
      rw [Bool.and_eq_false_iff]
      right
      rw [beq_eq_false_iff_ne]
      omega
    refine ⟨.alreadyConsistent n,?_⟩
    rw [healPointerDivergenceAtStartup, he, if_neg (by decide),
      Prog.exec_bind (a := Pointers.ofStore σ) (t := σ) rfl, hpointers, if_neg (by rw [hzero]; decide),
      Prog.exec_bind (a := Pointers.confirmed ⟨n,n,n⟩ σ node) (t := σ) rfl]
    have hconf : Pointers.confirmed ⟨n,n,n⟩ σ node = false := by
      rw [Pointers.confirmed, hnode]
      simp
    rw [hconf, if_neg (by decide),
      Prog.exec_bind (a := Pointers.safe ⟨n,n,n⟩ σ node config.maxReorgDepth) (t := σ) rfl, hsafe,
      if_neg (by simp)]
    rfl

theorem maxBlockHashFrom_le {σ : Store} {floor k : Nat} (h : Nat)
    (hnone : ∀ i, k < i → getBlockHash σ i = none) : maxBlockHashFrom σ floor h ≤ k := by
  induction h with
  | zero => exact Nat.zero_le k
  | succ h ih =>
    rw [maxBlockHashFrom]
    split_ifs with hsome
    · by_contra hlt
      rw [hnone (h+1) (by omega)] at hsome
      cases hsome
    · exact Nat.zero_le k
    · exact ih

/-- After the fast path the heal goes below the heights undone. -/
private theorem healedHeight_le_undone {node : BitcoinNodeAdapter} (hσ : Represents σ L)
    (hL : CrashedAt blocks n r j L) (hf : hasManifests blocks r = true)
    (he : config.enableStartupHeal = true) : healedHeight σ node config ≤ n-j := by
  apply le_trans (healedHeight_le_candidate he)
  apply le_trans (min_le_right _ _)
  apply maxBlockHashFrom_le
  intro h hh
  rw [getBlockHash, hσ.get_hash]
  exact (hL.reached hf).2 h hh

end Recovery

/-- Recovery from a crash after `j` writes of a rollback to `r`. -/
theorem crash_recovers_iff (blocks : List Block) (config : SyncConfig) (n r j : Nat) (σ σ' : Store)
    (hlen : blocks.length = n+1) (hn : n<2^32) (hr : r < n) (hp : PlainKeys blocks)
    (hcount : ∀ key, updateCount key blocks<2^31) (hc : commitBlocks 0 ∅ blocks = .ok σ)
    (hcrash : (rollbackToHeight r).CrashAfter σ j σ') :
    Recovers blocks config n r j σ σ' ↔
      CutUnseen blocks n r j (exposedHeight blocks config n r j) := by
  obtain ⟨hrep,hsound⟩ := commitBlocks_ofBlocks hp hc
  rw [hlen, Nat.zero_add] at hsound
  obtain ⟨L,hL,hσ'⟩ := rollbackToHeight_crashedAt hrep hsound hlen hn hr hcrash
  have hpath := manifestsExist_ofBlocks (r := r) hrep hlen
  have hLsound := hL.partly.sound hsound
  have hcov := hL.partly.covered (Ledger.ofBlocks_covered 0 blocks)
  have hi : L.indexed = some n := by
    rw [hL.partly.indexed, Ledger.ofBlocks_indexed 0 hlen, Nat.zero_add]
  -- Below the heights undone the fast path has left every history as it is.
  have hclean : hasManifests blocks r = true →
      (ReadsAsAfter blocks (n-j) σ' ↔ CutUnseen blocks n r j (n-j)) := by
    intro hf
    apply readsAsAfter_iff hc hp hcount hn (Nat.sub_le n j) hL hσ' hLsound
    intro key
    refine (upTo_of_le fun e he => ?_).symm
    rw [hL.history] at he
    split_ifs at he with hk
    · exact le_trans (mem_upTo.mp he).2 (hL.reached hf).1
    · by_contra hgt
      obtain ⟨_,b,hb,hv⟩ := mem_writesOf he
      rw [Nat.sub_zero] at hb
      apply hk
      rw [cutKeys, if_pos hf, mem_writtenKeys]
      refine ⟨b,mem_drop.mpr ⟨e.1,by omega,hb⟩,Flush.mem_keys.mpr ?_⟩
      by_contra hno
      push Not at hno
      rw [updatesOf_eq_nil.mpr hno] at hv
      cases hv
  constructor
  · rintro ⟨hheal,hfast⟩
    cases hexp : hasManifests blocks r && config.enableStartupHeal with
    | true =>
      have hf := ((Bool.and_eq_true _ _).mp hexp).1
      rw [exposedHeight, hexp, if_pos rfl]
      exact (hclean hf).mp (hfast (hpath.trans hf))
    | false =>
      let node : BitcoinNodeAdapter := ⟨false,.ok 0,fun _ => .ok [],fun _ => .ok []⟩
      obtain ⟨o,hexec⟩ := heal_unreachable hσ' hL hlen hn hr hexp node rfl
      have hreads := hheal node n o σ' hexec
      obtain ⟨_,_,L',hτ,hL',hcut⟩ := heal_upTo hσ' hLsound hcov hn hi hexec
      rw [exposedHeight, hexp, if_neg (by decide)]
      exact (readsAsAfter_iff hc hp hcount hn le_rfl hL hτ hL' hcut).mp hreads
  · intro hunseen
    constructor
    · intro node s o τ hexec
      obtain ⟨hs,hle,L',hτ,hL',hcut⟩ := heal_upTo hσ' hLsound hcov hn hi hexec
      apply (readsAsAfter_iff hc hp hcount hn hle hL hτ hL' hcut).mpr
      apply hunseen.mono
      rw [exposedHeight]
      split_ifs with hexp
      · obtain ⟨hf,he⟩ := (Bool.and_eq_true _ _).mp hexp
        rw [hs]
        exact healedHeight_le_undone hσ' hL hf he
      · exact hle
    · intro hm
      have hf := hpath.symm.trans hm
      apply (hclean hf).mpr
      apply hunseen.mono
      rw [exposedHeight]
      split_ifs
      · exact le_rfl
      · exact Nat.sub_le n j

private def crashConfig : SyncConfig := ⟨0,none,100,6,true⟩

/-- The key of the block undone is written nowhere else. -/
private def keptRun : List Block :=
  [⟨.single 'x' [0],[7],[8]⟩,⟨.single 'b' [1],[9],[8]⟩,
    ⟨.single 'a' [2],[11],[8]⟩]

theorem crash_recovers_three_blocks :
    ∃ σ σ', commitBlocks 0 ∅ keptRun = .ok σ ∧ (rollbackToHeight 0).CrashAfter σ 1 σ' ∧
      Recovers keptRun crashConfig 2 0 1 σ σ' := by
  have hrun : (commitBlocks 0 ∅ keptRun).toOption.any (fun σ =>
      2 ≤ ((rollbackToHeight 0).run σ).states.length) = true := by decide +kernel
  cases hσ : commitBlocks 0 ∅ keptRun with
  | error e => rw [hσ] at hrun; cases hrun
  | ok σ =>
    rw [hσ] at hrun
    have hlen : 2 ≤ ((rollbackToHeight 0).run σ).states.length := of_decide_eq_true hrun
    have hcrash := Prog.crashAfter_succ (j := 0) hlen
    refine ⟨σ,_,rfl,hcrash,?_⟩
    apply (crash_recovers_iff keptRun crashConfig 2 0 1 σ _ rfl (by decide) (by decide)
      (by unfold PlainKeys; decide) (fun key => lt_of_le_of_lt (updateCount_le key _) (by decide))
      hσ hcrash).mpr
    intro key hk h hr hh
    have hexp : exposedHeight keptRun crashConfig 2 0 1 = 1 := by decide
    have hkey : cutKeys keptRun 2 0 1 = [ascii "a"] := by decide
    rw [hexp] at hh
    rw [hkey, List.mem_singleton] at hk
    obtain rfl : h=1 := by omega
    rw [hk]
    decide

/-- The key of the block undone is written by an earlier one above the target. -/
private def lostRun : List Block :=
  [⟨.single 'x' [0],[7],[8]⟩,⟨.single 'a' [1],[9],[8]⟩,
    ⟨.single 'a' [2],[11],[8]⟩]

/-- The node still has the committed chain. -/
private def sameChainNode : BitcoinNodeAdapter :=
  ⟨true,.ok 2,fun h => .ok [UInt8.ofNat (7+2*h)],fun _ => .ok []⟩

/-- One height of a rollback to 0 is undone; the heal settles on height 1, where the update of block
1 is gone. -/
theorem crash_loses_update :
    ∃ σ σ' o τ, commitBlocks 0 ∅ lostRun = .ok σ ∧ (rollbackToHeight 0).CrashAfter σ 1 σ' ∧
      (healPointerDivergenceAtStartup sameChainNode crashConfig).exec σ' = .ok ((1,o),τ) ∧
      ¬ReadsAsAfter lostRun 1 τ ∧ ¬Recovers lostRun crashConfig 2 0 1 σ σ' := by
  have hrun : (commitBlocks 0 ∅ lostRun).toOption.any (fun σ =>
      2 ≤ ((rollbackToHeight 0).run σ).states.length &&
        (((rollbackToHeight 0).run σ).states[0]?).all fun σ' =>
          ((healPointerDivergenceAtStartup sameChainNode crashConfig).exec σ').toOption.any fun x =>
            x.1.1 == 1 && (commitBlocks 0 ∅ (lostRun.take 2)).toOption.all fun σs =>
              (getAtHeight (rocksDB x.2) (ascii "a") 1).toOption !=
                (getAtHeight (rocksDB σs) (ascii "a") 1).toOption) = true := by decide +kernel
  cases hσ : commitBlocks 0 ∅ lostRun with
  | error e => rw [hσ] at hrun; cases hrun
  | ok σ =>
    rw [hσ] at hrun
    obtain ⟨hlen,hheal⟩ := (Bool.and_eq_true _ _).mp hrun
    have hlt : 2 ≤ ((rollbackToHeight 0).run σ).states.length := of_decide_eq_true hlen
    have hcrash := Prog.crashAfter_succ (j := 0) hlt
    rw [List.getElem?_eq_getElem (by omega), Option.all_some] at hheal
    generalize ((rollbackToHeight 0).run σ).states[0] = σ' at hcrash hheal
    cases hexec : (healPointerDivergenceAtStartup sameChainNode crashConfig).exec σ' with
    | error e => rw [hexec] at hheal; cases hheal
    | ok x =>
      obtain ⟨⟨s,o⟩,τ⟩ := x
      rw [hexec] at hheal
      obtain ⟨hs,hdiff⟩ := (Bool.and_eq_true _ _).mp hheal
      obtain rfl : s=1 := beq_iff_eq.mp hs
      have hlost : ¬ReadsAsAfter lostRun 1 τ := by
        rintro ⟨σs,hσs,hsame⟩
        rw [hσs] at hdiff
        simp only [Except.toOption, Option.all_some, ((hsame (ascii "a")).1 1).1,
          bne_self_eq_false] at hdiff
        cases hdiff
      exact ⟨σ,σ',o,τ,rfl,hcrash,hexec,hlost,fun hrec => hlost (hrec.1 _ 1 o τ hexec)⟩

end Metashrew
