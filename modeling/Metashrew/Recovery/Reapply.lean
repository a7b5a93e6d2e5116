import Metashrew.Execution.Manifest
import Metashrew.Lib.Dialogue
import Metashrew.Recovery.Helper

namespace Metashrew

open Bytes Versioned

/-- A guest that computes its flushes from its reads, and returns or traps. -/
abbrev Guest := Dialogue Bytes Bytes Flush (Option String)

/-- What the host sees of a guest: its reads with their values, its flushes, and the trap. -/
structure Interaction where
  reads : List (Bytes × Bytes)
  flushes : List Flush
  trap : Option String

def Interaction.execution (i : Interaction) : Execution :=
  { Execution.clean i.flushes with trap := i.trap }

namespace MetashrewRuntime

/-- `__get` while a block is indexed: the value at the height before, empty on an error. Block 0 reads
at its own height. An error here is a panic. -/
def hostGet (rt : MetashrewRuntime) (key : Bytes) : Except String Bytes :=
  match getAtHeight (rocksDB rt.db) key (if 0 < rt.height then rt.height-1 else 0) with
  | .ok (some value) => .ok value
  | .ok none => .ok []
  | .error (.message _) => .ok []
  | .error (.panic text) => .error text

/-- A guest against the host; each read sees the flushes before it. -/
def interact : MetashrewRuntime → Guest → Interaction
  | _, .stop trap => ⟨[],[],trap⟩
  | rt, .ask key next =>
    match rt.hostGet key with
    | .error text => ⟨[],[],some text⟩
    | .ok value =>
      let i := interact rt (next value)
      { i with reads := (key,value)::i.reads }
  | rt, .emit f next =>
    match rt.flush ⟨some f,.none,none⟩ with
    | .error _ => ⟨[],[f],none⟩
    | .ok rt =>
      let i := interact rt next
      { i with flushes := f::i.flushes }

/-- The interaction of a guest that `process_block` runs at a height. -/
def interaction (rt : MetashrewRuntime) (g : Guest) (height : Nat) : Interaction :=
  { rt with height, currentBlockHash := [], state := 0, lastFlushError := none }.interact g

def processGuest (rt : MetashrewRuntime) (g : Guest) (height : Nat) :
    MetashrewRuntime × Except Fault Unit :=
  rt.processBlock (rt.interaction g height).execution height

end MetashrewRuntime

/-- Block `height` is processed by `rt`, which leads to `rt'`, and then again: the guest reads what the
blocks before have left, both times, and no user key reads differently afterwards. -/
structure ReappliesBlock (rt rt' : MetashrewRuntime) (g : Guest) (height : Nat) : Prop where
  reads : (rt'.interaction g height).reads = (rt.interaction g height).reads
  before : ∀ r ∈ (rt.interaction g height).reads,
    (getCurrent (rocksDB rt.db) r.1).map (fun value => value.getD []) = .ok r.2
  result : (rt'.processGuest g height).2 = .ok ()
  kept : ∀ key, ¬Reserved key → ∀ h, getAtHeight (rocksDB (rt'.processGuest g height).1.db) key h =
    getAtHeight (rocksDB rt'.db) key h

/-- The last value that some flushes give a key, empty without one. -/
def lastFlushed (fs : List Flush) (key : Bytes) : Bytes :=
  ((updatesOf key (pairsOf fs)).getLast?).getD []

/-- On an empty store the guest reads no key to which it has flushed a non-empty value before, and,
unless it has flushed the key before, none to which it flushes a non-empty last value. -/
def QuietAtGenesis (g : Guest) : Prop :=
  ∀ q ∈ (g.play lastFlushed []).points, lastFlushed q.1 q.2 = [] ∧
    lastFlushed ((g.play lastFlushed []).emitted ++ q.1) q.2 = []

/-- What holds of the histories of a store whose next height is `n`. -/
structure Ledger.Tidy (L : Ledger) (n : Nat) : Prop where
  reserved : ∀ key, Reserved key → L.history key = []
  ordered : ∀ key, Ordered (L.history key)
  below : ∀ key, ∀ e ∈ L.history key, e.1 < n
  short : ∀ key, (L.history key).length<2^32

/-- No flush writes a key whose record names collide with the internal ones. -/
def Flush.Plain (f : Flush) : Prop := ∀ kv ∈ f.list, ¬Reserved kv.1

section Tidy

variable {L : Ledger} {n : Nat} {fs : List Flush} {σ : Store} {key : Bytes}

theorem pairsOf_append (fs fs' : List Flush) : pairsOf (fs ++ fs') = pairsOf fs ++ pairsOf fs' :=
  List.flatMap_append

theorem Ledger.Tidy.empty (n : Nat) : Ledger.empty.Tidy n where
  reserved _ _ := rfl
  ordered _ := .nil
  below _ _ he := absurd he List.not_mem_nil
  short _ := by
    show 0<2^32
    decide

theorem Ledger.Tidy.mono (hL : L.Tidy n) {m : Nat} (h : n ≤ m) : L.Tidy m :=
  ⟨hL.reserved,hL.ordered,fun key e he => (hL.below key e he).trans_le h,hL.short⟩

/-- The flushes of a block at the height `n`. -/
theorem Ledger.Tidy.append (hL : L.Tidy (n+1)) (fs : List Flush) (hp : ∀ f ∈ fs, f.Plain)
    (hs : ∀ key, ((L.appendAll n (pairsOf fs)).history key).length<2^32) :
    (L.appendAll n (pairsOf fs)).Tidy (n+1) := by
  refine ⟨?_,?_,?_,hs⟩
  · intro key hk
    have hnil : updatesOf key (pairsOf fs) = [] := by
      rw [updatesOf_eq_nil]
      intro kv hkv he
      obtain ⟨f,hf,hin⟩ := List.mem_flatMap.mp hkv
      exact hp f hf kv hin (he ▸ hk)
    rw [Ledger.appendAll_history, hL.reserved key hk, hnil]
    rfl
  · intro key
    rw [Ledger.appendAll_history]
    refine (hL.ordered key).append ?_ ?_
    · exact List.pairwise_map.mpr (List.pairwise_of_forall fun _ _ => le_rfl)
    · intro a ha e he
      obtain ⟨v,_,rfl⟩ := List.mem_map.mp he
      exact Nat.lt_succ_iff.mp (hL.below key a ha)
  · intro key e he
    rw [Ledger.appendAll_history, List.mem_append] at he
    rcases he with he | he
    · exact hL.below key e he
    · obtain ⟨v,_,rfl⟩ := List.mem_map.mp he
      exact Nat.lt_succ_self n

theorem Ledger.Tidy.hasHistory (hL : L.Tidy n) (hσ : HoldsHistories σ L.history) (key : Bytes) :
    HasHistory σ key (L.history key) :=
  hσ.hasHistory (or_iff_not_imp_left.mpr fun hk => hL.reserved key (not_not.mp hk))

theorem Ledger.Tidy.getAtHeight (hL : L.Tidy n) (hn : n ≤ 2^32) (hσ : HoldsHistories σ L.history)
    (hlen : (L.history key).length ≤ 2^31) (h : Nat) :
    getAtHeight (rocksDB σ) key h = .ok (asOf h (L.history key)) := by
  have hkey := hL.hasHistory hσ key
  exact hkey.searchUpdates (hL.ordered key) (fun e he => (hL.below key e he).trans_le hn) hlen h

/-- Below height 0 there is nothing. -/
theorem Ledger.Tidy.history_nil (hL : L.Tidy 0) (key : Bytes) : L.history key = [] := by
  rw [List.eq_nil_iff_forall_not_mem]
  intro e he
  exact absurd (hL.below key e he) (Nat.not_lt_zero _)

theorem Ledger.Tidy.getCurrent (hL : L.Tidy n) (hσ : HoldsHistories σ L.history) (key : Bytes) :
    getCurrent (rocksDB σ) key = .ok ((L.history key).getLast?.map Prod.snd) := by
  have hkey := hL.hasHistory hσ key
  exact hkey.getCurrent (hL.short key)

end Tidy

/-- The value of a key at the height before, after some flushes at the height `n`. -/
def seenAt (L : Ledger) (n : Nat) (done : List Flush) (key : Bytes) : Bytes :=
  (asOf (n-1) ((L.appendAll n (pairsOf done)).history key)).getD []

/-- A play as the host sees it. -/
def Interaction.ofPlay (see : List Flush → Bytes → Bytes)
    (p : Dialogue.Play Bytes Flush (Option String)) : Interaction :=
  ⟨p.answers see,p.emitted,p.how⟩

namespace MetashrewRuntime

variable {rt : MetashrewRuntime} {L : Ledger} {g : Guest} {done : List Flush} {n : Nat}

theorem hostGet_eq (hL : (L.appendAll rt.height (pairsOf done)).Tidy (rt.height+1))
    (hn : rt.height<2^32) (hσ : HoldsHistories rt.db (L.appendAll rt.height (pairsOf done)).history)
    {key : Bytes} (hlen : ((L.appendAll rt.height (pairsOf done)).history key).length ≤ 2^31) :
    rt.hostGet key = .ok (seenAt L rt.height done key) := by
  have hheight : (if 0 < rt.height then rt.height-1 else 0) = rt.height-1 := by
    split_ifs <;> omega
  rw [hostGet, hheight, hL.getAtHeight hn hσ hlen, seenAt]
  cases asOf (rt.height-1) ((L.appendAll rt.height (pairsOf done)).history key) <;> rfl

theorem interact_emit (rt : MetashrewRuntime) (f : Flush) (next : Guest) :
    ∃ fs, (rt.interact (.emit f next)).flushes = f::fs := by
  rw [interact]
  cases rt.flush ⟨some f,.none,none⟩ with
  | error text => exact ⟨[],rfl⟩
  | ok rt' => exact ⟨(rt'.interact next).flushes,rfl⟩

theorem length_appendAll_le (L : Ledger) (n : Nat) (fs fs' : List Flush) (key : Bytes) :
    ((L.appendAll n (pairsOf fs)).history key).length ≤
      ((L.appendAll n (pairsOf (fs ++ fs'))).history key).length := by
  rw [pairsOf_append, Ledger.appendAll_append, Ledger.appendAll_history _ n (pairsOf fs'),
    List.length_append]
  exact Nat.le_add_right _ _

/-- While no history grows beyond 2^31 entries, a guest plays against the histories of its store. -/
theorem interact_eq (hslot : rt.pendingAtomicBatch = none) (ha : rt.adapterHeight+1<2^32)
    (hn : rt.height<2^32) (hL : (L.appendAll rt.height (pairsOf done)).Tidy (rt.height+1))
    (hσ : HoldsHistories rt.db (L.appendAll rt.height (pairsOf done)).history)
    (hg : g.Emits Flush.Plain)
    (hcount : ∀ key, ((L.appendAll rt.height
      (pairsOf (done ++ (rt.interact g).flushes))).history key).length ≤ 2^31) :
    rt.interact g = .ofPlay (seenAt L rt.height) (g.play (seenAt L rt.height) done) := by
  induction g generalizing rt done with
  | stop trap => rfl
  | ask key next ih =>
    have hget := hostGet_eq hL hn hσ ((length_appendAll_le L _ _ _ key).trans (hcount key))
    rw [interact, hget] at hcount ⊢
    dsimp only at hcount ⊢
    rw [ih _ hslot ha hn hL hσ (hg _) hcount]
    rfl
  | emit f next ih =>
    obtain ⟨fs,hfs⟩ := rt.interact_emit f next
    have hshort : ∀ key, (((L.appendAll rt.height (pairsOf done)).appendAll rt.height
        f.list).history key).length<2^32 := by
      intro key
      have hk := hcount key
      have hle := length_appendAll_le L rt.height (done ++ [f]) fs key
      rw [hfs, ← List.singleton_append, ← List.append_assoc] at hk
      rw [pairsOf_append, Ledger.appendAll_append] at hle
      have hone := pairsOf_singleton f
      rw [hone] at hle
      omega
    have hdone : (L.appendAll rt.height (pairsOf done)).appendAll rt.height f.list =
        L.appendAll rt.height (pairsOf (done ++ [f])) := by
      have hone := pairsOf_singleton f
      rw [pairsOf_append, Ledger.appendAll_append, hone]
    obtain ⟨root,batch,hb⟩ := build_total hσ hshort
    have hstep := flush_unarmed hslot ha (flushBatch_of_build hb)
    have hnext := (build_histories hσ hL.short hb).1.adapterWrite (u32le (rt.adapterHeight+1))
    have htidy := hL.append [f] (by simpa using hg.1) (by simpa [pairsOf] using hshort)
    have hone := pairsOf_singleton f
    rw [hone] at htidy
    rw [hdone] at hnext htidy
    rw [interact, hstep] at hcount ⊢
    dsimp only at hcount ⊢
    have hrest : interact { rt with
        db := KV.write rt.db (.put tipHeightKey (u32le (rt.adapterHeight+1))::batch), state := 1 } next =
        .ofPlay (seenAt L rt.height) (next.play (seenAt L rt.height) (done ++ [f])) := by
      refine ih ?_ ?_ ?_ htidy hnext hg.2 ?_
      · exact hslot
      · exact ha
      · exact hn
      intro key
      have hk := hcount key
      rwa [← List.singleton_append, ← List.append_assoc] at hk
    rw [hrest]
    rfl

end MetashrewRuntime

namespace MetashrewRuntime

variable {rt rt' : MetashrewRuntime} {x : Execution} {L : Ledger} {g : Guest} {n : Nat} {σ : Store}

/-- A `process_block` that succeeds ran no trap and leaves the runtime idle. -/
theorem processBlock_ok_idle (hrt : rt.Idle) (h : rt.processBlock x n = (rt',.ok ())) :
    x.trap = none ∧ rt'.Idle := by
  have hok : (rt.processBlock x n).2 = .ok () := by rw [h]
  have hslot := rt.processBlock_slot x n
  cases hs : x.hasStart with
  | false => simp [processBlock, run, hs] at hok
  | true =>
    obtain ⟨_,hadapter,_⟩ := (rt.preparedFor x n).flushAll_frame x.flushes
    rw [processBlock_eq hs] at h
    rw [processBlock_eq hs] at hslot
    cases hall : (rt.preparedFor x n).flushAll x.flushes with
    | mk rt1 panicked =>
      rw [hall] at h hadapter hslot
      cases panicked with
      | some text => cases h
      | none =>
        dsimp only at h hslot hadapter
        rw [h] at hslot
        unfold completeRun at h
        cases hr : x.refreshError with
        | some e =>
          rw [hr] at h
          cases h
        | none =>
          rw [hr] at h
          dsimp only [refreshMemory] at h
          obtain ⟨hrt',hres⟩ := Prod.mk.inj h
          refine ⟨?_,?_,?_,?_⟩
          · cases ht : x.trap with
            | none => rfl
            | some e =>
              rw [ht] at hres
              cases hres
          · rw [hrt.slot] at hslot
            simpa using hslot
          · rw [← hrt']
          · rw [← hrt']
            show rt1.adapterHeight+1<2^32
            rw [hadapter]
            exact hrt.adapter

/-- A `process_block_atomic` that succeeds leaves the runtime idle. -/
theorem processBlockAtomic_ok_idle {hash : Bytes} {result : AtomicBlockResult}
    (hrt : rt.Idle) (h : rt.processBlockAtomic x n hash = (rt',.ok result)) : rt'.Idle := by
  cases hs : x.hasStart with
  | false => simp [processBlockAtomic, hs] at h
  | true =>
    obtain ⟨_,hadapter,_⟩ := (rt.armedFor x n hash).flushAll_frame x.flushes
    rw [processBlockAtomic_eq hs] at h
    cases hall : (rt.armedFor x n hash).flushAll x.flushes with
    | mk rt1 panicked =>
      rw [hall] at h hadapter
      cases panicked with
      | some text => cases h
      | none =>
        dsimp only at h hadapter
        unfold completeAtomic at h
        split at h
        · split at h
          · cases h
          · cases hr : x.refreshError with
            | some e =>
              rw [hr] at h
              cases h
            | none =>
              rw [hr] at h
              obtain ⟨rfl,_⟩ := Prod.mk.inj h
              refine ⟨rfl,rfl,?_⟩
              show rt1.adapterHeight+1<2^32
              rw [hadapter]
              exact hrt.adapter
        · cases h

theorem processBlock_ok_histories (hrt : rt.Idle) (hσ : HoldsHistories rt.db L.history)
    (hs : ∀ key, (L.history key).length<2^32) (h : rt.processBlock x n = (rt',.ok ())) :
    x.flushes ≠ [] ∧ HoldsHistories rt'.db (L.appendAll n (pairsOf x.flushed)).history ∧
      ∀ key, ((L.appendAll n (pairsOf x.flushed)).history key).length<2^32 := by
  have hok : (rt.processBlock x n).2 = .ok () := by rw [h]
  obtain ⟨hne,hw⟩ := processBlock_ok hrt.slot hok
  rw [h] at hw
  exact ⟨hne,hw.histories hσ hs⟩

end MetashrewRuntime

section Runs

variable {rt rt' : MetashrewRuntime} {blocks : List Execution} {L : Ledger} {start : Nat}

/-- Blocks committed on the legacy path leave the histories of their flushes. -/
theorem legacyBlocks_histories (hrt : rt.Idle) (hσ : HoldsHistories rt.db L.history)
    (hL : L.Tidy start) (hp : ∀ x ∈ blocks, ∀ f ∈ x.flushed, f.Plain)
    (hrun : legacyBlocks rt start blocks = .ok rt') :
    rt'.Idle ∧ ∃ L' : Ledger, HoldsHistories rt'.db L'.history ∧ L'.Tidy (start+blocks.length) := by
  induction blocks generalizing rt L start with
  | nil =>
    cases hrun
    exact ⟨hrt,L,hσ,hL⟩
  | cons x xs ih =>
    rw [legacyBlocks] at hrun
    cases hblock : rt.processBlock x start with
    | mk rt1 result =>
      rw [hblock] at hrun
      cases result with
      | error e => cases hrun
      | ok _ =>
        obtain ⟨_,hidle⟩ := MetashrewRuntime.processBlock_ok_idle hrt hblock
        obtain ⟨_,h1,hs1⟩ := MetashrewRuntime.processBlock_ok_histories hrt hσ hL.short hblock
        have htidy := (hL.mono (Nat.le_succ start)).append _ (hp x List.mem_cons_self) hs1
        have hrest := ih hidle h1 htidy (fun y hy => hp y (List.mem_cons_of_mem x hy)) hrun
        rwa [List.length_cons, Nat.add_comm xs.length, ← Nat.add_assoc]

end Runs

section Seen

variable {L : Ledger} {n : Nat} {fs done : List Flush} {key : Bytes}

/-- A block after the first does not see its own height. -/
theorem seenAt_pos (hL : L.Tidy n) (hn : 0 < n) (fs done : List Flush) (key : Bytes) :
    seenAt (L.appendAll n (pairsOf fs)) n done key = ((L.history key).getLast?.map Prod.snd).getD [] := by
  have hlater : ∀ kvs, ∀ e ∈ (updatesOf key kvs).map (fun v => (n,v)), n-1 < e.1 := by
    intro kvs e he
    obtain ⟨v,_,rfl⟩ := List.mem_map.mp he
    show n-1 < n
    omega
  rw [seenAt, Ledger.appendAll_history, Ledger.appendAll_history, asOf_append_of_gt _ (hlater _),
    asOf_append_of_gt _ (hlater _), asOf, upTo_of_le]
  intro e he
  have hlt := hL.below key e he
  omega

/-- Block 0 sees the last value among all flushes. -/
theorem seenAt_zero (hL : L.Tidy 0) (fs done : List Flush) (key : Bytes) :
    seenAt (L.appendAll 0 (pairsOf fs)) 0 done key = lastFlushed (fs ++ done) key := by
  rw [seenAt, Ledger.appendAll_history, Ledger.appendAll_history, hL.history_nil, List.nil_append,
    ← List.map_append, ← updatesOf_append, ← pairsOf_append, lastFlushed, asOf, upTo_of_le]
  · rw [List.getLast?_map, Option.map_map]
    congr 1
    exact Option.map_id'
  · intro e he
    obtain ⟨v,_,rfl⟩ := List.mem_map.mp he
    exact Nat.zero_le _

theorem seenAt_nil (L : Ledger) (n : Nat) : seenAt L n = seenAt (L.appendAll n (pairsOf [])) n := rfl

/-- The same updates again change no read. -/
theorem asOf_again {h : Nat} {l : History Nat Bytes} (vs : List Bytes) :
    asOf h (l ++ vs.map (fun v => (n,v)) ++ vs.map fun v => (n,v)) =
      asOf h (l ++ vs.map fun v => (n,v)) := by
  by_cases hh : n ≤ h
  · have hle : ∀ e ∈ vs.map (fun v => (n,v)), e.1 ≤ h := by
      intro e he
      obtain ⟨v,_,rfl⟩ := List.mem_map.mp he
      exact hh
    rw [asOf_append_of_le _ hle, asOf_append_of_le _ hle]
    cases (vs.map fun v => (n,v)).getLast? <;> rfl
  · have hgt : ∀ e ∈ vs.map (fun v => (n,v)), h < e.1 := by
      intro e he
      obtain ⟨v,_,rfl⟩ := List.mem_map.mp he
      exact not_le.mp hh
    rw [asOf_append_of_gt _ hgt]

end Seen

namespace MetashrewRuntime

variable {rt rt' : MetashrewRuntime} {L : Ledger} {g : Guest} {n : Nat}

theorem interaction_eq (hrt : rt.Idle) (hn : n<2^32) (hσ : HoldsHistories rt.db L.history)
    (hL : L.Tidy (n+1)) (hg : g.Emits Flush.Plain)
    (hcount : ∀ key, ((L.appendAll n
      (pairsOf (rt.interaction g n).flushes)).history key).length ≤ 2^31) :
    rt.interaction g n = .ofPlay (seenAt L n) (g.play (seenAt L n) []) := by
  refine interact_eq ?_ ?_ ?_ ?_ ?_ hg hcount
  · exact hrt.slot
  · exact hrt.adapter
  · exact hn
  · exact hL
  · exact hσ

theorem flushed_execution (i : Interaction) : i.execution.flushed = i.flushes := by
  rw [Execution.flushed, Interaction.execution]
  show (i.flushes.map fun f => (⟨some f,.none,none⟩ : FlushCall)).filterMap FlushCall.keyValues = _
  rw [List.filterMap_map]
  exact List.filterMap_some

/-- Both runs of a block play against the histories of their stores. -/
theorem reapplies_iff (hrt : rt.Idle) (hn : n<2^32) (hσ : HoldsHistories rt.db L.history)
    (hL : L.Tidy n) (hg : g.Emits Flush.Plain) (hfirst : rt.processGuest g n = (rt',.ok ()))
    (hcount : ∀ key, lengthOf rt'.db key +
      (updatesOf key (pairsOf (rt'.interaction g n).flushes)).length ≤ 2^31) :
    ReappliesBlock rt rt' g n ↔ ∀ q ∈ (g.play (seenAt L n) []).points,
      seenAt (L.appendAll n (pairsOf (g.play (seenAt L n) []).emitted)) n q.1 q.2 =
          seenAt L n q.1 q.2 ∧
        seenAt L n q.1 q.2 = ((L.history q.2).getLast?.map Prod.snd).getD [] := by
  obtain ⟨htrap,hidle⟩ := processBlock_ok_idle hrt hfirst
  obtain ⟨hne,hσ',hshort⟩ := processBlock_ok_histories hrt hσ hL.short hfirst
  rw [flushed_execution] at hσ' hshort
  have hlen : ∀ key, lengthOf rt'.db key =
      ((L.appendAll n (pairsOf (rt.interaction g n).flushes)).history key).length :=
    fun key => lengthOf_record (hσ'.length key) (hshort key)
  have hL1 : L.Tidy (n+1) := hL.mono (Nat.le_succ n)
  have hi : rt.interaction g n = .ofPlay (seenAt L n) (g.play (seenAt L n) []) := by
    apply interaction_eq hrt hn hσ hL1 hg
    intro key
    have hk := hcount key
    rw [hlen] at hk
    omega
  have hL' := hL1.append (rt.interaction g n).flushes (by
    rw [hi]
    exact Dialogue.emitted_of_emits hg) hshort
  have hi' : rt'.interaction g n =
      .ofPlay (seenAt (L.appendAll n (pairsOf (rt.interaction g n).flushes)) n)
        (g.play (seenAt (L.appendAll n (pairsOf (rt.interaction g n).flushes)) n) []) := by
    apply interaction_eq hidle hn hσ' hL' hg
    intro key
    have hk := hcount key
    rw [hlen] at hk
    rwa [Ledger.appendAll_history, List.length_append, List.length_map]
  have hflushes : (rt.interaction g n).flushes = (g.play (seenAt L n) []).emitted := by rw [hi]; rfl
  have hbefore : (∀ r ∈ (rt.interaction g n).reads,
      (getCurrent (rocksDB rt.db) r.1).map (fun value => value.getD []) = .ok r.2) ↔
      ∀ q ∈ (g.play (seenAt L n) []).points,
        seenAt L n q.1 q.2 = ((L.history q.2).getLast?.map Prod.snd).getD [] := by
    rw [hi]
    show (∀ r ∈ (g.play (seenAt L n) []).points.map _, _) ↔ _
    rw [List.forall_mem_map]
    apply forall₂_congr
    intro q _
    rw [hL.getCurrent hσ]
    constructor
    · intro h
      exact (Except.ok.inj h).symm
    · intro h
      rw [h]
      rfl
  have hreads : (rt'.interaction g n).reads = (rt.interaction g n).reads ↔
      ∀ q ∈ (g.play (seenAt L n) []).points,
        seenAt (L.appendAll n (pairsOf (g.play (seenAt L n) []).emitted)) n q.1 q.2 =
          seenAt L n q.1 q.2 := by
    rw [hi', hflushes, hi]
    exact Dialogue.answers_eq_iff
  constructor
  · intro h q hq
    exact ⟨hreads.mp h.reads q hq,hbefore.mp h.before q hq⟩
  · intro h
    have hsame := fun q hq => (h q hq).1
    -- with the same reads the guest flushes the same
    have heq : rt'.interaction g n = rt.interaction g n := by
      rw [hi', hflushes, hi, Interaction.ofPlay, Interaction.ofPlay, Dialogue.answers_eq_iff.mpr hsame,
        Dialogue.play_congr hsame]
    have hclean : (rt.interaction g n).execution = .clean (rt.interaction g n).flushes := by
      rw [Interaction.execution, show (rt.interaction g n).trap = none from htrap]
      rfl
    have hcount' : ∀ key, (((L.appendAll n (pairsOf (rt.interaction g n).flushes)).appendAll n
        (pairsOf (rt.interaction g n).flushes)).history key).length ≤ 2^31 := by
      intro key
      have hk := hcount key
      rw [hlen, heq] at hk
      rwa [Ledger.appendAll_history, List.length_append, List.length_map]
    have hagain : HoldsHistories (rt'.processBlock (.clean (rt.interaction g n).flushes) n).1.db _ ∧ _ :=
      processBlock_clean hidle hσ' fun key => (hcount' key).trans_lt (by norm_num)
    obtain ⟨hσ'',hok⟩ := hagain
    have hL'' := hL'.append (rt.interaction g n).flushes (by
      rw [hi]
      exact Dialogue.emitted_of_emits hg) fun key => (hcount' key).trans_lt (by norm_num)
    refine ⟨hreads.mpr hsame,hbefore.mpr fun q hq => (h q hq).2,?_,?_⟩
    · rw [processGuest, heq, hclean]
      apply hok
      intro hnil
      apply hne
      rw [Interaction.execution, hnil]
      rfl
    · intro key _ h'
      rw [processGuest, heq, hclean]
      rw [hL''.getAtHeight hn hσ'' (hcount' key), hL'.getAtHeight hn hσ']
      · congr 1
        rw [Ledger.appendAll_history, Ledger.appendAll_history]
        exact asOf_again _
      · have hk := hcount key
        rw [hlen] at hk
        omega

end MetashrewRuntime

/-- After blocks committed on the legacy path, processing the last one again is idempotent exactly
when it is not block 0, or its guest is quiet on an empty store. -/
theorem reapply_tip_block_iff (rt rt₁ rt₂ : MetashrewRuntime) (hrt : rt.Idle) (hdb : rt.db = ∅)
    (blocks : List Execution) (hlen : blocks.length<2^32)
    (hp : ∀ x ∈ blocks, ∀ f ∈ x.flushed, f.Plain) (hrun : legacyBlocks rt 0 blocks = .ok rt₁)
    (g : Guest) (hg : g.Emits Flush.Plain)
    (hfirst : rt₁.processGuest g blocks.length = (rt₂,.ok ()))
    (hcount : ∀ key, lengthOf rt₂.db key +
      (updatesOf key (pairsOf (rt₂.interaction g blocks.length).flushes)).length ≤ 2^31) :
    ReappliesBlock rt₁ rt₂ g blocks.length ↔ 0 < blocks.length ∨ QuietAtGenesis g := by
  have hempty : HoldsHistories rt.db Ledger.empty.history := by
    rw [hdb]
    exact HoldsHistories.empty
  obtain ⟨hidle,L,hσ,hL⟩ := legacyBlocks_histories hrt hempty (.empty 0) hp hrun
  rw [Nat.zero_add] at hL
  rw [MetashrewRuntime.reapplies_iff hidle hlen hσ hL hg hfirst hcount]
  by_cases hn : 0 < blocks.length
  · apply iff_of_true
    · intro q _
      rw [seenAt_pos hL hn, seenAt_nil, seenAt_pos hL hn]
      exact ⟨rfl,rfl⟩
    · exact .inl hn
  · have hzero : blocks.length = 0 := by omega
    rw [hzero] at hL ⊢
    have hsee : seenAt L 0 = lastFlushed := by
      funext done key
      rw [seenAt_nil, seenAt_zero hL]
      rfl
    rw [hsee, or_iff_right (lt_irrefl 0), QuietAtGenesis]
    apply forall₂_congr
    intro q _
    rw [seenAt_zero hL, hL.history_nil]
    constructor
    · intro h
      exact ⟨h.2,h.1.trans h.2⟩
    · intro h
      exact ⟨h.2.trans h.1.symm,h.1⟩

/-- A guest that reads one key and then writes another. -/
def copyGuest (source target : Bytes) (hs : target.length<2^32) : Guest :=
  .ask source fun value => .emit ⟨[(target,value ++ [1])],by simpa using hs⟩ (.stop none)

theorem copyGuest_pairs (rt : MetashrewRuntime) (source target : Bytes) (hs : target.length<2^32)
    (n : Nat) :
    (pairsOf (rt.interaction (copyGuest source target hs) n).flushes).length ≤ 1 := by
  rw [MetashrewRuntime.interaction, copyGuest, MetashrewRuntime.interact]
  cases MetashrewRuntime.hostGet _ source with
  | error text => exact Nat.zero_le _
  | ok value =>
    dsimp only
    rw [MetashrewRuntime.interact]
    cases MetashrewRuntime.flush _ _ <;> exact le_rfl

theorem copyGuest_plain {source target : Bytes} (hs : target.length<2^32) (ht : ¬Reserved target) :
    (copyGuest source target hs).Emits Flush.Plain := by
  intro value
  refine ⟨?_,trivial⟩
  intro kv hkv
  rw [List.mem_singleton.mp hkv]
  exact ht

/-- After block 0 of such a guest on an empty store each key has at most one update, and another run
of the guest adds at most one. -/
theorem copyGuest_lengths {rt₂ : MetashrewRuntime} {source target : Bytes} (hs : target.length<2^32)
    (h : (MetashrewRuntime.new ∅ 0 0).processGuest (copyGuest source target hs) 0 = (rt₂,.ok ()))
    (key : Bytes) : lengthOf rt₂.db key + (updatesOf key
      (pairsOf (rt₂.interaction (copyGuest source target hs) 0).flushes)).length ≤ 2^31 := by
  have hidle : (MetashrewRuntime.new ∅ 0 0).Idle := ⟨rfl,rfl,by decide⟩
  have hempty : HoldsHistories (MetashrewRuntime.new ∅ 0 0).db Ledger.empty.history :=
    HoldsHistories.empty
  obtain ⟨_,hσ,hshort⟩ := MetashrewRuntime.processBlock_ok_histories hidle hempty
    (Ledger.Tidy.empty 0).short h
  rw [MetashrewRuntime.flushed_execution] at hσ hshort
  have hlen := lengthOf_record (hσ.length key) (hshort key)
  have hfirst := copyGuest_pairs (.new ∅ 0 0) source target hs 0
  have hsecond := copyGuest_pairs rt₂ source target hs 0
  have hle := updatesOf_length_le key
    (pairsOf (((MetashrewRuntime.new ∅ 0 0).interaction (copyGuest source target hs) 0).flushes))
  have hle' := updatesOf_length_le key
    (pairsOf (rt₂.interaction (copyGuest source target hs) 0).flushes)
  rw [Ledger.appendAll_history, List.length_append, List.length_map] at hlen
  have hnil : (Ledger.empty.history key).length = 0 := rfl
  omega

/-- Block 0 of a guest that reads a key it does not write. -/
theorem reapply_tip_block_genesis :
    ∃ rt₂, (MetashrewRuntime.new ∅ 0 0).processGuest (copyGuest [7] [8] (by decide)) 0 = (rt₂,.ok ()) ∧
      ReappliesBlock (.new ∅ 0 0) rt₂ (copyGuest [7] [8] (by decide)) 0 := by
  have hok : ((MetashrewRuntime.new ∅ 0 0).processGuest (copyGuest [7] [8] (by decide)) 0).2.toBool =
      true := by decide +kernel
  cases hfirst : (MetashrewRuntime.new ∅ 0 0).processGuest (copyGuest [7] [8] (by decide)) 0 with
  | mk rt₂ result =>
    rw [hfirst] at hok
    cases result with
    | error e => cases hok
    | ok _ =>
      refine ⟨rt₂,rfl,?_⟩
      apply (reapply_tip_block_iff (.new ∅ 0 0) (.new ∅ 0 0) rt₂ ⟨rfl,rfl,by decide⟩ rfl [] (by decide)
        (by simp) rfl (copyGuest [7] [8] (by decide))
        (copyGuest_plain (by decide) (by rw [reserved_iff]; decide)) hfirst
        (copyGuest_lengths (by decide) hfirst)).mpr
      right
      intro q hq
      rw [List.mem_singleton.mp hq]
      exact ⟨rfl,by decide⟩

/-- Block 0 of a guest that reads the key it writes: the second time it reads its own value. -/
theorem reapply_tip_block_own_value :
    ¬∀ (rt rt₁ rt₂ : MetashrewRuntime) (blocks : List Execution) (g : Guest), rt.Idle → rt.db = ∅ →
      legacyBlocks rt 0 blocks = .ok rt₁ → g.Emits Flush.Plain →
      rt₁.processGuest g blocks.length = (rt₂,.ok ()) → ReappliesBlock rt₁ rt₂ g blocks.length := by
  intro h
  have hok : ((MetashrewRuntime.new ∅ 0 0).processGuest (copyGuest [7] [7] (by decide)) 0).2.toBool =
      true := by decide +kernel
  have hreads : (((MetashrewRuntime.new ∅ 0 0).processGuest (copyGuest [7] [7] (by decide)) 0).1.interaction
      (copyGuest [7] [7] (by decide)) 0).reads ≠
      ((MetashrewRuntime.new ∅ 0 0).interaction (copyGuest [7] [7] (by decide)) 0).reads := by
    decide +kernel
  cases hfirst : (MetashrewRuntime.new ∅ 0 0).processGuest (copyGuest [7] [7] (by decide)) 0 with
  | mk rt₂ result =>
    rw [hfirst] at hok hreads
    cases result with
    | error e => cases hok
    | ok _ =>
      exact hreads (h (.new ∅ 0 0) (.new ∅ 0 0) rt₂ [] _ ⟨rfl,rfl,by decide⟩ rfl rfl
        (copyGuest_plain (by decide) (by rw [reserved_iff]; decide)) hfirst).reads

end Metashrew
