import Metashrew.Storage.Paired
import Metashrew.Sync.HealLaw

namespace Metashrew

open Bytes Durable Steps

/-- The records that the startup heal compares: the tip pointer, and the block hashes up to the
indexed height. -/
def sameHealRecords (σ τ : Store) : Bool :=
  getRuntimeTipHeight σ == getRuntimeTipHeight τ &&
    (List.range (getIndexedHeight τ+1)).all fun h => getBlockHash σ h == getBlockHash τ h

/-- What a run under a label has to keep to. Updates come at rising heights and under no internal name;
a rollback undoes heights whose manifests are complete, or one of them is missing; the heal finds
the same records; a scan matches no name; and the keys are listed before anything is written. -/
def Twins.agrees (label : Option Bytes) (s : Twins) (c : StoreCall) : Bool :=
  label.isNone || match c with
    | .flush _ height f => fitsFlush s.plain height f.list
    | .commit height b => fitsFlush s.plain height b.flush.list
    | .rollback height => coversRollback s.plain height
    | .heal node config => !config.enableStartupHeal || sameHealRecords s.labelled s.plain &&
        coversRollback s.plain (healedHeight s.plain node config)
    | .scanPrefix pre =>
      s.labelled.keys.all (fun name => !(labelBytes label ++ pre).isPrefixOf name) &&
        s.plain.keys.all fun name => !pre.isPrefixOf name
    | .keys => (KV.get s.labelled (labelBytes label ++ tipHeightKey)).isNone
    | .getAtHeight _ _ => true

section Heal

variable {s : Bytes} {σ τ U P : Store} {LU L : Ledger} {node : BitcoinNodeAdapter}

private theorem maxBlockHashFrom_congr (floor : Nat) {h : Nat}
    (hsame : ∀ i, i ≤ h → getBlockHash σ i = getBlockHash τ i) :
    maxBlockHashFrom σ floor h = maxBlockHashFrom τ floor h := by
  induction h with
  | zero => rfl
  | succ h ih =>
    rw [maxBlockHashFrom, maxBlockHashFrom, hsame (h+1) le_rfl,
      ih fun i hi => hsame i (Nat.le_succ_of_le hi)]

private theorem safeHeight_congr (node : BitcoinNodeAdapter) (candidate floor : Nat) {h : Nat}
    (hsame : ∀ i, i ≤ h → getBlockHash σ i = getBlockHash τ i) :
    safeHeight σ node candidate floor h = safeHeight τ node candidate floor h := by
  induction h with
  | zero => rfl
  | succ h ih =>
    rw [safeHeight, safeHeight, hsame (h+1) le_rfl, ih fun i hi => hsame i (Nat.le_succ_of_le hi)]

/-- The heal's decision rests on the pointers and the block hashes up to the tip. -/
private theorem healChecks_congr (hcur : getIndexedHeight σ = getIndexedHeight τ)
    (hsame : sameHealRecords σ τ = true) (node : BitcoinNodeAdapter) :
    Pointers.ofStore σ = Pointers.ofStore τ ∧
      (Pointers.ofStore τ).confirmed σ node = (Pointers.ofStore τ).confirmed τ node ∧
      ∀ depth, (Pointers.ofStore τ).safe σ node depth = (Pointers.ofStore τ).safe τ node depth := by
  obtain ⟨htip,hall⟩ := (Bool.and_eq_true _ _).mp hsame
  have htip := eq_of_beq htip
  have hhash : ∀ i, i ≤ getIndexedHeight τ → getBlockHash σ i = getBlockHash τ i := by
    intro i hi
    exact eq_of_beq (List.all_eq_true.mp hall i (List.mem_range.mpr (Nat.lt_succ_of_le hi)))
  have hcand : (Pointers.ofStore τ).candidate ≤ getIndexedHeight τ :=
    (Pointers.ofStore τ).candidate_le.1
  refine ⟨?_,?_,?_⟩
  · rw [Pointers.ofStore, Pointers.ofStore, findMaxStoredBlockHashHeight,
      findMaxStoredBlockHashHeight, hcur, htip, maxBlockHashFrom_congr _ hhash]
  · rw [Pointers.confirmed, Pointers.confirmed, hhash _ hcand]
  · intro depth
    rw [Pointers.safe, Pointers.safe, safeHeight_congr node _ _ fun i hi => hhash i (le_trans hi hcand)]

private theorem healPointersAtomic_run {ss : List Store} {h : Nat}
    (hroll : (rollbackToHeight h).run σ = ⟨ss,.ok ()⟩) : (healPointersAtomic h).run σ =
      if getIndexedHeight σ = h ∧ getRuntimeTipHeight σ = h then ⟨[],.ok ()⟩
      else if getIndexedHeight σ < h then ⟨[],.error (.message s!"heal_pointers_atomic refused to advance tip: current_indexed={getIndexedHeight σ} target={h} (heal only rolls back, never forward)")⟩
      else if h < getIndexedHeight σ then ⟨ss ++ [KV.write (ss.getLastD σ)
        [.put indexedHeightKey (u32le h),.put tipHeightKey (u32le h)]],.ok ()⟩
      else ⟨[KV.write σ [.put indexedHeightKey (u32le h),.put tipHeightKey (u32le h)]],.ok ()⟩ := by
  rw [healPointersAtomic, Prog.run_read_bind, Prog.run_read_bind]
  split_ifs
  · rfl
  · rfl
  · exact Prog.run_bind_ok hroll
  · rfl

/-- Both pointers moved, in both. -/
private theorem Paired.pointers (hp : Paired s σ τ U P LU L) (h : Nat) :
    ∃ P' L', Paired s (KV.write σ [.put indexedHeightKey (u32le h),.put tipHeightKey (u32le h)])
      (KV.write τ [.put indexedHeightKey (u32le h),.put tipHeightKey (u32le h)]) U P' LU L' := by
  obtain ⟨n,hn,hs⟩ := hp.soundPlain
  have hrep := (hp.plain.setIndexed h).setTip h
  refine ⟨_,_,hp.raw ?_ hrep ⟨n,hn,{ hs with }⟩ fun _ => rfl⟩
  intro op hop
  simp only [List.mem_cons, List.not_mem_nil, or_false] at hop
  obtain rfl | rfl := hop
  · exact .inl rfl
  · exact .inr (.inl rfl)

private theorem Paired.healPointers (hp : Paired s σ τ U P LU L) {h : Nat} (hh : h < 2^32)
    (htip : getRuntimeTipHeight σ = getRuntimeTipHeight τ) (hc : coversRollback τ h = true) :
    ∃ ss ss' result, (healPointersAtomic h).run σ = ⟨ss,result⟩ ∧
      (healPointersAtomic h).run τ = ⟨ss',result⟩ ∧
      ∃ U' P' LU' L', Paired s (ss.getLastD σ) (ss'.getLastD τ) U' P' LU' L' := by
  obtain ⟨ss,ss',hσ,hτ,U',P',LU',L',hnew⟩ := hp.rollback hh hc
  have hcur := hp.getIndexedHeight_eq
  have hrunσ := healPointersAtomic_run hσ
  have hrunτ := healPointersAtomic_run hτ
  rw [hcur, htip] at hrunσ
  split_ifs at hrunσ hrunτ
  · exact ⟨_,_,_,hrunσ,hrunτ,U,P,LU,L,hp⟩
  · exact ⟨_,_,_,hrunσ,hrunτ,U,P,LU,L,hp⟩
  · obtain ⟨P'',L'',hend⟩ := hnew.pointers h
    refine ⟨_,_,_,hrunσ,hrunτ,U',P'',LU',L'',?_⟩
    rw [List.getLastD_concat, List.getLastD_concat]
    exact hend
  · obtain ⟨P'',L'',hend⟩ := hp.pointers h
    exact ⟨_,_,_,hrunσ,hrunτ,U,P'',LU,L'',hend⟩

/-- The startup heal of both. -/
theorem Paired.heal {config : SyncConfig} (hp : Paired s σ τ U P LU L)
    (hc : config.enableStartupHeal = false ∨ sameHealRecords σ τ = true ∧
      coversRollback τ (healedHeight τ node config) = true) :
    ∃ ss ss' result, (healPointerDivergenceAtStartup node config).run σ = ⟨ss,result⟩ ∧
      (healPointerDivergenceAtStartup node config).run τ = ⟨ss',result⟩ ∧
      ∃ U' P' LU' L', Paired s (ss.getLastD σ) (ss'.getLastD τ) U' P' LU' L' := by
  have hcur := hp.getIndexedHeight_eq
  cases he : config.enableStartupHeal with
  | false =>
    unfold healPointerDivergenceAtStartup
    rw [he]
    refine ⟨[],[],_,rfl,?_,U,P,LU,L,hp⟩
    simp only [Bool.not_false, if_true, Prog.run_read_bind, hcur]
    rfl
  | true =>
    rw [he] at hc
    obtain ⟨hsame,hcov⟩ := hc.resolve_left (by simp)
    obtain ⟨hptr,hconf,hsafe⟩ := healChecks_congr hcur hsame node
    have htip := eq_of_beq ((Bool.and_eq_true _ _).mp hsame).1
    have hheal : healedHeight τ node config = if (Pointers.ofStore τ).allAgree &&
        (Pointers.ofStore τ).indexedHeight == 0 || (Pointers.ofStore τ).confirmed τ node then
          getIndexedHeight τ else (Pointers.ofStore τ).safe τ node config.maxReorgDepth := by
      rw [healedHeight, he]
      rfl
    unfold healPointerDivergenceAtStartup
    rw [he]
    simp only [Bool.not_true, Bool.false_eq_true, if_false, Prog.run_read_bind, hptr]
    generalize hp' : Pointers.ofStore τ = p at hconf hsafe hheal
    cases hz : p.allAgree && p.indexedHeight == 0 with
    | true => exact ⟨[],[],_,rfl,rfl,U,P,LU,L,hp⟩
    | false =>
      simp only [Bool.false_eq_true, if_false, Prog.run_read_bind, hconf]
      cases hcf : p.confirmed τ node with
      | true => exact ⟨[],[],_,rfl,rfl,U,P,LU,L,hp⟩
      | false =>
        simp only [Bool.false_eq_true, if_false, Prog.run_read_bind, hsafe]
        rw [hz, hcf] at hheal
        have hheal : healedHeight τ node config = p.safe τ node config.maxReorgDepth := hheal
        rw [hheal] at hcov
        have hle : p.safe τ node config.maxReorgDepth < 2^32 := by
          have h1 := p.safe_le τ node config.maxReorgDepth
          have h2 := p.candidate_le.1
          have h3 : p.indexedHeight = getIndexedHeight τ := by rw [← hp']; rfl
          have h4 := readPointer_lt indexedHeightKey τ
          rw [getIndexedHeight] at h3
          omega
        split_ifs
        · obtain ⟨ss,ss',result,hσ,hτ,hnew⟩ := hp.healPointers hle htip hcov
          cases result with
          | error e => exact ⟨ss,ss',_,Prog.run_bind_error hσ,Prog.run_bind_error hτ,hnew⟩
          | ok u =>
            refine ⟨ss ++ [],ss' ++ [],_,Prog.run_bind_ok hσ,Prog.run_bind_ok hτ,?_⟩
            rw [List.append_nil, List.append_nil]
            exact hnew
        · exact ⟨[],[],_,rfl,rfl,U,P,LU,L,hp⟩

end Heal

section Calls

variable {s : Bytes} {σ τ U P : Store} {LU L : Ledger}

private theorem writeFlush_of_batch {label : Bytes} {h : Nat} {kvs : List (Bytes × Bytes)}
    {batch : List Op} (hb : StoreCall.labelledBatch label σ h kvs = .ok batch)
    (htip : KV.effect batch (label ++ tipHeightKey) ≠ none) (adapterHeight : Nat) :
    StoreCall.writeFlush label σ adapterHeight h kvs =
      (addU32 adapterHeight 1).map fun _ => KV.write σ batch := by
  rw [StoreCall.writeFlush, hb]
  show ((runtimeHandle adapterHeight).write label ⟨[σ],[],[]⟩ batch).bind
    (fun (ρ : Heap) => Except.ok (ρ.db 0)) = _
  rw [RocksDBRuntimeAdapter.write]
  show (((runtimeHandle adapterHeight).createAtomicBatch label batch).bind fun ops =>
    Except.ok (Heap.writeDb ⟨[σ],[],[]⟩ 0 ops)).bind (fun (ρ : Heap) => Except.ok (ρ.db 0)) = _
  rw [RocksDBRuntimeAdapter.createAtomicBatch]
  show (((addU32 adapterHeight 1).bind fun tip => Except.ok (KV.Op.put (makeLabeledKey label
    tipHeightKey) (u32le tip)::batch)).bind _).bind _ = _
  cases addU32 adapterHeight 1 with
  | error e => rfl
  | ok tip => exact congrArg Except.ok (KV.write_cons htip)

private theorem writeFlush_of_error {label : Bytes} {h : Nat} {kvs : List (Bytes × Bytes)} {e : Fault}
    (hb : StoreCall.labelledBatch label σ h kvs = .error e) (adapterHeight : Nat) :
    StoreCall.writeFlush label σ adapterHeight h kvs = .error e := by
  rw [StoreCall.writeFlush, hb]
  rfl

private theorem commitFlush_of_batch {label : Bytes} {h : Nat} {b : Block} {batch : List Op}
    (hb : StoreCall.labelledBatch label σ h b.flush.list = .ok batch) :
    StoreCall.commitFlush label σ h b =
      if !isFreshDb σ && h != saturatingSucc (getIndexedHeight σ) then
        .error (.message s!"out-of-order commit rejected: attempted height {h} but current tip is {getIndexedHeight σ} (commit_atomic only accepts height == tip + 1)")
      else .ok (KV.write (KV.write σ batch) (commitOps h b.hash b.stateRoot [])) := by
  rw [StoreCall.commitFlush, hb]
  show ((commitAtomic h b.hash b.stateRoot batch).exec σ).bind
    (fun done => Except.ok done.2) = _
  have hrun := commitAtomic_eq σ h b.hash b.stateRoot batch
  split_ifs at hrun ⊢
  · rw [Prog.exec_error hrun]
    rfl
  · rw [Prog.exec_ok hrun, ← KV.write_append]
    rfl

private theorem commitFlush_of_error {label : Bytes} {h : Nat} {b : Block} {e : Fault}
    (hb : StoreCall.labelledBatch label σ h b.flush.list = .error e) :
    StoreCall.commitFlush label σ h b = .error e := by
  rw [StoreCall.commitFlush, hb]
  rfl

/-- The pairs of stores that runs under a label keep to. -/
def Twinned (s : Bytes) (σ τ : Store) : Prop := ∃ U P LU L, Paired s σ τ U P LU L

/-- One call answers the same under the label and without one. -/
def SameCall (s : Bytes) (c : StoreCall) (σ τ : Store) : Prop :=
  (c.run (labelBytes (some s)) σ).1 = (c.run [] τ).1 ∧
    Twinned s (c.run (labelBytes (some s)) σ).2 (c.run [] τ).2

private theorem Paired.call_flush {a h : Nat} {f : Flush} (hp : Paired s σ τ U P LU L) (hh : h < 2^32)
    (hf : fitsFlush τ h f.list = true) : SameCall s (.flush a h f) σ τ := by
  rw [SameCall, StoreCall.run, StoreCall.run]
  rcases hp.batch h f.list with ⟨e,hσ,hτ⟩ | ⟨st,hU,hst,hσ,hτ⟩
  · rw [writeFlush_of_error hσ, writeFlush_of_error hτ]
    exact ⟨rfl,U,P,LU,L,hp⟩
  · rw [writeFlush_of_batch hσ (by rw [KV.effect_behind, effect_batchOps_tip]; simp),
      writeFlush_of_batch hτ (by rw [List.nil_append, effect_batchOps_tip]; simp)]
    cases addU32 a 1 with
    | error e => exact ⟨rfl,U,P,LU,L,hp⟩
    | ok tip =>
      obtain ⟨U',hnew,_⟩ := hp.flush hh hf hU hst
      exact ⟨rfl,_,_,_,_,hnew⟩

private theorem Paired.call_commit {h : Nat} {b : Block} (hp : Paired s σ τ U P LU L) (hh : h < 2^32)
    (hf : fitsFlush τ h b.flush.list = true) : SameCall s (.commit h b) σ τ := by
  rw [SameCall, StoreCall.run, StoreCall.run]
  rcases hp.batch h b.flush.list with ⟨e,hσ,hτ⟩ | ⟨st,hU,hst,hσ,hτ⟩
  · rw [commitFlush_of_error hσ, commitFlush_of_error hτ]
    exact ⟨rfl,U,P,LU,L,hp⟩
  · rw [commitFlush_of_batch hσ, commitFlush_of_batch hτ, hp.isFreshDb_eq, hp.getIndexedHeight_eq]
    split_ifs
    · exact ⟨rfl,U,P,LU,L,hp⟩
    · obtain ⟨U',hnew,_⟩ := hp.flush hh hf hU hst
      obtain ⟨P',hend⟩ := hnew.commitRecords hh b.hash b.stateRoot
      exact ⟨rfl,_,_,_,_,hend⟩

/-- Every call that keeps to the conditions. -/
theorem Twinned.call {c : StoreCall} {answers : List (StoreAnswer × StoreAnswer)} (h : Twinned s σ τ)
    (hrange : c.inRange = true) (hc : (Twins.mk σ τ answers).agrees (some s) c = true) :
    SameCall s c σ τ := by
  obtain ⟨U,P,LU,L,hp⟩ := h
  cases c with
  | flush a height f =>
    exact hp.call_flush (of_decide_eq_true ((Bool.and_eq_true _ _).mp hrange).2) hc
  | commit height b => exact hp.call_commit (of_decide_eq_true hrange) hc
  | rollback height =>
    obtain ⟨ss,ss',hσ,hτ,hnew⟩ := hp.rollback (of_decide_eq_true hrange) hc
    rw [SameCall, StoreCall.run, StoreCall.run]
    simp only [hσ, hτ, Prog.finalState_eq hσ, Prog.finalState_eq hτ]
    exact ⟨trivial,hnew⟩
  | heal node config =>
    have hheal : config.enableStartupHeal = false ∨ sameHealRecords σ τ = true ∧
        coversRollback τ (healedHeight τ node config) = true := by
      simpa [Twins.agrees] using hc
    obtain ⟨ss,ss',result,hσ,hτ,hnew⟩ := hp.heal hheal
    rw [SameCall, StoreCall.run, StoreCall.run]
    simp only [hσ, hτ, Prog.finalState_eq hσ, Prog.finalState_eq hτ]
    exact ⟨trivial,hnew⟩
  | scanPrefix pre =>
    have hnone : (∀ name ∈ σ.keys, (labelBytes (some s) ++ pre).isPrefixOf name = false) ∧
        ∀ name ∈ τ.keys, ([] ++ pre).isPrefixOf name = false := by
      simpa [Twins.agrees] using hc
    rw [SameCall, StoreCall.run, StoreCall.run, scanPrefix_nil hnone.1, scanPrefix_nil hnone.2]
    exact ⟨rfl,U,P,LU,L,hp⟩
  | keys =>
    have hnone : KV.get σ (labelBytes (some s) ++ tipHeightKey) = none := by
      simpa [Twins.agrees] using hc
    rw [hp.splits.under] at hnone
    obtain rfl := hp.fresh hnone
    exact ⟨rfl,U,P,LU,L,hp⟩
  | getAtHeight key height =>
    rw [SameCall, StoreCall.run, StoreCall.run, hp.getAtHeight_eq]
    exact ⟨rfl,U,P,LU,L,hp⟩

end Calls

namespace Twins

variable {label : Option Bytes} {s s' : Twins}

/-- What holds of both databases and of all answers so far. -/
structure Alike (label : Option Bytes) (s : Twins) : Prop where
  answers : ∀ p ∈ s.answers, p.1 = p.2
  stores : match label with
    | none => s.labelled = s.plain
    | some l => Twinned l s.labelled s.plain

theorem Alike.init (label : Option Bytes) : init.Alike label where
  answers _ h := absurd h List.not_mem_nil
  stores := by
    cases label with
    | none => rfl
    | some l => exact ⟨_,_,_,_,.empty l⟩

private theorem answers_append {c : StoreCall}
    (hs : ∀ p ∈ s.answers, p.1 = p.2)
    (hc : (c.run (labelBytes label) s.labelled).1 = (c.run [] s.plain).1) :
    ∀ p ∈ s.answers ++ [((c.run (labelBytes label) s.labelled).1,(c.run [] s.plain).1)], p.1 = p.2 := by
  intro p hp
  rcases List.mem_append.mp hp with h | h
  · exact hs p h
  · rw [List.mem_singleton.mp h]
    exact hc

theorem Alike.step {c : StoreCall} (hs : s.Alike label) (hc : s.agrees label c = true)
    (hstep : s.step label c = some s') : s'.Alike label := by
  rw [Twins.step] at hstep
  split_ifs at hstep with hrange
  cases hstep
  cases label with
  | none =>
    have hsame : s.labelled = s.plain := hs.stores
    constructor
    · apply answers_append hs.answers
      rw [hsame]
      rfl
    · show (c.run (labelBytes none) s.labelled).2 = (c.run [] s.plain).2
      rw [hsame]
      rfl
  | some l =>
    have htwins : Twinned l s.labelled s.plain := hs.stores
    obtain ⟨hanswer,hnext⟩ := htwins.call hrange hc
    exact ⟨answers_append hs.answers hanswer,hnext⟩

/-- A run under a label whose calls keep to the conditions answers as with no label, and nothing of it
is found under a label that neither extends this one nor is extended by it. -/
theorem label_transparent (h : Run (step label) (fun s c => s.agrees label c = true) init s) :
    (∀ p ∈ s.answers, p.1 = p.2) ∧ ∀ other, ¬labelBytes label <+: other →
      ¬other <+: labelBytes label → ∀ key height,
        getAtHeight (labelledDB other s.labelled) key height = .ok none := by
  have hs : s.Alike label := h.invariant (Alike.init label) fun t c t' ht hc hstep => ht.step hc hstep
  refine ⟨hs.answers,?_⟩
  intro other h1 h2 key height
  cases label with
  | none => exact absurd (List.nil_prefix) h1
  | some l =>
    obtain ⟨U,P,LU,L,hp⟩ : Twinned l s.labelled s.plain := hs.stores
    exact hp.getAtHeight_other h1 h2 key height

private def firstBlock : Block := ⟨.single 'a' [1],[7],[8]⟩

private def secondBlock : Block := ⟨.single 'a' [2],[9],[10]⟩

private def unreachable : BitcoinNodeAdapter := ⟨false,.error "",fun _ => .error "",fun _ => .error ""⟩

private def healing : SyncConfig := ⟨0,none,6,3,true⟩

private def firstLabel : Option Bytes := some (ascii "x")

/-- Keys, a scan and a heal while they agree, two blocks, a lookup, and a rollback. -/
private def agreeingCalls : List StoreCall :=
  [.keys,.commit 0 firstBlock,.heal unreachable healing,.scanPrefix (ascii "b"),
    .commit 1 secondBlock,.getAtHeight (ascii "a") 1,.rollback 0,.getAtHeight (ascii "a") 1]

theorem label_transparent_two_blocks :
    ∃ s, Run (step firstLabel) (fun s c => s.agrees firstLabel c = true) init s ∧
      (∀ p ∈ s.answers, p.1 = p.2) ∧ s.answers.length = 8 ∧
      getAtHeight (labelledDB (labelBytes (some (ascii "y"))) s.labelled) (ascii "a") 0 = .ok none := by
  have hrun : (follow (step firstLabel) (fun s c => s.agrees firstLabel c = true) init
      agreeingCalls).any (fun s => s.answers.length == 8) = true := by decide +kernel
  obtain ⟨s,hs,hlen⟩ := Run.exists_of_follow (fun _ _ _ h => h) hrun
  obtain ⟨hsame,hother⟩ := label_transparent hs
  exact ⟨s,hs,hsame,eq_of_beq hlen,hother _ (by decide) (by decide) _ _⟩

private def healedTo : StoreAnswer → Option Nat
  | .healed (.ok r) => some r.1
  | .healed (.error _) => none
  | .done _ => none
  | .entries _ => none
  | .keys _ => none
  | .value _ => none

/-- The runtime's tip pointer is written under the label and read without it: after two blocks the
startup heal goes back to height 0. -/
theorem label_undoes_chain : ∃ s, Run (step firstLabel) (fun _ _ => True) init s ∧
    ¬∀ p ∈ s.answers, p.1 = p.2 := by
  have hrun : (follow (step firstLabel) (fun _ _ => True) init
      [.commit 0 firstBlock,.commit 1 secondBlock,.heal unreachable healing]).any
        (fun s => s.answers.any fun p => healedTo p.1 == some 0 && healedTo p.2 == some 1) = true := by
    decide +kernel
  obtain ⟨s,hs,hany⟩ := Run.exists_of_follow (fun _ _ _ h => h) hrun
  refine ⟨s,hs,?_⟩
  intro hall
  obtain ⟨p,hp,h⟩ := List.any_eq_true.mp hany
  obtain ⟨h1,h2⟩ := (Bool.and_eq_true _ _).mp h
  rw [hall p hp, beq_iff_eq] at h1
  rw [h1] at h2
  cases h2

end Twins

end Metashrew
