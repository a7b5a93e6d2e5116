import Metashrew.Sync.InOrder

namespace Metashrew

open Bytes Durable

section Walk

variable {σ : Store} {node : BitcoinNodeAdapter} {floor : Nat}

/-- The stored hash at `h` is the node's. -/
def SameHash (σ : Store) (node : BitcoinNodeAdapter) (h : Nat) : Prop :=
  ∃ hash, getBlockHash σ h = some hash ∧ node.getBlockHash h = .ok hash

/-- The stored hash at `h` is not the node's. -/
def OtherHash (σ : Store) (node : BitcoinNodeAdapter) (h : Nat) : Prop :=
  ∃ localHash remoteHash, getBlockHash σ h = some localHash ∧
    node.getBlockHash h = .ok remoteHash ∧ localHash ≠ remoteHash

theorem reorgWalk_below {h : Nat} {d : Bool} (hf : h < floor ∨ h = 0) :
    reorgWalk σ node floor h d = some (h,d) := by
  cases h with
  | zero => rfl
  | succ h => rw [reorgWalk, if_pos (by omega)]

theorem reorgWalk_same {h : Nat} {d : Bool} (hs : SameHash σ node h) :
    reorgWalk σ node floor h d = some (h,d) := by
  obtain ⟨hash,hlocal,hremote⟩ := hs
  cases h with
  | zero => rfl
  | succ h =>
    rw [reorgWalk, hlocal, hremote]
    simp

theorem reorgWalk_other {h : Nat} {d : Bool} (hf : floor ≤ h+1) (ho : OtherHash σ node (h+1)) :
    reorgWalk σ node floor (h+1) d = reorgWalk σ node floor h true := by
  obtain ⟨localHash,remoteHash,hlocal,hremote,hne⟩ := ho
  rw [reorgWalk, if_neg (by omega), hlocal, hremote]
  simp [hne]

theorem reorgWalk_gap {h : Nat} {d : Bool} (hf : floor ≤ h+1) (hn : getBlockHash σ (h+1) = none) :
    reorgWalk σ node floor (h+1) d = reorgWalk σ node floor h d := by
  rw [reorgWalk, if_neg (by omega), hn]

/-- Where a walk can stop, with a node that answers. -/
theorem reorgWalk_answered (floor h : Nat) (d : Bool)
    (hnode : ∀ k ≤ h, ∃ hash, node.getBlockHash k = .ok hash) (hf : floor ≤ h+1) :
    ∃ r d', floor ≤ r+1 ∧ reorgWalk σ node floor h d = some (r,d') := by
  induction h generalizing d with
  | zero => exact ⟨0,d,hf,rfl⟩
  | succ h ih =>
    by_cases hb : h+1 < floor
    · exact ⟨h+1,d,hf,reorgWalk_below (.inl hb)⟩
    · have ih := fun d => ih d (fun k hk => hnode k (by omega)) (by omega)
      cases hlocal : getBlockHash σ (h+1) with
      | none =>
        rw [reorgWalk_gap (by omega) hlocal]
        exact ih d
      | some localHash =>
        obtain ⟨remoteHash,hremote⟩ := hnode (h+1) le_rfl
        by_cases he : localHash=remoteHash
        · exact ⟨h+1,d,hf,reorgWalk_same ⟨localHash,hlocal,he ▸ hremote⟩⟩
        · rw [reorgWalk_other (by omega) ⟨localHash,remoteHash,hlocal,hremote,he⟩]
          exact ih true

theorem reorgWalk_le {floor h r : Nat} {d d' : Bool}
    (hw : reorgWalk σ node floor h d = some (r,d')) : r ≤ h := by
  induction h generalizing d with
  | zero =>
    cases hw
    exact le_rfl
  | succ h ih =>
    rw [reorgWalk] at hw
    split_ifs at hw with hf
    · cases hw
      exact le_rfl
    · split at hw
      · exact (ih hw).trans (Nat.le_succ h)
      · split at hw
        · cases hw
        · split_ifs at hw
          · cases hw
            exact le_rfl
          · exact (ih hw).trans (Nat.le_succ h)

/-- A walk that detects a different hash has gone below it. -/
theorem reorgWalk_lt {floor h r : Nat} (hw : reorgWalk σ node floor h false = some (r,true)) :
    r < h := by
  induction h with
  | zero => cases hw
  | succ h ih =>
    rw [reorgWalk] at hw
    split_ifs at hw with hf
    · cases hw
    split at hw
    · exact (ih hw).trans (Nat.lt_succ_self h)
    · split at hw
      · cases hw
      · split_ifs at hw
        · cases hw
        · exact Nat.lt_succ_of_le (reorgWalk_le hw)

/-- Over different hashes and heights without one the walk comes down to `a`, and it has detected
something if a hash is stored in between. -/
theorem reorgWalk_down {a : Nat} (hf : floor ≤ a+1) (n : Nat) (d : Bool)
    (ho : ∀ h, a < h → h ≤ a+n → (getBlockHash σ h).isSome → OtherHash σ node h) :
    ∃ d', reorgWalk σ node floor (a+n) d = reorgWalk σ node floor a d' ∧
      (d' = true ↔ d = true ∨ ∃ h, a < h ∧ h ≤ a+n ∧ (getBlockHash σ h).isSome) := by
  induction n generalizing d with
  | zero =>
    refine ⟨d,rfl,.inl,?_⟩
    rintro (hd | ⟨h,h1,h2,_⟩)
    · exact hd
    · omega
  | succ n ih =>
    have ih := fun d => ih d fun h h1 h2 => ho h h1 (by omega)
    rw [← Nat.add_assoc]
    cases hlocal : getBlockHash σ (a+n+1) with
    | none =>
      rw [reorgWalk_gap (by omega) hlocal]
      obtain ⟨d',hwalk,hd'⟩ := ih d
      refine ⟨d',hwalk,hd'.trans (or_congr_right ⟨?_,?_⟩)⟩
      · rintro ⟨h,h1,h2,hs⟩
        exact ⟨h,h1,by omega,hs⟩
      · rintro ⟨h,h1,h2,hs⟩
        rcases Nat.lt_or_eq_of_le h2 with h2 | rfl
        · exact ⟨h,h1,by omega,hs⟩
        · simp [hlocal] at hs
    | some hash =>
      have hs : (getBlockHash σ (a+n+1)).isSome = true := by rw [hlocal]; rfl
      rw [reorgWalk_other (by omega) (ho _ (by omega) (by omega) hs)]
      obtain ⟨d',hwalk,hd'⟩ := ih true
      exact ⟨d',hwalk,fun _ => .inr ⟨a+n+1,by omega,le_rfl,hs⟩,fun _ => hd'.mpr (.inl rfl)⟩

/-- Without a different hash below, no walk detects one. -/
theorem reorgWalk_undetected (floor h : Nat)
    (hs : ∀ k ≤ h, ∀ hash, getBlockHash σ k = some hash → node.getBlockHash k = .ok hash) :
    ∃ r, reorgWalk σ node floor h false = some (r,false) := by
  induction h with
  | zero => exact ⟨0,rfl⟩
  | succ h ih =>
    by_cases hb : h+1 < floor
    · exact ⟨h+1,reorgWalk_below (.inl hb)⟩
    · cases hlocal : getBlockHash σ (h+1) with
      | none =>
        rw [reorgWalk, if_neg hb, hlocal]
        exact ih fun k hk => hs k (by omega)
      | some hash =>
        exact ⟨h+1,reorgWalk_same ⟨hash,hlocal,hs (h+1) le_rfl hash hlocal⟩⟩

end Walk

/-- A chain stored up to the tip; some heights may have no hash. -/
structure LocalChain (σ : Store) (t : Nat) : Prop where
  bare : Bare Reserved σ
  tip : getIndexedHeight σ = t
  small : t+1<2^32

theorem LocalChain.first {σ : Store} {h : Nat} {b : Block}
    (hp : ∀ kv ∈ b.flush.list, ¬Reserved kv.1) (hh : h+1<2^32)
    (hc : commitBlock ∅ h b = .ok σ) : LocalChain σ h := by
  obtain ⟨ops,ho,hcall⟩ := commitBlock_call hp hc
  have hl := InOrder.empty.commit hh ho hcall
  exact ⟨hl.bare,hl.tip,hh⟩

theorem LocalChain.commit {σ σ' : Store} {t : Nat} {b : Block} (hl : LocalChain σ t)
    (hp : ∀ kv ∈ b.flush.list, ¬Reserved kv.1) (hh : t+1+1<2^32)
    (hc : commitBlock σ (t+1) b = .ok σ') : LocalChain σ' (t+1) := by
  obtain ⟨ops,ho,hcall⟩ := commitBlock_call hp hc
  obtain ⟨_,rfl⟩ := commitAtomic_cases hcall
  exact ⟨commitOps_bare hl.bare ho,commitOps_indexed (by omega),hh⟩

/-- Committing blocks of plain keys stores such a chain. -/
theorem LocalChain.commits {blocks : List Block} {σ σ' : Store} {t : Nat}
    (hl : LocalChain σ t) (hp : PlainKeys blocks) (hh : t+blocks.length+1<2^32)
    (hc : commitBlocks (t+1) σ blocks = .ok σ') : LocalChain σ' (t+blocks.length) := by
  induction blocks generalizing σ t with
  | nil =>
    cases hc
    exact hl
  | cons b bs ih =>
    rw [commitBlocks] at hc
    rw [List.length_cons] at hh
    cases hb : commitBlock σ (t+1) b with
    | error e =>
      rw [hb] at hc
      cases hc
    | ok σ1 =>
      rw [hb] at hc
      have h1 := hl.commit (hp b (by simp)) (by omega) hb
      have hlen : t+(b::bs).length = t+1+bs.length := by
        rw [List.length_cons]
        omega
      rw [hlen]
      exact ih h1 (fun c hmem => hp c (by simp [hmem])) (by omega) hc

/-- The node answers, and its chain leaves the local one after `a`: up to `a` the stored hashes are
the node's, above it they are not. -/
structure Diverges (σ : Store) (node : BitcoinNodeAdapter) (a t : Nat) : Prop where
  lt : a < t
  answers : ∀ h ≤ t, ∃ hash, node.getBlockHash h = .ok hash
  same : ∀ h ≤ a, (getBlockHash σ h).isSome → SameHash σ node h
  other : ∀ h, a < h → h ≤ t → (getBlockHash σ h).isSome → OtherHash σ node h

/-- The walk down from the tip meets a stored hash above `a` and stops at `a`. -/
def SeesAncestor (σ : Store) (config : SyncConfig) (a t : Nat) : Prop :=
  (∃ h, a < h ∧ h ≤ t ∧ (getBlockHash σ h).isSome) ∧
    ((getBlockHash σ a).isSome ∨ a = 0 ∨ t = a+config.maxReorgDepth)

/-- What the handling of a reorg owes: the rollback to the common ancestor, or an error without any
change when the ancestor is too deep. -/
def FindsAncestor (σ : Store) (node : BitcoinNodeAdapter) (refresh : Except String Unit)
    (config : SyncConfig) (a t : Nat) : Prop :=
  (config.startBlock ≤ a ∧ ∃ σ', (handleReorg (t+1) node refresh config).exec σ = .ok (a+1,σ') ∧
    (rollbackToHeight a).exec σ = .ok ((),σ')) ∨
  ((∃ e, (handleReorg (t+1) node refresh config).exec σ = .error e) ∧
    (handleReorg (t+1) node refresh config).finalState σ = σ ∧ a+config.maxReorgDepth < t)

section Reorg

variable {σ : Store} {node : BitcoinNodeAdapter} {refresh : Except String Unit}
  {config : SyncConfig} {a t : Nat}

theorem exec_eq_of_run {α : Type} {p q : DbProg α} {σ : Store} (h : p.run σ = q.run σ) :
    p.exec σ = q.exec σ ∧ p.finalState σ = q.finalState σ := by
  rw [Prog.exec, Prog.exec, Prog.finalState, Prog.finalState, h]
  exact ⟨rfl,rfl⟩

/-- Without a detection nothing happens. -/
theorem handleReorg_quiet {c : Nat} (hc : 0 < c) {r : Nat}
    (hw : reorgWalk σ node (c-config.maxReorgDepth) (c-1) false = some (r,false)) :
    (handleReorg c node refresh config).run σ = ⟨[],.ok c⟩ := by
  rw [handleReorg, if_neg (by omega), Prog.run_read_bind, hw]
  rfl

/-- Nor does anything when the node fails on the walk. -/
theorem handleReorg_unmoved {c : Nat}
    (hw : ∀ r, reorgWalk σ node (c-config.maxReorgDepth) (c-1) false ≠ some (r,true)) :
    (handleReorg c node refresh config).run σ = ⟨[],.ok c⟩ := by
  rcases Nat.eq_zero_or_pos c with h0 | hc
  · rw [handleReorg, if_pos h0, h0]
    rfl
  · cases hwalk : reorgWalk σ node (c-config.maxReorgDepth) (c-1) false with
    | none =>
      rw [handleReorg, if_neg (by omega), Prog.run_read_bind, hwalk]
      rfl
    | some w =>
      obtain ⟨r,d⟩ := w
      cases d with
      | false => exact handleReorg_quiet hc hwalk
      | true => exact absurd hwalk (hw r)

/-- With one the store is rolled back, and the refresh decides the result. -/
theorem handleReorg_rolls (refresh : Except String Unit) {c r : Nat} (hc : 0 < c) {σ' : Store}
    (hw : reorgWalk σ node (c-config.maxReorgDepth) (c-1) false = some (r,true))
    (hroll : (rollbackToHeight r).exec σ = .ok ((),σ')) :
    (handleReorg c node refresh config).finalState σ = σ' ∧
      (handleReorg c node refresh config).exec σ =
        match refresh with
        | .error e => .error (.message e)
        | .ok () => .ok (r+1,σ') := by
  have hrun : (handleReorg c node refresh config).run σ = (rollbackToHeight r >>= fun _ =>
      match refresh with
      | .error e => (.fail (.message e) : DbProg Nat)
      | .ok () => return r+1).run σ := by
    rw [handleReorg, if_neg (by omega), Prog.run_read_bind, hw]
    rfl
  obtain ⟨he,hfin⟩ := exec_eq_of_run hrun
  rw [he, hfin, Prog.exec_bind hroll]
  rw [Prog.exec] at hroll
  cases hr : (rollbackToHeight r).run σ with
  | mk ss res =>
    rw [Prog.finalState_eq hr, hr] at hroll
    cases res with
    | error e => cases hroll
    | ok u =>
      cases hroll
      have hb := fun f : Unit → DbProg Nat => Prog.run_bind_ok (f := f) hr
      cases refresh with
      | error e =>
        refine ⟨?_,rfl⟩
        rw [Prog.finalState_eq (hb _)]
        simp
      | ok v =>
        refine ⟨?_,rfl⟩
        rw [Prog.finalState_eq (hb _)]
        simp

/-- Up to the ancestor nothing differs, so a walk from there detects nothing. -/
theorem Diverges.quiet (hd : Diverges σ node a t) (floor : Nat) :
    ∃ r, reorgWalk σ node floor a false = some (r,false) := by
  apply reorgWalk_undetected
  intro k hk hash hlocal
  obtain ⟨hash',hlocal',hremote⟩ := hd.same k hk (by rw [hlocal]; rfl)
  cases hlocal.symm.trans hlocal'
  exact hremote

/-- When the walk comes down to the common ancestor. -/
theorem reorgWalk_ancestor (hd : Diverges σ node a t) {r : Nat} {d : Bool}
    (hfr : t+1-config.maxReorgDepth ≤ r+1)
    (hw : reorgWalk σ node (t+1-config.maxReorgDepth) t false = some (r,d)) :
    r = a ∧ d = true ↔ t ≤ a+config.maxReorgDepth ∧ SeesAncestor σ config a t := by
  have hlt := hd.lt
  by_cases hf : t+1-config.maxReorgDepth ≤ a+1
  · have hlow : t ≠ a+config.maxReorgDepth → t+1-config.maxReorgDepth ≤ a := by omega
    obtain ⟨d',hdown,hd'⟩ := reorgWalk_down hf (t-a) false fun h h1 h2 => hd.other h h1 (by omega)
    rw [show a+(t-a) = t by omega] at hdown hd'
    rw [hw] at hdown
    simp only [Bool.false_eq_true, false_or] at hd'
    constructor
    · rintro ⟨rfl,rfl⟩
      cases d' with
      | false =>
        obtain ⟨r',hquiet⟩ := hd.quiet (t+1-config.maxReorgDepth)
        rw [hquiet] at hdown
        cases hdown
      | true =>
        refine ⟨by omega,hd'.mp rfl,?_⟩
        by_contra hno
        simp only [not_or, Bool.not_eq_true, Option.isSome_eq_false_iff, Option.isNone_iff_eq_none]
          at hno
        obtain ⟨hn,h0,hdepth⟩ := hno
        obtain ⟨k,rfl⟩ := Nat.exists_eq_add_one_of_ne_zero h0
        rw [reorgWalk_gap (hlow hdepth) hn] at hdown
        have := reorgWalk_le hdown.symm
        omega
    · rintro ⟨hle,habove,hstop⟩
      rw [hd'.mpr habove] at hdown
      have hat : reorgWalk σ node (t+1-config.maxReorgDepth) a true = some (a,true) := by
        rcases hstop with hs | h0 | hdepth
        · exact reorgWalk_same (hd.same a le_rfl hs)
        · exact reorgWalk_below (.inr h0)
        · exact reorgWalk_below (.inl (by omega))
      cases hdown.trans hat
      exact ⟨rfl,rfl⟩
  · constructor
    · rintro ⟨rfl,_⟩
      exact absurd hfr hf
    · intro ⟨hle,_⟩
      omega

/-- The handling of a reorg finds the common ancestor exactly when the ancestor is a height from the
start block on and within the configured depth, the stored hashes show it and the runtime can be
refreshed. -/
theorem finds_ancestor_iff (σ : Store) (node : BitcoinNodeAdapter) (refresh : Except String Unit)
    (config : SyncConfig) (a t : Nat) (hl : LocalChain σ t) (hd : Diverges σ node a t) :
    FindsAncestor σ node refresh config a t ↔
      config.startBlock ≤ a ∧ t ≤ a+config.maxReorgDepth ∧ SeesAncestor σ config a t ∧
        refresh = .ok () := by
  have hlt := hd.lt
  obtain ⟨r,d,hfr,hwalk⟩ := reorgWalk_answered (σ := σ) (t+1-config.maxReorgDepth) t false
    hd.answers (by omega)
  have hfound := reorgWalk_ancestor hd hfr hwalk
  cases d with
  | false =>
    have hq : (handleReorg (t+1) node refresh config).run σ = ⟨[],.ok (t+1)⟩ :=
      handleReorg_quiet (by omega) hwalk
    rw [FindsAncestor, Prog.exec_ok hq]
    constructor
    · rintro (⟨_,σ',he,_⟩ | ⟨⟨e,he⟩,_⟩)
      · cases he
        omega
      · cases he
    · intro ⟨_,hle,hsees,_⟩
      cases (hfound.mpr ⟨hle,hsees⟩).2
  | true =>
    have hrt := reorgWalk_lt hwalk
    have hsmall := hl.small
    obtain ⟨σ',hroll⟩ := rollbackToHeight_done hl.bare r
    obtain ⟨hfin,hexec⟩ := handleReorg_rolls refresh (by omega) hwalk hroll
    obtain ⟨hi,_⟩ := rollbackToHeight_keeps hl.bare (by omega : r<2^32) hroll
    have hmoved : σ'≠σ := by
      rintro rfl
      have := hl.tip
      omega
    rw [FindsAncestor, hexec, hfin]
    constructor
    · rintro (⟨hs,σ'',he,_⟩ | ⟨_,hsame,_⟩)
      · cases refresh with
        | error e => cases he
        | ok u =>
          obtain ⟨hra,_⟩ := Prod.mk.inj (Except.ok.inj he)
          obtain ⟨hle,hsees⟩ := hfound.mp ⟨by omega,rfl⟩
          exact ⟨hs,hle,hsees,rfl⟩
      · exact absurd hsame hmoved
    · rintro ⟨hs,hle,hsees,rfl⟩
      obtain ⟨rfl,_⟩ := hfound.mpr ⟨hle,hsees⟩
      exact .inl ⟨hs,σ',rfl,hroll⟩

end Reorg

private def ancestorRun : List Block :=
  [⟨.nil,[10],[]⟩,⟨.nil,[11],[]⟩,⟨.nil,[12],[]⟩]

private theorem ancestorRun_stored :
    ∃ σ, commitBlocks 0 ∅ ancestorRun = .ok σ ∧ LocalChain σ 2 := by
  have hrun : (commitBlocks 0 ∅ ancestorRun).toOption.isSome = true := by decide +kernel
  cases hσ : commitBlocks 0 ∅ ancestorRun with
  | error e =>
    rw [hσ] at hrun
    cases hrun
  | ok σ =>
    refine ⟨σ,rfl,?_⟩
    rw [ancestorRun, commitBlocks] at hσ
    cases hb : commitBlock ∅ 0 ⟨.nil,[10],[]⟩ with
    | error e =>
      rw [hb] at hσ
      cases hσ
    | ok σ1 =>
      rw [hb] at hσ
      have h1 := LocalChain.first (by simp) (by decide) hb
      exact h1.commits (by unfold PlainKeys; decide) (by decide) hσ

/-- A node whose chain leaves the stored one after height 0. -/
private def otherNode : BitcoinNodeAdapter where
  isConnected := true
  getTipHeight := .ok 2
  getBlockHash h := .ok (if h = 0 then [10] else [99])
  getBlockData _ := .ok []

private def ancestorConfig (maxReorgDepth : Nat) : SyncConfig where
  startBlock := 0
  exitAt := none
  maxReorgDepth
  reorgCheckThreshold := 6
  enableStartupHeal := true

private theorem ancestorRun_hashes {σ : Store} (hσ : commitBlocks 0 ∅ ancestorRun = .ok σ) :
    getBlockHash σ 0 = some [10] ∧ getBlockHash σ 1 = some [11] ∧
      getBlockHash σ 2 = some [12] := by
  have hrun : (commitBlocks 0 ∅ ancestorRun).toOption.all (fun σ =>
      getBlockHash σ 0 == some [10] && getBlockHash σ 1 == some [11] &&
        getBlockHash σ 2 == some [12]) = true := by decide +kernel
  rw [hσ] at hrun
  simpa only [Except.toOption, Option.all_some, Bool.and_eq_true, beq_iff_eq, and_assoc] using hrun

private theorem ancestorRun_diverges {σ : Store} (hσ : commitBlocks 0 ∅ ancestorRun = .ok σ) :
    Diverges σ otherNode 0 2 := by
  obtain ⟨h0,h1,h2⟩ := ancestorRun_hashes hσ
  constructor
  · decide
  · exact fun h _ => ⟨_,rfl⟩
  · intro h hle _
    obtain rfl : h=0 := by omega
    exact ⟨_,h0,rfl⟩
  · intro h hpos hle _
    obtain rfl | rfl : h=1 ∨ h=2 := by omega
    · exact ⟨_,_,h1,rfl,by decide⟩
    · exact ⟨_,_,h2,rfl,by decide⟩

theorem finds_ancestor_two_deep :
    ∃ σ, commitBlocks 0 ∅ ancestorRun = .ok σ ∧
      FindsAncestor σ otherNode (.ok ()) (ancestorConfig 100) 0 2 := by
  obtain ⟨σ,hσ,hl⟩ := ancestorRun_stored
  obtain ⟨h0,h1,_⟩ := ancestorRun_hashes hσ
  have hsees : SeesAncestor σ (ancestorConfig 100) 0 2 :=
    ⟨⟨1,by decide,by decide,by rw [h1]; rfl⟩,.inl (by rw [h0]; rfl)⟩
  exact ⟨σ,hσ,(finds_ancestor_iff σ otherNode (.ok ()) (ancestorConfig 100) 0 2 hl
    (ancestorRun_diverges hσ)).mpr ⟨le_rfl,by decide,hsees,rfl⟩⟩

/-- Within a depth of 1 the walk stops at height 1 and takes it for the ancestor, although its hash
is not the node's. -/
theorem ancestor_beyond_depth :
    ¬∀ σ node refresh config a t, LocalChain σ t → Diverges σ node a t →
      FindsAncestor σ node refresh config a t := by
  intro hall
  obtain ⟨σ,hσ,hl⟩ := ancestorRun_stored
  have hfind := hall σ otherNode (.ok ()) (ancestorConfig 1) 0 2 hl (ancestorRun_diverges hσ)
  have hrun : (commitBlocks 0 ∅ ancestorRun).toOption.any (fun σ =>
      ((handleReorg 3 otherNode (.ok ()) (ancestorConfig 1)).exec σ).toOption.any fun done =>
        done.1 == 2) = true := by decide +kernel
  rw [hσ] at hrun
  simp only [Except.toOption, Option.any_some] at hrun
  rcases hfind with ⟨_,σ',he,_⟩ | ⟨⟨e,he⟩,_⟩
  · rw [he] at hrun
    simp at hrun
  · rw [he] at hrun
    simp at hrun

end Metashrew
