import Metashrew.Ledger.Foreign
import Metashrew.Ledger.Frame
import Metashrew.Sync.Engine

namespace Metashrew

open Bytes Durable

section Heal

variable {σ σ' : Store} {node : BitcoinNodeAdapter} {config : SyncConfig}

theorem safeHeight_le (σ : Store) (node : BitcoinNodeAdapter) (candidate floor h : Nat) :
    safeHeight σ node candidate floor h ≤ h := by
  induction h with
  | zero => exact le_rfl
  | succ h ih =>
    rw [safeHeight]
    grind

theorem Pointers.safe_le (p : Pointers) (σ : Store) (node : BitcoinNodeAdapter) (depth : Nat) :
    p.safe σ node depth ≤ p.candidate := by
  rw [safe]
  split_ifs
  · exact safeHeight_le ..
  · exact le_rfl

/-- The height the heal settles on. -/
def healedHeight (σ : Store) (node : BitcoinNodeAdapter) (config : SyncConfig) : Nat :=
  let p := Pointers.ofStore σ
  if !config.enableStartupHeal || p.allAgree && p.indexedHeight == 0 || p.confirmed σ node then
    getIndexedHeight σ
  else p.safe σ node config.maxReorgDepth

theorem candidate_of_agree {p : Pointers} (h : p.allAgree = true) :
    p.candidate = p.indexedHeight := by
  rw [Pointers.allAgree, Bool.and_eq_true, beq_iff_eq, beq_iff_eq] at h
  rw [Pointers.candidate]
  omega

theorem tip_of_agree {p : Pointers} (h : p.allAgree = true) : p.runtimeTip = p.indexedHeight := by
  rw [Pointers.allAgree, Bool.and_eq_true, beq_iff_eq] at h
  exact h.1.symm

/-- It never goes above the candidate. -/
theorem healedHeight_le_candidate (he : config.enableStartupHeal = true) :
    healedHeight σ node config ≤ (Pointers.ofStore σ).candidate := by
  rw [healedHeight, he]
  cases hz : (Pointers.ofStore σ).allAgree && (Pointers.ofStore σ).indexedHeight == 0 with
  | true =>
    have hagree := ((Bool.and_eq_true _ _).mp hz).1
    simp only [Bool.or_true, Bool.true_or, if_true, candidate_of_agree hagree]
    rfl
  | false =>
    cases hc : (Pointers.ofStore σ).confirmed σ node with
    | true =>
      rw [Pointers.confirmed, Bool.and_eq_true, Bool.and_eq_true] at hc
      simp only [Bool.or_true, if_true, candidate_of_agree hc.1.1]
      rfl
    | false =>
      simp only [Bool.not_true, Bool.false_or, Bool.false_eq_true, if_false]
      exact Pointers.safe_le ..

/-- The heal leaves the store as it is, at the height it returns, or moves the pointers there. -/
theorem heal_cases {s : Nat} {o : StartupHealOutcome}
    (h : (healPointerDivergenceAtStartup node config).exec σ = .ok ((s,o),σ')) :
    s = healedHeight σ node config ∧ s ≤ getIndexedHeight σ ∧
      ((σ' = σ ∧ s = getIndexedHeight σ ∧
        (config.enableStartupHeal = true → getRuntimeTipHeight σ = s)) ∨
          (healPointersAtomic s).exec σ = .ok ((),σ')) := by
  unfold healPointerDivergenceAtStartup at h
  unfold healedHeight
  cases he : config.enableStartupHeal with
  | false =>
    rw [he] at h
    cases h
    exact ⟨rfl,le_rfl,.inl ⟨rfl,rfl,(by simp)⟩⟩
  | true =>
    rw [he, if_neg (by decide), Prog.exec_bind (a := Pointers.ofStore σ) (t := σ) rfl] at h
    generalize hp : Pointers.ofStore σ = p at h ⊢
    have hi : p.indexedHeight = getIndexedHeight σ := by rw [← hp]; rfl
    have ht : p.runtimeTip = getRuntimeTipHeight σ := by rw [← hp]; rfl
    cases hz : p.allAgree && p.indexedHeight == 0 with
    | true =>
      rw [hz, if_pos rfl] at h
      cases h
      have hagree := tip_of_agree ((Bool.and_eq_true _ _).mp hz).1
      refine ⟨?_,le_of_eq hi,.inl ⟨rfl,hi,fun _ => by omega⟩⟩
      simp only [hz, Bool.or_true, Bool.true_or, if_true]
      exact hi
    | false =>
      rw [hz, if_neg (by decide), Prog.exec_bind (a := p.confirmed σ node) (t := σ) rfl] at h
      cases hc : p.confirmed σ node with
      | true =>
        rw [hc, if_pos rfl] at h
        cases h
        have hagree : p.allAgree = true := by
          rw [Pointers.confirmed, Bool.and_eq_true, Bool.and_eq_true] at hc
          exact hc.1.1
        have hcand := (candidate_of_agree hagree).trans hi
        have htip := tip_of_agree hagree
        refine ⟨?_,le_of_eq hcand,.inl ⟨rfl,hcand,fun _ => by omega⟩⟩
        simp only [hc, Bool.or_true, if_true]
        exact hcand
      | false =>
        rw [hc, if_neg (by decide),
          Prog.exec_bind (a := p.safe σ node config.maxReorgDepth) (t := σ) rfl] at h
        have hle := p.safe_le σ node config.maxReorgDepth
        have hcand : p.candidate ≤ p.indexedHeight ∧ p.candidate ≤ p.runtimeTip ∧
            p.candidate ≤ p.maxBlockhash := by
          rw [Pointers.candidate]
          omega
        simp only [Bool.not_true, hz, hc, Bool.false_or, Bool.false_eq_true, if_false]
        generalize p.safe σ node config.maxReorgDepth = s' at h hle ⊢
        split_ifs at h with hwrite
        · obtain ⟨_,τ,hheal,h⟩ := Prog.exec_bind_ok h
          cases h
          exact ⟨rfl,by omega,.inr hheal⟩
        · cases h
          exact ⟨rfl,by omega,.inl ⟨rfl,by omega,fun _ => by omega⟩⟩

/-- What the heal writes: a rollback when the tip is above its height, then the pointers. -/
theorem healPointersAtomic_cases {s : Nat} (hs : s ≤ getIndexedHeight σ)
    (h : (healPointersAtomic s).exec σ = .ok ((),σ')) :
    (σ' = σ ∧ s = getIndexedHeight σ ∧ getRuntimeTipHeight σ = s) ∨ ∃ τ,
      (τ = σ ∧ s = getIndexedHeight σ ∨
        s < getIndexedHeight σ ∧ (rollbackToHeight s).exec σ = .ok ((),τ)) ∧
      σ' = KV.write τ [.put indexedHeightKey (u32le s),.put tipHeightKey (u32le s)] := by
  rw [healPointersAtomic, Prog.exec_bind (a := getIndexedHeight σ) (t := σ) rfl,
    Prog.exec_bind (a := getRuntimeTipHeight σ) (t := σ) rfl] at h
  split_ifs at h with h1 h2 h3
  · cases h
    exact .inl ⟨rfl,h1.1.symm,h1.2⟩
  · omega
  · obtain ⟨_,τ,hroll,h⟩ := Prog.exec_bind_ok h
    cases h
    exact .inr ⟨τ,.inr ⟨h3,hroll⟩,rfl⟩
  · cases h
    exact .inr ⟨σ,.inl ⟨rfl,by omega⟩,rfl⟩

/-- The last write of the heal sets both pointers, -/
theorem pointers_healed (τ : Store) {s : Nat} (hs : s<2^32) :
    getIndexedHeight (KV.write τ [.put indexedHeightKey (u32le s),.put tipHeightKey (u32le s)]) = s ∧
      getRuntimeTipHeight
        (KV.write τ [.put indexedHeightKey (u32le s),.put tipHeightKey (u32le s)]) = s := by
  have hne : tipHeightKey ≠ indexedHeightKey := by decide
  constructor
  · rw [getIndexedHeight, readPointer, KV.get_write]
    simp [KV.effect, KV.Op.key, KV.Op.value, hne, readU32le_u32le hs]
  · rw [getRuntimeTipHeight, readPointer, KV.get_write]
    simp [KV.effect, KV.Op.key, KV.Op.value, readU32le_u32le hs]

/-- and nothing else. -/
theorem get_healed (τ : Store) (s : Nat) {x : Record} (hi : x ≠ .indexedHeight)
    (ht : x ≠ .tipHeight) :
    KV.get (KV.write τ [.put indexedHeightKey (u32le s),.put tipHeightKey (u32le s)]) x.name =
      KV.get τ x.name := by
  apply KV.get_write_of_not_mem
  intro op hop
  simp only [List.mem_cons, List.not_mem_nil, or_false] at hop
  rcases hop with rfl | rfl
  · exact Record.name_ne (r := .indexedHeight) (Ne.symm hi)
  · exact Record.name_ne (r := .tipHeight) (Ne.symm ht)

/-- An enabled heal leaves the runtime's tip at its height. -/
theorem heal_tip {s : Nat} {o : StartupHealOutcome} (he : config.enableStartupHeal = true)
    (h : (healPointerDivergenceAtStartup node config).exec σ = .ok ((s,o),σ')) :
    getRuntimeTipHeight σ' = s := by
  obtain ⟨_,hle,⟨rfl,_,htip⟩ | hheal⟩ := heal_cases h
  · exact htip he
  · obtain ⟨rfl,_,htip⟩ | ⟨τ,_,rfl⟩ := healPointersAtomic_cases hle hheal
    · exact htip
    · exact (pointers_healed τ (lt_of_le_of_lt hle (readPointer_lt ..))).2

/-- The scan finds the tip's own hash first. -/
theorem findMax_of_stored {s : Nat} (hi : getIndexedHeight σ = s)
    (hs : s = 0 ∨ (getBlockHash σ s).isSome) (floor : Nat) :
    findMaxStoredBlockHashHeight floor σ = s := by
  rw [findMaxStoredBlockHashHeight, hi]
  cases s with
  | zero => rfl
  | succ s => rw [maxBlockHashFrom, if_pos (hs.resolve_left (Nat.succ_ne_zero s))]

/-- Pointers that agree stay where they are, unless the node has another hash there. -/
theorem heal_stays {s : Nat} (hp : Pointers.ofStore σ = ⟨s,s,s⟩)
    (hs : config.enableStartupHeal = false ∨ s = 0 ∨ node.isConnected = false ∨
      ∃ hash, getBlockHash σ s = some hash ∧ node.getBlockHash s = .ok hash) :
    ∃ o, (healPointerDivergenceAtStartup node config).run σ = ⟨[],.ok (s,o)⟩ := by
  have hi : getIndexedHeight σ = s := congrArg Pointers.indexedHeight hp
  rw [healPointerDivergenceAtStartup]
  cases he : config.enableStartupHeal with
  | false =>
    refine ⟨.disabled,?_⟩
    rw [if_pos (by decide), Prog.run_read_bind, hi]
    rfl
  | true =>
    refine ⟨.alreadyConsistent s,?_⟩
    rw [if_neg (by decide), Prog.run_read_bind, hp]
    have hagree : (Pointers.mk s s s).allAgree = true := by simp [Pointers.allAgree]
    have hcand : (Pointers.mk s s s).candidate = s := candidate_of_agree hagree
    by_cases h0 : s=0
    · subst h0
      rfl
    · have hne : ((Pointers.mk s s s).allAgree && s == 0) = false := by simp [h0]
      rw [hne, if_neg (by decide), Prog.run_read_bind]
      obtain hn | ⟨hash,hstored,hremote⟩ := (hs.resolve_left (by simp [he])).resolve_left h0
      · have hconf : (Pointers.mk s s s).confirmed σ node = false := by
          simp [Pointers.confirmed, hn]
        have hsafe : (Pointers.mk s s s).safe σ node config.maxReorgDepth = s := by
          rw [Pointers.safe, hn, if_neg (by decide), hcand]
        rw [hconf, if_neg (by decide), Prog.run_read_bind, hsafe, if_neg (by simp)]
        rfl
      · cases hn : node.isConnected with
        | true =>
          have hconf : (Pointers.mk s s s).confirmed σ node = true := by
            simp [Pointers.confirmed, hn, hagree, hcand, hstored, hremote]
          rw [hconf, if_pos rfl, hcand]
          rfl
        | false =>
          have hconf : (Pointers.mk s s s).confirmed σ node = false := by
            simp [Pointers.confirmed, hn]
          have hsafe : (Pointers.mk s s s).safe σ node config.maxReorgDepth = s := by
            rw [Pointers.safe, hn, if_neg (by decide), hcand]
          rw [hconf, if_neg (by decide), Prog.run_read_bind, hsafe, if_neg (by simp)]
          rfl

end Heal

end Metashrew
