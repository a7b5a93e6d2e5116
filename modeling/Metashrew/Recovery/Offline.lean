import Metashrew.Recovery.Firm

namespace Metashrew

open Bytes Durable Versioned

namespace RockshrewRollback

structure Args where
  height : Nat
  yes : Bool

/-- Whether the operator wants the rollback: asked for on the command line or at the prompt, where
`confirmation` is what reading the answer gives. -/
def confirmed (args : Args) (confirmation : Except String Bool) : Except String Bool :=
  if args.yes then .ok true else confirmation

/-- The rollback tool, over a database that no node has open: always the full scan, then the pointer. -/
def main (args : Args) (confirmation : Except String Bool) : DbProg Unit := do
  let height := args.height
  let currentHeight ← .read fun σ => getIndexedHeight σ
  if currentHeight ≤ height then
    .fail (.message s!"Rollback height ({height}) must be less than current height ({currentHeight})")
  else
    match confirmed args confirmation with
    | .error _ => .fail (.message "Failed to read confirmation")
    | .ok false => pure ()
    | .ok true =>
      rollbackSmtData height currentHeight
      setIndexedHeight height
      let newHeight ← .read fun σ => getIndexedHeight σ
      if newHeight ≠ height then
        .fail (.message s!"Verification failed! Expected height {height} but found {newHeight}")
      else pure ()

section Ends

variable {σ σ' : Store} {L : Ledger} {args : Args} {confirmation : Except String Bool} {n m : Nat}

/-- The tool ends by moving the pointer, and every state before is a part of the rollback. -/
theorem main_ends (hσ : Represents σ L) (hL : L.Sound n) (hn : n≤2^32) (hcur : getIndexedHeight σ = m)
    (hr : args.height < m) (hyes : confirmed args confirmation = .ok true) :
    ∃ ss, (main args confirmation).run σ =
        ⟨ss ++ [KV.write (ss.getLastD σ) [.put indexedHeightKey (u32le args.height)]],.ok ()⟩ ∧
      Represents (ss.getLastD σ) ((L.dropRoots args.height).trimKeys args.height (smtStructures σ)) ∧
      ∀ (j : Nat) (σ' : Store), (σ::ss)[j]? = some σ' →
        ∃ L'', L.PartlyRolledBack args.height L'' ∧ Represents σ' L'' := by
  have hm : m<2^32 := hcur ▸ readPointer_lt ..
  have hpart : ∀ keys, L.PartlyRolledBack args.height ((L.dropRoots args.height).trimKeys args.height keys) :=
    fun keys => (L.dropRoots_partly _).trans ((L.dropRoots _).trimKeys_partly _ keys)
  obtain ⟨ρ,ss,hrun,hnil,hlen,hinv⟩ := rollbackSmtData_run hσ hL hn hr
  have hfin := hinv ss.length _ Prog.getElem?_getLastD
  rw [hlen, List.take_length] at hfin
  have hlast : ((if metadataKeysToDelete args.height σ.keys = [] then [] else [ρ]) ++ ss).getLastD σ =
      ss.getLastD ρ := by
    split_ifs with he
    · rw [hnil he, List.nil_append]
    · rw [List.singleton_append, List.getLastD_cons]
  rw [← hlast] at hfin
  refine ⟨_,?_,hfin,?_⟩
  · have hpointer : ∀ τ : Store, getIndexedHeight (KV.write τ [.put indexedHeightKey (u32le args.height)]) =
        args.height := by
      intro τ
      rw [getIndexedHeight, readPointer, KV.get_write]
      simp [KV.effect, KV.Op.key, KV.Op.value, readU32le_u32le (hr.trans hm)]
    rw [main, Prog.run_read_bind, hcur, if_neg (by omega), hyes]
    show ((rollbackSmtData args.height m) >>= fun _ => _).run σ = _
    have hset : ∀ τ : Store, (setIndexedHeight args.height).run τ =
        ⟨[KV.write τ [.put indexedHeightKey (u32le args.height)]],.ok ()⟩ := fun _ => rfl
    rw [Prog.run_bind_ok hrun, Prog.run_bind_ok (hset _)]
    simp [hpointer]
  · intro j σ' hj
    cases j with
    | zero =>
      cases hj
      exact ⟨L,.refl L _,hσ⟩
    | succ j =>
      rw [List.getElem?_cons_succ] at hj
      split_ifs at hj
      · exact ⟨_,hpart _,hinv (j+1) σ' hj⟩
      · exact ⟨_,hpart _,hinv j σ' hj⟩

/-- At or above the tip the tool refuses. -/
theorem main_refused (hcur : getIndexedHeight σ = m) (hr : m ≤ args.height) :
    ∃ e, (main args confirmation).run σ = ⟨[],.error e⟩ := by
  rw [main, Prog.run_read_bind, hcur, if_pos hr]
  exact ⟨_,rfl⟩

/-- A crash leaves a part of the rollback. -/
theorem main_crashed (hL : L.Firm) (hσ : Represents σ L) (hyes : confirmed args confirmation = .ok true) {j : Nat}
    (hc : (main args confirmation).CrashAfter σ j σ') :
    ∃ L', L.PartlyRolledBack args.height L' ∧ Represents σ' L' := by
  obtain ⟨n,hn,hs⟩ := hL.sound
  by_cases hr : getIndexedHeight σ ≤ args.height
  · obtain ⟨e,hrun⟩ : ∃ e, (main args confirmation).run σ = ⟨[],.error e⟩ := main_refused rfl hr
    have hlt := hc.1
    rw [hrun] at hlt
    cases hlt
  · obtain ⟨ss,hrun,_,hpoint⟩ := main_ends hσ hs hn rfl (not_le.mp hr) hyes
    exact hpoint j σ' (hc.before_last hrun).2

/-- A complete run cuts every history and moves the pointer. -/
theorem main_exec (hL : L.Firm) (hσ : Represents σ L) (hyes : confirmed args confirmation = .ok true)
    (hx : (main args confirmation).exec σ = .ok ((),σ')) :
    ∃ L', Represents σ' (L'.setIndexed args.height) ∧ L.PartlyRolledBack args.height L' ∧
      ∀ key, L'.history key = upTo args.height (L.history key) := by
  obtain ⟨n,hn,hs⟩ := hL.sound
  by_cases hr : getIndexedHeight σ ≤ args.height
  · obtain ⟨e,hrun⟩ : ∃ e, (main args confirmation).run σ = ⟨[],.error e⟩ := main_refused rfl hr
    rw [Prog.exec_error hrun] at hx
    cases hx
  · obtain ⟨ss,hrun,hrep,_⟩ := main_ends hσ hs hn rfl (not_le.mp hr) hyes
    rw [Prog.exec_ok hrun, List.getLastD_concat] at hx
    cases hx
    refine ⟨_,hrep.setIndexed _,(L.dropRoots_partly _).trans ((L.dropRoots _).trimKeys_partly _ _),?_⟩
    exact Ledger.trimKeys_history (L := L.dropRoots args.height) fun key hk => (mem_smtStructures hσ).mpr hk

end Ends

end RockshrewRollback

end Metashrew
