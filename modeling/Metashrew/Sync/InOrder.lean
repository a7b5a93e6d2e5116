import Metashrew.Sync.Runs

namespace Metashrew

open Bytes Durable

theorem filter_range'_le (first n r : Nat) (hr : r < first+n) :
    (List.range' first n).filter (fun h => decide (h ≤ r)) = List.range' first (r+1-first) := by
  induction n generalizing first with
  | zero =>
    have h0 : r+1-first = 0 := by omega
    rw [h0]
    rfl
  | succ n ih =>
    rw [List.range'_succ, List.filter_cons]
    by_cases hle : first ≤ r
    · have hlen : r+1-first = (r+1-(first+1))+1 := by omega
      rw [if_pos (by simpa using hle), ih (first+1) (by omega), hlen, List.range'_succ]
    · have h0 : r+1-first = 0 := by omega
      rw [if_neg (by simpa using hle), h0, List.range'_zero, List.filter_eq_nil_iff]
      intro h hh
      obtain ⟨i,_,rfl⟩ := List.mem_range'.mp hh
      simp
      omega

/-- The log of an orderly run against its store. -/
structure InOrder (σ : Store) (l : Log) : Prop where
  bare : Bare Reserved σ
  tip : getIndexedHeight σ = l.tip
  small : l.tip+1<2^32
  heights : ∃ first ≤ l.tip+1, l.heights = List.range' first (l.tip+1-first)
  hash : ∀ h ∈ l.heights, (getBlockHash σ h).isSome = true
  genesis : (getBlockHash σ 0).isSome = true → 0 ∈ l.heights
  begun : l.heights ≠ [] → l.begun = true

theorem get_of_empty (key : Bytes) : KV.get (∅ : Store) key = none := KV.get_empty key

theorem getIndexedHeight_empty : getIndexedHeight ∅ = 0 := by
  rw [getIndexedHeight, readPointer, get_of_empty]
  rfl

namespace InOrder

theorem empty : InOrder ∅ .empty where
  bare key _ := get_of_empty _
  tip := getIndexedHeight_empty
  small := by decide
  heights := ⟨1,le_rfl,rfl⟩
  hash h hh := by cases hh
  genesis h := by
    rw [getBlockHash, get_of_empty] at h
    cases h
  begun h := absurd rfl h

variable {σ σ' : Store} {l : Log} {h r : Nat} {blockHash stateRoot : Bytes} {ops : List Op}

theorem lt (hl : InOrder σ l) : getIndexedHeight σ<2^32 := by
  rw [hl.tip]
  exact lt_trans (Nat.lt_succ_self _) hl.small

/-- A fresh store has no committed height. -/
theorem heights_of_fresh (hl : InOrder σ l) (hf : isFreshDb σ = true) : l.heights = [] := by
  rw [isFreshDb, Bool.and_eq_true, beq_iff_eq, Option.isNone_iff_eq_none, hl.tip] at hf
  obtain ⟨first,hle,hh⟩ := hl.heights
  rw [hf.1] at hle hh
  obtain rfl | rfl : first=0 ∨ first=1 := by omega
  · have hmem : 0 ∈ l.heights := by
      rw [hh]
      decide
    have hsome := hl.hash 0 hmem
    rw [hf.2] at hsome
    cases hsome
  · exact hh

/-- The height of an accepted commit: the next one, unless nothing is committed. -/
theorem accepted (hl : InOrder σ l) (hacc : isFreshDb σ = true ∨ h = saturatingSucc (getIndexedHeight σ)) :
    l.heights = [] ∨ h = l.tip+1 := by
  rcases hacc with hf | hh
  · exact .inl (hl.heights_of_fresh hf)
  · right
    rw [hh, hl.tip, saturatingSucc]
    have := hl.small
    omega

theorem commit (hl : InOrder σ l) (hh : h+1<2^32) (ho : CleanBatch ops)
    (hc : (commitAtomic h blockHash stateRoot ops).exec σ = .ok ((),σ')) :
    InOrder σ' (l.commit h) := by
  obtain ⟨hacc,rfl⟩ := commitAtomic_cases hc
  have hheights := hl.accepted hacc
  have hhash : ∀ k, getBlockHash (KV.write σ (commitOps h blockHash stateRoot ops)) k =
      if k = h then some blockHash else getBlockHash σ k := commitOps_hash ho
  constructor
  · exact commitOps_bare hl.bare ho
  · exact commitOps_indexed (by omega)
  · exact hh
  · obtain hnil | hnext := hheights
    · refine ⟨h,by simp [Log.commit],?_⟩
      have hone : (l.commit h).tip+1-h = 1 := by simp [Log.commit]
      rw [hone]
      simp [Log.commit, hnil]
    · obtain ⟨first,hle,hrange⟩ := hl.heights
      refine ⟨first,by simp [Log.commit]; omega,?_⟩
      have hlen : (l.commit h).tip+1-first = (l.tip+1-first)+1 := by
        simp only [Log.commit]
        omega
      have hend : first+(l.tip+1-first) = h := by omega
      rw [hlen, List.range'_1_concat, Log.commit, hrange, hend]
  · intro k hk
    rw [hhash]
    split_ifs with he
    · rfl
    · rcases List.mem_append.mp hk with hk | hk
      · exact hl.hash k hk
      · exact absurd (List.mem_singleton.mp hk) he
  · intro h0
    rw [hhash] at h0
    split_ifs at h0 with he
    · rw [he]
      exact List.mem_append_right _ (List.mem_singleton_self h)
    · exact List.mem_append_left _ (hl.genesis h0)
  · exact fun _ => rfl

/-- Anything that moves the pointer down to `r` and leaves the hashes up to it. -/
theorem lower (hl : InOrder σ l) (hr : r ≤ getIndexedHeight σ) (hi : getIndexedHeight σ' = r)
    (hb : Bare Reserved σ') (hk : ∀ h ≤ r, getBlockHash σ' h = getBlockHash σ h) :
    InOrder σ' (l.rollback r) := by
  rw [hl.tip] at hr
  have htip : (l.rollback r).tip = r := by simp [Log.rollback, hr]
  have hmem : ∀ h, h ∈ (l.rollback r).heights ↔ h ∈ l.heights ∧ h ≤ r := by simp [Log.rollback]
  constructor
  · exact hb
  · rw [htip, hi]
  · rw [htip]
    have := hl.small
    omega
  · obtain ⟨first,hle,hrange⟩ := hl.heights
    by_cases hf : first ≤ r+1
    · refine ⟨first,by rw [htip]; exact hf,?_⟩
      rw [htip, Log.rollback, hrange, filter_range'_le _ _ _ (by omega)]
    · refine ⟨r+1,by rw [htip],?_⟩
      rw [htip, Nat.sub_self, Log.rollback, hrange, filter_range'_le _ _ _ (by omega)]
      have h0 : r+1-first = 0 := by omega
      rw [h0]
      rfl
  · intro h hh
    obtain ⟨hh,hle⟩ := (hmem h).mp hh
    rw [hk h hle]
    exact hl.hash h hh
  · intro h0
    rw [hk 0 (Nat.zero_le r)] at h0
    exact (hmem 0).mpr ⟨hl.genesis h0,Nat.zero_le r⟩
  · intro hne
    obtain ⟨h,hh⟩ := List.exists_mem_of_ne_nil _ hne
    exact hl.begun (List.ne_nil_of_mem ((hmem h).mp hh).1)

end InOrder

/-- Orderly runs keep their log. -/
theorem Runs.inOrder {P : Store → StorageCall → Prop} (hP : ∀ σ c, P σ c → Orderly σ c) {σ : Store}
    {l : Log} (h : Runs P σ l) : InOrder σ l := by
  induction h with
  | empty => exact .empty
  | commit _ hp _ hc ih => exact ih.commit (hP _ _ hp).1 (hP _ _ hp).2 hc
  | rollback _ hp hr hc ih =>
    obtain ⟨hi,hb,hk⟩ := rollbackToHeight_keeps ih.bare hr hc
    exact ih.lower (hP _ _ hp) hi hb hk
  | heal _ _ hc ih =>
    obtain ⟨hs,hi,hb,hk⟩ := heal_keeps ih.bare ih.lt hc
    exact ih.lower hs hi hb hk

/-- What strict in-order commits mean in one state. -/
structure StrictOrder (σ : Store) (l : Log) : Prop where
  next : l.begun = true → ∀ h blockHash stateRoot ops σ',
    (commitAtomic h blockHash stateRoot ops).exec σ = .ok ((),σ') → h = l.tip+1
  reject : ∀ h blockHash stateRoot ops e,
    (commitAtomic h blockHash stateRoot ops).exec σ = .error e →
      (commitAtomic h blockHash stateRoot ops).finalState σ = σ
  contiguous : ∃ first, l.heights = List.range' first (l.tip+1-first)

/-- Commits and rollbacks, without heals. -/
def CommitOrRollback (_ : Store) : StorageCall → Prop
  | .heal _ _ => False
  | _ => True

/-- Orderly commits and rollbacks that leave no store with a past that looks fresh: a rollback to 0
needs the block hash of 0. -/
def KeepsPast (σ : Store) : StorageCall → Prop
  | .rollback r => r ≤ getIndexedHeight σ ∧
      (r = 0 → getIndexedHeight σ = 0 ∨ (getBlockHash σ 0).isSome = true)
  | .heal _ _ => False
  | c => Orderly σ c

theorem KeepsPast.orderly {σ : Store} {c : StorageCall} (h : KeepsPast σ c) : Orderly σ c := by
  cases c with
  | commit => exact h
  | rollback => exact h.1
  | heal => exact h.elim

theorem isFreshDb_eq_false {σ : Store}
    (h : 0 < getIndexedHeight σ ∨ (getBlockHash σ 0).isSome = true) : isFreshDb σ = false := by
  rw [isFreshDb, Bool.and_eq_false_iff]
  rcases h with h | h
  · left
    simp
    omega
  · right
    rw [Option.isNone_eq_false_iff]
    exact h

/-- Once a block has been committed, the store never looks fresh again. -/
theorem Runs.keepsPast {σ : Store} {l : Log} (h : Runs KeepsPast σ l) (hb : l.begun = true) :
    isFreshDb σ = false := by
  induction h with
  | empty => cases hb
  | @commit σ σ' l h blockHash stateRoot ops hrun hp hh hc ih =>
    obtain ⟨_,rfl⟩ := commitAtomic_cases hc
    apply isFreshDb_eq_false
    rw [commitOps_indexed hh, commitOps_hash hp.2]
    by_cases h0 : h=0
    · right
      rw [if_pos h0.symm]
      rfl
    · left
      omega
  | @rollback σ σ' l r hrun hp hr hc ih =>
    have hl := hrun.inOrder fun _ _ => KeepsPast.orderly
    obtain ⟨hi,_,hk⟩ := rollbackToHeight_keeps hl.bare hr hc
    apply isFreshDb_eq_false
    rw [hi, hk 0 (Nat.zero_le r)]
    by_cases h0 : r=0
    · right
      rcases hp.2 h0 with hz | hsome
      · have hf := ih hb
        rw [isFreshDb, hz, beq_self_eq_true, Bool.true_and, Option.isNone_eq_false_iff] at hf
        exact hf
      · exact hsome
    · left
      omega
  | heal _ hp _ _ => exact hp.elim

/-- Commits are strictly in order in every run that never makes a store with a past look fresh. -/
theorem commits_strictly_in_order (σ : Store) (l : Log) (h : Runs KeepsPast σ l) :
    StrictOrder σ l := by
  have hl := h.inOrder fun _ _ => KeepsPast.orderly
  constructor
  · intro hb height blockHash stateRoot ops σ' hc
    rcases (commitAtomic_cases hc).1 with hf | hh
    · rw [h.keepsPast hb] at hf
      cases hf
    · rw [hh, hl.tip, saturatingSucc]
      have := hl.small
      omega
  · exact fun _ _ _ _ _ => commitAtomic_rejects
  · obtain ⟨first,_,hrange⟩ := hl.heights
    exact ⟨first,hrange⟩

theorem isFreshDb_empty : isFreshDb ∅ = true := by
  rw [isFreshDb, getIndexedHeight_empty, getBlockHash, get_of_empty]
  rfl

private theorem cleanBatch_nil : CleanBatch [] := fun _ h => absurd h List.not_mem_nil

/-- A first block at 5, a second one, which is rolled back, and another in its place. -/
theorem commits_strictly_in_order_replaced :
    ∃ σ l, l = (((Log.empty.commit 5).commit 6).rollback 5).commit 6 ∧ Runs KeepsPast σ l ∧
      StrictOrder σ l := by
  have orderly : ∀ σ c, KeepsPast σ c → Orderly σ c := fun _ _ => KeepsPast.orderly
  obtain ⟨σ1,h1⟩ := (commitAtomic_accepts ∅ 5 [1] [] []).mpr (.inl isFreshDb_empty)
  have hrun1 : Runs KeepsPast σ1 (Log.empty.commit 5) :=
    .commit .empty ⟨by decide,cleanBatch_nil⟩ (by decide) h1
  have htip1 := (hrun1.inOrder orderly).tip
  obtain ⟨σ2,h2⟩ := (commitAtomic_accepts σ1 6 [2] [] []).mpr (.inr (by rw [htip1]; rfl))
  have hrun2 : Runs KeepsPast σ2 ((Log.empty.commit 5).commit 6) :=
    .commit hrun1 ⟨by decide,cleanBatch_nil⟩ (by decide) h2
  have hl2 := hrun2.inOrder orderly
  obtain ⟨σ3,h3⟩ := rollbackToHeight_done hl2.bare 5
  have hrun3 : Runs KeepsPast σ3 (((Log.empty.commit 5).commit 6).rollback 5) :=
    .rollback hrun2 ⟨by rw [hl2.tip]; decide,fun h0 => absurd h0 (by decide)⟩ (by decide) h3
  have htip3 := (hrun3.inOrder orderly).tip
  obtain ⟨σ4,h4⟩ := (commitAtomic_accepts σ3 6 [3] [] []).mpr (.inr (by rw [htip3]; rfl))
  have hrun4 : Runs KeepsPast σ4 ((((Log.empty.commit 5).commit 6).rollback 5).commit 6) :=
    .commit hrun3 ⟨by decide,cleanBatch_nil⟩ (by decide) h4
  exact ⟨σ4,_,rfl,hrun4,commits_strictly_in_order _ _ hrun4⟩

/-- After a first block at 5 and a rollback to 0, a commit at 7 is accepted on the tip 0. -/
theorem commits_out_of_order :
    ¬∀ σ l, Runs CommitOrRollback σ l → StrictOrder σ l := by
  intro hall
  obtain ⟨σ1,h1⟩ := (commitAtomic_accepts ∅ 5 [1] [] []).mpr (.inl isFreshDb_empty)
  have hl1 : InOrder σ1 (Log.empty.commit 5) := InOrder.empty.commit (by decide) cleanBatch_nil h1
  obtain ⟨σ2,h2⟩ := rollbackToHeight_done hl1.bare 0
  have hrun : Runs CommitOrRollback σ2 ((Log.empty.commit 5).rollback 0) :=
    .rollback (.commit .empty trivial (by decide) h1) trivial (by decide) h2
  have hfresh : isFreshDb σ2 = true := by
    obtain ⟨hi,_,hk⟩ := rollbackToHeight_keeps hl1.bare (by decide) h2
    obtain ⟨_,rfl⟩ := commitAtomic_cases h1
    rw [isFreshDb, hi, hk 0 le_rfl, commitOps_hash cleanBatch_nil, getBlockHash, get_of_empty]
    rfl
  obtain ⟨σ3,h3⟩ := (commitAtomic_accepts σ2 7 [2] [] []).mpr (.inl hfresh)
  have hnext := (hall σ2 _ hrun).next rfl 7 _ _ _ _ h3
  exact absurd hnext (by decide)

end Metashrew
