import Metashrew.Ledger.Run

namespace Metashrew

open Bytes Versioned

namespace Ledger

/-- What holds of a ledger whose next height is `n`. -/
structure Sound (L : Ledger) (n : Nat) : Prop where
  reserved : ∀ key, Reserved key → L.history key = []
  ordered : ∀ key, Ordered (L.history key)
  below : ∀ key, ∀ e ∈ L.history key, e.1<n
  short : ∀ key, (L.history key).length<2^32
  sized : ∀ h keys, L.manifest h = some keys → ManifestSized keys
  unwritten : ∀ h, n≤h → L.root h = none ∧ L.manifest h = none ∧ L.hash h = none

/-- The fast rollback relies on it: a manifest lists every key its height has updated. -/
def Covered (L : Ledger) : Prop :=
  ∀ key, ∀ e ∈ L.history key, ∀ keys, L.manifest e.1 = some keys → key ∈ keys

theorem Sound.empty (n : Nat) : Ledger.empty.Sound n where
  reserved _ _ := rfl
  ordered _ := .nil
  below _ _ he := absurd he List.not_mem_nil
  short _ := by change 0<2^32; norm_num
  sized _ _ h := by cases h
  unwritten _ _ := ⟨rfl,rfl,rfl⟩

theorem mem_block_history {L : Ledger} {t : Nat} {b : Block} {key : Bytes} {e : Nat × Bytes}
    (he : e ∈ (L.block t b).history key) :
    e ∈ L.history key ∨ e.1=t ∧ (key,e.2) ∈ b.flush.list := by
  obtain he | he := List.mem_append.mp he
  · exact .inl he
  · obtain ⟨v,hv,rfl⟩ := List.mem_map.mp he
    obtain ⟨kv,hin,rfl⟩ := List.mem_map.mp hv
    obtain ⟨hin,hkey⟩ := List.mem_filter.mp hin
    rw [decide_eq_true_eq] at hkey
    exact .inr ⟨rfl,hkey ▸ hin⟩

theorem block_manifest (L : Ledger) (n : Nat) (b : Block) (h : Nat) :
    (L.block n b).manifest h =
      if h = n ∧ b.flush.list ≠ [] then some b.flush.keys else L.manifest h := by
  by_cases he : b.flush.list=[]
  · simp [block, he]
  · by_cases hh : h=n
    · subst hh; simp [block, he]
    · simp [block, he, hh]

/-- A block on top of all updates, also below a bound that a rollback has left behind. -/
theorem Sound.block_at {L : Ledger} {n t : Nat} (hL : L.Sound n)
    (ht : ∀ key, ∀ e ∈ L.history key, e.1<t) {b : Block}
    (hp : ∀ kv ∈ b.flush.list, ¬Reserved kv.1)
    (hs : ∀ key, ((L.block t b).history key).length<2^32) : (L.block t b).Sound (max n (t+1)) where
  reserved key hk := by
    have hnil : updatesOf key b.flush.list = [] := updatesOf_eq_nil.mpr fun kv hkv he =>
      hp kv hkv (he ▸ hk)
    change L.history key ++ _ = []
    rw [hL.reserved key hk, hnil]
    rfl
  ordered key := by
    refine (hL.ordered key).append ?_ ?_
    · exact List.pairwise_map.mpr (List.pairwise_of_forall fun _ _ => le_rfl)
    · intro a ha e he
      obtain ⟨v,_,rfl⟩ := List.mem_map.mp he
      exact le_of_lt (ht key a ha)
  below key e he := by
    rcases mem_block_history he with h | ⟨h,_⟩
    · exact lt_of_lt_of_le (hL.below key e h) (le_max_left ..)
    · omega
  short := hs
  sized h keys hk := by
    rw [block_manifest] at hk
    split_ifs at hk with hn
    · rw [← Option.some.inj hk]
      exact b.flush.keys_sized
    · exact hL.sized h keys hk
  unwritten h hh := by
    obtain ⟨h1,h2,h3⟩ := hL.unwritten h (by omega)
    have hne : h≠t := by omega
    refine ⟨?_,?_,?_⟩
    · change Function.update L.root t _ h = none
      rw [Function.update_of_ne hne, h1]
    · rw [block_manifest, if_neg (by tauto), h2]
    · change Function.update L.hash t _ h = none
      rw [Function.update_of_ne hne, h3]

theorem Sound.block {L : Ledger} {n : Nat} (hL : L.Sound n) {b : Block}
    (hp : ∀ kv ∈ b.flush.list, ¬Reserved kv.1)
    (hs : ∀ key, ((L.block n b).history key).length<2^32) : (L.block n b).Sound (n+1) := by
  have h := hL.block_at hL.below hp hs
  rwa [max_eq_right (Nat.le_succ n)] at h

theorem Covered.block {L : Ledger} {n : Nat} (hc : L.Covered)
    (hbelow : ∀ key, ∀ e ∈ L.history key, e.1<n) (b : Block) : (L.block n b).Covered := by
  intro key e he keys hk
  rw [block_manifest] at hk
  split_ifs at hk with hn
  · rcases mem_block_history he with h | ⟨_,h⟩
    · have hlt := hbelow key e h
      omega
    · rw [← Option.some.inj hk]
      exact Flush.mem_keys.mpr ⟨_,h,rfl⟩
  · rcases mem_block_history he with h | ⟨h1,h2⟩
    · exact hc key e h keys hk
    · exact absurd ⟨h1,List.ne_nil_of_mem h2⟩ hn

private theorem Covered.run {L : Ledger} {n : Nat} (hc : L.Covered)
    (hbelow : ∀ key, ∀ e ∈ L.history key, e.1<n) (blocks : List Block) :
    (L.run n blocks).Covered := by
  induction blocks generalizing L n with
  | nil => exact hc
  | cons b bs ih =>
    apply ih (hc.block hbelow b)
    intro key e he
    rcases mem_block_history he with h | ⟨h,_⟩
    · have hlt := hbelow key e h
      omega
    · omega

theorem ofBlocks_covered (start : Nat) (blocks : List Block) : (ofBlocks start blocks).Covered :=
  Covered.run (fun _ _ he => absurd he List.not_mem_nil)
    (fun _ _ he => absurd he List.not_mem_nil) blocks

theorem block_accepts (L : Ledger) (n : Nat) (b : Block) : (L.block n b).Accepts (n+1) :=
  .inr ⟨Nat.succ_pos n,rfl⟩

end Ledger

section Run

variable {σ σ' : Store} {L : Ledger} {start : Nat} {blocks : List Block}

private theorem PlainKeys.head {b : Block} {bs : List Block} (h : PlainKeys (b::bs)) :
    ∀ kv ∈ b.flush.list, ¬Reserved kv.1 := h b (by simp)

private theorem PlainKeys.tail {b : Block} {bs : List Block} (h : PlainKeys (b::bs)) :
    PlainKeys bs := fun c hc => h c (by simp [hc])

/-- A run represents the ledger of its blocks. -/
theorem commitBlocks_represents (hσ : Represents σ L) (hL : L.Sound start)
    (hp : PlainKeys blocks) (hc : commitBlocks start σ blocks = .ok σ') :
    Represents σ' (L.run start blocks) ∧ (L.run start blocks).Sound (start+blocks.length) := by
  induction blocks generalizing σ L start with
  | nil =>
    cases hc
    exact ⟨hσ,hL⟩
  | cons b bs ih =>
    rw [commitBlocks] at hc
    cases hb : commitBlock σ start b with
    | error e => rw [hb] at hc; cases hc
    | ok σ1 =>
      rw [hb] at hc
      obtain ⟨h1,hs⟩ := commitBlock_represents hσ hL.short hp.head hb
      have hn : start+(b::bs).length = start+1+bs.length := by simp; omega
      rw [hn]
      exact ih h1 (hL.block hp.head hs) hp.tail hc

/-- The run succeeds when heights and update counts fit 32 bits. -/
theorem commitBlocks_total (hσ : Represents σ L) (hL : L.Sound start) (hp : PlainKeys blocks)
    (ha : L.Accepts start) (hi : ∀ i, L.indexed = some i → i<2^32)
    (hlen : start+blocks.length≤2^32)
    (hs : ∀ key, ((L.run start blocks).history key).length<2^32) :
    ∃ σ', commitBlocks start σ blocks = .ok σ' := by
  induction blocks generalizing σ L start with
  | nil => exact ⟨σ,rfl⟩
  | cons b bs ih =>
    rw [List.length_cons] at hlen
    have hshort : ∀ key, ((L.block start b).history key).length<2^32 := by
      intro key
      have hk := hs key
      rw [Ledger.run, Ledger.run_history, List.length_append] at hk
      omega
    obtain ⟨σ1,hb⟩ := commitBlock_total hσ (by omega) hi ha hshort
    obtain ⟨h1,_⟩ := commitBlock_represents hσ hL.short hp.head hb
    obtain ⟨σ',hσ'⟩ := ih h1 (hL.block hp.head hshort) hp.tail (L.block_accepts start b)
      (fun i h => by cases h; omega) (by omega) hs
    refine ⟨σ',?_⟩
    rw [commitBlocks, hb]
    exact hσ'

end Run

/-- From the empty database. -/
theorem commitBlocks_ofBlocks {start : Nat} {blocks : List Block} {σ : Store}
    (hp : PlainKeys blocks) (hc : commitBlocks start ∅ blocks = .ok σ) :
    Represents σ (.ofBlocks start blocks) ∧
      (Ledger.ofBlocks start blocks).Sound (start+blocks.length) :=
  commitBlocks_represents .empty (.empty start) hp hc

end Metashrew
