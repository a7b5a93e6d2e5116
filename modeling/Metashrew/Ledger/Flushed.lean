import Metashrew.Ledger.Sound

namespace Metashrew

open Bytes Versioned

namespace Ledger

/-- The last flush that writes anything: the one whose manifest stays. -/
def lastWriting (fs : List Flush) : Option Flush := (fs.filter fun f => f.list ≠ []).getLast?

/-- The last flush that writes anything writes every key of the block. -/
def LastCovers (fs : List Flush) : Prop :=
  ∀ last, lastWriting fs = some last → ∀ f ∈ fs, ∀ kv ∈ f.list, kv.1 ∈ last.keys

/-- `L'` is `L` after flushes at height `h`, up to the state roots they carry. -/
structure Flushed (L : Ledger) (h : Nat) (fs : List Flush) (L' : Ledger) : Prop where
  history : ∀ key, L'.history key =
    L.history key ++ (updatesOf key (fs.flatMap Flush.list)).map fun v => (h,v)
  manifest : ∀ i, L'.manifest i =
    if i = h then ((lastWriting fs).map Flush.keys).or (L.manifest h) else L.manifest i
  hash : L'.hash = L.hash
  root : ∀ i, i ≠ h → L'.root i = L.root i

theorem Flushed.nil (L : Ledger) (h : Nat) : L.Flushed h [] L where
  history key := by simp [updatesOf]
  manifest i := by
    by_cases hi : i=h
    · subst hi
      simp [lastWriting]
    · simp [hi]
  hash := rfl
  root _ _ := rfl

/-- One more flush before the others. -/
theorem Flushed.cons {L L' : Ledger} {h : Nat} {f : Flush} {fs : List Flush} {root : Bytes}
    (hf : (L.flush h f.list root).Flushed h fs L') : L.Flushed h (f::fs) L' where
  history key := by
    have hkey : (L.flush h f.list root).history key = (L.appendAll h f.list).history key := by
      rw [flush]
      split_ifs <;> rfl
    rw [hf.history, hkey, appendAll_history, List.flatMap_cons, List.append_assoc, ← List.map_append]
    simp [updatesOf]
  manifest i := by
    have hman : (L.flush h f.list root).manifest i =
        if i = h ∧ f.list ≠ [] then some f.keys else L.manifest i := by
      obtain ⟨_,hframe,_⟩ := L.appendAll_frame h f.list
      rw [flush]
      by_cases he : f.list=[]
      · simp [he, setTip, setRoot, appendAll]
      · by_cases hi : i=h
        · simp [he, hi, setTip, setManifest, Flush.keys]
        · simp [he, hi, setTip, setManifest, setRoot, hframe]
    by_cases hi : i=h
    · subst hi
      rw [hf.manifest, if_pos rfl, if_pos rfl, hman]
      by_cases he : f.list=[]
      · simp [lastWriting, he]
      · cases hl : (fs.filter fun f => f.list ≠ []).getLast? <;>
          simp [lastWriting, he, List.getLast?_cons]
    · rw [hf.manifest, if_neg hi, if_neg hi, hman, if_neg (by tauto)]
  hash := by
    obtain ⟨_,_,hframe,_⟩ := L.appendAll_frame h f.list
    rw [hf.hash, flush]
    split_ifs <;> exact hframe
  root i hi := by
    obtain ⟨hframe,_⟩ := L.appendAll_frame h f.list
    rw [hf.root i hi, flush]
    split_ifs <;> simp [setTip, setManifest, setRoot, hi, hframe]

/-- A manifest lists exactly the keys that its height has updated. -/
def Exact (L : Ledger) : Prop :=
  ∀ h keys, L.manifest h = some keys → ∀ key, key ∈ keys ↔ ∃ e ∈ L.history key, e.1 = h

theorem Exact.covered {L : Ledger} (hL : L.Exact) : L.Covered :=
  fun key e he keys hk => (hL e.1 keys hk key).mpr ⟨e,he,rfl⟩

variable {L L' : Ledger} {n : Nat} {fs : List Flush}

theorem Flushed.mem_history (hf : L.Flushed n fs L') {key : Bytes} {e : Nat × Bytes} :
    e ∈ L'.history key ↔ e ∈ L.history key ∨
      e.1 = n ∧ ∃ f ∈ fs, (key,e.2) ∈ f.list := by
  rw [hf.history, List.mem_append, List.mem_map]
  apply or_congr_right
  constructor
  · rintro ⟨v,hv,rfl⟩
    obtain ⟨kv,hkv,rfl⟩ := List.mem_map.mp hv
    obtain ⟨hmem,hkey⟩ := List.mem_filter.mp hkv
    obtain ⟨f,hfs,hpair⟩ := List.mem_flatMap.mp hmem
    obtain rfl : kv.1 = key := by simpa using hkey
    exact ⟨rfl,f,hfs,hpair⟩
  · rintro ⟨rfl,f,hfs,hpair⟩
    refine ⟨e.2,List.mem_map.mpr ⟨(key,e.2),List.mem_filter.mpr ⟨?_,by simp⟩,rfl⟩,rfl⟩
    exact List.mem_flatMap.mpr ⟨f,hfs,hpair⟩

theorem Exact.flushed (hL : L.Exact) (hS : L.Sound n) (hf : L.Flushed n fs L')
    (hc : LastCovers fs) : L'.Exact := by
  intro h keys hk key
  rw [hf.manifest] at hk
  simp only [hf.mem_history]
  split_ifs at hk with hn
  · subst hn
    rw [(hS.unwritten h le_rfl).2.1, Option.or_none] at hk
    obtain ⟨last,hlast,rfl⟩ := Option.map_eq_some_iff.mp hk
    constructor
    · intro hkey
      obtain ⟨kv,hkv,rfl⟩ := Flush.mem_keys.mp hkey
      have hmem := (List.mem_filter.mp (List.mem_of_getLast? hlast)).1
      exact ⟨(h,kv.2),.inr ⟨rfl,last,hmem,hkv⟩,rfl⟩
    · rintro ⟨e,he | ⟨_,f,hmem,hkv⟩,he1⟩
      · have hlt := hS.below key e he
        omega
      · exact hc last hlast f hmem (key,e.2) hkv
  · rw [hL h keys hk key]
    constructor
    · rintro ⟨e,he,he1⟩
      exact ⟨e,.inl he,he1⟩
    · rintro ⟨e,he | ⟨he,_⟩,he1⟩
      · exact ⟨e,he,he1⟩
      · exact absurd (he1.symm.trans he) hn

/-- Flushes on top of all updates, also below a bound that a rollback has left behind. -/
theorem Sound.flushed_at {t : Nat} (hS : L.Sound n) (ht : ∀ key, ∀ e ∈ L.history key, e.1<t)
    (hf : L.Flushed t fs L') (hp : ∀ f ∈ fs, ∀ kv ∈ f.list, ¬Reserved kv.1)
    (hs : ∀ key, (L'.history key).length<2^32) : L'.Sound (max n (t+1)) where
  reserved key hk := by
    rw [List.eq_nil_iff_forall_not_mem]
    intro e he
    rcases hf.mem_history.mp he with h | ⟨_,f,hmem,hkv⟩
    · rw [hS.reserved key hk] at h
      cases h
    · exact hp f hmem (key,e.2) hkv hk
  ordered key := by
    rw [hf.history]
    refine (hS.ordered key).append ?_ ?_
    · exact List.pairwise_map.mpr (List.pairwise_of_forall fun _ _ => le_rfl)
    · intro a ha e he
      obtain ⟨v,_,rfl⟩ := List.mem_map.mp he
      exact le_of_lt (ht key a ha)
  below key e he := by
    rcases hf.mem_history.mp he with h | ⟨h,_⟩
    · have hlt := hS.below key e h
      omega
    · omega
  short := hs
  sized h keys hk := by
    rw [hf.manifest] at hk
    split_ifs at hk with hn
    · rcases Option.or_eq_some_iff.mp hk with h1 | ⟨_,h1⟩
      · obtain ⟨last,_,rfl⟩ := Option.map_eq_some_iff.mp h1
        exact last.keys_sized
      · exact hS.sized t keys h1
    · exact hS.sized h keys hk
  unwritten h hh := by
    obtain ⟨h1,h2,h3⟩ := hS.unwritten h (by omega)
    refine ⟨?_,?_,?_⟩
    · rw [hf.root h (by omega), h1]
    · rw [hf.manifest, if_neg (by omega), h2]
    · rw [hf.hash, h3]

theorem Sound.flushed (hS : L.Sound n) (hf : L.Flushed n fs L')
    (hp : ∀ f ∈ fs, ∀ kv ∈ f.list, ¬Reserved kv.1)
    (hs : ∀ key, (L'.history key).length<2^32) : L'.Sound (n+1) := by
  have h := hS.flushed_at hS.below hf hp hs
  rwa [max_eq_right (Nat.le_succ n)] at h

end Ledger

end Metashrew
