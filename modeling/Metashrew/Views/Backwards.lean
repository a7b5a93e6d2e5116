import Metashrew.Recovery.Helper

namespace Metashrew

open Bytes Versioned

/-- The values of a key at the listed heights, where it has one. -/
def collectValues (db : KeyValueStoreLike) (key : Bytes) :
    List Nat → Except Fault (List (Nat × Bytes))
  | [] => return []
  | height::heights => do
    let value ← getAtHeight db key height
    let rest ← collectValues db key heights
    match value with
    | some value => return (height,value)::rest
    | none => return rest

/-- Equal heights are alike, so that neither sort has to be stable. -/
def iterateBackwards (db : KeyValueStoreLike) (key : Bytes) (fromHeight : Nat) :
    Except Fault (List (Nat × Bytes)) := do
  let heights ← getHeightsForKey db key
  collectValues db key ((heights.filter fun h => h ≤ fromHeight).insertionSort (· ≥ ·))

/-- Updates of the key at one height up to `fromHeight` have one value, and no binary search for such
a height meets two bounds whose sum overflows. -/
structure IteratesExactly (l : History Nat Bytes) (fromHeight : Nat) : Prop where
  alike : ∀ e ∈ upTo fromHeight l, ∀ e' ∈ upTo fromHeight l, e.1 = e'.1 → e.2 = e'.2
  fits : ∀ e ∈ upTo fromHeight l, Search.fits (2^32) (upTo e.1 l).length l.length 0 l.length

section Iterate

variable {σ : Store} {key : Bytes} {l : History Nat Bytes} {h : Nat}

/-- The heights in descending order are those of the updates, newest first. -/
theorem descending_heights (ho : Ordered l) (h : Nat) :
    ((((l.map Prod.fst).insertionSort (· ≤ ·)).filter fun h' => h' ≤ h).insertionSort (· ≥ ·)) =
      ((upTo h l).reverse.map Prod.fst) := by
  have hasc : (l.map Prod.fst).insertionSort (· ≤ ·) = l.map Prod.fst := by
    apply List.Pairwise.insertionSort_eq
    exact List.pairwise_map.mpr ho
  have hfilter : (l.map Prod.fst).filter (fun h' => h' ≤ h) = (upTo h l).map Prod.fst := by
    rw [upTo, List.filter_map]
    rfl
  have hdesc : ((upTo h l).reverse.map Prod.fst).Pairwise (· ≥ ·) := by
    rw [List.pairwise_map, List.pairwise_reverse]
    exact ho.upTo h
  rw [hasc, hfilter, ← hdesc.insertionSort_eq]
  apply List.Perm.eq_of_pairwise' (List.pairwise_insertionSort _ _) (List.pairwise_insertionSort _ _)
  refine (List.perm_insertionSort _ _).trans (.trans ?_ (List.perm_insertionSort _ _).symm)
  exact ((List.reverse_perm _).map _).symm

theorem collectValues_cons (db : KeyValueStoreLike) (height : Nat) (heights : List Nat) :
    collectValues db key (height::heights) =
      (getAtHeight db key height).bind fun value => (collectValues db key heights).bind fun rest =>
        .ok (match value with
          | some value => (height,value)::rest
          | none => rest) := by
  rw [collectValues]
  show (getAtHeight db key height).bind _ = _
  congr 1
  funext value
  cases value <;> rfl

/-- The loop gives back the updates it is given the heights of exactly when every search fits and
finds the update itself. -/
theorem collectValues_eq_iff (hread : ∀ h, getAtHeight (rocksDB σ) key h =
      if Search.fits (2^32) (upTo h l).length l.length 0 l.length then .ok (asOf h l)
      else .error (.panic "attempt to add with overflow"))
    (ho : Ordered l) (es : List (Nat × Bytes)) (hes : ∀ e ∈ es, e ∈ l) :
    collectValues (rocksDB σ) key (es.map Prod.fst) = .ok es ↔
      ∀ e ∈ es, Search.fits (2^32) (upTo e.1 l).length l.length 0 l.length ∧ asOf e.1 l = some e.2 := by
  induction es with
  | nil => exact ⟨fun _ => by simp,fun _ => rfl⟩
  | cons e es ih =>
    have ih := ih fun e' he => hes e' (List.mem_cons_of_mem _ he)
    obtain ⟨latest,_,_,hlatest⟩ := ho.asOf_of_mem (hes e List.mem_cons_self)
    rw [List.map_cons, collectValues_cons, hread, List.forall_mem_cons, ← ih, hlatest]
    by_cases hfits : Search.fits (2^32) (upTo e.1 l).length l.length 0 l.length
    · rw [if_pos hfits]
      show (collectValues (rocksDB σ) key (es.map Prod.fst)).bind
        (fun rest => .ok ((e.1,latest.2)::rest)) = _ ↔ _
      cases collectValues (rocksDB σ) key (es.map Prod.fst) with
      | error f => simp [Except.bind]
      | ok rest =>
        show Except.ok ((e.1,latest.2)::rest) = Except.ok (e::es) ↔ _
        constructor
        · intro h
          injection h with h
          injection h with h1 h2
          refine ⟨⟨hfits,?_⟩,by rw [h2]⟩
          rw [← h1]
        · intro h
          obtain ⟨⟨_,hsame⟩,hrest⟩ := h
          injection hrest with hrest
          injection hsame with hsame
          rw [hrest, hsame]
    · rw [if_neg hfits]
      constructor
      · intro h
        cases h
      · intro h
        exact absurd h.1.1 hfits

/-- Every update reads back its own value exactly when those at one height have one value. -/
theorem asOf_self_iff (ho : Ordered l) (h : Nat) :
    (∀ e ∈ upTo h l, asOf e.1 l = some e.2) ↔
      ∀ e ∈ upTo h l, ∀ e' ∈ upTo h l, e.1 = e'.1 → e.2 = e'.2 := by
  constructor
  · intro hself e he e' he' hheight
    have hlatest := hself e he
    rw [hheight, hself e' he'] at hlatest
    injection hlatest with hlatest
    exact hlatest.symm
  · intro halike e he
    obtain ⟨latest,hmem,hheight,hlatest⟩ := ho.asOf_of_mem (mem_upTo.mp he).1
    have hle : latest.1 ≤ h := hheight.trans_le (mem_upTo.mp he).2
    rw [hlatest, halike latest (mem_upTo.mpr ⟨hmem,hle⟩) e he hheight]

end Iterate

/-- The iterator gives the updates of the key with their own values exactly when those at one height
are alike and the binary searches stay within `u32`. -/
theorem iterate_backwards_iff (puts : List Put)
    (hord : puts.Pairwise fun p p' => p.height ≤ p'.height) (σ : Store)
    (hp : putAll ∅ puts = .ok σ) (key : Bytes) (h : Nat) :
    iterateBackwards (rocksDB σ) key h = .ok (upTo h (entriesOf puts key)).reverse ↔
      IteratesExactly (entriesOf puts key) h := by
  have hσ := HasRecords.ofPuts hp
  have ho : Ordered (entriesOf puts key) := ordered_entriesOf hord key
  have hb : ∀ e ∈ entriesOf puts key, e.1<2^32 := fun e he => entriesOf_lt he
  have hread := (hσ.hasHistory key).searchUpdates_eq ho hb (hσ.short key)
  have hiterate : iterateBackwards (rocksDB σ) key h =
      collectValues (rocksDB σ) key ((upTo h (entriesOf puts key)).reverse.map Prod.fst) := by
    rw [iterateBackwards, (hσ.hasHistory key).getHeightsForKey_eq hb (hσ.short key),
      ← descending_heights ho h]
    rfl
  rw [hiterate, collectValues_eq_iff hread ho _
    fun e he => (mem_upTo.mp (List.mem_reverse.mp he)).1]
  simp only [List.mem_reverse]
  constructor
  · intro hall
    exact ⟨(asOf_self_iff ho h).mp fun e he => (hall e he).2,fun e he => (hall e he).1⟩
  · intro hexact e he
    exact ⟨hexact.fits e he,(asOf_self_iff ho h).mpr hexact.alike e he⟩

/-- A key with two updates at one height and one value. -/
theorem iterate_backwards_alike : ∃ σ, putAll ∅ [⟨[7],[1],3⟩,⟨[7],[1],3⟩,⟨[7],[2],5⟩] = .ok σ ∧
    iterateBackwards (rocksDB σ) [7] 4 = .ok [(3,[1]),(3,[1])] := by
  obtain ⟨σ,hσ⟩ := HasRecords.empty.putAll_total [⟨[7],[1],3⟩,⟨[7],[1],3⟩,⟨[7],[2],5⟩] (by
    intro key
    have h := List.length_filter_le (fun p : Put => p.key = key)
      [⟨[7],[1],3⟩,⟨[7],[1],3⟩,⟨[7],[2],5⟩]
    rw [List.nil_append, entriesOf, List.length_map]
    simp only [List.length_cons, List.length_nil] at h
    omega)
  exact ⟨σ,hσ,(iterate_backwards_iff _ (by decide) σ hσ [7] 4).mpr ⟨by decide,by decide⟩⟩

/-- Two updates at one height both read back as the second one. -/
theorem iterate_backwards_repeated_height :
    ¬∀ puts : List Put, (puts.Pairwise fun p p' => p.height ≤ p'.height) → ∀ σ,
      putAll ∅ puts = .ok σ → ∀ key h,
        iterateBackwards (rocksDB σ) key h = .ok (upTo h (entriesOf puts key)).reverse := by
  intro h
  have hrun : (putAll ∅ [⟨[7],[1],3⟩,⟨[7],[2],3⟩]).bind
      (fun σ => iterateBackwards (rocksDB σ) [7] 3) = .ok [(3,[2]),(3,[2])] := by decide +kernel
  cases hσ : putAll ∅ [⟨[7],[1],3⟩,⟨[7],[2],3⟩] with
  | error f =>
    rw [hσ] at hrun
    cases hrun
  | ok σ =>
    rw [hσ] at hrun
    have hexact := h _ (by decide) σ hσ [7] 3
    rw [show iterateBackwards (rocksDB σ) [7] 3 = .ok [(3,[2]),(3,[2])] from hrun] at hexact
    revert hexact
    decide

end Metashrew
