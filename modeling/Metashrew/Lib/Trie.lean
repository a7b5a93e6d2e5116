import Mathlib

/-- A binary trie whose leaves hold whole entries, as high up as they were put. -/
inductive Trie (α : Type*) where
  | empty
  | leaf (a : α)
  | node (left right : Trie α)

namespace Trie

variable {α κ : Type*}

/-- The bits ran out: on the way down, or while two paths were separated. -/
inductive Overflow where
  | depth
  | identical
  deriving DecidableEq, Repr

/-- A node with `x` on the side of the bit and `y` on the other. -/
def fork (b : Bool) (x y : Trie α) : Trie α := if b then node y x else node x y

def Mem (a : α) : Trie α → Prop
  | empty => False
  | leaf b => a = b
  | node l r => Mem a l ∨ Mem a r

section Paths

variable (path : α → κ) (bit : κ → Nat → Bool) (limit : Nat)

/-- The tree that holds `a` and `b` from depth `d` on, with a chain down to the first bit in which
they differ. -/
def separate (a b : α) : Nat → Nat → Except Overflow (Trie α)
  | 0, _ => .error .identical
  | remaining+1, d =>
    if bit (path b) d = bit (path a) d then
      (separate a b remaining (d+1)).map fun t => fork (bit (path a) d) t empty
    else .ok (fork (bit (path b) d) (leaf b) (leaf a))

section Insert

variable [DecidableEq κ]

def insert (a : α) : Nat → Trie α → Except Overflow (Trie α)
  | _, empty => .ok (leaf a)
  | d, leaf b =>
    if path b = path a then .ok (leaf a) else separate path bit a b (limit-d) d
  | d, node l r =>
    if limit ≤ d+1 then .error .depth
    else if bit (path a) d then (insert a (d+1) r).map (node l)
    else (insert a (d+1) l).map fun t => node t r

/-- The entry that the walk of `p` ends at. -/
def find (p : κ) : Nat → Trie α → Option α
  | _, empty => none
  | _, leaf a => if path a = p then some a else none
  | d, node l r => if bit p d then find p (d+1) r else find p (d+1) l

end Insert

/-- Every entry is on its own path. -/
def Placed : Nat → Trie α → Prop
  | _, empty => True
  | _, leaf _ => True
  | d, node l r => ((∀ a, Mem a l → bit (path a) d = false) ∧ ∀ a, Mem a r → bit (path a) d = true) ∧
      Placed (d+1) l ∧ Placed (d+1) r

/-- Every entry is on its own path, and every node is there because of two entries. -/
inductive WellFormed : Nat → Trie α → Prop where
  | empty (d : Nat) : WellFormed d empty
  | leaf (d : Nat) (a : α) : WellFormed d (leaf a)
  | node {d : Nat} {l r : Trie α} : WellFormed (d+1) l → WellFormed (d+1) r →
      (∀ a, Mem a l → bit (path a) d = false) → (∀ a, Mem a r → bit (path a) d = true) →
      (∃ a b, Mem a (node l r) ∧ Mem b (node l r) ∧ path a ≠ path b) → WellFormed d (node l r)

end Paths

section Members

variable {path : α → κ} {bit : κ → Nat → Bool} {limit d : Nat} {a b : α} {l r t t' : Trie α}

@[simp] theorem mem_empty : Mem a empty ↔ False := Iff.rfl

@[simp] theorem mem_leaf : Mem a (leaf b) ↔ a = b := Iff.rfl

@[simp] theorem mem_node : Mem a (node l r) ↔ Mem a l ∨ Mem a r := Iff.rfl

@[simp] theorem mem_fork {s : Bool} : Mem a (fork s l r) ↔ Mem a l ∨ Mem a r := by
  cases s with
  | false => exact Iff.rfl
  | true => exact or_comm

/-- A forked node is well formed when its children are, on the right sides, with two entries. -/
theorem WellFormed.fork {s : Bool} (hl : WellFormed path bit (d+1) l)
    (hr : WellFormed path bit (d+1) r) (hs : ∀ a, Mem a l → bit (path a) d = s)
    (hn : ∀ a, Mem a r → bit (path a) d = !s)
    (htwo : ∃ a b, (Mem a l ∨ Mem a r) ∧ (Mem b l ∨ Mem b r) ∧ path a ≠ path b) :
    WellFormed path bit d (fork s l r) := by
  obtain ⟨a,b,ha,hb,hne⟩ := htwo
  cases s with
  | false => exact .node hl hr hs hn ⟨a,b,ha,hb,hne⟩
  | true => exact .node hr hl hn hs ⟨a,b,ha.symm,hb.symm,hne⟩

/-- Two paths that differ in a bit within the limit are separated. -/
theorem exists_separate {remaining i : Nat} (hi : d ≤ i) (hlt : i < d+remaining)
    (hdiff : bit (path a) i ≠ bit (path b) i) :
    ∃ t, separate path bit a b remaining d = .ok t := by
  induction remaining generalizing d with
  | zero => omega
  | succ remaining ih =>
    rw [separate]
    by_cases hb : bit (path b) d = bit (path a) d
    · have hne : i ≠ d := by
        rintro rfl
        exact hdiff hb.symm
      obtain ⟨t,ht⟩ := ih (by omega : d+1 ≤ i) (by omega)
      rw [if_pos hb, ht]
      exact ⟨_,rfl⟩
    · rw [if_neg hb]
      exact ⟨_,rfl⟩

/-- Well-formed tries with the same entries are equal. -/
theorem WellFormed.unique (ht : WellFormed path bit d t) (ht' : WellFormed path bit d t')
    (h : ∀ a, Mem a t ↔ Mem a t') : t = t' := by
  induction ht generalizing t' with
  | empty d =>
    cases ht' with
    | empty => rfl
    | leaf _ b => exact absurd ((h b).mpr rfl) id
    | node _ _ _ _ htwo =>
      obtain ⟨a,_,ha,_⟩ := htwo
      exact absurd ((h a).mpr ha) id
  | leaf d b =>
    cases ht' with
    | empty => exact absurd ((h b).mp rfl) id
    | leaf _ c =>
      have hbc : b = c := (h b).mp rfl
      rw [hbc]
    | node _ _ _ _ htwo =>
      obtain ⟨a,c,ha,hc,hne⟩ := htwo
      have hab : a = b := (h a).mpr ha
      have hcb : c = b := (h c).mpr hc
      exact absurd (by rw [hab, hcb]) hne
  | @node d l r _ _ hfalse htrue htwo ihl ihr =>
    obtain ⟨a,c,ha,hc,hne⟩ := htwo
    cases ht' with
    | empty => exact absurd ((h a).mp ha) id
    | leaf _ b =>
      have hab : a = b := (h a).mp ha
      have hcb : c = b := (h c).mp hc
      exact absurd (by rw [hab, hcb]) hne
    | @node _ l' r' hl' hr' hfalse' htrue' _ =>
      have hleft : ∀ e, Mem e l ↔ Mem e l' := by
        intro e
        constructor
        · intro he
          refine ((h e).mp (.inl he)).resolve_right fun he' => ?_
          exact absurd (hfalse e he) (by rw [htrue' e he']; decide)
        · intro he
          refine ((h e).mpr (.inl he)).resolve_right fun he' => ?_
          exact absurd (hfalse' e he) (by rw [htrue e he']; decide)
      have hright : ∀ e, Mem e r ↔ Mem e r' := by
        intro e
        constructor
        · intro he
          refine ((h e).mp (.inr he)).resolve_left fun he' => ?_
          exact absurd (htrue e he) (by rw [hfalse' e he']; decide)
        · intro he
          refine ((h e).mpr (.inr he)).resolve_left fun he' => ?_
          exact absurd (htrue' e he) (by rw [hfalse e he']; decide)
      rw [ihl hl' hleft, ihr hr' hright]

variable [DecidableEq κ]

/-- The walk of a path finds the entry on it. -/
theorem WellFormed.find_eq (ht : WellFormed path bit d t) {p : κ} :
    find path bit p d t = some a ↔ Mem a t ∧ path a = p := by
  induction ht with
  | empty d => simp [find]
  | leaf d b =>
    rw [find]
    constructor
    · intro h
      split_ifs at h with hb
      cases h
      exact ⟨rfl,hb⟩
    · rintro ⟨rfl,hp⟩
      rw [if_pos hp]
  | @node d l r _ _ hfalse htrue _ ihl ihr =>
    rw [find]
    by_cases hb : bit p d = true
    · rw [if_pos hb, ihr]
      constructor
      · rintro ⟨hm,hp⟩
        exact ⟨.inr hm,hp⟩
      · rintro ⟨hm | hm,hp⟩
        · exact absurd (hfalse a hm) (by rw [hp, hb]; decide)
        · exact ⟨hm,hp⟩
    · rw [if_neg hb, ihl]
      constructor
      · rintro ⟨hm,hp⟩
        exact ⟨.inl hm,hp⟩
      · rintro ⟨hm | hm,hp⟩
        · exact ⟨hm,hp⟩
        · exact absurd (htrue a hm) (by rw [hp]; exact hb)

/-- An insertion has bits enough when the other entries leave the path before the last bit. -/
theorem WellFormed.insert (ht : WellFormed path bit d t) (hd : d < limit)
    (hpre : ∀ b, Mem b t → ∀ i < d, bit (path b) i = bit (path a) i)
    (hsep : ∀ b, Mem b t → path b ≠ path a →
      ∃ i, i+1 < limit ∧ bit (path a) i ≠ bit (path b) i) :
    ∃ t', Trie.insert path bit limit a d t = .ok t' := by
  induction ht with
  | empty d => exact ⟨.leaf a,rfl⟩
  | leaf d c =>
    rw [Trie.insert]
    by_cases hc : path c = path a
    · rw [if_pos hc]
      exact ⟨_,rfl⟩
    · rw [if_neg hc]
      obtain ⟨i,hi,hdiff⟩ := hsep c rfl hc
      have hle : d ≤ i := by
        by_contra hlt
        exact hdiff (hpre c rfl i (by omega)).symm
      exact exists_separate hle (by omega) hdiff
  | @node d l r hwl hwr hfalse htrue htwo ihl ihr =>
    -- one of the two entries leaves the path, below this node
    have hdeep : d+1 < limit := by
      obtain ⟨b,c,hb,hc,hne⟩ := htwo
      obtain ⟨e,he,hpath⟩ : ∃ e, Mem e (Trie.node l r) ∧ path e ≠ path a := by
        by_cases hba : path b = path a
        · exact ⟨c,hc,fun h => hne (hba.trans h.symm)⟩
        · exact ⟨b,hb,hba⟩
      obtain ⟨i,hi,hdiff⟩ := hsep e he hpath
      have hle : d ≤ i := by
        by_contra hlt
        exact hdiff (hpre e he i (by omega)).symm
      omega
    have hbelow : ∀ x, (∀ b, Mem b x → Mem b (Trie.node l r)) →
        (∀ b, Mem b x → bit (path b) d = bit (path a) d) →
        ∀ b, Mem b x → ∀ i < d+1, bit (path b) i = bit (path a) i := by
      intro x hsub hside b hb i hi
      by_cases hid : i = d
      · rw [hid]
        exact hside b hb
      · exact hpre b (hsub b hb) i (by omega)
    rw [Trie.insert, if_neg (by omega)]
    cases hbit : bit (path a) d with
    | true =>
      obtain ⟨r',hr'⟩ := ihr hdeep
        (hbelow r (fun b hb => .inr hb) fun b hb => by rw [htrue b hb, hbit])
        fun b hb => hsep b (.inr hb)
      rw [if_pos rfl, hr']
      exact ⟨_,rfl⟩
    | false =>
      obtain ⟨l',hl'⟩ := ihl hdeep
        (hbelow l (fun b hb => .inl hb) fun b hb => by rw [hfalse b hb, hbit])
        fun b hb => hsep b (.inl hb)
      rw [if_neg (by decide), hl']
      exact ⟨_,rfl⟩

omit [DecidableEq κ] in
theorem Placed.fork {s : Bool} (hl : Placed path bit (d+1) l) (hr : Placed path bit (d+1) r)
    (hs : ∀ a, Mem a l → bit (path a) d = s) (hn : ∀ a, Mem a r → bit (path a) d = !s) :
    Placed path bit d (fork s l r) := by
  cases s with
  | false => exact ⟨⟨hs,hn⟩,hl,hr⟩
  | true => exact ⟨⟨hn,hs⟩,hr,hl⟩

omit [DecidableEq κ] in
theorem separate_placed {remaining : Nat} (h : separate path bit a b remaining d = .ok t) :
    Placed path bit d t ∧ ∀ c, Mem c t ↔ c = a ∨ c = b := by
  induction remaining generalizing d t with
  | zero => cases h
  | succ remaining ih =>
    rw [separate] at h
    by_cases hb : bit (path b) d = bit (path a) d
    · rw [if_pos hb] at h
      cases hs : separate path bit a b remaining (d+1) with
      | error f =>
        rw [hs] at h
        cases h
      | ok t' =>
        rw [hs] at h
        cases h
        obtain ⟨hp,hmem⟩ := ih hs
        refine ⟨hp.fork trivial ?_ fun c hc => absurd hc id,fun c => by simp [hmem]⟩
        intro c hc
        obtain rfl | rfl := (hmem c).mp hc
        · rfl
        · exact hb
    · rw [if_neg hb] at h
      cases h
      refine ⟨Placed.fork (l := leaf b) (r := leaf a) trivial trivial ?_ ?_,fun c => ?_⟩
      · rintro c rfl
        rfl
      · rintro c rfl
        cases h1 : bit (path c) d <;> cases h2 : bit (path b) d <;> simp_all
      · rw [mem_fork, or_comm]
        exact Iff.rfl

/-- An insertion that succeeds puts the entry on its path. -/
theorem Placed.insert (ht : Placed path bit d t) (h : Trie.insert path bit limit a d t = .ok t') :
    Placed path bit d t' ∧ ∀ c, Mem c t' → c = a ∨ Mem c t := by
  induction t generalizing d t' with
  | empty =>
    cases h
    exact ⟨trivial,fun c hc => .inl hc⟩
  | leaf b =>
    rw [Trie.insert] at h
    split_ifs at h with hb
    · cases h
      exact ⟨trivial,fun c hc => .inl hc⟩
    · obtain ⟨hp,hmem⟩ := separate_placed h
      exact ⟨hp,fun c hc => (hmem c).mp hc⟩
  | node l r ihl ihr =>
    obtain ⟨⟨hfalse,htrue⟩,hl,hr⟩ := ht
    rw [Trie.insert] at h
    split_ifs at h with hmax hbit
    · cases hi : Trie.insert path bit limit a (d+1) r with
      | error f =>
        rw [hi] at h
        cases h
      | ok r' =>
        rw [hi] at h
        cases h
        obtain ⟨hp,hmem⟩ := ihr hr hi
        refine ⟨⟨⟨hfalse,?_⟩,hl,hp⟩,?_⟩
        · intro c hc
          obtain rfl | hc := hmem c hc
          · exact hbit
          · exact htrue c hc
        · rintro c (hc | hc)
          · exact .inr (.inl hc)
          · exact (hmem c hc).imp id .inr
    · cases hi : Trie.insert path bit limit a (d+1) l with
      | error f =>
        rw [hi] at h
        cases h
      | ok l' =>
        rw [hi] at h
        cases h
        obtain ⟨hp,hmem⟩ := ihl hl hi
        refine ⟨⟨⟨?_,htrue⟩,hp,hr⟩,?_⟩
        · intro c hc
          obtain rfl | hc := hmem c hc
          · exact Bool.eq_false_of_not_eq_true hbit
          · exact hfalse c hc
        · rintro c (hc | hc)
          · exact (hmem c hc).imp id .inl
          · exact .inr (.inr hc)

end Members

end Trie
