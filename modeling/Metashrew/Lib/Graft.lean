import Metashrew.Lib.Trie

/-! The end of a walk down a trie, and the trie with that end replaced. -/

namespace Trie

variable {α κ : Type*}

section Walk

variable (path : α → κ) (bit : κ → Nat → Bool) (limit : Nat)

/-- The entry at which the walk of a path ends, none where the place is empty; a walk that takes all
bits has no end. -/
def endOf (p : κ) : Nat → Trie α → Except Overflow (Option α)
  | _, empty => .ok none
  | _, leaf b => .ok (some b)
  | d, node l r =>
    if limit ≤ d+1 then .error .depth
    else if bit p d then endOf p (d+1) r else endOf p (d+1) l

/-- The entry in the place of whatever its walk ends at. -/
def graft (a : α) : Nat → Trie α → Trie α
  | _, empty => leaf a
  | _, leaf _ => leaf a
  | d, node l r => if bit (path a) d then node l (graft a (d+1) r) else node (graft a (d+1) l) r

/-- The walk of an entry ends at an empty place or at an entry on the same path. -/
def Fits (a : α) (d : Nat) (t : Trie α) : Prop :=
  ∃ o, endOf bit limit (path a) d t = .ok o ∧ ∀ b, o = some b → path b = path a

end Walk

variable {path : α → κ} {bit : κ → Nat → Bool} {limit d : Nat} {a b : α} {l r t t' : Trie α} {p : κ}
  {o : Option α} {f : Overflow}

theorem endOf_child (hd : ¬limit ≤ d+1) : endOf bit limit p d (node l r) =
    endOf bit limit p (d+1) (if bit p d then r else l) := by
  rw [endOf, if_neg hd, apply_ite (endOf bit limit p (d+1))]

theorem endOf_node_true (hd : ¬limit ≤ d+1) (hbit : bit p d = true) :
    endOf bit limit p d (node l r) = endOf bit limit p (d+1) r := by
  rw [endOf, if_neg hd, if_pos hbit]

theorem endOf_node_false (hd : ¬limit ≤ d+1) (hbit : bit p d = false) :
    endOf bit limit p d (node l r) = endOf bit limit p (d+1) l := by
  rw [endOf, if_neg hd, if_neg (by rw [hbit]; exact Bool.false_ne_true)]

theorem graft_node_true (hbit : bit (path a) d = true) :
    graft path bit a d (node l r) = node l (graft path bit a (d+1) r) := by
  rw [graft, if_pos hbit]

theorem graft_node_false (hbit : bit (path a) d = false) :
    graft path bit a d (node l r) = node (graft path bit a (d+1) l) r := by
  rw [graft, if_neg (by rw [hbit]; exact Bool.false_ne_true)]

theorem lt_of_endOf_node (h : endOf bit limit p d (node l r) = .ok o) : ¬limit ≤ d+1 := by
  intro hd
  rw [endOf, if_pos hd] at h
  cases h

/-- The walk through a node goes on through one of its children. -/
theorem endOf_node (h : endOf bit limit p d (node l r) = .ok o) :
    (bit p d = true ∧ endOf bit limit p (d+1) r = .ok o) ∨
      (bit p d = false ∧ endOf bit limit p (d+1) l = .ok o) := by
  have hd := lt_of_endOf_node h
  cases hbit : bit p d with
  | true =>
    rw [endOf_node_true hd hbit] at h
    exact .inl ⟨rfl,h⟩
  | false =>
    rw [endOf_node_false hd hbit] at h
    exact .inr ⟨rfl,h⟩

theorem eq_depth_of_endOf (h : endOf bit limit p d t = .error f) : f = .depth := by
  induction t generalizing d with
  | empty => cases h
  | leaf b => cases h
  | node l r ihl ihr =>
    rw [endOf] at h
    split_ifs at h
    · cases h
      rfl
    · exact ihr h
    · exact ihl h

theorem mem_of_endOf (h : endOf bit limit p d t = .ok (some b)) : Mem b t := by
  induction t generalizing d with
  | empty => cases h
  | leaf c =>
    cases h
    exact mem_leaf.mpr rfl
  | node l r ihl ihr =>
    obtain ⟨_,h⟩ | ⟨_,h⟩ := endOf_node h
    · exact mem_node.mpr (.inr (ihr h))
    · exact mem_node.mpr (.inl (ihl h))

theorem mem_graft (h : Mem b (graft path bit a d t)) : b = a ∨ Mem b t := by
  induction t generalizing d with
  | empty => exact .inl h
  | leaf c => exact .inl h
  | node l r ihl ihr =>
    cases hbit : bit (path a) d with
    | true =>
      rw [graft_node_true hbit, mem_node] at h
      obtain h | h := h
      · exact .inr (.inl h)
      · exact (ihr h).imp id .inr
    | false =>
      rw [graft_node_false hbit, mem_node] at h
      obtain h | h := h
      · exact (ihl h).imp id .inl
      · exact .inr (.inr h)

/-- The end of the walk of an entry is the entry once it is there. -/
theorem endOf_graft_self (h : endOf bit limit (path a) d t = .ok o) :
    endOf bit limit (path a) d (graft path bit a d t) = .ok (some a) := by
  induction t generalizing d with
  | empty => rfl
  | leaf b => rfl
  | node l r ihl ihr =>
    have hd := lt_of_endOf_node h
    obtain ⟨hbit,h⟩ | ⟨hbit,h⟩ := endOf_node h
    · rw [graft_node_true hbit, endOf_node_true hd hbit]
      exact ihr h
    · rw [graft_node_false hbit, endOf_node_false hd hbit]
      exact ihl h

/-- A walk that ends at an entry still ends at one on the same path. -/
theorem Fits.endOf_graft (hf : Fits path bit limit a d t)
    (h : endOf bit limit p d t = .ok (some b)) :
    ∃ c, endOf bit limit p d (graft path bit a d t) = .ok (some c) ∧ path c = path b := by
  obtain ⟨o,ho,hown⟩ := hf
  induction t generalizing d with
  | empty => cases h
  | leaf e =>
    cases h
    cases ho
    exact ⟨a,rfl,(hown b rfl).symm⟩
  | node l r ihl ihr =>
    have hd := lt_of_endOf_node h
    obtain ⟨hbit,h⟩ | ⟨hbit,h⟩ := endOf_node h <;> obtain ⟨hbit',ho⟩ | ⟨hbit',ho⟩ := endOf_node ho
    · rw [graft_node_true hbit', endOf_node_true hd hbit]
      exact ihr h ho
    · rw [graft_node_false hbit', endOf_node_true hd hbit]
      exact ⟨b,h,rfl⟩
    · rw [graft_node_true hbit', endOf_node_false hd hbit]
      exact ⟨b,h,rfl⟩
    · rw [graft_node_false hbit', endOf_node_false hd hbit]
      exact ihl h ho

/-- A place that is empty stays so when an entry goes where there was one. -/
theorem endOf_graft_none (ha : endOf bit limit (path a) d t = .ok (some b))
    (h : endOf bit limit p d t = .ok none) :
    endOf bit limit p d (graft path bit a d t) = .ok none := by
  induction t generalizing d with
  | empty => cases ha
  | leaf e => cases h
  | node l r ihl ihr =>
    have hd := lt_of_endOf_node h
    obtain ⟨hbit,h⟩ | ⟨hbit,h⟩ := endOf_node h <;> obtain ⟨hbit',ha⟩ | ⟨hbit',ha⟩ := endOf_node ha
    · rw [graft_node_true hbit', endOf_node_true hd hbit]
      exact ihr ha h
    · rw [graft_node_false hbit', endOf_node_true hd hbit]
      exact h
    · rw [graft_node_true hbit', endOf_node_false hd hbit]
      exact h
    · rw [graft_node_false hbit', endOf_node_false hd hbit]
      exact ihl ha h

/-- The entry at the end of the walk goes. -/
theorem WellFormed.not_mem_graft (ht : WellFormed path bit d t)
    (h : endOf bit limit (path a) d t = .ok (some b)) (hne : b ≠ a) :
    ¬Mem b (graft path bit a d t) := by
  induction ht with
  | empty d => cases h
  | leaf d c => exact hne
  | @node d l r _ _ hfalse htrue _ ihl ihr =>
    obtain ⟨hbit,h⟩ | ⟨hbit,h⟩ := endOf_node h
    · rw [graft_node_true hbit, mem_node, not_or]
      refine ⟨fun hl => ?_,ihr h⟩
      have hr := htrue b (mem_of_endOf h)
      rw [hfalse b hl] at hr
      cases hr
    · rw [graft_node_false hbit, mem_node, not_or]
      refine ⟨ihl h,fun hr => ?_⟩
      have hl := hfalse b (mem_of_endOf h)
      rw [htrue b hr] at hl
      cases hl

/-- The walk of an entry of the trie ends at it. -/
theorem WellFormed.endOf_mem (ht : WellFormed path bit d t) (hb : Mem b t)
    (h : endOf bit limit (path b) d t = .ok o) : o = some b := by
  induction ht with
  | empty d => exact absurd hb id
  | leaf d c =>
    cases h
    rw [mem_leaf.mp hb]
  | @node d l r _ _ hfalse htrue _ ihl ihr =>
    obtain ⟨hbit,h⟩ | ⟨hbit,h⟩ := endOf_node h <;> obtain hb | hb := mem_node.mp hb
    · rw [hfalse b hb] at hbit
      cases hbit
    · exact ihr hb h
    · exact ihl hb h
    · rw [htrue b hb] at hbit
      cases hbit

theorem WellFormed.placed (ht : WellFormed path bit d t) : Placed path bit d t := by
  induction ht with
  | empty d => trivial
  | leaf d b => trivial
  | node _ _ hfalse htrue _ ihl ihr => exact ⟨⟨hfalse,htrue⟩,ihl,ihr⟩

/-- Where the bits end, a node has an entry on either side. -/
theorem WellFormed.child_ne_empty (hbits : ∀ p q : κ, (∀ i < limit, bit p i = bit q i) → p = q)
    (ht : WellFormed path bit d (Trie.node l r)) (hd : limit ≤ d+1)
    (hpre : ∀ b, Mem b (Trie.node l r) → ∀ i < d, bit (path b) i = bit p i) :
    (if bit p d then r else l) ≠ Trie.empty := by
  intro hempty
  cases ht with
  | node _ _ hfalse htrue htwo =>
    obtain ⟨a,b,ha,hb,hne⟩ := htwo
    apply hne
    apply hbits
    intro i hi
    by_cases hid : i < d
    · rw [hpre a ha i hid, hpre b hb i hid]
    · obtain rfl : i = d := by omega
      cases hbit : bit p i with
      | true =>
        rw [if_pos hbit] at hempty
        rw [hempty] at ha hb
        rw [hfalse a (ha.resolve_right id), hfalse b (hb.resolve_right id)]
      | false =>
        rw [if_neg (by rw [hbit]; exact Bool.false_ne_true)] at hempty
        rw [hempty] at ha hb
        rw [htrue a (ha.resolve_left id), htrue b (hb.resolve_left id)]

/-- Two entries of one path are equal. -/
theorem WellFormed.eq_of_path (ht : WellFormed path bit d t) (ha : Mem a t) (hb : Mem b t)
    (h : path a = path b) : a = b := by
  classical
  have hfa : find path bit (path b) d t = some a := ht.find_eq.mpr ⟨ha,h⟩
  have hfb : find path bit (path b) d t = some b := ht.find_eq.mpr ⟨hb,rfl⟩
  exact Option.some.inj (hfa.symm.trans hfb)

section Insert

variable [DecidableEq κ]

theorem insert_of_endOf_error (h : endOf bit limit (path a) d t = .error f) :
    insert path bit limit a d t = .error f := by
  induction t generalizing d with
  | empty => cases h
  | leaf b => cases h
  | node l r ihl ihr =>
    rw [endOf] at h
    rw [insert]
    split_ifs at h ⊢
    · cases h
      rfl
    · rw [ihr h]
      rfl
    · rw [ihl h]
      rfl

/-- An insertion of an entry that fits is the graft. -/
theorem Fits.insert_eq (hf : Fits path bit limit a d t) :
    insert path bit limit a d t = .ok (graft path bit a d t) := by
  obtain ⟨o,ho,hown⟩ := hf
  induction t generalizing d with
  | empty => rfl
  | leaf b =>
    cases ho
    rw [insert, if_pos (hown b rfl)]
    rfl
  | node l r ihl ihr =>
    rw [insert, if_neg (lt_of_endOf_node ho)]
    obtain ⟨hbit,ho⟩ | ⟨hbit,ho⟩ := endOf_node ho
    · rw [if_pos hbit, ihr ho, graft_node_true hbit]
      rfl
    · rw [if_neg (by rw [hbit]; exact Bool.false_ne_true), ihl ho, graft_node_false hbit]
      rfl

/-- A walk that has no end has none after an insertion. -/
theorem endOf_error_insert (h : endOf bit limit p d t = .error f)
    (hins : insert path bit limit a d t = .ok t') : endOf bit limit p d t' = .error f := by
  induction t generalizing d t' with
  | empty => cases h
  | leaf b => cases h
  | node l r ihl ihr =>
    rw [insert] at hins
    split_ifs at hins with hmax hbit
    · cases hi : insert path bit limit a (d+1) r with
      | error g =>
        rw [hi] at hins
        cases hins
      | ok r' =>
        rw [hi] at hins
        cases hins
        rw [endOf, if_neg hmax] at h ⊢
        split_ifs at h ⊢
        · exact ihr h hi
        · exact h
    · cases hi : insert path bit limit a (d+1) l with
      | error g =>
        rw [hi] at hins
        cases hins
      | ok l' =>
        rw [hi] at hins
        cases hins
        rw [endOf, if_neg hmax] at h ⊢
        split_ifs at h ⊢
        · exact h
        · exact ihl h hi

omit [DecidableEq κ] in
theorem separate_wellFormed {remaining : Nat} (hne : path a ≠ path b)
    (h : separate path bit a b remaining d = .ok t) : WellFormed path bit d t := by
  induction remaining generalizing d t with
  | zero => cases h
  | succ remaining ih =>
    rw [separate] at h
    by_cases hb : bit (path b) d = bit (path a) d
    · rw [if_pos hb] at h
      cases hs : separate path bit a b remaining (d+1) with
      | error f =>
        rw [hs] at h
        cases h
      | ok t' =>
        have hmem' := (separate_placed hs).2
        rw [hs] at h
        cases h
        apply (ih hs).fork (.empty _)
        · intro c hc
          obtain rfl | rfl := (hmem' c).mp hc
          · rfl
          · exact hb
        · exact fun c hc => absurd hc id
        · exact ⟨a,b,.inl ((hmem' a).mpr (.inl rfl)),.inl ((hmem' b).mpr (.inr rfl)),hne⟩
    · rw [if_neg hb] at h
      cases h
      apply WellFormed.fork (.leaf _ b) (.leaf _ a)
      · rintro c rfl
        rfl
      · rintro c rfl
        cases h1 : bit (path c) d <;> cases h2 : bit (path b) d <;> simp_all
      · exact ⟨a,b,.inr rfl,.inl rfl,hne⟩

omit [DecidableEq κ] in
/-- The separation fails on paths that agree on all bits left. -/
theorem separate_error {remaining : Nat} (h : separate path bit a b remaining d = .error f) :
    ∀ i, d ≤ i → i < d+remaining → bit (path b) i = bit (path a) i := by
  induction remaining generalizing d f with
  | zero => exact fun i hi hlt => absurd hlt (by omega)
  | succ remaining ih =>
    rw [separate] at h
    split_ifs at h with hb
    cases hs : separate path bit a b remaining (d+1) with
    | ok t =>
      rw [hs] at h
      cases h
    | error g =>
      intro i hi hlt
      by_cases hid : i = d
      · rw [hid]
        exact hb
      · exact ih hs i (by omega) (by omega)

omit [DecidableEq κ] in
/-- After a replacement a node still has two entries. -/
theorem two_entries {x y : Trie α} (h : ∃ b c, Mem b x ∧ Mem c x ∧ path b ≠ path c)
    (hmem : ∀ b, Mem b y ↔ b = a ∨ Mem b x ∧ path b ≠ path a) :
    ∃ b c, Mem b y ∧ Mem c y ∧ path b ≠ path c := by
  obtain ⟨b,c,hb,hc,hne⟩ := h
  by_cases hba : path b = path a
  · have hca : path c ≠ path a := fun h => hne (hba.trans h.symm)
    exact ⟨a,c,(hmem a).mpr (.inl rfl),(hmem c).mpr (.inr ⟨hc,hca⟩),Ne.symm hca⟩
  · exact ⟨b,a,(hmem b).mpr (.inr ⟨hb,hba⟩),(hmem a).mpr (.inl rfl),hba⟩

theorem or_replaced {p q q' e n : Prop} (hp : p → n) (hq : q' ↔ e ∨ q ∧ n) :
    p ∨ q' ↔ e ∨ (p ∨ q) ∧ n := by
  rw [hq]
  tauto

/-- A well-formed trie stays so, with the entry instead of what was on its path. -/
theorem WellFormed.of_insert (ht : WellFormed path bit d t)
    (h : Trie.insert path bit limit a d t = .ok t') :
    WellFormed path bit d t' ∧ ∀ b, Mem b t' ↔ b = a ∨ Mem b t ∧ path b ≠ path a := by
  induction ht generalizing t' with
  | empty d =>
    cases h
    exact ⟨.leaf d a,fun b => by simp⟩
  | leaf d c =>
    rw [Trie.insert] at h
    split_ifs at h with hc
    · cases h
      refine ⟨.leaf d a,fun b => ?_⟩
      rw [mem_leaf, mem_leaf]
      constructor
      · exact .inl
      · rintro (h | ⟨rfl,hne⟩)
        · exact h
        · exact absurd hc hne
    · refine ⟨separate_wellFormed (Ne.symm hc) h,fun b => ?_⟩
      rw [(separate_placed h).2, mem_leaf]
      constructor
      · rintro (rfl | rfl)
        · exact .inl rfl
        · exact .inr ⟨rfl,hc⟩
      · rintro (h | ⟨h,_⟩)
        · exact .inl h
        · exact .inr h
  | @node d l r hl hr hfalse htrue htwo ihl ihr =>
    rw [Trie.insert] at h
    split_ifs at h with hmax hbit
    · cases hi : Trie.insert path bit limit a (d+1) r with
      | error g =>
        rw [hi] at h
        cases h
      | ok r' =>
        rw [hi] at h
        cases h
        obtain ⟨hw,hmem⟩ := ihr hi
        have hall : ∀ b, Mem b (Trie.node l r') ↔ b = a ∨ Mem b (Trie.node l r) ∧ path b ≠ path a := by
          intro b
          apply or_replaced ?_ (hmem b)
          intro hb heq
          rw [← heq, hfalse b hb] at hbit
          cases hbit
        refine ⟨.node hl hw hfalse ?_ (two_entries htwo hall),hall⟩
        intro b hb
        obtain rfl | ⟨hb,_⟩ := (hmem b).mp hb
        · exact hbit
        · exact htrue b hb
    · cases hi : Trie.insert path bit limit a (d+1) l with
      | error g =>
        rw [hi] at h
        cases h
      | ok l' =>
        rw [hi] at h
        cases h
        obtain ⟨hw,hmem⟩ := ihl hi
        have hall : ∀ b, Mem b (Trie.node l' r) ↔ b = a ∨ Mem b (Trie.node l r) ∧ path b ≠ path a := by
          intro b
          rw [mem_node, mem_node, or_comm, or_comm (a := Mem b l)]
          apply or_replaced ?_ (hmem b)
          intro hb heq
          rw [← heq, htrue b hb] at hbit
          exact hbit rfl
        refine ⟨.node hw hr ?_ htrue (two_entries htwo hall),hall⟩
        intro b hb
        obtain rfl | ⟨hb,_⟩ := (hmem b).mp hb
        · exact Bool.eq_false_of_not_eq_true hbit
        · exact hfalse b hb

/-- When the bits determine the paths, an insertion fails only for the depth of its walk. -/
theorem endOf_of_insert_error (hbits : ∀ p q : κ, (∀ i < limit, bit p i = bit q i) → p = q)
    (ht : Placed path bit d t) (hpre : ∀ b, Mem b t → ∀ i < d, bit (path b) i = bit (path a) i)
    (h : insert path bit limit a d t = .error f) :
    endOf bit limit (path a) d t = .error .depth := by
  induction t generalizing d f with
  | empty => cases h
  | leaf b =>
    rw [insert] at h
    split_ifs at h with hb
    refine absurd (hbits _ _ fun i hi => ?_) hb
    by_cases hid : i < d
    · exact hpre b (mem_leaf.mpr rfl) i hid
    · exact separate_error h i (by omega) (by omega)
  | node l r ihl ihr =>
    obtain ⟨⟨hfalse,htrue⟩,hl,hr⟩ := ht
    have hbelow : ∀ c, (∀ b, Mem b c → Mem b (node l r)) →
        (∀ b, Mem b c → bit (path b) d = bit (path a) d) →
        ∀ b, Mem b c → ∀ i < d+1, bit (path b) i = bit (path a) i := by
      intro c hsub hside b hb i hi
      by_cases hid : i = d
      · rw [hid]
        exact hside b hb
      · exact hpre b (hsub b hb) i (by omega)
    rw [insert] at h
    rw [endOf]
    split_ifs at h ⊢ with hmax hbit
    · rfl
    · cases hi : insert path bit limit a (d+1) r with
      | error g =>
        exact ihr hr (hbelow r (fun b => .inr) fun b hb => (htrue b hb).trans hbit.symm) hi
      | ok r' =>
        rw [hi] at h
        cases h
    · have hbit' := Bool.eq_false_of_not_eq_true hbit
      cases hi : insert path bit limit a (d+1) l with
      | error g =>
        exact ihl hl (hbelow l (fun b => .inl) fun b hb => (hfalse b hb).trans hbit'.symm) hi
      | ok l' =>
        rw [hi] at h
        cases h

end Insert

end Trie
