import Metashrew.Lib.Numeral
import Metashrew.Lib.Parse

namespace Parser

open Bytes

variable {ε : Type} {e : ε} {k n : Nat} {bs rest : Bytes}

/-- A number of `k` bytes. -/
def number (e : ε) (k : Nat) : Parser UInt8 ε Nat := do
  let bs ← takeN e k
  return ofLE bs

theorem Reads.number (h : n < 256^k) : (number e k).Reads (toLE k n) n := by
  have hread := Reads.bind_pure (g := ofLE) (Reads.takeN (e := e) (length_toLE k n))
  rw [ofLE_toLE h] at hread
  exact hread

theorem Local.number (e : ε) (k : Nat) : (number e k).Local e :=
  (Local.takeN k).bind fun bs => .pure (ofLE bs)

theorem run_number_iff :
    (number e k).run bs = .ok (n,rest) ↔ n < 256^k ∧ bs = toLE k n ++ rest := by
  constructor
  · intro h
    obtain ⟨s,mid,hs,hn⟩ := exists_of_run_bind h
    cases hn
    obtain ⟨hlen,rfl⟩ := run_takeN_iff.mp hs
    rw [← hlen]
    exact ⟨ofLE_lt s,by rw [toLE_ofLE]⟩
  · intro h
    rw [h.2]
    exact Reads.number h.1 rest

end Parser

/-! Numbers below 2^64 in one, three, five or nine bytes: a small number is a single byte, a larger
one follows a byte that gives its width. -/

namespace CompactSize

open Bytes Parser

/-- The shortest form of a number. -/
def encode (n : Nat) : Bytes :=
  if n < 0xFD then toLE 1 n
  else if n < 2^16 then 0xFD::toLE 2 n
  else if n < 2^32 then 0xFE::toLE 4 n
  else 0xFF::toLE 8 n

/-- A form that is longer than the number needs. -/
inductive Overlong : Bytes → Nat → Prop
  | two {n : Nat} (h : n < 0xFD) : Overlong (0xFD::toLE 2 n) n
  | four {n : Nat} (h : n < 2^16) : Overlong (0xFE::toLE 4 n) n
  | eight {n : Nat} (h : n < 2^32) : Overlong (0xFF::toLE 8 n) n

variable {ε : Type} {e : ε} {n : Nat} {bs rest s : Bytes}

/-- A number in any of its forms. -/
def anyForm (e : ε) : Parser UInt8 ε Nat := do
  let b ← number e 1
  if b = 0xFF then number e 8
  else if b = 0xFE then number e 4
  else if b = 0xFD then number e 2
  else return b

theorem Overlong.length_lt (h : Overlong s n) : (encode n).length < s.length := by
  cases h with
  | two h => simp [encode, h]
  | four h =>
    rw [encode]
    split_ifs <;> simp
  | eight h =>
    rw [encode]
    split_ifs <;> simp

theorem run_anyForm_cons (b : UInt8) (bs : Bytes) : (anyForm e).run (b::bs) =
    (if b.toNat = 0xFF then number e 8
      else if b.toNat = 0xFE then number e 4
      else if b.toNat = 0xFD then number e 2
      else pure b.toNat : Parser UInt8 ε Nat).run bs := by
  have hb := b.toNat_lt
  have hread : (number e 1).run (b::bs) = .ok (b.toNat,bs) := by
    rw [run_number_iff]
    refine ⟨by omega,?_⟩
    simp [toLE]
  exact run_bind_ok hread

/-- What is read is the shortest form of the number or an overlong one. -/
theorem run_anyForm_iff : (anyForm e).run bs = .ok (n,rest) ↔
    (n < 2^64 ∧ bs = encode n ++ rest) ∨ ∃ s, Overlong s n ∧ bs = s ++ rest := by
  constructor
  · intro h
    cases bs with
    | nil =>
      have hnil : (anyForm e).run [] = .error e := run_bind_error (run_bind_error (run_takeN_short (by simp)))
      rw [hnil] at h
      cases h
    | cons b bs =>
      rw [run_anyForm_cons] at h
      by_cases h8 : b.toNat = 0xFF
      · obtain rfl : b = 0xFF := UInt8.toNat_inj.mp h8
        rw [if_pos h8, run_number_iff] at h
        obtain ⟨hlt,rfl⟩ := h
        by_cases hn : n < 2^32
        · exact .inr ⟨_,.eight hn,rfl⟩
        · refine .inl ⟨by omega,?_⟩
          rw [encode, if_neg (by omega), if_neg (by omega), if_neg hn]
          rfl
      · rw [if_neg h8] at h
        by_cases h4 : b.toNat = 0xFE
        · obtain rfl : b = 0xFE := UInt8.toNat_inj.mp h4
          rw [if_pos h4, run_number_iff] at h
          obtain ⟨hlt,rfl⟩ := h
          by_cases hn : n < 2^16
          · exact .inr ⟨_,.four hn,rfl⟩
          · refine .inl ⟨by omega,?_⟩
            rw [encode, if_neg (by omega), if_neg hn, if_pos (by omega)]
            rfl
        · rw [if_neg h4] at h
          by_cases h2 : b.toNat = 0xFD
          · obtain rfl : b = 0xFD := UInt8.toNat_inj.mp h2
            rw [if_pos h2, run_number_iff] at h
            obtain ⟨hlt,rfl⟩ := h
            by_cases hn : n < 0xFD
            · exact .inr ⟨_,.two hn,rfl⟩
            · refine .inl ⟨by omega,?_⟩
              rw [encode, if_neg hn, if_pos (by omega)]
              rfl
          · have hb := b.toNat_lt
            rw [if_neg h2] at h
            cases h
            refine .inl ⟨by omega,?_⟩
            rw [encode, if_pos (by omega)]
            simp [toLE]
  · intro h
    rcases h with ⟨hlt,rfl⟩ | ⟨s,hs,rfl⟩
    · rw [encode]
      split_ifs with h1 h2 h3
      · have hbyte : (n%256).toUInt8.toNat = n := by
          rw [Nat.toUInt8_eq, UInt8.toNat_ofNat']
          omega
        rw [show toLE 1 n = [(n%256).toUInt8] from rfl, List.singleton_append, run_anyForm_cons, hbyte,
          if_neg (by omega), if_neg (by omega), if_neg (by omega)]
        rfl
      · exact (run_anyForm_cons _ _).trans (Reads.number (by omega) _)
      · exact (run_anyForm_cons _ _).trans (Reads.number (by omega) _)
      · exact (run_anyForm_cons _ _).trans (Reads.number (by omega) _)
    · cases hs with
      | two h => exact (run_anyForm_cons _ _).trans (Reads.number (by omega) _)
      | four h => exact (run_anyForm_cons _ _).trans (Reads.number (by omega) _)
      | eight h => exact (run_anyForm_cons _ _).trans (Reads.number (by omega) _)

theorem Reads.anyForm (h : n < 2^64) : (anyForm e).Reads (encode n) n :=
  fun _ => run_anyForm_iff.mpr (.inl ⟨h,rfl⟩)

/-- A number in its shortest form only. -/
def shortest (e e' : ε) : Parser UInt8 ε Nat := fun bs =>
  match (anyForm e).run bs with
  | .ok (n,rest) => if (encode n).length+rest.length = bs.length then .ok (n,rest) else .error e'
  | .error e => .error e

theorem run_shortest_iff {e' : ε} : (shortest e e').run bs = .ok (n,rest) ↔
    n < 2^64 ∧ bs = encode n ++ rest := by
  show shortest e e' bs = _ ↔ _
  rw [shortest]
  constructor
  · intro h
    cases hrun : (anyForm e).run bs with
    | error e'' =>
      rw [hrun] at h
      cases h
    | ok r =>
      obtain ⟨m,tail⟩ := r
      rw [hrun] at h
      dsimp only at h
      by_cases hlen : (encode m).length+tail.length = bs.length
      · rw [if_pos hlen] at h
        cases h
        rcases run_anyForm_iff.mp hrun with hcanon | ⟨s,hs,rfl⟩
        · exact hcanon
        · have hlt := hs.length_lt
          rw [List.length_append] at hlen
          omega
      · rw [if_neg hlen] at h
        cases h
  · intro h
    rw [run_anyForm_iff.mpr (.inl h)]
    dsimp only
    rw [if_pos]
    rw [h.2, List.length_append]

/-- No shortest form begins another. -/
theorem encode_append_inj {m : Nat} {s t : Bytes} (hn : n < 2^64) (hm : m < 2^64)
    (h : encode n ++ s = encode m ++ t) : n = m ∧ s = t := by
  have hs := Reads.anyForm (e := ()) hn s
  have ht := Reads.anyForm (e := ()) hm t
  rw [h, ht] at hs
  have hpair := Except.ok.inj hs
  exact ⟨(congrArg Prod.fst hpair).symm,(congrArg Prod.snd hpair).symm⟩

end CompactSize
