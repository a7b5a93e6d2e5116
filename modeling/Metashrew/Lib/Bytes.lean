import Mathlib

/-- Strings and blobs are sequences of bytes; texts are kept in their UTF-8 encoding. -/
abbrev Bytes := List UInt8

namespace Bytes

instance lawfulBEq : LawfulBEq Bytes := inferInstance

def ascii (s : String) : Bytes := s.toList.map fun c => c.toNat.toUInt8

/-- Bytes of the character list of a digit expansion. -/
def ofChars (cs : List Char) : Bytes := cs.map fun c => c.toNat.toUInt8

/-- Decimal rendering without leading zeros. -/
def decimal (n : Nat) : Bytes := ofChars (Nat.toDigits 10 n)

def isDigit (b : UInt8) : Bool := 48 ≤ b.toNat && b.toNat ≤ 57

/-- Accumulates decimal digits; a non-digit or a value from 2^32 on is an error. -/
def parseDigits : Nat → Bytes → Option Nat
  | acc, [] => some acc
  | acc, b::bs =>
    if isDigit b then
      if acc*10+(b.toNat-48) < 2^32 then parseDigits (acc*10+(b.toNat-48)) bs else none
    else none

/-- Parser of an unsigned 32-bit decimal: an optional leading plus sign and at least one digit. -/
def parseU32 : Bytes → Option Nat
  | [] => none
  | b::bs => if b = 43 then (if bs = [] then none else parseDigits 0 bs) else parseDigits 0 (b::bs)

private theorem digit_code (c : Char) (h : c.isDigit) :
    48 ≤ c.toNat ∧ c.toNat ≤ 57 := by
  simp only [Char.isDigit, Bool.and_eq_true, decide_eq_true_eq, ge_iff_le] at h
  exact ⟨by simpa using UInt32.le_iff_toNat_le.mp h.1, by simpa using UInt32.le_iff_toNat_le.mp h.2⟩

theorem decimal_digit (n : Nat) : ∀ b ∈ decimal n, isDigit b := by
  intro b hb
  obtain ⟨c,hc,rfl⟩ := List.mem_map.mp hb
  obtain ⟨h1,h2⟩ := digit_code c (Nat.isDigit_of_mem_toDigits (by omega) (by omega) hc)
  have hm : c.toNat.toUInt8.toNat = c.toNat := by
    simp only [Nat.toUInt8_eq, UInt8.toNat_ofNat']
    omega
  simp [isDigit, hm, h1, h2]

theorem decimal_ne_nil (n : Nat) : decimal n ≠ [] := by
  simp [decimal, ofChars, Nat.toDigits_ne_nil]

/-- A byte that is no digit does not occur in a decimal rendering. -/
theorem not_mem_decimal {b : UInt8} (hb : isDigit b = false) (n : Nat) : b ∉ decimal n := by
  intro h
  simp [decimal_digit n b h] at hb

private theorem ofDigitChars_ge (cs : List Char) (acc : Nat) :
    acc ≤ Nat.ofDigitChars 10 cs acc := by
  induction cs generalizing acc with
  | nil => simp
  | cons c cs ih =>
    rw [Nat.ofDigitChars_cons]
    exact le_trans (by omega) (ih _)

private theorem parseDigits_ofChars (cs : List Char) (acc : Nat) (hd : ∀ c ∈ cs, c.isDigit)
    (hlt : Nat.ofDigitChars 10 cs acc < 2^32) :
    parseDigits acc (ofChars cs) = some (Nat.ofDigitChars 10 cs acc) := by
  induction cs generalizing acc with
  | nil => rfl
  | cons c cs ih =>
    obtain ⟨h1,h2⟩ := digit_code c (hd c (by simp))
    have hm : c.toNat.toUInt8.toNat = c.toNat := by
      simp only [Nat.toUInt8_eq, UInt8.toNat_ofNat']
      omega
    have hz : '0'.toNat = 48 := rfl
    rw [Nat.ofDigitChars_cons] at hlt ⊢
    have hv : 10*acc+(c.toNat - '0'.toNat) = acc*10+(c.toNat-48) := by omega
    rw [hv] at hlt ⊢
    have hle := ofDigitChars_ge cs (acc*10+(c.toNat-48))
    have hrec := ih (acc*10+(c.toNat-48)) (fun d hdm => hd d (by simp [hdm])) hlt
    have hlt' : acc*10+(c.toNat-48) < 2^32 := by omega
    simp only [ofChars, List.map_cons, parseDigits, isDigit, hm]
    simp only [h1, h2, decide_true, Bool.and_true, if_true, hlt']
    exact hrec

theorem parseU32_decimal {n : Nat} (hn : n < 2^32) : parseU32 (decimal n) = some n := by
  have hd : ∀ c ∈ Nat.toDigits 10 n, c.isDigit := fun c hc =>
    Nat.isDigit_of_mem_toDigits (by omega) (by omega) hc
  have hp := parseDigits_ofChars (Nat.toDigits 10 n) 0 hd (by rwa [Nat.ofDigitChars_ten_toDigits])
  rw [Nat.ofDigitChars_ten_toDigits] at hp
  change parseDigits 0 (decimal n) = some n at hp
  cases h : decimal n with
  | nil => exact absurd h (decimal_ne_nil n)
  | cons b bs =>
    have hb : b ≠ 43 := by
      intro e
      exact not_mem_decimal (b := 43) (by decide) n (by simp [h, e])
    rw [h] at hp
    simpa [parseU32, hb] using hp

private theorem parseDigits_eq_none {b : UInt8} (hb : isDigit b = false) {bs : Bytes} (h : b ∈ bs)
    (acc : Nat) : parseDigits acc bs = none := by
  induction bs generalizing acc with
  | nil => cases h
  | cons c cs ih =>
    rw [parseDigits]
    rcases List.mem_cons.mp h with rfl | h
    · rw [if_neg (by simp [hb])]
    · split_ifs
      · exact ih h _
      · rfl
      · rfl

/-- A foreign byte anywhere makes the parse fail. -/
theorem parseU32_eq_none {b : UInt8} (hb : isDigit b = false) (hplus : b ≠ 43) {bs : Bytes}
    (h : b ∈ bs) : parseU32 bs = none := by
  cases bs with
  | nil => rfl
  | cons c cs =>
    rw [parseU32]
    split_ifs with h43 hnil
    · rfl
    · refine parseDigits_eq_none hb ?_ 0
      rcases List.mem_cons.mp h with rfl | h
      · exact absurd h43 hplus
      · exact h
    · exact parseDigits_eq_none hb h 0

theorem decimal_injective {m n : Nat} (h : decimal m = decimal n) : m = n := by
  have hm : ∀ k, ((decimal k).map fun b => Char.ofNat b.toNat) = Nat.toDigits 10 k := by
    intro k
    rw [decimal, ofChars, List.map_map]
    conv_rhs => rw [← List.map_id (Nat.toDigits 10 k)]
    apply List.map_congr_left
    intro c hc
    obtain ⟨h1,h2⟩ := digit_code c (Nat.isDigit_of_mem_toDigits (by omega) (by omega) hc)
    have hv : c.toNat.toUInt8.toNat = c.toNat := by
      simp only [Nat.toUInt8_eq, UInt8.toNat_ofNat']
      omega
    simp [hv]
  have hc : Nat.toDigits 10 m = Nat.toDigits 10 n := by rw [← hm m, ← hm n, h]
  rw [← Nat.ofDigitChars_ten_toDigits (n := m), ← Nat.ofDigitChars_ten_toDigits (n := n), hc]

/-- Position-free form of `find`: the text before and after the first occurrence of `b`. -/
def splitAtByte (b : UInt8) : Bytes → Option (Bytes × Bytes)
  | [] => none
  | c::cs => if c = b then some ([],cs) else (splitAtByte b cs).map fun p => (c::p.1,p.2)

theorem splitAtByte_append {b : UInt8} {x : Bytes} (hx : b ∉ x) (y : Bytes) :
    splitAtByte b (x ++ b::y) = some (x,y) := by
  induction x with
  | nil => simp [splitAtByte]
  | cons c cs ih =>
    simp only [List.mem_cons, not_or] at hx
    simp [splitAtByte, Ne.symm hx.1, ih hx.2]

def hexDigit (n : Nat) : UInt8 := if n < 10 then (48+n).toUInt8 else (87+n).toUInt8

/-- Value of a hexadecimal digit of either case. -/
def hexVal (b : UInt8) : Option Nat :=
  if 48 ≤ b.toNat ∧ b.toNat ≤ 57 then some (b.toNat-48)
  else if 97 ≤ b.toNat ∧ b.toNat ≤ 102 then some (b.toNat-87)
  else if 65 ≤ b.toNat ∧ b.toNat ≤ 70 then some (b.toNat-55)
  else none

def hexEncode : Bytes → Bytes
  | [] => []
  | b::bs => hexDigit (b.toNat/16) :: hexDigit (b.toNat%16) :: hexEncode bs

/-- Decoder for both digit cases; an odd length or a foreign character is an error. -/
def hexDecode : Bytes → Option Bytes
  | [] => some []
  | [_] => none
  | a::b::rest => do
    let x ← hexVal a
    let y ← hexVal b
    let t ← hexDecode rest
    return (16*x+y).toUInt8 :: t

theorem hexVal_hexDigit {n : Nat} (h : n < 16) : hexVal (hexDigit n) = some n := by
  interval_cases n <;> rfl

@[simp] theorem hexDecode_hexEncode (bs : Bytes) : hexDecode (hexEncode bs) = some bs := by
  induction bs with
  | nil => rfl
  | cons b bs ih =>
    have hb := b.toNat_lt
    have hh := hexVal_hexDigit (n := b.toNat/16) (by omega)
    have hl := hexVal_hexDigit (n := b.toNat%16) (by omega)
    have hn : 16*(b.toNat/16)+b.toNat%16 = b.toNat := by omega
    have he : (16*(b.toNat/16)+b.toNat%16).toUInt8 = b := by rw [hn]; simp
    simp only [hexEncode, hexDecode, hh, hl, ih, Option.bind_eq_bind, Option.bind_some, he]
    rfl

/-- Little-endian bytes of an unsigned 32-bit number. -/
def u32le (n : Nat) : Bytes :=
  [(n%256).toUInt8, (n/256%256).toUInt8, (n/65536%256).toUInt8, (n/16777216%256).toUInt8]

/-- The first four bytes read as an unsigned 32-bit number; `none` on a shorter input. -/
def readU32le : Bytes → Option Nat
  | a::b::c::d::_ => some (a.toNat+256*b.toNat+65536*c.toNat+16777216*d.toNat)
  | _ => none

@[simp] theorem u32le_length (n : Nat) : (u32le n).length = 4 := rfl

theorem readU32le_append {n : Nat} (hn : n < 2^32) (rest : Bytes) :
    readU32le (u32le n ++ rest) = some n := by
  simp only [u32le, List.cons_append, List.nil_append, readU32le, Nat.toUInt8_eq, UInt8.toNat_ofNat',
    Option.some.injEq]
  omega

theorem readU32le_u32le {n : Nat} (hn : n < 2^32) : readU32le (u32le n) = some n := by
  simpa using readU32le_append hn []

theorem readU32le_lt {bs : Bytes} {n : Nat} (h : readU32le bs = some n) : n < 2^32 := by
  match bs with
  | a::b::c::d::_ =>
    have ha := a.toNat_lt
    have hb := b.toNat_lt
    have hc := c.toNat_lt
    have hd := d.toNat_lt
    cases h
    omega

theorem readU32le_eq_none_iff {data : Bytes} : readU32le data = none ↔ data.length < 4 := by
  match data with
  | [] => simp [readU32le]
  | [_] => simp [readU32le]
  | [_,_] => simp [readU32le]
  | [_,_,_] => simp [readU32le]
  | _::_::_::_::_ => simp [readU32le]

/-- Four bytes are the little-endian bytes of a number. -/
theorem exists_u32le {bs : Bytes} (h : bs.length = 4) : ∃ n, n < 2^32 ∧ bs = u32le n := by
  obtain ⟨a,b,c,d,rfl⟩ := List.length_eq_four.mp h
  have ha := a.toNat_lt
  have hb := b.toNat_lt
  have hc := c.toNat_lt
  have hd := d.toNat_lt
  refine ⟨a.toNat+256*b.toNat+65536*c.toNat+16777216*d.toNat,by omega,?_⟩
  simp only [u32le, Nat.toUInt8_eq, List.cons.injEq, ← UInt8.toNat_inj, UInt8.toNat_ofNat', and_true]
  refine ⟨?_,?_,?_,?_⟩ <;> omega

end Bytes
