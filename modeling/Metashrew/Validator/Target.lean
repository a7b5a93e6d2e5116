import Metashrew.Lib.Numeral

namespace Metashrew.Validator

open Bytes

/-- The 32 bytes of the target that a compact number expands to. -/
def targetFromBits (bits : UInt32) : Option Bytes :=
  let exponent := (bits >>> 24).toNat
  let mantissa := bits &&& 0x007fffff
  if bits &&& 0x00800000 ≠ 0 then none  -- negative target
  else if mantissa = 0 then none
  else
    let target := List.replicate 32 0
    if exponent ≤ 3 then
      let shifted := mantissa >>> (8*(3-exponent)).toUInt32
      some (copyAt target 29 (u32be shifted.toNat).tail)
    else if exponent > 32 then none  -- overflows 256 bits
    else
      let start := 32-exponent
      if start+3 > 32 then none
      else some (copyAt target start (u32be mantissa.toNat).tail)

/-- Whether a hash in display order is at most the target, byte by byte. -/
def meetsTarget (hashDisplayOrder : Bytes) (bits : UInt32) : Bool :=
  match targetFromBits bits with
  | none => false
  | some target => hashDisplayOrder ≤ target

/-! The compact numbers of the consensus rules. -/

def compactSize (bits : Nat) : Nat := bits/2^24

def compactMantissa (bits : Nat) : Nat := bits%2^23

def compactSign (bits : Nat) : Nat := bits/2^23%2

/-- The bytes of the mantissa that are significant at this size. -/
def compactWord (bits : Nat) : Nat := compactMantissa bits/256^(3-compactSize bits)

def compactValue (bits : Nat) : Nat := compactWord bits*256^(compactSize bits-3)

def CompactNegative (bits : Nat) : Prop := compactWord bits ≠ 0 ∧ compactSign bits = 1

def CompactOverflows (bits : Nat) : Prop :=
  compactWord bits ≠ 0 ∧
    (34 < compactSize bits ∨ 0xff < compactWord bits ∧ 33 < compactSize bits ∨
      0xffff < compactWord bits ∧ 32 < compactSize bits)

instance (bits : Nat) : Decidable (CompactNegative bits) :=
  inferInstanceAs (Decidable (_ ∧ _))

instance (bits : Nat) : Decidable (CompactOverflows bits) :=
  inferInstanceAs (Decidable (_ ∧ _))

/-- The target by the consensus rules: not negative, not zero and within 256 bits. -/
def consensusTarget (bits : Nat) : Option Nat :=
  if CompactNegative bits ∨ compactValue bits = 0 ∨ CompactOverflows bits then none
  else some (compactValue bits)

theorem compactMantissa_lt (bits : Nat) : compactMantissa bits < 2^23 :=
  Nat.mod_lt _ (by decide)

theorem compactWord_of_size {bits : Nat} (h : 3 ≤ compactSize bits) :
    compactWord bits = compactMantissa bits := by
  rw [compactWord, Nat.sub_eq_zero_of_le h]
  simp

theorem compactValue_eq_zero {bits : Nat} : compactValue bits = 0 ↔ compactWord bits = 0 := by
  simp [compactValue]

/-- The test on the size and the significant bytes is the overflow of 256 bits. -/
theorem compactOverflows_iff (bits : Nat) : CompactOverflows bits ↔ 2^256 ≤ compactValue bits := by
  have hm := compactMantissa_lt bits
  have hw : compactWord bits ≤ compactMantissa bits := Nat.div_le_self _ _
  rw [CompactOverflows, compactValue]
  generalize compactWord bits = w at hw
  generalize compactSize bits = s
  rcases Nat.lt_or_ge s 33 with hs | hs
  · have hp : 256^(s-3) ≤ 256^29 := Nat.pow_le_pow_right (by decide) (by omega)
    have hv : w*256^(s-3) ≤ w*256^29 := Nat.mul_le_mul_left w hp
    omega
  · rcases Nat.lt_or_ge 34 s with hl | hl
    · have hp : 256^32 ≤ 256^(s-3) := Nat.pow_le_pow_right (by decide) (by omega)
      have hv : w*256^32 ≤ w*256^(s-3) := Nat.mul_le_mul_left w hp
      rcases Nat.eq_zero_or_pos w with hz | hz
      · simp [hz]
      · omega
    · interval_cases s <;> omega

section Fields

variable (bits : UInt32)

private theorem exponent_eq : (bits >>> 24).toNat = compactSize bits.toNat := by
  rw [UInt32.toNat_shiftRight, Nat.shiftRight_eq_div_pow]
  rfl

private theorem mantissa_eq : (bits &&& 0x007fffff).toNat = compactMantissa bits.toNat := by
  rw [UInt32.toNat_and]
  exact Nat.and_two_pow_sub_one_eq_mod bits.toNat 23

private theorem sign_ne_zero : bits &&& 0x00800000 ≠ 0 ↔ compactSign bits.toNat = 1 := by
  rw [← UInt32.toNat_inj.ne, UInt32.toNat_and]
  show bits.toNat &&& 2^23 ≠ 0 ↔ _
  rw [Nat.and_two_pow, compactSign, Nat.testBit_eq_decide_div_mod_eq]
  simp

private theorem shifted_eq (h : compactSize bits.toNat ≤ 3) :
    ((bits &&& 0x007fffff) >>> (8*(3-compactSize bits.toNat)).toUInt32).toNat =
      compactWord bits.toNat := by
  rw [UInt32.toNat_shiftRight, mantissa_eq, Nat.shiftRight_eq_div_pow, compactWord]
  interval_cases compactSize bits.toNat <;> rfl

end Fields

/-- The bytes that the decoder writes spell the value; it decodes a word that has been shifted out
and stops at 32 bytes of size. -/
theorem targetFromBits_eq (bits : UInt32) :
    (targetFromBits bits).map ofBE =
      if compactSign bits.toNat = 1 ∨ compactMantissa bits.toNat = 0 ∨ 32 < compactSize bits.toNat
      then none else some (compactValue bits.toNat) := by
  have hm := compactMantissa_lt bits.toNat
  have hw : compactWord bits.toNat ≤ compactMantissa bits.toNat := Nat.div_le_self _ _
  rw [targetFromBits]
  simp only [exponent_eq, sign_ne_zero, ← UInt32.toNat_inj (b := 0), mantissa_eq, UInt32.toNat_zero]
  by_cases hs : compactSign bits.toNat = 1
  · simp [hs]
  by_cases hz : compactMantissa bits.toNat = 0
  · simp [hz]
  by_cases hl : compactSize bits.toNat ≤ 3
  · have hn : ¬(compactSign bits.toNat = 1 ∨ compactMantissa bits.toNat = 0 ∨
        32 < compactSize bits.toNat) := by omega
    rw [if_neg hs, if_neg hz, if_pos hl, if_neg hn, shifted_eq bits hl, Option.map_some,
      ofBE_copyAt_zeros, ofBE_tail_u32be (by omega), compactValue, Nat.sub_eq_zero_of_le hl]
    rfl
  · by_cases hg : compactSize bits.toNat > 32
    · simp [hs, hz, hl, hg]
    · have hn : ¬(compactSign bits.toNat = 1 ∨ compactMantissa bits.toNat = 0 ∨
          32 < compactSize bits.toNat) := by omega
      have hp : 32-(32-compactSize bits.toNat+3) = compactSize bits.toNat-3 := by omega
      rw [if_neg hs, if_neg hz, if_neg hl, if_neg hg, if_neg (by omega), if_neg hn,
        Option.map_some, ofBE_copyAt_zeros, ofBE_tail_u32be (by omega), compactValue,
        compactWord_of_size (by omega)]
      show some (_*256^(32-(32-compactSize bits.toNat+3))) = _
      rw [hp]

theorem targetFromBits_length {bits : UInt32} {target : Bytes}
    (h : targetFromBits bits = some target) : target.length = 32 := by
  rw [targetFromBits] at h
  dsimp only at h
  split_ifs at h
  · cases h
    rw [length_copyAt (by simp [u32be]), List.length_replicate]
  · have hb : 32-(bits >>> 24).toNat+(u32be (bits &&& 0x007fffff).toNat).tail.length ≤
        (List.replicate 32 (0 : UInt8)).length := by
      simp only [u32be, List.tail_cons, List.length_cons, List.length_nil, List.length_replicate]
      omega
    cases h
    rw [length_copyAt hb, List.length_replicate]

/-- A target that is decoded is the value, and fits its 32 bytes. -/
theorem targetFromBits_value {bits : UInt32} {t : Nat}
    (h : (targetFromBits bits).map ofBE = some t) : t = compactValue bits.toNat ∧ t < 2^256 := by
  constructor
  · rw [targetFromBits_eq] at h
    split_ifs at h
    exact (Option.some.inj h).symm
  · obtain ⟨target,ht,rfl⟩ := Option.map_eq_some_iff.mp h
    have hlt := ofBE_lt target
    rw [targetFromBits_length ht] at hlt
    omega

/-- On 32 bytes the comparison of bytes is the comparison of numbers. -/
theorem meetsTarget_iff {hash : Bytes} (hl : hash.length = 32) (bits : UInt32) :
    meetsTarget hash bits = true ↔
      ∃ t, (targetFromBits bits).map ofBE = some t ∧ ofBE hash ≤ t := by
  rw [meetsTarget]
  cases ht : targetFromBits bits with
  | none => simp
  | some target =>
    have hle := ofBE_le_ofBE (hl.trans (targetFromBits_length ht).symm)
    simp [hle]

/-- The decoder and the comparison do on these bits what consensus does. -/
structure DecodesAsConsensus (bits : UInt32) : Prop where
  decodes : (targetFromBits bits).map ofBE = consensusTarget bits.toNat
  meets : ∀ hash : Bytes, hash.length = 32 →
    (meetsTarget hash bits = true ↔
      ∃ t, consensusTarget bits.toNat = some t ∧ ofBE hash ≤ t)

/-- The positive numbers whose mantissa is shifted out, and those of 33 and 34 bytes of size whose
leading bytes are zero. -/
def Misread (bits : Nat) : Prop :=
  compactSign bits = 0 ∧ compactMantissa bits ≠ 0 ∧
    (compactMantissa bits < 256^(3-compactSize bits) ∨
      compactSize bits = 33 ∧ compactMantissa bits ≤ 0xffff ∨
      compactSize bits = 34 ∧ compactMantissa bits ≤ 0xff)

theorem compactWord_eq_zero (bits : Nat) :
    compactWord bits = 0 ↔ compactMantissa bits < 256^(3-compactSize bits) := by
  rw [compactWord, Nat.div_eq_zero_iff]
  simp

/-- What the decoder rejects is what consensus rejects, but for the misread numbers. -/
theorem rejected_iff (bits : Nat) :
    ((compactSign bits = 1 ∨ compactMantissa bits = 0 ∨ 32 < compactSize bits) ↔
      (CompactNegative bits ∨ compactValue bits = 0 ∨ CompactOverflows bits)) ↔ ¬Misread bits := by
  have hw := compactWord_eq_zero bits
  have hp : 0 < 256^(3-compactSize bits) := by positivity
  have hsign : compactSign bits < 2 := Nat.mod_lt _ (by decide)
  rw [compactValue_eq_zero, CompactNegative, CompactOverflows, Misread, ← hw]
  rcases Nat.lt_or_ge (compactSize bits) 3 with hs | hs
  · -- the mantissa is shifted down: the size rejects nothing
    have hm : compactMantissa bits = 0 → compactWord bits = 0 := by
      intro hz
      rw [hw, hz]
      exact hp
    omega
  · have hm := compactWord_of_size hs
    rw [hm]
    omega

/-- Decoding is the one of consensus exactly on the numbers that are not misread. -/
theorem targetFromBits_iff (bits : UInt32) :
    (targetFromBits bits).map ofBE = consensusTarget bits.toNat ↔ ¬Misread bits.toNat := by
  rw [targetFromBits_eq, consensusTarget, ← rejected_iff]
  constructor
  · intro h
    split_ifs at h with hc hd <;> simp_all
  · intro h
    rw [if_congr h rfl rfl]

theorem compact_target_iff (bits : UInt32) : DecodesAsConsensus bits ↔ ¬Misread bits.toNat := by
  rw [← targetFromBits_iff]
  constructor
  · intro h
    exact h.decodes
  · intro h
    refine ⟨h,?_⟩
    intro hash hl
    rw [meetsTarget_iff hl, h]

/-- A mantissa that is shifted out gives a target of zero, which the hash zero meets. -/
theorem compact_target_shifted_out : ¬∀ bits : UInt32, DecodesAsConsensus bits := by
  intro h
  have hd := (h 0x01003456).decodes
  revert hd
  decide +kernel

end Metashrew.Validator
