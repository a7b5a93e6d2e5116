import Metashrew.Lib.Bytes

namespace Bytes

/-- The number that the bytes spell, the most significant byte first. -/
def ofBE : Bytes → Nat
  | [] => 0
  | b::bs => b.toNat*256^bs.length+ofBE bs

@[simp] theorem ofBE_nil : ofBE [] = 0 := rfl

theorem ofBE_cons (b : UInt8) (bs : Bytes) :
    ofBE (b::bs) = b.toNat*256^bs.length+ofBE bs := rfl

theorem ofBE_lt (bs : Bytes) : ofBE bs < 256^bs.length := by
  induction bs with
  | nil => simp
  | cons b bs ih =>
    have hb := b.toNat_lt
    rw [ofBE_cons, List.length_cons, pow_succ]
    nlinarith

theorem ofBE_append (xs ys : Bytes) :
    ofBE (xs ++ ys) = ofBE xs*256^ys.length+ofBE ys := by
  induction xs with
  | nil => simp
  | cons b bs ih =>
    rw [List.cons_append, ofBE_cons, ofBE_cons, ih, List.length_append, pow_add]
    ring

@[simp] theorem ofBE_zeros (n : Nat) : ofBE (List.replicate n 0) = 0 := by
  induction n with
  | zero => rfl
  | succ n ih => simp [List.replicate_succ, ofBE_cons, ih]

/-- Numbers of one length are ordered as their bytes are. -/
theorem ofBE_lt_ofBE {xs ys : Bytes} (h : xs.length = ys.length) : ofBE xs < ofBE ys ↔ xs < ys := by
  induction xs generalizing ys with
  | nil =>
    cases ys with
    | nil => simp
    | cons y ys => simp at h
  | cons x xs ih =>
    cases ys with
    | nil => simp at h
    | cons y ys =>
      have hl : xs.length = ys.length := by simpa using h
      have hx := ofBE_lt xs
      have hy := ofBE_lt ys
      rw [hl] at hx
      rw [List.cons_lt_cons_iff, ← ih hl, UInt8.lt_iff_toNat_lt, ← UInt8.toNat_inj, ofBE_cons,
        ofBE_cons, hl]
      generalize 256^ys.length = p at hx hy
      constructor
      · intro hlt
        rcases Nat.lt_trichotomy x.toNat y.toNat with hd | hd | hd
        · exact .inl hd
        · rw [hd] at hlt
          exact .inr ⟨hd,by omega⟩
        · -- a larger first byte outweighs the rest
          have hm : (y.toNat+1)*p ≤ x.toNat*p := Nat.mul_le_mul_right p hd
          rw [Nat.add_mul] at hm
          omega
      · intro hc
        rcases hc with hd | ⟨hd,hlt⟩
        · have hm : (x.toNat+1)*p ≤ y.toNat*p := Nat.mul_le_mul_right p hd
          rw [Nat.add_mul] at hm
          omega
        · rw [hd]
          omega

theorem ofBE_le_ofBE {xs ys : Bytes} (h : xs.length = ys.length) : ofBE xs ≤ ofBE ys ↔ xs ≤ ys := by
  rw [← Nat.not_lt, ofBE_lt_ofBE h.symm, List.not_lt]

/-- Big-endian bytes of an unsigned 32-bit number. -/
def u32be (n : Nat) : Bytes :=
  [(n/16777216%256).toUInt8, (n/65536%256).toUInt8, (n/256%256).toUInt8, (n%256).toUInt8]

/-- Without their first byte they still spell a number of 24 bits. -/
theorem ofBE_tail_u32be {n : Nat} (hn : n < 2^24) : ofBE (u32be n).tail = n := by
  simp only [u32be, List.tail_cons, ofBE_cons, ofBE_nil, List.length_cons, List.length_nil,
    Nat.toUInt8_eq, UInt8.toNat_ofNat']
  omega

/-- The bytes with `xs` copied over them from `start` on. -/
def copyAt (bs : Bytes) (start : Nat) (xs : Bytes) : Bytes :=
  bs.take start ++ xs ++ bs.drop (start+xs.length)

theorem length_copyAt {bs xs : Bytes} {start : Nat} (h : start+xs.length ≤ bs.length) :
    (copyAt bs start xs).length = bs.length := by
  simp only [copyAt, List.length_append, List.length_take, List.length_drop]
  omega

theorem take_drop_copyAt {bs xs : Bytes} {start : Nat} (h : start ≤ bs.length) :
    ((copyAt bs start xs).drop start).take xs.length = xs := by
  have hl : (bs.take start).length = start := by
    rw [List.length_take]
    omega
  rw [copyAt, List.append_assoc, List.drop_left' hl, List.take_left]

/-- Bytes copied into zeros are shifted by the zeros that stay below them. -/
theorem ofBE_copyAt_zeros (n start : Nat) (xs : Bytes) :
    ofBE (copyAt (List.replicate n 0) start xs) = ofBE xs*256^(n-(start+xs.length)) := by
  rw [copyAt, List.take_replicate, List.drop_replicate, ofBE_append, ofBE_append, ofBE_zeros,
    ofBE_zeros, List.length_replicate]
  simp

/-- The little-endian bytes of a number, `w` of them. -/
def toLE : Nat → Nat → Bytes
  | 0, _ => []
  | w+1, n => (n%256).toUInt8 :: toLE w (n/256)

/-- The number that the bytes spell, the least significant byte first. -/
def ofLE : Bytes → Nat
  | [] => 0
  | b::bs => b.toNat+256*ofLE bs

@[simp] theorem length_toLE (w n : Nat) : (toLE w n).length = w := by
  induction w generalizing n with
  | zero => rfl
  | succ w ih => rw [toLE, List.length_cons, ih]

theorem ofLE_toLE {w n : Nat} (h : n < 256^w) : ofLE (toLE w n) = n := by
  induction w generalizing n with
  | zero =>
    rw [pow_zero] at h
    rw [toLE, ofLE]
    omega
  | succ w ih =>
    rw [pow_succ] at h
    have hn : n/256 < 256^w := by omega
    rw [toLE, ofLE, ih hn, Nat.toUInt8_eq, UInt8.toNat_ofNat']
    omega

theorem ofLE_lt (bs : Bytes) : ofLE bs < 256^bs.length := by
  induction bs with
  | nil => decide
  | cons b bs ih =>
    have hb := b.toNat_lt
    rw [ofLE, List.length_cons, pow_succ]
    omega

theorem toLE_ofLE (bs : Bytes) : toLE bs.length (ofLE bs) = bs := by
  induction bs with
  | nil => rfl
  | cons b bs ih =>
    have hb := b.toNat_lt
    have hhigh : (b.toNat+256*ofLE bs)/256 = ofLE bs := by omega
    have hlow : ((b.toNat+256*ofLE bs)%256).toUInt8 = b := by
      rw [← UInt8.toNat_inj, Nat.toUInt8_eq, UInt8.toNat_ofNat']
      omega
    rw [ofLE, List.length_cons, toLE, hhigh, hlow, ih]

theorem u32le_eq_toLE (n : Nat) : u32le n = toLE 4 n := by
  simp only [u32le, toLE, Nat.div_div_eq_div_mul, Nat.reduceMul]

theorem toLE_ne_nil {w : Nat} (h : 0 < w) (n : Nat) : toLE w n ≠ [] := by
  apply List.ne_nil_of_length_pos
  rw [length_toLE]
  exact h

end Bytes
