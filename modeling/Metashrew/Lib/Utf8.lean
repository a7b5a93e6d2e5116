import Metashrew.Lib.Bytes

namespace Bytes

/-- The UTF-8 bytes of characters. -/
def utf8 (cs : List Char) : Bytes := cs.flatMap String.utf8EncodeChar

def asBytes (s : String) : Bytes := utf8 s.toList

def isContinuation (b : UInt8) : Bool := 0x80 ≤ b && b ≤ 0xbf

/-- Whether the second byte may follow the first one in a sequence of three or four bytes. -/
def isSecond (first second : UInt8) : Bool :=
  if first == 0xe0 then 0xa0 ≤ second && second ≤ 0xbf
  else if first == 0xed then 0x80 ≤ second && second ≤ 0x9f
  else if first == 0xf0 then 0x90 ≤ second && second ≤ 0xbf
  else if first == 0xf4 then 0x80 ≤ second && second ≤ 0x8f
  else 0xe1 ≤ first && first ≤ 0xf3 && isContinuation second

/-- How many bytes one replacement character stands for, where no character starts: the longest
beginning of one, at least a byte. -/
def invalidLength : Bytes → Nat
  | a::b::rest =>
    if isSecond a b then
      match rest with
      | c::_ => if 0xf0 ≤ a && isContinuation c then 3 else 2
      | [] => 2
    else 1
  | _ => 1

def charsLossy : Nat → Bytes → List Char
  | 0, _ => []
  | _, [] => []
  | fuel+1, bs =>
    match bs.toByteArray.utf8DecodeChar? 0 with
    | some c => c::charsLossy fuel (bs.drop (String.utf8EncodeChar c).length)
    | none => Char.ofNat 0xfffd::charsLossy fuel (bs.drop (invalidLength bs))

/-- The text that the bytes spell, with a replacement character for what is not UTF-8. -/
def fromUtf8Lossy (bs : Bytes) : String := String.ofList (charsLossy bs.length bs)

theorem charsLossy_utf8 {cs : List Char} {fuel : Nat} (h : (utf8 cs).length ≤ fuel) :
    charsLossy fuel (utf8 cs) = cs := by
  induction cs generalizing fuel with
  | nil => cases fuel <;> rfl
  | cons c cs ih =>
    have hc : 0 < (String.utf8EncodeChar c).length := by
      rw [String.length_utf8EncodeChar]
      exact c.utf8Size_pos
    have hcons : utf8 (c::cs) = String.utf8EncodeChar c ++ utf8 cs := rfl
    rw [hcons, List.length_append] at h
    obtain ⟨n,rfl⟩ : ∃ n, fuel = n+1 := ⟨fuel-1,by omega⟩
    have hdecode : (utf8 (c::cs)).toByteArray.utf8DecodeChar? 0 = some c := by
      rw [hcons, List.toByteArray_append]
      exact ByteArray.utf8DecodeChar?_utf8EncodeChar_append
    have hne : 0 < (utf8 (c::cs)).length := by
      rw [hcons, List.length_append]
      omega
    obtain ⟨b,bs,he⟩ := List.exists_cons_of_length_pos hne
    rw [he] at hdecode ⊢
    rw [charsLossy, hdecode, ← he, hcons]
    · dsimp only
      rw [List.drop_left, ih (by omega)]
    · exact List.cons_ne_nil b bs

/-- The text that the bytes spell, if they are UTF-8: then nothing is replaced. -/
def fromUtf8 (bs : Bytes) : Option String :=
  if asBytes (fromUtf8Lossy bs) = bs then some (fromUtf8Lossy bs) else none

/-- Text survives its bytes. -/
theorem fromUtf8Lossy_asBytes (s : String) : fromUtf8Lossy (asBytes s) = s := by
  rw [fromUtf8Lossy, asBytes, charsLossy_utf8 le_rfl, String.ofList_toList]

theorem fromUtf8_asBytes (s : String) : fromUtf8 (asBytes s) = some s := by
  rw [fromUtf8, fromUtf8Lossy_asBytes, if_pos rfl]

theorem asBytes_append (s t : String) : asBytes (s ++ t) = asBytes s ++ asBytes t := by
  simp [asBytes, utf8]

example : fromUtf8Lossy [0x61,0xff,0xe2,0x82,0x62] = "a\uFFFD\uFFFDb" := by decide +kernel

end Bytes
