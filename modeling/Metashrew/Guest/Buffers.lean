import Metashrew.Lib.Bytes
import Metashrew.Lib.Slices

namespace Metashrew

open Slices

/-- The host's reader of a length-prefixed buffer: the length stands in the four bytes before the
pointer. `none` is an access out of bounds. -/
def tryReadArraybufferAsVec (data : Bytes) (dataStart : Int) : Option (Except String Bytes) :=
  if dataStart < 4 ∨ data.length < dataStart.toNat then
    some (.error "memory error: invalid data_start")
  else
    match slice data (dataStart.toNat-4) (dataStart.toNat-4+4) with
    | none => none
    | some prefixBytes =>
      match Bytes.readU32le prefixBytes with
      | none => none
      | some len =>
        if data.length < dataStart.toNat+len then
          some (.error "memory error: data extends beyond memory bounds")
        else (slice data dataStart.toNat (dataStart.toNat+len)).map .ok

/-- `as i32`. -/
def asI32 (n : Int) : Int := (n+2147483648)%4294967296-2147483648

def toPtr (address : Nat) : Int := asI32 address

def toArraybufferLayout (v : Bytes) : Bytes := Bytes.u32le v.length ++ v

inductive GuestLibrary where
  | core
  | support

namespace GuestLibrary

/-- The buffer that a library fills at `address`, and the pointer that it hands to the host. -/
def exportBytes : GuestLibrary → Nat → Bytes → Bytes × Int
  | core, address, bytes => (Bytes.u32le bytes.length ++ bytes,toPtr address)
  | support, address, v => (toArraybufferLayout v,asI32 (toPtr address+4))

/-- What stands in the buffer's place when the host reads. The core library frees its `Vec` as it
returns, and the allocator leaves `freed` there; the support library leaks its buffer. -/
def remains (library : GuestLibrary) (freed buffer : Bytes) : Bytes :=
  match library with
  | core => freed
  | support => buffer

/-- The linear memory when the host reads, `pre` below the buffer and `post` above it. -/
def memory (library : GuestLibrary) (freed pre v post : Bytes) : Bytes :=
  pre ++ library.remains freed (library.exportBytes pre.length v).1 ++ post

/-- The pointer that the host gets for it. -/
def pointer (library : GuestLibrary) (pre v : Bytes) : Int := (library.exportBytes pre.length v).2

end GuestLibrary

theorem asI32_nat {n : Nat} (hn : n < 4294967296) :
    asI32 n = if n < 2147483648 then (n:Int) else n-4294967296 := by
  unfold asI32
  split <;> omega

/-- Past the check of the pointer there is a length before it. -/
theorem exists_prefix (data : Bytes) {n : Nat} (h4 : 4 ≤ n) (hn : n ≤ data.length) :
    ∃ len, len < 2^32 ∧ slice data (n-4) (n-4+4) = some (Bytes.u32le len) := by
  have hs := slice_of_le data (show n-4 ≤ n-4+4 by omega) (by omega)
  have hl : ((data.drop (n-4)).take (n-4+4-(n-4))).length = 4 := by
    rw [List.length_take, List.length_drop]
    omega
  obtain ⟨len,hlen,he⟩ := Bytes.exists_u32le hl
  exact ⟨len,hlen,by rw [hs, he]⟩

theorem try_read_invalid {data : Bytes} {dataStart : Int}
    (h : dataStart < 4 ∨ data.length < dataStart.toNat) :
    tryReadArraybufferAsVec data dataStart = some (.error "memory error: invalid data_start") := if_pos h

theorem try_read_eq {data : Bytes} {n len : Nat} (h4 : 4 ≤ n) (hn : n ≤ data.length) (hl : len < 2^32)
    (hs : slice data (n-4) (n-4+4) = some (Bytes.u32le len)) :
    tryReadArraybufferAsVec data n =
      if data.length < n+len then some (.error "memory error: data extends beyond memory bounds")
      else (slice data n (n+len)).map .ok := by
  have hc : ¬((n:Int) < 4 ∨ data.length < (n:Int).toNat) := by omega
  rw [tryReadArraybufferAsVec, if_neg hc]
  simp only [Int.toNat_natCast, hs, Bytes.readU32le_u32le hl]

/-- What is read stands behind its own length. -/
theorem exists_frame_of_read {data v : Bytes} {dataStart : Int}
    (h : tryReadArraybufferAsVec data dataStart = some (.ok v)) :
    ∃ pre post, data = pre ++ (Bytes.u32le v.length ++ v) ++ post ∧ dataStart = pre.length+4 := by
  by_cases hc : dataStart < 4 ∨ data.length < dataStart.toNat
  · rw [try_read_invalid hc] at h
    cases h
  · obtain ⟨n,rfl⟩ := Int.eq_ofNat_of_zero_le (show 0 ≤ dataStart by omega)
    obtain ⟨len,hlen,hs⟩ := exists_prefix data (show 4 ≤ n by omega) (by omega)
    rw [try_read_eq (by omega) (by omega) hlen hs] at h
    by_cases hb : data.length < n+len
    · rw [if_pos hb] at h
      cases h
    · rw [if_neg hb, Option.map_eq_some_iff] at h
      obtain ⟨w,hw,he⟩ := h
      cases he
      obtain ⟨below,post,hd,hn,hstop⟩ := slice_eq_some_iff.mp hw
      obtain ⟨pre,rest,hd',hn',_⟩ := slice_eq_some_iff.mp hs
      have hvl : len = v.length := by omega
      have hp : (pre ++ Bytes.u32le len).length = n := by
        rw [List.length_append, Bytes.u32le_length]
        omega
      -- both are what stands before the pointer
      have hbelow : pre ++ Bytes.u32le len = below := by
        calc
          pre ++ Bytes.u32le len = data.take n := by rw [hd', List.take_left' hp]
          _ = below := by rw [hd, List.append_assoc, List.take_left' hn.symm]
      refine ⟨pre,post,?_,by omega⟩
      rw [hd, ← hbelow, hvl]
      simp only [List.append_assoc]

/-- The reader takes exactly what stands behind its own length. -/
theorem try_read_ok_iff {data v : Bytes} {dataStart : Int} (hv : v.length < 2^32) :
    tryReadArraybufferAsVec data dataStart = some (.ok v) ↔
      ∃ pre post, data = pre ++ (Bytes.u32le v.length ++ v) ++ post ∧ dataStart = pre.length+4 := by
  constructor
  · exact exists_frame_of_read
  · intro h
    obtain ⟨pre,post,rfl,rfl⟩ := h
    have hl : (pre ++ (Bytes.u32le v.length ++ v) ++ post).length =
        pre.length+4+v.length+post.length := by
      simp only [List.length_append, Bytes.u32le_length]
      omega
    have hs : slice (pre ++ (Bytes.u32le v.length ++ v) ++ post) (pre.length+4-4) (pre.length+4-4+4) =
        some (Bytes.u32le v.length) :=
      slice_eq_some_iff.mpr ⟨pre,v ++ post,by simp only [List.append_assoc],by omega,by simp⟩
    have hw : slice (pre ++ (Bytes.u32le v.length ++ v) ++ post) (pre.length+4) (pre.length+4+v.length) =
        some v :=
      slice_eq_some_iff.mpr ⟨pre ++ Bytes.u32le v.length,post,by simp only [List.append_assoc],by simp,rfl⟩
    have he := try_read_eq (by omega) (by omega) hv hs
    rw [if_neg (by omega), hw] at he
    exact he

/-- Every pointer is answered by a slice of the memory or by an error. -/
theorem try_read_in_bounds (data : Bytes) (dataStart : Int) :
    (∃ e, tryReadArraybufferAsVec data dataStart = some (.error e)) ∨
      ∃ v, tryReadArraybufferAsVec data dataStart = some (.ok v) ∧ v <:+: data := by
  by_cases hc : dataStart < 4 ∨ data.length < dataStart.toNat
  · exact .inl ⟨_,try_read_invalid hc⟩
  · obtain ⟨n,rfl⟩ := Int.eq_ofNat_of_zero_le (show 0 ≤ dataStart by omega)
    obtain ⟨len,hlen,hs⟩ := exists_prefix data (show 4 ≤ n by omega) (by omega)
    rw [try_read_eq (by omega) (by omega) hlen hs]
    by_cases hb : data.length < n+len
    · exact .inl ⟨_,if_pos hb⟩
    · have hw := slice_of_le data (show n ≤ n+len by omega) (by omega)
      obtain ⟨pre,post,hd,_⟩ := slice_eq_some_iff.mp hw
      refine .inr ⟨_,?_,pre,post,hd.symm⟩
      rw [if_neg hb, hw]
      rfl

namespace GuestLibrary

/-- What a library relies on. The support library's pointer past the prefix must be a positive
number; the core library's pointer to the prefix itself must have the length before it, and the
freed buffer must begin with the value. -/
def Reads (library : GuestLibrary) (freed pre v : Bytes) : Prop :=
  match library with
  | support => pre.length+4 < 2^31
  | core => pre.length < 2^31 ∧ Bytes.u32le v.length <:+ pre ∧ v <+: freed

end GuestLibrary

theorem support_reads_iff {freed pre v post : Bytes} (hv : v.length < 2^31) (ha : pre.length < 2^32) :
    tryReadArraybufferAsVec (GuestLibrary.support.memory freed pre v post)
        (GuestLibrary.support.pointer pre v) = some (.ok v) ↔
      GuestLibrary.support.Reads freed pre v := by
  have hp : GuestLibrary.support.pointer pre v = asI32 (toPtr pre.length+4) := rfl
  rw [try_read_ok_iff (by omega), hp, toPtr]
  constructor
  · intro h
    obtain ⟨before,_,_,he⟩ := h
    show pre.length+4 < 2^31
    unfold asI32 at he
    omega
  · intro h
    have hlt : pre.length+4 < 2^31 := h
    refine ⟨pre,post,rfl,?_⟩
    unfold asI32
    omega

theorem core_reads_iff {freed pre v post : Bytes} (hfreed : freed.length = v.length+4)
    (hv : v.length < 2^31) (ha : pre.length < 2^32) :
    tryReadArraybufferAsVec (GuestLibrary.core.memory freed pre v post)
        (GuestLibrary.core.pointer pre v) = some (.ok v) ↔
      GuestLibrary.core.Reads freed pre v := by
  have hp : GuestLibrary.core.pointer pre v = asI32 pre.length := rfl
  have hm : GuestLibrary.core.memory freed pre v post = pre ++ freed ++ post := rfl
  rw [try_read_ok_iff (by omega), hp, hm, asI32_nat (by omega)]
  constructor
  · intro h
    obtain ⟨before,after,hd,he⟩ := h
    have hlt : pre.length < 2147483648 := by
      split at he <;> omega
    rw [if_pos hlt] at he
    have hl : (before ++ Bytes.u32le v.length).length = pre.length := by
      rw [List.length_append, Bytes.u32le_length]
      omega
    have hd' : pre ++ (freed ++ post) = (before ++ Bytes.u32le v.length) ++ (v ++ after) := by
      simpa only [List.append_assoc] using hd
    obtain ⟨hpre,hrest⟩ := List.append_inj hd' hl.symm
    refine ⟨hlt,⟨before,hpre.symm⟩,?_⟩
    exact List.prefix_of_prefix_length_le ⟨after,hrest.symm⟩ (List.prefix_append _ _) (by omega)
  · intro h
    obtain ⟨hlt,⟨before,hpre⟩,rest,hrest⟩ := h
    have hl : pre.length = before.length+4 := by
      rw [← hpre, List.length_append, Bytes.u32le_length]
    refine ⟨before,rest ++ post,?_,?_⟩
    · rw [← hpre, ← hrest]
      simp only [List.append_assoc]
    · rw [if_pos (by omega)]
      omega

/-- A freed buffer that nothing has written to holds the length first, so the value must read as its own
length over and over. -/
theorem GuestLibrary.core_reads_untouched_iff {pre v : Bytes} :
    core.Reads (core.exportBytes pre.length v).1 pre v ↔
      pre.length < 2^31 ∧ Bytes.u32le v.length <:+ pre ∧
        ∀ i < v.length, v[i]? = (Bytes.u32le v.length)[i%4]? := by
  have hrep : v <+: Bytes.u32le v.length ++ v ↔
      ∀ i < v.length, v[i]? = (Bytes.u32le v.length)[i%4]? := prefix_append_self_iff (by simp)
  rw [← hrep]
  rfl

/-- One byte with its own length before the buffer is read back from the untouched buffer, and not once
the allocator has written a link of its free list over it. -/
example : tryReadArraybufferAsVec (GuestLibrary.core.memory [1,0,0,0,1] [1,0,0,0] [1] [])
      (GuestLibrary.core.pointer [1,0,0,0] [1]) = some (.ok [1]) ∧
    tryReadArraybufferAsVec (GuestLibrary.core.memory [64,2,0,0,1] [1,0,0,0] [1] [])
      (GuestLibrary.core.pointer [1,0,0,0] [1]) = some (.ok [64]) := by decide +kernel

/-- Which exports the host reads back, whatever the allocator leaves in a freed buffer, and that it never
reads outside the memory. -/
theorem export_read_iff (library : GuestLibrary) (freed pre v post : Bytes)
    (hfreed : freed.length = v.length+4) (hv : v.length < 2^31) (ha : pre.length < 2^32) :
    (tryReadArraybufferAsVec (library.memory freed pre v post) (library.pointer pre v) = some (.ok v) ∧
      ∀ data dataStart, (∃ e, tryReadArraybufferAsVec data dataStart = some (.error e)) ∨
        ∃ bytes, tryReadArraybufferAsVec data dataStart = some (.ok bytes) ∧ bytes <:+: data) ↔
    library.Reads freed pre v := by
  rw [and_iff_left try_read_in_bounds]
  cases library with
  | core => exact core_reads_iff hfreed hv ha
  | support => exact support_reads_iff hv ha

/-- The support library at the bottom of the memory, and the core library where its own length stands
before the buffer and the allocator leaves the value at its front. -/
theorem export_read_both :
    tryReadArraybufferAsVec (GuestLibrary.support.memory [0,0,0,0,0,0] [] [7,8] [9])
        (GuestLibrary.support.pointer [] [7,8]) = some (.ok [7,8]) ∧
      tryReadArraybufferAsVec (GuestLibrary.core.memory [7,8,0,0,7,8] [3,2,0,0,0] [7,8] [9])
        (GuestLibrary.core.pointer [3,2,0,0,0] [7,8]) = some (.ok [7,8]) := by
  constructor
  · exact ((export_read_iff .support [0,0,0,0,0,0] [] [7,8] [9] (by decide) (by decide)
      (by decide)).mpr (show ([] : Bytes).length+4 < 2^31 by decide)).1
  · have hreads : GuestLibrary.core.Reads [7,8,0,0,7,8] [3,2,0,0,0] [7,8] :=
      ⟨by decide,⟨[3],rfl⟩,⟨[0,0,7,8],rfl⟩⟩
    exact ((export_read_iff .core [7,8,0,0,7,8] [3,2,0,0,0] [7,8] [9] (by decide) (by decide)
      (by decide)).mpr hreads).1

/-- From the core library the host reads zeros of its memory as the length, also when the freed buffer is
left as it was. -/
theorem export_read_core :
    ¬∀ library freed pre v post, freed.length = v.length+4 → v.length < 2^31 → pre.length < 2^32 →
      tryReadArraybufferAsVec (GuestLibrary.memory library freed pre v post) (library.pointer pre v) =
        some (.ok v) := by
  intro h
  have hv := h .core [2,0,0,0,7,8] [0,0,0,0] [7,8] [] (by decide) (by decide) (by decide)
  have he : tryReadArraybufferAsVec (GuestLibrary.core.memory [2,0,0,0,7,8] [0,0,0,0] [7,8] [])
      (GuestLibrary.core.pointer [0,0,0,0] [7,8]) = some (.ok []) := by decide +kernel
  rw [he] at hv
  cases hv

end Metashrew
