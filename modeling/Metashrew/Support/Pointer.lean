import Metashrew.Guest.Memory
import Metashrew.Lib.Numeral

namespace Metashrew

open Bytes

/-- The integer types with a byte view; `usize` has four bytes or eight. -/
inductive IntType where
  | u8
  | u16
  | u32
  | u64
  | u128
  | usize (wide : Bool)

def IntType.width : IntType → Nat
  | .u8 => 1
  | .u16 => 2
  | .u32 => 4
  | .u64 => 8
  | .u128 => 16
  | .usize wide => if wide then 8 else 4

/-- The values of the type. -/
abbrev IntType.Value (T : IntType) := Fin (256^T.width)

theorem IntType.width_pos (T : IntType) : 0 < T.width := by
  cases T with
  | usize wide => cases wide <;> decide
  | _ => decide

def toBytes (T : IntType) (v : Nat) : Bytes := toLE T.width v

/-- Bytes of another length are a panic. -/
def fromBytes (T : IntType) (b : Bytes) : Option Nat :=
  if b.length = T.width then some (ofLE b) else none

/-- What pointers read at their keys: no bytes where nothing is stored. -/
abbrev PointerMemory := Bytes → Bytes

namespace PointerMemory

def set (m : PointerMemory) (key value : Bytes) : PointerMemory := Function.update m key value

def setValue (T : IntType) (m : PointerMemory) (key : Bytes) (v : Nat) : PointerMemory :=
  m.set key (toBytes T v)

def getValue (T : IntType) (m : PointerMemory) (key : Bytes) : Option Nat :=
  if m key = [] then some 0 else fromBytes T (m key)

def nullify (m : PointerMemory) (key : Bytes) : PointerMemory := m.set key [0]

variable {m : PointerMemory} {key key' value : Bytes} {T : IntType}

@[simp] theorem set_self : m.set key value key = value := by
  rw [set, Function.update_self]

theorem set_of_ne (h : key' ≠ key) : m.set key value key' = m key' := by
  rw [set, Function.update_of_ne h]

theorem getValue_congr {m' : PointerMemory} (h : m' key = m key) :
    m'.getValue T key = m.getValue T key := by
  rw [getValue, getValue, h]

theorem getValue_set_self : (m.set key value).getValue T key =
    if value = [] then some 0 else fromBytes T value := by
  rw [getValue, set_self]

@[simp] theorem getValue_setValue_self {v : Nat} (h : v < 256^T.width) :
    (m.setValue T key v).getValue T key = some v := by
  rw [setValue, getValue_set_self, toBytes, if_neg (toLE_ne_nil T.width_pos v),
    fromBytes, length_toLE, if_pos rfl, ofLE_toLE h]

theorem setValue_of_ne {v : Nat} (h : key' ≠ key) : m.setValue T key v key' = m key' := by
  rw [setValue, set_of_ne h]

end PointerMemory

/-- A `set` of the guest library is one of the memory that its pointers read. -/
theorem GuestMemory.read_set (host : Bytes → Bytes) (m : GuestMemory) (key value : Bytes) :
    (m.set key value).read host = PointerMemory.set (m.read host) key value := by
  funext key'
  rw [GuestMemory.read, GuestMemory.set, KV.get, Std.ExtTreeMap.getElem?_insert]
  by_cases h : key = key'
  · subst h
    simp
  · rw [PointerMemory.set_of_ne (Ne.symm h)]
    simp only [Std.compare_eq_iff_eq, h, if_false]
    rfl

/-- A `get` that fills the cache leaves that memory as it is. -/
theorem GuestMemory.read_get (host : Bytes → Bytes) (m : GuestMemory) (key : Bytes) :
    (m.get host key).read host = m.read host := by
  funext key'
  rw [GuestMemory.get]
  cases hk : KV.get m.cache key with
  | some value => rfl
  | none =>
    rw [GuestMemory.read, GuestMemory.read, KV.get, Std.ExtTreeMap.getElem?_insert]
    by_cases h : key = key'
    · subst h
      simp [hk]
    · simp only [Std.compare_eq_iff_eq, h, if_false]
      rfl

end Metashrew
