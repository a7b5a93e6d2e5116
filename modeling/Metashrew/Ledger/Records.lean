import Metashrew.Ledger.Basic

namespace Metashrew

open Bytes

theorem splitAtByte_formatUpdate (height : Nat) (value : Bytes) :
    splitAtByte 58 (formatUpdate height value) = some (decimal height,hexEncode value) := by
  rw [formatUpdate, List.append_assoc]
  exact splitAtByte_append (not_mem_decimal (by decide) height) (hexEncode value)

theorem parseHeight_formatUpdate {h : Nat} (hh : h < 2^32) (value : Bytes) :
    parseHeightFromSmtValue (formatUpdate h value) = some h := by
  rw [parseHeightFromSmtValue, splitAtByte_formatUpdate]
  exact parseU32_decimal hh

/-- An update record says its value at every height from its own on. -/
theorem decodeUpdate_formatUpdate {height : Nat} (hh : height < 2^32) (value : Bytes) (at_ : Nat) :
    decodeUpdate at_ (formatUpdate height value) = .ok (if height≤at_ then some value else none) := by
  rw [decodeUpdate, splitAtByte_formatUpdate]
  simp only [parseU32_decimal hh, hexDecode_hexEncode]
  split_ifs <;> rfl

/-- Key lists whose count and key lengths fit the 32-bit fields of a manifest. -/
def ManifestSized (keys : List Bytes) : Prop :=
  keys.length < 2^32 ∧ ∀ key ∈ keys, key.length < 2^32

private theorem readKeys_flatMap (keys : List Bytes) (hk : ∀ key ∈ keys, key.length < 2^32) :
    readKeys keys.length (keys.flatMap fun key => u32le key.length ++ key) = keys := by
  induction keys with
  | nil => rfl
  | cons key keys ih =>
    have hread := readU32le_append (hk key (by simp))
      (key ++ keys.flatMap fun key => u32le key.length ++ key)
    have hdrop : (u32le key.length ++ (key ++ keys.flatMap fun key => u32le key.length ++ key)).drop 4 =
        key ++ keys.flatMap fun key => u32le key.length ++ key :=
      List.drop_left' (u32le_length _)
    rw [List.flatMap_cons, List.append_assoc, List.length_cons, readKeys, hread]
    simp only [hdrop]
    rw [if_neg (by simp), List.take_left, List.drop_left]
    rw [ih fun key h => hk key (by simp [h])]

/-- A manifest reads back as the keys it was made from. -/
theorem deserialize_serialize {keys : List Bytes} (h : ManifestSized keys) :
    deserializeKeyManifest (serializeKeyManifest keys) = keys := by
  rw [deserializeKeyManifest, serializeKeyManifest, readU32le_append h.1]
  simp only [List.drop_left' (u32le_length _)]
  exact readKeys_flatMap keys h.2

/-- The pairs of one `__flush` call. They come out of the 32-bit memory of the guest, so their
number and the lengths of the keys fit 32 bits. -/
structure Flush where
  list : List (Bytes × Bytes)
  short : list.length < 2^32 ∧ ∀ kv ∈ list, kv.1.length < 2^32

namespace Flush

/-- One pair, under a key of one character. -/
def single (key : Char) (value : Bytes) : Flush where
  list := [(ofChars [key],value)]
  short := by simp [ofChars]

def nil : Flush := ⟨[],by decide⟩

@[simp] theorem list_nil : nil.list = [] := rfl

/-- The distinct keys of a flush, as its manifest lists them. -/
def keys (f : Flush) : List Bytes := KV.sortedKeys (f.list.map Prod.fst)

theorem mem_keys {f : Flush} {key : Bytes} : key ∈ f.keys ↔ ∃ kv ∈ f.list, kv.1 = key := by
  rw [keys, KV.mem_sortedKeys, List.mem_map]

theorem keys_sized (f : Flush) : ManifestSized f.keys := by
  constructor
  · have hn : f.keys.Nodup := KV.nodup_sortedKeys _
    have hsub : f.keys ⊆ f.list.map Prod.fst := fun key hk => KV.mem_sortedKeys.mp hk
    have hle := (List.subperm_of_subset hn hsub).length_le
    rw [List.length_map] at hle
    exact lt_of_le_of_lt hle f.short.1
  · intro key hk
    obtain ⟨kv,hkv,rfl⟩ := mem_keys.mp hk
    exact f.short.2 kv hkv

end Flush

end Metashrew
