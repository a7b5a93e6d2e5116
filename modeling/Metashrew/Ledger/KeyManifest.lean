import Metashrew.Ledger.Records
import Metashrew.Lib.Slices

namespace Metashrew

open Bytes Slices

/-- How a decoding stops without a result. -/
inductive DecodeFault where
  | outOfBounds
  | allocationFailed

/-- A checked access to the data. -/
def sliceAt (data : Bytes) (start stop : Nat) : Except DecodeFault Bytes :=
  match slice data start stop with
  | none => .error .outOfBounds
  | some bytes => .ok bytes

/-- The entry loop with its offset into the data. -/
def readKeysAt (data : Bytes) : Nat → Nat → Except DecodeFault (List Bytes)
  | 0, _ => .ok []
  | n+1, offset =>
    if data.length < offset+4 then .ok []
    else do
      let keyLen := (readU32le (← sliceAt data offset (offset+4))).getD 0
      if data.length < offset+4+keyLen then return []
      let key ← sliceAt data (offset+4) (offset+4+keyLen)
      let keys ← readKeysAt data n (offset+4+keyLen)
      return key::keys

/-- The size of a `Vec` on a 64-bit host, where the room for `u32::MAX` of them is below `isize::MAX`. -/
def vecSize : Nat := 24

/-- `Vec::with_capacity` of `count` vectors: no request for none, an abort when the allocator refuses the
bytes. -/
def withCapacity (grants : Nat → Bool) (count : Nat) : Except DecodeFault Unit :=
  if count = 0 ∨ grants (count*vecSize) = true then .ok () else .error .allocationFailed

/-- The decoder with every access checked and with the room that it asks for up front; the copies of the
keys need no more than the data. -/
def deserializeKeyManifestAt (grants : Nat → Bool) (data : Bytes) : Except DecodeFault (List Bytes) :=
  if data.length < 4 then .ok []
  else do
    let numKeys := (readU32le (← sliceAt data 0 4)).getD 0
    withCapacity grants numKeys
    readKeysAt data numKeys 4

/-- The allocator grants the room for as many keys as the data announce. -/
def HasRoom (grants : Nat → Bool) (data : Bytes) : Prop :=
  ∀ n, readU32le data = some n → n = 0 ∨ grants (n*vecSize) = true

/-- An entry of a manifest: the length of the key and the key. -/
def manifestEntry (key : Bytes) : Bytes := u32le key.length ++ key

/-- Where the keys of consecutive entries stand, the first entry at the offset. -/
def keySpans : Nat → List Bytes → List (Nat × Nat)
  | _, [] => []
  | offset, key::keys =>
    (offset+4,offset+4+key.length)::keySpans (offset+4+key.length) keys

section Decode

variable {data entries rest : Bytes} {keys : List Bytes} {key : Bytes} {n offset : Nat}

/-- Four bytes that are there are a number. -/
theorem readU32le_cases (data : Bytes) :
    (data.length < 4 ∧ readU32le data = none) ∨
      ∃ n rest, n < 2^32 ∧ data = u32le n ++ rest ∧ readU32le data = some n := by
  by_cases h : data.length < 4
  · exact .inl ⟨h,readU32le_eq_none_iff.mpr h⟩
  · have hfour : (data.take 4).length = 4 := by
      rw [List.length_take]
      omega
    obtain ⟨n,hn,htake⟩ := exists_u32le hfour
    have hdata : data = u32le n ++ data.drop 4 := by
      rw [← htake, List.take_append_drop]
    refine .inr ⟨n,data.drop 4,hn,hdata,?_⟩
    rw [hdata]
    exact readU32le_append hn _

theorem readKeys_short (h : data.length < 4) : readKeys n data = [] := by
  cases n with
  | zero => rfl
  | succ n => rw [readKeys, readU32le_eq_none_iff.mpr h]

theorem readKeys_entry (hn : offset < 2^32) : readKeys (n+1) (u32le offset ++ rest) =
    if rest.length < offset then [] else rest.take offset::readKeys n (rest.drop offset) := by
  rw [readKeys, readU32le_append hn]
  dsimp only
  rw [List.drop_left' (u32le_length _)]

/-- The entries that are read stand at the front of the data. -/
theorem readKeys_layout (n : Nat) (data : Bytes) :
    ∃ rest, data = (readKeys n data).flatMap manifestEntry ++ rest := by
  induction n generalizing data with
  | zero => exact ⟨data,rfl⟩
  | succ n ih =>
    obtain ⟨hlt,_⟩ | ⟨len,tail,hlen,rfl,_⟩ := readU32le_cases data
    · rw [readKeys_short hlt]
      exact ⟨data,rfl⟩
    · rw [readKeys_entry hlen]
      by_cases hshort : tail.length < len
      · rw [if_pos hshort]
        exact ⟨_,rfl⟩
      · obtain ⟨rest,hrest⟩ := ih (tail.drop len)
        have hkey : (tail.take len).length = len := by
          rw [List.length_take]
          omega
        refine ⟨rest,?_⟩
        rw [if_neg hshort, List.flatMap_cons, manifestEntry, hkey, List.append_assoc,
          List.append_assoc, ← hrest, List.take_append_drop]

/-- A beginning of the entries reads as a beginning of the keys. -/
theorem readKeys_prefix (hkeys : ∀ key ∈ keys, key.length < 2^32)
    (h : data <+: keys.flatMap manifestEntry) : readKeys n data <+: keys := by
  induction keys generalizing n data with
  | nil =>
    rw [List.flatMap_nil, List.prefix_nil] at h
    rw [h, readKeys_short (by decide)]
  | cons key keys ih =>
    rw [List.flatMap_cons, manifestEntry, List.append_assoc] at h
    cases n with
    | zero => exact List.nil_prefix
    | succ n =>
      obtain ⟨hlt,_⟩ | ⟨len,tail,hlen,rfl,hread⟩ := readU32le_cases data
      · rw [readKeys_short hlt]
        exact List.nil_prefix
      · -- the four bytes of the length are there, so they are those of the key
        obtain ⟨after,hafter⟩ := h
        rw [List.append_assoc] at hafter
        obtain ⟨hhead,htail⟩ := List.append_inj hafter rfl
        have hkey := hkeys key List.mem_cons_self
        have heq : len = key.length := by
          have hboth := readU32le_u32le hlen
          rw [hhead, readU32le_u32le hkey] at hboth
          exact (Option.some.inj hboth).symm
        rw [readKeys_entry hlen]
        by_cases hshort : tail.length < len
        · rw [if_pos hshort]
          exact List.nil_prefix
        · rw [if_neg hshort]
          have hlong : key.length ≤ tail.length := by omega
          have htake : tail.take len = key := by
            have h := congrArg (List.take key.length) htail
            rw [List.take_append_of_le_length hlong, List.take_left] at h
            rw [heq]
            exact h
          have hdrop : tail.drop len <+: keys.flatMap manifestEntry := by
            have h := congrArg (List.drop key.length) htail
            rw [List.drop_append_of_le_length hlong, List.drop_left] at h
            rw [heq]
            exact ⟨after,h⟩
          rw [htake]
          apply List.cons_prefix_cons.mpr
          exact ⟨rfl,ih (fun k hk => hkeys k (List.mem_cons_of_mem _ hk)) hdrop⟩

theorem sliceAt_eq_ok {start stop : Nat} {bytes : Bytes} (h : slice data start stop = some bytes) :
    sliceAt data start stop = .ok bytes := by
  rw [sliceAt, h]

/-- The loop by offsets accesses nothing out of bounds and reads the same keys. -/
theorem readKeysAt_eq (data : Bytes) (n offset : Nat) :
    readKeysAt data n offset = .ok (readKeys n (data.drop offset)) := by
  induction n generalizing offset with
  | zero => rfl
  | succ n ih =>
    rw [readKeysAt]
    have hlength : (data.drop offset).length = data.length-offset := List.length_drop
    by_cases hshort : data.length < offset+4
    · rw [if_pos hshort, readKeys_short (by omega)]
    · obtain ⟨hlt,_⟩ | ⟨len,tail,hlen,hdata,hread⟩ := readU32le_cases (data.drop offset)
      · omega
      · have hslice : slice data offset (offset+4) = some (u32le len) := by
          rw [slice_of_le _ (by omega) (by omega), hdata, Nat.add_sub_cancel_left,
            List.take_left' (u32le_length len)]
        have htail : data.drop (offset+4) = tail := by
          rw [← List.drop_drop, hdata, List.drop_left' (u32le_length len)]
        have hlengthTail : tail.length = data.length-(offset+4) := by
          rw [← htail, List.length_drop]
        rw [if_neg hshort, sliceAt_eq_ok hslice, hdata, readKeys_entry hlen]
        show (if data.length < offset+4+(readU32le (u32le len)).getD 0 then Except.ok [] else _) = _
        rw [readU32le_u32le hlen]
        dsimp only [Option.getD_some]
        by_cases hcut : tail.length < len
        · rw [if_pos (by omega), if_pos hcut]
        · have hkey : slice data (offset+4) (offset+4+len) = some (tail.take len) := by
            rw [slice_of_le _ (by omega) (by omega), htail, Nat.add_sub_cancel_left]
          have hnext : data.drop (offset+4+len) = tail.drop len := by
            rw [← List.drop_drop, htail]
          rw [if_neg (by omega), if_neg hcut, sliceAt_eq_ok hkey, ih, hnext]
          rfl

/-- The decoder returns its keys where it gets its room, and aborts where not. -/
theorem deserializeKeyManifestAt_eq (grants : Nat → Bool) (data : Bytes) :
    (HasRoom grants data ∧ deserializeKeyManifestAt grants data = .ok (deserializeKeyManifest data)) ∨
      ¬HasRoom grants data ∧ deserializeKeyManifestAt grants data = .error .allocationFailed := by
  rw [deserializeKeyManifestAt, deserializeKeyManifest]
  obtain ⟨hlt,hread⟩ | ⟨n,rest,hn,rfl,hread⟩ := readU32le_cases data
  · rw [if_pos hlt, hread]
    refine .inl ⟨fun n h => ?_,rfl⟩
    rw [hread] at h
    cases h
  · have hlength : (u32le n ++ rest).length = 4+rest.length := by
      rw [List.length_append, u32le_length]
    have hslice : slice (u32le n ++ rest) 0 4 = some (u32le n) := by
      rw [slice_of_le _ (by omega) (by omega), List.drop_zero, Nat.sub_zero,
        List.take_left' (u32le_length n)]
    have hroom : HasRoom grants (u32le n ++ rest) ↔ n = 0 ∨ grants (n*vecSize) = true := by
      rw [HasRoom, hread]
      simp only [Option.some.injEq, forall_eq']
    rw [if_neg (by omega), sliceAt_eq_ok hslice, hread, hroom]
    show (_ ∧ (withCapacity grants ((readU32le (u32le n)).getD 0) >>= fun _ =>
      readKeysAt _ ((readU32le (u32le n)).getD 0) 4) = _) ∨ _ ∧ (withCapacity grants
        ((readU32le (u32le n)).getD 0) >>= fun _ => readKeysAt _ ((readU32le (u32le n)).getD 0) 4) = _
    rw [readU32le_u32le hn, readKeysAt_eq, Option.getD_some, withCapacity]
    by_cases hgranted : n = 0 ∨ grants (n*vecSize) = true
    · rw [if_pos hgranted]
      exact .inl ⟨hgranted,rfl⟩
    · rw [if_neg hgranted]
      exact .inr ⟨hgranted,rfl⟩

/-- So it has a property of its keys exactly where it gets its room and its keys have it. -/
theorem deserializes_iff {grants : Nat → Bool} {P : List Bytes → Prop} (h : P (deserializeKeyManifest data)) :
    (∃ keys, deserializeKeyManifestAt grants data = .ok keys ∧ P keys) ↔ HasRoom grants data := by
  rcases deserializeKeyManifestAt_eq grants data with ⟨hroom,heq⟩ | ⟨hroom,heq⟩
  · exact iff_of_true ⟨_,heq,h⟩ hroom
  · refine iff_of_false ?_ hroom
    rintro ⟨keys,hkeys,_⟩
    rw [heq] at hkeys
    cases hkeys

end Decode

section Spans

variable {data pre rest : Bytes} {keys : List Bytes} {offset : Nat}

/-- The spans of the entries hold the keys. -/
theorem keySpans_slices (h : data = pre ++ (keys.flatMap manifestEntry ++ rest))
    (hpre : pre.length = offset) :
    (keySpans offset keys).map (fun s => slice data s.1 s.2) = keys.map some := by
  induction keys generalizing pre offset with
  | nil => rfl
  | cons key keys ih =>
    rw [List.flatMap_cons, List.append_assoc, manifestEntry, List.append_assoc] at h
    have hslice : slice data (offset+4) (offset+4+key.length) = some key := by
      apply slice_eq_some_iff.mpr
      refine ⟨pre ++ u32le key.length,keys.flatMap manifestEntry ++ rest,?_,?_,rfl⟩
      · rw [h]
        simp only [List.append_assoc]
      · rw [List.length_append, u32le_length, hpre]
    rw [keySpans, List.map_cons, List.map_cons, hslice]
    congr 1
    have hnext : data = (pre ++ (u32le key.length ++ key)) ++ (keys.flatMap manifestEntry ++ rest) := by
      rw [h]
      simp only [List.append_assoc]
    apply ih hnext
    rw [List.length_append, List.length_append, u32le_length, hpre]
    omega

theorem le_of_mem_keySpans {s : Nat × Nat} (h : s ∈ keySpans offset keys) : offset ≤ s.1 := by
  induction keys generalizing offset with
  | nil => cases h
  | cons key keys ih =>
    rw [keySpans, List.mem_cons] at h
    obtain rfl | h := h
    · exact Nat.le_add_right offset 4
    · have := ih h
      omega

theorem keySpans_disjoint (offset : Nat) (keys : List Bytes) :
    (keySpans offset keys).Pairwise fun s t => s.2 ≤ t.1 := by
  induction keys generalizing offset with
  | nil => exact .nil
  | cons key keys ih =>
    rw [keySpans]
    apply List.pairwise_cons.mpr
    exact ⟨fun t ht => le_of_mem_keySpans ht,ih _⟩

theorem keySpans_consecutive (offset : Nat) (keys : List Bytes) :
    (keySpans offset keys).IsChain fun s t => t.1 = s.2+4 := by
  induction keys generalizing offset with
  | nil => exact .nil
  | cons key keys ih =>
    cases keys with
    | nil => exact .singleton _
    | cons key' keys => exact .cons_cons rfl (ih _)

end Spans

/-- Cut anywhere, a manifest reads as a beginning of its keys. -/
theorem deserialize_truncated {keys : List Bytes} (h : ManifestSized keys) {data : Bytes}
    (hdata : data <+: serializeKeyManifest keys) : deserializeKeyManifest data <+: keys := by
  obtain ⟨hlt,hread⟩ | ⟨n,rest,hn,rfl,hread⟩ := readU32le_cases data
  · rw [deserializeKeyManifest, hread]
    exact List.nil_prefix
  · obtain ⟨after,hafter⟩ := hdata
    rw [serializeKeyManifest, List.append_assoc] at hafter
    rw [deserializeKeyManifest, hread]
    dsimp only
    rw [List.drop_left' (u32le_length n)]
    exact readKeys_prefix h.2 ⟨after,(List.append_inj hafter rfl).2⟩

/-- The keys are slices of the data, one behind the other with only the four bytes of a length between
them. -/
def SlicesOf (data : Bytes) (keys : List Bytes) : Prop :=
  ∃ spans : List (Nat × Nat), spans.map (fun s => slice data s.1 s.2) = keys.map some ∧
    spans.Pairwise (fun s t => s.2 ≤ t.1) ∧ spans.IsChain fun s t => t.1 = s.2+4

theorem deserialize_slices (data : Bytes) : SlicesOf data (deserializeKeyManifest data) := by
  obtain ⟨hlt,hread⟩ | ⟨n,rest,hn,rfl,hread⟩ := readU32le_cases data
  · rw [deserializeKeyManifest, hread]
    exact ⟨[],rfl,.nil,.nil⟩
  · have hkeys : deserializeKeyManifest (u32le n ++ rest) = readKeys n rest := by
      rw [deserializeKeyManifest, hread]
      dsimp only
      rw [List.drop_left' (u32le_length n)]
    obtain ⟨tail,htail⟩ := readKeys_layout n rest
    rw [hkeys]
    refine ⟨keySpans 4 (readKeys n rest),?_,keySpans_disjoint 4 _,keySpans_consecutive 4 _⟩
    have hdata : u32le n ++ rest =
        u32le n ++ ((readKeys n rest).flatMap manifestEntry ++ tail) := by rw [← htail]
    exact keySpans_slices hdata (u32le_length n)

/-- A manifest reads back as its keys, cut anywhere as a beginning of them, and any data as slices of it,
exactly where the allocator grants the room for the number of keys that stands in front. Nothing is
read out of bounds. -/
theorem key_manifest_codec_iff (grants : Nat → Bool) :
    (∀ keys, ManifestSized keys →
      (deserializeKeyManifestAt grants (serializeKeyManifest keys) = .ok keys ↔
        HasRoom grants (serializeKeyManifest keys)) ∧
      ∀ data, data <+: serializeKeyManifest keys →
        ((∃ cut, deserializeKeyManifestAt grants data = .ok cut ∧ cut <+: keys) ↔
          HasRoom grants data)) ∧
    ∀ data, deserializeKeyManifestAt grants data ≠ .error .outOfBounds ∧
      ((∃ keys, deserializeKeyManifestAt grants data = .ok keys ∧ SlicesOf data keys) ↔
        HasRoom grants data) := by
  refine ⟨fun keys h => ⟨?_,fun data hdata => deserializes_iff (deserialize_truncated h hdata)⟩,
    fun data => ⟨?_,deserializes_iff (deserialize_slices data)⟩⟩
  · rw [← deserializes_iff (P := fun back => back = keys) (deserialize_serialize h)]
    simp
  · rcases deserializeKeyManifestAt_eq grants data with ⟨_,heq⟩ | ⟨_,heq⟩
    · rw [heq]
      exact fun h => nomatch h
    · rw [heq]
      exact fun h => nomatch h

/-- Four bytes announce 2^32-1 keys; 64 GiB are not enough. -/
theorem key_manifest_aborts :
    ¬∀ grants data, ∃ keys, deserializeKeyManifestAt grants data = .ok keys ∧ SlicesOf data keys := by
  intro h
  obtain ⟨keys,hkeys,_⟩ := h (fun bytes => bytes ≤ 2^36) [255,255,255,255]
  have he : (deserializeKeyManifestAt (fun bytes => bytes ≤ 2^36) [255,255,255,255]).isOk = false := by
    decide +kernel
  rw [hkeys] at he
  cases he

end Metashrew
