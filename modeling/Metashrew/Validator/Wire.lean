import Metashrew.Lib.Machine
import Metashrew.Lib.Utf8
import Metashrew.Validator.Chain

namespace Metashrew

open Bytes Parser

def wireVersion : UInt8 := 1

/-- Four bytes as a number, `try_into().ok()?`. -/
def leU32 (bs : Bytes) : Except Stop Nat :=
  match readU32le bs with
  | some n => .ok n
  | none => .error .refused

/-- `version:u8 | height:u32 LE | flags:u8 | claimed_hash:32 | header_len:u32 LE | header |
prev_hash:32?` -/
def ValidationRequest.encode (r : ValidationRequest) : Bytes :=
  [wireVersion] ++ u32le r.height ++ [if r.prevHash.isSome then 1 else 0] ++ r.claimedHash ++
    u32le r.header.length ++ r.header ++ r.prevHash.getD []

def ValidationRequest.decode (m : Machine) (b : Bytes) : Except Stop ValidationRequest := do
  let (version,offset) ← m.take b 0 1
  if version.head? ≠ some wireVersion then .error .refused
  else do
    let (heightBytes,offset) ← m.take b offset 4
    let height ← leU32 heightBytes
    let (flags,offset) ← m.take b offset 1
    let (claimedHash,offset) ← m.take b offset 32
    let (lenBytes,offset) ← m.take b offset 4
    let headerLen ← leU32 lenBytes
    if b.length < headerLen then .error .refused
    else do
      let (header,offset) ← m.take b offset headerLen
      if flags.head? = some 1 then do
        let (prevHash,_) ← m.take b offset 32
        return ⟨height,header,claimedHash,some prevHash⟩
      else return ⟨height,header,claimedHash,none⟩

/-- What the types of the fields promise. -/
structure ValidationRequest.Typed (r : ValidationRequest) : Prop where
  height : r.height < 2^32
  claimedHash : r.claimedHash.length = 32
  prevHash : ∀ hash ∈ r.prevHash, hash.length = 32

namespace Validator

/-- `version:u8 | accepted:u8 | reason_len:u32 LE | reason` -/
def Verdict.encode (v : Verdict) : Bytes :=
  [wireVersion] ++ [if v.accepted then 1 else 0] ++ u32le (asBytes v.reason).length ++
    asBytes v.reason

def Verdict.decode (m : Machine) (b : Bytes) : Except Stop Verdict :=
  if b.length < 6 ∨ b.head? ≠ some wireVersion then .error .refused
  else do
    let reasonLen ← leU32 ((b.drop 2).take 4)
    let (reason,_) ← m.take b 6 reasonLen
    return ⟨b[1]? == some 1,fromUtf8Lossy reason⟩

end Validator

/-- The request format, read off the front of a list. -/
def requestParser : Parser UInt8 Stop ValidationRequest := do
  let version ← takeN .refused 1
  if version.head? ≠ some wireVersion then fail .refused
  else do
    let heightBytes ← takeN .refused 4
    let height ← liftM (leU32 heightBytes)
    let flags ← takeN .refused 1
    let claimedHash ← takeN .refused 32
    let lenBytes ← takeN .refused 4
    let headerLen ← liftM (leU32 lenBytes)
    let header ← takeN .refused headerLen
    if flags.head? = some 1 then do
      let prevHash ← takeN .refused 32
      return ⟨height,header,claimedHash,some prevHash⟩
    else return ⟨height,header,claimedHash,none⟩

/-- The verdict format, read off the front of a list. -/
def verdictParser : Parser UInt8 Stop Validator.Verdict := do
  let version ← takeN .refused 1
  if version.head? ≠ some wireVersion then fail .refused
  else do
    let accepted ← takeN .refused 1
    let lenBytes ← takeN .refused 4
    let reasonLen ← liftM (leU32 lenBytes)
    let reason ← takeN .refused reasonLen
    return ⟨accepted.head? == some 1,fromUtf8Lossy reason⟩

theorem leU32_u32le {n : Nat} (h : n < 2^32) : leU32 (u32le n) = .ok n := by
  rw [leU32, readU32le_u32le h]

theorem bind_leU32 {β : Type} {n : Nat} (h : n < 2^32) (f : Nat → Parser UInt8 Stop β) :
    (liftM (leU32 (u32le n)) >>= f) = f n := by
  rw [leU32_u32le h]
  rfl

/-- A request is read back from its encoding. -/
theorem requestParser_reads {r : ValidationRequest} (hr : r.Typed) (hh : r.header.length < 2^32) :
    requestParser.Reads r.encode r := by
  rw [ValidationRequest.encode, requestParser]
  simp only [List.append_assoc]
  apply Reads.takeN_bind (by rfl)
  rw [if_neg (by simp)]
  apply Reads.takeN_bind (u32le_length _)
  rw [bind_leU32 hr.height]
  apply Reads.takeN_bind (by rfl)
  apply Reads.takeN_bind hr.claimedHash
  apply Reads.takeN_bind (u32le_length _)
  rw [bind_leU32 hh]
  apply Reads.takeN_bind (by rfl)
  obtain ⟨height,header,claimedHash,prevHash⟩ := r
  cases prevHash with
  | none => exact .pure _
  | some hash =>
    have hhash : hash.length = 32 := hr.prevHash hash rfl
    rw [Option.isSome_some, if_pos rfl, List.head?_cons, if_pos rfl, Option.getD_some]
    exact Reads.bind_pure (.takeN hhash)

theorem local_leU32 (bs : Bytes) : Local (liftM (leU32 bs) : Parser UInt8 Stop Nat) .refused := by
  rw [leU32]
  cases readU32le bs with
  | some n => exact .pure n
  | none => exact .fail

theorem requestParser_local : requestParser.Local .refused := by
  rw [requestParser]
  apply Local.bind (.takeN 1)
  intro version
  split_ifs
  · exact .fail
  apply Local.bind (.takeN 4)
  intro heightBytes
  apply (local_leU32 heightBytes).bind
  intro height
  apply Local.bind (.takeN 1)
  intro flags
  apply Local.bind (.takeN 32)
  intro claimedHash
  apply Local.bind (.takeN 4)
  intro lenBytes
  apply (local_leU32 lenBytes).bind
  intro headerLen
  apply Local.bind (.takeN headerLen)
  intro header
  split_ifs
  · apply Local.bind (.takeN 32)
    intro prevHash
    exact .pure _
  · exact .pure _

section Decode

variable {m : Machine} {b : Bytes}

/-- No index of a decoder overflows on a target of 32 bits or more, where what is taken is short or
within the input. -/
theorem index_fits (hm : 32 ≤ m.bits) (hb : m.Holds b) {k n : Nat} (hk : k ≤ b.length)
    (hn : n ≤ b.length ∨ n ≤ 32) : k+n < 2^m.bits := by
  have hpow : 2^m.bits = 2*2^(m.bits-1) := by
    rw [← pow_succ']
    congr 1
    omega
  have h31 : 2^31 ≤ 2^(m.bits-1) := Nat.pow_le_pow_right (by omega) (by omega)
  rw [Machine.Holds] at hb
  omega

/-- The decoder of requests goes through the format. -/
theorem ValidationRequest.decode_eq (hm : 32 ≤ m.bits) (hb : m.Holds b) :
    ValidationRequest.decode m b = (requestParser.run b).map Prod.fst := by
  have hfit : ∀ {k n : Nat}, k ≤ b.length → n ≤ b.length ∨ n ≤ 32 → k+n < 2^m.bits := index_fits hm hb
  rw [ValidationRequest.decode, requestParser]
  apply Machine.take_bind_start (by simpa using hfit (k := 0) (n := 1) (by omega) (by omega))
  rintro version t rfl hs1
  dsimp only
  split_ifs
  · rfl
  apply Machine.take_bind (hfit (by simp) (by omega))
  rintro heightBytes t rfl hs2
  dsimp only
  obtain ⟨height,hheight,rfl⟩ := exists_u32le hs2
  rw [bind_leU32 hheight, leU32_u32le hheight, ← List.append_assoc]
  apply Machine.take_bind (hfit (by simp) (by omega))
  rintro flags t rfl hs3
  dsimp only
  rw [← List.append_assoc]
  apply Machine.take_bind (hfit (by simp) (by omega))
  rintro claimedHash t rfl hs4
  dsimp only
  rw [← List.append_assoc]
  apply Machine.take_bind (hfit (by simp) (by omega))
  rintro lenBytes t rfl hs5
  dsimp only
  obtain ⟨headerLen,hlen,rfl⟩ := exists_u32le hs5
  rw [bind_leU32 hlen, leU32_u32le hlen, ← List.append_assoc]
  show (if _ < headerLen then _ else _) = _
  by_cases hshort :
      (version ++ u32le height ++ flags ++ claimedHash ++ u32le headerLen ++ t).length < headerLen
  · -- the check refuses what could not be taken
    rw [if_pos hshort]
    have hlt : t.length < headerLen := by
      simp only [List.length_append] at hshort
      omega
    rw [run_bind_error (run_takeN_short hlt)]
    rfl
  rw [if_neg hshort]
  simp only [List.append_assoc] at hshort
  apply Machine.take_bind (hfit (by simp) (.inl (not_lt.mp hshort)))
  rintro header t rfl hs6
  dsimp only
  rw [← List.append_assoc]
  split_ifs
  · apply Machine.take_bind (hfit (by simp) (by omega))
    intro prevHash t' _ _
    rfl
  · rfl

/-- Six bytes are split as the format reads them. -/
theorem exists_verdict_head (h : 6 ≤ b.length) :
    ∃ version accepted len rest, len < 2^32 ∧ b = version::accepted::(u32le len ++ rest) := by
  obtain ⟨version,b,rfl⟩ := List.exists_cons_of_length_pos (show 0 < b.length by omega)
  obtain ⟨accepted,b,rfl⟩ := List.exists_cons_of_length_pos (l := b) (by simp at h; omega)
  have hl : (b.take 4).length = 4 := by
    rw [List.length_take]
    simp only [List.length_cons] at h
    omega
  obtain ⟨len,hlen,he⟩ := exists_u32le hl
  exact ⟨version,accepted,len,b.drop 4,hlen,by rw [← he, List.take_append_drop]⟩

/-- The length of a verdict's reason is too large for the index behind it. -/
def OverlongReason (m : Machine) (b : Bytes) : Prop :=
  6 ≤ b.length ∧ b.head? = some wireVersion ∧ ∃ len, readU32le (b.drop 2) = some len ∧ 2^m.bits ≤ 6+len

theorem verdictParser_run {version accepted : UInt8} {len : Nat} (hv : version = wireVersion)
    (hlen : len < 2^32) (rest : Bytes) :
    verdictParser.run (version::accepted::(u32le len ++ rest)) =
      (takeN .refused len >>= fun reason =>
        pure ⟨accepted == 1,fromUtf8Lossy reason⟩ : Parser UInt8 Stop Validator.Verdict).run rest := by
  rw [verdictParser, run_takeN_one, if_neg (by simp [hv]), run_takeN_one,
    run_bind_ok (run_takeN (u32le_length len) _), bind_leU32 hlen]
  rfl

/-- A short input, or another version. -/
theorem verdictParser_refuses (h : b.length < 6 ∨ b.head? ≠ some wireVersion) :
    verdictParser.run b = .error .refused := by
  cases b with
  | nil => rfl
  | cons version b =>
    rw [verdictParser, run_takeN_one]
    by_cases hv : version = wireVersion
    · rw [if_neg (by simp [hv])]
      have hshort := h.resolve_right (by simp [hv])
      cases b with
      | nil => rfl
      | cons accepted b =>
        rw [run_takeN_one]
        apply run_bind_error
        apply run_takeN_short
        simp only [List.length_cons] at hshort
        omega
    · rw [if_pos (by simpa using hv)]
      rfl

theorem Validator.Verdict.decode_cons {version accepted : UInt8} {len : Nat}
    (hv : version = wireVersion) (hlen : len < 2^32) (rest : Bytes) :
    Validator.Verdict.decode m (version::accepted::(u32le len ++ rest)) =
      (m.take (version::accepted::(u32le len ++ rest)) 6 len).map fun r =>
        ⟨accepted == 1,fromUtf8Lossy r.1⟩ := by
  have hhead : ¬((version::accepted::(u32le len ++ rest)).length < 6 ∨
      (version::accepted::(u32le len ++ rest)).head? ≠ some wireVersion) := by
    simp [hv]
  have htake : ((version::accepted::(u32le len ++ rest)).drop 2).take 4 = u32le len :=
    List.take_left' (u32le_length len)
  rw [Validator.Verdict.decode, if_neg hhead, htake, leU32_u32le hlen]
  rfl

/-- The decoder of verdicts goes through the format, unless its index overflows. -/
theorem Validator.Verdict.decode_eq (hm : 32 ≤ m.bits) (hb : m.Holds b)
    (ho : m.checked = true → ¬OverlongReason m b) :
    Validator.Verdict.decode m b = (verdictParser.run b).map Prod.fst := by
  by_cases h : b.length < 6 ∨ b.head? ≠ some wireVersion
  · rw [verdictParser_refuses h, Validator.Verdict.decode, if_pos h]
    rfl
  obtain ⟨version,accepted,len,rest,hlen,rfl⟩ := exists_verdict_head (b := b) (by omega)
  have hv : version = wireVersion := by simpa using (not_or.mp h).2
  rw [verdictParser_run hv hlen, Validator.Verdict.decode_cons hv hlen]
  by_cases hfit : 6+len < 2^m.bits
  · have htake : m.take (version::accepted::(u32le len ++ rest)) 6 len =
        ((takeN .refused len).run rest).map fun r => (r.1,_) :=
      Machine.take_append (version::accepted::u32le len) rest hfit
    rw [htake]
    cases hrun : (takeN (α := UInt8) Stop.refused len).run rest with
    | error e =>
      rw [run_bind_error hrun]
      rfl
    | ok r =>
      rw [run_bind_ok hrun]
      rfl
  · -- the index wraps to one before the reason
    have hover : OverlongReason m (version::accepted::(u32le len ++ rest)) := by
      refine ⟨by simp,by simp [hv],len,?_,by omega⟩
      exact readU32le_append hlen rest
    have hc : m.checked = false := Bool.eq_false_of_not_eq_true fun hc => ho hc hover
    have hpow : 2^32 ≤ 2^m.bits := Nat.pow_le_pow_right (by omega) hm
    have hwrap : (6+len)%2^m.bits < 6 := by
      rw [Nat.mod_eq_sub_mod (by omega), Nat.mod_eq_of_lt (by omega)]
      omega
    have hslice : Slices.slice (version::accepted::(u32le len ++ rest)) 6 ((6+len)%2^m.bits) = none :=
      if_neg (by omega)
    have hshort : rest.length < len := by
      have hlt : (version::accepted::(u32le len ++ rest)).length < 2^(m.bits-1) := hb
      have hhalf : 2*2^(m.bits-1) = 2^m.bits := by
        rw [← pow_succ']
        congr 1
        omega
      simp only [List.length_cons, List.length_append] at hlt
      have h31 : 2^31 ≤ 2^(m.bits-1) := Nat.pow_le_pow_right (by omega) (by omega)
      omega
    rw [Machine.take, Machine.add, if_neg hfit, hc, if_neg (by decide)]
    dsimp only
    rw [hslice, run_bind_error (run_takeN_short hshort)]
    rfl

/-- An index that overflows is a panic where it is checked. -/
theorem Validator.Verdict.decode_overlong (hc : m.checked = true) (ho : OverlongReason m b) :
    Validator.Verdict.decode m b = .error .panicked := by
  obtain ⟨hl,hv,n,hn,hover⟩ := ho
  obtain ⟨version,accepted,len,rest,hlen,rfl⟩ := exists_verdict_head hl
  have hv' : version = wireVersion := by simpa using hv
  have hlen' : len = n := by
    rw [List.drop_succ_cons, List.drop_succ_cons, List.drop_zero, readU32le_append hlen] at hn
    exact Option.some.inj hn
  rw [Validator.Verdict.decode_cons hv' hlen, Machine.take, Machine.add, if_neg (by omega), if_pos hc]
  rfl

end Decode

/-- The encoding decodes to the value, and no strict beginning of it decodes. -/
def RoundTrips {α : Type} (decode : Bytes → Except Stop α) (encoded : Bytes) (x : α) : Prop :=
  decode encoded = .ok x ∧ ∀ t, t <+: encoded → t ≠ encoded → decode t = .error .refused

theorem roundTrips_of_reads {α : Type} {decode : Bytes → Except Stop α} {p : Parser UInt8 Stop α}
    {s : Bytes} {x : α} (hl : p.Local .refused) (hs : p.Reads s x)
    (hd : ∀ t, t <+: s → decode t = (p.run t).map Prod.fst) : RoundTrips decode s x := by
  constructor
  · have hrun := hs []
    rw [List.append_nil] at hrun
    rw [hd s (List.prefix_refl s), hrun]
    rfl
  · intro t ht hne
    rw [hd t ht, hl.run_prefix hs ht hne]
    rfl

theorem verdictParser_reads {v : Validator.Verdict} (hv : (asBytes v.reason).length < 2^32) :
    verdictParser.Reads v.encode v := by
  rw [Validator.Verdict.encode, verdictParser]
  simp only [List.append_assoc]
  apply Reads.takeN_bind (by rfl)
  rw [if_neg (by simp)]
  apply Reads.takeN_bind (by rfl)
  apply Reads.takeN_bind (u32le_length _)
  rw [bind_leU32 hv]
  intro rest
  rw [run_bind_ok (run_takeN rfl rest), fromUtf8Lossy_asBytes]
  obtain ⟨accepted,reason⟩ := v
  cases accepted <;> rfl

theorem verdictParser_local : verdictParser.Local .refused := by
  rw [verdictParser]
  apply Local.bind (.takeN 1)
  intro version
  split_ifs
  · exact .fail
  apply Local.bind (.takeN 1)
  intro accepted
  apply Local.bind (.takeN 4)
  intro lenBytes
  apply (local_leU32 lenBytes).bind
  intro reasonLen
  apply Local.bind (.takeN reasonLen)
  intro reason
  exact .pure _

/-- No beginning of an encoded verdict announces more than the verdict has. -/
theorem not_overlong_of_prefix {m : Machine} {v : Validator.Verdict} {t : Bytes}
    (hv : (asBytes v.reason).length < 2^32) (hfits : m.Holds v.encode) (ht : t <+: v.encode) :
    ¬OverlongReason m t := by
  intro ho
  obtain ⟨hl,_,n,hn,hover⟩ := ho
  obtain ⟨version,accepted,len,rest,hlen,rfl⟩ := exists_verdict_head hl
  obtain ⟨u,hu⟩ := ht
  have hdrop : (v.encode).drop 2 = u32le (asBytes v.reason).length ++ asBytes v.reason := rfl
  rw [← hu] at hdrop
  have hlen' : len = (asBytes v.reason).length := by
    have h1 : Bytes.readU32le (u32le len ++ (rest ++ u)) = some len := readU32le_append hlen _
    have h2 := readU32le_append hv (asBytes v.reason)
    rw [← hdrop] at h2
    simp only [List.cons_append, List.drop_succ_cons, List.drop_zero, List.append_assoc] at h2
    exact Option.some.inj (h1.symm.trans h2)
  have hn' : len = n := Option.some.inj ((readU32le_append hlen rest).symm.trans hn)
  have hsize : v.encode.length = 6+(asBytes v.reason).length := by
    simp only [Validator.Verdict.encode, List.length_append, List.length_singleton, u32le_length]
  have hpow : 2^(m.bits-1) ≤ 2^m.bits := Nat.pow_le_pow_right (by omega) (by omega)
  rw [Machine.Holds, hsize] at hfits
  omega

/-- Both codecs round trip, and the decoders panic nowhere but where a verdict's index overflows. -/
theorem wire_codec_iff (m : Machine) (hm : m.bits = 32 ∨ m.bits = 64) (r : ValidationRequest)
    (hr : r.Typed) (hheader : r.header.length < 2^32) (hrfits : m.Holds r.encode)
    (v : Validator.Verdict) (hreason : (asBytes v.reason).length < 2^32) (hvfits : m.Holds v.encode)
    (b : Bytes) (hb : m.Holds b) :
    (RoundTrips (ValidationRequest.decode m) r.encode r ∧
      RoundTrips (Validator.Verdict.decode m) v.encode v ∧
      ValidationRequest.decode m b ≠ .error .panicked ∧
      Validator.Verdict.decode m b ≠ .error .panicked) ↔
    ¬(m.checked = true ∧ OverlongReason m b) := by
  have h32 : 32 ≤ m.bits := by omega
  have hholds : ∀ {s t : Bytes}, m.Holds s → t <+: s → m.Holds t := by
    intro s t hs ht
    exact ht.length_le.trans_lt hs
  have hrequest : RoundTrips (ValidationRequest.decode m) r.encode r := by
    apply roundTrips_of_reads requestParser_local (requestParser_reads hr hheader)
    intro t ht
    exact ValidationRequest.decode_eq h32 (hholds hrfits ht)
  have hverdict : RoundTrips (Validator.Verdict.decode m) v.encode v := by
    apply roundTrips_of_reads verdictParser_local (verdictParser_reads hreason)
    intro t ht
    exact Validator.Verdict.decode_eq h32 (hholds hvfits ht)
      fun _ => not_overlong_of_prefix hreason hvfits ht
  have hrpanic : ValidationRequest.decode m b ≠ .error .panicked := by
    rw [ValidationRequest.decode_eq h32 hb]
    exact requestParser_local.map_ne (by decide) b
  constructor
  · intro h hover
    exact h.2.2.2 (Validator.Verdict.decode_overlong hover.1 hover.2)
  · intro h
    refine ⟨hrequest,hverdict,hrpanic,?_⟩
    rw [Validator.Verdict.decode_eq h32 hb fun hc ho => h ⟨hc,ho⟩]
    exact verdictParser_local.map_ne (by decide) b

private def sampleRequest : ValidationRequest where
  height := 812345
  header := [171,171,171]
  claimedHash := List.replicate 32 17
  prevHash := some (List.replicate 32 34)

private theorem sampleRequest_typed : sampleRequest.Typed where
  height := by decide
  claimedHash := rfl
  prevHash hash h := by
    cases h
    rfl

theorem wire_codec_sample :
    RoundTrips (ValidationRequest.decode ⟨32,true⟩) sampleRequest.encode sampleRequest ∧
      RoundTrips (Validator.Verdict.decode ⟨32,true⟩) (Validator.Verdict.reject "no").encode
        (Validator.Verdict.reject "no") ∧
      ValidationRequest.decode ⟨32,true⟩ [1,2] ≠ .error .panicked ∧
      Validator.Verdict.decode ⟨32,true⟩ [1,2] ≠ .error .panicked :=
  (wire_codec_iff ⟨32,true⟩ (.inl rfl) sampleRequest sampleRequest_typed (by decide) (by decide +kernel)
    (.reject "no") (by decide +kernel) (by decide +kernel) [1,2] (by decide +kernel)).mpr
    fun h => absurd h.2.1 (by decide)

/-- Six bytes that the test of truncated buffers refuses on a wide target. -/
theorem wire_codec_overlong : ¬∀ m : Machine, (m.bits = 32 ∨ m.bits = 64) → ∀ b, m.Holds b →
    Validator.Verdict.decode m b ≠ .error .panicked := by
  intro h
  apply h ⟨32,true⟩ (.inl rfl) [1,1,255,255,255,255] (by decide +kernel)
  rfl

end Metashrew
