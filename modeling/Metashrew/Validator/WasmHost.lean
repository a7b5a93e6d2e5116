import Metashrew.Guest.Buffers
import Metashrew.Lib.Numeral
import Metashrew.Validator.Wire

namespace Metashrew.Validator

open Bytes Slices

/-- A pointer of the guest as an index of the host: `as usize` extends its sign to 64 bits. -/
def asUsize (ptr : Int) : Nat := (ptr%18446744073709551616).toNat

/-- The host has indices of 64 bits. -/
def hostTarget : Machine := ⟨64,true⟩

/-- The import `__load_request`: the write is bounds-checked, and a failure is ignored. -/
def loadRequest (request memory : Bytes) (ptr : Int) : Bytes :=
  if asUsize ptr+request.length ≤ memory.length then copyAt memory (asUsize ptr) request else memory

def decodeVerdict (payload : Bytes) : Except Fault Verdict :=
  match Verdict.decode hostTarget payload with
  | .ok verdict => .ok verdict
  | .error .refused => .error (.message "validator returned a malformed verdict")
  | .error .panicked => .error (.panic "attempt to add with overflow")

/-- What the host makes of the pointer that the guest returns, to `[len:u32 LE | payload]`. -/
def readVerdict (memory : Bytes) (ptr : Int) : Except Fault Verdict :=
  if asUsize ptr < 4 ∨ memory.length < asUsize ptr then
    .error (.message s!"validator returned an out-of-range pointer {ptr}")
  else
    match slice memory (asUsize ptr-4) (asUsize ptr) with
    | none => .error (.message "validator response has no length prefix")
    | some prefixBytes =>
      match readU32le prefixBytes with
      | none => .error (.message "could not convert slice to array")
      | some len =>
        match hostTarget.take memory (asUsize ptr) len with
        | .error .refused => .error (.message s!"validator response length {len} runs past memory")
        | .error .panicked => .error (.panic "attempt to add with overflow")
        | .ok (payload,_) => decodeVerdict payload

/-- How the call of the guest's `validate` ends. -/
inductive GuestCall where
  | trapped (text : String)
  | returned (memory : Bytes) (ptr : Int)

def WasmValidator.run : GuestCall → Except Fault Verdict
  | .trapped text => .error (.message s!"validator trapped: {text}")
  | .returned memory ptr => readVerdict memory ptr

/-- A validator that cannot run rejects. -/
def WasmValidator.validate (label : String) (call : GuestCall) : Except Fault Verdict :=
  match WasmValidator.run call with
  | .error (.message e) =>
    .ok (.reject s!"custom validator {label} failed to produce a verdict: {e}")
  | result => result

/-- `guest::request`, into a buffer at `address`. -/
def Guest.request (m : Machine) (request memory : Bytes) (address : Nat) :
    Except Stop (Option ValidationRequest) :=
  let len := (asI32 request.length%4294967296).toNat
  let zeroed := copyAt memory address (List.replicate len 0)
  let loaded := loadRequest request zeroed (asI32 address)
  match ValidationRequest.decode m ((loaded.drop address).take len) with
  | .ok req => .ok (some req)
  | .error .refused => .ok none
  | .error .panicked => .error .panicked

/-- `guest::respond`: the framed verdict, put at `address`, and the pointer to its payload. -/
def Guest.respond (m : Machine) (verdict : Verdict) (address : Nat) : Except Stop (Bytes × Int) :=
  let payload := verdict.encode
  let framed := u32le payload.length ++ payload
  if asI32 address+4 < 2147483648 then .ok (framed,asI32 address+4)
  else if m.checked then .error .panicked
  else .ok (framed,asI32 (asI32 address+4))

/-- `guest::run` with a policy. -/
def Guest.run (m : Machine) (policy : ValidationRequest → Verdict) (request memory : Bytes)
    (bufferAt responseAt : Nat) : Except Stop (Bytes × Int) :=
  match Guest.request m request memory bufferAt with
  | .error e => .error e
  | .ok (some req) => Guest.respond m (policy req) responseAt
  | .ok none => Guest.respond m
      (.reject "validator could not decode its request; refusing to accept the block") responseAt

/-- The response in the memory when the call returns; a panic is a trap. -/
def GuestCall.ofResponse (after : Bytes) (responseAt : Nat) : Except Stop (Bytes × Int) → GuestCall
  | .error _ => .trapped "unreachable"
  | .ok (framed,ptr) => .returned (copyAt after responseAt framed) ptr

/-- The call of a module built on `guest::run`. `memory` is the guest's memory when the request is
read, `after` its memory when the call returns but for the response. -/
def Guest.call (m : Machine) (policy : ValidationRequest → Verdict) (request memory after : Bytes)
    (bufferAt responseAt : Nat) : GuestCall :=
  .ofResponse after responseAt (Guest.run m policy request memory bufferAt responseAt)

section Host

variable {memory payload : Bytes} {ptr : Int}

theorem asUsize_nat {n : Nat} (h : n < 2^64) : asUsize n = n := by
  unfold asUsize
  omega

theorem asUsize_neg (h : -2147483648 ≤ ptr) (hneg : ptr < 0) : 2^32 < asUsize ptr := by
  unfold asUsize
  omega

theorem readVerdict_neg (hm : memory.length ≤ 2^32) (h1 : -2147483648 ≤ ptr) (hneg : ptr < 0) :
    ∃ text, readVerdict memory ptr = .error (.message text) := by
  have hlt := asUsize_neg h1 hneg
  exact ⟨_,if_pos (.inr (by omega))⟩

/-- The host reads the payload that stands behind its own length, or gives an error. -/
theorem readVerdict_cases (hm : memory.length ≤ 2^32) (h1 : -2147483648 ≤ ptr) (h2 : ptr < 2147483648) :
    (∃ payload, tryReadArraybufferAsVec memory ptr = some (.ok payload) ∧
      readVerdict memory ptr = decodeVerdict payload) ∨
    (∃ e, tryReadArraybufferAsVec memory ptr = some (.error e)) ∧
      ∃ text, readVerdict memory ptr = .error (.message text) := by
  by_cases hneg : ptr < 0
  · exact .inr ⟨⟨_,try_read_invalid (.inl (by omega))⟩,readVerdict_neg hm h1 hneg⟩
  obtain ⟨n,rfl⟩ := Int.eq_ofNat_of_zero_le (not_lt.mp hneg)
  rw [readVerdict, asUsize_nat (by omega)]
  by_cases hr : n < 4 ∨ memory.length < n
  · exact .inr ⟨⟨_,try_read_invalid (by omega)⟩,_,if_pos hr⟩
  obtain ⟨len,hlen,hs⟩ := exists_prefix memory (show 4 ≤ n by omega) (by omega)
  have hs' : slice memory (n-4) n = some (u32le len) := by
    rw [← hs]
    congr 1
    omega
  rw [if_neg hr, hs', try_read_eq (by omega) (by omega) hlen hs]
  simp only [readU32le_u32le hlen]
  have hadd : hostTarget.add n len = .ok (n+len) := Machine.add_of_lt (by
    show n+len < 2^64
    omega)
  rw [Machine.take, hadd]
  dsimp only
  by_cases hb : memory.length < n+len
  · refine .inr ⟨⟨_,if_pos hb⟩,s!"validator response length {len} runs past memory",?_⟩
    have hslice : slice memory n (n+len) = none := if_neg (by omega)
    rw [hslice]
  · have hslice := slice_of_le memory (show n ≤ n+len by omega) (by omega)
    refine .inl ⟨(memory.drop n).take (n+len-n),?_,?_⟩
    · rw [if_neg hb, hslice]
      rfl
    · rw [hslice]

theorem decodeVerdict_ok_iff {verdict : Verdict} :
    decodeVerdict payload = .ok verdict ↔ Verdict.decode hostTarget payload = .ok verdict := by
  rw [decodeVerdict]
  cases Verdict.decode hostTarget payload with
  | ok v => simp
  | error e => cases e <;> simp

/-- On the host no index overflows. -/
theorem decode_hostTarget (h : payload.length ≤ 2^32) :
    Verdict.decode hostTarget payload = (verdictParser.run payload).map Prod.fst := by
  apply Verdict.decode_eq (show 32 ≤ 64 by decide)
  · show payload.length < 2^63
    omega
  · intro _ ho
    obtain ⟨_,_,n,hn,hover⟩ := ho
    have hlt : n < 2^32 := readU32le_lt hn
    have hbits : 2^64 ≤ 6+n := hover
    omega

theorem decodeVerdict_ne_panic (h : payload.length ≤ 2^32) (text : String) :
    decodeVerdict payload ≠ .error (.panic text) := by
  rw [decodeVerdict, decode_hostTarget h]
  cases hrun : verdictParser.run payload with
  | ok r => exact fun he => nomatch he
  | error e =>
    rw [verdictParser_local.fails payload e hrun]
    intro he
    cases he

theorem length_encode (verdict : Verdict) :
    verdict.encode.length = 6+(asBytes verdict.reason).length := by
  simp only [Verdict.encode, List.length_append, List.length_singleton, u32le_length]

theorem decodeVerdict_encode {verdict : Verdict} (h : verdict.encode.length ≤ 2^32) :
    decodeVerdict verdict.encode = .ok verdict := by
  have hl := length_encode verdict
  have hreads := verdictParser_reads (v := verdict) (by omega) []
  rw [List.append_nil] at hreads
  rw [decodeVerdict_ok_iff, decode_hostTarget h, hreads]
  rfl

/-- The call ends in a verdict, and an accepting one is the payload framed at the pointer. -/
def FailsClosed (label : String) (memory : Bytes) (ptr : Int) : Prop :=
  ∃ verdict, WasmValidator.validate label (.returned memory ptr) = .ok verdict ∧
    (verdict.accepted = true → ∃ pre payload post,
      memory = pre ++ (u32le payload.length ++ payload) ++ post ∧ ptr = pre.length+4 ∧
      Verdict.decode hostTarget payload = .ok verdict)

theorem failsClosed (label : String) (hm : memory.length ≤ 2^32) (h1 : -2147483648 ≤ ptr)
    (h2 : ptr < 2147483648) : FailsClosed label memory ptr := by
  rw [FailsClosed, WasmValidator.validate, WasmValidator.run]
  rcases readVerdict_cases hm h1 h2 with ⟨payload,hread,hv⟩ | ⟨_,text,hv⟩
  · have hin : payload <:+: memory := by
      rcases try_read_in_bounds memory ptr with ⟨e,he⟩ | ⟨v,he,hsub⟩
      · rw [hread] at he
        cases he
      · rw [hread] at he
        cases he
        exact hsub
    have hlen : payload.length ≤ 2^32 := hin.length_le.trans hm
    rw [hv]
    cases hd : decodeVerdict payload with
    | ok verdict =>
      refine ⟨verdict,rfl,fun _ => ?_⟩
      obtain ⟨pre,post,hmem,hptr⟩ := exists_frame_of_read hread
      exact ⟨pre,payload,post,hmem,hptr,decodeVerdict_ok_iff.mp hd⟩
    | error f =>
      cases f with
      | message text => exact ⟨_,rfl,fun hacc => nomatch hacc⟩
      | panic text => exact absurd hd (decodeVerdict_ne_panic hlen text)
  · rw [hv]
    exact ⟨_,rfl,fun hacc => nomatch hacc⟩

end Host

section Call

variable {m : Machine} {policy : ValidationRequest → Verdict} {req : ValidationRequest}
  {memory after : Bytes} {bufferAt responseAt : Nat}

theorem asI32_small {n : Nat} (h : n < 2^31) : asI32 n = n := by
  rw [asI32_nat (by omega), if_pos (by omega)]

theorem length_encode_le (hr : req.Typed) : req.encode.length ≤ 74+req.header.length := by
  simp only [ValidationRequest.encode, List.length_append, List.length_singleton, u32le_length,
    hr.claimedHash]
  cases hp : req.prevHash with
  | none => simp
  | some hash =>
    have := hr.prevHash hash hp
    rw [Option.getD_some]
    omega

/-- The guest sees the request that the host has encoded. -/
theorem Guest.request_eq (hm : m.bits = 32) (hr : req.Typed) (hh : req.header.length < 2^31-74)
    (hat : bufferAt < 2^31) (hfits : bufferAt+req.encode.length ≤ memory.length) :
    Guest.request m req.encode memory bufferAt = .ok (some req) := by
  have hlen := length_encode_le hr
  have hlen' : (asI32 req.encode.length%4294967296).toNat = req.encode.length := by
    rw [asI32_small (by omega)]
    omega
  have hzeroed : (copyAt memory bufferAt (List.replicate req.encode.length 0)).length =
      memory.length := length_copyAt (by rw [List.length_replicate]; exact hfits)
  have hload : loadRequest req.encode (copyAt memory bufferAt (List.replicate req.encode.length 0))
      (asI32 bufferAt) =
      copyAt (copyAt memory bufferAt (List.replicate req.encode.length 0)) bufferAt req.encode := by
    rw [loadRequest, asI32_small hat, asUsize_nat (show bufferAt < 2^64 by omega), hzeroed,
      if_pos hfits]
  have hdecode : ValidationRequest.decode m req.encode = .ok req := by
    have hholds : m.Holds req.encode := by
      rw [Machine.Holds, hm]
      omega
    have hreads := requestParser_reads hr (by omega) []
    rw [List.append_nil] at hreads
    rw [ValidationRequest.decode_eq (by omega) hholds, hreads]
    rfl
  rw [Guest.request, hlen', hload, take_drop_copyAt (by omega), hdecode]

/-- The pointer of a response is the address of its payload, while that is a positive number. -/
theorem Guest.respond_eq {verdict : Verdict} (h : responseAt+4 < 2^31) :
    Guest.respond m verdict responseAt =
      .ok (u32le verdict.encode.length ++ verdict.encode,(responseAt+4:Int)) := by
  rw [Guest.respond, asI32_small (by omega), if_pos (by omega)]

/-- Else the addition overflows, and what is left of it is negative. -/
theorem Guest.respond_overflow {verdict : Verdict} {framed : Bytes} {ptr : Int}
    (h1 : responseAt < 2^31) (h2 : 2^31 ≤ responseAt+4)
    (h : Guest.respond m verdict responseAt = .ok (framed,ptr)) :
    framed = u32le verdict.encode.length ++ verdict.encode ∧ -2147483648 ≤ ptr ∧ ptr < 0 := by
  rw [Guest.respond, asI32_small h1, if_neg (by omega)] at h
  split_ifs at h
  cases h
  refine ⟨rfl,?_⟩
  unfold asI32
  omega

end Call

/-- The host reads a verdict back exactly when the address of its payload is a positive number. -/
theorem run_respond_iff {m : Machine} {verdict : Verdict} {after : Bytes} {responseAt : Nat}
    (hat : responseAt < 2^31) (hfits : responseAt+4+verdict.encode.length ≤ after.length)
    (hafter : after.length ≤ 2^32) :
    WasmValidator.run (.ofResponse after responseAt (Guest.respond m verdict responseAt)) =
      .ok verdict ↔ responseAt+4 < 2^31 := by
  constructor
  · intro h
    by_contra hover
    cases hrun : Guest.respond m verdict responseAt with
    | error e =>
      rw [hrun] at h
      cases h
    | ok r =>
      rw [hrun] at h
      obtain ⟨hframed,h1,hneg⟩ :=
        Guest.respond_overflow hat (by omega) hrun
      have hl : (copyAt after responseAt r.1).length = after.length := by
        apply length_copyAt
        rw [hframed, List.length_append, u32le_length]
        omega
      obtain ⟨text,herr⟩ := readVerdict_neg (by rw [hl]; exact hafter) h1 hneg
      have hread : readVerdict (copyAt after responseAt r.1) r.2 = .ok verdict := h
      rw [herr] at hread
      cases hread
  · intro hlt
    have hlen : verdict.encode.length < 2^32 := by omega
    rw [Guest.respond_eq hlt]
    show readVerdict (copyAt after responseAt _) (responseAt+4:Int) = .ok verdict
    have hl : (copyAt after responseAt (u32le verdict.encode.length ++ verdict.encode)).length =
        after.length := by
      apply length_copyAt
      rw [List.length_append, u32le_length]
      omega
    have htake : (after.take responseAt).length = responseAt := by
      rw [List.length_take]
      omega
    have hread : tryReadArraybufferAsVec
        (copyAt after responseAt (u32le verdict.encode.length ++ verdict.encode)) (responseAt+4:Int) =
        some (.ok verdict.encode) := by
      rw [try_read_ok_iff hlen]
      exact ⟨after.take responseAt,_,rfl,by rw [htake]⟩
    rcases readVerdict_cases (by rw [hl]; exact hafter) (show -2147483648 ≤ (responseAt+4:Int) by omega)
      (by omega) with ⟨payload,hpayload,hv⟩ | ⟨⟨e,he⟩,_⟩
    · rw [hread] at hpayload
      cases hpayload
      rw [hv, decodeVerdict_encode hlen.le]
    · rw [hread] at he
      cases he

/-- Which calls of a module built on `guest::run` give the policy's verdict; and no memory and no
pointer makes the host panic or accept anything but a framed accepting verdict. -/
theorem custom_validator_iff (m : Machine) (hm : m.bits = 32) (policy : ValidationRequest → Verdict)
    (req : ValidationRequest) (hr : req.Typed) (hheader : req.header.length < 2^31-74)
    (memory after : Bytes) (hafter : after.length ≤ 2^32) (bufferAt responseAt : Nat)
    (hbuffer : bufferAt < 2^31) (hresponse : responseAt < 2^31)
    (hrequested : bufferAt+req.encode.length ≤ memory.length)
    (hresponded : responseAt+4+(policy req).encode.length ≤ after.length) :
    (WasmValidator.run (Guest.call m policy req.encode memory after bufferAt responseAt) =
        .ok (policy req) ∧
      ∀ label data ptr, data.length ≤ 2^32 → -2147483648 ≤ ptr → ptr < 2147483648 →
        FailsClosed label data ptr) ↔
    responseAt+4 < 2^31 := by
  have hsafe : ∀ label data ptr, data.length ≤ 2^32 → -2147483648 ≤ ptr → ptr < 2147483648 →
      FailsClosed label data ptr := fun label data ptr hd h1 h2 => failsClosed label hd h1 h2
  have hcall : Guest.run m policy req.encode memory bufferAt responseAt =
      Guest.respond m (policy req) responseAt := by
    rw [Guest.run, Guest.request_eq hm hr hheader hbuffer hrequested]
  rw [and_iff_left hsafe, Guest.call, hcall]
  exact run_respond_iff hresponse hresponded hafter

private def evenHeights (req : ValidationRequest) : Verdict :=
  if req.height%2 = 0 then .accept else .reject "odd"

private def seventh : ValidationRequest where
  height := 7
  header := [1,2,3]
  claimedHash := List.replicate 32 17
  prevHash := some (List.replicate 32 34)

private theorem seventh_typed : seventh.Typed where
  height := by decide
  claimedHash := rfl
  prevHash hash h := by
    cases h
    rfl

theorem custom_validator_odd_height :
    WasmValidator.run (Guest.call ⟨32,false⟩ evenHeights seventh.encode (List.replicate 200 0)
      (List.replicate 100 1) 16 8) = .ok (.reject "odd") :=
  ((custom_validator_iff ⟨32,false⟩ rfl evenHeights seventh seventh_typed (by decide)
    (List.replicate 200 0) (List.replicate 100 1) (by decide +kernel) 16 8 (by decide) (by decide)
    (by decide +kernel) (by decide +kernel)).mpr (by decide)).1

/-- A response in the last four bytes below 2 GiB comes back as an error. -/
theorem custom_validator_top_address :
    WasmValidator.run (Guest.call ⟨32,false⟩ evenHeights seventh.encode (List.replicate 200 0)
      (List.replicate 2147483700 0) 16 2147483644) ≠ .ok (evenHeights seventh) := by
  intro h
  have hrun : Guest.run ⟨32,false⟩ evenHeights seventh.encode (List.replicate 200 0) 16 2147483644 =
      Guest.respond ⟨32,false⟩ (evenHeights seventh) 2147483644 := by
    rw [Guest.run, Guest.request_eq rfl seventh_typed (by decide) (by decide) (by decide +kernel)]
  rw [Guest.call, hrun] at h
  have hlt := (run_respond_iff (by decide)
    (by rw [List.length_replicate]; decide +kernel) (by rw [List.length_replicate]; decide)).mp h
  exact absurd hlt (by decide)

end Metashrew.Validator
