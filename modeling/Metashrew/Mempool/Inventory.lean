import Metashrew.Support.Consensus
import Metashrew.Tree.Nodes

namespace Metashrew.Mempool

open Bytes

/-- The two kinds of inventory that matter here. -/
inductive Inventory where
  | transaction (txid : Hash32)
  | block (hash : Hash32)
deriving DecidableEq

section Handler

variable (codec : ConsensusCodec) (held : Hash32 → Bool) (payload : Bytes)

/-- The loop over the announced entries, with the entries left and the offset of the next one. An
offset stays below the length of a payload in memory, so that adding to it does not wrap. -/
def readInventory : Nat → Nat → Except Fault (List Inventory)
  | 0, _ => return []
  | left+1, offset => do
    let (invType,_) ← consensusError (codec.decodeU32 (← indexRange payload offset payload.length))
    if invType = 1 then
      let hash ← copyFromSlice (← indexRange payload (offset+4) (offset+4+32))
      let getdataItems ← readInventory left (offset+4+32)
      return if held hash then getdataItems else .block hash::getdataItems
    else readInventory left (offset+4)

/-- The `getdata` request that an `inv` message leads to, if any. -/
def handleInv : Except Fault (Option (List Inventory)) := do
  let (count,_) ← consensusError (codec.decodeVarInt payload)
  let getdataItems ← readInventory codec held payload count (codec.encodeVarInt count).length
  return if getdataItems = [] then none else some getdataItems

end Handler

structure InvEntry where
  invType : Fin (2^32)
  hash : Hash32

def InvEntry.bytes (entry : InvEntry) : Bytes := u32le entry.invType ++ entry.hash.toList

def encodeInv (entries : List InvEntry) : Bytes :=
  CompactSize.encode entries.length ++ entries.flatMap InvEntry.bytes

/-- The request for the announced transactions that are not held. -/
def wantedItems (held : Hash32 → Bool) (entries : List InvEntry) : List Inventory :=
  (entries.filter fun entry => entry.invType = 1 ∧ held entry.hash = false).map fun entry =>
    .transaction entry.hash

def requestFor (items : List Inventory) : Option (List Inventory) :=
  if items = [] then none else some items

/-- The message is read without a panic, and a well-formed one leads to the right request. -/
structure ReadsInv (codec : ConsensusCodec) (held : Hash32 → Bool) (payload : Bytes) : Prop where
  safe : ∀ text, handleInv codec held payload ≠ .error (.panic text)
  wanted : ∀ entries : List InvEntry, entries.length < 2^64 → payload = encodeInv entries →
    handleInv codec held payload = .ok (requestFor (wantedItems held entries))

/-- What one round of the loop goes over: a hash with its type before it, or four other bytes. -/
inductive Passed where
  | hash (hash : Hash32)
  | word (word : Fin (2^32)) (other : word ≠ 1)

def Passed.bytes : Passed → Bytes
  | .hash h => u32le 1 ++ h.toList
  | .word w _ => u32le w

/-- No round that is reached begins with the type of a transaction and has less than a hash after it;
in a well-formed message every announced transaction is held, and so is every hash that the rounds
go over. -/
structure NothingToAsk (held : Hash32 → Bool) (payload : Bytes) : Prop where
  whole : ∀ n body, n < 2^64 → payload = CompactSize.encode n ++ body →
    ∀ (passed : List Passed) tail, passed.length < n →
      body = passed.flatMap Passed.bytes ++ u32le 1 ++ tail → 32 ≤ tail.length
  announced : ∀ entries : List InvEntry, entries.length < 2^64 → payload = encodeInv entries →
    ∀ entry ∈ entries, entry.invType = 1 → held entry.hash
  passed : ∀ entries : List InvEntry, entries.length < 2^64 → payload = encodeInv entries →
    ∀ (passed : List Passed) tail, passed.length = entries.length →
      entries.flatMap InvEntry.bytes = passed.flatMap Passed.bytes ++ tail →
        ∀ hash, .hash hash ∈ passed → held hash

section Walk

variable {codec : ConsensusCodec} {held : Hash32 → Bool} {payload before rest : Bytes}

theorem indexRange_rest (before rest : Bytes) :
    indexRange (before ++ rest) before.length (before ++ rest).length = .ok rest :=
  indexRange_mid before rest [] (List.append_nil _).symm rfl List.length_append

theorem decodeU32_u32le (hcodec : codec.Standard) {word : Nat} (h : word < 2^32) (rest : Bytes) :
    consensusError (codec.decodeU32 (u32le word ++ rest)) = .ok (word,rest) := by
  rw [(hcodec.decodeU32 _ word rest).mpr ⟨h,rfl⟩]
  rfl

theorem readInventory_word (hcodec : codec.Standard) (word : Fin (2^32)) (hother : word ≠ 1)
    (left : Nat) (hpayload : payload = before ++ (u32le word ++ rest)) :
    readInventory codec held payload (left+1) before.length =
      readInventory codec held payload left (before ++ u32le word).length := by
  have hne : (word : Nat) ≠ 1 := fun h => hother (Fin.ext h)
  rw [readInventory, hpayload, indexRange_rest]
  show (consensusError (codec.decodeU32 (u32le word ++ rest))).bind _ = _
  rw [decodeU32_u32le hcodec word.isLt]
  show (if (word : Nat) = 1 then _ else _) = _
  rw [if_neg hne, List.length_append, u32le_length]

theorem readInventory_hash (hcodec : codec.Standard) (hash : Hash32) (left : Nat)
    (hpayload : payload = before ++ (u32le 1 ++ (hash.toList ++ rest))) :
    readInventory codec held payload (left+1) before.length =
      (readInventory codec held payload left (before ++ (u32le 1 ++ hash.toList)).length).map
        fun items => if held hash then items else .block hash::items := by
  have hrange : indexRange payload (before.length+4) (before.length+4+32) = .ok hash.toList := by
    apply indexRange_mid (before ++ u32le 1) hash.toList rest
    · rw [hpayload]
      simp only [List.append_assoc]
    · rw [List.length_append, u32le_length]
    · simp
  have hlen : (before ++ (u32le 1 ++ hash.toList)).length = before.length+4+32 := by simp
  rw [readInventory, hlen]
  have hread : indexRange payload before.length payload.length = .ok (u32le 1 ++ (hash.toList ++ rest)) := by
    rw [hpayload, indexRange_rest]
  rw [hread]
  show (consensusError (codec.decodeU32 (u32le 1 ++ (hash.toList ++ rest)))).bind _ = _
  rw [decodeU32_u32le hcodec (by decide)]
  show (indexRange payload (before.length+4) (before.length+4+32)).bind (fun source =>
    (copyFromSlice source).bind fun hash => (readInventory codec held payload left
      (before.length+4+32)).bind fun items =>
        .ok (if held hash then items else .block hash::items)) = _
  rw [hrange]
  show (copyFromSlice hash.toList).bind _ = _
  rw [copyFromSlice_toList]
  show (readInventory codec held payload left (before.length+4+32)).bind _ = _
  cases readInventory codec held payload left (before.length+4+32) <;> rfl

/-- What is left is too short for a type: an error and no panic. -/
theorem readInventory_short (hcodec : codec.Standard) (held : Hash32 → Bool) (left : Nat)
    (before : Bytes) (hshort : rest.length < 4) :
    ∃ text, readInventory codec held (before ++ rest) (left+1) before.length = .error (.message text) := by
  rw [readInventory, indexRange_rest]
  show ∃ text, (consensusError (codec.decodeU32 rest)).bind _ = _
  cases hread : codec.decodeU32 rest with
  | error text => exact ⟨text,rfl⟩
  | ok r =>
    obtain ⟨_,hrest⟩ := (hcodec.decodeU32 rest r.1 r.2).mp hread
    rw [hrest, List.length_append, u32le_length] at hshort
    omega

/-- The type of a transaction with less than a hash after it. -/
theorem readInventory_cut (hcodec : codec.Standard) (held : Hash32 → Bool) (left : Nat)
    (before : Bytes) (hcut : rest.length < 32) :
    ∃ text, readInventory codec held (before ++ (u32le 1 ++ rest)) (left+1) before.length =
      .error (.panic text) := by
  have hrange : indexRange (before ++ (u32le 1 ++ rest)) (before.length+4) (before.length+4+32) =
      .error (.panic "range out of bounds") := by
    have hnone : Slices.slice (before ++ (u32le 1 ++ rest)) (before.length+4) (before.length+4+32) =
        none := by
      cases h : Slices.slice (before ++ (u32le 1 ++ rest)) (before.length+4) (before.length+4+32) with
      | none => rfl
      | some s =>
        obtain ⟨b,a,hsplit,h1,h2⟩ := Slices.slice_eq_some_iff.mp h
        have hlen := congrArg List.length hsplit
        simp only [List.length_append, u32le_length] at hlen
        omega
    rw [indexRange, hnone]
  rw [readInventory, indexRange_rest]
  show ∃ text, (consensusError (codec.decodeU32 (u32le 1 ++ rest))).bind _ = _
  rw [decodeU32_u32le hcodec (by decide)]
  refine ⟨"range out of bounds",?_⟩
  show (indexRange (before ++ (u32le 1 ++ rest)) (before.length+4) (before.length+4+32)).bind _ = _
  rw [hrange]
  rfl

/-- The block requests that the rounds make. -/
def askedItems (held : Hash32 → Bool) : List Passed → List Inventory
  | [] => []
  | .hash h::passed =>
    if held h then askedItems held passed else .block h::askedItems held passed
  | .word _ _::passed => askedItems held passed

/-- Rounds that find what they go over leave the rest to the next ones. -/
theorem readInventory_passed (hcodec : codec.Standard) (held : Hash32 → Bool) (passed : List Passed)
    (left : Nat) :
    ∀ before, payload = before ++ (passed.flatMap Passed.bytes ++ rest) →
      readInventory codec held payload (passed.length+left) before.length =
        (readInventory codec held payload left (before ++ passed.flatMap Passed.bytes).length).map
          (askedItems held passed ++ ·) := by
  induction passed with
  | nil =>
    intro before _
    rw [List.flatMap_nil, List.append_nil, List.length_nil, Nat.zero_add]
    cases readInventory codec held payload left before.length <;> rfl
  | cons p passed ih =>
    intro before hpayload
    have hnext : payload = before ++ p.bytes ++ (passed.flatMap Passed.bytes ++ rest) := by
      rw [hpayload, List.flatMap_cons]
      simp only [List.append_assoc]
    have ih := ih _ hnext
    have hlen : (p::passed).length+left = (passed.length+left)+1 := by
      rw [List.length_cons]
      omega
    rw [hlen, List.flatMap_cons, ← List.append_assoc before]
    cases p with
    | word word hother =>
      rw [readInventory_word hcodec word hother _ (hnext.trans (List.append_assoc ..))]
      exact ih
    | hash h =>
      rw [readInventory_hash hcodec h _ (by
        rw [hnext]
        show before ++ (u32le 1 ++ h.toList) ++ _ = _
        simp only [List.append_assoc]
        rfl)]
      rw [Passed.bytes] at ih ⊢
      rw [ih, askedItems]
      cases readInventory codec held payload left
        (before ++ (u32le 1 ++ h.toList) ++ passed.flatMap Passed.bytes).length with
      | error e => rfl
      | ok items =>
        by_cases hh : held h <;> simp [Except.map, hh]

/-- The rounds go through the announced entries, or one of them is cut short. -/
theorem exists_passed (n : Nat) (body : Bytes) :
    ∃ (passed : List Passed) (tail : Bytes), body = passed.flatMap Passed.bytes ++ tail ∧
      (passed.length = n ∨ passed.length < n ∧
        (tail.length < 4 ∨ ∃ rest, tail = u32le 1 ++ rest ∧ rest.length < 32)) := by
  induction n generalizing body with
  | zero => exact ⟨[],body,rfl,.inl rfl⟩
  | succ n ih =>
    by_cases hshort : body.length < 4
    · exact ⟨[],body,rfl,.inr ⟨Nat.succ_pos n,.inl hshort⟩⟩
    · obtain ⟨word,hlt,hword⟩ := exists_u32le (show (body.take 4).length = 4 by
        rw [List.length_take]
        omega)
      have hbody : body = u32le word ++ body.drop 4 := by rw [← hword, List.take_append_drop]
      -- the rounds after the first one
      have hnext : ∀ (p : Passed) (rest : Bytes), body = p.bytes ++ rest →
          ∃ (passed : List Passed) (tail : Bytes), body = passed.flatMap Passed.bytes ++ tail ∧
            (passed.length = n+1 ∨ passed.length < n+1 ∧
              (tail.length < 4 ∨ ∃ rest, tail = u32le 1 ++ rest ∧ rest.length < 32)) := by
        intro p rest hp
        obtain ⟨passed,tail,hsplit,hend⟩ := ih rest
        refine ⟨p::passed,tail,?_,?_⟩
        · rw [hp, hsplit, List.flatMap_cons, List.append_assoc]
        · rw [List.length_cons]
          exact hend.imp (by omega) (And.imp_left (by omega))
      by_cases hone : word = 1
      · rw [hone] at hbody
        by_cases hcut : (body.drop 4).length < 32
        · exact ⟨[],body,rfl,.inr ⟨Nat.succ_pos n,.inr ⟨_,hbody,hcut⟩⟩⟩
        · obtain ⟨h,hhash⟩ := exists_hash (show ((body.drop 4).take 32).length = 32 by
            rw [List.length_take]
            omega)
          apply hnext (.hash h) ((body.drop 4).drop 32)
          rw [Passed.bytes, ← hhash, List.append_assoc, List.take_append_drop]
          exact hbody
      · exact hnext (.word ⟨word,hlt⟩ fun h => hone (congrArg Fin.val h)) _ hbody

end Walk

section Law

variable {codec : ConsensusCodec} {held : Hash32 → Bool} {payload body : Bytes} {n : Nat}

theorem handleInv_eq (hcodec : codec.Standard) (hn : n < 2^64)
    (hpayload : payload = CompactSize.encode n ++ body) : handleInv codec held payload =
      (readInventory codec held payload n (CompactSize.encode n).length).map requestFor := by
  have hcount : consensusError (codec.decodeVarInt payload) = .ok (n,body) := by
    rw [(hcodec.decodeVarInt payload n body).mpr ⟨hn,hpayload⟩]
    rfl
  rw [handleInv, hcount]
  show (readInventory codec held payload n (codec.encodeVarInt n).length).bind _ = _
  rw [hcodec.encodeVarInt n hn]
  cases readInventory codec held payload n (CompactSize.encode n).length <;> rfl

/-- A message whose rounds go through asks for what they ask for. -/
theorem handleInv_passed (hcodec : codec.Standard) (passed : List Passed) (tail : Bytes)
    (hn : passed.length < 2^64)
    (hpayload : payload = CompactSize.encode passed.length ++ (passed.flatMap Passed.bytes ++ tail)) :
    handleInv codec held payload = .ok (requestFor (askedItems held passed)) := by
  have hrounds := readInventory_passed hcodec held passed 0 _ hpayload
  rw [Nat.add_zero] at hrounds
  rw [handleInv_eq hcodec hn hpayload, hrounds]
  show Except.ok (requestFor (askedItems held passed ++ [])) = _
  rw [List.append_nil]

theorem length_passed_le (passed : List Passed) :
    (passed.flatMap Passed.bytes).length ≤ 36*passed.length := by
  induction passed with
  | nil => exact le_rfl
  | cons p passed ih =>
    have hp : p.bytes.length ≤ 36 := by cases p <;> simp [Passed.bytes]
    rw [List.flatMap_cons, List.length_append, List.length_cons]
    omega

theorem length_entries (entries : List InvEntry) :
    (entries.flatMap InvEntry.bytes).length = 36*entries.length := by
  induction entries with
  | nil => rfl
  | cons entry entries ih =>
    have he : entry.bytes.length = 36 := by simp [InvEntry.bytes]
    rw [List.flatMap_cons, List.length_append, List.length_cons, ih, he]
    omega

/-- A round takes no more bytes than an entry has, so that the rounds go through a well-formed
message. -/
theorem exists_passed_entries (entries : List InvEntry) :
    ∃ (passed : List Passed) (tail : Bytes), passed.length = entries.length ∧
      entries.flatMap InvEntry.bytes = passed.flatMap Passed.bytes ++ tail := by
  obtain ⟨passed,tail,hsplit,hend⟩ := exists_passed entries.length (entries.flatMap InvEntry.bytes)
  rcases hend with hall | ⟨hlt,hshort⟩
  · exact ⟨passed,tail,hall,hsplit⟩
  · have htail : tail.length < 36 := by
      rcases hshort with h4 | ⟨rest,hrest,h32⟩
      · omega
      · rw [hrest, List.length_append, u32le_length]
        omega
    have hlen := congrArg List.length hsplit
    have hle := length_passed_le passed
    rw [List.length_append, length_entries] at hlen
    omega

theorem requestFor_eq_nil_iff {items : List Inventory} : requestFor items = none ↔ items = [] := by
  rw [requestFor]
  by_cases h : items = []
  · simp [h]
  · simp [h]

theorem askedItems_eq_nil_iff {passed : List Passed} :
    askedItems held passed = [] ↔ ∀ h, .hash h ∈ passed → held h := by
  induction passed with
  | nil => simp [askedItems]
  | cons p passed ih =>
    cases p with
    | word w hother => simp [askedItems, ih]
    | hash h =>
      by_cases hh : held h
      · simp [askedItems, hh, ih]
      · simp [askedItems, hh]

theorem wantedItems_eq_nil_iff {entries : List InvEntry} :
    wantedItems held entries = [] ↔ ∀ entry ∈ entries, entry.invType = 1 → held entry.hash := by
  rw [wantedItems, List.map_eq_nil_iff, List.filter_eq_nil_iff]
  simp

/-- The blocks that the rounds ask for are the wanted transactions only if both are none. -/
theorem request_eq_iff {passed : List Passed} {entries : List InvEntry} :
    requestFor (askedItems held passed) = requestFor (wantedItems held entries) ↔
      askedItems held passed = [] ∧ wantedItems held entries = [] := by
  constructor
  · intro h
    by_cases hnil : askedItems held passed = []
    · rw [requestFor_eq_nil_iff.mpr hnil] at h
      exact ⟨hnil,requestFor_eq_nil_iff.mp h.symm⟩
    · have hwanted : wantedItems held entries ≠ [] := by
        intro h0
        rw [requestFor_eq_nil_iff.mpr h0, requestFor_eq_nil_iff] at h
        exact hnil h
      rw [requestFor, requestFor, if_neg hnil, if_neg hwanted, Option.some.injEq] at h
      obtain ⟨item,hitem⟩ := List.exists_mem_of_ne_nil _ hnil
      have hblock : ∀ passed : List Passed, ∀ item ∈ askedItems held passed,
          ∃ h, item = .block h := by
        intro passed
        induction passed with
        | nil =>
          intro item hmem
          cases hmem
        | cons p passed ih =>
          intro item hmem
          cases p with
          | word w hother => exact ih item hmem
          | hash h =>
            rw [askedItems] at hmem
            by_cases hh : held h
            · rw [if_pos hh] at hmem
              exact ih item hmem
            · rw [if_neg hh] at hmem
              rcases List.mem_cons.mp hmem with rfl | hmem
              · exact ⟨h,rfl⟩
              · exact ih item hmem
      obtain ⟨hash,rfl⟩ := hblock passed item hitem
      rw [h, wantedItems] at hitem
      obtain ⟨entry,_,he⟩ := List.mem_map.mp hitem
      cases he
  · intro h
    rw [h.1, h.2]

end Law

/-- Inventory messages are read as they should be exactly when no transaction type is cut off from
its hash and nothing has to be asked for. -/
theorem inv_handling_iff (codec : ConsensusCodec) (hcodec : codec.Standard) (held : Hash32 → Bool)
    (payload : Bytes) : ReadsInv codec held payload ↔ NothingToAsk held payload := by
  have hwanted : ∀ entries : List InvEntry, entries.length < 2^64 → payload = encodeInv entries →
      ∀ (passed : List Passed) tail, passed.length = entries.length →
        entries.flatMap InvEntry.bytes = passed.flatMap Passed.bytes ++ tail →
          (handleInv codec held payload = .ok (requestFor (wantedItems held entries)) ↔
            askedItems held passed = [] ∧ wantedItems held entries = []) := by
    intro entries hlt hpayload passed tail hlen hsplit
    rw [encodeInv, hsplit, ← hlen] at hpayload
    rw [handleInv_passed hcodec passed tail (by omega) hpayload, ← request_eq_iff]
    constructor
    · intro h
      exact Except.ok.inj h
    · intro h
      rw [h]
  constructor
  · intro h
    refine ⟨?_,?_,?_⟩
    · intro n body hn hpayload passed tail hlt hbody
      by_contra hcut
      obtain ⟨left,rfl⟩ : ∃ left, n = passed.length+(left+1) := ⟨n-passed.length-1,by omega⟩
      have hsplit : payload = CompactSize.encode (passed.length+(left+1)) ++
          (passed.flatMap Passed.bytes ++ (u32le 1 ++ tail)) := by
        rw [hpayload, hbody, List.append_assoc (passed.flatMap Passed.bytes)]
      have hrounds := readInventory_passed hcodec held passed (left+1) _ hsplit
      obtain ⟨text,htext⟩ := readInventory_cut hcodec held left
        (CompactSize.encode (passed.length+(left+1)) ++ passed.flatMap Passed.bytes)
        (Nat.not_le.mp hcut)
      rw [← List.append_assoc] at hsplit
      rw [← hsplit] at htext
      rw [htext] at hrounds
      apply h.safe text
      rw [handleInv_eq hcodec hn hpayload, hrounds]
      rfl
    · intro entries hlt hpayload
      obtain ⟨passed,tail,hlen,hsplit⟩ := exists_passed_entries entries
      have hnil := (hwanted entries hlt hpayload passed tail hlen hsplit).mp
        (h.wanted entries hlt hpayload)
      exact wantedItems_eq_nil_iff.mp hnil.2
    · intro entries hlt hpayload passed tail hlen hsplit
      have hnil := (hwanted entries hlt hpayload passed tail hlen hsplit).mp
        (h.wanted entries hlt hpayload)
      exact askedItems_eq_nil_iff.mp hnil.1
  · intro h
    refine ⟨?_,?_⟩
    · intro text
      cases hcount : codec.decodeVarInt payload with
      | error text' =>
        have herr : handleInv codec held payload = .error (.message text') := by
          rw [handleInv, hcount]
          rfl
        rw [herr]
        intro he
        cases he
      | ok r =>
        obtain ⟨n,body⟩ := r
        obtain ⟨hn,hpayload⟩ := (hcodec.decodeVarInt payload n body).mp hcount
        obtain ⟨passed,tail,hbody,hend⟩ := exists_passed n body
        rcases hend with rfl | ⟨hlt,hshort | ⟨rest,hrest,hcut⟩⟩
        · rw [hbody] at hpayload
          rw [handleInv_passed hcodec passed tail hn hpayload]
          intro he
          cases he
        · obtain ⟨left,rfl⟩ : ∃ left, n = passed.length+(left+1) := ⟨n-passed.length-1,by omega⟩
          rw [hbody] at hpayload
          have hrounds := readInventory_passed hcodec held passed (left+1) _ hpayload
          obtain ⟨text',htext⟩ := readInventory_short hcodec held left
            (CompactSize.encode (passed.length+(left+1)) ++ passed.flatMap Passed.bytes) hshort
          rw [List.append_assoc, ← hpayload] at htext
          rw [htext] at hrounds
          rw [handleInv_eq hcodec hn hpayload, hrounds]
          intro he
          cases he
        · rw [hrest, ← List.append_assoc] at hbody
          have hle := h.whole n body hn hpayload passed rest hlt hbody
          omega
    · intro entries hlt hpayload
      obtain ⟨passed,tail,hlen,hsplit⟩ := exists_passed_entries entries
      exact (hwanted entries hlt hpayload passed tail hlen hsplit).mpr
        ⟨askedItems_eq_nil_iff.mpr (h.passed entries hlt hpayload passed tail hlen hsplit),
          wantedItems_eq_nil_iff.mpr (h.announced entries hlt hpayload)⟩

section Rounds

theorem u32le_append_inj {m n : Nat} (hm : m < 2^32) (hn : n < 2^32) {s t : Bytes}
    (h : u32le m ++ s = u32le n ++ t) : m = n ∧ s = t := by
  obtain ⟨hword,htail⟩ := List.append_inj h rfl
  have hread := readU32le_u32le hm
  rw [hword, readU32le_u32le hn] at hread
  exact ⟨(Option.some.inj hread).symm,htail⟩

theorem toList_append_inj {x y : Hash32} {s t : Bytes} (h : x.toList ++ s = y.toList ++ t) :
    x = y ∧ s = t :=
  (List.append_inj h (by simp)).imp_left Vector.toList_inj.mp

theorem InvEntry.prefixFree : Slices.PrefixFree InvEntry.bytes := by
  intro x y s t h
  rw [InvEntry.bytes, InvEntry.bytes, List.append_assoc, List.append_assoc] at h
  obtain ⟨htype,h⟩ := u32le_append_inj x.invType.isLt y.invType.isLt h
  obtain ⟨hhash,htail⟩ := toList_append_inj h
  obtain ⟨xtype,xhash⟩ := x
  cases Fin.ext htype
  cases hhash
  exact ⟨rfl,htail⟩

theorem Passed.prefixFree : Slices.PrefixFree Passed.bytes := by
  intro x y s t h
  cases x with
  | hash x =>
    rw [Passed.bytes, List.append_assoc] at h
    cases y with
    | hash y =>
      rw [Passed.bytes, List.append_assoc] at h
      obtain ⟨rfl,htail⟩ := toList_append_inj (u32le_append_inj (by decide) (by decide) h).2
      exact ⟨rfl,htail⟩
    | word w hother =>
      exact absurd (Fin.ext (u32le_append_inj (by decide) w.isLt h).1.symm) hother
  | word v hv =>
    cases y with
    | hash y =>
      rw [Passed.bytes, Passed.bytes, List.append_assoc] at h
      exact absurd (Fin.ext (u32le_append_inj v.isLt (by decide) h).1) hv
    | word w hw =>
      obtain ⟨hword,htail⟩ := u32le_append_inj v.isLt w.isLt h
      cases Fin.ext hword
      exact ⟨rfl,htail⟩

/-- For a well-formed message the condition is about the rounds that go over it. -/
theorem NothingToAsk.of_rounds {held : Hash32 → Bool} {entries : List InvEntry}
    (rounds : List Passed) (rest : Bytes) (hlt : entries.length < 2^64)
    (hlen : rounds.length = entries.length)
    (hrounds : entries.flatMap InvEntry.bytes = rounds.flatMap Passed.bytes ++ rest)
    (hentries : ∀ entry ∈ entries, entry.invType = 1 → held entry.hash)
    (hheld : ∀ hash, .hash hash ∈ rounds → held hash) : NothingToAsk held (encodeInv entries) := by
  have hsame : ∀ entries' : List InvEntry, entries'.length < 2^64 →
      encodeInv entries = encodeInv entries' → entries = entries' := by
    intro entries' hlt' h
    obtain ⟨hcount,hbody⟩ := CompactSize.encode_append_inj hlt hlt' h
    obtain ⟨more,hmore,_⟩ := InvEntry.prefixFree.flatMap (congrArg (· ++ []) hbody) hcount.ge
    have hnil : more = [] := by
      have := congrArg List.length hmore
      rw [List.length_append] at this
      exact List.eq_nil_of_length_eq_zero (by omega)
    rw [hmore, hnil, List.append_nil]
  constructor
  · intro n body hn hpayload passed tail hpassed hbody
    obtain ⟨rfl,rfl⟩ := CompactSize.encode_append_inj hlt hn hpayload
    rw [hrounds, List.append_assoc] at hbody
    obtain ⟨left,rfl,hleft⟩ := Passed.prefixFree.flatMap hbody (by omega)
    cases left with
    | nil =>
      rw [List.append_nil] at hlen
      omega
    | cons p left =>
      rw [List.flatMap_cons, List.append_assoc] at hleft
      cases p with
      | hash hash =>
        rw [Passed.bytes, List.append_assoc] at hleft
        rw [← (u32le_append_inj (by decide) (by decide) hleft).2, List.length_append,
          Vector.length_toList]
        omega
      | word w hother =>
        exact absurd (Fin.ext (u32le_append_inj w.isLt (by decide) hleft).1) hother
  · intro entries' hlt' hpayload
    rw [← hsame entries' hlt' hpayload]
    exact hentries
  · intro entries' hlt' hpayload passed tail hpassed hbody
    rw [← hsame entries' hlt' hpayload] at hpassed hbody
    rw [hrounds] at hbody
    obtain ⟨left,rfl,_⟩ := Passed.prefixFree.flatMap hbody (by omega)
    exact fun hash hmem => hheld hash (List.mem_append_left left hmem)

/-- A transaction that is held, a block and an entry of a third type: the last two rounds go over the
type of the block and the first four bytes of its hash. -/
theorem inv_handling_mixed : ReadsInv shortestFormCodec (· = Vector.replicate 32 7)
    (encodeInv [⟨1,Vector.replicate 32 7⟩,⟨2,Vector.replicate 32 9⟩,⟨5,Vector.replicate 32 1⟩]) := by
  apply (inv_handling_iff shortestFormCodec shortestFormCodec_standard _ _).mpr
  apply NothingToAsk.of_rounds [.hash (Vector.replicate 32 7),.word 2 (by decide),
    .word 151587081 (by decide)] (List.replicate 28 9 ++ (u32le 5 ++ List.replicate 32 1))
    (by decide) rfl
  · decide
  · decide
  · simp

end Rounds

/-- For an announced transaction that is not held the request names a block. -/
theorem inv_handling_block : ¬∀ codec : ConsensusCodec, codec.Standard →
    ∀ held payload, ReadsInv codec held payload := by
  intro h
  have hreads := h shortestFormCodec shortestFormCodec_standard (fun _ => false)
    (encodeInv [⟨1,Vector.replicate 32 7⟩])
  have hwanted := hreads.wanted [⟨1,Vector.replicate 32 7⟩] (by decide) rfl
  revert hwanted
  decide

end Metashrew.Mempool
