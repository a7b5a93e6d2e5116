import Metashrew.Lib.Steps
import Metashrew.Ledger.Foreign
import Metashrew.Ledger.Frame
import Metashrew.Recovery.Firm

namespace Metashrew

open Bytes Durable Steps Versioned

/-- The names of all records that are not a user's. -/
inductive InternalName : Bytes → Prop where
  | record {name : Bytes} (h : Internal name) : InternalName name
  | node {hash : Bytes} (h : hash.length = 32) : InternalName (smtNodeKey hash)

/-- The records of a user key. Indices are 32-bit. -/
def RecordName (key name : Bytes) : Prop :=
  name = lengthKey key ∨ ∃ i < 2^32, name = updateKey key i

/-- A key that begins like the record of a tree node and that a slash and an index, or `/length`,
bring to the length of one. -/
def nodeLike (key : Bytes) : Bool :=
  (ascii "smt:node::").isPrefixOf key && 31 ≤ key.length && key.length ≤ 40

/-- The user keys that share a record name with an internal record. -/
def collides (key : Bytes) : Bool := Reserved key || nodeLike key

/-- The record names of a key are no other key's and no internal record's. -/
structure NamesApart (key : Bytes) : Prop where
  others : ∀ other, other ≠ key → ∀ name, RecordName key name → ¬RecordName other name
  internal : ∀ name, RecordName key name → ¬InternalName name

section Names

variable {key name hash : Bytes}

theorem RecordName.keyName (h : RecordName key name) : KeyName key name := by
  obtain h | ⟨i,_,h⟩ := h
  · exact .inl h
  · exact .inr ⟨i,h⟩

theorem RecordName.record (h : RecordName key name) : ∃ r : Record, r.name = name := by
  obtain rfl | ⟨i,_,rfl⟩ := h
  · exact ⟨.length key,rfl⟩
  · exact ⟨.update key i,rfl⟩

/-- Two keys share no record name. -/
theorem RecordName.unique {other : Bytes} (h : RecordName key name) (h' : RecordName other name) :
    other = key := by
  obtain ⟨r,rfl⟩ := h.record
  exact KeyName.unique h'.keyName h.keyName

theorem smtNodeKey_length (hash : Bytes) : (smtNodeKey hash).length = 10+hash.length := by
  rw [smtNodeKey, List.length_append]
  rfl

theorem lengthKey_length (key : Bytes) : (lengthKey key).length = key.length+7 := by
  rw [lengthKey, List.length_append]
  rfl

theorem updateKey_length (key : Bytes) (i : Nat) :
    (updateKey key i).length = key.length+1+(decimal i).length := by
  rw [updateKey, List.length_append, List.length_append]
  rfl

private theorem decimal_length_pos (i : Nat) : 0 < (decimal i).length :=
  List.length_pos_iff.mpr (decimal_ne_nil i)

private theorem decimal_length_le {i : Nat} (hi : i < 2^32) : (decimal i).length ≤ 10 := by
  have h := Nat.toDigits_length 10 i 10 (by norm_num) (by omega)
  rwa [decimal, ofChars, List.length_map]

/-- Each number of digits that 32 bits allow is the number of digits of some index. -/
private theorem exists_decimal_length {n : Nat} (h1 : 1 ≤ n) (h10 : n ≤ 10) :
    ∃ i < 2^32, (decimal i).length = n := by
  refine ⟨10^(n-1),?_,?_⟩
  · have hle : 10^(n-1) ≤ 10^9 := Nat.pow_le_pow_right (by norm_num) (by omega)
    omega
  · interval_cases n <;> decide

/-- A key whose record name begins with the long prefix of a tree node begins with it. -/
private theorem prefix_of_append {p a b : Bytes} (hlen : p.length ≤ a.length) (h : p <+: a ++ b) :
    p <+: a := List.prefix_of_prefix_length_le h (List.prefix_append a b) hlen

theorem nodeLike_of_record {hash : Bytes} (hh : hash.length = 32)
    (h : RecordName key (smtNodeKey hash)) : nodeLike key = true := by
  have hpre : ascii "smt:node::" <+: smtNodeKey hash := ⟨hash,rfl⟩
  have hlen := smtNodeKey_length hash
  rw [hh] at hlen
  rw [nodeLike, Bool.and_eq_true, Bool.and_eq_true, List.isPrefixOf_iff_prefix, decide_eq_true_eq,
    decide_eq_true_eq]
  obtain h | ⟨i,hi,h⟩ := h
  · rw [h] at hpre hlen
    rw [lengthKey_length] at hlen
    have hten : (ascii "smt:node::").length = 10 := rfl
    exact ⟨⟨prefix_of_append (by omega) hpre,by omega⟩,by omega⟩
  · rw [h] at hpre hlen
    rw [updateKey_length] at hlen
    rw [updateKey, List.append_assoc] at hpre
    have hpos := decimal_length_pos i
    have hle := decimal_length_le hi
    have hten : (ascii "smt:node::").length = 10 := rfl
    exact ⟨⟨prefix_of_append (by omega) hpre,by omega⟩,by omega⟩

theorem record_of_nodeLike (h : nodeLike key = true) :
    ∃ hash, hash.length = 32 ∧ RecordName key (smtNodeKey hash) := by
  rw [nodeLike, Bool.and_eq_true, Bool.and_eq_true, List.isPrefixOf_iff_prefix, decide_eq_true_eq,
    decide_eq_true_eq] at h
  obtain ⟨⟨⟨t,rfl⟩,h31⟩,h40⟩ := h
  have hten : (ascii "smt:node::").length = 10 := rfl
  rw [List.length_append, hten] at h31 h40
  obtain ⟨i,hi,hdigits⟩ := exists_decimal_length (n := 31-t.length) (by omega) (by omega)
  refine ⟨t ++ ascii "/" ++ decimal i,?_,.inr ⟨i,hi,?_⟩⟩
  · have hone : (ascii "/").length = 1 := rfl
    rw [List.length_append, List.length_append, hdigits, hone]
    omega
  · rw [smtNodeKey, updateKey]
    simp only [← List.append_assoc]
    rfl

/-- Exactly the colliding keys share a name with an internal record. -/
theorem namesApart_iff (key : Bytes) : NamesApart key ↔ collides key = false := by
  rw [collides, Bool.or_eq_false_iff, decide_eq_false_iff_not]
  constructor
  · intro h
    constructor
    · intro hr
      obtain rfl | rfl := reserved_iff.mp hr
      · exact h.internal (manifestKey 0) (.inr ⟨0,by norm_num,manifestKey_eq 0⟩)
          (.record (.manifest 0))
      · exact h.internal (blockHashKey 0) (.inr ⟨0,by norm_num,blockHashKey_eq 0⟩)
          (.record (.blockHash 0))
    · rw [← Bool.not_eq_true]
      intro hn
      obtain ⟨hash,hh,hr⟩ := record_of_nodeLike hn
      exact h.internal _ hr (.node hh)
  · rintro ⟨hr,hn⟩
    constructor
    · intro other hne name h h'
      exact hne (h.unique h')
    · intro name h hint
      cases hint with
      | record hint =>
        apply hr
        obtain rfl | ⟨i,_,rfl⟩ := h
        · exact ⟨_,hint,.inl rfl⟩
        · exact ⟨_,hint,.inr ⟨i,rfl⟩⟩
      | node hh =>
        rw [nodeLike_of_record hh h] at hn
        cases hn

end Names

/-- The calls that change the database. -/
inductive LedgerCall where
  | commit (height : Nat) (b : Block)
  | rollbackToHeight (height : Nat)

namespace LedgerCall

def height : LedgerCall → Nat
  | commit height _ => height
  | rollbackToHeight height => height

def exec (σ : Store) : LedgerCall → Except Fault Store
  | commit height b => commitBlock σ height b
  | rollbackToHeight height => ((Metashrew.rollbackToHeight height).exec σ).map Prod.snd

/-- What a call writes besides the records of user keys. -/
def recordOps (σ : Store) : LedgerCall → List Op
  | commit height b => manifestOps height b.flush.list ++ [.put (rootKey height) b.stateRoot,
      .put tipHeightKey (u32le height),.put (blockHashKey height) b.hash,
      .put indexedHeightKey (u32le height)]
  | rollbackToHeight height =>
    let current := getIndexedHeight σ
    (if current ≤ height then []
      else if manifestsExist σ height current then
        (heightsAbove height current).reverse.flatMap heightRecordOps
      else (metadataKeysToDelete height σ.keys).map .delete) ++
    [.put indexedHeightKey (u32le height)]

end LedgerCall

/-- The updates of one key that a list of calls leaves, latest call first. -/
def historyOf (key : Bytes) : List LedgerCall → History Nat Bytes
  | [] => []
  | .commit height b::before =>
    historyOf key before ++ (updatesOf key b.flush.list).map fun v => (height,v)
  | .rollbackToHeight height::before => upTo height (historyOf key before)

/-- The store after the calls, had none of them touched the records of a user key. -/
def recordsOf : List LedgerCall → Store
  | [] => ∅
  | c::before => KV.write (recordsOf before) (c.recordOps (recordsOf before))

/-- The database and the calls made so far, latest first. -/
structure Called where
  store : Store
  calls : List LedgerCall

namespace Called

def init : Called := ⟨∅,[]⟩

/-- A call that succeeds. Heights are 32-bit. -/
def step (s : Called) (c : LedgerCall) : Option Called :=
  if c.height < 2^32 then (c.exec s.store).toOption.map fun σ => ⟨σ,c::s.calls⟩ else none

/-- The calls under which the namespaces stay apart: no commit of a colliding key, and none on the
highest tip, which is accepted a second time. -/
def separates (s : Called) : LedgerCall → Bool
  | .commit _ b => getIndexedHeight s.store < 2^32-1 && b.flush.list.all fun kv => !collides kv.1
  | .rollbackToHeight _ => true

/-- Each key has the records of its own updates, and each internal record is what the calls make it
without any user record. -/
structure Isolated (s : Called) : Prop where
  records : HoldsHistories s.store fun key => historyOf key s.calls
  internal : ∀ name, InternalName name → KV.get s.store name = KV.get (recordsOf s.calls) name

end Called

/-- The reads of one key find the same in two databases. -/
structure SameKeyReads (key : Bytes) (db db' : KeyValueStoreLike) : Prop where
  atHeight : ∀ height, getAtHeight db key height = getAtHeight db' key height
  atHeightFast : ∀ height, getAtHeightFast db key height = getAtHeightFast db' key height
  current : getCurrent db key = getCurrent db' key
  heights : getHeightsForKey db key = getHeightsForKey db' key

/-- A key with the same records in two databases reads the same. -/
theorem HoldsHistories.sameKeyReads {σ τ : Store} {H H' : Bytes → History Nat Bytes}
    (hσ : HoldsHistories σ H) (hτ : HoldsHistories τ H') {key : Bytes} (he : H key = H' key)
    (hk : Reserved key → H key = []) : SameKeyReads key (rocksDB σ) (rocksDB τ) := by
  have hlen : (rocksDB σ).getImmutable (lengthKey key) = (rocksDB τ).getImmutable (lengthKey key) := by
    show Except.ok (KV.get σ _) = Except.ok (KV.get τ _)
    rw [hσ.length, hτ.length, he]
  by_cases hr : Reserved key
  · have hnone : (rocksDB σ).getImmutable (lengthKey key) = .ok none := by
      show Except.ok (KV.get σ _) = _
      rw [hσ.length, hk hr]
      rfl
    have hnone' := hlen ▸ hnone
    have hsearch : ∀ height, searchUpdates (rocksDB σ) key height = searchUpdates (rocksDB τ) key height := by
      intro height
      rw [searchUpdates, searchUpdates, hnone, hnone']
      rfl
    refine ⟨hsearch,hsearch,?_,?_⟩
    · rw [getCurrent, getCurrent, hnone, hnone']
      rfl
    · rw [getHeightsForKey, getHeightsForKey, hnone, hnone']
      rfl
  · have hupdate : ∀ i, (rocksDB σ).getImmutable (updateKey key i) =
        (rocksDB τ).getImmutable (updateKey key i) := by
      intro i
      show Except.ok (KV.get σ _) = Except.ok (KV.get τ _)
      rw [hσ.update key hr, hτ.update key hr, he]
    have hcollect : ∀ is, collectHeights (rocksDB σ) key is = collectHeights (rocksDB τ) key is := by
      intro is
      induction is with
      | nil => rfl
      | cons i is ih => rw [collectHeights, collectHeights, ih, hupdate]
    constructor
    · exact searchUpdates_congr hlen hupdate
    · exact searchUpdates_congr hlen hupdate
    · simp only [getCurrent, hlen, hupdate]
    · simp only [getHeightsForKey, hlen, hcollect]

/-- The ledger without the updates of the user keys. -/
def Ledger.records (L : Ledger) : Ledger := { L with history := fun _ => [] }

theorem Ledger.Sound.records {L : Ledger} {n : Nat} (hL : L.Sound n) : L.records.Sound n where
  reserved _ _ := rfl
  ordered _ := .nil
  below _ _ he := absurd he List.not_mem_nil
  short _ := by
    show 0 < 2^32
    norm_num
  sized := hL.sized
  unwritten := hL.unwritten

section Nodes

variable {σ : Store} {L : Ledger} {hash : Bytes}

theorem metadataHeight_smtNodeKey (hash : Bytes) : metadataHeight (smtNodeKey hash) = none := by
  have h1 : stripPrefix (ascii "block_hash_") (smtNodeKey hash) = none := rfl
  have h2 : stripPrefix (ascii "state_root_") (smtNodeKey hash) = none := rfl
  have h3 : stripPrefix smtRootPrefix (smtNodeKey hash) = none := rfl
  rw [metadataHeight, h1]
  dsimp only
  rw [h2]
  dsimp only
  rw [h3]
  rfl

private theorem updateKey_reserved_ne {key : Bytes} (hk : Reserved key) (i : Nat) :
    smtNodeKey hash ≠ updateKey key i := by
  intro h
  have hhead := congrArg List.head? h
  obtain rfl | rfl := reserved_iff.mp hk
  · exact absurd hhead (show ¬(some 115 = some (47:UInt8)) by decide)
  · exact absurd hhead (show ¬(some 115 = some (47:UInt8)) by decide)

/-- The record of a node that only its own key could hold is absent. -/
theorem Represents.get_smtNodeKey (hσ : Represents σ L)
    (hshort : ∀ key, (L.history key).length < 2^32)
    (hplain : ∀ key, collides key = true → L.history key = []) (hh : hash.length = 32)
    (hother : (∀ r : Record, smtNodeKey hash ≠ r.name) → KV.get σ (smtNodeKey hash) = none) :
    KV.get σ (smtNodeKey hash) = none := by
  by_cases h : ∃ r : Record, smtNodeKey hash = r.name
  case neg =>
    push Not at h
    exact hother h
  obtain ⟨r,h⟩ := h
  have hnil : ∀ key, RecordName key (smtNodeKey hash) → L.history key = [] := by
    intro key hr
    apply hplain
    rw [collides, nodeLike_of_record hh hr, Bool.or_true]
  have htake := congrArg (List.take 5) h
  rw [h, hσ]
  cases r with
  | length key =>
    show Ledger.lengthRecord (L.history key) = none
    rw [hnil key (.inl h)]
    rfl
  | update key i =>
    have hk : ¬Reserved key := fun hk => updateKey_reserved_ne hk i h
    have hget := hσ.get_update hk i
    rw [show L.lookup (.update key i) = KV.get σ (updateKey key i) from (hσ (.update key i)).symm, hget]
    by_cases hi : i < 2^32
    · rw [hnil key (.inr ⟨i,hi,h⟩)]
      rfl
    · rw [List.getElem?_eq_none (by have hlt := hshort key; omega)]
      rfl
  | root i => exact absurd htake (show ascii "smt:n" ≠ ascii "smt:r" by decide)
  | blockHashMeta i => rfl
  | stateRootMeta i => rfl
  | tipHeight => exact absurd htake (show ascii "smt:n" ≠ ascii "/__IN" by decide)
  | indexedHeight => exact absurd htake (show ascii "smt:n" ≠ ascii "__INT" by decide)

end Nodes

section Records

variable {σ τ : Store} {L M : Ledger} {r m n : Nat}

theorem Represents.dropHeights (hσ : Represents σ M) (heights : List Nat) :
    Represents (KV.write σ (heights.flatMap heightRecordOps)) (heights.foldl Ledger.dropHeight M) := by
  induction heights generalizing σ M with
  | nil => exact hσ
  | cons h hs ih =>
    rw [List.flatMap_cons, KV.write_append, List.foldl_cons]
    exact ih (hσ.dropHeight h)

private theorem drop_cons {α : Type} (f : Nat → Option α) (h : Nat) (hs : List Nat) :
    (fun i => if i ∈ hs then none else Function.update f h none i) =
      fun i => if i ∈ h::hs then none else f i := by
  funext i
  by_cases hi : i = h
  · subst hi
    simp
  · simp [hi]

private theorem foldl_dropHeight (M : Ledger) (heights : List Nat) :
    heights.foldl Ledger.dropHeight M = ⟨M.history,fun i => if i ∈ heights then none else M.root i,
      fun i => if i ∈ heights then none else M.manifest i,
      fun i => if i ∈ heights then none else M.hash i,M.tip,M.indexed⟩ := by
  induction heights generalizing M with
  | nil => simp
  | cons h hs ih =>
    rw [List.foldl_cons, ih, ← drop_cons M.root, ← drop_cons M.manifest, ← drop_cons M.hash]
    rfl

/-- What a rollback does to the internal records it does without the user records. -/
theorem Ledger.RolledBackTo.records {L' : Ledger} (hL : L.RolledBackTo σ r m L')
    (hσ : Represents σ L) (hs : L.Sound n) (hn : n ≤ 2^32) (hτ : Represents τ L.records)
    (hm : getIndexedHeight τ = m) :
    Represents (KV.write τ ((LedgerCall.rollbackToHeight r).recordOps τ)) (L'.setIndexed r).records := by
  have hexist : manifestsExist τ r m = manifestsExist σ r m := by
    rw [Bool.eq_iff_iff, manifestsExist_iff hτ, manifestsExist_iff hσ]
    rfl
  have hops : ∀ {ops : List Op}, Represents (KV.write τ ops) L'.records →
      Represents (KV.write τ (ops ++ [.put indexedHeightKey (u32le r)])) (L'.setIndexed r).records := by
    intro ops h
    rw [KV.write_append]
    exact h.setIndexed r
  rw [LedgerCall.recordOps, hm]
  apply hops
  cases hL with
  | above hr =>
    rw [if_pos hr]
    exact hτ
  | fast hr hfast =>
    rw [if_neg (by omega), hexist, if_pos hfast]
    have h := hτ.dropHeights (heightsAbove r m).reverse
    rwa [foldl_dropHeight] at h
  | slow hr hslow =>
    rw [if_neg (by omega), hexist, hslow, if_neg Bool.false_ne_true]
    exact hτ.dropRoots hs.records hn

/-- So does a commit. -/
theorem Represents.commitRecords (hτ : Represents τ L.records) (h : Nat) (b : Block) :
    Represents (KV.write τ ((LedgerCall.commit h b).recordOps τ)) (L.block h b).records := by
  have hsplit : ∀ ρ : Store, ∀ x y z w : Op, KV.write ρ [x,y,z,w] =
      KV.write (KV.write (KV.write (KV.write ρ [x]) [y]) [z]) [w] := fun _ _ _ _ _ => rfl
  have hman : Represents (KV.write τ (Metashrew.manifestOps h b.flush.list)) _ := hτ.manifestOps
  have hrep := (((hman.setRoot h
    (w := .put (rootKey h) b.stateRoot) rfl).setTip h).setHash h
    (w := .put (blockHashKey h) b.hash) rfl).setIndexed h
  rw [LedgerCall.recordOps, KV.write_append, hsplit]
  convert hrep using 1
  by_cases he : b.flush.list = []
  · simp [he, Ledger.records, Ledger.block, Ledger.setRoot, Ledger.setTip, Ledger.setHash,
      Ledger.setIndexed, KV.Op.value]
  · simp [he, Ledger.records, Ledger.block, Ledger.setRoot, Ledger.setTip, Ledger.setHash,
      Ledger.setIndexed, Ledger.setManifest, Flush.keys, KV.Op.value]

private theorem heightRecordOps_record {h : Nat} {op : Op} (hop : op ∈ heightRecordOps h) :
    ∃ r : Record, op.key = r.name := by
  simp only [heightRecordOps, List.mem_cons, List.not_mem_nil, or_false] at hop
  obtain rfl | rfl | rfl | rfl | rfl := hop
  · exact ⟨.update manifestBase h,rfl⟩
  · exact ⟨.root h,rfl⟩
  · exact ⟨.blockHashMeta h,rfl⟩
  · exact ⟨.stateRootMeta h,rfl⟩
  · exact ⟨.update blockHashBase h,rfl⟩

/-- A name that is no record's and no metadata name is not written. -/
theorem LedgerCall.recordOps_ne (c : LedgerCall) (τ : Store) {name : Bytes}
    (hrec : ∀ r : Record, name ≠ r.name) (hmeta : metadataHeight name = none) :
    ∀ op ∈ c.recordOps τ, op.key ≠ name := by
  have hput : ∀ op : Op, (∃ r : Record, op.key = r.name) → op.key ≠ name := by
    rintro op ⟨r,hr⟩ he
    exact hrec r (he.symm.trans hr)
  intro op hop
  cases c with
  | commit h b =>
    rw [recordOps, List.mem_append] at hop
    obtain hop | hop := hop
    · rw [manifestOps] at hop
      split_ifs at hop
      · cases hop
      · rw [List.mem_singleton.mp hop]
        exact hput _ ⟨.update manifestBase h,rfl⟩
    · simp only [List.mem_cons, List.not_mem_nil, or_false] at hop
      obtain rfl | rfl | rfl | rfl := hop
      · exact hput _ ⟨.root h,rfl⟩
      · exact hput _ ⟨.tipHeight,rfl⟩
      · exact hput _ ⟨.update blockHashBase h,rfl⟩
      · exact hput _ ⟨.indexedHeight,rfl⟩
  | rollbackToHeight h =>
    simp only [recordOps, List.mem_append, List.mem_singleton] at hop
    obtain hop | rfl := hop
    · split_ifs at hop
      · cases hop
      · obtain ⟨i,_,hop⟩ := List.mem_flatMap.mp hop
        exact hput _ (heightRecordOps_record hop)
      · obtain ⟨key,hkey,rfl⟩ := List.mem_map.mp hop
        intro he
        have hk := (List.mem_filter.mp hkey).2
        rw [show key = name from he, hmeta] at hk
        cases hk
    · exact hput _ ⟨.indexedHeight,rfl⟩

end Records

namespace Called

/-- What a run keeps: the database holds a ledger whose histories are those of the calls, and the
internal records are also those of the calls without user records. -/
structure Kept (s : Called) (L : Ledger) : Prop where
  store : Represents s.store L
  firm : L.Firm
  histories : ∀ key, L.history key = historyOf key s.calls
  plain : ∀ key, collides key = true → L.history key = []
  records : Represents (recordsOf s.calls) L.records
  nodes : ∀ hash, hash.length = 32 →
    KV.get s.store (smtNodeKey hash) = none ∧ KV.get (recordsOf s.calls) (smtNodeKey hash) = none

theorem Kept.init : init.Kept .empty where
  store := .empty
  firm := .empty
  histories _ := rfl
  plain _ _ := rfl
  records := .empty
  nodes _ _ := ⟨KV.get_empty _,KV.get_empty _⟩

section Step

variable {s : Called} {σ : Store} {L L' : Ledger} {c : LedgerCall}

/-- The records of the nodes stay absent when a call writes records of its own only. -/
private theorem Kept.nodes_next (h : s.Kept L) (hσ : Represents σ L') (hfirm : L'.Firm)
    (hplain : ∀ key, collides key = true → L'.history key = [])
    (hrec : Represents (recordsOf (c::s.calls)) L'.records)
    (hother : ∀ name, (∀ r : Record, name ≠ r.name) → metadataHeight name = none →
      KV.get σ name = KV.get s.store name) {hash : Bytes} (hh : hash.length = 32) :
    KV.get σ (smtNodeKey hash) = none ∧ KV.get (recordsOf (c::s.calls)) (smtNodeKey hash) = none := by
  obtain ⟨h1,h2⟩ := h.nodes hash hh
  have hmeta := metadataHeight_smtNodeKey hash
  obtain ⟨n,_,hsound⟩ := hfirm.sound
  constructor
  · apply hσ.get_smtNodeKey hsound.short hplain hh
    intro hne
    rw [hother _ hne hmeta, h1]
  · apply hrec.get_smtNodeKey hsound.records.short (fun _ _ => rfl) hh
    intro hne
    rw [recordsOf, KV.get_write_of_not_mem (c.recordOps_ne _ hne hmeta), h2]

theorem Kept.commit {height : Nat} {b : Block} (h : s.Kept L) (hh : height < 2^32)
    (hs : s.separates (.commit height b) = true) (hc : commitBlock s.store height b = .ok σ) :
    Kept ⟨σ,.commit height b::s.calls⟩ (L.block height b) := by
  obtain ⟨htip,hkeys⟩ := (Bool.and_eq_true _ _).mp hs
  rw [decide_eq_true_eq, h.firm.getIndexedHeight h.store] at htip
  have hcollide : ∀ kv ∈ b.flush.list, collides kv.1 = false := by
    intro kv hkv
    simpa using List.all_eq_true.mp hkeys kv hkv
  have hplain : ∀ kv ∈ b.flush.list, ¬Reserved kv.1 := by
    intro kv hkv hr
    have hc := hcollide kv hkv
    rw [collides, decide_eq_true hr] at hc
    cases hc
  have hacc : isFreshDb s.store = true ∨ L.indexed.getD 0 < height := by
    obtain ⟨_,_,_,hacc,_⟩ := commitBlock_cases hc
    obtain hfresh | hnext := hacc
    · exact .inl hfresh
    · right
      rw [hnext, saturatingSucc, h.firm.getIndexedHeight h.store]
      omega
  obtain ⟨hrep,hfirm,_⟩ := h.firm.commit h.store hh hacc hplain hc
  have hplain' : ∀ key, collides key = true → (L.block height b).history key = [] := by
    intro key hk
    have hnil : updatesOf key b.flush.list = [] := by
      rw [updatesOf_eq_nil]
      rintro kv hkv rfl
      rw [hcollide kv hkv] at hk
      cases hk
    show L.history key ++ _ = []
    rw [h.plain key hk, hnil]
    rfl
  have hrec := h.records.commitRecords height b
  constructor
  case store => exact hrep
  case firm => exact hfirm
  case histories =>
    intro key
    show L.history key ++ _ = _
    rw [h.histories]
    rfl
  case plain => exact hplain'
  case records => exact hrec
  case nodes =>
    intro hash hlen
    apply h.nodes_next hrep hfirm hplain' hrec _ hlen
    intro name hne _
    apply commitBlock_get hc
    · rintro (⟨kv,_,rfl | ⟨i,rfl⟩⟩ | rfl | rfl | rfl)
      · exact hne (.length kv.1) rfl
      · exact hne (.update kv.1 i) rfl
      · exact hne (.root height) rfl
      · exact hne (.update manifestBase height) rfl
      · exact hne .tipHeight rfl
    · exact hne (.update blockHashBase height)
    · exact hne .indexedHeight

theorem Kept.rollback {r : Nat} (h : s.Kept L) (hr : r < 2^32)
    (hx : (rollbackToHeight r).exec s.store = .ok ((),σ)) :
    ∃ L', Kept ⟨σ,.rollbackToHeight r::s.calls⟩ L' := by
  obtain ⟨L',hrep',hend,hcut,hfirm⟩ := h.firm.rollback h.store hr hx
  obtain ⟨n,hn,hsound⟩ := h.firm.sound
  have hm : getIndexedHeight (recordsOf s.calls) = L.indexed.getD 0 :=
    h.records.readPointer_indexed h.firm.indexed
  have hrec := hend.records h.store hsound hn h.records hm
  have hplain : ∀ key, collides key = true → (L'.setIndexed r).history key = [] := by
    intro key hk
    show L'.history key = []
    rw [hcut, h.plain key hk, upTo_nil]
  refine ⟨L'.setIndexed r,?_⟩
  constructor
  case store => exact hrep'
  case firm => exact hfirm
  case histories =>
    intro key
    show L'.history key = _
    rw [hcut, h.histories]
    rfl
  case plain => exact hplain
  case records => exact hrec
  case nodes =>
    intro hash hlen
    apply h.nodes_next hrep' hfirm hplain hrec _ hlen
    intro name hne hmeta
    have hforeign : Foreign (fun _ => False) name := by
      refine ⟨?_,hmeta⟩
      rintro key (rfl | ⟨i,rfl⟩)
      · exact hne (.length key) rfl
      · exact hne (.update key i) rfl
    apply (rollbackToHeight_foreign (K := fun _ => False) (fun _ hk => hk.elim) hx).2 name hforeign
    · rintro ⟨i,_,op,hop,rfl⟩
      obtain ⟨rec,hrec⟩ := heightRecordOps_record hop
      exact hne rec hrec
    · exact hne .indexedHeight

theorem Kept.step {t : Called} (h : ∃ L, s.Kept L) (hs : s.separates c = true)
    (ht : s.step c = some t) : ∃ L, t.Kept L := by
  obtain ⟨L,h⟩ := h
  rw [Called.step] at ht
  split_ifs at ht with hh
  cases hx : c.exec s.store with
  | error e =>
    rw [hx] at ht
    cases ht
  | ok σ =>
    rw [hx] at ht
    cases ht
    cases c with
    | commit height b => exact ⟨_,h.commit hh hs hx⟩
    | rollbackToHeight r =>
      rw [LedgerCall.exec] at hx
      cases hdone : (rollbackToHeight r).exec s.store with
      | error e =>
        rw [hdone] at hx
        cases hx
      | ok done =>
        rw [hdone] at hx
        cases hx
        exact h.rollback hh hdone

theorem Kept.run (h : Run Called.step (fun s c => s.separates c = true) Called.init s) : ∃ L, s.Kept L := by
  apply h.invariant (I := fun s => ∃ L, s.Kept L) ⟨.empty,Kept.init⟩
  intro s c t hs hc ht
  exact Kept.step hs hc ht

theorem Kept.isolated (h : s.Kept L) : s.Isolated where
  records := by
    rw [← funext h.histories]
    exact h.store.holdsHistories
  internal name hname := by
    cases hname with
    | record hname =>
      have hrec : ∀ r : Record, L.lookup r = L.records.lookup r →
          KV.get s.store r.name = KV.get (recordsOf s.calls) r.name := by
        intro r hr
        rw [h.store, h.records, hr]
      cases hname with
      | root i => exact hrec (.root i) rfl
      | manifest i => exact hrec (.update manifestBase i) rfl
      | blockHash i => exact hrec (.update blockHashBase i) rfl
      | blockHashMeta i => exact hrec (.blockHashMeta i) rfl
      | stateRootMeta i => exact hrec (.stateRootMeta i) rfl
      | tipHeight => exact hrec .tipHeight rfl
      | indexedHeight => exact hrec .indexedHeight rfl
    | node hh =>
      obtain ⟨h1,h2⟩ := h.nodes _ hh
      rw [h1, h2]

end Step

/-- Two runs that make the same updates of a key read it the same. -/
theorem Kept.sameKeyReads {s t : Called} {L L' : Ledger} (hs : s.Kept L) (ht : t.Kept L') {key : Bytes}
    (he : historyOf key s.calls = historyOf key t.calls) :
    SameKeyReads key (rocksDB s.store) (rocksDB t.store) := by
  apply hs.isolated.records.sameKeyReads ht.isolated.records he
  intro hr
  rw [← hs.histories]
  apply hs.plain
  rw [collides, decide_eq_true hr, Bool.true_or]

/-- The record names of a key are its own exactly when the key does not collide; and as long as no
colliding key is committed, nor anything on the highest tip, every key reads as its own updates say
and no user record changes an internal one, through commits and both rollbacks. -/
theorem namespaces_isolated (key : Bytes) : (NamesApart key ↔ collides key = false) ∧
    ∀ s, Run Called.step (fun s c => s.separates c = true) Called.init s → s.Isolated ∧
      ∀ t, Run Called.step (fun s c => s.separates c = true) Called.init t →
        historyOf key s.calls = historyOf key t.calls →
          SameKeyReads key (rocksDB s.store) (rocksDB t.store) := by
  refine ⟨namesApart_iff key,?_⟩
  intro s hs
  obtain ⟨L,hL⟩ := Kept.run hs
  refine ⟨hL.isolated,?_⟩
  intro t ht he
  obtain ⟨L',hL'⟩ := Kept.run ht
  exact hL.sameKeyReads hL' he

/-- Keys named like the records of another key, through a fast rollback and, after a block without
keys, a slow one. -/
theorem namespaces_isolated_two_runs :
    ∃ s t, Run Called.step (fun s c => s.separates c = true) Called.init s ∧
      Run Called.step (fun s c => s.separates c = true) Called.init t ∧ s.Isolated ∧
      SameKeyReads (ascii "a") (rocksDB s.store) (rocksDB t.store) ∧
      getAtHeight (rocksDB s.store) (ascii "a") 2 = .ok (some [1]) := by
  let block (list : List (Bytes × Bytes)) (h : list.length < 2^32 ∧ ∀ kv ∈ list, kv.1.length < 2^32) :
      Block := ⟨⟨list,h⟩,[1],[2]⟩
  let first := block [(ascii "a",[1]),(ascii "a/length",[2])] (by decide)
  let second := block [(ascii "a/0",[3])] (by decide)
  let calls : List LedgerCall := [.commit 0 first,.commit 1 second,.rollbackToHeight 0,
    .commit 1 (block [] (by decide)),.commit 2 second,.rollbackToHeight 0]
  let calls' : List LedgerCall := [.commit 0 (block [(ascii "a",[1])] (by decide))]
  have hrun : (follow Called.step (fun s c => s.separates c = true) Called.init calls).any
      (fun s => getAtHeight (rocksDB s.store) (ascii "a") 2 == .ok (some [1]) &&
        historyOf (ascii "a") s.calls == [(0,[1])]) = true := by decide +kernel
  have hrun' : (follow Called.step (fun s c => s.separates c = true) Called.init calls').any
      (fun s => historyOf (ascii "a") s.calls == [(0,[1])]) = true := by decide +kernel
  obtain ⟨s,hs,hp⟩ := Run.exists_of_follow (fun _ _ _ h => h) hrun
  obtain ⟨t,ht,hq⟩ := Run.exists_of_follow (fun _ _ _ h => h) hrun'
  obtain ⟨hread,hhist⟩ := (Bool.and_eq_true _ _).mp hp
  obtain ⟨hiso,hsame⟩ := (namespaces_isolated (ascii "a")).2 s hs
  refine ⟨s,t,hs,ht,hiso,?_,eq_of_beq hread⟩
  apply hsame t ht
  rw [eq_of_beq hhist, eq_of_beq hq]

/-- A block that writes a key called like the block hash records twice puts a hash record at the
height above it. -/
theorem namespaces_collide : ¬NamesApart blockHashBase ∧
    ∃ s, Run Called.step (fun _ _ => True) Called.init s ∧ ¬s.Isolated := by
  have hcollides : collides blockHashBase = true := by decide
  constructor
  · rw [namesApart_iff, hcollides]
    simp
  · let calls : List LedgerCall :=
      [.commit 0 ⟨⟨[(blockHashBase,[1]),(blockHashBase,[2])],by decide⟩,[1],[2]⟩]
    have hrun : (follow Called.step (fun _ _ => True) Called.init calls).any
        (fun s => KV.get s.store (blockHashKey 1) != KV.get (recordsOf s.calls) (blockHashKey 1)) = true := by
      decide +kernel
    obtain ⟨s,hs,hne⟩ := Run.exists_of_follow (fun _ _ _ h => h) hrun
    refine ⟨s,hs,fun hiso => ?_⟩
    rw [hiso.internal _ (.record (.blockHash 1))] at hne
    simp at hne

end Called

end Metashrew
