import Metashrew.Ledger.Run
import Metashrew.Lib.Reading
import Metashrew.Lib.Steps

namespace Metashrew

open Bytes Durable

/-- A lookup of the append-only store, one store read after the other. -/
abbrev Lookup := Reading Bytes Bytes (Except Fault (Option Bytes))

def updateAnswer (height mid : Nat) : Option Bytes → Except Fault (Option Bytes)
  | some updateData => decodeUpdate height updateData
  | none => .error (.message s!"Missing update at index {mid}")

def bisectReads (key : Bytes) (height : Nat) : Nat → Nat → Nat → Option Bytes → Lookup
  | 0, _, _, best => .done (.ok best)
  | fuel+1, left, right, best =>
    if left < right then
      match midpoint left right with
      | .error e => .done (.error e)
      | .ok mid => .ask (updateKey key mid) fun updateData =>
        match updateAnswer height mid updateData with
        | .error e => .done (.error e)
        | .ok (some value) => bisectReads key height fuel (mid+1) right (some value)
        | .ok none => bisectReads key height fuel left mid best
    else .done (.ok best)

/-- What follows the read of the length record. -/
def searchAfterLength (key : Bytes) (height : Nat) : Option Bytes → Lookup
  | none => .done (.ok none)
  | some lengthBytes =>
    let length := parseLength lengthBytes
    if length = 0 then .done (.ok none) else bisectReads key height length 0 length none

/-- `get_at_height` as a sequence of store reads. -/
def searchReads (key : Bytes) (height : Nat) : Lookup :=
  .ask (lengthKey key) (searchAfterLength key height)

private theorem run_bisectReads (σ : Store) (key : Bytes) (height : Nat) :
    ∀ fuel left right best, (bisectReads key height fuel left right best).run (KV.get σ) =
      Search.bisect midpoint (readUpdate (rocksDB σ) key height) fuel left right best := by
  intro fuel
  induction fuel with
  | zero =>
    intro left right best
    rfl
  | succ fuel ih =>
    intro left right best
    rw [bisectReads, Search.bisect]
    split_ifs with hlt
    · cases midpoint left right with
      | error e => rfl
      | ok mid =>
        have hread : readUpdate (rocksDB σ) key height mid =
            updateAnswer height mid (KV.get σ (updateKey key mid)) := by
          show (match KV.get σ (updateKey key mid) with
            | some updateData => decodeUpdate height updateData
            | none => Except.error (Fault.message s!"Missing update at index {mid}")) = _
          cases KV.get σ (updateKey key mid) <;> rfl
        simp only [Reading.run, hread]
        cases updateAnswer height mid (KV.get σ (updateKey key mid)) with
        | error e => rfl
        | ok o =>
          cases o with
          | none => exact ih left mid best
          | some value => exact ih (mid+1) right (some value)
    · rfl

theorem run_searchAfterLength (σ : Store) (key : Bytes) (height : Nat) :
    (searchAfterLength key height (KV.get σ (lengthKey key))).run (KV.get σ) =
      searchUpdates (rocksDB σ) key height := by
  show _ = (match KV.get σ (lengthKey key) with
    | none => Except.ok none
    | some lengthBytes =>
      if parseLength lengthBytes = 0 then .ok none
      else Search.bisect midpoint (readUpdate (rocksDB σ) key height) (parseLength lengthBytes) 0
        (parseLength lengthBytes) none)
  cases KV.get σ (lengthKey key) with
  | none => rfl
  | some lengthBytes =>
    simp only [searchAfterLength]
    split_ifs with hzero
    · rfl
    · exact run_bisectReads σ key height _ 0 _ none

/-- With one store for all reads it is the lookup of the source. -/
theorem run_searchReads (σ : Store) (key : Bytes) (height : Nat) :
    (searchReads key height).run (KV.get σ) = getAtHeight (rocksDB σ) key height :=
  run_searchAfterLength σ key height

private theorem asked_bisectReads (σ : Store) (key : Bytes) (height : Nat) :
    ∀ fuel left right best, ∀ name ∈ (bisectReads key height fuel left right best).asked (KV.get σ),
      ∃ i < right, name = updateKey key i := by
  intro fuel
  induction fuel with
  | zero =>
    intro left right best name hname
    cases hname
  | succ fuel ih =>
    intro left right best name hname
    rw [bisectReads] at hname
    split_ifs at hname with hlt
    · cases hmid : midpoint left right with
      | error e =>
        rw [hmid] at hname
        cases hname
      | ok mid =>
        have hlow : mid < right := by
          rw [midpoint, addU32] at hmid
          split_ifs at hmid
          · cases hmid
            omega
          · cases hmid
        simp only [hmid, Reading.asked, List.mem_cons] at hname
        rcases hname with rfl | hname
        · exact ⟨mid,hlow,rfl⟩
        · cases hval : updateAnswer height mid (KV.get σ (updateKey key mid)) with
          | error e =>
            rw [hval] at hname
            cases hname
          | ok o =>
            rw [hval] at hname
            cases o with
            | none =>
              obtain ⟨i,hi,rfl⟩ := ih left mid best name hname
              exact ⟨i,by omega,rfl⟩
            | some value => exact ih (mid+1) right (some value) name hname
    · cases hname

/-- After the length record a lookup asks for update records below that length only. -/
theorem asked_searchAfterLength {σ : Store} {key name : Bytes} {height : Nat}
    (hname : name ∈ (searchAfterLength key height (KV.get σ (lengthKey key))).asked (KV.get σ)) :
    ∃ lengthBytes, KV.get σ (lengthKey key) = some lengthBytes ∧
      ∃ i < parseLength lengthBytes, name = updateKey key i := by
  cases hlen : KV.get σ (lengthKey key) with
  | none =>
    rw [hlen] at hname
    cases hname
  | some lengthBytes =>
    refine ⟨lengthBytes,rfl,?_⟩
    simp only [hlen, searchAfterLength] at hname
    split_ifs at hname
    · cases hname
    · exact asked_bisectReads σ key height _ 0 _ none name hname

/-- A host call of the view and the store reads it still has to make. `sized` is empty in `__get_len`;
in `__get` it is what the call of `__get_len` before it has looked up. -/
structure HostCall where
  key : Bytes
  sized : Option (Except Fault (Option Bytes))
  reads : Lookup

/-- A completed get of the guest, with what its two host calls have looked up. -/
structure Got where
  key : Bytes
  sized : Except Fault (Option Bytes)
  fetched : Except Fault (Option Bytes)

/-- The bytes a host call takes from a lookup; an error is an empty value to it. -/
def hostValue : Except Fault (Option Bytes) → Bytes
  | .ok (some value) => value
  | .ok none => []
  | .error _ => []

/-- The result of `__get_len`: the guest uses the 32 bits as the size of its buffer. -/
def Got.reported (g : Got) : Nat := (hostValue g.sized).length%2^32

/-- The bytes that `__get` writes. -/
def Got.written (g : Got) : Bytes := hostValue g.fetched

/-- A view at a height: the keys it goes on to get, the host call in progress, and its gets so far. -/
structure View where
  height : Nat
  todo : List Bytes
  call : Option HostCall
  got : List Got

namespace View

/-- The next step of the view. A host call begins with the read of the length record. -/
def read (σ : Store) (v : View) : Option View :=
  match v.call with
  | none =>
    match v.todo with
    | [] => none
    | key::todo => some { v with
        todo
        call := some ⟨key,none,searchAfterLength key v.height (KV.get σ (lengthKey key))⟩ }
  | some ⟨key,sized,.ask name next⟩ =>
    some { v with call := some ⟨key,sized,next (KV.get σ name)⟩ }
  | some ⟨key,none,.done r⟩ => some { v with
      call := some ⟨key,some r,searchAfterLength key v.height (KV.get σ (lengthKey key))⟩ }
  | some ⟨key,some sized,.done r⟩ => some { v with call := none, got := v.got ++ [⟨key,sized,r⟩] }

/-- The keys of which the view still reads records. -/
def coming (v : View) : List Bytes := (v.call.map HostCall.key).toList ++ v.todo

/-- The view has read a record. -/
def begun (v : View) : Bool := v.call.isSome || !v.got.isEmpty

end View

/-- An unfinished rollback: its target and the states that its next writes lead to. -/
structure Unfinished where
  target : Nat
  next : Store
  later : List Store

/-- The database under the indexer and one view. `chains` are the states of the committed chain so
far, the last one first; during a rollback its head is the state from which it started. -/
structure Server where
  store : Store
  chains : List Store
  rollback : Option Unfinished
  view : Option View

namespace Server

def init : Server := ⟨∅,[∅],none,none⟩

inductive Action where
  | commit (height : Nat) (b : Block)
  | beginRollback (height : Nat)
  | rollbackWrite
  | startView (height : Nat) (keys : List Bytes)
  | viewRead

/-- The indexer commits and rolls back in turn, the view reads at any time. -/
def step (s : Server) : Action → Option Server
  | .commit height b =>
    match s.rollback, commitBlock s.store height b with
    | none, .ok σ => if height < 2^32 then some { s with store := σ, chains := σ::s.chains } else none
    | _, _ => none
  | .beginRollback height =>
    match s.rollback, ((rollbackToHeight height).run s.store).states with
    | none, σ::σs => if height < 2^32 then some { s with rollback := some ⟨height,σ,σs⟩ } else none
    | _, _ => none
  | .rollbackWrite =>
    match s.rollback with
    | none => none
    | some ⟨_,σ,[]⟩ => some { s with store := σ, chains := σ::s.chains, rollback := none }
    | some ⟨height,σ,σ'::σs⟩ => some { s with store := σ, rollback := some ⟨height,σ',σs⟩ }
  | .startView height keys =>
    if s.view.all (fun v => v.coming.isEmpty) ∧ height ≤ getIndexedHeight s.store then
      some { s with view := some ⟨height,keys,none,[]⟩ }
    else none
  | .viewRead => s.view.bind fun v => (v.read s.store).map fun v' => { s with view := some v' }

/-- The view reads one state: its gets have found the values of one committed chain state, and every
`__get` has written what `__get_len` reported. -/
def ViewConsistent (s : Server) : Prop :=
  ∀ v, s.view = some v → ∃ chain ∈ s.chains, ∀ g ∈ v.got,
    (∃ o, getAtHeight (rocksDB chain) g.key v.height = .ok o ∧ g.sized = .ok o ∧ g.fetched = .ok o) ∧
      g.written.length = g.reported

end Server

end Metashrew
