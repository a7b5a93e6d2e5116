import Metashrew.Guest.Memory
import Metashrew.Lib.Abides
import Metashrew.Lib.Nested

namespace Metashrew

open KV

/-- What is done through an `AtomicPointer` or one derived from it, at a key of its own, and a plain
`set`. A commit visits its hash map in some order. -/
inductive AtomicOp where
  | set (key value : Bytes)
  | get (key : Bytes)
  | checkpoint
  | commit (order : VisitOrder Bytes Bytes)
  | rollback
  | write (key value : Bytes)

/-- The checkpoints that derived pointers share, the innermost first, over the guest's memory. -/
structure AtomicPointer where
  checkpoints : List Store
  memory : GuestMemory

namespace AtomicPointer

def default (memory : GuestMemory) : AtomicPointer := ⟨[∅],memory⟩

/-- The innermost checkpoint that holds the key, else the guest's memory. -/
def read (host : Bytes → Bytes) (p : AtomicPointer) (key : Bytes) : Bytes :=
  match p.checkpoints.findSome? fun map => KV.get map key with
  | some value => value
  | none => p.memory.read host key

def get (host : Bytes → Bytes) (p : AtomicPointer) (key : Bytes) : AtomicPointer :=
  match p.checkpoints.findSome? fun map => KV.get map key with
  | some _ => p
  | none => { p with memory := p.memory.get host key }

def pipeTo (order : VisitOrder Bytes Bytes) (source target : Store) : Store :=
  KV.write target (KV.puts (order.visit source))

/-- One operation; none is a panic. -/
def step (host : Bytes → Bytes) (p : AtomicPointer) : AtomicOp → Option AtomicPointer
  | .set key value =>
    match p.checkpoints with
    | [] => none
    | map::outer => some { p with checkpoints := map.insert key value::outer }
  | .get key => some (p.get host key)
  | .checkpoint => some { p with checkpoints := ∅::p.checkpoints }
  | .commit order =>
    match p.checkpoints with
    | [] => none  -- commit() called without checkpoints in memory
    | [map] => some { p with memory := p.memory.setAll (order.visit map) }
    | map::target::rest => some { p with checkpoints := pipeTo order map target::rest }
  | .rollback => some { p with checkpoints := p.checkpoints.drop 1 }
  | .write key value => some { p with memory := p.memory.set key value }

/-- Some checkpoint holds a write of the key. -/
def Pending (p : AtomicPointer) (key : Bytes) : Prop :=
  ∃ map ∈ p.checkpoints, KV.get map key ≠ none

end AtomicPointer

/-- The nested transactions that the pointers stand for, over the guest's memory. -/
structure NestedPointer where
  log : Nested.Log Bytes Bytes
  memory : GuestMemory

namespace NestedPointer

def default (memory : GuestMemory) : NestedPointer := ⟨.empty,memory⟩

def read (host : Bytes → Bytes) (p : NestedPointer) (key : Bytes) : Bytes :=
  (p.log.pending key).getD (p.memory.read host key)

/-- One operation; the store gets each write of the base when the base is committed. -/
def step (host : Bytes → Bytes) (p : NestedPointer) : AtomicOp → NestedPointer
  | .set key value => { p with log := p.log.set key value }
  | .get key =>
    match p.log.pending key with
    | some _ => p
    | none => { p with memory := p.memory.get host key }
  | .checkpoint => { p with log := p.log.checkpoint }
  | .commit order => ⟨p.log.commit.1,p.memory.setAll (order.visit p.log.commit.2)⟩
  | .rollback => { p with log := p.log.rollback }
  | .write key value => { p with memory := p.memory.set key value }

/-- At the base, the operations that the pointer has no level for: a rollback, and a commit of
writes. -/
def Slips (p : NestedPointer) : AtomicOp → Prop
  | .commit _ => p.log.opened = [] ∧ p.log.base ≠ ∅
  | .rollback => p.log.opened = []
  | _ => False

end NestedPointer

/-- The pointer reads, holds back and has written what the nested transactions say, and no operation
on it panics. -/
structure AtomicPointer.Nests (host : Bytes → Bytes) (p : AtomicPointer) (n : NestedPointer) :
    Prop where
  reads : ∀ key, p.read host key = n.read host key
  pending : ∀ key, p.Pending key ↔ n.log.pending key ≠ none
  memory : p.memory = n.memory
  live : ∀ op, p.step host op ≠ none

/-- What an operation returns: the value, for a read. -/
def AtomicOp.answer (read : Bytes → Bytes) : AtomicOp → Option Bytes
  | .get key => some (read key)
  | _ => none

def AtomicPointer.act (host : Bytes → Bytes) (p : AtomicPointer) (op : AtomicOp) :
    Option (AtomicPointer × Option Bytes) :=
  (p.step host op).map fun p' => (p',op.answer (p.read host))

def NestedPointer.act (host : Bytes → Bytes) (n : NestedPointer) (op : AtomicOp) :
    NestedPointer × Option Bytes := (n.step host op,op.answer (n.read host))

namespace AtomicPointer

variable {host : Bytes → Bytes} {p p' : AtomicPointer} {n : NestedPointer} {op : AtomicOp}

/-- The checkpoints are the levels of the log. -/
structure Mirrors (p : AtomicPointer) (n : NestedPointer) : Prop where
  levels : p.checkpoints = n.log.levels
  memory : p.memory = n.memory

theorem default_mirrors (memory : GuestMemory) :
    (default memory).Mirrors (NestedPointer.default memory) := ⟨rfl,rfl⟩

namespace Mirrors

theorem checkpoints_ne_nil (h : p.Mirrors n) : p.checkpoints ≠ [] := by
  rw [h.levels, Nested.Log.levels]
  simp

theorem read_eq (h : p.Mirrors n) (key : Bytes) : p.read host key = n.read host key := by
  rw [AtomicPointer.read, NestedPointer.read, Nested.Log.pending, h.levels, h.memory]
  cases n.log.levels.findSome? fun map => KV.get map key <;> rfl

theorem nests (h : p.Mirrors n) : p.Nests host n where
  reads := h.read_eq
  pending key := by
    rw [Pending, Nested.Log.pending, h.levels, Ne, List.findSome?_eq_none_iff]
    push Not
    rfl
  memory := h.memory
  live op := by
    obtain ⟨map,rest,he⟩ := List.exists_cons_of_ne_nil h.checkpoints_ne_nil
    cases op with
    | commit order => cases rest <;> simp [step, he]
    | _ => simp [step, he]

/-- An operation that does not slip does what it does on the log. -/
theorem step (h : p.Mirrors n) (host : Bytes → Bytes) (hs : ¬n.Slips op) :
    ∃ p', p.step host op = some p' ∧ p'.Mirrors (n.step host op) := by
  obtain ⟨hlevels,hmemory⟩ := h
  obtain ⟨⟨base,opened⟩,_⟩ := n
  obtain ⟨checkpoints,held⟩ := p
  dsimp only [Nested.Log.levels] at hlevels hmemory
  subst hlevels hmemory
  cases op with
  | set key value =>
    cases opened with
    | nil => exact ⟨_,rfl,rfl,rfl⟩
    | cons map outer => exact ⟨_,rfl,rfl,rfl⟩
  | get key =>
    refine ⟨_,rfl,?_,?_⟩
    · rw [AtomicPointer.get, NestedPointer.step]
      dsimp only [Nested.Log.pending, Nested.Log.levels]
      split <;> simp_all
    · rw [AtomicPointer.get, NestedPointer.step]
      dsimp only [Nested.Log.pending, Nested.Log.levels]
      split <;> simp_all
  | checkpoint => exact ⟨_,rfl,rfl,rfl⟩
  | commit order =>
    cases opened with
    | nil =>
      -- nothing to commit
      have hbase : base = ∅ := by
        by_contra hne
        exact hs ⟨rfl,hne⟩
      subst hbase
      exact ⟨_,rfl,rfl,rfl⟩
    | cons map outer =>
      have hpipe : ∀ target, pipeTo order map target = KV.write target (KV.puts map.toList) :=
        fun target => VisitOrder.write_visit order .sorted target map
      have hempty : order.visit ∅ = [] := (order.perm ∅).eq_nil
      cases outer with
      | nil =>
        refine ⟨_,rfl,?_,?_⟩
        · show [pipeTo order map base] = _
          rw [hpipe]
          rfl
        · show held = held.setAll (order.visit ∅)
          rw [hempty]
          rfl
      | cons target rest =>
        refine ⟨_,rfl,?_,?_⟩
        · show pipeTo order map target::(rest ++ [base]) = _
          rw [hpipe]
          rfl
        · show held = held.setAll (order.visit ∅)
          rw [hempty]
          rfl
  | rollback =>
    cases opened with
    | nil => exact absurd rfl hs
    | cons map outer => exact ⟨_,rfl,rfl,rfl⟩
  | write key value => exact ⟨_,rfl,rfl,rfl⟩

/-- After a slip the base is gone, or it still holds what has been committed. -/
theorem slip (h : p.Mirrors n) (hs : n.Slips op) (hp : p.step host op = some p') :
    ¬p'.Nests host (n.step host op) := by
  obtain ⟨hlevels,hmemory⟩ := h
  obtain ⟨⟨base,opened⟩,_⟩ := n
  obtain ⟨checkpoints,held⟩ := p
  dsimp only [Nested.Log.levels] at hlevels hmemory
  subst hlevels hmemory
  intro hn
  cases op with
  | commit order =>
    obtain ⟨hopened,hbase⟩ := hs
    dsimp only at hopened hbase
    subst hopened
    cases hp
    -- a key of the base is still held back
    have hkey : ∃ key, KV.get base key ≠ none := by
      by_contra hnone
      push Not at hnone
      apply hbase
      apply Std.ExtTreeMap.ext_getElem?
      intro key
      show KV.get base key = KV.get ∅ key
      rw [hnone key, KV.get_empty]
    obtain ⟨key,hkey⟩ := hkey
    apply (hn.pending key).mp ⟨base,List.mem_singleton_self base,hkey⟩
    show List.findSome? (fun map => KV.get map key) [(∅ : Store)] = none
    simp
  | rollback =>
    have hopened : opened = [] := hs
    subst hopened
    cases hp
    exact hn.live (.set [] []) rfl
  | set key value => exact hs
  | get key => exact hs
  | checkpoint => exact hs
  | write key value => exact hs

end Mirrors

theorem Mirrors.act (h : p.Mirrors n) (hs : ¬n.Slips op) :
    ∃ p', p.act host op = some (p',(n.act host op).2) ∧ p'.Mirrors (n.act host op).1 := by
  obtain ⟨p',hp,hm⟩ := h.step host hs
  have hread : p.read host = n.read host := funext h.read_eq
  refine ⟨p',?_,hm⟩
  rw [AtomicPointer.act, hp, hread]
  rfl

end AtomicPointer

/-- A pointer is the nested log exactly along the sequences that neither roll back nor commit writes
at its base. -/
theorem atomic_pointer_nests_iff (host : Bytes → Bytes) (memory : GuestMemory)
    (ops : List AtomicOp) :
    Abides.AgreesAlong (AtomicPointer.act host) (NestedPointer.act host) (AtomicPointer.Nests host)
        (.default memory) (.default memory) ops ↔
      Abides.Along (NestedPointer.act host) (fun n op => ¬n.Slips op) (.default memory) ops := by
  apply Abides.agreesAlong_iff AtomicPointer.Mirrors fun _ _ => True
  · intro p n h
    exact h.nests
  · intro p n op h _ hs
    exact h.act hs
  · intro p n op p' h _ hs hp
    rw [AtomicPointer.act, Option.map_eq_some_iff] at hp
    obtain ⟨q,hq,he⟩ := hp
    rw [(Prod.mk.inj he).1] at hq
    exact h.slip hs hq
  · exact AtomicPointer.default_mirrors memory
  · exact Abides.Along.of_forall (fun _ _ => trivial) ops

/-- A value that is committed at the base hides a later write of its key. -/
theorem atomic_pointer_stale_base :
    ¬∀ ops, Abides.AgreesAlong (AtomicPointer.act fun _ => []) (NestedPointer.act fun _ => [])
      (AtomicPointer.Nests fun _ => []) (.default ⟨∅,[]⟩) (.default ⟨∅,[]⟩) ops := by
  intro h
  obtain ⟨_,p1,h1,_,p2,h2,_,p3,h3,hn⟩ := h [.set [1] [2],.commit .sorted,.write [1] [3]]
  cases h1
  cases h2
  cases h3
  have hr := hn.reads [1]
  revert hr
  decide +kernel

end Metashrew
