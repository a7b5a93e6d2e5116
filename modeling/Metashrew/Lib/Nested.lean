import Metashrew.Lib.Visits

namespace Nested

variable {κ ν : Type*} [Ord κ] [Std.TransOrd κ]

/-- A log of nested transactions: the writes that no transaction holds, and those of the open
transactions, the innermost first. -/
structure Log (κ ν : Type*) [Ord κ] where
  base : KV.Store κ ν
  opened : List (KV.Store κ ν)

namespace Log

def empty : Log κ ν := ⟨∅,[]⟩

/-- All levels, the innermost first. -/
def levels (l : Log κ ν) : List (KV.Store κ ν) := l.opened ++ [l.base]

/-- The innermost write of a key that is not committed. -/
def pending (l : Log κ ν) (k : κ) : Option ν := l.levels.findSome? fun level => KV.get level k

def set (l : Log κ ν) (k : κ) (v : ν) : Log κ ν :=
  match l.opened with
  | [] => { l with base := l.base.insert k v }
  | level::outer => { l with opened := level.insert k v::outer }

def checkpoint (l : Log κ ν) : Log κ ν := { l with opened := ∅::l.opened }

/-- Drops the writes since the last open checkpoint, or all of them when there is none. -/
def rollback (l : Log κ ν) : Log κ ν :=
  match l.opened with
  | [] => { l with base := ∅ }
  | _::outer => { l with opened := outer }

/-- The log after a commit of its innermost level, and what the commit hands to the store: the
writes of the base, when no transaction is open. -/
def commit (l : Log κ ν) : Log κ ν × KV.Store κ ν :=
  match l.opened with
  | [] => (empty,l.base)
  | [level] => (⟨KV.write l.base (KV.puts level.toList),[]⟩,∅)
  | level::outer::rest => (⟨l.base,KV.write outer (KV.puts level.toList)::rest⟩,∅)

end Log

end Nested
