import Metashrew.Lib.Visits
import Metashrew.Runtime.Smt

namespace Metashrew

/-- The statics of the guest library: the values read or set so far, and the keys that were set, in
order. -/
structure GuestMemory where
  cache : Store
  toFlush : List Bytes

namespace GuestMemory

/-- What `get` returns; the host answers for a key that is not cached. -/
def read (host : Bytes → Bytes) (m : GuestMemory) (key : Bytes) : Bytes :=
  (KV.get m.cache key).getD (host key)

/-- A value that the host has answered is cached. -/
def get (host : Bytes → Bytes) (m : GuestMemory) (key : Bytes) : GuestMemory :=
  match KV.get m.cache key with
  | some _ => m
  | none => { m with cache := m.cache.insert key (host key) }

def set (m : GuestMemory) (key value : Bytes) : GuestMemory where
  cache := m.cache.insert key value
  toFlush := m.toFlush ++ [key]

def setAll (m : GuestMemory) (entries : List (Bytes × Bytes)) : GuestMemory :=
  entries.foldl (fun m e => m.set e.1 e.2) m

/-- The pairs handed to the host: every key that was set, with its value now. A key without a value
is a panic. -/
def flushed (m : GuestMemory) : Option (List (Bytes × Bytes)) :=
  m.toFlush.mapM fun key => (KV.get m.cache key).map fun value => (key,value)

end GuestMemory

end Metashrew
