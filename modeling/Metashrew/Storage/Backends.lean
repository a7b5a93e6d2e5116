import Metashrew.Lib.Overlay
import Metashrew.Runtime.Smt

namespace Metashrew

open Bytes

abbrev Shadow := KV.Overlay Bytes Bytes

/-- What storage handles share; an `Arc` is a place in one of the lists. Hash maps are kept in key
order, which their iteration does not promise. -/
structure Heap where
  dbs : List Store
  maps : List Store
  shadows : List Shadow

namespace Heap

def db (σ : Heap) (i : Nat) : Store := σ.dbs.getD i ∅
def map (σ : Heap) (i : Nat) : Store := σ.maps.getD i ∅
def shadow (σ : Heap) (i : Nat) : Shadow := σ.shadows.getD i ∅

def writeDb (σ : Heap) (i : Nat) (ops : List Op) : Heap :=
  { σ with dbs := σ.dbs.modify i fun db => KV.write db ops }

def writeMap (σ : Heap) (i : Nat) (ops : List Op) : Heap :=
  { σ with maps := σ.maps.modify i fun db => KV.write db ops }

def writeShadow (σ : Heap) (i : Nat) (ops : List Op) : Heap :=
  { σ with shadows := σ.shadows.modify i fun shadow => shadow.apply ops }

end Heap

/-- The key behind the process-wide label; no label is the empty one. -/
def makeLabeledKey (label key : Bytes) : Bytes := label ++ key

def labelOp (label : Bytes) : Op → Op
  | .put key value => .put (makeLabeledKey label key) value
  | .delete key => .delete (makeLabeledKey label key)

/-- A batch of RocksDB labels each key when it is added. -/
def rocksDBBatch (label : Bytes) (ops : List Op) : List Op := ops.map (labelOp label)

structure RocksDBRuntimeAdapter where
  db : Nat
  forkDb : Option Nat
  height : Nat
  writeShadow : Option Nat
  deriving DecidableEq, Repr

namespace RocksDBRuntimeAdapter

def getImmutable (label : Bytes) (a : RocksDBRuntimeAdapter) (σ : Heap) (key : Bytes) :
    Option Bytes :=
  let labeledKey := makeLabeledKey label key
  match a.writeShadow.bind fun s => KV.get (σ.shadow s) labeledKey with
  | some opt => opt
  | none =>
    match KV.get (σ.db a.db) labeledKey with
    | some value => some value
    | none => a.forkDb.bind fun f => KV.get (σ.db f) labeledKey

/-- The forked database is not scanned. -/
def scanPrefix (label : Bytes) (a : RocksDBRuntimeAdapter) (σ : Heap) (pre : Bytes) :
    List (Bytes × Bytes) :=
  let prefixBytes := makeLabeledKey label pre
  let results := KV.seekPrefix prefixBytes (σ.db a.db).toList
  match a.writeShadow with
  | some s => (σ.shadow s).merge (fun key => prefixBytes.isPrefixOf key) results
  | none => results

def keys (a : RocksDBRuntimeAdapter) (σ : Heap) : List Bytes :=
  match a.writeShadow with
  | some s => (σ.shadow s).mergeKeys (σ.db a.db).keys
  | none => (σ.db a.db).keys

def put (label : Bytes) (a : RocksDBRuntimeAdapter) (σ : Heap) (key value : Bytes) : Heap :=
  let labeledKey := makeLabeledKey label key
  match a.writeShadow with
  | some s => σ.writeShadow s [.put labeledKey value]
  | none => σ.writeDb a.db [.put labeledKey value]

def delete (label : Bytes) (a : RocksDBRuntimeAdapter) (σ : Heap) (key : Bytes) : Heap :=
  let labeledKey := makeLabeledKey label key
  match a.writeShadow with
  | some s => σ.writeShadow s [.delete labeledKey]
  | none => σ.writeDb a.db [.delete labeledKey]

def createAtomicBatch (label : Bytes) (a : RocksDBRuntimeAdapter) (operations : List Op) :
    Except Fault (List Op) := do
  let tip ← addU32 a.height 1
  return .put (makeLabeledKey label tipHeightKey) (u32le tip)::operations

def write (label : Bytes) (a : RocksDBRuntimeAdapter) (σ : Heap) (batch : List Op) :
    Except Fault Heap :=
  match a.writeShadow with
  | some s => .ok (σ.writeShadow s batch)
  | none => do
    let atomicBatch ← a.createAtomicBatch label batch
    return σ.writeDb a.db atomicBatch

/-- The same databases with an empty shadow of its own. -/
def createIsolatedCopy (a : RocksDBRuntimeAdapter) (σ : Heap) : RocksDBRuntimeAdapter × Heap :=
  ({ a with writeShadow := some σ.shadows.length }, { σ with shadows := σ.shadows ++ [∅] })

end RocksDBRuntimeAdapter

structure LegacyRocksDBRuntimeAdapter where
  db : Nat
  forkDb : Option Nat
  height : Nat
  deriving DecidableEq, Repr

namespace LegacyRocksDBRuntimeAdapter

def getImmutable (label : Bytes) (a : LegacyRocksDBRuntimeAdapter) (σ : Heap) (key : Bytes) :
    Option Bytes :=
  let labeledKey := makeLabeledKey label key
  match KV.get (σ.db a.db) labeledKey with
  | some value => some value
  | none => a.forkDb.bind fun f => KV.get (σ.db f) labeledKey

def scanPrefix (label : Bytes) (a : LegacyRocksDBRuntimeAdapter) (σ : Heap) (pre : Bytes) :
    List (Bytes × Bytes) :=
  KV.seekPrefix (makeLabeledKey label pre) (σ.db a.db).toList

def keys (a : LegacyRocksDBRuntimeAdapter) (σ : Heap) : List Bytes := (σ.db a.db).keys

def put (label : Bytes) (a : LegacyRocksDBRuntimeAdapter) (σ : Heap) (key value : Bytes) : Heap :=
  σ.writeDb a.db [.put (makeLabeledKey label key) value]

def delete (label : Bytes) (a : LegacyRocksDBRuntimeAdapter) (σ : Heap) (key : Bytes) : Heap :=
  σ.writeDb a.db [.delete (makeLabeledKey label key)]

/-- Without a record of the height. -/
def write (a : LegacyRocksDBRuntimeAdapter) (σ : Heap) (batch : List Op) : Heap :=
  σ.writeDb a.db batch

end LegacyRocksDBRuntimeAdapter

inductive ForkAdapter where
  | modern (adapter : RocksDBRuntimeAdapter)
  | legacy (adapter : LegacyRocksDBRuntimeAdapter)
  deriving DecidableEq, Repr

namespace ForkAdapter

def getImmutable (label : Bytes) : ForkAdapter → Heap → Bytes → Option Bytes
  | .modern adapter => adapter.getImmutable label
  | .legacy adapter => adapter.getImmutable label

def scanPrefix (label : Bytes) : ForkAdapter → Heap → Bytes → List (Bytes × Bytes)
  | .modern adapter => adapter.scanPrefix label
  | .legacy adapter => adapter.scanPrefix label

def keys : ForkAdapter → Heap → List Bytes
  | .modern adapter => adapter.keys
  | .legacy adapter => adapter.keys

def put (label : Bytes) : ForkAdapter → Heap → Bytes → Bytes → Heap
  | .modern adapter => adapter.put label
  | .legacy adapter => adapter.put label

def delete (label : Bytes) : ForkAdapter → Heap → Bytes → Heap
  | .modern adapter => adapter.delete label
  | .legacy adapter => adapter.delete label

/-- The legacy variant builds the batch again, and that labels its keys a second time. -/
def write (label : Bytes) : ForkAdapter → Heap → List Op → Except Fault Heap
  | .modern adapter, σ, batch => adapter.write label σ batch
  | .legacy adapter, σ, batch => .ok (adapter.write σ (rocksDBBatch label batch))

/-- The default of the trait, a clone: it has the databases and the shadow of the original. -/
def createIsolatedCopy (f : ForkAdapter) (σ : Heap) : ForkAdapter × Heap := (f,σ)

end ForkAdapter

structure MemStoreAdapter where
  db : Nat
  height : Nat
  deriving DecidableEq, Repr

namespace MemStoreAdapter

def getImmutable (label : Bytes) (a : MemStoreAdapter) (σ : Heap) (key : Bytes) : Option Bytes :=
  KV.get (σ.map a.db) (makeLabeledKey label key)

def scanPrefix (label : Bytes) (a : MemStoreAdapter) (σ : Heap) (pre : Bytes) :
    List (Bytes × Bytes) :=
  (σ.map a.db).toList.filter fun e => (makeLabeledKey label pre).isPrefixOf e.1

def keys (a : MemStoreAdapter) (σ : Heap) : List Bytes := (σ.map a.db).keys

def put (label : Bytes) (a : MemStoreAdapter) (σ : Heap) (key value : Bytes) : Heap :=
  σ.writeMap a.db [.put (makeLabeledKey label key) value]

def delete (label : Bytes) (a : MemStoreAdapter) (σ : Heap) (key : Bytes) : Heap :=
  σ.writeMap a.db [.delete (makeLabeledKey label key)]

def write (label : Bytes) (a : MemStoreAdapter) (σ : Heap) (batch : List Op) :
    Except Fault Heap := do
  let tip ← addU32 a.height 1
  return σ.writeMap a.db
    (.put (makeLabeledKey label tipHeightKey) (u32le tip)::batch.map (labelOp label))

def createIsolatedCopy (a : MemStoreAdapter) (σ : Heap) : MemStoreAdapter × Heap :=
  ({ a with db := σ.maps.length }, { σ with maps := σ.maps ++ [σ.map a.db] })

end MemStoreAdapter

inductive Backend where
  | rocks (adapter : RocksDBRuntimeAdapter)
  | fork (adapter : ForkAdapter)
  | mem (adapter : MemStoreAdapter)
  deriving DecidableEq, Repr

/-- A call that writes; a batch is filled with its own `put` and `delete` before. -/
inductive WriteCall where
  | put (key value : Bytes)
  | delete (key : Bytes)
  | write (batch : List Op)
  deriving DecidableEq, Repr

namespace Backend

def getImmutable (label : Bytes) : Backend → Heap → Bytes → Option Bytes
  | .rocks adapter => adapter.getImmutable label
  | .fork adapter => adapter.getImmutable label
  | .mem adapter => adapter.getImmutable label

def scanPrefix (label : Bytes) : Backend → Heap → Bytes → List (Bytes × Bytes)
  | .rocks adapter => adapter.scanPrefix label
  | .fork adapter => adapter.scanPrefix label
  | .mem adapter => adapter.scanPrefix label

def keys : Backend → Heap → List Bytes
  | .rocks adapter => adapter.keys
  | .fork adapter => adapter.keys
  | .mem adapter => adapter.keys

def call (label : Bytes) : Backend → Heap → WriteCall → Except Fault Heap
  | .rocks adapter, σ, .put key value => .ok (adapter.put label σ key value)
  | .rocks adapter, σ, .delete key => .ok (adapter.delete label σ key)
  | .rocks adapter, σ, .write batch => adapter.write label σ (rocksDBBatch label batch)
  | .fork adapter, σ, .put key value => .ok (adapter.put label σ key value)
  | .fork adapter, σ, .delete key => .ok (adapter.delete label σ key)
  | .fork adapter, σ, .write batch => adapter.write label σ (rocksDBBatch label batch)
  | .mem adapter, σ, .put key value => .ok (adapter.put label σ key value)
  | .mem adapter, σ, .delete key => .ok (adapter.delete label σ key)
  | .mem adapter, σ, .write batch => adapter.write label σ batch

/-- Calls in sequence; a panic ends them, and it comes before the write. -/
def runCalls (label : Bytes) (b : Backend) : List WriteCall → Heap → Heap
  | [], σ => σ
  | c::cs, σ =>
    match b.call label σ c with
    | .ok σ' => runCalls label b cs σ'
    | .error _ => σ

def createIsolatedCopy : Backend → Heap → Backend × Heap
  | .rocks adapter, σ => (.rocks (adapter.createIsolatedCopy σ).1,(adapter.createIsolatedCopy σ).2)
  | .fork adapter, σ => (.fork (adapter.createIsolatedCopy σ).1,(adapter.createIsolatedCopy σ).2)
  | .mem adapter, σ => (.mem (adapter.createIsolatedCopy σ).1,(adapter.createIsolatedCopy σ).2)

end Backend

end Metashrew
