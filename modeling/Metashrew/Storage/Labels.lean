import Metashrew.Ledger.Run
import Metashrew.Lib.Steps
import Metashrew.Storage.Overlay
import Metashrew.Sync.Engine

namespace Metashrew

open Bytes Durable

/-- `set_label` appends the separator; without a label nothing is put before a key. -/
def labelBytes : Option Bytes → Bytes
  | none => []
  | some s => s ++ ascii "://"

/-- The runtime's handle on the database, at one adapter height. -/
def runtimeHandle (adapterHeight : Nat) : RocksDBRuntimeAdapter := ⟨0,none,adapterHeight,none⟩

/-- The reads that the runtime's handle makes of the records of a label. -/
def labelledDB (label : Bytes) (σ : Store) : KeyValueStoreLike where
  getImmutable key := .ok ((runtimeHandle 0).getImmutable label ⟨[σ],[],[]⟩ key)
  scanPrefix pre := .ok ((runtimeHandle 0).scanPrefix label ⟨[σ],[],[]⟩ pre)

/-- The operations of the two RocksDB adapters on one database: a flush that the runtime writes, a
block whose batch is handed to `commit_atomic`, and the storage adapter's and the runtime's reads. -/
inductive StoreCall where
  | flush (adapterHeight height : Nat) (f : Flush)
  | commit (height : Nat) (b : Block)
  | rollback (height : Nat)
  | heal (node : BitcoinNodeAdapter) (config : SyncConfig)
  | scanPrefix (pre : Bytes)
  | keys
  | getAtHeight (key : Bytes) (height : Nat)

inductive StoreAnswer where
  | done (result : Except Fault Unit)
  | healed (result : Except Fault (Nat × StartupHealOutcome))
  | entries (entries : List (Bytes × Bytes))
  | keys (keys : List Bytes)
  | value (result : Except Fault (Option Bytes))

namespace StoreCall

/-- The batch of a flush, built with the label's lookups and filled under the label. -/
def labelledBatch (label : Bytes) (σ : Store) (height : Nat) (keyValues : List (Bytes × Bytes)) :
    Except Fault (List Op) := do
  let built ← buildStateRootBatchUnwritten (labelledDB label σ) height keyValues
  return rocksDBBatch label built.2

def writeFlush (label : Bytes) (σ : Store) (adapterHeight height : Nat)
    (keyValues : List (Bytes × Bytes)) : Except Fault Store := do
  let batch ← labelledBatch label σ height keyValues
  let τ ← (runtimeHandle adapterHeight).write label ⟨[σ],[],[]⟩ batch
  return τ.db 0

def commitFlush (label : Bytes) (σ : Store) (height : Nat) (b : Block) : Except Fault Store := do
  let batch ← labelledBatch label σ height b.flush.list
  let done ← (commitAtomic height b.hash b.stateRoot batch).exec σ
  return done.2

/-- The store is as before when the result is an error. -/
def written (σ : Store) : Except Fault Store → StoreAnswer × Store
  | .ok τ => (.done (.ok ()),τ)
  | .error e => (.done (.error e),σ)

/-- One operation under a label: what it answers and what it leaves. The pointers, the block hashes,
the rollback and the heal of the storage adapter take no label. -/
def run (label : Bytes) (σ : Store) : StoreCall → StoreAnswer × Store
  | flush adapterHeight height f => written σ (writeFlush label σ adapterHeight height f.list)
  | commit height b => written σ (commitFlush label σ height b)
  | rollback height =>
    (.done ((rollbackToHeight height).run σ).result,(rollbackToHeight height).finalState σ)
  | heal node config =>
    (.healed ((healPointerDivergenceAtStartup node config).run σ).result,
      (healPointerDivergenceAtStartup node config).finalState σ)
  | scanPrefix pre => (.entries ((runtimeHandle 0).scanPrefix label ⟨[σ],[],[]⟩ pre),σ)
  | keys => (.keys ((runtimeHandle 0).keys ⟨[σ],[],[]⟩),σ)
  | getAtHeight key height => (.value (Metashrew.getAtHeight (labelledDB label σ) key height),σ)

/-- The heights of the calls are unsigned 32-bit numbers. -/
def inRange : StoreCall → Bool
  | flush adapterHeight height _ => adapterHeight < 2^32 && height < 2^32
  | commit height _ => height < 2^32
  | rollback height => height < 2^32
  | getAtHeight _ height => height < 2^32
  | heal _ _ => true
  | scanPrefix _ => true
  | keys => true

end StoreCall

/-- The same run twice: under a label and with none, with the answers so far. -/
structure Twins where
  labelled : Store
  plain : Store
  answers : List (StoreAnswer × StoreAnswer)

namespace Twins

def init : Twins := ⟨∅,∅,[]⟩

def step (label : Option Bytes) (s : Twins) (c : StoreCall) : Option Twins :=
  let labelled := c.run (labelBytes label) s.labelled
  let plain := c.run [] s.plain
  if c.inRange then some ⟨labelled.2,plain.2,s.answers ++ [(labelled.1,plain.1)]⟩ else none

end Twins

end Metashrew
