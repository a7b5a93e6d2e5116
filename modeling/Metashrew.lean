import Metashrew.Lib.Bytes
import Metashrew.Lib.Store
import Metashrew.Lib.Search
import Metashrew.Lib.Versioned
import Metashrew.Lib.Durable
import Metashrew.Runtime.Keys
import Metashrew.Runtime.Smt
import Metashrew.Runtime.Rollback
import Metashrew.Storage.Adapter
import Metashrew.Ledger.Basic
import Metashrew.Ledger.Records
import Metashrew.Ledger.Commit
import Metashrew.Ledger.Run
import Metashrew.Ledger.Sound
import Metashrew.Ledger.Reads
import Metashrew.Ledger.Trim
import Metashrew.Ledger.Rollback
import Metashrew.Ledger.Frame
import Metashrew.Ledger.Histories
import Metashrew.Recovery.Retry
import Metashrew.Recovery.Restore
import Metashrew.Runtime.Execution
import Metashrew.Execution.Slot
import Metashrew.Execution.Calls
import Metashrew.Execution.Clean
import Metashrew.Execution.MultiFlush
import Metashrew.Ledger.Heights
import Metashrew.Ledger.Flushed
import Metashrew.Execution.Manifest
import Metashrew.Ledger.Foreign
import Metashrew.Sync.Engine
import Metashrew.Sync.Heal
import Metashrew.Sync.Runs
import Metashrew.Sync.InOrder
import Metashrew.Sync.Restart
import Metashrew.Sync.Ancestor
import Metashrew.Sync.ResultLoop
import Metashrew.Sync.Process
import Metashrew.Sync.Entry
import Metashrew.Sync.Policy
import Metashrew.Sync.Linkage
import Metashrew.Sync.Stale
import Metashrew.Sync.SnapshotLoop
import Metashrew.Lib.Steps
import Metashrew.Pipeline.Tasks
import Metashrew.Pipeline.HandOut
import Metashrew.Pipeline.Indexer
import Metashrew.Pipeline.Pace
import Metashrew.Pipeline.Progress
import Metashrew.Pipeline.Reorgs
import Metashrew.Pipeline.Batches
import Metashrew.Recovery.Crash
import Metashrew.Sync.HealLaw
import Metashrew.Sync.Pointers
import Metashrew.Lib.Loop
import Metashrew.Sync.RetryLoops
import Metashrew.Lib.Trie
import Metashrew.Tree.Basic
import Metashrew.Tree.Refine
import Metashrew.Tree.Canonical
import Metashrew.Tree.Copies
import Metashrew.Tree.Calls
import Metashrew.Tree.Storage
import Metashrew.Tree.Holds
import Metashrew.Lib.Overlay
import Metashrew.Storage.Backends
import Metashrew.Storage.Overlay
import Metashrew.Storage.Isolation
import Metashrew.Views.Preview
import Metashrew.Lib.Reading
import Metashrew.Views.Reads
import Metashrew.Views.Consistency
import Metashrew.Lib.Splits
import Metashrew.Storage.Labels
import Metashrew.Storage.Transparency
import Metashrew.Recovery.Namespace
import Metashrew.Storage.Forked
import Metashrew.Lib.Numeral
import Metashrew.Validator.Target
import Metashrew.Validator.Chain
import Metashrew.Pipeline.Ranges
import Metashrew.Support.Address
import Metashrew.Guest.Memory
import Metashrew.Lib.Nested
import Metashrew.Guest.Atomic
import Metashrew.Guest.Order
import Metashrew.Support.Pointer
import Metashrew.Support.Stack
import Metashrew.Support.LinkedList
import Metashrew.Recovery.Helper
import Metashrew.Lib.Dialogue
import Metashrew.Recovery.Reapply
import Metashrew.Guest.Buffers
import Metashrew.Lib.Machine
import Metashrew.Lib.Utf8
import Metashrew.Validator.Wire
import Metashrew.Validator.WasmHost
import Metashrew.Tree.Nodes
import Metashrew.Views.Backwards
import Metashrew.Lib.CompactSize
import Metashrew.Mempool.Inventory
import Metashrew.Mempool.Basic
import Metashrew.Mempool.Templates
import Metashrew.Mempool.Mirror
import Metashrew.Support.Auxpow
import Metashrew.Lib.Graft
import Metashrew.Ledger.KeyManifest
import Metashrew.Tree.NewRoot
import Metashrew.Guest.Cache
import Metashrew.Storage.InMemory
import Metashrew.Snapshot.Gaps
import Metashrew.Snapshot.Manager
import Metashrew.Snapshot.Fidelity
import Metashrew.Snapshot.RoundTrip
import Metashrew.Node.Indexing
import Metashrew.Node.Reorg
import Metashrew.Node.Roots
import Metashrew.Node.State
import Metashrew.Node.Minimal
import Metashrew.Node.Follows
import Metashrew.Node.Restart
import Metashrew.Tree.Binding
import Metashrew.Validator.Secured
import Metashrew.Snapshot.Replica
import Metashrew.Mempool.Build
import Metashrew.Mempool.Session
