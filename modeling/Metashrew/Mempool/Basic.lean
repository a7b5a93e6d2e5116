import Metashrew.Lib.Visits
import Metashrew.Tree.Basic

namespace Metashrew.Mempool

/-- The 32 bytes of an id in their internal order. -/
abbrev Txid := Hash32

/-- A hash set is a list without repetitions, in the order in which it is iterated. -/
structure MempoolTxInfo (Tx Rate : Type) where
  tx : Tx
  fee : UInt64
  vsize : UInt64
  feeRate : Rate
  ancestors : List Txid
  descendants : List Txid

/-- The transactions that are held. -/
abbrev Pool (Tx Rate : Type) := KV.Store Txid (MempoolTxInfo Tx Rate)

/-- A transaction in the map that another one has among its ancestors. -/
def Parent {Tx Rate : Type} (txs : Pool Tx Rate) (a txid : Txid) : Prop :=
  KV.get txs a ≠ none ∧ ∃ info, KV.get txs txid = some info ∧ a ∈ info.ancestors

end Metashrew.Mempool
