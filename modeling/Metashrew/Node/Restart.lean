import Metashrew.Node.Reorg
import Metashrew.Sync.HealLaw

namespace Metashrew

open Bytes Durable Versioned

section Resume

variable {prog : IndexerProgram} {start : Nat} {chain : List NodeBlock} {L : Ledger} {σ σ' : Store}
  {node : BitcoinNodeAdapter} {config : SyncConfig} {s : Nat}

end Resume

end Metashrew
