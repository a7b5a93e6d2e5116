import Metashrew.Lib.CompactSize
import Metashrew.Runtime.Smt

namespace Metashrew

open Bytes Parser

/-- The integer codecs of the bitcoin crate, each decoder with the bytes that it leaves. -/
structure ConsensusCodec where
  encodeVarInt : Nat → Bytes
  decodeVarInt : Bytes → Except String (Nat × Bytes)
  decodeU32 : Bytes → Except String (Nat × Bytes)

/-- A variable-length integer is written and accepted in its shortest form only. -/
structure ConsensusCodec.Standard (codec : ConsensusCodec) : Prop where
  encodeVarInt : ∀ n, n < 2^64 → codec.encodeVarInt n = CompactSize.encode n
  decodeVarInt : ∀ bs n rest,
    codec.decodeVarInt bs = .ok (n,rest) ↔ n < 2^64 ∧ bs = CompactSize.encode n ++ rest
  decodeU32 : ∀ bs n rest, codec.decodeU32 bs = .ok (n,rest) ↔ n < 2^32 ∧ bs = u32le n ++ rest

/-- An error of the crate that `?` passes on. -/
def consensusError {α : Type} : Except String α → Except Fault α
  | .ok a => .ok a
  | .error text => .error (.message text)

def shortestFormCodec : ConsensusCodec where
  encodeVarInt := CompactSize.encode
  decodeVarInt := (CompactSize.shortest "unexpected end of file" "non-minimal varint").run
  decodeU32 := (number "unexpected end of file" 4).run

theorem shortestFormCodec_standard : shortestFormCodec.Standard where
  encodeVarInt _ _ := rfl
  decodeVarInt _ _ _ := CompactSize.run_shortest_iff
  decodeU32 bs n rest := by
    rw [u32le_eq_toLE]
    exact run_number_iff

end Metashrew
