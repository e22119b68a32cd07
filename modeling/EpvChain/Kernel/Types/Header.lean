import EpvChain.Public.Types

/-!
# Block headers (`kernel/types/block.go`)

`Header` keeps the fields that the modelled consensus code reads directly. `Bloom` is left
out: it is read only through the header hash and the seal hash, which the consensus modules
take as functions of the header.

The two `*big.Int` fields that the code reads as integers, `Number` and `TimeMS`, and
`Difficulty`, are natural numbers: headers reach the consensus code from the RLP decoder,
which only builds non-negative integers, and from `Prepare`, which sets all three. Their
`nil` cases are therefore not modelled. `Header.numberU64` is `header.Number.Uint64()`, the
low 64 bits. `BlockNonce` is eight bytes, kept as the big-endian `uint64` they spell
(`BlockNonce.Uint64`).
-/

namespace EpvChain.Types

/-- `types.Header`, less `Bloom`.
Source: `kernel/types/block.go` `type Header struct` -/
structure Header where
  parentHash : Hash
  uncleHash : Hash
  coinbase : Address
  root : Hash
  txHash : Hash
  receiptHash : Hash
  difficulty : Nat
  number : Nat
  gasLimit : UInt64
  gasUsed : UInt64
  timeMS : Nat
  extra : List UInt8
  mixDigest : Hash
  nonce : UInt64
  deriving DecidableEq, Repr

/-- `header.Number.Uint64()`. -/
def Header.numberU64 (h : Header) : UInt64 := UInt64.ofNat h.number

end EpvChain.Types
