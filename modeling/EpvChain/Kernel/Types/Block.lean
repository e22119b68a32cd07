import EpvChain.Kernel.Types.Header

/-!
# Logs, receipts, blooms and blocks (`kernel/types`)

What block assembly and block validation compute from a list of receipts: the bloom of their
logs (`createBloom`), the root of the trie of their encodings (`Hashing.deriveSha`), and the
block `NewBlock` builds around a header.

The hash functions underneath are a boundary, `Hashing`: the root of a trie holding a list of
encodings under their indices, the consensus encodings of transactions and receipts, the
three-bit filter `bloom9`, and `crypto.CreateAddress`. Everything built on them here follows
the source. `EmptyRootHash` is `DeriveSha(Transactions{})`, so it is `deriveSha` of the empty
list by definition.

`Log` and `Receipt` keep the fields that are set before a block is sealed. A log's block hash,
transaction index and position, which `StateDB.Prepare` supplies for the RPC layer, are in
neither the bloom nor the receipt encoding and are left out; so is a receipt's `Bloom`, which
is `CreateBloom` of the receipt alone. `Header` leaves out `Bloom`, so a `Block` carries it
beside its header.
-/

namespace EpvChain.Types

/-- `types.BloomByteLength`. -/
def BloomByteLength : Nat := 256

/-- `types.Bloom`: 256 bytes read as a big-endian number.
Source: `kernel/types/bloom9.go` `type Bloom [BloomByteLength]byte` -/
abbrev Bloom := Fin (2 ^ (8 * BloomByteLength))

/-- The modulus is positive, so numerals are blooms; one named instance builds them all. -/
instance Bloom.neZero : NeZero (2 ^ (8 * BloomByteLength)) := ⟨(Nat.two_pow_pos _).ne'⟩

/-- `types.Log`, less the fields `StateDB.Prepare` supplies.
Source: `kernel/types/log.go` `type Log struct` -/
structure Log where
  address : Address
  topics : List Hash
  data : List UInt8
  deriving DecidableEq, Repr

/-- `types.ReceiptStatusFailed`. -/
def ReceiptStatusFailed : Nat := 0

/-- `types.ReceiptStatusSuccessful`. -/
def ReceiptStatusSuccessful : Nat := 1

/-- `types.Receipt`, less `Bloom`.
Source: `kernel/types/receipt.go` `type Receipt struct` -/
structure Receipt where
  postState : List UInt8
  status : Nat
  cumulativeGasUsed : UInt64
  logs : List Log
  txHash : Hash
  contractAddress : Address
  gasUsed : UInt64
  deriving DecidableEq, Repr

/-- `types.NewReceipt`: a receipt with its post-state root (empty from Byzantium on), status and
the gas used so far in the block.
Source: `kernel/types/receipt.go` `NewReceipt` -/
def newReceipt (root : List UInt8) (failed : Bool) (cumulativeGasUsed : UInt64) : Receipt where
  postState := root
  status := if failed then ReceiptStatusFailed else ReceiptStatusSuccessful
  cumulativeGasUsed := cumulativeGasUsed
  logs := []
  txHash := 0
  contractAddress := 0
  gasUsed := 0

/-- The hash functions block assembly rests on. `trieRoot` is the root of a trie holding the
given encodings under the RLP encodings of their indices (`DeriveSha`); `encodeTx` and
`encodeReceipt` are `GetRlp`; `bloom9` is the filter of one byte string; `createAddress` is
`crypto.CreateAddress`. -/
structure Hashing (τ : Type) where
  trieRoot : List (List UInt8) → Hash
  encodeTx : τ → List UInt8
  encodeReceipt : Receipt → List UInt8
  bloom9 : List UInt8 → Nat
  createAddress : Address → UInt64 → Address

namespace Hashing

variable {τ : Type} (h : Hashing τ)

/-- `types.DeriveSha`: the trie root of a list, each element under its index.
Source: `kernel/types/derive_sha.go` `DeriveSha` -/
def deriveSha {α : Type} (encode : α → List UInt8) (list : List α) : Hash :=
  h.trieRoot (list.map encode)

/-- `types.EmptyRootHash`, `DeriveSha(Transactions{})`.
Source: `kernel/types/block.go` -/
def emptyRootHash : Hash := h.deriveSha h.encodeTx []

/-- `types.LogsBloom`: the union of the filters of every log's address and topics.
Source: `kernel/types/bloom9.go` `LogsBloom` -/
def logsBloom (logs : List Log) : Nat :=
  logs.foldl (fun bin log =>
    log.topics.foldl (fun bin b => bin ||| h.bloom9 b.toBytes) (bin ||| h.bloom9 log.address.toBytes))
    0

/-- `types.CreateBloom`: the union of the log filters of every receipt, cut to 256 bytes
(`BytesToBloom`).
Source: `kernel/types/bloom9.go` `CreateBloom` -/
def createBloom (receipts : List Receipt) : Bloom :=
  ⟨receipts.foldl (fun bin r => bin ||| h.logsBloom r.logs) 0 % 2 ^ (8 * BloomByteLength),
    Nat.mod_lt _ (Nat.two_pow_pos _)⟩

@[simp] theorem createBloom_nil : h.createBloom [] = 0 := rfl

@[simp] theorem deriveSha_nil {α : Type} (encode : α → List UInt8) :
    h.deriveSha encode [] = h.emptyRootHash := rfl

end Hashing

/-- `types.Block`: a header, its `Bloom`, and the transactions. Uncles are left out: the
engine of this chain builds blocks without them.
Source: `kernel/types/block.go` `type Block struct` -/
structure Block (τ : Type) where
  header : Header
  bloom : Bloom
  transactions : List τ

/-- `types.NewBlock` without uncles: the transaction and receipt roots, the bloom of the
receipts (the header's own when there are none), and the uncle hash of no uncles.
Source: `kernel/types/block.go` `NewBlock` -/
def newBlock {τ : Type} (h : Hashing τ) (emptyUncleHash : Hash) (header : Header) (bloom : Bloom)
    (txs : List τ) (receipts : List Receipt) : Block τ where
  header := { header with
    txHash := if txs.isEmpty then h.emptyRootHash else h.deriveSha h.encodeTx txs
    receiptHash :=
      if receipts.isEmpty then h.emptyRootHash else h.deriveSha h.encodeReceipt receipts
    uncleHash := emptyUncleHash }
  bloom := if receipts.isEmpty then bloom else h.createBloom receipts
  transactions := txs

/-- The receipt root of a new block is `DeriveSha` of its receipts, the empty ones included. -/
theorem receiptHash_newBlock {τ : Type} (h : Hashing τ) (emptyUncleHash : Hash) (header : Header)
    (bloom : Bloom) (txs : List τ) (receipts : List Receipt) :
    (newBlock h emptyUncleHash header bloom txs receipts).header.receiptHash =
      h.deriveSha h.encodeReceipt receipts := by
  cases receipts <;> rfl

/-- The bloom of a new block is `CreateBloom` of its receipts, when the header it was built on
had an empty bloom. -/
theorem bloom_newBlock {τ : Type} (h : Hashing τ) (emptyUncleHash : Hash) (header : Header)
    (txs : List τ) (receipts : List Receipt) :
    (newBlock h emptyUncleHash header 0 txs receipts).bloom = h.createBloom receipts := by
  cases receipts <;> rfl

end EpvChain.Types
