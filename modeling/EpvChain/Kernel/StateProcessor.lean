import EpvChain.Kernel.StateTransition
import EpvChain.Agreement.Epvdpos.Engine

/-!
# Processing and validating a block (`kernel/state_processor.go`, `kernel/block_validator.go`)

`ApplyTransaction` turns a transaction into a message, applies it, and writes the receipt.
`StateProcessor.Process` applies the DAO fork at its block, then every transaction of the block
in order, failing on the first error, and lets the engine finalize the state.
`BlockValidator.ValidateState` then compares the gas used, the bloom, the receipt root and the
state root with the header.

The EVM context of a transaction names its beneficiary. The miner passes its own coinbase; a
validating node passes none, and `NewEVMContext` asks the engine for the block's author, which
for this chain is the address that sealed the header (`Epvdpos.author`).

* `applyTransaction_addPool`, `applyTransaction_pool_le` — the gas-pool facts of
  `applyMessage`, for a whole transaction.
* `applyTransaction_congr` — a transaction applies the same under two headers that agree on what
  the EVM reads, when the beneficiaries agree.
* `header_finalizeBlock` — the header `DPos.Finalize` builds is the one `Epvdpos.finalize` of the
  block producer describes, with the roots `NewBlock` computes.
-/

namespace EpvChain.Core

open EpvChain.Types

/-- What block processing reads of a transaction: its hash and nonce, whether it is
replay-protected, and `AsMessage` under the signer of a block number.
Source: `kernel/types/transaction.go` -/
structure TxOps (τ : Type) where
  hash : τ → Hash
  nonce : τ → UInt64
  isProtected : τ → Bool
  asMessage : τ → Nat → Except TxError Message

/-- A node's chain configuration, state database, EVM, transactions and hash functions. -/
structure Backend (σ τ : Type) where
  config : ChainConfig
  db : StateDB σ
  evm : Evm σ
  tx : TxOps τ
  hashing : Hashing τ

/-- Two headers agree on every field a transaction reads: the number, the time, the difficulty,
the gas limit and the parent. -/
structure SameContext (h h' : Header) : Prop where
  number : h.number = h'.number
  timeMS : h.timeMS = h'.timeMS
  difficulty : h.difficulty = h'.difficulty
  gasLimit : h.gasLimit = h'.gasLimit
  parentHash : h.parentHash = h'.parentHash

/-- Block assembly changes the gas used, which no transaction reads. -/
theorem SameContext.withGasUsed {h h' : Header} (hc : SameContext h h') (gasUsed : UInt64) :
    SameContext { h with gasUsed } h' :=
  ⟨hc.number, hc.timeMS, hc.difficulty, hc.gasLimit, hc.parentHash⟩

/-- Sealing changes the extra-data, which no transaction reads. -/
theorem SameContext.withExtra {h h' : Header} (hc : SameContext h h') (extra : List UInt8) :
    SameContext h { h' with extra } :=
  ⟨hc.number, hc.timeMS, hc.difficulty, hc.gasLimit, hc.parentHash⟩

end EpvChain.Core

namespace EpvChain.Epvdpos

open EpvChain.Types EpvChain.Core

/-- `DPos.Author`, with its error dropped as `NewEVMContext` drops it: the zero address.
Source: `agreement/epvdpos/epvdpos.go` `DPos.Author`; `kernel/evm.go` `NewEVMContext` -/
def author (env : Env) (header : Header) : Address :=
  match env.crypto.ecrecover header with
  | .ok signer => signer
  | .error _ => Address.zero

/-- `DPos.Finalize`: hash the state into the header's root, set the uncle hash of no uncles, and
build the block; the state is left finalised. `bloom` is the header's own bloom.
Source: `agreement/epvdpos/epvdpos.go` `DPos.Finalize` -/
def finalizeBlock {σ τ : Type} (b : Backend σ τ) (env : Env) (header : Header) (bloom : Bloom)
    (s : σ) (txs : List τ) (receipts : List Receipt) : Block τ × σ :=
  let (s, root) := b.db.intermediateRoot s (b.config.isEIP158 header.number)
  (newBlock b.hashing env.uncleHash { header with root, uncleHash := env.uncleHash } bloom txs
    receipts, s)

@[simp] theorem transactions_finalizeBlock {σ τ : Type} (b : Backend σ τ) (env : Env)
    (header : Header) (bloom : Bloom) (s : σ) (txs : List τ) (receipts : List Receipt) :
    (finalizeBlock b env header bloom s txs receipts).1.transactions = txs := rfl

@[simp] theorem bloom_finalizeBlock {σ τ : Type} (b : Backend σ τ) (env : Env) (header : Header)
    (s : σ) (txs : List τ) (receipts : List Receipt) :
    (finalizeBlock b env header 0 s txs receipts).1.bloom = b.hashing.createBloom receipts :=
  bloom_newBlock _ _ _ _ _

@[simp] theorem snd_finalizeBlock {σ τ : Type} (b : Backend σ τ) (env : Env) (header : Header)
    (bloom : Bloom) (s : σ) (txs : List τ) (receipts : List Receipt) :
    (finalizeBlock b env header bloom s txs receipts).2 =
      (b.db.intermediateRoot s (b.config.isEIP158 header.number)).1 := rfl

/-- The header of a finalized block is the one `finalize` describes, with the roots `NewBlock`
computes. -/
theorem header_finalizeBlock {σ τ : Type} (b : Backend σ τ) (env : Env) (header : Header)
    (bloom : Bloom) (s : σ) (txs : List τ) (receipts : List Receipt) :
    (finalizeBlock b env header bloom s txs receipts).1.header =
      finalize env (b.db.intermediateRoot s (b.config.isEIP158 header.number)).2
        (if txs.isEmpty then b.hashing.emptyRootHash else b.hashing.deriveSha b.hashing.encodeTx txs)
        (b.hashing.deriveSha b.hashing.encodeReceipt receipts) header := by
  have hr := receiptHash_newBlock b.hashing env.uncleHash
    { header with root := (b.db.intermediateRoot s (b.config.isEIP158 header.number)).2,
                  uncleHash := env.uncleHash } bloom txs receipts
  simp only [finalizeBlock, finalize, ← hr]
  rfl

end EpvChain.Epvdpos

namespace EpvChain.Core

open EpvChain.Types

section Processor

variable {σ τ : Type} (b : Backend σ τ) (env : Epvdpos.Env)

/-- The beneficiary of `NewEVMContext`: `author` when given, the engine's author of the header
otherwise. -/
def beneficiary (header : Header) (author : Option Address) : Address :=
  match author with
  | some a => a
  | none => Epvdpos.author env header

/-- `core.NewEVMContext`.
Source: `kernel/evm.go` `NewEVMContext` -/
def newEVMContext (msg : Message) (header : Header) (author : Option Address) : Context where
  origin := msg.sender
  coinbase := beneficiary env header author
  blockNumber := header.number
  time := header.timeMS / 1000
  difficulty := header.difficulty
  gasLimit := header.gasLimit
  gasPrice := msg.gasPrice
  parentHash := header.parentHash

/-- `core.ApplyTransaction`: the receipt of the transaction, or its error; and the state and
gas pool it leaves, whether or not it failed. Before Byzantium the receipt carries the
intermediate state root; from Byzantium on the state is only finalised.
Source: `kernel/state_processor.go` `ApplyTransaction` -/
def applyTransaction (author : Option Address) (gp : Nat) (s : σ) (header : Header) (tx : τ)
    (usedGas : UInt64) : Except TxError Receipt × σ × Nat :=
  match b.tx.asMessage tx header.number with
  | .error e => (.error e, s, gp)
  | .ok msg =>
    let ctx := newEVMContext env msg header author
    match applyMessage b.db msg b.config b.evm ctx s gp with
    | (.error e, s, gp) => (.error e, s, gp)
    | (.ok (gas, failed), s, gp) =>
      let (s, root) :=
        if b.config.isByzantium header.number then (b.db.finalise s true, [])
        else
          let (s, r) := b.db.intermediateRoot s (b.config.isEIP158 header.number)
          (s, r.toBytes)
      let usedGas := usedGas + UInt64.ofNat gas
      let receipt := { newReceipt root failed usedGas with
        txHash := b.tx.hash tx
        gasUsed := UInt64.ofNat gas
        contractAddress :=
          if msg.recipient.isNone then b.hashing.createAddress ctx.origin (b.tx.nonce tx) else 0
        logs := b.db.getLogs s (b.tx.hash tx) }
      (.ok receipt, s, gp)

/-- The transaction loop of `StateProcessor.Process`: each transaction in order with no author,
the first error ending the block; the receipts, the state and the gas used.
Source: `kernel/state_processor.go` `StateProcessor.Process` -/
def applyTransactions (header : Header) :
    List τ → Nat → σ → UInt64 → Except TxError (List Receipt × σ × UInt64)
  | [], _, s, usedGas => .ok ([], s, usedGas)
  | tx :: txs, gp, s, usedGas =>
    match applyTransaction b env none gp s header tx usedGas with
    | (.error e, _, _) => .error e
    | (.ok receipt, s, gp) =>
      match applyTransactions header txs gp s receipt.cumulativeGasUsed with
      | .error e => .error e
      | .ok (receipts, s, usedGas) => .ok (receipt :: receipts, s, usedGas)

/-- The DAO fork's state change, at the fork block of a chain that supports it.
Source: `kernel/state_processor.go` `StateProcessor.Process`; `work/worker.go` `commitNewWork` -/
def applyDAO (number : Nat) (s : σ) : σ :=
  if b.config.daoForkSupport && b.config.daoForkBlock == some number then b.db.applyDAOHardFork s
  else s

/-- `StateProcessor.Process`: the receipts, the logs, the gas used and the finalised state of a
block applied to its parent's state.
Source: `kernel/state_processor.go` `StateProcessor.Process` -/
def process (block : Block τ) (s : σ) : Except TxError (List Receipt × List Log × UInt64 × σ) :=
  let header := block.header
  let s := applyDAO b header.number s
  match applyTransactions b env header block.transactions header.gasLimit.toNat s 0 with
  | .error e => .error e
  | .ok (receipts, s, usedGas) =>
    let s := (Epvdpos.finalizeBlock b env header block.bloom s block.transactions receipts).2
    .ok (receipts, receipts.flatMap (·.logs), usedGas, s)

/-- The errors of `ValidateState`, with the header's value and the one computed.
Source: `kernel/block_validator.go` `BlockValidator.ValidateState` -/
inductive ValidationError
  | invalidGasUsed (remote computed : UInt64)
  | invalidBloom (remote computed : Bloom)
  | invalidReceiptRoot (remote computed : Hash)
  | invalidMerkleRoot (remote computed : Hash)
  deriving DecidableEq, Repr

/-- `BlockValidator.ValidateState`: the gas used, the bloom, the receipt root and the state root
of the header against those of the processed block.
Source: `kernel/block_validator.go` `BlockValidator.ValidateState` -/
def validateState (block : Block τ) (s : σ) (receipts : List Receipt) (usedGas : UInt64) :
    Except ValidationError Unit :=
  let header := block.header
  if header.gasUsed ≠ usedGas then .error (.invalidGasUsed header.gasUsed usedGas)
  else
    let rbloom := b.hashing.createBloom receipts
    if rbloom ≠ block.bloom then .error (.invalidBloom block.bloom rbloom)
    else
      let receiptSha := b.hashing.deriveSha b.hashing.encodeReceipt receipts
      if receiptSha ≠ header.receiptHash then
        .error (.invalidReceiptRoot header.receiptHash receiptSha)
      else
        let root := (b.db.intermediateRoot s (b.config.isEIP158 header.number)).2
        if header.root ≠ root then .error (.invalidMerkleRoot header.root root)
        else .ok ()

/-- The errors of a block's state: a transaction that cannot be applied, or a mismatch with the
header. -/
inductive BlockError
  | process (e : TxError)
  | validate (e : ValidationError)
  deriving DecidableEq, Repr

/-- What `BlockChain.insertChain` checks of a block's state once its header and body are
verified: `Process` it on the parent's state, then `ValidateState`; the receipts, logs and gas
used, or the first error.
Source: `kernel/blockchain.go` `BlockChain.insertChain` -/
def validateBlockState (block : Block τ) (s : σ) :
    Except BlockError (List Receipt × List Log × UInt64) :=
  match process b env block s with
  | .error e => .error (.process e)
  | .ok (receipts, logs, usedGas, s) =>
    match validateState b block s receipts usedGas with
    | .error e => .error (.validate e)
    | .ok () => .ok (receipts, logs, usedGas)

/-! ### A transaction under a larger pool, and under another header -/

theorem applyTransaction_addPool (author : Option Address) (gp d : Nat) (s : σ) (header : Header)
    (tx : τ) (usedGas : UInt64)
    (h : (applyTransaction b env author gp s header tx usedGas).1 ≠ .error .gasLimitReached) :
    applyTransaction b env author (gp + d) s header tx usedGas =
      ((applyTransaction b env author gp s header tx usedGas).1,
        (applyTransaction b env author gp s header tx usedGas).2.1,
        (applyTransaction b env author gp s header tx usedGas).2.2 + d) := by
  unfold applyTransaction at h ⊢
  cases hmsg : b.tx.asMessage tx header.number with
  | error e => rfl
  | ok msg =>
    simp only [hmsg] at h ⊢
    rcases hm : applyMessage b.db msg b.config b.evm (newEVMContext env msg header author) s gp
      with ⟨r, s', gp'⟩
    have hr : r ≠ .error .gasLimitReached := by
      rw [hm] at h
      cases r <;> simp_all
    rw [applyMessage_addPool b.db msg b.config b.evm _ s gp d (by rw [hm]; exact hr), hm]
    cases r <;> rfl

theorem applyTransaction_pool_le (author : Option Address) (gp : Nat) (s : σ) (header : Header)
    (tx : τ) (usedGas : UInt64) :
    (applyTransaction b env author gp s header tx usedGas).2.2 ≤ gp := by
  unfold applyTransaction
  cases b.tx.asMessage tx header.number with
  | error e => exact le_refl _
  | ok msg =>
    have hle := applyMessage_pool_le b.db msg b.config b.evm
      (newEVMContext env msg header author) s gp
    simp only
    rcases hm : applyMessage b.db msg b.config b.evm (newEVMContext env msg header author) s gp
      with ⟨_ | _, s', gp'⟩
    · rw [hm] at hle
      exact hle
    · rw [hm] at hle
      exact hle

/-- The EVM context depends on the header only through the fields `SameContext` compares. -/
theorem newEVMContext_congr {h h' : Header} (hc : SameContext h h') {a a' : Option Address}
    (ha : beneficiary env h a = beneficiary env h' a') (msg : Message) :
    newEVMContext env msg h a = newEVMContext env msg h' a' := by
  simp only [newEVMContext, ha, hc.number, hc.timeMS, hc.difficulty, hc.gasLimit, hc.parentHash]

/-- A transaction applies the same under two headers that agree on what it reads, when the
two beneficiaries agree. -/
theorem applyTransaction_congr {h h' : Header} (hc : SameContext h h') {a a' : Option Address}
    (ha : beneficiary env h a = beneficiary env h' a') (gp : Nat) (s : σ) (tx : τ)
    (usedGas : UInt64) :
    applyTransaction b env a gp s h tx usedGas = applyTransaction b env a' gp s h' tx usedGas := by
  simp only [applyTransaction, newEVMContext_congr env hc ha, hc.number]

end Processor

end EpvChain.Core
