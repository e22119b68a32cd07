import EpvChain.Kernel.StateProcessor
import EpvChain.Agreement.Epvdpos.Production

/-!
# The miner's block against the validator's (`work/worker.go`)

`commitNewWork` applies the DAO fork, then `commitTransactions` fills the block from the pending
pool: each round peeks the best transaction, skips a replay-protected one before EIP-155, and
otherwise applies it with the miner's coinbase as beneficiary, reverting the state (not the gas
pool) when it fails. `DPos.Finalize` hashes the state into the header and `DPos.Seal` signs it.
Every node checks the block with `StateProcessor.Process` and `BlockValidator.ValidateState`,
applying only the block's transactions, from a full pool, with the block's author as beneficiary.

* `replay_commitLoop` — the validator replays the miner's loop: the transactions it added give,
  under a pool at least the miner's, the same receipts, state and gas used
  (`CommitStep.pool_le`, `applyTransaction_addPool`).
* `validateState_mine` — so a sealed block passes `ValidateState` when its author is the
  coinbase the miner credited.
* `validateState_mine_coinbase` — and fails when it is not: `SetEPVCbase` changes the coinbase
  the worker credits, not the signer the engine seals as.

The order of `TransactionsByPriceAndNonce` is a boundary, `TxQueue`: the theorems hold for every
order. Its laws make `Shift` and `Pop` shrink the queue, so the loop ends within `size` rounds
(`commitLoop_succ_of_size_le`).
-/

namespace EpvChain.Miner

open EpvChain.Types EpvChain.Core EpvChain.Epvdpos

/-- `types.TransactionsByPriceAndNonce` as the loop uses it: `Peek`, `Shift` (the sender's next
transaction) and `Pop` (drop the sender), with a size that both shrink.
Source: `kernel/types/transaction.go` -/
structure TxQueue (q τ : Type) where
  peek : q → Option τ
  shift : q → q
  pop : q → q
  size : q → Nat
  size_shift : ∀ txs tx, peek txs = some tx → size (shift txs) < size txs
  size_pop : ∀ txs tx, peek txs = some tx → size (pop txs) < size txs

/-- The fields of `Work` that block assembly changes: the state, the header (whose `GasUsed`
accumulates), the included transactions and their receipts, and their count.
Source: `work/worker.go` `type Work struct` -/
structure Work (σ τ : Type) where
  state : σ
  header : Header
  txs : List τ
  receipts : List Receipt
  tcount : Nat

section Worker

variable {σ τ q : Type} (b : Backend σ τ) (env : Env) (Q : TxQueue q τ) (coinbase : Address)

/-- `Work.commitTransaction`: apply a transaction with the coinbase as beneficiary; on success
record it and its receipt, on failure restore the state of the snapshot. The gas pool keeps
what the transaction took either way.
Source: `work/worker.go` `Work.commitTransaction` -/
def commitTransaction (w : Work σ τ) (tx : τ) (gp : Nat) : Except TxError Unit × Work σ τ × Nat :=
  match applyTransaction b env (some coinbase) gp w.state w.header tx w.header.gasUsed with
  | (.error e, _, gp) => (.error e, w, gp)
  | (.ok receipt, s, gp) =>
    (.ok (), { w with
      state := s
      header := { w.header with gasUsed := receipt.cumulativeGasUsed }
      txs := w.txs ++ [tx]
      receipts := w.receipts ++ [receipt] }, gp)

/-- One round of the loop of `Work.commitTransactions`: `none` where it breaks (the pool below
`TxGas`, or no transaction left), otherwise the queue, pool and work of the next round.
Source: `work/worker.go` `Work.commitTransactions` -/
def commitRound (txs : q) (gp : Nat) (w : Work σ τ) : Option (q × Nat × Work σ τ) :=
  if gp < TxGas then none
  else
    match Q.peek txs with
    | none => none
    | some tx =>
      if b.tx.isProtected tx && !b.config.isEIP155 w.header.number then some (Q.pop txs, gp, w)
      else
        let (err, w, gp) := commitTransaction b env coinbase w tx gp
        match err with
        | .error .gasLimitReached => some (Q.pop txs, gp, w)
        | .error .nonceTooLow => some (Q.shift txs, gp, w)
        | .error .nonceTooHigh => some (Q.pop txs, gp, w)
        | .ok () => some (Q.shift txs, gp, { w with tcount := w.tcount + 1 })
        | .error _ => some (Q.shift txs, gp, w)

/-- The loop of `Work.commitTransactions`, for at most `fuel` rounds. -/
def commitLoop : Nat → q → Nat → Work σ τ → Work σ τ
  | 0, _, _, w => w
  | fuel + 1, txs, gp, w =>
    match commitRound b env Q coinbase txs gp w with
    | none => w
    | some (txs, gp, w) => commitLoop fuel txs gp w

/-- `Work.commitTransactions`: the loop from a pool holding the block's gas limit, run until it
breaks (`commitLoop_succ_of_size_le`). The logs it posts as events are left out.
Source: `work/worker.go` `Work.commitTransactions` -/
def commitTransactions (w : Work σ τ) (txs : q) : Work σ τ :=
  commitLoop b env Q coinbase (Q.size txs) txs w.header.gasLimit.toNat w

/-- What `worker.commitNewWork` does with a prepared header: the DAO fork, the pending
transactions on the parent's state, and `DPos.Finalize`; the block to seal and its state. The
header's own bloom is empty.
Source: `work/worker.go` `worker.commitNewWork` -/
def mine (s : σ) (header : Header) (txs : q) : Block τ × σ :=
  let s := applyDAO b header.number s
  let w := commitTransactions b env Q coinbase ⟨s, header, [], [], 0⟩ txs
  finalizeBlock b env w.header 0 w.state w.txs w.receipts

/-! ### One round -/

/-- What one round of the loop can do to the pool and the work: skip a transaction, apply one
that fails and revert it, or apply one and record it. -/
inductive CommitStep : Nat × Work σ τ → Nat × Work σ τ → Prop
  | skip (gp : Nat) (w : Work σ τ) : CommitStep (gp, w) (gp, w)
  | revert (gp : Nat) (w : Work σ τ) {tx : τ} {e : TxError} {s : σ} {gp' : Nat} :
      applyTransaction b env (some coinbase) gp w.state w.header tx w.header.gasUsed =
        (.error e, s, gp') → CommitStep (gp, w) (gp', w)
  | commit (gp : Nat) (w : Work σ τ) {tx : τ} {r : Receipt} {s : σ} {gp' : Nat} :
      applyTransaction b env (some coinbase) gp w.state w.header tx w.header.gasUsed =
        (.ok r, s, gp') →
      CommitStep (gp, w) (gp', { w with
        state := s
        header := { w.header with gasUsed := r.cumulativeGasUsed }
        txs := w.txs ++ [tx]
        receipts := w.receipts ++ [r]
        tcount := w.tcount + 1 })

/-- A round that goes on is one `CommitStep`, and shrinks the queue. -/
theorem commitRound_eq_some {txs txs' : q} {gp gp' : Nat} {w w' : Work σ τ}
    (h : commitRound b env Q coinbase txs gp w = some (txs', gp', w')) :
    CommitStep b env coinbase (gp, w) (gp', w') ∧ Q.size txs' < Q.size txs := by
  unfold commitRound at h
  split_ifs at h with hgas
  cases hpeek : Q.peek txs with
  | none => simp [hpeek] at h
  | some tx =>
    have hshift := Q.size_shift txs tx hpeek
    have hpop := Q.size_pop txs tx hpeek
    simp only [hpeek] at h
    split_ifs at h with hprot
    · simp only [Option.some.injEq, Prod.mk.injEq] at h
      obtain ⟨rfl, rfl, rfl⟩ := h
      exact ⟨.skip gp w, hpop⟩
    -- the five branches of the source's switch: four keep the work, one records the transaction
    rcases happ : applyTransaction b env (some coinbase) gp w.state w.header tx w.header.gasUsed
      with ⟨_ | r, s, gp''⟩
    all_goals simp only [commitTransaction, happ] at h
    · rename_i e
      cases e <;>
        (simp only [Option.some.injEq, Prod.mk.injEq] at h
         obtain ⟨rfl, rfl, rfl⟩ := h
         first
         | exact ⟨.revert gp w happ, hpop⟩
         | exact ⟨.revert gp w happ, hshift⟩)
    · simp only [Option.some.injEq, Prod.mk.injEq] at h
      obtain ⟨rfl, rfl, rfl⟩ := h
      exact ⟨.commit gp w happ, hshift⟩

/-- A round never raises the pool, and changes the header's gas used only. -/
theorem CommitStep.pool_le {gp gp' : Nat} {w w' : Work σ τ}
    (h : CommitStep b env coinbase (gp, w) (gp', w')) :
    gp' ≤ gp ∧ w'.header = { w.header with gasUsed := w'.header.gasUsed } := by
  cases h with
  | skip => exact ⟨le_refl _, rfl⟩
  | @revert _ _ tx e s _ happ =>
    have hle := applyTransaction_pool_le b env (some coinbase) gp w.state w.header tx w.header.gasUsed
    rw [happ] at hle
    exact ⟨hle, rfl⟩
  | @commit _ _ tx r s _ happ =>
    have hle := applyTransaction_pool_le b env (some coinbase) gp w.state w.header tx w.header.gasUsed
    rw [happ] at hle
    exact ⟨hle, rfl⟩

/-! ### The loop -/

@[simp] theorem commitLoop_zero (txs : q) (gp : Nat) (w : Work σ τ) :
    commitLoop b env Q coinbase 0 txs gp w = w := rfl

theorem commitLoop_succ (fuel : Nat) (txs : q) (gp : Nat) (w : Work σ τ) :
    commitLoop b env Q coinbase (fuel + 1) txs gp w =
      match commitRound b env Q coinbase txs gp w with
      | none => w
      | some (txs, gp, w) => commitLoop b env Q coinbase fuel txs gp w := rfl

/-- **The loop breaks within `size` rounds**: a round more changes nothing. Induction on the
fuel; every round that goes on shrinks the queue. -/
theorem commitLoop_succ_of_size_le :
    ∀ (fuel : Nat) (txs : q) (gp : Nat) (w : Work σ τ), Q.size txs ≤ fuel →
      commitLoop b env Q coinbase (fuel + 1) txs gp w = commitLoop b env Q coinbase fuel txs gp w
  | 0, txs, gp, w, hsize => by
    rw [commitLoop_succ]
    rcases hr : commitRound b env Q coinbase txs gp w with _ | ⟨txs', gp', w'⟩
    · rfl
    · have := (commitRound_eq_some b env Q coinbase hr).2
      omega
  | fuel + 1, txs, gp, w, hsize => by
    rw [commitLoop_succ, commitLoop_succ]
    rcases hr : commitRound b env Q coinbase txs gp w with _ | ⟨txs', gp', w'⟩
    · rfl
    · have := (commitRound_eq_some b env Q coinbase hr).2
      exact commitLoop_succ_of_size_le fuel txs' gp' w' (by omega)

/-- The loop changes the header's gas used only. -/
theorem header_commitLoop :
    ∀ (fuel : Nat) (txs : q) (gp : Nat) (w : Work σ τ),
      (commitLoop b env Q coinbase fuel txs gp w).header =
        { w.header with gasUsed := (commitLoop b env Q coinbase fuel txs gp w).header.gasUsed }
  | 0, _, _, _ => rfl
  | fuel + 1, txs, gp, w => by
    rw [commitLoop_succ]
    rcases hr : commitRound b env Q coinbase txs gp w with _ | ⟨txs', gp', w'⟩
    · rfl
    · have hw := ((commitRound_eq_some b env Q coinbase hr).1.pool_le b env coinbase).2
      simp only
      rw [header_commitLoop fuel txs' gp' w', hw]

/-- The validator's loop on one more transaction that applies. -/
theorem applyTransactions_cons_of_ok {header : Header} {tx : τ} {txs : List τ} {gp gp' : Nat}
    {s s' : σ} {usedGas : UInt64} {r : Receipt}
    (h : applyTransaction b env none gp s header tx usedGas = (.ok r, s', gp')) :
    applyTransactions b env header (tx :: txs) gp s usedGas =
      match applyTransactions b env header txs gp' s' r.cumulativeGasUsed with
      | .error e => .error e
      | .ok (receipts, s, usedGas) => .ok (r :: receipts, s, usedGas) := by
  -- the statement's match and the definition's are two matchers: compare them on each outcome
  rcases hr : applyTransactions b env header txs gp' s' r.cumulativeGasUsed with
    e | ⟨receipts, s'', usedGas'⟩ <;> simp only [applyTransactions, h, hr]

/-- The validator applies a transaction as the miner did, from a pool at least the miner's,
when the headers agree and the block's author is the coinbase. -/
theorem applyTransaction_none_of_commit {header header' : Header} (hc : SameContext header header')
    (hauthor : author env header' = coinbase) {gp gpv : Nat} (hle : gp ≤ gpv) {s s' : σ} {tx : τ}
    {usedGas : UInt64} {r : Receipt} {gp' : Nat}
    (h : applyTransaction b env (some coinbase) gp s header tx usedGas = (.ok r, s', gp')) :
    applyTransaction b env none gpv s header' tx usedGas = (.ok r, s', gp' + (gpv - gp)) := by
  have hben : beneficiary env header (some coinbase) = beneficiary env header' none := by
    simp only [beneficiary, hauthor]
  rw [← applyTransaction_congr b env hc hben, show gpv = gp + (gpv - gp) by omega,
    applyTransaction_addPool b env _ gp _ s header tx usedGas (by rw [h]; simp), h]
  simp only [Nat.add_sub_cancel_left]

/-- **What the validator replays of the miner's loop.** From work whose header agrees with
`header'` on what transactions read, and a pool `gpv` at least the miner's, the validator
applying the transactions the loop added, with the author of `header'` as beneficiary, gets the
receipts the loop added, the loop's state and its gas used. Induction on the fuel: a skipped or
reverted transaction leaves the work as it was and the miner's pool no larger; an included one
applies the same for the validator. -/
theorem replay_commitLoop {header' : Header} (hauthor : author env header' = coinbase) :
    ∀ (fuel : Nat) (txs : q) (gp : Nat) (w : Work σ τ) (gpv : Nat), gp ≤ gpv →
      SameContext w.header header' →
      ∃ added receipts, (commitLoop b env Q coinbase fuel txs gp w).txs = w.txs ++ added ∧
        (commitLoop b env Q coinbase fuel txs gp w).receipts = w.receipts ++ receipts ∧
        applyTransactions b env header' added gpv w.state w.header.gasUsed =
          .ok (receipts, (commitLoop b env Q coinbase fuel txs gp w).state,
            (commitLoop b env Q coinbase fuel txs gp w).header.gasUsed)
  | 0, _, _, w, _, _, _ => ⟨[], [], by simp, by simp, rfl⟩
  | fuel + 1, txs, gp, w, gpv, hle, hc => by
    rw [commitLoop_succ]
    rcases hr : commitRound b env Q coinbase txs gp w with _ | ⟨txs', gp', w'⟩
    · exact ⟨[], [], by simp, by simp, rfl⟩
    have hstep := (commitRound_eq_some b env Q coinbase hr).1
    have hpool := (hstep.pool_le b env coinbase).1
    simp only
    cases hstep with
    | skip => exact replay_commitLoop hauthor fuel txs' gp w gpv hle hc
    | revert _ _ happ => exact replay_commitLoop hauthor fuel txs' gp' w gpv (by omega) hc
    | @commit _ _ tx r s _ happ =>
      -- the validator's pool keeps its surplus over the miner's
      obtain ⟨added, receipts, htxs, hrec, hrun⟩ := replay_commitLoop hauthor fuel txs' gp'
        { w with
            state := s
            header := { w.header with gasUsed := r.cumulativeGasUsed }
            txs := w.txs ++ [tx]
            receipts := w.receipts ++ [r]
            tcount := w.tcount + 1 }
        (gp' + (gpv - gp)) (by omega) (hc.withGasUsed r.cumulativeGasUsed)
      refine ⟨tx :: added, r :: receipts, by simp [htxs], by simp [hrec], ?_⟩
      rw [applyTransactions_cons_of_ok b env
        (applyTransaction_none_of_commit b env coinbase hc hauthor hle happ)]
      simp only at hrun
      rw [hrun]

/-! ### The sealed block -/

/-- The block the miner finalizes keeps the prepared header's context. -/
theorem sameContext_mine (s : σ) (header : Header) (txs : q) :
    SameContext header (mine b env Q coinbase s header txs).1.header := by
  have hwh := header_commitLoop b env Q coinbase (Q.size txs) txs header.gasLimit.toNat
    ⟨applyDAO b header.number s, header, [], [], 0⟩
  exact ⟨(congrArg Header.number hwh).symm, (congrArg Header.timeMS hwh).symm,
    (congrArg Header.difficulty hwh).symm, (congrArg Header.gasLimit hwh).symm,
    (congrArg Header.parentHash hwh).symm⟩

/-- **A sealed block passes the validator when its author is the coinbase the miner credited.**
From the parent's state, `Process` on the block `Seal` signed gives the miner's receipts, gas
used and state, and `ValidateState` accepts them. -/
theorem validateState_mine {ρ : Type} (rng : GoRand ρ) (chain : ChainView) (s : σ)
    (header : Header) (txs : q) {signer : Address}
    {signFn : Address → Hash → Except DposError (List UInt8)} {txCount : Nat} {stopped : Bool}
    {st st' : ρ} {sealed : Header} (hgas : header.gasUsed = 0)
    (hseal : sealHeader env rng chain signer signFn txCount stopped
      (mine b env Q coinbase s header txs).1.header st = (.ok (some sealed), st'))
    (hauthor : author env sealed = coinbase) :
    ∃ receipts logs usedGas s',
      process b env { (mine b env Q coinbase s header txs).1 with header := sealed } s =
        .ok (receipts, logs, usedGas, s') ∧
      validateState b { (mine b env Q coinbase s header txs).1 with header := sealed } s'
        receipts usedGas = .ok () := by
  obtain ⟨-, arch, sig, -, -, -, hsealed⟩ := sealHeader_eq_some env rng chain hseal
  have hctx : SameContext header sealed := by
    rw [hsealed]
    exact (sameContext_mine b env Q coinbase s header txs).withExtra _
  -- the validator replays the whole loop, from the full pool the miner started with
  obtain ⟨added, receipts, htxs, hrec, hrun⟩ := replay_commitLoop b env Q coinbase hauthor
    (Q.size txs) txs header.gasLimit.toNat ⟨applyDAO b header.number s, header, [], [], 0⟩
    header.gasLimit.toNat le_rfl hctx
  simp only [List.nil_append] at htxs hrec hrun
  generalize hw : commitLoop b env Q coinbase (Q.size txs) txs header.gasLimit.toNat
    ⟨applyDAO b header.number s, header, [], [], 0⟩ = w at htxs hrec hrun
  have hmine : mine b env Q coinbase s header txs = finalizeBlock b env w.header 0 w.state w.txs
      w.receipts := by
    simp only [mine, commitTransactions, hw]
  rw [hgas] at hrun
  have hnum : w.header.number = header.number := by
    rw [← hw, header_commitLoop]
  -- what the validator reads of the sealed header is what the miner finalized
  have hsealed' : sealed = { finalize env
      (b.db.intermediateRoot w.state (b.config.isEIP158 w.header.number)).2
      (if w.txs.isEmpty then b.hashing.emptyRootHash else b.hashing.deriveSha b.hashing.encodeTx w.txs)
      (b.hashing.deriveSha b.hashing.encodeReceipt w.receipts) w.header with extra := sealed.extra } := by
    rw [hsealed, hmine, header_finalizeBlock]
  refine ⟨receipts, receipts.flatMap (·.logs), w.header.gasUsed,
    (b.db.intermediateRoot w.state (b.config.isEIP158 header.number)).1, ?_, ?_⟩
  · simp only [process, hmine, transactions_finalizeBlock, htxs, ← hctx.number, ← hctx.gasLimit,
      hrun, snd_finalizeBlock]
  · rw [hsealed']
    simp only [validateState, hmine, bloom_finalizeBlock, finalize, hrec, hnum,
      b.db.root_intermediateRoot, ne_eq, not_true_eq_false, if_false]

end Worker

/-! ### A change of coinbase -/

/-- Balances, the whole state of the smallest case. -/
structure Ledger where
  balance : Address → Nat

/-- A root that tells the balances of accounts `1` and `2` apart. -/
def Ledger.root (l : Ledger) : Hash :=
  ⟨(l.balance 1 + 2 ^ 64 * l.balance 2) % 2 ^ (8 * HashLength), Nat.mod_lt _ (Nat.two_pow_pos _)⟩

/-- A state database of balances alone, every account existing. -/
def ledgerDB : StateDB Ledger where
  exist _ _ := true
  createAccount l _ := l
  getBalance l a := l.balance a
  addBalance l a v := ⟨fun x => if x = a then l.balance x + v else l.balance x⟩
  subBalance l a v := ⟨fun x => if x = a then l.balance x - v else l.balance x⟩
  getNonce _ _ := 0
  setNonce l _ _ := l
  getRefund _ := 0
  getLogs _ _ := []
  finalise l _ := l
  intermediateRoot l _ := (l, l.root)
  applyDAOHardFork l := l
  root_intermediateRoot _ _ := rfl

/-- An EVM whose calls do nothing and use no gas. -/
def idleEvm : Evm Ledger where
  create _ l _ _ gas _ := (l, gas, none)
  call _ l _ _ _ gas _ := (l, gas, none)
  create_le _ _ _ _ _ _ := le_refl _
  call_le _ _ _ _ _ _ _ := le_refl _

/-- A chain with no forks, whose transactions are their messages. -/
def ledgerBackend : Backend Ledger Message where
  config := ⟨none, none, false, none, none, none⟩
  db := ledgerDB
  evm := idleEvm
  tx := ⟨fun _ => 0, Message.nonce, fun _ => false, fun m _ => .ok m⟩
  hashing := ⟨fun _ => 0, fun _ => [], fun _ => [], fun _ => 0, fun _ _ => 0⟩

/-- Pending transactions in a list, offered in order. -/
def listQueue : TxQueue (List Message) Message where
  peek := List.head?
  shift := List.tail
  pop := List.tail
  size := List.length
  size_shift txs tx h := by
    cases txs with
    | nil => cases h
    | cons _ _ => simp
  size_pop txs tx h := by
    cases txs with
    | nil => cases h
    | cons _ _ => simp

/-- Account `3` pays for a plain transfer: 21000 gas at price 1. -/
def feeTx : Message := ⟨3, some 4, 0, 21000, 1, 0, [], false⟩

/-- Account `3` holds exactly the fee. -/
def feeLedger : Ledger := ⟨fun a => if a = 3 then 21000 else 0⟩

/-- Block 1 on the four-signer genesis, prepared in turn with room for 30000 gas. -/
def feeHeader : Header :=
  ⟨0, 0, 0, 0, 0, 0, 2, 1, 30000, 0, 0, List.replicate (extraVanity + extraSeal) 0, 0, 0⟩

/-- The block the miner seals: the fee of `feeTx` credited to account `2` in its root. -/
def feeSealed : Header := { feeHeader with root := 2 ^ 64 * 21000, gasUsed := 21000 }

/-- **After a change of coinbase the validators reject the block.** The engine seals as signer
`1`, while the worker's coinbase is `2`: the miner pays the fee to `2` and hashes that state
into the header, every validator pays it to the block's author `1`, and the state roots
differ. -/
theorem validateState_mine_coinbase :
    sealHeader (genesisEnv ⟨none, 0⟩) counterRand genesisChain 1
        (fun _ _ => .ok (List.replicate extraSeal 0)) 1 false
        (mine ledgerBackend (genesisEnv ⟨none, 0⟩) listQueue 2 feeLedger feeHeader [feeTx]).1.header
        0 = (.ok (some feeSealed), 0) ∧
      author (genesisEnv ⟨none, 0⟩) feeSealed = 1 ∧
      validateBlockState ledgerBackend (genesisEnv ⟨none, 0⟩)
          { (mine ledgerBackend (genesisEnv ⟨none, 0⟩) listQueue 2 feeLedger feeHeader [feeTx]).1 with
            header := feeSealed } feeLedger =
        .error (.validate (.invalidMerkleRoot (2 ^ 64 * 21000) 21000)) :=
  ⟨by decide +kernel, by decide +kernel, by decide +kernel⟩

/-! ### A failed transaction and the block's gas pool -/

/-- Account `3` sends a transfer with 20000 gas, less than the 21000 a transfer costs. -/
def shortTx : Message := ⟨3, some 4, 0, 20000, 1, 0, [], false⟩

/-- The work of block 1 before any transaction, on `feeLedger`, with room for 30000 gas. -/
def feeWork : Work Ledger Message := ⟨feeLedger, feeHeader, [], [], 0⟩

/-- **A failed transaction drains the block's gas pool.** `shortTx` buys its 20000 gas from the
pool of 30000, then fails for want of intrinsic gas. `commitTransaction` reverts the state and
keeps the work as it was, but the pool is down to 10000. The transfer `feeTx` that follows no
longer fits, and the block is sealed without it. -/
theorem commitTransaction_shortTx_drains_pool :
    commitTransaction ledgerBackend (genesisEnv ⟨none, 0⟩) 2 feeWork shortTx 30000 =
        (.error .outOfGas, feeWork, 10000) ∧
      commitTransactions ledgerBackend (genesisEnv ⟨none, 0⟩) listQueue 2 feeWork
        [shortTx, feeTx] = feeWork :=
  ⟨rfl, rfl⟩

end EpvChain.Miner
