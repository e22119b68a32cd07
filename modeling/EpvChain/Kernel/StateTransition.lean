import EpvChain.Kernel.Types.Block

/-!
# Applying one message to the state (`kernel/state_transition.go`)

`ApplyMessage` checks the nonce, buys the gas from the sender and the block's gas pool, charges
the intrinsic gas, runs the EVM, refunds what is left, and pays the gas used to the beneficiary.
Go mutates the state and the pool in place, so each step returns its result with the
`Transition` it changed, failed or not. The state database and the EVM are boundaries (`StateDB`,
`Evm`) with the laws the proofs need. Gas is natural: each amount is bounded by the gas bought,
as the EVM returns at most what it is given (`Evm.create_le`, `Evm.call_le`), so no subtraction
wraps.

* `applyMessage_addPool` — the pool only gates the purchase: a larger pool runs the same.
* `applyMessage_pool_le` — no message raises the pool, so `GasPool.AddGas` never overflows.
* `transitionDb_gas_accounting` — a message that goes through used the gas bought less what the
  EVM left and the refund (at most half the gas used); the pool ends short by the gas used; the
  sender pays and the beneficiary receives the gas used at its price (`StateDB.BalanceLaws`).
-/

namespace EpvChain.Core

open EpvChain.Types

/-- `params.TxGas`. -/
def TxGas : Nat := 21000

/-- `params.TxGasContractCreation`. -/
def TxGasContractCreation : Nat := 53000

/-- `params.TxDataZeroGas`. -/
def TxDataZeroGas : Nat := 4

/-- `params.TxDataNonZeroGas`. -/
def TxDataNonZeroGas : Nat := 68

/-- `math.MaxUint64`. -/
def MaxUint64 : Nat := 2 ^ 64 - 1

/-- `params.ChainConfig`, the fork blocks that block processing reads.
Source: `content/config.go` `type ChainConfig struct` -/
structure ChainConfig where
  homesteadBlock : Option Nat
  daoForkBlock : Option Nat
  daoForkSupport : Bool
  eip155Block : Option Nat
  eip158Block : Option Nat
  byzantiumBlock : Option Nat

/-- `isForked`: a fork block is set and the head has reached it.
Source: `content/config.go` `isForked` -/
def isForked (s : Option Nat) (head : Nat) : Bool :=
  match s with
  | none => false
  | some s => decide (s ≤ head)

namespace ChainConfig

variable (c : ChainConfig) (num : Nat)

/-- `ChainConfig.IsHomestead`. -/
def isHomestead : Bool := isForked c.homesteadBlock num

/-- `ChainConfig.IsEIP155`. -/
def isEIP155 : Bool := isForked c.eip155Block num

/-- `ChainConfig.IsEIP158`. -/
def isEIP158 : Bool := isForked c.eip158Block num

/-- `ChainConfig.IsByzantium`. -/
def isByzantium : Bool := isForked c.byzantiumBlock num

end ChainConfig

/-- The errors a transaction can end with: `AsMessage`'s signature errors, the nonce and gas
checks of `preCheck`, and the one EVM error `TransitionDb` passes on.
Source: `kernel/error.go`; `kernel/state_transition.go`; `kernel/vm/errors.go` -/
inductive TxError
  | invalidSender
  | nonceTooHigh
  | nonceTooLow
  | insufficientBalanceForGas
  | gasLimitReached
  | outOfGas
  | insufficientBalance
  deriving DecidableEq, Repr

/-- The errors of an EVM run: `vm.ErrInsufficientBalance`, which aborts the transaction, and
every other (out of gas, depth, revert and the rest), which only marks it failed. -/
inductive VmError
  | insufficientBalance
  | other
  deriving DecidableEq, Repr

/-- `types.Message`; `recipient` is `To()`.
Source: `kernel/types/transaction.go` `type Message struct` -/
structure Message where
  sender : Address
  recipient : Option Address
  nonce : UInt64
  gas : UInt64
  gasPrice : Nat
  value : Nat
  data : List UInt8
  checkNonce : Bool
  deriving DecidableEq, Repr

/-- `vm.Context`, the block and message data an EVM run reads. `parentHash` stands for
`GetHash`, which walks the chain from the header's parent.
Source: `kernel/vm/evm.go` `type Context struct`; `kernel/evm.go` `NewEVMContext` -/
structure Context where
  origin : Address
  coinbase : Address
  blockNumber : Nat
  time : Nat
  difficulty : Nat
  gasLimit : UInt64
  gasPrice : Nat
  parentHash : Hash
  deriving DecidableEq, Repr

/-- The operations of `state.StateDB` that block processing uses. A snapshot and its revert
are the state value kept aside and restored. `intermediateRoot` finalises the state as it
hashes it, so hashing a second time changes nothing: the one law the proofs need.
Source: `kernel/state/statedb.go`; `agreement/misc/dao.go` `ApplyDAOHardFork` -/
structure StateDB (σ : Type) where
  exist : σ → Address → Bool
  createAccount : σ → Address → σ
  getBalance : σ → Address → Nat
  addBalance : σ → Address → Nat → σ
  subBalance : σ → Address → Nat → σ
  getNonce : σ → Address → UInt64
  setNonce : σ → Address → UInt64 → σ
  getRefund : σ → Nat
  getLogs : σ → Hash → List Log
  finalise : σ → Bool → σ
  intermediateRoot : σ → Bool → σ × Hash
  applyDAOHardFork : σ → σ
  root_intermediateRoot : ∀ s deleteEmpty,
    (intermediateRoot (intermediateRoot s deleteEmpty).1 deleteEmpty).2 =
      (intermediateRoot s deleteEmpty).2

/-- `vm.EVM`'s `Create` and `Call`: the new state, the gas left and the error, from the context,
the state, the caller (and callee), the input, the gas and the value. Neither returns more gas
than it was given.
Source: `kernel/vm/evm.go` `EVM.Create`, `EVM.Call` -/
structure Evm (σ : Type) where
  create : Context → σ → Address → List UInt8 → Nat → Nat → σ × Nat × Option VmError
  call : Context → σ → Address → Address → List UInt8 → Nat → Nat → σ × Nat × Option VmError
  create_le : ∀ ctx s caller code gas value, (create ctx s caller code gas value).2.1 ≤ gas
  call_le : ∀ ctx s caller addr input gas value, (call ctx s caller addr input gas value).2.1 ≤ gas

/-- What the gas accounting reads of the state database: how `AddBalance`, `SubBalance` and
`CreateAccount` change each address's balance; `CreateAccount` carries an existing balance over.
Source: `kernel/state/statedb.go` `AddBalance`, `SubBalance`, `CreateAccount` -/
structure StateDB.BalanceLaws {σ : Type} (db : StateDB σ) : Prop where
  addBalance : ∀ s a v b, db.getBalance (db.addBalance s a v) b = db.getBalance s b + if b = a then v else 0
  subBalance : ∀ s a v b, db.getBalance (db.subBalance s a v) b = db.getBalance s b - if b = a then v else 0
  createAccount : ∀ s a b, db.getBalance (db.createAccount s a) b = db.getBalance s b

/-- The fields of `StateTransition` that change while a message runs: the state database, the
block's gas pool, and the message's remaining and bought gas.
Source: `kernel/state_transition.go` `type StateTransition struct` -/
structure Transition (σ : Type) where
  state : σ
  gp : Nat
  gas : Nat
  initialGas : Nat

/-- `GasPool.SubGas`.
Source: `kernel/gaspool.go` -/
def subGas (gp amount : Nat) : Except TxError Nat :=
  if gp < amount then .error .gasLimitReached else .ok (gp - amount)

/-- `core.IntrinsicGas`: the base cost, and the data bytes at their price, with the source's
overflow checks against `MaxUint64`.
Source: `kernel/state_transition.go` `IntrinsicGas` -/
def intrinsicGas (data : List UInt8) (contractCreation homestead : Bool) : Except TxError Nat :=
  let gas := if contractCreation && homestead then TxGasContractCreation else TxGas
  if data.length > 0 then
    let nz := data.countP (· != 0)
    if (MaxUint64 - gas) / TxDataNonZeroGas < nz then .error .outOfGas
    else
      let gas := gas + nz * TxDataNonZeroGas
      let z := data.length - nz
      if (MaxUint64 - gas) / TxDataZeroGas < z then .error .outOfGas
      else .ok (gas + z * TxDataZeroGas)
  else .ok gas

section Transition

variable {σ : Type} (db : StateDB σ) (msg : Message)

/-- `st.from()` and `st.to()`: the account, created if it does not exist. -/
def touch (s : σ) (addr : Address) : σ :=
  if db.exist s addr then s else db.createAccount s addr

/-- `StateTransition.buyGas`: the sender must hold `gas * gasPrice`, and the pool `gas`.
Source: `kernel/state_transition.go` -/
def buyGas (t : Transition σ) : Except TxError Unit × Transition σ :=
  let s := touch db t.state msg.sender
  let mgval := msg.gas.toNat * msg.gasPrice
  if db.getBalance s msg.sender < mgval then (.error .insufficientBalanceForGas, { t with state := s })
  else
    match subGas t.gp msg.gas.toNat with
    | .error e => (.error e, { t with state := s })
    | .ok gp =>
      let t : Transition σ :=
        { state := db.subBalance s msg.sender mgval
          gp := gp
          gas := t.gas + msg.gas.toNat
          initialGas := msg.gas.toNat }
      (.ok (), t)

/-- `StateTransition.preCheck`: the nonce check, then `buyGas`.
Source: `kernel/state_transition.go` -/
def preCheck (t : Transition σ) : Except TxError Unit × Transition σ :=
  let t := { t with state := touch db t.state msg.sender }
  if msg.checkNonce then
    let nonce := db.getNonce t.state msg.sender
    if nonce < msg.nonce then (.error .nonceTooHigh, t)
    else if nonce > msg.nonce then (.error .nonceTooLow, t)
    else buyGas db msg t
  else buyGas db msg t

/-- `StateTransition.useGas`.
Source: `kernel/state_transition.go` -/
def useGas (t : Transition σ) (amount : Nat) : Except TxError Unit × Transition σ :=
  if t.gas < amount then (.error .outOfGas, t) else (.ok (), { t with gas := t.gas - amount })

/-- `StateTransition.gasUsed`. -/
def gasUsed (t : Transition σ) : Nat := t.initialGas - t.gas

/-- `StateTransition.refundGas`: give back up to half the gas used from the refund counter, pay
the remaining gas back to the sender, and return it to the pool.
Source: `kernel/state_transition.go` -/
def refundGas (t : Transition σ) : Transition σ :=
  let refund := min (gasUsed t / 2) (db.getRefund t.state)
  let gas := t.gas + refund
  let s := touch db t.state msg.sender
  { t with state := db.addBalance s msg.sender (gas * msg.gasPrice), gp := t.gp + gas, gas }

/-- The EVM run of `TransitionDb`: `Create` for a message without a recipient; otherwise the
sender's nonce is raised and `Call` runs on the recipient's account. -/
def runEvm (evm : Evm σ) (ctx : Context) (t : Transition σ) : σ × Nat × Option VmError :=
  match msg.recipient with
  | none => evm.create ctx t.state msg.sender msg.data t.gas msg.value
  | some addr =>
    let s := db.setNonce t.state msg.sender (db.getNonce t.state msg.sender + 1)
    evm.call ctx (touch db s addr) msg.sender addr msg.data t.gas msg.value

/-- What `TransitionDb` does once the intrinsic gas is paid: run the EVM, refund what is left,
and pay the gas used to the beneficiary. -/
def runMessage (evm : Evm σ) (ctx : Context) (t : Transition σ) :
    Except TxError (Nat × Bool) × Transition σ :=
  let (s, gas, vmerr) := runEvm db msg evm ctx t
  let t := { t with state := s, gas }
  -- only a failed balance transfer aborts; every other EVM error marks the receipt failed
  if vmerr = some .insufficientBalance then (.error .insufficientBalance, t)
  else
    let t := refundGas db msg t
    let t := { t with state := db.addBalance t.state ctx.coinbase (gasUsed t * msg.gasPrice) }
    (.ok (gasUsed t, vmerr.isSome), t)

/-- What `TransitionDb` does once `preCheck` has passed: charge the intrinsic gas, then
`runMessage`. -/
def execute (config : ChainConfig) (evm : Evm σ) (ctx : Context) (t : Transition σ) :
    Except TxError (Nat × Bool) × Transition σ :=
  let t := { t with state := touch db t.state msg.sender }
  match intrinsicGas msg.data msg.recipient.isNone (config.isHomestead ctx.blockNumber) with
  | .error e => (.error e, t)
  | .ok gas =>
    match useGas t gas with
    | (.error e, t) => (.error e, t)
    | (.ok (), t) => runMessage db msg evm ctx t

/-- `StateTransition.TransitionDb`: the gas used and whether the EVM failed, or an error.
Source: `kernel/state_transition.go` -/
def transitionDb (config : ChainConfig) (evm : Evm σ) (ctx : Context) (t : Transition σ) :
    Except TxError (Nat × Bool) × Transition σ :=
  match preCheck db msg t with
  | (.error e, t) => (.error e, t)
  | (.ok (), t) => execute db msg config evm ctx t

/-- `core.ApplyMessage`: a fresh transition on the state and the pool; the result, and the state
and pool it leaves.
Source: `kernel/state_transition.go` `ApplyMessage` -/
def applyMessage (config : ChainConfig) (evm : Evm σ) (ctx : Context) (s : σ) (gp : Nat) :
    Except TxError (Nat × Bool) × σ × Nat :=
  let (r, t) := transitionDb db msg config evm ctx { state := s, gp, gas := 0, initialGas := 0 }
  (r, t.state, t.gp)

/-! ### The gas pool only gates the purchase -/

/-- The transition with `d` more gas in the pool. -/
def Transition.addPool (t : Transition σ) (d : Nat) : Transition σ := { t with gp := t.gp + d }

@[simp] theorem Transition.gp_addPool (t : Transition σ) (d : Nat) : (t.addPool d).gp = t.gp + d :=
  rfl

@[simp] theorem Transition.state_addPool (t : Transition σ) (d : Nat) :
    (t.addPool d).state = t.state := rfl

@[simp] theorem Transition.gas_addPool (t : Transition σ) (d : Nat) : (t.addPool d).gas = t.gas :=
  rfl

@[simp] theorem Transition.initialGas_addPool (t : Transition σ) (d : Nat) :
    (t.addPool d).initialGas = t.initialGas := rfl

theorem buyGas_addPool (t : Transition σ) (d : Nat)
    (h : (buyGas db msg t).1 ≠ .error .gasLimitReached) :
    buyGas db msg (t.addPool d) = ((buyGas db msg t).1, (buyGas db msg t).2.addPool d) := by
  by_cases hbal : db.getBalance (touch db t.state msg.sender) msg.sender < msg.gas.toNat * msg.gasPrice
  · simp only [buyGas, Transition.state_addPool, hbal, if_true]
    rfl
  · -- the pool held the gas, so it holds it with `d` more
    have hle : msg.gas.toNat ≤ t.gp := by
      by_contra hlt
      simp [buyGas, hbal, subGas, show t.gp < msg.gas.toNat by omega] at h
    simp only [buyGas, Transition.state_addPool, Transition.gp_addPool, Transition.gas_addPool, hbal,
      if_false, subGas, show ¬t.gp < msg.gas.toNat by omega, show ¬t.gp + d < msg.gas.toNat by omega]
    simp only [Transition.addPool, Prod.mk.injEq, Transition.mk.injEq, true_and, and_true]
    omega

theorem preCheck_addPool (t : Transition σ) (d : Nat)
    (h : (preCheck db msg t).1 ≠ .error .gasLimitReached) :
    preCheck db msg (t.addPool d) = ((preCheck db msg t).1, (preCheck db msg t).2.addPool d) := by
  by_cases hc : msg.checkNonce = true
  · by_cases hhi : db.getNonce (touch db t.state msg.sender) msg.sender < msg.nonce
    · simp only [preCheck, Transition.state_addPool, hc, hhi, if_true]
      rfl
    by_cases hlo : db.getNonce (touch db t.state msg.sender) msg.sender > msg.nonce
    · simp only [preCheck, Transition.state_addPool, hc, hhi, hlo, if_true, if_false]
      rfl
    simp only [preCheck, Transition.state_addPool, hc, hhi, hlo, if_true, if_false] at h ⊢
    exact buyGas_addPool db msg _ d h
  · simp only [preCheck, Transition.state_addPool, hc, if_false, Bool.false_eq_true] at h ⊢
    exact buyGas_addPool db msg _ d h

theorem useGas_addPool (t : Transition σ) (d amount : Nat) :
    useGas (t.addPool d) amount = ((useGas t amount).1, (useGas t amount).2.addPool d) := by
  by_cases hg : t.gas < amount
  · simp only [useGas, Transition.gas_addPool, hg, if_true]
  · simp only [useGas, Transition.gas_addPool, hg, if_false]
    rfl

theorem refundGas_addPool (t : Transition σ) (d : Nat) :
    refundGas db msg (t.addPool d) = (refundGas db msg t).addPool d := by
  simp only [refundGas, Transition.addPool, gasUsed, Transition.mk.injEq, and_true, true_and]
  omega

theorem runEvm_addPool (evm : Evm σ) (ctx : Context) (t : Transition σ) (d : Nat) :
    runEvm db msg evm ctx (t.addPool d) = runEvm db msg evm ctx t := rfl

theorem runMessage_addPool (evm : Evm σ) (ctx : Context) (t : Transition σ) (d : Nat) :
    runMessage db msg evm ctx (t.addPool d) =
      ((runMessage db msg evm ctx t).1, (runMessage db msg evm ctx t).2.addPool d) := by
  by_cases hvm : (runEvm db msg evm ctx t).2.2 = some .insufficientBalance
  · simp only [runMessage, runEvm_addPool, hvm, if_true]
    rfl
  · -- the refund is the one step past the purchase that touches the pool
    have hr : refundGas db msg ⟨(runEvm db msg evm ctx t).1, t.gp + d,
        (runEvm db msg evm ctx t).2.1, t.initialGas⟩ =
        (refundGas db msg ⟨(runEvm db msg evm ctx t).1, t.gp,
          (runEvm db msg evm ctx t).2.1, t.initialGas⟩).addPool d :=
      refundGas_addPool db msg ⟨(runEvm db msg evm ctx t).1, t.gp,
        (runEvm db msg evm ctx t).2.1, t.initialGas⟩ d
    simp only [runMessage, runEvm_addPool, hvm, if_false, Transition.gp_addPool,
      Transition.initialGas_addPool]
    rw [hr]
    rfl

/-- Past the purchase nothing reads the pool; the refund only adds to it. -/
theorem execute_addPool (config : ChainConfig) (evm : Evm σ) (ctx : Context) (t : Transition σ)
    (d : Nat) :
    execute db msg config evm ctx (t.addPool d) =
      ((execute db msg config evm ctx t).1, (execute db msg config evm ctx t).2.addPool d) := by
  have htouch : ({ t.addPool d with state := touch db (t.addPool d).state msg.sender } :
      Transition σ) = ({ t with state := touch db t.state msg.sender } : Transition σ).addPool d :=
    rfl
  simp only [execute, htouch]
  generalize ({ t with state := touch db t.state msg.sender } : Transition σ) = t
  cases intrinsicGas msg.data msg.recipient.isNone (config.isHomestead ctx.blockNumber) with
  | error e => rfl
  | ok g =>
    simp only [useGas_addPool]
    rcases useGas t g with ⟨_ | ⟨⟩, t⟩
    · rfl
    · exact runMessage_addPool db msg evm ctx t d

theorem transitionDb_addPool (config : ChainConfig) (evm : Evm σ) (ctx : Context)
    (t : Transition σ) (d : Nat)
    (h : (transitionDb db msg config evm ctx t).1 ≠ .error .gasLimitReached) :
    transitionDb db msg config evm ctx (t.addPool d) =
      ((transitionDb db msg config evm ctx t).1, (transitionDb db msg config evm ctx t).2.addPool d) := by
  unfold transitionDb at h ⊢
  rcases hp : preCheck db msg t with ⟨_ | ⟨⟩, t'⟩
  · simp only [hp] at h
    rw [preCheck_addPool db msg t d (by rw [hp]; simpa using h), hp]
  · rw [preCheck_addPool db msg t d (by rw [hp]; simp), hp]
    exact execute_addPool db msg config evm ctx t' d

/-- **The gas pool only gates the purchase.** A message that does not fail for want of pool gas
gives the same result and state with `d` more gas in the pool, and leaves `d` more in it. -/
theorem applyMessage_addPool (config : ChainConfig) (evm : Evm σ) (ctx : Context) (s : σ)
    (gp d : Nat) (h : (applyMessage db msg config evm ctx s gp).1 ≠ .error .gasLimitReached) :
    applyMessage db msg config evm ctx s (gp + d) =
      ((applyMessage db msg config evm ctx s gp).1, (applyMessage db msg config evm ctx s gp).2.1,
        (applyMessage db msg config evm ctx s gp).2.2 + d) := by
  have ht := transitionDb_addPool db msg config evm ctx ⟨s, gp, 0, 0⟩ d h
  unfold applyMessage
  exact congrArg (fun r => (r.1, r.2.state, r.2.gp)) ht

/-! ### No message raises the pool -/

/-- What a running message holds of the pool: the pool and the gas bought together stay within
the pool it started from, and the gas left within the gas bought. -/
structure Transition.Bought (gp0 : Nat) (t : Transition σ) : Prop where
  pool_le : t.gp + t.initialGas ≤ gp0
  gas_le : t.gas ≤ t.initialGas

theorem bought_buyGas (s : σ) (gp : Nat) : (buyGas db msg ⟨s, gp, 0, 0⟩).2.Bought gp := by
  by_cases hbal : db.getBalance (touch db s msg.sender) msg.sender < msg.gas.toNat * msg.gasPrice
  · simp only [buyGas, hbal, if_true]
    exact ⟨by simp, le_refl _⟩
  by_cases hgp : gp < msg.gas.toNat
  · simp only [buyGas, hbal, if_false, subGas, hgp, if_true]
    exact ⟨by simp, le_refl _⟩
  · simp only [buyGas, hbal, if_false, subGas, hgp]
    exact ⟨by simp only; omega, by simp⟩

/-- A fresh transition holds nothing but what `preCheck` buys. -/
theorem bought_preCheck (s : σ) (gp : Nat) : (preCheck db msg ⟨s, gp, 0, 0⟩).2.Bought gp := by
  have hfresh : (⟨touch db s msg.sender, gp, 0, 0⟩ : Transition σ).Bought gp :=
    ⟨by simp, le_refl _⟩
  by_cases hc : msg.checkNonce = true
  · by_cases hhi : db.getNonce (touch db s msg.sender) msg.sender < msg.nonce
    · simpa only [preCheck, hc, hhi, if_true] using hfresh
    by_cases hlo : db.getNonce (touch db s msg.sender) msg.sender > msg.nonce
    · simpa only [preCheck, hc, hhi, hlo, if_true, if_false] using hfresh
    simpa only [preCheck, hc, hhi, hlo, if_true, if_false] using bought_buyGas db msg _ gp
  · simpa only [preCheck, hc, if_false, Bool.false_eq_true] using bought_buyGas db msg _ gp

theorem runEvm_gas_le (evm : Evm σ) (ctx : Context) (t : Transition σ) :
    (runEvm db msg evm ctx t).2.1 ≤ t.gas := by
  unfold runEvm
  cases msg.recipient with
  | none => exact evm.create_le _ _ _ _ _ _
  | some addr => exact evm.call_le _ _ _ _ _ _ _

/-- The refund returns to the pool at most the gas bought: half the gas used at most is added to
what is left. -/
theorem refundGas_gp_le (t : Transition σ) (h : t.gas ≤ t.initialGas) :
    (refundGas db msg t).gp ≤ t.gp + t.initialGas := by
  have hmin : min (gasUsed t / 2) (db.getRefund t.state) ≤ gasUsed t / 2 := min_le_left _ _
  simp only [refundGas, gasUsed] at hmin ⊢
  omega

theorem runMessage_gp_le (evm : Evm σ) (ctx : Context) (t : Transition σ)
    (h : t.gas ≤ t.initialGas) : (runMessage db msg evm ctx t).2.gp ≤ t.gp + t.initialGas := by
  -- the EVM returns at most the gas left, which the refund tops up to at most the gas bought
  have hrun := runEvm_gas_le db msg evm ctx t
  have hr := refundGas_gp_le db msg
    ⟨(runEvm db msg evm ctx t).1, t.gp, (runEvm db msg evm ctx t).2.1, t.initialGas⟩
    (by simp only; omega)
  simp only [runMessage]
  split_ifs
  · simp only
    omega
  · simp only at hr ⊢
    omega

theorem execute_gp_le (config : ChainConfig) (evm : Evm σ) (ctx : Context) {gp0 : Nat}
    (t : Transition σ) (h : t.Bought gp0) : (execute db msg config evm ctx t).2.gp ≤ gp0 := by
  have hpool := h.pool_le
  have hgas := h.gas_le
  unfold execute
  cases intrinsicGas msg.data msg.recipient.isNone (config.isHomestead ctx.blockNumber) with
  | error e => simp only; omega
  | ok g =>
    by_cases hg : t.gas < g
    · simp only [useGas, hg, if_true]
      omega
    · simp only [useGas, hg, if_false]
      have := runMessage_gp_le db msg evm ctx
        ⟨touch db t.state msg.sender, t.gp, t.gas - g, t.initialGas⟩ (by simp only; omega)
      simp only at this
      omega

/-- **No message raises the pool.** -/
theorem applyMessage_pool_le (config : ChainConfig) (evm : Evm σ) (ctx : Context) (s : σ)
    (gp : Nat) : (applyMessage db msg config evm ctx s gp).2.2 ≤ gp := by
  have hb := bought_preCheck db msg s gp
  unfold applyMessage transitionDb
  rcases hp : preCheck db msg ⟨s, gp, 0, 0⟩ with ⟨_ | ⟨⟩, t⟩
  · rw [hp] at hb
    have := hb.pool_le
    simp only at this ⊢
    omega
  · rw [hp] at hb
    exact execute_gp_le db msg config evm ctx t hb

/-! ### Gas accounting of a successful message -/

theorem getBalance_touch (laws : db.BalanceLaws) (s : σ) (a b : Address) :
    db.getBalance (touch db s a) b = db.getBalance s b := by
  unfold touch
  split_ifs
  · rfl
  · exact laws.createAccount s a b

/-- A purchase that goes through: the sender held the gas's price and the pool the gas; the
price is taken from the sender and the gas from the pool. -/
theorem buyGas_ok {t t' : Transition σ} (h : buyGas db msg t = (.ok (), t')) :
    msg.gas.toNat ≤ t.gp ∧
      msg.gas.toNat * msg.gasPrice ≤ db.getBalance (touch db t.state msg.sender) msg.sender ∧
      t' = ⟨db.subBalance (touch db t.state msg.sender) msg.sender (msg.gas.toNat * msg.gasPrice),
        t.gp - msg.gas.toNat, t.gas + msg.gas.toNat, msg.gas.toNat⟩ := by
  by_cases hbal : db.getBalance (touch db t.state msg.sender) msg.sender < msg.gas.toNat * msg.gasPrice
  · simp [buyGas, hbal] at h
  by_cases hgp : t.gp < msg.gas.toNat
  · simp [buyGas, hbal, subGas, hgp] at h
  · simp only [buyGas, hbal, if_false, subGas, hgp, Prod.mk.injEq] at h
    exact ⟨by omega, by omega, h.2.symm⟩

/-- `preCheck` goes through only as `buyGas` does, on the touched sender. -/
theorem preCheck_ok {t t' : Transition σ} (h : preCheck db msg t = (.ok (), t')) :
    buyGas db msg { t with state := touch db t.state msg.sender } = (.ok (), t') := by
  by_cases hc : msg.checkNonce = true
  · by_cases hhi : db.getNonce (touch db t.state msg.sender) msg.sender < msg.nonce
    · simp [preCheck, hc, hhi] at h
    by_cases hlo : db.getNonce (touch db t.state msg.sender) msg.sender > msg.nonce
    · simp [preCheck, hc, hhi, hlo] at h
    simpa only [preCheck, hc, hhi, hlo, if_true, if_false] using h
  · simpa only [preCheck, hc, if_false, Bool.false_eq_true] using h

/-- Past `preCheck`, a message that goes through paid its intrinsic gas out of the gas it
bought, and the rest is `runMessage`. -/
theorem execute_ok (config : ChainConfig) (evm : Evm σ) (ctx : Context) {t t' : Transition σ}
    {r : Nat × Bool} (h : execute db msg config evm ctx t = (.ok r, t')) :
    ∃ ig, intrinsicGas msg.data msg.recipient.isNone (config.isHomestead ctx.blockNumber) = .ok ig ∧
      ig ≤ t.gas ∧
      runMessage db msg evm ctx ⟨touch db t.state msg.sender, t.gp, t.gas - ig, t.initialGas⟩ =
        (.ok r, t') := by
  unfold execute at h
  rcases hi : intrinsicGas msg.data msg.recipient.isNone (config.isHomestead ctx.blockNumber)
    with e | ig
  · rw [hi] at h
    cases h
  · rw [hi] at h
    dsimp only at h
    by_cases hg : t.gas < ig
    · have hu : useGas { t with state := touch db t.state msg.sender } ig =
          (.error .outOfGas, { t with state := touch db t.state msg.sender }) := if_pos hg
      rw [hu] at h
      cases h
    · have hu : useGas { t with state := touch db t.state msg.sender } ig =
          (.ok (), { t with state := touch db t.state msg.sender, gas := t.gas - ig }) := if_neg hg
      rw [hu] at h
      exact ⟨ig, rfl, by omega, h⟩

/-- A run that does not abort: to the gas the EVM leaves, the refund adds at most half the gas
used; the sender is paid for what is left, the pool gets it back, and the beneficiary is paid for
the gas used. -/
theorem runMessage_ok (evm : Evm σ) (ctx : Context) {t t' : Transition σ} {used : Nat}
    {failed : Bool} (h : runMessage db msg evm ctx t = (.ok (used, failed), t')) :
    ∃ s g vmerr, runEvm db msg evm ctx t = (s, g, vmerr) ∧
      used = t.initialGas - (g + min ((t.initialGas - g) / 2) (db.getRefund s)) ∧
      t'.gp = t.gp + (g + min ((t.initialGas - g) / 2) (db.getRefund s)) ∧
      t'.state = db.addBalance (db.addBalance (touch db s msg.sender) msg.sender
        ((g + min ((t.initialGas - g) / 2) (db.getRefund s)) * msg.gasPrice)) ctx.coinbase
          (used * msg.gasPrice) := by
  rcases hr : runEvm db msg evm ctx t with ⟨s, g, vmerr⟩
  simp only [runMessage, hr] at h
  split_ifs at h
  · -- a refused balance transfer aborts
    simp at h
  simp only [Prod.mk.injEq, Except.ok.injEq] at h
  obtain ⟨⟨rfl, -⟩, rfl⟩ := h
  exact ⟨s, g, vmerr, rfl, rfl, rfl, rfl⟩

/-- The refund tops the gas left up to at most the gas bought, so `gasUsed` never wraps. -/
theorem left_le_bought {bought g : Nat} (r : Nat) (hg : g ≤ bought) :
    g + min r ((bought - g) / 2) ≤ bought := by
  have hmin : min r ((bought - g) / 2) ≤ (bought - g) / 2 := min_le_right _ _
  omega

/-- **Gas accounting of a successful message.** When `TransitionDb` goes through on a fresh
transition, it charged the intrinsic gas `ig` out of the gas bought, the EVM left `g` of the rest,
and the refund capped at half of the gas used then, `min r ((gas - g) / 2)`, tops `g` up to at
most the gas bought. The gas used is the gas bought less that; the pool ends short by exactly the
gas used. On account of gas the sender paid the whole purchase before the EVM ran and is paid
back for what is left after it, and the beneficiary is paid for the gas used, whether or not it
is the sender. -/
theorem transitionDb_gas_accounting (laws : db.BalanceLaws) (config : ChainConfig) (evm : Evm σ)
    (ctx : Context) (s : σ) (gp : Nat) {used : Nat} {failed : Bool} {t' : Transition σ}
    (h : transitionDb db msg config evm ctx ⟨s, gp, 0, 0⟩ = (.ok (used, failed), t')) :
    ∃ ig s₁, intrinsicGas msg.data msg.recipient.isNone (config.isHomestead ctx.blockNumber) = .ok ig ∧
      ig ≤ msg.gas.toNat ∧ msg.gas.toNat ≤ gp ∧
      msg.gas.toNat * msg.gasPrice ≤ db.getBalance s msg.sender ∧
      (∀ b, db.getBalance s₁ b =
        db.getBalance s b - if b = msg.sender then msg.gas.toNat * msg.gasPrice else 0) ∧
      ∃ s₂ g vmerr, runEvm db msg evm ctx ⟨s₁, gp - msg.gas.toNat, msg.gas.toNat - ig, msg.gas.toNat⟩ =
          (s₂, g, vmerr) ∧
        g ≤ msg.gas.toNat - ig ∧
        g + min (db.getRefund s₂) ((msg.gas.toNat - g) / 2) ≤ msg.gas.toNat ∧
        used = msg.gas.toNat - (g + min (db.getRefund s₂) ((msg.gas.toNat - g) / 2)) ∧
        used ≤ msg.gas.toNat ∧
        t'.gp = gp - used ∧
        ∀ b, db.getBalance t'.state b = db.getBalance s₂ b +
          (if b = msg.sender then (msg.gas.toNat - used) * msg.gasPrice else 0) +
          if b = ctx.coinbase then used * msg.gasPrice else 0 := by
  unfold transitionDb at h
  rcases hp : preCheck db msg ⟨s, gp, 0, 0⟩ with ⟨_ | ⟨⟩, t₁⟩
  · rw [hp] at h
    cases h
  rw [hp] at h
  -- the purchase: the gas from the pool, its price from the sender
  obtain ⟨hgp, hbal, rfl⟩ := buyGas_ok db msg (preCheck_ok db msg hp)
  obtain ⟨ig, hig, higle, hrun⟩ := execute_ok db msg config evm ctx h
  dsimp only at hgp hbal higle hrun
  rw [zero_add] at higle hrun
  obtain ⟨s₂, g, vmerr, hevm, hused, hgp', hstate⟩ := runMessage_ok db msg evm ctx hrun
  dsimp only at hused hgp'
  have hg : g ≤ msg.gas.toNat - ig := by
    have := runEvm_gas_le db msg evm ctx
      ⟨touch db (db.subBalance (touch db (touch db s msg.sender) msg.sender) msg.sender
        (msg.gas.toNat * msg.gasPrice)) msg.sender, gp - msg.gas.toNat, msg.gas.toNat - ig,
        msg.gas.toNat⟩
    rw [hevm] at this
    exact this
  have hleft := left_le_bought (db.getRefund s₂) (le_trans hg (Nat.sub_le _ _))
  rw [min_comm] at hused hgp' hstate
  refine ⟨ig, _, hig, higle, hgp, ?_, fun b => ?_, s₂, g, vmerr, hevm, hg, hleft, hused,
    by omega, by omega, fun b => ?_⟩
  · simpa only [getBalance_touch db laws] using hbal
  · rw [getBalance_touch db laws, laws.subBalance, getBalance_touch db laws,
      getBalance_touch db laws]
  · -- the sender is paid back for the gas left, the beneficiary for the gas used
    have hback : g + min (db.getRefund s₂) ((msg.gas.toNat - g) / 2) = msg.gas.toNat - used := by
      omega
    rw [hstate, laws.addBalance, laws.addBalance, getBalance_touch db laws, hback]

end Transition

/-! A message that buys 50000 gas at price 2 with exactly the balance for it: the intrinsic 21000
are charged, the EVM leaves half of the rest, and the refund counter of 10000 is under the cap. -/

/-- Balances and a refund counter of 10000, every account existing. -/
def balancesDB : StateDB (Address → Nat) where
  exist _ _ := true
  createAccount s _ := s
  getBalance s a := s a
  addBalance s a v x := if x = a then s x + v else s x
  subBalance s a v x := if x = a then s x - v else s x
  getNonce _ _ := 0
  setNonce s _ _ := s
  getRefund _ := 10000
  getLogs _ _ := []
  finalise s _ := s
  intermediateRoot s _ := (s, 0)
  applyDAOHardFork s := s
  root_intermediateRoot _ _ := rfl

theorem balanceLaws_balancesDB : balancesDB.BalanceLaws where
  addBalance s a v b := by
    show (if b = a then s b + v else s b) = s b + if b = a then v else 0
    split_ifs <;> rfl
  subBalance s a v b := by
    show (if b = a then s b - v else s b) = s b - if b = a then v else 0
    split_ifs <;> rfl
  createAccount _ _ _ := rfl

/-- An EVM whose calls use half the gas they are given. -/
def halvingEvm : Evm (Address → Nat) where
  create _ s _ _ gas _ := (s, gas / 2, none)
  call _ s _ _ _ gas _ := (s, gas / 2, none)
  create_le _ _ _ _ _ _ := Nat.div_le_self _ _
  call_le _ _ _ _ _ _ _ := Nat.div_le_self _ _

/-- Account `3` sends `4` nothing with 50000 gas at price 2; the beneficiary is `2`. -/
def gasMsg : Message := ⟨3, some 4, 0, 50000, 2, 0, [], false⟩

def gasCtx : Context := ⟨3, 2, 1, 0, 0, 100000, 2, 0⟩

/-- `gasMsg` on a chain with no forks, from a pool of 100000 gas and a sender holding exactly
the price of the gas. -/
def gasRun : Except TxError (Nat × Bool) × Transition (Address → Nat) :=
  transitionDb balancesDB gasMsg ⟨none, none, false, none, none, none⟩ halvingEvm gasCtx
    ⟨fun a => if a = 3 then 100000 else 0, 100000, 0, 0⟩

/-- 21000 intrinsic gas, 14500 left by the EVM, a refund of 10000 under the cap of 17750: 25500
used. -/
theorem transitionDb_gas_accounting_halving :
    balancesDB.BalanceLaws ∧ gasRun = (.ok (25500, false), gasRun.2) ∧
      ∃ ig s₁, intrinsicGas gasMsg.data gasMsg.recipient.isNone
          ((⟨none, none, false, none, none, none⟩ : ChainConfig).isHomestead gasCtx.blockNumber) =
          .ok ig ∧
        ig ≤ gasMsg.gas.toNat ∧ gasMsg.gas.toNat ≤ 100000 ∧
        gasMsg.gas.toNat * gasMsg.gasPrice ≤ balancesDB.getBalance (fun a => if a = 3 then 100000 else 0)
          gasMsg.sender ∧
        (∀ b, balancesDB.getBalance s₁ b =
          balancesDB.getBalance (fun a => if a = 3 then 100000 else 0) b -
            if b = gasMsg.sender then gasMsg.gas.toNat * gasMsg.gasPrice else 0) ∧
        ∃ s₂ g vmerr, runEvm balancesDB gasMsg halvingEvm gasCtx
            ⟨s₁, 100000 - gasMsg.gas.toNat, gasMsg.gas.toNat - ig, gasMsg.gas.toNat⟩ = (s₂, g, vmerr) ∧
          g ≤ gasMsg.gas.toNat - ig ∧
          g + min (balancesDB.getRefund s₂) ((gasMsg.gas.toNat - g) / 2) ≤ gasMsg.gas.toNat ∧
          25500 = gasMsg.gas.toNat - (g + min (balancesDB.getRefund s₂) ((gasMsg.gas.toNat - g) / 2)) ∧
          25500 ≤ gasMsg.gas.toNat ∧
          gasRun.2.gp = 100000 - 25500 ∧
          ∀ b, balancesDB.getBalance gasRun.2.state b = balancesDB.getBalance s₂ b +
            (if b = gasMsg.sender then (gasMsg.gas.toNat - 25500) * gasMsg.gasPrice else 0) +
            if b = gasCtx.coinbase then 25500 * gasMsg.gasPrice else 0 := by
  have hrun : gasRun = (.ok (25500, false), gasRun.2) := Prod.ext (by rfl) rfl
  exact ⟨balanceLaws_balancesDB, hrun,
    transitionDb_gas_accounting balancesDB gasMsg balanceLaws_balancesDB _ _ _ _ _ hrun⟩

end EpvChain.Core
