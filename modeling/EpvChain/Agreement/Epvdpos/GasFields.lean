import EpvChain.Agreement.Epvdpos.Production

/-!
# The gas fields of a DPoS header

`EPVhash.verifyHeader` (`agreement/epvhash/consensus.go`) bounds a header's gas limit: at most
`2^63 - 1`, no less than the gas used, within `1/GasLimitBoundDivisor` of the parent's, and at
least `MinGasLimit` (`epvhashGasRule`). `DPos.verifyHeader` has no such check: no step of it reads
`GasLimit` or `GasUsed` except through the header's hash and the signer recovered from its seal.

* `verifyHeaderFields_gas`, `verifySeal_gas`, `verifyCascadingFields_gas`, `verifyHeader_gas` —
  one frame lemma per step: a header with other gas fields is judged as the header itself, as
  long as the crypto gives it the same hash and signer.
* `verifyHeader_skips_gas_rule` — so the signer's block 1 on a chain whose genesis has a gas limit
  of 4712388 passes `verifyHeader` with every gas limit and every gas used, among them a doubled
  limit with more gas used than allowed, which `EPVhash` refuses.
-/

namespace EpvChain.Epvdpos

open EpvChain.Types EpvChain.Lib

/-- `params.GasLimitBoundDivisor`. -/
def GasLimitBoundDivisor : Nat := 1024

/-- `params.MinGasLimit`. -/
def MinGasLimit : Nat := 5000

/-- The gas checks of `EPVhash.verifyHeader`, which the DPoS engine is held against: the cap
`0x7fffffffffffffff`, the gas used within the limit, the limit within `parent.GasLimit /
GasLimitBoundDivisor` of the parent's (the difference taken as `int64`, both sides below the
cap), and `MinGasLimit`.
Source: `agreement/epvhash/consensus.go` `EPVhash.verifyHeader` -/
def epvhashGasRule (parent header : Header) : Bool :=
  decide (header.gasLimit.toNat ≤ 0x7fffffffffffffff) && decide (header.gasUsed ≤ header.gasLimit) &&
    decide (((parent.gasLimit.toNat : Int) - header.gasLimit.toNat).natAbs <
      parent.gasLimit.toNat / GasLimitBoundDivisor) &&
    decide (MinGasLimit ≤ header.gasLimit.toNat)

/-! ### Each step reads the gas fields only through the crypto -/

section Frame

variable {σ : Type} (env : Env) (rng : GoRand σ) (chain : ChainView)
variable {header : Header} {g u : UInt64}

theorem verifyHeaderFields_gas (now : Nat)
    (hhash : env.crypto.hash { header with gasLimit := g, gasUsed := u } = env.crypto.hash header) :
    verifyHeaderFields env now { header with gasLimit := g, gasUsed := u } =
      verifyHeaderFields env now header := by
  unfold verifyHeaderFields verifyForkHashes
  rw [hhash]
  rfl

theorem verifySeal_gas (parents : List Header) (st : σ)
    (hrec : env.crypto.ecrecover { header with gasLimit := g, gasUsed := u } =
      env.crypto.ecrecover header) :
    verifySeal env rng chain { header with gasLimit := g, gasUsed := u } parents st =
      verifySeal env rng chain header parents st := by
  unfold verifySeal
  rw [hrec]
  rfl

theorem verifyCascadingFields_gas (parents : List Header) (st : σ)
    (hrec : env.crypto.ecrecover { header with gasLimit := g, gasUsed := u } =
      env.crypto.ecrecover header) :
    verifyCascadingFields env rng chain { header with gasLimit := g, gasUsed := u } parents st =
      verifyCascadingFields env rng chain header parents st := by
  -- the parent, the timestamp floor and the checkpoint list read other fields; the seal is
  -- the only step that reads the header as a whole
  unfold verifyCascadingFields parentOf
  rw [verifySeal_gas env rng chain parents st hrec]
  rfl

/-- `verifyHeader` judges a header with other gas fields as the header itself, when the crypto
gives both the same hash and the same signer. -/
theorem verifyHeader_gas (now : Nat) (parents : List Header) (st : σ)
    (hhash : env.crypto.hash { header with gasLimit := g, gasUsed := u } = env.crypto.hash header)
    (hrec : env.crypto.ecrecover { header with gasLimit := g, gasUsed := u } =
      env.crypto.ecrecover header) :
    verifyHeader env rng chain now { header with gasLimit := g, gasUsed := u } parents st =
      verifyHeader env rng chain now header parents st := by
  unfold verifyHeader
  rw [verifyHeaderFields_gas env now hhash, verifyCascadingFields_gas env rng chain parents st hrec]

end Frame

/-! ### Block 1 with any gas fields -/

/-- A genesis block with the gas limit of a live chain. -/
def gasGenesis : Header := { windowHeader 0 0 with gasLimit := 4712388 }

/-- The chain of `genesisChain`, its genesis header `gasGenesis`. -/
def gasChain : ChainView where
  getHeader hash number := if number = 0 ∧ hash = 0 then some gasGenesis else none
  archive := genesisChain.archive

/-- **`verifyHeader` does not enforce the gas rule.** The signer's block 1 passes with every gas
limit and every gas used; with the limit doubled from the parent's and more gas used than that,
`EPVhash` would refuse it. -/
theorem verifyHeader_skips_gas_rule :
    ∃ sealed st', genesisBlock ⟨none, 0⟩ = (.ok (some sealed), st') ∧
      (∀ g u : UInt64, (verifyHeader (genesisEnv ⟨none, 0⟩) counterRand gasChain 15
        { sealed with gasLimit := g, gasUsed := u } [] 0).1 = .ok ()) ∧
      epvhashGasRule gasGenesis { sealed with gasLimit := 9424776, gasUsed := 9424777 } = false := by
  refine ⟨_, _, rfl, fun g u => ?_, by decide⟩
  -- the crypto of the genesis engine hashes a header by its number and recovers signer `1`
  rw [verifyHeader_gas _ _ _ _ _ _ rfl rfl]
  decide

end EpvChain.Epvdpos
