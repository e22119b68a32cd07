import Mathlib

/-!
# The virtual machine's errors, gas constants and word arithmetic

`kernel/vm/errors.go` and the error variables of `instructions.go` and `jump_table.go`; the
gas constants of `content/protocol_params.go` the modelled functions read; `toWordSize` and
`bigUint64` of `kernel/vm/common.go`; and `math.SafeMul` of `public/math/integer.go`.
-/

namespace EpvChain.Vm

/-- The errors of the virtual machine. -/
inductive VmError where
  | ErrOutOfGas
  | ErrCodeStoreOutOfGas
  | ErrDepth
  | ErrTraceLimitReached
  | ErrInsufficientBalance
  | ErrContractAddressCollision
  | errWriteProtection
  | errReturnDataOutOfBounds
  | errExecutionReverted
  | errMaxCodeSizeExceeded
  | errGasUintOverflow
  deriving DecidableEq, Repr

/-- `params.MemoryGas`. -/
def MemoryGas : UInt64 := 3

/-- `params.QuadCoeffDiv`. -/
def QuadCoeffDiv : UInt64 := 512

/-- `math.MaxUint64`. -/
def MaxUint64 : UInt64 := 0xffffffffffffffff

/-- `toWordSize(size)`: the 32-byte words that hold `size` bytes, saturating near the top. -/
def toWordSize (size : UInt64) : UInt64 :=
  if size > MaxUint64 - 31 then MaxUint64 / 32 + 1
  else (size + 31) / 32

/-- `math.SafeMul(x, y)`: the 64-bit product and whether it overflowed. -/
def safeMul (x y : UInt64) : UInt64 × Bool :=
  if x = 0 ∨ y = 0 then (0, false)
  else (x * y, decide (y > MaxUint64 / x))

/-- `bigUint64(v)` of a non-negative `big.Int`: its low 64 bits and whether it has more. -/
def bigUint64 (v : Nat) : UInt64 × Bool := (UInt64.ofNat v, decide (v.size > 64))

theorem toWordSize_toNat {size : UInt64} (h : size.toNat ≤ 2 ^ 64 - 32) :
    (toWordSize size).toNat = (size.toNat + 31) / 32 := by
  have hle : ¬ size > MaxUint64 - 31 := by
    rw [gt_iff_lt, UInt64.lt_iff_toNat_lt, UInt64.toNat_sub_of_le _ _ (by decide)]
    simp only [MaxUint64, UInt64.reduceToNat]
    omega
  rw [toWordSize, if_neg hle, UInt64.toNat_div, UInt64.toNat_add]
  simp only [UInt64.reduceToNat]
  rw [Nat.mod_eq_of_lt (by omega)]

end EpvChain.Vm
