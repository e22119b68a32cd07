import EpvChain.Kernel.Vm.Common
import EpvChain.Lib.BigEndian
import EpvChain.Lib.GoSlice

/-!
# The MODEXP precompile (`kernel/vm/contracts.go`)

`bigModExp` is the precompile of EIP-198: its input holds three 32-byte lengths `Lb`, `Le`, `Lm`,
then the base, the exponent and the modulus of those lengths, read as zero past the input's end;
its output is `B ^ E mod M` in `Lm` bytes. `RequiredGas` prices it over the lengths as
unbounded integers, and `Run` computes it with the lengths cut to `uint64`.

* `getData_eq_some`: `getData` reads the input as EIP-198 does (`readPadded`) while its start and
  size add up without wrapping.
* `requiredGas_eq`: `RequiredGas` is the gas of EIP-198 (`eipGas`) for every input a Go slice can
  hold.
* `modExp_truncates_lengths`: `Run` is not the EIP-198 result on every call that its gas pays for.
  An exponent length of `2^64` prices at under `2^63` gas, and `Run` reads it as `0` and takes
  the modulus from the exponent's bytes; an exponent length of `2^64 - 1` wraps `getData`'s end
  below its start, and the slice panics.

A panic is `none`. Go's `int(size)` of a `uint64` is its two's-complement reading (`goInt`).
-/

namespace EpvChain.Vm

open Lib

/-- `params.ModExpQuadCoeffDiv`. -/
def ModExpQuadCoeffDiv : Nat := 20

/-- `int(u)` of a `uint64`: the same 64 bits read as a signed number. -/
def goInt (u : UInt64) : Int := u.toInt64.toInt

/-- `common.RightPadBytes(slice, l)`: zeros after the slice up to `l` bytes.
Source: `public/bytes.go` `RightPadBytes` -/
def rightPadBytes (slice : List UInt8) (l : Int) : List UInt8 :=
  if l ≤ slice.length then slice else slice ++ List.replicate (l.toNat - slice.length) 0

/-- `common.LeftPadBytes(slice, l)`: zeros before the slice up to `l` bytes.
Source: `public/bytes.go` `LeftPadBytes` -/
def leftPadBytes (slice : List UInt8) (l : Int) : List UInt8 :=
  if l ≤ slice.length then slice else List.replicate (l.toNat - slice.length) 0 ++ slice

/-- `getData(data, start, size)`: `size` bytes of `data` from `start`, zeros past its end. The
end `start + size` is a `uint64` sum; when it wraps below `start`, `data[start:end]` panics.
Source: `kernel/vm/common.go` `getData` -/
def getData (data : List UInt8) (start size : UInt64) : Option (List UInt8) :=
  let length : UInt64 := data.length.toUInt64
  let start := if start > length then length else start
  let end_ := start + size
  let end_ := if end_ > length then length else end_
  if end_ < start then none
  else some (rightPadBytes ((data.take end_.toNat).drop start.toNat) (goInt size))

/-- The head of the exponent in `RequiredGas`: zero when the input ends within the base, and
otherwise its first 32 bytes, or all of it when it is shorter. -/
def readExpHead (input : List UInt8) (baseLen expLen : Nat) : Option Nat :=
  if input.length ≤ baseLen then pure 0
  else if expLen > 32 then ofBytesBE <$> getData input baseLen.toUInt64 32
  else ofBytesBE <$> getData input baseLen.toUInt64 expLen.toUInt64

/-- `bigModExp.RequiredGas`: the lengths as unbounded integers, the head of the exponent read
for its top bit, and the quadratic price of the longer of base and modulus. The price's
subtractions never go below zero (`x > 64`).
Source: `kernel/vm/contracts.go` `bigModExp.RequiredGas` -/
def requiredGas (input : List UInt8) : Option UInt64 := do
  let baseLen := ofBytesBE (← getData input 0 32)
  let expLen := ofBytesBE (← getData input 32 32)
  let modLen := ofBytesBE (← getData input 64 32)
  let input := if input.length > 96 then input.drop 96 else []
  let expHead ← readExpHead input baseLen expLen
  let bitlen := expHead.size
  let msb := if bitlen > 0 then bitlen - 1 else 0
  let adjExpLen := (if expLen > 32 then 8 * (expLen - 32) else 0) + msb
  let x := max modLen baseLen
  let gas :=
    if x ≤ 64 then x * x
    else if x ≤ 1024 then x * x / 4 + (96 * x - 3072)
    else x * x / 16 + (480 * x - 199680)
  let gas := gas * max adjExpLen 1 / ModExpQuadCoeffDiv
  return if gas.size > 64 then MaxUint64 else gas.toUInt64

/-- `bigModExp.Run`: the lengths cut to `uint64` (`big.Int.Uint64` keeps the low 64 bits), the
three numbers read by `getData`, and `base.Exp(base, exp, mod)`, which for a modulus of one or
more is `base ^ exp % mod`, in `modLen` bytes.
Source: `kernel/vm/contracts.go` `bigModExp.Run` -/
def run (input : List UInt8) : Option (List UInt8) := do
  let baseLen := (ofBytesBE (← getData input 0 32)).toUInt64
  let expLen := (ofBytesBE (← getData input 32 32)).toUInt64
  let modLen := (ofBytesBE (← getData input 64 32)).toUInt64
  let input := if input.length > 96 then input.drop 96 else []
  if baseLen = 0 ∧ modLen = 0 then return []
  let base := ofBytesBE (← getData input 0 baseLen)
  let exp := ofBytesBE (← getData input baseLen expLen)
  let mod := ofBytesBE (← getData input (baseLen + expLen) modLen)
  if mod = 0 then return leftPadBytes [] (goInt modLen)
  return leftPadBytes (minBytes (base ^ exp % mod)) (goInt modLen)

/-- `RunPrecompiledContract` for `bigModExp`, from a contract with `gas`: the required gas is
taken if the contract has it (`UseGas`), and the precompile runs. -/
def runPrecompiledContract (input : List UInt8) (gas : UInt64) :
    Option (Except VmError (List UInt8) × UInt64) := do
  let required ← requiredGas input
  if gas < required then return (.error .ErrOutOfGas, gas)
  let ret ← run input
  return (.ok ret, gas - required)

/-! ### EIP-198 -/

/-- `len` bytes of `data` from `start`, zero past its end: how EIP-198 reads its input. -/
def readPadded (data : List UInt8) (start len : Nat) : List UInt8 :=
  (data.drop start).take len ++ List.replicate (len - ((data.drop start).take len).length) 0

/-- The three lengths, as unbounded numbers. -/
def eipLengths (input : List UInt8) : Nat × Nat × Nat :=
  (ofBytesBE (readPadded input 0 32), ofBytesBE (readPadded input 32 32),
    ofBytesBE (readPadded input 64 32))

/-- The multiplication complexity of EIP-198. -/
def multComplexity (x : Nat) : Nat :=
  if x ≤ 64 then x ^ 2
  else if x ≤ 1024 then x ^ 2 / 4 + 96 * x - 3072
  else x ^ 2 / 16 + 480 * x - 199680

/-- The adjusted exponent length: the index of the top set bit of the exponent's first
`min(Le, 32)` bytes, plus `8 (Le - 32)` for a longer exponent. -/
def eipAdjExpLen (input : List UInt8) : Nat :=
  let (baseLen, expLen, _) := eipLengths input
  (if 32 < expLen then 8 * (expLen - 32) else 0) +
    Nat.log 2 (ofBytesBE (readPadded input (96 + baseLen) (min expLen 32)))

/-- The gas of EIP-198, capped at the largest `uint64`. -/
def eipGas (input : List UInt8) : Nat :=
  let (baseLen, _, modLen) := eipLengths input
  min (2 ^ 64 - 1) (multComplexity (max baseLen modLen) * max (eipAdjExpLen input) 1 / 20)

/-- The output of EIP-198: `B ^ E mod M` in `Lm` bytes, all zero for a zero modulus. -/
def eipOutput (input : List UInt8) : List UInt8 :=
  let (baseLen, expLen, modLen) := eipLengths input
  let mod := ofBytesBE (readPadded input (96 + baseLen + expLen) modLen)
  if mod = 0 then bytesBE modLen 0
  else bytesBE modLen (ofBytesBE (readPadded input 96 baseLen) ^
    ofBytesBE (readPadded input (96 + baseLen) expLen) % mod)

/-! ### `getData` reads as EIP-198 reads -/

theorem goInt_of_lt {u : UInt64} (h : u.toNat < 2 ^ 63) : goInt u = u.toNat :=
  toInt_toInt64_of_lt h

/-- Padding a slice of at most `size` bytes to `size` bytes. -/
theorem rightPadBytes_of_le {slice : List UInt8} {size : Nat} (h : slice.length ≤ size) :
    rightPadBytes slice size = slice ++ List.replicate (size - slice.length) 0 := by
  unfold rightPadBytes
  split_ifs with hle
  · have : slice.length = size := by omega
    simp [this]
  · rfl

/-- The bytes a slice of `data` takes from the clamped start to the clamped end are the first
`size` bytes from `start`, as many as there are. -/
theorem take_drop_clamped (data : List UInt8) (s z : Nat) :
    (data.take (min (min s data.length + z) data.length)).drop (min s data.length) =
      (data.drop s).take z := by
  rw [List.drop_take]
  by_cases hs : s ≤ data.length
  · -- from `start`: at most `size` bytes, all there are when fewer are left
    have hk : min (min s data.length + z) data.length - min s data.length =
        min z (data.drop s).length := by
      simp only [List.length_drop]
      omega
    rw [hk, min_eq_left hs, ← List.take_eq_take_min]
  · -- past the end: nothing on either side
    have hsL : min s data.length = data.length := min_eq_right (by omega)
    rw [hsL, List.drop_of_length_le (le_refl _),
      List.drop_of_length_le (by omega : data.length ≤ s)]
    simp

/-- While `start + size` does not wrap and the sizes are those of a Go slice, `getData` is
`readPadded`. -/
theorem getData_eq_some {data : List UInt8} {start size : UInt64} (hlen : data.length < 2 ^ 63)
    (hsize : size.toNat < 2 ^ 63) (hsum : start.toNat + size.toNat < 2 ^ 64) :
    getData data start size = some (readPadded data start.toNat size.toNat) := by
  have hL : data.length.toUInt64.toNat = data.length := by
    rw [Nat.toUInt64_eq, UInt64.toNat_ofNat', Nat.mod_eq_of_lt (by omega)]
  unfold getData
  dsimp only
  -- the start, clamped to the length, and the end, clamped too, as numbers
  generalize hS : (if start > data.length.toUInt64 then data.length.toUInt64 else start) = S
  have hs : S.toNat = min start.toNat data.length := by
    rw [← hS]
    split_ifs with h <;> rw [gt_iff_lt, UInt64.lt_iff_toNat_lt, hL] at h
    · rw [hL]
      omega
    · omega
  have hsz : (S + size).toNat = min start.toNat data.length + size.toNat := by
    rw [UInt64.toNat_add, hs, Nat.mod_eq_of_lt (by omega)]
  generalize hE : (if S + size > data.length.toUInt64 then data.length.toUInt64 else S + size) = E
  have he : E.toNat = min (min start.toNat data.length + size.toNat) data.length := by
    rw [← hE]
    split_ifs with h <;> rw [gt_iff_lt, UInt64.lt_iff_toNat_lt, hL, hsz] at h
    · rw [hL]
      omega
    · rw [hsz]
      omega
  rw [if_neg (by rw [UInt64.lt_iff_toNat_lt, he, hs]; omega), he, hs, take_drop_clamped,
    goInt_of_lt hsize, rightPadBytes_of_le (by simp)]
  rfl

/-! ### `RequiredGas` is the gas of EIP-198 -/

/-- The input after the three lengths: `input[96:]`, or nothing. -/
theorem drop_ninetySix (input : List UInt8) :
    (if input.length > 96 then input.drop 96 else []) = input.drop 96 := by
  split_ifs with h
  · rfl
  · rw [List.drop_of_length_le (by omega)]

/-- EIP-198 reads the base and exponent of the input after the lengths. -/
theorem readPadded_drop (input : List UInt8) (start len : Nat) :
    readPadded (input.drop 96) start len = readPadded input (96 + start) len := by
  simp only [readPadded, List.drop_drop]

/-- Past the end of the data there are only zeros. -/
theorem readPadded_of_length_le {data : List UInt8} {start : Nat} (h : data.length ≤ start)
    (len : Nat) : readPadded data start len = List.replicate len 0 := by
  simp [readPadded, List.drop_of_length_le h]

/-- The head of the exponent: its first 32 bytes when it is longer, all of it otherwise, and
zero when the input ends before it. -/
theorem readExpHead_eq {input : List UInt8} (hlen : input.length < 2 ^ 63) (baseLen expLen : Nat) :
    readExpHead input baseLen expLen =
      some (ofBytesBE (readPadded input baseLen (min expLen 32))) := by
  unfold readExpHead
  split_ifs with hb he
  · rw [readPadded_of_length_le hb, ofBytesBE_replicate_zero]
    rfl
  · have hbl : baseLen.toUInt64.toNat = baseLen := by
      rw [Nat.toUInt64_eq, UInt64.toNat_ofNat', Nat.mod_eq_of_lt (by omega)]
    rw [getData_eq_some hlen (by decide) (by rw [hbl]; simp; omega), hbl, min_eq_right (by omega)]
    rfl
  · have hbl : baseLen.toUInt64.toNat = baseLen := by
      rw [Nat.toUInt64_eq, UInt64.toNat_ofNat', Nat.mod_eq_of_lt (by omega)]
    have hel : expLen.toUInt64.toNat = expLen := by
      rw [Nat.toUInt64_eq, UInt64.toNat_ofNat', Nat.mod_eq_of_lt (by omega)]
    rw [getData_eq_some hlen (by rw [hel]; omega) (by rw [hbl, hel]; omega), hbl, hel,
      min_eq_left (by omega)]
    rfl

/-- `BitLen() - 1`, or `0`: the index of the top set bit. -/
theorem msb_eq_log (n : Nat) : (if n.size > 0 then n.size - 1 else 0) = Nat.log 2 n := by
  split_ifs with h
  · -- `2 ^ (size - 1) ≤ n < 2 ^ size`
    have hpos : 0 < n := Nat.size_pos.mp h
    refine (Nat.log_eq_of_pow_le_of_lt_pow ?_ ?_).symm
    · exact Nat.lt_size.mp (by omega)
    · rw [Nat.sub_add_cancel h]
      exact Nat.lt_size_self n
  · have hn : n = 0 := Nat.size_eq_zero.mp (by omega)
    rw [hn, Nat.log_zero_right]

/-- The price of `RequiredGas` is the multiplication complexity: its subtractions stay above
zero where they are made. -/
theorem price_eq (x : Nat) :
    (if x ≤ 64 then x * x
      else if x ≤ 1024 then x * x / 4 + (96 * x - 3072)
      else x * x / 16 + (480 * x - 199680)) = multComplexity x := by
  unfold multComplexity
  split_ifs with h64 h1024
  · rw [sq]
  · rw [sq, Nat.add_sub_assoc (by omega)]
  · rw [sq, Nat.add_sub_assoc (by omega)]

/-- `gas.BitLen() > 64` caps at the largest `uint64`. -/
theorem cap_eq (gas : Nat) :
    (if gas.size > 64 then MaxUint64 else gas.toUInt64) = (min (2 ^ 64 - 1) gas).toUInt64 := by
  split_ifs with h
  · have : 2 ^ 64 ≤ gas := Nat.lt_size.mp h
    rw [min_eq_left (by omega)]
    rfl
  · have : gas < 2 ^ 64 := Nat.size_le.mp (by omega)
    rw [min_eq_right (by omega)]

/-- **`RequiredGas` is the gas of EIP-198**, for every input a Go slice holds. -/
theorem requiredGas_eq {input : List UInt8} (hlen : input.length < 2 ^ 63) :
    requiredGas input = some (eipGas input).toUInt64 := by
  have h0 : getData input 0 32 = some (readPadded input 0 32) :=
    getData_eq_some hlen (by decide) (by decide)
  have h32 : getData input 32 32 = some (readPadded input 32 32) :=
    getData_eq_some hlen (by decide) (by decide)
  have h64 : getData input 64 32 = some (readPadded input 64 32) :=
    getData_eq_some hlen (by decide) (by decide)
  have hdrop : (input.drop 96).length < 2 ^ 63 := by simp; omega
  unfold requiredGas
  simp only [h0, h32, h64, Option.bind_eq_bind, Option.bind_some, drop_ninetySix,
    readExpHead_eq hdrop, msb_eq_log, price_eq, cap_eq, readPadded_drop]
  -- `BigMax(modLen, baseLen)` is the longer of the two either way round
  rw [max_comm (ofBytesBE (readPadded input 64 32))]
  rfl

/-! ### Lengths that `Run` cuts -/

/-- An input of the three lengths followed by `rest`. -/
def modExpInput (baseLen expLen modLen : Nat) (rest : List UInt8) : List UInt8 :=
  bytesBE 32 baseLen ++ bytesBE 32 expLen ++ bytesBE 32 modLen ++ rest

/-- **`Run` cuts the exponent's length.** With a one-byte base `2`, a one-byte modulus and an
exponent `2^64` bytes long, EIP-198 reads the exponent from the byte `5` on and the modulus past
the input's end, as zero: the output is `[0]`. The gas is under `2^63`, so a contract with
`2^63 - 1` gas pays it; `Run` reads the exponent's length as `0` and the modulus as `5`, and
returns `2 ^ 0 % 5`, that is `[1]`. With an exponent `2^64 - 1` bytes long and no modulus, the gas
is under `2^63` too, and `getData`'s end wraps to `0`, below its start: the slice panics. -/
theorem modExp_truncates_lengths :
    (∃ left, runPrecompiledContract (modExpInput 1 (2 ^ 64) 1 [2, 5]) 0x7fffffffffffffff =
        some (.ok [1], left)) ∧
      eipOutput (modExpInput 1 (2 ^ 64) 1 [2, 5]) = [0] ∧
      runPrecompiledContract (modExpInput 1 (2 ^ 64 - 1) 0 [2, 5]) 0x7fffffffffffffff = none ∧
      eipGas (modExpInput 1 (2 ^ 64 - 1) 0 [2, 5]) < 2 ^ 63 ∧
      eipOutput (modExpInput 1 (2 ^ 64 - 1) 0 [2, 5]) = [] := by
  -- the exponent's head is the byte `5` and zeros: its top bit is bit 250
  have hlog : Nat.log 2 (5 * 2 ^ 248) = 250 :=
    Nat.log_eq_of_pow_le_of_lt_pow (by norm_num) (by norm_num)
  have hgas₁ : eipGas (modExpInput 1 (2 ^ 64) 1 [2, 5]) = 7378697629483820646 := by
    have hhead : ofBytesBE (readPadded (modExpInput 1 (2 ^ 64) 1 [2, 5]) 97 32) = 5 * 2 ^ 248 := by
      decide
    have hlen : eipLengths (modExpInput 1 (2 ^ 64) 1 [2, 5]) = (1, 2 ^ 64, 1) := by decide
    generalize modExpInput 1 (2 ^ 64) 1 [2, 5] = input at hhead hlen
    rw [eipGas, eipAdjExpLen, hlen]
    dsimp only
    rw [show 96 + 1 = 97 from rfl, min_eq_right (by norm_num : (32 : Nat) ≤ 2 ^ 64), hhead, hlog]
    norm_num [multComplexity]
  have hgas₂ : eipGas (modExpInput 1 (2 ^ 64 - 1) 0 [2, 5]) = 7378697629483820645 := by
    have hhead : ofBytesBE (readPadded (modExpInput 1 (2 ^ 64 - 1) 0 [2, 5]) 97 32) =
        5 * 2 ^ 248 := by decide
    have hlen : eipLengths (modExpInput 1 (2 ^ 64 - 1) 0 [2, 5]) = (1, 2 ^ 64 - 1, 0) := by decide
    generalize modExpInput 1 (2 ^ 64 - 1) 0 [2, 5] = input at hhead hlen
    rw [eipGas, eipAdjExpLen, hlen]
    dsimp only
    rw [show 96 + 1 = 97 from rfl, min_eq_right (by norm_num : (32 : Nat) ≤ 2 ^ 64 - 1), hhead,
      hlog]
    norm_num [multComplexity]
  have hreq₁ := @requiredGas_eq (modExpInput 1 (2 ^ 64) 1 [2, 5]) (by decide)
  have hreq₂ := @requiredGas_eq (modExpInput 1 (2 ^ 64 - 1) 0 [2, 5]) (by decide)
  rw [hgas₁] at hreq₁
  rw [hgas₂] at hreq₂
  refine ⟨⟨0x7fffffffffffffff - (7378697629483820646 : Nat).toUInt64, ?_⟩, by decide, ?_,
    by rw [hgas₂]; norm_num, by decide⟩
  · rw [runPrecompiledContract, hreq₁]
    have hrun : run (modExpInput 1 (2 ^ 64) 1 [2, 5]) = some [1] := by decide
    simp only [Option.bind_eq_bind, Option.bind_some, hrun]
    rw [if_neg (by decide)]
    rfl
  · rw [runPrecompiledContract, hreq₂]
    have hrun : run (modExpInput 1 (2 ^ 64 - 1) 0 [2, 5]) = none := by decide
    simp only [Option.bind_eq_bind, Option.bind_some, hrun]
    rw [if_neg (by decide)]
    rfl

end EpvChain.Vm
