import EpvChain.Public.Math.Big
import EpvChain.Lib.TwosComplement

/-!
# Signed, byte and modular opcodes (`kernel/vm/instructions.go`)

The handlers of the interpreter's 256-bit arithmetic: each pops its operands and pushes one
result, words being `*big.Int` values in `[0, 2^256)` read as signed through `S256` and brought
back through `U256`. Only the stack is modelled. Against them stand the Yellow Paper's
definitions over `Word` with signed reading `toSigned`: `Int.tdiv` and `Int.tmod` for SDIV and
SMOD with the overflow case, SIGNEXTEND bit by bit, BYTE from the most significant end, ADDMOD
and MULMOD unbounded, EXP modulo `2^256`.

* `opSdiv_word`, `opSmod_word`, `opSlt_word`, `opSgt_word`, `opSignExtend_word`, `opByte_word`,
  `opAddmod_word`, `opMulmod_word`, `opExp_word`: each handler pushes the Yellow Paper's result.
* `opSlt_eq_opSgt`: `opSlt` is `opSgt` with its operands swapped.
-/

set_option linter.unusedSectionVars false

namespace EpvChain.Vm

open EpvChain.Math EpvChain.Lib

/-! ### The handlers -/

/-- `Stack`: the interpreter's operand stack, top first (`pop` takes the head, `push` conses). A
handler on a stack with too few operands has no result; the interpreter checks the depth before
it runs one. -/
abbrev Stack := List Int

/-- The shape `opSdiv` and `opSmod` share: both operands read as signed, zero for a zero divisor,
otherwise `op` on the magnitudes with the sign put back as `negative` decides. -/
def opSigned (negative : Int → Int → Bool) (op : Int → Int → Int) : Stack → Option Stack
  | a :: b :: rest =>
    let x := S256 a
    let y := S256 b
    if y = 0 then some (0 :: rest)
    else
      let n : Int := if negative x y then -1 else 1
      some (U256 (op |x| |y| * n) :: rest)
  | _ => none

/-- `opSdiv`: the sign of `x * y`, and `big.Int`'s `Div` on the magnitudes. -/
def opSdiv : Stack → Option Stack := opSigned (fun x y => decide (x * y < 0)) (· / ·)

/-- `opSmod`: the dividend's sign, and `big.Int`'s `Mod` on the magnitudes. -/
def opSmod : Stack → Option Stack := opSigned (fun x _ => decide (x < 0)) (· % ·)

/-- `opExp`. -/
def opExp : Stack → Option Stack
  | base :: exponent :: rest => some (Exp base exponent :: rest)
  | _ => none

/-- `opSignExtend`: below 31, the bit `8 back + 7` of `num` decides whether every bit above it is
set (`Or` with the mask's complement) or cleared (`And` with the mask). From 31 up the handler
pops nothing more, so `num` stays on the stack as it is. -/
def opSignExtend : Stack → Option Stack
  | back :: rest =>
    if back < 31 then
      match rest with
      | num :: rest =>
        let bit := back.toNat * 8 + 7
        let mask : Int := 2 ^ bit - 1
        let num := if num.testBit bit then Int.lor num (Int.lnot mask) else Int.land num mask
        some (U256 num :: rest)
      | [] => none
    else some rest
  | [] => none

/-- `opSlt`: the second operand goes through `S256` a second time in the comparison. -/
def opSlt : Stack → Option Stack
  | a :: b :: rest =>
    let x := S256 a
    let y := S256 b
    some ((if x < S256 y then 1 else 0) :: rest)
  | _ => none

/-- `opSgt`. -/
def opSgt : Stack → Option Stack
  | a :: b :: rest =>
    let x := S256 a
    let y := S256 b
    some ((if x > y then 1 else 0) :: rest)
  | _ => none

/-- `opByte`: the word under the index is overwritten in place (`peek`, then `SetUint64`). -/
def opByte : Stack → Option Stack
  | th :: val :: rest =>
    if th < 32 then some (((Byte val 32 th.toNat).toNat : Int) :: rest) else some (0 :: rest)
  | _ => none

/-- The shape `opAddmod` and `opMulmod` share: `op` on the top two words, unbounded, then `Mod`
by the third when it is positive, zero otherwise. -/
def opModular (op : Int → Int → Int) : Stack → Option Stack
  | x :: y :: z :: rest =>
    if z > 0 then some (U256 (op x y % z) :: rest) else some (0 :: rest)
  | _ => none

/-- `opAddmod`. -/
def opAddmod : Stack → Option Stack := opModular (· + ·)

/-- `opMulmod`. -/
def opMulmod : Stack → Option Stack := opModular (· * ·)

/-! ### The Yellow Paper's definitions -/

/-- A word: a natural number below `2^256`. -/
abbrev Word := Fin (2 ^ 256)

/-- A word read as a two's-complement number. -/
def toSigned (x : Word) : Int := if (x : Nat) < 2 ^ 255 then (x : Nat) else (x : Nat) - 2 ^ 256

/-- A number written as a word: its residue modulo `2^256`. -/
def ofSigned (v : Int) : Word :=
  ⟨(v % 2 ^ 256).toNat, by
    have hlt := Int.emod_lt_of_pos v (by decide : (0 : Int) < 2 ^ 256)
    have hnonneg := Int.emod_nonneg v (by decide : (2 : Int) ^ 256 ≠ 0)
    omega⟩

example : toSigned ⟨2 ^ 256 - 1, by norm_num⟩ = -1 := by decide

/-- SDIV: zero for a zero divisor, `-2^255` for `-2^255 / -1`, otherwise the quotient rounded
towards zero. -/
def ypSdiv (x y : Word) : Word :=
  if toSigned y = 0 then 0
  else if toSigned x = -2 ^ 255 ∧ toSigned y = -1 then ofSigned (-2 ^ 255)
  else ofSigned ((toSigned x).tdiv (toSigned y))

/-- SMOD: zero for a zero divisor, otherwise the remainder with the dividend's sign. -/
def ypSmod (x y : Word) : Word :=
  if toSigned y = 0 then 0 else ofSigned ((toSigned x).tmod (toSigned y))

/-- SLT. -/
def ypSlt (x y : Word) : Word := if toSigned x < toSigned y then 1 else 0

/-- SGT. -/
def ypSgt (x y : Word) : Word := if toSigned x > toSigned y then 1 else 0

/-- SIGNEXTEND: `r` is `x` with the low `b + 1` bytes' sign bit copied into every bit above it.
Counted from the least significant end, bit `j` of `r` is bit `min j (8b + 7)` of `x` (the Yellow
Paper counts from the top: `t = 256 - 8(b + 1)`, and from `b = 31` on nothing changes). -/
def SignExtended (b x r : Word) : Prop :=
  ∀ j < 256, (r : Nat).testBit j = (x : Nat).testBit (min j (8 * b + 7))

instance (b x r : Word) : Decidable (SignExtended b x r) := by
  unfold SignExtended
  infer_instance

/-- BYTE: byte `i` of `x`, counted from the most significant end; zero from 32 on. -/
def ypByte (i x : Word) : Word :=
  if (i : Nat) < 32 then ⟨(x : Nat) / 256 ^ (31 - (i : Nat)) % 256, by omega⟩ else 0

/-- ADDMOD: the unbounded sum modulo `z`, zero for `z = 0`. -/
def ypAddmod (x y z : Word) : Word :=
  if h : z = 0 then 0
  else ⟨((x : Nat) + y) % z, Nat.lt_trans (Nat.mod_lt _ (Nat.pos_of_ne_zero
    (Fin.val_ne_iff.mpr h))) z.isLt⟩

/-- MULMOD: the unbounded product modulo `z`, zero for `z = 0`. -/
def ypMulmod (x y z : Word) : Word :=
  if h : z = 0 then 0
  else ⟨((x : Nat) * y) % z, Nat.lt_trans (Nat.mod_lt _ (Nat.pos_of_ne_zero
    (Fin.val_ne_iff.mpr h))) z.isLt⟩

/-- EXP: the power modulo `2^256`. -/
def ypExp (x y : Word) : Word := ⟨(x : Nat) ^ (y : Nat) % 2 ^ 256, Nat.mod_lt _ (by positivity)⟩

/-! ### Words through `S256` and `U256` -/

theorem S256_word (x : Word) : S256 ((x : Nat) : Int) = toSigned x := by
  have hcond : ((x : Nat) : Int) < tt255 ↔ (x : Nat) < 2 ^ 255 := by
    unfold tt255
    norm_cast
  unfold S256 toSigned tt256
  simp only [hcond]

theorem toSigned_lt (x : Word) : toSigned x < 2 ^ 255 := by
  have := x.isLt
  unfold toSigned
  split_ifs with h <;> omega

/-- A second `S256` changes no signed reading of a word. -/
theorem S256_toSigned (x : Word) : S256 (toSigned x) = toSigned x := by
  unfold S256 tt255
  rw [if_pos (toSigned_lt x)]

theorem U256_ofSigned (v : Int) : U256 v = ((ofSigned v : Nat) : Int) := by
  unfold U256 ofSigned tt256
  rw [Int.toNat_of_nonneg (Int.emod_nonneg v (by decide))]

theorem U256_natCast_of_lt {m : Nat} (h : m < 2 ^ 256) : U256 (m : Int) = m :=
  U256_of_lt (Int.natCast_nonneg m) (by exact_mod_cast h)

/-- `ofSigned` reads numbers only modulo `2^256`. -/
theorem ofSigned_congr {a b : Int} (h : a ≡ b [ZMOD 2 ^ 256]) : ofSigned a = ofSigned b := by
  unfold ofSigned
  rw [Fin.mk.injEq, h]

/-! ### Each handler against its definition -/

/-- The shared signed shape on two words. -/
theorem opSigned_word (negative : Int → Int → Bool) (op : Int → Int → Int) (x y : Word)
    (rest : Stack) :
    opSigned negative op ((x : Nat) :: (y : Nat) :: rest) =
      some ((if toSigned y = 0 then 0
        else ((ofSigned (op |toSigned x| |toSigned y| *
          (if negative (toSigned x) (toSigned y) then -1 else 1)) : Nat) : Int)) :: rest) := by
  simp only [opSigned, S256_word]
  split_ifs <;> simp [U256_ofSigned]

theorem opSdiv_word (x y : Word) (rest : Stack) :
    opSdiv ((x : Nat) :: (y : Nat) :: rest) = some (((ypSdiv x y : Nat) : Int) :: rest) := by
  rw [opSdiv, opSigned_word, ypSdiv]
  by_cases hy : toSigned y = 0
  · simp [hy]
  · -- the magnitude formula of the handler is truncating division
    have hq : |toSigned x| / |toSigned y| * (if toSigned x * toSigned y < 0 then -1 else 1) =
        (toSigned x).tdiv (toSigned y) := (tdiv_eq_abs_div _ _).symm
    simp only [hy, if_false, decide_eq_true_eq, hq]
    split_ifs with hmin
    · -- `-2^255 / -1` is `2^255`, the same word as `-2^255`
      obtain ⟨hx, hy'⟩ := hmin
      rw [hx, hy', ofSigned_congr (by decide : (-2 ^ 255 : Int).tdiv (-1) ≡ -2 ^ 255 [ZMOD 2 ^ 256])]
    · rfl

theorem opSmod_word (x y : Word) (rest : Stack) :
    opSmod ((x : Nat) :: (y : Nat) :: rest) = some (((ypSmod x y : Nat) : Int) :: rest) := by
  rw [opSmod, opSigned_word, ypSmod]
  by_cases hy : toSigned y = 0
  · simp [hy]
  · have hr : |toSigned x| % |toSigned y| * (if toSigned x < 0 then -1 else 1) =
        (toSigned x).tmod (toSigned y) := (tmod_eq_abs_mod _ _).symm
    simp only [hy, if_false, decide_eq_true_eq, hr]

/-- The comparison result, as the words `1` and `0`. -/
theorem ite_word (p : Prop) [Decidable p] :
    ((if p then 1 else 0 : Int)) = (((if p then 1 else 0 : Word) : Nat) : Int) := by
  split_ifs <;> rfl

theorem opSlt_word (x y : Word) (rest : Stack) :
    opSlt ((x : Nat) :: (y : Nat) :: rest) = some (((ypSlt x y : Nat) : Int) :: rest) := by
  simp only [opSlt, S256_word, S256_toSigned, ypSlt, ite_word]

theorem opSgt_word (x y : Word) (rest : Stack) :
    opSgt ((x : Nat) :: (y : Nat) :: rest) = some (((ypSgt x y : Nat) : Int) :: rest) := by
  simp only [opSgt, S256_word, ypSgt, ite_word]

theorem opSlt_eq_opSgt (x y : Word) (rest : Stack) :
    opSlt ((x : Nat) :: (y : Nat) :: rest) = opSgt ((y : Nat) :: (x : Nat) :: rest) := by
  simp only [opSlt, opSgt, S256_word, S256_toSigned, gt_iff_lt]

theorem opByte_word (i x : Word) (rest : Stack) :
    opByte ((i : Nat) :: (x : Nat) :: rest) = some (((ypByte i x : Nat) : Int) :: rest) := by
  have hpow : 256 ^ (31 - (i : Nat)) = 2 ^ (8 * (31 - (i : Nat))) := by
    rw [pow_mul]
    norm_num
  unfold opByte ypByte
  by_cases hi : (i : Nat) < 32
  · have hi' : ((i : Nat) : Int) < 32 := by exact_mod_cast hi
    simp only [hi', hi, if_true, Int.toNat_natCast, Byte_eq, hpow]
  · have hi' : ¬ ((i : Nat) : Int) < 32 := by exact_mod_cast hi
    simp only [hi', hi, if_false, Fin.val_zero, Nat.cast_zero]

/-- The shared modular shape on three words, for an `op` that is `f` on naturals. -/
theorem opModular_word (op : Int → Int → Int) (f : Nat → Nat → Nat)
    (hop : ∀ a b : Nat, op a b = (f a b : Nat)) (x y z : Word) (rest : Stack) :
    opModular op ((x : Nat) :: (y : Nat) :: (z : Nat) :: rest) =
      some (((if (z : Nat) = 0 then 0 else f x y % z : Nat) : Int) :: rest) := by
  simp only [opModular]
  by_cases hz : (z : Nat) = 0
  · simp [hz]
  · have hz' : ((z : Nat) : Int) > 0 := by exact_mod_cast Nat.pos_of_ne_zero hz
    have hlt : f x y % z < 2 ^ 256 := Nat.lt_trans (Nat.mod_lt _ (Nat.pos_of_ne_zero hz)) z.isLt
    rw [if_pos hz', if_neg hz, hop, ← Int.natCast_mod, U256_natCast_of_lt hlt]

theorem opAddmod_word (x y z : Word) (rest : Stack) :
    opAddmod ((x : Nat) :: (y : Nat) :: (z : Nat) :: rest) =
      some (((ypAddmod x y z : Nat) : Int) :: rest) := by
  rw [opAddmod, opModular_word _ (· + ·) (fun a b => (Nat.cast_add a b).symm), ypAddmod]
  by_cases hz : z = 0
  · subst hz
    rfl
  · have hz' : (z : Nat) ≠ 0 := fun h => hz (Fin.ext h)
    rw [dif_neg hz, if_neg hz']

theorem opMulmod_word (x y z : Word) (rest : Stack) :
    opMulmod ((x : Nat) :: (y : Nat) :: (z : Nat) :: rest) =
      some (((ypMulmod x y z : Nat) : Int) :: rest) := by
  rw [opMulmod, opModular_word _ (· * ·) (fun a b => (Nat.cast_mul a b).symm), ypMulmod]
  by_cases hz : z = 0
  · subst hz
    rfl
  · have hz' : (z : Nat) ≠ 0 := fun h => hz (Fin.ext h)
    rw [dif_neg hz, if_neg hz']

theorem opExp_word (x y : Word) (rest : Stack) :
    opExp ((x : Nat) :: (y : Nat) :: rest) = some (((ypExp x y : Nat) : Int) :: rest) := by
  simp only [opExp, Exp_eq, ypExp]
  push_cast
  rfl

/-! ### SIGNEXTEND -/

section SignExtend

variable (b x : Word)

/-- The bit the handler tests, `back * 8 + 7`, is the Yellow Paper's sign bit `8b + 7`. -/
theorem signBit_eq : (b : Nat) * 8 + 7 = 8 * b + 7 := by omega

/-- The set branch's value `m - 2^k`, for low bits `m`, lies one `2^256` below the word
`2^256 - 2^k + m`. -/
theorem U256_sub_two_pow {m k : Nat} (hk : k < 256) (hm : m < 2 ^ k) :
    U256 ((m : Int) - 2 ^ k) = ((2 ^ 256 - 2 ^ k + m : Nat) : Int) := by
  have hpow : 2 ^ k ≤ 2 ^ 256 := Nat.pow_le_pow_right (by norm_num) hk.le
  have hm' : (m : Int) < 2 ^ k := by exact_mod_cast hm
  have hpow' : (2 : Int) ^ k ≤ 2 ^ 256 := by exact_mod_cast hpow
  rw [U256, tt256, ← Int.add_emod_right, Int.emod_eq_of_lt (by omega) (by omega), Nat.cast_add,
    Nat.cast_sub hpow]
  push_cast
  ring

theorem signExtended_set (k : Nat) (hk : k < 256) (hbit : (x : Nat).testBit k = true) :
    ∀ j < 256, (2 ^ 256 - 2 ^ k + (x : Nat) % 2 ^ k).testBit j = (x : Nat).testBit (min j k) := by
  intro j hj
  rw [testBit_two_pow_sub_two_pow_add hk.le (Nat.mod_lt _ (Nat.two_pow_pos k))]
  split_ifs with hjk
  · rw [Nat.testBit_mod_two_pow, min_eq_left hjk.le]
    simp [hjk]
  · rw [min_eq_right (by omega), hbit]
    simpa using hj

theorem signExtended_clear (k : Nat) (hbit : (x : Nat).testBit k = false) :
    ∀ j, ((x : Nat) % 2 ^ k).testBit j = (x : Nat).testBit (min j k) := by
  intro j
  rw [Nat.testBit_mod_two_pow]
  by_cases hjk : j < k
  · simp [hjk, min_eq_left hjk.le]
  · simp [hjk, min_eq_right (not_lt.mp hjk), hbit]

theorem opSignExtend_word (rest : Stack) :
    ∃ r : Word, opSignExtend ((b : Nat) :: (x : Nat) :: rest) = some (((r : Nat) : Int) :: rest) ∧
      SignExtended b x r := by
  by_cases hb : (b : Nat) < 31
  · have hb' : ((b : Nat) : Int) < 31 := by exact_mod_cast hb
    have hk : (b : Nat) * 8 + 7 < 256 := by omega
    simp only [opSignExtend, hb', if_true, Int.toNat_natCast]
    cases hbit : (x : Nat).testBit ((b : Nat) * 8 + 7)
    · -- a clear sign bit: the mask keeps the bits below it
      have hbit' : Int.testBit ((x : Nat) : Int) ((b : Nat) * 8 + 7) = false := hbit
      have hlt : (x : Nat) % 2 ^ ((b : Nat) * 8 + 7) < 2 ^ 256 := lt_of_le_of_lt (Nat.mod_le _ _) x.isLt
      refine ⟨⟨_, hlt⟩, ?_, ?_⟩
      · rw [hbit', if_neg Bool.false_ne_true, land_two_pow_sub_one, U256_natCast_of_lt hlt]
      · intro j _
        rw [← signBit_eq]
        exact signExtended_clear x _ hbit j
    · -- a set sign bit: every bit above it is set
      have hbit' : Int.testBit ((x : Nat) : Int) ((b : Nat) * 8 + 7) = true := hbit
      have hlt : 2 ^ 256 - 2 ^ ((b : Nat) * 8 + 7) + (x : Nat) % 2 ^ ((b : Nat) * 8 + 7) < 2 ^ 256 := by
        have := Nat.mod_lt (x : Nat) (Nat.two_pow_pos ((b : Nat) * 8 + 7))
        have : 2 ^ ((b : Nat) * 8 + 7) ≤ 2 ^ 256 := Nat.pow_le_pow_right (by norm_num) hk.le
        omega
      refine ⟨⟨_, hlt⟩, ?_, ?_⟩
      · rw [hbit', if_pos rfl, lor_lnot_two_pow_sub_one,
          U256_sub_two_pow hk (Nat.mod_lt _ (Nat.two_pow_pos _))]
      · intro j hj
        rw [← signBit_eq]
        exact signExtended_set x _ hk hbit j hj
  · -- from 31 on the word is left on the stack, and `min j (8b + 7)` is `j`
    refine ⟨x, ?_, ?_⟩
    · have hb' : ¬ ((b : Nat) : Int) < 31 := by exact_mod_cast hb
      simp only [opSignExtend, hb', if_false]
    · intro j hj
      rw [min_eq_left (by omega)]

end SignExtend

/-- Every signed, byte and modular handler pushes what the Yellow Paper defines, on all words. -/
theorem arithmetic_opcodes_eq_yellowPaper (x y z : Word) (rest : Stack) :
    opSdiv ((x : Nat) :: (y : Nat) :: rest) = some (((ypSdiv x y : Nat) : Int) :: rest) ∧
    opSmod ((x : Nat) :: (y : Nat) :: rest) = some (((ypSmod x y : Nat) : Int) :: rest) ∧
    opSlt ((x : Nat) :: (y : Nat) :: rest) = some (((ypSlt x y : Nat) : Int) :: rest) ∧
    opSgt ((x : Nat) :: (y : Nat) :: rest) = some (((ypSgt x y : Nat) : Int) :: rest) ∧
    (∃ r : Word, opSignExtend ((x : Nat) :: (y : Nat) :: rest) = some (((r : Nat) : Int) :: rest) ∧
      SignExtended x y r) ∧
    opByte ((x : Nat) :: (y : Nat) :: rest) = some (((ypByte x y : Nat) : Int) :: rest) ∧
    opAddmod ((x : Nat) :: (y : Nat) :: (z : Nat) :: rest) =
      some (((ypAddmod x y z : Nat) : Int) :: rest) ∧
    opMulmod ((x : Nat) :: (y : Nat) :: (z : Nat) :: rest) =
      some (((ypMulmod x y z : Nat) : Int) :: rest) ∧
    opExp ((x : Nat) :: (y : Nat) :: rest) = some (((ypExp x y : Nat) : Int) :: rest) :=
  ⟨opSdiv_word x y rest, opSmod_word x y rest, opSlt_word x y rest, opSgt_word x y rest,
    opSignExtend_word x y rest, opByte_word x y rest, opAddmod_word x y z rest,
    opMulmod_word x y z rest, opExp_word x y rest⟩

end EpvChain.Vm
