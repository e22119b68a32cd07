import Mathlib

/-!
# Words as `big.Int` (`public/math/big.go`)

The virtual machine keeps its words as `*big.Int` values in `[0, 2^256)`: `U256` brings a result
back into that range, `S256` reads a word as a signed number, `Exp` raises a word to a power by
squaring, one bit of the exponent at a time, and `Byte` reads one byte of a word's big-endian
form. A `big.Int` is an integer here, and its `Bits()` are the digits of its magnitude in base
`2^64` (the `big.Word` of a 64-bit platform), least significant first.

* `U256_modEq`, `U256_of_lt`: `U256` is reduction mod `2^256`.
* `Exp_eq`: `Exp base exponent` is `base ^ exponent mod 2^256`, for every exponent a word can be.
* `bigEndianByteAt_eq`, `Byte_eq`: `Byte(v, 32, n)` is byte `n` from the top of `v`'s 32 bytes.
-/

namespace EpvChain.Math

/-- `tt255`. -/
def tt255 : Int := 2 ^ 255

/-- `tt256`. -/
def tt256 : Int := 2 ^ 256

/-- `wordBits`: the bits of a `big.Word` on a 64-bit platform. -/
def wordBits : Nat := 64

/-- `wordBytes`. -/
def wordBytes : Nat := wordBits / 8

/-- `bigint.Bits()`: the words of the magnitude, least significant first, none zero at the
top. -/
def bits (x : Int) : List Nat := Nat.digits (2 ^ wordBits) x.natAbs

/-- `U256(x)`: `x.And(x, tt256m1)`. A `big.Int`'s `And` is that of its two's complement, so it
keeps the low 256 bits: `x mod 2^256`. -/
def U256 (x : Int) : Int := x % tt256

/-- `S256(x)`: a word read as a signed number. -/
def S256 (x : Int) : Int := if x < tt255 then x else x - tt256

/-- `bigEndianByteAt(bigint, n)`: byte `n` counted from the least significant end. -/
def bigEndianByteAt (bigint : Int) (n : Nat) : UInt8 :=
  let words := bits bigint
  let i := n / wordBytes
  if i ≥ words.length then 0
  else
    let word := words.getD i 0
    let shift := 8 * (n % wordBytes)
    (word >>> shift).toUInt8

/-- `Byte(bigint, padlength, n)`: byte `n` of `bigint`'s big-endian form in `padlength`
bytes. -/
def Byte (bigint : Int) (padlength n : Nat) : UInt8 :=
  if n ≥ padlength then 0 else bigEndianByteAt bigint (padlength - 1 - n)

/-- One word of `Exp`'s exponent: `i` rounds of the inner loop from the word's lowest bit, each
multiplying `result` by `base` when the bit is set and squaring `base`. -/
def expWord : Nat → Nat → Int × Int → Int × Int
  | _, 0, acc => acc
  | word, i + 1, (result, base) =>
    expWord (word / 2) i
      (if word % 2 = 1 then U256 (result * base) else result, U256 (base * base))

/-- `Exp(base, exponent)`: the inner loop over every word of the exponent, from `result = 1`. -/
def Exp (base exponent : Int) : Int :=
  ((bits exponent).foldl (fun acc word => expWord word wordBits acc) (1, base)).1

/-! ### `U256` -/

theorem U256_modEq (x : Int) : U256 x ≡ x [ZMOD 2 ^ 256] := Int.mod_modEq x _

theorem U256_nonneg (x : Int) : 0 ≤ U256 x := Int.emod_nonneg x (by decide)

theorem U256_lt (x : Int) : U256 x < 2 ^ 256 := Int.emod_lt_of_pos x (by decide)

theorem U256_of_lt {x : Int} (h0 : 0 ≤ x) (h : x < 2 ^ 256) : U256 x = x :=
  Int.emod_eq_of_lt h0 h

/-! ### `Exp` -/

/-- `i` rounds of `expWord` multiply `result` by `base ^ (word mod 2^i)` and square `base` `i`
times, up to `2^256`. -/
theorem expWord_modEq : ∀ (i word : Nat) (result base : Int),
    (expWord word i (result, base)).1 ≡ result * base ^ (word % 2 ^ i) [ZMOD 2 ^ 256] ∧
      (expWord word i (result, base)).2 ≡ base ^ 2 ^ i [ZMOD 2 ^ 256]
  | 0, word, result, base => by simp [expWord, Nat.mod_one, Int.ModEq.refl]
  | i + 1, word, result, base => by
    set result' := if word % 2 = 1 then U256 (result * base) else result
    obtain ⟨ih₁, ih₂⟩ := expWord_modEq i (word / 2) result' (U256 (base * base))
    -- the round at the lowest bit multiplies by `base ^ (word % 2)` and squares `base`
    have hres : result' ≡ result * base ^ (word % 2) [ZMOD 2 ^ 256] := by
      rcases Nat.mod_two_eq_zero_or_one word with h | h
      · simp [result', h, Int.ModEq.refl]
      · simpa [result', h] using U256_modEq (result * base)
    have hsq : U256 (base * base) ≡ base ^ 2 [ZMOD 2 ^ 256] := by
      simpa [sq] using U256_modEq (base * base)
    have hsplit : word % 2 ^ (i + 1) = word % 2 + 2 * (word / 2 % 2 ^ i) := by
      rw [pow_succ', Nat.mod_mul]
    refine ⟨?_, ?_⟩
    · calc (expWord word (i + 1) (result, base)).1
          ≡ result' * U256 (base * base) ^ (word / 2 % 2 ^ i) [ZMOD 2 ^ 256] := ih₁
        _ ≡ result * base ^ (word % 2) * (base ^ 2) ^ (word / 2 % 2 ^ i) [ZMOD 2 ^ 256] :=
          hres.mul (hsq.pow _)
        _ = result * base ^ (word % 2 ^ (i + 1)) := by
          rw [hsplit, pow_add, pow_mul, mul_assoc]
    · calc (expWord word (i + 1) (result, base)).2
          ≡ U256 (base * base) ^ 2 ^ i [ZMOD 2 ^ 256] := ih₂
        _ ≡ (base ^ 2) ^ 2 ^ i [ZMOD 2 ^ 256] := hsq.pow _
        _ = base ^ 2 ^ (i + 1) := by rw [← pow_mul, pow_succ']

/-- `expWord` keeps `result` a word. -/
theorem expWord_range : ∀ (i word : Nat) (result base : Int), 0 ≤ result →
    result < 2 ^ 256 →
    0 ≤ (expWord word i (result, base)).1 ∧ (expWord word i (result, base)).1 < 2 ^ 256
  | 0, _, _, _, h0, h => ⟨h0, h⟩
  | i + 1, word, result, base, h0, h => by
    apply expWord_range i (word / 2)
    · split_ifs
      · exact U256_nonneg _
      · exact h0
    · split_ifs
      · exact U256_lt _
      · exact h

/-- The loop over the words of an exponent, one `wordBits`-round `expWord` each, multiplies by
`base` raised to the number the words are the base-`2^64` digits of. -/
theorem foldl_expWord_modEq : ∀ (ws : List Nat) (result base : Int), (∀ w ∈ ws, w < 2 ^ 64) →
    (ws.foldl (fun acc word => expWord word wordBits acc) (result, base)).1 ≡
      result * base ^ Nat.ofDigits (2 ^ 64) ws [ZMOD 2 ^ 256]
  | [], result, base, _ => by simp [Int.ModEq.refl]
  | w :: ws, result, base, hws => by
    rw [List.foldl_cons]
    obtain ⟨h₁, h₂⟩ := expWord_modEq wordBits w result base
    have hw : w % 2 ^ wordBits = w := Nat.mod_eq_of_lt (hws w List.mem_cons_self)
    rw [hw] at h₁
    have ih := foldl_expWord_modEq ws (expWord w wordBits (result, base)).1
      (expWord w wordBits (result, base)).2 (fun v hv => hws v (List.mem_cons_of_mem w hv))
    calc _ ≡ (expWord w wordBits (result, base)).1 *
            (expWord w wordBits (result, base)).2 ^ Nat.ofDigits (2 ^ 64) ws [ZMOD 2 ^ 256] := ih
      _ ≡ result * base ^ w * (base ^ 2 ^ wordBits) ^ Nat.ofDigits (2 ^ 64) ws
          [ZMOD 2 ^ 256] := h₁.mul (h₂.pow _)
      _ = result * base ^ Nat.ofDigits (2 ^ 64) (w :: ws) := by
          rw [Nat.ofDigits_cons, pow_add, pow_mul, mul_assoc]
          rfl

/-- The loop keeps `result` a word. -/
theorem foldl_expWord_range : ∀ (ws : List Nat) (result base : Int), 0 ≤ result →
    result < 2 ^ 256 →
    0 ≤ (ws.foldl (fun acc word => expWord word wordBits acc) (result, base)).1 ∧
      (ws.foldl (fun acc word => expWord word wordBits acc) (result, base)).1 < 2 ^ 256
  | [], _, _, h0, h => ⟨h0, h⟩
  | w :: ws, result, base, h0, h => by
    rw [List.foldl_cons]
    obtain ⟨h0', h'⟩ := expWord_range wordBits w result base h0 h
    exact foldl_expWord_range ws _ _ h0' h'

/-- **`Exp`** is `base ^ exponent mod 2^256`, for every exponent of at least zero. -/
theorem Exp_eq (base : Int) (exponent : Nat) :
    Exp base exponent = base ^ exponent % 2 ^ 256 := by
  have hdigits : ∀ w ∈ bits exponent, w < 2 ^ 64 := fun w hw =>
    Nat.digits_lt_base (by norm_num) hw
  have hmod := foldl_expWord_modEq (bits exponent) 1 base hdigits
  obtain ⟨h0, h⟩ := foldl_expWord_range (bits exponent) 1 base (by norm_num) (by norm_num)
  rw [one_mul, bits, Int.natAbs_natCast, wordBits, Nat.ofDigits_digits] at hmod
  rw [Exp, ← Int.emod_eq_of_lt h0 h]
  exact hmod.eq

/-! ### `Byte` -/

/-- `bigEndianByteAt(v, n)` of a non-negative `v` is its byte `n` from the least significant
end: byte `n % 8` of word `n / 8`, or zero past the last word. -/
theorem bigEndianByteAt_eq (v n : Nat) :
    (bigEndianByteAt v n).toNat = v / 2 ^ (8 * n) % 256 := by
  have hn : 8 * n = 64 * (n / 8) + 8 * (n % 8) := by omega
  have hbits : bits v = Nat.digits (2 ^ 64) v := by simp [bits, wordBits]
  unfold bigEndianByteAt
  dsimp only
  rw [hbits, show wordBytes = 8 from rfl]
  by_cases hlen : n / 8 ≥ (Nat.digits (2 ^ 64) v).length
  · -- past the last word `v` is below `2^(8n)`
    rw [if_pos hlen]
    have hlt := Nat.lt_base_pow_length_digits (b := 2 ^ 64) (m := v) (by norm_num)
    have hv : v < 2 ^ (8 * n) := lt_of_lt_of_le hlt (by
      rw [← pow_mul]
      exact Nat.pow_le_pow_right (by norm_num) (by omega))
    simp [Nat.div_eq_of_lt hv]
  · -- the word is `v / 2^(64 i) % 2^64`, and the byte sits `8 (n % 8)` bits into it
    rw [if_neg hlen]
    have hsplit : (2 : Nat) ^ 64 = 2 ^ (8 * (n % 8)) * 2 ^ (64 - 8 * (n % 8)) := by
      rw [← pow_add]
      congr 1
      omega
    have hdvd : 256 ∣ 2 ^ (64 - 8 * (n % 8)) :=
      (Nat.pow_dvd_pow_iff_le_right (by norm_num)).mpr (by omega : 8 ≤ 64 - 8 * (n % 8))
    rw [Nat.getD_digits _ _ (by norm_num), Nat.toUInt8_eq, UInt8.toNat_ofNat',
      Nat.shiftRight_eq_div_pow, ← pow_mul, hsplit, Nat.mod_mul_right_div_self,
      Nat.div_div_eq_div_mul, ← pow_add, ← hn]
    exact Nat.mod_mod_of_dvd _ hdvd

/-- `Byte(v, 32, n)` of a non-negative `v` is byte `n` from the top of its 32 bytes. -/
theorem Byte_eq (v n : Nat) :
    (Byte v 32 n).toNat = if n < 32 then v / 2 ^ (8 * (31 - n)) % 256 else 0 := by
  unfold Byte
  split_ifs with hge hlt
  · omega
  · rfl
  · rw [bigEndianByteAt_eq]
  · omega

end EpvChain.Math
