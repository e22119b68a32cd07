import Mathlib.Data.Nat.Digits.Lemmas
import EpvChain.Lib.ExceptLoop

/-!
# Hex quantities (`public/hexutil/hexutil.go`)

A quantity is written as `0x` followed by its hex digits without leading zeros: `EncodeBig` and
`EncodeUint64` write it, `DecodeBig` and `DecodeUint64` read it back through `checkNumber`.
`DecodeBig` assembles the value in machine words, `bigWordNibbles` digits a word from the right,
the top word taking what is left; `DecodeUint64` hands the digits to `strconv.ParseUint`.

Go strings are byte strings, so a string here is a `List UInt8`. `bigWordNibbles` is 16, the
value `init` gives it where a `big.Word` has 64 bits, and a word is a `UInt64`.
`strconv.ParseUint(s, 16, 64)` is modelled by its digit loop (`parseUintLoop`), and the digits
that `strconv.AppendUint(_, i, 16)` and `fmt`'s `%#x` write by `formatHex`: base 16, most
significant first, lower case, `0` for zero.

The value of a digit string (`hexValue`) is Mathlib's `Nat.ofDigits` of its nibbles read from
the right. Over it: the word loop computes it chunk by chunk (`decodeWords_ok`), `formatHex`
writes the one digit string without leading zeros that has a given value
(`formatHex_hexValue`), and so the codec round-trips both ways.
-/

namespace EpvChain.Hexutil

/-! ### Errors -/

/-- The `decError` values the modelled functions return. -/
inductive DecError where
  | ErrEmptyString
  | ErrSyntax
  | ErrMissingPrefix
  | ErrEmptyNumber
  | ErrLeadingZero
  | ErrUint64Range
  | ErrBig256Range
  deriving DecidableEq, Repr

/-- `decError.Error`: the message of each error. -/
def DecError.Error : DecError → String
  | .ErrEmptyString => "empty hex string"
  | .ErrSyntax => "invalid hex string"
  | .ErrMissingPrefix => "hex string without 0x prefix"
  | .ErrEmptyNumber => "hex string \"0x\""
  | .ErrLeadingZero => "hex number with leading zero digits"
  | .ErrUint64Range => "hex number > 64 bits"
  | .ErrBig256Range => "hex number > 256 bits"

/-- The two causes of a `strconv.NumError` that `ParseUint` reports. -/
inductive NumError where
  | ErrRange
  | ErrSyntax
  deriving DecidableEq, Repr

/-- `mapError` on the errors of `strconv.ParseUint`. -/
def mapError : NumError → DecError
  | .ErrRange => .ErrUint64Range
  | .ErrSyntax => .ErrSyntax

/-! ### Decoding -/

/-- `has0xPrefix(input)`. -/
def has0xPrefix : List UInt8 → Bool
  | c0 :: c1 :: _ => c0 == '0'.toUInt8 && (c1 == 'x'.toUInt8 || c1 == 'X'.toUInt8)
  | _ => false

/-- `checkNumber(input)`: the digits of a quantity, behind its `0x` prefix. -/
def checkNumber (input : List UInt8) : Except DecError (List UInt8) :=
  if input.length = 0 then .error .ErrEmptyString
  else if !has0xPrefix input then .error .ErrMissingPrefix
  else
    let input := input.drop 2
    if input.length = 0 then .error .ErrEmptyNumber
    else if input.length > 1 ∧ input.head? = some '0'.toUInt8 then .error .ErrLeadingZero
    else .ok input

/-- `badNibble`. -/
def badNibble : UInt64 := ~~~0

/-- `decodeNibble(in)`. -/
def decodeNibble (b : UInt8) : UInt64 :=
  if '0'.toUInt8 ≤ b ∧ b ≤ '9'.toUInt8 then (b - '0'.toUInt8).toUInt64
  else if 'A'.toUInt8 ≤ b ∧ b ≤ 'F'.toUInt8 then (b - 'A'.toUInt8 + 10).toUInt64
  else if 'a'.toUInt8 ≤ b ∧ b ≤ 'f'.toUInt8 then (b - 'a'.toUInt8 + 10).toUInt64
  else badNibble

/-- `bigWordNibbles`: the hex digits of one `big.Word`. -/
def bigWordNibbles : Nat := 16

/-- The inner loop of `DecodeBig`: `words[i] *= 16; words[i] += nib` over the digits
`raw[start:end]`, and `ErrSyntax` at the first byte that is no hex digit. -/
def accumulateWord : List UInt8 → UInt64 → Except DecError UInt64
  | [], w => .ok w
  | c :: cs, w =>
    let nib := decodeNibble c
    if nib = badNibble then .error .ErrSyntax else accumulateWord cs (w * 16 + nib)

/-- The outer loop of `DecodeBig`: `k` words are left to fill and the first `stop` digits of `raw`
(`end`) are not yet read; each word takes the last `bigWordNibbles` of them, or all that are
left. -/
def decodeWords (raw : List UInt8) : Nat → Nat → Except DecError (List UInt64)
  | 0, _ => .ok []
  | k + 1, stop =>
    -- `start := end - bigWordNibbles`, raised to 0 when negative
    let start := stop - bigWordNibbles
    do
      let w ← accumulateWord ((raw.take stop).drop start) 0
      let ws ← decodeWords raw k start
      return w :: ws

/-- `new(big.Int).SetBits(words)`: the words, least significant first. -/
def setBits : List UInt64 → Nat
  | [] => 0
  | w :: ws => w.toNat + 2 ^ 64 * setBits ws

/-- `DecodeBig(input)`. -/
def DecodeBig (input : List UInt8) : Except DecError Nat := do
  let raw ← checkNumber input
  if raw.length > 64 then throw .ErrBig256Range
  let words ← decodeWords raw (raw.length / bigWordNibbles + 1) raw.length
  return setBits words

/-- The value `strconv.ParseUint` gives a digit: `0`..`9`, then `a`..`z` and `A`..`Z` from 10. -/
def digitValue (c : UInt8) : Option Nat :=
  if '0'.toUInt8 ≤ c ∧ c ≤ '9'.toUInt8 then some (c - '0'.toUInt8).toNat
  else if 'a'.toUInt8 ≤ c ∧ c ≤ 'z'.toUInt8 then some ((c - 'a'.toUInt8).toNat + 10)
  else if 'A'.toUInt8 ≤ c ∧ c ≤ 'Z'.toUInt8 then some ((c - 'A'.toUInt8).toNat + 10)
  else none

/-- The digit loop of `strconv.ParseUint(s, 16, 64)`, from the value `n` read so far. -/
def parseUintLoop : List UInt8 → Nat → Except NumError Nat
  | [], n => .ok n
  | c :: cs, n =>
    match digitValue c with
    | none => .error .ErrSyntax
    | some d =>
      if d ≥ 16 then .error .ErrSyntax
      -- `n >= cutoff`, with `cutoff = maxUint64/16 + 1`
      else if n ≥ (2 ^ 64 - 1) / 16 + 1 then .error .ErrRange
      else if n * 16 + d > 2 ^ 64 - 1 then .error .ErrRange
      else parseUintLoop cs (n * 16 + d)

/-- `strconv.ParseUint(s, 16, 64)`. -/
def ParseUint (s : List UInt8) : Except NumError UInt64 :=
  if s.length = 0 then .error .ErrSyntax else (parseUintLoop s 0).map UInt64.ofNat

/-- `DecodeUint64(input)`. -/
def DecodeUint64 (input : List UInt8) : Except DecError UInt64 := do
  let raw ← checkNumber input
  match ParseUint raw with
  | .ok dec => return dec
  | .error err => throw (mapError err)

/-! ### Encoding -/

/-- The lower-case hex digit of `d < 16`. -/
def hexDigit (d : Nat) : UInt8 :=
  if d < 10 then '0'.toUInt8 + d.toUInt8 else 'a'.toUInt8 + (d - 10).toUInt8

/-- The base-16 digits of `n` as `strconv.AppendUint(_, n, 16)` and `fmt`'s `%x` write them. -/
def formatHex (n : Nat) : List UInt8 :=
  if n = 0 then ['0'.toUInt8] else ((Nat.digits 16 n).map hexDigit).reverse

/-- `EncodeUint64(i)`. -/
def EncodeUint64 (i : UInt64) : List UInt8 :=
  ['0'.toUInt8, 'x'.toUInt8] ++ formatHex i.toNat

/-- `EncodeBig(bigint)`: `0x0` for zero, else `fmt.Sprintf("%#x", bigint)`, which puts a minus
sign before the prefix of a negative number. -/
def EncodeBig (bigint : Int) : List UInt8 :=
  if bigint.natAbs.size = 0 then ['0'.toUInt8, 'x'.toUInt8, '0'.toUInt8]
  else (if bigint < 0 then ['-'.toUInt8] else []) ++ ['0'.toUInt8, 'x'.toUInt8] ++
    formatHex bigint.natAbs

/-! ### Digits -/

/-- A hex digit, as `decodeNibble` reads one. -/
def IsHexDigit (c : UInt8) : Prop := decodeNibble c ≠ badNibble

instance (c : UInt8) : Decidable (IsHexDigit c) := inferInstanceAs (Decidable (_ ≠ _))

/-- The ASCII lower case of a byte. -/
def toLower (c : UInt8) : UInt8 := if 'A'.toUInt8 ≤ c ∧ c ≤ 'Z'.toUInt8 then c + 32 else c

/-- A fact about every byte follows from its check on the 256 values. -/
theorem forall_uint8 {P : UInt8 → Prop} (h : ∀ n < 256, P n.toUInt8) (b : UInt8) : P b := by
  have hb := h b.toNat b.toNat_lt
  simpa using hb

theorem decodeNibble_lt {c : UInt8} (h : IsHexDigit c) : (decodeNibble c).toNat < 16 :=
  forall_uint8 (P := fun c => IsHexDigit c → (decodeNibble c).toNat < 16) (by decide +kernel) c h

/-- `strconv`'s digit value agrees with `decodeNibble` on hex digits. -/
theorem digitValue_of_isHexDigit {c : UInt8} (h : IsHexDigit c) :
    digitValue c = some (decodeNibble c).toNat :=
  forall_uint8 (P := fun c => IsHexDigit c → digitValue c = some (decodeNibble c).toNat)
    (by decide +kernel) c h

/-- Writing the value of a hex digit gives the digit in lower case. -/
theorem hexDigit_decodeNibble {c : UInt8} (h : IsHexDigit c) :
    hexDigit (decodeNibble c).toNat = toLower c :=
  forall_uint8 (P := fun c => IsHexDigit c → hexDigit (decodeNibble c).toNat = toLower c)
    (by decide +kernel) c h

/-- Only `0` is a hex digit of value zero. -/
theorem eq_zero_of_decodeNibble {c : UInt8} (h : IsHexDigit c) (h0 : (decodeNibble c).toNat = 0) :
    c = '0'.toUInt8 :=
  forall_uint8 (P := fun c => IsHexDigit c → (decodeNibble c).toNat = 0 → c = '0'.toUInt8)
    (by decide +kernel) c h h0

theorem decodeNibble_hexDigit {d : Nat} (h : d < 16) :
    IsHexDigit (hexDigit d) ∧ (decodeNibble (hexDigit d)).toNat = d := by
  have key : ∀ d < 16, IsHexDigit (hexDigit d) ∧ (decodeNibble (hexDigit d)).toNat = d := by
    decide
  exact key d h

/-- The value of a digit string, most significant digit first. -/
def hexValue (cs : List UInt8) : Nat :=
  Nat.ofDigits 16 (cs.reverse.map fun c => (decodeNibble c).toNat)

@[simp] theorem hexValue_nil : hexValue [] = 0 := rfl

theorem hexValue_append (xs ys : List UInt8) :
    hexValue (xs ++ ys) = hexValue xs * 16 ^ ys.length + hexValue ys := by
  simp only [hexValue, List.reverse_append, List.map_append, Nat.ofDigits_append, List.length_map,
    List.length_reverse]
  ring

theorem hexValue_cons (c : UInt8) (cs : List UInt8) :
    hexValue (c :: cs) = (decodeNibble c).toNat * 16 ^ cs.length + hexValue cs := by
  rw [show c :: cs = [c] ++ cs from rfl, hexValue_append]
  simp [hexValue]

theorem hexValue_lt {cs : List UInt8} (h : ∀ c ∈ cs, IsHexDigit c) : hexValue cs < 16 ^ cs.length := by
  have hlt := Nat.ofDigits_lt_base_pow_length (b := 16)
    (l := cs.reverse.map fun c => (decodeNibble c).toNat) (by norm_num) (by
      intro x hx
      obtain ⟨c, hc, rfl⟩ := List.mem_map.mp hx
      exact decodeNibble_lt (h c (List.mem_reverse.mp hc)))
  simpa [hexValue] using hlt

/-! ### The word loop -/

/-- The inner loop reads a chunk of hex digits as its value, modulo the word. -/
theorem accumulateWord_ok {cs : List UInt8} (h : ∀ c ∈ cs, IsHexDigit c) (w : UInt64) :
    ∃ w', accumulateWord cs w = .ok w' ∧
      w'.toNat = (w.toNat * 16 ^ cs.length + hexValue cs) % 2 ^ 64 := by
  induction cs generalizing w with
  | nil => exact ⟨w, rfl, by simp [Nat.mod_eq_of_lt w.toNat_lt]⟩
  | cons c cs ih =>
    obtain ⟨w', hrun, hw'⟩ := ih (fun c hc => h c (List.mem_cons_of_mem _ hc)) (w * 16 + decodeNibble c)
    refine ⟨w', ?_, ?_⟩
    · rw [accumulateWord, if_neg (h c List.mem_cons_self)]
      exact hrun
    · -- the word wraps at each step; the value taken modulo `2^64` at the end is the same
      have hstep : (w * 16 + decodeNibble c).toNat = (w.toNat * 16 + (decodeNibble c).toNat) % 2 ^ 64 := by
        rw [UInt64.toNat_add, UInt64.toNat_mul, Nat.mod_add_mod]
        rfl
      have hmod := ((Nat.mod_modEq (w.toNat * 16 + (decodeNibble c).toNat) (2 ^ 64)).mul_right
        (16 ^ cs.length)).add_right (hexValue cs)
      rw [hw', hstep, hmod, hexValue_cons, List.length_cons]
      congr 1
      ring

/-- A word loop that succeeds read only hex digits. -/
theorem isHexDigit_of_accumulateWord {cs : List UInt8} {w w' : UInt64}
    (h : accumulateWord cs w = .ok w') : ∀ c ∈ cs, IsHexDigit c := by
  induction cs generalizing w with
  | nil => simp
  | cons c cs ih =>
    rw [accumulateWord] at h
    split at h
    · cases h
    · rename_i hgood
      intro x hx
      rcases List.mem_cons.mp hx with rfl | hx
      · exact hgood
      · exact ih h x hx

/-- The digits not yet read split into those of the words still to come and the chunk of the
word being filled. -/
theorem take_eq_take_append_chunk (raw : List UInt8) {start stop : Nat} (h : start ≤ stop) :
    raw.take stop = raw.take start ++ (raw.take stop).drop start := by
  have hsplit := List.take_append_drop start (raw.take stop)
  rw [List.take_take, Nat.min_eq_left h] at hsplit
  exact hsplit.symm

/-- With enough words for the digits left, the outer loop reads them as their value: each word is
a chunk of at most `bigWordNibbles` digits, and only the top chunk may be short. -/
theorem decodeWords_ok (raw : List UInt8) :
    ∀ (k : Nat) {stop : Nat}, stop ≤ raw.length → stop ≤ 16 * k →
      (∀ c ∈ raw.take stop, IsHexDigit c) →
      ∃ ws, decodeWords raw k stop = .ok ws ∧ setBits ws = hexValue (raw.take stop)
  | 0, stop, _, hk, _ => by
    obtain rfl : stop = 0 := by omega
    exact ⟨[], rfl, by simp [setBits]⟩
  | k + 1, stop, hstop, hk, hgood => by
    have hsplit := take_eq_take_append_chunk raw (Nat.sub_le stop bigWordNibbles)
    have hchunk : ((raw.take stop).drop (stop - bigWordNibbles)).length = stop - (stop - 16) := by
      simp only [List.length_drop, List.length_take, Nat.min_eq_left hstop, bigWordNibbles]
    have hgood' : ∀ c ∈ raw.take stop, IsHexDigit c := hgood
    rw [hsplit] at hgood'
    obtain ⟨w, hw, hwval⟩ := accumulateWord_ok
      (fun c hc => hgood' c (List.mem_append_right _ hc)) 0
    obtain ⟨ws, hws, hwsval⟩ := @decodeWords_ok raw k (stop - bigWordNibbles)
      (by omega) (by simp only [bigWordNibbles]; omega)
      (fun c hc => hgood' c (List.mem_append_left _ hc))
    refine ⟨w :: ws, ?_, ?_⟩
    · simp only [decodeWords]
      rw [hw, hws]
      rfl
    · -- the chunk's value fits the word: at most 16 digits
      have hlt := hexValue_lt (fun c hc => hgood' c (List.mem_append_right _ hc))
      have hpow : 16 ^ ((raw.take stop).drop (stop - bigWordNibbles)).length ≤ 2 ^ 64 := by
        rw [hchunk, show (2 : Nat) ^ 64 = 16 ^ 16 by norm_num]
        exact Nat.pow_le_pow_right (by norm_num) (by omega)
      rw [setBits, hwval, UInt64.toNat_zero, Nat.zero_mul, Nat.zero_add,
        Nat.mod_eq_of_lt (by omega), hwsval]
      conv_rhs => rw [hsplit, hexValue_append]
      -- a short chunk is the top one, with nothing above it
      by_cases hfull : 16 ≤ stop
      · rw [hchunk, show stop - (stop - 16) = 16 by omega, show (16 : Nat) ^ 16 = 2 ^ 64 by norm_num]
        ring
      · rw [show stop - bigWordNibbles = 0 by simp only [bigWordNibbles]; omega]
        simp

/-- An outer loop that succeeds read only hex digits. -/
theorem isHexDigit_of_decodeWords (raw : List UInt8) :
    ∀ (k : Nat) {stop : Nat} {ws : List UInt64}, decodeWords raw k stop = .ok ws →
      stop ≤ 16 * k → ∀ c ∈ raw.take stop, IsHexDigit c
  | 0, stop, ws, _, hk => by
    obtain rfl : stop = 0 := by omega
    simp
  | k + 1, stop, ws, h, hk => by
    simp only [decodeWords] at h
    obtain ⟨w, hw, h⟩ := Iff.mp Lib.bind_eq_ok h
    obtain ⟨ws', hws', -⟩ := Iff.mp Lib.bind_eq_ok h
    have hchunk := isHexDigit_of_accumulateWord hw
    have hrest := isHexDigit_of_decodeWords raw k hws' (by simp only [bigWordNibbles]; omega)
    rw [take_eq_take_append_chunk raw (Nat.sub_le stop bigWordNibbles)]
    intro c hc
    rcases List.mem_append.mp hc with hc | hc
    · exact hrest c hc
    · exact hchunk c hc

/-! ### What the decoders accept -/

/-- `checkNumber` accepts `0x` or `0X` followed by a non-empty digit string with no leading
zero, and returns that string. -/
theorem checkNumber_eq_ok {input raw : List UInt8} :
    checkNumber input = .ok raw ↔ ∃ x, input = '0'.toUInt8 :: x :: raw ∧
      (x = 'x'.toUInt8 ∨ x = 'X'.toUInt8) ∧ raw.length ≠ 0 ∧
      ¬ (raw.length > 1 ∧ raw.head? = some '0'.toUInt8) := by
  rcases input with _ | ⟨c0, _ | ⟨c1, rest⟩⟩
  · simp [checkNumber]
  · simp [checkNumber, has0xPrefix]
  by_cases hpre : c0 = '0'.toUInt8 ∧ (c1 = 'x'.toUInt8 ∨ c1 = 'X'.toUInt8)
  · obtain ⟨rfl, hx⟩ := hpre
    have hprefix : has0xPrefix ('0'.toUInt8 :: c1 :: rest) = true := by simp [has0xPrefix, hx]
    rw [checkNumber, if_neg (by simp), hprefix]
    simp only [Bool.not_true, Bool.false_eq_true, if_false, List.drop_succ_cons, List.drop_zero]
    constructor
    · intro h
      -- the two error branches close themselves against `h`
      split_ifs at h with hempty hlead
      cases h
      exact ⟨c1, rfl, hx, hempty, hlead⟩
    · rintro ⟨x, heq, -, hne, hlead⟩
      simp only [List.cons.injEq, true_and] at heq
      obtain ⟨rfl, rfl⟩ := heq
      rw [if_neg hne, if_neg hlead]
  · have hprefix : has0xPrefix (c0 :: c1 :: rest) = false := by simpa [has0xPrefix] using hpre
    rw [checkNumber, if_neg (by simp), hprefix]
    simp only [Bool.not_false, if_true, reduceCtorEq, false_iff]
    rintro ⟨x, heq, hx, -⟩
    simp only [List.cons.injEq] at heq
    exact hpre ⟨heq.1, heq.2.1 ▸ hx⟩

/-- `DecodeBig` accepts what `checkNumber` accepts when it has at most 64 digits, all of them
hex digits, and returns their value. -/
theorem DecodeBig_eq_ok {input : List UInt8} {v : Nat} :
    DecodeBig input = .ok v ↔ ∃ raw, checkNumber input = .ok raw ∧ raw.length ≤ 64 ∧
      (∀ c ∈ raw, IsHexDigit c) ∧ v = hexValue raw := by
  simp only [DecodeBig, bind, Except.bind]
  cases hc : checkNumber input with
  | error e => simp
  | ok raw =>
    by_cases hlen : raw.length > 64
    · simp [hlen]
    -- as many words as the digits need: `len/16 + 1` of 16 digits each
    have hwords : raw.length ≤ 16 * (raw.length / bigWordNibbles + 1) := by
      simp only [bigWordNibbles]
      omega
    simp only [hlen, if_false, Except.ok.injEq, exists_eq_left', not_lt.mp hlen, true_and]
    constructor
    · intro h
      cases hd : decodeWords raw (raw.length / bigWordNibbles + 1) raw.length with
      | error e => simp [hd] at h
      | ok ws =>
        have hgood := isHexDigit_of_decodeWords raw _ hd hwords
        rw [List.take_length] at hgood
        obtain ⟨ws', hws', hval⟩ := decodeWords_ok raw _ le_rfl hwords (by rwa [List.take_length])
        rw [hd, Except.ok.injEq] at hws'
        simp only [hd, pure, Except.pure, Except.ok.injEq] at h
        rw [← h, hws', hval, List.take_length]
        exact ⟨hgood, rfl⟩
    · rintro ⟨hgood, rfl⟩
      obtain ⟨ws, hws, hval⟩ := decodeWords_ok raw _ le_rfl hwords (by rwa [List.take_length])
      rw [hws, List.take_length] at *
      rw [← hval]
      rfl

/-! ### What the encoders write -/

theorem formatHex_of_ne_zero {n : Nat} (h : n ≠ 0) :
    formatHex n = ((Nat.digits 16 n).map hexDigit).reverse := by
  rw [formatHex, if_neg h]

theorem isHexDigit_formatHex (n : Nat) : ∀ c ∈ formatHex n, IsHexDigit c := by
  by_cases h : n = 0
  · subst h
    intro c hc
    rw [formatHex, if_pos rfl, List.mem_singleton] at hc
    subst hc
    decide
  · rw [formatHex_of_ne_zero h]
    intro c hc
    obtain ⟨d, hd, rfl⟩ := List.mem_map.mp (List.mem_reverse.mp hc)
    exact (decodeNibble_hexDigit (Nat.digits_lt_base (by norm_num) hd)).1

theorem hexValue_formatHex (n : Nat) : hexValue (formatHex n) = n := by
  by_cases h : n = 0
  · subst h
    decide
  · rw [formatHex_of_ne_zero h, hexValue, List.reverse_reverse, List.map_map]
    -- every digit reads back as itself
    have hdigits : ∀ d ∈ Nat.digits 16 n, (fun c => (decodeNibble c).toNat) (hexDigit d) = d :=
      fun d hd => (decodeNibble_hexDigit (Nat.digits_lt_base (by norm_num) hd)).2
    rw [Function.comp_def, List.map_congr_left hdigits, List.map_id', Nat.ofDigits_digits]

/-- `formatHex` writes no leading zero. -/
theorem formatHex_canonical (n : Nat) :
    (formatHex n).length ≠ 0 ∧ ¬ ((formatHex n).length > 1 ∧ (formatHex n).head? = some '0'.toUInt8) := by
  by_cases h : n = 0
  · subst h
    decide
  · have hne : Nat.digits 16 n ≠ [] := Nat.digits_ne_nil_iff_ne_zero.mpr h
    have hlast := Nat.getLast_digit_ne_zero 16 h
    have hlt := Nat.digits_lt_base (b := 16) (by norm_num) (List.getLast_mem hne)
    rw [formatHex_of_ne_zero h, List.head?_reverse, List.getLast?_map,
      List.getLast?_eq_some_getLast hne]
    refine ⟨by simpa using hne, ?_⟩
    rintro ⟨-, hzero⟩
    apply hlast
    -- the top digit is no zero, so its character is no `0`
    have hback := (decodeNibble_hexDigit hlt).2
    simp only [Option.map_some, Option.some.injEq] at hzero
    rw [hzero] at hback
    rw [← hback]
    decide

theorem length_formatHex_le {n k : Nat} (hk : 0 < k) (h : n < 16 ^ k) : (formatHex n).length ≤ k := by
  by_cases hn : n = 0
  · subst hn
    rw [formatHex, if_pos rfl, List.length_singleton]
    exact hk
  · rw [formatHex_of_ne_zero hn, List.length_reverse, List.length_map]
    exact (Nat.digits_length_le_iff (by norm_num) n).mpr h

/-- A digit string with no leading zero is the one `formatHex` writes for its value, in lower
case. -/
theorem formatHex_hexValue {raw : List UInt8} (hne : raw ≠ [])
    (hlead : ¬ (raw.length > 1 ∧ raw.head? = some '0'.toUInt8)) (hgood : ∀ c ∈ raw, IsHexDigit c) :
    formatHex (hexValue raw) = raw.map toLower := by
  set L := raw.reverse.map fun c => (decodeNibble c).toNat with hL
  have hLne : L ≠ [] := by simpa [hL] using hne
  have hhead : L.getLast hLne = (decodeNibble (raw.head hne)).toNat := by
    simp only [hL, List.getLast_map, List.getLast_reverse]
  by_cases hzero : (decodeNibble (raw.head hne)).toNat = 0
  · -- a zero on top: the string is `0` alone
    have hc := eq_zero_of_decodeNibble (hgood _ (List.head_mem hne)) hzero
    obtain ⟨c, rest, rfl⟩ := List.exists_cons_of_ne_nil hne
    simp only [List.head_cons] at hc
    subst hc
    obtain rfl : rest = [] := by
      by_contra hrest
      exact hlead ⟨by simp [List.length_pos_iff.mpr hrest], rfl⟩
    decide
  · have hdigits : Nat.digits 16 (hexValue raw) = L := by
      refine Nat.digits_ofDigits 16 (by norm_num) L ?_ (fun _ => hhead ▸ hzero)
      intro d hd
      obtain ⟨c, hc, rfl⟩ := List.mem_map.mp hd
      exact decodeNibble_lt (hgood c (List.mem_reverse.mp hc))
    have hval : hexValue raw ≠ 0 := by
      intro h0
      rw [h0, Nat.digits_zero] at hdigits
      exact hLne hdigits.symm
    rw [formatHex_of_ne_zero hval, hdigits, hL, List.map_map, ← List.map_reverse,
      List.reverse_reverse]
    exact List.map_congr_left fun c hc => hexDigit_decodeNibble (hgood c hc)

/-- `EncodeBig` of a natural number is `0x` and its digits; zero's `0x0` is the same form. -/
theorem EncodeBig_natCast (n : Nat) : EncodeBig n = ['0'.toUInt8, 'x'.toUInt8] ++ formatHex n := by
  by_cases h : n = 0
  · subst h
    rfl
  · have hsize : (n : Int).natAbs.size ≠ 0 := by
      rw [Int.natAbs_natCast]
      exact fun hs => h (Nat.size_eq_zero.mp hs)
    rw [EncodeBig, if_neg hsize, if_neg (by omega), Int.natAbs_natCast, List.nil_append]

/-! ### `strconv.ParseUint` on hex digits -/

/-- The digit loop reads hex digits as their value while it fits 64 bits. -/
theorem parseUintLoop_ok {cs : List UInt8} (h : ∀ c ∈ cs, IsHexDigit c) {n : Nat}
    (hlt : n * 16 ^ cs.length + hexValue cs < 2 ^ 64) :
    parseUintLoop cs n = .ok (n * 16 ^ cs.length + hexValue cs) := by
  induction cs generalizing n with
  | nil => simp [parseUintLoop]
  | cons c cs ih =>
    have hc := h c List.mem_cons_self
    have hd := decodeNibble_lt hc
    have hsplit : n * 16 ^ (c :: cs).length + hexValue (c :: cs) =
        (n * 16 + (decodeNibble c).toNat) * 16 ^ cs.length + hexValue cs := by
      rw [hexValue_cons, List.length_cons]
      ring
    rw [hsplit] at hlt ⊢
    -- what has been read so far is below `2^64` before and after the digit
    have hpos : 1 ≤ 16 ^ cs.length := Nat.one_le_pow _ _ (by norm_num)
    have hstep : n * 16 + (decodeNibble c).toNat ≤ (n * 16 + (decodeNibble c).toNat) * 16 ^ cs.length :=
      Nat.le_mul_of_pos_right _ hpos
    rw [parseUintLoop, digitValue_of_isHexDigit hc]
    dsimp only
    rw [if_neg (by omega), if_neg (by omega), if_neg (by omega)]
    exact ih (fun c hc => h c (List.mem_cons_of_mem _ hc)) hlt

/-! ### The round trips -/

/-- Every quantity below `2^256` reads back from what `EncodeBig` writes. -/
theorem DecodeBig_EncodeBig {x : Nat} (hx : x < 2 ^ 256) : DecodeBig (EncodeBig x) = .ok x := by
  have hcanon := formatHex_canonical x
  have hcheck : checkNumber (EncodeBig x) = .ok (formatHex x) :=
    Iff.mpr checkNumber_eq_ok ⟨'x'.toUInt8, EncodeBig_natCast x, .inl rfl, hcanon⟩
  refine Iff.mpr DecodeBig_eq_ok ⟨formatHex x, hcheck, ?_, isHexDigit_formatHex x,
    (hexValue_formatHex x).symm⟩
  exact length_formatHex_le (by norm_num) (by rw [show (16 : Nat) ^ 64 = 2 ^ 256 by norm_num]; exact hx)

/-- Every `uint64` reads back from what `EncodeUint64` writes. -/
theorem DecodeUint64_EncodeUint64 (i : UInt64) : DecodeUint64 (EncodeUint64 i) = .ok i := by
  have hcanon := formatHex_canonical i.toNat
  have hcheck : checkNumber (EncodeUint64 i) = .ok (formatHex i.toNat) :=
    Iff.mpr checkNumber_eq_ok ⟨'x'.toUInt8, rfl, .inl rfl, hcanon⟩
  have hparse := parseUintLoop_ok (isHexDigit_formatHex i.toNat) (n := 0)
    (by rw [Nat.zero_mul, Nat.zero_add, hexValue_formatHex]; exact i.toNat_lt)
  rw [Nat.zero_mul, Nat.zero_add, hexValue_formatHex] at hparse
  simp only [DecodeUint64, bind, Except.bind, hcheck, ParseUint, if_neg hcanon.1, hparse]
  simp [Except.map, pure, Except.pure]

example : DecodeBig ['0'.toUInt8, 'X'.toUInt8, 'f'.toUInt8, 'F'.toUInt8] = .ok 255 := by decide

example : DecodeBig ['0'.toUInt8, 'x'.toUInt8, '0'.toUInt8, 'f'.toUInt8] = .error .ErrLeadingZero := by
  decide

/-- Whatever `DecodeBig` accepts, `EncodeBig` writes back as the input in lower case. -/
theorem EncodeBig_DecodeBig {s : List UInt8} {v : Nat} (h : DecodeBig s = .ok v) :
    EncodeBig v = s.map toLower := by
  obtain ⟨raw, hraw, -, hgood, rfl⟩ := Iff.mp DecodeBig_eq_ok h
  obtain ⟨x, rfl, hx, hne, hlead⟩ := Iff.mp checkNumber_eq_ok hraw
  have hlower : toLower x = 'x'.toUInt8 := by rcases hx with rfl | rfl <;> decide
  rw [EncodeBig_natCast, formatHex_hexValue (List.ne_nil_of_length_pos (by omega)) hlead hgood]
  simp [hlower, show toLower '0'.toUInt8 = '0'.toUInt8 by decide]

/-- The hex quantity codec round-trips: quantities below `2^256` and `uint64`s read back from what
the encoders write, and every accepted string is written back lower-cased. -/
theorem hex_quantity_round_trip :
    (∀ x : Nat, x < 2 ^ 256 → DecodeBig (EncodeBig x) = .ok x) ∧
      (∀ i : UInt64, DecodeUint64 (EncodeUint64 i) = .ok i) ∧
      (∀ s v, DecodeBig s = .ok v → EncodeBig v = s.map toLower) :=
  ⟨fun _ hx => DecodeBig_EncodeBig hx, DecodeUint64_EncodeUint64,
    fun _ _ h => EncodeBig_DecodeBig h⟩

/-- The largest quantity of 256 bits and the largest of 64 survive their text, and `0xAbC` is
read and written back in lower case. -/
theorem hex_quantity_round_trip_extremes :
    DecodeBig (EncodeBig (2 ^ 256 - 1)) = .ok (2 ^ 256 - 1) ∧
      DecodeUint64 (EncodeUint64 0xFFFFFFFFFFFFFFFF) = .ok 0xFFFFFFFFFFFFFFFF ∧
      EncodeBig 0xabc =
        ['0'.toUInt8, 'x'.toUInt8, 'A'.toUInt8, 'b'.toUInt8, 'C'.toUInt8].map toLower := by
  obtain ⟨hbig, hu64, hdec⟩ := hex_quantity_round_trip
  exact ⟨hbig _ (Nat.sub_lt (Nat.two_pow_pos _) Nat.one_pos), hu64 _, hdec _ _ (by decide)⟩

end EpvChain.Hexutil
