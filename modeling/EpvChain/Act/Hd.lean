import Mathlib.Data.Nat.Digits.Lemmas

/-!
# Derivation paths (`act/hd.go`)

`ParseDerivationPath` splits a path at `/`, takes a first component `m` for the root of an absolute
path and anything else for the first step below `DefaultRootDerivationPath`, and reads each
component as a number, hardened when it ends in `'`; `DerivationPath.String` prints a path the
other way.

Go strings are modelled as lists of runes, `strings.Split` as `List.splitOn`, and the library
routines the parser calls by their definitions: `unicode.IsSpace` for `strings.TrimSpace`, and
`big.Int.SetString(_, 0)` with the sign and the `0x`, `0b` and `0` prefixes of the Go releases of
the source's time. `fmt`'s `%d` is `Nat.toDigits 10`.

The printed form of every non-empty path parses back to it (`ParseDerivationPath_String`), and a
relative path parses as `DefaultRootDerivationPath` followed by what the absolute path `m/` before
it parses to (`ParseDerivationPath_relative`), whenever the first component, trimmed as the
parser trims it, is neither empty nor `m`.
-/

namespace EpvChain.Accounts

/-- `DerivationPath`. -/
abbrev DerivationPath := List UInt32

/-- `DefaultRootDerivationPath`: `m/44'/60'/0'/0`. -/
def DefaultRootDerivationPath : DerivationPath :=
  [0x80000000 + 44, 0x80000000 + 60, 0x80000000 + 0, 0]

/-- The errors `ParseDerivationPath` returns, with the values their messages print. -/
inductive PathError where
  | emptyDerivationPath
  | ambiguousPath
  | invalidComponent (component : List Char)
  | outOfRange (bigval : Int) (max : Nat)
  | outOfHardenedRange (bigval : Int) (max : Nat)
  deriving DecidableEq, Repr

/-- The message of each error. -/
def PathError.Error : PathError → String
  | .emptyDerivationPath => "empty derivation path"
  | .ambiguousPath =>
    "ambiguous path: use \x27m/\x27 prefix for absolute paths, or no leading \x27/\x27 for relative ones"
  | .invalidComponent component => "invalid component: " ++ String.ofList component
  | .outOfRange bigval max =>
    "component " ++ toString bigval ++ " out of allowed range [0, " ++ toString max ++ "]"
  | .outOfHardenedRange bigval max =>
    "component " ++ toString bigval ++ " out of allowed hardened range [0, " ++ toString max ++ "]"

/-- The `'` that ends a hardened component. -/
def hardenedMark : Char := Char.ofNat 39

/-! ### The library routines -/

/-- `unicode.IsSpace`: the eight Latin-1 spaces, and above Latin-1 the runes of Unicode's
`White_Space`. -/
def isSpace (c : Char) : Bool :=
  let r := c.toNat
  if r ≤ 0xFF then
    r == 0x09 || r == 0x0A || r == 0x0B || r == 0x0C || r == 0x0D || r == 0x20 || r == 0x85 ||
      r == 0xA0
  else
    r == 0x1680 || (0x2000 ≤ r && r ≤ 0x200A) || r == 0x2028 || r == 0x2029 || r == 0x202F ||
      r == 0x205F || r == 0x3000

/-- `strings.TrimSpace`: the spaces dropped from both ends. -/
def trimSpace (s : List Char) : List Char :=
  ((s.dropWhile isSpace).reverse.dropWhile isSpace).reverse

/-- The value `big.Int` scanning gives a rune: `0`..`9`, then `a`..`z` and `A`..`Z` from 10, and
`MaxBase + 1` for any other rune. -/
def digitValue (c : Char) : Nat :=
  if '0' ≤ c ∧ c ≤ '9' then c.toNat - '0'.toNat
  else if 'a' ≤ c ∧ c ≤ 'z' then c.toNat - 'a'.toNat + 10
  else if 'A' ≤ c ∧ c ≤ 'Z' then c.toNat - 'A'.toNat + 10
  else 37

/-- The digit loop of `nat.scan` in base `b`: the value and the count of the digits read, and the
input left from the first rune that is no digit of the base. -/
def scanDigits (b : Nat) : List Char → Nat → Nat → Nat × Nat × List Char
  | [], z, count => (z, count, [])
  | c :: cs, z, count =>
    if digitValue c < b then scanDigits b cs (z * b + digitValue c) (count + 1)
    else (z, count, c :: cs)

/-- The digits after a `0x` or `0b` prefix: the prefix alone, or no digit after it, fails. -/
def scanPrefixed (b : Nat) : List Char → Option (Nat × List Char)
  | [] => none
  | c :: rest =>
    match scanDigits b (c :: rest) 0 0 with
    | (z, count, rest) => if count = 0 then none else some (z, rest)

/-- `nat.scan(r, 0)`: a `0x` or `0X` prefix reads hex, `0b` or `0B` binary, a lone `0` reads octal
and counts as a digit, anything else reads decimal; the value and the input left. -/
def scanBase0 : List Char → Option (Nat × List Char)
  | [] => none
  | c :: rest =>
    if c = '0' then
      match rest with
      | [] => some (0, [])
      | c' :: rest' =>
        if c' = 'x' ∨ c' = 'X' then scanPrefixed 16 rest'
        else if c' = 'b' ∨ c' = 'B' then scanPrefixed 2 rest'
        else match scanDigits 8 rest 0 1 with
          | (z, _, rest) => some (z, rest)
    else
      match scanDigits 10 (c :: rest) 0 0 with
      | (z, count, rest) => if count = 0 then none else some (z, rest)

/-- `scanSign`: a leading `-` or `+`, and the input after it. -/
def scanSign : List Char → Bool × List Char
  | [] => (false, [])
  | c :: rest =>
    if c = '-' then (true, rest) else if c = '+' then (false, rest) else (false, c :: rest)

/-- `new(big.Int).SetString(s, 0)`: the sign, then the number, which must take the whole
string. -/
def SetString (s : List Char) : Option Int :=
  match scanSign s with
  | (neg, s) =>
    match scanBase0 s with
    | some (z, []) => some (if neg then -(z : Int) else z)
    | _ => none

section
-- The equation lemmas of the reader are made once here, before the proofs below unfold it.
attribute [local simp] SetString
end

/-! ### The parser and the printer -/

/-- One turn of `ParseDerivationPath`'s loop: a component, trimmed, with its hardened mark taken
off, read by `SetString` and bounded by `math.MaxUint32 - value`. -/
def parseComponent (component : List Char) : Except PathError UInt32 :=
  let component := trimSpace component
  let (value, component) : UInt32 × List Char :=
    if component.getLast? = some hardenedMark then (0x80000000, trimSpace component.dropLast)
    else (0, component)
  match SetString component with
  | none => .error (.invalidComponent component)
  | some bigval =>
    let max : UInt32 := 0xFFFFFFFF - value
    if bigval < 0 ∨ bigval > max.toNat then
      if value = 0 then .error (.outOfRange bigval max.toNat)
      else .error (.outOfHardenedRange bigval max.toNat)
    else .ok (value + UInt32.ofNat bigval.toNat)

/-- `ParseDerivationPath(path)`. -/
def ParseDerivationPath (path : List Char) : Except PathError DerivationPath :=
  match path.splitOn '/' with
  | [] => .error .emptyDerivationPath
  | c0 :: rest =>
    if trimSpace c0 = [] then .error .ambiguousPath
    else
      let (result, components) : DerivationPath × List (List Char) :=
        if trimSpace c0 = ['m'] then ([], rest) else (DefaultRootDerivationPath, c0 :: rest)
      if components = [] then .error .emptyDerivationPath
      else (components.mapM parseComponent).map (result ++ ·)

/-- `DerivationPath.String()`. -/
def DerivationPath.String (path : DerivationPath) : List Char :=
  path.foldl (fun result component =>
    let hardened := component ≥ 0x80000000
    let component := if hardened then component - 0x80000000 else component
    let result := result ++ '/' :: Nat.toDigits 10 component.toNat
    if hardened then result ++ [hardenedMark] else result) ['m']

/-! ### Decimal numerals read back -/

theorem digitValue_digitChar {d : Nat} (h : d < 10) : digitValue (Nat.digitChar d) = d := by
  have key : ∀ d < 10, digitValue (Nat.digitChar d) = d := by decide
  exact key d h

/-- The digit loop reads a decimal numeral as its value and goes on after it. The induction
follows `Nat.toDigits`: the digits of `n / 10`, then the last one. -/
theorem scanDigits_toDigits (n : Nat) : ∀ (rest : List Char) (z count : Nat),
    scanDigits 10 (Nat.toDigits 10 n ++ rest) z count =
      scanDigits 10 rest (z * 10 ^ (Nat.toDigits 10 n).length + n)
        (count + (Nat.toDigits 10 n).length) := by
  induction n using Nat.strong_induction_on with
  | _ n ih =>
    intro rest z count
    rw [Nat.toDigits_eq_if (by norm_num)]
    split
    · rename_i hn
      simp [scanDigits, digitValue_digitChar hn, hn]
    · rename_i hn
      have hdiv : n / 10 < n := Nat.div_lt_self (by omega) (by norm_num)
      have hmod : n % 10 < 10 := Nat.mod_lt n (by norm_num)
      rw [List.append_assoc, List.singleton_append, ih (n / 10) hdiv, scanDigits,
        digitValue_digitChar hmod, if_pos hmod, List.length_append, List.length_singleton]
      -- the counts agree by definition; the values by `n = 10 * (n / 10) + n % 10`
      congr 1
      rw [pow_succ]
      have hdm := Nat.div_add_mod n 10
      linarith

/-- A decimal numeral of a positive number starts with a digit other than `0`. -/
theorem toDigits_head_ne_zero {n : Nat} (hn : 0 < n) :
    ∃ c rest, Nat.toDigits 10 n = c :: rest ∧ c ≠ '0' := by
  induction n using Nat.strong_induction_on with
  | _ n ih =>
    rw [Nat.toDigits_eq_if (by norm_num)]
    split
    · rename_i hlt
      refine ⟨Nat.digitChar n, [], rfl, ?_⟩
      have key : ∀ d < 10, 0 < d → Nat.digitChar d ≠ '0' := by decide
      exact key n hlt hn
    · rename_i hge
      obtain ⟨c, rest, hc, hne⟩ := ih (n / 10) (Nat.div_lt_self hn (by norm_num))
        (Nat.div_pos (by omega) (by norm_num))
      exact ⟨c, rest ++ [Nat.digitChar (n % 10)], by rw [hc, List.cons_append], hne⟩

theorem digit_toNat_range {c : Char} (h : c.isDigit = true) : 48 ≤ c.toNat ∧ c.toNat ≤ 57 := by
  simp only [Char.isDigit, Bool.and_eq_true, decide_eq_true_eq] at h
  exact ⟨UInt32.le_iff_toNat_le.mp h.1, UInt32.le_iff_toNat_le.mp h.2⟩

theorem mem_toDigits_range {n : Nat} {c : Char} (h : c ∈ Nat.toDigits 10 n) :
    48 ≤ c.toNat ∧ c.toNat ≤ 57 :=
  digit_toNat_range (Nat.isDigit_of_mem_toDigits (by norm_num) (by norm_num) h)

/-- `SetString` reads a decimal numeral as its value. -/
theorem SetString_toDigits (n : Nat) : SetString (Nat.toDigits 10 n) = some (n : Int) := by
  rcases Nat.eq_zero_or_pos n with rfl | hn
  · rw [Nat.toDigits_zero]
    rfl
  obtain ⟨c, rest, hdigits, hc0⟩ := toDigits_head_ne_zero hn
  have hrange := mem_toDigits_range (n := n) (c := c) (by rw [hdigits]; exact List.mem_cons_self)
  -- no sign and no base prefix: the decimal loop reads the whole numeral
  have hsign : scanSign (c :: rest) = (false, c :: rest) := by
    rw [scanSign, if_neg (fun h => by subst h; simp at hrange), if_neg (fun h => by subst h; simp at hrange)]
  have hscan := scanDigits_toDigits n [] 0 0
  rw [List.append_nil, Nat.zero_mul, Nat.zero_add, Nat.zero_add, hdigits] at hscan
  have hlen : (c :: rest).length ≠ 0 := by simp
  rw [hdigits, SetString, hsign]
  simp only [scanBase0, if_neg hc0]
  rw [hscan, scanDigits]
  simp only [if_neg hlen]
  rfl

/-! ### Trimming -/

theorem isSpace_of_range {c : Char} (h : 48 ≤ c.toNat ∧ c.toNat ≤ 57) : isSpace c = false := by
  simp only [isSpace]
  rw [if_pos (by omega)]
  simp only [Bool.or_eq_false_iff, beq_eq_false_iff_ne, ne_eq]
  omega

theorem dropWhile_eq_self_of_head {p : Char → Bool} {l : List Char} (h : ∀ c ∈ l.head?, p c = false) :
    l.dropWhile p = l := by
  cases l with
  | nil => rfl
  | cons c cs => simp [h c rfl]

/-- A string with no space at either end is its own trim. -/
theorem trimSpace_eq_self {s : List Char} (hhead : ∀ c ∈ s.head?, isSpace c = false)
    (hlast : ∀ c ∈ s.getLast?, isSpace c = false) : trimSpace s = s := by
  rw [trimSpace, dropWhile_eq_self_of_head hhead, dropWhile_eq_self_of_head, List.reverse_reverse]
  rwa [List.head?_reverse]

/-! ### The printed form parses back -/

/-- The text `String` prints for one component after its `/`. -/
def componentText (component : UInt32) : List Char :=
  if component ≥ 0x80000000 then Nat.toDigits 10 (component - 0x80000000).toNat ++ [hardenedMark]
  else Nat.toDigits 10 component.toNat

/-- `String` writes `m` and then each component behind a `/`: the components joined by `/`. -/
theorem String_eq_intercalate (path : DerivationPath) :
    path.String = ['/'].intercalate (['m'] :: path.map componentText) := by
  -- the fold appends `/` and a component's text to what it has printed
  have hfold : ∀ (acc : List Char) (path : DerivationPath),
      path.foldl (fun result component =>
        let hardened := component ≥ 0x80000000
        let component := if hardened then component - 0x80000000 else component
        let result := result ++ '/' :: Nat.toDigits 10 component.toNat
        if hardened then result ++ [hardenedMark] else result) acc =
        acc ++ (path.map fun c => '/' :: componentText c).flatten := by
    intro acc path
    induction path generalizing acc with
    | nil => simp
    | cons c path ih =>
      rw [List.foldl_cons, ih, List.map_cons, List.flatten_cons]
      by_cases hc : c ≥ 0x80000000
      · simp only [componentText, if_pos hc, List.append_assoc, List.cons_append]
      · simp only [componentText, if_neg hc, List.append_assoc, List.cons_append]
  -- and joining by `/` puts one before each text after the first
  have hjoin : ∀ (x : List Char) (texts : List (List Char)),
      ['/'].intercalate (x :: texts) = x ++ (texts.map fun t => '/' :: t).flatten := by
    intro x texts
    induction texts generalizing x with
    | nil => simp
    | cons t texts ih =>
      rw [List.intercalate_cons_cons, ih, List.map_cons, List.flatten_cons]
      simp
  rw [DerivationPath.String, hfold, hjoin, List.map_map]
  simp only [List.singleton_append, Function.comp_def]

theorem componentText_digits (component : UInt32) :
    ∃ d, componentText component = Nat.toDigits 10 d ∨
      componentText component = Nat.toDigits 10 d ++ [hardenedMark] := by
  by_cases h : component ≥ 0x80000000
  · exact ⟨_, .inr (by rw [componentText, if_pos h])⟩
  · exact ⟨_, .inl (by rw [componentText, if_neg h])⟩

/-- A component's text has no `/`: it is digits, and a hardened mark. -/
theorem slash_not_mem_componentText (component : UInt32) : '/' ∉ componentText component := by
  intro hmem
  obtain ⟨d, hd | hd⟩ := componentText_digits component <;> rw [hd] at hmem
  · have := mem_toDigits_range hmem
    simp at this
  · rcases List.mem_append.mp hmem with hmem | hmem
    · have := mem_toDigits_range hmem
      simp at this
    · simp [hardenedMark] at hmem

theorem splitOn_String (path : DerivationPath) :
    path.String.splitOn '/' = ['m'] :: path.map componentText := by
  rw [String_eq_intercalate, List.splitOn_intercalate]
  · intro text htext
    rcases List.mem_cons.mp htext with rfl | htext
    · simp
    · obtain ⟨c, -, rfl⟩ := List.mem_map.mp htext
      exact slash_not_mem_componentText c
  · simp

/-- A numeral with no space at its start, and any end that is no space, is its own trim. -/
theorem trimSpace_toDigits_append (d : Nat) {tail : List Char}
    (htail : ∀ c ∈ tail, isSpace c = false) :
    trimSpace (Nat.toDigits 10 d ++ tail) = Nat.toDigits 10 d ++ tail := by
  obtain ⟨c, rest, hdigits⟩ := List.exists_cons_of_ne_nil (Nat.toDigits_ne_nil (n := d) (b := 10))
  have hc : isSpace c = false := isSpace_of_range (mem_toDigits_range (n := d) (by simp [hdigits]))
  apply trimSpace_eq_self
  · simp [hdigits, hc]
  · intro x hx
    rcases List.mem_append.mp (List.mem_of_getLast? hx) with hx | hx
    · exact isSpace_of_range (mem_toDigits_range hx)
    · exact htail x hx

theorem trimSpace_toDigits (d : Nat) : trimSpace (Nat.toDigits 10 d) = Nat.toDigits 10 d := by
  simpa using @trimSpace_toDigits_append d [] (by simp)

/-- Each printed component parses back to itself. -/
theorem parseComponent_componentText (component : UInt32) :
    parseComponent (componentText component) = .ok component := by
  have hmark : isSpace hardenedMark = false := by decide
  by_cases hhard : component ≥ 0x80000000
  · -- hardened: the mark comes off, and the rest is the numeral of `component - 0x80000000`
    rw [componentText, if_pos hhard, parseComponent]
    dsimp only
    rw [trimSpace_toDigits_append _ (by simpa using hmark), List.getLast?_append,
      List.getLast?_singleton, Option.some_or, if_pos rfl]
    dsimp only
    rw [List.dropLast_concat, trimSpace_toDigits, SetString_toDigits]
    dsimp only
    have hle : 0x80000000 ≤ component.toNat := UInt32.le_iff_toNat_le.mp hhard
    have hlt := component.toNat_lt
    have hsub : (component - 0x80000000).toNat = component.toNat - 0x80000000 :=
      UInt32.toNat_sub_of_le _ _ hhard
    rw [if_neg (by rw [hsub]; simp only [UInt32.reduceToNat, UInt32.reduceSub]; omega)]
    congr 1
    apply UInt32.toNat_inj.mp
    rw [UInt32.toNat_add, UInt32.toNat_ofNat', Int.toNat_natCast, hsub]
    simp only [UInt32.reduceToNat]
    omega
  · rw [componentText, if_neg hhard, parseComponent]
    dsimp only
    rw [trimSpace_toDigits]
    -- the last rune is a digit, no hardened mark
    have hlast : (Nat.toDigits 10 component.toNat).getLast? ≠ some hardenedMark := by
      intro h
      have := mem_toDigits_range (List.mem_of_getLast? h)
      simp [hardenedMark] at this
    rw [if_neg hlast]
    dsimp only
    rw [SetString_toDigits]
    dsimp only
    have hlt := component.toNat_lt
    rw [if_neg (by simp only [UInt32.reduceToNat, UInt32.reduceSub]; omega)]
    congr 1
    apply UInt32.toNat_inj.mp
    rw [UInt32.toNat_add, UInt32.toNat_ofNat', Int.toNat_natCast]
    simp only [UInt32.toNat_zero, Nat.zero_add]
    omega

/-- Every non-empty path parses back from its printed form. -/
theorem ParseDerivationPath_String {path : DerivationPath} (hpath : path ≠ []) :
    ParseDerivationPath path.String = .ok path := by
  have hcomponents : ∀ path : DerivationPath,
      (path.map componentText).mapM parseComponent = .ok path := by
    intro path
    induction path with
    | nil => rfl
    | cons c path ih =>
      rw [List.map_cons, List.mapM_cons, parseComponent_componentText, ih]
      rfl
  rw [ParseDerivationPath, splitOn_String]
  dsimp only
  have htrim : trimSpace ['m'] = ['m'] := by decide
  rw [htrim, if_neg (by simp), if_pos rfl]
  dsimp only
  rw [if_neg (by simpa using hpath), hcomponents]
  rfl

/-! ### Relative paths -/

theorem splitOn_m_slash (s : List Char) : ('m' :: '/' :: s).splitOn '/' = ['m'] :: s.splitOn '/' := by
  simp only [List.splitOn, List.splitOnP_cons_eq_if_modifyHead]
  simp

/-- A relative path parses as `DefaultRootDerivationPath` followed by what `m/` before it parses
to, error for error, when its first component, trimmed, is neither empty nor `m`. -/
theorem ParseDerivationPath_relative {s : List Char}
    (hfirst : ∀ c0 ∈ (s.splitOn '/').head?, trimSpace c0 ≠ [] ∧ trimSpace c0 ≠ ['m']) :
    ParseDerivationPath s =
      (ParseDerivationPath ('m' :: '/' :: s)).map (DefaultRootDerivationPath ++ ·) := by
  obtain ⟨c0, rest, hsplit⟩ := List.exists_cons_of_ne_nil (List.splitOn_ne_nil '/' s)
  obtain ⟨hne, hm⟩ := hfirst c0 (by simp [hsplit])
  have htrim : trimSpace ['m'] = ['m'] := by decide
  rw [ParseDerivationPath, ParseDerivationPath, splitOn_m_slash, hsplit]
  dsimp only
  rw [if_neg hne, if_neg hm, htrim, if_neg (by simp), if_pos rfl]
  dsimp only
  rw [if_neg (by simp)]
  -- both run the same loop over the same components
  cases (c0 :: rest).mapM parseComponent <;> rfl

/-- Derivation paths round-trip: every non-empty path parses back from its printed form, and a
relative path whose first component, trimmed as the parser trims it, is neither empty nor `m`
parses as `DefaultRootDerivationPath` followed by what `m/` before it parses to. -/
theorem derivation_path_round_trip :
    (∀ path : DerivationPath, path ≠ [] → ParseDerivationPath path.String = .ok path) ∧
      (∀ s : List Char, (∀ c0 ∈ (s.splitOn '/').head?, trimSpace c0 ≠ [] ∧ trimSpace c0 ≠ ['m']) →
        ParseDerivationPath s =
          (ParseDerivationPath ('m' :: '/' :: s)).map (DefaultRootDerivationPath ++ ·)) :=
  ⟨fun _ hpath => ParseDerivationPath_String hpath, fun _ hfirst => ParseDerivationPath_relative hfirst⟩

/-- The path `m/44'/60'/0'/0` survives its text, and the relative path `0'/1` is read below the
default root. -/
theorem derivation_path_round_trip_default :
    ParseDerivationPath (DerivationPath.String [0x8000002C, 0x8000003C, 0x80000000, 0]) =
        .ok [0x8000002C, 0x8000003C, 0x80000000, 0] ∧
      ParseDerivationPath ['0', hardenedMark, '/', '1'] =
        .ok (DefaultRootDerivationPath ++ [0x80000000, 1]) := by
  obtain ⟨hround, hrel⟩ := derivation_path_round_trip
  refine ⟨hround _ (by decide), ?_⟩
  rw [hrel _ (by decide)]
  decide

/-- The first component ` m` is neither empty nor `m`, yet the parser trims it to `m`: ` m/1` is the
absolute path `[1]`, while `m/ m/1` fails on its component ` m`. -/
theorem relative_path_spaced_root :
    ([' ', 'm', '/', '1'].splitOn '/').head? = some [' ', 'm'] ∧
      ParseDerivationPath [' ', 'm', '/', '1'] = .ok [1] ∧
      ParseDerivationPath ['m', '/', ' ', 'm', '/', '1'] = .error (.invalidComponent ['m']) := by
  decide

end EpvChain.Accounts
