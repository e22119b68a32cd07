import EpvChain.Process.Reading

/-!
# Splitting encodings in place (`process/raw.go`)

`rlp.Split` reads the header at the front of a byte slice and returns the kind, the content and
what follows, with no stream and no input limit. `SplitString` and `SplitList` check the kind as
well, and `CountValues` counts the values laid one after another in a slice. The trie's node
decoder is written with them.

`readKind` takes only shortest headers: a one-byte string below `0x80` must be that byte, and a
long size must be 56 or more with no leading zero. A header that announces more content than the
slice holds is `ErrValueTooLarge`. Sizes are naturals; the sizes the source reads into a
`uint64` are at most eight bytes long, so they never wrap.

* `split_encode` — `Split` of an encoding gives back the value's kind, its content and the rest.
* `countValues_encodeAll` — the content of a list's encoding counts its elements.
-/

namespace EpvChain.Rlp

open Lib

/-- `readSize`: a size of `slen` big-endian bytes, at least 56 and with no leading zero.
Source: `process/raw.go` `readSize` -/
def readSize (b : List UInt8) (slen : Nat) : Except StreamError Nat :=
  if b.length < slen then .error .unexpectedEOF
  else if ofBytesBE (b.take slen) < 56 ∨ b.head? = some 0 then .error .canonSize
  else .ok (ofBytesBE (b.take slen))

/-- The header `readKind` reads from the first byte and what follows it: the kind, the length of
the header and the length of the content. -/
def readHeader (b : UInt8) (rest : List UInt8) : Except StreamError (Kind × Nat × Nat) :=
  if b < 0x80 then .ok (.byte, 0, 1)
  else if b < 0xB8 then
    -- a one-byte string below `0x80` has to be written as the byte itself
    if (b - 0x80).toNat = 1 ∧ rest.head?.any (· < 128) then .error .canonSize
    else .ok (.string, 1, (b - 0x80).toNat)
  else if b < 0xC0 then
    (readSize rest (b - 0xB7).toNat).map fun size => (.string, (b - 0xB7).toNat + 1, size)
  else if b < 0xF8 then .ok (.list, 1, (b - 0xC0).toNat)
  else (readSize rest (b - 0xF7).toNat).map fun size => (.list, (b - 0xF7).toNat + 1, size)

/-- `readKind`: the kind of the value at the front of a slice, the length of its header and the
length of its content, which must lie in the slice.
Source: `process/raw.go` `readKind` -/
def readKind (buf : List UInt8) : Except StreamError (Kind × Nat × Nat) :=
  match buf with
  | [] => .error .unexpectedEOF
  | b :: rest =>
    (readHeader b rest).bind fun (k, tagsize, size) =>
      if size > buf.length - tagsize then .error .valueTooLarge else .ok (k, tagsize, size)

/-- `Split`: the kind, the content and the rest of a slice.
Source: `process/raw.go` `Split` -/
def split (b : List UInt8) : Except StreamError (Kind × List UInt8 × List UInt8) :=
  (readKind b).map fun (k, tagsize, size) => (k, (b.drop tagsize).take size, b.drop (tagsize + size))

/-- `SplitString`: the content and the rest of a slice that starts with a string or a byte.
Source: `process/raw.go` `SplitString` -/
def splitString (b : List UInt8) : Except StreamError (List UInt8 × List UInt8) := do
  let (k, content, rest) ← split b
  if k = .list then throw .expectedString
  pure (content, rest)

/-- `SplitList`: the content and the rest of a slice that starts with a list.
Source: `process/raw.go` `SplitList` -/
def splitList (b : List UInt8) : Except StreamError (List UInt8 × List UInt8) := do
  let (k, content, rest) ← split b
  if k ≠ .list then throw .expectedList
  pure (content, rest)

theorem map_eq_ok {α β ε : Type} {f : α → β} {x : Except ε α} {y : β}
    (h : x.map f = .ok y) : ∃ a, x = .ok a ∧ f a = y := by
  cases x with
  | error e => cases h
  | ok a => exact ⟨a, rfl, Except.ok.inj h⟩

theorem length_of_readSize {b : List UInt8} {slen size : Nat} (h : readSize b slen = .ok size) :
    slen ≤ b.length := by
  unfold readSize at h
  split_ifs at h with hlen
  exact Nat.le_of_not_lt hlen

/-- A header lies in the slice, and it and its content take at least one byte: a byte is its
own content, and every other header is at least one byte long. -/
theorem readHeader_bounds {b : UInt8} {rest : List UInt8} {k : Kind} {tagsize size : Nat}
    (h : readHeader b rest = .ok (k, tagsize, size)) :
    0 < tagsize + size ∧ tagsize ≤ rest.length + 1 := by
  unfold readHeader at h
  split_ifs at h
  all_goals first
    | (cases h; omega)
    | (obtain ⟨_, hr, hs⟩ := map_eq_ok h; cases hs; have := length_of_readSize hr; omega)

/-- What `readKind` accepts is a header and a content that lie in the slice and take at least
one byte. -/
theorem readKind_bounds {buf : List UInt8} {k : Kind} {tagsize size : Nat}
    (h : readKind buf = .ok (k, tagsize, size)) :
    0 < tagsize + size ∧ tagsize + size ≤ buf.length := by
  match buf with
  | [] => simp [readKind] at h
  | b :: rest =>
    simp only [readKind, Except.bind] at h
    split at h
    · cases h
    · rename_i x hx
      obtain ⟨k', t, s⟩ := x
      split_ifs at h with hsize
      cases h
      dsimp only at hsize
      have := readHeader_bounds hx
      simp only [List.length_cons] at hsize ⊢
      omega

/-- `CountValues`: the number of values laid one after another in a slice.
Source: `process/raw.go` `CountValues` -/
def countValues (b : List UInt8) : Except StreamError Nat :=
  if b = [] then .ok 0
  else
    match h : readKind b with
    | .error e => .error e
    | .ok (_, tagsize, size) => (countValues (b.drop (tagsize + size))).map (· + 1)
termination_by b.length
decreasing_by
  have := readKind_bounds h
  simp only [List.length_drop]
  omega

/-! ### Splitting an encoding -/

section Headers

open EpvChain.Rlp.Stream

variable {b : UInt8} {rest : List UInt8} {size : Nat}

theorem readSize_minBytes (h56 : 56 ≤ size) (rest : List UInt8) :
    readSize (minBytes size ++ rest) (byteCount size) = .ok size := by
  have hne : minBytes size ≠ [] := by
    rw [← List.length_pos_iff, length_minBytes]
    exact byteCount_pos (by omega)
  have htake : (minBytes size ++ rest).take (byteCount size) = minBytes size := by
    rw [← length_minBytes, List.take_left]
  have hhead : (minBytes size ++ rest).head? ≠ some 0 := by
    rw [List.head?_append_of_ne_nil _ hne]
    exact head_minBytes_ne_zero size
  unfold readSize
  rw [if_neg (by simp), htake, ofBytesBE_minBytes, if_neg (not_or.mpr ⟨by omega, hhead⟩)]

/-- A short string header: a tag byte `0x80` plus the size. A one-byte string must not hold a
byte below `0x80`. -/
theorem readHeader_string_short (hb : b.toNat = 0x80 + size) (hs : size < 56)
    (hcanon : size = 1 → ∀ c, rest.head? = some c → 0x80 ≤ c) :
    readHeader b rest = .ok (.string, 1, size) := by
  have h1 : ¬ b < 0x80 := by rw [UInt8.lt_iff_toNat_lt]; simp; omega
  have h2 : b < 0xB8 := by rw [UInt8.lt_iff_toNat_lt]; simp; omega
  have hsub : (b - 0x80).toNat = size := by rw [toNat_sub_tag (by simp; omega), hb]; simp
  have hcanon' : ¬ (size = 1 ∧ rest.head?.any (· < 128) = true) := by
    rintro ⟨hone, hany⟩
    cases hr : rest.head? with
    | none => simp [hr] at hany
    | some c =>
      simp only [hr, Option.any_some, decide_eq_true_eq] at hany
      exact absurd hany (UInt8.not_lt.mpr (hcanon hone c hr))
  simp only [readHeader, h1, h2, hsub, if_false, if_true, hcanon']

/-- A short list header: a tag byte `0xC0` plus the size. -/
theorem readHeader_list_short (hb : b.toNat = 0xC0 + size) (hs : size < 56) :
    readHeader b rest = .ok (.list, 1, size) := by
  have h1 : ¬ b < 0x80 := by rw [UInt8.lt_iff_toNat_lt]; simp; omega
  have h2 : ¬ b < 0xB8 := by rw [UInt8.lt_iff_toNat_lt]; simp; omega
  have h3 : ¬ b < 0xC0 := by rw [UInt8.lt_iff_toNat_lt]; simp; omega
  have h4 : b < 0xF8 := by rw [UInt8.lt_iff_toNat_lt]; simp; omega
  have hsub : (b - 0xC0).toNat = size := by rw [toNat_sub_tag (by simp; omega), hb]; simp
  simp only [readHeader, h1, h2, h3, h4, hsub, if_false, if_true]

/-- A size of 56 or more takes one to eight bytes when it is below `2 ^ 64`. -/
theorem byteCount_range (h56 : 56 ≤ size) (hsize : size < 2 ^ 64) :
    1 ≤ byteCount size ∧ byteCount size ≤ 8 :=
  ⟨byteCount_pos (by omega), byteCount_le_of_lt_pow (by simpa using hsize)⟩

/-- A long string header: `0xB7` plus the length of the size, then the size. -/
theorem readHeader_string_long (hb : b.toNat = 0xB7 + byteCount size) (h56 : 56 ≤ size)
    (hsize : size < 2 ^ 64) :
    readHeader b (minBytes size ++ rest) = .ok (.string, byteCount size + 1, size) := by
  have hc := byteCount_range h56 hsize
  have h1 : ¬ b < 0x80 := by rw [UInt8.lt_iff_toNat_lt]; simp; omega
  have h2 : ¬ b < 0xB8 := by rw [UInt8.lt_iff_toNat_lt]; simp; omega
  have h3 : b < 0xC0 := by rw [UInt8.lt_iff_toNat_lt]; simp; omega
  have hsub : (b - 0xB7).toNat = byteCount size := by
    rw [toNat_sub_tag (by simp; omega), hb]; simp
  simp only [readHeader, h1, h2, h3, hsub, if_false, if_true, readSize_minBytes h56, Except.map]

/-- A long list header: `0xF7` plus the length of the size, then the size. -/
theorem readHeader_list_long (hb : b.toNat = 0xF7 + byteCount size) (h56 : 56 ≤ size)
    (hsize : size < 2 ^ 64) :
    readHeader b (minBytes size ++ rest) = .ok (.list, byteCount size + 1, size) := by
  have hc := byteCount_range h56 hsize
  have h1 : ¬ b < 0x80 := by rw [UInt8.lt_iff_toNat_lt]; simp; omega
  have h2 : ¬ b < 0xB8 := by rw [UInt8.lt_iff_toNat_lt]; simp; omega
  have h3 : ¬ b < 0xC0 := by rw [UInt8.lt_iff_toNat_lt]; simp; omega
  have h4 : ¬ b < 0xF8 := by rw [UInt8.lt_iff_toNat_lt]; simp; omega
  have hsub : (b - 0xF7).toNat = byteCount size := by
    rw [toNat_sub_tag (by simp; omega), hb]; simp
  simp only [readHeader, h1, h2, h3, h4, hsub, if_false, readSize_minBytes h56, Except.map]

/-- `readKind` takes a header that the slice has room for, with its content. -/
theorem readKind_cons_of_readHeader {k : Kind} {tagsize : Nat}
    (h : readHeader b rest = .ok (k, tagsize, size)) (hroom : tagsize + size ≤ rest.length + 1) :
    readKind (b :: rest) = .ok (k, tagsize, size) := by
  simp only [readKind, h, Except.bind, List.length_cons]
  rw [if_neg (by omega)]

/-- A shortest string or list header, then its content: `readKind` reads the header. -/
theorem readKind_header {k : Kind} (hk : k ≠ .byte) {content : List UInt8}
    (hsize : content.length < 2 ^ 64) (hcanon : k = .string → ∀ c, content = [c] → 0x80 ≤ c)
    (rest : List UInt8) :
    readKind (k.header content.length ++ content ++ rest) =
      .ok (k, (k.header content.length).length, content.length) := by
  have hroom : ∀ t, t + content.length ≤ (content ++ rest).length + t := by simp; omega
  by_cases hs : content.length < 56
  · -- one tag byte holds the size
    have hcanon' : k = .string → content.length = 1 →
        ∀ c, (content ++ rest).head? = some c → 0x80 ≤ c := by
      intro hstr h1 c hc
      obtain ⟨c', rfl⟩ := List.length_eq_one_iff.mp h1
      simp only [List.cons_append, List.nil_append, List.head?_cons, Option.some.injEq] at hc
      exact hc ▸ hcanon hstr c' rfl
    cases k with
    | byte => exact absurd rfl hk
    | string =>
      have hb := toNat_tag_add (t := 0x80) (n := content.length) (by simp; omega)
      simp only [Kind.header, header, hs, if_true, List.length_singleton, List.cons_append]
      exact readKind_cons_of_readHeader
        (readHeader_string_short (by simpa using hb) hs (hcanon' rfl)) (hroom 1)
    | list =>
      have hb := toNat_tag_add (t := 0xC0) (n := content.length) (by simp; omega)
      simp only [Kind.header, header, hs, if_true, List.length_singleton, List.cons_append]
      exact readKind_cons_of_readHeader (readHeader_list_short (by simpa using hb) hs) (hroom 1)
  · -- a tag byte, then the size in its shortest form
    have hc := byteCount_range (by omega) hsize
    cases k with
    | byte => exact absurd rfl hk
    | string =>
      have hb := toNat_tag_add (t := 0xB7) (n := byteCount content.length) (by simp; omega)
      simp only [Kind.header, header, hs, if_false, List.length_cons, length_minBytes,
        List.cons_append, List.append_assoc]
      exact readKind_cons_of_readHeader
        (readHeader_string_long (by simpa using hb) (by omega) hsize) (by simp; omega)
    | list =>
      have hb := toNat_tag_add (t := 0xF7) (n := byteCount content.length) (by simp; omega)
      simp only [Kind.header, header, hs, if_false, List.length_cons, length_minBytes,
        List.cons_append, List.append_assoc]
      exact readKind_cons_of_readHeader
        (readHeader_list_long (by simpa using hb) (by omega) hsize) (by simp; omega)

end Headers

/-- A string of one byte is written as the byte itself exactly when the byte is below `0x80`. -/
theorem canon_of_kind_string {v : Value} (hk : v.kind = .string) :
    ∀ c, v.content = [c] → 0x80 ≤ c := by
  intro c hc
  cases v with
  | bytes b =>
    simp only [Value.content] at hc
    subst hc
    simp only [Value.kind] at hk
    split_ifs at hk with hlt
    exact UInt8.not_lt.mp hlt
  | list vs => simp [Value.kind] at hk

/-- `readKind` reads the header of an encoding. -/
theorem readKind_encode (v : Value) (hv : v.encode.length < 2 ^ 64) (rest : List UInt8) :
    readKind (v.encode ++ rest) =
      .ok (v.kind, (v.kind.header v.content.length).length, v.content.length) := by
  have hlen : v.content.length < 2 ^ 64 := by
    rw [encode_eq_header_content, List.length_append] at hv
    omega
  rw [encode_eq_header_content]
  by_cases hk : v.kind = .byte
  · -- a byte below `0x80` is its own encoding
    obtain ⟨c, hc, rfl⟩ := Iff.mp kind_eq_byte_iff hk
    simp only [hk, Value.content, Kind.header, List.nil_append, List.length_singleton,
      List.cons_append, List.length_nil]
    exact readKind_cons_of_readHeader (by simp [readHeader, hc]) (by simp)
  · exact readKind_header hk hlen (fun hs => canon_of_kind_string hs) rest

/-- `Split` of an encoding gives back the value's kind, its content and the rest. -/
theorem split_encode (v : Value) (hv : v.encode.length < 2 ^ 64) (rest : List UInt8) :
    split (v.encode ++ rest) = .ok (v.kind, v.content, rest) := by
  rw [split, readKind_encode v hv rest]
  simp only [Except.map, encode_eq_header_content v, List.append_assoc, Except.ok.injEq,
    Prod.mk.injEq, true_and]
  constructor
  · rw [List.drop_left, List.take_left]
  · rw [← List.append_assoc, List.drop_left' (by simp)]

theorem kind_bytes_ne_list (b : List UInt8) : (Value.bytes b).kind ≠ .list := by
  match b with
  | [] => simp [Value.kind]
  | [c] => simp only [Value.kind]; split <;> simp
  | _ :: _ :: _ => simp [Value.kind]

theorem splitString_encode_bytes (b : List UInt8) (hv : (Value.bytes b).encode.length < 2 ^ 64)
    (rest : List UInt8) : splitString ((Value.bytes b).encode ++ rest) = .ok (b, rest) := by
  rw [splitString, split_encode _ hv]
  simp only [bind, Except.bind, Value.content]
  rw [if_neg (kind_bytes_ne_list b)]
  rfl

theorem splitList_encode_list (vs : List Value) (hv : (Value.list vs).encode.length < 2 ^ 64)
    (rest : List UInt8) :
    splitList ((Value.list vs).encode ++ rest) = .ok (Value.encodeAll vs, rest) := by
  rw [splitList, split_encode _ hv]
  rfl

/-- The content of a list's encoding holds as many values as the list. -/
theorem countValues_encodeAll (vs : List Value) (hv : (Value.encodeAll vs).length < 2 ^ 64) :
    countValues (Value.encodeAll vs) = .ok vs.length := by
  induction vs with
  | nil => simp [countValues]
  | cons v vs ih =>
    rw [encodeAll_cons] at hv ⊢
    have hv' : v.encode.length < 2 ^ 64 := by simp at hv; omega
    rw [countValues, if_neg (by simp [encode_ne_nil])]
    split
    · rename_i e he
      rw [readKind_encode v hv'] at he
      cases he
    · rename_i k tagsize size he
      rw [readKind_encode v hv'] at he
      cases he
      -- the element's header and content are its whole encoding
      have hlen : (v.kind.header v.content.length).length + v.content.length = v.encode.length := by
        rw [encode_eq_header_content v, List.length_append]
      rw [hlen, List.drop_left, ih (by simp at hv; omega)]
      rfl

theorem splitList_encode_bytes (b : List UInt8) (hv : (Value.bytes b).encode.length < 2 ^ 64)
    (rest : List UInt8) : splitList ((Value.bytes b).encode ++ rest) = .error .expectedList := by
  rw [splitList, split_encode _ hv]
  simp only [bind, Except.bind]
  rw [if_pos (kind_bytes_ne_list b)]
  rfl

/-! ### Lengths of encodings -/

theorem length_header_le (small large : UInt8) {size : Nat} (h : size < 2 ^ 64) :
    (header small large size).length ≤ 9 := by
  rw [length_header]
  split
  · omega
  · have := byteCount_le_of_lt_pow (k := 8) (by simpa using h)
    omega

theorem length_encodeBytes_le {b : List UInt8} (h : b.length < 2 ^ 64) :
    (encodeBytes b).length ≤ b.length + 9 := by
  unfold encodeBytes
  split
  · split <;> simp
  · have := length_header_le 0x80 0xB7 h
    simp only [List.length_append]
    omega

theorem encodeAll_append (vs ws : List Value) :
    Value.encodeAll (vs ++ ws) = Value.encodeAll vs ++ Value.encodeAll ws := by
  simp only [encodeAll_eq_flatMap, List.flatMap_append]

theorem length_encodeAll_le {vs : List Value} {c : Nat} (h : ∀ v ∈ vs, v.encode.length ≤ c) :
    (Value.encodeAll vs).length ≤ vs.length * c := by
  induction vs with
  | nil => simp
  | cons v vs ih =>
    have hv := h v (by simp)
    have hvs := ih (fun w hw => h w (by simp [hw]))
    simp only [encodeAll_cons, List.length_append, List.length_cons]
    rw [Nat.succ_mul]
    omega

/-- A byte string of two bytes or more is written with a string header. -/
theorem kind_bytes_of_two_le {b : List UInt8} (h : 2 ≤ b.length) : (Value.bytes b).kind = .string := by
  match b, h with
  | _ :: _ :: _, _ => rfl

/-! ### Length fields

`putint` writes a size or an integer in big-endian bytes, as many as `intsize` counts; a long
header is `puthead`'s tag byte followed by them, and is read back by `readSize` (in a slice) or
`readUint` (from a stream). Both read at most eight bytes, as every caller passes them. -/

theorem putint_ne_nil (i : Nat) : putint i ≠ [] := by
  rw [← List.length_pos_iff, putint, length_bytesBE]
  cases (List.range 7).find? (fun k => decide (i < 2 ^ (8 * (k + 1)))) <;> simp

theorem putint_of_lt {i : Nat} (h : i < 256) : putint i = [UInt8.ofNat i] := by
  rcases Nat.eq_zero_or_pos i with rfl | hpos
  · rfl
  · rw [putint_eq_minBytes hpos (by omega), minBytes_of_lt hpos h]

theorem intsize_of_lt {i : Nat} (h : i < 256) : intsize i = 1 := by
  simp [intsize, intsizeLoop, Nat.div_eq_of_lt h]

/-- `putint` writes `intsize` bytes. -/
theorem length_putint {i : Nat} (hi : i < 2 ^ 64) : (putint i).length = intsize i := by
  rcases Nat.eq_zero_or_pos i with rfl | hpos
  · rfl
  · rw [putint_eq_minBytes hpos hi, length_minBytes, intsize_eq_byteCount hpos hi]

theorem ofBytesBE_putint {i : Nat} (hi : i < 2 ^ 64) : ofBytesBE (putint i) = i := by
  rcases Nat.eq_zero_or_pos i with rfl | hpos
  · rfl
  · rw [putint_eq_minBytes hpos hi, ofBytesBE_minBytes]

theorem head_putint_ne_zero {i : Nat} (hpos : 0 < i) (hi : i < 2 ^ 64) :
    (putint i).head? ≠ some 0 := by
  rw [putint_eq_minBytes hpos hi]
  exact head_minBytes_ne_zero i

theorem take_intsize_putint {i : Nat} (hi : i < 2 ^ 64) (rest : List UInt8) :
    (putint i ++ rest).take (intsize i) = putint i := by
  rw [← length_putint hi, List.take_left]

/-- `readSize` reads back a size of 56 or more from what `putint` wrote, and refuses a smaller
one: a header keeps that in its tag byte. -/
theorem readSize_putint {i : Nat} (hi : i < 2 ^ 64) (rest : List UInt8) :
    readSize (putint i ++ rest) (intsize i) = if 56 ≤ i then .ok i else .error .canonSize := by
  have hlen : ¬(putint i ++ rest).length < intsize i := by
    rw [List.length_append, length_putint hi]
    omega
  unfold readSize
  rw [if_neg hlen, take_intsize_putint hi, ofBytesBE_putint hi]
  by_cases h56 : 56 ≤ i
  · have hhead : (putint i ++ rest).head? ≠ some 0 := by
      rw [List.head?_append_of_ne_nil _ (putint_ne_nil i)]
      exact head_putint_ne_zero (by omega) hi
    rw [if_neg (not_or.mpr ⟨by omega, hhead⟩), if_pos h56]
  · rw [if_pos (Or.inl (by omega)), if_neg h56]

/-- `readUint` reads back every number `putint` wrote, from a stream with room for it. -/
theorem readUint_putint {i : Nat} (hi : i < 2 ^ 64) {s : Stream} {rest : List UInt8}
    (hin : s.input = putint i ++ rest) (hroom : s.Room (intsize i)) :
    s.readUint (intsize i) = (.ok i, s.consume (intsize i)) := by
  have htake : s.input.take (intsize i) = putint i := by rw [hin, take_intsize_putint hi]
  have hpos : 0 < intsize i := by
    rw [← length_putint hi]
    exact List.length_pos_iff.mpr (putint_ne_nil i)
  refine Iff.mpr (Stream.readUint_eq_ok hpos) ⟨hroom, ?_, ?_, by rw [htake, ofBytesBE_putint hi], rfl⟩
  · rw [hin, List.length_append, length_putint hi]
    omega
  · -- two bytes or more: the number is not zero, so its first byte is not
    intro h2
    rw [htake]
    rcases Nat.eq_zero_or_pos i with rfl | hi0
    · simp [intsize_of_lt] at h2
    · exact head_putint_ne_zero hi0 hi

/-- At most eight bytes spell a number below `2 ^ 64`. -/
theorem ofBytesBE_take_lt (b : List UInt8) {n : Nat} (hn : n ≤ 8) : ofBytesBE (b.take n) < 2 ^ 64 := by
  have hlen : (b.take n).length ≤ 8 := by simp; omega
  calc ofBytesBE (b.take n) < 256 ^ (b.take n).length := ofBytesBE_lt _
    _ ≤ 256 ^ 8 := Nat.pow_le_pow_right (by decide) hlen
    _ = 2 ^ 64 := by norm_num

/-- What `readSize` accepts from at most eight bytes is what `putint` writes of a size of 56 or
more, and nothing else: a longer form starts with a zero. -/
theorem putint_of_readSize {b : List UInt8} {n v : Nat} (hn : n ≤ 8) (h : readSize b n = .ok v) :
    56 ≤ v ∧ b.take n = putint v ∧ intsize v = n := by
  unfold readSize at h
  split_ifs at h with hlen hbad
  obtain rfl := Except.ok.inj h
  have h56 : 56 ≤ ofBytesBE (b.take n) := by omega
  have htlen : (b.take n).length = n := by simp; omega
  have hn0 : n ≠ 0 := by
    rintro rfl
    simp at h56
  have hhead : (b.take n).head? ≠ some 0 := by
    rw [List.head?_take, if_neg hn0]
    exact fun h0 => hbad (Or.inr h0)
  have hlt := ofBytesBE_take_lt b hn
  have hmin := minBytes_ofBytesBE hhead
  refine ⟨h56, ?_, ?_⟩
  · rw [putint_eq_minBytes (by omega) hlt, hmin]
  · rw [intsize_eq_byteCount (by omega) hlt, ← length_minBytes, hmin, htlen]

/-- What `readUint` accepts from one to eight bytes is what `putint` writes: one byte is any
number below 256, and two or more may not start with a zero. -/
theorem putint_of_readUint {s s' : Stream} {k v : Nat} (hk : 0 < k) (hk8 : k ≤ 8)
    (h : s.readUint k = (.ok v, s')) : s.input.take k = putint v ∧ intsize v = k := by
  obtain ⟨-, hlen, hhead, rfl, -⟩ := Iff.mp (Stream.readUint_eq_ok hk) h
  have htlen : (s.input.take k).length = k := by simp; omega
  by_cases h2 : 2 ≤ k
  · have hmin := minBytes_ofBytesBE (hhead h2)
    have hlt := ofBytesBE_take_lt s.input hk8
    have hpos : 0 < ofBytesBE (s.input.take k) := by
      rcases Nat.eq_zero_or_pos (ofBytesBE (s.input.take k)) with h0 | h0
      · rw [h0, minBytes_zero] at hmin
        rw [← hmin] at htlen
        simp at htlen
        omega
      · exact h0
    refine ⟨?_, ?_⟩
    · rw [putint_eq_minBytes hpos hlt, hmin]
    · rw [intsize_eq_byteCount hpos hlt, ← length_minBytes, hmin, htlen]
  · -- one byte, which is its own form
    obtain rfl : k = 1 := by omega
    obtain ⟨c, hc⟩ : ∃ c, s.input.take 1 = [c] := by
      cases hin : s.input with
      | nil => rw [hin] at htlen; simp at htlen
      | cons c rest => exact ⟨c, rfl⟩
    have hval : ofBytesBE [c] = c.toNat := by simp
    rw [hc, hval, putint_of_lt c.toNat_lt, intsize_of_lt c.toNat_lt, UInt8.ofNat_toNat]
    exact ⟨rfl, rfl⟩

/-- **RLP length fields round-trip.** For every `uint64`, `putint` writes `intsize` bytes with no
leading zero, `headsize` counts the bytes `puthead` writes, `readSize` gives the number back when
it is 56 or more and refuses it otherwise, and `readUint` gives it back from a stream with room
for it. Conversely what either reader accepts from one to eight bytes is the form `putint` writes. -/
theorem length_fields_round_trip :
    (∀ i : UInt64,
      (putint i.toNat).length = intsize i.toNat ∧
      (0 < i.toNat → (putint i.toNat).head? ≠ some 0) ∧
      (∀ smalltag largetag : UInt8, (puthead smalltag largetag i.toNat).length = headsize i.toNat) ∧
      (∀ rest, readSize (putint i.toNat ++ rest) (intsize i.toNat) =
        if 56 ≤ i.toNat then .ok i.toNat else .error .canonSize) ∧
      (∀ (s : Stream) (rest : List UInt8), s.input = putint i.toNat ++ rest →
        s.Room (intsize i.toNat) →
        s.readUint (intsize i.toNat) = (.ok i.toNat, s.consume (intsize i.toNat)))) ∧
    (∀ (b : List UInt8) (n v : Nat), n ≤ 8 → readSize b n = .ok v →
      56 ≤ v ∧ b.take n = putint v ∧ intsize v = n) ∧
    (∀ (s s' : Stream) (k v : Nat), 0 < k → k ≤ 8 → s.readUint k = (.ok v, s') →
      s.input.take k = putint v ∧ intsize v = k) := by
  refine ⟨fun i => ?_, fun _ _ _ hn h => putint_of_readSize hn h,
    fun _ _ _ _ hk hk8 h => putint_of_readUint hk hk8 h⟩
  have hi : i.toNat < 2 ^ 64 := i.toNat_lt
  exact ⟨length_putint hi, fun hpos => head_putint_ne_zero hpos hi,
    fun smalltag largetag => length_puthead smalltag largetag hi, readSize_putint hi,
    fun _ _ hin hroom => readUint_putint hi hin hroom⟩

/-- A size below 56 that `putint` wrote is refused by `readSize`. -/
theorem readSize_putint_one : readSize (putint 1) (intsize 1) = .error .canonSize := by
  decide

end EpvChain.Rlp
