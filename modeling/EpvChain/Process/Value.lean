import EpvChain.Lib.BigEndian

/-!
# RLP values and what their encoding is (`process`, package `rlp`)

RLP values are finite trees with byte-string leaves and list nodes: in the source, the `[]byte`
and `[]interface{}` values `EncodeToBytes` takes and `DecodeBytes` produces. Their encoding, as
the format defines it:

* a single byte below `0x80` is itself;
* another byte string is `0x80 + length` and the bytes below 56 bytes, else `0xB7` plus the
  length of the length's shortest big-endian form, that form, and the bytes;
* a list is a header with `0xC0`, `0xF7` for `0x80`, `0xB7`, and its elements' encodings.

`Value.encode` is that definition; the encoder is proved to produce it
(`EpvChain.Rlp.encodeToBytes_writeInterface`) and both decoders to invert it, for lengths below
`2 ^ 64`. `Value.kind` and `Value.content` are what `rlp.Split` reports.
-/

namespace EpvChain.Rlp

open Lib

/-- `rlp.Kind`: what the first byte of an encoding announces.
Source: `process/decode.go` `type Kind int` -/
inductive Kind where
  | byte
  | string
  | list
  deriving DecidableEq, Repr

/-- A value RLP encodes: a byte string (`[]byte`) or a list of values (`[]interface{}`). -/
inductive Value where
  | bytes (b : List UInt8)
  | list (vs : List Value)
  deriving Repr

/-- The header of a string or list whose content has `size` bytes: one byte `small + size`
below 56 bytes, else `large` plus the length of the shortest form of `size`, then that form. -/
def header (small large : UInt8) (size : Nat) : List UInt8 :=
  if size < 56 then [small + UInt8.ofNat size]
  else (large + UInt8.ofNat (byteCount size)) :: minBytes size

/-- The header of a kind for a content of `size` bytes: tags `0x80` and `0xB7` for strings,
`0xC0` and `0xF7` for lists. A byte is its own content and has no header. -/
def Kind.header : Kind → Nat → List UInt8
  | .byte, _ => []
  | .string, size => Rlp.header 0x80 0xB7 size
  | .list, size => Rlp.header 0xC0 0xF7 size

/-- The encoding of a byte string: a single byte below `0x80` stands for itself. -/
def encodeBytes (b : List UInt8) : List UInt8 :=
  match b with
  | [c] => if c < 0x80 then [c] else header 0x80 0xB7 1 ++ [c]
  | b => header 0x80 0xB7 b.length ++ b

mutual

/-- The RLP encoding of a value. -/
def Value.encode : Value → List UInt8
  | .bytes b => encodeBytes b
  | .list vs => header 0xC0 0xF7 (Value.encodeAll vs).length ++ Value.encodeAll vs

/-- The concatenated encodings of a list's elements: the content of the list's encoding. -/
def Value.encodeAll : List Value → List UInt8
  | [] => []
  | v :: vs => v.encode ++ Value.encodeAll vs

end

@[simp] theorem encode_bytes (b : List UInt8) : (Value.bytes b).encode = encodeBytes b := by
  rw [Value.encode]

@[simp] theorem encode_list (vs : List Value) :
    (Value.list vs).encode = header 0xC0 0xF7 (Value.encodeAll vs).length ++ Value.encodeAll vs := by
  rw [Value.encode]

@[simp] theorem encodeAll_nil : Value.encodeAll [] = [] := by
  rw [Value.encodeAll]

@[simp] theorem encodeAll_cons (v : Value) (vs : List Value) :
    Value.encodeAll (v :: vs) = v.encode ++ Value.encodeAll vs := by
  rw [Value.encodeAll]

/-- A list's content is its elements' encodings, one after the other. -/
theorem encodeAll_eq_flatMap (vs : List Value) : Value.encodeAll vs = vs.flatMap Value.encode := by
  induction vs with
  | nil => simp
  | cons v vs ih => rw [encodeAll_cons, ih, List.flatMap_cons]

/-- A byte string encodes to its header and itself unless it is one byte below `0x80`. -/
theorem encodeBytes_of_not_single {b : List UInt8} (h : ∀ c, b = [c] → 0x80 ≤ c) :
    encodeBytes b = header 0x80 0xB7 b.length ++ b := by
  unfold encodeBytes
  split
  · rename_i c
    rw [if_neg (by have := h c rfl; exact UInt8.not_lt.mpr this)]
    rfl
  · rfl

theorem length_le_encodeBytes (b : List UInt8) : b.length ≤ (encodeBytes b).length := by
  unfold encodeBytes
  split
  · split <;> simp
  · simp

@[simp] theorem length_header (small large : UInt8) (size : Nat) :
    (header small large size).length = if size < 56 then 1 else 1 + byteCount size := by
  unfold header
  split <;> simp [Nat.add_comm]

theorem header_ne_nil (small large : UInt8) (size : Nat) : header small large size ≠ [] := by
  unfold header
  split <;> simp

theorem encode_ne_nil (v : Value) : v.encode ≠ [] := by
  cases v with
  | bytes b =>
    rw [encode_bytes]
    unfold encodeBytes
    split
    · split <;> simp
    · simp [header_ne_nil]
  | list vs => simp [header_ne_nil]

/-- The value of a natural number: the byte string of its shortest big-endian form, which is
how RLP encodes integers. -/
def Value.ofNat (n : Nat) : Value := .bytes (minBytes n)

/-- What the first byte of a value's encoding announces. -/
def Value.kind : Value → Kind
  | .bytes [c] => if c < 0x80 then .byte else .string
  | .bytes _ => .string
  | .list _ => .list

attribute [local simp] encodeBytes Kind.header Value.kind

/-- The bytes `rlp.Split` returns as a value's content: the byte string itself, or the
encodings of the list's elements. -/
def Value.content : Value → List UInt8
  | .bytes b => b
  | .list vs => Value.encodeAll vs

/-- An encoding is the header of the value's kind for the length of its content, then the
content. For a single byte below `0x80` the header is empty. -/
theorem encode_eq_header_content (v : Value) :
    v.encode = v.kind.header v.content.length ++ v.content := by
  rcases v with (_ | ⟨c, _ | ⟨d, rest⟩⟩) | vs
  · simp [encodeBytes, Value.kind, Value.content, Kind.header]
  · by_cases hc : c < 0x80 <;> simp [encodeBytes, Value.kind, Value.content, Kind.header, hc]
  · simp [encodeBytes, Value.kind, Value.content, Kind.header]
  · simp [Value.kind, Value.content, Kind.header]

theorem kind_eq_byte_iff {v : Value} : v.kind = .byte ↔ ∃ c : UInt8, c < 0x80 ∧ v = .bytes [c] := by
  rcases v with (_ | ⟨c, _ | ⟨d, rest⟩⟩) | vs
  · simp [Value.kind]
  · by_cases hc : c < 0x80 <;> simp [Value.kind, hc]
  · simp [Value.kind]
  · simp [Value.kind]

end EpvChain.Rlp
