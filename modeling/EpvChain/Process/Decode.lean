import EpvChain.Process.Encode

/-!
# The stream decoder (`process/decode.go`)

`DecodeBytes` puts a `Stream` over the input and runs the target type's decoder on it. The stream
reads one header at a time (`Kind`), caches it, and keeps a stack of the lists it is inside;
`willRead` charges every read to the innermost list and the input limit first, so nothing runs
past its list or the input. `Stream` has the source's fields; the reader is the list of bytes
not yet read. A method returns its result with the stream after the call, since the source's
methods change the stream before they fail too. `kind == -1` is `none`.

The decoders are those of `interface{}`, `[]byte`, `string`, `uint64`, `*big.Int` and
`RawValue`. `decodeInterface` recurses through `decodeListSlice` on a bound, and
`decodeSliceElems` loops on one, started at one more than the input length and never used up
(`decodeInterface_ne_outOfFuel`). `wrapStreamError` and `addErrorContext` only reword errors and
are left out. Sizes are naturals; the source's `uint64` differences never wrap.
-/

namespace EpvChain.Rlp

open Lib

/-- The errors of the stream and the decoders (`io.EOF` and `io.ErrUnexpectedEOF` among them),
and `outOfFuel`, which is the model's own: a recursion bound of the decoders ran out.
Source: `process/decode.go` `var EOL`, `ErrExpectedString`, … -/
inductive StreamError where
  | eol
  | expectedString
  | expectedList
  | canonInt
  | canonSize
  | elemTooLarge
  | valueTooLarge
  | moreThanOneValue
  | notInList
  | notAtEOL
  | uintOverflow
  | unexpectedEOF
  | eof
  | outOfFuel
  deriving DecidableEq, Repr

/-- `listpos`: the bytes read so far in an open list, and the list's size.
Source: `process/decode.go` `type listpos struct` -/
structure ListPos where
  pos : Nat
  size : Nat
  deriving DecidableEq, Repr

/-- `Stream`. `stack` has the innermost list first.
Source: `process/decode.go` `type Stream struct` -/
structure Stream where
  input : List UInt8
  remaining : Nat
  limited : Bool
  kind : Option Kind
  size : Nat
  byteval : UInt8
  kinderr : Option StreamError
  stack : List ListPos
  deriving DecidableEq, Repr

/-- What a stream method returns: its result or its error, and the stream after the call. -/
abbrev Res (α : Type) := Except StreamError α × Stream

/-- `NewStream(r, inputLimit)` as `Stream.Reset` sets it up: a positive limit bounds the input;
with none, a `bytes.Reader` or `strings.Reader` (`sized`) is bounded by its length, and any other
reader is not bounded (`remaining` keeps the zero of a new `Stream`).
Source: `process/decode.go` `NewStream`, `Stream.Reset` -/
def newStream (r : List UInt8) (sized : Bool) (inputLimit : Nat) : Stream where
  input := r
  remaining := if 0 < inputLimit then inputLimit else if sized then r.length else 0
  limited := decide (0 < inputLimit) || sized
  kind := none
  size := 0
  byteval := 0
  kinderr := none
  stack := []

/-- The stack after `n` more bytes read in its innermost list. -/
def advanceTop : List ListPos → Nat → List ListPos
  | [], _ => []
  | tos :: rest, n => ⟨tos.pos + n, tos.size⟩ :: rest

namespace Stream

/-- The input-limit half of `willRead`. -/
def takeRemaining (s : Stream) (n : Nat) : Res Unit :=
  if s.limited then
    if s.remaining < n then (.error .valueTooLarge, s)
    else (.ok (), { s with remaining := s.remaining - n })
  else (.ok (), s)

/-- `Stream.willRead`: drop the cached kind, then charge `n` bytes to the innermost list and to
the input limit.
Source: `process/decode.go` `Stream.willRead` -/
def willRead (s : Stream) (n : Nat) : Res Unit :=
  let s := { s with kind := none }
  match s.stack with
  | tos :: _ =>
    if tos.size - tos.pos < n then (.error .elemTooLarge, s)
    else takeRemaining { s with stack := advanceTop s.stack n } n
  | [] => takeRemaining s n

/-- `Stream.readByte`.
Source: `process/decode.go` `Stream.readByte` -/
def readByte (s : Stream) : Res UInt8 :=
  match s.willRead 1 with
  | (.error e, s) => (.error e, s)
  | (.ok (), s) =>
    match s.input with
    | b :: rest => (.ok b, { s with input := rest })
    | [] => (.error .unexpectedEOF, s)

/-- `Stream.readFull` of `n` bytes: a short reader gives what it has and
`io.ErrUnexpectedEOF`.
Source: `process/decode.go` `Stream.readFull` -/
def readFull (s : Stream) (n : Nat) : Res (List UInt8) :=
  match s.willRead n with
  | (.error e, s) => (.error e, s)
  | (.ok (), s) =>
    if n ≤ s.input.length then (.ok (s.input.take n), { s with input := s.input.drop n })
    else (.error .unexpectedEOF, { s with input := [] })

/-- `Stream.readUint`: a big-endian number of `size` bytes, at most eight; of two bytes or
more it may not start with zero.
Source: `process/decode.go` `Stream.readUint` -/
def readUint (s : Stream) (size : Nat) : Res Nat :=
  match size with
  | 0 => (.ok 0, { s with kind := none })
  | 1 =>
    match s.readByte with
    | (.ok b, s) => (.ok b.toNat, s)
    | (.error e, s) => (.error e, s)
  | size + 2 =>
    match s.readFull (size + 2) with
    | (.error e, s) => (.error e, s)
    | (.ok buf, s) => if buf.head? = some 0 then (.error .canonSize, s) else (.ok (ofBytesBE buf), s)

/-- The long forms of `readKind`: the size in the next `sizesize` bytes, 56 at least.
Source: `process/decode.go` `Stream.readKind` (the cases `b < 0xC0` and `default`) -/
def readLongSize (s : Stream) (k : Kind) (sizesize : Nat) : (Kind × Nat × Option StreamError) × Stream :=
  match s.readUint sizesize with
  | (.error err, s) => ((k, 0, some err), s)
  | (.ok size, s) => if size < 56 then ((k, size, some .canonSize), s) else ((k, size, none), s)

/-- `Stream.readKind`: read a header, and return the kind, the size and the error if any. At the
top level the end of the input is `io.EOF`.
Source: `process/decode.go` `Stream.readKind` -/
def readKind (s : Stream) : (Kind × Nat × Option StreamError) × Stream :=
  match s.readByte with
  | (.error err, s) =>
    let err := if s.stack = [] ∧ (err = .unexpectedEOF ∨ err = .valueTooLarge) then .eof else err
    ((.byte, 0, some err), s)
  | (.ok b, s) =>
    let s := { s with byteval := 0 }
    if b < 0x80 then ((.byte, 0, none), { s with byteval := b })
    else if b < 0xB8 then ((.string, (b - 0x80).toNat, none), s)
    else if b < 0xC0 then s.readLongSize .string (b - 0xB7).toNat
    else if b < 0xF8 then ((.list, (b - 0xC0).toNat, none), s)
    else s.readLongSize .list (b - 0xF7).toNat

/-- The check `Kind` makes of a header's size: the content must fit in the innermost list, or
at the top level in the input limit.
Source: `process/decode.go` `Stream.Kind` -/
def sizeErr (s : Stream) (size : Nat) : Option StreamError :=
  match s.stack with
  | [] => if s.limited ∧ s.remaining < size then some .valueTooLarge else none
  | tos :: _ => if tos.size - tos.pos < size then some .elemTooLarge else none

/-- The half of `Kind` that reads: a header, then the check of its size; the answer is cached.
Source: `process/decode.go` `Stream.Kind` -/
def fetchKind (s : Stream) : (Kind × Nat × Option StreamError) × Stream :=
  match s.readKind with
  | ((k, size, some err), s) =>
    ((k, size, some err), { s with kind := some k, size := size, kinderr := some err })
  | ((k, size, none), s) =>
    let err := s.sizeErr size
    ((k, size, err), { s with kind := some k, size := size, kinderr := err })

/-- `Stream.Kind`: the kind and size of the next value, from the cache if there is one; `EOL`
at the end of the innermost list.
Source: `process/decode.go` `Stream.Kind` -/
def nextKind (s : Stream) : (Kind × Nat × Option StreamError) × Stream :=
  match s.kind with
  | some k => ((k, s.size, s.kinderr), s)
  | none =>
    let s := { s with kinderr := none }
    match s.stack with
    | tos :: _ => if tos.pos = tos.size then ((.byte, 0, some .eol), s) else s.fetchKind
    | [] => s.fetchKind

/-- `Stream.Bytes`: a byte or a string; a string of one byte below `0x80` is refused.
Source: `process/decode.go` `Stream.Bytes` -/
def bytes (s : Stream) : Res (List UInt8) :=
  match s.nextKind with
  | ((_, _, some e), s) => (.error e, s)
  | ((.byte, _, none), s) => (.ok [s.byteval], { s with kind := none })
  | ((.string, size, none), s) =>
    match s.readFull size with
    | (.error e, s) => (.error e, s)
    | (.ok b, s) => if size = 1 ∧ b.headD 0 < 128 then (.error .canonSize, s) else (.ok b, s)
  | ((.list, _, none), s) => (.error .expectedString, s)

/-- `Stream.Raw`: the next value's encoding, its header rebuilt by `puthead`.
Source: `process/decode.go` `Stream.Raw` -/
def raw (s : Stream) : Res (List UInt8) :=
  match s.nextKind with
  | ((_, _, some e), s) => (.error e, s)
  | ((.byte, _, none), s) => (.ok [s.byteval], { s with kind := none })
  | ((k, size, none), s) =>
    match s.readFull size with
    | (.error e, s) => (.error e, s)
    | (.ok content, s) =>
      (.ok ((if k = .string then puthead 0x80 0xB7 size else puthead 0xC0 0xF7 size) ++ content), s)

/-- `Stream.uint`: an unsigned number of at most `maxbits` bits, in its shortest form.
Source: `process/decode.go` `Stream.uint` -/
def uint (s : Stream) (maxbits : Nat) : Res UInt64 :=
  match s.nextKind with
  | ((_, _, some e), s) => (.error e, s)
  | ((.byte, _, none), s) =>
    if s.byteval = 0 then (.error .canonInt, s)
    else (.ok s.byteval.toUInt64, { s with kind := none })
  | ((.string, size, none), s) =>
    if maxbits / 8 < size then (.error .uintOverflow, s)
    else
      match s.readUint size with
      | (.error .canonSize, s) => (.error .canonInt, s)
      | (.error e, s) => (.error e, s)
      | (.ok v, s) => if size > 0 ∧ v < 128 then (.error .canonSize, s) else (.ok (UInt64.ofNat v), s)
  | ((.list, _, none), s) => (.error .expectedString, s)

/-- `Stream.List`: enter a list.
Source: `process/decode.go` `Stream.List` -/
def list (s : Stream) : Res Nat :=
  match s.nextKind with
  | ((_, _, some e), s) => (.error e, s)
  | ((k, size, none), s) =>
    if k ≠ .list then (.error .expectedList, s)
    else (.ok size, { s with stack := ⟨0, size⟩ :: s.stack, kind := none, size := 0 })

/-- `Stream.ListEnd`: leave a list read to its end; the enclosing list has now read all of it.
Source: `process/decode.go` `Stream.ListEnd` -/
def listEnd (s : Stream) : Res Unit :=
  match s.stack with
  | [] => (.error .notInList, s)
  | tos :: rest =>
    if tos.pos ≠ tos.size then (.error .notAtEOL, s)
    else (.ok (), { s with stack := advanceTop rest tos.size, kind := none, size := 0 })

end Stream

/-! ### Decoders -/

/-- `decodeByteSlice`: a `[]byte`.
Source: `process/decode.go` `decodeByteSlice` -/
def decodeByteSlice (s : Stream) : Res (List UInt8) := s.bytes

/-- `decodeString`: a `string`, as its bytes.
Source: `process/decode.go` `decodeString` -/
def decodeString (s : Stream) : Res (List UInt8) := s.bytes

/-- `decodeUint` into a `uint64`.
Source: `process/decode.go` `decodeUint` -/
def decodeUint (s : Stream) : Res UInt64 := s.uint 64

/-- `decodeBigInt`: the bytes of a string, with no leading zero byte.
Source: `process/decode.go` `decodeBigInt` -/
def decodeBigInt (s : Stream) : Res (Option Int) :=
  match s.bytes with
  | (.error e, s) => (.error e, s)
  | (.ok b, s) => if b.head? = some 0 then (.error .canonInt, s) else (.ok (some (ofBytesBE b)), s)

/-- `decodeRawValue`.
Source: `process/decode.go` `decodeRawValue` -/
def decodeRawValue (s : Stream) : Res (List UInt8) := s.raw

/-- `decodeSliceElems`: decode elements until the list's end, with at most `fuel` rounds.
Source: `process/decode.go` `decodeSliceElems` -/
def decodeSliceElems {α : Type} (elemdec : Stream → Res α) : Nat → Stream → Res (List α)
  | 0, s => (.error .outOfFuel, s)
  | fuel + 1, s =>
    match elemdec s with
    | (.error .eol, s) => (.ok [], s)
    | (.error e, s) => (.error e, s)
    | (.ok v, s) =>
      match decodeSliceElems elemdec fuel s with
      | (.ok vs, s) => (.ok (v :: vs), s)
      | (.error e, s) => (.error e, s)

/-- `decodeListSlice`: enter a list, decode its elements and leave it. The element loop may run
one round more than there are bytes left.
Source: `process/decode.go` `decodeListSlice` -/
def decodeListSlice {α : Type} (elemdec : Stream → Res α) (s : Stream) : Res (List α) :=
  match s.list with
  | (.error e, s) => (.error e, s)
  | (.ok size, s) =>
    if size = 0 then
      match s.listEnd with
      | (.ok (), s) => (.ok [], s)
      | (.error e, s) => (.error e, s)
    else
      match decodeSliceElems elemdec (s.input.length + 1) s with
      | (.error e, s) => (.error e, s)
      | (.ok vs, s) =>
        match s.listEnd with
        | (.ok (), s) => (.ok vs, s)
        | (.error e, s) => (.error e, s)

/-- `decodeInterface`: a list becomes a `[]interface{}` of its elements, anything else a
`[]byte`. `fuel` bounds the nesting.
Source: `process/decode.go` `decodeInterface` -/
def decodeInterface : Nat → Stream → Res Value
  | 0, s => (.error .outOfFuel, s)
  | fuel + 1, s =>
    match s.nextKind with
    | ((_, _, some e), s) => (.error e, s)
    | ((.list, _, none), s) =>
      match decodeListSlice (decodeInterface fuel) s with
      | (.ok vs, s) => (.ok (.list vs), s)
      | (.error e, s) => (.error e, s)
    | ((_, _, none), s) =>
      match s.bytes with
      | (.ok b, s) => (.ok (.bytes b), s)
      | (.error e, s) => (.error e, s)

/-- The decoder of `interface{}`, with a nesting bound one more than the bytes left. -/
def decodeValue (s : Stream) : Res Value := decodeInterface (s.input.length + 1) s

/-- `DecodeBytes`: decode one value of the decoder's type from all of `b`.
Source: `process/decode.go` `DecodeBytes` -/
def decodeBytes {α : Type} (decoder : Stream → Res α) (b : List UInt8) : Except StreamError α :=
  match decoder (newStream b true b.length) with
  | (.error e, _) => .error e
  | (.ok v, s) => if s.input.length > 0 then .error .moreThanOneValue else .ok v

end EpvChain.Rlp
