import EpvChain.Process.Value

/-!
# The encoder (`process/encode.go`)

`EncodeToBytes` writes a value into an `encbuf` and lays it out (`toBytes`). Byte strings and
integers go straight into `str`; a list's header is known only when it closes, so `list` records
in a `listhead` where the list starts and the header bytes counted so far (`lhsize`), `listEnd`
computes its content size, and `toBytes` writes each header at its offset.

* `encodeToBytes_writeInterface` — the layout is `Value.encode`.
* `encodeToBytes_writeUint`, `encodeToBytes_writeBigIntPtr` — an integer is the byte string of
  its shortest big-endian form.

Buffers are layouts put side by side: `EncBuf.extend w L` is `w` followed by the closed `L`;
writing a value appends its own layout (`writeInterface_eq_extend`), and `toBytes_extend` joins
the bytes. Sizes are naturals below `2 ^ 64`, where `putint` and `intsize` give the shortest
form. Booleans, structs, pointers, arrays and `Encoder` implementations are not modelled.
-/

namespace EpvChain.Rlp

open Lib

/-! ### Sizes and headers -/

/-- `putint`: the first bound of the switch, `1 << 8` up to `1 << 56`, that `i` is below picks
the number of bytes, eight when there is none; the bytes are `i`'s, most significant first.
Source: `process/encode.go` `putint` -/
def putint (i : Nat) : List UInt8 :=
  bytesBE (((List.range 7).find? fun k => i < 2 ^ (8 * (k + 1))).elim 8 (· + 1)) i

/-- The loop of `intsize`: shift `i` right by a byte until it is zero, counting the rounds.
`fuel` bounds the rounds that may still fail. A `uint64` is zero after eight shifts, so when
seven rounds have failed the count stands at eight, which the eighth round returns. -/
def intsizeLoop : Nat → Nat → Nat → Nat
  | 0, _, size => size
  | fuel + 1, i, size => if i / 256 = 0 then size else intsizeLoop fuel (i / 256) (size + 1)

/-- `intsize`: the number of bytes `putint` writes.
Source: `process/encode.go` `intsize` -/
def intsize (i : Nat) : Nat := intsizeLoop 7 i 1

/-- `headsize`: the length of the header of a string or list of `size` bytes.
Source: `process/encode.go` `headsize` -/
def headsize (size : Nat) : Nat := if size < 56 then 1 else 1 + intsize size

/-- `puthead`: the header of a string (tags `0x80`, `0xB7`) or a list (tags `0xC0`, `0xF7`).
Source: `process/encode.go` `puthead` -/
def puthead (smalltag largetag : UInt8) (size : Nat) : List UInt8 :=
  if size < 56 then [smalltag + UInt8.ofNat size]
  else (largetag + UInt8.ofNat (putint size).length) :: putint size

/-- The switch of `putint` picks the length of the shortest form. -/
theorem putint_eq_minBytes {i : Nat} (hpos : 0 < i) (hlt : i < 2 ^ 64) :
    putint i = minBytes i := by
  obtain ⟨k, hk⟩ : ∃ k, byteCount i = k + 1 :=
    ⟨byteCount i - 1, by have := byteCount_pos hpos; omega⟩
  have hlo : 256 ^ k ≤ i := by simpa [hk] using pow_byteCount_le hpos
  have hhi : i < 256 ^ (k + 1) := hk ▸ lt_pow_byteCount i
  have hpow : ∀ j, (256 : Nat) ^ j = 2 ^ (8 * j) := fun j => by rw [Nat.pow_mul]
  have hk8 : k < 8 := (Nat.pow_lt_pow_iff_right (by decide : 1 < 256)).mp
    (Nat.lt_of_le_of_lt hlo (by simpa using hlt))
  -- the switch stops at the first bound `i` is below, which is `256 ^ (k + 1)`
  have hfind : ((List.range 7).find? fun k => i < 2 ^ (8 * (k + 1))).elim 8 (· + 1) = k + 1 := by
    by_cases h7 : k < 7
    · have : (List.range 7).find? (fun k => decide (i < 2 ^ (8 * (k + 1)))) = some k := by
        rw [List.find?_range_eq_some]
        refine ⟨by simpa [← hpow] using hhi, List.mem_range.mpr h7, fun j hj => ?_⟩
        have : 256 ^ (j + 1) ≤ 256 ^ k := Nat.pow_le_pow_right (by decide) (by omega)
        simp only [← hpow, Bool.not_eq_true', decide_eq_false_iff_not, Nat.not_lt]
        omega
      rw [this]; rfl
    · have : (List.range 7).find? (fun k => decide (i < 2 ^ (8 * (k + 1)))) = none := by
        rw [List.find?_range_eq_none]
        intro j hj
        have : 256 ^ (j + 1) ≤ 256 ^ k := Nat.pow_le_pow_right (by decide) (by omega)
        simp only [← hpow, Bool.not_eq_true', decide_eq_false_iff_not, Nat.not_lt]
        omega
      rw [this]; simp only [Option.elim_none]; omega
  rw [putint, hfind, minBytes, hk]

/-- The loop of `intsize` counts the bytes of the shortest form, one at least. -/
theorem intsizeLoop_eq : ∀ (fuel i size : Nat), byteCount i ≤ fuel + 1 →
    intsizeLoop fuel i size = size + (byteCount i - 1)
  | 0, i, size, h => by simp only [intsizeLoop]; omega
  | fuel + 1, i, size, h => by
    simp only [intsizeLoop]
    by_cases h0 : i / 256 = 0
    · -- a single byte: its shortest form has at most one byte
      have : byteCount i ≤ 1 := byteCount_le_of_lt_pow (by simpa using h0)
      rw [if_pos h0]
      omega
    · have hdiv := byteCount_div (show 256 ≤ i by omega)
      rw [if_neg h0, intsizeLoop_eq fuel (i / 256) (size + 1) (by omega)]
      have := byteCount_pos (show 0 < i / 256 by omega)
      omega

theorem intsize_eq_byteCount {i : Nat} (hpos : 0 < i) (hlt : i < 2 ^ 64) :
    intsize i = byteCount i := by
  have h8 : byteCount i ≤ 8 := byteCount_le_of_lt_pow (by simpa using hlt)
  have := byteCount_pos hpos
  rw [intsize, intsizeLoop_eq 7 i 1 (by omega)]
  omega

/-- Below `2 ^ 64`, `puthead` writes the header the format prescribes. -/
theorem puthead_eq_header (smalltag largetag : UInt8) {size : Nat} (h : size < 2 ^ 64) :
    puthead smalltag largetag size = header smalltag largetag size := by
  unfold puthead header
  split
  · rfl
  · rw [putint_eq_minBytes (by omega) h, length_minBytes]

theorem length_puthead (smalltag largetag : UInt8) {size : Nat} (h : size < 2 ^ 64) :
    (puthead smalltag largetag size).length = headsize size := by
  rw [puthead_eq_header _ _ h, length_header, headsize]
  split
  · rfl
  · rw [intsize_eq_byteCount (by omega) h]

/-! ### The buffer -/

/-- `listhead`: where a list starts in `str`, and its size. While the list is open `size`
holds the header bytes counted before it (`lhsize` when it opened); `listEnd` replaces that by
the size of the list's content.
Source: `process/encode.go` `type listhead struct` -/
structure ListHead where
  offset : Nat
  size : Nat
  deriving DecidableEq, Repr

/-- `listhead.encode`: the list's header.
Source: `process/encode.go` `listhead.encode` -/
def ListHead.encode (head : ListHead) : List UInt8 := puthead 0xC0 0xF7 head.size

/-- `encbuf`, less the scratch `sizebuf`: the bytes written so far without list headers, the
heads of the lists opened so far in the order they opened, and the total size of the headers
of the lists closed so far.
Source: `process/encode.go` `type encbuf struct` -/
structure EncBuf where
  str : List UInt8
  lheads : List ListHead
  lhsize : Nat
  deriving DecidableEq, Repr

namespace EncBuf

/-- The buffer `reset` leaves: nothing written, no lists. -/
def empty : EncBuf := ⟨[], [], 0⟩

/-- `encbuf.size`: the length of the encoding so far, closed headers included.
Source: `process/encode.go` `encbuf.size` -/
def size (w : EncBuf) : Nat := w.str.length + w.lhsize

/-- `encbuf.Write`: append to `str`.
Source: `process/encode.go` `encbuf.Write` -/
def write (w : EncBuf) (b : List UInt8) : EncBuf := { w with str := w.str ++ b }

/-- `encbuf.encodeStringHeader`: the source writes `puthead`'s bytes for the tags `0x80` and
`0xB7` through `sizebuf`.
Source: `process/encode.go` `encbuf.encodeStringHeader` -/
def encodeStringHeader (w : EncBuf) (size : Nat) : EncBuf := w.write (puthead 0x80 0xB7 size)

/-- `encbuf.encodeString`: one byte up to `0x7F` as itself, anything else after its header.
Source: `process/encode.go` `encbuf.encodeString` -/
def encodeString (w : EncBuf) (b : List UInt8) : EncBuf :=
  if b.length = 1 ∧ b.headD 0 ≤ 0x7F then w.write b
  else (w.encodeStringHeader b.length).write b

/-- `encbuf.list`: open a list at the current end of `str`. The source returns a pointer to the
new head; here it is the head's index in `lheads`.
Source: `process/encode.go` `encbuf.list` -/
def list (w : EncBuf) : EncBuf × Nat :=
  ({ w with lheads := w.lheads ++ [⟨w.str.length, w.lhsize⟩] }, w.lheads.length)

/-- `encbuf.listEnd`: close the list with head `lh`. Its content is everything written since it
opened, headers of closed nested lists included; its own header is counted into `lhsize`
(`headsize`, written out in the source).
Source: `process/encode.go` `encbuf.listEnd` -/
def listEnd (w : EncBuf) (lh : Nat) : EncBuf :=
  let head := w.lheads.getD lh ⟨0, 0⟩
  let size := w.size - head.offset - head.size
  { w with lheads := w.lheads.set lh ⟨head.offset, size⟩, lhsize := w.lhsize + headsize size }

/-- The loop of `toBytes` from position `strpos` of `str`, over the heads still to place: copy
`str` up to the next head's offset, write that head, and go on from its offset; after the last
head copy the rest. -/
def toBytesLoop (str : List UInt8) : List ListHead → Nat → List UInt8
  | [], strpos => str.drop strpos
  | head :: heads, strpos =>
    (str.drop strpos).take (head.offset - strpos) ++ head.encode ++ toBytesLoop str heads head.offset

/-- `encbuf.toBytes`: `str` with every list header in place. The source copies into an array of
`size()` bytes; here the pieces are appended.
Source: `process/encode.go` `encbuf.toBytes` -/
def toBytes (w : EncBuf) : List UInt8 := toBytesLoop w.str w.lheads 0

end EncBuf

/-! ### Writers -/

/-- The error of the writers modelled here: `writeBigInt` refuses a negative number. -/
inductive EncodeError where
  | negativeBigInt
  deriving DecidableEq, Repr

/-- `writeBytes`: a `[]byte`.
Source: `process/encode.go` `writeBytes` -/
def writeBytes (b : List UInt8) (w : EncBuf) : EncBuf := w.encodeString b

/-- `writeString`: a `string`, as its bytes. The source repeats `encodeString`'s code.
Source: `process/encode.go` `writeString` -/
def writeString (s : List UInt8) (w : EncBuf) : EncBuf := w.encodeString s

/-- `writeRawValue`: a `RawValue` is copied as it is.
Source: `process/raw.go`, `process/encode.go` `writeRawValue` -/
def writeRawValue (r : List UInt8) (w : EncBuf) : EncBuf := w.write r

/-- `writeUint`: zero as the empty string, a number below 128 as its byte, any other as the
string of its `putint` bytes.
Source: `process/encode.go` `writeUint` -/
def writeUint (i : UInt64) (w : EncBuf) : EncBuf :=
  if i = 0 then w.write [0x80]
  else if i < 128 then w.write [i.toUInt8]
  else w.write ((0x80 + UInt8.ofNat (putint i.toNat).length) :: putint i.toNat)

/-- `writeBigInt`: a negative number is refused, zero is the empty string, any other number is
the string of its shortest big-endian form (`i.Bytes()`).
Source: `process/encode.go` `writeBigInt` -/
def writeBigInt (i : Int) (w : EncBuf) : Except EncodeError EncBuf :=
  if i < 0 then .error .negativeBigInt
  else if i = 0 then .ok (w.write [0x80])
  else .ok (w.encodeString (minBytes i.toNat))

/-- `writeBigIntPtr`: a nil `*big.Int` is written as zero.
Source: `process/encode.go` `writeBigIntPtr` -/
def writeBigIntPtr (ptr : Option Int) (w : EncBuf) : Except EncodeError EncBuf :=
  match ptr with
  | none => .ok (w.write [0x80])
  | some i => writeBigInt i w

mutual

/-- `writeInterface` on a value: a byte string goes to `writeBytes`; a list goes to the writer
`makeSliceWriter` makes for `[]interface{}`, which opens a list, writes every element with
`writeInterface` and closes the list (`defer w.listEnd(w.list())`).
Source: `process/encode.go` `writeInterface`, `makeSliceWriter` -/
def writeInterface : Value → EncBuf → EncBuf
  | .bytes b, w => writeBytes b w
  | .list vs, w =>
    let (w, lh) := w.list
    (writeElems vs w).listEnd lh

/-- The element loop of the slice writer. -/
def writeElems : List Value → EncBuf → EncBuf
  | [], w => w
  | v :: vs, w => writeElems vs (writeInterface v w)

end

/-- `EncodeToBytes`: run a value's writer on a reset buffer and lay the buffer out. The writer
is the one `cachedTypeInfo` picks for the value's type.
Source: `process/encode.go` `EncodeToBytes` -/
def encodeToBytes {α : Type} (writer : α → EncBuf → Except EncodeError EncBuf) (val : α) :
    Except EncodeError (List UInt8) :=
  match writer val EncBuf.empty with
  | .ok w => .ok w.toBytes
  | .error e => .error e

/-! ### Layouts -/

/-- The head of a list that starts `n` bytes further into `str`. -/
def ListHead.shift (n : Nat) (head : ListHead) : ListHead := ⟨head.offset + n, head.size⟩

@[simp] theorem ListHead.encode_shift (n : Nat) (head : ListHead) :
    (head.shift n).encode = head.encode := rfl

namespace EncBuf

/-- `w` followed by the closed buffer `L`: `L`'s bytes after `w`'s, its heads moved along. -/
def extend (w L : EncBuf) : EncBuf :=
  ⟨w.str ++ L.str, w.lheads ++ L.lheads.map (ListHead.shift w.str.length), w.lhsize + L.lhsize⟩

/-- The closed buffer of a list whose elements were written on their own into `E`: a head at the
start holding the size of `E`, and that head's header counted. -/
def closeList (E : EncBuf) : EncBuf :=
  ⟨E.str, ⟨0, E.size⟩ :: E.lheads, E.lhsize + headsize E.size⟩

/-- Every head lies within `str`. -/
def HeadsIn (w : EncBuf) : Prop := ∀ head ∈ w.lheads, head.offset ≤ w.str.length

@[simp] theorem extend_empty (w : EncBuf) : w.extend empty = w := by
  simp [extend, empty]

@[simp] theorem empty_extend (L : EncBuf) : empty.extend L = L := by
  have : ListHead.shift 0 = id := funext fun head => rfl
  simp [extend, empty, this]

theorem extend_assoc (w L M : EncBuf) : (w.extend L).extend M = w.extend (L.extend M) := by
  have : ∀ head : ListHead, (head.shift L.str.length).shift w.str.length =
      head.shift (w.str ++ L.str).length := fun head => by
    simp only [ListHead.shift, List.length_append, ListHead.mk.injEq, and_true]
    omega
  simp [extend, List.map_map, Function.comp_def, this, Nat.add_assoc]

theorem write_eq_extend (w : EncBuf) (b : List UInt8) : w.write b = w.extend ⟨b, [], 0⟩ := by
  simp [write, extend]

theorem encodeString_eq_extend (w : EncBuf) (b : List UInt8) :
    w.encodeString b = w.extend (empty.encodeString b) := by
  unfold encodeString encodeStringHeader
  split
  · rw [write_eq_extend, write_eq_extend empty, empty_extend]
  · rw [write_eq_extend, write_eq_extend, write_eq_extend empty, write_eq_extend (empty.extend _),
      empty_extend, extend_assoc]

/-- Closing a list opened on `w` whose elements wrote the closed buffer `E`. -/
theorem list_extend_listEnd (w E : EncBuf) :
    (w.list.1.extend E).listEnd w.list.2 = w.extend E.closeList := by
  have hget : (w.lheads ++ [(⟨w.str.length, w.lhsize⟩ : ListHead)] ++
      E.lheads.map (ListHead.shift w.str.length)).getD w.lheads.length ⟨0, 0⟩ =
      ⟨w.str.length, w.lhsize⟩ := by
    simp [List.getD_eq_getElem?_getD]
  simp only [list, extend, listEnd, hget, closeList, size, List.length_append]
  have hsize : w.str.length + E.str.length + (w.lhsize + E.lhsize) - w.str.length - w.lhsize =
      E.str.length + E.lhsize := by omega
  rw [hsize, List.append_assoc, List.set_append_right _ _ (Nat.le_refl _), Nat.sub_self]
  simp [ListHead.shift, Nat.add_assoc]

/-! Laying out a buffer followed by another. -/

theorem toBytesLoop_shift (s₁ s₂ : List UInt8) :
    ∀ (heads : List ListHead) (q : Nat),
      toBytesLoop (s₁ ++ s₂) (heads.map (ListHead.shift s₁.length)) (s₁.length + q) =
        toBytesLoop s₂ heads q
  | [], q => List.drop_length_add_append q
  | head :: heads, q => by
    simp only [List.map_cons, toBytesLoop, ListHead.encode_shift, List.drop_length_add_append]
    have hoff : (head.shift s₁.length).offset = s₁.length + head.offset := by
      simp [ListHead.shift, Nat.add_comm]
    rw [hoff, toBytesLoop_shift s₁ s₂ heads head.offset]
    congr 3
    omega

theorem toBytesLoop_shift_of_le {s₁ : List UInt8} (s₂ : List UInt8) (heads : List ListHead)
    {p : Nat} (hp : p ≤ s₁.length) :
    toBytesLoop (s₁ ++ s₂) (heads.map (ListHead.shift s₁.length)) p =
      s₁.drop p ++ toBytesLoop s₂ heads 0 := by
  cases heads with
  | nil => exact List.drop_append_of_le_length hp
  | cons head heads =>
    simp only [List.map_cons, toBytesLoop, ListHead.encode_shift, List.drop_zero, Nat.sub_zero]
    have hoff : (head.shift s₁.length).offset = s₁.length + head.offset := by
      simp [ListHead.shift, Nat.add_comm]
    rw [hoff, toBytesLoop_shift, List.drop_append_of_le_length hp, List.take_append,
      List.take_of_length_le (by simp; omega), List.length_drop]
    have : s₁.length + head.offset - p - (s₁.length - p) = head.offset := by omega
    rw [this]
    simp only [List.append_assoc]

theorem toBytesLoop_append {s₁ : List UInt8} (s₂ : List UInt8) :
    ∀ {h₁ : List ListHead} (h₂ : List ListHead) {p : Nat},
      (∀ head ∈ h₁, head.offset ≤ s₁.length) → p ≤ s₁.length →
      toBytesLoop (s₁ ++ s₂) (h₁ ++ h₂.map (ListHead.shift s₁.length)) p =
        toBytesLoop s₁ h₁ p ++ toBytesLoop s₂ h₂ 0
  | [], h₂, p, _, hp => by
    rw [List.nil_append, toBytesLoop_shift_of_le s₂ h₂ hp]
    rfl
  | head :: heads, h₂, p, hin, hp => by
    have hhead : head.offset ≤ s₁.length := hin head List.mem_cons_self
    simp only [List.cons_append, toBytesLoop]
    rw [toBytesLoop_append s₂ h₂ (fun h hh => hin h (List.mem_cons_of_mem _ hh)) hhead,
      List.drop_append_of_le_length hp, List.take_append_of_le_length (by simp; omega)]
    simp only [List.append_assoc]

theorem toBytes_extend {w : EncBuf} (hw : w.HeadsIn) (L : EncBuf) :
    (w.extend L).toBytes = w.toBytes ++ L.toBytes :=
  toBytesLoop_append L.str L.lheads hw (Nat.zero_le _)

end EncBuf

open EncBuf

/-- `L` is laid out as `bytes`: its bytes are `bytes`, its size is their length, and its heads
lie within its string. -/
structure Lays (L : EncBuf) (bytes : List UInt8) : Prop where
  toBytes_eq : L.toBytes = bytes
  size_eq : L.size = bytes.length
  headsIn : L.HeadsIn

theorem Lays.extend {L M : EncBuf} {x y : List UInt8} (hL : Lays L x) (hM : Lays M y) :
    Lays (L.extend M) (x ++ y) where
  toBytes_eq := by rw [toBytes_extend hL.headsIn, hL.toBytes_eq, hM.toBytes_eq]
  size_eq := by
    have h1 := hL.size_eq
    have h2 := hM.size_eq
    simp only [size, EncBuf.extend, List.length_append] at h1 h2 ⊢
    omega
  headsIn := by
    intro head hhead
    simp only [EncBuf.extend, List.mem_append, List.mem_map, List.length_append] at hhead ⊢
    rcases hhead with hhead | ⟨head', hhead', rfl⟩
    · have := hL.headsIn head hhead; omega
    · have := hM.headsIn head' hhead'; simp only [ListHead.shift]; omega

theorem Lays.closeList {E : EncBuf} {x : List UInt8} (hE : Lays E x) (hx : x.length < 2 ^ 64) :
    Lays E.closeList (header 0xC0 0xF7 x.length ++ x) where
  toBytes_eq := by
    simp only [EncBuf.closeList, toBytes, toBytesLoop, ListHead.encode, List.drop_zero,
      Nat.zero_sub, List.take_zero, List.nil_append]
    rw [hE.size_eq, puthead_eq_header _ _ hx]
    exact congrArg _ hE.toBytes_eq
  size_eq := by
    have h := hE.size_eq
    simp only [size, EncBuf.closeList, List.length_append] at h ⊢
    rw [h, ← length_puthead 0xC0 0xF7 hx, puthead_eq_header _ _ hx]
    omega
  headsIn := by
    intro head hhead
    simp only [EncBuf.closeList, List.mem_cons] at hhead ⊢
    rcases hhead with rfl | hhead
    · exact Nat.zero_le _
    · exact hE.headsIn head hhead

theorem lays_write (b : List UInt8) : Lays ⟨b, [], 0⟩ b :=
  ⟨List.drop_zero, by simp [size], by simp [HeadsIn]⟩

/-- On its own, `encodeString` lays out the format's encoding of the byte string. -/
theorem encodeString_empty {b : List UInt8} (hb : b.length < 2 ^ 64) :
    empty.encodeString b = ⟨encodeBytes b, [], 0⟩ := by
  unfold encodeString encodeStringHeader
  split
  · rename_i h
    obtain ⟨c, rfl⟩ : ∃ c, b = [c] := List.length_eq_one_iff.mp h.1
    have hc : c < 0x80 := by
      have := h.2
      simp only [List.headD_cons, UInt8.le_iff_toNat_le, UInt8.reduceToNat] at this
      simp only [UInt8.lt_iff_toNat_lt, UInt8.reduceToNat]
      omega
    simp [write, empty, encodeBytes, hc]
  · rename_i h
    rw [puthead_eq_header _ _ hb]
    have : encodeBytes b = header 0x80 0xB7 b.length ++ b := by
      apply encodeBytes_of_not_single
      intro c hc
      subst hc
      simp only [List.length_singleton, List.headD_cons, true_and, UInt8.le_iff_toNat_le,
        UInt8.reduceToNat] at h
      simp only [UInt8.le_iff_toNat_le, UInt8.reduceToNat]
      omega
    simp [write, empty, this]

mutual

/-- Writing a value appends the layout it has on its own. -/
theorem writeInterface_eq_extend : ∀ (v : Value) (w : EncBuf),
    writeInterface v w = w.extend (writeInterface v .empty)
  | .bytes b, w => encodeString_eq_extend w b
  | .list vs, w => by
    show (writeElems vs w.list.1).listEnd w.list.2 =
      w.extend ((writeElems vs empty.list.1).listEnd empty.list.2)
    rw [writeElems_eq_extend vs w.list.1, writeElems_eq_extend vs empty.list.1,
      list_extend_listEnd, list_extend_listEnd, empty_extend]

theorem writeElems_eq_extend : ∀ (vs : List Value) (w : EncBuf),
    writeElems vs w = w.extend (writeElems vs .empty)
  | [], w => by simp [writeElems]
  | v :: vs, w => by
    simp only [writeElems]
    rw [writeElems_eq_extend vs (writeInterface v w), writeInterface_eq_extend v w,
      writeElems_eq_extend vs (writeInterface v .empty), extend_assoc]

end

theorem writeInterface_list (vs : List Value) :
    writeInterface (.list vs) .empty = (writeElems vs .empty).closeList := by
  show (writeElems vs empty.list.1).listEnd empty.list.2 = _
  rw [writeElems_eq_extend, list_extend_listEnd, empty_extend]

mutual

/-- A value written on its own is laid out as its encoding. The induction follows the tree:
a byte string is `encodeString`, a list closes the layout of its elements, and the elements
lay out side by side. -/
theorem lays_writeInterface : ∀ v : Value, v.encode.length < 2 ^ 64 →
    Lays (writeInterface v .empty) v.encode
  | .bytes b, h => by
    rw [encode_bytes] at h ⊢
    have hb : b.length < 2 ^ 64 := Nat.lt_of_le_of_lt (length_le_encodeBytes b) h
    show Lays (empty.encodeString b) _
    rw [encodeString_empty hb]
    exact lays_write _
  | .list vs, h => by
    rw [encode_list] at h ⊢
    have hvs : (Value.encodeAll vs).length < 2 ^ 64 := by simp at h; omega
    rw [writeInterface_list]
    exact (lays_writeElems vs hvs).closeList hvs

theorem lays_writeElems : ∀ vs : List Value, (Value.encodeAll vs).length < 2 ^ 64 →
    Lays (writeElems vs .empty) (Value.encodeAll vs)
  | [], _ => by
    rw [encodeAll_nil]
    exact lays_write []
  | v :: vs, h => by
    rw [encodeAll_cons] at h ⊢
    simp only [List.length_append] at h
    simp only [writeElems]
    rw [writeElems_eq_extend]
    exact (lays_writeInterface v (by omega)).extend (lays_writeElems vs (by omega))

end

/-- `EncodeToBytes` of a value is its encoding: the deferred list headers land where the format
puts them. -/
theorem encodeToBytes_writeInterface (v : Value) (h : v.encode.length < 2 ^ 64) :
    encodeToBytes (fun v w => .ok (writeInterface v w)) v = .ok v.encode := by
  simp only [encodeToBytes]
  rw [(lays_writeInterface v h).toBytes_eq]

/-- A number below 256 is one byte. -/
theorem minBytes_of_lt {n : Nat} (hpos : 0 < n) (hlt : n < 256) : minBytes n = [UInt8.ofNat n] := by
  rw [minBytes, byteCount_eq_of_le_of_lt (k := 0) (by simp; omega) (by simpa using hlt)]
  simp [bytesBE_succ]

/-- `writeUint` writes the encoding of the number's value. -/
theorem writeUint_empty (i : UInt64) :
    writeUint i .empty = ⟨(Value.ofNat i.toNat).encode, [], 0⟩ := by
  unfold writeUint
  by_cases h0 : i = 0
  · subst h0
    rfl
  have hpos : 0 < i.toNat := by
    rcases Nat.eq_zero_or_pos i.toNat with h | h
    · exact absurd (UInt64.toNat_inj.mp (h.trans UInt64.toNat_zero.symm)) h0
    · exact h
  rw [if_neg h0, Value.ofNat, encode_bytes]
  by_cases h128 : i < 128
  · -- one byte below `0x80` is written as itself
    have hlt : i.toNat < 128 := UInt64.lt_iff_toNat_lt.mp h128
    have hc : UInt8.ofNat i.toNat < 0x80 := by
      simp only [UInt8.lt_iff_toNat_lt, UInt8.toNat_ofNat', UInt8.reduceToNat]
      omega
    rw [if_pos h128, minBytes_of_lt hpos (by omega)]
    show (⟨[] ++ [UInt8.ofNat i.toNat], [], 0⟩ : EncBuf) = ⟨encodeBytes [UInt8.ofNat i.toNat], [], 0⟩
    simp only [encodeBytes, hc, if_true, List.nil_append]
  · -- anything else is the string of its `putint` bytes, which are its shortest form
    have hge : 128 ≤ i.toNat := by
      have := UInt64.lt_iff_toNat_lt.not.mp h128
      simp only [UInt64.reduceToNat, Nat.not_lt] at this
      exact this
    have h8 : byteCount i.toNat ≤ 8 := byteCount_le_of_lt_pow (by simpa using i.toNat_lt)
    rw [if_neg h128, putint_eq_minBytes hpos i.toNat_lt, encodeBytes_of_not_single]
    · simp [EncBuf.write, EncBuf.empty, header, show byteCount i.toNat < 56 by omega]
    · intro c hc
      have := ofBytesBE_minBytes i.toNat
      rw [hc, ofBytesBE_cons, List.length_nil, Nat.pow_zero, Nat.mul_one, ofBytesBE_nil,
        Nat.add_zero] at this
      simp only [UInt8.le_iff_toNat_le, UInt8.reduceToNat]
      omega

theorem encodeToBytes_writeUint (i : UInt64) :
    encodeToBytes (fun i w => .ok (writeUint i w)) i = .ok (Value.ofNat i.toNat).encode := by
  simp only [encodeToBytes, writeUint_empty]
  exact congrArg _ (lays_write _).toBytes_eq

/-- `writeBigInt` on a number that is not negative writes the encoding of its value. -/
theorem encodeToBytes_writeBigIntPtr {i : Int} (h0 : 0 ≤ i)
    (hlen : (minBytes i.toNat).length < 2 ^ 64) :
    encodeToBytes writeBigIntPtr (some i) = .ok (Value.ofNat i.toNat).encode := by
  simp only [encodeToBytes, writeBigIntPtr, writeBigInt, Int.not_lt.mpr h0, if_false]
  by_cases hz : i = 0
  · subst hz
    rfl
  · simp only [if_neg hz, encodeString_empty hlen, Value.ofNat, encode_bytes]
    exact congrArg Except.ok (lays_write _).toBytes_eq

end EpvChain.Rlp
