import EpvChain.Process.Reading
import Mathlib

/-!
# The stream decoder reads back every encoding (`process/decode.go`)

`decodeInterface` reads every value back from its encoding, at any depth and from any stream
that is positioned at the encoding and has room for it, and stops right after it
(`decodeInterface_encode`). The element loop and the list decoder are proved once, for any
element decoder that reads each element and reports the end of a list at its end. The typed
decoders follow. `Advanced s s' n` says where a stream is after `n` more bytes.
-/

namespace EpvChain.Rlp

open Lib

namespace Stream

/-- `s'` is where `s` is after `n` more bytes: the input, the limit and the open lists. -/
structure Advanced (s s' : Stream) (n : Nat) : Prop where
  input_eq : s'.input = s.input.drop n
  remaining_eq : s'.remaining = if s.limited then s.remaining - n else s.remaining
  limited_eq : s'.limited = s.limited
  stack_eq : s'.stack = advanceTop s.stack n

theorem Advanced.refl (s : Stream) : Advanced s s 0 where
  input_eq := (List.drop_zero).symm
  remaining_eq := by split <;> simp
  limited_eq := rfl
  stack_eq := (advanceTop_zero _).symm

theorem advanced_consume (s : Stream) (n : Nat) : Advanced s (s.consume n) n :=
  ⟨rfl, rfl, rfl, rfl⟩

theorem Advanced.trans {s₁ s₂ s₃ : Stream} {m n : Nat} (h₁ : Advanced s₁ s₂ m)
    (h₂ : Advanced s₂ s₃ n) : Advanced s₁ s₃ (m + n) where
  input_eq := by rw [h₂.input_eq, h₁.input_eq, List.drop_drop]
  remaining_eq := by
    rw [h₂.remaining_eq, h₁.limited_eq, h₁.remaining_eq]
    cases s₁.limited <;> simp [Nat.sub_sub]
  limited_eq := h₂.limited_eq.trans h₁.limited_eq
  stack_eq := by rw [h₂.stack_eq, h₁.stack_eq, advanceTop_advanceTop]

/-- Room that was left beyond the bytes read is still there. -/
theorem Advanced.room {s s₁ : Stream} {m n : Nat} (h : Advanced s s₁ m) (hr : s.Room (m + n)) :
    s₁.Room n := by
  have := (Iff.mp room_add_iff hr).2
  unfold Room at this ⊢
  rw [h.stack_eq, h.limited_eq, h.remaining_eq]
  exact this

/-- The input after the bytes read is what followed them. -/
theorem Advanced.input_of_append {s s₁ : Stream} {x rest : List UInt8} (h : Advanced s s₁ x.length)
    (hin : s.input = x ++ rest) : s₁.input = rest := by
  rw [h.input_eq, hin, List.drop_left]

/-- Entering a list of `size` bytes, reading all of it and leaving it advances the enclosing
stream by `size`. -/
theorem Advanced.listEnd {s s₄ : Stream} {size : Nat}
    (h : Advanced { s with stack := ⟨0, size⟩ :: s.stack, kind := none, size := 0 } s₄ size) :
    s₄.listEnd = (.ok (), { s₄ with stack := advanceTop s.stack size, kind := none, size := 0 }) ∧
      Advanced s { s₄ with stack := advanceTop s.stack size, kind := none, size := 0 } size := by
  have hst : s₄.stack = ⟨0 + size, size⟩ :: s.stack := h.stack_eq
  refine ⟨Iff.mpr listEnd_eq_ok ⟨⟨size, size⟩, by simp [hst], rfl, by simp [hst]⟩, ?_⟩
  exact ⟨h.input_eq, h.remaining_eq, h.limited_eq, rfl⟩

/-- `Bytes` answers what `Kind` answered before it. -/
theorem bytes_eq_of_nextKind {s s₁ : Stream} {k : Kind} {size : Nat}
    (h : s.nextKind = ((k, size, none), s₁)) : s.bytes = s₁.bytes := by
  unfold bytes
  rw [h, nextKind_nextKind h (by simp)]

/-- `Bytes` reads back a byte string from its encoding. `Kind` announces a byte or a string,
and `Bytes` after it reads the whole encoding. -/
theorem bytes_encodeBytes {b : List UInt8} {s : Stream} {rest : List UInt8}
    (h64 : b.length < 2 ^ 64) (hk : s.kind = none) (hin : s.input = encodeBytes b ++ rest)
    (hroom : s.Room (encodeBytes b).length) :
    ∃ k size s₁, k ≠ .list ∧ s.nextKind = ((k, size, none), s₁) ∧
      ∃ s', s₁.bytes = (.ok b, s') ∧ s'.kind = none ∧ Advanced s s' (encodeBytes b).length := by
  by_cases hsingle : ∃ c, b = [c] ∧ c < 0x80
  · -- a byte below `0x80` is its own encoding, read by `Kind`
    obtain ⟨c, rfl, hc⟩ := hsingle
    have he : encodeBytes [c] = [c] := by simp [encodeBytes, hc]
    rw [he] at hin hroom ⊢
    have hnext := nextKind_single hk hc hroom (by simp [hin])
    have hb := bytes_of_byte (nextKind_nextKind hnext (by simp))
    exact ⟨_, _, _, by decide, hnext, _, hb, rfl, ⟨rfl, rfl, rfl, rfl⟩⟩
  · -- any other string: its header, then `Bytes` reads the content
    have hns : ∀ c, b = [c] → 0x80 ≤ c := fun c hb =>
      UInt8.not_lt.mp fun hc => hsingle ⟨c, hb, hc⟩
    have he : encodeBytes b = Kind.string.header b.length ++ b := encodeBytes_of_not_single hns
    rw [he] at hin hroom ⊢
    rw [List.length_append] at hroom ⊢
    rw [List.append_assoc] at hin
    have hnext := nextKind_header hk (by decide) h64 hroom (by simp [hin])
    have h₁ : Advanced s { s.consume (Kind.string.header b.length).length with
        byteval := 0, kind := some .string, size := b.length, kinderr := none }
        (Kind.string.header b.length).length := ⟨rfl, rfl, rfl, rfl⟩
    refine ⟨_, _, _, by decide, hnext, _,
      (bytes_eq_ok_of_string (nextKind_nextKind hnext (by simp))).mpr
        ⟨h₁.room hroom, by simp [hin], by simp [hin], ?_, rfl⟩, rfl,
      h₁.trans (advanced_consume _ _)⟩
    rintro ⟨hlen, hlt⟩
    obtain ⟨c, rfl⟩ := List.length_eq_one_iff.mp hlen
    have := hns c rfl
    simp only [List.headD_cons, UInt8.le_iff_toNat_le, UInt8.lt_iff_toNat_lt,
      UInt8.reduceToNat] at this hlt
    omega

end Stream

open EpvChain.Rlp.Stream

/-! ### The element loop and the list decoder, for any element decoder -/

section loop

variable {α : Type} (elemdec : Stream → Res α) (enc : α → List UInt8)

/-- The element decoder reads each of `vs` back from its encoding, from a stream with nothing
cached and room for it. -/
def ReadsEach (vs : List α) : Prop :=
  ∀ v ∈ vs, ∀ (s : Stream) (rest : List UInt8), s.kind = none → s.input = enc v ++ rest →
    s.Room (enc v).length →
    ∃ s', elemdec s = (.ok v, s') ∧ s'.kind = none ∧ Advanced s s' (enc v).length

/-- The element decoder reports the end of a list at its end, and reads nothing. -/
def StopsAtEnd : Prop :=
  ∀ s : Stream, s.kind = none → (∃ tos ∈ s.stack.head?, tos.pos = tos.size) →
    ∃ s', elemdec s = (.error .eol, s') ∧ s'.kind = none ∧ Advanced s s' 0

variable {elemdec enc}

/-- The element loop reads the elements of a list's content up to its end. The induction is on
the elements; the innermost list's position grows by each element's encoding. -/
theorem decodeSliceElems_complete (hend : StopsAtEnd elemdec) {vs : List α}
    (hdec : ReadsEach elemdec enc vs) :
    ∀ (fuel : Nat) (s : Stream) (rest : List UInt8) (pos size : Nat) (st : List ListPos),
      vs.length < fuel → s.kind = none → s.input = vs.flatMap enc ++ rest →
      s.stack = ⟨pos, size⟩ :: st → pos + (vs.flatMap enc).length = size →
      s.Room (vs.flatMap enc).length →
      ∃ s', decodeSliceElems elemdec fuel s = (.ok vs, s') ∧ s'.kind = none ∧
        Advanced s s' (vs.flatMap enc).length := by
  induction vs with
  | nil =>
    rintro (_ | fuel) s rest pos size st hlen hk - hst hsize -
    · exact absurd hlen (Nat.lt_irrefl 0)
    · obtain ⟨s', he, hk', hadv⟩ := hend s hk ⟨⟨pos, size⟩, by simp [hst], by simpa using hsize⟩
      exact ⟨s', by rw [decodeSliceElems, he], hk', hadv⟩
  | cons v vs ih =>
    rintro (_ | fuel) s rest pos size st hlen hk hin hst hsize hroom
    · exact absurd hlen (Nat.not_lt_zero _)
    have hlen' : ((v :: vs).flatMap enc).length = (enc v).length + (vs.flatMap enc).length := by
      simp
    rw [hlen'] at hroom hsize ⊢
    rw [List.flatMap_cons, List.append_assoc] at hin
    obtain ⟨s₁, hv, hk₁, h₁⟩ :=
      hdec v List.mem_cons_self s _ hk hin (Iff.mp room_add_iff hroom).1
    obtain ⟨s₂, hvs, hk₂, h₂⟩ :=
      ih (fun w hw => hdec w (List.mem_cons_of_mem v hw)) fuel s₁ rest (pos + (enc v).length)
        size st (by simpa using hlen) hk₁ (h₁.input_of_append hin) (by rw [h₁.stack_eq, hst]; rfl)
        (by omega) (h₁.room hroom)
    refine ⟨s₂, ?_, hk₂, h₁.trans h₂⟩
    rw [decodeSliceElems, hv]
    dsimp only
    rw [hvs]

/-- The list decoder reads a list whose header `Kind` has just announced, when the element
decoder reads each element and stops at the list's end. -/
theorem decodeListSlice_complete (hend : StopsAtEnd elemdec) {vs : List α}
    (hdec : ReadsEach elemdec enc vs) (hne : ∀ v ∈ vs, enc v ≠ []) {s : Stream}
    {rest : List UInt8} (h : s.nextKind = ((.list, (vs.flatMap enc).length, none), s))
    (hin : s.input = vs.flatMap enc ++ rest) (hroom : s.Room (vs.flatMap enc).length) :
    ∃ s', decodeListSlice elemdec s = (.ok vs, s') ∧ s'.kind = none ∧
      Advanced s s' (vs.flatMap enc).length := by
  rw [decodeListSlice, list_of_list h]
  dsimp only
  by_cases hL : (vs.flatMap enc).length = 0
  · -- an empty list: `ListEnd` at once
    obtain rfl : vs = [] := by
      rw [List.length_eq_zero_iff, List.flatMap_eq_nil_iff] at hL
      exact List.eq_nil_iff_forall_not_mem.mpr fun v hv => hne v hv (hL v hv)
    obtain ⟨hend', hadv⟩ := Advanced.listEnd (Advanced.refl
      { s with stack := ⟨0, 0⟩ :: s.stack, kind := none, size := 0 })
    refine ⟨_, ?_, rfl, hadv⟩
    simp only [List.flatMap_nil, List.length_nil]
    rw [if_pos trivial, hend']
  · -- the elements, then `ListEnd` at the list's end
    rw [if_neg hL]
    have hfuel : vs.length < (vs.flatMap enc ++ rest).length + 1 := by
      have : vs.length ≤ (vs.flatMap enc).length := by
        rw [List.length_flatMap, ← List.length_map (fun v => (enc v).length)]
        exact List.length_le_sum_of_one_le _ fun n hn => by
          obtain ⟨v, hv, rfl⟩ := List.mem_map.mp hn
          exact List.length_pos_of_ne_nil (hne v hv)
      simp only [List.length_append]
      omega
    obtain ⟨s₄, hvs, hk₄, h₄⟩ := decodeSliceElems_complete hend hdec (s.input.length + 1)
      { s with stack := ⟨0, (vs.flatMap enc).length⟩ :: s.stack, kind := none, size := 0 }
      rest 0 _ s.stack (by rw [hin]; exact hfuel) rfl hin rfl (Nat.zero_add _)
      ⟨by simp, hroom.2⟩
    obtain ⟨hend', hadv⟩ := Advanced.listEnd h₄
    refine ⟨_, ?_, rfl, hadv⟩
    rw [hvs]
    dsimp only
    rw [hend']

end loop

/-! ### `decodeInterface` -/

/-- At the end of a list `decodeInterface` reports it, and reads nothing. -/
theorem decodeInterface_at_end {s : Stream} (fuel : Nat) (hk : s.kind = none)
    (hend : ∃ tos ∈ s.stack.head?, tos.pos = tos.size) :
    decodeInterface (fuel + 1) s = (.error .eol, { s with kinderr := none }) := by
  rw [decodeInterface, nextKind_at_end hk hend]

theorem stopsAtEnd_decodeInterface (fuel : Nat) : StopsAtEnd (decodeInterface (fuel + 1)) :=
  fun s hk hend =>
    have h := Advanced.refl s
    ⟨_, decodeInterface_at_end fuel hk hend, hk, h.input_eq, h.remaining_eq, h.limited_eq, h.stack_eq⟩

/-- Every element of a list is shorter than the list's encoding. -/
theorem length_encode_lt_of_mem {v : Value} {vs : List Value} (hv : v ∈ vs) :
    v.encode.length < (Value.list vs).encode.length := by
  rw [encode_list, encodeAll_eq_flatMap, List.length_append]
  have hhead := List.length_pos_of_ne_nil (header_ne_nil 0xC0 0xF7 (vs.flatMap Value.encode).length)
  have : v.encode.length ≤ (vs.flatMap Value.encode).length :=
    (List.sublist_flatten_of_mem (List.mem_map_of_mem hv)).length_le
  omega

/-- `decodeInterface` reads every value back from its encoding, and stops right after it. Its
bound on the nesting needs only exceed the encoding's length. The induction is on that bound;
a list's elements are read with one less. -/
theorem decodeInterface_encode : ∀ (fuel : Nat) (v : Value) (s : Stream) (rest : List UInt8),
    v.encode.length < fuel → v.encode.length < 2 ^ 64 → s.kind = none →
    s.input = v.encode ++ rest → s.Room v.encode.length →
    ∃ s', decodeInterface fuel s = (.ok v, s') ∧ s'.kind = none ∧
      Advanced s s' v.encode.length
  | 0, _, _, _, hfuel, _, _, _, _ => absurd hfuel (Nat.not_lt_zero _)
  | fuel + 1, .bytes b, s, rest, _, h64, hk, hin, hroom => by
    rw [encode_bytes] at h64 hin hroom ⊢
    obtain ⟨k, size, s₁, hne, hnext, s', hb, hk', hadv⟩ :=
      bytes_encodeBytes (Nat.lt_of_le_of_lt (length_le_encodeBytes b) h64) hk hin hroom
    refine ⟨s', ?_, hk', hadv⟩
    rw [decodeInterface, hnext]
    cases k with
    | list => exact absurd rfl hne
    | byte | string =>
      dsimp only
      rw [hb]
  | fuel + 1, .list vs, s, rest, hfuel, h64, hk, hin, hroom => by
    -- the header, then the elements with one less bound
    rw [encode_list, encodeAll_eq_flatMap] at hfuel h64 hin hroom ⊢
    rw [List.length_append] at hfuel h64 hroom ⊢
    rw [List.append_assoc] at hin
    have hhead : 0 < (header 0xC0 0xF7 (vs.flatMap Value.encode).length).length :=
      List.length_pos_of_ne_nil (header_ne_nil _ _ _)
    have hnext := nextKind_header hk (k := .list) (by decide) (by omega) hroom
      (by rw [hin]; exact List.prefix_append _ _)
    have h₁ : Advanced s { s.consume (Kind.list.header (vs.flatMap Value.encode).length).length with
        byteval := 0, kind := some .list, size := (vs.flatMap Value.encode).length,
        kinderr := none } (Kind.list.header (vs.flatMap Value.encode).length).length :=
      ⟨rfl, rfl, rfl, rfl⟩
    have hdec : ReadsEach (decodeInterface fuel) Value.encode vs := by
      intro v hv s' rest' hk' hin' hroom'
      have hlt := length_encode_lt_of_mem hv
      rw [encode_list, encodeAll_eq_flatMap, List.length_append] at hlt
      exact decodeInterface_encode fuel v s' rest' (by omega) (by omega) hk' hin' hroom'
    obtain ⟨fuel', rfl⟩ : ∃ fuel', fuel = fuel' + 1 := ⟨fuel - 1, by omega⟩
    obtain ⟨s', hl, hk', h'⟩ := decodeListSlice_complete (stopsAtEnd_decodeInterface fuel') hdec
      (fun v _ => encode_ne_nil v) (nextKind_nextKind hnext (by simp)) (h₁.input_of_append hin)
      (h₁.room hroom)
    refine ⟨s', ?_, hk', h₁.trans h'⟩
    rw [decodeInterface, hnext]
    dsimp only
    rw [hl]

/-! ### `uint64` -/

namespace Stream

/-- `Uint` reads back the encoding `writeUint` gives a number, and stops right after it: a
number below `0x80` other than zero is its own byte, read by `Kind`; zero and every other number
are the string of their shortest big-endian form. -/
theorem uint_encode_ofNat {i : UInt64} {s : Stream} {rest : List UInt8} (hk : s.kind = none)
    (hin : s.input = (Value.ofNat i.toNat).encode ++ rest)
    (hroom : s.Room (Value.ofNat i.toNat).encode.length) :
    ∃ s', s.uint 64 = (.ok i, s') ∧ Advanced s s' (Value.ofNat i.toNat).encode.length := by
  rw [Value.ofNat, encode_bytes] at hin hroom ⊢
  by_cases hsmall : 0 < i.toNat ∧ i.toNat < 0x80
  · -- one byte below `0x80`
    have hc : UInt8.ofNat i.toNat < 0x80 := by
      simp only [UInt8.lt_iff_toNat_lt, UInt8.toNat_ofNat', UInt8.reduceToNat]
      omega
    have he : encodeBytes (minBytes i.toNat) = [UInt8.ofNat i.toNat] := by
      rw [minBytes_of_lt hsmall.1 (by omega)]
      simp only [encodeBytes, if_pos hc]
    rw [he] at hin hroom ⊢
    have hnext := nextKind_single hk hc hroom (by simp [hin])
    refine ⟨{ s.consume 1 with
      byteval := UInt8.ofNat i.toNat, kind := none, size := 0, kinderr := none }, ?_,
      ⟨rfl, rfl, rfl, rfl⟩⟩
    unfold uint
    rw [hnext]
    dsimp only
    have hne : UInt8.ofNat i.toNat ≠ 0 := by
      intro h0
      have := congrArg UInt8.toNat h0
      simp only [UInt8.toNat_ofNat', UInt8.reduceToNat] at this
      omega
    rw [if_neg hne]
    congr
    apply UInt64.toNat_inj.mp
    simp only [UInt8.toNat_toUInt64, UInt8.toNat_ofNat']
    omega
  · -- a string header, then the number's shortest form
    have hns : ∀ c, minBytes i.toNat = [c] → 0x80 ≤ c := by
      intro c hc
      have := ofBytesBE_minBytes i.toNat
      rw [hc, ofBytesBE_cons, List.length_nil, Nat.pow_zero, Nat.mul_one, ofBytesBE_nil,
        Nat.add_zero] at this
      simp only [UInt8.le_iff_toNat_le, UInt8.reduceToNat]
      rcases Nat.eq_zero_or_pos i.toNat with h0 | hpos
      · rw [h0, minBytes_zero] at hc
        cases hc
      · omega
    have h8 : byteCount i.toNat ≤ 8 := byteCount_le_of_lt_pow (by simpa using i.toNat_lt)
    have he : encodeBytes (minBytes i.toNat) =
        Kind.string.header (minBytes i.toNat).length ++ minBytes i.toNat :=
      encodeBytes_of_not_single hns
    rw [he] at hin hroom ⊢
    rw [List.length_append] at hroom ⊢
    rw [List.append_assoc] at hin
    have hnext := nextKind_header hk (by decide) (by simp; omega) hroom
      (by rw [hin]; exact List.prefix_append _ _)
    have h₁ : Advanced s { s.consume (Kind.string.header (minBytes i.toNat).length).length with
        byteval := 0, kind := some .string, size := (minBytes i.toNat).length, kinderr := none }
        (Kind.string.header (minBytes i.toNat).length).length := ⟨rfl, rfl, rfl, rfl⟩
    unfold uint
    rw [hnext]
    dsimp only
    rw [if_neg (by simp; omega)]
    rcases Nat.eq_zero_or_pos i.toNat with h0 | hpos
    · -- zero: the empty string
      have hi : i = 0 := UInt64.toNat_inj.mp (h0.trans UInt64.toNat_zero.symm)
      subst hi
      exact ⟨_, rfl, ⟨h₁.input_eq, h₁.remaining_eq, h₁.limited_eq, h₁.stack_eq⟩⟩
    · -- one to eight bytes, with no leading zero, of a number of `0x80` or more
      have hk' : 0 < (minBytes i.toNat).length := by simp; exact byteCount_pos hpos
      have hread := (@readUint_eq_ok _ _ _ i.toNat hk').mpr
        ⟨h₁.room hroom, by simp [hin], by simpa [hin] using fun _ => head_minBytes_ne_zero _,
          by simp [hin, ofBytesBE_minBytes], rfl⟩
      rw [hread]
      dsimp only
      rw [if_neg (by omega)]
      refine ⟨_, ?_, h₁.trans (advanced_consume _ _)⟩
      congr
      exact UInt64.ofNat_toNat

end Stream

/-- `rlp.Decode` of a `uint64` from a `bytes.Reader` that holds an encoding and anything after
it: the number, with the reader left at what follows. -/
theorem decodeUint_newStream (i : UInt64) (rest : List UInt8) :
    ∃ s', decodeUint (newStream ((Value.ofNat i.toNat).encode ++ rest) true 0) = (.ok i, s') ∧
      s'.input = rest := by
  obtain ⟨s', h, hadv⟩ := @Stream.uint_encode_ofNat i (newStream _ true 0) rest rfl rfl
    ⟨by simp [newStream], by simp [newStream]⟩
  exact ⟨s', h, by rw [hadv.input_eq]; simp [newStream]⟩

/-! ### `DecodeBytes` of `EncodeToBytes` -/

/-- A stream over the whole of `b`: nothing cached, and room for all of it. -/
theorem newStream_room (b : List UInt8) : (newStream b true b.length).Room b.length :=
  ⟨by simp [newStream], by simp only [newStream]; split <;> simp⟩

/-- A decoder that read all of the stream's input leaves nothing for `DecodeBytes` to refuse. -/
theorem decodeBytes_of_advanced {α : Type} {decoder : Stream → Res α} {b : List UInt8} {v : α}
    {s' : Stream} (hdec : decoder (newStream b true b.length) = (.ok v, s'))
    (hadv : Advanced (newStream b true b.length) s' b.length) : decodeBytes decoder b = .ok v := by
  have hend : s'.input = [] := by
    rw [hadv.input_eq]
    simp [newStream]
  simp [decodeBytes, hdec, hend]

/-- **RLP decoding inverts encoding.** `DecodeBytes` reads back what `EncodeToBytes` writes,
with nothing left over: every value as an `interface{}` (its encoding within the source's 64-bit
sizes), every `uint64`, and every big integer that is not negative (its bytes within them). -/
theorem decodeBytes_encodeToBytes :
    (∀ v : Value, v.encode.length < 2 ^ 64 →
      ∃ b, encodeToBytes (fun v w => .ok (writeInterface v w)) v = .ok b ∧
        decodeBytes decodeValue b = .ok v) ∧
    (∀ i : UInt64, ∃ b, encodeToBytes (fun i w => .ok (writeUint i w)) i = .ok b ∧
        decodeBytes decodeUint b = .ok i) ∧
    (∀ i : Int, 0 ≤ i → (minBytes i.toNat).length < 2 ^ 64 →
      ∃ b, encodeToBytes writeBigIntPtr (some i) = .ok b ∧
        decodeBytes decodeBigInt b = .ok (some i)) := by
  refine ⟨fun v h => ⟨_, encodeToBytes_writeInterface v h, ?_⟩,
    fun i => ⟨_, encodeToBytes_writeUint i, ?_⟩,
    fun i h0 hlen => ⟨_, encodeToBytes_writeBigIntPtr h0 hlen, ?_⟩⟩
  · -- a value: `decodeInterface` with a bound past the encoding's length
    obtain ⟨s', hdec, -, hadv⟩ := decodeInterface_encode (v.encode.length + 1) v
      (newStream v.encode true v.encode.length) [] (by omega) h rfl (by simp [newStream])
      (newStream_room _)
    exact decodeBytes_of_advanced hdec hadv
  · -- a `uint64`: `Uint` on the shortest form of its value
    obtain ⟨s', hdec, hadv⟩ := @Stream.uint_encode_ofNat i
      (newStream (Value.ofNat i.toNat).encode true (Value.ofNat i.toNat).encode.length) [] rfl
      (by simp [newStream]) (newStream_room _)
    have hdec' : decodeUint (newStream (Value.ofNat i.toNat).encode true
        (Value.ofNat i.toNat).encode.length) = (.ok i, s') := hdec
    exact decodeBytes_of_advanced hdec' hadv
  · -- a big integer: `Bytes`, then the check that the first byte is not zero
    rw [Value.ofNat, encode_bytes]
    obtain ⟨k, size, s₁, -, hnext, s', hb, -, hadv⟩ := bytes_encodeBytes hlen rfl
      (show (newStream _ _ _).input = encodeBytes (minBytes i.toNat) ++ [] by simp [newStream])
      (newStream_room (encodeBytes (minBytes i.toNat)))
    have hdec : decodeBigInt (newStream (encodeBytes (minBytes i.toNat)) true
        (encodeBytes (minBytes i.toNat)).length) = (.ok (some i), s') := by
      rw [decodeBigInt, bytes_eq_of_nextKind hnext, hb]
      simp only [if_neg (head_minBytes_ne_zero _), ofBytesBE_minBytes, Int.toNat_of_nonneg h0]
    exact decodeBytes_of_advanced hdec hadv

/-- A list of two strings, the number `1000`, and the big integer `2^64`. -/
theorem decodeBytes_encodeToBytes_samples :
    ((Value.list [.bytes [1, 2], .bytes []]).encode.length < 2 ^ 64 ∧
      ∃ b, encodeToBytes (fun v w => .ok (writeInterface v w)) (Value.list [.bytes [1, 2], .bytes []])
        = .ok b ∧ decodeBytes decodeValue b = .ok (.list [.bytes [1, 2], .bytes []])) ∧
    (∃ b, encodeToBytes (fun i w => .ok (writeUint i w)) (1000 : UInt64) = .ok b ∧
      decodeBytes decodeUint b = .ok 1000) ∧
    ((0 : Int) ≤ 2 ^ 64 ∧ (minBytes (2 ^ 64 : Int).toNat).length < 2 ^ 64 ∧
      ∃ b, encodeToBytes writeBigIntPtr (some (2 ^ 64 : Int)) = .ok b ∧
        decodeBytes decodeBigInt b = .ok (some (2 ^ 64))) :=
  ⟨⟨by decide, decodeBytes_encodeToBytes.1 _ (by decide)⟩, decodeBytes_encodeToBytes.2.1 _,
    ⟨by decide, by decide, decodeBytes_encodeToBytes.2.2 _ (by decide) (by decide)⟩⟩

end EpvChain.Rlp
