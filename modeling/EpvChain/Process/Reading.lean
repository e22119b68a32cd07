import EpvChain.Process.Decode

/-!
# What each read of the stream does

One lemma for each method of `Stream` says exactly when the method succeeds and what it leaves
behind. Both directions of the round trip rest on them: decoding an encoding runs each method
forward (`Stream.readKind_eq_ok` read right to left), and a successful decode pins the input to
an encoding (the same lemma read left to right).

* `Stream.Room s n` — the innermost list and the input limit both have `n` bytes left.
* `Stream.consume s n` — `s` after reading `n` bytes: the input shortened, the innermost list
  and the limit charged, and no kind cached.
* `Stream.Advanced s s' n` — `s'` stands where `s.consume n` stands. The two may differ only in
  the fields that only `Kind` reads back, and `Kind` rewrites those before it reads them.

A header is charged to the list that holds it, and so is everything inside a nested list when
that list ends. Reading `n` bytes thus always moves the innermost list on by `n`
(`advanceTop`), which is what lets the lemmas compose.
-/

namespace EpvChain.Rlp

open Lib

@[simp] theorem advanceTop_nil (n : Nat) : advanceTop [] n = [] := rfl

@[simp] theorem advanceTop_cons (tos : ListPos) (rest : List ListPos) (n : Nat) :
    advanceTop (tos :: rest) n = ⟨tos.pos + n, tos.size⟩ :: rest := rfl

@[simp] theorem advanceTop_zero (st : List ListPos) : advanceTop st 0 = st := by
  cases st <;> rfl

theorem advanceTop_advanceTop (st : List ListPos) (m n : Nat) :
    advanceTop (advanceTop st m) n = advanceTop st (m + n) := by
  cases st <;> simp [Nat.add_assoc]

namespace Stream

/-- `s` may read `n` more bytes: its innermost list and its input limit both have them. -/
def Room (s : Stream) (n : Nat) : Prop :=
  (∀ tos ∈ s.stack.head?, n ≤ tos.size - tos.pos) ∧ (s.limited = true → n ≤ s.remaining)

/-- `s` after reading `n` bytes: taken from the input, charged to the innermost list and the
input limit, with no kind cached. -/
def consume (s : Stream) (n : Nat) : Stream :=
  { s with input := s.input.drop n, stack := advanceTop s.stack n,
           remaining := if s.limited then s.remaining - n else s.remaining, kind := none }

@[simp] theorem input_consume (s : Stream) (n : Nat) : (s.consume n).input = s.input.drop n := rfl
@[simp] theorem stack_consume (s : Stream) (n : Nat) :
    (s.consume n).stack = advanceTop s.stack n := rfl
@[simp] theorem limited_consume (s : Stream) (n : Nat) : (s.consume n).limited = s.limited := rfl
@[simp] theorem kind_consume (s : Stream) (n : Nat) : (s.consume n).kind = none := rfl
@[simp] theorem byteval_consume (s : Stream) (n : Nat) : (s.consume n).byteval = s.byteval := rfl

theorem consume_consume (s : Stream) (m n : Nat) : (s.consume m).consume n = s.consume (m + n) := by
  cases s with
  | mk input remaining limited kind size byteval kinderr stack =>
    cases limited <;> simp [consume, List.drop_drop, advanceTop_advanceTop, Nat.sub_sub]

theorem room_add_iff {s : Stream} {m n : Nat} :
    s.Room (m + n) ↔ s.Room m ∧ (s.consume m).Room n := by
  cases s with
  | mk input remaining limited kind size byteval kinderr stack =>
    cases stack with
    | nil =>
      cases limited <;> simp [Room, consume]
      omega
    | cons tos rest =>
      cases limited <;> simp [Room, consume]
      · omega
      · constructor
        · intro h; omega
        · intro h; omega

theorem Room.mono {s : Stream} {m n : Nat} (h : s.Room n) (hmn : m ≤ n) : s.Room m :=
  ⟨fun tos htos => Nat.le_trans hmn (h.1 tos htos), fun hl => Nat.le_trans hmn (h.2 hl)⟩

theorem room_zero (s : Stream) : s.Room 0 :=
  ⟨fun _ _ => Nat.zero_le _, fun _ => Nat.zero_le _⟩

/-! ### Reading bytes -/

theorem willRead_eq_ok {s s' : Stream} {n : Nat} :
    s.willRead n = (.ok (), s') ↔ s.Room n ∧ s' = { s.consume n with input := s.input } := by
  cases s with
  | mk input remaining limited kind size byteval kinderr stack =>
    cases stack with
    | nil =>
      cases limited <;> by_cases h : remaining < n <;>
        simp [willRead, takeRemaining, Room, consume, h, eq_comm]
      omega
    | cons tos rest =>
      by_cases ht : tos.size - tos.pos < n
      · simp [willRead, Room, ht]
      · cases limited <;> by_cases h : remaining < n <;>
          simp [willRead, takeRemaining, Room, consume, h, ht, eq_comm] <;> omega

theorem readByte_eq_ok {s s' : Stream} {b : UInt8} :
    s.readByte = (.ok b, s') ↔ s.Room 1 ∧ s.input.head? = some b ∧ s' = s.consume 1 := by
  unfold readByte
  rcases hw : s.willRead 1 with ⟨_ | ⟨⟩, s₁⟩
  · have : ¬ s.Room 1 := fun hr => by
      have := (Iff.mpr willRead_eq_ok ⟨hr, rfl⟩).symm.trans hw
      simp at this
    simp [this]
  · obtain ⟨hroom, rfl⟩ := Iff.mp willRead_eq_ok hw
    cases hin : s.input with
    | nil => simp
    | cons c rest =>
      simp only [Prod.mk.injEq, Except.ok.injEq, List.head?_cons, Option.some.injEq]
      constructor
      · rintro ⟨rfl, rfl⟩
        exact ⟨hroom, rfl, by simp [consume, hin]⟩
      · rintro ⟨-, rfl, rfl⟩
        exact ⟨rfl, by simp [consume, hin]⟩

theorem readFull_eq_ok {s s' : Stream} {n : Nat} {bs : List UInt8} :
    s.readFull n = (.ok bs, s') ↔
      s.Room n ∧ n ≤ s.input.length ∧ bs = s.input.take n ∧ s' = s.consume n := by
  unfold readFull
  rcases hw : s.willRead n with ⟨_ | ⟨⟩, s₁⟩
  · have : ¬ s.Room n := fun hr => by
      have := (Iff.mpr willRead_eq_ok ⟨hr, rfl⟩).symm.trans hw
      simp at this
    simp [this]
  · obtain ⟨hroom, rfl⟩ := Iff.mp willRead_eq_ok hw
    dsimp only
    by_cases hlen : n ≤ s.input.length
    · rw [if_pos hlen]
      simp only [Prod.mk.injEq, Except.ok.injEq]
      constructor
      · rintro ⟨rfl, rfl⟩
        exact ⟨hroom, hlen, rfl, rfl⟩
      · rintro ⟨-, -, rfl, rfl⟩
        exact ⟨rfl, rfl⟩
    · simp [hlen]

/-- `readUint` of one to eight bytes: their big-endian value, refused with a leading zero when
there are two or more. -/
theorem readUint_eq_ok {s s' : Stream} {k v : Nat} (hk : 0 < k) :
    s.readUint k = (.ok v, s') ↔
      s.Room k ∧ k ≤ s.input.length ∧ (2 ≤ k → (s.input.take k).head? ≠ some 0) ∧
        v = ofBytesBE (s.input.take k) ∧ s' = s.consume k := by
  match k, hk with
  | 1, _ =>
    simp only [readUint]
    rcases hb : s.readByte with ⟨_ | b, s₁⟩
    · -- a failed read of one byte means there was no room or no input
      simp only [Prod.mk.injEq, reduceCtorEq, false_and, false_iff, not_and]
      intro hroom hlen
      obtain ⟨c, rest, hin⟩ := List.exists_cons_of_length_pos hlen
      have := (Iff.mpr readByte_eq_ok ⟨hroom, by rw [hin]; rfl, rfl⟩).symm.trans hb
      simp at this
    · obtain ⟨hroom, hhead, rfl⟩ := Iff.mp readByte_eq_ok hb
      obtain ⟨rest, hin⟩ : ∃ rest, s.input = b :: rest := by
        cases h : s.input with
        | nil => rw [h] at hhead; cases hhead
        | cons c rest => rw [h] at hhead; cases hhead; exact ⟨rest, rfl⟩
      simp [hin, hroom, eq_comm]
  | j + 2, _ =>
    simp only [readUint]
    rcases hf : s.readFull (j + 2) with ⟨_ | bs, s₁⟩
    · simp only [Prod.mk.injEq, reduceCtorEq, false_and, false_iff, not_and]
      intro hroom hlen
      have := (Iff.mpr readFull_eq_ok ⟨hroom, hlen, rfl, rfl⟩).symm.trans hf
      simp at this
    · obtain ⟨hroom, hlen, rfl, rfl⟩ := Iff.mp readFull_eq_ok hf
      by_cases h0 : (s.input.take (j + 2)).head? = some 0
      · simp [h0]
      · simp [h0, hroom, hlen, eq_comm]

/-! ### Reading a header -/

/-- A tag plus a number that stays below 256. -/
theorem toNat_tag_add {t : UInt8} {n : Nat} (h : t.toNat + n < 256) :
    (t + UInt8.ofNat n).toNat = t.toNat + n := by
  simp only [UInt8.toNat_add, UInt8.toNat_ofNat', Nat.reducePow]
  omega

/-- A byte minus a tag below it. -/
theorem toNat_sub_tag {b t : UInt8} (h : t.toNat ≤ b.toNat) : (b - t).toNat = b.toNat - t.toNat := by
  have := b.toNat_lt
  simp only [UInt8.toNat_sub, Nat.reducePow]
  omega

/-- The long form of a size: `m` bytes spelling at least 56, with no leading zero. -/
theorem readLongSize_eq_ok {s s' : Stream} {k k' : Kind} {m size : Nat} (hm : 0 < m) :
    s.readLongSize k m = ((k', size, none), s') ↔
      k' = k ∧ 56 ≤ size ∧ byteCount size = m ∧ s.Room m ∧ minBytes size <+: s.input ∧
        s' = s.consume m := by
  unfold readLongSize
  rcases hu : s.readUint m with ⟨_ | v, s₁⟩
  · -- the size could not be read, so no shortest form of `m` bytes stood there
    simp only [Prod.mk.injEq, reduceCtorEq, and_false, false_and, false_iff, not_and]
    rintro - - hcount hroom hpre -
    have hlen : (minBytes size).length = m := by rw [length_minBytes, hcount]
    have htake : s.input.take m = minBytes size := by
      rw [← hlen]; exact (List.prefix_iff_eq_take.mp hpre).symm
    have := (readUint_eq_ok hm).mpr ⟨hroom, hlen ▸ hpre.length_le,
      fun _ => htake ▸ head_minBytes_ne_zero size, by rw [htake, ofBytesBE_minBytes], rfl⟩
    simp [hu] at this
  · obtain ⟨hroom, hlen, hhead, rfl, rfl⟩ := (readUint_eq_ok hm).mp hu
    have hbslen : (s.input.take m).length = m := by simp; omega
    -- whatever size a header of `m` bytes announces, it is what the bytes read spell
    have hsize : ∀ size, byteCount size = m → minBytes size <+: s.input →
        size = ofBytesBE (s.input.take m) := by
      intro size hcount hpre
      have : s.input.take m = minBytes size := by
        rw [← hcount, ← length_minBytes]; exact (List.prefix_iff_eq_take.mp hpre).symm
      rw [this, ofBytesBE_minBytes]
    -- and the bytes read are the shortest form of that size
    have hmin : 56 ≤ ofBytesBE (s.input.take m) →
        minBytes (ofBytesBE (s.input.take m)) = s.input.take m := by
      intro h56
      apply minBytes_ofBytesBE
      by_cases h2 : 2 ≤ m
      · exact hhead h2
      · -- a single byte spelling 56 or more is not zero
        obtain ⟨c, hc⟩ : ∃ c, s.input.take m = [c] := List.length_eq_one_iff.mp (by omega)
        rw [hc] at h56 ⊢
        intro h0
        simp only [List.head?_cons, Option.some.injEq] at h0
        subst h0
        simp at h56
    dsimp only
    by_cases h56 : ofBytesBE (s.input.take m) < 56
    · simp only [h56, if_true, Prod.mk.injEq, reduceCtorEq, and_false, false_and, false_iff,
        not_and]
      rintro - h56' hcount - hpre -
      have := hsize size hcount hpre
      omega
    · simp only [h56, if_false, Prod.mk.injEq, and_true]
      constructor
      · rintro ⟨⟨rfl, rfl⟩, rfl⟩
        refine ⟨rfl, by omega, ?_, hroom, ?_, rfl⟩
        · rw [← length_minBytes, hmin (by omega), hbslen]
        · rw [hmin (by omega)]
          exact List.take_prefix _ _
      · rintro ⟨rfl, -, hcount, -, hpre, rfl⟩
        exact ⟨⟨rfl, (hsize size hcount hpre).symm⟩, rfl⟩

/-- `readKind` after its first byte, with the byte's ranges as numbers. -/
theorem readKind_of_readByte {s s₁ : Stream} {b : UInt8} (h : s.readByte = (.ok b, s₁)) :
    s.readKind =
      if b.toNat < 128 then ((.byte, 0, none), { s₁ with byteval := b })
      else if b.toNat < 184 then ((.string, b.toNat - 128, none), { s₁ with byteval := 0 })
      else if b.toNat < 192 then { s₁ with byteval := 0 }.readLongSize .string (b.toNat - 183)
      else if b.toNat < 248 then ((.list, b.toNat - 192, none), { s₁ with byteval := 0 })
      else { s₁ with byteval := 0 }.readLongSize .list (b.toNat - 247) := by
  have hb := b.toNat_lt
  simp only [readKind, h, UInt8.lt_iff_toNat_lt, UInt8.reduceToNat]
  by_cases h1 : b.toNat < 128
  · simp [h1]
  by_cases h2 : b.toNat < 184
  · simp [h1, h2, toNat_sub_tag (show (0x80 : UInt8).toNat ≤ b.toNat by simp; omega)]
  by_cases h3 : b.toNat < 192
  · simp [h1, h2, h3, toNat_sub_tag (show (0xB7 : UInt8).toNat ≤ b.toNat by simp; omega)]
  by_cases h4 : b.toNat < 248
  · simp [h1, h2, h3, h4, toNat_sub_tag (show (0xC0 : UInt8).toNat ≤ b.toNat by simp; omega)]
  · simp [h1, h2, h3, h4, toNat_sub_tag (show (0xF7 : UInt8).toNat ≤ b.toNat by simp; omega)]

/-- A header below 56 bytes is the one byte of its tag plus the size. -/
theorem header_short {small large b : UInt8} {size : Nat} (hs : size < 56)
    (hb : b.toNat = small.toNat + size) (h256 : small.toNat + size < 256) :
    header small large size = [b] := by
  simp only [header, hs, if_true, List.cons.injEq, and_true]
  exact UInt8.toNat_inj.mp (by rw [toNat_tag_add h256, hb])

/-- A header from 56 bytes on is its tag plus the length of the size's shortest form, then that
form. -/
theorem header_long {small large b : UInt8} {size : Nat} (hs : 56 ≤ size)
    (hb : b.toNat = large.toNat + byteCount size) (h256 : large.toNat + byteCount size < 256) :
    header small large size = b :: minBytes size := by
  simp only [header, show ¬ size < 56 by omega, if_false, List.cons.injEq, and_true]
  exact UInt8.toNat_inj.mp (by rw [toNat_tag_add h256, hb])

/-- A size whose shortest form fits in eight bytes is below `2 ^ 64`. -/
theorem lt_two_pow_of_byteCount_le {size : Nat} (h : byteCount size ≤ 8) : size < 2 ^ 64 :=
  Nat.lt_of_lt_of_le (lt_pow_byteCount size)
    ((Nat.pow_le_pow_right (by decide) h).trans (by decide))

theorem room_byteval {s : Stream} {b : UInt8} {n : Nat} :
    ({ s with byteval := b } : Stream).Room n ↔ s.Room n := Iff.rfl

/-- `readKind` reads a string or a list header exactly when the input starts with the shortest
header of that kind and size and there is room for it; the stream is then past the header. -/
theorem readKind_eq_ok {s s' : Stream} {k : Kind} {size : Nat} (hk : k ≠ .byte) :
    s.readKind = ((k, size, none), s') ↔
      size < 2 ^ 64 ∧ s.Room (k.header size).length ∧ k.header size <+: s.input ∧
        s' = { s.consume (k.header size).length with byteval := 0 } := by
  constructor
  · intro h
    rcases hb : s.readByte with ⟨_ | b, s₁⟩
    · -- a first byte that cannot be read is reported as a byte with an error
      simp [readKind, hb] at h
    obtain ⟨hroom, hhead, rfl⟩ := Iff.mp readByte_eq_ok hb
    obtain ⟨rest, hin⟩ : ∃ rest, s.input = b :: rest := by
      cases hi : s.input with
      | nil => rw [hi] at hhead; cases hhead
      | cons c rest => rw [hi] at hhead; cases hhead; exact ⟨rest, rfl⟩
    have hb256 := b.toNat_lt
    have hrest : (s.consume 1).input = rest := by simp [hin]
    rw [readKind_of_readByte hb] at h
    split_ifs at h with h1 h2 h3 h4
    · simp only [Prod.mk.injEq] at h
      exact absurd h.1.1.symm hk
    · -- a string below 56 bytes
      simp only [Prod.mk.injEq, and_true] at h
      obtain ⟨⟨rfl, rfl⟩, rfl⟩ := h
      have hh : Kind.string.header (b.toNat - 128) = [b] :=
        header_short (by omega) (by simp; omega) (by simp; omega)
      rw [hh, hin]
      exact ⟨by omega, hroom, List.prefix_append [b] rest, rfl⟩
    · -- a string from 56 bytes on
      obtain ⟨rfl, h56, hcount, hroom', hpre, rfl⟩ := (readLongSize_eq_ok (by omega)).mp h
      have hh : Kind.string.header size = b :: minBytes size :=
        header_long h56 (by simp; omega) (by simp; omega)
      have hlen : (b :: minBytes size).length = 1 + byteCount size := by simp [Nat.add_comm]
      rw [hh, hlen, hcount, hin]
      refine ⟨lt_two_pow_of_byteCount_le (by omega), Iff.mpr room_add_iff ⟨hroom, hroom'⟩,
        List.cons_prefix_cons.mpr ⟨rfl, by rw [← hrest]; exact hpre⟩, ?_⟩
      rw [← consume_consume s 1]
      generalize b.toNat - 183 = m
      rfl
    · -- a list below 56 bytes
      simp only [Prod.mk.injEq, and_true] at h
      obtain ⟨⟨rfl, rfl⟩, rfl⟩ := h
      have hh : Kind.list.header (b.toNat - 192) = [b] :=
        header_short (by omega) (by simp; omega) (by simp; omega)
      rw [hh, hin]
      exact ⟨by omega, hroom, List.prefix_append [b] rest, rfl⟩
    · -- a list from 56 bytes on
      obtain ⟨rfl, h56, hcount, hroom', hpre, rfl⟩ := (readLongSize_eq_ok (by omega)).mp h
      have hh : Kind.list.header size = b :: minBytes size :=
        header_long h56 (by simp; omega) (by simp; omega)
      have hlen : (b :: minBytes size).length = 1 + byteCount size := by simp [Nat.add_comm]
      rw [hh, hlen, hcount, hin]
      refine ⟨lt_two_pow_of_byteCount_le (by omega), Iff.mpr room_add_iff ⟨hroom, hroom'⟩,
        List.cons_prefix_cons.mpr ⟨rfl, by rw [← hrest]; exact hpre⟩, ?_⟩
      rw [← consume_consume s 1]
      generalize b.toNat - 247 = m
      rfl
  · rintro ⟨hsize, hroom, ⟨rest, hin⟩, rfl⟩
    have hc8 : byteCount size ≤ 8 := byteCount_le_of_lt_pow (by simpa using hsize)
    have hread : ∀ b tail, k.header size = b :: tail → s.readByte = (.ok b, s.consume 1) :=
      fun b tail hh => Iff.mpr readByte_eq_ok ⟨hroom.mono (by rw [hh]; simp), by rw [← hin, hh]; rfl, rfl⟩
    -- after the first byte of a long header, the size is read back from its shortest form
    have hlong : 56 ≤ size → ∀ b k', k.header size = b :: minBytes size →
        ({ s.consume 1 with byteval := 0 } : Stream).readLongSize k' (byteCount size) =
          ((k', size, none), { s.consume (k.header size).length with byteval := 0 }) := by
      intro h56 b k' hh
      have hlen : (k.header size).length = 1 + byteCount size := by rw [hh]; simp [Nat.add_comm]
      have hroom' : (s.consume 1).Room (byteCount size) := (Iff.mp room_add_iff (hlen ▸ hroom)).2
      have hpre : minBytes size <+: (s.consume 1).input := by
        rw [input_consume, ← hin, hh]
        simp
      rw [(readLongSize_eq_ok (s := { s.consume 1 with byteval := 0 })
        (byteCount_pos (by omega))).mpr ⟨rfl, h56, rfl, hroom', hpre, rfl⟩, hlen,
        ← consume_consume s 1]
      rfl
    cases k with
    | byte => exact absurd rfl hk
    | string =>
      by_cases h56 : size < 56
      · have hb : (0x80 + UInt8.ofNat size : UInt8).toNat = 128 + size :=
          toNat_tag_add (by simp; omega)
        have hh : Kind.string.header size = [0x80 + UInt8.ofNat size] :=
          header_short h56 (by rw [hb]; rfl) (by simp; omega)
        rw [readKind_of_readByte (hread _ [] hh), hb, if_neg (by omega), if_pos (by omega),
          show 128 + size - 128 = size by omega, hh]
        rfl
      · have hpos := byteCount_pos (show 0 < size by omega)
        have hb : (0xB7 + UInt8.ofNat (byteCount size) : UInt8).toNat = 183 + byteCount size :=
          toNat_tag_add (by simp; omega)
        have hh : Kind.string.header size = (0xB7 + UInt8.ofNat (byteCount size)) :: minBytes size :=
          header_long (by omega) (by rw [hb]; rfl) (by simp; omega)
        rw [readKind_of_readByte (hread _ _ hh), hb, if_neg (by omega), if_neg (by omega),
          if_pos (by omega), show 183 + byteCount size - 183 = byteCount size by omega,
          hlong (by omega) _ _ hh]
    | list =>
      by_cases h56 : size < 56
      · have hb : (0xC0 + UInt8.ofNat size : UInt8).toNat = 192 + size :=
          toNat_tag_add (by simp; omega)
        have hh : Kind.list.header size = [0xC0 + UInt8.ofNat size] :=
          header_short h56 (by rw [hb]; rfl) (by simp; omega)
        rw [readKind_of_readByte (hread _ [] hh), hb, if_neg (by omega), if_neg (by omega),
          if_neg (by omega), if_pos (by omega), show 192 + size - 192 = size by omega, hh]
        rfl
      · have hpos := byteCount_pos (show 0 < size by omega)
        have hb : (0xF7 + UInt8.ofNat (byteCount size) : UInt8).toNat = 247 + byteCount size :=
          toNat_tag_add (by simp; omega)
        have hh : Kind.list.header size = (0xF7 + UInt8.ofNat (byteCount size)) :: minBytes size :=
          header_long (by omega) (by rw [hb]; rfl) (by simp; omega)
        rw [readKind_of_readByte (hread _ _ hh), hb, if_neg (by omega), if_neg (by omega),
          if_neg (by omega), if_neg (by omega),
          show 247 + byteCount size - 247 = byteCount size by omega, hlong (by omega) _ _ hh]

/-- `readKind` reads a byte below `0x80` as a value of its own. -/
theorem readKind_eq_byte {s s' : Stream} {size : Nat} :
    s.readKind = ((.byte, size, none), s') ↔
      ∃ b : UInt8, b < 0x80 ∧ size = 0 ∧ s.Room 1 ∧ s.input.head? = some b ∧
        s' = { s.consume 1 with byteval := b } := by
  constructor
  · intro h
    rcases hb : s.readByte with ⟨_ | b, s₁⟩
    · simp [readKind, hb] at h
    obtain ⟨hroom, hhead, rfl⟩ := Iff.mp readByte_eq_ok hb
    rw [readKind_of_readByte hb] at h
    split_ifs at h with h1 h2 h3 h4
    · simp only [Prod.mk.injEq, true_and, and_true] at h
      obtain ⟨rfl, rfl⟩ := h
      exact ⟨b, UInt8.lt_iff_toNat_lt.mpr (by simpa using h1), rfl, hroom, hhead, rfl⟩
    all_goals first
      | (simp only [Prod.mk.injEq, reduceCtorEq, false_and] at h)
      | (obtain ⟨h', -⟩ := (readLongSize_eq_ok (by omega)).mp h; cases h')
  · rintro ⟨b, hb80, rfl, hroom, hhead, rfl⟩
    have hread : s.readByte = (.ok b, s.consume 1) := Iff.mpr readByte_eq_ok ⟨hroom, hhead, rfl⟩
    rw [readKind_of_readByte hread, if_pos (by simpa [UInt8.lt_iff_toNat_lt] using hb80)]

/-! ### The errors of reading -/

/-- The check passes whenever the content can be read. -/
theorem sizeErr_eq_none_of_room {s : Stream} {size : Nat} (h : s.Room size) :
    s.sizeErr size = none := by
  unfold sizeErr
  split
  · rw [if_neg]
    rintro ⟨hl, hlt⟩
    have := h.2 hl
    omega
  · rename_i tos rest hst
    rw [if_neg]
    have := h.1 tos (by simp [hst])
    omega

/-! ### `Kind` -/

theorem fetchKind_eq_ok {s s' : Stream} {k : Kind} {size : Nat} :
    s.fetchKind = ((k, size, none), s') ↔
      ∃ s₁, s.readKind = ((k, size, none), s₁) ∧ s₁.sizeErr size = none ∧
        s' = { s₁ with kind := some k, size := size, kinderr := none } := by
  constructor
  · intro h
    unfold fetchKind at h
    generalize hr : s.readKind = r at h
    rcases r with ⟨⟨k', size', _ | err⟩, s₁⟩
    · simp only [Prod.mk.injEq] at h
      obtain ⟨⟨rfl, rfl, he⟩, rfl⟩ := h
      exact ⟨s₁, rfl, he, by rw [he]⟩
    · simp only [Prod.mk.injEq, reduceCtorEq, and_false, false_and] at h
  · rintro ⟨s₁, hr, he, rfl⟩
    unfold fetchKind
    rw [hr]
    dsimp only
    rw [he]

/-- The answer `fetchKind` gives it caches. -/
theorem fetchKind_cache {s s' : Stream} {k : Kind} {size : Nat} {err : Option StreamError}
    (h : s.fetchKind = ((k, size, err), s')) :
    s'.kind = some k ∧ s'.size = size ∧ s'.kinderr = err := by
  unfold fetchKind at h
  generalize s.readKind = r at h
  rcases r with ⟨⟨k', size', _ | err'⟩, s₁⟩ <;>
    · simp only [Prod.mk.injEq] at h
      obtain ⟨⟨rfl, rfl, rfl⟩, rfl⟩ := h
      exact ⟨rfl, rfl, rfl⟩

theorem nextKind_of_some {s : Stream} {k : Kind} (hk : s.kind = some k) :
    s.nextKind = ((k, s.size, s.kinderr), s) := by
  simp only [nextKind, hk]

/-- With nothing cached and the innermost list not at its end, `Kind` reads a header. -/
theorem nextKind_of_none {s : Stream} (hk : s.kind = none)
    (hpos : ∀ tos ∈ s.stack.head?, tos.pos ≠ tos.size) :
    s.nextKind = { s with kinderr := none }.fetchKind := by
  unfold nextKind
  rw [hk]
  dsimp only
  cases hst : s.stack with
  | nil => rfl
  | cons tos rest =>
    dsimp only
    rw [if_neg (hpos tos (by simp [hst]))]

theorem nextKind_at_end {s : Stream} (hk : s.kind = none)
    (hend : ∃ tos ∈ s.stack.head?, tos.pos = tos.size) :
    s.nextKind = ((.byte, 0, some .eol), { s with kinderr := none }) := by
  obtain ⟨tos, htos, hpos⟩ := hend
  unfold nextKind
  rw [hk]
  dsimp only
  cases hst : s.stack with
  | nil => simp [hst] at htos
  | cons t rest =>
    obtain rfl : t = tos := by simpa [hst] using htos
    dsimp only
    rw [if_pos hpos]

/-- A list with room for a byte is not at its end. -/
theorem not_at_end_of_room {s : Stream} {n : Nat} (h : s.Room n) (hn : 0 < n) :
    ∀ tos ∈ s.stack.head?, tos.pos ≠ tos.size := by
  intro tos htos
  have := h.1 tos htos
  omega

/-- What `Kind` answers, other than the end of a list, it caches: asked again, it answers the
same and reads nothing. -/
theorem nextKind_nextKind {s s' : Stream} {k : Kind} {size : Nat} {err : Option StreamError}
    (h : s.nextKind = ((k, size, err), s')) (hne : err ≠ some .eol) :
    s'.nextKind = ((k, size, err), s') := by
  cases hk : s.kind with
  | some k₀ =>
    rw [nextKind_of_some hk] at h
    simp only [Prod.mk.injEq] at h
    obtain ⟨⟨rfl, rfl, rfl⟩, rfl⟩ := h
    exact nextKind_of_some hk
  | none =>
    by_cases hend : ∃ tos ∈ s.stack.head?, tos.pos = tos.size
    · rw [nextKind_at_end hk hend] at h
      simp only [Prod.mk.injEq] at h
      exact absurd h.1.2.2.symm hne
    · push Not at hend
      rw [nextKind_of_none hk hend] at h
      obtain ⟨hk', hsize, herr⟩ := fetchKind_cache h
      rw [nextKind_of_some hk', hsize, herr]

/-- A header read from a stream with nothing cached: `Kind` caches it and its size. -/
theorem nextKind_eq_ok_of_none {s s' : Stream} {k : Kind} {size : Nat} (hk : s.kind = none)
    (h : s.nextKind = ((k, size, none), s')) :
    ∃ s₁, { s with kinderr := none }.readKind = ((k, size, none), s₁) ∧
      s₁.sizeErr size = none ∧ s' = { s₁ with kind := some k, size := size, kinderr := none } := by
  by_cases hend : ∃ tos ∈ s.stack.head?, tos.pos = tos.size
  · rw [nextKind_at_end hk hend] at h
    simp only [Prod.mk.injEq, reduceCtorEq, and_false, false_and] at h
  · push Not at hend
    rw [nextKind_of_none hk hend] at h
    exact Iff.mp fetchKind_eq_ok h

theorem length_kindHeader_pos {k : Kind} (hne : k ≠ .byte) (size : Nat) :
    0 < (k.header size).length := by
  cases k with
  | byte => exact absurd rfl hne
  | string | list => exact List.length_pos_of_ne_nil (header_ne_nil _ _ _)

/-- From a stream with nothing cached, `Kind` reads the header of a string or a list that the
input starts with and the stream has room for. -/
theorem nextKind_header {s : Stream} {k : Kind} {size : Nat} (hk : s.kind = none)
    (hne : k ≠ .byte) (hsize : size < 2 ^ 64) (hroom : s.Room ((k.header size).length + size))
    (hpre : k.header size <+: s.input) :
    s.nextKind = ((k, size, none), { s.consume (k.header size).length with
      byteval := 0, kind := some k, size := size, kinderr := none }) := by
  have hpos := length_kindHeader_pos hne size
  rw [nextKind_of_none hk (not_at_end_of_room hroom (by omega))]
  have hroom' := Iff.mp room_add_iff hroom
  exact Iff.mpr fetchKind_eq_ok ⟨_, (readKind_eq_ok hne).mpr ⟨hsize, hroom'.1, hpre, rfl⟩,
    sizeErr_eq_none_of_room (Iff.mpr room_byteval hroom'.2), rfl⟩

/-- From a stream with nothing cached, `Kind` reads a byte below `0x80` as a value. -/
theorem nextKind_single {s : Stream} {c : UInt8} (hk : s.kind = none) (hc : c < 0x80)
    (hroom : s.Room 1) (hhead : s.input.head? = some c) :
    s.nextKind = ((.byte, 0, none), { s.consume 1 with
      byteval := c, kind := some .byte, size := 0, kinderr := none }) := by
  rw [nextKind_of_none hk (not_at_end_of_room hroom Nat.one_pos)]
  exact Iff.mpr fetchKind_eq_ok ⟨_, Iff.mpr readKind_eq_byte ⟨c, hc, rfl, hroom, hhead, rfl⟩,
    sizeErr_eq_none_of_room (room_zero _), rfl⟩

/-! ### The methods after `Kind` -/

theorem bytes_of_byte {s s₁ : Stream} {size : Nat} (h : s.nextKind = ((.byte, size, none), s₁)) :
    s.bytes = (.ok [s₁.byteval], { s₁ with kind := none }) := by
  unfold bytes
  rw [h]

/-- `Bytes` of a string: its content, refused when it is one byte below `0x80`. -/
theorem bytes_eq_ok_of_string {s s₁ s' : Stream} {size : Nat} {b : List UInt8}
    (h : s.nextKind = ((.string, size, none), s₁)) :
    s.bytes = (.ok b, s') ↔ s₁.Room size ∧ size ≤ s₁.input.length ∧ b = s₁.input.take size ∧
      ¬ (size = 1 ∧ b.headD 0 < 128) ∧ s' = s₁.consume size := by
  unfold bytes
  rw [h]
  dsimp only
  rcases hf : s₁.readFull size with ⟨_ | b', s₂⟩
  · have : ¬ (s₁.Room size ∧ size ≤ s₁.input.length) := fun ⟨hr, hl⟩ => by
      have := (Iff.mpr readFull_eq_ok ⟨hr, hl, rfl, rfl⟩).symm.trans hf
      simp at this
    simp only [Prod.mk.injEq, reduceCtorEq, false_and, false_iff, not_and]
    exact fun hr hl => absurd ⟨hr, hl⟩ this
  · obtain ⟨hr, hl, rfl, rfl⟩ := Iff.mp readFull_eq_ok hf
    dsimp only
    split_ifs with hc
    · simp only [Prod.mk.injEq, reduceCtorEq, false_and, false_iff, not_and]
      rintro - - rfl hnc
      exact (hnc hc.1 hc.2).elim
    · simp only [Prod.mk.injEq, Except.ok.injEq]
      constructor
      · rintro ⟨rfl, rfl⟩
        exact ⟨hr, hl, rfl, hc, rfl⟩
      · rintro ⟨-, -, rfl, -, rfl⟩
        exact ⟨rfl, rfl⟩

theorem list_of_list {s s₁ : Stream} {size : Nat} (h : s.nextKind = ((.list, size, none), s₁)) :
    s.list = (.ok size, { s₁ with stack := ⟨0, size⟩ :: s₁.stack, kind := none, size := 0 }) := by
  unfold list
  rw [h]
  rfl

theorem listEnd_eq_ok {s s' : Stream} :
    s.listEnd = (.ok (), s') ↔ ∃ tos ∈ s.stack.head?, tos.pos = tos.size ∧
      s' = { s with stack := advanceTop s.stack.tail tos.size, kind := none, size := 0 } := by
  unfold listEnd
  cases hst : s.stack with
  | nil => simp
  | cons tos rest =>
    by_cases hpos : tos.pos = tos.size
    · simp only [ne_eq, hpos, not_true_eq_false, if_false, Prod.mk.injEq, true_and,
        List.head?_cons, Option.mem_def, Option.some.injEq, List.tail_cons, exists_eq_left',
        eq_comm]
    · simp [hpos]

end Stream

end EpvChain.Rlp
