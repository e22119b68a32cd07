import EpvChain.Process.Reading

/-!
# The list positions of the stream (`process/decode.go`)

`Stream` keeps, for every list it is inside, innermost first, the bytes read so far (`pos`) and
its size. `willRead` charges each read to the innermost entry and to the input limit, and
`ListEnd` adds a finished list's size to its parent. `Kind` checks a header's size against the
innermost list after reading it, and a failing method leaves the stream where it got to.

* `Reads s s' n` — `s'` is `s` after `n` bytes were charged; every primitive ends in such a
  state, on its error paths too (`reads_readKind`).
* `Sound r₀ d l s` — the invariant: every entry has `pos ≤ size`, each list fits in its parent's
  unread part, a cached size passed `Kind`'s check, the stream stays limited or not (`l`), and
  when limited each list's unread part is within what the limit leaves. `r₀` bounds the input,
  `d` how far the limit exceeds it.
* `Sound.run`, `sound_runStream` — every call (`StreamCall`: `Kind`, `Bytes`, `Raw`, `Uint`,
  `List`, `ListEnd`, in any order) keeps the invariant, so every run from `NewStream` does.
* `Sound.alloc_le`, `bytesAlloc_exceeds_input` — on a limited stream the buffer `Bytes` and
  `Raw` allocate is within the input or the limit; a limit above the input, or no limit on an
  unsized reader, lets `Bytes` allocate what the input cannot fill.
-/

namespace EpvChain.Rlp

namespace Stream

/-! ### What reading does to the positions -/

/-- `s'` is `s` after `n` bytes charged in all: the innermost list moved on by `n` bytes it
had, the limit went down by at most `n`, and the input only got shorter; a limited stream's limit
exceeds its input by no more than before. -/
structure Reads (s s' : Stream) (n : Nat) : Prop where
  stack_eq : s'.stack = advanceTop s.stack n
  room : ∀ tos ∈ s.stack.head?, n ≤ tos.size - tos.pos
  limited_eq : s'.limited = s.limited
  remaining_ge : s.remaining - n ≤ s'.remaining
  input_suffix : s'.input <:+ s.input
  fits : ∀ d, s.limited = true → s.remaining ≤ s.input.length + d →
    s'.remaining ≤ s'.input.length + d

/-- Nothing read: only the cached answer of `Kind` may have changed. -/
theorem Reads.frame {s s' : Stream} (hst : s'.stack = s.stack) (hl : s'.limited = s.limited)
    (hr : s'.remaining = s.remaining) (hi : s'.input = s.input) : Reads s s' 0 where
  stack_eq := by rw [hst, advanceTop_zero]
  room _ _ := Nat.zero_le _
  limited_eq := hl
  remaining_ge := by omega
  input_suffix := hi ▸ List.suffix_refl _
  fits _ _ h := by rwa [hr, hi]

/-- A read followed by a change of the cached answer only. -/
theorem Reads.with_frame {s s₁ s₂ : Stream} {n : Nat} (h : Reads s s₁ n)
    (hst : s₂.stack = s₁.stack) (hl : s₂.limited = s₁.limited)
    (hr : s₂.remaining = s₁.remaining) (hi : s₂.input = s₁.input) : Reads s s₂ n where
  stack_eq := hst ▸ h.stack_eq
  room := h.room
  limited_eq := hl ▸ h.limited_eq
  remaining_ge := hr ▸ h.remaining_ge
  input_suffix := hi ▸ h.input_suffix
  fits d hlim hfit := by rw [hr, hi]; exact h.fits d hlim hfit

theorem Reads.trans {s s₁ s₂ : Stream} {m n : Nat} (h₁ : Reads s s₁ m) (h₂ : Reads s₁ s₂ n) :
    Reads s s₂ (m + n) where
  stack_eq := by rw [h₂.stack_eq, h₁.stack_eq, advanceTop_advanceTop]
  room tos htos := by
    have hm := h₁.room tos htos
    -- the innermost list of `s₁` is that of `s`, moved on by `m`
    have hn := h₂.room ⟨tos.pos + m, tos.size⟩ (by
      cases hst : s.stack with
      | nil => simp [hst] at htos
      | cons t rest =>
        obtain rfl : t = tos := by simpa [hst] using htos
        simp [h₁.stack_eq, hst])
    dsimp only at hn
    omega
  limited_eq := h₂.limited_eq.trans h₁.limited_eq
  remaining_ge := by
    have := h₁.remaining_ge
    have := h₂.remaining_ge
    omega
  input_suffix := h₂.input_suffix.trans h₁.input_suffix
  fits d hlim hfit := h₂.fits d (h₁.limited_eq ▸ hlim) (h₁.fits d hlim hfit)

/-- The list moved on, the limit not charged: `willRead` refusing at the limit. -/
theorem Reads.advance {s : Stream} {n : Nat} (hroom : ∀ tos ∈ s.stack.head?, n ≤ tos.size - tos.pos) :
    Reads s { s with kind := none, stack := advanceTop s.stack n } n where
  stack_eq := rfl
  room := hroom
  limited_eq := rfl
  remaining_ge := Nat.sub_le _ _
  input_suffix := List.suffix_refl _
  fits _ _ h := h

/-- Charged but not taken from the input yet: `willRead` passing. -/
theorem Reads.charge {s : Stream} {n : Nat} (hroom : s.Room n) :
    Reads s { s.consume n with input := s.input } n where
  stack_eq := rfl
  room := hroom.1
  limited_eq := rfl
  remaining_ge := by dsimp only [consume]; split <;> omega
  input_suffix := List.suffix_refl _
  fits _ hlim h := by simp only [consume, hlim, if_true]; omega

/-- Charged and taken from the input. -/
theorem Reads.consume {s : Stream} {n : Nat} (hroom : s.Room n) :
    Reads s (s.consume n) n where
  stack_eq := rfl
  room := hroom.1
  limited_eq := rfl
  remaining_ge := by dsimp only [Stream.consume]; split <;> omega
  input_suffix := List.drop_suffix _ _
  fits _ hlim h := by
    simp only [Stream.consume, hlim, if_true, List.length_drop]
    omega

/-- Charged, and the input ran out: `readFull` of more than is left. -/
theorem Reads.drain {s : Stream} {n : Nat} (hroom : s.Room n) (hshort : s.input.length < n) :
    Reads s { s.consume n with input := [] } n where
  stack_eq := rfl
  room := hroom.1
  limited_eq := rfl
  remaining_ge := by dsimp only [Stream.consume]; split <;> omega
  input_suffix := List.nil_suffix
  fits _ hlim h := by simp only [Stream.consume, hlim, if_true, List.length_nil]; omega

/-! ### The primitives -/

/-- `willRead` refuses at the innermost list before anything moved, or at the limit after the
list moved on. -/
theorem willRead_error {s s' : Stream} {n : Nat} {e : StreamError}
    (h : s.willRead n = (.error e, s')) :
    s' = { s with kind := none } ∨ (∀ tos ∈ s.stack.head?, n ≤ tos.size - tos.pos) ∧
      s' = { s with kind := none, stack := advanceTop s.stack n } := by
  unfold willRead takeRemaining at h
  cases hst : s.stack with
  | nil =>
    simp only [hst] at h
    split_ifs at h <;> simp only [Prod.mk.injEq, reduceCtorEq, false_and] at h
    exact .inl h.2.symm
  | cons tos rest =>
    simp only [hst] at h
    split_ifs at h with ht <;> simp only [Prod.mk.injEq, reduceCtorEq, false_and] at h
    · exact .inl h.2.symm
    · refine .inr ⟨fun t ht' => ?_, h.2.symm⟩
      obtain rfl : tos = t := by simpa using ht'
      omega

theorem reads_willRead (s : Stream) (n : Nat) :
    ∃ m, Reads s (s.willRead n).2 m ∧ (s.willRead n).2.kind = none := by
  rcases hw : s.willRead n with ⟨_ | ⟨⟩, s'⟩
  · rcases willRead_error hw with rfl | ⟨hroom, rfl⟩
    · exact ⟨0, Reads.frame rfl rfl rfl rfl, rfl⟩
    · exact ⟨n, Reads.advance hroom, rfl⟩
  · obtain ⟨hroom, rfl⟩ := Iff.mp willRead_eq_ok hw
    exact ⟨n, Reads.charge hroom, rfl⟩

/-- A primitive that ends where `willRead` did, or after a read it had room for. -/
theorem reads_of_willRead_or {s s' : Stream} {n : Nat}
    (h : s' = (s.willRead n).2 ∨ s.Room n ∧
      (s' = s.consume n ∨ s.input.length < n ∧ s' = { s.consume n with input := [] } ∨
        s' = { s.consume n with input := s.input })) :
    ∃ m, Reads s s' m ∧ s'.kind = none := by
  rcases h with rfl | ⟨hroom, rfl | ⟨hshort, rfl⟩ | rfl⟩
  · exact reads_willRead s n
  · exact ⟨n, Reads.consume hroom, rfl⟩
  · exact ⟨n, Reads.drain hroom hshort, rfl⟩
  · exact ⟨n, Reads.charge hroom, rfl⟩

theorem readByte_state (s : Stream) :
    s.readByte.2 = (s.willRead 1).2 ∨ s.Room 1 ∧
      (s.readByte.2 = s.consume 1 ∨ s.input.length < 1 ∧ s.readByte.2 = { s.consume 1 with input := [] } ∨
        s.readByte.2 = { s.consume 1 with input := s.input }) := by
  unfold readByte
  rcases hw : s.willRead 1 with ⟨_ | ⟨⟩, s₁⟩
  · exact .inl rfl
  · obtain ⟨hroom, rfl⟩ := Iff.mp willRead_eq_ok hw
    refine .inr ⟨hroom, ?_⟩
    cases hin : s.input with
    | nil => exact .inr (.inr rfl)
    | cons b rest => exact .inl (by simp [consume, hin])

theorem readFull_state (s : Stream) (n : Nat) :
    (s.readFull n).2 = (s.willRead n).2 ∨ s.Room n ∧
      ((s.readFull n).2 = s.consume n ∨
        s.input.length < n ∧ (s.readFull n).2 = { s.consume n with input := [] } ∨
        (s.readFull n).2 = { s.consume n with input := s.input }) := by
  unfold readFull
  rcases hw : s.willRead n with ⟨_ | ⟨⟩, s₁⟩
  · exact .inl rfl
  · obtain ⟨hroom, rfl⟩ := Iff.mp willRead_eq_ok hw
    refine .inr ⟨hroom, ?_⟩
    dsimp only
    split_ifs with hlen
    · exact .inl rfl
    · exact .inr (.inl ⟨by omega, rfl⟩)

theorem reads_readByte (s : Stream) : ∃ m, Reads s s.readByte.2 m ∧ s.readByte.2.kind = none :=
  reads_of_willRead_or (readByte_state s)

theorem reads_readFull (s : Stream) (n : Nat) :
    ∃ m, Reads s (s.readFull n).2 m ∧ (s.readFull n).2.kind = none :=
  reads_of_willRead_or (readFull_state s n)

/-- `readUint` ends where the read of its bytes did, or changes nothing but the cache. -/
theorem readUint_state (s : Stream) (k : Nat) :
    (s.readUint k).2 = { s with kind := none } ∨ (s.readUint k).2 = s.readByte.2 ∨
      (s.readUint k).2 = (s.readFull k).2 := by
  unfold readUint
  split
  · exact .inl rfl
  · rcases s.readByte with ⟨_ | _, s₁⟩ <;> exact .inr (.inl rfl)
  · rcases s.readFull _ with ⟨_ | buf, s₁⟩
    · exact .inr (.inr rfl)
    · dsimp only
      split_ifs <;> exact .inr (.inr rfl)

theorem reads_readUint (s : Stream) (k : Nat) :
    ∃ m, Reads s (s.readUint k).2 m ∧ (s.readUint k).2.kind = none := by
  rcases readUint_state s k with h | h | h <;> rw [h]
  · exact ⟨0, Reads.frame rfl rfl rfl rfl, rfl⟩
  · exact reads_readByte s
  · exact reads_readFull s k

theorem readLongSize_state (s : Stream) (k : Kind) (m : Nat) :
    (s.readLongSize k m).2 = (s.readUint m).2 := by
  unfold readLongSize
  rcases s.readUint m with ⟨_ | size, s₁⟩
  · rfl
  · dsimp only
    split_ifs <;> rfl

/-- `readKind` reads the header's first byte and then the bytes of a long size, wherever it
stops. -/
theorem reads_readKind (s : Stream) :
    ∃ m, Reads s s.readKind.2 m ∧ s.readKind.2.kind = none := by
  obtain ⟨m, hm, hk⟩ := reads_readByte s
  unfold readKind
  rcases hb : s.readByte with ⟨_ | b, s₁⟩
  · rw [hb] at hm hk
    exact ⟨m, hm, hk⟩
  rw [hb] at hm hk
  dsimp only at hm hk
  -- the reads of a long size start from the stream past the first byte, `byteval` cleared
  have hlong : ∀ (k : Kind) (sizesize : Nat),
      ∃ m, Reads s ({ s₁ with byteval := 0 }.readLongSize k sizesize).2 m ∧
        ({ s₁ with byteval := 0 }.readLongSize k sizesize).2.kind = none := by
    intro k sizesize
    obtain ⟨m', hm', hk'⟩ := reads_readUint { s₁ with byteval := 0 } sizesize
    rw [readLongSize_state]
    have hclear : Reads s { s₁ with byteval := 0 } m := hm.with_frame rfl rfl rfl rfl
    exact ⟨m + m', hclear.trans hm', hk'⟩
  dsimp only
  split_ifs
  · exact ⟨m, hm.with_frame rfl rfl rfl rfl, hk⟩
  · exact ⟨m, hm.with_frame rfl rfl rfl rfl, hk⟩
  · exact hlong _ _
  · exact ⟨m, hm.with_frame rfl rfl rfl rfl, hk⟩
  · exact hlong _ _

/-- `fetchKind` ends where `readKind` did, with the answer cached. -/
theorem fetchKind_state (s : Stream) :
    ∃ k size err, s.fetchKind = ((k, size, err),
      { s.readKind.2 with kind := some k, size := size, kinderr := err }) := by
  unfold fetchKind
  rcases s.readKind with ⟨⟨k, size, _ | err⟩, s₁⟩
  · exact ⟨k, size, _, rfl⟩
  · exact ⟨k, size, some err, rfl⟩

/-- What `Kind` announces without error it has cached. -/
theorem nextKind_ok_cache {s s₁ : Stream} {k : Kind} {size : Nat}
    (h : s.nextKind = ((k, size, none), s₁)) :
    s₁.kind = some k ∧ s₁.size = size ∧ s₁.kinderr = none := by
  cases hk : s.kind with
  | some k₀ =>
    rw [nextKind_of_some hk] at h
    simp only [Prod.mk.injEq] at h
    obtain ⟨⟨rfl, rfl, herr⟩, rfl⟩ := h
    exact ⟨hk, rfl, herr⟩
  | none =>
    obtain ⟨s₂, -, -, rfl⟩ := nextKind_eq_ok_of_none hk h
    exact ⟨rfl, rfl, rfl⟩

/-! ### The invariant -/

/-- A list fits in the unread part of the list around it. -/
def Nested (child parent : ListPos) : Prop := parent.pos + child.size ≤ parent.size

/-- Under a limit that leaves `rem` bytes, the innermost list's unread part is at most `rem`,
and each list's further out at most `rem` and what the lists inside it have read. -/
def Within : List ListPos → Nat → Prop
  | [], _ => True
  | e :: rest, rem => e.size - e.pos ≤ rem ∧ Within rest (rem + e.pos)

@[simp] theorem within_nil (rem : Nat) : Within [] rem := trivial

@[simp] theorem within_cons (e : ListPos) (rest : List ListPos) (rem : Nat) :
    Within (e :: rest) rem ↔ e.size - e.pos ≤ rem ∧ Within rest (rem + e.pos) := Iff.rfl

theorem Within.mono {st : List ListPos} {rem rem' : Nat} (h : Within st rem) (hle : rem ≤ rem') :
    Within st rem' := by
  induction st generalizing rem rem' with
  | nil => trivial
  | cons e rest ih =>
    rw [within_cons] at h ⊢
    exact ⟨by omega, ih h.2 (by omega)⟩

/-- Only the size of a list matters to the lists around it. -/
theorem isChain_nested_of_size {e e' : ListPos} {rest : List ListPos}
    (h : (e :: rest).IsChain Nested) (hsize : e'.size = e.size) : (e' :: rest).IsChain Nested := by
  cases rest with
  | nil => exact List.isChain_singleton _
  | cons p rest =>
    rw [List.isChain_cons_cons] at h ⊢
    exact ⟨by rw [Nested, hsize]; exact h.1, h.2⟩

/-- What every stream reached from `NewStream` over an input of at most `r₀` bytes keeps: the
positions are consistent, and `Kind`'s cached answer passed its check and came from the input.
Whether the stream is limited (`l`) never changes; a limited stream's lists are within its limit,
which is at most `d` above the input. -/
structure Sound (r₀ d : Nat) (l : Bool) (s : Stream) : Prop where
  pos_le : ∀ e ∈ s.stack, e.pos ≤ e.size
  nested : s.stack.IsChain Nested
  limited : s.limited = l
  within : l = true → Within s.stack s.remaining
  cached : ∀ k, s.kind = some k → s.kinderr = none → s.sizeErr s.size = none
  input_le : s.input.length ≤ r₀
  cached_header : ∀ k, s.kind = some k → k ≠ .byte → s.kinderr = none →
    headsize s.size + s.input.length ≤ r₀
  excess : l = true → s.remaining ≤ s.input.length + d

theorem sound_newStream (input : List UInt8) (sized : Bool) (inputLimit : Nat) :
    Sound input.length (inputLimit - input.length) (decide (0 < inputLimit) || sized)
      (newStream input sized inputLimit) where
  pos_le _ he := absurd he List.not_mem_nil
  nested := List.isChain_nil
  limited := rfl
  within _ := trivial
  cached _ hk := by simp [newStream] at hk
  input_le := le_refl _
  cached_header _ hk := by simp [newStream] at hk
  excess _ := by simp only [newStream]; split_ifs <;> omega

/-- A read keeps the positions consistent. -/
theorem Sound.reads {r₀ d : Nat} {l : Bool} {s s' : Stream} {n : Nat} (h : Sound r₀ d l s) (hr : Reads s s' n)
    (hk : s'.kind = none) : Sound r₀ d l s' where
  pos_le e he := by
    rw [hr.stack_eq] at he
    cases hst : s.stack with
    | nil => simp [hst] at he
    | cons tos rest =>
      rw [hst, advanceTop_cons, List.mem_cons] at he
      rcases he with rfl | he
      · have := hr.room tos (by simp [hst])
        have := h.pos_le tos (by simp [hst])
        dsimp only
        omega
      · exact h.pos_le e (by simp [hst, he])
  nested := by
    rw [hr.stack_eq]
    have hn := h.nested
    cases hst : s.stack with
    | nil => exact List.isChain_nil
    | cons tos rest =>
      rw [hst] at hn
      exact isChain_nested_of_size hn rfl
  limited := hr.limited_eq.trans h.limited
  within hl := by
    have hw := h.within hl
    have hrem := hr.remaining_ge
    rw [hr.stack_eq]
    cases hst : s.stack with
    | nil => trivial
    | cons tos rest =>
      rw [hst, within_cons] at hw
      have := hr.room tos (by simp [hst])
      rw [advanceTop_cons, within_cons]
      exact ⟨by dsimp only; omega, hw.2.mono (by dsimp only; omega)⟩
  cached k hk' := by rw [hk] at hk'; cases hk'
  input_le := le_trans hr.input_suffix.length_le h.input_le
  cached_header k hk' := by rw [hk] at hk'; cases hk'
  excess hl := hr.fits d (h.limited.trans hl) (h.excess hl)

/-- Caching `Kind`'s answer: an answer without error passed the size check, and the header of a
string or a list was read from the input. -/
theorem Sound.cache {r₀ d : Nat} {l : Bool} {s : Stream} {k : Kind} {size : Nat} {err : Option StreamError}
    (h : Sound r₀ d l s) (herr : err = none → s.sizeErr size = none)
    (hhead : k ≠ .byte → err = none → headsize size + s.input.length ≤ r₀) :
    Sound r₀ d l { s with kind := some k, size := size, kinderr := err } where
  pos_le := h.pos_le
  nested := h.nested
  limited := h.limited
  within := h.within
  cached _ _ he := herr he
  input_le := h.input_le
  cached_header k' hk' hne he := by
    obtain rfl : k = k' := Option.some.inj hk'
    exact hhead hne he
  excess := h.excess


theorem length_kindHeader {k : Kind} (hne : k ≠ .byte) {size : Nat} (h : size < 2 ^ 64) :
    (k.header size).length = headsize size := by
  cases k with
  | byte => exact absurd rfl hne
  | string => rw [Kind.header, ← puthead_eq_header _ _ h, length_puthead _ _ h]
  | list => rw [Kind.header, ← puthead_eq_header _ _ h, length_puthead _ _ h]

/-- A string or list header read takes its length off the input. -/
theorem readKind_input {s s₁ : Stream} {k : Kind} {size : Nat} (hne : k ≠ .byte)
    (h : s.readKind = ((k, size, none), s₁)) : headsize size + s₁.input.length = s.input.length := by
  obtain ⟨hsize, -, hpre, rfl⟩ := (readKind_eq_ok hne).mp h
  have hlen := hpre.length_le
  rw [length_kindHeader hne hsize] at hlen
  simp only [input_consume, List.length_drop, length_kindHeader hne hsize]
  omega

theorem Sound.fetchKind {r₀ d : Nat} {l : Bool} {s : Stream} (h : Sound r₀ d l s) :
    Sound r₀ d l s.fetchKind.2 := by
  obtain ⟨m, hm, hk₁⟩ := reads_readKind s
  have h₁ := h.reads hm hk₁
  obtain ⟨k, size, err, hf⟩ := fetchKind_state s
  rw [hf]
  refine h₁.cache (fun he => ?_) (fun hne he => ?_)
  · -- an answer without error is one that passed the size check
    subst he
    obtain ⟨s₂, hr, hs, -⟩ := Iff.mp fetchKind_eq_ok hf
    rw [hr]
    exact hs
  · subst he
    obtain ⟨s₂, hr, -, -⟩ := Iff.mp fetchKind_eq_ok hf
    have := readKind_input hne hr
    rw [hr]
    dsimp only
    have := h.input_le
    omega

theorem Sound.nextKind {r₀ d : Nat} {l : Bool} {s : Stream} (h : Sound r₀ d l s) : Sound r₀ d l s.nextKind.2 := by
  cases hk : s.kind with
  | some k =>
    rw [nextKind_of_some hk]
    exact h
  | none =>
    have h₀ : Sound r₀ d l { s with kinderr := none } := h.reads (Reads.frame rfl rfl rfl rfl) hk
    by_cases hend : ∃ tos ∈ s.stack.head?, tos.pos = tos.size
    · rw [nextKind_at_end hk hend]
      exact h₀
    · push Not at hend
      rw [nextKind_of_none hk hend]
      exact h₀.fetchKind

/-- A size `Kind` announced without error passed its check. -/
theorem Sound.sizeErr_of_nextKind {r₀ d : Nat} {l : Bool} {s s₁ : Stream} {k : Kind} {size : Nat}
    (h : Sound r₀ d l s) (hn : s.nextKind = ((k, size, none), s₁)) : s₁.sizeErr size = none := by
  obtain ⟨hk, hsize, herr⟩ := nextKind_ok_cache hn
  have h₁ : Sound r₀ d l s₁ := by simpa [hn] using h.nextKind
  rw [← hsize]
  exact h₁.cached k hk herr

theorem Sound.readFull {r₀ d : Nat} {l : Bool} {s s' : Stream} {n : Nat} {x : Except StreamError (List UInt8)}
    (h : Sound r₀ d l s) (hf : s.readFull n = (x, s')) : Sound r₀ d l s' := by
  obtain ⟨m, hm, hk⟩ := reads_readFull s n
  rw [hf] at hm hk
  exact h.reads hm hk

theorem Sound.readUint {r₀ d : Nat} {l : Bool} {s s' : Stream} {n : Nat} {x : Except StreamError Nat}
    (h : Sound r₀ d l s) (hf : s.readUint n = (x, s')) : Sound r₀ d l s' := by
  obtain ⟨m, hm, hk⟩ := reads_readUint s n
  rw [hf] at hm hk
  exact h.reads hm hk

theorem Sound.clear {r₀ d : Nat} {l : Bool} {s : Stream} (h : Sound r₀ d l s) : Sound r₀ d l { s with kind := none } :=
  h.reads (Reads.frame rfl rfl rfl rfl) rfl

/-- Entering a list whose size passed `Kind`'s check. -/
theorem Sound.push {r₀ d : Nat} {l : Bool} {s : Stream} {size : Nat} (h : Sound r₀ d l s)
    (herr : s.sizeErr size = none) :
    Sound r₀ d l { s with stack := ⟨0, size⟩ :: s.stack, kind := none, size := 0 } where
  pos_le e he := by
    rcases List.mem_cons.mp he with rfl | he
    · exact Nat.zero_le _
    · exact h.pos_le e he
  nested := by
    have hn := h.nested
    unfold sizeErr at herr
    cases hst : s.stack with
    | nil => exact List.isChain_singleton _
    | cons p rest =>
      rw [hst] at hn herr
      have := h.pos_le p (by simp [hst])
      rw [List.isChain_cons_cons]
      refine ⟨?_, hn⟩
      simp only [ite_eq_right_iff, reduceCtorEq, imp_false, not_lt] at herr
      show p.pos + size ≤ p.size
      omega
  limited := h.limited
  within hl := by
    have hw := h.within hl
    unfold sizeErr at herr
    rw [within_cons]
    refine ⟨?_, by simpa using hw⟩
    cases hst : s.stack with
    | nil =>
      rw [hst] at herr
      simp only [ite_eq_right_iff, reduceCtorEq, imp_false, not_and, not_lt] at herr
      have := herr (h.limited.trans hl)
      simp only [Nat.sub_zero]
      omega
    | cons p rest =>
      rw [hst] at herr hw
      simp only [ite_eq_right_iff, reduceCtorEq, imp_false, not_lt] at herr
      have := hw.1
      simp only [Nat.sub_zero]
      omega
  cached _ hk := by cases hk
  input_le := h.input_le
  cached_header _ hk := by cases hk
  excess := h.excess

/-- Leaving a list read to its end: its parent has read all of it. -/
theorem Sound.pop {r₀ d : Nat} {l : Bool} {s : Stream} {tos : ListPos} {rest : List ListPos} (h : Sound r₀ d l s)
    (hst : s.stack = tos :: rest) (hend : tos.pos = tos.size) :
    Sound r₀ d l { s with stack := advanceTop rest tos.size, kind := none, size := 0 } where
  pos_le e he := by
    have hn := h.nested
    rw [hst] at hn
    cases rest with
    | nil => simp at he
    | cons p rest =>
      rw [advanceTop_cons, List.mem_cons] at he
      rcases he with rfl | he
      · exact (List.isChain_cons_cons.mp hn).1
      · exact h.pos_le e (by simp [hst, he])
  nested := by
    have hn := h.nested
    rw [hst] at hn
    cases rest with
    | nil => exact List.isChain_nil
    | cons p rest => exact isChain_nested_of_size (List.isChain_cons_cons.mp hn).2 rfl
  limited := h.limited
  within hl := by
    have hw := h.within hl
    rw [hst, within_cons] at hw
    cases rest with
    | nil => trivial
    | cons p rest =>
      rw [within_cons] at hw
      rw [advanceTop_cons, within_cons]
      exact ⟨by dsimp only; omega, hw.2.2.mono (by dsimp only; omega)⟩
  cached _ hk := by cases hk
  input_le := h.input_le
  cached_header _ hk := by cases hk
  excess := h.excess

/-! ### The methods -/

theorem Sound.bytes {r₀ d : Nat} {l : Bool} {s : Stream} (h : Sound r₀ d l s) : Sound r₀ d l s.bytes.2 := by
  have h₁ := h.nextKind
  unfold Stream.bytes
  rcases hn : s.nextKind with ⟨⟨k, size, _ | e⟩, s₁⟩
  · rw [hn] at h₁
    cases k with
    | byte => exact h₁.clear
    | string =>
      dsimp only
      rcases hf : s₁.readFull size with ⟨_ | b, s₂⟩
      · exact h₁.readFull hf
      · dsimp only
        split_ifs <;> exact h₁.readFull hf
    | list => exact h₁
  · rw [hn] at h₁
    exact h₁

theorem Sound.raw {r₀ d : Nat} {l : Bool} {s : Stream} (h : Sound r₀ d l s) : Sound r₀ d l s.raw.2 := by
  have h₁ := h.nextKind
  unfold Stream.raw
  rcases hn : s.nextKind with ⟨⟨k, size, _ | e⟩, s₁⟩
  · rw [hn] at h₁
    cases k with
    | byte => exact h₁.clear
    | string | list =>
      dsimp only
      rcases hf : s₁.readFull size with ⟨_ | b, s₂⟩ <;> exact h₁.readFull hf
  · rw [hn] at h₁
    exact h₁

theorem Sound.uint {r₀ d : Nat} {l : Bool} {s : Stream} (h : Sound r₀ d l s) (maxbits : Nat) :
    Sound r₀ d l (s.uint maxbits).2 := by
  have h₁ := h.nextKind
  unfold Stream.uint
  rcases hn : s.nextKind with ⟨⟨k, size, _ | e⟩, s₁⟩
  · rw [hn] at h₁
    cases k with
    | byte =>
      dsimp only
      split_ifs
      · exact h₁
      · exact h₁.clear
    | string =>
      dsimp only
      split_ifs
      · exact h₁
      · -- every outcome of `readUint`, the refusals reworded included, ends where it did
        split
        next s₂ hu => exact h₁.readUint hu
        next s₂ _ _ hu => exact h₁.readUint hu
        next v s₂ hu => split_ifs <;> exact h₁.readUint hu
    | list => exact h₁
  · rw [hn] at h₁
    exact h₁

theorem Sound.list {r₀ d : Nat} {l : Bool} {s : Stream} (h : Sound r₀ d l s) : Sound r₀ d l s.list.2 := by
  have h₁ := h.nextKind
  unfold Stream.list
  rcases hn : s.nextKind with ⟨⟨k, size, _ | e⟩, s₁⟩
  · rw [hn] at h₁
    dsimp only
    split_ifs
    · exact h₁
    · exact h₁.push (h.sizeErr_of_nextKind hn)
  · rw [hn] at h₁
    exact h₁

theorem Sound.listEnd {r₀ d : Nat} {l : Bool} {s : Stream} (h : Sound r₀ d l s) : Sound r₀ d l s.listEnd.2 := by
  unfold Stream.listEnd
  cases hst : s.stack with
  | nil => exact h
  | cons tos rest =>
    dsimp only
    split_ifs with hend
    · exact h
    · exact h.pop hst (not_not.mp hend)

/-! ### The buffers `Bytes` and `Raw` allocate -/

/-- The length of the buffer `Bytes` allocates, `make([]byte, size)`, when it gets there:
`Kind` announced a string without error.
Source: `process/decode.go` `Stream.Bytes` -/
def bytesAlloc (s : Stream) : Option Nat :=
  match s.nextKind with
  | ((.string, size, none), _) => some size
  | _ => none

/-- The length of the buffer `Raw` allocates, `make([]byte, uint64(start)+size)` with
`start := headsize(size)`, when it gets there: `Kind` announced a string or a list without
error.
Source: `process/decode.go` `Stream.Raw` -/
def rawAlloc (s : Stream) : Option Nat :=
  match s.nextKind with
  | ((.byte, _, _), _) => none
  | ((_, size, none), _) => some (headsize size + size)
  | _ => none

/-- A size that passed `Kind`'s check is within the limit of a limited stream. -/
theorem Sound.size_le_remaining {r₀ d : Nat} {l : Bool} {s : Stream} {size : Nat}
    (h : Sound r₀ d l s) (hl : l = true) (herr : s.sizeErr size = none) : size ≤ s.remaining := by
  have hw := h.within hl
  unfold sizeErr at herr
  cases hst : s.stack with
  | nil =>
    rw [hst] at herr
    simp only [ite_eq_right_iff, reduceCtorEq, imp_false, not_and, not_lt] at herr
    exact herr (h.limited.trans hl)
  | cons tos rest =>
    rw [hst] at herr hw
    simp only [ite_eq_right_iff, reduceCtorEq, imp_false, not_lt] at herr
    have := hw.1
    omega

/-- What `Kind` announces without error on a limited stream is within the limit, and a header it
read came from the input. -/
theorem Sound.announced_le {r₀ d : Nat} {l : Bool} {s s₁ : Stream} {k : Kind} {size : Nat}
    (h : Sound r₀ d l s) (hl : l = true) (hn : s.nextKind = ((k, size, none), s₁)) :
    size ≤ s₁.input.length + d ∧ s₁.input.length ≤ r₀ ∧
      (k ≠ .byte → headsize size + s₁.input.length ≤ r₀) := by
  have h₁ : Sound r₀ d l s₁ := by simpa [hn] using h.nextKind
  obtain ⟨hk, hsize, herr⟩ := nextKind_ok_cache hn
  have hle := h₁.size_le_remaining hl (h.sizeErr_of_nextKind hn)
  refine ⟨le_trans hle (h₁.excess hl), h₁.input_le, fun hne => ?_⟩
  have := h₁.cached_header k hk hne herr
  rwa [hsize] at this

/-- On a limited stream neither buffer is longer than the input allows: the content is within
the limit, and the header `Raw` rebuilds was read from the input before it. -/
theorem Sound.alloc_le {r₀ d : Nat} {l : Bool} {s : Stream} {n : Nat} (h : Sound r₀ d l s)
    (hl : l = true) (halloc : s.bytesAlloc = some n ∨ s.rawAlloc = some n) : n ≤ r₀ + d := by
  rcases hn : s.nextKind with ⟨⟨k, size, _ | e⟩, s₁⟩
  · obtain ⟨hsize, hin, hhead⟩ := h.announced_le hl hn
    rcases halloc with ha | ha
    · cases k <;> simp [bytesAlloc, hn] at ha
      subst ha
      omega
    · cases k with
      | byte => simp [rawAlloc, hn] at ha
      | string | list =>
        simp only [rawAlloc, hn, Option.some.injEq] at ha
        have := hhead (by simp)
        omega
  · rcases halloc with ha | ha <;> cases k <;> simp [bytesAlloc, rawAlloc, hn] at ha

end Stream

/-! ### Runs of calls -/

/-- The methods of `Stream` a decoder calls. -/
inductive StreamCall where
  | kind
  | bytes
  | raw
  | uint
  | list
  | listEnd
  deriving DecidableEq, Repr

/-- The stream after one call, whatever the call returned; `Uint` is `uint(64)`.
Source: `process/decode.go` `Stream.Kind`, `Bytes`, `Raw`, `Uint`, `List`, `ListEnd` -/
def StreamCall.run : StreamCall → Stream → Stream
  | .kind, s => s.nextKind.2
  | .bytes, s => s.bytes.2
  | .raw, s => s.raw.2
  | .uint, s => (s.uint 64).2
  | .list, s => s.list.2
  | .listEnd, s => s.listEnd.2

/-- The stream after the calls, one after the other. -/
def runStream : List StreamCall → Stream → Stream
  | [], s => s
  | c :: cs, s => runStream cs (c.run s)

theorem Stream.Sound.run {r₀ d : Nat} {l : Bool} {s : Stream} (h : Stream.Sound r₀ d l s) (c : StreamCall) :
    Stream.Sound r₀ d l (c.run s) := by
  cases c with
  | kind => exact h.nextKind
  | bytes => exact h.bytes
  | raw => exact h.raw
  | uint => exact h.uint 64
  | list => exact h.list
  | listEnd => exact h.listEnd

theorem sound_runStream {r₀ d : Nat} {l : Bool} (calls : List StreamCall) {s : Stream}
    (h : Stream.Sound r₀ d l s) : Stream.Sound r₀ d l (runStream calls s) := by
  induction calls generalizing s with
  | nil => exact h
  | cons c cs ih => exact ih (h.run c)

/-- The bookkeeping on every run from `NewStream`: positions within their lists, each list within
its parent's unread part; the stream is limited when a limit is given or the reader knows its
length, and then the innermost list's unread part is within the limit, and no buffer `Bytes` or
`Raw` allocates is longer than the input or the limit, whichever is longer. -/
theorem stream_positions_sound (input : List UInt8) (sized : Bool) (inputLimit : Nat)
    (calls : List StreamCall) :
    let s := runStream calls (newStream input sized inputLimit)
    (∀ e ∈ s.stack, e.pos ≤ e.size) ∧
      s.stack.IsChain (fun child parent => parent.pos + child.size ≤ parent.size) ∧
      s.limited = (decide (0 < inputLimit) || sized) ∧
      (s.limited = true → ∀ tos ∈ s.stack.head?, tos.size - tos.pos ≤ s.remaining) ∧
      (s.limited = true →
        ∀ n, s.bytesAlloc = some n ∨ s.rawAlloc = some n → n ≤ max input.length inputLimit) := by
  intro s
  have h : Stream.Sound input.length (inputLimit - input.length) (decide (0 < inputLimit) || sized)
      s :=
    sound_runStream calls (Stream.sound_newStream input sized inputLimit)
  refine ⟨h.pos_le, h.nested, h.limited, fun hl tos htos => ?_, fun hl n hn => ?_⟩
  · -- the innermost list heads `Within`
    have hw := h.within (h.limited.symm.trans hl)
    cases hst : s.stack with
    | nil => simp [hst] at htos
    | cons t rest =>
      rw [hst, Stream.within_cons] at hw
      obtain rfl : t = tos := by simpa [hst] using htos
      exact hw.1
  · have := h.alloc_le (h.limited.symm.trans hl) hn
    omega

/-- `Bytes` allocates what the input cannot fill: the header `B9 FF FF` announces a string of
65535 bytes over an input of three bytes, within the limit 65538 of a reader that knows its
length, and with no limit at all over a reader that does not; the read into the buffer then
fails. -/
theorem bytesAlloc_exceeds_input :
    (newStream [0xB9, 0xFF, 0xFF] true 65538).bytesAlloc = some 65535 ∧
      (newStream [0xB9, 0xFF, 0xFF] true 65538).bytes.1 = .error .unexpectedEOF ∧
      (newStream [0xB9, 0xFF, 0xFF] false 0).limited = false ∧
      (newStream [0xB9, 0xFF, 0xFF] false 0).bytesAlloc = some 65535 ∧
      (newStream [0xB9, 0xFF, 0xFF] false 0).bytes.1 = .error .unexpectedEOF := by
  decide

end EpvChain.Rlp
