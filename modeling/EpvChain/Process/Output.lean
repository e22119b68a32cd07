import EpvChain.Process.Encode

/-!
# The three outputs of an `encbuf` (`process/encode.go`)

An `encbuf` holds the bytes written without list headers, and one head per list (its start and
size). `toBytes` copies the pieces into a slice of `size()` bytes, `toWriter` writes them to an
`io.Writer`, and the `encReader` of `EncodeToReader` hands them out through `Read`, a
destination buffer at a time. The writers build the buffer by calls (`EncCall`): a byte string,
a `list()`, and the `listEnd` of the list opened last.

* `accounted_runCalls` — after any calls, `lhsize` is the length of the closed lists' headers,
  and the heads lie in `str` in offset order.
* `length_toBytes`, `flatten_toWriter` — once every list is closed, the pieces fill `size()`
  bytes, and `toWriter` writes exactly the bytes of `toBytes`.
* `readAll_eof`, `readAll_reaches_eof` — for any buffer lengths, reading the `encReader` to
  `io.EOF` yields the bytes of `toBytes`, within one read more than there are bytes.
* `encbuf_outputs_agree` — the four facts together.

`toWriter`'s writer takes every write whole, as `bytes.Buffer` does. A buffer stays below
`2 ^ 64` bytes, where `putint` writes what `listEnd` counts (`length_puthead`).
-/

namespace EpvChain.Rlp

open EncBuf

/-! ### The calls that build a buffer -/

/-- A call a writer makes on the buffer: a byte string (`encodeString`), opening a list
(`list`), or closing the list opened last and not yet closed (`listEnd`). -/
inductive EncCall where
  | string (b : List UInt8)
  | list
  | listEnd
  deriving DecidableEq, Repr

/-- One call, on the buffer and the heads of the open lists, innermost first. A `listEnd` with
no open list is not a call a writer makes. -/
def EncCall.run : EncCall → EncBuf × List Nat → Option (EncBuf × List Nat)
  | .string b, (w, opened) => some (w.encodeString b, opened)
  | .list, (w, opened) => some (w.list.1, w.list.2 :: opened)
  | .listEnd, (_, []) => none
  | .listEnd, (w, lh :: opened) => some (w.listEnd lh, opened)

/-- A sequence of calls. -/
def runCalls : List EncCall → EncBuf × List Nat → Option (EncBuf × List Nat)
  | [], st => some st
  | c :: cs, st => (c.run st).bind (runCalls cs)

/-- The total length of the headers of the closed lists: every head but the open ones. -/
def closedHeaderLength (w : EncBuf) (opened : List Nat) : Nat :=
  ((List.range w.lheads.length).map fun i =>
    if i ∈ opened then 0 else (w.lheads.getD i ⟨0, 0⟩).encode.length).sum

/-- What the calls keep: the heads lie in `str` in the order of their offsets, the open heads
are distinct heads of the buffer, and `lhsize` counts the headers of the closed ones. -/
structure Accounted (w : EncBuf) (opened : List Nat) : Prop where
  sorted : w.lheads.Pairwise fun h h' => h.offset ≤ h'.offset
  headsIn : w.HeadsIn
  nodup : opened.Nodup
  opened_lt : ∀ i ∈ opened, i < w.lheads.length
  lhsize_eq : w.lhsize = closedHeaderLength w opened

/-- Changing one term of a sum over distinct indices, a term that was zero. -/
theorem sum_map_eq_add {l : List Nat} (hl : l.Nodup) {k : Nat} (hk : k ∈ l) {f g : Nat → Nat}
    (hfk : f k = 0) (hfg : ∀ i ∈ l, i ≠ k → g i = f i) :
    (l.map g).sum = (l.map f).sum + g k := by
  induction l with
  | nil => cases hk
  | cons a l ih =>
    obtain ⟨ha, hl⟩ := List.nodup_cons.mp hl
    rw [List.map_cons, List.map_cons, List.sum_cons, List.sum_cons]
    by_cases hak : a = k
    · subst hak
      -- the changed index is the head; the tail agrees term by term
      have hrest : l.map g = l.map f :=
        List.map_congr_left fun i hi => hfg i (List.mem_cons_of_mem _ hi) fun h => ha (h ▸ hi)
      rw [hrest, hfk]
      omega
    · have hk' : k ∈ l := (List.mem_cons.mp hk).resolve_left (Ne.symm hak)
      rw [ih hl hk' fun i hi hik => hfg i (List.mem_cons_of_mem _ hi) hik,
        hfg a List.mem_cons_self hak]
      omega

@[simp] theorem lheads_encodeString (w : EncBuf) (b : List UInt8) :
    (w.encodeString b).lheads = w.lheads := by
  unfold encodeString encodeStringHeader write
  split <;> rfl

@[simp] theorem lhsize_encodeString (w : EncBuf) (b : List UInt8) :
    (w.encodeString b).lhsize = w.lhsize := by
  unfold encodeString encodeStringHeader write
  split <;> rfl

theorem str_length_le_encodeString (w : EncBuf) (b : List UInt8) :
    w.str.length ≤ (w.encodeString b).str.length := by
  unfold encodeString encodeStringHeader write
  split <;> simp

theorem size_le_encodeString (w : EncBuf) (b : List UInt8) : w.size ≤ (w.encodeString b).size := by
  have := str_length_le_encodeString w b
  simp only [size, lhsize_encodeString]
  omega

/-- The head `listEnd` closes, with the size of its content. -/
theorem lheads_listEnd (w : EncBuf) (lh : Nat) :
    (w.listEnd lh).lheads = w.lheads.set lh
      ⟨(w.lheads.getD lh ⟨0, 0⟩).offset, w.size - (w.lheads.getD lh ⟨0, 0⟩).offset -
        (w.lheads.getD lh ⟨0, 0⟩).size⟩ := rfl

theorem size_listEnd (w : EncBuf) (lh : Nat) :
    (w.listEnd lh).size = w.size + headsize (w.size - (w.lheads.getD lh ⟨0, 0⟩).offset -
      (w.lheads.getD lh ⟨0, 0⟩).size) := by
  simp only [listEnd, size]
  omega

/-- A run only grows the buffer. -/
theorem size_le_runCalls {calls : List EncCall} {st st' : EncBuf × List Nat}
    (h : runCalls calls st = some st') : st.1.size ≤ st'.1.size := by
  induction calls generalizing st with
  | nil =>
    cases h
    exact le_rfl
  | cons c cs ih =>
    obtain ⟨w, opened⟩ := st
    cases c with
    | string b => exact (size_le_encodeString w b).trans (ih h)
    | list => exact le_trans (by simp [EncBuf.list, size]) (ih h)
    | listEnd =>
      cases opened with
      | nil => cases h
      | cons lh opened =>
        have hgrow : w.size ≤ (w.listEnd lh).size := by
          rw [size_listEnd]
          omega
        exact hgrow.trans (ih h)

/-- Replacing a head by one at the same offset keeps the heads in order. -/
theorem pairwise_set_offset {l : List ListHead} (h : l.Pairwise fun h h' => h.offset ≤ h'.offset)
    {i : Nat} (hi : i < l.length) {a : ListHead} (ha : a.offset = l[i].offset) :
    (l.set i a).Pairwise fun h h' => h.offset ≤ h'.offset := by
  have hmap : (l.set i a).map ListHead.offset = l.map ListHead.offset := by
    apply List.ext_getElem (by simp)
    intro j _ _
    simp only [List.getElem_map, List.getElem_set]
    split
    · subst_vars
      exact ha
    · rfl
  have hsorted : (l.map ListHead.offset).Pairwise (· ≤ ·) := List.pairwise_map.mpr h
  rw [← hmap] at hsorted
  exact List.pairwise_map.mp hsorted

/-! ### Each call keeps the account -/

section Calls

variable {w : EncBuf} {opened : List Nat}

theorem Accounted.encodeString (h : Accounted w opened) (b : List UInt8) :
    Accounted (w.encodeString b) opened where
  sorted := by rw [lheads_encodeString]; exact h.sorted
  headsIn := by
    intro head hhead
    rw [lheads_encodeString] at hhead
    exact (h.headsIn head hhead).trans (str_length_le_encodeString w b)
  nodup := h.nodup
  opened_lt := by rw [lheads_encodeString]; exact h.opened_lt
  lhsize_eq := by rw [lhsize_encodeString, h.lhsize_eq, closedHeaderLength, closedHeaderLength,
    lheads_encodeString]

theorem Accounted.list (h : Accounted w opened) : Accounted w.list.1 (w.list.2 :: opened) where
  sorted := by
    simp only [EncBuf.list]
    refine List.pairwise_append.mpr ⟨h.sorted, List.pairwise_singleton _ _, ?_⟩
    -- the new list starts at the end of `str`, past every head
    intro head hhead head' hhead'
    rw [List.mem_singleton.mp hhead']
    exact h.headsIn head hhead
  headsIn := by
    intro head hhead
    simp only [EncBuf.list, List.mem_append, List.mem_singleton] at hhead
    rcases hhead with hhead | rfl
    · exact h.headsIn head hhead
    · exact le_rfl
  nodup := List.nodup_cons.mpr ⟨fun hmem => Nat.lt_irrefl _ (h.opened_lt _ hmem), h.nodup⟩
  opened_lt := by
    intro i hi
    simp only [EncBuf.list, List.length_append, List.length_singleton]
    rcases List.mem_cons.mp hi with rfl | hi
    · simp only [EncBuf.list]
      omega
    · have := h.opened_lt i hi
      omega
  lhsize_eq := by
    show w.lhsize = _
    rw [h.lhsize_eq]
    simp only [closedHeaderLength, EncBuf.list, List.length_append, List.length_singleton,
      List.range_succ, List.map_append, List.sum_append, List.map_singleton, List.sum_singleton,
      List.mem_cons, true_or, ↓reduceIte, Nat.add_zero]
    -- the old heads keep their terms
    apply congrArg
    apply List.map_congr_left
    intro i hi
    have hi' : i < w.lheads.length := List.mem_range.mp hi
    have hne : i ≠ w.lheads.length := Nat.ne_of_lt hi'
    simp only [hne, false_or, List.getD_eq_getElem?_getD, List.getElem?_append_left hi']

theorem Accounted.listEnd (h : Accounted w (lh :: opened)) (hsize : (w.listEnd lh).size < 2 ^ 64) :
    Accounted (w.listEnd lh) opened where
  sorted := by
    have hlt := h.opened_lt lh List.mem_cons_self
    -- closing a list changes its size, not its offset
    rw [lheads_listEnd]
    exact pairwise_set_offset h.sorted hlt (by
      show (w.lheads.getD lh ⟨0, 0⟩).offset = _
      rw [List.getD_eq_getElem _ _ hlt])
  headsIn := by
    intro head hhead
    rw [lheads_listEnd] at hhead
    rcases List.mem_or_eq_of_mem_set hhead with hhead | rfl
    · exact h.headsIn head hhead
    · have hlt := h.opened_lt lh List.mem_cons_self
      rw [List.getD_eq_getElem _ _ hlt]
      exact h.headsIn w.lheads[lh] (List.getElem_mem hlt)
  nodup := (List.nodup_cons.mp h.nodup).2
  opened_lt := by
    intro i hi
    rw [lheads_listEnd, List.length_set]
    exact h.opened_lt i (List.mem_cons_of_mem _ hi)
  lhsize_eq := by
    have hlt := h.opened_lt lh List.mem_cons_self
    have hlh := (List.nodup_cons.mp h.nodup).1
    have hcontent : w.size - (w.lheads.getD lh ⟨0, 0⟩).offset - (w.lheads.getD lh ⟨0, 0⟩).size <
        2 ^ 64 := by
      rw [size_listEnd] at hsize
      omega
    have hlen : (w.listEnd lh).lheads.length = w.lheads.length := by
      rw [lheads_listEnd, List.length_set]
    -- the closed list's header is counted now; every other term stays
    have hsum := sum_map_eq_add (l := List.range w.lheads.length) List.nodup_range
      (List.mem_range.mpr hlt)
      (f := fun i => if i ∈ lh :: opened then 0 else (w.lheads.getD i ⟨0, 0⟩).encode.length)
      (g := fun i => if i ∈ opened then 0 else ((w.listEnd lh).lheads.getD i ⟨0, 0⟩).encode.length)
      (by simp)
      (by
        intro i _ hi
        simp only [List.mem_cons, hi, false_or, lheads_listEnd, List.getD_eq_getElem?_getD,
          List.getElem?_set_ne (Ne.symm hi)])
    have hclosed : ((List.range w.lheads.length).map fun i =>
        if i ∈ lh :: opened then 0 else (w.lheads.getD i ⟨0, 0⟩).encode.length).sum = w.lhsize :=
      h.lhsize_eq.symm
    have hnew : (if lh ∈ opened then 0 else ((w.listEnd lh).lheads.getD lh ⟨0, 0⟩).encode.length) =
        headsize (w.size - (w.lheads.getD lh ⟨0, 0⟩).offset - (w.lheads.getD lh ⟨0, 0⟩).size) := by
      rw [if_neg hlh, lheads_listEnd, List.getD_eq_getElem?_getD,
        List.getElem?_set_self (by simpa using hlt), Option.getD_some, ListHead.encode,
        length_puthead _ _ hcontent]
    rw [closedHeaderLength, hlen, hsum, hclosed, hnew]
    rfl

end Calls

theorem accounted_empty : Accounted EncBuf.empty [] where
  sorted := List.Pairwise.nil
  headsIn := by simp [HeadsIn, EncBuf.empty]
  nodup := List.nodup_nil
  opened_lt := by simp
  lhsize_eq := by simp [closedHeaderLength, EncBuf.empty]

/-- **The account holds after any calls.** Induction on the calls, one call at a time; each
buffer on the way is no larger than the last. -/
theorem accounted_runCalls {calls : List EncCall} {st st' : EncBuf × List Nat}
    (h : Accounted st.1 st.2) (hrun : runCalls calls st = some st') (hsize : st'.1.size < 2 ^ 64) :
    Accounted st'.1 st'.2 := by
  induction calls generalizing st with
  | nil =>
    cases hrun
    exact h
  | cons c cs ih =>
    obtain ⟨w, opened⟩ := st
    cases c with
    | string b => exact ih (h.encodeString b) hrun
    | list => exact ih h.list hrun
    | listEnd =>
      cases opened with
      | nil => cases hrun
      | cons lh opened =>
        have hle := @size_le_runCalls cs (w.listEnd lh, opened) _ hrun
        exact ih (h.listEnd (hle.trans_lt hsize)) hrun

/-! ### `toBytes` -/

/-- With every list closed, the headers' lengths are those of all heads. -/
theorem closedHeaderLength_nil (w : EncBuf) :
    closedHeaderLength w [] = (w.lheads.map fun head => head.encode.length).sum := by
  simp only [closedHeaderLength, List.not_mem_nil, ↓reduceIte]
  congr 1
  apply List.ext_getElem (by simp)
  intro i h₁ h₂
  simp [List.getD_eq_getElem?_getD, List.getElem?_eq_getElem (by simpa using h₁)]

/-- The pieces from `p` on, with the heads in order from `p` and within `str`: the rest of `str`
and every header. -/
theorem length_toBytesLoop (str : List UInt8) :
    ∀ {heads : List ListHead} {p : Nat}, heads.Pairwise (fun h h' => h.offset ≤ h'.offset) →
      (∀ head ∈ heads, p ≤ head.offset ∧ head.offset ≤ str.length) → p ≤ str.length →
      (toBytesLoop str heads p).length =
        str.length - p + (heads.map fun head => head.encode.length).sum
  | [], p, _, _, _ => by simp [toBytesLoop]
  | head :: heads, p, hsorted, hin, hp => by
    obtain ⟨hhead, hrest⟩ := List.pairwise_cons.mp hsorted
    obtain ⟨hph, hhs⟩ := hin head List.mem_cons_self
    have ih := length_toBytesLoop str hrest
      (fun h hh => ⟨hhead h hh, (hin h (List.mem_cons_of_mem _ hh)).2⟩) hhs
    simp only [toBytesLoop, List.length_append, List.length_take, List.length_drop, ih,
      List.map_cons, List.sum_cons]
    omega

/-- **`toBytes` fills `size()` bytes exactly**, once every list is closed: the source's copies
into `make([]byte, w.size())` neither overrun nor leave zeros. -/
theorem length_toBytes {w : EncBuf} (h : Accounted w []) : w.toBytes.length = w.size := by
  rw [toBytes, length_toBytesLoop w.str h.sorted (fun head hh => ⟨Nat.zero_le _, h.headsIn head hh⟩)
    (Nat.zero_le _), size, h.lhsize_eq, closedHeaderLength_nil]
  simp

/-! ### `toWriter` -/

/-- The loop of `toWriter` from position `strpos` of `str`, to a writer that takes every write
whole: the writes it makes, in order. Before each head it writes the bytes up to the head's
offset if there are any, then the head's header; after the last head, the rest of `str` if
there is any. -/
def toWriterLoop (str : List UInt8) : List ListHead → Nat → List (List UInt8)
  | [], strpos => if strpos < str.length then [str.drop strpos] else []
  | head :: heads, strpos =>
    if strpos < head.offset then
      (str.drop strpos).take (head.offset - strpos) :: head.encode :: toWriterLoop str heads head.offset
    else head.encode :: toWriterLoop str heads strpos

/-- `encbuf.toWriter`, to a writer that takes every write whole: the writes it makes.
Source: `process/encode.go` `encbuf.toWriter` -/
def EncBuf.toWriter (w : EncBuf) : List (List UInt8) := toWriterLoop w.str w.lheads 0

theorem flatten_toWriterLoop (str : List UInt8) :
    ∀ {heads : List ListHead} {p : Nat}, heads.Pairwise (fun h h' => h.offset ≤ h'.offset) →
      (∀ head ∈ heads, p ≤ head.offset) →
      (toWriterLoop str heads p).flatten = toBytesLoop str heads p
  | [], p, _, _ => by
    simp only [toWriterLoop, toBytesLoop]
    split
    · simp
    · simp only [List.flatten_nil]
      exact (List.drop_of_length_le (by omega)).symm
  | head :: heads, p, hsorted, hin => by
    obtain ⟨hhead, hrest⟩ := List.pairwise_cons.mp hsorted
    have hph := hin head List.mem_cons_self
    simp only [toWriterLoop, toBytesLoop]
    split
    · rw [List.flatten_cons, List.flatten_cons, flatten_toWriterLoop str hrest hhead,
        List.append_assoc]
    · -- no bytes before the head: it starts where the last one did
      have hp : p = head.offset := by omega
      rw [List.flatten_cons, flatten_toWriterLoop str hrest fun h hh => hp ▸ hhead h hh, hp,
        Nat.sub_self, List.take_zero, List.nil_append]

/-- **`toWriter` writes the bytes of `toBytes`.** -/
theorem flatten_toWriter {w : EncBuf} {opened : List Nat} (h : Accounted w opened) :
    w.toWriter.flatten = w.toBytes :=
  flatten_toWriterLoop w.str h.sorted fun _ _ => Nat.zero_le _

/-! ### The reader -/

/-- `encReader`: the buffer, until `io.EOF` puts it back in the pool; the next head to place;
the position in `str`; and the piece being copied out (`nil` between pieces).
Source: `process/encode.go` `type encReader struct` -/
structure EncReader where
  buf : Option EncBuf
  lhpos : Nat
  strpos : Nat
  piece : Option (List UInt8)

namespace EncReader

/-- The reader `EncodeToReader` returns on a buffer.
Source: `process/encode.go` `EncodeToReader` -/
def new (w : EncBuf) : EncReader := ⟨some w, 0, 0, none⟩

/-- `encReader.next`: the piece being copied, or else the next one. That is the bytes of `str`
before the next head, that head's header, or the bytes after the last head. It is `nil` when all
pieces are out.
Source: `process/encode.go` `encReader.next` -/
def next (r : EncReader) : Option (List UInt8) × EncReader :=
  match r.buf, r.piece with
  | none, _ => (none, r)
  | some _, some piece => (some piece, r)
  | some buf, none =>
    match buf.lheads[r.lhpos]? with
    | some head =>
      if r.strpos < head.offset then
        (some ((buf.str.drop r.strpos).take (head.offset - r.strpos)), { r with strpos := head.offset })
      else (some head.encode, { r with lhpos := r.lhpos + 1 })
    | none =>
      if r.strpos < buf.str.length then
        (some (buf.str.drop r.strpos), { r with strpos := buf.str.length })
      else (none, r)

/-- One if bytes of `str` come before the head at `lhpos`. -/
def bytesBefore (buf : EncBuf) (lhpos strpos : Nat) : Nat :=
  match buf.lheads[lhpos]? with
  | some head => if strpos < head.offset then 1 else 0
  | none => 0

theorem bytesBefore_le_one (buf : EncBuf) (lhpos strpos : Nat) : bytesBefore buf lhpos strpos ≤ 1 := by
  unfold bytesBefore
  split
  · split_ifs <;> omega
  · omega

/-- What is left before `io.EOF`, weighted so that taking out a piece and copying it whole
always leaves less: four per head, two for the bytes after the last head, one for bytes before
the next head, one for a piece. -/
def left (r : EncReader) : Nat :=
  match r.buf with
  | none => 0
  | some buf =>
    4 * (buf.lheads.length - r.lhpos) + 2 * (if r.strpos < buf.str.length then 1 else 0) +
      bytesBefore buf r.lhpos r.strpos + (if r.piece.isSome then 1 else 0)

theorem left_next_lt {r r' : EncReader} {piece : List UInt8} (h : r.next = (some piece, r')) :
    { r' with piece := none }.left < r.left := by
  unfold next at h
  rcases r with ⟨_ | buf, lhpos, strpos, _ | p⟩
  · cases h
  · cases h
  · simp only at h
    cases hhead : buf.lheads[lhpos]? with
    | some head =>
      rw [hhead] at h
      have hlt : lhpos < buf.lheads.length := by
        by_contra hge
        rw [List.getElem?_eq_none (by omega)] at hhead
        cases hhead
      simp only at h
      split_ifs at h with hoff
      · cases h
        simp only [left, bytesBefore, hhead, lt_irrefl, ↓reduceIte, hoff, Option.isSome_none]
        split_ifs <;> omega
      · cases h
        have := bytesBefore_le_one buf (lhpos + 1) strpos
        simp only [left, bytesBefore, hhead, hoff, ↓reduceIte, Option.isSome_none] at this ⊢
        split_ifs <;> omega
    | none =>
      rw [hhead] at h
      simp only at h
      split_ifs at h with hstr
      · cases h
        simp only [left, bytesBefore, hhead, hstr, lt_irrefl, ↓reduceIte, Option.isSome_none]
        omega
      · cases h
  · cases h
    simp [left]

/-- The loop of `encReader.Read` into a buffer of `len` bytes, `out` being the bytes copied into
it so far. -/
def readLoop (r : EncReader) (len : Nat) (out : List UInt8) : (List UInt8 × Bool) × EncReader :=
  match _hnext : r.next with
  | (none, r') => ((out, true), { r' with piece := none, buf := none })
  | (some piece, r') =>
    let nn := min (len - out.length) piece.length
    if nn < piece.length then ((out ++ piece.take nn, false), { r' with piece := some (piece.drop nn) })
    else readLoop { r' with piece := none } len (out ++ piece.take nn)
termination_by r.left
decreasing_by exact left_next_lt _hnext

/-- `encReader.Read` into a buffer of `len` bytes: the bytes it copies, and whether it returns
`io.EOF`.
Source: `process/encode.go` `encReader.Read` -/
def Read (r : EncReader) (len : Nat) : (List UInt8 × Bool) × EncReader := r.readLoop len []

/-- Reading with buffers of the given lengths in turn, until a read returns `io.EOF`: the bytes
read, and whether `io.EOF` came. -/
def readAll : List Nat → EncReader → List UInt8 × Bool
  | [], _ => ([], false)
  | len :: lens, r =>
    match r.Read len with
    | ((out, true), _) => (out, true)
    | ((out, false), r') => (out ++ (readAll lens r').1, (readAll lens r').2)

/-- The bytes still to come: the piece being copied, then the pieces from the next head on. -/
def rest (r : EncReader) : List UInt8 :=
  match r.buf with
  | none => []
  | some buf => r.piece.getD [] ++ toBytesLoop buf.str (buf.lheads.drop r.lhpos) r.strpos

/-- The reader stands at or before the next head, and the heads come in the order of their
offsets. -/
def Valid (r : EncReader) : Prop :=
  match r.buf with
  | none => True
  | some buf => buf.lheads.Pairwise (fun h h' => h.offset ≤ h'.offset) ∧
      ∀ head ∈ buf.lheads.drop r.lhpos, r.strpos ≤ head.offset

theorem valid_new {w : EncBuf} {opened : List Nat} (h : Accounted w opened) : (new w).Valid :=
  ⟨h.sorted, fun _ _ => Nat.zero_le _⟩

theorem rest_new (w : EncBuf) : (new w).rest = w.toBytes := by
  simp [rest, new, toBytes]

/-- A piece taken out is the front of what is left, and the reader stays valid. -/
theorem rest_next {r r' : EncReader} {piece : List UInt8} (hv : r.Valid)
    (h : r.next = (some piece, r')) :
    r.rest = piece ++ { r' with piece := none }.rest ∧ { r' with piece := none }.Valid := by
  unfold next at h
  rcases r with ⟨_ | buf, lhpos, strpos, _ | p⟩
  · cases h
  · cases h
  · obtain ⟨hsorted, hpos⟩ := hv
    dsimp only at hpos h
    cases hhead : buf.lheads[lhpos]? with
    | some head =>
      rw [hhead] at h
      obtain ⟨hlt, rfl⟩ := List.getElem?_eq_some_iff.mp hhead
      have hdrop := List.drop_eq_getElem_cons hlt
      have hph := hpos _ (hdrop ▸ List.mem_cons_self)
      dsimp only at h
      split_ifs at h with hoff
      · -- the bytes before the head; the reader moves to its offset
        cases h
        refine ⟨?_, hsorted, ?_⟩
        · simp only [rest, Option.getD_none, List.nil_append, hdrop, toBytesLoop, Nat.sub_self,
            List.take_zero, List.append_assoc]
        · show ∀ h' ∈ buf.lheads.drop lhpos, buf.lheads[lhpos].offset ≤ h'.offset
          have hsorted' := List.Pairwise.sublist (List.drop_sublist lhpos buf.lheads) hsorted
          rw [hdrop] at hsorted' ⊢
          intro h' hh'
          rcases List.mem_cons.mp hh' with rfl | hh'
          · exact le_rfl
          · exact List.rel_of_pairwise_cons hsorted' hh'
      · -- the head's header: the reader stood at its offset
        cases h
        have hp : strpos = buf.lheads[lhpos].offset := by omega
        refine ⟨?_, hsorted, fun h' hh' => hpos h' ?_⟩
        · simp only [rest, Option.getD_none, List.nil_append, hdrop, toBytesLoop, hp, Nat.sub_self,
            List.take_zero]
        · rw [hdrop]
          exact List.mem_cons_of_mem _ hh'
    | none =>
      rw [hhead] at h
      have hdrop : buf.lheads.drop lhpos = [] :=
        List.drop_eq_nil_of_le (List.getElem?_eq_none_iff.mp hhead)
      dsimp only at h
      split_ifs at h with hstr
      · -- the bytes after the last head
        cases h
        refine ⟨?_, hsorted, ?_⟩
        · simp only [rest, Option.getD_none, List.nil_append, hdrop, toBytesLoop, List.drop_length,
            List.append_nil]
        · show ∀ h' ∈ buf.lheads.drop lhpos, buf.str.length ≤ h'.offset
          simp [hdrop]
      · cases h
  · cases h
    exact ⟨rfl, hv⟩

/-- `next` hands out pieces only while it holds the buffer, and keeps it. -/
theorem buf_next {r r' : EncReader} {piece : List UInt8} (h : r.next = (some piece, r')) :
    ∃ buf, r.buf = some buf ∧ r'.buf = some buf := by
  unfold next at h
  rcases r with ⟨_ | buf, lhpos, strpos, _ | p⟩
  · cases h
  · cases h
  · dsimp only at h
    refine ⟨buf, rfl, ?_⟩
    split at h
    · split_ifs at h <;> cases h <;> rfl
    · split_ifs at h
      · cases h
        rfl
      · cases h
  · cases h
    exact ⟨buf, rfl, rfl⟩

/-- When no piece is left, nothing is. -/
theorem rest_next_none {r r' : EncReader} (h : r.next = (none, r')) : r.rest = [] := by
  unfold next at h
  rcases r with ⟨_ | buf, lhpos, strpos, _ | p⟩
  · rfl
  · rfl
  · dsimp only at h
    cases hhead : buf.lheads[lhpos]? with
    | some head =>
      rw [hhead] at h
      dsimp only at h
      split_ifs at h <;> cases h
    | none =>
      rw [hhead] at h
      dsimp only at h
      split_ifs at h with hstr
      · cases h
      · have hdrop : buf.lheads.drop lhpos = [] :=
          List.drop_eq_nil_of_le (List.getElem?_eq_none_iff.mp hhead)
        simp only [rest, Option.getD_none, List.nil_append, hdrop, toBytesLoop]
        exact List.drop_of_length_le (by omega)
  · cases h

/-- What one `Read` copies is the front of what was left. It copies the whole buffer unless it
returns `io.EOF`, and after `io.EOF` nothing is left. Induction along the loop of `Read`. -/
theorem rest_readLoop (r : EncReader) (len : Nat) (out : List UInt8) (hv : r.Valid)
    (hout : out.length ≤ len) :
    ∃ copied, (r.readLoop len out).1.1 = out ++ copied ∧
      copied ++ (r.readLoop len out).2.rest = r.rest ∧ (r.readLoop len out).2.Valid ∧
      ((r.readLoop len out).1.2 = false → (r.readLoop len out).1.1.length = len) ∧
      ((r.readLoop len out).1.2 = true → (r.readLoop len out).2.rest = []) := by
  induction r, out using readLoop.induct len with
  | case1 r out r' h =>
    rw [readLoop, h]
    refine ⟨[], by simp, ?_, trivial, by simp, fun _ => rfl⟩
    simp only [rest, List.nil_append]
    exact (rest_next_none h).symm
  | case2 r out piece r' h nn hnn =>
    -- the buffer fills up inside the piece: the rest of it waits for the next read
    have hlt : min (len - out.length) piece.length < piece.length := hnn
    rw [readLoop, h]
    dsimp only
    rw [if_pos hlt]
    obtain ⟨hrest, hv'⟩ := rest_next hv h
    refine ⟨piece.take nn, rfl, ?_, hv', ?_, by simp⟩
    · obtain ⟨buf, -, hb⟩ := buf_next h
      simp only [rest, hb, Option.getD_some, Option.getD_none, List.nil_append] at hrest ⊢
      rw [← List.append_assoc, List.take_append_drop, hrest]
    · intro _
      simp only [List.length_append, List.length_take]
      omega
  | case3 r out piece r' h nn hnn ih =>
    -- the piece fits whole: the loop goes on with the next one
    have hge : ¬ min (len - out.length) piece.length < piece.length := hnn
    rw [readLoop, h]
    dsimp only
    rw [if_neg hge]
    obtain ⟨hrest, hv'⟩ := rest_next hv h
    have hcopy : piece.take nn = piece := List.take_of_length_le (by omega)
    have hout' : (out ++ piece.take nn).length ≤ len := by
      simp only [List.length_append, List.length_take]
      omega
    obtain ⟨copied, h1, h2, h3, h4, h5⟩ := ih hv' hout'
    refine ⟨piece ++ copied, by rw [h1, hcopy, List.append_assoc], ?_, h3, h4, h5⟩
    rw [List.append_assoc, h2, hrest]

/-- Reading with any buffer lengths yields a front of the bytes left; `io.EOF` comes only
once all of them are read. -/
theorem readAll_prefix (lens : List Nat) (r : EncReader) (hv : r.Valid) :
    ∃ rest', (readAll lens r).1 ++ rest' = r.rest ∧ ((readAll lens r).2 = true → rest' = []) := by
  induction lens generalizing r with
  | nil => exact ⟨r.rest, rfl, by simp [readAll]⟩
  | cons len lens ih =>
    obtain ⟨copied, h1, h2, h3, -, h5⟩ := rest_readLoop r len [] hv (Nat.zero_le _)
    rcases hres : r.readLoop len [] with ⟨⟨out, eof⟩, r'⟩
    rw [hres] at h1 h2 h3 h5
    dsimp only at h1 h2 h3 h5
    rw [List.nil_append] at h1
    subst h1
    cases eof with
    | true =>
      refine ⟨[], ?_, fun _ => rfl⟩
      simp only [readAll, Read, hres, List.append_nil]
      rw [← h2, h5 rfl, List.append_nil]
    | false =>
      obtain ⟨rest', hr1, hr2⟩ := ih r' h3
      refine ⟨rest', ?_, ?_⟩
      · simp only [readAll, Read, hres]
        rw [List.append_assoc, hr1, h2]
      · simpa only [readAll, Read, hres] using hr2

/-- **Reading to `io.EOF` yields the bytes of `toBytes`**, whatever the buffer lengths. -/
theorem readAll_eof {w : EncBuf} {opened : List Nat} (h : Accounted w opened) (lens : List Nat)
    (heof : (readAll lens (new w)).2 = true) : (readAll lens (new w)).1 = w.toBytes := by
  obtain ⟨rest', hrest, hnil⟩ := readAll_prefix lens (new w) (valid_new h)
  rw [← rest_new, ← hrest, hnil heof, List.append_nil]

/-- **`io.EOF` comes**: with buffers that are not empty, every read that does not return
`io.EOF` copies a whole buffer, so one read more than there are bytes left reaches it. -/
theorem readAll_reaches_eof (lens : List Nat) (r : EncReader) (hv : r.Valid)
    (hpos : ∀ len ∈ lens, 0 < len) (hlen : r.rest.length < lens.length) :
    (readAll lens r).2 = true := by
  induction lens generalizing r with
  | nil => cases hlen
  | cons len lens ih =>
    obtain ⟨copied, h1, h2, h3, h4, -⟩ := rest_readLoop r len [] hv (Nat.zero_le _)
    rcases hres : r.readLoop len [] with ⟨⟨out, eof⟩, r'⟩
    rw [hres] at h1 h2 h3 h4
    dsimp only at h1 h2 h3 h4
    rw [List.nil_append] at h1
    subst h1
    cases eof with
    | true => simp only [readAll, Read, hres]
    | false =>
      simp only [readAll, Read, hres]
      apply ih r' h3 fun l hl => hpos l (List.mem_cons_of_mem _ hl)
      -- the read copied a whole buffer, `len ≥ 1` bytes, off what was left
      have hcopied := h4 rfl
      have hsplit := congrArg List.length h2
      have := hpos len List.mem_cons_self
      simp only [List.length_append, List.length_cons] at hsplit hlen
      omega

end EncReader

/-! ### The three outputs agree -/

/-- **The three outputs of an `encbuf` agree.** After any sequence of calls on a fresh buffer,
`lhsize` is the total length of the headers of the lists closed so far. Once every list is
closed, `toBytes` fills exactly `size()` bytes and `toWriter` writes the same bytes. Reading the
`encReader` to `io.EOF` with buffers of any lengths yields them too, and with buffers that are
not empty `io.EOF` comes within one read more than `size()`. -/
theorem encbuf_outputs_agree {calls : List EncCall} {w : EncBuf} {opened : List Nat}
    (hrun : runCalls calls (EncBuf.empty, []) = some (w, opened)) (hsize : w.size < 2 ^ 64) :
    w.lhsize = closedHeaderLength w opened ∧
      (opened = [] →
        w.toBytes.length = w.size ∧ w.toWriter.flatten = w.toBytes ∧
        (∀ lens, (EncReader.readAll lens (EncReader.new w)).2 = true →
          (EncReader.readAll lens (EncReader.new w)).1 = w.toBytes) ∧
        (∀ lens, (∀ len ∈ lens, 0 < len) → w.size < lens.length →
          (EncReader.readAll lens (EncReader.new w)).2 = true)) := by
  have h : Accounted w opened := @accounted_runCalls _ (EncBuf.empty, []) _ accounted_empty hrun hsize
  refine ⟨h.lhsize_eq, ?_⟩
  rintro rfl
  refine ⟨length_toBytes h, flatten_toWriter h, EncReader.readAll_eof h, ?_⟩
  intro lens hpos hlen
  apply EncReader.readAll_reaches_eof lens _ (EncReader.valid_new h) hpos
  rw [EncReader.rest_new, length_toBytes h]
  exact hlen

/-- A list holding a two-byte string. -/
theorem encbuf_outputs_agree_pair :
    runCalls [.list, .string [1, 2], .listEnd] (EncBuf.empty, []) =
        some (⟨[0x82, 1, 2], [⟨0, 3⟩], 1⟩, []) ∧
      (⟨[0x82, 1, 2], [⟨0, 3⟩], 1⟩ : EncBuf).size < 2 ^ 64 ∧
      (⟨[0x82, 1, 2], [⟨0, 3⟩], 1⟩ : EncBuf).lhsize =
          closedHeaderLength ⟨[0x82, 1, 2], [⟨0, 3⟩], 1⟩ [] ∧
      (([] : List Nat) = [] →
        (⟨[0x82, 1, 2], [⟨0, 3⟩], 1⟩ : EncBuf).toBytes.length = (⟨[0x82, 1, 2], [⟨0, 3⟩], 1⟩ : EncBuf).size ∧
        (⟨[0x82, 1, 2], [⟨0, 3⟩], 1⟩ : EncBuf).toWriter.flatten = (⟨[0x82, 1, 2], [⟨0, 3⟩], 1⟩ : EncBuf).toBytes ∧
        (∀ lens, (EncReader.readAll lens (EncReader.new ⟨[0x82, 1, 2], [⟨0, 3⟩], 1⟩)).2 = true →
          (EncReader.readAll lens (EncReader.new ⟨[0x82, 1, 2], [⟨0, 3⟩], 1⟩)).1 =
            (⟨[0x82, 1, 2], [⟨0, 3⟩], 1⟩ : EncBuf).toBytes) ∧
        (∀ lens, (∀ len ∈ lens, 0 < len) → (⟨[0x82, 1, 2], [⟨0, 3⟩], 1⟩ : EncBuf).size < lens.length →
          (EncReader.readAll lens (EncReader.new ⟨[0x82, 1, 2], [⟨0, 3⟩], 1⟩)).2 = true)) :=
  ⟨by decide, by decide, @encbuf_outputs_agree [.list, .string [1, 2], .listEnd] _ _
    (by decide) (by decide)⟩

end EpvChain.Rlp
