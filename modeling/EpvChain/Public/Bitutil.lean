import Mathlib
import EpvChain.Lib.ExceptLoop

/-!
# Sparse bitset compression (`public/bitutil/compress.go`)

`bitsetEncodeBytes` writes a byte string as the encoding of its non-zero bitset (a bit per byte,
most significant first) followed by its non-zero bytes, recursively down to a single byte.
`bitsetDecodePartialBytes` reads it back for a known length and says how many bytes it read.
`CompressBytes` keeps the encoding only when shorter; `DecompressBytes` tells them apart by length.

* `bitAt_encodeLoop`, `encodeLoop_snd` — the encoder's loop sets a position's bit exactly where
  the byte is non-zero, and collects the non-zero bytes in order.
* `decodeLoop_clearFrom`, `LoopInv.step` — the decoder's loop puts every byte back in place.
* `decodePartial_encode` — decoding the encoding of `d` followed by anything gives `d` and reads
  exactly the encoding, unless `d` is all zeros and something follows.
* `encode_decodePartial`, `compress_roundTrip_canonical` — what the decoder accepts is canonical,
  and both round trips hold.
-/

namespace EpvChain.Bitutil

/-- The errors of `compress.go`, and the runtime panic of `make` with a negative length. -/
inductive BitutilError where
  | missingData
  | unreferencedData
  | exceededTarget
  | zeroContent
  | panicked
  deriving DecidableEq, Repr

/-- `1 << byte(7-i%8)`: the bit of position `i` within its byte, most significant first. -/
def mask (i : Nat) : UInt8 := 1 <<< (7 - i % 8).toUInt8

/-! ### The encoder -/

/-- One turn of `bitsetEncodeBytes`'s loop `for i, b := range data`: a non-zero byte is kept,
and the bit of its position is set.
Source: `public/bitutil/compress.go` `bitsetEncodeBytes` -/
def encodeStep (acc : List UInt8 × List UInt8) (bi : UInt8 × Nat) : List UInt8 × List UInt8 :=
  if bi.1 ≠ 0 then (acc.1.modify (bi.2 / 8) (· ||| mask bi.2), acc.2 ++ [bi.1]) else acc

/-- The loop of `bitsetEncodeBytes`: the non-zero bitset and the non-zero bytes. -/
def encodeLoop (data : List UInt8) : List UInt8 × List UInt8 :=
  data.zipIdx.foldl encodeStep (List.replicate ((data.length + 7) / 8) 0, [])

theorem length_foldl_encodeStep (l : List (UInt8 × Nat)) (acc : List UInt8 × List UInt8) :
    (l.foldl encodeStep acc).1.length = acc.1.length := by
  induction l generalizing acc with
  | nil => rfl
  | cons bi l ih =>
    rw [List.foldl_cons, ih]
    unfold encodeStep
    split
    · exact List.length_modify ..
    · rfl

@[simp] theorem length_encodeLoop_fst (data : List UInt8) :
    (encodeLoop data).1.length = (data.length + 7) / 8 := by
  rw [encodeLoop, length_foldl_encodeStep, List.length_replicate]

/-- `bitsetEncodeBytes`: nothing for the empty string and a zero byte, a non-zero byte as it
is, else the encoding of the non-zero bitset followed by the non-zero bytes.
Source: `public/bitutil/compress.go` `bitsetEncodeBytes` -/
def bitsetEncodeBytes (data : List UInt8) : List UInt8 :=
  if data.length = 0 then []
  else if h1 : data.length = 1 then
    if data[0] = 0 then [] else data
  else
    let r := encodeLoop data
    if r.2.length = 0 then [] else bitsetEncodeBytes r.1 ++ r.2
termination_by data.length
decreasing_by
  rw [length_encodeLoop_fst]
  omega

/-- `CompressBytes`: the encoding when it is shorter, else a copy of the data.
Source: `public/bitutil/compress.go` `CompressBytes` -/
def CompressBytes (data : List UInt8) : List UInt8 :=
  let out := bitsetEncodeBytes data
  if out.length < data.length then out else data

/-! ### The decoder -/

/-- One turn of `bitsetDecodePartialBytes`'s loop over the bits of the bitset: at a set bit the
next byte of the data goes to position `i`; it must exist, fall inside the target and be
non-zero.
Source: `public/bitutil/compress.go` `bitsetDecodePartialBytes` -/
def decodeStep (nonZeroBitset data : List UInt8) (acc : List UInt8 × Nat) (i : Nat) :
    Except BitutilError (List UInt8 × Nat) :=
  let decomp := acc.1
  let ptr := acc.2
  if nonZeroBitset.getD (i / 8) 0 &&& mask i != 0 then
    if h : ptr ≥ data.length then .error .missingData
    else if i ≥ decomp.length then .error .exceededTarget
    else if data[ptr] = 0 then .error .zeroContent
    else .ok (decomp.set i data[ptr], ptr + 1)
  else .ok (decomp, ptr)

/-- `bitsetDecodePartialBytes`: the decoded bytes for a target length, and how many bytes of
the data were read. A negative target panics in `make`.
Source: `public/bitutil/compress.go` `bitsetDecodePartialBytes` -/
def bitsetDecodePartialBytes (data : List UInt8) (target : Int) :
    Except BitutilError (List UInt8 × Nat) :=
  if target = 0 then .ok ([], 0)
  else if target < 0 then .error .panicked
  else
    let decomp := List.replicate target.toNat 0
    if h : data.length = 0 then .ok (decomp, 0)
    else if target = 1 then
      let decomp := decomp.set 0 data[0]
      if data[0] ≠ 0 then .ok (decomp, 1) else .ok (decomp, 0)
    else
      match bitsetDecodePartialBytes data ((target + 7) / 8) with
      | .error e => .error e
      | .ok (nonZeroBitset, ptr) =>
        (List.range (8 * nonZeroBitset.length)).foldlM (decodeStep nonZeroBitset data)
          (decomp, ptr)
termination_by target.toNat
decreasing_by omega

/-- `bitsetDecodeBytes`: the decoded bytes, when the whole data was read.
Source: `public/bitutil/compress.go` `bitsetDecodeBytes` -/
def bitsetDecodeBytes (data : List UInt8) (target : Int) : Except BitutilError (List UInt8) :=
  match bitsetDecodePartialBytes data target with
  | .error e => .error e
  | .ok (out, size) => if size ≠ data.length then .error .unreferencedData else .ok out

/-- `DecompressBytes`: data of the target length is a copy, shorter data an encoding.
Source: `public/bitutil/compress.go` `DecompressBytes` -/
def DecompressBytes (data : List UInt8) (target : Int) : Except BitutilError (List UInt8) :=
  if (data.length : Int) > target then .error .exceededTarget
  else if (data.length : Int) = target then .ok data
  else bitsetDecodeBytes data target

/-! ### Bits of bytes -/

theorem toNat_mask (i : Nat) : (mask i).toNat = 2 ^ (7 - i % 8) := by
  have h7 : 7 - i % 8 < 8 := by omega
  have hshift : ((7 - i % 8).toUInt8).toNat = 7 - i % 8 := by
    simp [Nat.toUInt8]
    omega
  have hle : 2 ^ (7 - i % 8) ≤ 2 ^ 7 := Nat.pow_le_pow_right (by norm_num) (by omega)
  unfold mask
  rw [UInt8.toNat_shiftLeft, hshift, Nat.mod_eq_of_lt h7, UInt8.toNat_one, Nat.one_shiftLeft]
  exact Nat.mod_eq_of_lt (by omega)

/-- The decoder's test of a bit is the bit of the byte's number. -/
theorem and_mask_ne_zero (x : UInt8) (i : Nat) :
    (x &&& mask i != 0) = x.toNat.testBit (7 - i % 8) := by
  have h : (x &&& mask i = 0) ↔ (x &&& mask i).toNat = 0 := by
    rw [← UInt8.toNat_inj]
    rfl
  rw [UInt8.toNat_and, toNat_mask, Nat.and_two_pow] at h
  cases hb : x.toNat.testBit (7 - i % 8) <;> simp_all

/-- The encoder's setting of a bit sets that bit and no other. -/
theorem testBit_or_mask (x : UInt8) (i k : Nat) :
    (x ||| mask i).toNat.testBit k = (x.toNat.testBit k || decide (k = 7 - i % 8)) := by
  rw [UInt8.toNat_or, Nat.testBit_or, toNat_mask, Nat.testBit_two_pow]
  simp [eq_comm]

/-- Bytes with the same eight bits are equal. -/
theorem uint8_eq_of_testBit {x y : UInt8} (h : ∀ k < 8, x.toNat.testBit k = y.toNat.testBit k) :
    x = y := by
  apply UInt8.toNat_inj.mp
  apply Nat.eq_of_testBit_eq
  intro k
  by_cases hk : k < 8
  · exact h k hk
  · -- past the eighth bit a byte has none
    have h256 : 2 ^ 8 ≤ 2 ^ k := Nat.pow_le_pow_right (by norm_num) (by omega)
    rw [Nat.testBit_lt_two_pow (lt_of_lt_of_le x.toNat_lt h256),
      Nat.testBit_lt_two_pow (lt_of_lt_of_le y.toNat_lt h256)]

/-! ### The bits of a bitset -/

/-- Bit `i` of a bitset, most significant first within each byte; past its end none is set. -/
def bitAt (B : List UInt8) (i : Nat) : Bool := (B.getD (i / 8) 0).toNat.testBit (7 - i % 8)

theorem bitAt_replicate_zero (n i : Nat) : bitAt (List.replicate n 0) i = false := by
  simp [bitAt, List.getD_eq_getElem?_getD, List.getElem?_replicate]
  split <;> simp

/-- Setting bit `i` of a bitset sets that bit and no other. -/
theorem bitAt_modify {B : List UInt8} {i : Nat} (hi : i / 8 < B.length) (j : Nat) :
    bitAt (B.modify (i / 8) (· ||| mask i)) j = (bitAt B j || decide (j = i)) := by
  unfold bitAt
  rw [List.getD_eq_getElem?_getD, List.getElem?_modify, List.getD_eq_getElem?_getD]
  by_cases hj : i / 8 = j / 8
  · -- the byte of `i`: its other bits are kept
    have hj' : j / 8 < B.length := hj ▸ hi
    rw [List.getElem?_eq_getElem hj']
    simp only [Option.map_eq_map, Option.map_some, if_pos hj, Option.getD_some]
    rw [testBit_or_mask]
    congr 1
    exact decide_eq_decide.mpr (by omega)
  · have hne : j ≠ i := fun h => hj (h ▸ rfl)
    cases hB : B[j / 8]? <;> simp [hj, hne]

/-- Or-ing a byte of a bitset with `c` sets the bits of `c` in that byte and no other. -/
theorem bitAt_modify_or {B : List UInt8} {i : Nat} (hi : i < B.length) (c : UInt8) (j : Nat) :
    bitAt (B.modify i (· ||| c)) j =
      (bitAt B j || (decide (j / 8 = i) && c.toNat.testBit (7 - j % 8))) := by
  unfold bitAt
  rw [List.getD_eq_getElem?_getD, List.getElem?_modify, List.getD_eq_getElem?_getD]
  by_cases hj : i = j / 8
  · rw [← hj, List.getElem?_eq_getElem hi]
    simp only [Option.map_eq_map, Option.map_some, if_true, Option.getD_some, UInt8.toNat_or,
      Nat.testBit_or, decide_true, Bool.true_and]
  · have hj' : ¬ j / 8 = i := fun h => hj h.symm
    cases hB : B[j / 8]? <;> simp [hj, hj']

/-- Two bitsets of one length with the same bits are equal. -/
theorem eq_of_bitAt {B C : List UInt8} (hlen : B.length = C.length)
    (h : ∀ i, bitAt B i = bitAt C i) : B = C := by
  apply List.ext_getElem hlen
  intro n hB hC
  apply uint8_eq_of_testBit
  intro k hk
  have hbit := h (8 * n + (7 - k))
  have hdiv : (8 * n + (7 - k)) / 8 = n := by omega
  have hmod : 7 - (8 * n + (7 - k)) % 8 = k := by omega
  simp only [bitAt, hdiv, hmod, List.getD_eq_getElem?_getD, List.getElem?_eq_getElem hB,
    List.getElem?_eq_getElem hC, Option.getD_some] at hbit
  exact hbit

/-- A bitset with no bit set is all zeros. -/
theorem eq_replicate_of_bitAt {B : List UInt8} (h : ∀ i, bitAt B i = false) :
    B = List.replicate B.length 0 :=
  eq_of_bitAt (List.length_replicate ..).symm fun i => by rw [h, bitAt_replicate_zero]

/-! ### What the encoder's loop builds -/

/-- The loop from position `k` over `l` sets the bits of the non-zero bytes of `l` and keeps
those bytes, in order. The induction is on `l`, for every start and accumulator. -/
theorem foldl_encodeStep (l : List UInt8) (k : Nat) (acc : List UInt8 × List UInt8)
    (hk : ∀ j, k ≤ j → j < k + l.length → j / 8 < acc.1.length) :
    (∀ j, bitAt ((l.zipIdx k).foldl encodeStep acc).1 j =
      (bitAt acc.1 j || (decide (k ≤ j) && (l.getD (j - k) 0 != 0)))) ∧
    ((l.zipIdx k).foldl encodeStep acc).2 = acc.2 ++ l.filter (· != 0) := by
  induction l generalizing k acc with
  | nil => simp
  | cons b l ih =>
    rw [List.zipIdx_cons, List.foldl_cons]
    -- one turn: the bit of position `k` is set when `b` is not zero
    have hstep : (∀ j, bitAt (encodeStep acc (b, k)).1 j =
        (bitAt acc.1 j || (b != 0 && decide (j = k)))) ∧
        (encodeStep acc (b, k)).2 = acc.2 ++ [b].filter (· != 0) := by
      by_cases hb : b = 0
      · simp [encodeStep, hb]
      · have he : encodeStep acc (b, k) = (acc.1.modify (k / 8) (· ||| mask k), acc.2 ++ [b]) :=
          if_pos hb
        rw [he]
        refine ⟨fun j => ?_, by simp [hb]⟩
        rw [bitAt_modify (hk k le_rfl (by simp))]
        rw [show (b != 0) = true from bne_iff_ne.mpr hb, Bool.true_and]
    have hlen : (encodeStep acc (b, k)).1.length = acc.1.length := by
      unfold encodeStep
      split
      · exact List.length_modify ..
      · rfl
    obtain ⟨hbits, hbytes⟩ := ih (k + 1) (encodeStep acc (b, k))
      (fun j hj hj' => hlen ▸ hk j (by omega) (by simp; omega))
    refine ⟨fun j => ?_, by rw [hbytes, hstep.2, List.append_assoc, ← List.filter_append]; rfl⟩
    rw [hbits, hstep.1]
    -- the position `k` itself, or one of `l`'s
    rcases Nat.lt_trichotomy j k with hjk | rfl | hjk
    · simp [show ¬k ≤ j by omega, show ¬k + 1 ≤ j by omega, show j ≠ k by omega]
    · simp
    · have hsub : j - k = (j - (k + 1)) + 1 := by omega
      simp [show k ≤ j by omega, show k + 1 ≤ j by omega, show j ≠ k by omega, hsub]

/-- The bitset the encoder builds has the bit of each position set exactly where the byte is
not zero. -/
theorem bitAt_encodeLoop (data : List UInt8) (j : Nat) :
    bitAt (encodeLoop data).1 j = (data.getD j 0 != 0) := by
  have h := (foldl_encodeStep data 0 (List.replicate ((data.length + 7) / 8) 0, [])
    (fun j _ hj => by simp; omega)).1 j
  rw [encodeLoop, h, bitAt_replicate_zero]
  simp

theorem encodeLoop_snd (data : List UInt8) : (encodeLoop data).2 = data.filter (· != 0) := by
  rw [encodeLoop, (foldl_encodeStep data 0 _ (fun j _ hj => by simp; omega)).2, List.nil_append]

/-! ### The encoder's recursion -/

/-- A string of two or more bytes encodes as the encoding of its bitset followed by its
non-zero bytes, unless it has none. -/
theorem bitsetEncodeBytes_of_two_le {data : List UInt8} (h : 2 ≤ data.length) :
    bitsetEncodeBytes data =
      if data.filter (· != 0) = [] then []
      else bitsetEncodeBytes (encodeLoop data).1 ++ data.filter (· != 0) := by
  rw [bitsetEncodeBytes, if_neg (by omega), dif_neg (by omega)]
  simp only [encodeLoop_snd, List.length_eq_zero_iff]

/-- A string with no non-zero byte encodes to nothing, at every length. -/
theorem bitsetEncodeBytes_nil : bitsetEncodeBytes [] = [] := by
  rw [bitsetEncodeBytes]
  rfl

theorem bitsetEncodeBytes_singleton (x : UInt8) :
    bitsetEncodeBytes [x] = if x = 0 then [] else [x] := by
  rw [bitsetEncodeBytes]
  rfl

theorem bitsetEncodeBytes_of_nonZero_eq_nil {data : List UInt8} (h : data.filter (· != 0) = []) :
    bitsetEncodeBytes data = [] := by
  match data, h with
  | [], _ => exact bitsetEncodeBytes_nil
  | [x], h =>
    have hx : x = 0 := by simpa using h
    rw [bitsetEncodeBytes_singleton, if_pos hx]
  | x :: y :: l, h => rw [bitsetEncodeBytes_of_two_le (by simp), if_pos h]

/-- A set bit is a non-zero byte of the bitset. -/
theorem nonZero_ne_nil_of_bitAt {B : List UInt8} {i : Nat} (h : bitAt B i = true) :
    B.filter (· != 0) ≠ [] := by
  intro hnil
  have hz : B.getD (i / 8) 0 = 0 := by
    rw [List.getD_eq_getElem?_getD]
    cases hB : B[i / 8]? with
    | none => rfl
    | some x =>
      -- every byte of `B` is zero
      have hx : x ∈ B := List.mem_of_getElem? hB
      simpa using List.filter_eq_nil_iff.mp hnil x hx
  rw [bitAt, hz] at h
  simp at h

/-- Past the end of a bitset no bit is set. -/
theorem bitAt_of_length_le {B : List UInt8} {i : Nat} (h : 8 * B.length ≤ i) :
    bitAt B i = false := by
  simp [bitAt, List.getD_eq_getElem?_getD, List.getElem?_eq_none (show B.length ≤ i / 8 by omega)]

/-! ### The decoder's cases -/

theorem bitsetDecodePartialBytes_zero (data : List UInt8) :
    bitsetDecodePartialBytes data 0 = .ok ([], 0) := by
  rw [bitsetDecodePartialBytes, if_pos rfl]

theorem bitsetDecodePartialBytes_nil {target : Int} (ht : 0 < target) :
    bitsetDecodePartialBytes [] target = .ok (List.replicate target.toNat 0, 0) := by
  rw [bitsetDecodePartialBytes, if_neg (by omega), if_neg (by omega)]
  rfl

/-- For a target of one byte the decoder reads the first byte, and counts it read only when it
is not zero. -/
theorem bitsetDecodePartialBytes_one (x : UInt8) (rest : List UInt8) :
    bitsetDecodePartialBytes (x :: rest) 1 = if x ≠ 0 then .ok ([x], 1) else .ok ([x], 0) := by
  rw [bitsetDecodePartialBytes, if_neg (by decide), if_neg (by decide)]
  rfl

/-- For a target of two bytes or more the decoder reads the bitset, then runs its loop. -/
theorem bitsetDecodePartialBytes_of_two_le {data : List UInt8} {target : Int} (ht : 2 ≤ target)
    (hdata : data ≠ []) :
    bitsetDecodePartialBytes data target =
      match bitsetDecodePartialBytes data ((target + 7) / 8) with
      | .error e => .error e
      | .ok (nonZeroBitset, ptr) =>
        (List.range (8 * nonZeroBitset.length)).foldlM (decodeStep nonZeroBitset data)
          (List.replicate target.toNat 0, ptr) := by
  rw [bitsetDecodePartialBytes, if_neg (by omega), if_neg (by omega)]
  dsimp only
  rw [dif_neg (by simpa using hdata), if_neg (by omega)]

/-! ### The decoder's turn, and its output part-way -/

/-- `d` with its bytes from position `n` on cleared: the decoder's output after `n` turns. -/
def clearFrom (d : List UInt8) (n : Nat) : List UInt8 := d.take n ++ List.replicate (d.length - n) 0

@[simp] theorem length_clearFrom (d : List UInt8) (n : Nat) : (clearFrom d n).length = d.length := by
  simp [clearFrom]
  omega

theorem getElem_clearFrom {d : List UInt8} {n j : Nat} (hj : j < d.length)
    (hj' : j < (clearFrom d n).length) : (clearFrom d n)[j] = if j < n then d[j] else 0 := by
  by_cases h : j < n
  · simp [clearFrom, h, hj]
  · simp [clearFrom, List.getElem_append, h]

theorem clearFrom_zero (d : List UInt8) : clearFrom d 0 = List.replicate d.length 0 := by
  simp [clearFrom]

theorem clearFrom_of_length_le {d : List UInt8} {n : Nat} (h : d.length ≤ n) : clearFrom d n = d := by
  simp [clearFrom, List.take_of_length_le h, Nat.sub_eq_zero_of_le h]

/-- One more turn puts byte `n` back. -/
theorem clearFrom_succ {d : List UInt8} {n : Nat} (h : n < d.length) :
    clearFrom d (n + 1) = (clearFrom d n).set n d[n] := by
  apply List.ext_getElem (by simp)
  intro j hj hj'
  have hjd : j < d.length := by simpa using hj
  rw [List.getElem_set, getElem_clearFrom hjd, getElem_clearFrom hjd]
  by_cases hjn : j = n
  · subst hjn
    simp
  · rw [if_neg (Ne.symm hjn)]
    by_cases hlt : j < n
    · rw [if_pos hlt, if_pos (by omega)]
    · rw [if_neg hlt, if_neg (by omega)]

/-- A zero byte is put back by doing nothing. -/
theorem clearFrom_succ_of_zero {d : List UInt8} {n : Nat} (h : d.getD n 0 = 0) :
    clearFrom d (n + 1) = clearFrom d n := by
  by_cases hn : n < d.length
  · have hz : d[n] = 0 := by simpa [List.getD_eq_getElem?_getD, hn] using h
    -- byte `n` of the output is already zero
    have hn' : n < (clearFrom d n).length := by simpa using hn
    have h0 : (clearFrom d n)[n] = 0 := by
      rw [getElem_clearFrom hn hn', if_neg (Nat.lt_irrefl n)]
    rw [clearFrom_succ hn, hz, ← h0, List.set_getElem_self]
  · rw [clearFrom_of_length_le (by omega), clearFrom_of_length_le (by omega)]

/-- The non-zero bytes among the first `n + 1` are those among the first `n`, then byte `n` if
it is not zero. -/
theorem filter_take_succ (d : List UInt8) (n : Nat) :
    (d.take (n + 1)).filter (· != 0) = (d.take n).filter (· != 0) ++ [d.getD n 0].filter (· != 0) := by
  rw [List.take_add_one, List.filter_append]
  by_cases hn : n < d.length
  · simp [List.getElem?_eq_getElem hn, List.getD_eq_getElem?_getD]
  · simp [List.getElem?_eq_none (show d.length ≤ n by omega), List.getD_eq_getElem?_getD]

/-- `decodeStep` by cases: a clear bit leaves the state as it is; a set bit reads the next byte
into place, after the three checks of the source in their order. -/
theorem decodeStep_eq (B data o : List UInt8) (q i : Nat) :
    decodeStep B data (o, q) i =
      if bitAt B i then
        if h : data.length ≤ q then .error .missingData
        else if o.length ≤ i then .error .exceededTarget
        else if data[q] = 0 then .error .zeroContent
        else .ok (o.set i data[q], q + 1)
      else .ok (o, q) := by
  have hbit : (B.getD (i / 8) 0 &&& mask i != 0) = bitAt B i := and_mask_ne_zero _ _
  simp only [decodeStep, hbit, ge_iff_le]

/-! ### Decoding what the encoder wrote -/

section Forward

variable {B d data rest : List UInt8} {p : Nat}

/-- Where the decoder stands after `n` turns over the bytes of `d`: past the non-zero bytes of
the first `n`, with those of the rest still to read. -/
theorem drop_after_take (hdata : data.drop p = d.filter (· != 0) ++ rest) (n : Nat) :
    data.drop (p + ((d.take n).filter (· != 0)).length) = (d.drop n).filter (· != 0) ++ rest := by
  have hsplit : d.filter (· != 0) = (d.take n).filter (· != 0) ++ (d.drop n).filter (· != 0) := by
    rw [← List.filter_append, List.take_append_drop]
  rw [← List.drop_drop, hdata, hsplit, List.append_assoc, List.drop_left]

/-- One turn of the decoder over the bitset of `d`, fed the non-zero bytes of `d`, puts byte `n`
back. -/
theorem decodeStep_clearFrom (hbits : ∀ i, bitAt B i = (d.getD i 0 != 0))
    (hdata : data.drop p = d.filter (· != 0) ++ rest) (n : Nat) :
    decodeStep B data (clearFrom d n, p + ((d.take n).filter (· != 0)).length) n =
      .ok (clearFrom d (n + 1), p + ((d.take (n + 1)).filter (· != 0)).length) := by
  rw [decodeStep_eq, hbits n, filter_take_succ]
  by_cases hz : d.getD n 0 = 0
  · -- a zero byte: its bit is clear, and nothing is read
    rw [clearFrom_succ_of_zero hz, hz]
    simp
  · -- a non-zero byte: it is the next byte of the input
    have hn : n < d.length := by
      by_contra h
      exact hz (by simp [List.getD_eq_getElem?_getD, List.getElem?_eq_none (Nat.le_of_not_lt h)])
    have hdn : d.getD n 0 = d[n] := by simp [List.getD_eq_getElem?_getD, hn]
    have hne : d[n] ≠ 0 := hdn ▸ hz
    have hkeep : (d[n] != 0) = true := by simpa using hne
    have hdrop := drop_after_take hdata n
    rw [List.drop_eq_getElem_cons hn, List.filter_cons_of_pos (p := fun x => x != 0) hkeep] at hdrop
    have hptr : p + ((d.take n).filter (· != 0)).length < data.length := by
      have := congrArg List.length hdrop
      simp at this
      omega
    have hget : data[p + ((d.take n).filter (· != 0)).length] = d[n] := by
      have := congrArg (·[0]?) hdrop
      simp [List.getElem?_drop] at this
      exact (List.getElem?_eq_some_iff.mp this).2
    rw [hdn, if_pos hkeep, dif_neg (by omega), if_neg (by simpa using hn), hget, if_neg hne,
      clearFrom_succ hn]
    simp [hkeep, Nat.add_assoc]

/-- The decoder's loop, fed the non-zero bytes of `d` over the bitset of `d`, puts every byte
of `d` back in its place. -/
theorem decodeLoop_clearFrom (hbits : ∀ i, bitAt B i = (d.getD i 0 != 0))
    (hdata : data.drop p = d.filter (· != 0) ++ rest) (n : Nat) :
    (List.range n).foldlM (decodeStep B data) (List.replicate d.length 0, p) =
      .ok (clearFrom d n, p + ((d.take n).filter (· != 0)).length) := by
  have h0 : (List.replicate d.length 0, p) =
      (clearFrom d 0, p + ((d.take 0).filter (· != 0)).length) := by
    simp [clearFrom_zero]
  rw [h0]
  exact Lib.foldlM_range_eq_ok (decodeStep B data)
    (fun n => (clearFrom d n, p + ((d.take n).filter (· != 0)).length)) n
    fun i _ => decodeStep_clearFrom hbits hdata i

end Forward

/-- A string with no non-zero byte is all zeros. -/
theorem eq_replicate_of_filter_eq_nil {d : List UInt8} (h : d.filter (· != 0) = []) :
    d = List.replicate d.length 0 := by
  rw [List.eq_replicate_iff]
  refine ⟨rfl, fun x hx => ?_⟩
  simpa using List.filter_eq_nil_iff.mp h x hx

/-- A string with a non-zero byte has a bitset with a non-zero byte. -/
theorem encodeLoop_fst_nonZero {d : List UInt8} (h : d.filter (· != 0) ≠ []) :
    (encodeLoop d).1.filter (· != 0) ≠ [] := by
  obtain ⟨x, hx⟩ := List.exists_mem_of_ne_nil _ h
  rw [List.mem_filter] at hx
  obtain ⟨j, hj, rfl⟩ := List.getElem_of_mem hx.1
  apply nonZero_ne_nil_of_bitAt (i := j)
  rw [bitAt_encodeLoop]
  simpa [List.getD_eq_getElem?_getD, hj] using hx.2

/-- Decoding the encoding of `d`, with anything after it, gives `d` back and reads exactly the
encoding; unless `d` is all zeros and something follows, which the decoder cannot tell from an
encoding. The induction is on the length, which the recursion shrinks to its eighth. -/
theorem decodePartial_encode (d : List UInt8) : ∀ rest : List UInt8,
    (rest = [] ∨ d.filter (· != 0) ≠ []) →
    bitsetDecodePartialBytes (bitsetEncodeBytes d ++ rest) d.length =
      .ok (d, (bitsetEncodeBytes d).length) := by
  induction hn : d.length using Nat.strong_induction_on generalizing d with
  | _ n ih =>
  intro rest hrest
  subst hn
  rcases d with _ | ⟨x, _ | ⟨y, l⟩⟩
  · rw [bitsetEncodeBytes_nil]
    exact bitsetDecodePartialBytes_zero _
  · rw [bitsetEncodeBytes_singleton]
    by_cases hx : x = 0
    · -- a zero byte encodes to nothing, and nothing may follow it
      subst hx
      obtain rfl : rest = [] := hrest.resolve_right (by simp)
      rw [if_pos rfl]
      exact bitsetDecodePartialBytes_nil (by decide)
    · rw [if_neg hx, List.singleton_append]
      simpa [hx] using bitsetDecodePartialBytes_one x rest
  · -- two bytes or more: the bitset, then the non-zero bytes
    set d := x :: y :: l with hd
    have h2 : 2 ≤ d.length := by simp [d]
    rw [bitsetEncodeBytes_of_two_le h2]
    by_cases hz : d.filter (· != 0) = []
    · obtain rfl : rest = [] := hrest.resolve_right (not_not.mpr hz)
      rw [if_pos hz, List.nil_append, bitsetDecodePartialBytes_nil (by omega), Int.toNat_natCast,
        ← eq_replicate_of_filter_eq_nil hz]
      rfl
    · rw [if_neg hz]
      set B := (encodeLoop d).1 with hB
      have hBlen : B.length = (d.length + 7) / 8 := length_encodeLoop_fst d
      -- the bitset decodes first, from the front of the data
      have hrec := ih B.length (by omega) B rfl (d.filter (· != 0) ++ rest)
        (Or.inr (encodeLoop_fst_nonZero hz))
      have hdiv : ((d.length : Int) + 7) / 8 = (B.length : Int) := by omega
      have hne : bitsetEncodeBytes B ++ d.filter (· != 0) ++ rest ≠ [] := by simp [hz]
      rw [bitsetDecodePartialBytes_of_two_le (by omega) hne, hdiv, List.append_assoc, hrec]
      dsimp only
      -- then the loop puts the non-zero bytes back over the bitset
      rw [Int.toNat_natCast, decodeLoop_clearFrom (bitAt_encodeLoop d) (List.drop_left ..),
        clearFrom_of_length_le (by omega), List.take_of_length_le (by omega), List.length_append]

/-! ### What the decoder accepts is an encoding -/

theorem getD_set_of_lt {o : List UInt8} {n : Nat} (x : UInt8) (hn : n < o.length) (i : Nat) :
    (o.set n x).getD i 0 = if i = n then x else o.getD i 0 := by
  rw [List.getD_eq_getElem?_getD, List.getD_eq_getElem?_getD, List.getElem?_set]
  by_cases hi : i = n
  · subst hi
    simp [hn]
  · simp [Ne.symm hi, hi]

/-- Setting a non-zero byte at `n` in a string that is zero from `n` on adds it last to the
string's non-zero bytes. The induction is on the string, with `n` counting down. -/
theorem filter_set_of_zero_from {x : UInt8} (hx : x ≠ 0) :
    ∀ (o : List UInt8) (n : Nat), (∀ i, n ≤ i → o.getD i 0 = 0) → n < o.length →
      (o.set n x).filter (· != 0) = o.filter (· != 0) ++ [x]
  | [], _, _, hn => absurd hn (Nat.not_lt_zero _)
  | a :: o, 0, hz, _ => by
    -- the byte set is the first one, and all the others are zero
    have ha : a = 0 := by simpa using hz 0 le_rfl
    have ho : o.filter (· != 0) = [] := List.filter_eq_nil_iff.mpr fun y hy => by
      obtain ⟨j, hj, rfl⟩ := List.getElem_of_mem hy
      have hzj := hz (j + 1) (by omega)
      simp [List.getD_eq_getElem?_getD, hj] at hzj
      simp [hzj]
    simp [ha, ho, hx]
  | a :: o, n + 1, hz, hn => by
    have ih := filter_set_of_zero_from hx o n (fun i hi => by simpa using hz (i + 1) (by omega))
      (by simpa using hn)
    rw [List.set_cons_succ, List.filter_cons, List.filter_cons, ih]
    split <;> rfl

/-- What the decoder's loop keeps after `n` turns from the zero output of length `t`, having read
the bitset `B` up to `p0`: the output's length; the bytes read so far, which are the bitset's
then the output's non-zero bytes; and the output's non-zero positions, which are the set bits
below `n`. -/
structure LoopInv (B data : List UInt8) (t p0 n : Nat) (s : List UInt8 × Nat) : Prop where
  length_eq : s.1.length = t
  take_eq : data.take s.2 = data.take p0 ++ s.1.filter (· != 0)
  bits_eq : ∀ i, (s.1.getD i 0 != 0) = (decide (i < n) && bitAt B i)

namespace LoopInv

variable {B data : List UInt8} {t p0 n : Nat}

theorem init : LoopInv B data t p0 0 (List.replicate t 0, p0) where
  length_eq := List.length_replicate ..
  take_eq := by simp
  bits_eq i := by
    rw [List.getD_eq_getElem?_getD, List.getElem?_replicate]
    split <;> simp

/-- The output is zero from position `n` on. -/
theorem getD_of_le {s : List UInt8 × Nat} (hinv : LoopInv B data t p0 n s) {i : Nat}
    (hi : n ≤ i) : s.1.getD i 0 = 0 := by
  have h := hinv.bits_eq i
  rw [decide_eq_false (Nat.not_lt.mpr hi), Bool.false_and] at h
  simpa using h

/-- One turn of the loop that succeeds keeps the invariant: at a clear bit nothing changes, at
a set bit the byte read is the next non-zero byte of the output. -/
theorem step {s s' : List UInt8 × Nat} (hinv : LoopInv B data t p0 n s)
    (h : decodeStep B data s n = .ok s') : LoopInv B data t p0 (n + 1) s' := by
  obtain ⟨o, q⟩ := s
  -- below `n + 1` the bits are those below `n` and bit `n`
  have hbits : ∀ i, i ≠ n → (o.getD i 0 != 0) = (decide (i < n + 1) && bitAt B i) := by
    intro i hi
    rw [hinv.bits_eq i]
    congr 1
    exact decide_eq_decide.mpr (by omega)
  rw [decodeStep_eq] at h
  by_cases hb : bitAt B n
  · rw [if_pos hb] at h
    by_cases hq : data.length ≤ q
    · rw [dif_pos hq] at h
      cases h
    rw [dif_neg hq] at h
    by_cases ho : o.length ≤ n
    · rw [if_pos ho] at h
      cases h
    rw [if_neg ho] at h
    have hq' : q < data.length := by omega
    by_cases hx : data[q] = 0
    · rw [if_pos hx] at h
      cases h
    rw [if_neg hx] at h
    cases h
    -- a set bit: the byte read goes to position `n`
    refine ⟨by simpa using hinv.length_eq, ?_, fun i => ?_⟩
    · rw [List.take_add_one, List.getElem?_eq_getElem (by omega), Option.toList_some,
        hinv.take_eq, filter_set_of_zero_from hx o n (fun i hi => hinv.getD_of_le hi)
          (by omega), List.append_assoc]
    · rw [getD_set_of_lt _ (by omega)]
      by_cases hin : i = n
      · subst hin
        simp [hx, hb]
      · rw [if_neg hin, hbits i hin]
  · rw [if_neg hb] at h
    cases h
    -- a clear bit: the output stays zero at position `n`
    refine ⟨hinv.length_eq, hinv.take_eq, fun i => ?_⟩
    by_cases hin : i = n
    · subst hin
      rw [hinv.getD_of_le le_rfl]
      simp [hb]
    · exact hbits i hin

end LoopInv

/-- An all-zero string has an all-zero bitset. -/
theorem encodeLoop_fst_filter_eq_nil {d : List UInt8} (h : d.filter (· != 0) = []) :
    (encodeLoop d).1.filter (· != 0) = [] := by
  have hzero : ∀ i, bitAt (encodeLoop d).1 i = false := fun i => by
    rw [bitAt_encodeLoop, eq_replicate_of_filter_eq_nil h, List.getD_eq_getElem?_getD,
      List.getElem?_replicate]
    split <;> simp
  rw [eq_replicate_of_bitAt hzero]
  simp

/-- The decoder's loop over the whole bitset `B`, when it succeeds, leaves an output whose own
bitset is `B`. -/
theorem encodeLoop_of_loopInv {B data : List UInt8} {t p0 : Nat} {s : List UInt8 × Nat}
    (hinv : LoopInv B data t p0 (8 * B.length) s) (hlen : (t + 7) / 8 = B.length) :
    (encodeLoop s.1).1 = B := by
  apply eq_of_bitAt (by rw [length_encodeLoop_fst, hinv.length_eq, hlen])
  intro i
  rw [bitAt_encodeLoop, hinv.bits_eq i]
  by_cases hi : i < 8 * B.length
  · simp [hi]
  · -- past the bitset no bit is set
    simp [hi, bitAt_of_length_le (Nat.le_of_not_lt hi)]

/-- What the decoder accepts is canonical: the bytes it read are the encoding of what it
returns, which has the target's length. The induction is on the target, which the recursion
shrinks to its eighth. -/
theorem encode_decodePartial (data : List UInt8) : ∀ (target : Int) (out : List UInt8) (p : Nat),
    bitsetDecodePartialBytes data target = .ok (out, p) →
    bitsetEncodeBytes out = data.take p ∧ out.length = target.toNat := by
  intro target
  induction hn : target.toNat using Nat.strong_induction_on generalizing target with
  | _ n ih =>
  intro out p h
  subst hn
  -- the decoder's cases, in its order
  by_cases h0 : target = 0
  · subst h0
    rw [bitsetDecodePartialBytes_zero] at h
    cases h
    exact ⟨bitsetEncodeBytes_nil, rfl⟩
  by_cases hneg : target < 0
  · rw [bitsetDecodePartialBytes, if_neg h0, if_pos hneg] at h
    cases h
  rcases data with _ | ⟨x, rest⟩
  · rw [bitsetDecodePartialBytes_nil (by omega)] at h
    cases h
    exact ⟨bitsetEncodeBytes_of_nonZero_eq_nil (by simp), by simp⟩
  by_cases h1 : target = 1
  · subst h1
    rw [bitsetDecodePartialBytes_one] at h
    by_cases hx : x = 0
    · rw [if_neg (not_not.mpr hx)] at h
      cases h
      simp [bitsetEncodeBytes_singleton, hx]
    · rw [if_pos hx] at h
      cases h
      simp [bitsetEncodeBytes_singleton, hx]
  -- two bytes or more: the bitset first
  rw [bitsetDecodePartialBytes_of_two_le (by omega) (List.cons_ne_nil _ _)] at h
  cases hrec : bitsetDecodePartialBytes (x :: rest) ((target + 7) / 8) with
  | error e =>
    rw [hrec] at h
    cases h
  | ok r =>
    obtain ⟨B, p0⟩ := r
    rw [hrec] at h
    dsimp only at h
    obtain ⟨hencB, hBlen⟩ := ih _ (by omega) _ rfl B p0 hrec
    -- then the loop, whose invariant gives the output's bitset and non-zero bytes
    have hinv := Lib.foldlM_range_inv _ (LoopInv B (x :: rest) target.toNat p0)
      (fun _ _ _ hs hstep => hs.step hstep) _ _ _ LoopInv.init h
    have hB : (encodeLoop out).1 = B := encodeLoop_of_loopInv hinv (by omega)
    refine ⟨?_, hinv.length_eq⟩
    rw [bitsetEncodeBytes_of_two_le (by rw [hinv.length_eq]; omega), hinv.take_eq, hB]
    by_cases hz : out.filter (· != 0) = []
    · -- no byte was read after the bitset, which is then all zeros and encodes to nothing
      have hBz : B.filter (· != 0) = [] := hB ▸ encodeLoop_fst_filter_eq_nil hz
      rw [if_pos hz, ← hencB, bitsetEncodeBytes_of_nonZero_eq_nil hBz, hz]
      rfl
    · rw [if_neg hz, hencB]

/-- The decoder gives back what the encoder wrote, at its length. -/
theorem bitsetDecodeBytes_encode (d : List UInt8) :
    bitsetDecodeBytes (bitsetEncodeBytes d) d.length = .ok d := by
  have h := decodePartial_encode d [] (Or.inl rfl)
  rw [List.append_nil] at h
  rw [bitsetDecodeBytes, h]
  simp

/-- What the decoder accepts whole is the encoding of what it returns. -/
theorem encode_of_bitsetDecodeBytes {data out : List UInt8} {target : Int}
    (h : bitsetDecodeBytes data target = .ok out) : bitsetEncodeBytes out = data := by
  unfold bitsetDecodeBytes at h
  cases hp : bitsetDecodePartialBytes data target with
  | error e =>
    rw [hp] at h
    cases h
  | ok r =>
    obtain ⟨out', size⟩ := r
    rw [hp] at h
    dsimp only at h
    by_cases hs : size = data.length
    · rw [if_neg (not_not.mpr hs)] at h
      cases h
      rw [(encode_decodePartial data target out size hp).1, hs, List.take_length]
    · rw [if_pos hs] at h
      cases h

/-- Decompressing what `CompressBytes` made, at the original length, gives the original. -/
theorem decompress_compress (d : List UInt8) :
    DecompressBytes (CompressBytes d) d.length = .ok d := by
  unfold CompressBytes
  dsimp only
  by_cases hlt : (bitsetEncodeBytes d).length < d.length
  · rw [if_pos hlt, DecompressBytes, if_neg (by omega), if_neg (by omega)]
    exact bitsetDecodeBytes_encode d
  · rw [if_neg hlt, DecompressBytes, if_neg (by omega), if_pos rfl]

/-- Sparse bitset compression round-trips, and the encoding is canonical. -/
theorem compress_roundTrip_canonical :
    (∀ d : List UInt8, DecompressBytes (CompressBytes d) d.length = .ok d) ∧
    (∀ d : List UInt8, bitsetDecodeBytes (bitsetEncodeBytes d) d.length = .ok d) ∧
    (∀ (data : List UInt8) (target : Int) (out : List UInt8),
      bitsetDecodeBytes data target = .ok out → bitsetEncodeBytes out = data) :=
  ⟨decompress_compress, bitsetDecodeBytes_encode, fun _ _ _ h => encode_of_bitsetDecodeBytes h⟩

/-- A zero byte and a seven: the bitset `0b01000000`, then the seven. -/
theorem compress_roundTrip_zero_seven :
    bitsetDecodeBytes [0x40, 7] 2 = .ok [0, 7] ∧ bitsetEncodeBytes [0, 7] = [0x40, 7] := by
  have henc : bitsetEncodeBytes [0, 7] = [0x40, 7] := by
    rw [bitsetEncodeBytes]
    simp [encodeLoop, encodeStep, mask, bitsetEncodeBytes]
    decide
  have hdec : bitsetDecodeBytes [0x40, 7] 2 = .ok [0, 7] := by
    have h := compress_roundTrip_canonical.2.1 [0, 7]
    rwa [henc] at h
  exact ⟨hdec, compress_roundTrip_canonical.2.2 _ _ _ hdec⟩

end EpvChain.Bitutil
