import Mathlib

/-!
# Go's index and slice expressions, and their run-time panics

`s[i]` and `s[low:high]` on a Go slice, with the bounds as Go's `int`. Either panics when a
bound is out of range; the panic is an error of `Except`, so a model of a function that indexes
or slices says where it can panic, and a theorem that it returns says that it does not.

A slice's capacity is taken to be its length, as it is for a slice fresh from `make`, from a
decryption or from a decoder: `s[low:high]` is then in range when `0 ≤ low ≤ high ≤ len(s)`.

* `goIndex_eq_ok`, `goSlice_eq_ok`, `goModify_eq_ok`: in range, the element, the part of the
  slice and the slice with the element updated.
* `goSlice_middle`: the slice of `A ++ B ++ C` from the length of `A` on is `B`.
* `goSlice_eq_error`: out of range, the panic.
* `toInt_toInt64_of_lt`: Go's `int64(x)` of a `uint64` below `2^63` is the same number.
* `insertIdx_findIdx`, `eraseIdx_findIdx`: inserting at the index a `sort.Search` finds is
  `List.orderedInsert`, and deleting the element found there deletes its first occurrence.
-/

namespace EpvChain.Lib

/-- The run-time panics of an index or a slice expression. -/
inductive RuntimePanic where
  | indexOutOfRange
  | sliceBoundsOutOfRange
  deriving DecidableEq, Repr

variable {α : Type} {s : List α}

/-- `s[i]`. -/
def goIndex (s : List α) (i : Int) : Except RuntimePanic α :=
  if h : 0 ≤ i ∧ i < s.length then .ok (s.get ⟨i.toNat, by omega⟩) else .error .indexOutOfRange

/-- `s[i] = f(s[i])`, as in `s[i] |= x`. -/
def goModify (s : List α) (i : Nat) (f : α → α) : Except RuntimePanic (List α) :=
  if i < s.length then .ok (s.modify i f) else .error .indexOutOfRange

/-- `s[low:high]`. -/
def goSlice (s : List α) (low high : Int) : Except RuntimePanic (List α) :=
  if 0 ≤ low ∧ low ≤ high ∧ high ≤ s.length then .ok ((s.take high.toNat).drop low.toNat)
  else .error .sliceBoundsOutOfRange

theorem goIndex_eq_ok {i : Nat} (h : i < s.length) : goIndex s i = .ok s[i] := by
  rw [goIndex, dif_pos ⟨Int.natCast_nonneg i, by omega⟩]
  rfl

theorem goModify_eq_ok {i : Nat} (h : i < s.length) (f : α → α) :
    goModify s i f = .ok (s.modify i f) := by
  rw [goModify, if_pos h]

@[simp] theorem goIndex_cons_zero (x : α) (l : List α) : goIndex (x :: l) 0 = .ok x := by
  rw [goIndex, dif_pos ⟨le_rfl, by simp⟩]
  rfl

theorem goSlice_eq_ok {low high : Int} (h0 : 0 ≤ low) (h1 : low ≤ high) (h2 : high ≤ s.length) :
    goSlice s low high = .ok ((s.take high.toNat).drop low.toNat) := by
  rw [goSlice, if_pos ⟨h0, h1, h2⟩]

/-- The middle of `A ++ B ++ C`, sliced out at the length of `A`. -/
theorem goSlice_middle {A B C : List α} {low high : Int} (hs : s = A ++ B ++ C)
    (hlow : low = A.length) (hhigh : high = A.length + B.length) : goSlice s low high = .ok B := by
  subst hs hlow hhigh
  rw [goSlice_eq_ok (by omega) (by omega) (by simp)]
  have hcast : ((A.length : Int) + B.length).toNat = A.length + B.length := by omega
  rw [hcast, Int.toNat_natCast, List.append_assoc, List.take_length_add_append,
    List.drop_left' (by simp), List.take_left' rfl]

theorem goSlice_eq_error {low high : Int} (h : ¬(0 ≤ low ∧ low ≤ high ∧ high ≤ s.length)) :
    goSlice s low high = .error .sliceBoundsOutOfRange := by
  rw [goSlice, if_neg h]

/-- `int64(x)` of a `uint64` below `2^63`: the sign bit is clear, so the number is unchanged. -/
theorem toInt_toInt64_of_lt {x : UInt64} (h : x.toNat < 2 ^ 63) : x.toInt64.toInt = x.toNat := by
  have hbv : x.toInt64.toBitVec = x.toBitVec := rfl
  rw [Int64.toInt, hbv, BitVec.toInt_eq_toNat_of_msb]
  · rfl
  · rw [BitVec.msb_eq_decide]
    simp only [decide_eq_false_iff_not, not_le]
    show x.toNat < _
    omega

/-- Inserting `a` at the first index whose element `a` goes before (what `sort.Search` finds,
followed by `append`, `copy` and the store) is `List.orderedInsert`. -/
theorem insertIdx_findIdx (r : α → α → Prop) [DecidableRel r] (a : α) (l : List α) :
    l.insertIdx (l.findIdx fun b => decide (r a b)) a = l.orderedInsert r a := by
  induction l with
  | nil => simp
  | cons b l ih =>
    by_cases h : r a b
    · simp [List.findIdx_cons, h]
    · simp [List.findIdx_cons, h, ih]

/-- Deleting the element at the first index passing `p`, when it is `a` and `a` passes `p`,
deletes the first occurrence of `a`: no element before it passes `p`, so none is `a`. -/
theorem eraseIdx_findIdx [DecidableEq α] {p : α → Bool} {a : α} {l : List α} (hp : p a = true)
    (ha : l[l.findIdx p]? = some a) : l.eraseIdx (l.findIdx p) = l.erase a := by
  induction l with
  | nil => simp at ha
  | cons b l ih =>
    by_cases hb : p b = true
    · have hba : b = a := by simpa [List.findIdx_cons, hb] using ha
      subst hba
      simp [List.findIdx_cons, hb]
    · -- `b` fails `p` and `a` passes it, so `b` is not `a`
      have hne : b ≠ a := fun h => hb (h ▸ hp)
      have ha' : l[l.findIdx p]? = some a := by simpa [List.findIdx_cons, hb] using ha
      rw [List.erase_cons_tail (by simpa using hne)]
      simp [List.findIdx_cons, hb, ih ha']

end EpvChain.Lib
