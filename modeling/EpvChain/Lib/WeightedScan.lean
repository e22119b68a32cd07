import Mathlib

/-!
# Picking an entry by a ticket below the total weight

A weighted random choice draws one ticket `v` below the total weight of its entries and scans
them in order, taking each entry's weight off the ticket until the ticket falls below one:

    for _, e := range entries { if v < w(e) { return e }; v -= w(e) }

`scan w l v` is that loop: `scan_eq_none_iff` and `scan_eq_some_iff` say what it returns. The
rest is what a tree of such entries needs: its leaves as blocks, the sum of a table with one
entry set, and two's-complement sums that do not wrap.
-/

namespace EpvChain.Lib

variable {α : Type} (wt : α → Int)

/-- The total weight of a list of entries. -/
def totalWeight (l : List α) : Int := (l.map wt).sum

@[simp] theorem totalWeight_nil : totalWeight wt [] = 0 := rfl

@[simp] theorem totalWeight_cons (a : α) (l : List α) :
    totalWeight wt (a :: l) = wt a + totalWeight wt l := by
  simp [totalWeight]

/-- The scan: the first entry whose weight is above what is left of the ticket. -/
def scan : List α → Int → Option α
  | [], _ => none
  | a :: l, v => if v < wt a then some a else scan l (v - wt a)

/-- A scan over two lists is a scan over the first, then, if it runs off the end, over the
second with the first's total weight taken off the ticket. -/
theorem scan_append (l₁ l₂ : List α) (v : Int) :
    scan wt (l₁ ++ l₂) v = (scan wt l₁ v).or (scan wt l₂ (v - totalWeight wt l₁)) := by
  induction l₁ generalizing v with
  | nil => simp [scan]
  | cons a l ih =>
    rw [List.cons_append, scan, scan]
    split_ifs
    · rfl
    · rw [ih, totalWeight_cons, sub_add_eq_sub_sub]

section
attribute [local simp] scan
end

section Nonneg

variable {wt} {l : List α}

theorem totalWeight_nonneg (hl : ∀ a ∈ l, 0 ≤ wt a) : 0 ≤ totalWeight wt l :=
  List.sum_nonneg (by simpa using hl)

/-- The scan runs off the end exactly when the ticket is at least the total weight. -/
theorem scan_eq_none_iff (hl : ∀ a ∈ l, 0 ≤ wt a) {v : Int} (hv : 0 ≤ v) :
    scan wt l v = none ↔ totalWeight wt l ≤ v := by
  induction l generalizing v with
  | nil => simpa [scan] using hv
  | cons a l ih =>
    have hrest : 0 ≤ totalWeight wt l := totalWeight_nonneg (fun b hb => hl b (by simp [hb]))
    rw [scan, totalWeight_cons]
    split_ifs with hlt
    · simp only [false_iff, not_le]
      omega
    · rw [ih (fun b hb => hl b (by simp [hb])) (by omega)]
      omega

/-- **The scan picks the entry whose interval holds the ticket**: the total weight before it is
at most the ticket, and that total plus its own weight is above it. -/
theorem scan_eq_some_iff (hl : ∀ a ∈ l, 0 ≤ wt a) {v : Int} (hv : 0 ≤ v) {a : α} :
    scan wt l v = some a ↔ ∃ (k : Nat) (hk : k < l.length), l[k] = a ∧
      totalWeight wt (l.take k) ≤ v ∧ v < totalWeight wt (l.take k) + wt a := by
  induction l generalizing v with
  | nil => simp [scan]
  | cons b l ih =>
    have hb : 0 ≤ wt b := hl b (by simp)
    have hl' : ∀ c ∈ l, 0 ≤ wt c := fun c hc => hl c (by simp [hc])
    rw [scan]
    split_ifs with hlt
    · -- the ticket falls in the first entry's interval, and in no later one
      constructor
      · rintro ⟨⟩
        exact ⟨0, by simp, rfl, by simpa using hv, by simpa using hlt⟩
      · rintro ⟨k, hk, rfl, hlo, hhi⟩
        cases k with
        | zero => rfl
        | succ k =>
          have hbefore : 0 ≤ totalWeight wt (l.take k) :=
            totalWeight_nonneg (fun c hc => hl' c (List.mem_of_mem_take hc))
          simp only [List.take_succ_cons, totalWeight_cons] at hlo
          omega
    · -- the first entry is passed: what is left of the ticket is scanned over the rest
      rw [ih hl' (by omega)]
      constructor
      · rintro ⟨k, hk, rfl, hlo, hhi⟩
        refine ⟨k + 1, by simpa using hk, rfl, ?_, ?_⟩ <;>
          simp only [List.take_succ_cons, totalWeight_cons] <;> omega
      · rintro ⟨k, hk, rfl, hlo, hhi⟩
        cases k with
        | zero => simp at hhi; omega
        | succ k =>
          simp only [List.take_succ_cons, totalWeight_cons, List.getElem_cons_succ] at hlo hhi
          refine ⟨k, by simpa using hk, rfl, by omega, ?_⟩
          rw [List.getElem_cons_succ]
          omega

end Nonneg

/-- The positions below `n * m`, as `n` blocks of `m` in order. -/
theorem range_mul_eq_flatMap (n m : Nat) :
    List.range (n * m) = (List.range n).flatMap fun b => (List.range m).map (m * b + ·) := by
  induction n with
  | zero => simp
  | succ n ih =>
    rw [Nat.succ_mul, List.range_add, ih, List.range_succ, List.flatMap_append, List.flatMap_singleton,
      Nat.mul_comm n m]

/-- Position `m * b + r` of the blocks of `m`, for `r < m`, is position `r` of block `b`. -/
theorem block_div_mod {m r : Nat} (b : Nat) (hr : r < m) : (m * b + r) / m = b ∧ (m * b + r) % m = r :=
  ⟨by rw [Nat.mul_add_div (by omega), Nat.div_eq_of_lt hr, Nat.add_zero],
    by rw [Nat.mul_comm, Nat.mul_add_mod_of_lt hr]⟩

/-- Setting entry `b` of a table to `v` changes its sum by `v` for the old entry. -/
theorem sum_update_add_apply {κ M : Type} [Fintype κ] [DecidableEq κ] [AddCommMonoid M]
    (f : κ → M) (b : κ) (v : M) :
    Finset.univ.sum (Function.update f b v) + f b = Finset.univ.sum f + v := by
  rw [Finset.sum_update_of_mem (Finset.mem_univ b), Finset.sdiff_singleton_eq_erase,
    ← Finset.add_sum_erase Finset.univ f (Finset.mem_univ b)]
  abel

/-- A sum of bit vectors whose signed values are not negative and add up to less than the sign
bit is the sum of the values: no partial sum wraps. -/
theorem toInt_sum_of_nonneg {w : Nat} (l : List (BitVec (w + 1)))
    (h0 : ∀ x ∈ l, 0 ≤ x.toInt) (hs : (l.map BitVec.toInt).sum < 2 ^ w) :
    l.sum.toInt = (l.map BitVec.toInt).sum := by
  induction l with
  | nil => simp
  | cons x l ih =>
    have hx : 0 ≤ x.toInt := h0 x (by simp)
    have hrest : 0 ≤ (l.map BitVec.toInt).sum :=
      List.sum_nonneg (by simpa using fun y hy => h0 y (by simp [hy]))
    simp only [List.map_cons, List.sum_cons] at hs ⊢
    rw [BitVec.toInt_add, ih (fun y hy => h0 y (by simp [hy])) (by omega)]
    have hpow : ((2 ^ (w + 1) : Nat) : Int) = 2 * 2 ^ w := by push_cast; ring
    apply Int.bmod_eq_of_le <;> rw [hpow] <;> omega

end EpvChain.Lib
