import Mathlib

/-!
# Big-endian byte strings of naturals

The byte forms of numbers that fixed-size arrays and length prefixes are built from.

* `bytesBE len v` — the last `len` bytes of `v`, most significant first (a slice of a byte
  array, or a fixed-width integer written out); `ofBytesBE` reads a byte string back. The
  round trips are `ofBytesBE_bytesBE` (as `v % 256 ^ len`) and `bytesBE_ofBytesBE` (exactly).
* `byteCount n` — the length of the shortest form of `n`, none for zero, fixed by the powers of
  256 that `n` lies between (`byteCount_eq_of_le_of_lt`).
* `minBytes n` — that shortest form, what an arbitrary-precision integer's byte slice is. A byte
  string with no leading zero is the shortest form of what it spells (`minBytes_ofBytesBE`), and
  a shortest form never starts with zero (`head_minBytes_ne_zero`).

`byteCount` counts divisions by 256 with its own argument as fuel, so it is structurally
recursive and the kernel evaluates it.
-/

namespace EpvChain.Lib

/-- The `len` bytes of a big-endian number, most significant first: what slicing a byte array
of that length gives (`a[:]`). -/
def bytesBE (len v : Nat) : List UInt8 :=
  (List.range len).map fun i => UInt8.ofNat (v / 256 ^ (len - 1 - i))

@[simp] theorem length_bytesBE (len v : Nat) : (bytesBE len v).length = len := by
  simp [bytesBE]

@[simp] theorem bytesBE_zero (v : Nat) : bytesBE 0 v = [] := rfl

theorem bytesBE_succ (len v : Nat) :
    bytesBE (len + 1) v = UInt8.ofNat (v / 256 ^ len) :: bytesBE len v := by
  simp only [bytesBE, List.range_succ_eq_map, List.map_cons, List.map_map, Nat.add_sub_cancel,
    Nat.sub_zero, List.cons.injEq, true_and]
  apply List.map_congr_left
  intro i _
  simp only [Function.comp_apply]
  congr 3
  omega

/-- The number a big-endian byte string spells (`binary.BigEndian`, or shifting the bytes in
one at a time). -/
def ofBytesBE : List UInt8 → Nat
  | [] => 0
  | b :: bs => b.toNat * 256 ^ bs.length + ofBytesBE bs

@[simp] theorem ofBytesBE_nil : ofBytesBE [] = 0 := rfl

@[simp] theorem ofBytesBE_cons (b : UInt8) (bs : List UInt8) :
    ofBytesBE (b :: bs) = b.toNat * 256 ^ bs.length + ofBytesBE bs := rfl

/-- Zero bytes spell zero. -/
@[simp] theorem ofBytesBE_replicate_zero (n : Nat) : ofBytesBE (List.replicate n 0) = 0 := by
  induction n with
  | zero => rfl
  | succ n ih => simp [List.replicate_succ, ih]

theorem ofBytesBE_lt (bs : List UInt8) : ofBytesBE bs < 256 ^ bs.length := by
  induction bs with
  | nil => simp
  | cons b bs ih =>
    have hb : b.toNat < 256 := b.toNat_lt
    rw [ofBytesBE_cons, List.length_cons, Nat.pow_succ']
    calc b.toNat * 256 ^ bs.length + ofBytesBE bs
        < b.toNat * 256 ^ bs.length + 256 ^ bs.length := by omega
      _ = (b.toNat + 1) * 256 ^ bs.length := by rw [Nat.succ_mul]
      _ ≤ 256 * 256 ^ bs.length := Nat.mul_le_mul_right _ hb

theorem ofBytesBE_bytesBE (len v : Nat) : ofBytesBE (bytesBE len v) = v % 256 ^ len := by
  induction len with
  | zero => simp [Nat.mod_one]
  | succ len ih =>
    have h : (2 : Nat) ^ 8 = 256 := rfl
    rw [bytesBE_succ, ofBytesBE_cons, length_bytesBE, ih, UInt8.toNat_ofNat', h, Nat.mod_pow_succ]
    exact (Nat.add_comm _ _).trans (congrArg _ (Nat.mul_comm _ _))

theorem ofBytesBE_bytesBE_of_lt {len v : Nat} (h : v < 256 ^ len) :
    ofBytesBE (bytesBE len v) = v := by
  rw [ofBytesBE_bytesBE, Nat.mod_eq_of_lt h]

/-- Reading off a leading digit: the quotient and the remainder by the weight of the rest. -/
theorem div_mod_of_lt {a y m : Nat} (hy : y < m) : (a * m + y) / m = a ∧ (a * m + y) % m = y := by
  have hm : 0 < m := Nat.lt_of_le_of_lt (Nat.zero_le y) hy
  constructor
  · rw [Nat.add_comm, Nat.add_mul_div_right _ _ hm, Nat.div_eq_of_lt hy, Nat.zero_add]
  · rw [Nat.add_comm, Nat.add_mul_mod_self_right, Nat.mod_eq_of_lt hy]

/-- Two byte strings of one length that spell one number are equal. -/
theorem ofBytesBE_inj : ∀ {xs ys : List UInt8}, xs.length = ys.length →
    ofBytesBE xs = ofBytesBE ys → xs = ys
  | [], [], _, _ => rfl
  | [], _ :: _, hlen, _ => absurd hlen (by simp)
  | _ :: _, [], hlen, _ => absurd hlen (by simp)
  | x :: xs, y :: ys, hlen, h => by
    simp only [List.length_cons, Nat.add_right_cancel_iff] at hlen
    simp only [ofBytesBE_cons, hlen] at h
    have hx := ofBytesBE_lt xs
    have hy := ofBytesBE_lt ys
    rw [hlen] at hx
    -- the leading byte is the quotient by `256 ^ length`, the rest the remainder
    obtain ⟨hqx, hrx⟩ := div_mod_of_lt (a := x.toNat) hx
    obtain ⟨hqy, hry⟩ := div_mod_of_lt (a := y.toNat) hy
    have hq : x.toNat = y.toNat := by rw [← hqx, ← hqy, h]
    have hr : ofBytesBE xs = ofBytesBE ys := by rw [← hrx, ← hry, h]
    rw [UInt8.toNat_inj.mp hq, ofBytesBE_inj hlen hr]

theorem bytesBE_ofBytesBE (bs : List UInt8) : bytesBE bs.length (ofBytesBE bs) = bs :=
  ofBytesBE_inj (length_bytesBE _ _) (ofBytesBE_bytesBE_of_lt (ofBytesBE_lt bs))

/-- A byte string with a nonzero leading byte spells at least the power of 256 below its
length. -/
theorem pow_le_ofBytesBE {b : UInt8} (hb : b ≠ 0) (bs : List UInt8) :
    256 ^ bs.length ≤ ofBytesBE (b :: bs) := by
  have h : 1 ≤ b.toNat := by
    rcases Nat.eq_zero_or_pos b.toNat with h | h
    · exact absurd (UInt8.toNat_inj.mp (h.trans UInt8.toNat_zero.symm)) hb
    · exact h
  rw [ofBytesBE_cons]
  calc 256 ^ bs.length = 1 * 256 ^ bs.length := (Nat.one_mul _).symm
    _ ≤ b.toNat * 256 ^ bs.length := Nat.mul_le_mul_right _ h
    _ ≤ _ := Nat.le_add_right _ _

/-! ### The shortest form -/

/-- Divisions by 256 until zero, at most `fuel` of them. -/
def byteCountAux : Nat → Nat → Nat
  | 0, _ => 0
  | fuel + 1, n => if n = 0 then 0 else byteCountAux fuel (n / 256) + 1

/-- The number of bytes of the shortest big-endian form of `n`: none for zero. -/
def byteCount (n : Nat) : Nat := byteCountAux n n

@[simp] theorem byteCount_zero : byteCount 0 = 0 := rfl

/-- The count with enough fuel lies between the powers of 256 around `n`. -/
theorem byteCountAux_bounds : ∀ fuel n, n ≤ fuel →
    n < 256 ^ byteCountAux fuel n ∧ (0 < n → 256 ^ (byteCountAux fuel n - 1) ≤ n)
  | 0, n, h => by simp only [byteCountAux]; omega
  | fuel + 1, n, h => by
    by_cases hn : n = 0
    · simp [byteCountAux, hn]
    simp only [byteCountAux, hn, if_false, Nat.add_sub_cancel]
    obtain ⟨hlt, hle⟩ := byteCountAux_bounds fuel (n / 256) (by omega)
    refine ⟨?_, fun _ => ?_⟩
    · rw [Nat.pow_succ]
      omega
    · rcases Nat.eq_zero_or_pos (n / 256) with h0 | hpos
      · -- `n` is a single byte, and the count of zero is zero for every fuel
        have : byteCountAux fuel 0 = 0 := by cases fuel <;> rfl
        rw [h0, this]
        simp only [Nat.pow_zero]
        omega
      · have := hle hpos
        have hc : 0 < byteCountAux fuel (n / 256) := by
          rcases Nat.eq_zero_or_pos (byteCountAux fuel (n / 256)) with hz | hz
          · rw [hz] at hlt; omega
          · exact hz
        calc 256 ^ byteCountAux fuel (n / 256)
            = 256 ^ (byteCountAux fuel (n / 256) - 1) * 256 := by
              rw [← Nat.pow_succ, Nat.succ_eq_add_one, Nat.sub_add_cancel hc]
          _ ≤ n / 256 * 256 := Nat.mul_le_mul_right _ this
          _ ≤ n := Nat.div_mul_le_self n 256

theorem lt_pow_byteCount (n : Nat) : n < 256 ^ byteCount n :=
  (byteCountAux_bounds n n le_rfl).1

theorem pow_byteCount_le {n : Nat} (h : 0 < n) : 256 ^ (byteCount n - 1) ≤ n :=
  (byteCountAux_bounds n n le_rfl).2 h

/-- The shortest form of a number between `256 ^ k` and `256 ^ (k + 1)` has `k + 1` bytes. -/
theorem byteCount_eq_of_le_of_lt {n k : Nat} (hlo : 256 ^ k ≤ n) (hhi : n < 256 ^ (k + 1)) :
    byteCount n = k + 1 := by
  have hpos : 0 < n := Nat.lt_of_lt_of_le (Nat.pow_pos (by decide)) hlo
  have h1 : k < byteCount n :=
    (Nat.pow_lt_pow_iff_right (by decide : 1 < 256)).mp
      (Nat.lt_of_le_of_lt hlo (lt_pow_byteCount n))
  have h2 : byteCount n - 1 < k + 1 :=
    (Nat.pow_lt_pow_iff_right (by decide : 1 < 256)).mp
      (Nat.lt_of_le_of_lt (pow_byteCount_le hpos) hhi)
  omega

/-- A number below `256 ^ k` has a shortest form of at most `k` bytes. -/
theorem byteCount_le_of_lt_pow {n k : Nat} (h : n < 256 ^ k) : byteCount n ≤ k := by
  rcases Nat.eq_zero_or_pos n with rfl | hpos
  · simp
  have := (Nat.pow_lt_pow_iff_right (by decide : 1 < 256)).mp
    (Nat.lt_of_le_of_lt (pow_byteCount_le hpos) h)
  omega

theorem byteCount_pos {n : Nat} (h : 0 < n) : 0 < byteCount n := by
  have := lt_pow_byteCount n
  rcases Nat.eq_zero_or_pos (byteCount n) with hz | hz
  · rw [hz] at this; omega
  · exact hz

/-- Dropping the last byte of a number of two bytes or more drops one byte of its shortest
form. -/
theorem byteCount_div {n : Nat} (h : 256 ≤ n) : byteCount n = byteCount (n / 256) + 1 := by
  have hpos : 0 < n := by omega
  have hc : 2 ≤ byteCount n := by
    by_contra hlt
    have := Nat.lt_of_lt_of_le (lt_pow_byteCount n)
      (Nat.pow_le_pow_right (by decide : 0 < 256) (show byteCount n ≤ 1 by omega))
    omega
  have hlo := pow_byteCount_le hpos
  have hhi := lt_pow_byteCount n
  obtain ⟨k, hk⟩ : ∃ k, byteCount n = k + 2 := ⟨byteCount n - 2, by omega⟩
  rw [hk] at hlo hhi ⊢
  have : byteCount (n / 256) = k + 1 := by
    apply byteCount_eq_of_le_of_lt
    · exact (Nat.le_div_iff_mul_le (by decide)).mpr (by rw [← Nat.pow_succ]; simpa using hlo)
    · exact (Nat.div_lt_iff_lt_mul (by decide)).mpr (by rw [← Nat.pow_succ]; exact hhi)
  omega

/-- The shortest big-endian form of `n`: no bytes for zero, and no leading zero byte otherwise
(`big.Int.Bytes`). -/
def minBytes (n : Nat) : List UInt8 := bytesBE (byteCount n) n

@[simp] theorem length_minBytes (n : Nat) : (minBytes n).length = byteCount n :=
  length_bytesBE _ _

@[simp] theorem minBytes_zero : minBytes 0 = [] := rfl

theorem ofBytesBE_minBytes (n : Nat) : ofBytesBE (minBytes n) = n :=
  ofBytesBE_bytesBE_of_lt (lt_pow_byteCount n)

theorem head_minBytes_ne_zero (n : Nat) : (minBytes n).head? ≠ some 0 := by
  rcases Nat.eq_zero_or_pos n with rfl | hpos
  · simp
  obtain ⟨k, hk⟩ : ∃ k, byteCount n = k + 1 :=
    ⟨byteCount n - 1, by have := byteCount_pos hpos; omega⟩
  have hlo : 256 ^ k ≤ n := by simpa [hk] using pow_byteCount_le hpos
  have hhi : n < 256 ^ k * 256 := by simpa [hk, Nat.pow_succ] using lt_pow_byteCount n
  -- the leading byte is the quotient by `256 ^ k`, between 1 and 255
  have hq1 : 1 ≤ n / 256 ^ k :=
    (Nat.le_div_iff_mul_le (Nat.pow_pos (by decide))).mpr (by rw [Nat.one_mul]; exact hlo)
  have hq2 : n / 256 ^ k < 256 := Nat.div_lt_of_lt_mul hhi
  simp only [minBytes, hk, bytesBE_succ, List.head?_cons, ne_eq, Option.some.injEq]
  intro h
  have := congrArg UInt8.toNat h
  simp only [UInt8.toNat_ofNat', UInt8.toNat_zero] at this
  omega

/-- A byte string with no leading zero is the shortest form of the number it spells. -/
theorem minBytes_ofBytesBE {bs : List UInt8} (h : bs.head? ≠ some 0) :
    minBytes (ofBytesBE bs) = bs := by
  cases bs with
  | nil => rfl
  | cons b bs =>
    have hb : b ≠ 0 := fun hb => h (by rw [hb]; rfl)
    have hcount : byteCount (ofBytesBE (b :: bs)) = (b :: bs).length :=
      byteCount_eq_of_le_of_lt (pow_le_ofBytesBE hb bs) (ofBytesBE_lt (b :: bs))
    rw [minBytes, hcount, bytesBE_ofBytesBE]

end EpvChain.Lib
