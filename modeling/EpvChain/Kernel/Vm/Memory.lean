import EpvChain.Kernel.Vm.Common

/-!
# Memory expansion gas (`memoryGasCost`, `Memory.Resize`)

A call frame's memory grows by whole words, and `memoryGasCost` charges for each growth the
difference between the fee of the new size, `3·w + w²/512` for `w` words, and the fee already
paid, which the memory keeps in `lastGasCost`. The interpreter sizes each operation's memory
in whole words, charges `memoryGasCost` of that size and then resizes the memory to it.

* `MemInv`: the memory holds `w` words and has paid `memoryFee w`, with `w < 2^32`.
* `MemInv.expandMemory`: one operation's sizing keeps it, and charges the difference of the
  fees, when the operation asks for fewer than `2^32` words.
* `expandRun_fees`: so over any run of a frame whose operations each ask for fewer than `2^32`
  words, the fees charged sum to `memoryFee` of the largest size asked for, in exact arithmetic.
* `memoryGasCost_wraps`: the cap on sizes is `0xffffffffe0` bytes, `2^35 - 1` words, so the
  square `w·w` of a size below the cap can wrap: a new memory asked for `2^38` bytes is charged
  `3·2^33`, not `memoryFee (2^33) = 3·2^33 + 2^57`.
-/

namespace EpvChain.Vm

/-- `Memory`: the bytes stored and the fee paid for them so far. -/
structure Memory where
  store : List UInt8
  lastGasCost : UInt64

/-- `NewMemory()`. -/
def NewMemory : Memory := ⟨[], 0⟩

/-- `m.Resize(size)`: grow the store with zeros to `size` bytes. -/
def Memory.Resize (m : Memory) (size : UInt64) : Memory :=
  if UInt64.ofNat m.store.length < size then
    { m with store := m.store ++ List.replicate (size.toNat - m.store.length) 0 }
  else m

/-- `memoryGasCost(mem, newMemSize)`: the fee of growing the memory to `newMemSize` bytes, and
the memory with its `lastGasCost` updated. -/
def memoryGasCost (mem : Memory) (newMemSize : UInt64) : Except VmError (UInt64 × Memory) :=
  if newMemSize = 0 then .ok (0, mem)
  else if newMemSize > 0xffffffffe0 then .error .errGasUintOverflow
  else
    let newMemSizeWords := toWordSize newMemSize
    let newMemSize := newMemSizeWords * 32
    if newMemSize > UInt64.ofNat mem.store.length then
      let square := newMemSizeWords * newMemSizeWords
      let linCoef := newMemSizeWords * MemoryGas
      let quadCoef := square / QuadCoeffDiv
      let newTotalFee := linCoef + quadCoef
      let fee := newTotalFee - mem.lastGasCost
      .ok (fee, { mem with lastGasCost := newTotalFee })
    else .ok (0, mem)

/-- The interpreter's memory sizing of one operation (`Interpreter.Run`): the bytes it asks for,
a `big.Int`, in whole words, charged by `memoryGasCost` (the memory part of the operation's
gas) and then given to the memory. -/
def expandMemory (mem : Memory) (memSize : Nat) : Except VmError (UInt64 × Memory) :=
  let (memSize, overflow) := bigUint64 memSize
  if overflow then .error .errGasUintOverflow
  else
    let (memorySize, overflow) := safeMul (toWordSize memSize) 32
    if overflow then .error .errGasUintOverflow
    else do
      let (fee, mem) ← memoryGasCost mem memorySize
      return (fee, if memorySize > 0 then mem.Resize memorySize else mem)

/-- The fees of a frame's operations, one memory size each. -/
def expandRun : Memory → List Nat → Except VmError (List UInt64 × Memory)
  | mem, [] => .ok ([], mem)
  | mem, memSize :: rest => do
    let (fee, mem) ← expandMemory mem memSize
    let (fees, mem) ← expandRun mem rest
    return (fee :: fees, mem)

/-! ### The fee of a size -/

/-- The fee of `w` words: `3·w + ⌊w²/512⌋`. -/
def memoryFee (w : Nat) : Nat := 3 * w + w * w / 512

theorem memoryFee_mono {w w' : Nat} (h : w ≤ w') : memoryFee w ≤ memoryFee w' := by
  unfold memoryFee
  have : w * w ≤ w' * w' := Nat.mul_le_mul h h
  have : w * w / 512 ≤ w' * w' / 512 := Nat.div_le_div_right this
  omega

/-! ### A step of the frame -/

/-- The memory holds `w` words, fewer than `2^32`, and has paid their fee. -/
structure MemInv (mem : Memory) (w : Nat) : Prop where
  length : mem.store.length = 32 * w
  paid : mem.lastGasCost.toNat = memoryFee w
  small : w < 2 ^ 32

theorem memInv_new : MemInv NewMemory 0 := ⟨rfl, rfl, by decide⟩

/-- The fee `memoryGasCost` computes for fewer than `2^32` words is `memoryFee`. -/
theorem newTotalFee_toNat {w : UInt64} (h : w.toNat < 2 ^ 32) :
    (w * MemoryGas + w * w / QuadCoeffDiv).toNat = memoryFee w.toNat := by
  have hsq : w.toNat * w.toNat < 2 ^ 64 := by
    have := Nat.mul_lt_mul'' h h
    omega
  have hlin : w.toNat * 3 % 2 ^ 64 = w.toNat * 3 := Nat.mod_eq_of_lt (by omega)
  rw [UInt64.toNat_add, UInt64.toNat_mul, UInt64.toNat_div, UInt64.toNat_mul]
  simp only [MemoryGas, QuadCoeffDiv, UInt64.reduceToNat]
  rw [Nat.mod_eq_of_lt hsq, hlin, Nat.mod_eq_of_lt (by omega)]
  unfold memoryFee
  omega

/-- Growing the memory of `w` words to a size of `w'` words, `0 < w' < 2^32`, charges the
difference of their fees when it grows, and nothing otherwise; the memory then holds the larger
of the two. -/
theorem MemInv.memoryGasCost {mem : Memory} {w : Nat} (hinv : MemInv mem w) {size : UInt64}
    (hpos : 0 < size.toNat) (hsize : size.toNat ≤ 32 * (2 ^ 32 - 1)) :
    ∃ fee mem', memoryGasCost mem size = .ok (fee, mem') ∧
      fee.toNat = memoryFee (max w ((size.toNat + 31) / 32)) - memoryFee w ∧
      mem'.store = mem.store ∧ mem'.lastGasCost.toNat = memoryFee (max w ((size.toNat + 31) / 32)) := by
  have hwords := @toWordSize_toNat size (by omega)
  set w' := (size.toNat + 31) / 32 with hw'
  have hw'lt : w' < 2 ^ 32 := by omega
  have hne : size ≠ 0 := fun h => by rw [h] at hpos; exact absurd hpos (by decide)
  have hcap : ¬ size > 0xffffffffe0 := by
    rw [gt_iff_lt, UInt64.lt_iff_toNat_lt]
    simp only [UInt64.reduceToNat]
    omega
  have hbytes : (toWordSize size * 32).toNat = 32 * w' := by
    rw [UInt64.toNat_mul, hwords]
    simp only [UInt64.reduceToNat]
    rw [Nat.mod_eq_of_lt (by omega)]
    omega
  have hlen : (UInt64.ofNat mem.store.length).toNat = 32 * w := by
    rw [UInt64.toNat_ofNat', hinv.length, Nat.mod_eq_of_lt (by have := hinv.small; omega)]
  unfold Vm.memoryGasCost
  rw [if_neg hne, if_neg hcap]
  dsimp only
  by_cases hgrow : toWordSize size * 32 > UInt64.ofNat mem.store.length
  · rw [if_pos hgrow]
    rw [gt_iff_lt, UInt64.lt_iff_toNat_lt, hbytes, hlen] at hgrow
    have hmax : max w w' = w' := max_eq_right (by omega)
    have hfee := newTotalFee_toNat (w := toWordSize size) (by rw [hwords]; exact hw'lt)
    rw [hwords] at hfee
    have hmono := memoryFee_mono (show w ≤ w' by omega)
    refine ⟨_, _, rfl, ?_, rfl, ?_⟩
    · rw [UInt64.toNat_sub_of_le _ _ (by rw [UInt64.le_iff_toNat_le, hfee, hinv.paid]; exact hmono),
        hfee, hinv.paid, hmax]
    · rw [hfee, hmax]
  · rw [if_neg hgrow]
    rw [gt_iff_lt, UInt64.lt_iff_toNat_lt, hbytes, hlen] at hgrow
    have hmax : max w w' = w := max_eq_left (by omega)
    refine ⟨0, mem, rfl, ?_, rfl, ?_⟩
    · rw [hmax]
      simp
    · rw [hmax, hinv.paid]

theorem Memory.length_Resize (m : Memory) (size : UInt64) (h : m.store.length < 2 ^ 64) :
    (m.Resize size).store.length = max m.store.length size.toNat ∧
      (m.Resize size).lastGasCost = m.lastGasCost := by
  unfold Memory.Resize
  have hlen : (UInt64.ofNat m.store.length).toNat = m.store.length := by
    rw [UInt64.toNat_ofNat', Nat.mod_eq_of_lt h]
  split_ifs with hlt
  · rw [UInt64.lt_iff_toNat_lt, hlen] at hlt
    simp only [List.length_append, List.length_replicate, and_true]
    omega
  · rw [UInt64.lt_iff_toNat_lt, hlen] at hlt
    exact ⟨by omega, rfl⟩

/-- One operation's sizing, for fewer than `2^32` words, keeps the invariant and charges the
difference of the fees. -/
theorem MemInv.expandMemory {mem : Memory} {w : Nat} (hinv : MemInv mem w) {memSize : Nat}
    (hsize : memSize ≤ 32 * (2 ^ 32 - 1)) :
    ∃ fee mem', expandMemory mem memSize = .ok (fee, mem') ∧
      fee.toNat = memoryFee (max w ((memSize + 31) / 32)) - memoryFee w ∧
      MemInv mem' (max w ((memSize + 31) / 32)) := by
  have hsmall := hinv.small
  -- the size fits 64 bits, and so do its words times 32
  have hbits : ¬ (bigUint64 memSize).2 = true := by
    simp only [bigUint64, decide_eq_true_eq, not_lt]
    exact Nat.size_le.mpr (by omega)
  have hsz : (UInt64.ofNat memSize).toNat = memSize := by
    rw [UInt64.toNat_ofNat', Nat.mod_eq_of_lt (by omega)]
  set w' := (memSize + 31) / 32 with hw'
  have hwords : (toWordSize (UInt64.ofNat memSize)).toNat = w' := by
    rw [toWordSize_toNat (by rw [hsz]; omega), hsz]
  have hmul : (safeMul (toWordSize (UInt64.ofNat memSize)) 32).2 = false ∧
      ((safeMul (toWordSize (UInt64.ofNat memSize)) 32).1).toNat = 32 * w' := by
    unfold safeMul
    split_ifs with hz
    · have hw0 : w' = 0 := by
        rcases hz with hz | hz
        · rw [← hwords, hz]
          rfl
        · exact absurd hz (by decide)
      exact ⟨rfl, by rw [hw0]; rfl⟩
    · refine ⟨?_, ?_⟩
      · simp only [decide_eq_false_iff_not, gt_iff_lt, UInt64.lt_iff_toNat_lt, UInt64.toNat_div,
          hwords, MaxUint64, UInt64.reduceToNat, not_lt]
        rw [Nat.le_div_iff_mul_le (by rw [← hwords]; exact Nat.pos_of_ne_zero (fun h =>
          hz (.inl (UInt64.toNat_inj.mp (by rw [h]; rfl)))))]
        omega
      · rw [UInt64.toNat_mul, hwords]
        simp only [UInt64.reduceToNat]
        omega
  unfold Vm.expandMemory
  dsimp only
  rw [if_neg hbits, show (bigUint64 memSize).1 = UInt64.ofNat memSize from rfl]
  rw [if_neg (by rw [hmul.1]; exact Bool.false_ne_true)]
  by_cases hzero : w' = 0
  · -- nothing asked for: no fee and no growth
    have hsize0 : (safeMul (toWordSize (UInt64.ofNat memSize)) 32).1 = 0 :=
      UInt64.toNat_inj.mp (by rw [hmul.2, hzero]; rfl)
    rw [hsize0]
    refine ⟨0, mem, rfl, by rw [hzero, Nat.max_zero]; simp, ?_⟩
    rw [hzero, Nat.max_zero]
    exact hinv
  · obtain ⟨fee, mem', hcost, hfee, hstore, hpaid⟩ := @MemInv.memoryGasCost _ _ hinv
      (safeMul (toWordSize (UInt64.ofNat memSize)) 32).1 (by rw [hmul.2]; omega)
      (by rw [hmul.2]; omega)
    rw [hmul.2, show (32 * w' + 31) / 32 = w' by omega] at hfee hpaid
    have hpos : (safeMul (toWordSize (UInt64.ofNat memSize)) 32).1 > 0 := by
      rw [gt_iff_lt, UInt64.lt_iff_toNat_lt, hmul.2]
      simp only [UInt64.reduceToNat]
      omega
    refine ⟨fee, mem'.Resize (safeMul (toWordSize (UInt64.ofNat memSize)) 32).1, ?_, hfee, ?_⟩
    · rw [hcost]
      simp [hpos]
    · have hlen : mem'.store.length < 2 ^ 64 := by rw [hstore, hinv.length]; omega
      obtain ⟨hresize, hcost'⟩ := mem'.length_Resize _ hlen
      refine ⟨?_, by rw [hcost', hpaid], by omega⟩
      rw [hresize, hstore, hinv.length, hmul.2]
      omega

/-! ### A frame's run -/

/-- The words a memory of `w` words holds after operations asking for `sizes` bytes. -/
def wordsAfter (w : Nat) (sizes : List Nat) : Nat :=
  sizes.foldl (fun m s => max m ((s + 31) / 32)) w

theorem le_wordsAfter (w : Nat) (sizes : List Nat) : w ≤ wordsAfter w sizes := by
  induction sizes generalizing w with
  | nil => exact le_rfl
  | cons s rest ih => exact (le_max_left _ _).trans (ih _)

/-- Over a run whose operations each ask for fewer than `2^32` words, the fees charged sum to the
difference of the fees of the memory's sizes after and before, and the invariant holds. The
induction is on the operations, the invariant carrying the words held. -/
theorem MemInv.expandRun {mem : Memory} {w : Nat} (hinv : MemInv mem w) :
    ∀ sizes : List Nat, (∀ s ∈ sizes, s ≤ 32 * (2 ^ 32 - 1)) →
      ∃ fees mem', expandRun mem sizes = .ok (fees, mem') ∧
        (fees.map UInt64.toNat).sum = memoryFee (wordsAfter w sizes) - memoryFee w ∧
        MemInv mem' (wordsAfter w sizes)
  | [], _ => ⟨[], mem, rfl, by simp [wordsAfter], hinv⟩
  | s :: rest, hs => by
    obtain ⟨fee, mem₁, hstep, hfee, hinv₁⟩ := hinv.expandMemory (hs s List.mem_cons_self)
    obtain ⟨fees, mem', hrun, hsum, hinv'⟩ :=
      hinv₁.expandRun rest fun s' hs' => hs s' (List.mem_cons_of_mem _ hs')
    refine ⟨fee :: fees, mem', ?_, ?_, hinv'⟩
    · rw [Vm.expandRun, hstep]
      simp [bind, Except.bind, hrun]
      rfl
    -- the fees telescope: the first pays up to the size after it, the rest from there on
    have hmono₁ := memoryFee_mono (le_max_left w ((s + 31) / 32))
    have hmono₂ : memoryFee (max w ((s + 31) / 32)) ≤ memoryFee (wordsAfter (max w ((s + 31) / 32)) rest) :=
      memoryFee_mono (le_wordsAfter _ _)
    simp only [List.map_cons, List.sum_cons, wordsAfter, List.foldl_cons] at hsum hmono₂ ⊢
    omega

/-- Over any run of a new frame whose operations each ask for fewer than `2^32` words, the fees
`memoryGasCost` charges sum, in exact arithmetic, to `3·w + ⌊w²/512⌋` for the largest number of
words `w` asked for, which is what the memory holds and has paid for at the end. -/
theorem expandRun_fees (sizes : List Nat) (hsizes : ∀ s ∈ sizes, s ≤ 32 * (2 ^ 32 - 1)) :
    ∃ fees mem, expandRun NewMemory sizes = .ok (fees, mem) ∧
      (fees.map UInt64.toNat).sum = memoryFee (wordsAfter 0 sizes) ∧
      mem.store.length = 32 * wordsAfter 0 sizes ∧ mem.lastGasCost.toNat = memoryFee (wordsAfter 0 sizes) := by
  obtain ⟨fees, mem, hrun, hsum, hinv⟩ := memInv_new.expandRun sizes hsizes
  exact ⟨fees, mem, hrun, by rw [hsum]; rfl, hinv.length, hinv.paid⟩

/-- A new memory asked for `2^38` bytes, below the cap of `0xffffffffe0`, is charged `3·2^33`:
the square of its `2^33` words wraps to zero in 64 bits, and the fee of `2^33` words is
`3·2^33 + 2^57`. -/
theorem memoryGasCost_wraps :
    (2 ^ 38 : UInt64) ≤ 0xffffffffe0 ∧
      (memoryGasCost NewMemory (2 ^ 38)).map Prod.fst = .ok (3 * 2 ^ 33) ∧
      memoryFee (2 ^ 33) = 3 * 2 ^ 33 + 2 ^ 57 := by
  refine ⟨by decide, by decide, by decide⟩

end EpvChain.Vm
