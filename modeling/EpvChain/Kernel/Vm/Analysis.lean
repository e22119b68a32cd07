import EpvChain.Public.Bitutil
import EpvChain.Lib.GoSlice

/-!
# Jump destinations (`kernel/vm/analysis.go`)

`codeBitmap` marks, a bit per byte of code, the immediate bytes of every `PUSH1`..`PUSH32` of
the code's linear decoding (`set8` per full eight, `set` for the rest; a truncated `PUSH` marks
the bitmap's spare bytes). `destinations.has` accepts a jump to an in-code `JUMPDEST` whose bit is
clear. The linear decoding is `startsFrom`; positions stay below `len(code) + 33`.

* `BitmapInv`, `BitmapInv.step`, `codeBitmap_spec`: at `pc` the loop has marked exactly the
  positions below `pc` that start no instruction, and it never indexes past the bitmap.
* `has_eq`: `has(code, dest)` is `dest < 2^62`, in-code, `JUMPDEST`, and an instruction start.
* `destinations_exact`: on code of at most `2^62` bytes, `has` accepts exactly the in-code
  `JUMPDEST`s that start instructions.
-/

namespace EpvChain.Vm

open EpvChain.Lib EpvChain.Bitutil

/-- `JUMPDEST`. -/
def JUMPDEST : UInt8 := 0x5b

/-- `PUSH1`. -/
def PUSH1 : UInt8 := 0x60

/-- `PUSH32`. -/
def PUSH32 : UInt8 := 0x7f

/-! ### The bitmap -/

/-- `bits.set(pos)`. -/
def bitvecSet (bits : List UInt8) (pos : Nat) : Except RuntimePanic (List UInt8) :=
  goModify bits (pos / 8) (· ||| 0x80 >>> (pos % 8).toUInt8)

/-- `bits.set8(pos)`: the eight bits from `pos`, across two bytes. -/
def bitvecSet8 (bits : List UInt8) (pos : Nat) : Except RuntimePanic (List UInt8) := do
  let bits ← goModify bits (pos / 8) (· ||| 0xFF >>> (pos % 8).toUInt8)
  goModify bits (pos / 8 + 1) (· ||| ~~~(0xFF >>> (pos % 8).toUInt8))

/-- `bits.codeSegment(pos)`: whether the bit of `pos` is clear. -/
def codeSegment (bits : List UInt8) (pos : Nat) : Except RuntimePanic Bool := do
  let b ← goIndex bits (pos / 8 : Nat)
  return b &&& 0x80 >>> (pos % 8).toUInt8 == 0

/-- `for ; numbits >= 8; numbits -= 8 { bits.set8(pc); pc += 8 }`. -/
def set8Loop (bits : List UInt8) (pc numbits : Nat) :
    Except RuntimePanic (List UInt8 × Nat × Nat) :=
  if numbits ≥ 8 then do
    let bits ← bitvecSet8 bits pc
    set8Loop bits (pc + 8) (numbits - 8)
  else .ok (bits, pc, numbits)
termination_by numbits
decreasing_by omega

/-- `for ; numbits > 0; numbits-- { bits.set(pc); pc++ }`. -/
def setLoop (bits : List UInt8) (pc numbits : Nat) : Except RuntimePanic (List UInt8 × Nat) :=
  if numbits > 0 then do
    let bits ← bitvecSet bits pc
    setLoop bits (pc + 1) (numbits - 1)
  else .ok (bits, pc)
termination_by numbits
decreasing_by omega

/-- The loop of `codeBitmap(code)` from `pc`. Each turn moves `pc` on, so `len(code)` turns, the
fuel `codeBitmap` gives, finish it. -/
def codeBitmapLoop (code : List UInt8) : Nat → List UInt8 → Nat → Except RuntimePanic (List UInt8)
  | 0, bits, _ => .ok bits
  | fuel + 1, bits, pc =>
    if h : pc < code.length then
      let op := code[pc]
      if op ≥ PUSH1 ∧ op ≤ PUSH32 then do
        let numbits := op - PUSH1 + 1
        let (bits, pc, numbits) ← set8Loop bits (pc + 1) numbits.toNat
        let (bits, pc) ← setLoop bits pc numbits
        codeBitmapLoop code fuel bits pc
      else codeBitmapLoop code fuel bits (pc + 1)
    else .ok bits

/-- `codeBitmap(code)`: a bitmap of `len(code)/8 + 1 + 4` bytes. -/
def codeBitmap (code : List UInt8) : Except RuntimePanic (List UInt8) :=
  codeBitmapLoop code code.length (List.replicate (code.length / 8 + 1 + 4) 0) 0

/-- `d.has(codehash, code, dest)`, for the bitmap of `code` (the map `d` caches it by the code's
hash). -/
def has (code : List UInt8) (dest : Nat) : Except RuntimePanic Bool :=
  let udest := dest % 2 ^ 64
  if dest.size ≥ 63 ∨ udest ≥ code.length then .ok false
  else do
    let m ← codeBitmap code
    let op ← goIndex code udest
    let seg ← codeSegment m udest
    return op == JUMPDEST && seg

/-! ### The linear decoding -/

/-- The immediate bytes of an instruction: `n` for `PUSHn`, none for the rest. -/
def pushSize (op : UInt8) : Nat := if PUSH1 ≤ op ∧ op ≤ PUSH32 then (op - PUSH1 + 1).toNat else 0

/-- The positions from `pc` on where the linear decoding of `code` starts an instruction. -/
def startsFrom (code : List UInt8) (pc : Nat) : List Nat :=
  if h : pc < code.length then pc :: startsFrom code (pc + 1 + pushSize code[pc]) else []
termination_by code.length - pc

/-- The positions where the linear decoding of `code` starts an instruction. -/
def instructionStarts (code : List UInt8) : List Nat := startsFrom code 0

section Decoding

variable {code : List UInt8}

theorem startsFrom_of_lt {pc : Nat} (h : pc < code.length) :
    startsFrom code pc = pc :: startsFrom code (pc + 1 + pushSize code[pc]) := by
  rw [startsFrom, dif_pos h]

theorem startsFrom_of_le {pc : Nat} (h : code.length ≤ pc) : startsFrom code pc = [] := by
  rw [startsFrom, dif_neg (by omega)]

theorem mem_startsFrom {pc p : Nat} (hp : p ∈ startsFrom code pc) : pc ≤ p ∧ p < code.length := by
  induction pc using startsFrom.induct code with
  | case1 pc h ih =>
    rw [startsFrom_of_lt h, List.mem_cons] at hp
    rcases hp with rfl | hp
    · exact ⟨le_rfl, h⟩
    · have := ih hp
      omega
  | case2 pc h =>
    rw [startsFrom_of_le (by omega)] at hp
    cases hp

theorem pushSize_le (op : UInt8) : pushSize op ≤ 32 := by
  unfold pushSize
  split_ifs with h
  · rw [UInt8.le_iff_toNat_le, UInt8.le_iff_toNat_le] at h
    rw [UInt8.toNat_add, UInt8.toNat_sub_of_le _ _ (UInt8.le_iff_toNat_le.mpr h.1)]
    simp only [PUSH1, PUSH32, UInt8.reduceToNat] at h ⊢
    omega
  · omega

theorem pushSize_toNat {op : UInt8} (h : op ≥ PUSH1 ∧ op ≤ PUSH32) :
    (op - PUSH1 + 1).toNat = pushSize op := by
  rw [pushSize, if_pos h]

theorem pushSize_of_not {op : UInt8} (h : ¬ (op ≥ PUSH1 ∧ op ≤ PUSH32)) : pushSize op = 0 := by
  rw [pushSize, if_neg h]

end Decoding

/-! ### Bits of the masks -/

theorem shr80_eq_mask (pos : Nat) : (0x80 : UInt8) >>> (pos % 8).toUInt8 = mask pos := by
  have h : ∀ k < 8, (0x80 : UInt8) >>> k.toUInt8 = (1 : UInt8) <<< (7 - k).toUInt8 := by decide
  exact h (pos % 8) (Nat.mod_lt _ (by decide))

theorem testBit_shrFF {k b : Nat} (hk : k < 8) (hb : b < 8) :
    ((0xFF : UInt8) >>> k.toUInt8).toNat.testBit b = decide (b < 8 - k) := by
  have h : ∀ k < 8, ∀ b < 8,
      ((0xFF : UInt8) >>> k.toUInt8).toNat.testBit b = decide (b < 8 - k) := by decide
  exact h k hk b hb

theorem testBit_not_shrFF {k b : Nat} (hk : k < 8) (hb : b < 8) :
    (~~~((0xFF : UInt8) >>> k.toUInt8)).toNat.testBit b = decide (8 - k ≤ b) := by
  have h : ∀ k < 8, ∀ b < 8,
      (~~~((0xFF : UInt8) >>> k.toUInt8)).toNat.testBit b = decide (8 - k ≤ b) := by decide
  exact h k hk b hb

/-! ### One call of `set`, `set8` and `codeSegment` -/

section Bits

variable {bits : List UInt8} {pos : Nat}

theorem bitvecSet_eq (h : pos / 8 < bits.length) :
    ∃ bits', bitvecSet bits pos = .ok bits' ∧ bits'.length = bits.length ∧
      ∀ j, bitAt bits' j = (bitAt bits j || decide (j = pos)) := by
  refine ⟨bits.modify (pos / 8) (· ||| mask pos), ?_, List.length_modify .., bitAt_modify h⟩
  rw [bitvecSet, shr80_eq_mask, goModify_eq_ok h]

theorem bitvecSet8_eq (h : pos / 8 + 1 < bits.length) :
    ∃ bits', bitvecSet8 bits pos = .ok bits' ∧ bits'.length = bits.length ∧
      ∀ j, bitAt bits' j = (bitAt bits j || decide (pos ≤ j ∧ j < pos + 8)) := by
  set b₁ := bits.modify (pos / 8) (· ||| 0xFF >>> (pos % 8).toUInt8) with hb₁
  have hlen₁ : b₁.length = bits.length := List.length_modify ..
  refine ⟨b₁.modify (pos / 8 + 1) (· ||| ~~~(0xFF >>> (pos % 8).toUInt8)), ?_, ?_, fun j => ?_⟩
  · rw [bitvecSet8, goModify_eq_ok (by omega)]
    exact goModify_eq_ok (by rw [hlen₁]; omega) _
  · rw [List.length_modify, hlen₁]
  · have hk : pos % 8 < 8 := Nat.mod_lt _ (by decide)
    have hb : 7 - j % 8 < 8 := by omega
    rw [bitAt_modify_or (by omega), hb₁, bitAt_modify_or (by omega), testBit_shrFF hk hb,
      testBit_not_shrFF hk hb, Bool.or_assoc]
    congr 1
    -- the first byte holds the bits from `pos` to its end, the second the rest up to `pos + 8`
    rw [Bool.eq_iff_iff]
    simp only [Bool.or_eq_true, Bool.and_eq_true, decide_eq_true_eq]
    omega

theorem codeSegment_eq (h : pos / 8 < bits.length) : codeSegment bits pos = .ok (!bitAt bits pos) := by
  rw [codeSegment, goIndex_eq_ok h]
  show Except.ok _ = _
  rw [shr80_eq_mask, bitAt, List.getD_eq_getElem?_getD, List.getElem?_eq_getElem h,
    Option.getD_some, ← and_mask_ne_zero]
  simp [bne]

end Bits

/-! ### The loops -/

/-- The `set8` loop marks the positions of its full eights. -/
theorem set8Loop_eq : ∀ (numbits : Nat) (bits : List UInt8) (pc : Nat),
    pc + numbits < 8 * bits.length →
    ∃ bits', set8Loop bits pc numbits = .ok (bits', pc + 8 * (numbits / 8), numbits % 8) ∧
      bits'.length = bits.length ∧
      ∀ j, bitAt bits' j = (bitAt bits j || decide (pc ≤ j ∧ j < pc + 8 * (numbits / 8))) := by
  intro numbits
  induction numbits using Nat.strong_induction_on with
  | _ numbits ih =>
    intro bits pc hroom
    by_cases h8 : numbits ≥ 8
    · obtain ⟨b₁, hset, hlen₁, hbit₁⟩ := @bitvecSet8_eq bits pc (by omega)
      obtain ⟨b₂, hloop, hlen₂, hbit₂⟩ := ih (numbits - 8) (by omega) b₁ (pc + 8) (by omega)
      refine ⟨b₂, ?_, by rw [hlen₂, hlen₁], fun j => ?_⟩
      · rw [set8Loop, if_pos h8, hset]
        show set8Loop b₁ (pc + 8) (numbits - 8) = _
        rw [hloop]
        congr 3
        · omega
        · omega
      · rw [hbit₂, hbit₁, Bool.or_assoc]
        congr 1
        rw [Bool.eq_iff_iff]
        simp only [Bool.or_eq_true, decide_eq_true_eq]
        omega
    · refine ⟨bits, ?_, rfl, fun j => ?_⟩
      · rw [set8Loop, if_neg h8]
        congr 3
        · omega
        · omega
      · have : numbits / 8 = 0 := by omega
        simp [this]

/-- The `set` loop marks its positions one by one. -/
theorem setLoop_eq : ∀ (numbits : Nat) (bits : List UInt8) (pc : Nat),
    pc + numbits ≤ 8 * bits.length →
    ∃ bits', setLoop bits pc numbits = .ok (bits', pc + numbits) ∧ bits'.length = bits.length ∧
      ∀ j, bitAt bits' j = (bitAt bits j || decide (pc ≤ j ∧ j < pc + numbits))
  | 0, bits, pc, _ => ⟨bits, by rw [setLoop, if_neg (by omega), Nat.add_zero], rfl,
    fun j => by simp⟩
  | numbits + 1, bits, pc, hroom => by
    obtain ⟨b₁, hset, hlen₁, hbit₁⟩ := @bitvecSet_eq bits pc (by omega)
    obtain ⟨b₂, hloop, hlen₂, hbit₂⟩ := setLoop_eq numbits b₁ (pc + 1) (by omega)
    refine ⟨b₂, ?_, by rw [hlen₂, hlen₁], fun j => ?_⟩
    · rw [setLoop, if_pos (by omega), hset]
      show setLoop b₁ (pc + 1) (numbits + 1 - 1) = _
      rw [Nat.add_sub_cancel, hloop, Nat.add_assoc, Nat.add_comm 1]
    · rw [hbit₂, hbit₁, Bool.or_assoc]
      congr 1
      rw [Bool.eq_iff_iff]
      simp only [Bool.or_eq_true, decide_eq_true_eq]
      omega

/-! ### The bitmap's loop -/

/-- The bitmap at the loop's `pc`: it has its length; the instructions start at some positions
below `pc` and then at those the decoding reaches from `pc`; below `pc` exactly the positions
that start no instruction are marked; and nothing from `pc` on is. -/
structure BitmapInv (code bits : List UInt8) (pc : Nat) : Prop where
  length : bits.length = code.length / 8 + 1 + 4
  starts : ∃ P, instructionStarts code = P ++ startsFrom code pc ∧ ∀ p ∈ P, p < pc
  below : ∀ pos < pc, bitAt bits pos = decide (pos ∉ instructionStarts code)
  above : ∀ pos, pc ≤ pos → bitAt bits pos = false

section BitmapInv

variable {code : List UInt8}

theorem bitmapInv_start :
    BitmapInv code (List.replicate (code.length / 8 + 1 + 4) 0) 0 :=
  ⟨List.length_replicate .., ⟨[], rfl, by simp⟩, fun _ h => absurd h (Nat.not_lt_zero _),
    fun pos _ => bitAt_replicate_zero _ pos⟩

/-- After an instruction at `pc` with `n` immediate bytes whose positions are marked, the next
one starts at `pc + 1 + n`. -/
theorem BitmapInv.next {bits bits' : List UInt8} {pc : Nat} (hinv : BitmapInv code bits pc)
    (hpc : pc < code.length) (hlen : bits'.length = bits.length)
    (hbits : ∀ j, bitAt bits' j =
      (bitAt bits j || decide (pc + 1 ≤ j ∧ j < pc + 1 + pushSize code[pc]))) :
    BitmapInv code bits' (pc + 1 + pushSize code[pc]) := by
  obtain ⟨P, hP, hPlt⟩ := hinv.starts
  have hP' : instructionStarts code = (P ++ [pc]) ++ startsFrom code (pc + 1 + pushSize code[pc]) := by
    rw [hP, startsFrom_of_lt hpc, List.append_assoc, List.singleton_append]
  -- a position below `pc` starts an instruction exactly when it is one of `P`
  have hmem : ∀ pos, pos ∈ instructionStarts code ↔ pos ∈ P ++ [pc] ∨
      pos ∈ startsFrom code (pc + 1 + pushSize code[pc]) := by
    intro pos
    rw [hP', List.mem_append]
  refine ⟨by rw [hlen, hinv.length], ⟨P ++ [pc], hP', fun p hp => ?_⟩, fun pos hpos => ?_,
    fun pos hpos => ?_⟩
  · rcases List.mem_append.mp hp with hp | hp
    · have := hPlt p hp
      omega
    · rw [List.mem_singleton.mp hp]
      omega
  · rw [hbits]
    by_cases hlt : pos < pc
    · rw [hinv.below pos hlt, decide_eq_false (show ¬ (pc + 1 ≤ pos ∧ _) by omega), Bool.or_false]
    · rw [hinv.above pos (by omega)]
      have hnot : pos ∉ startsFrom code (pc + 1 + pushSize code[pc]) := fun h => by
        have := (mem_startsFrom h).1
        omega
      by_cases hpc' : pos = pc
      · subst hpc'
        have hin : pos ∈ instructionStarts code := (hmem pos).mpr (.inl (by simp))
        simp [hin]
      · have hout : pos ∉ instructionStarts code := fun h => by
          rcases (hmem pos).mp h with h | h
          · rcases List.mem_append.mp h with h | h
            · have := hPlt pos h
              omega
            · exact hpc' (List.mem_singleton.mp h)
          · exact hnot h
        simp only [hout, not_false_eq_true, decide_true, Bool.false_or, decide_eq_true_eq]
        omega
  · rw [hbits, hinv.above pos (by omega), Bool.false_or, decide_eq_false_iff_not]
    omega

/-- One turn of the bitmap's loop keeps the invariant, and never indexes past the bitmap. -/
theorem BitmapInv.step {bits : List UInt8} {pc : Nat} (hinv : BitmapInv code bits pc)
    (hpc : pc < code.length) (fuel : Nat) :
    ∃ bits', BitmapInv code bits' (pc + 1 + pushSize code[pc]) ∧
      codeBitmapLoop code (fuel + 1) bits pc =
        codeBitmapLoop code fuel bits' (pc + 1 + pushSize code[pc]) := by
  have hroom : pc + 1 + 32 < 8 * bits.length := by
    rw [hinv.length]
    omega
  by_cases hpush : code[pc] ≥ PUSH1 ∧ code[pc] ≤ PUSH32
  · have hn := pushSize_toNat hpush
    have hn32 := pushSize_le code[pc]
    obtain ⟨b₁, hloop₁, hlen₁, hbit₁⟩ := set8Loop_eq (pushSize code[pc]) bits (pc + 1) (by omega)
    obtain ⟨b₂, hloop₂, hlen₂, hbit₂⟩ := setLoop_eq (pushSize code[pc] % 8) b₁
      (pc + 1 + 8 * (pushSize code[pc] / 8)) (by omega)
    have hend : pc + 1 + 8 * (pushSize code[pc] / 8) + pushSize code[pc] % 8 =
        pc + 1 + pushSize code[pc] := by omega
    refine ⟨b₂, hinv.next hpc (by rw [hlen₂, hlen₁]) fun j => ?_, ?_⟩
    · rw [hbit₂, hbit₁, Bool.or_assoc]
      congr 1
      rw [Bool.eq_iff_iff]
      simp only [Bool.or_eq_true, decide_eq_true_eq]
      omega
    · rw [codeBitmapLoop, dif_pos hpc]
      dsimp only
      rw [if_pos hpush, hn, hloop₁]
      simp only [bind, Except.bind, hloop₂]
      rw [hend]
  · have h0 := pushSize_of_not hpush
    refine ⟨bits, hinv.next hpc rfl fun j => by simp [h0], ?_⟩
    rw [codeBitmapLoop, dif_pos hpc]
    dsimp only
    rw [if_neg hpush, h0, Nat.add_zero]

/-- The bitmap's loop, given a turn for each byte of code left, runs to the end of the code with
the invariant. The induction is on the fuel, one instruction a turn. -/
theorem BitmapInv.run : ∀ (fuel : Nat) {bits : List UInt8} {pc : Nat}, BitmapInv code bits pc →
    code.length ≤ pc + fuel →
    ∃ bits' pc', codeBitmapLoop code fuel bits pc = .ok bits' ∧ BitmapInv code bits' pc' ∧
      code.length ≤ pc'
  | 0, bits, pc, hinv, hfuel => ⟨bits, pc, rfl, hinv, by omega⟩
  | fuel + 1, bits, pc, hinv, hfuel => by
    by_cases hpc : pc < code.length
    · obtain ⟨bits', hinv', hloop⟩ := hinv.step hpc fuel
      rw [hloop]
      exact BitmapInv.run fuel hinv' (by omega)
    · refine ⟨bits, pc, ?_, hinv, by omega⟩
      rw [codeBitmapLoop, dif_neg hpc]

/-- `codeBitmap` never indexes past the bitmap, and marks exactly the bytes of the code that start
no instruction. -/
theorem codeBitmap_spec (code : List UInt8) :
    ∃ bits, codeBitmap code = .ok bits ∧ bits.length = code.length / 8 + 1 + 4 ∧
      ∀ pos < code.length, bitAt bits pos = decide (pos ∉ instructionStarts code) := by
  obtain ⟨bits, pc, hrun, hinv, hend⟩ := @BitmapInv.run code code.length _ _ bitmapInv_start
    (by omega)
  exact ⟨bits, hrun, hinv.length, fun pos hpos => hinv.below pos (by omega)⟩

end BitmapInv

/-! ### `has` -/

/-- `has(code, dest)` holds exactly when `dest` is below `2^62` and within the code, the byte there
is `JUMPDEST`, and `dest` starts an instruction of the code's linear decoding; it never panics. -/
theorem has_eq (code : List UInt8) (dest : Nat) :
    has code dest = .ok (decide (dest < 2 ^ 62 ∧ dest < code.length ∧
      code[dest]? = some JUMPDEST ∧ dest ∈ instructionStarts code)) := by
  unfold has
  dsimp only
  by_cases hfar : dest.size ≥ 63 ∨ dest % 2 ^ 64 ≥ code.length
  · rw [if_pos hfar]
    congr 1
    symm
    rw [decide_eq_false_iff_not]
    rintro ⟨h62, hlt, -⟩
    have hsize : dest.size ≤ 62 := Nat.size_le.mpr h62
    rw [Nat.mod_eq_of_lt (by omega)] at hfar
    omega
  · rw [if_neg hfar]
    rw [not_or, not_le, not_le] at hfar
    have h62 : dest < 2 ^ 62 := Nat.size_le.mp (by omega)
    have hmod : dest % 2 ^ 64 = dest := Nat.mod_eq_of_lt (by omega)
    rw [hmod] at hfar ⊢
    obtain ⟨bits, hbm, hlen, hbits⟩ := codeBitmap_spec code
    rw [hbm]
    simp only [bind, Except.bind]
    rw [goIndex_eq_ok hfar.2, codeSegment_eq (by rw [hlen]; omega), hbits dest hfar.2]
    dsimp only [pure, Except.pure]
    congr 1
    rw [Bool.eq_iff_iff]
    simp only [Bool.and_eq_true, beq_iff_eq, Bool.not_eq_true', decide_eq_false_iff_not, not_not,
      decide_eq_true_eq, List.getElem?_eq_getElem hfar.2, Option.some.injEq]
    exact ⟨fun ⟨hop, hstart⟩ => ⟨h62, hfar.2, hop, hstart⟩, fun ⟨_, _, hop, hstart⟩ => ⟨hop, hstart⟩⟩

/-- The analysis is exact: on every code no longer than `2^62` bytes, `codeBitmap` runs within
its `len/8 + 5` bytes, and `has` accepts exactly the in-code `JUMPDEST`s that start
instructions (the bound of `has` on `dest` is then implied by `dest < len(code)`). -/
theorem destinations_exact (code : List UInt8) (hcode : code.length ≤ 2 ^ 62) (dest : Nat) :
    (∃ bits, codeBitmap code = .ok bits ∧ bits.length = code.length / 8 + 1 + 4) ∧
      has code dest = .ok (decide (dest < code.length ∧
        code[dest]? = some JUMPDEST ∧ dest ∈ instructionStarts code)) := by
  obtain ⟨bits, hbm, hlen, -⟩ := codeBitmap_spec code
  refine ⟨⟨bits, hbm, hlen⟩, ?_⟩
  rw [has_eq code dest]
  congr 1
  -- a destination within the code is below `2^62`
  exact decide_eq_decide.mpr ⟨fun h => h.2, fun h => ⟨by omega, h⟩⟩

/-- A `JUMPDEST` in the data of a `PUSH1` is not a jump destination; the one after it is. -/
theorem destinations_exact_push :
    (∃ bits, codeBitmap [PUSH1, JUMPDEST, JUMPDEST] = .ok bits ∧ bits.length = 3 / 8 + 1 + 4) ∧
      has [PUSH1, JUMPDEST, JUMPDEST] 1 = .ok false ∧ has [PUSH1, JUMPDEST, JUMPDEST] 2 = .ok true := by
  have h := destinations_exact [PUSH1, JUMPDEST, JUMPDEST] (by decide)
  exact ⟨(h 1).1, (h 1).2.trans (by decide +kernel), (h 2).2.trans (by decide +kernel)⟩

end EpvChain.Vm
