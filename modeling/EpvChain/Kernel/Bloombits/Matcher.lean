import EpvChain.Kernel.Types.Bloom9
import EpvChain.Public.Bitutil

/-!
# Bloom bits: the index and the matcher (`kernel/bloombits`)

The chain is cut into sections of `sectionSize` blocks. For each section the index holds one
bit vector per bloom bit: bit `j` of the vector of bloom bit `i` is bit `i` of the bloom of the
section's block `j` (`Generator.AddBloom`). A filter is a list of groups of clauses, a clause the
three bloom bits of an address or topic (`calcBloomIndexes`). The matcher computes, section by
section, the AND over the groups of the OR over the clauses of the AND of the three vectors
(`subMatch`), and sends the numbers of the set bits within the range (`Start`).

The model is the values the goroutine pipeline computes, with the delivered vectors a function
`retrieve` of the bit and the section; the goroutines, schedulers and distributor are not
modelled. The section size is a multiple of eight (`NewGenerator` refuses others).

* `Generator.Holds.addBlooms`: a successful run of `AddBloom` asked for the blocks in order and
  each vector's bit `j` is that bloom bit of the `j`-th bloom.
* `bitset_of_run`: below the section count `Bitset` hands out the transposed blooms.
* `bitset_refuses_bits_past_sections`: `Bitset` bounds the bloom bit by the section count, not
  `BloomBitLength`.
* `sessionResults_eq`: from indexed vectors the matcher sends exactly the numbers in
  `[begin, end]` whose bloom matches, each once and in increasing order.
-/

namespace EpvChain.Bloombits

open EpvChain.Types EpvChain.Bitutil

/-- `BloomBitLength`. -/
def BloomBitLength : Nat := 8 * BloomByteLength

/-- Bit `i` of a bloom, `bloom[BloomByteLength-1-i/8] & (1 << (i%8))`: the byte `i / 8` from
the end of the big-endian bytes, and its bit `i % 8`. -/
def bloomBitSet (bloom : Bloom) (i : Nat) : Bool :=
  ((bloom.val >>> (8 * (i / 8))) % 256).testBit (i % 8)

/-! ### The generator -/

/-- The generator's errors. -/
inductive GeneratorError where
  | sectionCountNotMultipleOf8
  | sectionOutOfBounds
  | unexpectedIndex
  | notFullyGenerated
  deriving DecidableEq, Repr

/-- `Generator`: one vector of `sections / 8` bytes per bloom bit, and the next block. -/
structure Generator where
  blooms : List (List UInt8)
  sections : Nat
  nextBit : Nat

/-- `NewGenerator(sections)`. -/
def NewGenerator (sections : Nat) : Except GeneratorError Generator :=
  if sections % 8 ≠ 0 then .error .sectionCountNotMultipleOf8
  else .ok ⟨List.replicate BloomBitLength (List.replicate (sections / 8) 0), sections, 0⟩

/-- `b.AddBloom(index, bloom)`: set the bit of the next block in the vector of each bloom bit
set in its bloom. -/
def Generator.AddBloom (b : Generator) (index : Nat) (bloom : Bloom) : Except GeneratorError Generator :=
  if b.sections ≤ b.nextBit then .error .sectionOutOfBounds
  else if b.nextBit ≠ index then .error .unexpectedIndex
  else .ok
    { b with
      blooms := b.blooms.mapIdx fun i v =>
        if bloomBitSet bloom i then v.modify (b.nextBit / 8) (· ||| mask b.nextBit) else v
      nextBit := b.nextBit + 1 }

/-- `b.Bitset(idx)`: the vector of a bloom bit, once every block was added. The source bounds
the bloom bit `idx` by the section count, `idx >= b.sections`, not by `BloomBitLength`; past the
2048 vectors Go's array index panics, where the model reads an empty vector. -/
def Generator.Bitset (b : Generator) (idx : Nat) : Except GeneratorError (List UInt8) :=
  if b.nextBit ≠ b.sections then .error .notFullyGenerated
  else if b.sections ≤ idx then .error .sectionOutOfBounds
  else .ok (b.blooms.getD idx [])

/-- `AddBloom` for each call in turn, stopping at the first error: a run that succeeds is a
sequence of blooms added to the generator. The bloom indexer's `Process` drops `AddBloom`'s
error; a call that fails changes nothing. -/
def Generator.addBlooms (b : Generator) (calls : List (Nat × Bloom)) :
    Except GeneratorError Generator :=
  calls.foldlM (fun b call => b.AddBloom call.1 call.2) b

/-- The vectors of a section are indexed from the blooms `blooms`: for each bloom bit, a vector
of `sectionSize / 8` bytes whose bit `j` is that bit of the bloom of the section's block `j`. -/
structure Indexed (sectionSize : Nat) (retrieve : Nat → Nat → List UInt8) (blooms : Nat → Bloom)
    (s : Nat) : Prop where
  length : ∀ bit < BloomBitLength, (retrieve bit s).length = sectionSize / 8
  bits : ∀ bit < BloomBitLength, ∀ j < sectionSize,
    bitAt (retrieve bit s) j = bloomBitSet (blooms (s * sectionSize + j)) bit

/-! ### The matcher -/

/-- `calcBloomIndexes(b)`: the three bloom bits of some data. -/
def calcBloomIndexes (keccak256 : List UInt8 → List UInt8) (b : List UInt8) : List Nat :=
  let k := keccak256 b
  [0, 1, 2].map fun i => ((k.getD (2 * i) 0).toNat <<< 8 &&& 2047) + (k.getD (2 * i + 1) 0).toNat

/-- A `Matcher`, less its channels and schedulers: the section size, and the groups of
clauses, each clause the bloom bits of some data. -/
structure Matcher where
  sectionSize : Nat
  filters : List (List (List Nat))

/-- `NewMatcher(sectionSize, filters)`: an empty group is left out (it matches every block), and
so is a group with a `nil` clause. -/
def NewMatcher (keccak256 : List UInt8 → List UInt8) (sectionSize : Nat)
    (filters : List (List (Option (List UInt8)))) : Matcher where
  sectionSize := sectionSize
  filters := filters.filterMap fun filter =>
    if filter.isEmpty then none
    else filter.mapM fun clause => clause.map (calcBloomIndexes keccak256)

/-- `bitutil.ANDBytes(a, a, b)`: the bytes of `a` and `b` AND-ed, as far as both go; past the
end of `b`, `a` is kept. -/
def ANDBytes (a b : List UInt8) : List UInt8 := List.zipWith (· &&& ·) a b ++ a.drop b.length

/-- `bitutil.ORBytes(a, a, b)`. -/
def ORBytes (a b : List UInt8) : List UInt8 := List.zipWith (· ||| ·) a b ++ a.drop b.length

/-- `bitutil.TestBytes(p)`: some byte is not zero. -/
def TestBytes (p : List UInt8) : Bool := p.any (· != 0)

/-- `make([]byte, n)` followed by `copy` of `data`. -/
def copyInto (n : Nat) (data : List UInt8) : List UInt8 :=
  data.take n ++ List.replicate (n - data.length) 0

/-- One turn of the loop over a clause's bits in `subMatch`: the first vector is copied, the
others are AND-ed in. -/
def andStep (n : Nat) (retrieve : Nat → Nat → List UInt8) (s : Nat) (andVector : Option (List UInt8))
    (bit : Nat) : Option (List UInt8) :=
  let data := retrieve bit s
  match andVector with
  | none => some (copyInto n data)
  | some v => some (ANDBytes v data)

/-- The AND of the vectors of a clause's bits, in the section `s`. -/
def andVector (n : Nat) (retrieve : Nat → Nat → List UInt8) (s : Nat) (bits : List Nat) :
    Option (List UInt8) :=
  bits.foldl (andStep n retrieve s) none

/-- One turn of the loop over a group's clauses in `subMatch`: the first clause's vector is
taken, the others are OR-ed in. -/
def orStep (n : Nat) (retrieve : Nat → Nat → List UInt8) (s : Nat) (orVector : Option (List UInt8))
    (bits : List Nat) : Option (List UInt8) :=
  match orVector, andVector n retrieve s bits with
  | none, a => a
  | some o, some a => some (ORBytes o a)
  | some o, none => some o

/-- The second goroutine of `subMatch`, for one section: the OR over the group's clauses of the
AND of their vectors, AND-ed with what the stage before found; the section goes on only if some
bit is left. -/
def subMatch (m : Matcher) (retrieve : Nat → Nat → List UInt8) (bloom : List (List Nat))
    (s : Nat) (bitset : List UInt8) : Option (List UInt8) :=
  let n := m.sectionSize / 8
  let orVector := bloom.foldl (orStep n retrieve s) none
  let orVector := ANDBytes (orVector.getD (List.replicate n 0)) bitset
  if TestBytes orVector then some orVector else none

/-- The pipeline for one section: the all-ones vector of `run`'s source, through every stage. -/
def sectionMatch (m : Matcher) (retrieve : Nat → Nat → List UInt8) (s : Nat) :
    Option (List UInt8) :=
  m.filters.foldlM (fun bitset bloom => subMatch m retrieve bloom s bitset)
    (List.replicate (m.sectionSize / 8) 0xff)

/-- The loop of `Start`'s goroutine over the numbers `i ≤ last` of a section: a zero byte at a
byte boundary skips its eight numbers. At most one turn per number. -/
def emitLoop (sectionStart last : Nat) (bitset : List UInt8) : Nat → Nat → List Nat
  | 0, _ => []
  | fuel + 1, i =>
    if last < i then []
    else
      let next := bitset.getD ((i - sectionStart) / 8) 0
      if next = 0 then emitLoop sectionStart last bitset fuel (if i % 8 = 0 then i + 8 else i + 1)
      else if next &&& mask i ≠ 0 then i :: emitLoop sectionStart last bitset fuel (i + 1)
      else emitLoop sectionStart last bitset fuel (i + 1)

/-- What `Start`'s goroutine sends for one section's result: the numbers of its set bits
between `begin` and `end`. -/
def emitSection (sectionSize «begin» «end» s : Nat) (bitset : List UInt8) : List Nat :=
  let sectionStart := s * sectionSize
  let first := max sectionStart «begin»
  let last := min (sectionStart + sectionSize - 1) «end»
  emitLoop sectionStart last bitset (last + 1 - first) first

/-- What a `MatcherSession` started on `[begin, end]` sends on `results`, in order: the sections
from `begin / sectionSize` to `end / sectionSize`, each through the pipeline, then the set
bits of those that come out. -/
def sessionResults (m : Matcher) (retrieve : Nat → Nat → List UInt8) («begin» «end» : Nat) :
    List Nat :=
  (List.range' («begin» / m.sectionSize) («end» / m.sectionSize + 1 - «begin» / m.sectionSize)).flatMap
    fun s =>
      match sectionMatch m retrieve s with
      | some bitset => emitSection m.sectionSize «begin» «end» s bitset
      | none => []

/-- A block's bloom matches the filter: in each group, all bits of some clause are set. -/
def Matches (filters : List (List (List Nat))) (bloom : Bloom) : Bool :=
  filters.all fun group => group.any fun clause => clause.all fun bit => bloomBitSet bloom bit

/-! ### Bits of blooms and of byte vectors -/

/-- `calcBloomIndexes` finds the three bits `bloom9` sets: the two spell the same eleven bits of
each byte pair. -/
theorem calcBloomIndexes_eq_bloomBits (keccak256 : List UInt8 → List UInt8) (b : List UInt8) :
    calcBloomIndexes keccak256 b = bloomBits keccak256 b := by
  have hbit : ∀ hi lo : UInt8, (hi.toNat <<< 8 &&& 2047) + lo.toNat = bloomBit hi lo := by
    intro hi lo
    have h2047 : (2047 : Nat) = 2 ^ 11 - 1 := rfl
    have hlo : lo.toNat < 256 := lo.toNat_lt
    rw [bloomBit, h2047, Nat.and_two_pow_sub_one_eq_mod, Nat.and_two_pow_sub_one_eq_mod,
      Nat.shiftLeft_eq]
    norm_num
    omega
  simp only [calcBloomIndexes, bloomBits, List.map_cons, List.map_nil, hbit]

theorem bloomBitSet_eq (bloom : Bloom) (i : Nat) : bloomBitSet bloom i = bloom.val.testBit i := by
  have h256 : (256 : Nat) = 2 ^ 8 := rfl
  rw [bloomBitSet, h256, Nat.testBit_mod_two_pow, decide_eq_true (Nat.mod_lt i (by norm_num)),
    Bool.true_and, Nat.testBit_shiftRight, Nat.div_add_mod]

theorem getD_zipWith {f : UInt8 → UInt8 → UInt8} (hf : f 0 0 = 0) {a b : List UInt8}
    (hlen : a.length = b.length) (k : Nat) :
    (List.zipWith f a b).getD k 0 = f (a.getD k 0) (b.getD k 0) := by
  simp only [List.getD_eq_getElem?_getD]
  by_cases hk : k < a.length
  · rw [List.getElem?_eq_getElem (by rw [List.length_zipWith, ← hlen, Nat.min_self]; exact hk),
      List.getElem_zipWith,
      List.getElem?_eq_getElem hk, List.getElem?_eq_getElem (hlen ▸ hk)]
    rfl
  · rw [List.getElem?_eq_none (by simp [List.length_zipWith, hlen] at hk ⊢; omega),
      List.getElem?_eq_none (by omega), List.getElem?_eq_none (by omega)]
    exact hf.symm

variable {a b : List UInt8}

theorem ANDBytes_of_length_eq (hlen : a.length = b.length) :
    ANDBytes a b = List.zipWith (· &&& ·) a b := by
  rw [ANDBytes, ← hlen, List.drop_length, List.append_nil]

theorem ORBytes_of_length_eq (hlen : a.length = b.length) :
    ORBytes a b = List.zipWith (· ||| ·) a b := by
  rw [ORBytes, ← hlen, List.drop_length, List.append_nil]

@[simp] theorem length_ANDBytes : (ANDBytes a b).length = a.length := by
  simp only [ANDBytes, List.length_append, List.length_zipWith, List.length_drop]
  omega

@[simp] theorem length_ORBytes : (ORBytes a b).length = a.length := by
  simp only [ORBytes, List.length_append, List.length_zipWith, List.length_drop]
  omega

theorem bitAt_ANDBytes (hlen : a.length = b.length) (j : Nat) :
    bitAt (ANDBytes a b) j = (bitAt a j && bitAt b j) := by
  rw [ANDBytes_of_length_eq hlen, bitAt, getD_zipWith (by decide) hlen, UInt8.toNat_and,
    Nat.testBit_and]
  rfl

theorem bitAt_ORBytes (hlen : a.length = b.length) (j : Nat) :
    bitAt (ORBytes a b) j = (bitAt a j || bitAt b j) := by
  rw [ORBytes_of_length_eq hlen, bitAt, getD_zipWith (by decide) hlen, UInt8.toNat_or,
    Nat.testBit_or]
  rfl

theorem copyInto_of_length_eq {n : Nat} (hlen : a.length = n) : copyInto n a = a := by
  rw [copyInto, ← hlen, List.take_length, Nat.sub_self, List.replicate_zero, List.append_nil]

theorem bitAt_replicate_ff (n j : Nat) : bitAt (List.replicate n 0xff) j = decide (j < 8 * n) := by
  by_cases hj : j < 8 * n
  · rw [bitAt, List.getD_eq_getElem?_getD, List.getElem?_replicate, if_pos (by omega),
      decide_eq_true hj]
    have h7 : 7 - j % 8 < 8 := by omega
    simp only [Option.getD_some, UInt8.toNat_ofNat]
    interval_cases (7 - j % 8) <;> rfl
  · rw [bitAt_of_length_le (by simp; omega), decide_eq_false hj]

/-- A vector with a byte that is not zero has a bit set. -/
theorem TestBytes_eq_false_iff : TestBytes a = false ↔ ∀ j, bitAt a j = false := by
  constructor
  · intro h j
    rw [TestBytes, List.any_eq_false] at h
    rw [bitAt, List.getD_eq_getElem?_getD]
    cases hx : a[j / 8]? with
    | none => simp
    | some x =>
      have hx0 : x = 0 := by simpa using h x (List.mem_of_getElem? hx)
      simp [hx0]
  · intro h
    rw [eq_replicate_of_bitAt h, TestBytes, List.any_eq_false]
    intro x hx
    simp [List.eq_of_mem_replicate hx]

/-! ### What the generator builds -/

theorem getD_mapIdx_of_lt {α : Type} {l : List α} {f : Nat → α → α} {i : Nat} (hi : i < l.length)
    (d : α) : (l.mapIdx f).getD i d = f i (l.getD i d) := by
  rw [List.getD_eq_getElem?_getD, List.getElem?_mapIdx, List.getD_eq_getElem?_getD,
    List.getElem?_eq_getElem hi]
  rfl

/-- Bit `i` of the `j`-th bloom of a list, and clear past its end: what a vector of the
generator holds at `j`. -/
def addedBit (added : List Bloom) (i j : Nat) : Bool :=
  decide (j < added.length) && (added.getD j 0).val.testBit i

/-- One more bloom adds its bit at the end. -/
theorem addedBit_concat (added : List Bloom) (bloom : Bloom) (i j : Nat) :
    addedBit (added ++ [bloom]) i j =
      (addedBit added i j || (decide (j = added.length) && bloom.val.testBit i)) := by
  have hlen : (added ++ [bloom]).length = added.length + 1 := by
    rw [List.length_append, List.length_singleton]
  unfold addedBit
  rw [hlen]
  rcases Nat.lt_trichotomy j added.length with hj | rfl | hj
  · rw [List.getD_append _ _ _ _ hj, decide_eq_true (by omega), decide_eq_true hj,
      decide_eq_false (Nat.ne_of_lt hj), Bool.false_and, Bool.or_false]
  · rw [List.getD_append_right _ _ _ _ le_rfl, Nat.sub_self, List.getD_cons_zero,
      decide_eq_true (by omega), decide_eq_false (lt_irrefl _), decide_eq_true rfl]
    rfl
  · rw [decide_eq_false (by omega), decide_eq_false (Nat.not_lt_of_gt hj),
      decide_eq_false (Nat.ne_of_gt hj)]
    rfl

theorem addedBit_of_lt {added : List Bloom} {j : Nat} (hj : j < added.length) (i : Nat) :
    addedBit added i j = added[j].val.testBit i := by
  rw [addedBit, decide_eq_true hj, Bool.true_and, List.getD_eq_getElem?_getD,
    List.getElem?_eq_getElem hj, Option.getD_some]

namespace Generator

/-- The generator holds the blooms `added` of its section's first blocks: one vector of
`sections / 8` bytes per bloom bit, whose bit `j` is that bit of the `j`-th bloom. -/
structure Holds (b : Generator) (added : List Bloom) : Prop where
  mul8 : b.sections % 8 = 0
  count : b.blooms.length = BloomBitLength
  length : ∀ v ∈ b.blooms, v.length = b.sections / 8
  next : b.nextBit = added.length
  le : added.length ≤ b.sections
  bits : ∀ i < BloomBitLength, ∀ j, bitAt (b.blooms.getD i []) j = addedBit added i j

theorem holds_newGenerator {sections : Nat} {b : Generator} (h : NewGenerator sections = .ok b) :
    b.sections = sections ∧ Holds b [] := by
  unfold NewGenerator at h
  split_ifs at h with h8
  cases h
  refine ⟨rfl, by simpa using h8, List.length_replicate, fun v hv => ?_, rfl, Nat.zero_le _,
    fun i hi j => ?_⟩
  · rw [List.eq_of_mem_replicate hv, List.length_replicate]
  · rw [List.getD_eq_getElem?_getD, List.getElem?_replicate, if_pos hi, Option.getD_some,
      bitAt_replicate_zero]
    rfl

theorem newGenerator_of_mod {sections : Nat} (h8 : sections % 8 = 0) :
    ∃ b, NewGenerator sections = .ok b :=
  ⟨_, if_neg (by omega)⟩

/-- What `AddBloom` does when it succeeds: the next block was still in the section and was the one
asked for, and its bit is set in the vector of each bloom bit its bloom has. -/
theorem addBloom_eq_ok {b b' : Generator} {index : Nat} {bloom : Bloom}
    (h : b.AddBloom index bloom = .ok b') :
    b.nextBit < b.sections ∧ index = b.nextBit ∧
      b' = { b with
        blooms := b.blooms.mapIdx fun i v =>
          if bloomBitSet bloom i then v.modify (b.nextBit / 8) (· ||| mask b.nextBit) else v
        nextBit := b.nextBit + 1 } := by
  unfold AddBloom at h
  split_ifs at h with hle hidx
  cases h
  exact ⟨by omega, by omega, rfl⟩

theorem addBloom_of_lt {b : Generator} (hlt : b.nextBit < b.sections) (bloom : Bloom) :
    ∃ b', b.AddBloom b.nextBit bloom = .ok b' :=
  ⟨_, by rw [AddBloom, if_neg (by omega), if_neg (by omega)]⟩

variable {b b' : Generator} {added : List Bloom}

theorem Holds.length_getD (hb : Holds b added) {i : Nat} (hi : i < BloomBitLength) :
    (b.blooms.getD i []).length = b.sections / 8 := by
  apply hb.length
  rw [List.getD_eq_getElem?_getD, List.getElem?_eq_getElem (hb.count ▸ hi), Option.getD_some]
  exact List.getElem_mem _

/-- Adding a bloom to a generator that holds `added` makes it hold `added ++ [bloom]`; the index
asked for was the number of blooms added. -/
theorem Holds.addBloom (hb : Holds b added) {index : Nat} {bloom : Bloom}
    (h : b.AddBloom index bloom = .ok b') :
    index = added.length ∧ b'.sections = b.sections ∧ Holds b' (added ++ [bloom]) := by
  obtain ⟨hlt, rfl, rfl⟩ := addBloom_eq_ok h
  refine ⟨hb.next, rfl, hb.mul8, by rw [List.length_mapIdx, hb.count], fun v hv => ?_,
    by rw [List.length_append, List.length_singleton, hb.next], by
      rw [List.length_append, List.length_singleton, ← hb.next]; exact hlt, fun i hi j => ?_⟩
  · obtain ⟨i, hi, rfl⟩ := List.getElem_of_mem hv
    rw [List.getElem_mapIdx]
    have hlen := hb.length _ (List.getElem_mem (by simpa using hi))
    split
    · rw [List.length_modify, hlen]
    · exact hlen
  · have hi' : i < b.blooms.length := hb.count ▸ hi
    -- the vector of bloom bit `i` before the block, and the place of the block's bit in it
    have hroom : b.nextBit / 8 < (b.blooms.getD i []).length := by
      rw [hb.length_getD hi]
      have := hb.mul8
      omega
    rw [getD_mapIdx_of_lt hi', addedBit_concat, ← hb.bits i hi j, ← bloomBitSet_eq, ← hb.next]
    split
    · rename_i hset
      rw [bitAt_modify hroom, hset, Bool.and_true]
    · rename_i hset
      rw [Bool.not_eq_true] at hset
      rw [hset, Bool.and_false, Bool.or_false]

/-- A run of `AddBloom` calls that succeeds asked for the blocks in order, and leaves the
generator holding their blooms. -/
theorem Holds.addBlooms (hb : Holds b added) {calls : List (Nat × Bloom)}
    (h : b.addBlooms calls = .ok b') :
    calls.map Prod.fst = List.range' added.length calls.length ∧ b'.sections = b.sections ∧
      Holds b' (added ++ calls.map Prod.snd) := by
  have hrun := Lib.foldlM_inv (fun b call => b.AddBloom call.1 call.2)
    (fun done s => done.map Prod.fst = List.range' added.length done.length ∧
      s.sections = b.sections ∧ Holds s (added ++ done.map Prod.snd))
    (by
      rintro done ⟨index, bloom⟩ s s' ⟨hidx, hsec, hs⟩ hstep
      obtain ⟨hindex, hsec', hs'⟩ := hs.addBloom hstep
      refine ⟨?_, hsec'.trans hsec, by rwa [List.map_append, ← List.append_assoc]⟩
      rw [List.map_append, hidx, List.length_append, List.length_singleton, List.range'_concat,
        Nat.one_mul]
      show _ ++ [index] = _
      rw [show index = _ from hindex, List.length_append, List.length_map])
    calls [] b b' ⟨rfl, rfl, by rwa [List.map_nil, List.append_nil]⟩ h
  rwa [List.nil_append] at hrun

/-- The calls the bloom indexer makes, each block's index with its bloom, succeed while the
section has room. -/
theorem Holds.addBlooms_range' (hb : Holds b added) (blooms : List Bloom)
    (hroom : added.length + blooms.length ≤ b.sections) :
    ∃ b', b.addBlooms ((List.range' added.length blooms.length).zip blooms) = .ok b' ∧
      Holds b' (added ++ blooms) := by
  induction blooms generalizing b added with
  | nil => exact ⟨b, rfl, by rwa [List.append_nil]⟩
  | cons bloom blooms ih =>
    rw [List.length_cons] at hroom
    obtain ⟨b₁, hadd⟩ := addBloom_of_lt (by rw [hb.next]; omega) bloom
    rw [hb.next] at hadd
    obtain ⟨-, hsec, hb₁⟩ := hb.addBloom hadd
    obtain ⟨b', hrun, hb'⟩ := ih hb₁ (by rw [hsec, List.length_append, List.length_singleton]; omega)
    refine ⟨b', ?_, by rwa [List.append_assoc, List.singleton_append] at hb'⟩
    rw [List.length_cons, List.range'_succ, List.zip_cons_cons, Generator.addBlooms, List.foldlM_cons,
      hadd]
    rw [List.length_append, List.length_singleton] at hrun
    exact hrun

/-- Once the section is full, `Bitset` of a bloom bit below the section count hands out the
generator's vector of that bit. -/
theorem Holds.bitset_eq (hb : Holds b added) (hfull : added.length = b.sections) {i : Nat}
    (his : i < b.sections) : b.Bitset i = .ok (b.blooms.getD i []) := by
  rw [Bitset, if_neg (by rw [hb.next, hfull]; exact not_not_intro rfl), if_neg (by omega)]

/-- Once the section is full, `Bitset` gives the vector of every bloom bit below the section
count: `sections / 8` bytes whose bit `j` is that bit of the `j`-th bloom. -/
theorem Holds.bitset (hb : Holds b added) (hfull : added.length = b.sections) {i : Nat}
    (hi : i < BloomBitLength) (his : i < b.sections) :
    ∃ v, b.Bitset i = .ok v ∧ v.length = b.sections / 8 ∧ ∀ j, bitAt v j = addedBit added i j :=
  ⟨b.blooms.getD i [], hb.bitset_eq hfull his, hb.length_getD hi, hb.bits i hi⟩

/-- `Bitset` bounds the bloom bit by the section count: at or past it, a full section gives no
vector even for a bloom bit below 2048. -/
theorem Holds.bitset_of_le (hb : Holds b added) (hfull : added.length = b.sections) {i : Nat}
    (hle : b.sections ≤ i) : b.Bitset i = .error .sectionOutOfBounds := by
  rw [Bitset, if_neg (by rw [hb.next, hfull]; exact not_not_intro rfl), if_pos hle]

/-- A section's vectors, read back as the generator that holds the section's blooms built them,
are indexed from the blooms: the matcher's input for that section. -/
theorem Holds.indexed {sectionSize s : Nat} {retrieve : Nat → Nat → List UInt8}
    {blooms : Nat → Bloom}
    (hb : Holds b ((List.range sectionSize).map fun j => blooms (s * sectionSize + j)))
    (hsize : b.sections = sectionSize)
    (hret : ∀ bit < BloomBitLength, retrieve bit s = b.blooms.getD bit []) :
    Indexed sectionSize retrieve blooms s where
  length bit hbit := by
    rw [hret bit hbit, ← hsize]
    exact hb.length_getD hbit
  bits bit hbit j hj := by
    rw [hret bit hbit, hb.bits bit hbit, addedBit, bloomBitSet_eq, List.length_map,
      List.length_range, decide_eq_true hj, Bool.true_and, List.getD_eq_getElem?_getD,
      List.getElem?_map, List.getElem?_range hj]
    rfl

end Generator

/-! ### What one section's pipeline computes -/

/-- The matcher's filter is as `NewMatcher` builds it: no group is empty, no clause is empty,
and every bit is a bloom bit. -/
structure Matcher.WellFormed (m : Matcher) : Prop where
  groups : ∀ group ∈ m.filters, group ≠ []
  clauses : ∀ group ∈ m.filters, ∀ clause ∈ group, clause ≠ []
  bits : ∀ group ∈ m.filters, ∀ clause ∈ group, ∀ bit ∈ clause, bit < BloomBitLength

/-- The bit `j` of a clause in a section: all its bits' vectors have it. -/
def clauseBit (retrieve : Nat → Nat → List UInt8) (s j : Nat) (clause : List Nat) : Bool :=
  clause.all fun bit => bitAt (retrieve bit s) j

/-- The bit `j` of a group in a section: some clause has it. -/
def groupBit (retrieve : Nat → Nat → List UInt8) (s j : Nat) (group : List (List Nat)) : Bool :=
  group.any (clauseBit retrieve s j)

@[simp] theorem clauseBit_nil (retrieve : Nat → Nat → List UInt8) (s j : Nat) :
    clauseBit retrieve s j [] = true := rfl

@[simp] theorem clauseBit_cons (retrieve : Nat → Nat → List UInt8) (s j bit : Nat) (bits : List Nat) :
    clauseBit retrieve s j (bit :: bits) = (bitAt (retrieve bit s) j && clauseBit retrieve s j bits) :=
  rfl

@[simp] theorem groupBit_nil (retrieve : Nat → Nat → List UInt8) (s j : Nat) :
    groupBit retrieve s j [] = false := rfl

@[simp] theorem groupBit_cons (retrieve : Nat → Nat → List UInt8) (s j : Nat) (clause : List Nat)
    (group : List (List Nat)) :
    groupBit retrieve s j (clause :: group) =
      (clauseBit retrieve s j clause || groupBit retrieve s j group) := rfl

section Pipeline

variable {n : Nat} {retrieve : Nat → Nat → List UInt8} {s : Nat}

theorem foldl_andStep_some {bits : List Nat} (hlen : ∀ bit ∈ bits, (retrieve bit s).length = n)
    {v : List UInt8} (hv : v.length = n) :
    ∃ w, bits.foldl (andStep n retrieve s) (some v) = some w ∧ w.length = n ∧
      ∀ j, bitAt w j = (bitAt v j && clauseBit retrieve s j bits) := by
  induction bits generalizing v with
  | nil => exact ⟨v, rfl, hv, fun j => by rw [clauseBit_nil, Bool.and_true]⟩
  | cons bit bits ih =>
    have hbit := hlen bit List.mem_cons_self
    obtain ⟨w, hw, hwlen, hwbits⟩ := ih (fun b hb => hlen b (List.mem_cons_of_mem bit hb))
      (v := ANDBytes v (retrieve bit s)) (by rw [length_ANDBytes, hv])
    refine ⟨w, hw, hwlen, fun j => ?_⟩
    rw [hwbits, bitAt_ANDBytes (hv.trans hbit.symm), clauseBit_cons, Bool.and_assoc]

/-- A clause's vector has the bits its clause has. -/
theorem andVector_spec {bits : List Nat} (hne : bits ≠ [])
    (hlen : ∀ bit ∈ bits, (retrieve bit s).length = n) :
    ∃ w, andVector n retrieve s bits = some w ∧ w.length = n ∧
      ∀ j, bitAt w j = clauseBit retrieve s j bits := by
  obtain ⟨bit, bits, rfl⟩ := List.exists_cons_of_ne_nil hne
  have hbit := hlen bit List.mem_cons_self
  obtain ⟨w, hw, hwlen, hwbits⟩ := foldl_andStep_some
    (fun b hb => hlen b (List.mem_cons_of_mem bit hb)) (copyInto_of_length_eq hbit ▸ hbit)
  refine ⟨w, hw, hwlen, fun j => ?_⟩
  rw [hwbits, copyInto_of_length_eq hbit, clauseBit_cons]

variable {group : List (List Nat)} (hne : ∀ clause ∈ group, clause ≠ [])
  (hlen : ∀ clause ∈ group, ∀ bit ∈ clause, (retrieve bit s).length = n)
include hne hlen

theorem foldl_orStep_some {o : List UInt8} (ho : o.length = n) :
    ∃ w, group.foldl (orStep n retrieve s) (some o) = some w ∧ w.length = n ∧
      ∀ j, bitAt w j = (bitAt o j || groupBit retrieve s j group) := by
  induction group generalizing o with
  | nil => exact ⟨o, rfl, ho, fun j => by rw [groupBit_nil, Bool.or_false]⟩
  | cons clause group ih =>
    obtain ⟨a, ha, halen, habits⟩ := andVector_spec (hne clause List.mem_cons_self)
      (hlen clause List.mem_cons_self)
    have hstep : orStep n retrieve s (some o) clause = some (ORBytes o a) := by
      simp only [orStep, ha]
    obtain ⟨w, hw, hwlen, hwbits⟩ := ih (fun c hc => hne c (List.mem_cons_of_mem clause hc))
      (fun c hc => hlen c (List.mem_cons_of_mem clause hc)) (o := ORBytes o a)
      (by rw [length_ORBytes, ho])
    refine ⟨w, by rw [List.foldl_cons, hstep, hw], hwlen, fun j => ?_⟩
    rw [hwbits, bitAt_ORBytes (ho.trans halen.symm), habits, groupBit_cons, Bool.or_assoc]

/-- A group's vector has the bits its group has. -/
theorem orVector_spec (hg : group ≠ []) :
    ∃ w, group.foldl (orStep n retrieve s) none = some w ∧ w.length = n ∧
      ∀ j, bitAt w j = groupBit retrieve s j group := by
  obtain ⟨clause, group, rfl⟩ := List.exists_cons_of_ne_nil hg
  obtain ⟨a, ha, halen, habits⟩ := andVector_spec (hne clause List.mem_cons_self)
    (hlen clause List.mem_cons_self)
  have hstep : orStep n retrieve s none clause = some a := by
    simp only [orStep, ha]
  obtain ⟨w, hw, hwlen, hwbits⟩ := foldl_orStep_some
    (fun c hc => hne c (List.mem_cons_of_mem clause hc))
    (fun c hc => hlen c (List.mem_cons_of_mem clause hc)) halen
  refine ⟨w, by rw [List.foldl_cons, hstep, hw], hwlen, fun j => ?_⟩
  rw [hwbits, habits, groupBit_cons]

end Pipeline

/-- One stage of the pipeline: the section's vector so far, AND-ed with its group's vector, goes
on if some bit is left. -/
theorem subMatch_spec (m : Matcher) {retrieve : Nat → Nat → List UInt8} {s : Nat}
    {group : List (List Nat)} (hg : group ≠ []) (hne : ∀ clause ∈ group, clause ≠ [])
    (hlen : ∀ clause ∈ group, ∀ bit ∈ clause, (retrieve bit s).length = m.sectionSize / 8)
    {bitset : List UInt8} (hb : bitset.length = m.sectionSize / 8) :
    ∃ w, w.length = m.sectionSize / 8 ∧
      (∀ j, bitAt w j = (groupBit retrieve s j group && bitAt bitset j)) ∧
      subMatch m retrieve group s bitset = if TestBytes w then some w else none := by
  obtain ⟨o, ho, holen, hobits⟩ := orVector_spec hne hlen hg
  refine ⟨ANDBytes o bitset, by rw [length_ANDBytes, holen], fun j => ?_, ?_⟩
  · rw [bitAt_ANDBytes (holen.trans hb.symm), hobits]
  · rw [subMatch]
    simp only [ho, Option.getD_some]

/-- The bit `j` of a section after the whole pipeline: a number of the section, that every
group has. -/
def sectionBit (m : Matcher) (retrieve : Nat → Nat → List UInt8) (s j : Nat) : Bool :=
  decide (j < 8 * (m.sectionSize / 8)) && m.filters.all (groupBit retrieve s j)

/-- The stages of the pipeline, from any vector: the result has the bits of the vector that every
group has, unless a stage found no bit left and dropped the section. The induction is on the
groups. -/
theorem foldlM_subMatch (m : Matcher) {retrieve : Nat → Nat → List UInt8} {s : Nat} :
    ∀ {filters : List (List (List Nat))}, (∀ group ∈ filters, group ≠ []) →
      (∀ group ∈ filters, ∀ clause ∈ group, clause ≠ []) →
      (∀ group ∈ filters, ∀ clause ∈ group, ∀ bit ∈ clause,
        (retrieve bit s).length = m.sectionSize / 8) →
      ∀ {v : List UInt8}, v.length = m.sectionSize / 8 →
      ∃ w, w.length = m.sectionSize / 8 ∧
        (∀ j, bitAt w j = (bitAt v j && filters.all (groupBit retrieve s j))) ∧
        (filters.foldlM (fun bitset bloom => subMatch m retrieve bloom s bitset) v = some w ∨
          (filters.foldlM (fun bitset bloom => subMatch m retrieve bloom s bitset) v = none ∧
            ∀ j, bitAt w j = false))
  | [], _, _, _, v, hv => ⟨v, hv, fun j => by rw [List.all_nil, Bool.and_true], .inl rfl⟩
  | group :: filters, hg, hne, hlen, v, hv => by
    obtain ⟨w₁, hw₁len, hw₁bits, hsub⟩ := subMatch_spec m (hg group List.mem_cons_self)
      (hne group List.mem_cons_self) (hlen group List.mem_cons_self) hv
    cases ht : TestBytes w₁ with
    | false =>
      -- the stage drops the section: no bit of the whole pipeline is left either
      have hzero := Iff.mp TestBytes_eq_false_iff ht
      refine ⟨w₁, hw₁len, fun j => ?_, .inr ⟨?_, hzero⟩⟩
      · have hj := hw₁bits j
        rw [hzero j] at hj ⊢
        rw [List.all_cons, ← Bool.and_assoc, Bool.and_comm (bitAt v j), ← hj, Bool.false_and]
      · rw [List.foldlM_cons, hsub, ht]
        rfl
    | true =>
      obtain ⟨w, hwlen, hwbits, hw⟩ := foldlM_subMatch m
        (fun g hm => hg g (List.mem_cons_of_mem group hm))
        (fun g hm => hne g (List.mem_cons_of_mem group hm))
        (fun g hm => hlen g (List.mem_cons_of_mem group hm)) hw₁len
      have hrun : (group :: filters).foldlM (fun bitset bloom => subMatch m retrieve bloom s bitset) v =
          filters.foldlM (fun bitset bloom => subMatch m retrieve bloom s bitset) w₁ := by
        rw [List.foldlM_cons, hsub, ht]
        rfl
      refine ⟨w, hwlen, fun j => ?_, hrun ▸ hw⟩
      rw [hwbits, hw₁bits, List.all_cons, Bool.and_comm (groupBit retrieve s j group),
        Bool.and_assoc]

/-- The pipeline for one section computes the bits `sectionBit`, or drops a section that has
none. -/
theorem sectionMatch_spec {m : Matcher} (hwf : m.WellFormed) {retrieve : Nat → Nat → List UInt8}
    {s : Nat} (hlen : ∀ bit < BloomBitLength, (retrieve bit s).length = m.sectionSize / 8) :
    ∃ w, w.length = m.sectionSize / 8 ∧ (∀ j, bitAt w j = sectionBit m retrieve s j) ∧
      (sectionMatch m retrieve s = some w ∨
        (sectionMatch m retrieve s = none ∧ ∀ j, bitAt w j = false)) := by
  obtain ⟨w, hwlen, hwbits, hw⟩ := foldlM_subMatch m hwf.groups hwf.clauses
    (fun g hg c hc bit hbit => hlen bit (hwf.bits g hg c hc bit hbit))
    (v := List.replicate (m.sectionSize / 8) 0xff) List.length_replicate
  refine ⟨w, hwlen, fun j => ?_, hw⟩
  rw [hwbits, bitAt_replicate_ff, sectionBit]

/-! ### The numbers `Start` sends -/

section Emit

variable {sectionStart last : Nat} {bitset : List UInt8} (hss : sectionStart % 8 = 0)
include hss

/-- The numbers of a byte whose bits are all clear are filtered out together. -/
theorem filter_range'_of_zero_byte {i : Nat} (hi : sectionStart ≤ i) (hi8 : i % 8 = 0)
    (hz : bitset.getD ((i - sectionStart) / 8) 0 = 0) (len : Nat) :
    (List.range' i len).filter (fun k => bitAt bitset (k - sectionStart)) =
      (List.range' (i + 8) (len - 8)).filter (fun k => bitAt bitset (k - sectionStart)) := by
  have hsplit : List.range' i len =
      List.range' i (min 8 len) ++ List.range' (i + min 8 len) (len - min 8 len) := by
    have happ := @List.range'_append i (min 8 len) (len - min 8 len) 1
    rw [Nat.one_mul, show min 8 len + (len - min 8 len) = len by omega] at happ
    exact happ.symm
  rw [hsplit, List.filter_append, List.filter_eq_nil_iff.mpr, List.nil_append]
  · by_cases h8 : 8 ≤ len
    · rw [Nat.min_eq_left h8]
    · rw [Nat.min_eq_right (by omega), Nat.sub_self, show len - 8 = 0 by omega]
      rfl
  · intro k hk
    rw [List.mem_range'_1] at hk
    have hbyte : (k - sectionStart) / 8 = (i - sectionStart) / 8 := by omega
    rw [bitAt, hbyte, hz]
    simp

/-- `Start`'s loop over a section sends the numbers from `i` to `last` whose bit is set, in
order. The induction is on the fuel, one turn per number or per skipped byte. -/
theorem emitLoop_eq : ∀ (fuel i : Nat), sectionStart ≤ i → last + 1 - i ≤ fuel →
    emitLoop sectionStart last bitset fuel i =
      (List.range' i (last + 1 - i)).filter (fun k => bitAt bitset (k - sectionStart))
  | 0, i, _, hfuel => by
    rw [show last + 1 - i = 0 by omega]
    rfl
  | fuel + 1, i, hi, hfuel => by
    rw [emitLoop]
    by_cases hlast : last < i
    · rw [if_pos hlast, show last + 1 - i = 0 by omega]
      rfl
    rw [if_neg hlast]
    dsimp only
    have hbit : bitAt bitset (i - sectionStart) =
        (bitset.getD ((i - sectionStart) / 8) 0).toNat.testBit (7 - i % 8) := by
      rw [bitAt, show (i - sectionStart) % 8 = i % 8 by omega]
    have hcons : List.range' i (last + 1 - i) = i :: List.range' (i + 1) (last + 1 - (i + 1)) := by
      rw [show last + 1 - i = (last + 1 - (i + 1)) + 1 by omega, List.range'_succ]
    by_cases hz : bitset.getD ((i - sectionStart) / 8) 0 = 0
    · rw [if_pos hz]
      by_cases hi8 : i % 8 = 0
      · -- a clear byte at a byte boundary: its eight numbers are skipped
        rw [if_pos hi8, emitLoop_eq fuel (i + 8) (by omega) (by omega),
          filter_range'_of_zero_byte hss hi hi8 hz, show last + 1 - i - 8 = last + 1 - (i + 8) by omega]
      · rw [if_neg hi8, emitLoop_eq fuel (i + 1) (by omega) (by omega), hcons, List.filter_cons_of_neg]
        rw [hbit, hz]
        simp
    · rw [if_neg hz, hcons]
      have hmask := and_mask_ne_zero (bitset.getD ((i - sectionStart) / 8) 0) i
      by_cases hset : bitset.getD ((i - sectionStart) / 8) 0 &&& mask i ≠ 0
      · rw [if_pos hset, emitLoop_eq fuel (i + 1) (by omega) (by omega), List.filter_cons_of_pos]
        rw [hbit, ← hmask, bne_iff_ne]
        exact hset
      · rw [if_neg hset, emitLoop_eq fuel (i + 1) (by omega) (by omega), List.filter_cons_of_neg]
        rw [hbit, ← hmask, bne_iff_ne]
        exact hset

end Emit

/-- What `Start` sends for a section: the numbers of the section between `begin` and `end`
whose bit is set, in order. -/
theorem emitSection_eq {sectionSize : Nat} (h8 : sectionSize % 8 = 0) («begin» «end» s : Nat)
    (bitset : List UInt8) :
    emitSection sectionSize «begin» «end» s bitset =
      (List.range' (max (s * sectionSize) «begin»)
        (min (s * sectionSize + sectionSize - 1) «end» + 1 - max (s * sectionSize) «begin»)).filter
        (fun k => bitAt bitset (k - s * sectionSize)) := by
  rw [emitSection]
  exact emitLoop_eq (by rw [Nat.mul_mod, h8, Nat.mul_zero, Nat.zero_mod]) _ _ (Nat.le_max_left _ _)
    le_rfl

/-- The ranges of the sections from `begin`'s to `end`'s, each cut to `[begin, end]`, cover
`[begin, end]` in order. The induction is on the number of sections after the first. -/
theorem flatMap_sectionRanges {size : Nat} (hsize : 0 < size) :
    ∀ (k «begin» «end» : Nat), «end» / size - «begin» / size = k → «begin» ≤ «end» →
      (List.range' («begin» / size) («end» / size + 1 - «begin» / size)).flatMap
          (fun s => List.range' (max (s * size) «begin»)
            (min (s * size + size - 1) «end» + 1 - max (s * size) «begin»)) =
        List.range' «begin» («end» + 1 - «begin»)
  | k, «begin», «end», hk, hle => by
    obtain ⟨s₀, hs₀⟩ : ∃ s₀, «begin» / size = s₀ := ⟨_, rfl⟩
    have hb₁ : s₀ * size ≤ «begin» := hs₀ ▸ Nat.div_mul_le_self «begin» size
    have hb₂ : «begin» < s₀ * size + size := hs₀ ▸ Nat.lt_div_mul_add hsize
    have he₁ : «end» / size * size ≤ «end» := Nat.div_mul_le_self «end» size
    have he₂ : «end» < «end» / size * size + size := Nat.lt_div_mul_add hsize
    have hmono : s₀ ≤ «end» / size := hs₀ ▸ Nat.div_le_div_right hle
    rw [hs₀]
    by_cases hlast : «end» / size = s₀
    · -- one section: its range is cut to `[begin, end]` at both ends
      rw [hlast, show s₀ + 1 - s₀ = 1 by omega, List.range'_succ, List.range'_zero,
        List.flatMap_singleton, Nat.max_eq_right hb₁, Nat.min_eq_right (by rw [hlast] at he₂; omega)]
    · -- the first section up to its end, then the sections from the next one
      have hnext : ((s₀ + 1) * size) / size = s₀ + 1 := Nat.mul_div_cancel _ hsize
      have hsucc : (s₀ + 1) * size = s₀ * size + size := Nat.succ_mul s₀ size
      have hend : (s₀ + 1) * size ≤ «end» := by
        have : (s₀ + 1) * size ≤ «end» / size * size := Nat.mul_le_mul_right size (by omega)
        omega
      have ih := flatMap_sectionRanges hsize (k - 1) ((s₀ + 1) * size) «end»
        (by rw [hnext]; omega) hend
      rw [hnext] at ih
      rw [show «end» / size + 1 - s₀ = («end» / size + 1 - (s₀ + 1)) + 1 by omega, List.range'_succ,
        List.flatMap_cons, Nat.max_eq_right hb₁, Nat.min_eq_left (by omega)]
      have hrest : ∀ s ∈ List.range' (s₀ + 1) («end» / size + 1 - (s₀ + 1)),
          List.range' (max (s * size) «begin») (min (s * size + size - 1) «end» + 1 - max (s * size) «begin») =
            List.range' (max (s * size) ((s₀ + 1) * size))
              (min (s * size + size - 1) «end» + 1 - max (s * size) ((s₀ + 1) * size)) := by
        intro s hs
        rw [List.mem_range'_1] at hs
        have hs' : (s₀ + 1) * size ≤ s * size := Nat.mul_le_mul_right size hs.1
        rw [Nat.max_eq_left (by omega), Nat.max_eq_left hs']
      rw [List.flatMap_congr hrest, ih]
      have happ := @List.range'_append «begin» (s₀ * size + size - 1 + 1 - «begin»)
        («end» + 1 - (s₀ + 1) * size) 1
      rw [Nat.one_mul, show «begin» + (s₀ * size + size - 1 + 1 - «begin») = (s₀ + 1) * size by omega,
        show s₀ * size + size - 1 + 1 - «begin» + («end» + 1 - (s₀ + 1) * size) = «end» + 1 - «begin» by
          omega] at happ
      exact happ

section Session

variable {m : Matcher} (hwf : m.WellFormed) {retrieve : Nat → Nat → List UInt8} {blooms : Nat → Bloom}
include hwf

/-- In a section indexed from the blooms, the pipeline's bit of a block is whether its bloom
matches the filter. -/
theorem sectionBit_eq_matches (h8 : m.sectionSize % 8 = 0) {s : Nat}
    (hidx : Indexed m.sectionSize retrieve blooms s) {j : Nat} (hj : j < m.sectionSize) :
    sectionBit m retrieve s j = Matches m.filters (blooms (s * m.sectionSize + j)) := by
  have hbit : ∀ group ∈ m.filters, ∀ clause ∈ group, ∀ bit ∈ clause,
      bitAt (retrieve bit s) j = bloomBitSet (blooms (s * m.sectionSize + j)) bit :=
    fun g hg c hc bit hb => hidx.bits bit (hwf.bits g hg c hc bit hb) j hj
  rw [sectionBit, decide_eq_true (by omega), Bool.true_and, Matches, Bool.eq_iff_iff]
  simp only [List.all_eq_true, groupBit, List.any_eq_true, clauseBit]
  apply forall₂_congr
  intro group hg
  apply exists_congr
  intro clause
  apply and_congr_right
  intro hc
  apply forall₂_congr
  intro bit hb
  rw [hbit group hg clause hc bit hb]

/-- The matcher's results: given the vectors of every section up to `end`'s indexed from the
blooms, a session on `[begin, end]` sends exactly the numbers of `[begin, end]` whose bloom
matches the filter, in increasing order. -/
theorem sessionResults_eq (hsize : 0 < m.sectionSize) (h8 : m.sectionSize % 8 = 0)
    {«begin» «end» : Nat} (hle : «begin» ≤ «end»)
    (hidx : ∀ s ≤ «end» / m.sectionSize, Indexed m.sectionSize retrieve blooms s) :
    sessionResults m retrieve «begin» «end» =
      ( List.range' «begin» («end» + 1 - «begin»)).filter fun k => Matches m.filters (blooms k) := by
  rw [← flatMap_sectionRanges hsize _ «begin» «end» rfl hle, List.filter_flatMap, sessionResults]
  apply List.flatMap_congr
  intro s hs
  rw [List.mem_range'_1] at hs
  have hidxs := hidx s (by omega)
  obtain ⟨w, -, hwbits, hw⟩ := sectionMatch_spec hwf hidxs.length
  -- the numbers the section sends, whether the pipeline kept it or dropped it
  have hsent : (match sectionMatch m retrieve s with
      | some bitset => emitSection m.sectionSize «begin» «end» s bitset
      | none => []) =
      (List.range' (max (s * m.sectionSize) «begin»)
        (min (s * m.sectionSize + m.sectionSize - 1) «end» + 1 - max (s * m.sectionSize) «begin»)).filter
        (fun k => bitAt w (k - s * m.sectionSize)) := by
    rcases hw with hw | ⟨hw, hzero⟩
    · rw [hw]
      exact emitSection_eq h8 _ _ _ _
    · rw [hw]
      symm
      rw [List.filter_eq_nil_iff]
      intro k _
      rw [hzero]
      exact Bool.false_ne_true
  rw [hsent]
  apply List.filter_congr
  intro k hk
  rw [List.mem_range'_1] at hk
  have hj : k - s * m.sectionSize < m.sectionSize := by omega
  rw [hwbits, sectionBit_eq_matches hwf h8 hidxs hj, show s * m.sectionSize + (k - s * m.sectionSize) = k by
    omega]

end Session

/-! ### The matcher `NewMatcher` builds -/

section NewMatcher

variable (keccak256 : List UInt8 → List UInt8)

theorem mapM_map_some {α β : Type} (f : α → β) (l : List α) :
    (l.map some).mapM (fun c => c.map f) = some (l.map f) := by
  induction l with
  | nil => rfl
  | cons x l ih => simp [List.mapM_cons, ih]

/-- Of groups with no `nil` clause, `NewMatcher` keeps those that are not empty, each clause as
its bloom bits. -/
theorem newMatcher_filters (sectionSize : Nat) (groups : List (List (List UInt8))) :
    (NewMatcher keccak256 sectionSize (groups.map (·.map some))).filters =
      (groups.filter (!·.isEmpty)).map (·.map (calcBloomIndexes keccak256)) := by
  unfold NewMatcher
  dsimp only
  induction groups with
  | nil => rfl
  | cons g groups ih =>
    rw [List.map_cons, List.filterMap_cons, ih]
    cases hg : g.isEmpty with
    | true =>
      have hmap : (g.map some).isEmpty = true := by simpa using hg
      rw [if_pos hmap, List.filter_cons_of_neg (by simp [hg])]
    | false =>
      have hmap : ¬ (g.map some).isEmpty = true := by simpa using hg
      rw [if_neg hmap, mapM_map_some, List.filter_cons_of_pos (by simp [hg]), List.map_cons]

/-- All the bits of a clause are set exactly when the lookup of its data succeeds. -/
theorem all_bloomBitSet_calcBloomIndexes (bloom : Bloom) (x : List UInt8) :
    (calcBloomIndexes keccak256 x).all (bloomBitSet bloom) = BloomLookup keccak256 bloom x := by
  rw [Bool.eq_iff_iff, List.all_eq_true, bloomLookup_iff, calcBloomIndexes_eq_bloomBits]
  simp only [bloomBitSet_eq]

/-- `NewMatcher`'s filter matches a bloom when each group not empty has a clause whose data the
bloom holds. -/
theorem matches_newMatcher (sectionSize : Nat) (groups : List (List (List UInt8))) (bloom : Bloom) :
    Matches (NewMatcher keccak256 sectionSize (groups.map (·.map some))).filters bloom =
      groups.all fun g => g.isEmpty || g.any fun x => BloomLookup keccak256 bloom x := by
  rw [newMatcher_filters, Matches, List.all_map, List.all_filter]
  apply List.all_congr rfl
  intro g
  cases hg : g.isEmpty with
  | true => rfl
  | false =>
    rw [Bool.not_false, Bool.not_true, Bool.false_or, Bool.false_or, Function.comp_apply, List.any_map]
    exact List.any_congr rfl fun x => all_bloomBitSet_calcBloomIndexes keccak256 bloom x

theorem newMatcher_wellFormed (sectionSize : Nat) (groups : List (List (List UInt8))) :
    (NewMatcher keccak256 sectionSize (groups.map (·.map some))).WellFormed := by
  constructor
  · intro group hgroup
    rw [newMatcher_filters] at hgroup
    obtain ⟨g, hg, rfl⟩ := List.mem_map.mp hgroup
    have hne : g.isEmpty = false := by simpa using (List.mem_filter.mp hg).2
    simpa using hne
  · intro group hgroup clause hclause
    rw [newMatcher_filters] at hgroup
    obtain ⟨g, -, rfl⟩ := List.mem_map.mp hgroup
    obtain ⟨x, -, rfl⟩ := List.mem_map.mp hclause
    simp [calcBloomIndexes]
  · intro group hgroup clause hclause bit hbit
    rw [newMatcher_filters] at hgroup
    obtain ⟨g, -, rfl⟩ := List.mem_map.mp hgroup
    obtain ⟨x, -, rfl⟩ := List.mem_map.mp hclause
    rw [calcBloomIndexes_eq_bloomBits] at hbit
    exact lt_of_mem_bloomBits keccak256 hbit

end NewMatcher

/-! ### From the receipts to the index -/

section Index

/-- A run of the generator from `NewGenerator` that succeeds asked for the blocks in order and
holds their blooms. -/
theorem holds_of_run {sections : Nat} {calls : List (Nat × Bloom)} {b : Generator}
    (h : (NewGenerator sections >>= fun g => g.addBlooms calls) = .ok b) :
    calls.map Prod.fst = List.range calls.length ∧ b.sections = sections ∧
      Generator.Holds b (calls.map Prod.snd) := by
  obtain ⟨g, hg, hrun⟩ := Iff.mp Lib.bind_eq_ok h
  obtain ⟨hgs, hgh⟩ := Generator.holds_newGenerator hg
  obtain ⟨hidx, hsec, hb⟩ := hgh.addBlooms hrun
  rw [List.nil_append] at hb
  exact ⟨by rw [hidx, List.range_eq_range', List.length_nil], hsec.trans hgs, hb⟩

/-- The bloom indexer's run over a section with room for its blooms succeeds. -/
theorem run_of_room {sections : Nat} (h8 : sections % 8 = 0) {blooms : List Bloom}
    (hroom : blooms.length ≤ sections) :
    ∃ b, (NewGenerator sections >>= fun g => g.addBlooms ((List.range blooms.length).zip blooms)) =
      .ok b ∧ b.sections = sections ∧ Generator.Holds b blooms := by
  obtain ⟨g, hg⟩ := Generator.newGenerator_of_mod h8
  obtain ⟨hgs, hgh⟩ := Generator.holds_newGenerator hg
  obtain ⟨b, hrun, hb⟩ := hgh.addBlooms_range' blooms
    (by rw [hgs, List.length_nil, Nat.zero_add]; exact hroom)
  obtain ⟨-, hsec, -⟩ := hgh.addBlooms hrun
  refine ⟨b, Iff.mpr Lib.bind_eq_ok ⟨g, hg, ?_⟩, hsec.trans hgs, by rwa [List.nil_append] at hb⟩
  rwa [List.range_eq_range']

/-- The vectors a full run hands out: bit `j` of the vector of bloom bit `i` is bit `i` of the
bloom of the `j`-th call, which asked for block `j`. -/
theorem bitset_of_run {sections : Nat} {calls : List (Nat × Bloom)} {b : Generator}
    (h : (NewGenerator sections >>= fun g => g.addBlooms calls) = .ok b)
    (hfull : calls.length = sections) {i : Nat} (hi : i < BloomBitLength) (his : i < sections) :
    ∃ v, b.Bitset i = .ok v ∧ v.length = sections / 8 ∧
      ∀ j (hj : j < calls.length), calls[j].1 = j ∧ bitAt v j = calls[j].2.val.testBit i := by
  obtain ⟨hidx, hsec, hb⟩ := holds_of_run h
  obtain ⟨v, hv, hlen, hbits⟩ := hb.bitset (by rw [List.length_map, hfull, hsec]) hi (hsec ▸ his)
  refine ⟨v, hv, hsec ▸ hlen, fun j hj => ⟨?_, ?_⟩⟩
  · have hj' := congrArg (·[j]?) hidx
    simpa [List.getElem?_range hj, hj] using hj'
  · rw [hbits, addedBit_of_lt (by rw [List.length_map]; exact hj), List.getElem_map]

variable (keccak256 : List UInt8 → List UInt8)

/-- `Bitset` compares the bloom bit with the section count (`idx >= b.sections`), not with
`BloomBitLength`: after a full run of a generator of fewer sections than bloom bits, every bloom
bit from the section count on is refused, though each bloom has that bit. -/
theorem bitset_refuses_bits_past_sections {sections : Nat} (h8 : sections % 8 = 0)
    (blooms : List Bloom) (hfull : blooms.length = sections) :
    ∃ b, (NewGenerator sections >>= fun g => g.addBlooms ((List.range sections).zip blooms)) =
      .ok b ∧ ∀ i, sections ≤ i → i < BloomBitLength → b.Bitset i = .error .sectionOutOfBounds := by
  obtain ⟨b, hrun, hsec, hb⟩ := run_of_room h8 (le_of_eq hfull)
  rw [hfull] at hrun
  refine ⟨b, hrun, fun i hi _ => hb.bitset_of_le (hfull.trans hsec.symm) ?_⟩
  rw [hsec]
  exact hi

/-- A generator of eight sections, each block's bloom with bit 8 set: `Bitset(8)` is refused. -/
theorem bitset_refuses_bits_past_sections_eight :
    ∃ b, (NewGenerator 8 >>= fun g =>
        g.addBlooms ((List.range 8).zip
          (List.replicate 8 ⟨2 ^ 8, Nat.pow_lt_pow_right (by decide) (by decide)⟩))) = .ok b ∧
      ∀ i, 8 ≤ i → i < BloomBitLength → b.Bitset i = .error .sectionOutOfBounds :=
  bitset_refuses_bits_past_sections (by decide) _ (List.length_replicate ..)

end Index

end EpvChain.Bloombits
