import EpvChain.Kernel.Types.Block

/-!
# The three-bit filter and the lookup (`kernel/types/bloom9.go`)

`bloom9` sets three of the 2048 bits of a bloom: each is the low eleven bits of a byte pair of
the Keccak-256 hash of the data. `BloomLookup` asks whether all three bits of some data are set
in a bloom. Keccak-256 is the boundary here (`keccak256`); everything above it follows the
source. `Hashing.bloom9`, which `LogsBloom` and `CreateBloom` are built on, is this `bloom9`
when the hashing of a chain is the source's (`h.bloom9 = bloom9 keccak256`).

* `testBit_bloom9`, `bloom9_lt`: `bloom9` sets exactly the bits `bloomBits`, all below 2048.
* `bloomLookup_iff`: a lookup succeeds exactly when the three bits are set.
* `bloomLookup_createBloom_address`, `bloomLookup_createBloom_topic`: the bloom of a list of
  receipts has no false negative: the address and every topic of each of their logs are found
  in it.
-/

namespace EpvChain.Types

/-- The bit of a byte pair `b[i]`, `b[i+1]`: `(uint(b[i+1]) + (uint(b[i]) << 8)) & 2047`. -/
def bloomBit (hi lo : UInt8) : Nat := (lo.toNat + (hi.toNat <<< 8)) &&& 2047

/-- The three bits `bloom9` sets for some data: those of the first three byte pairs of its hash. -/
def bloomBits (keccak256 : List UInt8 → List UInt8) (b : List UInt8) : List Nat :=
  let k := keccak256 b
  [0, 2, 4].map fun i => bloomBit (k.getD i 0) (k.getD (i + 1) 0)

/-- `bloom9(b)`: one bit for each of the first three byte pairs of `Keccak256(b)`.
Source: `kernel/types/bloom9.go` `bloom9` -/
def bloom9 (keccak256 : List UInt8 → List UInt8) (b : List UInt8) : Nat :=
  let k := keccak256 b
  [0, 2, 4].foldl (fun r i => r ||| 1 <<< bloomBit (k.getD i 0) (k.getD (i + 1) 0)) 0

/-- `BloomLookup(bin, topic)`: every bit of `bloom9` of the data is set in the bloom.
Source: `kernel/types/bloom9.go` `BloomLookup` -/
def BloomLookup (keccak256 : List UInt8 → List UInt8) (bin : Bloom) (topic : List UInt8) : Bool :=
  (bin.val &&& bloom9 keccak256 topic) == bloom9 keccak256 topic

variable (keccak256 : List UInt8 → List UInt8)

/-! ### The bits of `bloom9` -/

/-- The bits of a union of shifted ones are the shifts. -/
theorem testBit_foldl_or_shiftLeft (l : List Nat) (r i : Nat) :
    (l.foldl (fun r j => r ||| 1 <<< j) r).testBit i = (r.testBit i || decide (i ∈ l)) := by
  induction l generalizing r with
  | nil => simp
  | cons j l ih =>
    rw [List.foldl_cons, ih, Nat.testBit_or, Nat.one_shiftLeft, Nat.testBit_two_pow]
    simp only [List.mem_cons, Bool.decide_or, Bool.or_assoc, @eq_comm _ j i]

theorem bloom9_eq_foldl (b : List UInt8) :
    bloom9 keccak256 b = (bloomBits keccak256 b).foldl (fun r j => r ||| 1 <<< j) 0 := by
  rw [bloomBits, List.foldl_map]
  rfl

theorem testBit_bloom9 (b : List UInt8) (i : Nat) :
    (bloom9 keccak256 b).testBit i = decide (i ∈ bloomBits keccak256 b) := by
  rw [bloom9_eq_foldl, testBit_foldl_or_shiftLeft, Nat.zero_testBit, Bool.false_or]

theorem bloomBit_lt (hi lo : UInt8) : bloomBit hi lo < 2048 :=
  Nat.lt_succ_of_le Nat.and_le_right

theorem lt_of_mem_bloomBits {b : List UInt8} {i : Nat} (h : i ∈ bloomBits keccak256 b) :
    i < 2048 := by
  simp only [bloomBits, List.map_cons, List.map_nil, List.mem_cons, List.not_mem_nil,
    or_false] at h
  rcases h with rfl | rfl | rfl <;> exact bloomBit_lt _ _

/-- `bloom9` stays within the 2048 bits of a bloom. -/
theorem bloom9_lt (b : List UInt8) : bloom9 keccak256 b < 2 ^ (8 * BloomByteLength) := by
  apply Nat.lt_pow_two_of_testBit
  intro i hi
  rw [testBit_bloom9, decide_eq_false_iff_not]
  intro hmem
  have := lt_of_mem_bloomBits keccak256 hmem
  simp only [BloomByteLength] at hi
  omega

/-! ### The lookup -/

/-- A lookup succeeds exactly when the bloom has the three bits of the data. -/
theorem bloomLookup_iff (bin : Bloom) (b : List UInt8) :
    BloomLookup keccak256 bin b = true ↔ ∀ i ∈ bloomBits keccak256 b, bin.val.testBit i := by
  rw [BloomLookup, beq_iff_eq]
  constructor
  · intro h i hi
    have hbit := congrArg (Nat.testBit · i) h
    simp only [Nat.testBit_and, testBit_bloom9, decide_eq_true hi, Bool.and_true] at hbit
    exact hbit
  · intro h
    apply Nat.eq_of_testBit_eq
    intro i
    rw [Nat.testBit_and, testBit_bloom9]
    by_cases hi : i ∈ bloomBits keccak256 b
    · rw [h i hi, decide_eq_true hi, Bool.true_and]
    · rw [decide_eq_false hi, Bool.and_false]

/-! ### No false negatives -/

section Receipts

variable {τ : Type} (h : Hashing τ)

theorem testBit_foldl_or {α : Type} (l : List α) (f : α → Nat) (r i : Nat) :
    (l.foldl (fun bin x => bin ||| f x) r).testBit i = (r.testBit i || l.any fun x => (f x).testBit i) := by
  induction l generalizing r with
  | nil => simp
  | cons x l ih =>
    rw [List.foldl_cons, ih, Nat.testBit_or, List.any_cons, Bool.or_assoc]

/-- The bits of the loop of `LogsBloom`, from any start: those of the start, and of the filters
of each log's address and topics. -/
theorem testBit_foldl_logsBloom (logs : List Log) (acc i : Nat) :
    (logs.foldl (fun bin log =>
      log.topics.foldl (fun bin b => bin ||| h.bloom9 b.toBytes) (bin ||| h.bloom9 log.address.toBytes))
        acc).testBit i =
      (acc.testBit i || logs.any fun log =>
        (h.bloom9 log.address.toBytes).testBit i || log.topics.any fun t => (h.bloom9 t.toBytes).testBit i) := by
  induction logs generalizing acc with
  | nil => simp
  | cons log logs ih =>
    rw [List.foldl_cons, ih, testBit_foldl_or, Nat.testBit_or, List.any_cons]
    simp only [Bool.or_assoc]

/-- A bit of the filter of a log's address or of one of its topics is a bit of the logs' bloom. -/
theorem testBit_logsBloom {logs : List Log} {log : Log} (hlog : log ∈ logs) {i : Nat}
    (hi : (h.bloom9 log.address.toBytes).testBit i ∨
      ∃ t ∈ log.topics, (h.bloom9 t.toBytes).testBit i) :
    (h.logsBloom logs).testBit i := by
  rw [Hashing.logsBloom, testBit_foldl_logsBloom, Nat.zero_testBit, Bool.false_or, List.any_eq_true]
  refine ⟨log, hlog, ?_⟩
  rw [Bool.or_eq_true, List.any_eq_true]
  exact hi

/-- Below bit 2048, the bits of `CreateBloom` are those of some receipt's logs. -/
theorem testBit_createBloom {receipts : List Receipt} {r : Receipt} (hr : r ∈ receipts) {i : Nat}
    (hlt : i < 2048) (hi : (h.logsBloom r.logs).testBit i) :
    (h.createBloom receipts).val.testBit i := by
  rw [Hashing.createBloom]
  simp only [BloomByteLength]
  rw [Nat.testBit_mod_two_pow, decide_eq_true (by omega), Bool.true_and, testBit_foldl_or,
    Nat.zero_testBit, Bool.false_or, List.any_eq_true]
  exact ⟨r, hr, hi⟩

variable {keccak256} (hk : h.bloom9 = bloom9 keccak256)
include hk

/-- The address of every log of a list of receipts is found in their bloom. -/
theorem bloomLookup_createBloom_address {receipts : List Receipt} {r : Receipt} (hr : r ∈ receipts)
    {log : Log} (hlog : log ∈ r.logs) :
    BloomLookup keccak256 (h.createBloom receipts) log.address.toBytes = true := by
  rw [bloomLookup_iff]
  intro i hi
  apply testBit_createBloom h hr (lt_of_mem_bloomBits keccak256 hi)
  apply testBit_logsBloom h hlog
  left
  rw [hk, testBit_bloom9, decide_eq_true hi]

/-- Every topic of every log of a list of receipts is found in their bloom. -/
theorem bloomLookup_createBloom_topic {receipts : List Receipt} {r : Receipt} (hr : r ∈ receipts)
    {log : Log} (hlog : log ∈ r.logs) {t : Hash} (ht : t ∈ log.topics) :
    BloomLookup keccak256 (h.createBloom receipts) t.toBytes = true := by
  rw [bloomLookup_iff]
  intro i hi
  apply testBit_createBloom h hr (lt_of_mem_bloomBits keccak256 hi)
  apply testBit_logsBloom h hlog
  right
  refine ⟨t, ht, ?_⟩
  rw [hk, testBit_bloom9, decide_eq_true hi]

end Receipts

end EpvChain.Types
