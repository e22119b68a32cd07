import EpvChain.Epv.BloomIndexer

/-!
# Log queries (`epv/filters/filter.go`)

`Filter.Logs` returns the logs of blocks `begin..end` matching the criteria: an address in the
list (any if empty), and at each position a topic of that position's list (any if empty). The
blocks of indexed sections are found by the matcher, the others by a scan of the header blooms
(`bloomFilter`); both keep the matching logs of the blocks found (`filterLogs`).

The backend is the chain up to its head: header blooms, block receipts, the index's section size
and count (`BloomStatus`) and the delivered vectors. A number past the head finds no header; the
RPC layer's negative numbers are read only through `-1`. A matcher session is `sessionResults`.
Database and retrieval errors, and the context, are not modelled.

* `checkMatches_eq_nil_of_bloomFilter`: a block whose bloom fails `bloomFilter` has no matching
  log; `matches_newMatcher`: the matcher of `New` matches exactly as `bloomFilter`.
* `indexedLogs_eq`, `unindexedLogs_eq`: each phase returns its blocks' matching logs in order.
* `Backend.indexedCorrectly_of_indexer`: the bloom indexer's vectors are the index assumed.
* `Logs_exact`: `Logs` returns `filterLogs` of all the logs of `begin..end`, in block order.
-/

namespace EpvChain.Filters

open EpvChain.Types EpvChain.Bloombits

/-- What `Filter.Logs` reads through its `Backend`: the head's number, each header's bloom and
its block's receipts, `BloomStatus` (the section size and the number of sections indexed), and
the vector of a bloom bit in a section that `ServiceFilter` delivers. -/
structure Backend where
  head : Nat
  bloomAt : Nat → Bloom
  receiptsAt : Nat → List Receipt
  sectionSize : Nat
  sections : Nat
  bitset : Nat → Nat → List UInt8

/-- `backend.HeaderByNumber(number)`: the header of a number up to the head. -/
def Backend.HeaderByNumber (b : Backend) (number : Int) : Option Nat :=
  if 0 ≤ number ∧ number ≤ b.head then some number.toNat else none

/-- `Filter`: the range still to search, the criteria, and the matcher. -/
structure Filter where
  «begin» : Int
  «end» : Int
  addresses : List Address
  topics : List (List Hash)
  matcher : Matcher

/-- `New(backend, begin, end, addresses, topics)`: the matcher's groups are the addresses, if
any, and each position's topics. -/
def New (keccak256 : List UInt8 → List UInt8) (b : Backend) («begin» «end» : Int)
    (addresses : List Address) (topics : List (List Hash)) : Filter :=
  let filters : List (List (Option (List UInt8))) :=
    (if addresses.isEmpty then [] else [addresses.map fun address => some address.toBytes]) ++
      topics.map fun topicList => topicList.map fun topic => some topic.toBytes
  { «begin», «end», addresses, topics, matcher := NewMatcher keccak256 b.sectionSize filters }

/-- `includes(addresses, a)`. -/
def includes (addresses : List Address) (a : Address) : Bool := addresses.any (· == a)

/-- `filterLogs(logs, nil, nil, addresses, topics)`: the logs from an address of the list, with
at least as many topics as positions, and at each position a topic of its list. -/
def filterLogs (logs : List Log) (addresses : List Address) (topics : List (List Hash)) :
    List Log :=
  logs.filter fun log =>
    (addresses.isEmpty || includes addresses log.address) &&
      decide (topics.length ≤ log.topics.length) &&
      (topics.zip log.topics).all fun (sub, topic) => sub.isEmpty || sub.any (· == topic)

/-- `bloomFilter(bloom, addresses, topics)`: some address, and at each position some topic, is
found in the bloom. -/
def bloomFilter (keccak256 : List UInt8 → List UInt8) (bloom : Bloom) (addresses : List Address)
    (topics : List (List Hash)) : Bool :=
  (addresses.isEmpty || addresses.any fun addr => BloomLookup keccak256 bloom addr.toBytes) &&
    topics.all fun sub => sub.isEmpty || sub.any fun topic => BloomLookup keccak256 bloom topic.toBytes

/-- The logs of a block's receipts, in order. -/
def blockLogs (b : Backend) (number : Nat) : List Log := (b.receiptsAt number).flatMap (·.logs)

/-- `f.checkMatches(header)`: the matching logs of the block. -/
def Filter.checkMatches (f : Filter) (b : Backend) (number : Nat) : List Log :=
  filterLogs (blockLogs b number) f.addresses f.topics

/-- The loop of `indexedLogs` over the numbers the matcher sends: each moves `f.begin` past it
and adds the block's matching logs; the end of the results moves it past `end`. -/
def indexedLoop (b : Backend) («end» : Nat) : List Nat → List Log → Filter → List Log × Filter
  | [], logs, f => (logs, { f with «begin» := «end» + 1 })
  | number :: rest, logs, f =>
    let f := { f with «begin» := number + 1 }
    match b.HeaderByNumber number with
    | none => (logs, f)
    | some header => indexedLoop b «end» rest (logs ++ f.checkMatches b header) f

/-- `f.indexedLogs(ctx, end)`: a matcher session from `f.begin` to `end`. -/
def Filter.indexedLogs (f : Filter) (b : Backend) («end» : Nat) : List Log × Filter :=
  indexedLoop b «end» (sessionResults f.matcher b.bitset f.begin.toNat «end») [] f

/-- The loop of `unindexedLogs`: from `f.begin` to `end`, the matching logs of each block whose
bloom passes `bloomFilter`. At most one turn per block. -/
def unindexedLoop (keccak256 : List UInt8 → List UInt8) (b : Backend) («end» : Nat) :
    Nat → List Log → Filter → List Log × Filter
  | 0, logs, f => (logs, f)
  | fuel + 1, logs, f =>
    if f.begin ≤ «end» then
      match b.HeaderByNumber f.begin with
      | none => (logs, f)
      | some header =>
        let logs := if bloomFilter keccak256 (b.bloomAt header) f.addresses f.topics then
          logs ++ f.checkMatches b header else logs
        unindexedLoop keccak256 b «end» fuel logs { f with «begin» := f.begin + 1 }
    else (logs, f)

/-- `f.unindexedLogs(ctx, end)`. -/
def Filter.unindexedLogs (keccak256 : List UInt8 → List UInt8) (f : Filter) (b : Backend)
    («end» : Nat) : List Log × Filter :=
  unindexedLoop keccak256 b «end» («end» + 1 - f.begin).toNat [] f

/-- `f.Logs(ctx)`: `begin` and `end` of `-1` are the head; the sections indexed below `begin`'s
block are searched by the matcher, up to `end` or the last indexed block, and the rest by the
scan. -/
def Filter.Logs (keccak256 : List UInt8 → List UInt8) (f : Filter) (b : Backend) :
    List Log × Filter :=
  let head := b.head
  let f := if f.begin = -1 then { f with «begin» := head } else f
  let «end» : Nat := if f.end = -1 then head else f.end.toNat
  let indexed := b.sections * b.sectionSize
  let (logs, f) :=
    if f.begin.toNat < indexed then
      if «end» < indexed then f.indexedLogs b «end» else f.indexedLogs b (indexed - 1)
    else ([], f)
  let (rest, f) := f.unindexedLogs keccak256 b «end»
  (logs ++ rest, f)

/-! ### The criteria -/

@[simp] theorem filterLogs_nil (addresses : List Address) (topics : List (List Hash)) :
    filterLogs [] addresses topics = [] := rfl

/-- Filtering works log by log. -/
theorem filterLogs_append (l₁ l₂ : List Log) (addresses : List Address) (topics : List (List Hash)) :
    filterLogs (l₁ ++ l₂) addresses topics = filterLogs l₁ addresses topics ++ filterLogs l₂ addresses topics :=
  List.filter_append _ _

theorem filterLogs_flatMap {α : Type} (l : List α) (g : α → List Log) (addresses : List Address)
    (topics : List (List Hash)) :
    filterLogs (l.flatMap g) addresses topics = l.flatMap fun a => filterLogs (g a) addresses topics :=
  List.filter_flatMap

/-- Every element of the shorter list of a zip has a partner. -/
theorem exists_mem_zip_of_length_le {α β : Type} :
    ∀ {l₁ : List α} {l₂ : List β}, l₁.length ≤ l₂.length → ∀ {a : α}, a ∈ l₁ →
      ∃ b ∈ l₂, (a, b) ∈ l₁.zip l₂
  | [], _, _, _, ha => absurd ha List.not_mem_nil
  | _ :: _, [], hlen, _, _ => absurd hlen (by simp)
  | x :: l₁, y :: l₂, hlen, a, ha => by
    rcases List.mem_cons.mp ha with rfl | ha
    · exact ⟨y, List.mem_cons_self, by simp⟩
    · obtain ⟨b, hb, hab⟩ := exists_mem_zip_of_length_le (by simp at hlen; omega) ha
      exact ⟨b, List.mem_cons_of_mem y hb, by simp [hab]⟩

section NoFalseNegatives

variable (keccak256 : List UInt8 → List UInt8) {τ : Type} {h : Hashing τ}
  (hk : h.bloom9 = bloom9 keccak256)
include hk

/-- A log that `filterLogs` keeps has its address and a topic of each position in the bloom of
any receipts that hold it. -/
theorem bloomFilter_of_mem_filterLogs {receipts : List Receipt} {addresses : List Address}
    {topics : List (List Hash)} {log : Log}
    (hlog : log ∈ filterLogs (receipts.flatMap (·.logs)) addresses topics) :
    bloomFilter keccak256 (h.createBloom receipts) addresses topics = true := by
  rw [filterLogs, List.mem_filter, List.mem_flatMap] at hlog
  obtain ⟨⟨r, hr, hlr⟩, hkeep⟩ := hlog
  simp only [Bool.and_eq_true, Bool.or_eq_true, decide_eq_true_eq, List.all_eq_true] at hkeep
  obtain ⟨⟨haddr, hlen⟩, htopics⟩ := hkeep
  rw [bloomFilter, Bool.and_eq_true, Bool.or_eq_true, List.all_eq_true]
  constructor
  · -- the log's address is one of the list, and is in the bloom
    refine haddr.imp id fun hinc => ?_
    rw [includes, List.any_eq_true] at hinc
    obtain ⟨addr, hmem, heq⟩ := hinc
    rw [List.any_eq_true]
    refine ⟨addr, hmem, ?_⟩
    rw [eq_of_beq heq]
    exact bloomLookup_createBloom_address h hk hr hlr
  · -- the topic at each position is one of that position's list, and is in the bloom
    intro sub hsub
    obtain ⟨t, ht, hpair⟩ := exists_mem_zip_of_length_le hlen hsub
    have hmatch := htopics (sub, t) hpair
    dsimp only at hmatch
    rw [Bool.or_eq_true]
    refine hmatch.imp id fun hany => ?_
    rw [List.any_eq_true] at hany ⊢
    obtain ⟨topic, hmem, heq⟩ := hany
    refine ⟨topic, hmem, ?_⟩
    rw [eq_of_beq heq]
    exact bloomLookup_createBloom_topic h hk hr hlr ht

/-- A block whose bloom is `CreateBloom` of its receipts and fails `bloomFilter` has no matching
log. -/
theorem checkMatches_eq_nil_of_bloomFilter {b : Backend} {f : Filter} {number : Nat}
    (hbloom : b.bloomAt number = h.createBloom (b.receiptsAt number))
    (hfail : bloomFilter keccak256 (b.bloomAt number) f.addresses f.topics = false) :
    f.checkMatches b number = [] := by
  rw [List.eq_nil_iff_forall_not_mem]
  intro log hlog
  have hpass := bloomFilter_of_mem_filterLogs keccak256 hk hlog
  rw [← hbloom, hfail] at hpass
  exact Bool.false_ne_true hpass

end NoFalseNegatives

/-! ### The matcher of `New` -/

@[simp] theorem New_addresses (keccak256 : List UInt8 → List UInt8) (b : Backend)
    («begin» «end» : Int) (addresses : List Address) (topics : List (List Hash)) :
    (New keccak256 b «begin» «end» addresses topics).addresses = addresses := rfl

@[simp] theorem New_topics (keccak256 : List UInt8 → List UInt8) (b : Backend)
    («begin» «end» : Int) (addresses : List Address) (topics : List (List Hash)) :
    (New keccak256 b «begin» «end» addresses topics).topics = topics := rfl

/-- The data of the matcher's groups in `New`: the addresses, if any, then each position's
topics. -/
def criteria (addresses : List Address) (topics : List (List Hash)) : List (List (List UInt8)) :=
  (if addresses.isEmpty then [] else [addresses.map Address.toBytes]) ++
    topics.map (·.map Hash.toBytes)

/-- `New` hands the matcher the filter's criteria as bloom keys. -/
theorem New_matcher (keccak256 : List UInt8 → List UInt8) (b : Backend) («begin» «end» : Int)
    (addresses : List Address) (topics : List (List Hash)) :
    (New keccak256 b «begin» «end» addresses topics).matcher =
      NewMatcher keccak256 b.sectionSize ((criteria addresses topics).map (·.map some)) := by
  cases h : addresses.isEmpty <;> simp [New, criteria, h, Function.comp_def]

/-- `bloomFilter` asks every criterion of the bloom. -/
theorem bloomFilter_eq_all_criteria (keccak256 : List UInt8 → List UInt8) (bloom : Bloom)
    (addresses : List Address) (topics : List (List Hash)) :
    bloomFilter keccak256 bloom addresses topics =
      (criteria addresses topics).all fun g => g.isEmpty || g.any fun x => BloomLookup keccak256 bloom x := by
  cases h : addresses.isEmpty <;> simp [bloomFilter, criteria, h, List.all_map, List.any_map, Function.comp_def]

/-- The matcher of `New` matches a bloom exactly when `bloomFilter` passes it. -/
theorem matches_new (keccak256 : List UInt8 → List UInt8) (b : Backend) («begin» «end» : Int)
    (addresses : List Address) (topics : List (List Hash)) (bloom : Bloom) :
    Matches (New keccak256 b «begin» «end» addresses topics).matcher.filters bloom =
      bloomFilter keccak256 bloom addresses topics := by
  rw [New_matcher, matches_newMatcher, bloomFilter_eq_all_criteria]

/-- The matcher of `New` is well formed. -/
theorem wellFormed_new (keccak256 : List UInt8 → List UInt8) (b : Backend) («begin» «end» : Int)
    (addresses : List Address) (topics : List (List Hash)) :
    (New keccak256 b «begin» «end» addresses topics).matcher.WellFormed := by
  rw [New_matcher]
  exact newMatcher_wellFormed keccak256 _ _

/-! ### The two phases -/

/-- The chain's header blooms are `CreateBloom` of their blocks' receipts. -/
def Backend.BloomsOf {τ : Type} (b : Backend) (h : Hashing τ) : Prop :=
  ∀ n ≤ b.head, b.bloomAt n = h.createBloom (b.receiptsAt n)

/-- The bloom-bits index is correct: the section size is a multiple of eight, and each section
below `sections` is indexed from the headers' blooms. -/
structure Backend.IndexedCorrectly (b : Backend) : Prop where
  sectionSize_mod : b.sectionSize % 8 = 0
  indexed : ∀ s < b.sections, Indexed b.sectionSize b.bitset b.bloomAt s

/-- The index the bloom indexer builds is correct: a backend whose vectors are those the indexer
stored from the headers' blooms, with sections of a multiple of eight blocks and at least
`BloomBitLength`, is indexed correctly. -/
theorem Backend.indexedCorrectly_of_indexer (b : Backend) (h8 : b.sectionSize % 8 = 0)
    (hbits : BloomBitLength ≤ b.sectionSize)
    (hset : b.bitset = Epv.indexerBitset b.sectionSize b.bloomAt) : b.IndexedCorrectly := by
  refine ⟨h8, fun s _ => ?_⟩
  obtain ⟨vs, hvs, -, hidx⟩ := Epv.indexSection_indexed h8 hbits s b.bloomAt
  -- the vectors `ServiceFilter` delivers for the section are those the indexer committed
  have heq : ∀ bit, b.bitset bit s = vs.getD bit [] := fun bit => by
    rw [hset, Epv.indexerBitset, hvs]
  exact ⟨fun bit hbit => by rw [heq]; exact hidx.length bit hbit,
    fun bit hbit j hj => by rw [heq]; exact hidx.bits bit hbit j hj⟩

@[simp] theorem checkMatches_with_begin (f : Filter) (b : Backend) (x : Int) :
    ({ f with «begin» := x } : Filter).checkMatches b = f.checkMatches b := rfl

/-- A block up to the head has a header. -/
theorem headerByNumber_of_le (b : Backend) {n : Nat} (hn : n ≤ b.head) :
    b.HeaderByNumber n = some n := by
  rw [Backend.HeaderByNumber, if_pos ⟨Int.natCast_nonneg n, by omega⟩, Int.toNat_natCast]

/-- Over blocks up to the head, the loop of `indexedLogs` filters their logs. -/
theorem indexedLoop_eq (b : Backend) («end» : Nat) :
    ∀ (numbers : List Nat) (logs : List Log) (f : Filter), (∀ n ∈ numbers, n ≤ b.head) →
      indexedLoop b «end» numbers logs f =
        (logs ++ numbers.flatMap (f.checkMatches b), { f with «begin» := «end» + 1 })
  | [], logs, f, _ => by simp [indexedLoop]
  | n :: numbers, logs, f, hle => by
    rw [indexedLoop, headerByNumber_of_le b (hle n List.mem_cons_self)]
    dsimp only
    rw [indexedLoop_eq b «end» numbers _ _ (fun k hk => hle k (List.mem_cons_of_mem n hk)),
      checkMatches_with_begin, List.flatMap_cons, List.append_assoc]

section Phases

variable (keccak256 : List UInt8 → List UInt8) {τ : Type} {h : Hashing τ}
  (hk : h.bloom9 = bloom9 keccak256) {b : Backend} (hchain : b.BloomsOf h)
include hk hchain

/-- Up to the head, the scan's test of a block's bloom never drops a matching log. -/
theorem checkMatches_if_bloomFilter (f : Filter) {n : Nat} (hn : n ≤ b.head) :
    (if bloomFilter keccak256 (b.bloomAt n) f.addresses f.topics then f.checkMatches b n else []) =
      f.checkMatches b n := by
  cases hpass : bloomFilter keccak256 (b.bloomAt n) f.addresses f.topics with
  | true => rfl
  | false => exact (checkMatches_eq_nil_of_bloomFilter keccak256 hk (hchain n hn) hpass).symm

/-- Keeping only the blocks whose bloom passes `bloomFilter` keeps every matching log. -/
theorem flatMap_filter_bloomFilter (f : Filter) :
    ∀ (l : List Nat), (∀ n ∈ l, n ≤ b.head) →
      (l.filter fun n => bloomFilter keccak256 (b.bloomAt n) f.addresses f.topics).flatMap
          (f.checkMatches b) = l.flatMap (f.checkMatches b)
  | [], _ => rfl
  | n :: l, hle => by
    have ih := flatMap_filter_bloomFilter f l (fun k hk => hle k (List.mem_cons_of_mem n hk))
    have hn := checkMatches_if_bloomFilter keccak256 hk hchain f (hle n List.mem_cons_self)
    rw [List.filter_cons, List.flatMap_cons]
    split
    · rw [List.flatMap_cons, ih]
    · rename_i hfail
      rw [ih, ← hn, if_neg hfail, List.nil_append]

/-- The scan from `f.begin` to `end` returns the matching logs of those blocks, in order, and
leaves `f.begin` past `end`. The induction is on the fuel, one turn per block. -/
theorem unindexedLoop_eq {«end» : Nat} (hend : «end» ≤ b.head) :
    ∀ (fuel : Nat) (logs : List Log) (f : Filter), 0 ≤ f.begin → («end» + 1 - f.begin).toNat ≤ fuel →
      unindexedLoop keccak256 b «end» fuel logs f =
        (logs ++ filterLogs ((List.range' f.begin.toNat («end» + 1 - f.begin.toNat)).flatMap
            (blockLogs b)) f.addresses f.topics,
          { f with «begin» := max f.begin («end» + 1) })
  | 0, logs, f, h0, hfuel => by
    have hpast : «end» + 1 - f.begin.toNat = 0 := by omega
    rw [hpast, max_eq_left (by omega), List.range'_zero, List.flatMap_nil, filterLogs_nil,
      List.append_nil]
    rfl
  | fuel + 1, logs, f, h0, hfuel => by
    rw [unindexedLoop]
    by_cases hle : f.begin ≤ «end»
    · rw [if_pos hle]
      have hbegin : b.HeaderByNumber f.begin = some f.begin.toNat := by
        rw [← headerByNumber_of_le b (n := f.begin.toNat) (by omega), Int.toNat_of_nonneg h0]
      rw [hbegin]
      dsimp only
      -- the block's matching logs, then the scan from the next block
      have hblock : (if bloomFilter keccak256 (b.bloomAt f.begin.toNat) f.addresses f.topics then
          logs ++ f.checkMatches b f.begin.toNat else logs) = logs ++ f.checkMatches b f.begin.toNat := by
        rw [← checkMatches_if_bloomFilter keccak256 hk hchain f (n := f.begin.toNat) (by omega)]
        split <;> simp
      have hrange : List.range' f.begin.toNat («end» + 1 - f.begin.toNat) =
          f.begin.toNat :: List.range' (f.begin + 1).toNat («end» + 1 - (f.begin + 1).toNat) := by
        rw [show «end» + 1 - f.begin.toNat = («end» + 1 - (f.begin + 1).toNat) + 1 by omega,
          List.range'_succ, show f.begin.toNat + 1 = (f.begin + 1).toNat by omega]
      rw [hblock, unindexedLoop_eq hend fuel _ _ (by simp; omega) (by simp; omega), hrange,
        List.flatMap_cons, filterLogs_append, List.append_assoc]
      simp only [max_eq_right (show f.begin ≤ «end» + 1 by omega),
        max_eq_right (show f.begin + 1 ≤ «end» + 1 by omega)]
      rfl
    · rw [if_neg hle]
      have hpast : «end» + 1 - f.begin.toNat = 0 := by omega
      rw [hpast, max_eq_left (by omega), List.range'_zero, List.flatMap_nil, filterLogs_nil,
        List.append_nil]

/-- The scan phase from `f.begin` to `end`, within the chain, returns the matching logs of those
blocks, in order, and leaves `f.begin` past `end`. -/
theorem unindexedLogs_eq {«end» : Nat} (hend : «end» ≤ b.head) (f : Filter) (h0 : 0 ≤ f.begin) :
    f.unindexedLogs keccak256 b «end» =
      (filterLogs ((List.range' f.begin.toNat («end» + 1 - f.begin.toNat)).flatMap (blockLogs b))
          f.addresses f.topics,
        { f with «begin» := max f.begin («end» + 1) }) := by
  rw [Filter.unindexedLogs, unindexedLoop_eq keccak256 hk hchain hend _ [] f h0 le_rfl, List.nil_append]

variable (hidx : b.IndexedCorrectly)
include hidx

/-- The matcher phase on `begin..e`, within the indexed sections and the chain, returns the
matching logs of those blocks, in order, and leaves `f.begin` at `e + 1`. -/
theorem indexedLogs_eq {«begin» e : Nat} («end» : Int) (addresses : List Address)
    (topics : List (List Hash)) (hle : «begin» ≤ e) (hindexed : e < b.sections * b.sectionSize)
    (hhead : e ≤ b.head) :
    (New keccak256 b «begin» «end» addresses topics).indexedLogs b e =
      (filterLogs (( List.range' «begin» (e + 1 - «begin»)).flatMap (blockLogs b)) addresses topics,
        { New keccak256 b «begin» «end» addresses topics with «begin» := e + 1 }) := by
  have hsize : 0 < b.sectionSize := Nat.pos_of_ne_zero fun h0 => by simp [h0] at hindexed
  have hmsize : (New keccak256 b «begin» «end» addresses topics).matcher.sectionSize = b.sectionSize := by
    rw [New_matcher]
    rfl
  have hsections : ∀ s ≤ e / (New keccak256 b «begin» «end» addresses topics).matcher.sectionSize,
      Indexed (New keccak256 b «begin» «end» addresses topics).matcher.sectionSize b.bitset b.bloomAt s := by
    intro s hs
    rw [hmsize] at hs ⊢
    have he : e / b.sectionSize < b.sections := (Nat.div_lt_iff_lt_mul hsize).mpr hindexed
    exact hidx.indexed s (by omega)
  have hmatches := sessionResults_eq (wellFormed_new keccak256 b «begin» «end» addresses topics)
    (hmsize ▸ hsize) (hmsize ▸ hidx.sectionSize_mod) hle hsections
  rw [Filter.indexedLogs, show (New keccak256 b «begin» «end» addresses topics).begin.toNat = «begin» from
    Int.toNat_natCast _, hmatches, indexedLoop_eq b e _ _ _ ?inRange, List.nil_append]
  case inRange =>
    intro k hk
    rw [List.mem_filter, List.mem_range'_1] at hk
    omega
  simp only [matches_new]
  have hrange : ∀ k ∈ List.range' «begin» (e + 1 - «begin»), k ≤ b.head := by
    intro k hk
    rw [List.mem_range'_1] at hk
    omega
  refine Prod.ext ?_ rfl
  exact (flatMap_filter_bloomFilter keccak256 hk hchain (New keccak256 b «begin» «end» addresses topics)
    _ hrange).trans (filterLogs_flatMap _ _ _ _).symm

/-- `Logs` on `begin..end`, within the chain, returns `filterLogs` of all the logs of those
blocks in block order: the matcher phase covers the indexed blocks from `begin`, and the scan
starts where it stopped. -/
theorem Logs_exact {«begin» «end» : Nat} (hle : «begin» ≤ «end») (hhead : «end» ≤ b.head)
    (addresses : List Address) (topics : List (List Hash)) :
    ((New keccak256 b «begin» «end» addresses topics).Logs keccak256 b).1 =
      filterLogs (( List.range' «begin» («end» + 1 - «begin»)).flatMap (blockLogs b)) addresses topics := by
  have hb : ¬ (New keccak256 b «begin» «end» addresses topics).begin = -1 := by
    show ¬ ((«begin» : Int) = -1)
    omega
  have he : ¬ (New keccak256 b «begin» «end» addresses topics).end = -1 := by
    show ¬ ((«end» : Int) = -1)
    omega
  have hbegin : (New keccak256 b «begin» «end» addresses topics).begin.toNat = «begin» :=
    Int.toNat_natCast _
  have hend : (New keccak256 b «begin» «end» addresses topics).end.toNat = «end» :=
    Int.toNat_natCast _
  unfold Filter.Logs
  simp only [hb, he, hbegin, hend, ↓reduceIte]
  by_cases hi : «begin» < b.sections * b.sectionSize
  · rw [if_pos hi]
    -- the matcher phase stops at `end`, or at the last indexed block before it
    obtain ⟨e, hphase, hbe, hee, heidx⟩ : ∃ e,
        (if «end» < b.sections * b.sectionSize then
            (New keccak256 b «begin» «end» addresses topics).indexedLogs b «end»
          else (New keccak256 b «begin» «end» addresses topics).indexedLogs b
            (b.sections * b.sectionSize - 1)) =
          (New keccak256 b «begin» «end» addresses topics).indexedLogs b e ∧
        «begin» ≤ e ∧ e ≤ «end» ∧ e < b.sections * b.sectionSize := by
      by_cases hlast : «end» < b.sections * b.sectionSize
      · exact ⟨«end», if_pos hlast, hle, le_rfl, hlast⟩
      · exact ⟨b.sections * b.sectionSize - 1, if_neg hlast, by omega, by omega, by omega⟩
    rw [hphase, indexedLogs_eq keccak256 hk hchain hidx _ _ _ hbe heidx (by omega),
      unindexedLogs_eq keccak256 hk hchain hhead _ (by simp; omega)]
    dsimp only
    rw [New_addresses, New_topics, show ((e : Int) + 1).toNat = e + 1 by omega,
      ← filterLogs_append, ← List.flatMap_append]
    -- the scan starts where the matcher stopped
    have happ := @List.range'_append «begin» (e + 1 - «begin») («end» + 1 - (e + 1)) 1
    rw [Nat.one_mul, show «begin» + (e + 1 - «begin») = e + 1 by omega,
      show e + 1 - «begin» + («end» + 1 - (e + 1)) = «end» + 1 - «begin» by omega] at happ
    rw [happ]
  · rw [if_neg hi, unindexedLogs_eq keccak256 hk hchain hhead _ (by show (0 : Int) ≤ «begin»; omega)]
    dsimp only
    rw [List.nil_append, hbegin, New_addresses, New_topics]

end Phases

/-- A Keccak-256 that hashes everything to zero bytes. -/
def zeroKeccak (_ : List UInt8) : List UInt8 := List.replicate 32 0

/-- Hash functions whose `bloom9` is the source's over `zeroKeccak`. -/
def zeroHashing : Hashing Unit :=
  ⟨fun _ => 0, fun _ => [], fun _ => [], bloom9 zeroKeccak, fun a _ => a⟩

/-- The receipts of a chain of 4098 blocks: blocks 5 and 4097 have one receipt with one log, of
address 7 and topic 3; the others none. -/
def twoPhaseReceipts (n : Nat) : List Receipt :=
  if n = 5 ∨ n = 4097 then [⟨[], 1, 0, [⟨7, [3], []⟩], 0, 0, 0⟩] else []

/-- That chain, its first section of 4096 blocks indexed by the bloom indexer: block 5 is found by
the matcher and block 4097 by the scan. -/
def twoPhaseBackend : Backend where
  head := 4097
  bloomAt n := zeroHashing.createBloom (twoPhaseReceipts n)
  receiptsAt := twoPhaseReceipts
  sectionSize := 4096
  sections := 1
  bitset := Epv.indexerBitset 4096 fun n => zeroHashing.createBloom (twoPhaseReceipts n)

/-- `Logs` over an indexed section and an unindexed tail finds the filter's logs. -/
theorem Logs_exact_twoPhase :
    ((New zeroKeccak twoPhaseBackend 0 4097 [7] [[3]]).Logs zeroKeccak twoPhaseBackend).1 =
      filterLogs ((List.range' 0 (4097 + 1 - 0)).flatMap (blockLogs twoPhaseBackend)) [7] [[3]] :=
  Logs_exact zeroKeccak (h := zeroHashing) rfl (fun _ _ => rfl)
    (twoPhaseBackend.indexedCorrectly_of_indexer (by decide) (by decide)
      (by dsimp only [twoPhaseBackend])) (Nat.zero_le _)
    le_rfl [7] [[3]]

end EpvChain.Filters
