import EpvChain.Kernel.Bloombits.Matcher

/-!
# The bloom indexer (`epv/bloombits.go`)

The chain indexer hands the bloom indexer one section at a time: `Reset` makes a generator of
`size` sections (one per block of the section), `Process` adds the bloom of each header of the
section at its index within it, and `Commit` takes the vector of every bloom bit, `0` to
`BloomBitLength - 1`, and writes it to the database. Those vectors are what the filter's
matcher reads back for the section.

The database, the section head's hash in the key and the compression of the vectors
(`bitutil.CompressBytes`, which the retrieval undoes) are not modelled: `Commit` returns the
vectors it writes, in the order of the bloom bits. `Process` drops `AddBloom`'s error.

* `indexSection_indexed`: for a section size that is a multiple of eight and at least
  `BloomBitLength`, the indexer commits a section, and its vectors are indexed from the blooms
  of the section's headers; this is the index `Filter.Logs` assumes.
* `indexSection_error_of_lt`: with fewer blocks to a section than bloom bits, `Commit` fails at
  the first bloom bit past the section count, as `Bitset` bounds the bit by it.
-/

namespace EpvChain.Epv

open EpvChain.Types EpvChain.Bloombits

/-- `BloomIndexer`: the section size, the generator of the section being indexed, and its
number. -/
structure BloomIndexer where
  size : Nat
  gen : Generator
  «section» : Nat

/-- `b.Reset(section, lastSectionHead)`: a new generator of `size` sections.
Source: `epv/bloombits.go` `BloomIndexer.Reset` -/
def BloomIndexer.Reset (size «section» : Nat) : Except GeneratorError BloomIndexer := do
  let gen ← NewGenerator size
  return ⟨size, gen, «section»⟩

/-- `b.Process(header)`: the header's bloom at its index within the section; the error of
`AddBloom` is dropped. The index is `uint64` in the source, where the headers of the section
never wrap it.
Source: `epv/bloombits.go` `BloomIndexer.Process` -/
def BloomIndexer.Process (b : BloomIndexer) (number : Nat) (bloom : Bloom) : BloomIndexer :=
  match b.gen.AddBloom (number - b.section * b.size) bloom with
  | .ok gen => { b with gen }
  | .error _ => b

/-- `b.Commit()`: the vector of every bloom bit in turn, stopping at the first error.
Source: `epv/bloombits.go` `BloomIndexer.Commit` -/
def BloomIndexer.Commit (b : BloomIndexer) : Except GeneratorError (List (List UInt8)) :=
  (List.range BloomBitLength).mapM b.gen.Bitset

/-- The chain indexer's run of the bloom indexer on section `s`: `Reset`, `Process` of the
section's headers in order, `Commit`.
Source: `kernel/chain_indexer.go` `ChainIndexer.processSection` -/
def indexSection (size s : Nat) (bloomAt : Nat → Bloom) : Except GeneratorError (List (List UInt8)) := do
  let b ← BloomIndexer.Reset size s
  ((List.range size).foldl (fun b j => b.Process (s * size + j) (bloomAt (s * size + j))) b).Commit

/-- The vector of a bloom bit for section `s` that the indexer stored; none for a section it could
not commit. -/
def indexerBitset (size : Nat) (bloomAt : Nat → Bloom) (bit s : Nat) : List UInt8 :=
  match indexSection size s bloomAt with
  | .ok vs => vs.getD bit []
  | .error _ => []

/-! ### Processing a section -/

section Process

variable {size s : Nat} (bloomAt : Nat → Bloom)

/-- `Process` of the header numbered `j` into the section, on a generator that expects block `j`,
adds its bloom. -/
theorem process_of_next {b : BloomIndexer} {added : List Bloom} (hb : Generator.Holds b.gen added)
    (hs : b.section = s) (hsize : b.size = size) (hlt : added.length < b.gen.sections) :
    ∃ gen, b.Process (s * size + added.length) (bloomAt (s * size + added.length)) =
      { b with gen } ∧ gen.sections = b.gen.sections ∧
      Generator.Holds gen (added ++ [bloomAt (s * size + added.length)]) := by
  obtain ⟨gen, hadd⟩ := Generator.addBloom_of_lt (by rw [hb.next]; exact hlt)
    (bloomAt (s * size + added.length))
  rw [hb.next] at hadd
  obtain ⟨-, hsec, hgen⟩ := hb.addBloom hadd
  refine ⟨gen, ?_, hsec, hgen⟩
  rw [BloomIndexer.Process, hs, hsize, Nat.add_sub_cancel_left, hadd]

/-- `Process` of the headers of the section from block `added.length` on, while the section has
room: each bloom is added, and the indexer keeps its section and size. The induction is on the
number of headers, from any generator holding the blooms before them. -/
theorem process_range' : ∀ (n : Nat) (b : BloomIndexer) (added : List Bloom),
    b.section = s → b.size = size → Generator.Holds b.gen added →
    added.length + n ≤ b.gen.sections →
    let b' := (List.range' added.length n).foldl
      (fun b j => b.Process (s * size + j) (bloomAt (s * size + j))) b
    b'.section = s ∧ b'.size = size ∧ b'.gen.sections = b.gen.sections ∧
      Generator.Holds b'.gen (added ++ (List.range' added.length n).map fun j => bloomAt (s * size + j))
  | 0, b, added, hs, hsize, hb, _ => by simpa using ⟨hs, hsize, hb⟩
  | n + 1, b, added, hs, hsize, hb, hroom => by
    obtain ⟨gen, hproc, hsec, hgen⟩ := process_of_next bloomAt hb hs hsize (by omega)
    -- the next header is block `added.length`; the rest start one further
    have hrest := process_range' n { b with gen } (added ++ [bloomAt (s * size + added.length)])
      hs hsize hgen (by simp only [List.length_append, List.length_singleton, hsec]; omega)
    simp only [List.length_append, List.length_singleton] at hrest
    rw [List.range'_succ, List.foldl_cons, hproc, List.map_cons, ← List.singleton_append,
      ← List.append_assoc]
    obtain ⟨hs', hsize', hsec', hb'⟩ := hrest
    exact ⟨hs', hsize', hsec'.trans hsec, hb'⟩

end Process

/-! ### Committing a section -/

/-- `Commit`'s loop over the first `n` bloom bits, on a full generator with at least `n` sections,
hands out the generator's vectors. -/
theorem mapM_bitset {b : Generator} {added : List Bloom} (hb : Generator.Holds b added)
    (hfull : added.length = b.sections) :
    ∀ n, n ≤ b.sections →
      (List.range n).mapM b.Bitset = .ok ((List.range n).map fun i => b.blooms.getD i [])
  | 0, _ => rfl
  | n + 1, hn => by
    rw [List.range_succ, List.mapM_append, mapM_bitset hb hfull n (by omega), Lib.ok_bind]
    simp only [List.mapM_cons, List.mapM_nil, hb.bitset_eq hfull (show n < b.sections by omega),
      Lib.ok_bind, List.map_append, List.map_cons, List.map_nil]
    rfl

/-- Past the section count, `Commit`'s loop stops at the first bloom bit the section cannot
give. -/
theorem mapM_bitset_error {b : Generator} {added : List Bloom} (hb : Generator.Holds b added)
    (hfull : added.length = b.sections) :
    ∀ n, b.sections < n → (List.range n).mapM b.Bitset = .error .sectionOutOfBounds
  | 0, h => absurd h (Nat.not_lt_zero _)
  | n + 1, h => by
    rw [List.range_succ, List.mapM_append]
    rcases Nat.lt_or_ge b.sections n with hlt | hle
    · rw [mapM_bitset_error hb hfull n hlt]
      rfl
    · rw [mapM_bitset hb hfull n hle, Lib.ok_bind, List.mapM_cons,
        hb.bitset_of_le hfull (by omega)]
      rfl

/-- After `Reset`, `Process` of the whole section leaves a full generator holding the blooms of
the section's headers. -/
theorem processed_section {size s : Nat} (bloomAt : Nat → Bloom) {gen : Generator}
    (hgen : NewGenerator size = .ok gen) :
    let b' := (List.range size).foldl
      (fun (b : BloomIndexer) j => b.Process (s * size + j) (bloomAt (s * size + j))) ⟨size, gen, s⟩
    b'.gen.sections = size ∧
      Generator.Holds b'.gen ((List.range size).map fun j => bloomAt (s * size + j)) := by
  obtain ⟨hsec, hholds⟩ := Generator.holds_newGenerator hgen
  obtain ⟨-, -, hsec', hb'⟩ := process_range' bloomAt size ⟨size, gen, s⟩ [] rfl rfl hholds
    (by rw [hsec, List.length_nil, Nat.zero_add])
  rw [List.range_eq_range']
  exact ⟨hsec'.trans hsec, by simpa using hb'⟩

/-- `Reset` of a section size that is a multiple of eight succeeds. -/
theorem reset_of_mod {size : Nat} (h8 : size % 8 = 0) (s : Nat) :
    ∃ gen, NewGenerator size = .ok gen ∧ BloomIndexer.Reset size s = .ok ⟨size, gen, s⟩ := by
  obtain ⟨gen, hgen⟩ := Generator.newGenerator_of_mod h8
  refine ⟨gen, hgen, ?_⟩
  rw [BloomIndexer.Reset, hgen]
  rfl

/-- **The indexer builds the index the filter reads.** For a section size that is a multiple of
eight and at least `BloomBitLength`, the indexer commits every section, and the vectors of a
section are indexed from the blooms of its headers. -/
theorem indexSection_indexed {size : Nat} (h8 : size % 8 = 0) (hbits : BloomBitLength ≤ size)
    (s : Nat) (bloomAt : Nat → Bloom) :
    ∃ vs, indexSection size s bloomAt = .ok vs ∧ vs.length = BloomBitLength ∧
      Indexed size (fun bit _ => vs.getD bit []) bloomAt s := by
  obtain ⟨gen, hgen, hreset⟩ := reset_of_mod h8 s
  obtain ⟨hsec, hb⟩ := processed_section bloomAt (s := s) hgen
  set g := ((List.range size).foldl
    (fun (b : BloomIndexer) j => b.Process (s * size + j) (bloomAt (s * size + j))) ⟨size, gen, s⟩).gen
  refine ⟨(List.range BloomBitLength).map fun i => g.blooms.getD i [], ?_, ?_,
    hb.indexed hsec fun bit hbit => ?_⟩
  · rw [indexSection, hreset, Lib.ok_bind, BloomIndexer.Commit]
    exact mapM_bitset hb (by rw [List.length_map, List.length_range, hsec]) _
      (by rw [hsec]; exact hbits)
  · rw [List.length_map, List.length_range]
  · rw [List.getD_eq_getElem?_getD, List.getElem?_map, List.getElem?_range hbit]
    rfl

/-- With fewer blocks to a section than bloom bits, the indexer commits nothing: `Bitset` of the
bloom bit equal to the section count fails. -/
theorem indexSection_error_of_lt {size : Nat} (h8 : size % 8 = 0) (hlt : size < BloomBitLength)
    (s : Nat) (bloomAt : Nat → Bloom) :
    indexSection size s bloomAt = .error .sectionOutOfBounds := by
  obtain ⟨gen, hgen, hreset⟩ := reset_of_mod h8 s
  obtain ⟨hsec, hb⟩ := processed_section bloomAt (s := s) hgen
  rw [indexSection, hreset, Lib.ok_bind, BloomIndexer.Commit,
    mapM_bitset_error hb (by rw [List.length_map, List.length_range, hsec]) _ (by rw [hsec]; exact hlt)]

end EpvChain.Epv
