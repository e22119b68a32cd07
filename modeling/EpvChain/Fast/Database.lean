import Mathlib
import EpvChain.Lib.Finmap
import EpvChain.Public.Types

/-!
# The trie node cache and its reference counts (`fast/database.go`)

`trie.Database` keeps the trie nodes not yet on disk, each with its encoding, its number of
references (`parents`) and how often it references each child (`children`). The entry of the
empty hash is the meta-root: the chain references every state root from it once per block, so
its counts are multiplicities. `Dereference` drops a reference and frees a node with none left,
with its subtree; `Commit` writes a node and its cached subtree to disk and uncaches it, without
touching the counts of other nodes, the meta-root's among them.

Go maps are `Finmap`s; a missing key reads as zero (`count`), and a loop over keys visits them in
ascending order. The recursions carry a bound (`bound`) no chain of children can use up.
`db.nodes[parent]` on an uncached node is a nil pointer; `reference` and `dereference` return
`none` there. Storage sizes are integers (the source's `float64` sums are exact below `2 ^ 53`).
Preimages, timers and the batch limit are left out: no count depends on them.

* `insert_preserves_counts`, `reference_preserves_counts` — a fresh node and a reference keep
  the counts consistent.
* `counts_broken_after_commit` — a committed root does not: `uncache` leaves the meta-root's
  count of it behind, and once the root is inserted again a `Dereference` takes its `parents`
  to `-1` and leaves it cached for good.
-/

namespace EpvChain.Trie

open Lib

/-- A map read as Go reads it: a missing key is zero. -/
def count (m : Finmap fun _ : Hash => Int) (h : Hash) : Int := (m.lookup h).getD 0

/-- `cachedNode`: a node's encoding, the number of references to it, and how often it
references each child.
Source: `fast/database.go` `type cachedNode struct` -/
structure CachedNode where
  blob : List UInt8
  parents : Int
  children : Finmap fun _ : Hash => Int

/-- `trie.Database`: the cached nodes, the size they take, and the disk below.
Source: `fast/database.go` `type Database struct` -/
structure Database where
  nodes : Finmap fun _ : Hash => CachedNode
  nodesSize : Int
  disk : Finmap fun _ : Hash => List UInt8

namespace Database

/-- `NewDatabase`: only the meta-root is cached.
Source: `fast/database.go` `NewDatabase` -/
def new (disk : Finmap fun _ : Hash => List UInt8) : Database where
  nodes := Finmap.singleton Hash.zero ⟨[], 0, ∅⟩
  nodesSize := 0
  disk := disk

/-- A bound on the depth of the recursions over cached children. -/
def bound (db : Database) : Nat := db.nodes.keys.card + 1

/-- `Database.insert`: cache a node that is not cached yet, with no references.
Source: `fast/database.go` `Database.insert` -/
def insert (db : Database) (hash : Hash) (blob : List UInt8) : Database :=
  if hash ∈ db.nodes then db
  else
    { db with
      nodes := db.nodes.insert hash ⟨blob, 0, ∅⟩
      nodesSize := db.nodesSize + (HashLength + blob.length) }

/-- `Database.reference`: `parent` references `child`, once for an ordinary parent, once more
each time for the meta-root. A child that is not cached is not counted.
Source: `fast/database.go` `Database.reference` -/
def reference (db : Database) (child parent : Hash) : Option Database :=
  match db.nodes.lookup child with
  | none => some db
  | some node =>
    match db.nodes.lookup parent with
    | none => none
    | some p =>
      if child ∈ p.children ∧ parent ≠ Hash.zero then some db
      else
        let node : CachedNode := { node with parents := node.parents + 1 }
        -- `db.nodes[parent]` is `node` itself when the child is its own parent
        let p := if parent = child then node else p
        some { db with
          nodes := (db.nodes.insert child node).insert parent
            { p with children := p.children.insert child (count p.children child + 1) } }

/-- `Database.dereference`: drop one reference of `parent` to `child`; a child left with none is
freed after its own children are dereferenced.
Source: `fast/database.go` `Database.dereference` -/
def dereference : Nat → Database → Hash → Hash → Option Database
  | 0, db, _, _ => some db
  | fuel + 1, db, child, parent =>
    match db.nodes.lookup parent with
    | none => none
    | some p =>
      let c := count p.children child - 1
      let p : CachedNode :=
        { p with children := if c = 0 then p.children.erase child else p.children.insert child c }
      let db := { db with nodes := db.nodes.insert parent p }
      match db.nodes.lookup child with
      | none => some db
      | some node =>
        let node : CachedNode := { node with parents := node.parents - 1 }
        let db := { db with nodes := db.nodes.insert child node }
        if node.parents = 0 then
          match (sortedList node.children.keys).foldlM
              (fun db hash => dereference fuel db hash child) db with
          | none => none
          | some db =>
            some { db with
              nodes := db.nodes.erase child
              nodesSize := db.nodesSize - (HashLength + node.blob.length) }
        else some db

/-- `Database.Dereference`.
Source: `fast/database.go` `Database.Dereference` -/
def Dereference (db : Database) (child parent : Hash) : Option Database :=
  dereference db.bound db child parent

/-- `Database.commit`: the node and its cached subtree, children first, added to the batch.
Source: `fast/database.go` `Database.commit` -/
def commit : Nat → Database → Hash → (Finmap fun _ : Hash => List UInt8) →
    Finmap fun _ : Hash => List UInt8
  | 0, _, _, batch => batch
  | fuel + 1, db, hash, batch =>
    match db.nodes.lookup hash with
    | none => batch
    | some node =>
      let batch := (sortedList node.children.keys).foldl (fun b child => commit fuel db child b) batch
      batch.insert hash node.blob

/-- `Database.uncache`: drop the node and its cached subtree from the cache.
Source: `fast/database.go` `Database.uncache` -/
def uncache : Nat → Database → Hash → Database
  | 0, db, _ => db
  | fuel + 1, db, hash =>
    match db.nodes.lookup hash with
    | none => db
    | some node =>
      let db := (sortedList node.children.keys).foldl (fun db child => uncache fuel db child) db
      { db with
        nodes := db.nodes.erase hash
        nodesSize := db.nodesSize - (HashLength + node.blob.length) }

/-- `Database.Commit`: write the node's cached subtree to disk, then uncache it.
Source: `fast/database.go` `Database.Commit` -/
def Commit (db : Database) (node : Hash) : Database :=
  let batch := commit db.bound db node ∅
  uncache db.bound { db with disk := batch ∪ db.disk } node

/-- `Database.Node`: a node's encoding, from the cache or else from the disk.
Source: `fast/database.go` `Database.Node` -/
def node (db : Database) (hash : Hash) : Option (List UInt8) :=
  match db.nodes.lookup hash with
  | some n => some n.blob
  | none => db.disk.lookup hash

/-- Caching a node changes the encoding of no other hash, and of its own only when it was not
cached yet. -/
theorem node_insert (db : Database) (h x : Hash) (blob : List UInt8) :
    (db.insert h blob).node x = if x = h ∧ h ∉ db.nodes then some blob else db.node x := by
  unfold insert
  by_cases hmem : h ∈ db.nodes
  · simp [hmem]
  · simp only [hmem, if_false, node, finmap_lookup_insert]
    by_cases hx : x = h <;> simp [hx]

/-- A reference changes counts only, never an encoding. -/
theorem node_reference {db db' : Database} {child parent : Hash}
    (h : db.reference child parent = some db') (x : Hash) : db'.node x = db.node x := by
  unfold reference at h
  split at h
  · cases h; rfl
  · rename_i cn hcn
    split at h
    · cases h
    · rename_i p hp
      -- the entries written back keep the blobs of the child and of the parent
      split_ifs at h
      · cases h; rfl
      all_goals
        cases h
        unfold Database.node
        simp only [finmap_lookup_insert]
        split_ifs <;> subst_vars <;> simp [hcn, hp]

/-! ### What the counts should be -/

/-- How often the cached node `p` references `c`; nothing when `p` is not cached. -/
def refsFrom (nodes : Finmap fun _ : Hash => CachedNode) (p c : Hash) : Int :=
  (nodes.lookup p).elim 0 fun q => count q.children c

/-- The references to `c` that the cached nodes count. -/
def refs (nodes : Finmap fun _ : Hash => CachedNode) (c : Hash) : Int :=
  ∑ p ∈ nodes.keys, refsFrom nodes p c

/-- The counts agree with the cache: every cached node has as many references as the cached
nodes count for it, and no count is negative. -/
def CountsConsistent (db : Database) : Prop :=
  (∀ c node, db.nodes.lookup c = some node → node.parents = refs db.nodes c) ∧
    (∀ p q c, db.nodes.lookup p = some q → 0 ≤ count q.children c) ∧
    (∀ c node, db.nodes.lookup c = some node → 0 ≤ node.parents)

@[simp] theorem count_empty (c : Hash) : count ∅ c = 0 := rfl

theorem count_insert (m : Finmap fun _ : Hash => Int) (h c : Hash) (v : Int) :
    count (m.insert h v) c = if c = h then v else count m c := by
  unfold count
  rw [finmap_lookup_insert]
  split_ifs <;> rfl

section Refs

variable (nodes : Finmap fun _ : Hash => CachedNode)

theorem refsFrom_insert (h p c : Hash) (n : CachedNode) :
    refsFrom (nodes.insert h n) p c = if p = h then count n.children c else refsFrom nodes p c := by
  unfold refsFrom
  rw [finmap_lookup_insert]
  split_ifs <;> rfl

theorem refsFrom_erase (h p c : Hash) :
    refsFrom (nodes.erase h) p c = if p = h then 0 else refsFrom nodes p c := by
  unfold refsFrom
  rw [finmap_lookup_erase]
  split_ifs <;> rfl

theorem refsFrom_of_notMem {h : Hash} (hh : h ∉ nodes) (c : Hash) : refsFrom nodes h c = 0 := by
  rw [refsFrom, Finmap.lookup_eq_none.mpr hh]
  rfl

/-- The references one node counts, split off those of the others. -/
theorem refs_eq_erase (h c : Hash) : refs nodes c = refs (nodes.erase h) c + refsFrom nodes h c := by
  unfold refs
  have hrest : ∑ p ∈ nodes.keys.erase h, refsFrom (nodes.erase h) p c =
      ∑ p ∈ nodes.keys.erase h, refsFrom nodes p c := by
    apply Finset.sum_congr rfl
    intro p hp
    rw [refsFrom_erase, if_neg (Finset.ne_of_mem_erase hp)]
  rw [Finmap.keys_erase, hrest]
  by_cases hh : h ∈ nodes.keys
  · rw [add_comm]
    exact (Finset.add_sum_erase _ _ hh).symm
  · rw [Finset.erase_eq_of_notMem hh, refsFrom_of_notMem nodes (by rwa [Finmap.mem_keys] at hh),
      add_zero]

theorem refs_insert (h c : Hash) (n : CachedNode) :
    refs (nodes.insert h n) c = refs (nodes.erase h) c + count n.children c := by
  rw [refs_eq_erase _ h, finmap_erase_insert, refsFrom_insert, if_pos rfl]

/-- Replacing a cached node changes the references to `c` by the change of its own count. -/
theorem refs_insert_of_lookup {h : Hash} {old : CachedNode} (hold : nodes.lookup h = some old)
    (c : Hash) (n : CachedNode) :
    refs (nodes.insert h n) c = refs nodes c - count old.children c + count n.children c := by
  have hfrom : refsFrom nodes h c = count old.children c := by
    rw [refsFrom, hold]
    rfl
  rw [refs_insert, refs_eq_erase nodes h, hfrom]
  omega

theorem refs_insert_of_notMem {h : Hash} (hh : h ∉ nodes) (c : Hash) (n : CachedNode) :
    refs (nodes.insert h n) c = refs nodes c + count n.children c := by
  rw [refs_insert, refs_eq_erase nodes h, refsFrom_of_notMem nodes hh, add_zero]

end Refs

theorem countsConsistent_new (disk : Finmap fun _ : Hash => List UInt8) :
    CountsConsistent (Database.new disk) := by
  refine ⟨fun c node hc => ?_, fun p q c hp => ?_, fun c node hc => ?_⟩
  · -- the meta-root alone, referencing nothing
    rw [Database.new, finmap_lookup_singleton] at hc
    split_ifs at hc with hz
    cases hc
    rw [Database.new, refs_eq_erase _ Hash.zero, refsFrom, Finmap.lookup_singleton_eq]
    simp [refs, Finmap.keys_erase, Finmap.keys_singleton]
  · rw [Database.new, finmap_lookup_singleton] at hp
    split_ifs at hp
    cases hp
    exact le_refl _
  · rw [Database.new, finmap_lookup_singleton] at hc
    split_ifs at hc
    cases hc
    exact le_refl _

/-- A node that no cached node references enters the cache consistently: with no references of
its own and none counted for it. -/
theorem insert_preserves_counts {db : Database} (hdb : CountsConsistent db) (hash : Hash)
    (blob : List UInt8) (hfresh : refs db.nodes hash = 0) :
    CountsConsistent (db.insert hash blob) := by
  unfold insert
  split_ifs with hmem
  · exact hdb
  refine ⟨fun c node hc => ?_, fun p q c hp => ?_, fun c node hc => ?_⟩
  · -- the new node counts no child, so every sum over the cache is as it was
    rw [refs_insert_of_notMem _ hmem, count_empty, add_zero]
    rw [finmap_lookup_insert] at hc
    split_ifs at hc with hch
    · cases hc
      rw [hch]
      exact hfresh.symm
    · exact hdb.1 c node hc
  · rw [finmap_lookup_insert] at hp
    split_ifs at hp
    · cases hp
      exact le_refl _
    · exact hdb.2.1 p q c hp
  · rw [finmap_lookup_insert] at hc
    split_ifs at hc
    · cases hc
      exact le_refl _
    · exact hdb.2.2 c node hc

/-- A reference keeps the counts consistent: the child has one reference more, and the parent
counts it once more; a parent that counts it already and is not the meta-root changes nothing. -/
theorem reference_preserves_counts {db db' : Database} (hdb : CountsConsistent db)
    {child parent : Hash} (h : db.reference child parent = some db') : CountsConsistent db' := by
  unfold reference at h
  rcases hc : db.nodes.lookup child with _ | node
  · rw [hc] at h
    cases h
    exact hdb
  rcases hp : db.nodes.lookup parent with _ | p
  · rw [hc, hp] at h
    cases h
  rw [hc, hp] at h
  dsimp only at h
  -- the parent's new count of the child is one more, whichever node the parent is
  have hcount : ∀ q : CachedNode, ∀ x, count (q.children.insert child (count q.children child + 1)) x =
      count q.children x + if x = child then 1 else 0 := by
    intro q x
    rw [count_insert]
    split_ifs with hx
    · rw [hx]
    · rw [add_zero]
  split_ifs at h with hdup hpc
  · cases h
    exact hdb
  · -- the child references itself: one node gains a reference and counts it
    cases h
    subst hpc
    obtain rfl : p = node := Option.some.inj (hp.symm.trans hc)
    rw [Finmap.insert_insert]
    refine ⟨fun c n hn => ?_, fun a q x ha => ?_, fun c n hn => ?_⟩
    · rw [refs_insert_of_lookup _ hc, hcount]
      dsimp only
      rw [finmap_lookup_insert] at hn
      split_ifs at hn with hcp
      · cases hn
        dsimp only
        rw [hcp, hdb.1 parent p hc, if_pos rfl]
        omega
      · rw [hdb.1 c n hn, if_neg hcp]
        omega
    · rw [finmap_lookup_insert] at ha
      split_ifs at ha with hap
      · cases ha
        rw [hcount]
        have := hdb.2.1 parent p x hc
        dsimp only
        split_ifs <;> omega
      · exact hdb.2.1 a q x ha
    · rw [finmap_lookup_insert] at hn
      split_ifs at hn with hcp
      · cases hn
        have := hdb.2.2 parent p hc
        dsimp only
        omega
      · exact hdb.2.2 c n hn
  · -- an ordinary edge: the child gains a reference, the parent counts it
    cases h
    have hp' : (db.nodes.insert child { node with parents := node.parents + 1 }).lookup parent =
        some p := by
      rw [Finmap.lookup_insert_of_ne _ hpc, hp]
    have hrefs : ∀ x, refs ((db.nodes.insert child { node with parents := node.parents + 1 }).insert
        parent { p with children := p.children.insert child (count p.children child + 1) }) x =
        refs db.nodes x + if x = child then 1 else 0 := by
      intro x
      rw [refs_insert_of_lookup _ hp', hcount, refs_insert_of_lookup _ hc]
      dsimp only
      omega
    refine ⟨fun c n hn => ?_, fun a q x ha => ?_, fun c n hn => ?_⟩
    · rw [hrefs]
      rw [finmap_lookup_insert, finmap_lookup_insert] at hn
      split_ifs at hn with hcp hcc
      · cases hn
        rw [hcp, if_neg hpc]
        rw [hdb.1 parent p hp, add_zero]
      · cases hn
        rw [hcc, if_pos rfl, hdb.1 child node hc]
      · rw [if_neg hcc, hdb.1 c n hn, add_zero]
    · rw [finmap_lookup_insert, finmap_lookup_insert] at ha
      split_ifs at ha with hap hac
      · cases ha
        rw [hcount]
        have := hdb.2.1 parent p x hp
        split_ifs <;> omega
      · cases ha
        exact hdb.2.1 child node x hc
      · exact hdb.2.1 a q x ha
    · rw [finmap_lookup_insert, finmap_lookup_insert] at hn
      split_ifs at hn with hcp hcc
      · cases hn
        exact hdb.2.2 parent p hp
      · cases hn
        have := hdb.2.2 child node hc
        dsimp only
        omega
      · exact hdb.2.2 c n hn

/-- A node whose `parents` is not what the cache counts for it breaks the counts. -/
theorem not_countsConsistent_of_parents {db : Database} {c : Hash}
    (h : ((db.nodes.lookup c).map (·.parents)).any (· ≠ refs db.nodes c)) :
    ¬ CountsConsistent db := by
  intro hdb
  rcases hc : db.nodes.lookup c with _ | n
  · rw [hc] at h
    cases h
  · rw [hc, Option.map_some, Option.any_some, decide_eq_true_iff] at h
    exact h (hdb.1 c n hc)

end Database

open Database

/-- A state root and its encoding. -/
def root : Hash := 1
def rootBlob : List UInt8 := [1, 2, 3]

theorem counts_broken_after_commit :
    ∃ db, ((Database.new ∅).insert root rootBlob).reference root Hash.zero = some db ∧
      CountsConsistent db ∧
      -- the root cached again after its commit has fewer references than the meta-root counts
      ¬ CountsConsistent ((db.Commit root).insert root rootBlob) ∧
      (((db.Commit root).insert root rootBlob).Dereference root Hash.zero).map
          (fun db => (db.nodes.lookup root).map (·.parents)) = some (some (-1)) ∧
      -- the root referenced again after its commit: the meta-root's count falls below zero
      (((db.Commit root).reference root Hash.zero).bind fun db =>
          (db.Dereference root Hash.zero).bind fun db => db.Dereference root Hash.zero).map
          (fun db => (db.nodes.lookup Hash.zero).map fun n => count n.children root) =
        some (some (-1)) := by
  refine ⟨_, rfl, ?_, not_countsConsistent_of_parents (c := root) (by decide), by decide, by decide⟩
  exact @reference_preserves_counts _ _
    (insert_preserves_counts (countsConsistent_new ∅) root rootBlob (by decide)) root Hash.zero rfl

end EpvChain.Trie
