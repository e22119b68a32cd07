import EpvChain.Lib.Finmap
import EpvChain.Lib.Heap
import EpvChain.Lib.Lex

/-!
# An account's transactions by nonce (`kernel/tx_list.go`)

`txSortedMap` keeps an account's transactions in a map by nonce, the nonces in a min-heap
(`nonceHeap`), and, once `Flatten` asked for it, the transactions sorted by nonce (`cache`).
`Forward` and `Ready` pop the heap; `Cap` sorts the heap's array, deletes the transactions under
its last entries and re-heapifies; `Filter` rebuilds the heap; `Remove` takes one entry out.

* `Valid` — the heap holds exactly the map's nonces once each in heap order, each transaction is
  under its nonce, and the cache is the transactions in nonce order; each operation keeps it
  (`Valid.step`, `Reachable.valid`).
* `forward_spec`, `ready_spec`, `cap_spec`, `flatten_spec` — what each operation takes out and
  leaves, as cuts of the transactions in nonce order (`sortedValues`).
* `Bounded`, `ListReachable.bounded`, `filter_spec` — `txList`'s caps on cost and gas bound every
  transaction held, and `Filter` returns what the plain filter computes.

Nonces are `Nat` (`Ready` counts on from one, which would wrap only past the largest nonce). The
model ranges over map keys in ascending order. `default` stands for the nil pointer Go reads
under a missing nonce.
-/

set_option linter.unusedSectionVars false

namespace EpvChain.Core

open EpvChain.Lib

/-- `txSortedMap`.
Source: `kernel/tx_list.go` `type txSortedMap struct` -/
structure SortedMap (τ : Type) where
  items : Finmap fun _ : Nat => τ
  index : Array Nat
  cache : Option (List τ)

namespace SortedMap

variable {τ : Type} [Inhabited τ] (nonce : τ → Nat)

/-- `newTxSortedMap`.
Source: `kernel/tx_list.go` `newTxSortedMap` -/
def new : SortedMap τ := ⟨∅, #[], none⟩

/-- `txSortedMap.Get`.
Source: `kernel/tx_list.go` `txSortedMap.Get` -/
def get (m : SortedMap τ) (n : Nat) : Option τ := m.items.lookup n

/-- `txSortedMap.Len`.
Source: `kernel/tx_list.go` `txSortedMap.Len` -/
def len (m : SortedMap τ) : Nat := m.items.keys.card

/-- `txSortedMap.Put`: a new nonce goes into the heap; the transaction replaces any under it.
Source: `kernel/tx_list.go` `txSortedMap.Put` -/
def put (m : SortedMap τ) (tx : τ) : SortedMap τ :=
  { items := m.items.insert (nonce tx) tx
    index := if nonce tx ∈ m.items then m.index else Heap.push id m.index (nonce tx)
    cache := none }

@[simp] theorem put_items (m : SortedMap τ) (tx : τ) :
    (m.put nonce tx).items = m.items.insert (nonce tx) tx := rfl

theorem put_index_of_mem {m : SortedMap τ} {tx : τ} (h : nonce tx ∈ m.items) :
    (m.put nonce tx).index = m.index := if_pos h

theorem put_index_of_not_mem {m : SortedMap τ} {tx : τ} (h : nonce tx ∉ m.items) :
    (m.put nonce tx).index = Heap.push id m.index (nonce tx) := if_neg h

/-- The loop of `Forward`: pop the least nonce while it is below `threshold`. -/
def forwardLoop (threshold : Nat) : Nat → SortedMap τ → List τ → SortedMap τ × List τ
  | 0, m, removed => (m, removed)
  | fuel + 1, m, removed =>
    if 0 < m.index.size ∧ m.index[0]! < threshold then
      match Heap.pop id m.index with
      | some (n, index) =>
        forwardLoop threshold fuel { m with items := m.items.erase n, index }
          (removed ++ [(m.items.lookup n).getD default])
      | none => (m, removed)
    else (m, removed)

theorem forwardLoop_go {threshold fuel : Nat} {m : SortedMap τ} {removed : List τ} {n : Nat}
    {index : Array Nat} (hgo : 0 < m.index.size ∧ m.index[0]! < threshold)
    (hp : Heap.pop id m.index = some (n, index)) :
    forwardLoop threshold (fuel + 1) m removed =
      forwardLoop threshold fuel { m with items := m.items.erase n, index }
        (removed ++ [(m.items.lookup n).getD default]) := by
  rw [forwardLoop, if_pos hgo, hp]

theorem forwardLoop_stop {threshold fuel : Nat} {m : SortedMap τ} {removed : List τ}
    (hstop : ¬(0 < m.index.size ∧ m.index[0]! < threshold)) :
    forwardLoop threshold (fuel + 1) m removed = (m, removed) := by
  rw [forwardLoop, if_neg hstop]

/-- `txSortedMap.Forward`: the transactions below `threshold` out, and as many off the front of
the cache. Each round pops the heap, so its size is fuel enough.
Source: `kernel/tx_list.go` `txSortedMap.Forward` -/
def forward (m : SortedMap τ) (threshold : Nat) : SortedMap τ × List τ :=
  let r := forwardLoop threshold m.index.size m []
  ({ r.1 with cache := m.cache.map fun c => c.drop r.2.length }, r.2)

/-- One round of `Filter`'s range over the map: a transaction the filter accepts is deleted and
collected. -/
def filterStep (f : τ → Bool) (items : Finmap fun _ : Nat => τ)
    (acc : (Finmap fun _ : Nat => τ) × List τ) (n : Nat) : (Finmap fun _ : Nat => τ) × List τ :=
  match items.lookup n with
  | some tx => if f tx then (acc.1.erase n, acc.2 ++ [tx]) else acc
  | none => acc

/-- `txSortedMap.Filter`: the transactions `f` accepts out; when there are any, the heap rebuilt
from the map and the cache dropped.
Source: `kernel/tx_list.go` `txSortedMap.Filter` -/
def filter (m : SortedMap τ) (f : τ → Bool) : SortedMap τ × List τ :=
  let r := (sortedList m.items.keys).foldl (filterStep f m.items) (m.items, [])
  if 0 < r.2.length then
    ({ items := r.1, index := Heap.init id (sortedList r.1.keys).toArray, cache := none }, r.2)
  else ({ m with items := r.1 }, r.2)

/-- The loop of `Cap` over the sorted index, `for size := len(m.items); size > threshold; size--`:
delete and collect the transaction under `index[size - 1]`. -/
def capLoop (threshold : Nat) (index : Array Nat) :
    Nat → (Finmap fun _ : Nat => τ) → List τ → (Finmap fun _ : Nat => τ) × List τ
  | 0, items, drops => (items, drops)
  | size + 1, items, drops =>
    if threshold < size + 1 then
      capLoop threshold index size (items.erase index[size]!)
        (drops ++ [(items.lookup index[size]!).getD default])
    else (items, drops)

theorem capLoop_go {threshold size : Nat} {index : Array Nat} {items : Finmap fun _ : Nat => τ}
    {drops : List τ} (hgo : threshold < size + 1) :
    capLoop threshold index (size + 1) items drops =
      capLoop threshold index size (items.erase index[size]!)
        (drops ++ [(items.lookup index[size]!).getD default]) := by
  rw [capLoop, if_pos hgo]

theorem capLoop_stop {threshold size : Nat} {index : Array Nat} {items : Finmap fun _ : Nat => τ}
    {drops : List τ} (hstop : ¬threshold < size + 1) :
    capLoop threshold index (size + 1) items drops = (items, drops) := by
  rw [capLoop, if_neg hstop]

/-- `txSortedMap.Cap`: the transactions beyond the first `threshold` by nonce out, the highest
first, and as many off the back of the cache. A negative `threshold` runs the loop down to
`size = 0`, where Go indexes `(*m.index)[-1]` and panics (`none`).
Source: `kernel/tx_list.go` `txSortedMap.Cap` -/
def cap (m : SortedMap τ) (threshold : Int) : Option (SortedMap τ × List τ) :=
  if (m.items.keys.card : Int) ≤ threshold then some (m, [])
  else if threshold < 0 then none
  else
    let t := threshold.toNat
    let index := (m.index.toList.mergeSort fun a b => decide (a ≤ b)).toArray
    let r := capLoop t index m.items.keys.card m.items []
    some ({ items := r.1
            index := Heap.init id (index.extract 0 t)
            cache := m.cache.map fun c => c.take (c.length - r.2.length) }, r.2)

/-- `txSortedMap.Remove`: the first heap entry holding `n` removed, the transaction deleted and
the cache dropped; `false` when there is no transaction under `n`.
Source: `kernel/tx_list.go` `txSortedMap.Remove` -/
def remove (m : SortedMap τ) (n : Nat) : SortedMap τ × Bool :=
  if n ∈ m.items then
    let index :=
      match m.index.findIdx? (· == n) with
      | some i => ((Heap.remove id m.index i).map Prod.snd).getD m.index
      | none => m.index
    ({ items := m.items.erase n, index, cache := none }, true)
  else (m, false)

/-- The loop of `Ready`: while the least nonce is `next`, collect and delete its transaction, pop
the heap and count `next` on. -/
def readyLoop : Nat → SortedMap τ → Nat → List τ → SortedMap τ × List τ
  | 0, m, _, ready => (m, ready)
  | fuel + 1, m, next, ready =>
    if 0 < m.index.size ∧ m.index[0]! = next then
      match Heap.pop id m.index with
      | some (_, index) =>
        readyLoop fuel { m with items := m.items.erase next, index } (next + 1)
          (ready ++ [(m.items.lookup next).getD default])
      | none => (m, ready)
    else (m, ready)

theorem readyLoop_go {fuel next : Nat} {m : SortedMap τ} {acc : List τ} {n : Nat}
    {index : Array Nat} (hgo : 0 < m.index.size ∧ m.index[0]! = next)
    (hp : Heap.pop id m.index = some (n, index)) :
    readyLoop (fuel + 1) m next acc =
      readyLoop fuel { m with items := m.items.erase next, index } (next + 1)
        (acc ++ [(m.items.lookup next).getD default]) := by
  rw [readyLoop, if_pos hgo, hp]

theorem readyLoop_stop {fuel next : Nat} {m : SortedMap τ} {acc : List τ}
    (hstop : ¬(0 < m.index.size ∧ m.index[0]! = next)) :
    readyLoop (fuel + 1) m next acc = (m, acc) := by
  rw [readyLoop, if_neg hstop]

/-- `txSortedMap.Ready`: nothing when the least nonce is above `start`; otherwise the run of
consecutive nonces from the least one, taken out, and the cache dropped.
Source: `kernel/tx_list.go` `txSortedMap.Ready` -/
def ready (m : SortedMap τ) (start : Nat) : SortedMap τ × List τ :=
  if m.index.size = 0 ∨ start < m.index[0]! then (m, [])
  else
    let r := readyLoop m.index.size m m.index[0]! []
    ({ r.1 with cache := none }, r.2)

/-- `txSortedMap.Flatten`: the cache, built from the map and sorted by nonce when there is none.
Source: `kernel/tx_list.go` `txSortedMap.Flatten` -/
def flatten (m : SortedMap τ) : SortedMap τ × List τ :=
  let cache := m.cache.getD ((sortedValues m.items).mergeSort fun a b => decide (nonce a ≤ nonce b))
  ({ m with cache := some cache }, cache)

/-! ### What the operations are to take -/

/-- The transactions at the front of `txs` whose nonces count on from `next` without a gap. -/
def consecutive (next : Nat) : List τ → List τ
  | [] => []
  | tx :: txs => if nonce tx = next then tx :: consecutive (next + 1) txs else []

/-- What `Ready` is to take from the transactions in nonce order: the run of consecutive nonces
from the least one, when that one is at most `start`. -/
def readyRun (start : Nat) : List τ → List τ
  | [] => []
  | tx :: txs => if nonce tx ≤ start then consecutive nonce (nonce tx) (tx :: txs) else []

/-! ### The invariant -/

/-- What the map and the heap keep between operations, the cache aside: each transaction is
stored under its nonce, and the heap holds exactly the map's nonces, once each, in heap order. -/
structure Indexed (m : SortedMap τ) : Prop where
  keyed : ∀ n tx, m.items.lookup n = some tx → nonce tx = n
  mem_index : ∀ n, n ∈ m.index.toList ↔ n ∈ m.items
  nodup : m.index.toList.Nodup
  heap : Heap.Ordered id m.index m.index.size

/-- `txSortedMap`'s invariant: `Indexed`, and the cache, when there is one, is the map's
transactions in nonce order. -/
structure Valid (m : SortedMap τ) : Prop extends Indexed nonce m where
  cache : ∀ c, m.cache = some c → c = sortedValues m.items

variable {nonce}

/-- Stored under their nonces, the map's transactions in key order ascend by nonce. -/
theorem sortedValues_ascending {items : Finmap fun _ : Nat => τ}
    (h : ∀ n tx, items.lookup n = some tx → nonce tx = n) :
    (sortedValues items).Pairwise fun a b => nonce a < nonce b := by
  refine List.Pairwise.filterMap _ ?_ (List.sortedLT_iff_pairwise.mp (sortedList_sortedLT _))
  intro a b hab tx hx ty hy
  rw [h a tx hx, h b ty hy]
  exact hab

/-- A heap that `heap.Init` builds from the map's nonces in order indexes the map. -/
theorem indexed_init {items : Finmap fun _ : Nat => τ}
    (hkeyed : ∀ n tx, items.lookup n = some tx → nonce tx = n) {a : Array Nat}
    (ha : a.toList = sortedList items.keys) (cache : Option (List τ)) :
    Indexed nonce ⟨items, Heap.init id a, cache⟩ := by
  have hperm := Heap.init_perm id a
  have hsize : (Heap.init id a).size = a.size := by simpa using hperm.length_eq
  refine ⟨hkeyed, fun n => ?_, ?_, ?_⟩
  · rw [hperm.mem_iff, ha, mem_sortedList, Finmap.mem_keys]
  · rw [hperm.nodup_iff, ha]
    exact sortedList_nodup _
  · show Heap.Ordered id (Heap.init id a) (Heap.init id a).size
    rw [hsize]
    exact Heap.init_ordered id a

section Indexed

variable {m : SortedMap τ}

theorem Indexed.with_cache (h : Indexed nonce m) (cache : Option (List τ)) :
    Indexed nonce { m with cache } :=
  ⟨h.keyed, h.mem_index, h.nodup, h.heap⟩

theorem Indexed.mem_of_lt (h : Indexed nonce m) {k : Nat} (hk : k < m.index.size) :
    m.index[k]! ∈ m.items := by
  rw [← h.mem_index, getElem!_pos m.index k hk]
  exact Array.getElem_mem_toList hk

/-- The heap's root is the least nonce of the map. -/
theorem Indexed.root_le (h : Indexed nonce m) {n : Nat} (hn : n ∈ m.items) :
    0 < m.index.size ∧ m.index[0]! ≤ n := by
  obtain ⟨k, hk, hkn⟩ := List.getElem_of_mem ((h.mem_index n).mpr hn)
  rw [Array.length_toList] at hk
  have hkn' : m.index[k]! = n := by
    rw [getElem!_pos m.index k hk, ← Array.getElem_toList]
    exact hkn
  have hroot := Heap.Ordered.root_le h.heap k hk
  rw [hkn'] at hroot
  exact ⟨by omega, hroot⟩

/-- A map with no heap entries has no transactions. -/
theorem Indexed.sortedValues_eq_nil (h : Indexed nonce m) (hs : m.index.size = 0) :
    sortedValues m.items = [] := by
  apply List.eq_nil_iff_forall_not_mem.mpr
  intro tx htx
  obtain ⟨n, hn⟩ := mem_sortedValues.mp htx
  have := (h.root_le (Finmap.mem_of_lookup_eq_some hn)).1
  omega

/-- The transaction under the heap's root heads the map's transactions in nonce order. -/
theorem Indexed.sortedValues_eq_root (h : Indexed nonce m) (hs : 0 < m.index.size) :
    ∃ tx, m.items.lookup m.index[0]! = some tx ∧ nonce tx = m.index[0]! ∧
      sortedValues m.items = tx :: sortedValues (m.items.erase m.index[0]!) := by
  obtain ⟨tx, htx⟩ := Finmap.mem_iff.mp (h.mem_of_lt hs)
  exact ⟨tx, htx, h.keyed _ tx htx, sortedValues_eq_cons htx fun c hc => (h.root_le hc).2⟩

/-- Deleting `n` from the map while the heap loses an entry holding it keeps the index. -/
theorem Indexed.erase (h : Indexed nonce m) {n : Nat} {index : Array Nat}
    (hperm : m.index.toList.Perm (n :: index.toList)) (hheap : Heap.Ordered id index index.size)
    (cache : Option (List τ)) : Indexed nonce ⟨m.items.erase n, index, cache⟩ := by
  have hnd : (n :: index.toList).Nodup := hperm.nodup_iff.mp h.nodup
  refine ⟨fun k tx hk => h.keyed k tx (finmap_lookup_of_lookup_erase hk), fun k => ?_,
    (List.nodup_cons.mp hnd).2, hheap⟩
  rw [Finmap.mem_erase, ← h.mem_index, hperm.mem_iff, List.mem_cons]
  constructor
  · intro hk
    exact ⟨fun hkn => (List.nodup_cons.mp hnd).1 (hkn ▸ hk), Or.inr hk⟩
  · rintro ⟨hkn, rfl | hk⟩
    · exact absurd rfl hkn
    · exact hk

/-- A pop of the heap answers the least nonce, whose transaction heads the map's transactions in
nonce order; deleting it from the map keeps the index. -/
theorem Indexed.pop (h : Indexed nonce m) {n : Nat} {index : Array Nat}
    (hp : Heap.pop id m.index = some (n, index)) (cache : Option (List τ)) :
    n = m.index[0]! ∧ ∃ tx, m.items.lookup n = some tx ∧ nonce tx = n ∧
      sortedValues m.items = tx :: sortedValues (m.items.erase n) ∧
      Indexed nonce ⟨m.items.erase n, index, cache⟩ := by
  have hn : n = m.index[0]! := Heap.pop_fst hp
  obtain ⟨tx, htx, hnonce, hsv⟩ := h.sortedValues_eq_root (Nat.pos_of_ne_zero (Heap.pop_size hp))
  rw [← hn] at htx hnonce hsv
  exact ⟨hn, tx, htx, hnonce, hsv, h.erase (Heap.pop_perm hp) (Heap.pop_ordered h.heap hp) cache⟩

/-- Sorted, the heap's array lists the map's nonces in order. -/
theorem Indexed.mergeSort_index (h : Indexed nonce m) :
    m.index.toList.mergeSort (fun a b => decide (a ≤ b)) = sortedList m.items.keys := by
  have hperm := List.mergeSort_perm m.index.toList fun a b => decide (a ≤ b)
  apply eq_sortedList
  · have hle := List.pairwise_mergeSort
      (fun (a b c : Nat) (hab : decide (a ≤ b) = true) (hbc : decide (b ≤ c) = true) =>
        decide_eq_true (Nat.le_trans (of_decide_eq_true hab) (of_decide_eq_true hbc)))
      (fun (a b : Nat) => by rw [Bool.or_eq_true, decide_eq_true_eq, decide_eq_true_eq]; omega)
      m.index.toList
    have hnd := hperm.nodup_iff.mpr h.nodup
    rw [List.sortedLT_iff_pairwise]
    exact (hle.and hnd).imp fun hab => Nat.lt_of_le_of_ne (of_decide_eq_true hab.1) hab.2
  · intro a
    rw [hperm.mem_iff, h.mem_index, Finmap.mem_keys]

end Indexed

/-! ### What each operation does -/

section Operations

variable {m : SortedMap τ}

theorem Indexed.put (h : Indexed nonce m) (tx : τ) : Indexed nonce (m.put nonce tx) := by
  have hkeyed : ∀ n tx', (m.items.insert (nonce tx) tx).lookup n = some tx' → nonce tx' = n := by
    intro n tx' hn
    rw [finmap_lookup_insert] at hn
    split_ifs at hn with hnt
    · cases hn
      exact hnt.symm
    · exact h.keyed n tx' hn
  by_cases hin : nonce tx ∈ m.items
  · refine ⟨hkeyed, fun n => ?_, ?_, ?_⟩ <;> rw [put_index_of_mem nonce hin]
    · rw [put_items, Finmap.mem_insert, h.mem_index]
      exact ⟨Or.inr, fun hn => hn.elim (· ▸ hin) id⟩
    · exact h.nodup
    · exact h.heap
  · -- a new nonce is pushed onto the heap
    have hperm := Heap.push_perm id m.index (nonce tx)
    refine ⟨hkeyed, fun n => ?_, ?_, ?_⟩ <;> rw [put_index_of_not_mem nonce hin]
    · rw [hperm.mem_iff, List.mem_cons, put_items, Finmap.mem_insert, h.mem_index]
    · exact hperm.nodup_iff.mpr
        (List.nodup_cons.mpr ⟨fun hm => hin ((h.mem_index _).mp hm), h.nodup⟩)
    · have hsize : (Heap.push id m.index (nonce tx)).size = m.index.size + 1 := by
        simpa using hperm.length_eq
      rw [hsize]
      exact Heap.push_ordered h.heap (nonce tx)

theorem Valid.put (h : Valid nonce m) (tx : τ) : Valid nonce (m.put nonce tx) :=
  ⟨h.toIndexed.put tx, fun _ hc => by cases hc⟩

/-- `Forward`'s loop, given fuel for every heap entry, takes the transactions in nonce order
while their nonces are below `threshold`. -/
theorem forwardLoop_spec (threshold : Nat) :
    ∀ (fuel : Nat) (m : SortedMap τ) (removed : List τ), Indexed nonce m → m.index.size ≤ fuel →
      (forwardLoop threshold fuel m removed).2 =
          removed ++ (sortedValues m.items).takeWhile (fun tx => decide (nonce tx < threshold)) ∧
        sortedValues (forwardLoop threshold fuel m removed).1.items =
          (sortedValues m.items).dropWhile (fun tx => decide (nonce tx < threshold)) ∧
        Indexed nonce (forwardLoop threshold fuel m removed).1 ∧
        (forwardLoop threshold fuel m removed).1.cache = m.cache
  | 0, m, removed, h, hf => by
    have hnil := h.sortedValues_eq_nil (Nat.le_zero.mp hf)
    refine ⟨?_, ?_, h, rfl⟩
    · rw [hnil, List.takeWhile_nil, List.append_nil]
      rfl
    · rw [hnil]
      exact hnil
  | fuel + 1, m, removed, h, hf => by
    by_cases hgo : 0 < m.index.size ∧ m.index[0]! < threshold
    · obtain ⟨n, index, hp⟩ : ∃ n index, Heap.pop id m.index = some (n, index) :=
        ⟨_, _, Heap.pop_eq_some id (Nat.pos_iff_ne_zero.mp hgo.1)⟩
      obtain ⟨hn, tx, htx, hnonce, hsv, hidx⟩ := h.pop hp m.cache
      have hlt : decide (nonce tx < threshold) = true := by
        rw [hnonce, hn]
        exact decide_eq_true hgo.2
      obtain ⟨h1, h2, h3, h4⟩ := forwardLoop_spec threshold fuel _ (removed ++ [tx]) hidx
        (by rw [Heap.size_of_pop hp]; omega)
      rw [forwardLoop_go hgo hp, htx, Option.getD_some, hsv,
        List.takeWhile_cons_of_pos (p := fun tx => decide (nonce tx < threshold)) hlt,
        List.dropWhile_cons_of_pos (p := fun tx => decide (nonce tx < threshold)) hlt]
      exact ⟨by rw [h1, List.append_assoc, List.singleton_append], h2, h3, h4⟩
    · rw [forwardLoop_stop hgo]
      -- the least nonce is not below `threshold`, so nothing is taken
      have hdone : (sortedValues m.items).takeWhile (fun tx => decide (nonce tx < threshold)) = [] ∧
          (sortedValues m.items).dropWhile (fun tx => decide (nonce tx < threshold)) =
            sortedValues m.items := by
        by_cases hs : 0 < m.index.size
        · obtain ⟨tx, -, hnonce, hsv⟩ := h.sortedValues_eq_root hs
          have hge : decide (nonce tx < threshold) = false := by
            rw [hnonce]
            exact decide_eq_false fun hlt => hgo ⟨hs, hlt⟩
          rw [hsv, List.takeWhile_cons_of_neg (by simp [hge]),
            List.dropWhile_cons_of_neg (by simp [hge])]
          exact ⟨rfl, rfl⟩
        · rw [h.sortedValues_eq_nil (by omega)]
          exact ⟨rfl, rfl⟩
      exact ⟨by rw [hdone.1, List.append_nil], by rw [hdone.2], h, rfl⟩

/-- Over a list ascending by nonce, `nonce < threshold` holds on a prefix. -/
theorem below_threshold_downward (threshold : Nat) (a b : τ) (ha : decide (nonce a < threshold) = false)
    (hab : nonce a < nonce b) : decide (nonce b < threshold) = false := by
  simp only [decide_eq_false_iff_not, Nat.not_lt] at ha ⊢
  omega

/-- `Forward(threshold)` removes exactly the transactions with nonces below `threshold`, and
cuts as many off the front of the cache. -/
theorem forward_spec (h : Valid nonce m) (threshold : Nat) :
    (m.forward threshold).2 = (sortedValues m.items).filter (fun tx => decide (nonce tx < threshold)) ∧
      sortedValues (m.forward threshold).1.items =
        (sortedValues m.items).filter (fun tx => decide (threshold ≤ nonce tx)) ∧
      Valid nonce (m.forward threshold).1 := by
  obtain ⟨h1, h2, h3, -⟩ := forwardLoop_spec threshold m.index.size m [] h.toIndexed le_rfl
  have hsorted := sortedValues_ascending h.keyed
  have htake := takeWhile_eq_filter (below_threshold_downward threshold) hsorted
  have hdrop : (sortedValues m.items).dropWhile (fun tx => decide (nonce tx < threshold)) =
      (sortedValues m.items).filter (fun tx => decide (threshold ≤ nonce tx)) := by
    rw [dropWhile_eq_filter (below_threshold_downward threshold) hsorted]
    exact List.filter_congr fun tx _ => by rw [Bool.eq_iff_iff]; simp
  refine ⟨by rw [← htake, ← List.nil_append (List.takeWhile _ _), ← h1]; rfl,
    by rw [← hdrop, ← h2]; rfl, h3.with_cache _, fun c hc => ?_⟩
  -- the cache loses the prefix that the loop took
  obtain ⟨c0, hc0, rfl⟩ := Option.map_eq_some_iff.mp hc
  change _ = sortedValues (forwardLoop threshold m.index.size m []).1.items
  rw [h.cache c0 hc0, h1, List.nil_append, h2]
  nth_rewrite 2 [← List.takeWhile_append_dropWhile (p := fun tx => decide (nonce tx < threshold))
    (l := sortedValues m.items)]
  exact List.drop_left

/-- `Ready`'s loop, given fuel for every heap entry, takes the transactions in nonce order while
their nonces count on from `next`. -/
theorem readyLoop_spec :
    ∀ (fuel : Nat) (m : SortedMap τ) (next : Nat) (acc : List τ), Indexed nonce m →
      m.index.size ≤ fuel →
      (readyLoop fuel m next acc).2 = acc ++ consecutive nonce next (sortedValues m.items) ∧
        sortedValues (readyLoop fuel m next acc).1.items =
          (sortedValues m.items).drop (consecutive nonce next (sortedValues m.items)).length ∧
        Indexed nonce (readyLoop fuel m next acc).1
  | 0, m, next, acc, h, hf => by
    have hnil := h.sortedValues_eq_nil (Nat.le_zero.mp hf)
    refine ⟨?_, ?_, h⟩
    · rw [hnil, consecutive, List.append_nil]
      rfl
    · rw [hnil, consecutive, List.length_nil, List.drop_zero]
      exact hnil
  | fuel + 1, m, next, acc, h, hf => by
    by_cases hgo : 0 < m.index.size ∧ m.index[0]! = next
    · obtain ⟨n, index, hp⟩ : ∃ n index, Heap.pop id m.index = some (n, index) :=
        ⟨_, _, Heap.pop_eq_some id (Nat.pos_iff_ne_zero.mp hgo.1)⟩
      obtain ⟨hn, tx, htx, hnonce, hsv, hidx⟩ := h.pop hp m.cache
      have hnext : n = next := hn.trans hgo.2
      subst hnext
      obtain ⟨h1, h2, h3⟩ := readyLoop_spec fuel _ (n + 1) (acc ++ [tx]) hidx
        (by rw [Heap.size_of_pop hp]; omega)
      rw [readyLoop_go hgo hp, htx, Option.getD_some, hsv, consecutive, if_pos hnonce]
      exact ⟨by rw [h1, List.append_assoc, List.singleton_append],
        by rw [h2, List.length_cons, List.drop_succ_cons], h3⟩
    · rw [readyLoop_stop hgo]
      -- the least nonce is not `next`, so the run is empty
      have hnone : consecutive nonce next (sortedValues m.items) = [] := by
        by_cases hs : 0 < m.index.size
        · obtain ⟨tx, -, hnonce, hsv⟩ := h.sortedValues_eq_root hs
          rw [hsv, consecutive, if_neg (by rw [hnonce]; exact fun he => hgo ⟨hs, he⟩)]
        · rw [h.sortedValues_eq_nil (by omega), consecutive]
      exact ⟨by rw [hnone, List.append_nil], by rw [hnone]; rfl, h⟩

/-- `Ready(start)` takes exactly the run of consecutive nonces from the least one when that one
is at most `start`, and leaves the rest. -/
theorem ready_spec (h : Valid nonce m) (start : Nat) :
    (m.ready start).2 = readyRun nonce start (sortedValues m.items) ∧
      sortedValues (m.ready start).1.items =
        (sortedValues m.items).drop (m.ready start).2.length ∧
      Valid nonce (m.ready start).1 := by
  by_cases hs : m.index.size = 0
  · rw [ready, if_pos (Or.inl hs), h.sortedValues_eq_nil hs, readyRun]
    exact ⟨rfl, rfl, h⟩
  obtain ⟨tx, -, hnonce, hsv⟩ := h.sortedValues_eq_root (Nat.pos_of_ne_zero hs)
  by_cases hlt : start < m.index[0]!
  · rw [ready, if_pos (Or.inr hlt), hsv, readyRun, if_neg (by omega)]
    exact ⟨rfl, rfl, h⟩
  · obtain ⟨h1, h2, h3⟩ := readyLoop_spec m.index.size m m.index[0]! [] h.toIndexed le_rfl
    have hrun : readyRun nonce start (sortedValues m.items) =
        consecutive nonce m.index[0]! (sortedValues m.items) := by
      rw [hsv, readyRun, if_pos (by omega), hnonce]
    have hready : m.ready start = ({ (readyLoop m.index.size m m.index[0]! []).1 with cache := none },
        (readyLoop m.index.size m m.index[0]! []).2) := if_neg (by omega)
    rw [hready, hrun]
    exact ⟨by rw [h1, List.nil_append], by rw [h1, List.nil_append]; exact h2,
      ⟨h3.with_cache none, fun _ hc => by cases hc⟩⟩

theorem eq_nil_of_take_zero {index : List Nat} {items : Finmap fun _ : Nat => τ}
    (h : index.take 0 = sortedList items.keys) : sortedValues items = [] := by
  rw [← List.length_eq_zero_iff, length_sortedValues, ← length_sortedList, ← h, List.take_zero,
    List.length_nil]

/-- `Cap`'s loop over an index whose first `size` entries list the map's nonces in order takes the
transactions beyond the first `threshold`, the highest first, and leaves the rest, listed by the
first `threshold` entries. -/
theorem capLoop_spec (threshold : Nat) (index : Array Nat) :
    ∀ (size : Nat) (items : Finmap fun _ : Nat => τ) (drops : List τ),
      index.toList.take size = sortedList items.keys → size ≤ index.size → threshold ≤ size →
      (capLoop threshold index size items drops).2 =
          drops ++ ((sortedValues items).drop threshold).reverse ∧
        sortedValues (capLoop threshold index size items drops).1 =
          (sortedValues items).take threshold ∧
        index.toList.take threshold = sortedList (capLoop threshold index size items drops).1.keys ∧
        ∀ n tx, (capLoop threshold index size items drops).1.lookup n = some tx →
          items.lookup n = some tx
  | 0, items, drops, hkeys, _, ht => by
    obtain rfl : threshold = 0 := Nat.le_zero.mp ht
    refine ⟨?_, ?_, hkeys, fun _ _ h => h⟩
    · rw [List.drop_zero, eq_nil_of_take_zero hkeys, List.reverse_nil, List.append_nil]
      rfl
    · rw [List.take_zero]
      exact eq_nil_of_take_zero hkeys
  | size + 1, items, drops, hkeys, hsize, ht => by
    by_cases hgo : threshold < size + 1
    · rw [capLoop_go hgo]
      -- the last of the first `size + 1` entries is the greatest nonce
      have hsplit : sortedList items.keys = index.toList.take size ++ [index[size]!] := by
        rw [← hkeys, List.take_add_one, getElem!_pos index size (by omega),
          List.getElem?_eq_getElem (by simp; omega), Option.toList_some, Array.getElem_toList]
      have hsorted := List.sortedLT_iff_pairwise.mp (sortedList_sortedLT items.keys)
      rw [hsplit] at hsorted
      have hmem : index[size]! ∈ items := by
        have : index[size]! ∈ sortedList items.keys := by
          rw [hsplit]
          exact List.mem_append_right _ (List.mem_singleton_self _)
        exact Finmap.mem_keys.mp (mem_sortedList.mp this)
      have hmax : ∀ b ∈ items, b ≤ index[size]! := by
        intro b hb
        have hb' : b ∈ sortedList items.keys := mem_sortedList.mpr (Finmap.mem_keys.mpr hb)
        rw [hsplit, List.mem_append, List.mem_singleton] at hb'
        rcases hb' with hb' | rfl
        · exact le_of_lt ((List.pairwise_append.mp hsorted).2.2 b hb' _ (List.mem_singleton_self _))
        · exact le_rfl
      obtain ⟨tx, htx⟩ := Finmap.mem_iff.mp hmem
      have hkeys' : index.toList.take size = sortedList (items.erase index[size]!).keys := by
        have := sortedList_eq_concat (Finmap.mem_keys.mpr hmem)
          fun b hb => hmax b (Finmap.mem_keys.mp hb)
        rw [hsplit] at this
        rw [Finmap.keys_erase]
        exact List.append_cancel_right this
      have hlen : (sortedValues (items.erase index[size]!)).length = size := by
        rw [length_sortedValues, ← length_sortedList, ← hkeys', List.length_take,
          Array.length_toList]
        omega
      obtain ⟨h1, h2, h3, h4⟩ := capLoop_spec threshold index size _ (drops ++ [tx]) hkeys'
        (by omega) (by omega)
      rw [htx, Option.getD_some, sortedValues_eq_concat htx hmax,
        List.drop_append_of_le_length (by omega), List.take_append_of_le_length (by omega),
        List.reverse_append]
      exact ⟨by rw [h1]; simp, h2, h3, fun n tx' hn => finmap_lookup_of_lookup_erase (h4 n tx' hn)⟩
    · rw [capLoop_stop hgo]
      have hlen : (sortedValues items).length = size + 1 := by
        rw [length_sortedValues, ← length_sortedList, ← hkeys, List.length_take,
          Array.length_toList]
        omega
      refine ⟨?_, ?_, by rw [show threshold = size + 1 by omega]; exact hkeys, fun _ _ h => h⟩
      · rw [List.drop_eq_nil_of_le (by omega), List.reverse_nil, List.append_nil]
      · rw [List.take_of_length_le (by omega)]

/-- `Cap(threshold)` for a `threshold` that is not negative takes exactly the transactions beyond
the first `threshold` in nonce order, the highest first, and cuts as many off the back of the
cache. -/
theorem cap_spec (h : Valid nonce m) (threshold : Nat) :
    ∃ r, m.cap threshold = some r ∧ r.2 = ((sortedValues m.items).drop threshold).reverse ∧
      sortedValues r.1.items = (sortedValues m.items).take threshold ∧ Valid nonce r.1 := by
  have hlen : (sortedValues m.items).length = m.items.keys.card := length_sortedValues _
  by_cases hle : (m.items.keys.card : Int) ≤ threshold
  · refine ⟨(m, []), if_pos hle, ?_, ?_, h⟩
    · rw [List.drop_eq_nil_of_le (by omega)]
      rfl
    · rw [List.take_of_length_le (by omega)]
  -- the heap's array, sorted, lists the nonces in order, and the loop runs over it
  have hsorted := h.mergeSort_index
  set index := (m.index.toList.mergeSort fun a b => decide (a ≤ b)).toArray with hindex
  have hsize : index.size = m.items.keys.card := by
    rw [hindex, List.size_toArray, hsorted, length_sortedList]
  have hkeys : index.toList.take m.items.keys.card = sortedList m.items.keys := by
    rw [hindex, List.toList_toArray, hsorted, List.take_of_length_le (by rw [length_sortedList])]
  obtain ⟨h1, h2, h3, h4⟩ := capLoop_spec threshold index m.items.keys.card m.items [] hkeys
    hsize.ge (by omega)
  have hcap : m.cap threshold = some (⟨(capLoop threshold index m.items.keys.card m.items []).1,
      Heap.init id (index.extract 0 threshold), m.cache.map fun c =>
        c.take (c.length - (capLoop threshold index m.items.keys.card m.items []).2.length)⟩,
      (capLoop threshold index m.items.keys.card m.items []).2) := by
    rw [cap, if_neg hle, if_neg (by omega), Int.toNat_natCast]
  refine ⟨_, hcap, by rw [h1, List.nil_append], h2, ⟨?_, fun c hc => ?_⟩⟩
  · refine indexed_init (fun n tx hn => h.keyed n tx (h4 n tx hn)) ?_ _
    rw [Array.toList_extract, List.extract_eq_take_drop, List.drop_zero, Nat.sub_zero]
    exact h3
  · -- the cache loses as many transactions off its back as the loop took
    obtain ⟨c0, hc0, rfl⟩ := Option.map_eq_some_iff.mp hc
    rw [h.cache c0 hc0, h1, List.nil_append, List.length_reverse, List.length_drop, hlen, h2]
    congr 1
    omega

/-- One round of `Filter`'s range: what the collected list and each lookup are after the keys
`ks`. -/
theorem foldl_filterStep (f : τ → Bool) (items : Finmap fun _ : Nat => τ) :
    ∀ (ks : List Nat) (acc : (Finmap fun _ : Nat => τ) × List τ),
      (ks.foldl (filterStep f items) acc).2 = acc.2 ++ (ks.filterMap items.lookup).filter f ∧
      ∀ n, (ks.foldl (filterStep f items) acc).1.lookup n =
        if n ∈ ks ∧ (items.lookup n).any f = true then none else acc.1.lookup n
  | [], acc => ⟨by simp, fun n => by simp⟩
  | k :: ks, acc => by
    obtain ⟨h1, h2⟩ := foldl_filterStep f items ks (filterStep f items acc k)
    rw [List.foldl_cons]
    cases hk : items.lookup k with
    | none =>
      have hstep : filterStep f items acc k = acc := by rw [filterStep, hk]
      rw [hstep] at h1 h2 ⊢
      refine ⟨by rw [h1, List.filterMap_cons_none (f := fun a => items.lookup a) hk], fun n => ?_⟩
      rw [h2 n]
      by_cases hnk : n = k
      · subst hnk
        simp [hk]
      · simp [hnk]
    | some tx =>
      by_cases hf : f tx = true
      · have hstep : filterStep f items acc k = (acc.1.erase k, acc.2 ++ [tx]) := by
          rw [filterStep, hk]
          exact if_pos hf
        rw [hstep] at h1 h2 ⊢
        refine ⟨by rw [h1, List.filterMap_cons_some (f := fun a => items.lookup a) hk,
          List.filter_cons_of_pos hf, List.append_assoc, List.singleton_append], fun n => ?_⟩
        rw [h2 n, finmap_lookup_erase]
        by_cases hnk : n = k
        · subst hnk
          simp [hk, hf]
        · simp [hnk]
      · have hstep : filterStep f items acc k = acc := by
          rw [filterStep, hk]
          exact if_neg hf
        rw [hstep] at h1 h2 ⊢
        refine ⟨by rw [h1, List.filterMap_cons_some (f := fun a => items.lookup a) hk,
          List.filter_cons_of_neg hf], fun n => ?_⟩
        rw [h2 n]
        by_cases hnk : n = k
        · subst hnk
          simp [hk, hf]
        · simp [hnk]

/-- `Filter(f)` takes exactly the transactions `f` accepts, in nonce order, and leaves the rest. -/
theorem filter_spec (h : Valid nonce m) (f : τ → Bool) :
    (m.filter f).2 = (sortedValues m.items).filter f ∧
      sortedValues (m.filter f).1.items = (sortedValues m.items).filter (fun tx => !f tx) ∧
      Valid nonce (m.filter f).1 := by
  obtain ⟨h1, h2⟩ := foldl_filterStep f m.items (sortedList m.items.keys) (m.items, [])
  set r := (sortedList m.items.keys).foldl (filterStep f m.items) (m.items, []) with hr
  have hremoved : r.2 = (sortedValues m.items).filter f := by
    rw [h1, List.nil_append]
    rfl
  have hlookup : ∀ n, r.1.lookup n = (m.items.lookup n).filter fun tx => !f tx := by
    intro n
    rw [h2 n]
    cases hn : m.items.lookup n with
    | none => simp
    | some tx =>
      have hmem : n ∈ sortedList m.items.keys :=
        mem_sortedList.mpr (Finmap.mem_keys.mpr (Finmap.mem_of_lookup_eq_some hn))
      by_cases hf : f tx = true <;> simp [hmem, hf, Option.filter_some]
  have hsv : sortedValues r.1 = (sortedValues m.items).filter fun tx => !f tx :=
    sortedValues_of_lookup hlookup
  have hkeyed : ∀ n tx, r.1.lookup n = some tx → nonce tx = n := fun n tx hn => by
    rw [hlookup, Option.filter_eq_some_iff] at hn
    exact h.keyed n tx hn.1
  by_cases hpos : 0 < r.2.length
  · have hfilter : m.filter f = (⟨r.1, Heap.init id (sortedList r.1.keys).toArray, none⟩, r.2) :=
      if_pos hpos
    rw [hfilter]
    exact ⟨hremoved, hsv, ⟨indexed_init hkeyed (List.toList_toArray) none, fun _ hc => by cases hc⟩⟩
  · -- nothing was taken, so the map is as it was
    have hfilter : m.filter f = ({ m with items := r.1 }, r.2) := if_neg hpos
    have hnone : ∀ tx ∈ sortedValues m.items, f tx = false := by
      have hnil : r.2 = [] := List.length_eq_zero_iff.mp (by omega)
      rw [hremoved, List.filter_eq_nil_iff] at hnil
      exact fun tx htx => by simpa using hnil tx htx
    have hsame : r.1 = m.items := by
      apply Finmap.ext_lookup
      intro n
      rw [hlookup]
      cases hn : m.items.lookup n with
      | none => rfl
      | some tx => simp [hnone tx (mem_sortedValues.mpr ⟨n, hn⟩)]
    rw [hfilter]
    refine ⟨hremoved, hsv, ?_⟩
    rw [hsame]
    exact h

/-- `Remove(n)` answers whether there was a transaction under `n` and deletes it. -/
theorem remove_spec (h : Valid nonce m) (n : Nat) :
    (m.remove n).2 = decide (n ∈ m.items) ∧
      (∀ k, (m.remove n).1.items.lookup k = if k = n then none else m.items.lookup k) ∧
      Valid nonce (m.remove n).1 := by
  by_cases hn : n ∈ m.items
  · -- the heap holds `n`, so the scan finds it and `heap.Remove` takes it out
    obtain ⟨i, hi⟩ : ∃ i, m.index.findIdx? (· == n) = some i := by
      cases hf : m.index.findIdx? (· == n) with
      | some i => exact ⟨i, rfl⟩
      | none =>
        have := Array.findIdx?_eq_none_iff.mp hf n (Array.mem_def.mpr ((h.mem_index n).mpr hn))
        simp at this
    obtain ⟨hlt, hin, -⟩ := Array.findIdx?_eq_some_iff_getElem.mp hi
    obtain ⟨x, b, hr⟩ : ∃ x b, Heap.remove id m.index i = some (x, b) :=
      ⟨_, _, Heap.remove_eq_some id hlt⟩
    have hx : x = n := by
      rw [Heap.remove_fst hr, getElem!_pos m.index i hlt]
      simpa using hin
    subst hx
    have hremove : m.remove x = (⟨m.items.erase x, b, none⟩, true) := by
      simp only [remove, if_pos hn, hi, hr, Option.map_some, Option.getD_some]
    rw [hremove]
    exact ⟨by simp [hn], fun k => finmap_lookup_erase _ _ _,
      ⟨h.erase (Heap.remove_perm hr) (Heap.remove_ordered h.heap hr) none, fun _ hc => by cases hc⟩⟩
  · have hremove : m.remove n = (m, false) := if_neg hn
    rw [hremove]
    refine ⟨by simp [hn], fun k => ?_, h⟩
    split_ifs with hk
    · rw [hk]
      exact Finmap.lookup_eq_none.mpr hn
    · rfl

/-- `Flatten` answers the transactions in nonce order, from the cache or sorted afresh. -/
theorem flatten_spec (h : Valid nonce m) :
    (m.flatten nonce).2 = sortedValues m.items ∧ Valid nonce (m.flatten nonce).1 := by
  have hsorted : ((sortedValues m.items).mergeSort fun a b => decide (nonce a ≤ nonce b)) =
      sortedValues m.items :=
    List.mergeSort_of_pairwise ((sortedValues_ascending h.keyed).imp fun hab =>
      decide_eq_true (Nat.le_of_lt hab))
  have hcache : (m.flatten nonce).2 = sortedValues m.items := by
    cases hc : m.cache with
    | none =>
      show (m.cache.getD _) = _
      rw [hc, Option.getD_none, hsorted]
    | some c =>
      show (m.cache.getD _) = _
      rw [hc, Option.getD_some, h.cache c hc]
  exact ⟨hcache, ⟨h.toIndexed.with_cache _, fun c hc => by cases hc; exact hcache⟩⟩

theorem cap_of_neg {m : SortedMap τ} {threshold : Int} (h : threshold < 0) : m.cap threshold = none := by
  rw [cap, if_neg (by omega), if_pos h]

end Operations

/-! ### Runs -/

/-- The operations of `txSortedMap` that change it. -/
inductive Op (τ : Type) where
  | put (tx : τ)
  | forward (threshold : Nat)
  | filter (f : τ → Bool)
  | cap (threshold : Int)
  | remove (n : Nat)
  | ready (start : Nat)
  | flatten

variable (nonce) in
/-- The map after one operation; `none` where Go panics. -/
def step (m : SortedMap τ) : Op τ → Option (SortedMap τ)
  | .put tx => some (m.put nonce tx)
  | .forward threshold => some (m.forward threshold).1
  | .filter f => some (m.filter f).1
  | .cap threshold => (m.cap threshold).map Prod.fst
  | .remove n => some (m.remove n).1
  | .ready start => some (m.ready start).1
  | .flatten => some (m.flatten nonce).1

variable (nonce) in
/-- The maps that a sequence of operations builds from a new one. -/
inductive Reachable : SortedMap τ → Prop
  | new : Reachable new
  | step {m m' : SortedMap τ} {op : Op τ} : Reachable m → step nonce m op = some m' → Reachable m'

theorem valid_new : Valid nonce (new : SortedMap τ) where
  keyed n tx h := by
    rw [new, Finmap.lookup_empty] at h
    cases h
  mem_index n := by simp [new, Finmap.notMem_empty]
  nodup := List.nodup_nil
  heap k hk0 hk := absurd hk (by simp [new])
  cache c h := by cases h

/-- Every operation keeps the invariant. -/
theorem Valid.step {m m' : SortedMap τ} (h : Valid nonce m) {op : Op τ}
    (hs : step nonce m op = some m') : Valid nonce m' := by
  cases op with
  | put tx =>
    cases hs
    exact h.put tx
  | forward threshold =>
    cases hs
    exact (forward_spec h threshold).2.2
  | filter f =>
    cases hs
    exact (filter_spec h f).2.2
  | cap threshold =>
    obtain ⟨r, hr, rfl⟩ := Option.map_eq_some_iff.mp hs
    rcases Int.lt_or_le threshold 0 with hneg | hnn
    · rw [cap_of_neg hneg] at hr
      cases hr
    · obtain ⟨k, rfl⟩ := Int.eq_ofNat_of_zero_le hnn
      obtain ⟨r', hr', -, -, hv⟩ := cap_spec h k
      rw [hr'] at hr
      cases hr
      exact hv
  | remove n =>
    cases hs
    exact (remove_spec h n).2.2
  | ready start =>
    cases hs
    exact (ready_spec h start).2.2
  | flatten =>
    cases hs
    exact (flatten_spec h).2

theorem Reachable.valid {m : SortedMap τ} (h : Reachable nonce m) : Valid nonce m := by
  induction h with
  | new => exact valid_new
  | step _ hs ih => exact ih.step hs

/-- Every map that `Put`, `Forward`, `Filter`, `Cap`, `Remove`, `Ready` and `Flatten` build keeps
exactly its nonces in the heap, once each, and a cache, when it has one, of its transactions in
nonce order; on it, `Forward(t)` takes exactly the transactions below `t`, `Ready(s)` the run of
consecutive nonces from the least one when that is at most `s`, `Cap(k)` the transactions beyond
the first `k` (the highest first), and `Flatten` answers all of them in ascending nonce order. -/
theorem sortedMap_invariant {m : SortedMap τ} (hm : Reachable nonce m) :
    Valid nonce m ∧ (sortedValues m.items).Pairwise (fun a b => nonce a < nonce b) ∧
      (∀ threshold : Nat,
        (m.forward threshold).2 =
            (sortedValues m.items).filter (fun tx => decide (nonce tx < threshold)) ∧
          sortedValues (m.forward threshold).1.items =
            (sortedValues m.items).filter (fun tx => decide (threshold ≤ nonce tx))) ∧
      (∀ start : Nat,
        (m.ready start).2 = readyRun nonce start (sortedValues m.items) ∧
          sortedValues (m.ready start).1.items =
            (sortedValues m.items).drop (m.ready start).2.length) ∧
      (∀ k : Nat, ∃ r, m.cap k = some r ∧ r.2 = ((sortedValues m.items).drop k).reverse ∧
          sortedValues r.1.items = (sortedValues m.items).take k) ∧
      (m.flatten nonce).2 = sortedValues m.items := by
  have h := hm.valid
  refine ⟨h, sortedValues_ascending h.keyed, fun threshold => ?_, fun start => ?_, fun k => ?_,
    (flatten_spec h).1⟩
  · obtain ⟨h1, h2, -⟩ := forward_spec h threshold
    exact ⟨h1, h2⟩
  · obtain ⟨h1, h2, -⟩ := ready_spec h start
    exact ⟨h1, h2⟩
  · obtain ⟨r, hr, h1, h2, -⟩ := cap_spec h k
    exact ⟨r, hr, h1, h2⟩

/-- Two transactions put into a new map, the later one with the lower nonce. -/
theorem sortedMap_invariant_two_puts :
    let m := ((new : SortedMap Nat).put id 5).put id 3
    Reachable id m ∧ Valid id m ∧ (sortedValues m.items).Pairwise (fun a b => id a < id b) ∧
      (∀ threshold : Nat,
        (m.forward threshold).2 =
            (sortedValues m.items).filter (fun tx => decide (id tx < threshold)) ∧
          sortedValues (m.forward threshold).1.items =
            (sortedValues m.items).filter (fun tx => decide (threshold ≤ id tx))) ∧
      (∀ start : Nat,
        (m.ready start).2 = readyRun id start (sortedValues m.items) ∧
          sortedValues (m.ready start).1.items =
            (sortedValues m.items).drop (m.ready start).2.length) ∧
      (∀ k : Nat, ∃ r, m.cap k = some r ∧ r.2 = ((sortedValues m.items).drop k).reverse ∧
          sortedValues r.1.items = (sortedValues m.items).take k) ∧
      (m.flatten id).2 = sortedValues m.items :=
  have hm : Reachable id (((new : SortedMap Nat).put id 5).put id 3) :=
    .step (.step .new (rfl : step id new (.put 5) = some _)) (rfl : step id _ (.put 3) = some _)
  ⟨hm, sortedMap_invariant hm⟩

end SortedMap

/-- `txList`: an account's transactions, and caps on their cost and gas.
Source: `kernel/tx_list.go` `type txList struct` -/
structure TxList (τ : Type) where
  strict : Bool
  txs : SortedMap τ
  costcap : Nat
  gascap : Nat

namespace TxList

variable {τ : Type} [Inhabited τ] (nonce gasPrice cost gas : τ → Nat)

/-- `newTxList`.
Source: `kernel/tx_list.go` `newTxList` -/
def new (strict : Bool) : TxList τ := ⟨strict, SortedMap.new, 0, 0⟩

/-- `txList.Overlaps`.
Source: `kernel/tx_list.go` `txList.Overlaps` -/
def overlaps (l : TxList τ) (tx : τ) : Bool := (l.txs.get (nonce tx)).isSome

/-- The list as `Add` leaves it when the transaction goes in: put into the map, with the caps
raised to its cost and gas. -/
def putRaised (l : TxList τ) (tx : τ) : TxList τ :=
  { l with
    txs := l.txs.put nonce tx
    costcap := if l.costcap < cost tx then cost tx else l.costcap
    gascap := if l.gascap < gas tx then gas tx else l.gascap }

@[simp] theorem putRaised_txs (l : TxList τ) (tx : τ) :
    (l.putRaised nonce cost gas tx).txs = l.txs.put nonce tx := rfl

/-- `txList.Add`: a transaction under a taken nonce goes in only when it pays more than the old
one and at least `priceBump` percent more; the caps are raised to its cost and gas. Go converts
`priceBump` to `int64` and adds 100 in 64 bits (`Int.bmod`); `big.Int` divides as `Int` does by a
positive divisor.
Source: `kernel/tx_list.go` `txList.Add` -/
def add (l : TxList τ) (tx : τ) (priceBump : UInt64) : TxList τ × Bool × Option τ :=
  match l.txs.get (nonce tx) with
  | some old =>
    let threshold : Int := gasPrice old * (100 + priceBump.toNat : Int).bmod (2 ^ 64) / 100
    if gasPrice tx ≤ gasPrice old ∨ (gasPrice tx : Int) < threshold then (l, false, none)
    else (l.putRaised nonce cost gas tx, true, some old)
  | none => (l.putRaised nonce cost gas tx, true, none)

/-- `txList.Forward`.
Source: `kernel/tx_list.go` `txList.Forward` -/
def forward (l : TxList τ) (threshold : Nat) : TxList τ × List τ :=
  ({ l with txs := (l.txs.forward threshold).1 }, (l.txs.forward threshold).2)

/-- `Filter`'s test: the transaction costs more than `costLimit` or needs more gas than
`gasLimit`. -/
def exceeds (costLimit gasLimit : Nat) (tx : τ) : Bool :=
  decide (costLimit < cost tx) || decide (gasLimit < gas tx)

/-- `txList.Filter`: nothing when the caps are within the limits; otherwise the caps set to the
limits and the transactions over either limit taken out, and in strict mode the transactions above
the lowest nonce taken out as well (`invalids`).
Source: `kernel/tx_list.go` `txList.Filter` -/
def filter (l : TxList τ) (costLimit gasLimit : Nat) : TxList τ × List τ × List τ :=
  if l.costcap ≤ costLimit ∧ l.gascap ≤ gasLimit then (l, [], [])
  else
    let r := l.txs.filter (exceeds cost gas costLimit gasLimit)
    if l.strict ∧ 0 < r.2.length then
      let lowest := r.2.foldl (fun lowest tx => if nonce tx < lowest then nonce tx else lowest)
        (2 ^ 64 - 1)
      let invalids := r.1.filter fun tx => decide (lowest < nonce tx)
      ({ l with txs := invalids.1, costcap := costLimit, gascap := gasLimit }, r.2, invalids.2)
    else ({ l with txs := r.1, costcap := costLimit, gascap := gasLimit }, r.2, [])

/-- `txList.Cap`.
Source: `kernel/tx_list.go` `txList.Cap` -/
def cap (l : TxList τ) (threshold : Int) : Option (TxList τ × List τ) :=
  (l.txs.cap threshold).map fun r => ({ l with txs := r.1 }, r.2)

/-- `txList.Remove`: in strict mode the transactions above the removed nonce go as well.
Source: `kernel/tx_list.go` `txList.Remove` -/
def remove (l : TxList τ) (tx : τ) : TxList τ × Bool × List τ :=
  let r := l.txs.remove (nonce tx)
  if !r.2 then (l, false, [])
  else if l.strict then
    let invalids := r.1.filter fun t => decide (nonce tx < nonce t)
    ({ l with txs := invalids.1 }, true, invalids.2)
  else ({ l with txs := r.1 }, true, [])

/-- `txList.Ready`.
Source: `kernel/tx_list.go` `txList.Ready` -/
def ready (l : TxList τ) (start : Nat) : TxList τ × List τ :=
  ({ l with txs := (l.txs.ready start).1 }, (l.txs.ready start).2)

/-- `txList.Len`.
Source: `kernel/tx_list.go` `txList.Len` -/
def len (l : TxList τ) : Nat := l.txs.len

/-- `txList.Empty`.
Source: `kernel/tx_list.go` `txList.Empty` -/
def empty (l : TxList τ) : Bool := l.len == 0

/-- `txList.Flatten`.
Source: `kernel/tx_list.go` `txList.Flatten` -/
def flatten (l : TxList τ) : TxList τ × List τ :=
  ({ l with txs := (l.txs.flatten nonce).1 }, (l.txs.flatten nonce).2)

/-- What `Filter` is to do, without its early return, to the transactions in nonce order: take
those over either limit, and in strict mode, when there are any, those above the lowest of their
nonces; answered as what stays, what is removed and what is invalidated. -/
def plainFilter (txs : List τ) (strict : Bool) (costLimit gasLimit : Nat) :
    List τ × List τ × List τ :=
  let removed := txs.filter (exceeds cost gas costLimit gasLimit)
  match strict, (removed.map nonce).min? with
  | true, some lowest =>
    (txs.filter fun tx => !decide (lowest < nonce tx) && !exceeds cost gas costLimit gasLimit tx,
      removed, txs.filter fun tx => decide (lowest < nonce tx) && !exceeds cost gas costLimit gasLimit tx)
  | _, _ => (txs.filter fun tx => !exceeds cost gas costLimit gasLimit tx, removed, [])

/-- `txList`'s invariant: its map keeps `txSortedMap`'s, and the caps bound the cost and gas of
every transaction it holds. -/
structure Valid (l : TxList τ) : Prop where
  txs : SortedMap.Valid nonce l.txs
  bounded : ∀ tx ∈ sortedValues l.txs.items, cost tx ≤ l.costcap ∧ gas tx ≤ l.gascap

variable {nonce gasPrice cost gas}

/-! ### The lowest nonce -/

/-- The scan for the lowest nonce keeps a bound below every nonce it meets. -/
theorem foldl_lowest_keep :
    ∀ (txs : List τ) (x : Nat), (∀ tx ∈ txs, x < nonce tx) →
      txs.foldl (fun lowest tx => if nonce tx < lowest then nonce tx else lowest) x = x
  | [], _, _ => rfl
  | tx :: txs, x, hx => by
    rw [List.foldl_cons, if_neg (Nat.not_lt.mpr (Nat.le_of_lt (hx tx (List.mem_cons_self ..))))]
    exact foldl_lowest_keep txs x fun t ht => hx t (List.mem_cons_of_mem _ ht)

/-- Over transactions in ascending nonce order, the scan for the lowest nonce from a start at or
above the first one ends at the first one's nonce. -/
theorem foldl_lowest_eq {tx : τ} {txs : List τ}
    (hsorted : (tx :: txs).Pairwise fun a b => nonce a < nonce b) {x : Nat} (hx : nonce tx ≤ x) :
    (tx :: txs).foldl (fun lowest t => if nonce t < lowest then nonce t else lowest) x = nonce tx := by
  have hfirst : (if nonce tx < x then nonce tx else x) = nonce tx := by
    split_ifs with hlt
    · rfl
    · omega
  rw [List.foldl_cons, hfirst]
  exact foldl_lowest_keep txs (nonce tx) (List.pairwise_cons.mp hsorted).1

/-- The lowest nonce of transactions in ascending nonce order is the first one's. -/
theorem min?_nonce {tx : τ} {txs : List τ}
    (hsorted : (tx :: txs).Pairwise fun a b => nonce a < nonce b) :
    ((tx :: txs).map nonce).min? = some (nonce tx) := by
  rw [List.min?_eq_some_iff]
  refine ⟨List.mem_map_of_mem (List.mem_cons_self ..), fun b hb => ?_⟩
  obtain ⟨t, ht, rfl⟩ := List.mem_map.mp hb
  rcases List.mem_cons.mp ht with rfl | ht
  · exact le_rfl
  · exact Nat.le_of_lt ((List.pairwise_cons.mp hsorted).1 t ht)

/-! ### What each operation does to the caps -/

section Operations

variable {l : TxList τ}

/-- A list whose map keeps the invariant and holds only transactions the caps already bound keeps
its invariant. -/
theorem Valid.of_subset (h : Valid nonce cost gas l) {txs : SortedMap τ}
    (hv : SortedMap.Valid nonce txs)
    (hsub : ∀ tx ∈ sortedValues txs.items, tx ∈ sortedValues l.txs.items) :
    Valid nonce cost gas { l with txs } :=
  ⟨hv, fun tx htx => h.bounded tx (hsub tx htx)⟩

theorem add_fst (l : TxList τ) (tx : τ) (priceBump : UInt64) :
    (l.add nonce gasPrice cost gas tx priceBump).1 = l ∨
      (l.add nonce gasPrice cost gas tx priceBump).1 = l.putRaised nonce cost gas tx := by
  simp only [TxList.add]
  split
  · split_ifs
    · exact Or.inl rfl
    · exact Or.inr rfl
  · exact Or.inr rfl

theorem Valid.putRaised (h : Valid nonce cost gas l) (tx : τ) :
    Valid nonce cost gas (l.putRaised nonce cost gas tx) := by
  refine ⟨h.txs.put tx, fun t ht => ?_⟩
  show cost t ≤ (if l.costcap < cost tx then cost tx else l.costcap) ∧
    gas t ≤ (if l.gascap < gas tx then gas tx else l.gascap)
  obtain ⟨n, hn⟩ := mem_sortedValues.mp ht
  rw [putRaised_txs, SortedMap.put_items, finmap_lookup_insert] at hn
  split_ifs at hn with hnt
  · -- the transaction put in is within the raised caps
    cases hn
    constructor <;> split_ifs <;> omega
  · -- one held before is within the old caps
    have hb := h.bounded t (mem_sortedValues.mpr ⟨n, hn⟩)
    constructor <;> split_ifs <;> omega

theorem Valid.add (h : Valid nonce cost gas l) (tx : τ) (priceBump : UInt64) :
    Valid nonce cost gas (l.add nonce gasPrice cost gas tx priceBump).1 := by
  rcases add_fst l tx priceBump with heq | heq <;> rw [heq]
  · exact h
  · exact h.putRaised tx

theorem Valid.forward (h : Valid nonce cost gas l) (threshold : Nat) :
    Valid nonce cost gas (l.forward threshold).1 := by
  obtain ⟨-, h2, hv⟩ := SortedMap.forward_spec h.txs threshold
  exact h.of_subset hv fun tx htx => by
    rw [h2] at htx
    exact List.mem_of_mem_filter htx

theorem Valid.ready (h : Valid nonce cost gas l) (start : Nat) :
    Valid nonce cost gas (l.ready start).1 := by
  obtain ⟨-, h2, hv⟩ := SortedMap.ready_spec h.txs start
  exact h.of_subset hv fun tx htx => by
    rw [h2] at htx
    exact List.mem_of_mem_drop htx

theorem Valid.cap (h : Valid nonce cost gas l) {threshold : Int} {r : TxList τ × List τ}
    (hr : l.cap threshold = some r) : Valid nonce cost gas r.1 := by
  obtain ⟨r', hr', rfl⟩ := Option.map_eq_some_iff.mp hr
  rcases Int.lt_or_le threshold 0 with hneg | hnn
  · rw [SortedMap.cap_of_neg hneg] at hr'
    cases hr'
  · obtain ⟨k, rfl⟩ := Int.eq_ofNat_of_zero_le hnn
    obtain ⟨r'', hr'', -, h2, hv⟩ := SortedMap.cap_spec h.txs k
    rw [hr''] at hr'
    cases hr'
    exact h.of_subset hv fun tx htx => by
      rw [h2] at htx
      exact List.mem_of_mem_take htx

theorem Valid.remove (h : Valid nonce cost gas l) (tx : τ) :
    Valid nonce cost gas (l.remove nonce tx).1 := by
  obtain ⟨-, hlookup, hv⟩ := SortedMap.remove_spec h.txs (nonce tx)
  -- what the map keeps after the removal it held before
  have hsub : ∀ t ∈ sortedValues (l.txs.remove (nonce tx)).1.items, t ∈ sortedValues l.txs.items := by
    intro t ht
    obtain ⟨k, hk⟩ := mem_sortedValues.mp ht
    rw [hlookup] at hk
    split_ifs at hk
    exact mem_sortedValues.mpr ⟨k, hk⟩
  simp only [TxList.remove]
  split_ifs
  · exact h
  · obtain ⟨-, h2, hv'⟩ := SortedMap.filter_spec hv fun t => decide (nonce tx < nonce t)
    exact h.of_subset hv' fun t ht => by
      rw [h2] at ht
      exact hsub t (List.mem_of_mem_filter ht)
  · exact h.of_subset hv hsub

theorem exceeds_eq_false {costLimit gasLimit : Nat} {tx : τ} :
    exceeds cost gas costLimit gasLimit tx = false ↔ cost tx ≤ costLimit ∧ gas tx ≤ gasLimit := by
  rw [exceeds, Bool.or_eq_false_iff, decide_eq_false_iff_not, decide_eq_false_iff_not, Nat.not_lt,
    Nat.not_lt]

/-- The plain filter invalidates nothing outside strict mode or when nothing exceeds the limits. -/
theorem plainFilter_of_nil {txs : List τ} {strict : Bool} {costLimit gasLimit : Nat}
    (h : txs.filter (exceeds cost gas costLimit gasLimit) = [] ∨ strict = false) :
    plainFilter nonce cost gas txs strict costLimit gasLimit =
      (txs.filter fun tx => !exceeds cost gas costLimit gasLimit tx,
        txs.filter (exceeds cost gas costLimit gasLimit), []) := by
  rcases h with h | h
  · simp only [plainFilter, h, List.map_nil, List.min?_nil]
  · subst h
    rfl

/-- In strict mode the plain filter invalidates what lies above the first nonce it removes. -/
theorem plainFilter_of_cons {txs : List τ} {strict : Bool} {costLimit gasLimit : Nat} {tx0 : τ}
    {rest : List τ} (hs : strict = true)
    (h : txs.filter (exceeds cost gas costLimit gasLimit) = tx0 :: rest)
    (hsorted : (tx0 :: rest).Pairwise fun a b => nonce a < nonce b) :
    plainFilter nonce cost gas txs strict costLimit gasLimit =
      (txs.filter fun tx => !decide (nonce tx0 < nonce tx) && !exceeds cost gas costLimit gasLimit tx,
        tx0 :: rest,
        txs.filter fun tx => decide (nonce tx0 < nonce tx) && !exceeds cost gas costLimit gasLimit tx) := by
  subst hs
  simp only [plainFilter, h, min?_nonce hsorted]

/-- What a filter by `exceeds` keeps is within the limits. -/
theorem within_of_mem_filter {txs : List τ} {p : τ → Bool} {costLimit gasLimit : Nat} {tx : τ}
    (h : tx ∈ txs.filter fun t => p t && !exceeds cost gas costLimit gasLimit t) :
    cost tx ≤ costLimit ∧ gas tx ≤ gasLimit := by
  rw [List.mem_filter, Bool.and_eq_true, Bool.not_eq_true'] at h
  exact exceeds_eq_false.mp h.2.2

/-- `Filter` answers what the plain filter computes, and leaves a list whose caps are its limits
or, on the early return, the caps it had. -/
theorem filter_spec (h : Valid nonce cost gas l) (hnonce : ∀ tx, nonce tx < 2 ^ 64)
    (costLimit gasLimit : Nat) :
    (sortedValues (l.filter nonce cost gas costLimit gasLimit).1.txs.items,
        (l.filter nonce cost gas costLimit gasLimit).2) =
      plainFilter nonce cost gas (sortedValues l.txs.items) l.strict costLimit gasLimit ∧
      Valid nonce cost gas (l.filter nonce cost gas costLimit gasLimit).1 := by
  have hsorted := SortedMap.sortedValues_ascending h.txs.keyed
  by_cases hfast : l.costcap ≤ costLimit ∧ l.gascap ≤ gasLimit
  · -- within the caps nothing exceeds the limits
    have hnone : ∀ tx ∈ sortedValues l.txs.items, exceeds cost gas costLimit gasLimit tx = false :=
      fun tx htx => exceeds_eq_false.mpr (by have := h.bounded tx htx; omega)
    have hremoved : (sortedValues l.txs.items).filter (exceeds cost gas costLimit gasLimit) = [] :=
      List.filter_eq_nil_iff.mpr fun tx htx => by simp [hnone tx htx]
    have hkept : (sortedValues l.txs.items).filter (fun tx => !exceeds cost gas costLimit gasLimit tx) =
        sortedValues l.txs.items :=
      List.filter_eq_self.mpr fun tx htx => by simp [hnone tx htx]
    have hfilter : l.filter nonce cost gas costLimit gasLimit = (l, [], []) := if_pos hfast
    rw [hfilter, plainFilter_of_nil (Or.inl hremoved), hremoved, hkept]
    exact ⟨rfl, h⟩
  -- past the caps, the map is filtered and the caps are set to the limits
  obtain ⟨r1, r2, hr⟩ := SortedMap.filter_spec h.txs (exceeds cost gas costLimit gasLimit)
  by_cases hstrict : l.strict = true ∧ 0 < (l.txs.filter (exceeds cost gas costLimit gasLimit)).2.length
  · -- the lowest removed nonce is the first removed transaction's
    obtain ⟨tx0, rest, hcons⟩ := List.exists_cons_of_length_pos hstrict.2
    rw [r1] at hcons
    have hsorted' : (tx0 :: rest).Pairwise fun a b => nonce a < nonce b := by
      rw [← hcons]
      exact hsorted.filter _
    have hlowest := foldl_lowest_eq hsorted' (x := 2 ^ 64 - 1) (by have := hnonce tx0; omega)
    obtain ⟨i1, i2, hi⟩ := SortedMap.filter_spec hr fun tx => decide (nonce tx0 < nonce tx)
    have hfilter : l.filter nonce cost gas costLimit gasLimit =
        ({ l with
            txs := ((l.txs.filter (exceeds cost gas costLimit gasLimit)).1.filter
              fun tx => decide (nonce tx0 < nonce tx)).1
            costcap := costLimit
            gascap := gasLimit },
          (l.txs.filter (exceeds cost gas costLimit gasLimit)).2,
          ((l.txs.filter (exceeds cost gas costLimit gasLimit)).1.filter
            fun tx => decide (nonce tx0 < nonce tx)).2) := by
      rw [filter, if_neg hfast, if_pos hstrict, r1, hcons, hlowest]
    rw [hfilter, plainFilter_of_cons hstrict.1 hcons hsorted', r1, hcons]
    refine ⟨?_, hi, fun tx htx => ?_⟩
    · rw [i1, i2, r2, List.filter_filter, List.filter_filter]
    · rw [i2, r2, List.filter_filter] at htx
      exact within_of_mem_filter htx
  · have hfilter : l.filter nonce cost gas costLimit gasLimit =
        ({ l with
            txs := (l.txs.filter (exceeds cost gas costLimit gasLimit)).1
            costcap := costLimit
            gascap := gasLimit },
          (l.txs.filter (exceeds cost gas costLimit gasLimit)).2, []) := by
      rw [filter, if_neg hfast, if_neg hstrict]
    -- not strict, or nothing removed: the plain filter invalidates nothing
    have hnil : (sortedValues l.txs.items).filter (exceeds cost gas costLimit gasLimit) = [] ∨
        l.strict = false := by
      rcases Bool.eq_false_or_eq_true l.strict with hs | hs
      · exact Or.inl (by rw [← r1]; exact List.length_eq_zero_iff.mp (by simp only [hs, true_and] at hstrict; omega))
      · exact Or.inr hs
    rw [hfilter, plainFilter_of_nil hnil, r1]
    refine ⟨by rw [r2], hr, fun tx htx => ?_⟩
    rw [r2, List.mem_filter, Bool.not_eq_true'] at htx
    exact exceeds_eq_false.mp htx.2

end Operations

/-! ### Runs -/

/-- The operations of `txList` that change it. -/
inductive Op (τ : Type) where
  | add (tx : τ) (priceBump : UInt64)
  | forward (threshold : Nat)
  | filter (costLimit gasLimit : Nat)
  | cap (threshold : Int)
  | remove (tx : τ)
  | ready (start : Nat)
  | flatten

variable (nonce gasPrice cost gas) in
/-- The list after one operation; `none` where Go panics. -/
def step (l : TxList τ) : Op τ → Option (TxList τ)
  | .add tx priceBump => some (l.add nonce gasPrice cost gas tx priceBump).1
  | .forward threshold => some (l.forward threshold).1
  | .filter costLimit gasLimit => some (l.filter nonce cost gas costLimit gasLimit).1
  | .cap threshold => (l.cap threshold).map Prod.fst
  | .remove tx => some (l.remove nonce tx).1
  | .ready start => some (l.ready start).1
  | .flatten => some (l.flatten nonce).1

variable (nonce gasPrice cost gas) in
/-- The lists that a sequence of operations builds from a new one. -/
inductive Reachable : TxList τ → Prop
  | new (strict : Bool) : Reachable (new strict)
  | step {l l' : TxList τ} {op : Op τ} :
      Reachable l → step nonce gasPrice cost gas l op = some l' → Reachable l'

theorem valid_new (strict : Bool) : Valid nonce cost gas (new strict : TxList τ) :=
  ⟨SortedMap.valid_new, fun tx htx => by simp [new, SortedMap.new] at htx⟩

theorem Valid.step {l l' : TxList τ} (h : Valid nonce cost gas l) (hnonce : ∀ tx, nonce tx < 2 ^ 64)
    {op : Op τ} (hs : step nonce gasPrice cost gas l op = some l') : Valid nonce cost gas l' := by
  cases op with
  | add tx priceBump =>
    cases hs
    exact h.add tx priceBump
  | forward threshold =>
    cases hs
    exact h.forward threshold
  | filter costLimit gasLimit =>
    cases hs
    exact (filter_spec h hnonce costLimit gasLimit).2
  | cap threshold =>
    obtain ⟨r, hr, rfl⟩ := Option.map_eq_some_iff.mp hs
    exact h.cap hr
  | remove tx =>
    cases hs
    exact h.remove tx
  | ready start =>
    cases hs
    exact h.ready start
  | flatten =>
    cases hs
    exact h.of_subset (SortedMap.flatten_spec h.txs).2 fun _ htx => htx

theorem Reachable.valid {l : TxList τ} (h : Reachable nonce gasPrice cost gas l)
    (hnonce : ∀ tx, nonce tx < 2 ^ 64) : Valid nonce cost gas l := by
  induction h with
  | new strict => exact valid_new strict
  | step _ hs ih => exact ih.step hnonce hs

/-- On every list that `Add`, `Filter`, `Forward`, `Cap`, `Remove`, `Ready` and `Flatten` build, the caps bound
the cost and gas of every transaction held, so `Filter` answers what the plain filter computes
(the transactions over either limit, and in strict mode those above the lowest nonce among them),
and its early return is taken only when the plain filter would remove nothing. -/
theorem filter_agrees_plain {l : TxList τ} (hl : Reachable nonce gasPrice cost gas l)
    (hnonce : ∀ tx, nonce tx < 2 ^ 64) (costLimit gasLimit : Nat) :
    (∀ tx ∈ sortedValues l.txs.items, cost tx ≤ l.costcap ∧ gas tx ≤ l.gascap) ∧
      (sortedValues (l.filter nonce cost gas costLimit gasLimit).1.txs.items,
          (l.filter nonce cost gas costLimit gasLimit).2) =
        plainFilter nonce cost gas (sortedValues l.txs.items) l.strict costLimit gasLimit ∧
      (l.costcap ≤ costLimit ∧ l.gascap ≤ gasLimit →
        (plainFilter nonce cost gas (sortedValues l.txs.items) l.strict costLimit gasLimit).2.1 = []) := by
  have h := hl.valid hnonce
  refine ⟨h.bounded, (filter_spec h hnonce costLimit gasLimit).1, fun hfast => ?_⟩
  -- within the caps nothing exceeds the limits
  have hnil : (sortedValues l.txs.items).filter (exceeds cost gas costLimit gasLimit) = [] :=
    List.filter_eq_nil_iff.mpr fun tx htx => by
      have := h.bounded tx htx
      rw [exceeds_eq_false.mpr (by omega)]
      exact Bool.false_ne_true
  rw [plainFilter_of_nil (Or.inl hnil), hnil]

/-- A strict list that took one transaction, a nonce below `2 ^ 64` read as its own gas price,
cost and gas. -/
theorem filter_agrees_plain_added :
    let l := ((new true : TxList (Fin (2 ^ 64))).add Fin.val Fin.val Fin.val Fin.val 7 10).1
    Reachable Fin.val Fin.val Fin.val Fin.val l ∧ (∀ tx : Fin (2 ^ 64), tx.val < 2 ^ 64) ∧
      (∀ tx ∈ sortedValues l.txs.items, tx.val ≤ l.costcap ∧ tx.val ≤ l.gascap) ∧
      (sortedValues (l.filter Fin.val Fin.val Fin.val 5 5).1.txs.items,
          (l.filter Fin.val Fin.val Fin.val 5 5).2) =
        plainFilter Fin.val Fin.val Fin.val (sortedValues l.txs.items) l.strict 5 5 ∧
      (l.costcap ≤ 5 ∧ l.gascap ≤ 5 →
        (plainFilter Fin.val Fin.val Fin.val (sortedValues l.txs.items) l.strict 5 5).2.1 = []) :=
  have hl : Reachable Fin.val Fin.val Fin.val Fin.val
      ((new true : TxList (Fin (2 ^ 64))).add Fin.val Fin.val Fin.val Fin.val 7 10).1 :=
    .step (.new true) (rfl : step Fin.val Fin.val Fin.val Fin.val _ (.add 7 10) = some _)
  ⟨hl, fun tx => tx.isLt, filter_agrees_plain hl (fun tx => tx.isLt) 5 5⟩

end TxList

end EpvChain.Core
