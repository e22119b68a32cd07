import Mathlib

/-!
# Go's `container/heap` over an array

`container/heap` keeps a slice in heap order through `Len`, `Less`, `Swap`, `Push` and `Pop`.
Here the slice is an `Array`, `Less(i, j)` compares keys in a linear order, `Swap` is
`Array.swapIfInBounds`, and indexing is `a[i]!`. The loops of `up` and `down` take as much fuel
as positions they can visit, so they stop where Go's loops stop. The functions follow Go 1.10,
where `down` reports whether the entry moved and `Remove` and `Fix` sift up only when it did not.

* `Ordered key a n`, `Ordered.root_le` — heap order below `n`; the root has the least key.
* `push_ordered`, `pop_ordered`, `remove_ordered`, `fix_zero_ordered`, `init_ordered` — the
  operations keep the order or make it.
* `push_perm`, `pop_perm`, `remove_perm`, `fix_perm`, `init_perm` — they only move entries;
  `pop_fst`, `remove_fst` say what they answer.

The sifts carry the order except at one position, the hole (`UpReady`, `DownReady`).
-/

namespace EpvChain.Lib.Heap

variable {α β : Type*} [Inhabited α] [LinearOrder β] (key : α → β)

/-- The position of `j`'s parent, `(j - 1) / 2`. -/
def parent (j : Nat) : Nat := (j - 1) / 2

/-- `h.Less(i, j)`. -/
def less (a : Array α) (i j : Nat) : Bool := decide (key a[i]! < key a[j]!)

/-- The loop of `up`: while `j` is not the root and its entry is less than its parent's, swap
the two and go on from the parent. -/
def upLoop : Nat → Array α → Nat → Array α
  | 0, a, _ => a
  | fuel + 1, a, j =>
    if j = 0 then a
    else if less key a j (parent j) then upLoop fuel (a.swapIfInBounds (parent j) j) (parent j)
    else a

/-- `up(h, j)`. -/
def up (a : Array α) (j : Nat) : Array α := upLoop key j a j

/-- The child of `i` that `down` compares with `i`'s entry: the right one only when it is below
`n` and less than the left one. -/
def lesser (a : Array α) (i n : Nat) : Nat :=
  if 2 * i + 2 < n && less key a (2 * i + 2) (2 * i + 1) then 2 * i + 2 else 2 * i + 1

/-- The loop of `down` within the first `n` positions: while `i` has a child below `n` and the
lesser child is less than `i`'s entry, swap the two and go on from the child. It answers the
array and where the entry stopped. -/
def downLoop (n : Nat) : Nat → Array α → Nat → Array α × Nat
  | 0, a, i => (a, i)
  | fuel + 1, a, i =>
    if n ≤ 2 * i + 1 then (a, i)
    else if less key a (lesser key a i n) i then
      downLoop n fuel (a.swapIfInBounds i (lesser key a i n)) (lesser key a i n)
    else (a, i)

/-- `down(h, i0, n)`: the array, and whether the entry moved. -/
def down (a : Array α) (i0 n : Nat) : Array α × Bool :=
  let r := downLoop key n n a i0
  (r.1, decide (i0 < r.2))

/-- `heap.Init`: `down` from every position that has a child, the last first. -/
def init (a : Array α) : Array α :=
  let n := a.size
  (List.range (n / 2)).reverse.foldl (fun b i => (down key b i n).1) a

/-- `heap.Push`: append, then `up` from the new last position. -/
def push (a : Array α) (x : α) : Array α := up key (a.push x) a.size

/-- `heap.Pop`: swap the root to the end, `down` from the root over the rest, and take the last
entry off. Go panics on an empty heap. -/
def pop (a : Array α) : Option (α × Array α) :=
  if a.size = 0 then none
  else
    let n := a.size - 1
    let b := (down key (a.swapIfInBounds 0 n) 0 n).1
    some (b[n]!, b.pop)

/-- `heap.Remove(h, i)`: swap `i` to the end, `down` from `i`, and `up` from `i` if it did not
move, then take the last entry off. Go panics on a position out of range. -/
def remove (a : Array α) (i : Nat) : Option (α × Array α) :=
  if a.size ≤ i then none
  else
    let n := a.size - 1
    let b :=
      if n = i then a
      else
        let r := down key (a.swapIfInBounds i n) i n
        if r.2 then r.1 else up key r.1 i
    some (b[n]!, b.pop)

/-- `heap.Fix(h, i)`: `down` from `i`, and `up` from `i` if it did not move. -/
def fix (a : Array α) (i : Nat) : Array α :=
  let r := down key a i a.size
  if r.2 then r.1 else up key r.1 i

/-! ### Positions and entries -/

theorem parent_lt {k : Nat} (hk : 0 < k) : parent k < k := by
  unfold parent; omega

theorem parent_eq_iff {c i : Nat} (hc : 0 < c) : parent c = i ↔ c = 2 * i + 1 ∨ c = 2 * i + 2 := by
  unfold parent; omega

omit [Inhabited α] in
theorem swapIfInBounds_perm (a : Array α) (i j : Nat) :
    (a.swapIfInBounds i j).toList.Perm a.toList := by
  rw [← Array.perm_iff_toList_perm]
  unfold Array.swapIfInBounds
  split
  · split
    · exact Array.swap_perm ‹_› ‹_›
    · exact Array.Perm.refl a
  · exact Array.Perm.refl a

theorem getElem!_swap_left {a : Array α} {i j : Nat} (hi : i < a.size) (hj : j < a.size) :
    (a.swapIfInBounds i j)[i]! = a[j]! := by
  rw [getElem!_pos (a.swapIfInBounds i j) i (by simpa using hi), getElem!_pos a j hj,
    Array.getElem_swapIfInBounds_left hj]

theorem getElem!_swap_right {a : Array α} {i j : Nat} (hi : i < a.size) (hj : j < a.size) :
    (a.swapIfInBounds i j)[j]! = a[i]! := by
  rw [getElem!_pos (a.swapIfInBounds i j) j (by simpa using hj), getElem!_pos a i hi,
    Array.getElem_swapIfInBounds_right hi]

theorem getElem!_swap_of_ne {a : Array α} {i j k : Nat} (hki : k ≠ i) (hkj : k ≠ j) :
    (a.swapIfInBounds i j)[k]! = a[k]! := by
  by_cases hk : k < a.size
  · rw [getElem!_pos (a.swapIfInBounds i j) k (by simpa using hk), getElem!_pos a k hk,
      Array.getElem_swapIfInBounds_of_ne_of_ne hki hkj]
  · rw [getElem!_neg (a.swapIfInBounds i j) k (by simpa using hk), getElem!_neg a k hk]

theorem getElem!_setIfInBounds_ne {a : Array α} {i k : Nat} {x : α} (hki : k ≠ i) :
    (a.setIfInBounds i x)[k]! = a[k]! := by
  by_cases hk : k < a.size
  · rw [getElem!_pos (a.setIfInBounds i x) k (by simpa using hk), getElem!_pos a k hk,
      Array.getElem_setIfInBounds_ne hk (Ne.symm hki)]
  · rw [getElem!_neg (a.setIfInBounds i x) k (by simpa using hk), getElem!_neg a k hk]

theorem getElem!_push_lt {a : Array α} {x : α} {k : Nat} (hk : k < a.size) :
    (a.push x)[k]! = a[k]! := by
  rw [getElem!_pos (a.push x) k (by simp; omega), getElem!_pos a k hk, Array.getElem_push_lt]

theorem getElem!_pop {a : Array α} {k : Nat} (hk : k < a.size - 1) : a.pop[k]! = a[k]! := by
  rw [getElem!_pos a.pop k (by simpa using hk), getElem!_pos a k (by omega), Array.getElem_pop]

/-- An array is its `pop` and then its last entry. -/
theorem toList_eq_pop_append {a : Array α} (h : a.size ≠ 0) :
    a.toList = a.pop.toList ++ [a[a.size - 1]!] := by
  have hne : a.toList ≠ [] := by
    rw [ne_eq, ← List.length_eq_zero_iff, Array.length_toList]
    exact h
  rw [Array.toList_pop, getElem!_pos a (a.size - 1) (by omega), ← Array.getElem_toList]
  conv_lhs => rw [← List.dropLast_append_getLast hne]
  rw [List.getLast_eq_getElem]
  simp

theorem less_eq_true {a : Array α} {i j : Nat} : less key a i j = true ↔ key a[i]! < key a[j]! :=
  decide_eq_true_iff

theorem less_eq_false {a : Array α} {i j : Nat} :
    less key a i j = false ↔ key a[j]! ≤ key a[i]! := by
  rw [less, decide_eq_false_iff_not, not_lt]

theorem parent_lesser (a : Array α) (i n : Nat) : parent (lesser key a i n) = i := by
  unfold lesser parent
  split <;> omega

theorem lt_lesser (a : Array α) (i n : Nat) : i < lesser key a i n := by
  unfold lesser
  split <;> omega

theorem lesser_lt {a : Array α} {i n : Nat} (h : 2 * i + 1 < n) : lesser key a i n < n := by
  unfold lesser
  split
  · rename_i hr
    simp only [Bool.and_eq_true, decide_eq_true_eq] at hr
    exact hr.1
  · exact h

/-- The lesser child's key is at most the key of every child below `n`. -/
theorem lesser_le {a : Array α} {i n c : Nat} (hc0 : 0 < c) (hcn : c < n) (hci : parent c = i) :
    key a[lesser key a i n]! ≤ key a[c]! := by
  rcases (parent_eq_iff hc0).mp hci with rfl | rfl
  · unfold lesser
    split
    · rename_i hr
      simp only [Bool.and_eq_true, decide_eq_true_eq] at hr
      exact ((less_eq_true key).mp hr.2).le
    · exact le_rfl
  · unfold lesser
    split
    · exact le_rfl
    · rename_i hr
      simp only [Bool.and_eq_true, decide_eq_true_eq, not_and] at hr
      exact (less_eq_false key).mp (by simpa using hr hcn)

/-! ### What the loops move -/

theorem upLoop_perm :
    ∀ (fuel : Nat) (a : Array α) (j : Nat), (upLoop key fuel a j).toList.Perm a.toList
  | 0, a, j => by rw [upLoop]
  | fuel + 1, a, j => by
    rw [upLoop]
    split_ifs
    · exact List.Perm.refl _
    · exact (upLoop_perm fuel _ _).trans (swapIfInBounds_perm a _ _)
    · exact List.Perm.refl _

/-- `up` swaps only `j` and positions before it. -/
theorem upLoop_frame :
    ∀ (fuel : Nat) (a : Array α) (j k : Nat), j < k → (upLoop key fuel a j)[k]! = a[k]!
  | 0, a, j, k, _ => by rw [upLoop]
  | fuel + 1, a, j, k, hjk => by
    rw [upLoop]
    split_ifs with h0
    · rfl
    · have hp := parent_lt (Nat.pos_of_ne_zero h0)
      rw [upLoop_frame fuel _ _ k (by omega), getElem!_swap_of_ne (by omega) (by omega)]
    · rfl

theorem downLoop_perm (n : Nat) :
    ∀ (fuel : Nat) (a : Array α) (i : Nat), (downLoop key n fuel a i).1.toList.Perm a.toList
  | 0, a, i => by rw [downLoop]
  | fuel + 1, a, i => by
    rw [downLoop]
    split_ifs
    · exact List.Perm.refl _
    · exact (downLoop_perm n fuel _ _).trans (swapIfInBounds_perm a _ _)
    · exact List.Perm.refl _

theorem size_downLoop (n fuel : Nat) (a : Array α) (i : Nat) :
    (downLoop key n fuel a i).1.size = a.size := by
  simpa using (downLoop_perm key n fuel a i).length_eq

/-- `down` within `n` swaps only positions below `n`. -/
theorem downLoop_frame (n : Nat) :
    ∀ (fuel : Nat) (a : Array α) (i k : Nat), n ≤ k → (downLoop key n fuel a i).1[k]! = a[k]!
  | 0, a, i, k, _ => by rw [downLoop]
  | fuel + 1, a, i, k, hk => by
    rw [downLoop]
    split_ifs with hleaf
    · rfl
    · have hjn : lesser key a i n < n := lesser_lt key (by omega)
      have hij := lt_lesser key a i n
      rw [downLoop_frame n fuel _ _ k hk, getElem!_swap_of_ne (by omega) (by omega)]
    · rfl

/-- Where `down` stops is at or after where it started, and it changed nothing if it did not
move. -/
theorem downLoop_stop (n : Nat) :
    ∀ (fuel : Nat) (a : Array α) (i : Nat),
      i ≤ (downLoop key n fuel a i).2 ∧
        ((downLoop key n fuel a i).2 = i → (downLoop key n fuel a i).1 = a)
  | 0, a, i => by
    rw [downLoop]
    exact ⟨Nat.le_refl _, fun _ => rfl⟩
  | fuel + 1, a, i => by
    rw [downLoop]
    split_ifs with hleaf
    · exact ⟨Nat.le_refl _, fun _ => rfl⟩
    · have hij := lt_lesser key a i n
      obtain ⟨hle, -⟩ :=
        downLoop_stop n fuel (a.swapIfInBounds i (lesser key a i n)) (lesser key a i n)
      exact ⟨by omega, fun h => absurd h (by omega)⟩
    · exact ⟨Nat.le_refl _, fun _ => rfl⟩

theorem down_eq_of_not_moved {a : Array α} {i n : Nat} (h : (down key a i n).2 = false) :
    (down key a i n).1 = a := by
  have := downLoop_stop key n n a i
  simp only [down, decide_eq_false_iff_not] at h ⊢
  exact this.2 (by omega)

/-! ### Heap order -/

/-- No entry below position `n` has a key smaller than its parent's. -/
def Ordered (a : Array α) (n : Nat) : Prop :=
  ∀ k, 0 < k → k < n → key a[parent k]! ≤ key a[k]!

/-- The heap order among the positions whose parent is at `lo` or later: the subtrees rooted
from `lo` on. -/
def OrderedFrom (a : Array α) (lo n : Nat) : Prop :=
  ∀ k, 0 < k → k < n → lo ≤ parent k → key a[parent k]! ≤ key a[k]!

/-- What `up` needs at `j`: the order holds at every position but `j`, and `j`'s parent is at or
before `j`'s children. -/
structure UpReady (a : Array α) (j n : Nat) : Prop where
  except : ∀ k, 0 < k → k < n → k ≠ j → key a[parent k]! ≤ key a[k]!
  grand : 0 < j → ∀ c, 0 < c → c < n → parent c = j → key a[parent j]! ≤ key a[c]!

/-- What `down` needs at `i`, among the subtrees rooted from `lo` on: the order holds at every
position but `i`'s children, and `i`'s parent is at or before them. -/
structure DownReady (a : Array α) (i lo n : Nat) : Prop where
  except : ∀ k, 0 < k → k < n → lo ≤ parent k → parent k ≠ i → key a[parent k]! ≤ key a[k]!
  grand : 0 < i → lo ≤ parent i → ∀ c, 0 < c → c < n → parent c = i →
    key a[parent i]! ≤ key a[c]!

theorem orderedFrom_zero {a : Array α} {n : Nat} : OrderedFrom key a 0 n ↔ Ordered key a n :=
  ⟨fun h k hk0 hkn => h k hk0 hkn (Nat.zero_le _), fun h k hk0 hkn _ => h k hk0 hkn⟩

/-- Nothing is out of order among the subtrees rooted from the first position without children. -/
theorem orderedFrom_half (a : Array α) (n : Nat) : OrderedFrom key a (n / 2) n := by
  intro k _ hkn hlo
  unfold parent at hlo
  omega

section Order

variable {key}

/-- The root has the least key of an ordered prefix: follow the parents down to it. -/
theorem Ordered.root_le {a : Array α} {n : Nat} (h : Ordered key a n) :
    ∀ k, k < n → key a[0]! ≤ key a[k]! := by
  intro k
  induction k using Nat.strongRecOn with
  | ind k ih =>
    intro hk
    rcases Nat.eq_zero_or_pos k with rfl | hpos
    · exact le_rfl
    · have hp := parent_lt hpos
      exact (ih (parent k) hp (by omega)).trans (h k hpos hk)

theorem Ordered.mono {a : Array α} {m n : Nat} (h : Ordered key a n) (hmn : m ≤ n) :
    Ordered key a m :=
  fun k hk0 hkm => h k hk0 (by omega)

/-- An ordered prefix keeps its order when the entries from `n` on change. -/
theorem Ordered.of_agree {a b : Array α} {n : Nat} (h : Ordered key a n)
    (hab : ∀ k, k < n → b[k]! = a[k]!) : Ordered key b n := by
  intro k hk0 hkn
  rw [hab k hkn, hab (parent k) (by have := parent_lt hk0; omega)]
  exact h k hk0 hkn

theorem UpReady.ordered {a : Array α} {j n : Nat} (o : UpReady key a j n)
    (hstop : 0 < j → key a[parent j]! ≤ key a[j]!) : Ordered key a n := by
  intro k hk0 hkn
  by_cases hkj : k = j
  · subst hkj
    exact hstop hk0
  · exact o.except k hk0 hkn hkj

/-- Swapping `j` with a greater parent moves the hole to the parent. -/
theorem UpReady.swap {a : Array α} {j n : Nat} (o : UpReady key a j n) (hj0 : 0 < j)
    (hjn : j < n) (hn : n ≤ a.size) (hlt : key a[j]! < key a[parent j]!) :
    UpReady key (a.swapIfInBounds (parent j) j) (parent j) n := by
  have hpj : parent j < j := parent_lt hj0
  have hp : parent j < a.size := by omega
  have hj : j < a.size := by omega
  constructor
  · intro k hk0 hkn hkp
    by_cases hkj : k = j
    · -- the parent moved down to `j`, under the entry that moved up
      subst hkj
      rw [getElem!_swap_left hp hj, getElem!_swap_right hp hj]
      exact hlt.le
    · rw [getElem!_swap_of_ne hkp hkj]
      by_cases hpk : parent k = parent j
      · -- a sibling of `j` is at or after the old parent, which is after the new one
        have := o.except k hk0 hkn hkj
        rw [hpk] at this ⊢
        rw [getElem!_swap_left hp hj]
        exact hlt.le.trans this
      · by_cases hpkj : parent k = j
        · rw [hpkj, getElem!_swap_right hp hj]
          exact o.grand hj0 k hk0 hkn hpkj
        · rw [getElem!_swap_of_ne hpk hpkj]
          exact o.except k hk0 hkn hkj
  · intro hp0 c hc0 hcn hcp
    have hpp : parent (parent j) < parent j := parent_lt hp0
    have hcj : c ≠ parent j := by have := parent_lt hc0; omega
    have hup : key a[parent (parent j)]! ≤ key a[parent j]! :=
      o.except (parent j) hp0 (by omega) (by omega)
    rw [getElem!_swap_of_ne (by omega) (by omega)]
    by_cases hcj' : c = j
    · rw [hcj', getElem!_swap_right hp hj]
      exact hup
    · rw [getElem!_swap_of_ne hcj hcj']
      have := o.except c hc0 hcn hcj'
      rw [hcp] at this
      exact hup.trans this

/-- Sifting up restores the heap order. -/
theorem upLoop_ordered {n : Nat} :
    ∀ (fuel : Nat) (a : Array α) (j : Nat), j ≤ fuel → j < n → n ≤ a.size →
      UpReady key a j n → Ordered key (upLoop key fuel a j) n
  | 0, a, j, hj, _, _, o => by
    rw [upLoop]
    exact o.ordered fun h => absurd h (by omega)
  | fuel + 1, a, j, hj, hjn, hn, o => by
    rw [upLoop]
    split_ifs with h0 hless
    · exact o.ordered fun h => absurd h (by omega)
    · have hp := parent_lt (Nat.pos_of_ne_zero h0)
      apply upLoop_ordered fuel _ (parent j) (by omega) (by omega) (by simpa using hn)
      exact o.swap (Nat.pos_of_ne_zero h0) hjn hn ((less_eq_true key).mp hless)
    · exact o.ordered fun _ => (less_eq_false key).mp (by simpa using hless)

/-- On an ordered prefix, `up` finds nothing to move. -/
theorem upLoop_of_ordered {a : Array α} {n : Nat} (h : Ordered key a n) :
    ∀ (fuel j : Nat), j < n → upLoop key fuel a j = a
  | 0, _, _ => by rw [upLoop]
  | fuel + 1, j, hjn => by
    rw [upLoop]
    split_ifs with h0 hless
    · rfl
    · exact absurd ((less_eq_true key).mp hless) (not_lt.mpr (h j (Nat.pos_of_ne_zero h0) hjn))
    · rfl

theorem DownReady.ordered {a : Array α} {i lo n : Nat} (o : DownReady key a i lo n)
    (hstop : ∀ c, 0 < c → c < n → parent c = i → key a[i]! ≤ key a[c]!) :
    OrderedFrom key a lo n := by
  intro k hk0 hkn hlo
  by_cases hki : parent k = i
  · rw [hki]
    exact hstop k hk0 hkn hki
  · exact o.except k hk0 hkn hlo hki

/-- Swapping `i` with a lesser child below it moves the hole to the child. -/
theorem DownReady.swap {a : Array α} {i lo n : Nat} (o : DownReady key a i lo n) (hlo : lo ≤ i)
    (hin : 2 * i + 1 < n) (hn : n ≤ a.size) (hlt : key a[lesser key a i n]! < key a[i]!) :
    DownReady key (a.swapIfInBounds i (lesser key a i n)) (lesser key a i n) lo n := by
  set j := lesser key a i n with hjdef
  have hpj : parent j = i := parent_lesser key a i n
  have hjn : j < n := lesser_lt key hin
  have hij : i < j := lt_lesser key a i n
  have hi : i < a.size := by omega
  have hj : j < a.size := by omega
  constructor
  · intro k hk0 hkn hklo hkj
    by_cases hki : k = i
    · -- `i` now holds the child, which is at or after `i`'s parent
      subst hki
      have hpk : parent k < k := parent_lt hk0
      rw [getElem!_swap_left hi hj, getElem!_swap_of_ne (by omega) (by omega)]
      exact o.grand hk0 hklo j (by omega) hjn hpj
    · by_cases hkj' : k = j
      · subst hkj'
        rw [hpj, getElem!_swap_left hi hj, getElem!_swap_right hi hj]
        exact hlt.le
      · rw [getElem!_swap_of_ne hki hkj']
        by_cases hpki : parent k = i
        · -- a sibling of the child is at or after the lesser child
          rw [hpki, getElem!_swap_left hi hj]
          exact lesser_le key hk0 hkn hpki
        · rw [getElem!_swap_of_ne hpki hkj]
          exact o.except k hk0 hkn hklo hpki
  · intro hj0 _ c hc0 hcn hcj
    have hjc : j < c := by have := parent_lt hc0; omega
    rw [hpj, getElem!_swap_left hi hj, getElem!_swap_of_ne (by omega) (by omega)]
    have := o.except c hc0 hcn (by omega) (by omega)
    rw [hcj] at this
    exact this

/-- Sifting down restores the heap order from `lo` on. -/
theorem downLoop_ordered {lo n : Nat} :
    ∀ (fuel : Nat) (a : Array α) (i : Nat), n - i ≤ fuel → lo ≤ i → n ≤ a.size →
      DownReady key a i lo n → OrderedFrom key (downLoop key n fuel a i).1 lo n
  | 0, a, i, hf, _, _, o => by
    rw [downLoop]
    exact o.ordered fun c hc0 hcn hci => absurd hcn (by have := (parent_eq_iff hc0).mp hci; omega)
  | fuel + 1, a, i, hf, hlo, hn, o => by
    rw [downLoop]
    split_ifs with hleaf hless
    · exact o.ordered fun c hc0 hcn hci =>
        absurd hcn (by have := (parent_eq_iff hc0).mp hci; omega)
    · have hij := lt_lesser key a i n
      apply downLoop_ordered fuel _ _ (by omega) (by omega) (by simpa using hn)
      exact o.swap hlo (by omega) hn ((less_eq_true key).mp hless)
    · exact o.ordered fun c hc0 hcn hci =>
        ((less_eq_false key).mp (by simpa using hless)).trans (lesser_le key hc0 hcn hci)

/-- An entry at or before its children within `n` does not move down. -/
theorem down_of_le {a : Array α} {i n : Nat}
    (hle : ∀ c, 0 < c → c < n → parent c = i → key a[i]! ≤ key a[c]!) :
    down key a i n = (a, false) := by
  unfold down
  cases n with
  | zero => simp [downLoop]
  | succ n =>
    rw [downLoop]
    split_ifs with hleaf hless
    · simp
    · have hjn : lesser key a i (n + 1) < n + 1 := lesser_lt key (by omega)
      have hj0 : 0 < lesser key a i (n + 1) := by have := lt_lesser key a i (n + 1); omega
      exact absurd ((less_eq_true key).mp hless)
        (not_lt.mpr (hle _ hj0 hjn (parent_lesser key a i (n + 1))))
    · simp

end Order

/-! ### The operations -/

/-- `heap.Push` adds the item and keeps the others. -/
theorem push_perm (a : Array α) (x : α) : (push key a x).toList.Perm (x :: a.toList) := by
  refine (upLoop_perm key _ _ _).trans ?_
  rw [Array.toList_push]
  exact List.perm_append_singleton x a.toList

theorem pop_eq_none {a : Array α} : pop key a = none ↔ a.size = 0 := by
  unfold pop
  split_ifs with h <;> simp [h]

/-- The array `pop` sifts: the root swapped to the end and sifted down over the rest. -/
def popped (a : Array α) : Array α :=
  (down key (a.swapIfInBounds 0 (a.size - 1)) 0 (a.size - 1)).1

theorem pop_eq_some {a : Array α} (h : a.size ≠ 0) :
    pop key a = some ((popped key a)[a.size - 1]!, (popped key a).pop) := by
  simp [pop, popped, h]

theorem size_popped (a : Array α) : (popped key a).size = a.size := by
  simp [popped, down, size_downLoop]

/-- The array `remove a i` sifts. -/
def removed (a : Array α) (i : Nat) : Array α :=
  if a.size - 1 = i then a
  else if (down key (a.swapIfInBounds i (a.size - 1)) i (a.size - 1)).2 then
    (down key (a.swapIfInBounds i (a.size - 1)) i (a.size - 1)).1
  else up key (down key (a.swapIfInBounds i (a.size - 1)) i (a.size - 1)).1 i

theorem remove_eq_some {a : Array α} {i : Nat} (h : i < a.size) :
    remove key a i = some ((removed key a i)[a.size - 1]!, (removed key a i).pop) := by
  simp only [remove, removed, if_neg (Nat.not_le.mpr h)]

theorem removed_perm (a : Array α) (i : Nat) : (removed key a i).toList.Perm a.toList := by
  unfold removed
  split_ifs
  · exact List.Perm.refl _
  · exact (downLoop_perm key _ _ _ _).trans (swapIfInBounds_perm a _ _)
  · exact (upLoop_perm key _ _ _).trans
      ((downLoop_perm key _ _ _ _).trans (swapIfInBounds_perm a _ _))

theorem size_removed (a : Array α) (i : Nat) : (removed key a i).size = a.size := by
  simpa using (removed_perm key a i).length_eq

/-- The entry that `remove a i` takes off is the one at `i`: the sifts stay below the end. -/
theorem removed_last {a : Array α} {i : Nat} (h : i < a.size) :
    (removed key a i)[a.size - 1]! = a[i]! := by
  unfold removed
  split_ifs with hni hmoved
  · rw [hni]
  · rw [down, downLoop_frame key _ _ _ _ _ (Nat.le_refl _), getElem!_swap_right (by omega) (by omega)]
  · rw [up, upLoop_frame key _ _ _ _ (by omega), down, downLoop_frame key _ _ _ _ _ (Nat.le_refl _),
      getElem!_swap_right (by omega) (by omega)]

/-- `Fix` at the root is `down` from the root: there is no parent to move up to. -/
theorem fix_zero (a : Array α) : fix key a 0 = (down key a 0 a.size).1 := by
  simp only [fix]
  split_ifs
  · rfl
  · rw [up, upLoop]

/-- `heap.Fix` keeps the items. -/
theorem fix_perm (a : Array α) (i : Nat) : (fix key a i).toList.Perm a.toList := by
  simp only [fix]
  split_ifs
  · exact downLoop_perm key _ _ _ _
  · exact (upLoop_perm key _ _ _).trans (downLoop_perm key _ _ _ _)

/-- `Init`'s loop over the positions below `m`, the last first. -/
theorem init_loop {n : Nat} :
    ∀ (m : Nat) (b : Array α), b.size = n →
      ((List.range m).reverse.foldl (fun b i => (down key b i n).1) b).toList.Perm b.toList ∧
      (OrderedFrom key b m n →
        Ordered key ((List.range m).reverse.foldl (fun b i => (down key b i n).1) b) n)
  | 0, b, _ => ⟨List.Perm.refl _, fun h => (orderedFrom_zero key).mp h⟩
  | m + 1, b, hb => by
    rw [List.range_succ, List.reverse_append, List.reverse_singleton, List.singleton_append,
      List.foldl_cons]
    have hsz : (down key b m n).1.size = n := by simp [down, size_downLoop, hb]
    obtain ⟨hperm, hord⟩ := init_loop m (down key b m n).1 hsz
    refine ⟨hperm.trans (downLoop_perm key _ _ _ _), fun h => hord ?_⟩
    -- the subtrees from `m + 1` on are ordered, so `down` from `m` orders the one at `m`
    apply downLoop_ordered n b m (by omega) (Nat.le_refl _) (by omega)
    constructor
    · intro k hk0 hkn hlo hkm
      exact h k hk0 hkn (by omega)
    · intro hm0 hlo
      exact absurd hlo (by have := parent_lt hm0; omega)

/-- `heap.Init` keeps the items. -/
theorem init_perm (a : Array α) : (init key a).toList.Perm a.toList :=
  (init_loop key (a.size / 2) a rfl).1

/-- `heap.Init` orders the whole array. -/
theorem init_ordered (a : Array α) : Ordered key (init key a) a.size :=
  (init_loop key (a.size / 2) a rfl).2 (orderedFrom_half key a a.size)

section Order

variable {key}

/-- `heap.Push` keeps the heap ordered. -/
theorem push_ordered {a : Array α} (h : Ordered key a a.size) (x : α) :
    Ordered key (push key a x) (a.size + 1) := by
  apply upLoop_ordered a.size _ a.size (Nat.le_refl _) (by omega) (by simp)
  constructor
  · intro k hk0 hkn hks
    have hp := parent_lt hk0
    rw [getElem!_push_lt (by omega), getElem!_push_lt (by omega)]
    exact h k hk0 (by omega)
  · intro _ c hc0 hcn hcp
    have := (parent_eq_iff hc0).mp hcp
    omega

theorem pop_size {a : Array α} {x : α} {b : Array α} (h : pop key a = some (x, b)) :
    a.size ≠ 0 := fun h0 => by simp [(pop_eq_none key).mpr h0] at h

/-- `pop` answers the root. -/
theorem pop_fst {a : Array α} {x : α} {b : Array α} (h : pop key a = some (x, b)) : x = a[0]! := by
  have hs := pop_size h
  rw [pop_eq_some key hs, Option.some.injEq, Prod.mk.injEq] at h
  rw [← h.1, popped, down, downLoop_frame key _ _ _ _ _ (Nat.le_refl _),
    getElem!_swap_right (by omega) (by omega)]

/-- `heap.Pop` takes one item and keeps the others. -/
theorem pop_perm {a : Array α} {x : α} {b : Array α} (h : pop key a = some (x, b)) :
    a.toList.Perm (x :: b.toList) := by
  have hs := pop_size h
  rw [pop_eq_some key hs, Option.some.injEq, Prod.mk.injEq] at h
  obtain ⟨rfl, rfl⟩ := h
  have hperm : (popped key a).toList.Perm a.toList :=
    (downLoop_perm key _ _ _ _).trans (swapIfInBounds_perm a _ _)
  have hsplit := toList_eq_pop_append (a := popped key a) (by rw [size_popped]; exact hs)
  rw [size_popped] at hsplit
  exact hperm.symm.trans (hsplit ▸ List.perm_append_singleton _ _)

theorem size_of_pop {a : Array α} {x : α} {b : Array α} (h : pop key a = some (x, b)) :
    b.size = a.size - 1 := by
  have := (pop_perm h).length_eq
  simp only [Array.length_toList, List.length_cons] at this
  omega

/-- `heap.Pop` keeps the heap ordered. -/
theorem pop_ordered {a : Array α} (h : Ordered key a a.size) {x : α} {b : Array α}
    (hp : pop key a = some (x, b)) : Ordered key b b.size := by
  have hs := pop_size hp
  rw [pop_eq_some key hs, Option.some.injEq, Prod.mk.injEq] at hp
  obtain ⟨-, rfl⟩ := hp
  set n := a.size - 1
  -- the last entry at the root leaves the order whole below it
  have ready : DownReady key (a.swapIfInBounds 0 n) 0 0 n := by
    constructor
    · intro k hk0 hkn _ hpk
      have hp := parent_lt hk0
      rw [getElem!_swap_of_ne (k := parent k) hpk (by omega),
        getElem!_swap_of_ne (k := k) (by omega) (by omega)]
      exact h k hk0 (by omega)
    · intro hi0
      exact absurd hi0 (Nat.lt_irrefl 0)
  have hord := (orderedFrom_zero key).mp
    (downLoop_ordered n _ 0 (by omega) (Nat.le_refl _) (by simp; omega) ready)
  rw [Array.size_pop, size_popped]
  exact hord.of_agree fun k hk => getElem!_pop (by rw [size_popped]; omega)

theorem remove_size {a : Array α} {i : Nat} {x : α} {b : Array α}
    (h : remove key a i = some (x, b)) : i < a.size := by
  by_contra hle
  simp [remove, Nat.not_lt.mp hle] at h

theorem remove_fst {a : Array α} {i : Nat} {x : α} {b : Array α}
    (h : remove key a i = some (x, b)) : x = a[i]! := by
  have hi := remove_size h
  rw [remove_eq_some key hi, Option.some.injEq, Prod.mk.injEq] at h
  rw [← h.1, removed_last key hi]

/-- `heap.Remove` takes one item and keeps the others. -/
theorem remove_perm {a : Array α} {i : Nat} {x : α} {b : Array α}
    (h : remove key a i = some (x, b)) : a.toList.Perm (x :: b.toList) := by
  have hi := remove_size h
  rw [remove_eq_some key hi, Option.some.injEq, Prod.mk.injEq] at h
  obtain ⟨rfl, rfl⟩ := h
  have hsplit := toList_eq_pop_append (a := removed key a i) (by rw [size_removed]; omega)
  rw [size_removed] at hsplit
  exact (removed_perm key a i).symm.trans (hsplit ▸ List.perm_append_singleton _ _)

section Remove

variable {a : Array α} {i : Nat}

/-- When the last entry is at or after `i`'s parent, putting it at `i` leaves only `i`'s
children to order. -/
theorem remove_downReady (h : Ordered key a a.size) (hin : i < a.size - 1)
    (habove : 0 < i → key a[parent i]! ≤ key a[a.size - 1]!) :
    DownReady key (a.swapIfInBounds i (a.size - 1)) i 0 (a.size - 1) := by
  constructor
  · intro k hk0 hkn _ hpk
    have hp := parent_lt hk0
    rw [getElem!_swap_of_ne hpk (by omega)]
    by_cases hki : k = i
    · subst hki
      rw [getElem!_swap_left (by omega) (by omega)]
      exact habove hk0
    · rw [getElem!_swap_of_ne hki (by omega)]
      exact h k hk0 (by omega)
  · intro hi0 _ c hc0 hcn hci
    have hp := parent_lt hi0
    have hic : i < c := by have := parent_lt hc0; omega
    rw [getElem!_swap_of_ne (by omega) (by omega), getElem!_swap_of_ne (by omega) (by omega)]
    have := h c hc0 (by omega)
    rw [hci] at this
    exact (h i hi0 (by omega)).trans this

/-- When the last entry is before `i`'s parent, it is before `i`'s children too: it stays put
going down and has only to go up. -/
theorem remove_upReady (h : Ordered key a a.size) (hin : i < a.size - 1) (hi0 : 0 < i)
    (hbelow : key a[a.size - 1]! < key a[parent i]!) :
    UpReady key (a.swapIfInBounds i (a.size - 1)) i (a.size - 1) ∧
      ∀ c, 0 < c → c < a.size - 1 → parent c = i →
        key (a.swapIfInBounds i (a.size - 1))[i]! ≤ key (a.swapIfInBounds i (a.size - 1))[c]! := by
  have hp := parent_lt hi0
  -- every child of `i` is after `i`, which is after `i`'s parent
  have hchild : ∀ c, 0 < c → c < a.size - 1 → parent c = i → key a[parent i]! ≤ key a[c]! := by
    intro c hc0 hcn hci
    have := h c hc0 (by omega)
    rw [hci] at this
    exact (h i hi0 (by omega)).trans this
  refine ⟨⟨?_, ?_⟩, ?_⟩
  · intro k hk0 hkn hki
    have hpk := parent_lt hk0
    rw [getElem!_swap_of_ne hki (by omega)]
    by_cases hpki : parent k = i
    · rw [hpki, getElem!_swap_left (by omega) (by omega)]
      exact hbelow.le.trans (hchild k hk0 hkn hpki)
    · rw [getElem!_swap_of_ne hpki (by omega)]
      exact h k hk0 (by omega)
  · intro _ c hc0 hcn hci
    have hic : i < c := by have := parent_lt hc0; omega
    rw [getElem!_swap_of_ne (by omega) (by omega), getElem!_swap_of_ne (by omega) (by omega)]
    exact hchild c hc0 hcn hci
  · intro c hc0 hcn hci
    have hic : i < c := by have := parent_lt hc0; omega
    rw [getElem!_swap_left (by omega) (by omega), getElem!_swap_of_ne (by omega) (by omega)]
    exact hbelow.le.trans (hchild c hc0 hcn hci)

/-- The sifts of `remove a i` leave the order whole below the end. -/
theorem removed_ordered (h : Ordered key a a.size) (hi : i < a.size) :
    Ordered key (removed key a i) (a.size - 1) := by
  unfold removed
  by_cases hni : a.size - 1 = i
  · rw [if_pos hni]
    exact h.mono (by omega)
  · rw [if_neg hni]
    have hin : i < a.size - 1 := by omega
    by_cases habove : 0 < i → key a[parent i]! ≤ key a[a.size - 1]!
    · -- `down` orders the prefix; if it did not move, `up` finds nothing to move
      have hord : Ordered key (down key (a.swapIfInBounds i (a.size - 1)) i (a.size - 1)).1
          (a.size - 1) := (orderedFrom_zero key).mp
        (downLoop_ordered (a.size - 1) _ i (by omega) (Nat.zero_le _) (by simp)
          (remove_downReady h hin habove))
      split_ifs with hmoved
      · exact hord
      · have hsame := down_eq_of_not_moved key (by simpa using hmoved)
        rw [hsame] at hord ⊢
        rw [up, upLoop_of_ordered hord _ _ hin]
        exact hord
    · obtain ⟨hi0, hbelow⟩ := Classical.not_imp.mp habove
      obtain ⟨ready, hle⟩ := remove_upReady h hin hi0 (not_le.mp hbelow)
      rw [down_of_le hle]
      exact upLoop_ordered i _ i (Nat.le_refl _) hin (by simp) ready

end Remove

/-- `heap.Remove` keeps the heap ordered. -/
theorem remove_ordered {a : Array α} (h : Ordered key a a.size) {i : Nat} {x : α} {b : Array α}
    (hr : remove key a i = some (x, b)) : Ordered key b b.size := by
  have hi := remove_size hr
  rw [remove_eq_some key hi, Option.some.injEq, Prod.mk.injEq] at hr
  obtain ⟨-, rfl⟩ := hr
  rw [Array.size_pop, size_removed]
  exact (removed_ordered h hi).of_agree fun k hk => getElem!_pop (by rw [size_removed]; omega)

/-- `Fix` at the root orders an array whose only disorder is at the root's children. -/
theorem fix_zero_ordered {a : Array α}
    (h : ∀ k, 0 < k → k < a.size → parent k ≠ 0 → key a[parent k]! ≤ key a[k]!) :
    Ordered key (fix key a 0) a.size := by
  rw [fix_zero, down]
  apply (orderedFrom_zero key).mp
  apply downLoop_ordered a.size a 0 (by omega) (Nat.le_refl _) (Nat.le_refl _)
  exact ⟨fun k hk0 hkn _ hpk => h k hk0 hkn hpk, fun h0 => absurd h0 (Nat.lt_irrefl 0)⟩

end Order

end EpvChain.Lib.Heap
