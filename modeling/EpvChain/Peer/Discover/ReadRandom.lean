import EpvChain.Peer.Discover.Table
import EpvChain.Lib.GoSlice
import EpvChain.Lib.ExceptLoop

/-!
# Reading random nodes from the table

`Table.ReadRandomNodes(buf)` of `peer/discover/table.go`, the dialer's source of candidates
(`dialstate.newTasks`). It shuffles the non-empty buckets and fills `buf` round-robin, taking the
first entry of bucket `j`, cutting out emptied buckets, until `buf` is full or no bucket is left;
it returns `i + 1`.

* `shuffleBuckets_perm`, `readLoop_eq`: neither panics; the shuffle permutes the buckets, and the
  loop writes `min(len(buf) - i, total)` entries, each once.
* `Table.ReadRandomNodes_eq`: for every table, shuffle and buffer, `ReadRandomNodes` writes
  `min(len(buf), total)` distinct entries at the front of `buf`, and returns `total` when it fits
  and `len(buf) + 1` otherwise (`ReadRandomNodes_overcounts`).
* `randomCandidates_eq`: the only caller reads only written entries, so the count one too many
  is never used.

`tab.isInitDone()` is a flag; `tab.rand.Intn(n)` is a number the caller picks, modulo `n`.
-/

namespace EpvChain.Discover

open Lib

variable {α : Type}

/-! ### The model -/

/-- `buckets[i], buckets[j] = buckets[j], buckets[i]`: both sides are read before either is
written. -/
def swapBuckets (buckets : List α) (i j : Nat) : Except RuntimePanic (List α) := do
  let bj ← goIndex buckets j
  let bi ← goIndex buckets i
  let buckets ← goModify buckets i fun _ => bj
  goModify buckets j fun _ => bi

/-- The shuffle, `for i := len(buckets) - 1; i > 0; i--`, from `i = k` down; `rnd i` is what
`tab.rand.Intn(len(buckets))` draws at turn `i`, taken modulo `len(buckets)`. -/
def shuffleBuckets (rnd : Nat → Nat) : Nat → List α → Except RuntimePanic (List α)
  | 0, buckets => .ok buckets
  | i + 1, buckets => do
    let buckets ← swapBuckets buckets (i + 1) (rnd (i + 1) % buckets.length)
    shuffleBuckets rnd i buckets

/-- The read loop's body up to its `break`: `buf[i]` is the first entry of bucket `j`, the bucket
keeps the rest, and a bucket that had one entry is cut out with
`append(buckets[:j], buckets[j+1:]...)`. -/
def readTurn (buckets : List (List α)) (buf : List (Option α)) (i j : Nat) :
    Except RuntimePanic (List (List α) × List (Option α)) := do
  let b ← goIndex buckets j
  let first ← goIndex b 0
  let buf ← goModify buf i fun _ => some first
  let rest ← goSlice b 1 b.length
  let buckets ← goModify buckets j fun _ => rest
  if b.length = 1 then
    let front ← goSlice buckets 0 j
    let back ← goSlice buckets (j + 1) buckets.length
    return (front ++ back, buf)
  else return (buckets, buf)

/-- The read loop, `for ; i < len(buf); i, j = i+1, (j+1)%len(buckets)`, with at most `fuel` turns
left (`ReadRandomNodes` gives `len(buf)`, and `i` reaches `len(buf)` first). It returns the
buffer and `i + 1`, whether the loop ran out or broke off when no bucket was left. -/
def readLoop : Nat → List (List α) → List (Option α) → Nat → Nat →
    Except RuntimePanic (List (Option α) × Nat)
  | 0, _, buf, i, _ => .ok (buf, i + 1)
  | fuel + 1, buckets, buf, i, j =>
    if i < buf.length then do
      let (buckets, buf) ← readTurn buckets buf i j
      if buckets.length = 0 then .ok (buf, i + 1)
      else readLoop fuel buckets buf (i + 1) ((j + 1) % buckets.length)
    else .ok (buf, i + 1)

namespace Table

/-- The table's entries, bucket after bucket. -/
def entries (tab : Table) : List Node :=
  ((List.finRange nBuckets).map fun k => (tab.buckets k).entries).flatten

/-- The entry lists of the non-empty buckets, in bucket order, as `ReadRandomNodes` collects
them. -/
def nonEmptyBuckets (tab : Table) : List (List Node) :=
  ((List.finRange nBuckets).map fun k => (tab.buckets k).entries).filter (·.length > 0)

/-- `tab.ReadRandomNodes(buf)`: the buffer it leaves and the count it returns; `initDone` is
`tab.isInitDone()`. -/
def ReadRandomNodes (tab : Table) (initDone : Bool) (rnd : Nat → Nat) (buf : List (Option Node)) :
    Except RuntimePanic (List (Option Node) × Nat) :=
  if !initDone then .ok (buf, 0)
  else
    let buckets := tab.nonEmptyBuckets
    if buckets.length = 0 then .ok (buf, 0)
    else do
      let buckets ← shuffleBuckets rnd (buckets.length - 1) buckets
      readLoop buf.length buckets buf 0 0

end Table

/-- The random part of `dialstate.newTasks`: the nodes it offers `addDial`, `s.randomNodes[i]`
for `i < randomCandidates && i < n`, where `n` is what `ReadRandomNodes` returned. -/
def randomCandidates (randomNodes : List (Option Node)) (randomCandidates n : Nat) :
    Except RuntimePanic (List (Option Node)) :=
  (List.range (min randomCandidates n)).mapM fun i : Nat => goIndex randomNodes i

/-! ### The shuffle -/

theorem goModify_const {l : List α} {i : Nat} (h : i < l.length) (x : α) :
    goModify l i (fun _ => x) = .ok (l.set i x) := by
  have : Inhabited α := ⟨x⟩
  rw [goModify_eq_ok h, List.modify_eq_set]

theorem swapBuckets_eq {l : List α} {i j : Nat} (hi : i < l.length) (hj : j < l.length) :
    swapBuckets l i j = .ok ((l.set i l[j]).set j l[i]) := by
  have hj' : j < (l.set i l[j]).length := by rw [List.length_set]; exact hj
  simp only [swapBuckets, goIndex_eq_ok hi, goIndex_eq_ok hj, goModify_const hi, goModify_const hj',
    ok_bind]

/-- The shuffle from turn `k` down permutes the buckets, for any draws. -/
theorem shuffleBuckets_perm (rnd : Nat → Nat) :
    ∀ (k : Nat) (l : List α), k < l.length → ∃ l', shuffleBuckets rnd k l = .ok l' ∧ l'.Perm l
  | 0, l, _ => ⟨l, rfl, List.Perm.refl l⟩
  | k + 1, l, hk => by
    have hpos : 0 < l.length := by omega
    have hj : rnd (k + 1) % l.length < l.length := Nat.mod_lt _ hpos
    set l₁ := (l.set (k + 1) l[rnd (k + 1) % l.length]).set (rnd (k + 1) % l.length) l[k + 1]
    have hperm : l₁.Perm l := List.set_set_perm hk hj
    obtain ⟨l', hrun, hperm'⟩ := shuffleBuckets_perm rnd k l₁ (by rw [hperm.length_eq]; omega)
    refine ⟨l', ?_, hperm'.trans hperm⟩
    rw [shuffleBuckets, swapBuckets_eq hk hj]
    exact hrun

/-! ### One turn of the read loop -/

/-- The buckets after bucket `j` gives up its first entry, leaving `rest`. -/
def afterTake (buckets : List (List α)) (j : Nat) (rest : List α) : List (List α) :=
  if rest = [] then buckets.eraseIdx j else buckets.set j rest

theorem goSlice_drop_one (a : α) (l : List α) : goSlice (a :: l) 1 (a :: l).length = .ok l := by
  rw [goSlice_eq_ok (by omega) (by simp) le_rfl]
  simp

/-- The two halves of `append(s[:j], s[j+1:]...)`, for `j < len(s)`. -/
theorem goSlice_cut {s : List α} {j : Nat} (hj : j < s.length) :
    goSlice s 0 j = .ok (s.take j) ∧ goSlice s (j + 1) s.length = .ok (s.drop (j + 1)) := by
  constructor
  · rw [goSlice_eq_ok le_rfl (by omega) (by omega)]
    simp
  · rw [goSlice_eq_ok (by omega) (by omega) le_rfl]
    simp

section
-- Its equation lemmas are made once here, before the proofs below unfold it.
attribute [local simp] afterTake
end

theorem readTurn_eq {buckets : List (List α)} {buf : List (Option α)} {i j : Nat}
    (hj : j < buckets.length) (hi : i < buf.length) {first : α} {rest : List α}
    (hb : buckets[j] = first :: rest) :
    readTurn buckets buf i j = .ok (afterTake buckets j rest, buf.set i (some first)) := by
  have hj' : j < (buckets.set j rest).length := by rw [List.length_set]; exact hj
  simp only [readTurn, goIndex_eq_ok hj, hb, goIndex_cons_zero, goModify_const hi, ok_bind]
  rw [goSlice_drop_one, ok_bind, goModify_const hj, ok_bind]
  simp only [List.length_cons, Nat.add_eq_right, List.length_eq_zero_iff]
  by_cases hrest : rest = []
  · -- the bucket had one entry: `append(buckets[:j], buckets[j+1:]...)` is `eraseIdx`
    obtain ⟨hfront, hback⟩ := goSlice_cut hj'
    rw [if_pos hrest, hfront, ok_bind, hback, ok_bind, ← List.eraseIdx_eq_take_drop_succ,
      List.eraseIdx_set_eq, afterTake, if_pos hrest]
    rfl
  · rw [if_neg hrest, afterTake, if_neg hrest]
    rfl

/-- Taking the first entry of a bucket permutes the entries into that entry and the rest. -/
theorem flatten_perm_afterTake {buckets : List (List α)} {j : Nat} (hj : j < buckets.length)
    {first : α} {rest : List α} (hb : buckets[j] = first :: rest) :
    buckets.flatten.Perm (first :: (afterTake buckets j rest).flatten) := by
  have hsplit : buckets.flatten.Perm (first :: (rest ++ (buckets.eraseIdx j).flatten)) := by
    have := (List.getElem_cons_eraseIdx_perm hj).flatten
    rw [hb, List.flatten_cons] at this
    exact this.symm
  unfold afterTake
  split_ifs with hrest
  · rw [hrest, List.nil_append] at hsplit
    exact hsplit
  · have hset := (List.set_perm_cons_eraseIdx hj rest).flatten
    rw [List.flatten_cons] at hset
    exact hsplit.trans (List.Perm.cons first hset.symm)

theorem ne_nil_of_mem_afterTake {buckets : List (List α)} {j : Nat} {rest : List α}
    (hne : ∀ b ∈ buckets, b ≠ []) : ∀ b ∈ afterTake buckets j rest, b ≠ [] := by
  intro b hb
  unfold afterTake at hb
  split_ifs at hb with hrest
  · exact hne b (List.mem_of_mem_eraseIdx hb)
  · rcases List.mem_or_eq_of_mem_set hb with hmem | rfl
    · exact hne b hmem
    · exact hrest

/-- A list of non-empty buckets is empty exactly when it holds no entry. -/
theorem length_eq_zero_iff_flatten {buckets : List (List α)} (hne : ∀ b ∈ buckets, b ≠ []) :
    buckets.length = 0 ↔ buckets.flatten.length = 0 := by
  rw [List.length_eq_zero_iff, List.length_eq_zero_iff, List.flatten_eq_nil_iff]
  constructor
  · rintro rfl b hb
    cases hb
  · intro hall
    cases buckets with
    | nil => rfl
    | cons b _ => exact absurd (hall b List.mem_cons_self) (hne b List.mem_cons_self)

theorem set_eq_take_append {buf : List α} {i : Nat} (hi : i < buf.length) (x : α) :
    buf.set i x = buf.take i ++ x :: buf.drop (i + 1) := by
  rw [List.set_eq_take_append_cons_drop, if_pos hi]

/-! ### The read loop -/

/-- The read loop over non-empty buckets, from turn `i` with `fuel = len(buf) - i` turns left:
it writes `taken`, `min(fuel, total)` entries of the buckets each taken once, at `buf[i:]`, and
returns `i + total` when the entries run out within the buffer, `len(buf) + 1` otherwise. -/
theorem readLoop_eq :
    ∀ (fuel : Nat) (buckets : List (List α)) (buf : List (Option α)) (i j : Nat),
      (∀ b ∈ buckets, b ≠ []) → j < buckets.length → i + fuel = buf.length →
      ∃ taken : List α,
        readLoop fuel buckets buf i j =
          .ok (buf.take i ++ taken.map some ++ buf.drop (i + taken.length),
            if buckets.flatten.length ≤ fuel then i + buckets.flatten.length else i + fuel + 1) ∧
        taken.Subperm buckets.flatten ∧ taken.length = min fuel buckets.flatten.length
  | 0, buckets, buf, i, j, hne, hj, hfuel => by
    have hpos : buckets.flatten.length ≠ 0 := fun h =>
      absurd ((length_eq_zero_iff_flatten hne).mpr h) (by omega)
    refine ⟨[], ?_, List.nil_subperm, by simp⟩
    rw [readLoop, if_neg (by omega)]
    simp
  | fuel + 1, buckets, buf, i, j, hne, hj, hfuel => by
    obtain ⟨first, rest, hb⟩ := List.exists_cons_of_ne_nil (hne _ (List.getElem_mem hj))
    have hi : i < buf.length := by omega
    have hperm := flatten_perm_afterTake hj hb
    have hlen : buckets.flatten.length = (afterTake buckets j rest).flatten.length + 1 := by
      rw [hperm.length_eq, List.length_cons]
    have hne' := @ne_nil_of_mem_afterTake α buckets j rest hne
    have hbuf : buf.set i (some first) = buf.take i ++ some first :: buf.drop (i + 1) :=
      set_eq_take_append hi _
    rw [readLoop, if_pos hi, readTurn_eq hj hi hb, ok_bind]
    dsimp only
    by_cases hnil : (afterTake buckets j rest).length = 0
    · -- no bucket is left: the loop breaks after writing its one entry
      have hzero := (length_eq_zero_iff_flatten hne').mp hnil
      refine ⟨[first], ?_, ?_, by simp [hlen, hzero]⟩
      · rw [if_pos hnil, if_pos (by omega), hbuf]
        simp [hlen, hzero]
      · exact List.singleton_subperm_iff.mpr (hperm.mem_iff.mpr List.mem_cons_self)
    · have hj' : (j + 1) % (afterTake buckets j rest).length < (afterTake buckets j rest).length :=
        Nat.mod_lt _ (by omega)
      obtain ⟨taken, hrun, hsub, htlen⟩ := readLoop_eq fuel (afterTake buckets j rest)
        (buf.set i (some first)) (i + 1) _ hne' hj' (by rw [List.length_set]; omega)
      refine ⟨first :: taken, ?_, ?_, ?_⟩
      · -- the turns after this one write behind `buf[i]`, which keeps this entry
        have htake : (buf.set i (some first)).take (i + 1) = buf.take i ++ [some first] := by
          rw [List.take_add_one, List.take_set_of_le le_rfl, List.getElem?_set_self hi]
          rfl
        have hdrop : (buf.set i (some first)).drop (i + 1 + taken.length) =
            buf.drop (i + (taken.length + 1)) := by
          rw [List.drop_set_of_lt (by omega), Nat.add_assoc, Nat.add_comm 1]
        rw [if_neg hnil, hrun, htake, hdrop, List.length_cons, hlen]
        congr 1
        refine Prod.ext ?_ ?_
        · simp
        · dsimp only
          split_ifs <;> omega
      · exact ((List.subperm_cons first).mpr hsub).trans hperm.symm.subperm
      · rw [List.length_cons, htlen, hlen]
        omega

/-! ### The call -/

theorem flatten_filter_length_pos (L : List (List α)) :
    (L.filter (·.length > 0)).flatten = L.flatten := by
  rw [← List.flatten_filter_not_isEmpty (L := L)]
  congr 1
  exact List.filter_congr fun e _ => by cases e <;> simp

namespace Table

theorem flatten_nonEmptyBuckets (tab : Table) : tab.nonEmptyBuckets.flatten = tab.entries :=
  flatten_filter_length_pos _

theorem ne_nil_of_mem_nonEmptyBuckets {tab : Table} : ∀ b ∈ tab.nonEmptyBuckets, b ≠ [] := by
  intro b hb
  have hpos := (List.mem_filter.mp hb).2
  rw [decide_eq_true_eq] at hpos
  exact List.ne_nil_of_length_pos hpos

/-- For every table, every draw of the shuffle and every buffer, `ReadRandomNodes` does not panic;
it writes `min(len(buf), total)` of the table's entries, each taken once, at the front of `buf`,
and returns `total` when the table has at most `len(buf)` entries but `len(buf) + 1` when it has
more. -/
theorem ReadRandomNodes_eq (tab : Table) (rnd : Nat → Nat) (buf : List (Option Node)) :
    ∃ nodes : List Node,
      tab.ReadRandomNodes true rnd buf =
        .ok (nodes.map some ++ buf.drop nodes.length,
          if tab.entries.length ≤ buf.length then tab.entries.length else buf.length + 1) ∧
      nodes.Subperm tab.entries ∧ nodes.length = min buf.length tab.entries.length := by
  by_cases hempty : tab.nonEmptyBuckets.length = 0
  · -- no bucket has an entry: the call returns before the shuffle
    have hentries : tab.entries.length = 0 := by
      rw [← flatten_nonEmptyBuckets, ← length_eq_zero_iff_flatten ne_nil_of_mem_nonEmptyBuckets]
      exact hempty
    refine ⟨[], ?_, List.nil_subperm, by simp [hentries]⟩
    rw [ReadRandomNodes, if_neg (by decide), if_pos hempty]
    simp [hentries]
  · obtain ⟨shuffled, hshuffle, hperm⟩ := shuffleBuckets_perm rnd
      (tab.nonEmptyBuckets.length - 1) tab.nonEmptyBuckets (by omega)
    have hne : ∀ b ∈ shuffled, b ≠ [] := fun b hb =>
      ne_nil_of_mem_nonEmptyBuckets b (hperm.subset hb)
    have hflat : shuffled.flatten.Perm tab.entries := by
      rw [← flatten_nonEmptyBuckets]
      exact hperm.flatten
    obtain ⟨taken, hrun, hsub, hlen⟩ := readLoop_eq buf.length shuffled buf 0 0 hne
      (by rw [hperm.length_eq]; omega) (by omega)
    refine ⟨taken, ?_, hsub.trans hflat.subperm, by rw [hlen, hflat.length_eq]⟩
    rw [ReadRandomNodes, if_neg (by decide), if_neg hempty]
    simp only [hshuffle, ok_bind, hrun, hflat.length_eq]
    simp

end Table

/-- The first `m ≤ len(s)` reads `s[0], …, s[m-1]` give the first `m` elements. -/
theorem mapM_goIndex_range {s : List α} :
    ∀ m, m ≤ s.length → (List.range m).mapM (fun i : Nat => goIndex s i) = .ok (s.take m)
  | 0, _ => rfl
  | m + 1, hm => by
    have hlt : m < s.length := by omega
    rw [List.range_succ, List.mapM_append, mapM_goIndex_range m (by omega), ok_bind]
    simp only [List.mapM_cons, List.mapM_nil, goIndex_eq_ok hlt, ok_bind]
    rw [List.take_add_one, List.getElem?_eq_getElem hlt]
    rfl

/-- The dialer reads only what `ReadRandomNodes` wrote: with `randomCandidates ≤ len(randomNodes)`,
as `needDynDials / 2 ≤ maxDynDials / 2` makes it, the nodes `newTasks` offers are the first
`randomCandidates` of those written, whatever the count returned. -/
theorem randomCandidates_eq (tab : Table) (rnd : Nat → Nat) (randomNodes : List (Option Node))
    {rc : Nat} (hrc : rc ≤ randomNodes.length) :
    ∃ nodes : List Node, nodes.Subperm tab.entries ∧
      (tab.ReadRandomNodes true rnd randomNodes >>= fun r => randomCandidates r.1 rc r.2) =
        .ok ((nodes.take rc).map some) := by
  obtain ⟨nodes, hread, hsub, hlen⟩ := tab.ReadRandomNodes_eq rnd randomNodes
  refine ⟨nodes, hsub, ?_⟩
  -- the count bounds the reads only when the table runs out; the buffer bounds them otherwise
  have hreads : min rc (if tab.entries.length ≤ randomNodes.length then tab.entries.length
      else randomNodes.length + 1) = min rc nodes.length := by
    split_ifs <;> omega
  rw [hread, ok_bind]
  dsimp only
  rw [randomCandidates, hreads, mapM_goIndex_range _ (by simp),
    List.take_append_of_le_length (by simp), ← List.map_take, ← List.take_take, List.take_length]

/-- A table whose one bucket holds two entries, read into a buffer of one: `ReadRandomNodes`
writes one node and returns two. -/
theorem ReadRandomNodes_overcounts (rnd : Nat → Nat) :
    ((newTable ⟨[127, 0, 0, 1], [0], 0⟩).setBucket ⟨0, by decide⟩
        ⟨[⟨[1, 2, 3, 4], [1], 1⟩, ⟨[5, 6, 7, 8], [2], 2⟩], [],
          ⟨bucketSubnet, bucketIPLimit, fun _ => 0⟩⟩).ReadRandomNodes true rnd [none] =
      .ok ([some ⟨[1, 2, 3, 4], [1], 1⟩], 2) := by
  rfl

end EpvChain.Discover
