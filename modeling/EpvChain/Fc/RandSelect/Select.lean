import EpvChain.Fc.RandSelect.Node
import EpvChain.Lib.SlotIndex

/-!
# The weighted random selection tree: the selector (`fc/randselect.go`)

`weightedRandomSelect` is the root of a tree of `wrsNode`s and the map `idx` from each item it
holds to its leaf position. `Inv` is its invariant: the tree is good and `idx` is exactly the
inverse of the leaves (`Lib.SlotIndex`); `weightOf` is the weight it keeps for an item.

`Inv.setWeight` keeps the invariant and changes `weightOf` at the item alone; `Inv.run` lifts it
to every run. `choose_run` reads `choose` as the scan over the leaves, and `Inv.choose_loop`
follows the loop of `weightedRandomSelect.choose` round by round.
-/

namespace EpvChain.Fc

open EpvChain.Lib

/-- `weightedRandomSelect`: the root of the tree and the leaf position of each item it holds. -/
structure WeightedRandomSelect (ι : Type) where
  root : WrsNode ι
  idx : ι → Option Nat

variable {ι : Type}

/-- `newWeightedRandomSelect`: an empty root at the leaves. -/
def newWeightedRandomSelect : WeightedRandomSelect ι where
  root := WrsNode.empty 0 wrsBranches
  idx _ := none

namespace WeightedRandomSelect

/-- The root `setWeight` puts above a full one, holding it in branch `0`. -/
def newRoot (root : WrsNode ι) : WrsNode ι where
  items := Function.update (fun _ => .none) ⟨0, wrsBranches_pos⟩ (.node root)
  weights := Function.update (fun _ => 0) ⟨0, wrsBranches_pos⟩ root.sumWeight
  sumWeight := root.sumWeight
  level := root.level + 1
  itemCnt := root.itemCnt
  maxItems := root.maxItems * wrsBranches

section Calls

variable [DecidableEq ι]

/-- `weightedRandomSelect.setWeight`. -/
def setWeight (w : WeightedRandomSelect ι) (item : ι) (weight : Int64) :
    Option (WeightedRandomSelect ι) :=
  match w.idx item with
  | some idx => do
    let (root, _) ← w.root.setWeight idx weight
    return { root, idx := if weight = 0 then Function.update w.idx item none else w.idx }
  | none =>
    if weight ≠ 0 then do
      let root := if w.root.itemCnt = w.root.maxItems then newRoot w.root else w.root
      let (root, idx) ← root.insert item weight
      return { root, idx := Function.update w.idx item (some idx) }
    else return w

/-- `weightedRandomSelect.update`, with `Weight` what the items' `Weight` method answers. -/
def update (Weight : ι → Int64) (w : WeightedRandomSelect ι) (item : ι) :
    Option (WeightedRandomSelect ι) :=
  w.setWeight item (Weight item)

/-- `weightedRandomSelect.remove`. -/
def remove (w : WeightedRandomSelect ι) (item : ι) : Option (WeightedRandomSelect ι) :=
  w.setWeight item 0

variable {σ : Type}

/-- `rand.Int63n(n)`, drawn by `next` from a source in state `s`: it panics unless `0 < n`. -/
def int63n (next : σ → Int64 → Int64 × σ) (s : σ) (n : Int64) : Option (Int64 × σ) :=
  if n ≤ 0 then none else some (next s n)

/-- One round of the loop of `weightedRandomSelect.choose`: `some r` when it returns `r`, `none`
when it goes round again, with the selector and the source after the round. -/
def chooseRound (next : σ → Int64 → Int64 × σ) (Weight : ι → Int64) (w : WeightedRandomSelect ι)
    (s : σ) : Option (Option (Option ι) × WeightedRandomSelect ι × σ) := do
  if w.root.sumWeight = 0 then return (some none, w, s)
  let (val, s) ← int63n next s w.root.sumWeight
  let (choice, lastWeight) ← w.root.choose val
  let weight := Weight choice
  let w ← if weight ≠ lastWeight then w.setWeight choice weight else pure w
  if weight ≥ lastWeight then return (some (some choice), w, s)
  let (r, s) ← int63n next s lastWeight
  return (if r < weight then some (some choice) else none, w, s)

/-- `weightedRandomSelect.choose`, run for at most `rounds` rounds of its loop: `some r` when it
returns `r` within them, `none` when it is still looping. -/
def choose (next : σ → Int64 → Int64 × σ) (Weight : ι → Int64) :
    Nat → WeightedRandomSelect ι → σ → Option (Option (Option ι) × WeightedRandomSelect ι × σ)
  | 0, w, s => some (none, w, s)
  | rounds + 1, w, s => do
    let (r, w, s) ← chooseRound next Weight w s
    match r with
    | some r => return (some r, w, s)
    | none => choose next Weight rounds w s

end Calls

section
-- Equation lemmas made once here, before the proofs below unfold them.
attribute [local simp] newRoot setWeight chooseRound choose int63n
end

/-- The weight the selector keeps for `item`: that at its leaf position, zero without one. -/
def weightOf (w : WeightedRandomSelect ι) : ι → Int64 :=
  valueAt w.idx w.root.slotAt 0

/-- The invariant: the tree is good, and `idx` is the inverse of its leaves. -/
structure Inv (w : WeightedRandomSelect ι) : Prop where
  good : w.root.Good
  indexes : Indexes w.idx w.root.slotAt

theorem inv_new : (newWeightedRandomSelect : WeightedRandomSelect ι).Inv where
  good := by
    have h := WrsNode.good_empty (ι := ι) 0
    rwa [zero_add, pow_one] at h
  indexes x p := by simp [newWeightedRandomSelect, WrsNode.slotAt_empty]

/-- The leaves hold exactly the items of weight other than zero, under that weight. -/
theorem Inv.mem_entries_iff {w : WeightedRandomSelect ι} (h : w.Inv) {x : ι} {v : Int64} :
    (x, v) ∈ w.root.entries ↔ v = w.weightOf x ∧ v ≠ 0 := by
  constructor
  · intro hmem
    obtain ⟨p, -, hp⟩ := Iff.mp (WrsNode.mem_entries_iff h.good) hmem
    exact ⟨(h.indexes.valueAt_eq hp 0).symm, WrsNode.ne_zero_of_mem_entries h.good hmem⟩
  · rintro ⟨rfl, hne⟩
    obtain ⟨p, hp⟩ := h.indexes.exists_slot hne
    exact Iff.mpr (WrsNode.mem_entries_iff h.good) ⟨p, WrsNode.lt_maxItems_of_slotAt h.good hp, hp⟩

/-- A selector with the invariant holds no item twice. -/
theorem Inv.nodup_entries {w : WeightedRandomSelect ι} (h : w.Inv) :
    (w.root.entries.map Prod.fst).Nodup := by
  rw [WrsNode.entries_eq_filterMap h.good, List.map_filterMap]
  refine List.Nodup.filterMap ?_ List.nodup_range
  intro p q x hp hq
  obtain ⟨⟨x', v⟩, hpv, rfl⟩ := Option.mem_map.mp hp
  obtain ⟨⟨x'', v'⟩, hqv, hx⟩ := Option.mem_map.mp hq
  cases hx
  exact h.indexes.slot_inj hpv hqv

theorem weightOf_new : (newWeightedRandomSelect : WeightedRandomSelect ι).weightOf = fun _ => 0 := by
  funext x
  simp [weightOf, valueAt, newWeightedRandomSelect]

/-! ## The new root -/

section NewRoot

variable {root : WrsNode ι}

theorem good_newRoot (h : root.Good) : (newRoot root).Good := by
  obtain ⟨hmax, -, hcnt, -⟩ := Iff.mp WrsNode.good_iff h
  refine Iff.mpr WrsNode.good_iff ⟨?_, ?_, ?_, fun i => ?_⟩
  · simp [newRoot, hmax, pow_succ]
  · -- the old root's sum in one slot of zeros
    simp only [newRoot]
    rw [WrsNode.sum_toBitVec_update]
    simp
  · -- the old root's items are the only ones below
    rw [WrsNode.length_entries, Finset.sum_eq_single ⟨0, wrsBranches_pos⟩]
    · simp [newRoot, hcnt]
    · intro b _ hb
      simp [newRoot, hb]
    · exact fun h0 => absurd (Finset.mem_univ _) h0
  · by_cases hi : i = ⟨0, wrsBranches_pos⟩
    · subst hi
      simp [newRoot, h]
    · simp [newRoot, hi]

/-- The new root holds at each position what the old one did. -/
theorem slotAt_newRoot (h : root.Good) (q : Nat) : (newRoot root).slotAt q = root.slotAt q := by
  have hl : (newRoot root).level ≠ 0 := by simp [newRoot]
  have hbi : (newRoot root).maxItems / wrsBranches = root.maxItems :=
    Nat.mul_div_cancel _ wrsBranches_pos
  have hpos : 0 < root.maxItems := WrsNode.maxItems_pos h
  have hsplit : q = root.maxItems * (q / root.maxItems) + q % root.maxItems :=
    (Nat.div_add_mod q root.maxItems).symm
  by_cases hq : q < root.maxItems
  · -- branch `0` is the old root
    have h0 := WrsNode.slotAt_inner hl hbi ⟨0, wrsBranches_pos⟩ hq
    simp only [Nat.mul_zero, Nat.zero_add] at h0
    rw [h0]
    simp [newRoot, Slot.asNode]
  · -- past the old root's room: the new root's nil branches, or past its own room
    have hnone : root.slotAt q = none := by
      cases hs : root.slotAt q with
      | none => rfl
      | some e => exact absurd (WrsNode.lt_maxItems_of_slotAt h hs) hq
    rw [hnone]
    by_cases hb : q / root.maxItems < wrsBranches
    · have hne : (⟨q / root.maxItems, hb⟩ : Fin wrsBranches) ≠ ⟨0, wrsBranches_pos⟩ := by
        intro h0
        have := (Nat.div_eq_zero_iff_lt hpos).mp (congrArg Fin.val h0)
        exact hq this
      rw [hsplit, WrsNode.slotAt_inner hl hbi ⟨q / root.maxItems, hb⟩ (Nat.mod_lt q hpos)]
      simp [newRoot, hne, Slot.asNode]
    · rw [not_lt, Nat.le_div_iff_mul_le hpos] at hb
      exact WrsNode.slotAt_inner_of_le hl hbi hb hpos

/-- The root `setWeight` inserts into, grown when full, is good, has room and reads as the old. -/
theorem grown_spec (h : root.Good) :
    let root' := if root.itemCnt = root.maxItems then newRoot root else root
    root'.Good ∧ root'.itemCnt < root'.maxItems ∧ ∀ q, root'.slotAt q = root.slotAt q := by
  intro root'
  have hle : root.itemCnt ≤ root.maxItems := by
    rw [WrsNode.itemCnt_eq_length h]
    exact WrsNode.length_entries_le h
  by_cases hfull : root.itemCnt = root.maxItems
  · have hlt : root.maxItems < root.maxItems * wrsBranches :=
      (Nat.lt_mul_iff_one_lt_right (WrsNode.maxItems_pos h)).mpr (by decide)
    simp only [root']
    rw [if_pos hfull]
    exact ⟨good_newRoot h, by simp only [newRoot]; omega, slotAt_newRoot h⟩
  · simp only [root']
    rw [if_neg hfull]
    exact ⟨h, by omega, fun _ => rfl⟩

end NewRoot

/-! ## `setWeight` keeps the invariant -/

section Calls

variable [DecidableEq ι]

/-- **`setWeight` from a state with the invariant never panics**, keeps the invariant, and
changes the item's weight alone. -/
theorem Inv.setWeight {w : WeightedRandomSelect ι} (h : w.Inv) (item : ι) (weight : Int64) :
    ∃ w', w.setWeight item weight = some w' ∧ w'.Inv ∧
      w'.weightOf = Function.update w.weightOf item weight := by
  cases hidx : w.idx item with
  | some p =>
    -- the item is held at `p`: its slot takes the weight, or is emptied
    obtain ⟨old, hold⟩ := (h.indexes item p).mp hidx
    obtain ⟨root', hset, hR⟩ := WrsNode.setWeight_spec h.good hold weight
    set e : Option Int64 := if weight = 0 then none else some weight with he
    have hslot : ∀ q, root'.slotAt q = if q = p then e.map (item, ·) else w.root.slotAt q := by
      intro q
      rw [hR.slotAt_eq, he]
      split_ifs <;> rfl
    have hidx' : (if weight = 0 then Function.update w.idx item none else w.idx) =
        Function.update w.idx item (e.map fun _ => p) := by
      rw [he]
      split_ifs with hw
      · rfl
      · rw [Option.map_some, ← hidx, Function.update_eq_self]
    refine ⟨⟨root', if weight = 0 then Function.update w.idx item none else w.idx⟩,
      by simp [WeightedRandomSelect.setWeight, hidx, hset],
      ⟨hR.good, h.indexes.update (.inl hidx) hslot hidx'⟩, ?_⟩
    rw [weightOf, weightOf, h.indexes.valueAt_update (.inl hidx) hslot hidx', he]
    split_ifs with hw <;> simp [hw]
  | none =>
    by_cases hw : weight = 0
    · -- an item not held under weight zero: nothing changes
      refine ⟨w, by simp [WeightedRandomSelect.setWeight, hidx, hw], h, ?_⟩
      have h0 : w.weightOf item = 0 := by simp [weightOf, valueAt, hidx]
      rw [hw, ← h0, Function.update_eq_self]
    · -- a new item: the root grows when full, then takes it at a free position
      obtain ⟨hg0, hroom0, hslot0⟩ := grown_spec h.good
      obtain ⟨root', p, hins, hI⟩ := WrsNode.insert_spec hg0 hroom0 item hw
      have hslot : ∀ q, root'.slotAt q = if q = p then (some weight).map (item, ·) else w.root.slotAt q := by
        intro q
        rw [hI.slotAt_eq, hslot0]
        rfl
      have hfree : w.root.slotAt p = none := hslot0 p ▸ hI.slotAt_idx
      have hidx' : Function.update w.idx item (some p) =
          Function.update w.idx item ((some weight).map fun _ => p) := rfl
      refine ⟨⟨root', Function.update w.idx item (some p)⟩,
        by simp [WeightedRandomSelect.setWeight, hidx, hw, hins],
        ⟨hI.good, h.indexes.update (.inr ⟨hidx, hfree⟩) hslot hidx'⟩, ?_⟩
      rw [weightOf, weightOf]
      exact h.indexes.valueAt_update (.inr ⟨hidx, hfree⟩) hslot hidx' 0

/-- A run of `setWeight` calls (`update` and `remove` are two of them). -/
def run (calls : List (ι × Int64)) (w : WeightedRandomSelect ι) : Option (WeightedRandomSelect ι) :=
  calls.foldlM (fun w c => w.setWeight c.1 c.2) w

/-- The weights a run of calls leaves over `m`: the last call for an item wins. -/
def setAll (calls : List (ι × Int64)) (m : ι → Int64) : ι → Int64 :=
  calls.foldl (fun m c => Function.update m c.1 c.2) m

theorem setAll_of_not_mem {calls : List (ι × Int64)} {x : ι} (hx : x ∉ calls.map Prod.fst)
    (m : ι → Int64) : setAll calls m x = m x := by
  induction calls generalizing m with
  | nil => rfl
  | cons c cs ih =>
    simp only [List.map_cons, List.mem_cons, not_or] at hx
    rw [setAll, List.foldl_cons, ← setAll, ih hx.2, Function.update_of_ne hx.1]

/-- **Every run of calls from a state with the invariant never panics, keeps the invariant, and
leaves each item the last weight it was given.** -/
theorem Inv.run {w : WeightedRandomSelect ι} (h : w.Inv) (calls : List (ι × Int64)) :
    ∃ w', run calls w = some w' ∧ w'.Inv ∧ w'.weightOf = setAll calls w.weightOf := by
  induction calls generalizing w with
  | nil => exact ⟨w, rfl, h, rfl⟩
  | cons c cs ih =>
    obtain ⟨w₁, hset, h₁, hweight⟩ := h.setWeight c.1 c.2
    obtain ⟨w', hrun, h', hweight'⟩ := ih h₁
    refine ⟨w', ?_, h', ?_⟩
    · rw [WeightedRandomSelect.run, List.foldlM_cons, hset, Option.bind_eq_bind, Option.bind_some]
      exact hrun
    · rw [hweight', hweight]
      rfl

/-- **From the new selector, every run of calls leaves the finite map of the last weights
given**: its leaves hold, once each, exactly the items whose last weight is not zero. -/
theorem run_new (calls : List (ι × Int64)) :
    ∃ w, run calls newWeightedRandomSelect = some w ∧ w.Inv ∧
      w.weightOf = setAll calls (fun _ => 0) ∧
      (∀ x v, (x, v) ∈ w.root.entries ↔ v = setAll calls (fun _ => 0) x ∧ v ≠ 0) ∧
      (w.root.entries.map Prod.fst).Nodup := by
  obtain ⟨w, hrun, h, hweight⟩ := inv_new.run calls
  rw [weightOf_new] at hweight
  refine ⟨w, hrun, h, hweight, fun x v => ?_, h.nodup_entries⟩
  rw [h.mem_entries_iff, hweight]

/-- The total weight of the items a selector holds, summed over a set that covers them. -/
theorem Inv.totalWeight_entries {w : WeightedRandomSelect ι} (h : w.Inv) {items : Finset ι}
    (hitems : ∀ x, w.weightOf x ≠ 0 → x ∈ items) :
    totalWeight entryWeight w.root.entries = ∑ x ∈ items, (w.weightOf x).toInt := by
  have hmap : w.root.entries.map entryWeight =
      (w.root.entries.map Prod.fst).map fun x => (w.weightOf x).toInt := by
    rw [List.map_map]
    refine List.map_congr_left fun e he => ?_
    have := (Iff.mp (h.mem_entries_iff (x := e.1) (v := e.2)) he).1
    simp [entryWeight, this]
  rw [totalWeight, hmap, ← List.sum_toFinset _ h.nodup_entries]
  apply Finset.sum_subset
  · intro x hx
    obtain ⟨⟨x, v⟩, he, rfl⟩ := List.mem_map.mp (List.mem_toFinset.mp hx)
    obtain ⟨rfl, hne⟩ := Iff.mp h.mem_entries_iff he
    exact hitems x hne
  · intro x _ hx
    by_cases h0 : w.weightOf x = 0
    · simp [h0]
    · exact absurd (List.mem_toFinset.mpr (List.mem_map.mpr ⟨(x, w.weightOf x),
        Iff.mpr h.mem_entries_iff ⟨rfl, h0⟩, rfl⟩)) hx

/-- **After every run whose last weights are not negative and add up to less than `2 ^ 63`, the
root's `choose` at each `val` below its sum returns the item whose interval of cumulative
weights, over the leaves in order, holds `val`.** -/
theorem choose_run (calls : List (ι × Int64))
    (hnn : ∀ x, 0 ≤ (setAll calls (fun _ => 0) x).toInt)
    (hsum : ∑ x ∈ (calls.map Prod.fst).toFinset, (setAll calls (fun _ => 0) x).toInt < 2 ^ 63) :
    ∃ w, run calls newWeightedRandomSelect = some w ∧
      w.root.sumWeight.toInt = ∑ x ∈ (calls.map Prod.fst).toFinset, (setAll calls (fun _ => 0) x).toInt ∧
      ∀ val : Int64, 0 ≤ val.toInt → val.toInt < w.root.sumWeight.toInt →
        ∃ (x : ι) (k : Nat) (hk : k < w.root.entries.length),
          w.root.choose val = some (x, setAll calls (fun _ => 0) x) ∧
          w.root.entries[k] = (x, setAll calls (fun _ => 0) x) ∧
          totalWeight entryWeight (w.root.entries.take k) ≤ val.toInt ∧
          val.toInt < totalWeight entryWeight (w.root.entries.take k) +
            (setAll calls (fun _ => 0) x).toInt := by
  obtain ⟨w, hrun, h, hweight⟩ := inv_new.run calls
  rw [weightOf_new] at hweight
  -- every item with a weight was given one by a call
  have hitems : ∀ x, w.weightOf x ≠ 0 → x ∈ (calls.map Prod.fst).toFinset := fun x hx => by
    by_contra hnot
    rw [List.mem_toFinset] at hnot
    rw [hweight, setAll_of_not_mem hnot] at hx
    exact hx rfl
  have htotal := h.totalWeight_entries hitems
  rw [hweight] at htotal
  have hnn' : ∀ e ∈ w.root.entries, 0 ≤ entryWeight e := fun e he => by
    rw [entryWeight, (Iff.mp h.mem_entries_iff he).1, hweight]
    exact hnn e.1
  have hsum' : totalWeight entryWeight w.root.entries < 2 ^ 63 := htotal ▸ hsum
  have hroot := WrsNode.toInt_sumWeight h.good hnn' hsum'
  refine ⟨w, hrun, hroot.trans htotal, fun val hv hlt => ?_⟩
  rw [WrsNode.choose_eq_scan h.good hnn' hsum' hv]
  -- the ticket is below the total, so the scan finds the entry whose interval holds it
  obtain ⟨e, he⟩ : ∃ e, scan entryWeight w.root.entries val.toInt = some e :=
    Option.ne_none_iff_exists'.mp (by rw [Ne, scan_eq_none_iff hnn' hv]; omega)
  obtain ⟨k, hk, hke, hlo, hhi⟩ := Iff.mp (scan_eq_some_iff hnn' hv) he
  obtain ⟨x, v⟩ := e
  obtain ⟨rfl, -⟩ := Iff.mp h.mem_entries_iff (hke ▸ List.getElem_mem hk)
  rw [hweight] at he hke hhi
  exact ⟨x, k, hk, he, hke, hlo, hhi⟩

/-- Three items given weights and one of them removed: the root's sum is the total of the two
left. -/
theorem choose_run_sample : ∃ w, run [(1, 5), (2, 3), (1, 0), (3, 7)]
    (newWeightedRandomSelect : WeightedRandomSelect Nat) = some w ∧ w.root.sumWeight.toInt = 10 := by
  obtain ⟨w, hrun, hsum, -⟩ := choose_run [(1, 5), (2, 3), (1, 0), (3, 7)]
    (fun x => by simp only [setAll, List.foldl, Function.update_apply]; split_ifs <;> decide)
    (by decide)
  exact ⟨w, hrun, hsum.trans (by decide)⟩

end Calls

/-! ## The loop of `choose` -/

section Choose

variable {σ : Type} {next : σ → Int64 → Int64 × σ} {Weight : ι → Int64} {S : Finset ι}
  {cap : ι → Int}

/-- The weights are not negative, under the items' caps, and only items of `S` have one. -/
structure Capped (S : Finset ι) (cap : ι → Int) (w : WeightedRandomSelect ι) : Prop where
  mem : ∀ x, w.weightOf x ≠ 0 → x ∈ S
  nonneg : ∀ x, 0 ≤ (w.weightOf x).toInt
  le_cap : ∀ x, (w.weightOf x).toInt ≤ cap x

theorem Capped.entries_nonneg {w : WeightedRandomSelect ι} (h : w.Inv) (hc : Capped S cap w) :
    ∀ e ∈ w.root.entries, 0 ≤ entryWeight e := by
  rintro ⟨x, v⟩ he
  rw [entryWeight, (Iff.mp h.mem_entries_iff he).1]
  exact hc.nonneg x

variable [DecidableEq ι]

theorem Capped.totalWeight_lt {w : WeightedRandomSelect ι} (h : w.Inv) (hc : Capped S cap w)
    (hcap : ∑ x ∈ S, cap x < 2 ^ 63) : totalWeight entryWeight w.root.entries < 2 ^ 63 := by
  rw [h.totalWeight_entries hc.mem]
  calc ∑ x ∈ S, (w.weightOf x).toInt ≤ ∑ x ∈ S, cap x := Finset.sum_le_sum fun x _ => hc.le_cap x
    _ < 2 ^ 63 := hcap

/-- Setting an item of `S` to a weight under its cap keeps the weights under their caps. -/
theorem Capped.update {w w' : WeightedRandomSelect ι} (hc : Capped S cap w) {x : ι} {v : Int64}
    (hw' : w'.weightOf = Function.update w.weightOf x v) (hx : x ∈ S)
    (hv : 0 ≤ v.toInt ∧ v.toInt ≤ cap x) : Capped S cap w' := by
  refine ⟨fun y hy => ?_, fun y => ?_, fun y => ?_⟩ <;> rw [hw'] at * <;> by_cases hxy : y = x
  · exact hxy ▸ hx
  · exact hc.mem y (by rwa [Function.update_of_ne hxy] at hy)
  · rw [hxy, Function.update_self]
    exact hv.1
  · rw [Function.update_of_ne hxy]
    exact hc.nonneg y
  · rw [hxy, Function.update_self]
    exact hv.2
  · rw [Function.update_of_ne hxy]
    exact hc.le_cap y

/-- A selector whose weights are under caps has sum zero only when it keeps no weight. -/
theorem Capped.weightOf_eq_zero {w : WeightedRandomSelect ι} (h : w.Inv) (hc : Capped S cap w)
    (hcap : ∑ x ∈ S, cap x < 2 ^ 63) (h0 : w.root.sumWeight = 0) (x : ι) : w.weightOf x = 0 := by
  by_contra hx
  have hroot := WrsNode.toInt_sumWeight h.good (hc.entries_nonneg h) (hc.totalWeight_lt h hcap)
  rw [h.totalWeight_entries hc.mem, h0, Int64.toInt_zero] at hroot
  have hpos : 0 < (w.weightOf x).toInt :=
    lt_of_le_of_ne (hc.nonneg x) (fun h' => hx (Int64.toInt_inj.mp (by rw [← h']; rfl)))
  have hle := Finset.single_le_sum (f := fun y => (w.weightOf y).toInt) (fun y _ => hc.nonneg y)
    (hc.mem x hx)
  omega

/-- **A round of `choose` from a state with the invariant and capped weights never panics**, with
draws in range and current weights under the caps. -/
theorem Inv.chooseRound {w : WeightedRandomSelect ι} (h : w.Inv) (hc : Capped S cap w)
    (hcap : ∑ x ∈ S, cap x < 2 ^ 63) (hW : ∀ x ∈ S, 0 ≤ (Weight x).toInt ∧ (Weight x).toInt ≤ cap x)
    (hnext : ∀ s n, 0 < n.toInt → 0 ≤ (next s n).1.toInt ∧ (next s n).1.toInt < n.toInt) (s : σ) :
    ∃ r w' s', chooseRound next Weight w s = some (r, w', s') ∧ w'.Inv ∧ Capped S cap w' ∧
      (∀ x, w'.weightOf x = w.weightOf x ∨ w'.weightOf x = Weight x) ∧
      (r = some none ↔ w.root.sumWeight = 0) ∧ (r = some none → w' = w) ∧
      ∀ x, r = some (some x) → w'.weightOf x = Weight x ∧ 0 < (Weight x).toInt := by
  by_cases h0 : w.root.sumWeight = 0
  · exact ⟨some none, w, s, by simp [WeightedRandomSelect.chooseRound, h0], h, hc,
      fun _ => .inl rfl, by simp [h0], fun _ => rfl, by simp⟩
  have hnn := hc.entries_nonneg h
  have htot := hc.totalWeight_lt h hcap
  have hroot := WrsNode.toInt_sumWeight h.good hnn htot
  have hpos : 0 < w.root.sumWeight.toInt :=
    lt_of_le_of_ne (hroot ▸ totalWeight_nonneg hnn) (fun h' => h0 (Int64.toInt_inj.mp (by rw [← h']; rfl)))
  -- the first draw is below the sum, so the tree chooses an item it holds
  obtain ⟨hv0, hvlt⟩ := hnext s w.root.sumWeight hpos
  have hdraw : int63n next s w.root.sumWeight = some (next s w.root.sumWeight) := by
    rw [int63n, if_neg (by rw [Int64.le_iff_toInt_le]; simp; omega)]
  obtain ⟨e, he⟩ : ∃ e, scan entryWeight w.root.entries (next s w.root.sumWeight).1.toInt = some e :=
    Option.ne_none_iff_exists'.mp (by rw [Ne, scan_eq_none_iff hnn hv0]; omega)
  obtain ⟨choice, lastWeight⟩ := e
  have hchoose := (WrsNode.choose_eq_scan h.good hnn htot hv0).trans he
  obtain ⟨k, hk, hke, -, -⟩ := Iff.mp (scan_eq_some_iff hnn hv0) he
  have hmem : (choice, lastWeight) ∈ w.root.entries := hke ▸ List.getElem_mem hk
  obtain ⟨hlast, hlast0⟩ := Iff.mp h.mem_entries_iff hmem
  have hlastpos : 0 < lastWeight.toInt :=
    lt_of_le_of_ne (hnn _ hmem) (fun h' => hlast0 (Int64.toInt_inj.mp (by rw [← h']; rfl)))
  have hS : choice ∈ S := hc.mem choice (hlast ▸ hlast0)
  -- the chosen item takes its current weight
  obtain ⟨w₁, hset, h₁, hw₁⟩ : ∃ w₁, (if Weight choice ≠ lastWeight then
      w.setWeight choice (Weight choice) else pure w) = some w₁ ∧ w₁.Inv ∧
      w₁.weightOf = Function.update w.weightOf choice (Weight choice) := by
    by_cases hne : Weight choice ≠ lastWeight
    · rw [if_pos hne]
      exact h.setWeight choice (Weight choice)
    · rw [if_neg hne, not_not.mp hne, hlast, Function.update_eq_self]
      exact ⟨w, rfl, h, rfl⟩
  have hc₁ := hc.update hw₁ hS (hW choice hS)
  have hkeep : ∀ x, w₁.weightOf x = w.weightOf x ∨ w₁.weightOf x = Weight x := fun x => by
    rw [hw₁]
    by_cases hx : x = choice
    · exact .inr (by rw [hx, Function.update_self])
    · exact .inl (Function.update_of_ne hx _ _)
  have hnow : w₁.weightOf choice = Weight choice := by rw [hw₁, Function.update_self]
  have hcont : ∀ f : WeightedRandomSelect ι → Option (Option (Option ι) × WeightedRandomSelect ι × σ),
      (if Weight choice ≠ lastWeight then (w.setWeight choice (Weight choice)).bind f
        else (pure w : Option _).bind f) = f w₁ := by
    intro f
    split_ifs at hset ⊢ <;> rw [hset] <;> rfl
  rw [WeightedRandomSelect.chooseRound, if_neg h0]
  simp only [hdraw, hchoose, Option.bind_eq_bind, Option.bind_some]
  rw [hcont]
  by_cases hge : Weight choice ≥ lastWeight
  · -- a weight that has not gone down: the item is returned
    rw [if_pos hge]
    have hgt : 0 < (Weight choice).toInt := lt_of_lt_of_le hlastpos (Int64.le_iff_toInt_le.mp hge)
    exact ⟨_, w₁, _, rfl, h₁, hc₁, hkeep, by simp [h0], by simp, fun x hx => by
      cases hx
      exact ⟨hnow, hgt⟩⟩
  · -- a weight that has gone down: a second draw below the old weight decides
    rw [if_neg hge]
    obtain ⟨hr0, hrlt⟩ := hnext (next s w.root.sumWeight).2 lastWeight hlastpos
    have hdraw₂ : int63n next (next s w.root.sumWeight).2 lastWeight =
        some (next (next s w.root.sumWeight).2 lastWeight) := by
      rw [int63n, if_neg (by rw [Int64.le_iff_toInt_le]; simp; omega)]
    simp only [hdraw₂, Option.bind_some]
    refine ⟨_, w₁, _, rfl, h₁, hc₁, hkeep, ?_, ?_, fun x hx => ?_⟩
    · split_ifs <;> simp [h0]
    · split_ifs <;> simp
    · split_ifs at hx with hlt
      cases hx
      exact ⟨hnow, lt_of_le_of_lt hr0 (Int64.lt_iff_toInt_lt.mp hlt)⟩

/-- **The loop of `choose`, for every number of rounds, never panics** from a state with the
invariant and capped weights, with draws in range and current weights under the caps; it
returns nil only when no weight is left, and only an item of positive current weight. -/
theorem Inv.choose_loop {w : WeightedRandomSelect ι} (h : w.Inv) (hc : Capped S cap w)
    (hcap : ∑ x ∈ S, cap x < 2 ^ 63) (hW : ∀ x ∈ S, 0 ≤ (Weight x).toInt ∧ (Weight x).toInt ≤ cap x)
    (hnext : ∀ s n, 0 < n.toInt → 0 ≤ (next s n).1.toInt ∧ (next s n).1.toInt < n.toInt)
    (rounds : Nat) (s : σ) :
    ∃ r w' s', choose next Weight rounds w s = some (r, w', s') ∧ w'.Inv ∧ Capped S cap w' ∧
      (∀ x, w'.weightOf x = w.weightOf x ∨ w'.weightOf x = Weight x) ∧
      (r = some none → ∀ x, w'.weightOf x = 0) ∧
      ∀ x, r = some (some x) → w'.weightOf x = Weight x ∧ 0 < (Weight x).toInt := by
  induction rounds generalizing w s with
  | zero => exact ⟨none, w, s, rfl, h, hc, fun _ => .inl rfl, by simp, by simp⟩
  | succ k ih =>
    -- one round, then the rounds left from where it ends
    obtain ⟨r, w₁, s₁, hround, h₁, hc₁, hkeep₁, hnil₁, hsame₁, hret₁⟩ :=
      h.chooseRound hc hcap hW hnext s
    rw [WeightedRandomSelect.choose, hround]
    simp only [Option.bind_eq_bind, Option.bind_some]
    cases r with
    | some r =>
      refine ⟨some r, w₁, s₁, rfl, h₁, hc₁, hkeep₁, fun hr => ?_, hret₁⟩
      cases hr
      obtain rfl := hsame₁ rfl
      exact hc.weightOf_eq_zero h hcap (hnil₁.mp rfl)
    | none =>
      obtain ⟨r', w', s', hloop, h', hc', hkeep', hnil', hret'⟩ := ih h₁ hc₁ s₁
      refine ⟨r', w', s', hloop, h', hc', fun x => ?_, hnil', hret'⟩
      rcases hkeep' x with hx | hx
      · rw [hx]
        exact hkeep₁ x
      · exact .inr hx

/-- One item given weight `5` whose weight is now `3`, a source that always draws `0`, and three
rounds: whatever `choose` returns is an item of positive current weight. -/
theorem choose_loop_sample : ∃ w, run [(1, 5)] (newWeightedRandomSelect : WeightedRandomSelect Nat) = some w ∧
    ∃ r w' s', choose (fun (s : Nat) _ => ((0 : Int64), s + 1)) (fun _ => (3 : Int64)) 3 w 0 =
      some (r, w', s') ∧ ∀ x, r = some (some x) → w'.weightOf x = 3 := by
  obtain ⟨w, hrun, h, hweight⟩ := inv_new.run [(1, 5)]
  rw [weightOf_new] at hweight
  have hc : Capped {1} (fun _ => 5) w := by
    refine ⟨fun x hx => ?_, fun x => ?_, fun x => ?_⟩ <;> rw [hweight] at * <;>
      by_cases hx1 : x = 1 <;> simp_all [setAll]
  obtain ⟨r, w', s', hloop, -, -, -, -, hret⟩ := h.choose_loop hc (by decide)
    (fun _ _ => (by decide : 0 ≤ (3 : Int64).toInt ∧ (3 : Int64).toInt ≤ 5))
    (fun (s : Nat) n hn => (by simpa using hn :
      0 ≤ ((0 : Int64), s + 1).1.toInt ∧ ((0 : Int64), s + 1).1.toInt < n.toInt)) 3 0
  exact ⟨w, hrun, r, w', s', hloop, fun x hx => (hret x hx).1⟩

end Choose

end WeightedRandomSelect

end EpvChain.Fc
