import EpvChain.Lib.WeightedScan

/-!
# The weighted random selection tree: nodes (`fc/randselect.go`)

A `wrsNode` has `wrsBranches` slots: items at level `0`, nodes one level down above it. An item
is found by its leaf position (`slotAt`). The type assertions of the source panic (`none`) on
what a slot does not hold. `insert` recurses on the height and then on the level, since a nil
branch gets a new node one level down.

`WrsNode.Good` is the invariant the tree keeps. On a good node, `insert_spec` and
`setWeight_spec` show that neither panics and each changes one leaf position, and
`choose_eq_scan` that `choose` is the scan of `Lib.WeightedScan` over the items.
-/

namespace EpvChain.Fc

open EpvChain.Lib

/-- `wrsBranches`: the slots of a node. -/
def wrsBranches : Nat := 8

theorem wrsBranches_pos : 0 < wrsBranches := by decide

mutual

/-- What a slot of a node, an `interface{}`, holds: nil, an item, or a `*wrsNode`. -/
inductive Slot (ι : Type) where
  | none
  | item (x : ι)
  | node (n : WrsNode ι)

/-- `wrsNode`: the slots and their weights, the sum of the weights, the level above the leaves,
how many items lie below the node and how many fit. -/
structure WrsNode (ι : Type) where
  items : Fin wrsBranches → Slot ι
  weights : Fin wrsBranches → Int64
  sumWeight : Int64
  level : Nat
  itemCnt : Nat
  maxItems : Nat

end

variable {ι : Type}

namespace Slot

/-- The type assertion `.(*wrsNode)`, which panics on nil and on an item. -/
def asNode : Slot ι → Option (WrsNode ι)
  | node n => some n
  | _ => Option.none

/-- The type assertion `.(wrsItem)`, which panics on nil and on a node. -/
def asItem : Slot ι → Option ι
  | item x => some x
  | _ => Option.none

@[simp] theorem asNode_eq_some {s : Slot ι} {c : WrsNode ι} : s.asNode = some c ↔ s = node c := by
  cases s <;> simp [asNode]

end Slot

mutual

/-- The height of what a slot holds: that of its node, if it holds one. -/
def Slot.height : Slot ι → Nat
  | .node n => n.height
  | _ => 0

/-- The height of a node: one above its highest slot. -/
def WrsNode.height : WrsNode ι → Nat
  | ⟨items, _, _, _, _, _⟩ => Finset.univ.sup (fun i => (items i).height) + 1

end

namespace WrsNode

theorem height_lt_of_asNode {n c : WrsNode ι} {i : Fin wrsBranches}
    (h : (n.items i).asNode = some c) : c.height < n.height := by
  obtain ⟨items, _, _, _, _, _⟩ := n
  dsimp only at h
  have hle : (items i).height ≤ Finset.univ.sup (fun i => (items i).height) :=
    Finset.le_sup (f := fun i => (items i).height) (Finset.mem_univ i)
  rw [Iff.mp Slot.asNode_eq_some h, Slot.height] at hle
  rw [height]
  omega

/-- A node with every slot nil: `&wrsNode{maxItems: maxItems, level: level}`. -/
def empty (level maxItems : Nat) : WrsNode ι where
  items _ := .none
  weights _ := 0
  sumWeight := 0
  level := level
  itemCnt := 0
  maxItems := maxItems

@[simp] theorem items_empty (level maxItems : Nat) (i : Fin wrsBranches) :
    (empty level maxItems : WrsNode ι).items i = .none := rfl

@[simp] theorem weights_empty (level maxItems : Nat) (i : Fin wrsBranches) :
    (empty level maxItems : WrsNode ι).weights i = 0 := rfl

@[simp] theorem sumWeight_empty (level maxItems : Nat) :
    (empty level maxItems : WrsNode ι).sumWeight = 0 := rfl

@[simp] theorem level_empty (level maxItems : Nat) :
    (empty level maxItems : WrsNode ι).level = level := rfl

@[simp] theorem itemCnt_empty (level maxItems : Nat) :
    (empty level maxItems : WrsNode ι).itemCnt = 0 := rfl

@[simp] theorem maxItems_empty (level maxItems : Nat) :
    (empty level maxItems : WrsNode ι).maxItems = maxItems := rfl

theorem height_empty (level maxItems : Nat) : (empty level maxItems : WrsNode ι).height = 1 := by
  simp [empty, height, Slot.height]

/-- The node `insert` descends into at `branch`: a new one a level down for a nil branch. -/
def subNode (n : WrsNode ι) (branch : Fin wrsBranches) : Option (WrsNode ι) :=
  match n.items branch with
  | .none => some (empty (n.level - 1) (n.maxItems / wrsBranches))
  | s => s.asNode

/-- `insert` descends to a lower height, or to a lower level in a new node. -/
theorem subNode_lt {n c : WrsNode ι} {branch : Fin wrsBranches} (hl : ¬n.level = 0)
    (h : n.subNode branch = some c) :
    Prod.Lex (· < ·) (· < ·) (c.height, c.level) (n.height, n.level) := by
  unfold subNode at h
  split at h
  · cases h
    rw [Prod.lex_def, height_empty, level_empty]
    have : 1 ≤ n.height := by obtain ⟨⟩ := n; simp [height]
    omega
  · exact Prod.Lex.left _ _ (height_lt_of_asNode h)

end WrsNode

/-- The loop at the head of `wrsNode.insert`: it passes each branch that holds something and,
above the leaves, whose node is full; passing the last branch is `panic(nil)`. -/
def insertBranch (items : Fin wrsBranches → Slot ι) (level : Nat) :
    List (Fin wrsBranches) → Option (Fin wrsBranches)
  | [] => none
  | b :: bs =>
    match items b, level with
    | .none, _ => some b
    | _, 0 => insertBranch items level bs
    | s, _ + 1 => do
      let c ← s.asNode
      if c.itemCnt = c.maxItems then insertBranch items level bs else some b

namespace WrsNode

set_option linter.unusedVariables false in
/-- `wrsNode.insert`: the item goes into the first branch with room, and its leaf position is
returned. -/
def insert (n : WrsNode ι) (item : ι) (weight : Int64) : Option (WrsNode ι × Nat) := do
  let branch ← insertBranch n.items n.level (List.finRange wrsBranches)
  let n' := { n with
    itemCnt := n.itemCnt + 1
    sumWeight := n.sumWeight + weight
    weights := Function.update n.weights branch (n.weights branch + weight) }
  if hl : n.level = 0 then
    return ({ n' with items := Function.update n.items branch (.item item) }, branch)
  else
    match hs : n.subNode branch with
    | none => none
    | some subNode =>
      let (subNode, subIdx) ← subNode.insert item weight
      return ({ n' with items := Function.update n.items branch (.node subNode) },
        subNode.maxItems * branch + subIdx)
termination_by (n.height, n.level)
decreasing_by exact subNode_lt hl hs

set_option linter.unusedVariables false in
/-- `wrsNode.setWeight`: the leaf slot at `idx` takes the weight and every node on the way the
difference, which is returned; a weight of zero empties the slot. -/
def setWeight (n : WrsNode ι) (idx : Nat) (weight : Int64) : Option (WrsNode ι × Int64) :=
  if n.level = 0 then
    -- `n.weights[idx]` panics out of range
    if h : idx < wrsBranches then
      let diff := weight - n.weights ⟨idx, h⟩
      some ({ n with
        weights := Function.update n.weights ⟨idx, h⟩ weight
        sumWeight := n.sumWeight + diff
        items := if weight = 0 then Function.update n.items ⟨idx, h⟩ .none else n.items
        itemCnt := if weight = 0 then n.itemCnt - 1 else n.itemCnt }, diff)
    else none
  else
    let branchItems := n.maxItems / wrsBranches
    -- `idx / branchItems` panics on a zero divisor, `n.items[branch]` out of range
    if branchItems = 0 then none
    else if h : idx / branchItems < wrsBranches then
      match hc : (n.items ⟨idx / branchItems, h⟩).asNode with
      | none => none
      | some c => do
        let (c, diff) ← c.setWeight (idx - idx / branchItems * branchItems) weight
        some ({ n with
          items := Function.update n.items ⟨idx / branchItems, h⟩ (.node c)
          weights := Function.update n.weights ⟨idx / branchItems, h⟩
            (n.weights ⟨idx / branchItems, h⟩ + diff)
          sumWeight := n.sumWeight + diff
          itemCnt := if weight = 0 then n.itemCnt - 1 else n.itemCnt }, diff)
    else none
termination_by n.height
decreasing_by exact height_lt_of_asNode hc

end WrsNode

/-- The loop `for i, w := range n.weights` of `wrsNode.choose`; running off the end is
`panic(nil)`. -/
def chooseLoop (weights : Fin wrsBranches → Int64) (pick : Fin wrsBranches → Int64 → Option (ι × Int64)) :
    List (Fin wrsBranches) → Int64 → Option (ι × Int64)
  | [], _ => none
  | i :: is, val => if val < weights i then pick i val else chooseLoop weights pick is (val - weights i)

namespace WrsNode

set_option linter.unusedVariables false in
/-- `wrsNode.choose`. -/
def choose (n : WrsNode ι) (val : Int64) : Option (ι × Int64) :=
  chooseLoop n.weights
    (fun i val =>
      if n.level = 0 then (n.items i).asItem.map (·, n.weights i)
      else
        match hc : (n.items i).asNode with
        | none => none
        | some c => c.choose val)
    (List.finRange wrsBranches) val
termination_by n.height
decreasing_by exact height_lt_of_asNode hc

end WrsNode

section
-- Equation lemmas made once here, before the proofs below unfold them.
attribute [local simp] Slot.asNode Slot.asItem Slot.height WrsNode.height WrsNode.subNode insertBranch
  WrsNode.insert WrsNode.setWeight chooseLoop WrsNode.choose
end

/-! ## The items below a node, and the invariant -/

mutual

/-- The items below a slot with their weights, in slot order; `w` is the slot's weight. -/
def Slot.entries : Slot ι → Int64 → List (ι × Int64)
  | .none, _ => []
  | .item x, w => [(x, w)]
  | .node n, _ => n.entries

/-- The items below a node with their weights, in slot order. -/
def WrsNode.entries : WrsNode ι → List (ι × Int64)
  | ⟨items, weights, _, _, _, _⟩ =>
    (List.finRange wrsBranches).flatMap fun i => (items i).entries (weights i)

end

mutual

/-- What a slot of a good node at level `level` holds under weight `w`. -/
def Slot.Good : Slot ι → Nat → Int64 → Prop
  | .none, _, w => w = 0
  | .item _, level, w => level = 0 ∧ w ≠ 0
  | .node c, level, w => c.level + 1 = level ∧ c.sumWeight = w ∧ c.Good

/-- The invariant of a node: its capacity, sum and count are those of its slots, each good. -/
def WrsNode.Good : WrsNode ι → Prop
  | n@⟨items, weights, _, level, _, _⟩ =>
    n.maxItems = wrsBranches ^ (level + 1) ∧ n.sumWeight.toBitVec = ∑ i, (weights i).toBitVec ∧
      n.itemCnt = n.entries.length ∧ ∀ i, (items i).Good level (weights i)

end

section
attribute [local simp] Slot.entries WrsNode.entries Slot.Good WrsNode.Good
end

namespace Slot

@[simp] theorem entries_none (w : Int64) : (none : Slot ι).entries w = [] := by
  simp [entries]

@[simp] theorem entries_item (x : ι) (w : Int64) : (item x).entries w = [(x, w)] := by
  simp [entries]

@[simp] theorem entries_node (c : WrsNode ι) (w : Int64) : (node c).entries w = c.entries := by
  simp [entries]

@[simp] theorem good_none {level : Nat} {w : Int64} : (none : Slot ι).Good level w ↔ w = 0 := by
  simp [Good]

@[simp] theorem good_item {x : ι} {level : Nat} {w : Int64} :
    (item x).Good level w ↔ level = 0 ∧ w ≠ 0 := by
  simp [Good]

@[simp] theorem good_node {c : WrsNode ι} {level : Nat} {w : Int64} :
    (node c).Good level w ↔ c.level + 1 = level ∧ c.sumWeight = w ∧ c.Good := by
  simp [Good]

end Slot

namespace WrsNode

theorem entries_eq (n : WrsNode ι) :
    n.entries = (List.finRange wrsBranches).flatMap fun i => (n.items i).entries (n.weights i) := by
  cases n
  simp [entries]

theorem good_iff {n : WrsNode ι} :
    n.Good ↔ n.maxItems = wrsBranches ^ (n.level + 1) ∧
      n.sumWeight.toBitVec = ∑ i, (n.weights i).toBitVec ∧ n.itemCnt = n.entries.length ∧
      ∀ i, (n.items i).Good n.level (n.weights i) := by
  cases n
  simp [Good]

/-- A good node's capacity: `wrsBranches` blocks of `wrsBranches ^ level` positions. -/
theorem maxItems_eq_mul {n : WrsNode ι} (hn : n.Good) :
    n.maxItems = wrsBranches * wrsBranches ^ n.level := by
  rw [(Iff.mp good_iff hn).1, pow_succ, mul_comm]

theorem maxItems_pos {n : WrsNode ι} (hn : n.Good) : 0 < n.maxItems := by
  rw [(Iff.mp good_iff hn).1]
  exact Nat.pow_pos wrsBranches_pos

theorem branchItems_eq {n : WrsNode ι} (hn : n.Good) :
    n.maxItems / wrsBranches = wrsBranches ^ n.level := by
  rw [maxItems_eq_mul hn, Nat.mul_div_cancel_left _ wrsBranches_pos]

theorem branchItems_pos {n : WrsNode ι} (hn : n.Good) : 0 < n.maxItems / wrsBranches := by
  rw [branchItems_eq hn]
  exact Nat.pow_pos wrsBranches_pos

theorem itemCnt_eq_length {n : WrsNode ι} (hn : n.Good) : n.itemCnt = n.entries.length :=
  (Iff.mp good_iff hn).2.2.1

/-! The invariant read at one slot, by what it holds. -/

section Slots

variable {n : WrsNode ι} (hn : n.Good) {i : Fin wrsBranches}
include hn

theorem weights_eq_zero_of_none (hs : n.items i = .none) : n.weights i = 0 := by
  have hi := (Iff.mp good_iff hn).2.2.2 i
  rwa [hs, Slot.good_none] at hi

theorem level_eq_zero_of_item {x : ι} (hs : n.items i = .item x) : n.level = 0 ∧ n.weights i ≠ 0 := by
  have hi := (Iff.mp good_iff hn).2.2.2 i
  rwa [hs, Slot.good_item] at hi

theorem good_of_node {c : WrsNode ι} (hs : n.items i = .node c) :
    c.level + 1 = n.level ∧ c.sumWeight = n.weights i ∧ c.Good := by
  have hi := (Iff.mp good_iff hn).2.2.2 i
  rwa [hs, Slot.good_node] at hi

end Slots

/-- The count of the items below a node, slot by slot. -/
theorem length_entries (n : WrsNode ι) :
    n.entries.length = ∑ i, ((n.items i).entries (n.weights i)).length := by
  rw [entries_eq, List.length_flatMap, ← List.ofFn_eq_map, List.sum_ofFn]

@[simp] theorem entries_empty (level maxItems : Nat) : (empty level maxItems : WrsNode ι).entries = [] := by
  simp [entries_eq]

theorem good_empty (level : Nat) : (empty level (wrsBranches ^ (level + 1)) : WrsNode ι).Good := by
  simp [good_iff]

theorem height_lt_of_node {n c : WrsNode ι} {i : Fin wrsBranches} (h : n.items i = .node c) :
    c.height < n.height :=
  height_lt_of_asNode (Iff.mpr Slot.asNode_eq_some h)

/-- A good node holds at most `maxItems` items. -/
theorem length_entries_le {n : WrsNode ι} (hn : n.Good) : n.entries.length ≤ n.maxItems := by
  -- each slot holds at most what a node one level down holds
  have hslot : ∀ i, ((n.items i).entries (n.weights i)).length ≤ wrsBranches ^ n.level := by
    intro i
    cases hs : n.items i with
    | none => simp
    | item x => simp [(level_eq_zero_of_item hn hs).1]
    | node c =>
      obtain ⟨hlev, -, hc⟩ := good_of_node hn hs
      have hle := length_entries_le hc
      rw [(Iff.mp good_iff hc).1, hlev] at hle
      simpa using hle
  calc n.entries.length = ∑ i, ((n.items i).entries (n.weights i)).length := length_entries n
    _ ≤ ∑ _i : Fin wrsBranches, wrsBranches ^ n.level := Finset.sum_le_sum fun i _ => hslot i
    _ = n.maxItems := by
      rw [maxItems_eq_mul hn, Finset.sum_const, Finset.card_univ, Fintype.card_fin, smul_eq_mul]
termination_by n.height
decreasing_by exact height_lt_of_node hs

/-! ## Leaf positions -/

set_option linter.unusedVariables false in
/-- The item and weight at leaf position `idx`, found the way `setWeight` finds the slot. -/
def slotAt (n : WrsNode ι) (idx : Nat) : Option (ι × Int64) :=
  if n.level = 0 then
    if h : idx < wrsBranches then (n.items ⟨idx, h⟩).asItem.map (·, n.weights ⟨idx, h⟩) else none
  else
    let branchItems := n.maxItems / wrsBranches
    if h : idx / branchItems < wrsBranches then
      match hc : (n.items ⟨idx / branchItems, h⟩).asNode with
      | none => none
      | some c => c.slotAt (idx % branchItems)
    else none
termination_by n.height
decreasing_by exact height_lt_of_asNode hc

section
attribute [local simp] slotAt
end

theorem slotAt_leaf {n : WrsNode ι} (hl : n.level = 0) (i : Fin wrsBranches) :
    n.slotAt i = (n.items i).asItem.map (·, n.weights i) := by
  rw [slotAt, if_pos hl, dif_pos i.isLt]

theorem slotAt_leaf_of_le {n : WrsNode ι} (hl : n.level = 0) {idx : Nat} (h : wrsBranches ≤ idx) :
    n.slotAt idx = none := by
  rw [slotAt, if_pos hl, dif_neg (by omega)]

/-- Above the leaves, position `branchItems * b + r` is position `r` of branch `b`'s node. -/
theorem slotAt_inner {n : WrsNode ι} (hl : n.level ≠ 0) {bi : Nat} (hbi : n.maxItems / wrsBranches = bi)
    (b : Fin wrsBranches) {r : Nat} (hr : r < bi) :
    n.slotAt (bi * b + r) = (n.items b).asNode.bind (·.slotAt r) := by
  obtain ⟨hdiv, hmod⟩ := block_div_mod b hr
  have hfin : ∀ h, (⟨(bi * b + r) / bi, h⟩ : Fin wrsBranches) = b := fun _ => Fin.ext hdiv
  subst hbi
  rw [slotAt, if_neg hl, dif_pos (by rw [hdiv]; exact b.isLt)]
  split <;> rename_i hc <;> rw [hfin] at hc <;> simp [hc, hmod]

theorem slotAt_inner_of_le {n : WrsNode ι} (hl : n.level ≠ 0) {bi : Nat}
    (hbi : n.maxItems / wrsBranches = bi) {idx : Nat} (h : wrsBranches * bi ≤ idx) (hpos : 0 < bi) :
    n.slotAt idx = none := by
  rw [slotAt, if_neg hl]
  simp only [hbi]
  rw [dif_neg]
  rw [not_lt, Nat.le_div_iff_mul_le hpos]
  exact h

/-- **The items below a good node, in slot order, are what its leaf positions hold, in order.** -/
theorem entries_eq_filterMap {n : WrsNode ι} (hn : n.Good) :
    n.entries = (List.range n.maxItems).filterMap n.slotAt := by
  obtain ⟨hmax, -, -, -⟩ := Iff.mp good_iff hn
  rw [entries_eq]
  by_cases hl : n.level = 0
  · -- at the leaves slot `i` is position `i`
    rw [hmax, hl, zero_add, pow_one, ← List.map_coe_finRange_eq_range, List.filterMap_map,
      List.filterMap_eq_flatMap_toList]
    apply List.flatMap_congr
    intro i _
    rw [Function.comp_apply, slotAt_leaf hl]
    cases hs : n.items i with
    | none => simp [Slot.asItem]
    | item x => simp [Slot.asItem]
    | node c =>
      have := (good_of_node hn hs).1
      omega
  · -- above them slot `b` is the block of positions `branchItems * b + r`
    rw [maxItems_eq_mul hn, range_mul_eq_flatMap, List.filterMap_flatMap, ← List.map_coe_finRange_eq_range (n := wrsBranches),
      List.flatMap_map]
    apply List.flatMap_congr
    intro b _
    rw [List.filterMap_map, List.filterMap_congr fun r hr => by
      rw [Function.comp_apply, slotAt_inner hl (branchItems_eq hn) b (List.mem_range.mp hr)]]
    cases hs : n.items b with
    | none => simp [Slot.asNode]
    | item x => exact absurd (level_eq_zero_of_item hn hs).1 hl
    | node c =>
      obtain ⟨hlev, -, hc⟩ := good_of_node hn hs
      have hcmax : c.maxItems = wrsBranches ^ n.level := by rw [(Iff.mp good_iff hc).1, hlev]
      simp only [Slot.entries_node, Slot.asNode, Option.bind_some]
      rw [entries_eq_filterMap hc, hcmax]
termination_by n.height
decreasing_by exact height_lt_of_node hs

/-- An item is below a good node exactly when a leaf position below `maxItems` holds it. -/
theorem mem_entries_iff {n : WrsNode ι} (hn : n.Good) {e : ι × Int64} :
    e ∈ n.entries ↔ ∃ idx < n.maxItems, n.slotAt idx = some e := by
  simp [entries_eq_filterMap hn]

/-- Every item below a good node has a weight that is not zero. -/
theorem ne_zero_of_mem_entries {n : WrsNode ι} (hn : n.Good) {e : ι × Int64} (he : e ∈ n.entries) :
    e.2 ≠ 0 := by
  rw [entries_eq] at he
  obtain ⟨i, -, hi⟩ := List.mem_flatMap.mp he
  cases hs : n.items i with
  | none => simp [hs] at hi
  | item x =>
    rw [hs, Slot.entries_item, List.mem_singleton] at hi
    rw [hi]
    exact (level_eq_zero_of_item hn hs).2
  | node c =>
    rw [hs, Slot.entries_node] at hi
    exact ne_zero_of_mem_entries (good_of_node hn hs).2.2 hi
termination_by n.height
decreasing_by exact height_lt_of_node hs

/-! ## Setting one slot -/

/-- A node with slot `b` replaced, and a new sum and count: what each method leaves at a node. -/
def setSlot (n : WrsNode ι) (b : Fin wrsBranches) (s : Slot ι) (w sumWeight : Int64)
    (itemCnt : Nat) : WrsNode ι :=
  { n with
    items := Function.update n.items b s
    weights := Function.update n.weights b w
    sumWeight := sumWeight
    itemCnt := itemCnt }

section SetSlot

variable (n : WrsNode ι) (b : Fin wrsBranches) (s : Slot ι) (w sumWeight : Int64) (itemCnt : Nat)

@[simp] theorem items_setSlot : (n.setSlot b s w sumWeight itemCnt).items = Function.update n.items b s := rfl
@[simp] theorem weights_setSlot :
    (n.setSlot b s w sumWeight itemCnt).weights = Function.update n.weights b w := rfl
@[simp] theorem sumWeight_setSlot : (n.setSlot b s w sumWeight itemCnt).sumWeight = sumWeight := rfl
@[simp] theorem itemCnt_setSlot : (n.setSlot b s w sumWeight itemCnt).itemCnt = itemCnt := rfl
@[simp] theorem level_setSlot : (n.setSlot b s w sumWeight itemCnt).level = n.level := rfl

end SetSlot

/-- The sum of a node's weights after slot `b` takes weight `v`. -/
theorem sum_toBitVec_update (f : Fin wrsBranches → Int64) (b : Fin wrsBranches) (v : Int64) :
    ∑ i, (Function.update f b v i).toBitVec = ∑ i, (f i).toBitVec + (v.toBitVec - (f b).toBitVec) := by
  have hfun : (fun i => (Function.update f b v i).toBitVec) =
      Function.update (fun i => (f i).toBitVec) b v.toBitVec :=
    funext fun i => Function.apply_update (fun _ x => Int64.toBitVec x) f b v i
  have h := sum_update_add_apply (fun i => (f i).toBitVec) b v.toBitVec
  rw [hfun]
  linear_combination h

/-- Setting one slot of a good node to a good slot keeps it good, with the sum and count following. -/
theorem good_setSlot {n : WrsNode ι} (hn : n.Good) {b : Fin wrsBranches} {s : Slot ι}
    {w sumWeight : Int64} {itemCnt : Nat} (hs : s.Good n.level w)
    (hsum : sumWeight.toBitVec = n.sumWeight.toBitVec + (w.toBitVec - (n.weights b).toBitVec))
    (hcnt : itemCnt + ((n.items b).entries (n.weights b)).length = n.itemCnt + (s.entries w).length) :
    (n.setSlot b s w sumWeight itemCnt).Good := by
  obtain ⟨hmax, hsum0, hcnt0, hslots⟩ := Iff.mp good_iff hn
  refine Iff.mpr good_iff ⟨hmax, ?_, ?_, fun i => ?_⟩
  · rw [sumWeight_setSlot, weights_setSlot, hsum, hsum0, sum_toBitVec_update]
  · -- the count: slot `b`'s items change and no other slot's
    have hlen : (fun i => (((n.setSlot b s w sumWeight itemCnt).items i).entries
        ((n.setSlot b s w sumWeight itemCnt).weights i)).length) =
        Function.update (fun i => ((n.items i).entries (n.weights i)).length) b (s.entries w).length := by
      funext i
      by_cases h : i = b
      · subst h
        simp
      · simp [h]
    have hupd := sum_update_add_apply (fun i => ((n.items i).entries (n.weights i)).length) b
      (s.entries w).length
    rw [itemCnt_setSlot, length_entries, hlen]
    rw [← length_entries, ← hcnt0] at hupd
    omega
  · by_cases h : i = b
    · subst h
      simpa using hs
    · simpa [h] using hslots i

/-- At the leaves, setting slot `b` changes position `b` alone. -/
theorem slotAt_setSlot_leaf {n : WrsNode ι} (hl : n.level = 0) (b : Fin wrsBranches) (s : Slot ι)
    (w sumWeight : Int64) (itemCnt q : Nat) :
    (n.setSlot b s w sumWeight itemCnt).slotAt q = if q = b then s.asItem.map (·, w) else n.slotAt q := by
  have hl' : (n.setSlot b s w sumWeight itemCnt).level = 0 := hl
  by_cases hq : q < wrsBranches
  · obtain ⟨i, rfl⟩ : ∃ i : Fin wrsBranches, (i : Nat) = q := ⟨⟨q, hq⟩, rfl⟩
    rw [slotAt_leaf hl' i, slotAt_leaf hl i]
    by_cases h : i = b
    · subst h
      simp
    · simp [h, Fin.val_ne_of_ne h]
  · have hb : q ≠ b := by have := b.isLt; omega
    rw [slotAt_leaf_of_le hl' (by omega), slotAt_leaf_of_le hl (by omega), if_neg hb]

/-- Above the leaves, setting slot `b` changes the block of positions of branch `b` alone. -/
theorem slotAt_setSlot_inner {n : WrsNode ι} (hl : n.level ≠ 0) (hpos : 0 < n.maxItems / wrsBranches)
    (b : Fin wrsBranches) (s : Slot ι) (w sumWeight : Int64) (itemCnt q : Nat) :
    (n.setSlot b s w sumWeight itemCnt).slotAt q =
      if q / (n.maxItems / wrsBranches) = b then
        s.asNode.bind (·.slotAt (q % (n.maxItems / wrsBranches)))
      else n.slotAt q := by
  set bi := n.maxItems / wrsBranches with hbi
  have hl' : (n.setSlot b s w sumWeight itemCnt).level ≠ 0 := hl
  have hbi' : (n.setSlot b s w sumWeight itemCnt).maxItems / wrsBranches = bi := rfl
  by_cases hq : q / bi < wrsBranches
  · -- position `q` is position `q % bi` of branch `q / bi`
    have hsplit : q = bi * (⟨q / bi, hq⟩ : Fin wrsBranches) + q % bi := (Nat.div_add_mod q bi).symm
    have hr : q % bi < bi := Nat.mod_lt q hpos
    rw [hsplit, slotAt_inner hl' hbi' _ hr, slotAt_inner hl hbi.symm _ hr, ← hsplit]
    by_cases h : (⟨q / bi, hq⟩ : Fin wrsBranches) = b
    · subst h
      simp
    · have hne : q / bi ≠ b := fun h' => h (Fin.ext h')
      simp [h, hne]
  · have hle : wrsBranches * bi ≤ q := by
      rw [not_lt, Nat.le_div_iff_mul_le hpos] at hq
      exact hq
    have hne : q / bi ≠ b := by have := b.isLt; omega
    rw [slotAt_inner_of_le hl' hbi' hle hpos, slotAt_inner_of_le hl hbi.symm hle hpos, if_neg hne]

/-- Above the leaves, changing position `r` of branch `b`'s node changes position
`branchItems * b + r` alone. -/
theorem slotAt_setSlot_node {n : WrsNode ι} (hl : n.level ≠ 0) {b : Fin wrsBranches} {c' : WrsNode ι}
    {r : Nat} (hr : r < n.maxItems / wrsBranches) {e : Option (ι × Int64)}
    (hc' : ∀ q, c'.slotAt q = if q = r then e else (n.items b).asNode.bind (·.slotAt q))
    (w sumWeight : Int64) (itemCnt q : Nat) :
    (n.setSlot b (.node c') w sumWeight itemCnt).slotAt q =
      if q = n.maxItems / wrsBranches * b + r then e else n.slotAt q := by
  set bi := n.maxItems / wrsBranches with hbi
  have hpos : 0 < bi := by omega
  rw [slotAt_setSlot_inner hl hpos]
  by_cases hq : q / bi = b
  · -- inside the branch's block the node's own positions decide
    have hsplit : q = bi * b + q % bi := by rw [← hq, Nat.div_add_mod]
    have hqr : q % bi < bi := Nat.mod_lt q hpos
    rw [if_pos hq]
    simp only [Slot.asNode, Option.bind_some]
    rw [hc', hsplit, slotAt_inner hl hbi.symm b hqr, ← hsplit]
    by_cases hidx : q % bi = r
    · rw [if_pos hidx, if_pos (by omega)]
    · rw [if_neg hidx, if_neg (by omega)]
  · have hne : q ≠ bi * b + r := fun h => hq (by rw [h]; exact (block_div_mod _ hr).1)
    rw [if_neg hq, if_neg hne]

end WrsNode

/-! ## `insert` -/

/-- A slot `insert` can take: a nil one, or above the leaves one whose node has room. -/
def Slot.Free (level : Nat) (s : Slot ι) : Prop :=
  s = .none ∨ level ≠ 0 ∧ ∃ c, s = .node c ∧ c.itemCnt ≠ c.maxItems

/-- The loop of `insert` stops at a free branch, without panicking when no item sits above the
leaves. -/
theorem insertBranch_eq_some {items : Fin wrsBranches → Slot ι} {level : Nat}
    (hitem : ∀ b x, items b = .item x → level = 0) (bs : List (Fin wrsBranches))
    (hex : ∃ b ∈ bs, (items b).Free level) :
    ∃ b, insertBranch items level bs = some b ∧ (items b).Free level := by
  induction bs with
  | nil => simp at hex
  | cons b bs ih =>
    obtain ⟨b', hb', hfree⟩ := hex
    -- a branch that is not free is passed, and the free one is further on
    have hrest : ¬(items b).Free level → ∃ b ∈ bs, (items b).Free level := fun hb => by
      rcases List.mem_cons.mp hb' with rfl | hb'
      · exact absurd hfree hb
      · exact ⟨b', hb', hfree⟩
    unfold insertBranch
    cases hs : items b with
    | none => exact ⟨b, rfl, by simp [hs, Slot.Free]⟩
    | item x =>
      have h0 := hitem b x hs
      subst h0
      exact ih (hrest (by simp [hs, Slot.Free]))
    | node c =>
      cases level with
      | zero => exact ih (hrest (by simp [hs, Slot.Free]))
      | succ l =>
        simp only [Slot.asNode, Option.bind_eq_bind, Option.bind_some]
        split_ifs with hfull
        · exact ih (hrest (by simp [hs, Slot.Free, hfull]))
        · exact ⟨b, rfl, by simp [hs, Slot.Free, hfull]⟩

namespace WrsNode

/-- A good node with room has a free branch. -/
theorem exists_free {n : WrsNode ι} (hn : n.Good) (hroom : n.itemCnt < n.maxItems) :
    ∃ b, (n.items b).Free n.level := by
  obtain ⟨-, -, hcnt, -⟩ := Iff.mp good_iff hn
  by_contra hno
  simp only [not_exists] at hno
  have hfull : ∀ b, ((n.items b).entries (n.weights b)).length = wrsBranches ^ n.level := by
    intro b
    have hnf := hno b
    cases hs : n.items b with
    | none => exact absurd (by rw [hs]; exact Or.inl rfl) hnf
    | item x => simp [(level_eq_zero_of_item hn hs).1]
    | node c =>
      obtain ⟨hlev, -, hc⟩ := good_of_node hn hs
      have hcfull : c.itemCnt = c.maxItems := by
        by_contra h
        exact hnf (by rw [hs]; exact Or.inr ⟨by omega, c, rfl, h⟩)
      obtain ⟨hcmax, -, hccnt, -⟩ := Iff.mp good_iff hc
      rw [Slot.entries_node, ← hccnt, hcfull, hcmax, hlev]
  have hlen : n.entries.length = n.maxItems := by
    rw [length_entries, Finset.sum_congr rfl fun b _ => hfull b, Finset.sum_const, Finset.card_univ,
      Fintype.card_fin, smul_eq_mul, maxItems_eq_mul hn]
  omega

theorem slotAt_empty (level maxItems idx : Nat) : (empty level maxItems : WrsNode ι).slotAt idx = none := by
  rw [slotAt]
  split_ifs
  · simp [Slot.asItem]
  · rfl
  · dsimp only
    split
    · split <;> simp_all [Slot.asNode]
    · rfl

/-- The node `insert` descends into at a free branch of a good node. -/
theorem subNode_spec {n : WrsNode ι} (hn : n.Good) (hl : n.level ≠ 0) {b : Fin wrsBranches}
    (hfree : (n.items b).Free n.level) :
    ∃ c, n.subNode b = some c ∧ c.Good ∧ c.itemCnt < c.maxItems ∧ c.level + 1 = n.level ∧
      c.maxItems = n.maxItems / wrsBranches ∧ c.sumWeight = n.weights b ∧
      c.entries = (n.items b).entries (n.weights b) ∧
      ∀ r, c.slotAt r = (n.items b).asNode.bind (·.slotAt r) := by
  have hbi := branchItems_eq hn
  rcases hfree with hnil | ⟨-, c, hs, hroom⟩
  · -- a nil branch gets a new empty node
    have hw := weights_eq_zero_of_none hn hnil
    refine ⟨empty (n.level - 1) (n.maxItems / wrsBranches), by simp [subNode, hnil], ?_, ?_, ?_, rfl,
      by simp [hw], by simp [hnil], fun r => by simp [hnil, slotAt_empty, Slot.asNode]⟩
    · rw [hbi, show n.level = n.level - 1 + 1 by omega]
      exact good_empty _
    · simp [hbi, Nat.pow_pos wrsBranches_pos]
    · simp
      omega
  · obtain ⟨hlev, hsum, hc⟩ := good_of_node hn hs
    have hcmax : c.maxItems = n.maxItems / wrsBranches := by rw [hbi, (Iff.mp good_iff hc).1, hlev]
    have hle := length_entries_le hc
    rw [← itemCnt_eq_length hc] at hle
    exact ⟨c, by simp [subNode, hs, Slot.asNode], hc, by omega, hlev, hcmax, hsum, by simp [hs],
      fun r => by simp [hs, Slot.asNode]⟩

/-- What inserting `item` under `weight` at a free leaf position `idx` leaves. -/
structure Inserted (n n' : WrsNode ι) (idx : Nat) (item : ι) (weight : Int64) : Prop where
  good : n'.Good
  level_eq : n'.level = n.level
  maxItems_eq : n'.maxItems = n.maxItems
  sumWeight_eq : n'.sumWeight = n.sumWeight + weight
  itemCnt_eq : n'.itemCnt = n.itemCnt + 1
  idx_lt : idx < n.maxItems
  slotAt_idx : n.slotAt idx = none
  slotAt_eq : ∀ q, n'.slotAt q = if q = idx then some (item, weight) else n.slotAt q

/-- **`insert` into a good node with room never panics**, and puts the item at a free position. -/
theorem insert_spec {n : WrsNode ι} (hn : n.Good) (hroom : n.itemCnt < n.maxItems) (item : ι)
    {weight : Int64} (hw : weight ≠ 0) :
    ∃ n' idx, n.insert item weight = some (n', idx) ∧ Inserted n n' idx item weight := by
  obtain ⟨hmax, -, -, -⟩ := Iff.mp good_iff hn
  have hitem : ∀ b x, n.items b = .item x → n.level = 0 := fun _ _ hs =>
    (level_eq_zero_of_item hn hs).1
  obtain ⟨b, hb, hfree⟩ := insertBranch_eq_some hitem _
    (by obtain ⟨b, hb⟩ := exists_free hn hroom; exact ⟨b, List.mem_finRange b, hb⟩)
  rw [insert, hb]
  simp only [Option.bind_eq_bind, Option.bind_some]
  -- the branch's weight, the sum and the count take the item in, at either level
  have hsum : (n.sumWeight + weight).toBitVec =
      n.sumWeight.toBitVec + ((n.weights b + weight).toBitVec - (n.weights b).toBitVec) := by
    rw [Int64.toBitVec_add, Int64.toBitVec_add]
    abel
  by_cases hl : n.level = 0
  · -- at the leaves the item goes into the nil slot `b`
    rw [dif_pos hl]
    have hnil : n.items b = .none := hfree.resolve_right fun h => h.1 hl
    have hnew : n.weights b + weight = weight := by
      rw [weights_eq_zero_of_none hn hnil, Int64.zero_add]
    refine ⟨n.setSlot b (.item item) (n.weights b + weight) (n.sumWeight + weight) (n.itemCnt + 1), b,
      rfl, ?_⟩
    exact
      { good := good_setSlot hn (by simp [hl, hnew, hw]) hsum (by simp [hnil])
        level_eq := rfl
        maxItems_eq := rfl
        sumWeight_eq := rfl
        itemCnt_eq := rfl
        idx_lt := by simp [hmax, hl]
        slotAt_idx := by rw [slotAt_leaf hl b, hnil]; rfl
        slotAt_eq := fun q => by rw [slotAt_setSlot_leaf hl, hnew]; simp [Slot.asItem] }
  · -- above them the item goes into the branch's node, a new one for a nil branch
    rw [dif_neg hl]
    obtain ⟨c, hsub, hc, hcroom, hclev, hcmax, hcsum, hcent, hcslot⟩ := subNode_spec hn hl hfree
    split
    · rename_i hs
      rw [hsub] at hs
      cases hs
    rename_i c₀ hs
    rw [hsub] at hs
    cases hs
    obtain ⟨c', subIdx, hins, hI⟩ := insert_spec hc hcroom item hw
    rw [hins]
    simp only [Option.bind_some]
    refine ⟨n.setSlot b (.node c') (n.weights b + weight) (n.sumWeight + weight) (n.itemCnt + 1),
      c'.maxItems * b + subIdx, rfl, ?_⟩
    set bi := n.maxItems / wrsBranches with hbi
    have hbi' : c'.maxItems = bi := hI.maxItems_eq.trans hcmax
    have hsub_lt : subIdx < bi := hcmax ▸ hI.idx_lt
    have hpos : 0 < bi := by omega
    have hcnt : c'.entries.length = ((n.items b).entries (n.weights b)).length + 1 := by
      rw [← hcent, ← itemCnt_eq_length hI.good, hI.itemCnt_eq, itemCnt_eq_length hc]
    exact
      { good := good_setSlot hn
          (Iff.mpr Slot.good_node ⟨by rw [hI.level_eq, hclev], by rw [hI.sumWeight_eq, hcsum], hI.good⟩)
          hsum (by rw [Slot.entries_node, hcnt]; omega)
        level_eq := rfl
        maxItems_eq := rfl
        sumWeight_eq := rfl
        itemCnt_eq := rfl
        idx_lt := by
          have hmul : bi * (b + 1) ≤ bi * wrsBranches := Nat.mul_le_mul_left _ b.isLt
          have hcap : n.maxItems = bi * wrsBranches := by
            rw [hbi, branchItems_eq hn, maxItems_eq_mul hn, mul_comm]
          rw [hbi', hcap]
          rw [Nat.mul_succ] at hmul
          omega
        slotAt_idx := by
          rw [hbi', slotAt_inner hl hbi.symm b hsub_lt, ← hcslot]
          exact hI.slotAt_idx
        slotAt_eq := fun q => by
          rw [hbi']
          exact slotAt_setSlot_node hl hsub_lt (fun q => by rw [hI.slotAt_eq, hcslot]) _ _ _ q }
termination_by (n.height, n.level)
decreasing_by exact subNode_lt hl hsub

/-! ## `setWeight` -/

/-- A position that holds an item is below the capacity. -/
theorem lt_maxItems_of_slotAt {n : WrsNode ι} (hn : n.Good) {idx : Nat} {e : ι × Int64}
    (h : n.slotAt idx = some e) : idx < n.maxItems := by
  obtain ⟨hmax, -, -, -⟩ := Iff.mp good_iff hn
  by_contra hge
  by_cases hl : n.level = 0
  · rw [slotAt_leaf_of_le hl (by rw [hmax, hl] at hge; simpa using hge)] at h
    cases h
  · have hle : wrsBranches * (n.maxItems / wrsBranches) ≤ idx := by
      rw [branchItems_eq hn, ← maxItems_eq_mul hn]
      omega
    rw [slotAt_inner_of_le hl rfl hle (branchItems_pos hn)] at h
    cases h

/-- A node with an item at some position counts at least one. -/
theorem itemCnt_pos_of_slotAt {n : WrsNode ι} (hn : n.Good) {idx : Nat} {e : ι × Int64}
    (h : n.slotAt idx = some e) : 0 < n.itemCnt := by
  have hmem : e ∈ n.entries := Iff.mpr (mem_entries_iff hn) ⟨idx, lt_maxItems_of_slotAt hn h, h⟩
  rw [(Iff.mp good_iff hn).2.2.1]
  exact List.length_pos_of_mem hmem

/-- What setting the item at leaf position `idx` from weight `old` to `weight` leaves. -/
structure Reweighted (n n' : WrsNode ι) (idx : Nat) (item : ι) (old weight : Int64) : Prop where
  good : n'.Good
  level_eq : n'.level = n.level
  maxItems_eq : n'.maxItems = n.maxItems
  sumWeight_eq : n'.sumWeight = n.sumWeight + (weight - old)
  itemCnt_eq : n'.itemCnt = if weight = 0 then n.itemCnt - 1 else n.itemCnt
  slotAt_eq : ∀ q, n'.slotAt q =
    if q = idx then (if weight = 0 then none else some (item, weight)) else n.slotAt q

/-- **`setWeight` at a position that holds an item never panics**, and changes that position
alone. -/
theorem setWeight_spec {n : WrsNode ι} (hn : n.Good) {idx : Nat} {item : ι} {old : Int64}
    (h : n.slotAt idx = some (item, old)) (weight : Int64) :
    ∃ n', n.setWeight idx weight = some (n', weight - old) ∧ Reweighted n n' idx item old weight := by
  have hcnt_pos := itemCnt_pos_of_slotAt hn h
  rw [setWeight]
  by_cases hl : n.level = 0
  · -- at the leaves the slot itself takes the weight
    have hidx : idx < wrsBranches := by
      by_contra hge
      rw [slotAt_leaf_of_le hl (by omega)] at h
      cases h
    rw [if_pos hl, dif_pos hidx]
    set i : Fin wrsBranches := ⟨idx, hidx⟩
    have hsi := slotAt_leaf hl i
    rw [show (i : Nat) = idx from rfl, h] at hsi
    have hi : n.items i = .item item ∧ n.weights i = old := by
      cases hs : n.items i <;> simp [hs, Slot.asItem] at hsi
      exact ⟨by rw [hsi.1], hsi.2.symm⟩
    set s' : Slot ι := if weight = 0 then .none else .item item with hs'
    have hitems : (if weight = 0 then Function.update n.items i .none else n.items) =
        Function.update n.items i s' := by
      by_cases hw : weight = 0
      · simp [s', hw]
      · rw [if_neg hw, hs', if_neg hw, ← hi.1, Function.update_eq_self]
    refine ⟨n.setSlot i s' weight (n.sumWeight + (weight - old))
      (if weight = 0 then n.itemCnt - 1 else n.itemCnt), ?_, ?_⟩
    · simp only [hi.2, hitems]
      rfl
    exact
      { good := good_setSlot hn (by by_cases hw : weight = 0 <;> simp [s', hw, hl])
          (by rw [hi.2, Int64.toBitVec_add, Int64.toBitVec_sub])
          (by
            rw [hi.1]
            by_cases hw : weight = 0
            · simp [s', hw]
              omega
            · simp [s', hw])
        level_eq := rfl
        maxItems_eq := rfl
        sumWeight_eq := rfl
        itemCnt_eq := rfl
        slotAt_eq := fun q => by
          rw [slotAt_setSlot_leaf hl]
          by_cases hw : weight = 0 <;> simp [s', hw, Slot.asItem] <;> rfl }
  · -- above them the branch `idx / branchItems` takes it at `idx % branchItems`
    rw [if_neg hl]
    set bi := n.maxItems / wrsBranches with hbi
    have hpos : 0 < bi := branchItems_pos hn
    have hb : idx / bi < wrsBranches := by
      by_contra hge
      rw [not_lt, Nat.le_div_iff_mul_le hpos] at hge
      rw [slotAt_inner_of_le hl hbi.symm hge hpos] at h
      cases h
    dsimp only
    rw [if_neg (by omega), dif_pos hb]
    set b : Fin wrsBranches := ⟨idx / bi, hb⟩
    have hsplit : idx = bi * b + idx % bi := (Nat.div_add_mod idx bi).symm
    have hr : idx % bi < bi := Nat.mod_lt idx hpos
    have hsb := slotAt_inner hl hbi.symm b hr
    rw [← hsplit, h] at hsb
    obtain ⟨c, hc, hcs⟩ : ∃ c, n.items b = .node c ∧ c.slotAt (idx % bi) = some (item, old) := by
      cases hs : n.items b <;> simp [hs, Slot.asNode] at hsb
      exact ⟨_, rfl, hsb.symm⟩
    obtain ⟨hclev, hcsum, hcgood⟩ := good_of_node hn hc
    have hccnt_pos := itemCnt_pos_of_slotAt hcgood hcs
    have hsub : idx - idx / bi * bi = idx % bi := by
      have := Nat.div_add_mod idx bi
      rw [Nat.mul_comm bi] at this
      omega
    obtain ⟨c', hset, hR⟩ := setWeight_spec hcgood hcs weight
    refine ⟨n.setSlot b (.node c') (n.weights b + (weight - old)) (n.sumWeight + (weight - old))
      (if weight = 0 then n.itemCnt - 1 else n.itemCnt), ?_, ?_⟩
    · split
      · rename_i hnone
        rw [hc] at hnone
        cases hnone
      · rename_i c₀ hc₀
        rw [hc] at hc₀
        cases hc₀
        rw [hsub, hset]
        rfl
    have hcnt' : c'.entries.length + 1 = c.entries.length + (if weight = 0 then 0 else 1) := by
      rw [← itemCnt_eq_length hR.good, hR.itemCnt_eq, ← itemCnt_eq_length hcgood]
      split_ifs <;> omega
    exact
      { good := good_setSlot hn
          (Iff.mpr Slot.good_node ⟨by rw [hR.level_eq, hclev], by rw [hR.sumWeight_eq, hcsum], hR.good⟩)
          (by rw [Int64.toBitVec_add, Int64.toBitVec_add]; abel)
          (by rw [hc, Slot.entries_node, Slot.entries_node]; split_ifs at hcnt' ⊢ <;> omega)
        level_eq := rfl
        maxItems_eq := rfl
        sumWeight_eq := rfl
        itemCnt_eq := rfl
        slotAt_eq := fun q => by
          rw [slotAt_setSlot_node hl hr (fun q => by rw [hR.slotAt_eq, hc]; rfl), ← hsplit] }
termination_by n.height
decreasing_by exact height_lt_of_node hc

/-! ## `choose` -/

/-- A sum over the items below a node, slot by slot. -/
theorem sum_map_entries {M : Type} [AddCommMonoid M] (f : ι × Int64 → M) (n : WrsNode ι) :
    (n.entries.map f).sum = ∑ i, (((n.items i).entries (n.weights i)).map f).sum := by
  rw [entries_eq, List.map_flatMap, List.flatMap_def, List.sum_flatten, List.map_map,
    ← List.ofFn_eq_map, List.sum_ofFn]
  rfl

/-- The weight of a slot of a good node is the `int64` sum of the weights of its items. -/
theorem weight_toBitVec {n : WrsNode ι} (hn : n.Good) (i : Fin wrsBranches) :
    (n.weights i).toBitVec = (((n.items i).entries (n.weights i)).map fun e => e.2.toBitVec).sum := by
  cases hs : n.items i with
  | none => simp [weights_eq_zero_of_none hn hs]
  | item x => simp
  | node c =>
    obtain ⟨-, hcsum, hc⟩ := good_of_node hn hs
    rw [← hcsum, Slot.entries_node, (Iff.mp good_iff hc).2.1, sum_map_entries]
    exact Finset.sum_congr rfl fun j _ => weight_toBitVec hc j
termination_by n.height
decreasing_by exact height_lt_of_node hs

/-- The sum of a good node is the sum of the weights of the items below it. -/
theorem sumWeight_toBitVec {n : WrsNode ι} (hn : n.Good) :
    n.sumWeight.toBitVec = (n.entries.map fun e => e.2.toBitVec).sum := by
  rw [(Iff.mp good_iff hn).2.1, sum_map_entries]
  exact Finset.sum_congr rfl fun i _ => weight_toBitVec hn i

end WrsNode

/-- The weight of an item below the tree, as the signed number an `int64` holds. -/
def entryWeight (e : ι × Int64) : Int := e.2.toInt

/-- Items whose weights are not negative and add up to less than `2 ^ 63` sum, in `int64`
arithmetic, to their total weight. -/
theorem toInt_sum_toBitVec {l : List (ι × Int64)} (hnn : ∀ e ∈ l, 0 ≤ entryWeight e)
    (hsum : totalWeight entryWeight l < 2 ^ 63) :
    (l.map fun e : ι × Int64 => e.2.toBitVec).sum.toInt = totalWeight entryWeight l := by
  have hmap : (l.map fun e => e.2.toBitVec).map BitVec.toInt = l.map entryWeight := by
    simp [Function.comp_def, entryWeight]
  rw [toInt_sum_of_nonneg, hmap]
  · rfl
  · intro x hx
    obtain ⟨e, he, rfl⟩ := List.mem_map.mp hx
    rw [Int64.toInt_toBitVec]
    exact hnn e he
  · rw [hmap]
    exact hsum

namespace WrsNode

theorem nonneg_of_mem_slot {n : WrsNode ι} (hnn : ∀ e ∈ n.entries, 0 ≤ entryWeight e)
    (i : Fin wrsBranches) : ∀ e ∈ (n.items i).entries (n.weights i), 0 ≤ entryWeight e :=
  fun e he => hnn e (by rw [entries_eq]; exact List.mem_flatMap.mpr ⟨i, List.mem_finRange i, he⟩)

section Bounded

/-! Weights that are not negative and add up to less than `2 ^ 63`: no sum in the tree wraps. -/

variable {n : WrsNode ι} (hn : n.Good) (hnn : ∀ e ∈ n.entries, 0 ≤ entryWeight e)
  (hsum : totalWeight entryWeight n.entries < 2 ^ 63)

include hnn hsum in
theorem totalWeight_slot_lt (i : Fin wrsBranches) :
    totalWeight entryWeight ((n.items i).entries (n.weights i)) < 2 ^ 63 := by
  have hle : totalWeight entryWeight ((n.items i).entries (n.weights i)) ≤ totalWeight entryWeight n.entries := by
    rw [totalWeight, totalWeight, sum_map_entries]
    exact Finset.single_le_sum (f := fun i => (((n.items i).entries (n.weights i)).map entryWeight).sum)
      (fun j _ => totalWeight_nonneg (nonneg_of_mem_slot hnn j)) (Finset.mem_univ i)
  omega

include hn hnn hsum in
/-- **The weight of each slot is the total weight of the items below it**, with no wrap. -/
theorem toInt_weight (i : Fin wrsBranches) :
    (n.weights i).toInt = totalWeight entryWeight ((n.items i).entries (n.weights i)) := by
  rw [← Int64.toInt_toBitVec, weight_toBitVec hn i,
    toInt_sum_toBitVec (nonneg_of_mem_slot hnn i) (totalWeight_slot_lt hnn hsum i)]

include hn hnn hsum in
/-- The sum of the node is the total weight of its items, with no wrap. -/
theorem toInt_sumWeight : n.sumWeight.toInt = totalWeight entryWeight n.entries := by
  rw [← Int64.toInt_toBitVec, sumWeight_toBitVec hn, toInt_sum_toBitVec hnn hsum]

end Bounded

end WrsNode

/-- **The loop of `choose` is the scan over the items of the branches it visits**, when each
branch weighs what its items do and a branch asked for the choice scans them. -/
theorem chooseLoop_eq_scan {weights : Fin wrsBranches → Int64}
    {pick : Fin wrsBranches → Int64 → Option (ι × Int64)} {slots : Fin wrsBranches → List (ι × Int64)}
    (hw : ∀ i, (weights i).toInt = totalWeight entryWeight (slots i))
    (hnn : ∀ i, ∀ e ∈ slots i, 0 ≤ entryWeight e)
    (hpick : ∀ i v, 0 ≤ v.toInt → v.toInt < (weights i).toInt →
      pick i v = scan entryWeight (slots i) v.toInt)
    (bs : List (Fin wrsBranches)) {val : Int64} (hv : 0 ≤ val.toInt) :
    chooseLoop weights pick bs val = scan entryWeight (bs.flatMap slots) val.toInt := by
  induction bs generalizing val with
  | nil => rfl
  | cons i bs ih =>
    rw [chooseLoop, List.flatMap_cons, scan_append]
    by_cases hlt : val < weights i
    · -- the branch's items hold the ticket
      rw [if_pos hlt, hpick i val hv (Int64.lt_iff_toInt_lt.mp hlt)]
      have hsome : scan entryWeight (slots i) val.toInt ≠ none := by
        rw [Ne, scan_eq_none_iff (hnn i) hv, ← hw i, not_le]
        exact Int64.lt_iff_toInt_lt.mp hlt
      obtain ⟨e, he⟩ := Option.ne_none_iff_exists'.mp hsome
      rw [he, Option.some_or]
    · -- the branch is passed: its weight comes off the ticket
      have hge : (weights i).toInt ≤ val.toInt := not_lt.mp (mt Int64.lt_iff_toInt_lt.mpr hlt)
      have hw0 : 0 ≤ (weights i).toInt := hw i ▸ totalWeight_nonneg (hnn i)
      have hsub : (val - weights i).toInt = val.toInt - (weights i).toInt := by
        rw [Int64.toInt_sub]
        have := Int64.toInt_lt val
        have := Int64.le_toInt (weights i)
        apply Int.bmod_eq_of_le <;> push_cast <;> omega
      rw [if_neg hlt, Iff.mpr (scan_eq_none_iff (hnn i) hv) (hw i ▸ hge), Option.none_or,
        ih (by rw [hsub]; omega), hsub, hw i]

namespace WrsNode

/-- **`choose` is the scan over the items in slot order**, on a good node whose items' weights
are not negative and add up to less than `2 ^ 63`. -/
theorem choose_eq_scan {n : WrsNode ι} (hn : n.Good) (hnn : ∀ e ∈ n.entries, 0 ≤ entryWeight e)
    (hsum : totalWeight entryWeight n.entries < 2 ^ 63) {val : Int64} (hv : 0 ≤ val.toInt) :
    n.choose val = scan entryWeight n.entries val.toInt := by
  rw [choose, entries_eq]
  apply chooseLoop_eq_scan (toInt_weight hn hnn hsum) (nonneg_of_mem_slot hnn) _ _ hv
  intro i v hv0 hvlt
  -- a nil slot weighs nothing, so it is never asked
  have hnil : n.items i ≠ .none := fun hs => by
    rw [weights_eq_zero_of_none hn hs] at hvlt
    simp at hvlt
    omega
  by_cases hl : n.level = 0
  · -- at the leaves the slot's item is the choice
    simp only [if_pos hl]
    cases hs : n.items i with
    | none => exact absurd hs hnil
    | item x => simp [Slot.asItem, scan, entryWeight, hvlt]
    | node c =>
      have := (good_of_node hn hs).1
      omega
  · -- above them the branch's node chooses
    simp only [if_neg hl]
    split
    · rename_i hnone
      cases hs : n.items i with
      | none => exact absurd hs hnil
      | item x => exact absurd (level_eq_zero_of_item hn hs).1 hl
      | node c => simp [hs, Slot.asNode] at hnone
    · rename_i c hc
      have hs : n.items i = .node c := Iff.mp Slot.asNode_eq_some hc
      have hcent : c.entries = (n.items i).entries (n.weights i) := by rw [hs, Slot.entries_node]
      rw [choose_eq_scan (good_of_node hn hs).2.2 (hcent ▸ nonneg_of_mem_slot hnn i)
        (hcent ▸ totalWeight_slot_lt hnn hsum i) hv0, hcent]
termination_by n.height
decreasing_by exact height_lt_of_node hs

end WrsNode

end EpvChain.Fc
