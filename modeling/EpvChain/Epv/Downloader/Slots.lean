import EpvChain.Epv.Downloader.Queue
import EpvChain.Lib.Finmap

/-!
# Result slots stay in bounds (`epv/downloader/queue.go`)

`reserveHeaders` gives each header the result slot `number - resultOffset` and returns
`errInvalidChain` when that falls outside the cache. Its loop takes the slots of the first
`limit` headers that are neither done nor asked for. On the runs of the downloader (`Reset`, one
`Prepare`, `Schedule` of a chain in order, then any interleaving of reservations with `limit` at
most the cache's length, deliveries, expiries, revocations, `Results` and `Close`) the index
stays within `[0, limit)`. The chain's headers are numbered by position (`Chain`).

* `Accounted`: the invariant. Each number from the offset to the next to schedule has exactly one
  header, in the task queue, a pending request, or done; a slot holds its block and counts its
  fetches left; the slots in use are a prefix; a header out of the task queue has its slot.
* `Accounted.resultSlots_add`: `resultSlots` counts exactly the slots the task queue can fill.
* `Accounted.reserveHeaders`: a reservation takes only indices in `[0, limit)`, never returns
  `errInvalidChain`, and keeps the invariant; `Run.accounted` (in `Runs`) covers every run.
-/

namespace EpvChain.Downloader

open EpvChain.Types EpvChain.Lib

variable {τ : Type}

/-! ### The two fetches -/

/-- The two fetches of a queue. -/
inductive Part where
  | bodies
  | receipts
  deriving DecidableEq, Repr

/-- The pools of a fetch. -/
def Queue.part (q : Queue τ) : Part → Component
  | .bodies => q.block
  | .receipts => q.receipt

/-- Replace the pools of a fetch. -/
def Queue.setPart (q : Queue τ) : Part → Component → Queue τ
  | .bodies, c => { q with block := c }
  | .receipts, c => { q with receipt := c }

section SetPart

variable (q : Queue τ) (p : Part) (c : Component)

@[simp] theorem part_setPart_self : (q.setPart p c).part p = c := by
  cases p <;> rfl

@[simp] theorem part_setPart_ne {p' : Part} (h : p' ≠ p) : (q.setPart p c).part p' = q.part p' := by
  cases p <;> cases p' <;> first | rfl | exact absurd rfl h

@[simp] theorem mode_setPart : (q.setPart p c).mode = q.mode := by
  cases p <;> rfl

@[simp] theorem resultCache_setPart : (q.setPart p c).resultCache = q.resultCache := by
  cases p <;> rfl

@[simp] theorem resultOffset_setPart : (q.setPart p c).resultOffset = q.resultOffset := by
  cases p <;> rfl

theorem setPart_part : q.setPart p (q.part p) = q := by
  cases p <;> rfl

end SetPart

/-- Whether a mode fetches a part: bodies always, receipts in fast sync. -/
def fetches (mode : SyncMode) : Part → Bool
  | .bodies => true
  | .receipts => decide (mode = .FastSync)

/-- The number of fetches a mode makes is `components`. -/
theorem components_eq (mode : SyncMode) :
    components mode = ([Part.bodies, Part.receipts].countP (fetches mode) : Nat) := by
  cases mode <;> rfl

/-- The headers a fetch holds: those in its task queue and those of its pending requests. -/
def Component.held (c : Component) : List Header :=
  c.taskQueue ++ c.pendPool.entries.flatMap fun e => e.2.Headers

/-! ### The chain -/

/-- The headers a sync schedules: one for each number, numbered by it, with hashes that differ
below `2 ^ 62`. -/
structure Chain (H : Hashes τ) where
  header : Nat → Header
  number_eq : ∀ n, (header n).number = n
  hash_inj : ∀ n m, n < 2 ^ 62 → m < 2 ^ 62 →
    H.hashHeader (header n) = H.hashHeader (header m) → n = m

variable {H : Hashes τ} (C : Chain H)

/-- Whether a fetch has the header of number `n` done: its hash is in the done pool. -/
def Chain.done (c : Component) (n : Nat) : Bool := c.donePool (H.hashHeader (C.header n))

/-- The fetches of the block of number `n` still to complete, among those the mode makes. -/
def Chain.undone (q : Queue τ) (n : Nat) : Nat :=
  [Part.bodies, Part.receipts].countP fun p => fetches q.mode p && !C.done (q.part p) n

theorem Chain.done_congr {c c' : Component} (h : c.donePool = c'.donePool) (n : Nat) :
    C.done c n = C.done c' n := by
  rw [Chain.done, Chain.done, h]

/-- Replacing the pools of a fetch by pools that agree on the block of number `m` leaves its
count of fetches left. -/
theorem Chain.undone_setPart {q : Queue τ} {p : Part} {c : Component} {m : Nat}
    (h : C.done c m = C.done (q.part p) m) : C.undone (q.setPart p c) m = C.undone q m := by
  cases p <;> simp only [Chain.undone, List.countP_cons, List.countP_nil, Queue.part,
    Queue.setPart, h]

/-- Marking a fetch that the mode makes done for a block leaves one fetch less. -/
theorem Chain.undone_setPart_done {q : Queue τ} {p : Part} {c : Component} {m : Nat}
    (hp : fetches q.mode p = true) (hbefore : C.done (q.part p) m = false)
    (hafter : C.done c m = true) : C.undone (q.setPart p c) m + 1 = C.undone q m := by
  cases p with
  | bodies =>
    simp only [Queue.part] at hbefore
    simp only [Chain.undone, List.countP_cons, List.countP_nil, Queue.part, Queue.setPart, hp,
      hbefore, hafter]
    simp
  | receipts =>
    simp only [Queue.part] at hbefore
    simp only [Chain.undone, List.countP_cons, List.countP_nil, Queue.part, Queue.setPart, hp,
      hbefore, hafter]
    simp
    omega

/-- A block that no fetch has done has every fetch of the mode left. -/
theorem Chain.undone_of_not_done {q : Queue τ} {m : Nat}
    (h : ∀ p, fetches q.mode p = true → C.done (q.part p) m = false) :
    (C.undone q m : Int) = components q.mode := by
  rw [components_eq, Chain.undone]
  congr 2
  funext p
  cases hp : fetches q.mode p
  · rfl
  · rw [h p hp]
    rfl

/-! ### The invariant -/

/-- The bookkeeping of a queue whose headers are those of the chain `C` from the offset up to
`next`, the number the next `Schedule` starts at. -/
structure Accounted (q : Queue τ) (next : Nat) : Prop where
  small : next + blockCacheItems < 2 ^ 62
  offset_le : q.resultOffset.toNat ≤ next
  length : q.resultCache.length = blockCacheItems
  held : ∀ p, ∀ x ∈ (q.part p).held,
    x = C.header x.number ∧ q.resultOffset.toNat ≤ x.number ∧ x.number < next
  idle : ∀ p, fetches q.mode p = false → (q.part p).held = []
  status : ∀ p, fetches q.mode p = true → ∀ n, q.resultOffset.toNat ≤ n → n < next →
    (q.part p).held.countP (·.number = n) + (if C.done (q.part p) n then 1 else 0) = 1
  fresh : ∀ p n, next ≤ n → n < 2 ^ 62 → C.done (q.part p) n = false
  slot : ∀ j r, q.resultCache[j]? = some (some r) →
    q.resultOffset.toNat + j < next ∧ r.Hash = H.hashHeader (C.header (q.resultOffset.toNat + j)) ∧
      r.Header = C.header (q.resultOffset.toNat + j) ∧
      r.Pending = (C.undone q (q.resultOffset.toNat + j) : Int)
  prefix_ : ∀ (j k : Nat) r, j < k → q.resultCache[k]? = some (some r) →
    ∃ r', q.resultCache[j]? = some (some r')
  popped : ∀ p, fetches q.mode p = true → ∀ n, q.resultOffset.toNat ≤ n → n < next →
    (q.part p).taskQueue.countP (·.number = n) = 0 →
      ∃ r, q.resultCache[n - q.resultOffset.toNat]? = some (some r)

/-! ### Machine numbers -/

/-- A header's result index is its number less the offset, for the numbers a sync reaches. -/
theorem resultIndex_eq {x : Header} {o : UInt64} (hx : x.number < 2 ^ 62)
    (ho : o.toNat < 2 ^ 62) : resultIndex x o = (x.number : Int) - o.toNat := by
  rw [resultIndex, Int64.toInt_sub, Int64.toInt_ofNat_of_lt (by omega), toInt_toInt64_of_lt (by omega),
    Int.bmod_eq_of_le (by omega) (by omega)]

/-- `header.Number.Uint64() < q.resultOffset+uint64(limit)` compares the numbers. -/
theorem numberU64_lt_iff {x : Header} {o : UInt64} {L : Nat} (hx : x.number < 2 ^ 62)
    (ho : o.toNat + L < 2 ^ 62) : x.numberU64 < o + L.toUInt64 ↔ x.number < o.toNat + L := by
  rw [Header.numberU64, UInt64.lt_iff_toNat_lt, UInt64.toNat_add, UInt64.toNat_ofNat',
    Nat.toUInt64_eq, UInt64.toNat_ofNat', Nat.mod_eq_of_lt (by omega),
    Nat.mod_eq_of_lt (show L < 2 ^ 64 by omega), Nat.mod_eq_of_lt (by omega)]

/-! ### Counting by number -/

theorem countP_number_lt_succ (l : List Header) (k : Nat) :
    l.countP (fun x => x.number < k + 1) =
      l.countP (fun x => x.number < k) + l.countP (·.number = k) := by
  induction l with
  | nil => rfl
  | cons x l ih =>
    simp only [List.countP_cons, ih]
    rcases Nat.lt_trichotomy x.number k with hx | hx | hx
    · simp [hx, Nat.lt_succ_of_lt hx, Nat.ne_of_lt hx]
      omega
    · simp [hx]
      omega
    · simp [Nat.not_lt_of_gt hx, Nat.ne_of_gt hx, show ¬ x.number < k + 1 by omega]

theorem countP_number_lt_eq_zero {l : List Header} {a : Nat} (h : ∀ x ∈ l, a ≤ x.number) :
    l.countP (fun x => x.number < a) = 0 := by
  rw [List.countP_eq_zero]
  intro x hx
  have := h x hx
  simp only [decide_eq_true_eq]
  omega

/-- What the loop of `resultSlots` counts as finished: a slot whose hash is done. -/
def slotDone (c : Component) : Option (FetchResult τ) → Bool
  | some r => c.donePool r.Hash
  | none => false

/-- Over slots in use at the front, counting up to the first free one counts them all. -/
theorem countP_takeWhile_isSome {β : Type} (f : Option β → Bool) (hf : f none = false) :
    ∀ {l : List (Option β)}, (∀ (j k : Nat) b, j < k → l[k]? = some (some b) →
      ∃ b', l[j]? = some (some b')) →
      (l.takeWhile Option.isSome).countP f = l.countP f
  | [], _ => rfl
  | none :: t, hpre => by
    -- no slot after a free one is in use
    have hnone : ∀ a ∈ t, a = none := by
      intro a ha
      cases a with
      | none => rfl
      | some b =>
        obtain ⟨i, hi, hget⟩ := List.getElem_of_mem ha
        obtain ⟨b', hb'⟩ := hpre 0 (i + 1) b (Nat.succ_pos i) (by simp [hi, hget])
        cases hb'
    rw [List.takeWhile_cons_of_neg (by simp), List.countP_nil, List.countP_cons, hf,
      List.countP_eq_zero.mpr (fun a ha => by rw [hnone a ha, hf]; exact Bool.false_ne_true)]
    rfl
  | some b :: t, hpre => by
    rw [List.takeWhile_cons_of_pos (by simp), List.countP_cons, List.countP_cons,
      countP_takeWhile_isSome f hf (fun j k b hjk hk => hpre (j + 1) (k + 1) b (by omega) hk)]

/-- `resultSlots`: the limit, less the slots done at the front and the headers asked for. -/
theorem resultSlots_eq (q : Queue τ) (limit : Nat) (c : Component) :
    q.resultSlots limit c = (limit : Int) -
      (((q.resultCache.take limit).takeWhile Option.isSome).countP (slotDone c) : Nat) -
      ((c.pendPool.entries.map fun e =>
        e.2.Headers.countP fun h => h.numberU64 < q.resultOffset + limit.toUInt64).sum : Nat) :=
  rfl

/-- Setting a slot keeps a slot in use in use. -/
theorem getElem?_set_some {β : Type} {l : List (Option β)} {i j : Nat} (x : β) {b : β}
    (h : l[j]? = some (some b)) : ∃ b', (l.set i (some x))[j]? = some (some b') := by
  by_cases hij : i = j
  · subst hij
    exact ⟨x, by rw [List.getElem?_set_self (List.getElem?_eq_some_iff.mp h).1]⟩
  · exact ⟨b, by rw [List.getElem?_set_ne hij, h]⟩

/-- Setting a slot whose predecessors are in use keeps the slots in use a prefix. -/
theorem prefix_set {β : Type} {l : List (Option β)} {i : Nat} (x : β)
    (hpre : ∀ (j k : Nat) b, j < k → l[k]? = some (some b) → ∃ b', l[j]? = some (some b'))
    (hbefore : ∀ j < i, ∃ b, l[j]? = some (some b)) :
    ∀ (j k : Nat) b, j < k → (l.set i (some x))[k]? = some (some b) →
      ∃ b', (l.set i (some x))[j]? = some (some b') := by
  intro j k b hjk hk
  by_cases hik : i = k
  · subst hik
    obtain ⟨b', hb'⟩ := hbefore j hjk
    exact ⟨b', by rw [List.getElem?_set_ne (by omega), hb']⟩
  · rw [List.getElem?_set_ne hik] at hk
    obtain ⟨b', hb'⟩ := hpre j k b hjk hk
    exact getElem?_set_some x hb'

/-- Replace the result slots. -/
def Queue.setCache (q : Queue τ) (cache : List (Option (FetchResult τ))) : Queue τ :=
  { q with resultCache := cache }

section SetCache

variable (q : Queue τ) (cache : List (Option (FetchResult τ)))

@[simp] theorem part_setCache (p : Part) : (q.setCache cache).part p = q.part p := by
  cases p <;> rfl

@[simp] theorem mode_setCache : (q.setCache cache).mode = q.mode := rfl

@[simp] theorem resultCache_setCache : (q.setCache cache).resultCache = cache := rfl

@[simp] theorem resultOffset_setCache : (q.setCache cache).resultOffset = q.resultOffset := rfl

theorem Chain.undone_setCache (m : Nat) : C.undone (q.setCache cache) m = C.undone q m := rfl

@[simp] theorem setPart_setCache (p : Part) (c : Component) :
    (q.setCache cache).setPart p c = (q.setPart p c).setCache cache := by
  cases p <;> rfl

@[simp] theorem setPart_setPart (p : Part) (c c' : Component) :
    (q.setPart p c).setPart p c' = q.setPart p c' := by
  cases p <;> rfl

@[simp] theorem setCache_setCache (cache' : List (Option (FetchResult τ))) :
    (q.setCache cache).setCache cache' = q.setCache cache' := rfl

@[simp] theorem setCache_self : q.setCache q.resultCache = q := rfl

end SetCache

section Accounted

variable {C} {q : Queue τ} {next : Nat} (hq : Accounted C q next)
include hq

theorem Accounted.number_lt {p : Part} {x : Header} (hx : x ∈ (q.part p).held) :
    x.number < next :=
  (hq.held p x hx).2.2

theorem Accounted.offset_le_number {p : Part} {x : Header} (hx : x ∈ (q.part p).held) :
    q.resultOffset.toNat ≤ x.number :=
  (hq.held p x hx).2.1

/-- A slot counts as finished exactly when the header of its number is done. -/
theorem Accounted.slotDone_getElem {p : Part} (hp : fetches q.mode p = true) {j : Nat}
    (hj : j < q.resultCache.length) :
    slotDone (q.part p) q.resultCache[j] =
      decide (q.resultOffset.toNat + j < next ∧ C.done (q.part p) (q.resultOffset.toNat + j) = true) := by
  cases hslot : q.resultCache[j] with
  | some r =>
    obtain ⟨hlt, hhash, -, -⟩ := hq.slot j r (by rw [List.getElem?_eq_getElem hj, hslot])
    rw [slotDone, Chain.done, ← hhash]
    simp [hlt]
  | none =>
    rw [slotDone, eq_comm, decide_eq_false_iff_not]
    rintro ⟨hlt, hdone⟩
    -- a done header has left the task queue, so its slot is in use
    have hst := hq.status p hp _ (Nat.le_add_right _ _) hlt
    rw [hdone, if_pos rfl] at hst
    have hzero : (q.part p).taskQueue.countP (·.number = q.resultOffset.toNat + j) = 0 := by
      have hheld : (q.part p).held.countP (·.number = q.resultOffset.toNat + j) = 0 := by omega
      rw [Component.held, List.countP_append] at hheld
      omega
    obtain ⟨r, hr⟩ := hq.popped p hp _ (Nat.le_add_right _ _) hlt hzero
    rw [Nat.add_sub_cancel_left, List.getElem?_eq_getElem hj, hslot] at hr
    cases hr

/-- Within the first `L` numbers from the offset, the headers a fetch holds and the slots it has
done count the numbers scheduled. The induction is on `L`, one number at a time. -/
theorem Accounted.count_add {p : Part} (hp : fetches q.mode p = true) :
    ∀ L, L ≤ blockCacheItems →
      (q.part p).held.countP (fun x => x.number < q.resultOffset.toNat + L) +
        (q.resultCache.take L).countP (slotDone (q.part p)) =
      (List.range' q.resultOffset.toNat L).countP (· < next)
  | 0, _ => by
    rw [Nat.add_zero, countP_number_lt_eq_zero fun x hx => hq.offset_le_number hx]
    rfl
  | L + 1, hL => by
    have hlt : L < q.resultCache.length := by rw [hq.length]; omega
    have ih := Accounted.count_add hp L (by omega)
    rw [← Nat.add_assoc, countP_number_lt_succ, List.take_add_one, List.getElem?_eq_getElem hlt,
      Option.toList_some, List.countP_append, List.countP_singleton, List.range'_concat,
      List.countP_append, List.countP_singleton, Nat.one_mul, hq.slotDone_getElem hp hlt]
    -- the number `offset + L`: held once or done when scheduled, and not at all beyond
    by_cases hn : q.resultOffset.toNat + L < next
    · have hst := hq.status p hp _ (Nat.le_add_right _ _) hn
      by_cases hd : C.done (q.part p) (q.resultOffset.toNat + L) = true
      · simp only [hd, if_true] at hst
        simp only [hn, hd, and_self, decide_true, if_true]
        omega
      · simp only [hd, Bool.false_eq_true, if_false] at hst
        simp only [hn, hd, and_false, decide_false, Bool.false_eq_true, if_false, decide_true,
          if_true]
        omega
    · have hzero : (q.part p).held.countP (·.number = q.resultOffset.toNat + L) = 0 := by
        rw [List.countP_eq_zero]
        intro x hx
        have := hq.number_lt hx
        simp only [decide_eq_true_eq]
        omega
      simp only [hn, false_and, decide_false, Bool.false_eq_true, if_false, hzero]
      omega

/-- `resultSlots` with a limit within the cache counts what the task queue holds within the
limit, less the numbers of the limit not yet scheduled. -/
theorem Accounted.resultSlots_add {p : Part} (hp : fetches q.mode p = true) {L : Nat}
    (hL : L ≤ blockCacheItems) :
    q.resultSlots L (q.part p) + ((List.range' q.resultOffset.toNat L).countP (· < next) : Int) =
      L + (q.part p).taskQueue.countP (fun x => x.number < q.resultOffset.toNat + L) := by
  have hcount := hq.count_add hp L hL
  -- the loop of `finished` stops at the first free slot, after which no slot is in use
  have hfinished : ((q.resultCache.take L).takeWhile Option.isSome).countP (slotDone (q.part p)) =
      (q.resultCache.take L).countP (slotDone (q.part p)) := by
    apply countP_takeWhile_isSome _ rfl
    intro j k b hjk hk
    rw [List.getElem?_take] at hk ⊢
    split at hk
    · obtain ⟨b', hb'⟩ := hq.prefix_ j k b hjk hk
      exact ⟨b', by rw [if_pos (by omega), hb']⟩
    · cases hk
  -- `pending` counts the headers asked for below the limit
  have hpending : ((q.part p).pendPool.entries.map fun e =>
      e.2.Headers.countP fun h => h.numberU64 < q.resultOffset + L.toUInt64).sum =
      ((q.part p).pendPool.entries.flatMap fun e => e.2.Headers).countP
        (fun x => x.number < q.resultOffset.toNat + L) := by
    rw [List.countP_flatMap]
    congr 1
    apply List.map_congr_left
    intro e he
    apply List.countP_congr
    intro x hx
    have hheld : x ∈ (q.part p).held := List.mem_append_right _ (List.mem_flatMap.mpr ⟨e, he, hx⟩)
    have hsmall := hq.small
    have hoff := hq.offset_le
    have hxn := hq.number_lt hheld
    simp only [decide_eq_true_eq]
    exact numberU64_lt_iff (by unfold blockCacheItems at hsmall; omega)
      (by unfold blockCacheItems at hsmall hL; omega)
  rw [Component.held, List.countP_append] at hcount
  rw [resultSlots_eq, hfinished, hpending]
  omega

/-- A task queue with a header past the limit holds at least as many headers within it as
`resultSlots` gives. -/
theorem Accounted.admissible {p : Part} (hp : fetches q.mode p = true) {L : Nat}
    (hL : L ≤ blockCacheItems) :
    (∀ x ∈ (q.part p).taskQueue, x.number < q.resultOffset.toNat + L) ∨
      q.resultSlots L (q.part p) ≤
        ((q.part p).taskQueue.countP fun x => x.number < q.resultOffset.toNat + L : Nat) := by
  by_cases hfull : q.resultOffset.toNat + L ≤ next
  · right
    have hall : (List.range' q.resultOffset.toNat L).countP (· < next) = L := by
      rw [List.countP_eq_length.mpr, List.length_range']
      intro n hn
      rw [List.mem_range'_1] at hn
      simp only [decide_eq_true_eq]
      omega
    have hadd := hq.resultSlots_add hp hL
    rw [hall] at hadd
    omega
  · left
    intro x hx
    have := hq.number_lt (List.mem_append_left _ hx)
    omega

/-! ### What the calls may change -/

/-- Replacing the pools of a fetch by pools that hold the same headers, with the same done pool,
keeps the bookkeeping, as long as a header that leaves the task queue has its slot. -/
theorem Accounted.setPart_perm {p : Part} {c : Component} (hheld : (q.part p).held.Perm c.held)
    (hdone : c.donePool = (q.part p).donePool)
    (hpop : ∀ n, q.resultOffset.toNat ≤ n → n < next → c.taskQueue.countP (·.number = n) = 0 →
      (q.part p).taskQueue.countP (·.number = n) = 0 ∨
        ∃ r, q.resultCache[n - q.resultOffset.toNat]? = some (some r)) :
    Accounted C (q.setPart p c) next where
  small := hq.small
  offset_le := by rw [resultOffset_setPart]; exact hq.offset_le
  length := by rw [resultCache_setPart]; exact hq.length
  held p' x hx := by
    rw [resultOffset_setPart]
    by_cases hp' : p' = p
    · subst hp'
      rw [part_setPart_self] at hx
      exact hq.held p' x (hheld.symm.subset hx)
    · rw [part_setPart_ne _ _ _ hp'] at hx
      exact hq.held p' x hx
  idle p' hf := by
    rw [mode_setPart] at hf
    by_cases hp' : p' = p
    · subst hp'
      have h0 := hq.idle p' hf
      rw [part_setPart_self]
      rw [h0] at hheld
      exact hheld.symm.eq_nil
    · rw [part_setPart_ne _ _ _ hp']
      exact hq.idle p' hf
  status p' hf n hlo hhi := by
    rw [mode_setPart] at hf
    rw [resultOffset_setPart] at hlo
    by_cases hp' : p' = p
    · subst hp'
      rw [part_setPart_self, ← hheld.countP_eq, C.done_congr hdone]
      exact hq.status p' hf n hlo hhi
    · rw [part_setPart_ne _ _ _ hp']
      exact hq.status p' hf n hlo hhi
  fresh p' n hlo hhi := by
    by_cases hp' : p' = p
    · subst hp'
      rw [part_setPart_self, C.done_congr hdone]
      exact hq.fresh p' n hlo hhi
    · rw [part_setPart_ne _ _ _ hp']
      exact hq.fresh p' n hlo hhi
  slot j r hr := by
    rw [resultCache_setPart] at hr
    rw [resultOffset_setPart, C.undone_setPart (C.done_congr hdone _)]
    exact hq.slot j r hr
  prefix_ j k r hjk hr := by
    rw [resultCache_setPart] at hr ⊢
    exact hq.prefix_ j k r hjk hr
  popped p' hf n hlo hhi hzero := by
    rw [mode_setPart] at hf
    rw [resultOffset_setPart] at hlo ⊢
    rw [resultCache_setPart]
    by_cases hp' : p' = p
    · subst hp'
      rw [part_setPart_self] at hzero
      rcases hpop n hlo hhi hzero with hzero' | hslot
      · exact hq.popped p' hf n hlo hhi hzero'
      · exact hslot
    · rw [part_setPart_ne _ _ _ hp'] at hzero
      exact hq.popped p' hf n hlo hhi hzero

/-- Putting into the slot of a scheduled number the block of that number, with its count of
fetches left, keeps the bookkeeping when the slots before it are in use. -/
theorem Accounted.setSlot {n : Nat} (hlo : q.resultOffset.toNat ≤ n) (hhi : n < next)
    (hroom : n - q.resultOffset.toNat < blockCacheItems) {res : FetchResult τ}
    (hhash : res.Hash = H.hashHeader (C.header n)) (hheader : res.Header = C.header n)
    (hpend : res.Pending = (C.undone q n : Int))
    (hbefore : ∀ j < n - q.resultOffset.toNat, ∃ r, q.resultCache[j]? = some (some r)) :
    Accounted C (q.setCache (q.resultCache.set (n - q.resultOffset.toNat) (some res))) next where
  small := hq.small
  offset_le := hq.offset_le
  length := by rw [resultCache_setCache, List.length_set]; exact hq.length
  held p x hx := by simpa using hq.held p x (by simpa using hx)
  idle p hf := by simpa using hq.idle p (by simpa using hf)
  status p hf m hlo hhi := by simpa using hq.status p (by simpa using hf) m (by simpa using hlo) hhi
  fresh p m hlo hhi := by simpa using hq.fresh p m hlo hhi
  slot j r hr := by
    rw [resultCache_setCache] at hr
    rw [resultOffset_setCache, Chain.undone_setCache]
    by_cases hj : n - q.resultOffset.toNat = j
    · subst hj
      rw [List.getElem?_set_self (by rw [hq.length]; exact hroom)] at hr
      cases hr
      rw [Nat.add_sub_cancel' hlo]
      exact ⟨hhi, hhash, hheader, hpend⟩
    · rw [List.getElem?_set_ne hj] at hr
      exact hq.slot j r hr
  prefix_ := by
    rw [resultCache_setCache]
    exact prefix_set res hq.prefix_ hbefore
  popped p hf m hlo hhi hzero := by
    rw [resultOffset_setCache] at hlo ⊢
    rw [resultCache_setCache]
    obtain ⟨r, hr⟩ := hq.popped p (by simpa using hf) m hlo hhi (by simpa using hzero)
    exact getElem?_set_some res hr

/-- Marking the header of a scheduled number done in a fetch the mode makes, and counting the
fetch off in its slot, keeps the bookkeeping when the slots before it are in use. -/
theorem Accounted.markDone {p : Part} (hp : fetches q.mode p = true) {n : Nat}
    (hlo : q.resultOffset.toNat ≤ n) (hhi : n < next)
    (hroom : n - q.resultOffset.toNat < blockCacheItems) {c : Component}
    (hheld : (q.part p).held.Perm (C.header n :: c.held))
    (hdone : c.donePool = Function.update (q.part p).donePool (H.hashHeader (C.header n)) true)
    (hpop : ∀ m, c.taskQueue.countP (·.number = m) = 0 →
      m = n ∨ (q.part p).taskQueue.countP (·.number = m) = 0)
    {res : FetchResult τ} (hhash : res.Hash = H.hashHeader (C.header n))
    (hheader : res.Header = C.header n) (hpend : res.Pending = (C.undone q n : Int))
    (hbefore : ∀ j < n - q.resultOffset.toNat, ∃ r, q.resultCache[j]? = some (some r)) :
    Accounted C ((q.setPart p c).setCache (q.resultCache.set (n - q.resultOffset.toNat)
      (some { res with Pending := res.Pending - 1 }))) next := by
  have hsmall := hq.small
  -- the done pool changes at the hash of this header only
  have hdone_ne : ∀ m, m ≠ n → m < 2 ^ 62 → C.done c m = C.done (q.part p) m := by
    intro m hm hm62
    rw [Chain.done, Chain.done, hdone, Function.update_of_ne]
    intro heq
    exact hm (C.hash_inj m n hm62 (by unfold blockCacheItems at hsmall; omega) heq)
  have hdone_n : C.done c n = true := by
    rw [Chain.done, hdone, Function.update_self]
  have hcount_n : (q.part p).held.countP (·.number = n) = c.held.countP (·.number = n) + 1 := by
    rw [hheld.countP_eq, List.countP_cons, C.number_eq, if_pos (decide_eq_true rfl)]
  have hcount_ne : ∀ m, m ≠ n →
      (q.part p).held.countP (·.number = m) = c.held.countP (·.number = m) := by
    intro m hm
    rw [hheld.countP_eq, List.countP_cons, C.number_eq, if_neg (by simpa [eq_comm] using hm),
      Nat.add_zero]
  -- before the mark, the header was held once and not done
  have hst := hq.status p hp n hlo hhi
  have hbefore_n : C.done (q.part p) n = false := by
    cases hd : C.done (q.part p) n
    · rfl
    · rw [hd, if_pos rfl] at hst
      omega
  refine ⟨hq.small, by simpa using hq.offset_le, by simpa using hq.length, ?_, ?_, ?_, ?_, ?_,
    by simpa using prefix_set _ hq.prefix_ hbefore, ?_⟩
  · -- held
    intro p' x hx
    rw [part_setCache] at hx
    rw [resultOffset_setCache, resultOffset_setPart]
    by_cases hp' : p' = p
    · subst hp'
      rw [part_setPart_self] at hx
      exact hq.held p' x (hheld.symm.subset (List.mem_cons_of_mem _ hx))
    · rw [part_setPart_ne _ _ _ hp'] at hx
      exact hq.held p' x hx
  · -- idle
    intro p' hf
    rw [mode_setCache, mode_setPart] at hf
    have hp' : p' ≠ p := by
      rintro rfl
      rw [hp] at hf
      cases hf
    rw [part_setCache, part_setPart_ne _ _ _ hp']
    exact hq.idle p' hf
  · -- status
    intro p' hf m hlo' hhi'
    rw [mode_setCache, mode_setPart] at hf
    rw [resultOffset_setCache, resultOffset_setPart] at hlo'
    rw [part_setCache]
    by_cases hp' : p' = p
    · subst hp'
      rw [part_setPart_self]
      by_cases hm : m = n
      · subst hm
        rw [hdone_n, if_pos rfl]
        rw [hbefore_n, hcount_n] at hst
        simp only [Bool.false_eq_true, if_false] at hst
        omega
      · rw [hdone_ne m hm (by unfold blockCacheItems at hsmall; omega), ← hcount_ne m hm]
        exact hq.status p' hf m hlo' hhi'
    · rw [part_setPart_ne _ _ _ hp']
      exact hq.status p' hf m hlo' hhi'
  · -- fresh
    intro p' m hlo' hhi'
    rw [part_setCache]
    by_cases hp' : p' = p
    · subst hp'
      rw [part_setPart_self, hdone_ne m (by omega) hhi']
      exact hq.fresh p' m hlo' hhi'
    · rw [part_setPart_ne _ _ _ hp']
      exact hq.fresh p' m hlo' hhi'
  · -- slot
    intro j r hr
    rw [resultCache_setCache] at hr
    rw [resultOffset_setCache, resultOffset_setPart, Chain.undone_setCache]
    by_cases hj : n - q.resultOffset.toNat = j
    · subst hj
      rw [List.getElem?_set_self (by rw [hq.length]; exact hroom)] at hr
      cases hr
      rw [Nat.add_sub_cancel' hlo]
      have hundone := C.undone_setPart_done (c := c) hp hbefore_n hdone_n
      refine ⟨hhi, hhash, hheader, ?_⟩
      show res.Pending - 1 = _
      rw [hpend]
      omega
    · rw [List.getElem?_set_ne hj] at hr
      obtain ⟨hlt, hh, hhd, hpd⟩ := hq.slot j r hr
      refine ⟨hlt, hh, hhd, ?_⟩
      rw [C.undone_setPart (hdone_ne _ (by omega) (by unfold blockCacheItems at hsmall; omega))]
      exact hpd
  · -- popped
    intro p' hf m hlo' hhi' hzero
    rw [mode_setCache, mode_setPart] at hf
    rw [resultOffset_setCache, resultOffset_setPart] at hlo' ⊢
    rw [part_setCache] at hzero
    rw [resultCache_setCache]
    by_cases hp' : p' = p
    · subst hp'
      rw [part_setPart_self] at hzero
      rcases hpop m hzero with rfl | hzero'
      · exact ⟨_, List.getElem?_set_self (by rw [hq.length]; exact hroom)⟩
      · obtain ⟨r, hr⟩ := hq.popped p' hf m hlo' hhi' hzero'
        exact getElem?_set_some _ hr
    · rw [part_setPart_ne _ _ _ hp'] at hzero
      obtain ⟨r, hr⟩ := hq.popped p' hf m hlo' hhi' hzero
      exact getElem?_set_some _ hr

end Accounted

end EpvChain.Downloader
