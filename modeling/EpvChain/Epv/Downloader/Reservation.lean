import EpvChain.Epv.Downloader.Slots

/-!
# A reservation stays within the limit (`queue.reserveHeaders`)

`reserveHeaders` pops headers off a task queue by lowest number while fewer than `resultSlots`
of them were taken (a header with nothing to fetch is done at once and lowers the count of slots
instead). `resultSlots` counts exactly the headers within the limit that the task queue holds,
when it holds one past the limit (`Accounted.admissible`), so every header the loop pops ranks
below that count and lies within the limit.

* `reserveLoop_stop`, `reserveLoop_empty`, `reserveLoop_noop`, `reserveLoop_take`: what one turn
  of the loop does.
* `LoopInv`: the loop's invariant, the queue's bookkeeping with the headers taken so far counted
  back in the task queue, the slots of those headers, and the headers popped so far, each below
  every header left.
* `Accounted.reserveHeaders`: a reservation on an accounted queue succeeds, asks only for headers
  whose slot is within the limit, changes no slot past it, and leaves the queue accounted.
-/

namespace EpvChain.Downloader

open EpvChain.Types EpvChain.Lib

variable {τ : Type} {H : Hashes τ}

/-! ### One turn of the loop -/

section Turn

variable (H) (resultOffset : UInt64) (comps : Int) (lacks : Hash → Bool) (isNoop : Header → Bool)
  (count fuel : Nat) (r : Reserve) (c : Component) (cache : List (Option (FetchResult τ)))

/-- The slot `reserveHeaders` gives a header it takes: the one in use, or a new one. -/
def reserveSlot (header : Header) : FetchResult τ :=
  (cache.getD (resultIndex header resultOffset).toNat none).getD
    { Pending := comps, Hash := H.hashHeader header, Header := header, Uncles := [],
      Transactions := [], Receipts := [] }

theorem reserveLoop_stop (h : ¬ (r.proc < r.space ∧ r.send.length < count)) :
    reserveLoop H resultOffset comps lacks isNoop count (fuel + 1) r c cache = .ok (r, c, cache) := by
  rw [reserveLoop, if_neg h]

theorem reserveLoop_empty (hpop : popItem c.taskQueue = none) :
    reserveLoop H resultOffset comps lacks isNoop count (fuel + 1) r c cache = .ok (r, c, cache) := by
  rw [reserveLoop]
  split_ifs <;> simp [hpop]

variable {header : Header} {rest : List Header}
  (hcond : r.proc < r.space ∧ r.send.length < count)
  (hpop : popItem c.taskQueue = some (header, rest))
  (hidx : ¬ (resultIndex header resultOffset ≥ cache.length ∨ resultIndex header resultOffset < 0))
include hcond hpop hidx

/-- A header with nothing to fetch is done, and takes a slot but no turn. -/
theorem reserveLoop_noop (hnoop : isNoop header = true) :
    reserveLoop H resultOffset comps lacks isNoop count (fuel + 1) r c cache =
      reserveLoop H resultOffset comps lacks isNoop count fuel
        { r with space := r.space - 1, progress := true }
        { c with
          taskQueue := rest
          donePool := Function.update c.donePool (H.hashHeader header) true
          taskPool := Function.update c.taskPool (H.hashHeader header) none }
        (cache.set (resultIndex header resultOffset).toNat
          (some { reserveSlot H resultOffset comps cache header with
            Pending := (reserveSlot H resultOffset comps cache header).Pending - 1 })) := by
  rw [reserveLoop, if_pos hcond]
  simp only [hpop, if_neg hidx, hnoop, if_true]
  rfl

/-- Any other header is sent, or skipped if the peer lacks it, and takes a turn. -/
theorem reserveLoop_take (hnoop : isNoop header = false) :
    reserveLoop H resultOffset comps lacks isNoop count (fuel + 1) r c cache =
      reserveLoop H resultOffset comps lacks isNoop count fuel
        (if lacks (H.hashHeader header) then { r with skip := r.skip ++ [header], proc := r.proc + 1 }
          else { r with send := r.send ++ [header], proc := r.proc + 1 })
        { c with taskQueue := rest }
        (cache.set (resultIndex header resultOffset).toNat
          (some (reserveSlot H resultOffset comps cache header))) := by
  rw [reserveLoop, if_pos hcond]
  simp only [hpop, if_neg hidx, hnoop, Bool.false_eq_true, if_false]
  cases lacks (H.hashHeader header) <;> rfl

end Turn

/-! ### The loop's invariant -/

/-- The queue in the middle of a reservation: the pools of the fetch with the headers taken so
far, sent or skipped, counted back in its task queue, and the slots so far. -/
def midQueue (q : Queue τ) (p : Part) (r : Reserve) (c : Component)
    (cache : List (Option (FetchResult τ))) : Queue τ :=
  (q.setPart p { c with taskQueue := c.taskQueue ++ (r.send ++ r.skip) }).setCache cache

section MidQueue

variable (q : Queue τ) (p : Part) (r : Reserve) (c : Component)
  (cache : List (Option (FetchResult τ)))

@[simp] theorem part_midQueue_self :
    (midQueue q p r c cache).part p = { c with taskQueue := c.taskQueue ++ (r.send ++ r.skip) } := by
  simp [midQueue]

@[simp] theorem mode_midQueue : (midQueue q p r c cache).mode = q.mode := by
  simp [midQueue]

@[simp] theorem resultOffset_midQueue : (midQueue q p r c cache).resultOffset = q.resultOffset := by
  simp [midQueue]

@[simp] theorem resultCache_midQueue : (midQueue q p r c cache).resultCache = cache := by
  simp [midQueue]

end MidQueue

variable (C : Chain H)

/-- The invariant of `reserveHeaders`' loop on the fetch `p` of `q` with the limit `L`: the queue
is accounted with the headers taken so far counted back in the task queue; each of them lies
within the limit and has its slot; no slot past the limit changed; and the headers popped so far
are each below every header left, as many as the turns taken and the slots used. -/
structure LoopInv (q : Queue τ) (next : Nat) (p : Part) (L : Nat) (r : Reserve) (c : Component)
    (cache : List (Option (FetchResult τ))) : Prop where
  accounted : Accounted C (midQueue q p r c cache) next
  pendPool : c.pendPool = (q.part p).pendPool
  taken : ∀ y ∈ r.send ++ r.skip, y.number < q.resultOffset.toNat + L ∧
    ∃ res, cache[y.number - q.resultOffset.toNat]? = some (some res)
  beyond : ∀ j, L ≤ j → cache[j]? = q.resultCache[j]?
  popped : ∃ P : List Header, (q.part p).taskQueue.Perm (P ++ c.taskQueue) ∧
    (∀ x ∈ P, ∀ y ∈ c.taskQueue, x.number ≤ y.number) ∧
    (P.length : Int) = r.proc + (q.resultSlots L (q.part p) - r.space)

variable {C}

/-- The slot `reserveHeaders` gives a header of the task queue is the block of its number, with
its count of fetches left: a slot not in use has every fetch left, since a header that left some
task queue has its slot. -/
theorem Accounted.reserveSlot_spec {q : Queue τ} {next : Nat} (hq : Accounted C q next)
    {p : Part} {x : Header} (hx : x ∈ (q.part p).taskQueue) :
    (reserveSlot H q.resultOffset (components q.mode) q.resultCache x).Hash =
        H.hashHeader (C.header x.number) ∧
      (reserveSlot H q.resultOffset (components q.mode) q.resultCache x).Header = C.header x.number ∧
      (reserveSlot H q.resultOffset (components q.mode) q.resultCache x).Pending =
        (C.undone q x.number : Int) := by
  obtain ⟨hxc, hlo, hhi⟩ := hq.held p x (List.mem_append_left _ hx)
  have hsmall := hq.small
  have hidx : (resultIndex x q.resultOffset).toNat = x.number - q.resultOffset.toNat := by
    rw [resultIndex_eq (by unfold blockCacheItems at hsmall; omega)
      (by unfold blockCacheItems at hsmall; omega)]
    omega
  by_cases hslot : ∃ r, q.resultCache[x.number - q.resultOffset.toNat]? = some (some r)
  · obtain ⟨r, hr⟩ := hslot
    obtain ⟨-, hh, hhd, hpd⟩ := hq.slot _ r hr
    rw [Nat.add_sub_cancel' hlo] at hh hhd hpd
    have hres : reserveSlot H q.resultOffset (components q.mode) q.resultCache x = r := by
      rw [reserveSlot, hidx, List.getD_eq_getElem?_getD, hr]
      rfl
    rw [hres]
    exact ⟨hh, hhd, hpd⟩
  · -- a free slot: no fetch has the block done, or its header would have its slot
    have hnone : q.resultCache.getD (x.number - q.resultOffset.toNat) none = none := by
      rw [List.getD_eq_getElem?_getD]
      cases hget : q.resultCache[x.number - q.resultOffset.toNat]? with
      | none => rfl
      | some o =>
        cases o with
        | none => rfl
        | some r => exact absurd ⟨r, hget⟩ hslot
    have hres : reserveSlot H q.resultOffset (components q.mode) q.resultCache x =
        { Pending := components q.mode, Hash := H.hashHeader x, Header := x, Uncles := [],
          Transactions := [], Receipts := [] } := by
      rw [reserveSlot, hidx, hnone]
      rfl
    rw [hres]
    refine ⟨by rw [← hxc], hxc, ?_⟩
    show (components q.mode : Int) = _
    rw [C.undone_of_not_done]
    intro p' hp'
    cases hd : C.done (q.part p') x.number
    · rfl
    · have hst := hq.status p' hp' x.number hlo hhi
      rw [hd, if_pos rfl, Component.held, List.countP_append] at hst
      obtain ⟨r, hr⟩ := hq.popped p' hp' x.number hlo hhi (by omega)
      exact absurd ⟨r, hr⟩ hslot

section Loop

variable {q : Queue τ} {next : Nat} (hq : Accounted C q next) {p : Part}
  (hp : fetches q.mode p = true) {L : Nat} (hL : L ≤ blockCacheItems)
include hq hp hL

omit hp hL in
/-- The loop starts with nothing taken. -/
theorem loopInv_start :
    LoopInv C q next p L ⟨q.resultSlots L (q.part p), 0, [], [], false⟩ (q.part p) q.resultCache := by
  have hmid : midQueue q p ⟨q.resultSlots L (q.part p), 0, [], [], false⟩ (q.part p) q.resultCache =
      q := by
    simp only [midQueue, List.append_nil]
    show (q.setPart p (q.part p)).setCache q.resultCache = q
    rw [setPart_part, setCache_self]
  refine ⟨by rw [hmid]; exact hq, rfl, by simp, fun _ _ => rfl, ⟨[], by simp, by simp, by simp⟩⟩

variable {r : Reserve} {c : Component} {cache : List (Option (FetchResult τ))}
  {x : Header} {rest : List Header}

/-- A header the loop pops ranks below the slots `resultSlots` gave, so it lies within the
limit. -/
theorem LoopInv.pop_lt (hinv : LoopInv C q next p L r c cache) (hcond : r.proc < r.space)
    (hpop : popItem c.taskQueue = some (x, rest)) : x.number < q.resultOffset.toNat + L := by
  obtain ⟨P, hperm, hmin, hlen⟩ := hinv.popped
  have hxT : x ∈ c.taskQueue := (perm_of_popItem hpop).symm.subset List.mem_cons_self
  have hxT0 : x ∈ (q.part p).taskQueue := hperm.symm.subset (List.mem_append_right _ hxT)
  -- every header of the task queue numbered below `x` was popped before it
  have hrank : (q.part p).taskQueue.countP (fun y => y.number < x.number) ≤ P.length := by
    rw [hperm.countP_eq, List.countP_append]
    have hzero : c.taskQueue.countP (fun y => y.number < x.number) = 0 := by
      rw [List.countP_eq_zero]
      intro y hy
      simp only [decide_eq_true_eq, Nat.not_lt]
      rcases List.mem_cons.mp ((perm_of_popItem hpop).subset hy) with rfl | hy'
      · exact le_rfl
      · exact popItem_le hpop y hy'
    rw [hzero, Nat.add_zero]
    exact List.countP_le_length
  rcases hq.admissible hp hL with hall | hspace
  · exact hall x hxT0
  · by_contra hge
    rw [Nat.not_lt] at hge
    have hmono : (q.part p).taskQueue.countP (fun y => y.number < q.resultOffset.toNat + L) ≤
        (q.part p).taskQueue.countP (fun y => y.number < x.number) :=
      List.countP_mono_left fun y _ hy => by
        simp only [decide_eq_true_eq] at hy ⊢
        omega
    omega

omit hq hL in
/-- The slots of the numbers below a header the loop pops are in use: each such header was sent,
skipped, asked for or done. -/
theorem LoopInv.before (hinv : LoopInv C q next p L r c cache)
    (hpop : popItem c.taskQueue = some (x, rest)) :
    ∀ j < x.number - q.resultOffset.toNat, ∃ res, cache[j]? = some (some res) := by
  intro j hj
  have hxT : x ∈ c.taskQueue := (perm_of_popItem hpop).symm.subset List.mem_cons_self
  obtain ⟨-, hlo, hhi⟩ := hinv.accounted.held p x (by simp [Component.held, hxT])
  rw [resultOffset_midQueue] at hlo
  have hm : q.resultOffset.toNat + j - q.resultOffset.toNat = j := by omega
  -- the task queue holds nothing below `x`
  have hzero : c.taskQueue.countP (·.number = q.resultOffset.toNat + j) = 0 := by
    rw [List.countP_eq_zero]
    intro y hy
    simp only [decide_eq_true_eq]
    rcases List.mem_cons.mp ((perm_of_popItem hpop).subset hy) with rfl | hy'
    · omega
    · have := popItem_le hpop y hy'
      omega
  by_cases htaken : (r.send ++ r.skip).countP (·.number = q.resultOffset.toNat + j) = 0
  · obtain ⟨res, hres⟩ := hinv.accounted.popped p (by simpa using hp) (q.resultOffset.toNat + j)
      (by simp) (by omega) (by simp [List.countP_append, hzero, htaken])
    rw [resultOffset_midQueue, resultCache_midQueue, hm] at hres
    exact ⟨res, hres⟩
  · obtain ⟨y, hy, hyn⟩ := List.countP_pos_iff.mp (Nat.pos_of_ne_zero htaken)
    simp only [decide_eq_true_eq] at hyn
    obtain ⟨-, res, hres⟩ := hinv.taken y hy
    rw [hyn, hm] at hres
    exact ⟨res, hres⟩

/-- What the loop knows of a header it pops. -/
theorem LoopInv.pop_facts (hinv : LoopInv C q next p L r c cache) (hcond : r.proc < r.space)
    (hpop : popItem c.taskQueue = some (x, rest)) :
    x = C.header x.number ∧ q.resultOffset.toNat ≤ x.number ∧ x.number < next ∧
      x.number < q.resultOffset.toNat + L ∧
      (resultIndex x q.resultOffset).toNat = x.number - q.resultOffset.toNat ∧
      ¬ (resultIndex x q.resultOffset ≥ cache.length ∨ resultIndex x q.resultOffset < 0) := by
  have hxT : x ∈ c.taskQueue := (perm_of_popItem hpop).symm.subset List.mem_cons_self
  obtain ⟨hxc, hlo, hhi⟩ := hinv.accounted.held p x (by simp [Component.held, hxT])
  rw [resultOffset_midQueue] at hlo
  have hlt := hinv.pop_lt hq hp hL hcond hpop
  have hsmall := hinv.accounted.small
  have hlen := hinv.accounted.length
  rw [resultCache_midQueue] at hlen
  have hindex := resultIndex_eq (x := x) (o := q.resultOffset)
    (by unfold blockCacheItems at hsmall; omega) (by unfold blockCacheItems at hsmall; omega)
  refine ⟨hxc, hlo, hhi, hlt, by omega, ?_⟩
  rw [hindex, hlen]
  unfold blockCacheItems at hL ⊢
  omega

/-- A header with nothing to fetch: it is done, and its slot counts one fetch less. -/
theorem LoopInv.noop (hinv : LoopInv C q next p L r c cache) (hcond : r.proc < r.space)
    (hpop : popItem c.taskQueue = some (x, rest)) :
    LoopInv C q next p L { r with space := r.space - 1, progress := true }
      { c with
        taskQueue := rest
        donePool := Function.update c.donePool (H.hashHeader x) true
        taskPool := Function.update c.taskPool (H.hashHeader x) none }
      (cache.set (resultIndex x q.resultOffset).toNat
        (some { reserveSlot H q.resultOffset (components q.mode) cache x with
          Pending := (reserveSlot H q.resultOffset (components q.mode) cache x).Pending - 1 })) := by
  obtain ⟨hxc, hlo, hhi, hlt, hidx, -⟩ := hinv.pop_facts hq hp hL hcond hpop
  have hperm := perm_of_popItem hpop
  have hxT : x ∈ c.taskQueue := hperm.symm.subset List.mem_cons_self
  have hm := hinv.accounted
  obtain ⟨hh, hhd, hpd⟩ := hm.reserveSlot_spec (p := p) (x := x) (by simp [hxT])
  simp only [mode_midQueue, resultOffset_midQueue, resultCache_midQueue] at hh hhd hpd
  have hmark := hm.markDone (p := p) (n := x.number) (by simpa using hp) (by simpa using hlo) hhi
    (by simp only [resultOffset_midQueue]; unfold blockCacheItems at hL ⊢; omega)
    (c := { c with
      taskQueue := rest ++ (r.send ++ r.skip)
      donePool := Function.update c.donePool (H.hashHeader x) true
      taskPool := Function.update c.taskPool (H.hashHeader x) none })
    (by
      rw [part_midQueue_self, ← hxc]
      simp only [Component.held]
      exact ((hperm.append_right _).append_right _))
    (by rw [part_midQueue_self, ← hxc])
    (by
      intro m hzero
      rw [part_midQueue_self]
      by_cases hmn : m = x.number
      · exact .inl hmn
      · refine .inr ?_
        rw [(hperm.append_right _).countP_eq, List.cons_append, List.countP_cons,
          if_neg (by simpa using Ne.symm hmn)]
        exact hzero)
    hh hhd hpd (by simpa using hinv.before hp hpop)
  refine ⟨?_, hinv.pendPool, ?_, ?_, ?_⟩
  · simpa [midQueue, hidx] using hmark
  · intro y hy
    obtain ⟨hylt, res, hres⟩ := hinv.taken y hy
    exact ⟨hylt, getElem?_set_some _ hres⟩
  · intro j hj
    rw [List.getElem?_set_ne (by omega)]
    exact hinv.beyond j hj
  · obtain ⟨P, hP, hmin, hlen⟩ := hinv.popped
    refine ⟨P ++ [x], ?_, ?_, ?_⟩
    · rw [List.append_assoc, List.singleton_append]
      exact hP.trans (hperm.append_left P)
    · intro y hy z hz
      rcases List.mem_append.mp hy with hy | hy
      · exact hmin y hy z (hperm.symm.subset (List.mem_cons_of_mem _ hz))
      · rw [List.mem_singleton.mp hy]
        exact popItem_le hpop z hz
    · simp only [List.length_append, List.length_singleton, Nat.cast_add, Nat.cast_one]
      rw [hlen]
      omega

/-- Any other header: sent or skipped, with its slot in use. -/
theorem LoopInv.take (hinv : LoopInv C q next p L r c cache) (hcond : r.proc < r.space)
    (hpop : popItem c.taskQueue = some (x, rest)) (lacked : Bool) :
    LoopInv C q next p L
      (if lacked then { r with skip := r.skip ++ [x], proc := r.proc + 1 }
        else { r with send := r.send ++ [x], proc := r.proc + 1 })
      { c with taskQueue := rest }
      (cache.set (resultIndex x q.resultOffset).toNat
        (some (reserveSlot H q.resultOffset (components q.mode) cache x))) := by
  obtain ⟨hxc, hlo, hhi, hlt, hidx, -⟩ := hinv.pop_facts hq hp hL hcond hpop
  have hperm := perm_of_popItem hpop
  have hxT : x ∈ c.taskQueue := hperm.symm.subset List.mem_cons_self
  have hm := hinv.accounted
  set r' : Reserve := if lacked then { r with skip := r.skip ++ [x], proc := r.proc + 1 }
    else { r with send := r.send ++ [x], proc := r.proc + 1 } with hr'
  -- the headers taken are those before and this one
  have htaken : (r'.send ++ r'.skip).Perm (x :: (r.send ++ r.skip)) := by
    cases lacked
    · simp only [hr', Bool.false_eq_true, if_false, List.append_assoc, List.singleton_append]
      exact List.perm_middle
    · simp only [hr', if_true, ← List.append_assoc]
      exact List.perm_append_singleton _ _
  have hqueue : (c.taskQueue ++ (r.send ++ r.skip)).Perm (rest ++ (r'.send ++ r'.skip)) :=
    (hperm.append_right _).trans (List.perm_middle.symm.trans (htaken.append_left rest).symm)
  have hmove := hm.setPart_perm (p := p) (c := { c with taskQueue := rest ++ (r'.send ++ r'.skip) })
    (by
      rw [part_midQueue_self]
      exact hqueue.append_right _)
    (by rw [part_midQueue_self])
    (by
      intro n _ _ hzero
      refine .inl ?_
      rw [part_midQueue_self]
      rw [hqueue.countP_eq]
      exact hzero)
  obtain ⟨hh, hhd, hpd⟩ := hm.reserveSlot_spec (p := p) (x := x) (by simp [hxT])
  simp only [mode_midQueue, resultOffset_midQueue, resultCache_midQueue] at hh hhd hpd
  have hslot := hmove.setSlot (n := x.number) (by simpa using hlo) hhi
    (by simp only [resultOffset_setPart, resultOffset_midQueue]; unfold blockCacheItems at hL ⊢; omega)
    hh hhd (by rw [C.undone_setPart (C.done_congr (by rw [part_midQueue_self]) _)]; exact hpd)
    (by simpa using hinv.before hp hpop)
  have hroom : x.number - q.resultOffset.toNat < cache.length := by
    have hlen := hm.length
    rw [resultCache_midQueue] at hlen
    rw [hlen]
    unfold blockCacheItems at hL ⊢
    omega
  refine ⟨?_, hinv.pendPool, ?_, ?_, ?_⟩
  · simpa [midQueue, hidx] using hslot
  · intro y hy
    rcases List.mem_cons.mp (htaken.subset hy) with rfl | hy'
    · exact ⟨hlt, _, by rw [hidx, List.getElem?_set_self hroom]⟩
    · obtain ⟨hylt, res, hres⟩ := hinv.taken y hy'
      exact ⟨hylt, getElem?_set_some _ hres⟩
  · intro j hj
    rw [List.getElem?_set_ne (by omega)]
    exact hinv.beyond j hj
  · obtain ⟨P, hP, hmin, hlen⟩ := hinv.popped
    refine ⟨P ++ [x], ?_, ?_, ?_⟩
    · rw [List.append_assoc, List.singleton_append]
      exact hP.trans (hperm.append_left P)
    · intro y hy z hz
      rcases List.mem_append.mp hy with hy | hy
      · exact hmin y hy z (hperm.symm.subset (List.mem_cons_of_mem _ hz))
      · rw [List.mem_singleton.mp hy]
        exact popItem_le hpop z hz
    · have hproc : r'.proc = r.proc + 1 ∧ r'.space = r.space := by
        cases lacked <;> exact ⟨rfl, rfl⟩
      simp only [List.length_append, List.length_singleton, Nat.cast_add, Nat.cast_one]
      rw [hlen, hproc.1, hproc.2]
      omega

/-- The loop keeps its invariant to the end, and never meets a header without a slot. -/
theorem LoopInv.run (lacks : Hash → Bool) (isNoop : Header → Bool) (count fuel : Nat)
    (hinv : LoopInv C q next p L r c cache) :
    ∃ r' c' cache', reserveLoop H q.resultOffset (components q.mode) lacks isNoop count fuel r c
      cache = .ok (r', c', cache') ∧ LoopInv C q next p L r' c' cache' := by
  induction fuel generalizing r c cache with
  | zero => exact ⟨r, c, cache, rfl, hinv⟩
  | succ fuel ih =>
    by_cases hcond : r.proc < r.space ∧ r.send.length < count
    · cases hpop : popItem c.taskQueue with
      | none => exact ⟨r, c, cache, reserveLoop_empty _ _ _ _ _ _ _ _ _ _ hpop, hinv⟩
      | some popped =>
        obtain ⟨x, rest⟩ := popped
        obtain ⟨-, -, -, -, -, hidx⟩ := hinv.pop_facts hq hp hL hcond.1 hpop
        cases hnoop : isNoop x with
        | true =>
          rw [reserveLoop_noop _ _ _ _ _ _ _ _ _ _ hcond hpop hidx hnoop]
          exact ih (hinv.noop hq hp hL hcond.1 hpop)
        | false =>
          rw [reserveLoop_take _ _ _ _ _ _ _ _ _ _ hcond hpop hidx hnoop]
          exact ih (hinv.take hq hp hL hcond.1 hpop _)
    · exact ⟨r, c, cache, reserveLoop_stop _ _ _ _ _ _ _ _ _ _ hcond, hinv⟩

end Loop

/-! ### The reservation -/

section Reserve

variable {q : Queue τ} {next : Nat} (hq : Accounted C q next) {p : Part}
  (hp : fetches q.mode p = true) {L : Nat} (hL : L ≤ blockCacheItems)
include hq hp hL

/-- A reservation on an accounted queue within the limit of the cache succeeds; the headers it
asks for have their slots within the limit, the slots past it are as they were, and the queue
stays accounted. -/
theorem Accounted.reserveHeaders (id : String) (lacks : Hash → Bool) (count now : Nat)
    (isNoop : Header → Bool) :
    ∃ request progress c' cache',
      q.reserveHeaders H (q.part p) id lacks count L now isNoop =
        .ok (request, progress, c', cache') ∧
      Accounted C ((q.setPart p c').setCache cache') next ∧
      (∀ req ∈ request, ∀ y ∈ req.Headers,
        q.resultOffset.toNat ≤ y.number ∧ y.number < q.resultOffset.toNat + L) ∧
      ∀ j, L ≤ j → cache'[j]? = q.resultCache[j]? := by
  have hunchanged : Accounted C ((q.setPart p (q.part p)).setCache q.resultCache) next := by
    rw [setPart_part, setCache_self]
    exact hq
  unfold Queue.reserveHeaders
  split_ifs with hempty hpend
  · exact ⟨none, false, _, _, rfl, hunchanged, by simp, fun _ _ => rfl⟩
  · exact ⟨none, false, _, _, rfl, hunchanged, by simp, fun _ _ => rfl⟩
  obtain ⟨r, c, cache, hrun, hinv⟩ := (loopInv_start hq (p := p) (L := L)).run hq hp hL lacks
    isNoop count (q.part p).taskQueue.length
  have hheld := hinv.accounted
  -- a header sent or skipped lies within the limit, past the offset
  have hsent : ∀ y ∈ r.send ++ r.skip,
      q.resultOffset.toNat ≤ y.number ∧ y.number < q.resultOffset.toNat + L := by
    intro y hy
    obtain ⟨-, hlo, -⟩ := hheld.held p y
      (by rw [part_midQueue_self]; exact List.mem_append_left _ (List.mem_append_right _ hy))
    exact ⟨by simpa using hlo, (hinv.taken y hy).1⟩
  -- the task queue gets back the skipped headers; each sent one has its slot
  have hpop : ∀ n, q.resultOffset.toNat ≤ n → n < next →
      (c.taskQueue ++ r.skip).countP (·.number = n) = 0 →
      (c.taskQueue ++ (r.send ++ r.skip)).countP (·.number = n) = 0 ∨
        ∃ res, cache[n - q.resultOffset.toNat]? = some (some res) := by
    intro n _ _ hzero
    by_cases hsend : r.send.countP (·.number = n) = 0
    · refine .inl ?_
      simp only [List.countP_append] at hzero ⊢
      omega
    · obtain ⟨y, hy, hyn⟩ := List.countP_pos_iff.mp (Nat.pos_of_ne_zero hsend)
      simp only [decide_eq_true_eq] at hyn
      obtain ⟨-, res, hres⟩ := hinv.taken y (List.mem_append_left _ hy)
      exact .inr ⟨res, by rw [← hyn]; exact hres⟩
  rw [hrun]
  by_cases hsend : r.send.isEmpty = true
  · refine ⟨none, r.progress, { c with taskQueue := c.taskQueue ++ r.skip }, cache,
      by simp [bind, Except.bind, hsend], ?_, by simp,
      hinv.beyond⟩
    simpa [midQueue, List.isEmpty_iff.mp hsend] using hheld
  · have hnot : id ∉ c.pendPool := by
      rw [hinv.pendPool, ← AList.lookup_isSome]
      exact hpend
    refine ⟨some ⟨id, r.send, now⟩, r.progress,
      { c with
        taskQueue := c.taskQueue ++ r.skip
        pendPool := c.pendPool.insert id ⟨id, r.send, now⟩ },
      cache, by simp [bind, Except.bind, hsend], ?_, ?_, hinv.beyond⟩
    · have hmove := hheld.setPart_perm (p := p)
        (c := { c with
          taskQueue := c.taskQueue ++ r.skip
          pendPool := c.pendPool.insert id ⟨id, r.send, now⟩ })
        (by
          rw [part_midQueue_self]
          simp only [Component.held, AList.entries_insert_of_notMem hnot, List.flatMap_cons,
            List.append_assoc]
          exact List.Perm.append_left _ (List.perm_append_comm_assoc _ _ _))
        (by rw [part_midQueue_self])
        (by simpa using hpop)
      simpa [midQueue] using hmove
    · intro req hreq y hy
      simp only [Option.mem_def, Option.some.injEq] at hreq
      subst hreq
      exact hsent y (List.mem_append_left _ hy)

end Reserve

section ReserveParts

variable {q : Queue τ} {next : Nat} (hq : Accounted C q next) {L : Nat} (hL : L ≤ blockCacheItems)
include hq hL

/-- The same for any fetch: one the mode does not make has an empty task queue, and a reservation
on it leaves the queue as it is. -/
theorem Accounted.reserve (p : Part) (id : String) (lacks : Hash → Bool) (count now : Nat)
    (isNoop : Header → Bool) :
    ∃ request progress c' cache',
      q.reserveHeaders H (q.part p) id lacks count L now isNoop =
        .ok (request, progress, c', cache') ∧
      Accounted C ((q.setPart p c').setCache cache') next ∧
      (∀ req ∈ request, ∀ y ∈ req.Headers,
        q.resultOffset.toNat ≤ y.number ∧ y.number < q.resultOffset.toNat + L) ∧
      ∀ j, L ≤ j → cache'[j]? = q.resultCache[j]? := by
  cases hp : fetches q.mode p with
  | true => exact hq.reserveHeaders hp hL id lacks count now isNoop
  | false =>
    have hempty : (q.part p).taskQueue = [] := by
      have hidle := hq.idle p hp
      simp only [Component.held, List.append_eq_nil_iff] at hidle
      exact hidle.1
    refine ⟨none, false, q.part p, q.resultCache, by simp [Queue.reserveHeaders, hempty], ?_,
      by simp, fun _ _ => rfl⟩
    rw [setPart_part, setCache_self]
    exact hq

/-- `ReserveBodies` within the limit of the cache succeeds, asks only for headers whose slot is
within the limit, changes no slot past it, and leaves the queue accounted. -/
theorem Accounted.reserveBodies (id : String) (lacks : Hash → Bool) (count now : Nat) :
    ∃ request progress q', q.ReserveBodies H id lacks count L now = .ok (request, progress, q') ∧
      Accounted C q' next ∧
      (∀ req ∈ request, ∀ y ∈ req.Headers,
        q.resultOffset.toNat ≤ y.number ∧ y.number < q.resultOffset.toNat + L) ∧
      q'.resultOffset = q.resultOffset ∧ ∀ j, L ≤ j → q'.resultCache[j]? = q.resultCache[j]? := by
  obtain ⟨request, progress, c', cache', hres, hacc, hin, hbeyond⟩ := hq.reserve hL .bodies id lacks
    count now fun header =>
      decide (header.txHash = H.hashing.emptyRootHash ∧ header.uncleHash = H.emptyUncleHash)
  refine ⟨request, progress, (q.setPart .bodies c').setCache cache', ?_, hacc, hin, rfl, hbeyond⟩
  simp only [Queue.ReserveBodies]
  rw [show q.block = q.part .bodies from rfl, hres]
  rfl

/-- `ReserveReceipts`, the same. -/
theorem Accounted.reserveReceipts (id : String) (lacks : Hash → Bool) (count now : Nat) :
    ∃ request progress q', q.ReserveReceipts H id lacks count L now = .ok (request, progress, q') ∧
      Accounted C q' next ∧
      (∀ req ∈ request, ∀ y ∈ req.Headers,
        q.resultOffset.toNat ≤ y.number ∧ y.number < q.resultOffset.toNat + L) ∧
      q'.resultOffset = q.resultOffset ∧ ∀ j, L ≤ j → q'.resultCache[j]? = q.resultCache[j]? := by
  obtain ⟨request, progress, c', cache', hres, hacc, hin, hbeyond⟩ := hq.reserve hL .receipts id
    lacks count now fun header => decide (header.receiptHash = H.hashing.emptyRootHash)
  refine ⟨request, progress, (q.setPart .receipts c').setCache cache', ?_, hacc, hin, rfl, hbeyond⟩
  simp only [Queue.ReserveReceipts]
  rw [show q.receipt = q.part .receipts from rfl, hres]
  rfl

end ReserveParts

end EpvChain.Downloader
