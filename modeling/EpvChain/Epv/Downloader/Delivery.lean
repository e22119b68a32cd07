import EpvChain.Epv.Downloader.Reservation
import EpvChain.Lib.ExceptLoop
import EpvChain.Lib.Finmap

/-!
# What leaves the queue: deliveries and results (`queue.deliver`, `queue.Results`)

`deliver` takes a peer's request out of the pending pool and accepts its headers in order; each
accepted header is done and its slot has one fetch less to make, and the headers it did not
accept go back to the task queue. `Results` hands out the finished slots at the front, forgets
their hashes in the done pools and shifts the slots down.

* `Accounted.of_deliverLoop`: the loop keeps the queue accounted with the headers not yet accepted
  counted back in the task queue (`returnQueue`).
* `Accounted.deliverBodies`, `Accounted.deliverReceipts`: a delivery that does not panic leaves
  the queue accounted.
* `Accounted.results`: so does `Results`; the slots it hands out are those whose block has
  nothing left to fetch, so none of their headers is still held.
-/

namespace EpvChain.Downloader

open EpvChain.Types EpvChain.Lib

variable {τ : Type} {H : Hashes τ} {C : Chain H}

/-! ### Delivery -/

/-- The queue in the middle of a delivery: the pools of the fetch with the headers of the request
not yet accepted back in its task queue, and the slots so far. -/
def returnQueue (q : Queue τ) (p : Part) (c : Component) (rest : List Header)
    (cache : List (Option (FetchResult τ))) : Queue τ :=
  (q.setPart p { c with taskQueue := c.taskQueue ++ rest }).setCache cache

section ReturnQueue

variable (q : Queue τ) (p : Part) (c : Component) (rest : List Header)
  (cache : List (Option (FetchResult τ)))

@[simp] theorem part_returnQueue_self :
    (returnQueue q p c rest cache).part p = { c with taskQueue := c.taskQueue ++ rest } := by
  simp [returnQueue]

@[simp] theorem mode_returnQueue : (returnQueue q p c rest cache).mode = q.mode := by
  simp [returnQueue]

@[simp] theorem resultOffset_returnQueue :
    (returnQueue q p c rest cache).resultOffset = q.resultOffset := by
  simp [returnQueue]

@[simp] theorem resultCache_returnQueue : (returnQueue q p c rest cache).resultCache = cache := by
  simp [returnQueue]

/-- Returning tasks with the cache as it was only puts them back in the part's queue. -/
theorem returnQueue_resultCache :
    returnQueue q p c rest q.resultCache = q.setPart p { c with taskQueue := c.taskQueue ++ rest } := by
  cases p <;> rfl

end ReturnQueue

/-- A `reconstruct` that fills in a result's contents and keeps the block it is for and its count
of fetches left. -/
def Keeps (reconstruct : Header → Nat → FetchResult τ →
    Except RuntimePanic (Except QueueError (FetchResult τ))) : Prop :=
  ∀ header i result result', reconstruct header i result = .ok (.ok result') →
    result'.Hash = result.Hash ∧ result'.Header = result.Header ∧ result'.Pending = result.Pending

section Deliver

variable {q : Queue τ} {next : Nat} {p : Part}

/-- Accepting the first header left: it is done, and its slot, which is in use, counts one fetch
less. -/
theorem Accounted.accept {c : Component} {header : Header} {rest : List Header}
    {cache : List (Option (FetchResult τ))}
    (hm : Accounted C (returnQueue q p c (header :: rest) cache) next)
    (hidx : ¬ (resultIndex header q.resultOffset ≥ cache.length ∨
      resultIndex header q.resultOffset < 0))
    {result result' : FetchResult τ}
    (hslot : cache.getD (resultIndex header q.resultOffset).toNat none = some result)
    (hkeep : result'.Hash = result.Hash ∧ result'.Header = result.Header ∧
      result'.Pending = result.Pending) :
    Accounted C (returnQueue q p
      { c with
        donePool := Function.update c.donePool (H.hashHeader header) true
        taskPool := Function.update c.taskPool (H.hashHeader header) none }
      rest (cache.set (resultIndex header q.resultOffset).toNat
        (some { result' with Pending := result'.Pending - 1 }))) next := by
  have hmem : header ∈ ((returnQueue q p c (header :: rest) cache).part p).held := by
    simp [Component.held]
  obtain ⟨hxc, hlo, hhi⟩ := hm.held p header hmem
  simp only [resultOffset_returnQueue] at hlo
  have hp : fetches q.mode p = true := by
    cases hf : fetches q.mode p
    · have hidle := hm.idle p (by simpa using hf)
      rw [hidle] at hmem
      cases hmem
    · rfl
  have hsmall := hm.small
  have hlen := hm.length
  rw [resultCache_returnQueue] at hlen
  have hindex : (resultIndex header q.resultOffset).toNat = header.number - q.resultOffset.toNat := by
    rw [resultIndex_eq (by unfold blockCacheItems at hsmall; omega)
      (by unfold blockCacheItems at hsmall; omega)]
    omega
  have hroom : header.number - q.resultOffset.toNat < cache.length := by
    rw [resultIndex_eq (by unfold blockCacheItems at hsmall; omega)
      (by unfold blockCacheItems at hsmall; omega)] at hidx
    omega
  rw [hindex] at hslot ⊢
  have hget : cache[header.number - q.resultOffset.toNat]? = some (some result) := by
    rw [List.getD_eq_getElem?_getD, List.getElem?_eq_getElem hroom, Option.getD_some] at hslot
    rw [List.getElem?_eq_getElem hroom, hslot]
  obtain ⟨-, hh, hhd, hpd⟩ := hm.slot _ result (by simpa using hget)
  simp only [resultOffset_returnQueue, Nat.add_sub_cancel' hlo] at hh hhd hpd
  have hmark := hm.markDone (p := p) (n := header.number) (by simpa using hp) (by simpa using hlo)
    hhi (by simp only [resultOffset_returnQueue]; rw [← hlen]; exact hroom)
    (c := { c with
      taskQueue := c.taskQueue ++ rest
      donePool := Function.update c.donePool (H.hashHeader header) true
      taskPool := Function.update c.taskPool (H.hashHeader header) none })
    (by
      rw [part_returnQueue_self, ← hxc]
      simp only [Component.held]
      exact (List.perm_middle.append_right _))
    (by rw [part_returnQueue_self, ← hxc])
    (by
      intro m hzero
      rw [part_returnQueue_self]
      by_cases hmn : m = header.number
      · exact .inl hmn
      · refine .inr ?_
        simp only [List.countP_append, List.countP_cons] at hzero ⊢
        rw [if_neg (by simpa using Ne.symm hmn)]
        omega)
    (by rw [hkeep.1, hh]) (by rw [hkeep.2.1, hhd]) (by rw [hkeep.2.2, hpd])
    (by
      intro j hj
      exact hm.prefix_ j _ result hj (by simpa using hget))
  simpa [returnQueue] using hmark

variable (H) in
/-- `deliver`'s loop keeps the queue accounted with the headers it did not accept counted back in
the task queue. -/
theorem Accounted.of_deliverLoop {results : Nat}
    {reconstruct : Header → Nat → FetchResult τ →
      Except RuntimePanic (Except QueueError (FetchResult τ))} (hrec : Keeps reconstruct) :
    ∀ (headers : List Header) (i accepted : Nat) (c : Component)
      (cache : List (Option (FetchResult τ))) {accepted' failure c' cache'},
      Accounted C (returnQueue q p c headers cache) next →
      deliverLoop H q.resultOffset results reconstruct headers i accepted c cache =
        .ok (accepted', failure, c', cache') →
      accepted ≤ accepted' ∧
        Accounted C (returnQueue q p c' (headers.drop (accepted' - accepted)) cache') next := by
  intro headers
  induction headers with
  | nil =>
    intro i accepted c cache accepted' failure c' cache' hm h
    simp only [deliverLoop, Except.ok.injEq, Prod.mk.injEq] at h
    obtain ⟨rfl, -, rfl, rfl⟩ := h
    simpa using hm
  | cons header rest ih =>
    intro i accepted c cache accepted' failure c' cache' hm h
    -- every way out of the turn but an accepted header leaves the state as it was
    have hstop : accepted' = accepted → c' = c → cache' = cache →
        accepted ≤ accepted' ∧ Accounted C (returnQueue q p c'
          ((header :: rest).drop (accepted' - accepted)) cache') next := by
      rintro rfl rfl rfl
      simpa using hm
    rw [deliverLoop] at h
    dsimp only at h
    split at h
    · simp only [Except.ok.injEq, Prod.mk.injEq] at h
      exact hstop h.1.symm h.2.2.1.symm h.2.2.2.symm
    split at h
    · simp only [Except.ok.injEq, Prod.mk.injEq] at h
      exact hstop h.1.symm h.2.2.1.symm h.2.2.2.symm
    · rename_i hidx
      split at h
      · simp only [Except.ok.injEq, Prod.mk.injEq] at h
        exact hstop h.1.symm h.2.2.1.symm h.2.2.2.symm
      · rename_i result hslot
        split at h
        · cases h
        · simp only [Except.ok.injEq, Prod.mk.injEq] at h
          exact hstop h.1.symm h.2.2.1.symm h.2.2.2.symm
        · rename_i result' hrecon
          obtain ⟨hle, hacc⟩ := ih (i + 1) (accepted + 1) _ _
            (hm.accept hidx hslot (hrec _ _ _ _ hrecon)) h
          refine ⟨by omega, ?_⟩
          have hdrop : (header :: rest).drop (accepted' - accepted) =
              rest.drop (accepted' - (accepted + 1)) := by
            rw [show accepted' - accepted = accepted' - (accepted + 1) + 1 by omega,
              List.drop_succ_cons]
          rw [hdrop]
          exact hacc

variable (H) in
/-- A delivery to an accounted queue that does not panic leaves it accounted. -/
theorem Accounted.deliver (hq : Accounted C q next) {id : String} {results : Nat}
    {reconstruct : Header → Nat → FetchResult τ →
      Except RuntimePanic (Except QueueError (FetchResult τ))} (hrec : Keeps reconstruct)
    {ret : Nat × Option QueueError} {c' : Component} {cache' : List (Option (FetchResult τ))}
    (h : q.deliver H (q.part p) id results reconstruct = .ok (ret, c', cache')) :
    Accounted C ((q.setPart p c').setCache cache') next := by
  unfold Queue.deliver at h
  split at h
  · simp only [Except.ok.injEq, Prod.mk.injEq] at h
    obtain ⟨-, rfl, rfl⟩ := h
    rw [setPart_part, setCache_self]
    exact hq
  · rename_i request hlookup
    obtain ⟨⟨accepted, failure, c, cache⟩, hloop, hret⟩ := Iff.mp Lib.bind_eq_ok h
    simp only [Except.ok.injEq, Prod.mk.injEq] at hret
    obtain ⟨-, rfl, rfl⟩ := hret
    -- the request's headers leave the pending pool for the task queue
    have hstart : Accounted C (returnQueue q p { q.part p with
        pendPool := (q.part p).pendPool.erase id } request.Headers q.resultCache) next := by
      have hmove := hq.setPart_perm (p := p)
        (c := { q.part p with
          taskQueue := (q.part p).taskQueue ++ request.Headers
          pendPool := (q.part p).pendPool.erase id })
        (by
          simp only [Component.held, List.append_assoc]
          refine List.Perm.append_left _ ?_
          have hperm := (entries_perm_erase hlookup).flatMap_right fun e => e.2.Headers
          simpa using hperm)
        rfl
        (by
          intro n _ _ hzero
          left
          simp only [List.countP_append] at hzero
          omega)
      rw [returnQueue_resultCache]
      exact hmove
    have hloop' := (Accounted.of_deliverLoop H hrec request.Headers 0 0 _ _ hstart hloop).2
    simpa [returnQueue] using hloop'

/-- `DeliverBodies` fills in a result's transactions and uncles and nothing else. -/
theorem keeps_deliverBodies (txLists : List (List τ)) (uncleLists : List (List Header)) :
    Keeps (τ := τ) fun header index result => do
      let txs ← goIndex txLists index
      if H.hashing.deriveSha H.hashing.encodeTx txs ≠ header.txHash then
        return .error .errInvalidBody
      let uncles ← goIndex uncleLists index
      if H.calcUncleHash uncles ≠ header.uncleHash then return .error .errInvalidBody
      return .ok { result with Transactions := txs, Uncles := uncles } := by
  intro header i result result' h
  obtain ⟨txs, -, h⟩ := Iff.mp Lib.bind_eq_ok h
  split_ifs at h
  · cases h
  · obtain ⟨uncles, -, h⟩ := Iff.mp Lib.bind_eq_ok h
    split_ifs at h
    · cases h
    · cases h
      exact ⟨rfl, rfl, rfl⟩

/-- `DeliverReceipts` fills in a result's receipts and nothing else. -/
theorem keeps_deliverReceipts (receiptList : List (List Receipt)) :
    Keeps (τ := τ) fun header index result => do
      let receipts ← goIndex receiptList index
      if H.hashing.deriveSha H.hashing.encodeReceipt receipts ≠ header.receiptHash then
        return .error .errInvalidReceipt
      return .ok { result with Receipts := receipts } := by
  intro header i result result' h
  obtain ⟨receipts, -, h⟩ := Iff.mp Lib.bind_eq_ok h
  split_ifs at h
  · cases h
  · cases h
    exact ⟨rfl, rfl, rfl⟩

/-- `DeliverBodies` to an accounted queue that does not panic leaves it accounted. -/
theorem Accounted.deliverBodies (hq : Accounted C q next) {id : String}
    {txLists : List (List τ)} {uncleLists : List (List Header)}
    {ret : Nat × Option QueueError} {q' : Queue τ}
    (h : q.DeliverBodies H id txLists uncleLists = .ok (ret, q')) : Accounted C q' next := by
  unfold Queue.DeliverBodies at h
  obtain ⟨⟨ret', c', cache'⟩, hdel, hret⟩ := Iff.mp Lib.bind_eq_ok h
  cases hret
  exact Accounted.deliver (p := .bodies) H hq (keeps_deliverBodies txLists uncleLists) hdel

/-- `DeliverReceipts` to an accounted queue that does not panic leaves it accounted. -/
theorem Accounted.deliverReceipts (hq : Accounted C q next) {id : String}
    {receiptList : List (List Receipt)} {ret : Nat × Option QueueError} {q' : Queue τ}
    (h : q.DeliverReceipts H id receiptList = .ok (ret, q')) : Accounted C q' next := by
  unfold Queue.DeliverReceipts at h
  obtain ⟨⟨ret', c', cache'⟩, hdel, hret⟩ := Iff.mp Lib.bind_eq_ok h
  cases hret
  exact Accounted.deliver (p := .receipts) H hq (keeps_deliverReceipts receiptList) hdel

end Deliver

/-! ### Results -/

section Shift

variable {β : Type}

/-- The slots after the shift by `k`: those past the first `k`, then `k` empty ones. -/
theorem getElem?_shift_of_lt {l : List (Option β)} {k j : Nat} (h : k + j < l.length) :
    (l.drop k ++ List.replicate k none)[j]? = l[k + j]? := by
  rw [List.getElem?_append_left (by rw [List.length_drop]; omega), List.getElem?_drop]

/-- A result the shifted cache holds stood `k` slots further before the shift. -/
theorem getElem?_shift_some {l : List (Option β)} {k j : Nat} {b : β}
    (h : (l.drop k ++ List.replicate k none)[j]? = some (some b)) : l[k + j]? = some (some b) := by
  by_cases hj : k + j < l.length
  · rwa [getElem?_shift_of_lt hj] at h
  · rw [List.getElem?_append_right (by rw [List.length_drop]; omega), List.getElem?_replicate]
      at h
    split_ifs at h
    cases h

/-- Forgetting hashes in a done pool: what is left of it is what it had and was not forgotten. -/
theorem foldl_forget (g : β → Hash) (pool : Hash → Bool) (h : Hash) :
    ∀ l : List β, (l.foldl (fun pool r => Function.update pool (g r) false) pool) h =
      (pool h && l.all fun r => g r != h)
  | [] => by simp
  | r :: l => by
    rw [List.foldl_cons, foldl_forget g _ h l, List.all_cons]
    by_cases hr : g r = h
    · subst hr
      simp
    · rw [Function.update_of_ne (Ne.symm hr), show (g r != h) = true from bne_iff_ne.mpr hr,
        Bool.true_and]

end Shift

/-- An element of a list within the length of its longest prefix satisfying `P` satisfies it. -/
theorem getElem?_of_lt_takeWhile {α : Type} {P : α → Bool} {l : List α} {j : Nat}
    (hj : j < (l.takeWhile P).length) : ∃ a, l[j]? = some a ∧ P a = true := by
  obtain ⟨t, ht⟩ := List.takeWhile_prefix P (l := l)
  refine ⟨(l.takeWhile P)[j], ?_, List.mem_takeWhile_imp (List.getElem_mem hj)⟩
  calc l[j]? = (l.takeWhile P ++ t)[j]? := by rw [ht]
    _ = some (l.takeWhile P)[j] := by rw [List.getElem?_append_left hj, List.getElem?_eq_getElem hj]

/-- The slots at the front that `countProcessableItems` counts are in use, with nothing left to
fetch. -/
theorem getElem?_of_lt_countProcessableItems {cache : List (Option (FetchResult τ))} {j : Nat}
    (hj : j < countProcessableItems cache) :
    ∃ r, cache[j]? = some (some r) ∧ r.Pending ≤ 0 := by
  obtain ⟨a, ha, hP⟩ := getElem?_of_lt_takeWhile hj
  cases a with
  | none => cases hP
  | some r => exact ⟨r, ha, by simpa using hP⟩

/-- No more results are processable than the cache has slots. -/
theorem countProcessableItems_le (cache : List (Option (FetchResult τ))) :
    countProcessableItems cache ≤ cache.length :=
  (List.takeWhile_prefix _).length_le

/-- A block with no fetch left is done in every fetch the mode makes. -/
theorem Chain.done_of_undone_eq_zero {q : Queue τ} {n : Nat} (h : C.undone q n = 0) {p : Part}
    (hp : fetches q.mode p = true) : C.done (q.part p) n = true := by
  rw [Chain.undone, List.countP_eq_zero] at h
  have hp' := h p (by cases p <;> simp)
  simpa [hp] using hp'

/-- Two queues of one mode whose fetches agree on whether a block is done agree on its count of
fetches left. -/
theorem Chain.undone_congr {q q' : Queue τ} {n : Nat} (hmode : q'.mode = q.mode)
    (h : ∀ p, C.done (q'.part p) n = C.done (q.part p) n) : C.undone q' n = C.undone q n := by
  simp only [Chain.undone, hmode, h]

section Results

variable {q : Queue τ} {next : Nat} (hq : Accounted C q next)
include hq

/-- The slots `Results` hands out are of numbers scheduled, with every fetch done. -/
theorem Accounted.processable {j : Nat} (hj : j < countProcessableItems q.resultCache) :
    ∃ r, q.resultCache[j]? = some (some r) ∧ q.resultOffset.toNat + j < next ∧
      r.Header = C.header (q.resultOffset.toNat + j) ∧ C.undone q (q.resultOffset.toNat + j) = 0 := by
  obtain ⟨r, hr, hpend⟩ := getElem?_of_lt_countProcessableItems hj
  obtain ⟨hlt, -, hhd, hpd⟩ := hq.slot j r hr
  exact ⟨r, hr, hlt, hhd, by omega⟩

/-- A block whose fetches are all done has none of its headers held. -/
theorem Accounted.not_held_of_undone {n : Nat} (hlo : q.resultOffset.toNat ≤ n) (hhi : n < next)
    (hundone : C.undone q n = 0) {p : Part} {x : Header} (hx : x ∈ (q.part p).held) :
    x.number ≠ n := by
  intro hxn
  cases hp : fetches q.mode p with
  | false =>
    rw [hq.idle p hp] at hx
    cases hx
  | true =>
    have hst := hq.status p hp n hlo hhi
    rw [Chain.done_of_undone_eq_zero hundone hp, if_pos rfl] at hst
    have hpos : 0 < (q.part p).held.countP (·.number = n) :=
      List.countP_pos_iff.mpr ⟨x, hx, by simpa using hxn⟩
    omega

/-- Shifting the slots past the first `k`, all in use with nothing left to fetch, keeps the queue
accounted, when the pools keep their headers and the done pools change only below the new
offset, where they may forget. -/
theorem Accounted.shift {q' : Queue τ} {k : Nat} (hkle : k ≤ q.resultCache.length)
    (hk : ∀ j < k, ∃ r, q.resultCache[j]? = some (some r) ∧ q.resultOffset.toNat + j < next ∧
      C.undone q (q.resultOffset.toNat + j) = 0)
    (hmode : q'.mode = q.mode) (hoff : q'.resultOffset.toNat = q.resultOffset.toNat + k)
    (hcache : q'.resultCache = q.resultCache.drop k ++ List.replicate k none)
    (hheld : ∀ p, (q'.part p).held = (q.part p).held)
    (htasks : ∀ p, (q'.part p).taskQueue = (q.part p).taskQueue)
    (hdone : ∀ p n, q.resultOffset.toNat + k ≤ n → n < 2 ^ 62 →
      C.done (q'.part p) n = C.done (q.part p) n)
    (hforget : ∀ p n, C.done (q.part p) n = false → C.done (q'.part p) n = false) :
    Accounted C q' next where
  small := hq.small
  offset_le := by
    rw [hoff]
    rcases Nat.eq_zero_or_pos k with h0 | hpos
    · rw [h0]
      exact hq.offset_le
    · obtain ⟨-, -, hlt, -⟩ := hk (k - 1) (by omega)
      omega
  length := by
    rw [hcache, List.length_append, List.length_drop, List.length_replicate, hq.length]
    rw [hq.length] at hkle
    omega
  held p x hx := by
    rw [hheld] at hx
    rw [hoff]
    obtain ⟨hxc, hlo, hhi⟩ := hq.held p x hx
    refine ⟨hxc, ?_, hhi⟩
    by_contra hlt
    obtain ⟨-, -, hlt', hundone⟩ := hk (x.number - q.resultOffset.toNat) (by omega)
    exact hq.not_held_of_undone (Nat.le_add_right _ _) hlt' hundone hx (by omega)
  idle p hp := by
    rw [hheld]
    exact hq.idle p (by rwa [hmode] at hp)
  status p hp n hlo hhi := by
    rw [hoff] at hlo
    have hsmall := hq.small
    rw [hheld, hdone p n hlo (by omega)]
    exact hq.status p (by rwa [hmode] at hp) n (by omega) hhi
  fresh p n hn hn62 := hforget p n (hq.fresh p n hn hn62)
  slot j r h := by
    rw [hcache] at h
    obtain ⟨hlt, hh, hhd, hpd⟩ := hq.slot (k + j) r (getElem?_shift_some h)
    have hsmall := hq.small
    have hundone : C.undone q' (q.resultOffset.toNat + k + j) =
        C.undone q (q.resultOffset.toNat + k + j) :=
      Chain.undone_congr hmode fun p => hdone p _ (by omega) (by omega)
    rw [hoff, hundone]
    rw [← Nat.add_assoc] at hlt hh hhd hpd
    exact ⟨hlt, hh, hhd, hpd⟩
  prefix_ j k' r hjk h := by
    rw [hcache] at h ⊢
    obtain ⟨r', hr'⟩ := hq.prefix_ (k + j) (k + k') r (by omega) (getElem?_shift_some h)
    have hlt : k + j < q.resultCache.length := (List.getElem?_eq_some_iff.mp hr').1
    exact ⟨r', by rw [getElem?_shift_of_lt hlt]; exact hr'⟩
  popped p hp n hlo hhi hzero := by
    rw [htasks] at hzero
    rw [hoff] at hlo
    obtain ⟨r, hr⟩ := hq.popped p (by rwa [hmode] at hp) n (by omega) hhi hzero
    have hlt : n - q.resultOffset.toNat < q.resultCache.length :=
      (List.getElem?_eq_some_iff.mp hr).1
    rw [hcache, hoff, getElem?_shift_of_lt (by omega)]
    rw [show k + (n - (q.resultOffset.toNat + k)) = n - q.resultOffset.toNat by omega]
    exact ⟨r, hr⟩

/-- `Results` keeps the queue accounted: the slots it hands out have no header left in any pool,
and the hashes it forgets are of blocks below the new offset. -/
theorem Accounted.results : Accounted C (q.Results H).2 next := by
  unfold Queue.Results
  dsimp only
  split_ifs with hnone hempty
  · exact hq
  · exact hq
  set k := min (countProcessableItems q.resultCache) maxResultsProcess with hk
  set results := (q.resultCache.take k).filterMap id with hresults
  have hsmall := hq.small
  have hlen := hq.length
  have hkle : k ≤ q.resultCache.length :=
    (min_le_left _ _).trans (countProcessableItems_le _)
  have hproc : ∀ j < k, ∃ r, q.resultCache[j]? = some (some r) ∧ q.resultOffset.toNat + j < next ∧
      r.Header = C.header (q.resultOffset.toNat + j) ∧ C.undone q (q.resultOffset.toNat + j) = 0 :=
    fun j hj => hq.processable (lt_of_lt_of_le hj (min_le_left _ _))
  have hoff : (q.resultOffset + k.toUInt64).toNat = q.resultOffset.toNat + k := by
    rw [UInt64.toNat_add, Nat.toUInt64_eq, UInt64.toNat_ofNat', Nat.mod_eq_of_lt
      (show k < 2 ^ 64 by unfold blockCacheItems at hlen hsmall; omega), Nat.mod_eq_of_lt
      (by unfold blockCacheItems at hlen hsmall; have := hq.offset_le; omega)]
  have hnext : q.resultOffset.toNat + k ≤ next := by
    rcases Nat.eq_zero_or_pos k with h0 | hpos
    · rw [h0]
      exact hq.offset_le
    · obtain ⟨-, -, hlt, -⟩ := hproc (k - 1) (by omega)
      omega
  -- the hashes forgotten are of the blocks handed out, all below the new offset
  have hforget : ∀ (pool : Hash → Bool) n, q.resultOffset.toNat + k ≤ n → n < 2 ^ 62 →
      (results.foldl (fun pool r => Function.update pool (H.hashHeader r.Header) false) pool)
        (H.hashHeader (C.header n)) = pool (H.hashHeader (C.header n)) := by
    intro pool n hn hn62
    rw [foldl_forget, Bool.and_eq_left_iff_imp]
    intro _
    rw [List.all_eq_true]
    intro r hr
    rw [hresults, List.mem_filterMap] at hr
    obtain ⟨o, ho, hor⟩ := hr
    obtain ⟨j, hj, hjo⟩ := List.getElem_of_mem ho
    rw [List.length_take] at hj
    have hj' : j < k := by omega
    obtain ⟨r', hr', hlt, hhd, -⟩ := hproc j hj'
    rw [List.getElem_take] at hjo
    rw [List.getElem?_eq_getElem (by omega), hjo] at hr'
    simp only [id, Option.some.injEq] at hor hr'
    subst hor
    cases hr'
    rw [hhd, bne_iff_ne, ne_eq]
    intro heq
    have := C.hash_inj _ _ (by unfold blockCacheItems at hsmall; omega) hn62 heq
    omega
  refine hq.shift hkle (fun j hj => ?_) rfl hoff rfl (fun p => by cases p <;> rfl)
    (fun p => by cases p <;> rfl) (fun p n hn hn62 => ?_) (fun p n hn => ?_)
  · obtain ⟨r, hr, hlt, -, hundone⟩ := hproc j hj
    exact ⟨r, hr, hlt, hundone⟩
  · cases p <;> exact hforget _ n hn hn62
  · cases p <;>
    · simp only [Chain.done, Queue.part, foldl_forget] at hn ⊢
      rw [hn, Bool.false_and]

end Results

end EpvChain.Downloader
