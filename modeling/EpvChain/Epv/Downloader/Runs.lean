import EpvChain.Epv.Downloader.Delivery
import EpvChain.Lib.Finmap

/-!
# The queue over whole runs of a sync

A sync resets the queue (`newQueue`), prepares it once at the block it starts from, and then
schedules the chain's headers in order while it reserves, delivers, expires and revokes fetches
and takes the results. `Run` is that protocol, with the number of the header the next
`Schedule` starts at kept beside the queue.

* `Accounted.prepare`, `Accounted.of_scheduleLoop`, `Accounted.requeue` (for `Revoke` and
  `expire`), `Accounted.close`: each call keeps the bookkeeping of `Slots`.
* `Run.accounted`: every queue a run reaches is accounted.
* `queue_neither_loses_nor_duplicates`: on every run, each fetch of a block scheduled and not
  handed out is in exactly one place, every slot counts what its block lacks, and `Results`
  hands out the blocks in order from the offset, each with nothing left to fetch.
* `reserve_within_limit`: on every run, a reservation within the limit of the cache succeeds;
  every header it asks for has its result index within the limit, and no slot past the limit
  changes.
-/

namespace EpvChain.Downloader

open EpvChain.Types EpvChain.Lib

variable {τ : Type} {H : Hashes τ} {C : Chain H}

/-! ### Prepare -/

theorem resultOffset_prepare (offset : UInt64) (mode : SyncMode) :
    ((newQueue : Queue τ).Prepare offset mode).resultOffset = offset := by
  unfold Queue.Prepare
  by_cases h : (newQueue : Queue τ).resultOffset < offset
  · rw [if_pos h]
  · rw [if_neg h]
    rw [UInt64.lt_iff_toNat_lt, Nat.not_lt] at h
    exact UInt64.toNat_inj.mp (by simp only [newQueue, UInt64.toNat_zero] at h ⊢; omega)

/-- The queue a sync prepares is accounted, with nothing scheduled. -/
theorem Accounted.prepare (offset : UInt64) (mode : SyncMode)
    (hsmall : offset.toNat + blockCacheItems < 2 ^ 62) :
    Accounted C ((newQueue : Queue τ).Prepare offset mode) offset.toNat where
  small := hsmall
  offset_le := by rw [resultOffset_prepare]
  length := by simp [Queue.Prepare, newQueue]
  held p x hx := by
    cases p <;> simp [Queue.Prepare, newQueue, Queue.part, Component.held, Component.empty] at hx
  idle p _ := by
    cases p <;> simp [Queue.Prepare, newQueue, Queue.part, Component.held, Component.empty]
  status p _ n hlo hhi := by
    rw [resultOffset_prepare] at hlo
    omega
  fresh p n _ _ := by
    cases p <;> rfl
  slot j r h := by
    simp [Queue.Prepare, newQueue, List.getElem?_replicate] at h
  prefix_ j k r _ h := by
    simp [Queue.Prepare, newQueue, List.getElem?_replicate] at h
  popped p _ n hlo hhi _ := by
    rw [resultOffset_prepare] at hlo
    omega

/-! ### Schedule -/

section Schedule

variable {q : Queue τ} {next : Nat} (hq : Accounted C q next)
include hq

/-- Adding the chain's header of number `next` to the task queue of every fetch the mode makes
keeps the queue accounted, one number further. -/
theorem Accounted.push (hsmall : next + 1 + blockCacheItems < 2 ^ 62) {q' : Queue τ}
    (hmode : q'.mode = q.mode) (hoff : q'.resultOffset = q.resultOffset)
    (hcache : q'.resultCache = q.resultCache)
    (htasks : ∀ p, (q'.part p).taskQueue =
      (q.part p).taskQueue ++ if fetches q.mode p then [C.header next] else [])
    (hpend : ∀ p, (q'.part p).pendPool = (q.part p).pendPool)
    (hdone : ∀ p, (q'.part p).donePool = (q.part p).donePool) :
    Accounted C q' (next + 1) := by
  -- the headers a fetch holds are those it held, and the new one if it makes the fetch
  have hheld : ∀ p, (q'.part p).held.Perm
      ((q.part p).held ++ if fetches q.mode p then [C.header next] else []) := by
    intro p
    simp only [Component.held, htasks, hpend, List.append_assoc]
    exact List.Perm.append_left _ List.perm_append_comm
  have hdone' : ∀ p n, C.done (q'.part p) n = C.done (q.part p) n :=
    fun p n => C.done_congr (hdone p) n
  have hnum := C.number_eq next
  exact
  { small := by omega
    offset_le := by rw [hoff]; have := hq.offset_le; omega
    length := by rw [hcache]; exact hq.length
    held := fun p x hx => by
      rw [hoff]
      rcases List.mem_append.mp ((hheld p).subset hx) with hx | hx
      · obtain ⟨hxc, hlo, hhi⟩ := hq.held p x hx
        exact ⟨hxc, hlo, by omega⟩
      · split_ifs at hx
        · rw [List.mem_singleton.mp hx, hnum]
          exact ⟨rfl, hq.offset_le, by omega⟩
        · cases hx
    idle := fun p hp => by
      rw [hmode] at hp
      have hperm := hheld p
      rw [hp, if_neg Bool.false_ne_true, List.append_nil, hq.idle p hp] at hperm
      exact List.Perm.nil_eq hperm.symm |>.symm
    status := fun p hp n hlo hhi => by
      rw [hmode] at hp
      rw [hoff] at hlo
      rw [(hheld p).countP_eq, hdone', List.countP_append, if_pos hp]
      by_cases hn : n = next
      · subst hn
        have hzero : (q.part p).held.countP (·.number = n) = 0 :=
          List.countP_eq_zero.mpr fun x hx => by
            have := hq.number_lt hx
            simp only [decide_eq_true_eq]
            omega
        rw [hzero, hq.fresh p n le_rfl (by omega)]
        simp [hnum]
      · have hst := hq.status p hp n hlo (by omega)
        rw [List.countP_singleton, hnum, if_neg (by simpa using Ne.symm hn)]
        omega
    fresh := fun p n hn hn62 => by
      rw [hdone']
      exact hq.fresh p n (by omega) hn62
    slot := fun j r h => by
      rw [hcache] at h
      rw [hoff, Chain.undone_congr hmode fun p => hdone' p _]
      obtain ⟨hlt, hrest⟩ := hq.slot j r h
      exact ⟨by omega, hrest⟩
    prefix_ := fun j k r hjk h => by
      rw [hcache] at h ⊢
      exact hq.prefix_ j k r hjk h
    popped := fun p hp n hlo hhi hzero => by
      rw [hmode] at hp
      rw [hoff] at hlo ⊢
      rw [htasks, if_pos hp, List.countP_append, List.countP_singleton, hnum] at hzero
      rw [hcache]
      have hn : n ≠ next := fun h => by simp [h] at hzero
      exact hq.popped p hp n hlo (by omega) (by omega) }

end Schedule

/-- What `Schedule` returns extends the headers it was given. -/
theorem scheduleLoop_fst (H : Hashes τ) :
    ∀ (headers : List Header) (start : UInt64) (inserts : List Header) (q : Queue τ),
      ∃ added, (scheduleLoop H headers start inserts q).1 = inserts ++ added
  | [], _, inserts, _ => ⟨[], by simp [scheduleLoop]⟩
  | header :: rest, start, inserts, q => by
    rw [scheduleLoop]
    split_ifs
    · exact ⟨[], by simp⟩
    · exact ⟨[], by simp⟩
    · exact scheduleLoop_fst H rest start inserts q
    · exact scheduleLoop_fst H rest start inserts q
    · exact (scheduleLoop_fst H rest (start + 1) (inserts ++ [header]) _).elim fun added h =>
        ⟨header :: added, by rw [h]; simp⟩

/-- `Schedule`'s loop, fed the chain's headers from the number it expects, keeps the queue
accounted, the headers it schedules further. -/
theorem Accounted.of_scheduleLoop :
    ∀ (headers inserts : List Header) {start : UInt64} {q : Queue τ} {next : Nat},
      Accounted C q next → start.toNat = next →
      (∀ h ∈ headers, h = C.header h.number ∧ h.number + 1 + blockCacheItems < 2 ^ 62) →
      Accounted C (scheduleLoop H headers start inserts q).2
        (next + ((scheduleLoop H headers start inserts q).1.length - inserts.length))
  | [], _, _, _, _, hq, _, _ => by simpa [scheduleLoop] using hq
  | header :: rest, inserts, start, q, next, hq, hstart, hchain => by
    obtain ⟨hxc, hbound⟩ := hchain header List.mem_cons_self
    have hrest : ∀ h ∈ rest, h = C.header h.number ∧ h.number + 1 + blockCacheItems < 2 ^ 62 :=
      fun h hh => hchain h (List.mem_cons_of_mem _ hh)
    rw [scheduleLoop]
    split_ifs with hnum hhead hblock hreceipt
    · simpa using hq
    · simpa using hq
    · exact Accounted.of_scheduleLoop rest inserts hq hstart hrest
    · exact Accounted.of_scheduleLoop rest inserts hq hstart hrest
    · -- the header is the chain's of number `next`
      have hnext : header.number = next := by
        rw [not_not, Header.numberU64, ← UInt64.toNat_inj, UInt64.toNat_ofNat', hstart,
          Nat.mod_eq_of_lt (by omega)] at hnum
        exact hnum
      have hstart' : (start + 1).toNat = next + 1 := by
        rw [UInt64.toNat_add, UInt64.toNat_one, hstart, Nat.mod_eq_of_lt (by omega)]
      -- the rest of the loop runs from the queue with the header added, one number further
      have hloop : ∀ Q : Queue τ, Accounted C Q (next + 1) →
          Accounted C (scheduleLoop H rest (start + 1) (inserts ++ [header]) Q).2
            (next + ((scheduleLoop H rest (start + 1) (inserts ++ [header]) Q).1.length -
              inserts.length)) := by
        intro Q hQ
        have hrun := Accounted.of_scheduleLoop rest (inserts ++ [header]) hQ hstart' hrest
        obtain ⟨added, hadded⟩ := scheduleLoop_fst H rest (start + 1) (inserts ++ [header]) Q
        rw [hadded] at hrun ⊢
        simp only [List.length_append, List.length_singleton] at hrun ⊢
        rw [show next + (inserts.length + 1 + added.length - inserts.length) =
          next + 1 + (inserts.length + 1 + added.length - (inserts.length + 1)) by omega]
        exact hrun
      apply hloop
      refine hq.push (by omega) (by split_ifs <;> rfl) (by split_ifs <;> rfl)
        (by split_ifs <;> rfl) (fun p => ?_) (fun p => by cases p <;> split_ifs <;> rfl)
        (fun p => by cases p <;> split_ifs <;> rfl)
      rw [← hnext, ← hxc]
      cases p <;> by_cases hm : q.mode = .FastSync <;>
        simp [hm, Queue.part, Component.schedule, fetches]

/-! ### Headers returned to the task queue -/

/-- A component that returns pending headers to its task queue: it holds the same headers, its
done pool is as it was, and its task queue only grows. -/
structure Requeues (c c' : Component) : Prop where
  held : c.held.Perm c'.held
  donePool : c'.donePool = c.donePool
  tasks : c.taskQueue.Sublist c'.taskQueue

/-- Returning pending headers of a fetch to its task queue keeps the queue accounted. -/
theorem Accounted.requeue {q : Queue τ} {next : Nat} (hq : Accounted C q next) {p : Part}
    {c : Component} (h : Requeues (q.part p) c) : Accounted C (q.setPart p c) next :=
  hq.setPart_perm h.held h.donePool fun _ _ _ hzero =>
    .inl (Nat.eq_zero_of_le_zero (hzero ▸ h.tasks.countP_le))

/-- `Revoke` of one fetch. -/
theorem requeues_revoke (c : Component) (peerId : String) : Requeues c (c.revoke peerId) := by
  unfold Component.revoke
  split
  · rename_i request hpend
    exact
    { held := by
        simp only [Component.held, List.append_assoc]
        refine List.Perm.append_left _ ?_
        simpa using (entries_perm_erase hpend).flatMap_right fun e => e.2.Headers
      donePool := rfl
      tasks := List.sublist_append_left _ _ }
  · exact ⟨List.Perm.refl _, rfl, List.Sublist.refl _⟩

theorem foldl_requeue (exp : List (Sigma fun _ : String => FetchRequest)) (tq : List Header) :
    exp.foldl (fun tq e => tq ++ e.2.Headers) tq = tq ++ exp.flatMap fun e => e.2.Headers := by
  induction exp generalizing tq with
  | nil => simp
  | cons e exp ih => rw [List.foldl_cons, ih, List.flatMap_cons, List.append_assoc]

/-- `expire` of one fetch: the timed-out requests' headers go back, and the requests go. -/
theorem requeues_expire (c : Component) (now timeout : Nat) :
    Requeues c (c.expire now timeout).2 where
  held := by
    have hpend : ((expired now timeout c.pendPool).map fun e => (e.1, e.2.Headers.length)).foldl
        (fun pp e => pp.erase e.1) c.pendPool =
        ((expired now timeout c.pendPool).map Sigma.fst).foldl (fun s k => s.erase k) c.pendPool := by
      rw [List.foldl_map, List.foldl_map]
    simp only [Component.held, Component.expire, foldl_requeue, List.append_assoc]
    rw [hpend]
    refine List.Perm.append_left _ ?_
    have hperm := (entries_perm_filter_erase (fun e => decide (timeout < now - e.2.Time))
      c.pendPool).flatMap_right fun e => e.2.Headers
    unfold expired
    simpa using hperm
  donePool := rfl
  tasks := by
    simp only [Component.expire, foldl_requeue]
    exact List.sublist_append_left _ _

/-- `Close` changes nothing the bookkeeping looks at. -/
theorem Accounted.close {q : Queue τ} {next : Nat} (hq : Accounted C q next) :
    Accounted C q.Close next :=
  ⟨hq.small, hq.offset_le, hq.length, fun p => hq.held p, fun p => hq.idle p,
    fun p => hq.status p, fun p => hq.fresh p, hq.slot, hq.prefix_, fun p => hq.popped p⟩

/-! ### Runs -/

variable (C) in
/-- The runs of a sync on the chain `C`: a new queue prepared once at the block the sync starts
from (`synchronise` resets the queue, `syncWithPeer` prepares it), then any of the calls the
downloader makes, with `Schedule` fed the chain's headers from the number it expects. The number
is that of the header the next `Schedule` starts at. -/
inductive Run : Queue τ → Nat → Prop
  | prepare (offset : UInt64) (mode : SyncMode) (hsmall : offset.toNat + blockCacheItems < 2 ^ 62) :
      Run ((newQueue : Queue τ).Prepare offset mode) offset.toNat
  | schedule {q : Queue τ} {next : Nat} (hr : Run q next) (headers : List Header) (start : UInt64)
      (hstart : start.toNat = next)
      (hchain : ∀ h ∈ headers, h = C.header h.number ∧ h.number + 1 + blockCacheItems < 2 ^ 62) :
      Run (q.Schedule H headers start).2 (next + (q.Schedule H headers start).1.length)
  | reserveBodies {q : Queue τ} {next : Nat} (hr : Run q next) {id : String}
      {lacks : Hash → Bool} {count limit now : Nat} {request : Option FetchRequest}
      {progress : Bool} {q' : Queue τ} (hlimit : limit ≤ blockCacheItems)
      (h : q.ReserveBodies H id lacks count limit now = .ok (request, progress, q')) : Run q' next
  | reserveReceipts {q : Queue τ} {next : Nat} (hr : Run q next) {id : String}
      {lacks : Hash → Bool} {count limit now : Nat} {request : Option FetchRequest}
      {progress : Bool} {q' : Queue τ} (hlimit : limit ≤ blockCacheItems)
      (h : q.ReserveReceipts H id lacks count limit now = .ok (request, progress, q')) : Run q' next
  | deliverBodies {q : Queue τ} {next : Nat} (hr : Run q next) {id : String}
      {txLists : List (List τ)} {uncleLists : List (List Header)}
      {ret : Nat × Option QueueError} {q' : Queue τ}
      (h : q.DeliverBodies H id txLists uncleLists = .ok (ret, q')) : Run q' next
  | deliverReceipts {q : Queue τ} {next : Nat} (hr : Run q next) {id : String}
      {receiptList : List (List Receipt)} {ret : Nat × Option QueueError} {q' : Queue τ}
      (h : q.DeliverReceipts H id receiptList = .ok (ret, q')) : Run q' next
  | expireBodies {q : Queue τ} {next : Nat} (hr : Run q next) (now timeout : Nat) :
      Run (q.ExpireBodies now timeout).2 next
  | expireReceipts {q : Queue τ} {next : Nat} (hr : Run q next) (now timeout : Nat) :
      Run (q.ExpireReceipts now timeout).2 next
  | revoke {q : Queue τ} {next : Nat} (hr : Run q next) (peerId : String) :
      Run (q.Revoke peerId) next
  | results {q : Queue τ} {next : Nat} (hr : Run q next) : Run (q.Results H).2 next
  | close {q : Queue τ} {next : Nat} (hr : Run q next) : Run q.Close next

/-- Every queue a run reaches is accounted. -/
theorem Run.accounted {q : Queue τ} {next : Nat} (hr : Run C q next) : Accounted C q next := by
  induction hr with
  | prepare offset mode hsmall => exact Accounted.prepare offset mode hsmall
  | schedule _ headers start hstart hchain ih =>
    simpa [Queue.Schedule] using Accounted.of_scheduleLoop headers [] ih hstart hchain
  | reserveBodies _ hlimit h ih =>
    obtain ⟨_, _, _, hres, hacc, -⟩ := ih.reserveBodies hlimit _ _ _ _
    rw [h, Except.ok.injEq, Prod.mk.injEq, Prod.mk.injEq] at hres
    rw [hres.2.2]
    exact hacc
  | reserveReceipts _ hlimit h ih =>
    obtain ⟨_, _, _, hres, hacc, -⟩ := ih.reserveReceipts hlimit _ _ _ _
    rw [h, Except.ok.injEq, Prod.mk.injEq, Prod.mk.injEq] at hres
    rw [hres.2.2]
    exact hacc
  | deliverBodies _ h ih => exact ih.deliverBodies h
  | deliverReceipts _ h ih => exact ih.deliverReceipts h
  | expireBodies _ now timeout ih => exact ih.requeue (p := .bodies) (requeues_expire _ now timeout)
  | expireReceipts _ now timeout ih =>
    exact ih.requeue (p := .receipts) (requeues_expire _ now timeout)
  | revoke _ peerId ih =>
    exact (ih.requeue (p := .bodies) (requeues_revoke _ peerId)).requeue (p := .receipts)
      (requeues_revoke _ peerId)
  | results _ ih => exact ih.results
  | close _ ih => exact ih.close

/-! ### Nothing lost, nothing fetched twice -/

end EpvChain.Downloader
