import EpvChain.Lib.ExceptLoop

/-!
# The light client's request distributor (`fc/distributor.go`)

`requestDistributor` keeps the requests waiting for a peer in `reqQueue`, ordered by `reqOrder`,
and a goroutine `loop` sends them. Each operation holds `d.lock` throughout, so a run is a
sequence of whole operations (`Step`): `queue` lists a request and makes its channel `sentChn`
(capacity one); `cancel` closes a request's channel and unlists it; a wake-up of `loop` calls
`nextRequest` repeatedly, hands each request a peer can take to that peer (the peer on the
channel, then `close`), and arms a timer when the best request must wait; `stopChn` closes the
channel of every listed request. `nextRequest` drops the front request when no peer can take it.

* `Reachable.inv`: until the loop stops, the list is ordered, each listed request has its own
  open empty channel, no other has one, and at most one wake-up is on its way.
* `Inv.queue_ok`, `Inv.cancel_ok`, `Inv.nextRequest_ok`, `Inv.dispatch_ok`, `Inv.stop_ok`: no
  operation panics from such a state; `cancel_eq_true_iff`: `cancel` answers `true` exactly for
  a listed request.
* `sel_dispatchable`: a request goes only to a registered peer that could take it now.
* `cancel_after_stop_panics`: `stopChn` leaves each request listed with its channel closed; a
  later `cancel` closes it again, and panics.

Channels are numbered in creation order. `none` is a panic (closing a nil or closed channel,
sending on a closed one) or a send that blocks with the lock held.
-/

set_option linter.unusedSectionVars false

namespace EpvChain.Fc

open EpvChain.Lib

variable {R P : Type}

/-- A `chan distPeer` of capacity one: whether it is closed, and the peers it holds. -/
structure Chan (P : Type) where
  closed : Bool
  buf : List P
  deriving DecidableEq

/-- What the peers and the requests' callbacks answer during one call of `nextRequest`. They
read state outside the distributor (a peer's send queue and flow-control buffer, what a peer has
announced), which changes from one call to the next. `waitBefore`'s second result only weighs the
random choice of `sel`, which is left free, and is left out. -/
structure Answers (R P : Type) where
  canQueue : P → Bool
  canSend : R → P → Bool
  getCost : R → P → Nat
  waitBefore : P → Nat → Nat

/-- `requestDistributor`, with the fields of each `distReq` that it writes (`reqOrder`,
`sentChn`, `element`) as functions of the request, the channels made so far, the wake-ups sent on
`loopChn` or on their way from a timer, and whether `loop` has returned. The peer map's keys are
`peers`, and a range over the map visits them in list order: what `nextRequest` returns depends
on that order only through which of two equal waits it keeps, and `loop` reads only the wait. -/
structure Dist (R P : Type) where
  reqQueue : List R
  lastReqOrder : Nat
  peers : List P
  loopNextSent : Bool
  reqOrder : R → Nat
  sentChn : R → Option Nat
  element : R → Bool
  chans : Nat → Chan P
  nextChan : Nat
  wakes : Nat
  stopped : Bool

/-- `nextRequest`'s running values: the peers checked, the items given to `sel` (a peer that can
take a request now, with the request), and the best of the others (`bestPeer`, `bestReq`,
`bestWait`). -/
structure Scan (R P : Type) where
  checked : List P
  sel : List (P × R)
  best : Option (P × R × Nat)

/-- A peer that can take `r` after `wait`: an item of `sel` when it can now, else the best
request if none is yet or it waits less. -/
def Scan.offer (sc : Scan R P) (peer : P) (r : R) (wait : Nat) : Scan R P :=
  if wait = 0 then { sc with sel := sc.sel ++ [(peer, r)] }
  else
    match sc.best with
    | some (_, _, bestWait) =>
      if wait < bestWait then { sc with best := some (peer, r, wait) } else sc
    | none => { sc with best := some (peer, r, wait) }

/-- One turn of the inner `for peer := range d.peers` at request `r`; the flag is `canSend`. A
peer is looked at for the first request it can take, and for no later one. -/
def scanPeer [DecidableEq P] (ans : Answers R P) (r : R) (acc : Scan R P × Bool) (peer : P) :
    Scan R P × Bool :=
  if peer ∉ acc.1.checked ∧ ans.canQueue peer = true ∧ ans.canSend r peer = true then
    ({ acc.1.offer peer r (ans.waitBefore peer (ans.getCost r peer)) with
        checked := peer :: acc.1.checked }, true)
  else acc

/-- The walk of `queue`'s `else` branch: from the front to the first request whose `reqOrder` is
not below `o`, with `r` put before it. Running off the end dereferences a nil element. -/
def insertBefore (ord : R → Nat) (r : R) (o : Nat) : List R → Option (List R)
  | [] => none
  | x :: xs => if ord x < o then (insertBefore ord r o xs).map (x :: ·) else some (r :: x :: xs)

/-- Where `queue` puts `r`: at the back when the list is empty or its back comes before `r`,
else before the first request that does not come before it. -/
def enqueue (ord : R → Nat) (r : R) (l : List R) : Option (List R) :=
  match l.getLast? with
  | none => some (l ++ [r])
  | some back => if ord r > ord back then some (l ++ [r]) else insertBefore ord r (ord r) l

namespace Dist

variable [DecidableEq R] [DecidableEq P]

/-- `newRequestDistributor`: an empty list and no peers (the peer set's `notify` registers each
peer with `registerPeer`), and `loop` started. A `distReq` is made with `reqOrder` zero. -/
def new : Dist R P where
  reqQueue := []
  lastReqOrder := 0
  peers := []
  loopNextSent := false
  reqOrder := fun _ => 0
  sentChn := fun _ => none
  element := fun _ => false
  chans := fun _ => ⟨false, []⟩
  nextChan := 0
  wakes := 0
  stopped := false

/-- Channel `c` set to `x`. -/
def setChan (s : Dist R P) (c : Nat) (x : Chan P) : Dist R P :=
  { s with chans := Function.update s.chans c x }

/-- `close(ch)`: closing a nil or closed channel panics. -/
def closeChan (s : Dist R P) : Option Nat → Option (Dist R P)
  | none => none
  | some c => if (s.chans c).closed then none else some (s.setChan c ⟨true, (s.chans c).buf⟩)

/-- `ch <- p` with `d.lock` held: on a closed channel it panics, and on a nil or full one it
blocks with the lock held. -/
def sendChan (s : Dist R P) : Option Nat → P → Option (Dist R P)
  | none, _ => none
  | some c, p =>
    if (s.chans c).closed ∨ (s.chans c).buf ≠ [] then none
    else some (s.setChan c ⟨false, [p]⟩)

/-- `remove`: `r.sentChn = nil`, and `r` taken out of the list if its `element` is set. -/
def remove (s : Dist R P) (r : R) : Dist R P :=
  { s with
    reqQueue := if s.element r then s.reqQueue.erase r else s.reqQueue
    sentChn := Function.update s.sentChn r none
    element := Function.update s.element r false }

/-- `queue`'s first lines: a request queued for the first time gets the next order number. -/
def assignOrder (s : Dist R P) (r : R) : Dist R P :=
  if s.reqOrder r = 0 then
    { s with
      lastReqOrder := s.lastReqOrder + 1
      reqOrder := Function.update s.reqOrder r (s.lastReqOrder + 1) }
  else s

/-- `if !d.loopNextSent { d.loopNextSent = true; d.loopChn <- struct{}{} }`. -/
def wakeLoop (s : Dist R P) : Dist R P :=
  if s.loopNextSent then s else { s with loopNextSent := true, wakes := s.wakes + 1 }

/-- `r.sentChn = make(chan distPeer, 1)`. -/
def makeChan (s : Dist R P) (r : R) : Dist R P :=
  { s with
    sentChn := Function.update s.sentChn r (some s.nextChan)
    chans := Function.update s.chans s.nextChan ⟨false, []⟩
    nextChan := s.nextChan + 1 }

/-- `queue`: the request takes its place in the list, `loop` is woken unless a wake-up is on its
way, and the request gets a new channel, which is returned. -/
def queue (s : Dist R P) (r : R) : Option (Dist R P × Nat) :=
  let s₁ := s.assignOrder r
  (enqueue s₁.reqOrder r s₁.reqQueue).map fun q =>
    let s₂ := { s₁ with reqQueue := q, element := Function.update s₁.element r true }.wakeLoop
    (s₂.makeChan r, s₂.nextChan)

/-- `cancel`: `false` for a request with no channel; else its channel is closed and it is
removed. -/
def cancel (s : Dist R P) (r : R) : Option (Bool × Dist R P) :=
  match s.sentChn r with
  | none => some (false, s)
  | some c => (s.closeChan (some c)).map fun s' => (true, s'.remove r)

/-- The outer loop of `nextRequest` at `elem`, the first of `elems`; `kept` are the requests it
passed and left in the list, so `elem` is the list's front iff `kept` is empty. The loop goes on
while there are peers or `elem` is the front; a front request that no peer can take has its
channel closed and is removed (`next` was read before, so the walk goes on). -/
def walk (ans : Answers R P) :
    List R → List R → Scan R P → Dist R P → Option (Dist R P × Scan R P)
  | _, [], sc, s => some (s, sc)
  | kept, r :: rest, sc, s =>
    if 0 < s.peers.length ∨ kept = [] then
      let acc := s.peers.foldl (scanPeer ans r) (sc, false)
      if acc.2 = false ∧ kept = [] then
        (s.closeChan (s.sentChn r)).bind fun s' => walk ans [] rest acc.1 (s'.remove r)
      else walk ans (kept ++ [r]) rest acc.1 s
    else some (s, sc)

/-- `nextRequest` up to `sel.choose()`: the walk over the whole list. -/
def nextRequest (ans : Answers R P) (s : Dist R P) : Option (Dist R P × Scan R P) :=
  walk ans [] s.reqQueue ⟨[], [], none⟩ s

/-- `chn := req.sentChn; d.remove(req); ...; chn <- peer; close(chn)`. What `req.request(peer)`
and `peer.queueSend` do happens at the peer, and shows in the answers of later calls. -/
def dispatch (s : Dist R P) (p : P) (r : R) : Option (Dist R P) :=
  ((s.remove r).sendChan (s.sentChn r) p).bind fun s' => s'.closeChan (s.sentChn r)

/-- `loop`'s `else` branch when a request has to wait: `d.loopNextSent = true`, and a timer
goroutine that sends a wake-up after at most `distMaxWait`. -/
def armTimer (s : Dist R P) : Dist R P := { s with loopNextSent := true, wakes := s.wakes + 1 }

/-- `case <-d.loopChn`: a wake-up taken, and `d.loopNextSent = false`. -/
def takeWake (s : Dist R P) : Dist R P := { s with loopNextSent := false, wakes := s.wakes - 1 }

/-- `case <-d.stopChn`: every queued request's channel closed, front to back; `loop` returns. -/
def stop (s : Dist R P) : Option (Dist R P) :=
  (s.reqQueue.foldlM (fun (t : Dist R P) r => t.closeChan (t.sentChn r)) s).map
    fun t => { t with stopped := true }

/-- `registerPeer`: `d.peers[p] = struct{}{}`. -/
def registerPeer (s : Dist R P) (p : P) : Dist R P := { s with peers := s.peers.insert p }

/-- `unregisterPeer`: `delete(d.peers, p)`. -/
def unregisterPeer (s : Dist R P) (p : P) : Dist R P := { s with peers := s.peers.erase p }

end Dist

variable [DecidableEq R] [DecidableEq P]

/-- One wake-up of `loop` from `case <-d.loopChn` on, with the lock held: `nextRequest` again and
again. When `sel` has items, `sel.choose()` picks one at random (any of them here), whose request
is dispatched to its peer, and the walk goes on; else, when a request has to wait, a timer is
armed, and when none is left, the wake-up ends. -/
inductive Drain : Dist R P → Dist R P → Prop
  | send {s s₁ s₂ s₃ : Dist R P} {sc : Scan R P} {p : P} {r : R} (ans : Answers R P) :
      s.nextRequest ans = some (s₁, sc) → (p, r) ∈ sc.sel →
      s₁.dispatch p r = some s₂ →
      Drain s₂ s₃ → Drain s s₃
  | wait {s s₁ : Dist R P} {sc : Scan R P} {p : P} {r : R} {w : Nat} (ans : Answers R P) :
      s.nextRequest ans = some (s₁, sc) → sc.sel = [] → sc.best = some (p, r, w) →
      Drain s s₁.armTimer
  | idle {s s₁ : Dist R P} {sc : Scan R P} (ans : Answers R P) :
      s.nextRequest ans = some (s₁, sc) → sc.sel = [] → sc.best = none → Drain s s₁

/-- The distributor's operations, each whole under `d.lock`. `tryRequest` queues a request only
when it is not in the list (it waits on the channel until the request is settled); a wake-up
needs one on `loopChn`; `loop` takes no case once it has returned. -/
inductive Step : Dist R P → Dist R P → Prop
  | queue {s s' : Dist R P} {c : Nat} (r : R) :
      r ∉ s.reqQueue → s.queue r = some (s', c) → Step s s'
  | cancel {s s' : Dist R P} {b : Bool} (r : R) : s.cancel r = some (b, s') → Step s s'
  | registerPeer (s : Dist R P) (p : P) : Step s (s.registerPeer p)
  | unregisterPeer (s : Dist R P) (p : P) : Step s (s.unregisterPeer p)
  | wake {s s' : Dist R P} : s.stopped = false → 0 < s.wakes → Drain s.takeWake s' → Step s s'
  | stop {s s' : Dist R P} : s.stopped = false → s.stop = some s' → Step s s'

/-- The states a run of the distributor reaches. -/
def Reachable (s : Dist R P) : Prop := Relation.ReflTransGen Step Dist.new s

section
-- The equation lemmas of the operations are made once here, before the proofs below unfold them.
attribute [local simp] Dist.remove Dist.closeChan Dist.sendChan Dist.cancel Dist.walk
  Dist.dispatch Dist.assignOrder Dist.wakeLoop Dist.makeChan Dist.queue Scan.offer scanPeer
  insertBefore enqueue
end

/-! ### Channels and `remove` -/

namespace Dist

variable {s : Dist R P} {r : R} {c : Nat}

@[simp] theorem setChan_chans (s : Dist R P) (c : Nat) (x : Chan P) :
    (s.setChan c x).chans = Function.update s.chans c x := rfl

@[simp] theorem setChan_setChan (s : Dist R P) (c : Nat) (x y : Chan P) :
    (s.setChan c x).setChan c y = s.setChan c y := by
  simp [setChan]

theorem remove_setChan (s : Dist R P) (c : Nat) (x : Chan P) (r : R) :
    (s.setChan c x).remove r = (s.remove r).setChan c x := rfl

theorem closeChan_some {b : List P} (hc : s.chans c = ⟨false, b⟩) :
    s.closeChan (some c) = some (s.setChan c ⟨true, b⟩) := by
  simp [closeChan, hc]

theorem closeChan_closed {b : List P} (hc : s.chans c = ⟨true, b⟩) :
    s.closeChan (some c) = none := by
  simp [closeChan, hc]

theorem sendChan_some (hc : s.chans c = ⟨false, []⟩) (p : P) :
    s.sendChan (some c) p = some (s.setChan c ⟨false, [p]⟩) := by
  simp [sendChan, hc]

@[simp] theorem chans_remove (s : Dist R P) (r : R) : (s.remove r).chans = s.chans := rfl

@[simp] theorem sentChn_remove (s : Dist R P) (r r' : R) :
    (s.remove r).sentChn r' = if r' = r then none else s.sentChn r' := by
  simp [remove, Function.update_apply]

end Dist

/-! ### The invariant until `loop` returns -/

/-- What holds of the distributor until `loop` returns: the list is ordered by `reqOrder`, the
order numbers given out are distinct, each request in the list (and only those) has its
`element` and a channel, open and empty, of its own, and a wake-up is on its way exactly when
`loopNextSent` is set. -/
structure Inv (s : Dist R P) : Prop where
  sorted : s.reqQueue.Pairwise fun a b => s.reqOrder a < s.reqOrder b
  order_pos : ∀ r ∈ s.reqQueue, 0 < s.reqOrder r
  order_le : ∀ r, s.reqOrder r ≤ s.lastReqOrder
  order_inj : ∀ r r', 0 < s.reqOrder r → s.reqOrder r = s.reqOrder r' → r = r'
  element : ∀ r, s.element r = true ↔ r ∈ s.reqQueue
  queued : ∀ r, r ∈ s.reqQueue ↔ (s.sentChn r).isSome
  chan : ∀ r c, s.sentChn r = some c → c < s.nextChan ∧ s.chans c = ⟨false, []⟩
  chan_inj : ∀ r r' c, s.sentChn r = some c → s.sentChn r' = some c → r = r'
  wakes : s.wakes = if s.loopNextSent then 1 else 0

theorem inv_new : Inv (Dist.new : Dist R P) where
  sorted := List.Pairwise.nil
  order_pos := by simp [Dist.new]
  order_le := by simp [Dist.new]
  order_inj := by simp [Dist.new]
  element := by simp [Dist.new]
  queued := by simp [Dist.new]
  chan := by simp [Dist.new]
  chan_inj := by simp [Dist.new]
  wakes := rfl

namespace Inv

variable {s : Dist R P} {r : R} {c : Nat}

theorem nodup (h : Inv s) : s.reqQueue.Nodup :=
  h.sorted.imp fun hlt heq => by subst heq; exact lt_irrefl _ hlt

theorem sentChn_of_mem (h : Inv s) (hr : r ∈ s.reqQueue) : ∃ c, s.sentChn r = some c :=
  Option.isSome_iff_exists.mp ((h.queued r).mp hr)

/-- Setting a channel that no request holds keeps the invariant. -/
theorem setChan (h : Inv s) (hc : ∀ r, s.sentChn r ≠ some c) (x : Chan P) :
    Inv (s.setChan c x) where
  sorted := h.sorted
  order_pos := h.order_pos
  order_le := h.order_le
  order_inj := h.order_inj
  element := h.element
  queued := h.queued
  chan r c' hr := by
    have hne : c' ≠ c := by rintro rfl; exact hc r hr
    simpa [Dist.setChan, Function.update_of_ne hne] using h.chan r c' hr
  chan_inj := h.chan_inj
  wakes := h.wakes

theorem reqQueue_remove (h : Inv s) (r : R) : (s.remove r).reqQueue = s.reqQueue.erase r := by
  by_cases hr : r ∈ s.reqQueue
  · simp [Dist.remove, (h.element r).mpr hr]
  · have he : s.element r = false := Bool.eq_false_iff.mpr fun he => hr ((h.element r).mp he)
    simp [Dist.remove, he, List.erase_of_not_mem hr]

theorem remove (h : Inv s) (r : R) : Inv (s.remove r) where
  sorted := by
    rw [h.reqQueue_remove]
    exact h.sorted.sublist (List.erase_sublist)
  order_pos r' hr' := by
    rw [h.reqQueue_remove] at hr'
    exact h.order_pos r' (List.mem_of_mem_erase hr')
  order_le := h.order_le
  order_inj := h.order_inj
  element r' := by
    rw [h.reqQueue_remove, h.nodup.mem_erase_iff]
    by_cases hr' : r' = r
    · subst hr'; simp [Dist.remove]
    · simpa [Dist.remove, Function.update_of_ne hr', hr'] using h.element r'
  queued r' := by
    rw [h.reqQueue_remove, h.nodup.mem_erase_iff]
    by_cases hr' : r' = r
    · simp [hr']
    · simpa [hr'] using h.queued r'
  chan r' c hr' := by
    by_cases hrr : r' = r
    · simp [hrr] at hr'
    · simp only [Dist.sentChn_remove, hrr, if_false] at hr'
      exact h.chan r' c hr'
  chan_inj r₁ r₂ c h₁ h₂ := by
    by_cases hr₁ : r₁ = r
    · simp [hr₁] at h₁
    by_cases hr₂ : r₂ = r
    · simp [hr₂] at h₂
    simp only [Dist.sentChn_remove, hr₁, hr₂, if_false] at h₁ h₂
    exact h.chan_inj r₁ r₂ c h₁ h₂
  wakes := h.wakes

/-- Once `r` is removed, no request holds the channel it had. -/
theorem not_sentChn_remove (h : Inv s) (hr : s.sentChn r = some c) (r' : R) :
    (s.remove r).sentChn r' ≠ some c := by
  by_cases hrr : r' = r
  · simp [hrr]
  · simp only [Dist.sentChn_remove, hrr, if_false]
    exact fun h' => hrr (h.chan_inj r' r c h' hr)

/-- Closing the channel of `r` and removing it: `cancel`'s body, and `nextRequest`'s for a front
request no peer can take. -/
theorem settle (h : Inv s) (hr : s.sentChn r = some c) :
    s.closeChan (some c) = some (s.setChan c ⟨true, []⟩) ∧
      Inv ((s.remove r).setChan c ⟨true, []⟩) :=
  ⟨Dist.closeChan_some (h.chan r c hr).2, (h.remove r).setChan (h.not_sentChn_remove hr) _⟩

/-! ### `cancel` -/

theorem cancel_of_sentChn (h : Inv s) (hr : s.sentChn r = some c) :
    s.cancel r = some (true, (s.remove r).setChan c ⟨true, []⟩) := by
  obtain ⟨hclose, -⟩ := h.settle hr
  simp only [Dist.cancel, hr, hclose, Option.map_some, Dist.remove_setChan]

theorem cancel_ok (h : Inv s) (r : R) : ∃ b s', s.cancel r = some (b, s') ∧ Inv s' := by
  rcases hr : s.sentChn r with _ | c
  · exact ⟨false, s, by simp [Dist.cancel, hr], h⟩
  · obtain ⟨-, hinv⟩ := h.settle hr
    exact ⟨true, _, h.cancel_of_sentChn hr, hinv⟩

/-- `cancel` answers `true` exactly for a request in the list: one not yet settled. -/
theorem cancel_eq_true_iff (h : Inv s) (r : R) :
    (∃ s', s.cancel r = some (true, s')) ↔ r ∈ s.reqQueue := by
  rw [h.queued r]
  rcases hr : s.sentChn r with _ | c
  · simp [Dist.cancel, hr]
  · simp [h.cancel_of_sentChn hr]

end Inv

/-! ### `queue` -/

/-- `insertBefore` puts `r` into a list ordered by `ord`, and keeps it ordered, when no request
of the list has `r`'s order and one does not come before it. The walk stops at that one. -/
theorem insertBefore_sorted (ord : R → Nat) (r : R) :
    ∀ l : List R, l.Pairwise (fun a b => ord a < ord b) → (∀ x ∈ l, ord x ≠ ord r) →
      (∃ x ∈ l, ord r ≤ ord x) →
      ∃ q, insertBefore ord r (ord r) l = some q ∧ q.Perm (r :: l) ∧
        q.Pairwise (fun a b => ord a < ord b)
  | [], _, _, hex => by simp at hex
  | x :: xs, hs, hne, hex => by
    rw [List.pairwise_cons] at hs
    by_cases hx : ord x < ord r
    · -- `x` stays in front, and `r` goes among the rest
      have hex' : ∃ y ∈ xs, ord r ≤ ord y := by
        obtain ⟨y, hy, hle⟩ := hex
        rcases List.mem_cons.mp hy with rfl | hy
        · omega
        · exact ⟨y, hy, hle⟩
      obtain ⟨q, hq, hperm, hsorted⟩ :=
        insertBefore_sorted ord r xs hs.2 (fun y hy => hne y (List.mem_cons_of_mem x hy)) hex'
      refine ⟨x :: q, by simp [insertBefore, hx, hq],
        (hperm.cons x).trans (List.Perm.swap r x xs), ?_⟩
      refine List.pairwise_cons.mpr ⟨fun y hy => ?_, hsorted⟩
      rcases List.mem_cons.mp (hperm.subset hy) with rfl | hy
      · exact hx
      · exact hs.1 y hy
    · -- `r` goes before `x`, which comes after it
      have hlt : ord r < ord x := by
        have := hne x List.mem_cons_self
        omega
      refine ⟨r :: x :: xs, by simp [insertBefore, hx], List.Perm.refl _, ?_⟩
      refine List.pairwise_cons.mpr ⟨fun y hy => ?_, List.pairwise_cons.mpr hs⟩
      rcases List.mem_cons.mp hy with rfl | hy
      · exact hlt
      · exact hlt.trans (hs.1 y hy)

/-- `queue`'s placing of `r` keeps the list ordered when no request of it has `r`'s order. -/
theorem enqueue_sorted (ord : R → Nat) (r : R) (l : List R)
    (hs : l.Pairwise (fun a b => ord a < ord b)) (hne : ∀ x ∈ l, ord x ≠ ord r) :
    ∃ q, enqueue ord r l = some q ∧ q.Perm (r :: l) ∧
      q.Pairwise (fun a b => ord a < ord b) := by
  rcases hlast : l.getLast? with _ | back
  · -- the empty list
    obtain rfl := List.getLast?_eq_none_iff.mp hlast
    exact ⟨[r], rfl, List.Perm.refl _, List.pairwise_singleton _ _⟩
  · obtain ⟨init, rfl⟩ := List.getLast?_eq_some_iff.mp hlast
    have hback := List.pairwise_append.mp hs
    by_cases hgt : ord r > ord back
    · -- `r` comes after the back, and so after every request
      refine ⟨init ++ [back] ++ [r], by simp [enqueue, hgt], List.perm_append_singleton _ _, ?_⟩
      refine List.pairwise_append.mpr ⟨hs, List.pairwise_singleton _ _, fun x hx y hy => ?_⟩
      rw [List.mem_singleton] at hy
      subst hy
      rcases List.mem_append.mp hx with hx | hx
      · exact (hback.2.2 x hx back List.mem_cons_self).trans hgt
      · rw [List.mem_singleton] at hx
        subst hx
        exact hgt
    · simp only [enqueue, hlast, hgt, if_false]
      exact insertBefore_sorted ord r _ hs hne ⟨back, by simp, by omega⟩

namespace Dist

/-- `assignOrder` changes the order numbers only. -/
theorem assignOrder_eq (s : Dist R P) (r : R) :
    s.assignOrder r =
      { s with
        reqOrder := (s.assignOrder r).reqOrder
        lastReqOrder := (s.assignOrder r).lastReqOrder } := by
  unfold assignOrder
  split <;> rfl

theorem wakeLoop_eq (s : Dist R P) :
    s.wakeLoop =
      { s with
        loopNextSent := true
        wakes := if s.loopNextSent then s.wakes else s.wakes + 1 } := by
  cases s with
  | mk q lo ps lns =>
    cases lns <;> rfl

/-- What `queue` does, field by field. -/
theorem queue_eq (s : Dist R P) (r : R) :
    s.queue r = (enqueue (s.assignOrder r).reqOrder r s.reqQueue).map fun q =>
      ({ s with
          reqQueue := q
          reqOrder := (s.assignOrder r).reqOrder
          lastReqOrder := (s.assignOrder r).lastReqOrder
          element := Function.update s.element r true
          loopNextSent := true
          wakes := if s.loopNextSent then s.wakes else s.wakes + 1
          sentChn := Function.update s.sentChn r (some s.nextChan)
          chans := Function.update s.chans s.nextChan ⟨false, []⟩
          nextChan := s.nextChan + 1 }, s.nextChan) := by
  unfold queue
  rw [assignOrder_eq s r]
  simp only [wakeLoop_eq, makeChan]

end Dist

namespace Inv

variable {s : Dist R P} {r : R}

/-- The order numbers after `assignOrder` for a request not in the list: its own is positive,
those of the list are as they were, and they stay distinct and within `lastReqOrder`. -/
theorem assignOrder (h : Inv s) (hr : r ∉ s.reqQueue) :
    0 < (s.assignOrder r).reqOrder r ∧
      (∀ x ∈ s.reqQueue, (s.assignOrder r).reqOrder x = s.reqOrder x) ∧
      (∀ x, (s.assignOrder r).reqOrder x ≤ (s.assignOrder r).lastReqOrder) ∧
      (∀ x x', 0 < (s.assignOrder r).reqOrder x →
        (s.assignOrder r).reqOrder x = (s.assignOrder r).reqOrder x' → x = x') := by
  unfold Dist.assignOrder
  split_ifs with h0
  · -- a first queueing: the next number, above every number given out
    have hle := h.order_le
    refine ⟨by simp, fun x hx => ?_, fun x => ?_, fun x x' hpos hxx => ?_⟩
    · simp [Function.update_of_ne (ne_of_mem_of_not_mem hx hr)]
    · by_cases hx : x = r
      · simp [hx]
      · simpa [Function.update_of_ne hx] using Nat.le_succ_of_le (hle x)
    · by_cases hx : x = r <;> by_cases hx' : x' = r
      · rw [hx, hx']
      · have := hle x'
        simp [hx, Function.update_of_ne hx'] at hxx
        omega
      · have := hle x
        simp [hx', Function.update_of_ne hx] at hxx
        omega
      · simp only [Function.update_of_ne hx, Function.update_of_ne hx'] at hpos hxx
        exact h.order_inj x x' hpos hxx
  · exact ⟨Nat.pos_of_ne_zero h0, fun _ _ => rfl, h.order_le, h.order_inj⟩

/-- `queue` of a request not in the list does not panic and keeps the invariant; the request is
then in the list, with the channel returned. -/
theorem queue_ok (h : Inv s) (hr : r ∉ s.reqQueue) :
    ∃ s' c, s.queue r = some (s', c) ∧ Inv s' ∧ s'.sentChn r = some c ∧
      r ∈ s'.reqQueue ∧
      s'.stopped = s.stopped := by
  obtain ⟨hpos, hsame, hle, hinj⟩ := h.assignOrder hr
  set o := (s.assignOrder r).reqOrder
  -- the list is ordered by the new numbers too, and none of them is `r`'s
  have hsorted : s.reqQueue.Pairwise (fun a b => o a < o b) :=
    h.sorted.imp_of_mem fun ha hb hab => by rwa [hsame _ ha, hsame _ hb]
  have hne : ∀ x ∈ s.reqQueue, o x ≠ o r := fun x hx hxr =>
    ne_of_mem_of_not_mem hx hr (hinj r x hpos hxr.symm).symm
  obtain ⟨q, hq, hperm, hqsorted⟩ := enqueue_sorted o r s.reqQueue hsorted hne
  have hmem : ∀ x, x ∈ q ↔ x = r ∨ x ∈ s.reqQueue := fun x => by simp [hperm.mem_iff]
  -- the new channel is one no request holds
  have hfresh : ∀ y, s.sentChn y ≠ some s.nextChan := fun y hy =>
    lt_irrefl _ (h.chan y _ hy).1
  have hqueue := Dist.queue_eq s r
  rw [hq, Option.map_some] at hqueue
  refine ⟨_, _, hqueue, ⟨hqsorted, ?_, hle, hinj, ?_, ?_, ?_, ?_, ?_⟩, by simp,
    by simp [hmem], rfl⟩
  · intro x hx
    rcases (hmem x).mp hx with rfl | hx
    · exact hpos
    · have hx₀ := h.order_pos x hx
      rw [← hsame x hx] at hx₀
      exact hx₀
  · intro x
    by_cases hx : x = r
    · subst hx
      simp [hmem]
    · simp [hmem, hx, h.element x]
  · intro x
    by_cases hx : x = r
    · subst hx
      simp [hmem]
    · simp [hmem, hx, h.queued x]
  · intro x c hc
    dsimp only at hc ⊢
    by_cases hx : x = r
    · subst hx
      simp only [Function.update_self, Option.some.injEq] at hc
      subst hc
      simp
    · rw [Function.update_of_ne hx] at hc
      obtain ⟨hlt, hopen⟩ := h.chan x c hc
      exact ⟨by omega, by rw [Function.update_of_ne (by omega)]; exact hopen⟩
  · intro x x' c hx hx'
    dsimp only at hx hx'
    by_cases hxr : x = r <;> by_cases hx'r : x' = r
    · rw [hxr, hx'r]
    · subst hxr
      simp only [Function.update_self, Option.some.injEq] at hx
      subst hx
      rw [Function.update_of_ne hx'r] at hx'
      exact absurd hx' (hfresh x')
    · subst hx'r
      simp only [Function.update_self, Option.some.injEq] at hx'
      subst hx'
      rw [Function.update_of_ne hxr] at hx
      exact absurd hx (hfresh x)
    · rw [Function.update_of_ne hxr] at hx
      rw [Function.update_of_ne hx'r] at hx'
      exact h.chan_inj x x' c hx hx'
  · dsimp only
    cases hl : s.loopNextSent <;> simp [hl, h.wakes]

/-- The invariant reads neither the peers nor `stopped`, and of `loopNextSent` and `wakes` only
how they go together. -/
theorem congr (h : Inv s) {t : Dist R P} (hq : t.reqQueue = s.reqQueue)
    (ho : t.reqOrder = s.reqOrder) (hlast : t.lastReqOrder = s.lastReqOrder)
    (he : t.element = s.element) (hc : t.sentChn = s.sentChn) (hch : t.chans = s.chans)
    (hn : t.nextChan = s.nextChan) (hw : t.wakes = if t.loopNextSent then 1 else 0) : Inv t := by
  cases t
  dsimp only at hq ho hlast he hc hch hn hw
  subst hq ho hlast he hc hch hn
  exact ⟨h.sorted, h.order_pos, h.order_le, h.order_inj, h.element, h.queued, h.chan, h.chan_inj,
    hw⟩

theorem armTimer (h : Inv s) (hl : s.loopNextSent = false) : Inv s.armTimer :=
  h.congr rfl rfl rfl rfl rfl rfl rfl (by simp [Dist.armTimer, h.wakes, hl])

/-- A wake-up taken from `loopChn` is the one on its way: none is left, and `loopNextSent` is
cleared. -/
theorem takeWake (h : Inv s) (hw : 0 < s.wakes) :
    Inv s.takeWake ∧ s.takeWake.loopNextSent = false := by
  have hl : s.loopNextSent = true := by
    cases hl : s.loopNextSent
    · simp [h.wakes, hl] at hw
    · rfl
  exact ⟨h.congr rfl rfl rfl rfl rfl rfl rfl (by simp [Dist.takeWake, h.wakes, hl]), rfl⟩

end Inv

/-! ### `nextRequest` and the dispatch of a request -/

/-- A peer that can take request `x.2` now, by the answers of one call: it can queue, the
request's `canSend` accepts it, and it need not wait for the request's cost. -/
def Takes (ans : Answers R P) (x : P × R) : Prop :=
  ans.canQueue x.1 = true ∧ ans.canSend x.2 x.1 = true ∧
    ans.waitBefore x.1 (ans.getCost x.2 x.1) = 0

theorem offer_sel (sc : Scan R P) (p : P) (r : R) (w : Nat) :
    (sc.offer p r w).sel = if w = 0 then sc.sel ++ [(p, r)] else sc.sel := by
  unfold Scan.offer
  split_ifs with hw
  · rfl
  · rcases sc.best with _ | ⟨_, _, bestWait⟩
    · rfl
    · dsimp only
      split_ifs <;> rfl

/-- One turn of the inner loop gives `sel` at most the item of its own peer and `r`, when that
peer can take `r` now; a turn that leaves `canSend` unset changes nothing. -/
theorem scanPeer_sel (ans : Answers R P) (r : R) (acc : Scan R P × Bool) (peer : P) :
    (∀ x ∈ (scanPeer ans r acc peer).1.sel,
      x ∈ acc.1.sel ∨ (x = (peer, r) ∧ Takes ans x)) ∧
      ((scanPeer ans r acc peer).2 = false → scanPeer ans r acc peer = acc) := by
  unfold scanPeer
  split_ifs with hc
  · refine ⟨fun x hx => ?_, by simp⟩
    simp only [offer_sel] at hx
    split_ifs at hx with hw
    · rcases List.mem_append.mp hx with hx | hx
      · exact .inl hx
      · rw [List.mem_singleton] at hx
        subst hx
        exact .inr ⟨rfl, hc.2.1, hc.2.2, hw⟩
    · exact .inl hx
  · exact ⟨fun x hx => .inl hx, fun _ => rfl⟩

/-- The inner loop at `r` gives `sel` only items of `r` with a peer of the range that can take it
now; when `canSend` ends unset, it was unset before and `sel` is as it was. -/
theorem foldl_scanPeer (ans : Answers R P) (r : R) :
    ∀ (ps : List P) (acc : Scan R P × Bool),
      (∀ x ∈ (ps.foldl (scanPeer ans r) acc).1.sel,
        x ∈ acc.1.sel ∨ (x.2 = r ∧ x.1 ∈ ps ∧ Takes ans x)) ∧
      ((ps.foldl (scanPeer ans r) acc).2 = false →
        acc.2 = false ∧ (ps.foldl (scanPeer ans r) acc).1.sel = acc.1.sel)
  | [], acc => ⟨fun x hx => .inl hx, fun h => ⟨h, rfl⟩⟩
  | peer :: ps, acc => by
    obtain ⟨hsel, hflag⟩ := scanPeer_sel ans r acc peer
    obtain ⟨ih₁, ih₂⟩ := foldl_scanPeer ans r ps (scanPeer ans r acc peer)
    rw [List.foldl_cons]
    refine ⟨fun x hx => ?_, fun hf => ?_⟩
    · rcases ih₁ x hx with hx | ⟨hr, hp, ht⟩
      · rcases hsel x hx with hx | ⟨rfl, ht⟩
        · exact .inl hx
        · exact .inr ⟨rfl, List.mem_cons_self, ht⟩
      · exact .inr ⟨hr, List.mem_cons_of_mem _ hp, ht⟩
    · obtain ⟨hf', hs⟩ := ih₂ hf
      have heq := hflag hf'
      refine ⟨heq ▸ hf', ?_⟩
      rw [hs, heq]

namespace Inv

variable {s : Dist R P} {r : R} {c : Nat}

/-- The walk of `nextRequest` does not panic from a state with the invariant, and keeps it: a
front request it removes has its own channel, open. The items it gives `sel` are of requests it
kept, each with a registered peer that can take it now. -/
theorem walk (ans : Answers R P) :
    ∀ (elems kept : List R) (sc : Scan R P) (s : Dist R P), Inv s →
      s.reqQueue = kept ++ elems →
      (∀ x ∈ sc.sel, x.1 ∈ s.peers ∧ Takes ans x ∧ x.2 ∈ kept) →
      ∃ s' sc', s.walk ans kept elems sc = some (s', sc') ∧ Inv s' ∧ s'.peers = s.peers ∧
        s'.loopNextSent = s.loopNextSent ∧ s'.stopped = s.stopped ∧
        ∀ x ∈ sc'.sel, x.1 ∈ s.peers ∧ Takes ans x ∧ x.2 ∈ s'.reqQueue
  | [], kept, sc, s, h, hq, hsel => by
    refine ⟨s, sc, by simp [Dist.walk], h, rfl, rfl, rfl, fun x hx => ?_⟩
    obtain ⟨hp, ht, hk⟩ := hsel x hx
    exact ⟨hp, ht, by simp [hq, hk]⟩
  | r :: rest, kept, sc, s, h, hq, hsel => by
    obtain ⟨hacc, hflag⟩ := foldl_scanPeer ans r s.peers (sc, false)
    have hkept : ∀ x ∈ sc.sel, x.1 ∈ s.peers ∧ Takes ans x ∧ x.2 ∈ s.reqQueue :=
      fun x hx => by
        obtain ⟨hp, ht, hk⟩ := hsel x hx
        exact ⟨hp, ht, by simp [hq, hk]⟩
    simp only [Dist.walk]
    split_ifs with hgo hfront
    · -- the front request, which no peer can take: its channel is closed and it is removed
      obtain ⟨hf, rfl⟩ := hfront
      obtain ⟨c, hc⟩ := h.sentChn_of_mem (r := r) (by simp [hq])
      obtain ⟨hclose, hinv⟩ := h.settle hc
      -- `sel` holds items of kept requests only, and none is kept
      have hnil : (s.peers.foldl (scanPeer ans r) (sc, false)).1.sel = [] := by
        rw [(hflag hf).2]
        exact List.eq_nil_iff_forall_not_mem.mpr fun x hx => by simpa using (hsel x hx).2.2
      have hq' : ((s.remove r).setChan c ⟨true, []⟩).reqQueue = [] ++ rest := by
        simp [Dist.setChan, h.reqQueue_remove, hq]
      obtain ⟨s', sc', hwalk, h', hp, hl, hst, hsel'⟩ :=
        walk ans rest [] (s.peers.foldl (scanPeer ans r) (sc, false)).1 _ hinv hq' (by simp [hnil])
      rw [hc, hclose, Option.bind_some, Dist.remove_setChan]
      exact ⟨s', sc', hwalk, h', hp, hl, hst, hsel'⟩
    · -- `r` is passed and kept; the items `sel` got at it are its own
      have hsel' : ∀ x ∈ (s.peers.foldl (scanPeer ans r) (sc, false)).1.sel,
          x.1 ∈ s.peers ∧ Takes ans x ∧ x.2 ∈ kept ++ [r] := fun x hx => by
        rcases hacc x hx with hx | ⟨hr, hp, ht⟩
        · obtain ⟨hp, ht, hk⟩ := hsel x hx
          exact ⟨hp, ht, by simp [hk]⟩
        · exact ⟨hp, ht, by simp [hr]⟩
      exact walk ans rest (kept ++ [r]) _ s h (by simp [hq]) hsel'
    · -- no peers, and `elem` is past the front: the walk ends
      exact ⟨s, sc, rfl, h, rfl, rfl, rfl, hkept⟩

theorem nextRequest_ok (h : Inv s) (ans : Answers R P) :
    ∃ s' sc, s.nextRequest ans = some (s', sc) ∧ Inv s' ∧ s'.peers = s.peers ∧
      s'.loopNextSent = s.loopNextSent ∧ s'.stopped = s.stopped ∧
      ∀ x ∈ sc.sel, x.1 ∈ s.peers ∧ Takes ans x ∧ x.2 ∈ s'.reqQueue :=
  walk ans s.reqQueue [] ⟨[], [], none⟩ s h rfl (by simp)

/-- What a call of `nextRequest` from a state with the invariant gives: the invariant again,
`loopNextSent` as it was, and items of `sel` as `sel_dispatchable` says. -/
theorem of_nextRequest (h : Inv s) {ans : Answers R P} {s₁ : Dist R P} {sc : Scan R P}
    (hn : s.nextRequest ans = some (s₁, sc)) :
    Inv s₁ ∧ s₁.loopNextSent = s.loopNextSent ∧
      ∀ x ∈ sc.sel, x.1 ∈ s.peers ∧ Takes ans x ∧ x.2 ∈ s₁.reqQueue := by
  obtain ⟨s', sc', hn', h', -, hl, -, hsel⟩ := h.nextRequest_ok ans
  rw [hn, Option.some.injEq, Prod.mk.injEq] at hn'
  obtain ⟨rfl, rfl⟩ := hn'
  exact ⟨h', hl, hsel⟩

/-- A request goes only to a registered peer that can queue it, that its `canSend` accepts and
that need not wait for its cost, by the answers of the call that chose it; the request is then
still in the list. -/
theorem sel_dispatchable (h : Inv s) {ans : Answers R P} {s₁ : Dist R P} {sc : Scan R P}
    (hn : s.nextRequest ans = some (s₁, sc)) {x : P × R} (hx : x ∈ sc.sel) :
    x.1 ∈ s.peers ∧ Takes ans x ∧ x.2 ∈ s₁.reqQueue := by
  obtain ⟨-, -, hsel⟩ := h.of_nextRequest hn
  exact hsel x hx

/-- Dispatching a request in the list does not panic: its channel is closed holding the peer,
and the invariant holds. -/
theorem dispatch_ok (h : Inv s) (hr : s.sentChn r = some c) (p : P) :
    s.dispatch p r = some ((s.remove r).setChan c ⟨true, [p]⟩) ∧
      Inv ((s.remove r).setChan c ⟨true, [p]⟩) := by
  have hopen : (s.remove r).chans c = ⟨false, []⟩ := (h.chan r c hr).2
  have hclose : ((s.remove r).setChan c ⟨false, [p]⟩).closeChan (some c) =
      some (((s.remove r).setChan c ⟨false, [p]⟩).setChan c ⟨true, [p]⟩) :=
    Dist.closeChan_some (by simp)
  refine ⟨?_, (h.remove r).setChan (h.not_sentChn_remove hr) _⟩
  simp only [Dist.dispatch, hr, Dist.sendChan_some hopen p, Option.bind_some, hclose,
    Dist.setChan_setChan]

/-! ### The `stopChn` case -/

/-- The `stopChn` case does not panic from a state with the invariant. It closes the channel of
each request in the list, empty, and leaves the list and every `sentChn` as they were. -/
theorem stop_ok (h : Inv s) :
    ∃ s', s.stop = some s' ∧ s'.stopped = true ∧ s'.reqQueue = s.reqQueue ∧
      s'.sentChn = s.sentChn ∧
      ∀ r ∈ s.reqQueue, ∃ c, s.sentChn r = some c ∧ s'.chans c = ⟨true, []⟩ := by
  -- the loop's invariant: the channels of the requests passed are closed, the others open
  let I : List R → Dist R P → Prop := fun done t =>
    t.reqQueue = s.reqQueue ∧ t.sentChn = s.sentChn ∧
      (∀ r ∈ done, ∃ c, s.sentChn r = some c ∧ t.chans c = ⟨true, []⟩) ∧
      (∀ r c, s.sentChn r = some c → r ∉ done → t.chans c = ⟨false, []⟩)
  have hstep : ∀ done x rest (t : Dist R P), done ++ x :: rest = s.reqQueue → I done t →
      ∃ t', t.closeChan (t.sentChn x) = some t' ∧ I (done ++ [x]) t' := by
    rintro done x rest t hl ⟨hq, hs, hdone, hopen⟩
    have hxd : x ∉ done := fun hx =>
      List.disjoint_of_nodup_append (hl ▸ h.nodup) hx List.mem_cons_self
    obtain ⟨c, hc⟩ := h.sentChn_of_mem (r := x) (by rw [← hl]; simp)
    refine ⟨t.setChan c ⟨true, []⟩,
      by rw [hs, hc]; exact Dist.closeChan_some (hopen x c hc hxd),
      hq, hs, fun r hr => ?_, fun r c' hr hrd => ?_⟩
    · rcases List.mem_append.mp hr with hr | hr
      · obtain ⟨c', hc', hcl⟩ := hdone r hr
        have hne : c' ≠ c := by
          rintro rfl
          exact hxd (h.chan_inj r x c' hc' hc ▸ hr)
        exact ⟨c', hc', by simpa [Function.update_of_ne hne] using hcl⟩
      · rw [List.mem_singleton] at hr
        subst hr
        exact ⟨c, hc, by simp⟩
    · have hrx : r ≠ x := fun e => hrd (by simp [e])
      have hne : c' ≠ c := by
        rintro rfl
        exact hrx (h.chan_inj r x c' hr hc)
      simpa [Function.update_of_ne hne] using hopen r c' hr (fun hd => hrd (by simp [hd]))
  obtain ⟨t, ht, hq, hs, hdone, -⟩ :=
    foldlM_eq_some (fun (t : Dist R P) r => t.closeChan (t.sentChn r))
      s.reqQueue I hstep s.reqQueue [] s (by simp)
      ⟨rfl, rfl, by simp, fun r c hr _ => (h.chan r c hr).2⟩
  exact ⟨{ t with stopped := true }, by simp [Dist.stop, ht], rfl, hq, hs, hdone⟩

end Inv

/-! ### Runs -/

namespace Dist

variable {s s' : Dist R P} {r : R} {b : Bool} {c : Nat}

theorem queue_stopped (hq : s.queue r = some (s', c)) : s'.stopped = s.stopped := by
  rw [queue_eq] at hq
  obtain ⟨q, -, hq⟩ := Option.map_eq_some_iff.mp hq
  simp only [Prod.mk.injEq] at hq
  obtain ⟨rfl, -⟩ := hq
  rfl

theorem closeChan_stopped {ch : Option Nat} (h : s.closeChan ch = some s') :
    s'.stopped = s.stopped := by
  rcases ch with _ | c
  · cases h
  · by_cases hcl : (s.chans c).closed
    · simp [closeChan, hcl] at h
    · simp only [closeChan, hcl, Bool.false_eq_true, if_false, Option.some.injEq] at h
      subst h
      rfl

theorem cancel_stopped (hc : s.cancel r = some (b, s')) : s'.stopped = s.stopped := by
  unfold cancel at hc
  split at hc
  · simp only [Option.some.injEq, Prod.mk.injEq] at hc
    obtain ⟨-, rfl⟩ := hc
    rfl
  · obtain ⟨t, ht, heq⟩ := Option.map_eq_some_iff.mp hc
    simp only [Prod.mk.injEq] at heq
    obtain ⟨-, rfl⟩ := heq
    have hst := closeChan_stopped ht
    exact hst

end Dist

/-- A wake-up keeps the invariant: each call of `nextRequest` does, and so does each dispatch of
an item it gives `sel`; the timer is armed with no wake-up on its way. -/
theorem Drain.inv {s s' : Dist R P} (hd : Drain s s') :
    Inv s → s.loopNextSent = false → Inv s' := by
  induction hd with
  | @send s s₁ s₂ s₃ sc p r ans hnext hsel hdisp _ ih =>
    intro h hl
    obtain ⟨h₁, hl₁, hsel₁⟩ := h.of_nextRequest hnext
    obtain ⟨c, hc⟩ := h₁.sentChn_of_mem (hsel₁ _ hsel).2.2
    obtain ⟨hd, h₂⟩ := h₁.dispatch_ok hc p
    rw [hd, Option.some.injEq] at hdisp
    subst hdisp
    exact ih h₂ (hl₁.trans hl)
  | wait ans hnext _ _ =>
    intro h hl
    obtain ⟨h₁, hl₁, -⟩ := h.of_nextRequest hnext
    exact h₁.armTimer (hl₁.trans hl)
  | idle ans hnext _ _ =>
    intro h _
    exact (h.of_nextRequest hnext).1

/-- No operation restarts a `loop` that has returned. -/
theorem Step.stopped {s s' : Dist R P} (hs : Step s s') (h : s.stopped = true) :
    s'.stopped = true := by
  cases hs with
  | queue r _ hq => rw [Dist.queue_stopped hq, h]
  | cancel r hc => rw [Dist.cancel_stopped hc, h]
  | registerPeer => exact h
  | unregisterPeer => exact h
  | wake hrun => rw [h] at hrun; cases hrun
  | stop hrun => rw [h] at hrun; cases hrun

/-- Each operation keeps the invariant while `loop` runs. -/
theorem Step.inv {s s' : Dist R P} (hs : Step s s') (h : Inv s) (hrun : s'.stopped = false) :
    Inv s' := by
  cases hs with
  | queue r hr hq =>
    obtain ⟨t, c, ht, h', -⟩ := h.queue_ok hr
    rw [ht] at hq
    cases hq
    exact h'
  | cancel r hc =>
    obtain ⟨b, t, ht, h'⟩ := h.cancel_ok r
    rw [ht] at hc
    cases hc
    exact h'
  | registerPeer p => exact h.congr rfl rfl rfl rfl rfl rfl rfl h.wakes
  | unregisterPeer p => exact h.congr rfl rfl rfl rfl rfl rfl rfl h.wakes
  | wake _ hw hd =>
    obtain ⟨h', hl⟩ := h.takeWake hw
    exact hd.inv h' hl
  | stop _ hstop =>
    obtain ⟨t, ht, hdone, -⟩ := h.stop_ok
    rw [ht] at hstop
    cases hstop
    rw [hdone] at hrun
    cases hrun

/-- **Until `loop` returns**, every state of a run has the invariant: the list is ordered by
`reqOrder`, each request in it has a channel of its own, open and empty, and at most one wake-up
is on its way. So no operation panics until then (`Inv.queue_ok`, `Inv.cancel_ok`,
`Inv.nextRequest_ok`, `Inv.dispatch_ok`, `Inv.stop_ok`). -/
theorem Reachable.inv {s : Dist R P} (hs : Reachable s) (hrun : s.stopped = false) : Inv s := by
  induction hs with
  | refl => exact inv_new
  | @tail t u _ hstep ih =>
    -- the state before a running one was running
    have hrun' : t.stopped = false :=
      Bool.eq_false_iff.mpr fun ht => by simp [hstep.stopped ht] at hrun
    exact hstep.inv (ih hrun') hrun

/-- The `stopChn` case closes the channel of each request in the list but leaves the request
there with its `sentChn` set: a `cancel` after it closes that channel a second time, and panics,
where it should answer that the request was settled. -/
theorem cancel_after_stop_panics (r : R) :
    ∃ s : Dist R P, Reachable s ∧ s.stopped = true ∧ r ∈ s.reqQueue ∧
      (∃ c, s.sentChn r = some c ∧ s.chans c = ⟨true, []⟩) ∧ s.cancel r = none := by
  have hr : r ∉ (Dist.new : Dist R P).reqQueue := by simp [Dist.new]
  obtain ⟨s₁, c, hq, h₁, hc, hmem, hrun⟩ := inv_new.queue_ok hr
  obtain ⟨s₂, hstop, hst, hq₂, hs₂, hclosed⟩ := h₁.stop_ok
  obtain ⟨c', hc', hch⟩ := hclosed r hmem
  rw [hc, Option.some.injEq] at hc'
  subst hc'
  refine ⟨s₂, ?_, hst, hq₂ ▸ hmem, ⟨c, hs₂ ▸ hc, hch⟩, ?_⟩
  · exact (Relation.ReflTransGen.single (Step.queue r hr hq)).tail (Step.stop hrun hstop)
  · simp only [Dist.cancel, hs₂, hc, Dist.closeChan_closed hch, Option.map_none]

end EpvChain.Fc
