import EpvChain.Peer.Discover.Table
import EpvChain.Lib.GoList

/-!
# The discovery loop's pending replies (`peer/discover/udp.go`)

`udp.loop` keeps the calls that wait for a reply in a `container/list` of `pending` entries, each
with a deadline and a channel `errc` of capacity one. Each round calls `resetTimeout`, which
points the timer at the front entry, then takes one case of its `select`: `closing` (every entry
gets `errClosed`), `addpending`, `gotreply` (an entry of the reply's sender and type whose
callback accepts it gets `nil`) or the timer (an entry past its deadline gets `errTimeout`). Each
walks the list and removes entries inside the walk; `Remove` clears `el.next`, so a walk ends at
the first entry it removes (`Lib.listLoop`).

* `Reachable.good`: on every run no call is in the list twice or sent two values;
  `sent_nodup`: each `errc` gets at most one value, so the loop never blocks on one.
* `gotreply_sends_nil`: a reply sends only `nil`, only to accepting entries of its sender and
  type; `closingCase_sent`: `closing` settles every entry with `errClosed`.
* `loop_stalls_after_clock_warp`: when `resetTimeout` drops a front entry for `errClockWarp`,
  its walk ends at once and the timer is stopped, so the entry behind waits past its deadline.

The clock is read in nanoseconds and may go back. A callback's answer to a reply is given with
the reply. The ntp drift check only logs, and is left out.
-/

namespace EpvChain.Discover

open EpvChain.Lib

/-- `respTimeout`, in nanoseconds. -/
def respTimeout : Int := 500 * 1000000

/-- `ntpFailureThreshold`. -/
def ntpFailureThreshold : Nat := 32

/-- `pingPacket`. -/
def pingPacket : UInt8 := 1

/-- What `loop` sends on an `errc`: `nil`, `errTimeout`, `errClockWarp` or `errClosed`. -/
inductive ReplyErr
  | nil
  | errTimeout
  | errClockWarp
  | errClosed
  deriving DecidableEq, Repr

/-- `pending`: a call waiting for a reply, `key` standing for the `*pending` pointer and so for
the call's `errc`; `sender` is the field `from`. -/
structure Pending where
  key : Nat
  sender : NodeID
  ptype : UInt8
  deadline : Int
  deriving DecidableEq, Repr

/-- `reply`: a packet of type `ptype` from `sender`. `accepts k` is what the callback of the call
`k` returns for the packet's data. -/
structure Reply where
  sender : NodeID
  ptype : UInt8
  accepts : Nat → Bool

/-- `loop` at its `select`, with its timer and the channels it shares with the callers. -/
structure Loop where
  plist : List Pending
  /-- the entry `nextTimeout` points to, by its key -/
  nextTimeout : Option Nat
  contTimeouts : Nat
  /-- the timer runs -/
  armed : Bool
  /-- the reading the timer has put in `timeout.C` and the loop has not received -/
  fired : Option Int
  /-- every value sent on an `errc`, in order, with the call it went to -/
  sent : List (Nat × ReplyErr)
  /-- the key the next `&pending{}` gets -/
  fresh : Nat
  /-- `t.closing` is closed -/
  closing : Bool
  /-- `loop` has returned -/
  done : Bool
  deriving DecidableEq

/-- `loop` at its first `select`: the timer of `time.NewTimer(0)` has fired and been drained. -/
def newLoop : Loop := ⟨[], none, 0, false, none, [], 0, false, false⟩

/-- `errc <- e` for the call `k`. -/
def Loop.send (s : Loop) (k : Nat) (e : ReplyErr) : Loop := { s with sent := s.sent ++ [(k, e)] }

/-! ### The loop -/

/-- One round of `resetTimeout`'s walk, at the entry `p`: arm the timer for it and return, or
drop it if its deadline is `2 * respTimeout` or more ahead of the clock. -/
def resetRound (now : Int) (p : Pending) (s : Loop) : Round Loop :=
  let s := { s with nextTimeout := some p.key }
  if p.deadline - now < 2 * respTimeout then .returned { s with armed := true }
  else .removed (s.send p.key .errClockWarp)

/-- `resetTimeout`, at the top of each round of `loop`, with `now` the reading of `time.Now()`.
After a walk that did not return, `nextTimeout = nil` and `timeout.Stop()`.
Source: `peer/discover/udp.go` `udp.loop` -/
def resetTimeout (now : Int) (s : Loop) : Loop :=
  match s.plist with
  | [] => s
  | p :: _ =>
    if s.nextTimeout = some p.key then s
    else
      match listLoop (resetRound now) [] s.plist s with
      | (l, s', true) => { s' with plist := l }
      | (l, s', false) => { s' with plist := l, nextTimeout := none, armed := false }

/-- The `addpending` case: the new entry is due `respTimeout` after the reading `now`. -/
def Loop.addpending (sender : NodeID) (ptype : UInt8) (now : Int) (s : Loop) : Loop :=
  { s with
    plist := s.plist ++ [⟨s.fresh, sender, ptype, now + respTimeout⟩]
    fresh := s.fresh + 1 }

/-- One round of the `gotreply` walk; the state carries `matched`. -/
def replyRound (r : Reply) (p : Pending) (s : Loop × Bool) : Round (Loop × Bool) :=
  if p.sender = r.sender ∧ p.ptype = r.ptype then
    if r.accepts p.key then .removed ({ s.1.send p.key .nil with contTimeouts := 0 }, true)
    else .next ({ s.1 with contTimeouts := 0 }, true)
  else .next s

/-- The `gotreply` case, with what it sends on `r.matched`. -/
def Loop.gotreply (r : Reply) (s : Loop) : Loop × Bool :=
  match listLoop (replyRound r) [] s.plist (s, false) with
  | (l, (s', matched), _) => ({ s' with plist := l }, matched)

/-- One round of the timer's walk: an entry whose deadline is not after `now` times out. -/
def timeoutRound (now : Int) (p : Pending) (s : Loop) : Round Loop :=
  if p.deadline ≤ now then
    .removed { s.send p.key .errTimeout with contTimeouts := s.contTimeouts + 1 }
  else .next s

/-- The timer case, `now := <-timeout.C`. -/
def Loop.timeout (now : Int) (s : Loop) : Loop :=
  let s := { s with fired := none, nextTimeout := none }
  match listLoop (timeoutRound now) [] s.plist s with
  | (l, s', _) =>
    if s'.contTimeouts > ntpFailureThreshold then { s' with plist := l, contTimeouts := 0 }
    else { s' with plist := l }

/-- The `closing` case: every entry gets `errClosed` and the loop returns, its list with it. -/
def Loop.closingCase (s : Loop) : Loop :=
  match listLoop (fun p s => .next (s.send p.key .errClosed)) [] s.plist s with
  | (_, s', _) => { s' with plist := [], done := true }

/-- `pending` when `t.closing` is closed: the call gets `errClosed` at once, unregistered. -/
def Loop.pendingClosed (s : Loop) : Loop := { s.send s.fresh .errClosed with fresh := s.fresh + 1 }

/-- The timer fires at the reading `now`: it stops, and the send of `now` on `timeout.C` is
dropped if a reading waits there already. -/
def Loop.tick (now : Int) (s : Loop) : Loop :=
  { s with armed := false, fired := if s.fired.isSome then s.fired else some now }

/-- What happens with no one outside the loop acting: the timer fires, or the loop takes the
reading it sent. -/
inductive Internal : Loop → Loop → Prop
  | tick {s : Loop} (now : Int) : s.armed = true → Internal s (s.tick now)
  | timeout {s : Loop} (now reading : Int) :
      s.done = false → s.fired = some now → Internal s (resetTimeout reading (s.timeout now))

/-- A step of the loop, its timer or a caller. `reading` is what `resetTimeout` reads after the
case; `now` is the reading the case reads. -/
inductive Step : Loop → Loop → Prop
  | internal {s s' : Loop} : Internal s s' → Step s s'
  | close {s : Loop} : s.closing = false → Step s { s with closing := true }
  | pendingClosed {s : Loop} : s.closing = true → Step s s.pendingClosed
  | closing {s : Loop} : s.done = false → s.closing = true → Step s s.closingCase
  | addpending {s : Loop} (sender : NodeID) (ptype : UInt8) (now reading : Int) :
      s.done = false → Step s (resetTimeout reading (s.addpending sender ptype now))
  | gotreply {s : Loop} (r : Reply) (reading : Int) :
      s.done = false → Step s (resetTimeout reading (s.gotreply r).1)

/-- The states a run of the loop reaches. -/
def Reachable (s : Loop) : Prop := Relation.ReflTransGen Step newLoop s

/-! ### Every call gets at most one value -/

/-- The calls the loop knows of: those in its list, and those it has sent a value to. -/
def Loop.calls (s : Loop) : List Nat := s.plist.map Pending.key ++ s.sent.map Prod.fst

/-- The invariant: no call is known twice (twice in the list, sent two values, or sent one while
in the list), and every call known has been registered. -/
structure Good (s : Loop) : Prop where
  nodup : s.calls.Nodup
  lt_fresh : ∀ k ∈ s.calls, k < s.fresh

theorem Good.of_perm {s t : Loop} (h : Good s) (hp : t.calls.Perm s.calls)
    (hf : t.fresh = s.fresh) : Good t :=
  ⟨hp.nodup_iff.mpr h.nodup, fun k hk => hf ▸ h.lt_fresh k (hp.subset hk)⟩

theorem Good.congr {s t : Loop} (h : Good s) (hp : t.plist = s.plist) (hs : t.sent = s.sent)
    (hf : t.fresh = s.fresh) : Good t :=
  h.of_perm (by rw [Loop.calls, Loop.calls, hp, hs]) hf

/-- A new call: its key is the fresh one, put among the calls the loop knows. -/
theorem Good.register {s t : Loop} (h : Good s) (hp : t.calls.Perm (s.fresh :: s.calls))
    (hf : t.fresh = s.fresh + 1) : Good t := by
  have hnew : s.fresh ∉ s.calls := fun hk => Nat.lt_irrefl _ (h.lt_fresh _ hk)
  refine ⟨hp.nodup_iff.mpr (List.nodup_cons.mpr ⟨hnew, h.nodup⟩), fun k hk => ?_⟩
  rcases List.mem_cons.mp (hp.subset hk) with rfl | hk
  · omega
  · have := h.lt_fresh k hk
    omega

/-- Settling the entry `p`, between `pre` and `rest`, moves its call from the list to the values
sent. -/
theorem calls_settle (pre rest : List Pending) (p : Pending) (sent : List (Nat × ReplyErr))
    (e : ReplyErr) :
    ((pre ++ rest).map Pending.key ++ (sent ++ [(p.key, e)]).map Prod.fst).Perm
      ((pre ++ p :: rest).map Pending.key ++ sent.map Prod.fst) := by
  simp only [List.map_append, List.map_cons, List.map_nil, List.append_assoc]
  -- on both sides `p.key` joins the same calls
  apply List.Perm.append_left
  rw [← List.append_assoc]
  exact List.perm_append_singleton _ _

/-- The invariant of a walk: `Good` of the state with the walk's list in place. -/
def WalkGood (l : List Pending) (s : Loop) : Prop := Good { s with plist := l }

theorem WalkGood.settle {pre rest : List Pending} {p : Pending} {s t : Loop} {e : ReplyErr}
    (h : WalkGood (pre ++ p :: rest) s) (hs : t.sent = s.sent ++ [(p.key, e)])
    (hf : t.fresh = s.fresh) : WalkGood (pre ++ rest) t :=
  Good.of_perm h (by simpa [Loop.calls, hs] using calls_settle pre rest p s.sent e) hf

theorem resetTimeout_good (now : Int) {s : Loop} (h : Good s) : Good (resetTimeout now s) := by
  have hwalk := listLoop_inv (resetRound now) WalkGood
    (fun pre x rest t t' _ hb => by
      unfold resetRound at hb
      split_ifs at hb)
    (fun pre x rest t t' ht hb => by
      unfold resetRound at hb
      split_ifs at hb
      cases hb
      exact ht.settle rfl rfl)
    (fun pre x rest t t' ht hb => by
      unfold resetRound at hb
      split_ifs at hb
      cases hb
      exact Good.congr ht rfl rfl rfl)
    s.plist [] s (Good.congr h rfl rfl rfl)
  unfold resetTimeout
  split
  · exact h
  · split
    · exact h
    · -- the walk's result, with `nextTimeout` and the timer set as it ended
      generalize listLoop (resetRound now) [] s.plist s = r at hwalk ⊢
      obtain ⟨l, t, _ | _⟩ := r
      · exact Good.congr hwalk rfl rfl rfl
      · exact hwalk

theorem addpending_good (sender : NodeID) (ptype : UInt8) (now : Int) {s : Loop} (h : Good s) :
    Good (s.addpending sender ptype now) :=
  h.register (by simp [Loop.calls, Loop.addpending]) rfl

theorem gotreply_good (r : Reply) {s : Loop} (h : Good s) : Good (s.gotreply r).1 := by
  have hwalk := listLoop_inv (replyRound r) (fun l t => WalkGood l t.1)
    (fun pre x rest t t' ht hb => by
      unfold replyRound at hb
      split_ifs at hb <;> cases hb
      · exact Good.congr ht rfl rfl rfl
      · exact ht)
    (fun pre x rest t t' ht hb => by
      unfold replyRound at hb
      split_ifs at hb
      cases hb
      exact ht.settle rfl rfl)
    (fun pre x rest t t' _ hb => by
      unfold replyRound at hb
      split_ifs at hb)
    s.plist [] (s, false) (Good.congr h rfl rfl rfl)
  unfold Loop.gotreply
  generalize listLoop (replyRound r) [] s.plist (s, false) = res at hwalk ⊢
  obtain ⟨l, ⟨t, m⟩, _⟩ := res
  exact hwalk

theorem timeout_good (now : Int) {s : Loop} (h : Good s) : Good (s.timeout now) := by
  have hwalk := listLoop_inv (timeoutRound now) WalkGood
    (fun pre x rest t t' ht hb => by
      unfold timeoutRound at hb
      split_ifs at hb
      cases hb
      exact ht)
    (fun pre x rest t t' ht hb => by
      unfold timeoutRound at hb
      split_ifs at hb
      cases hb
      exact ht.settle rfl rfl)
    (fun pre x rest t t' _ hb => by
      unfold timeoutRound at hb
      split_ifs at hb)
    s.plist [] { s with fired := none, nextTimeout := none } (Good.congr h rfl rfl rfl)
  unfold Loop.timeout
  dsimp only
  split
  · exact Good.congr hwalk rfl rfl rfl
  · exact hwalk

/-- Sending `e` to each entry of `ps` in turn. -/
theorem foldl_send (e : ReplyErr) (ps : List Pending) (s : Loop) :
    ps.foldl (fun s p => s.send p.key e) s =
      { s with sent := s.sent ++ ps.map fun p => (p.key, e) } := by
  induction ps generalizing s with
  | nil => simp
  | cons p ps ih =>
    rw [List.foldl_cons, ih]
    simp [Loop.send]

/-- `closing` sends `errClosed` to every entry, in the list's order, and the loop ends. -/
theorem closingCase_eq (s : Loop) :
    s.closingCase =
      { s with
        plist := []
        sent := s.sent ++ s.plist.map (fun p => (p.key, .errClosed))
        done := true } := by
  unfold Loop.closingCase
  rw [listLoop_of_next, foldl_send]

theorem closingCase_sent (s : Loop) :
    s.closingCase.sent = s.sent ++ s.plist.map fun p => (p.key, .errClosed) := by
  rw [closingCase_eq]

theorem closingCase_good {s : Loop} (h : Good s) : Good s.closingCase := by
  refine h.of_perm ?_ (by rw [closingCase_eq])
  rw [Loop.calls, Loop.calls, closingCase_eq]
  simpa [Function.comp_def] using List.perm_append_comm

theorem pendingClosed_good {s : Loop} (h : Good s) : Good s.pendingClosed :=
  h.register (by simpa [Loop.calls, Loop.pendingClosed, Loop.send] using
    List.perm_append_singleton s.fresh s.calls) rfl

theorem tick_good (now : Int) {s : Loop} (h : Good s) : Good (s.tick now) :=
  Good.congr h rfl rfl rfl

/-- Every step keeps the invariant. -/
theorem Step.good {s s' : Loop} (hs : Step s s') (h : Good s) : Good s' := by
  cases hs with
  | internal hi =>
    cases hi with
    | tick now _ => exact tick_good now h
    | timeout now reading _ _ => exact resetTimeout_good reading (timeout_good now h)
  | close _ => exact Good.congr h rfl rfl rfl
  | pendingClosed _ => exact pendingClosed_good h
  | closing _ _ => exact closingCase_good h
  | addpending sender ptype now reading _ =>
    exact resetTimeout_good reading (addpending_good sender ptype now h)
  | gotreply r reading _ => exact resetTimeout_good reading (gotreply_good r h)

theorem good_newLoop : Good newLoop := ⟨by decide, by simp [Loop.calls, newLoop]⟩

/-- **Every run keeps the invariant.** -/
theorem Reachable.good {s : Loop} (hs : Reachable s) : Good s := by
  induction hs with
  | refl => exact good_newLoop
  | tail _ hstep ih => exact hstep.good ih

/-- On every run each call's `errc` gets at most one value, so with room for one the loop never
blocks sending on it. -/
theorem sent_nodup {s : Loop} (hs : Reachable s) : (s.sent.map Prod.fst).Nodup :=
  (List.nodup_append.mp hs.good.nodup).2.1

/-! ### What a reply sends -/

/-- A reply sends only `nil`, and each to an entry of the list of the reply's sender and type
whose callback accepted it. -/
theorem gotreply_sends_nil (r : Reply) (s : Loop) :
    ∃ new, (s.gotreply r).1.sent = s.sent ++ new ∧ ∀ e ∈ new, e.2 = .nil ∧
      ∃ p ∈ s.plist, p.key = e.1 ∧ p.sender = r.sender ∧ p.ptype = r.ptype ∧
        r.accepts p.key = true := by
  -- the walk's list stays within the list it started from, and what it sent so far is accepted
  have hwalk := listLoop_inv (replyRound r)
    (fun l t => l ⊆ s.plist ∧
      ∃ new, t.1.sent = s.sent ++ new ∧ ∀ e ∈ new, e.2 = .nil ∧
      ∃ p ∈ s.plist, p.key = e.1 ∧ p.sender = r.sender ∧ p.ptype = r.ptype ∧
        r.accepts p.key = true)
    (fun pre x rest t t' ht hb => by
      unfold replyRound at hb
      split_ifs at hb <;> cases hb <;> exact ht)
    (fun pre x rest t t' ht hb => by
      unfold replyRound at hb
      split_ifs at hb with hm ha
      cases hb
      obtain ⟨hsub, new, hsent, hnew⟩ := ht
      have hx : x ∈ s.plist := hsub (by simp)
      refine ⟨fun q hq => hsub (by simp only [List.mem_append, List.mem_cons] at hq ⊢; tauto),
        new ++ [(x.key, .nil)], by simp [Loop.send, hsent], fun e he => ?_⟩
      rcases List.mem_append.mp he with he | he
      · exact hnew e he
      · rw [List.mem_singleton] at he
        subst he
        exact ⟨rfl, x, hx, rfl, hm.1, hm.2, ha⟩)
    (fun pre x rest t t' _ hb => by
      unfold replyRound at hb
      split_ifs at hb)
    s.plist [] (s, false) ⟨by simp, [], by simp, by simp⟩
  unfold Loop.gotreply
  generalize listLoop (replyRound r) [] s.plist (s, false) = res at hwalk ⊢
  obtain ⟨l, ⟨t, m⟩, _⟩ := res
  exact hwalk.2

/-! ### A stopped timer -/

/-- **The timer is left stopped.** A call is registered at the reading `10 * respTimeout`, and a
second one after the clock went back to `0`; the timer, armed for the first, fires at `0`. The
next `resetTimeout` drops the first entry, due `11 * respTimeout` ahead of the clock, with
`errClockWarp`, and stops the timer. The second entry, due at `respTimeout`, stays in the list
with no value sent, and nothing but a caller moves the loop on: the timer neither runs nor has a
reading waiting. -/
theorem loop_stalls_after_clock_warp :
    ∃ s, Reachable s ∧ s.done = false ∧ (∀ s', ¬ Internal s s') ∧
      ∃ p ∈ s.plist, p.deadline = respTimeout ∧ p.key ∉ s.sent.map Prod.fst := by
  let s1 := resetTimeout (10 * respTimeout) (newLoop.addpending [] pingPacket (10 * respTimeout))
  let s2 := resetTimeout 0 (s1.addpending [] pingPacket 0)
  let s3 := s2.tick 0
  let s4 := resetTimeout 0 (s3.timeout 0)
  have h1 : Step newLoop s1 := .addpending _ _ _ _ rfl
  have h2 : Step s1 s2 := .addpending _ _ _ _ (by decide)
  have h3 : Step s2 s3 := .internal (.tick _ (by decide))
  have h4 : Step s3 s4 := .internal (.timeout _ _ (by decide) (by decide))
  refine ⟨s4, ((((Relation.ReflTransGen.refl).tail h1).tail h2).tail h3).tail h4, by decide, ?_,
    ⟨1, [], pingPacket, respTimeout⟩, by decide, rfl, by decide⟩
  intro s' hi
  cases hi with
  | tick now harmed => exact absurd harmed (by decide)
  | timeout now reading _ hfired =>
    have hnone : s4.fired = none := by decide
    cases hnone.symm.trans hfired

end EpvChain.Discover
