import EpvChain.Agreement.Epvdpos.Engine

/-!
# In-turn decisions under concurrent use of the random source

`Archive.inturn` makes two calls on Go's process-wide `math/rand` source, `rand.Seed` then
`rand.Intn`, each locked on its own. The engine calls it from several goroutines: `Prepare`
draws the vote and calls `calcDifficulty`, `Seal` draws its wiggle, and `VerifyHeaders` and
`CalcDifficulty` run `inturn` too. The model interleaves goroutines one atomic call at a time
(`interleave`).

* `inturnOf_interleave_alone` — run alone, the two calls decide what `Archive.inturn` decides.
* `inturnOf_interleave_between` — in any schedule the decision is fixed by the calls others
  made between the seed and the draw (`Archive.inturnAmid`).
* `inturn_interleaved_ne` — so if a draw between them changes the index, some signer in turn
  alone is out of turn in that schedule (`inturn_interleaved_ne_counter`).
-/

namespace EpvChain.Epvdpos

open EpvChain.Types EpvChain.Lib

variable {σ : Type}

/-- One call on the process-wide source.
Source: `math/rand` `Seed`, `Intn`, `Int63n` -/
inductive RandCall where
  | seed (x : Int64)
  | intn (n : Nat)
  | int63n (n : Int64)
  deriving DecidableEq, Repr

/-- Make one call: the index it draws, if it draws one, and the new state of the source. -/
def RandCall.run (rng : GoRand σ) (st : σ) : RandCall → Option Nat × σ
  | .seed x => (none, rng.seed x)
  | .intn n => ((rng.intn st n).1, (rng.intn st n).2)
  | .int63n n => (none, (rng.int63n st n).2)

/-- A goroutine using the source: the calls it has still to make and the indices it has drawn,
in order. -/
structure Goroutine where
  calls : List RandCall
  drawn : List Nat

/-- The goroutine makes its next call, if it has one left. -/
def Goroutine.step (rng : GoRand σ) (st : σ) (g : Goroutine) : σ × Goroutine :=
  match g.calls with
  | [] => (st, g)
  | c :: rest =>
    let r := c.run rng st
    (r.2, ⟨rest, g.drawn ++ r.1.toList⟩)

/-- The goroutine makes its next `k` calls. -/
def Goroutine.steps (rng : GoRand σ) : Nat → σ → Goroutine → σ × Goroutine
  | 0, st, g => (st, g)
  | k + 1, st, g =>
    let r := g.step rng st
    Goroutine.steps rng k r.1 r.2

/-- Two goroutines on the shared source, in the order the schedule picks: `true` runs the next
call of the first, `false` of the second. -/
def interleave (rng : GoRand σ) : List Bool → σ → Goroutine → Goroutine → σ × Goroutine × Goroutine
  | [], st, a, b => (st, a, b)
  | true :: sched, st, a, b =>
    let r := a.step rng st
    interleave rng sched r.1 r.2 b
  | false :: sched, st, a, b =>
    let r := b.step rng st
    interleave rng sched r.1 a r.2

namespace Archive

/-- The calls of `Archive.inturn`: reseed with the low eight bytes of the hash, then draw among
the able signers. -/
def inturnCalls (s : Archive) (number : UInt64) (hash : Hash) : List RandCall :=
  [.seed hash.lowInt64, .intn (s.ableSigners number).length]

/-- The decision `inturn` takes from the index it drew: the signer is at that position. -/
def inturnOf (s : Archive) (number : UInt64) (signer : Address) (drawn : List Nat) : Bool :=
  drawn.head? == some ((s.ableSigners number).idxOf signer)

/-- The decision of `inturn` when `between` are the calls made by others between its seed and
its draw. -/
def inturnAmid (rng : GoRand σ) (s : Archive) (number : UInt64) (signer : Address) (hash : Hash)
    (between : List RandCall) : Bool :=
  let st := between.foldl (fun st c => (c.run rng st).2) (rng.seed hash.lowInt64)
  (rng.intn st (s.ableSigners number).length).1 == (s.ableSigners number).idxOf signer

end Archive

/-! ### Schedules -/

section Schedules

variable (rng : GoRand σ)

/-- After `k` calls the source is where the first `k` calls of the goroutine leave it. -/
theorem state_steps (k : Nat) (st : σ) (g : Goroutine) :
    (g.steps rng k st).1 = (g.calls.take k).foldl (fun st c => (c.run rng st).2) st := by
  induction k generalizing st g with
  | zero => rfl
  | succ k ih =>
    obtain ⟨calls, drawn⟩ := g
    cases calls with
    | nil =>
      -- a goroutine with nothing left to call leaves the source alone
      have hrest : ∀ k st, (Goroutine.steps rng k st ⟨[], drawn⟩).1 = st := by
        intro k
        induction k with
        | zero => intro st; rfl
        | succ k ih' => intro st; exact ih' st
      exact hrest (k + 1) st
    | cons c rest =>
      simp only [Goroutine.steps, Goroutine.step, List.take_succ_cons, List.foldl_cons]
      exact ih _ _

/-- After `k` calls the goroutine has the rest to make. -/
theorem calls_steps (k : Nat) (st : σ) (g : Goroutine) :
    (g.steps rng k st).2.calls = g.calls.drop k := by
  induction k generalizing st g with
  | zero => rfl
  | succ k ih =>
    obtain ⟨calls, drawn⟩ := g
    cases calls with
    | nil =>
      have hrest : ∀ k st, (Goroutine.steps rng k st ⟨[], drawn⟩).2.calls = [] := by
        intro k
        induction k with
        | zero => intro st; rfl
        | succ k ih' => intro st; exact ih' st
      exact hrest (k + 1) st
    | cons c rest =>
      simp only [Goroutine.steps, Goroutine.step, List.drop_succ_cons]
      exact ih _ _

/-- While only the second goroutine runs, it makes its calls in order. -/
theorem interleave_replicate_false (k : Nat) (sched : List Bool) (st : σ) (a b : Goroutine) :
    interleave rng (List.replicate k false ++ sched) st a b =
      interleave rng sched (b.steps rng k st).1 a (b.steps rng k st).2 := by
  induction k generalizing st b with
  | zero => rfl
  | succ k ih =>
    simp only [List.replicate_succ, List.cons_append, interleave, Goroutine.steps]
    exact ih _ _

/-- A goroutine with no calls left is not changed by any schedule. -/
theorem interleave_of_calls_nil (sched : List Bool) (st : σ) (a b : Goroutine)
    (ha : a.calls = []) : (interleave rng sched st a b).2.1 = a := by
  induction sched generalizing st b with
  | nil => rfl
  | cons x sched ih =>
    cases x with
    | true =>
      have hstep : a.step rng st = (st, a) := by
        unfold Goroutine.step
        rw [ha]
      simp only [interleave, hstep]
      exact ih st b
    | false => exact ih _ _

/-- **Every schedule in which `inturn` completes decides as `inturnAmid` of the calls made
between its seed and its draw.** The other goroutine makes `k` calls, then `inturn` seeds, the
other makes `j` calls, then `inturn` draws; what comes after does not matter. -/
theorem inturnOf_interleave_between (s : Archive) (number : UInt64) (signer : Address)
    (hash : Hash) (k j : Nat) (rest : List Bool) (st : σ) (b : Goroutine) :
    s.inturnOf number signer
        (interleave rng (List.replicate k false ++ true :: (List.replicate j false ++ true :: rest))
          st ⟨s.inturnCalls number hash, []⟩ b).2.1.drawn =
      s.inturnAmid rng number signer hash ((b.calls.drop k).take j) := by
  rw [interleave_replicate_false]
  simp only [interleave, Goroutine.step, Archive.inturnCalls, RandCall.run]
  rw [interleave_replicate_false]
  simp only [interleave, Goroutine.step, RandCall.run]
  rw [interleave_of_calls_nil rng rest _ _ _ rfl]
  simp only [Archive.inturnOf, Archive.inturnAmid, state_steps, calls_steps, List.nil_append,
    Option.toList_some, Option.toList_none, List.head?_cons, Option.some_beq_some]

/-- Run alone, the two calls of `inturn` decide what `Archive.inturn` decides. -/
theorem inturnOf_interleave_alone (s : Archive) (number : UInt64) (signer : Address)
    (hash : Hash) (st : σ) (b : Goroutine) :
    s.inturnOf number signer (interleave rng [true, true] st ⟨s.inturnCalls number hash, []⟩ b).2.1.drawn =
      (s.inturn rng number signer hash st).1 := by
  have h := inturnOf_interleave_between rng s number signer hash 0 0 [] st b
  rw [List.take_zero] at h
  exact h

/-- **A draw between the seed and the draw of `inturn` changes its decision** whenever it
changes the index drawn: the signer at the index `inturn` draws alone is in turn, and out of
turn when `Prepare` draws its vote between the two calls. -/
theorem inturn_interleaved_ne (s : Archive) (number : UInt64) (hash : Hash) (m : Nat) (st : σ)
    (hpos : 0 < (s.ableSigners number).length)
    (hdiff : (rng.intn (rng.intn (rng.seed hash.lowInt64) m).2 (s.ableSigners number).length).1 ≠
      (rng.intn (rng.seed hash.lowInt64) (s.ableSigners number).length).1) :
    ∃ signer, (s.inturn rng number signer hash st).1 = true ∧
      s.inturnOf number signer (interleave rng [true, false, true] st
        ⟨s.inturnCalls number hash, []⟩ ⟨[.intn m], []⟩).2.1.drawn = false := by
  set signers := s.ableSigners number with hsigners
  set d := (rng.intn (rng.seed hash.lowInt64) signers.length).1 with hd
  have hlt : d < signers.length := rng.intn_lt _ _ hpos
  -- the able signers are a sorted set, so the signer at `d` is at index `d`
  have hidx : signers.idxOf signers[d] = d :=
    List.Nodup.idxOf_getElem (by rw [hsigners, Archive.ableSigners, sortedList_eq_sort]; exact Finset.sort_nodup _ _) d hlt
  refine ⟨signers[d], ?_, ?_⟩
  · simp only [Archive.inturn, ← hsigners, hidx, ← hd, beq_self_eq_true]
  · have h := inturnOf_interleave_between rng s number signers[d] hash 0 1 [] st ⟨[.intn m], []⟩
    simp only [List.replicate_zero, List.nil_append, List.replicate_one, List.singleton_append,
      List.drop_zero] at h
    rw [h]
    simp only [Archive.inturnAmid, ← hsigners, hidx, List.take_succ_cons, List.take_zero,
      List.foldl_cons, List.foldl_nil, RandCall.run]
    simpa using hdiff

end Schedules

/-- A counter as the generator: every call moves it on by one, and `Intn(n)` is the counter
modulo `n`. -/
def counterRand : GoRand Nat where
  seed _ := 0
  intn st n := (st % n, st + 1)
  int63n st _ := (0, st + 1)
  intn_lt _ _ h := Nat.mod_lt _ h

/-- Two signers, and `Prepare` draws its vote between the seed and the draw of `inturn`. -/
theorem inturn_interleaved_ne_counter :
    0 < ((newArchive ⟨15, 30000⟩ 0 0 [1, 2]).ableSigners 1).length ∧
      ∃ signer, ((newArchive ⟨15, 30000⟩ 0 0 [1, 2]).inturn counterRand 1 signer 0 0).1 = true ∧
        (newArchive ⟨15, 30000⟩ 0 0 [1, 2]).inturnOf 1 signer (interleave counterRand
          [true, false, true] 0 ⟨(newArchive ⟨15, 30000⟩ 0 0 [1, 2]).inturnCalls 1 0, []⟩
          ⟨[.intn 3], []⟩).2.1.drawn = false :=
  ⟨by decide, inturn_interleaved_ne counterRand _ 1 0 3 0 (by decide) (by decide)⟩

end EpvChain.Epvdpos
