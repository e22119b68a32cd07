import Mathlib

/-!
# Indexed loops whose body may fail

Go's counting loop whose body may return an error,

    for i := 0; i < n; i++ { if bad { return ..., err }; s = body(s, i) }

is `(List.range n).foldlM step s` in `Except ε`: the first error ends it.

* `foldlM_range_inv`: an invariant `Inv i s` that every successful turn carries from `i` to
  `i + 1` holds of the result of every successful run.
* `foldlM_range_eq_ok`: if the turn at `i` from `g i` succeeds with `g (i + 1)`, the loop
  succeeds with `g n`. Both rest on `foldlM_range_succ`, which peels off the last turn.
* `foldlM_inv`: the same rule for `for _, x := range xs`, `xs.foldlM step s`, indexed by the
  elements done.
* `foldlM_eq_some`: a loop in `Option` (a body that may dereference nil) runs to the end when
  every turn from a state with the invariant succeeds and carries it.
-/

namespace EpvChain.Lib

variable {ε σ : Type}

/-- A bind in `Except ε` succeeds when both computations do, the second from the first's value. -/
theorem bind_eq_ok {α β : Type} {x : Except ε α} {f : α → Except ε β} {b : β} :
    x >>= f = .ok b ↔ ∃ a, x = .ok a ∧ f a = .ok b := by
  cases x with
  | error e =>
    constructor
    · intro h
      cases h
    · rintro ⟨a, ha, -⟩
      cases ha
  | ok a =>
    constructor
    · intro h
      exact ⟨a, rfl, h⟩
    · rintro ⟨a', ha, h⟩
      cases ha
      exact h

/-- A bind after a computation that succeeded is the continuation at its value. -/
theorem ok_bind {α β : Type} (a : α) (f : α → Except ε β) : Except.ok a >>= f = f a := rfl

/-- The loop over `n + 1` indices is the loop over `n` followed by the turn at `n`. -/
theorem foldlM_range_succ (step : σ → Nat → Except ε σ) (n : Nat) (s : σ) :
    (List.range (n + 1)).foldlM step s = (List.range n).foldlM step s >>= fun s' => step s' n := by
  rw [List.range_succ, List.foldlM_append]
  simp only [List.foldlM_cons, List.foldlM_nil, bind_pure]

/-- An invariant that each successful turn carries holds after every successful run. -/
theorem foldlM_range_inv (step : σ → Nat → Except ε σ) (Inv : Nat → σ → Prop)
    (hstep : ∀ i s s', Inv i s → step s i = .ok s' → Inv (i + 1) s') :
    ∀ n s r, Inv 0 s → (List.range n).foldlM step s = .ok r → Inv n r := by
  intro n
  induction n with
  | zero =>
    intro s r hs h
    cases h
    exact hs
  | succ n ih =>
    intro s r hs h
    rw [foldlM_range_succ] at h
    -- the run before the last turn succeeded, and so did the last turn
    cases hrun : (List.range n).foldlM step s with
    | error e =>
      rw [hrun] at h
      cases h
    | ok s' =>
      rw [hrun] at h
      exact hstep n s' r (ih s s' hs hrun) h

/-- A loop whose every turn succeeds from the state the turns before it built. -/
theorem foldlM_range_eq_ok (step : σ → Nat → Except ε σ) (g : Nat → σ) (n : Nat)
    (hstep : ∀ i < n, step (g i) i = .ok (g (i + 1))) :
    (List.range n).foldlM step (g 0) = .ok (g n) := by
  induction n with
  | zero => rfl
  | succ n ih =>
    rw [foldlM_range_succ, ih fun i hi => hstep i (by omega)]
    exact hstep n (by omega)

/-- An invariant indexed by the elements done, carried by each successful turn, holds after every
successful run over the rest. -/
theorem foldlM_inv {α : Type} (step : σ → α → Except ε σ) (Inv : List α → σ → Prop)
    (hstep : ∀ done x s s', Inv done s → step s x = .ok s' → Inv (done ++ [x]) s') :
    ∀ (xs done : List α) (s r : σ), Inv done s → xs.foldlM step s = .ok r → Inv (done ++ xs) r := by
  intro xs
  induction xs with
  | nil =>
    intro done s r hs h
    cases h
    rw [List.append_nil]
    exact hs
  | cons x xs ih =>
    intro done s r hs h
    rw [List.foldlM_cons] at h
    cases hx : step s x with
    | error e =>
      rw [hx] at h
      cases h
    | ok s' =>
      rw [hx] at h
      have hrest := ih (done ++ [x]) s' r (hstep done x s s' hs hx) h
      rwa [List.append_assoc, List.singleton_append] at hrest

/-- A loop over `l` in `Option` whose every turn, from a state with the invariant, succeeds and
carries it, succeeds on the whole list. The turn at `x` knows where `x` stands in `l`. -/
theorem foldlM_eq_some {α : Type} (step : σ → α → Option σ) (l : List α)
    (Inv : List α → σ → Prop)
    (hstep : ∀ done x rest s, done ++ x :: rest = l → Inv done s →
      ∃ s', step s x = some s' ∧ Inv (done ++ [x]) s') :
    ∀ (xs done : List α) (s : σ), done ++ xs = l → Inv done s →
      ∃ r, xs.foldlM step s = some r ∧ Inv l r
  | [], done, s, hl, hs => ⟨s, rfl, by rwa [← hl, List.append_nil]⟩
  | x :: xs, done, s, hl, hs => by
    obtain ⟨s', hx, hs'⟩ := hstep done x xs s hl hs
    rw [List.foldlM_cons, hx]
    exact foldlM_eq_some step l Inv hstep xs (done ++ [x]) s' (by rw [← hl]; simp) hs'

end EpvChain.Lib
