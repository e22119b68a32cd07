import Mathlib.Data.List.Basic

/-!
# Removing elements of a `container/list` inside its loop

Go walks a `container/list` with

    for el := l.Front(); el != nil; el = el.Next() { ... l.Remove(el) ... }

`Remove` takes `el` out of the list and also clears its links (`el.next = nil`, `el.list = nil`),
so `el.Next()` is `nil` afterwards: a body that removes the element it is at ends the loop there,
and the elements after it are not looked at in that pass. A body may also `return` from the
function that holds the loop, which skips the code after the loop.

`listLoop body pre xs s` is that loop at the first element of `xs`, with the elements `pre`
before it passed and kept; `body x s` says what one round does at `x`. The loop returns the list
as it leaves it, the state, and whether the body returned.

* `listLoop_inv`: a property of the list and the state that every round keeps holds when the
  loop ends; it is the induction every proof about such a loop goes through.
* `listLoop_of_next`: a loop whose rounds all go on keeps the list and folds over it.
-/

namespace EpvChain.Lib

variable {α σ : Type}

/-- What one round of the loop's body does at the element it is at. -/
inductive Round (σ : Type) where
  /-- the element stays; the loop goes on to `el.Next()` -/
  | next (s : σ)
  /-- `l.Remove(el)`: `el.Next()` is then `nil`, and the loop ends -/
  | removed (s : σ)
  /-- the body returns from the function that holds the loop -/
  | returned (s : σ)
  deriving DecidableEq

/-- The loop at the first element of `xs`, with `pre` the elements passed and kept. -/
def listLoop (body : α → σ → Round σ) : List α → List α → σ → List α × σ × Bool
  | pre, [], s => (pre, s, false)
  | pre, x :: rest, s =>
    match body x s with
    | .next s' => listLoop body (pre ++ [x]) rest s'
    | .removed s' => (pre ++ rest, s', false)
    | .returned s' => (pre ++ x :: rest, s', true)

section Inv

variable (body : α → σ → Round σ) (P : List α → σ → Prop)

/-- **The loop's induction rule.** `P l s` is about the whole list `l` and the state; a round at
`x`, with `pre` before it and `rest` after it, keeps `P` whatever it does. -/
theorem listLoop_inv
    (hnext : ∀ pre x rest s s', P (pre ++ x :: rest) s → body x s = .next s' →
      P (pre ++ x :: rest) s')
    (hremoved : ∀ pre x rest s s', P (pre ++ x :: rest) s → body x s = .removed s' →
      P (pre ++ rest) s')
    (hreturned : ∀ pre x rest s s', P (pre ++ x :: rest) s → body x s = .returned s' →
      P (pre ++ x :: rest) s') :
    ∀ (xs pre : List α) (s : σ), P (pre ++ xs) s →
      P (listLoop body pre xs s).1 (listLoop body pre xs s).2.1
  | [], pre, s, h => by simpa [listLoop] using h
  | x :: rest, pre, s, h => by
    rw [listLoop]
    cases hb : body x s with
    | next s' =>
      -- the element joins the passed prefix, and the loop goes on with the same whole list
      apply listLoop_inv hnext hremoved hreturned rest (pre ++ [x]) s'
      simpa using hnext pre x rest s s' h hb
    | removed s' => exact hremoved pre x rest s s' h hb
    | returned s' => exact hreturned pre x rest s s' h hb

end Inv

/-- A loop whose rounds all go on passes every element, keeps the list, and does not return. -/
theorem listLoop_of_next (f : α → σ → σ) :
    ∀ (xs pre : List α) (s : σ),
      listLoop (fun x s => .next (f x s)) pre xs s =
        (pre ++ xs, xs.foldl (fun s x => f x s) s, false)
  | [], pre, s => by simp [listLoop]
  | x :: rest, pre, s => by
    -- the round goes on: `x` joins the passed prefix
    show listLoop _ (pre ++ [x]) rest (f x s) = _
    rw [listLoop_of_next f rest (pre ++ [x]) (f x s)]
    simp

end EpvChain.Lib
