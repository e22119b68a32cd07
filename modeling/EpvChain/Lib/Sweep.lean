import Mathlib

/-!
# Removing elements from a slice inside an index loop

Go removes the elements of a slice that pass a test, acting on each one first, with the idiom

    for i := 0; i < len(xs); i++ {
        if p(xs[i]) { s = f(xs[i], s); xs = append(xs[:i], xs[i+1:]...); i-- }
    }

`sweep p f xs s i` is that loop started at index `i`, with the state it acts on threaded as `s`.
The loop visits each element of the original slice once and in order: the rewinding `i--`
makes the element that moved into slot `i` the next one looked at. Hence (`sweep_eq`) it keeps
the prefix before `i`, filters the rest, and folds `f` over the removed elements in order.
The loop is written by structural recursion on the number of elements still to look at, which
each round lowers by one, so it evaluates by `decide`.

The other removal idiom, the first-match loop that breaks after removing

    for i, x := range xs { if p(x) { ...; xs = append(xs[:i], xs[i+1:]...); break } }

is `List.eraseP p` acting on `List.find? p`; `eraseP_of_find?_eq_some` splits the slice around
the element both pick.

`copySlice dst src` is the builtin `copy(dst, src)`, seen through the contents of `dst`.
-/

namespace EpvChain.Lib

variable {α σ : Type}

/-- The slice-removal loop from index `i`, with `n` the number of elements still to look at:
each round either removes the element at `i` or moves past it, and both leave one fewer. -/
def sweepAux (p : α → Bool) (f : α → σ → σ) : Nat → List α → σ → Nat → List α × σ
  | 0, xs, s, _ => (xs, s)
  | n + 1, xs, s, i =>
    if h : i < xs.length then
      if p xs[i] then sweepAux p f n (xs.eraseIdx i) (f xs[i] s) i
      else sweepAux p f n xs s (i + 1)
    else (xs, s)

/-- The slice-removal loop, from index `i`. -/
def sweep (p : α → Bool) (f : α → σ → σ) (xs : List α) (s : σ) (i : Nat) : List α × σ :=
  sweepAux p f (xs.length - i) xs s i

/-- Removing the element at `i` leaves the suffix after it in place from `i` on. -/
theorem drop_eraseIdx_of_lt {xs : List α} {i : Nat} (h : i < xs.length) :
    (xs.eraseIdx i).drop i = xs.drop (i + 1) := by
  have hlen : (xs.take i).length = i := List.length_take_of_le (Nat.le_of_lt h)
  rw [List.eraseIdx_eq_take_drop_succ, List.drop_append, hlen, Nat.sub_self, List.drop_zero,
    List.drop_of_length_le (by omega), List.nil_append]

/-- **The loop is a filter and a fold**, for any count `n` of elements still to look at. -/
theorem sweepAux_eq (p : α → Bool) (f : α → σ → σ) :
    ∀ (n : Nat) (xs : List α) (s : σ) (i : Nat), xs.length - i = n →
      sweepAux p f n xs s i =
        (xs.take i ++ (xs.drop i).filter (fun x => !p x),
          ((xs.drop i).filter p).foldl (fun s x => f x s) s)
  | 0, xs, s, i, hn => by
    have hd : xs.drop i = [] := List.drop_eq_nil_of_le (by omega)
    simp [sweepAux, hd, List.take_of_length_le (by omega : xs.length ≤ i)]
  | n + 1, xs, s, i, hn => by
    have h : i < xs.length := by omega
    have hd : xs.drop i = xs[i] :: xs.drop (i + 1) := List.drop_eq_getElem_cons h
    rw [sweepAux, dif_pos h]
    by_cases hp : p xs[i] = true
    · -- the element at `i` passes: it is folded in and removed, the index stays
      have ht : (xs.eraseIdx i).take i = xs.take i :=
        List.take_eraseIdx_eq_take_of_le xs i i (Nat.le_refl i)
      rw [if_pos hp, sweepAux_eq p f n _ _ i (by rw [List.length_eraseIdx_of_lt h]; omega), ht,
        drop_eraseIdx_of_lt h, hd, List.filter_cons, List.filter_cons]
      simp only [hp, Bool.not_true, if_true, List.foldl_cons]
      rfl
    · -- the element at `i` fails: it is kept and the index moves on
      have hp' : p xs[i] = false := by simpa using hp
      rw [if_neg hp, sweepAux_eq p f n xs s (i + 1) (by omega), hd,
        List.take_succ_eq_append_getElem h, List.filter_cons, List.filter_cons]
      simp only [hp', Bool.not_false, if_true, Bool.false_eq_true, if_false, List.append_assoc,
        List.singleton_append]

/-- From index `i` the loop keeps `xs.take i`, keeps the elements of `xs.drop i` that fail `p`,
and applies `f` to those that pass, in order. -/
theorem sweep_eq (p : α → Bool) (f : α → σ → σ) (xs : List α) (s : σ) (i : Nat) :
    sweep p f xs s i =
      (xs.take i ++ (xs.drop i).filter (fun x => !p x),
        ((xs.drop i).filter p).foldl (fun s x => f x s) s) :=
  sweepAux_eq p f _ xs s i rfl

/-- From the start, the loop keeps exactly the elements that fail the test. -/
theorem sweep_zero (p : α → Bool) (f : α → σ → σ) (xs : List α) (s : σ) :
    sweep p f xs s 0 = (xs.filter (fun x => !p x), (xs.filter p).foldl (fun s x => f x s) s) := by
  simp [sweep_eq]

/-- A map of the state that commutes with every action commutes with the whole loop. -/
theorem sweep_map_state (p : α → Bool) (f : α → σ → σ) (g : σ → σ) (xs : List α) (s : σ)
    (i : Nat) (hfg : ∀ x s, f x (g s) = g (f x s)) :
    sweep p f xs (g s) i = ((sweep p f xs s i).1, g (sweep p f xs s i).2) := by
  rw [sweep_eq, sweep_eq]
  simp only [Prod.mk.injEq, true_and]
  exact List.foldl_hom g fun s x => hfg x s

/-- The first-match loop removes the element `find?` picks: the slice splits around it, and
nothing before it passes the test. -/
theorem eraseP_of_find?_eq_some {p : α → Bool} {xs : List α} {x : α} (h : xs.find? p = some x) :
    ∃ l₁ l₂, xs = l₁ ++ x :: l₂ ∧ xs.eraseP p = l₁ ++ l₂ ∧ ∀ a ∈ l₁, p a = false := by
  obtain ⟨hx, l₁, l₂, rfl, hl₁⟩ := List.find?_eq_some_iff_append.mp h
  have hne : ∀ a ∈ l₁, ¬p a := fun a ha => by simpa using hl₁ a ha
  refine ⟨l₁, l₂, rfl, ?_, fun a ha => by simpa using hl₁ a ha⟩
  rw [List.eraseP_append_right _ hne, List.eraseP_cons_of_pos hx]

/-- Up to order, a slice is the element the first-match loop removes and what it leaves. -/
theorem perm_cons_eraseP_of_find? {p : α → Bool} {xs : List α} {x : α}
    (h : xs.find? p = some x) : xs.Perm (x :: xs.eraseP p) := by
  obtain ⟨l₁, l₂, rfl, he, -⟩ := eraseP_of_find?_eq_some h
  rw [he]
  exact List.perm_middle

/-- `copy(dst, src)`: the first `min(len(dst), len(src))` elements of `dst` are overwritten by
those of `src`; the result is what `dst` holds afterwards. -/
def copySlice (dst src : List α) : List α :=
  src.take dst.length ++ dst.drop src.length

/-- `copy` never changes the destination's length. -/
@[simp] theorem length_copySlice (dst src : List α) : (copySlice dst src).length = dst.length := by
  rw [copySlice, List.length_append, List.length_take, List.length_drop]
  omega

end EpvChain.Lib
