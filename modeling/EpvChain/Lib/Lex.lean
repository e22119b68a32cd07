import Mathlib.Data.List.Basic

/-!
# Lexicographic order on lists, prefixes, and filters of sorted lists

`List.lt` orders lists lexicographically, a proper prefix first. A preorder walk of a tree whose
edges are labelled by lists visits paths in this order, and two facts carry the proof: a list
below a bound that is not a prefix of it stays below the bound whatever is appended to it, and
two lists that part at an element stay ordered by that element whatever either is extended by.

Over a list sorted by a relation, `takeWhile` and `dropWhile` of a predicate that no later element
can fall back into are `filter`s, and the first element `find?` returns heads the filter of what follows it.
-/

namespace EpvChain.Lib

section Lex

variable {α : Type*} [LT α]

/-- `a` and `b` part after a common stem, `a` with the smaller element there. -/
def Diverges (a b : List α) : Prop :=
  ∃ c x y s u, x < y ∧ a = c ++ x :: s ∧ b = c ++ y :: u

theorem Diverges.append {a b : List α} (h : Diverges a b) (s u : List α) :
    Diverges (a ++ s) (b ++ u) := by
  obtain ⟨c, x, y, s', u', hxy, rfl, rfl⟩ := h
  exact ⟨c, x, y, s' ++ s, u' ++ u, hxy, by simp, by simp⟩

theorem Diverges.mono {a b a' b' : List α} (h : Diverges a b) (ha : a <+: a') (hb : b <+: b') :
    Diverges a' b' := by
  obtain ⟨s, rfl⟩ := ha
  obtain ⟨u, rfl⟩ := hb
  exact h.append s u

theorem Diverges.lt {a b : List α} (h : Diverges a b) : a < b := by
  obtain ⟨c, x, y, s, u, hxy, rfl, rfl⟩ := h
  apply List.append_left_lt
  exact List.cons_lt_cons_iff.mpr (.inl hxy)

theorem diverges_append_singleton (c : List α) {x y : α} (h : x < y) :
    Diverges (c ++ [x]) (c ++ [y]) :=
  ⟨c, x, y, [], [], h, rfl, rfl⟩

/-- A list below `b` that is not a prefix of `b` parts from it at a smaller element, so nothing
appended to it reaches `b`. -/
theorem append_lt_of_not_prefix :
    ∀ {a b : List α}, a < b → ¬ a <+: b → ∀ s : List α, a ++ s < b
  | [], _, _, hpre, _ => absurd List.nil_prefix hpre
  | _ :: _, [], hlt, _, _ => absurd hlt (List.not_lt_nil _)
  | x :: a, y :: b, hlt, hpre, s => by
    rcases List.cons_lt_cons_iff.mp hlt with hxy | ⟨rfl, hab⟩
    · exact List.cons_lt_cons_iff.mpr (.inl hxy)
    · have hpre' : ¬ a <+: b := fun h => hpre ((List.prefix_cons_inj x).mpr h)
      exact List.cons_lt_cons_iff.mpr (.inr ⟨rfl, append_lt_of_not_prefix hab hpre' s⟩)

end Lex

section Sorted

variable {β : Type*} {r : β → β → Prop}

/-- Over a list sorted by `r`, a predicate that fails at `a` fails at everything `r`-above `a`
is dropped from the front exactly where it holds. -/
theorem dropWhile_eq_filter {p : β → Bool} (hp : ∀ a b, p a = false → r a b → p b = false) :
    ∀ {l : List β}, l.Pairwise r → l.dropWhile p = l.filter fun x => !p x
  | [], _ => rfl
  | a :: l, hl => by
    obtain ⟨ha, hl⟩ := List.pairwise_cons.mp hl
    by_cases hpa : p a = true
    · rw [List.dropWhile_cons_of_pos hpa, dropWhile_eq_filter hp hl]
      simp [hpa]
    · have hpa : p a = false := by simpa using hpa
      have hrest : ∀ b ∈ l, (!p b) = true := fun b hb => by simp [hp a b hpa (ha b hb)]
      rw [List.dropWhile_cons_of_neg (by simp [hpa]), List.filter_cons_of_pos (by simp [hpa]),
        List.filter_eq_self.mpr hrest]

/-- Under the same hypothesis, the part taken from the front is the filter by the predicate. -/
theorem takeWhile_eq_filter {p : β → Bool} (hp : ∀ a b, p a = false → r a b → p b = false) :
    ∀ {l : List β}, l.Pairwise r → l.takeWhile p = l.filter p
  | [], _ => rfl
  | a :: l, hl => by
    obtain ⟨ha, hl⟩ := List.pairwise_cons.mp hl
    by_cases hpa : p a = true
    · rw [List.takeWhile_cons_of_pos hpa, takeWhile_eq_filter hp hl, List.filter_cons_of_pos hpa]
    · have hpa : p a = false := by simpa using hpa
      rw [List.takeWhile_cons_of_neg (by simp [hpa]), List.filter_cons_of_neg (by simp [hpa]),
        eq_comm, List.filter_eq_nil_iff]
      intro b hb
      simp [hp a b hpa (ha b hb)]

/-- Over a list sorted by an irreflexive `r`, the first element that satisfies `p` heads the
filter by `p`, and the rest of the filter is what satisfies `p` above it. -/
theorem filter_eq_cons_of_find? [DecidableRel r] {l : List β} (hl : l.Pairwise r)
    {p : β → Bool} {i : β} (h : l.find? p = some i) (hi : ¬ r i i) :
    l.filter p = i :: l.filter fun j => p j && decide (r i j) := by
  obtain ⟨hpi, as, bs, rfl, has⟩ := List.find?_eq_some_iff_append.mp h
  have hbs : ∀ b ∈ bs, r i b := (List.pairwise_cons.mp (List.pairwise_append.mp hl).2.1).1
  have hfa : as.filter p = [] := List.filter_eq_nil_iff.mpr fun a ha => by simpa using has a ha
  have hfa' : (as.filter fun j => p j && decide (r i j)) = [] :=
    List.filter_eq_nil_iff.mpr fun a ha => by simp [by simpa using has a ha]
  have hfb : (bs.filter fun j => p j && decide (r i j)) = bs.filter p :=
    List.filter_congr fun b hb => by simp [hbs b hb]
  simp [List.filter_append, hfa, hfa', hfb, hpi, hi]

end Sorted

end EpvChain.Lib
