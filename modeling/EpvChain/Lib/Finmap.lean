import Mathlib

/-!
# Scanning finite maps and listing finite sets

Go code asks whether some value of a map passes a test by ranging over the map
(`for _, v := range m { if p(v) ... }`); `Finmap.any` is that scan. Mathlib defines it as a
fold over the entries and states nothing about it; `finmap_any_eq_true` and
`finmap_any_eq_false` say what it computes, through `Finmap.lookup`.

Deleting a key forgets what was stored under it (`finmap_erase_insert`).

A map whose values are pairwise distinct (`ValuesInjective`) stays so when a key is deleted or
when a value that is not yet in it is stored.

Go code lists the keys of a map in ascending order by collecting and sorting them; the result is
the sorted list of the key set. `sortedList` computes it by insertion sort, which is structural
and so evaluates by `decide` (`Finset.sort` uses merge sort, which does not), and is
`Finset.sort` (`sortedList_eq_sort`). `sortedValues` reads a map's values in that order: deleting
the least or the greatest key takes its value off the front or the back of the list
(`sortedValues_eq_cons`, `sortedValues_eq_concat`), and a map that keeps the values passing a
test lists them as the filter of the list (`sortedValues_of_lookup`).
-/

namespace EpvChain.Lib

variable {α : Type*} [DecidableEq α]

/-- A fold with `||` is the scan `List.any`. -/
theorem foldl_or_eq {γ : Type*} (g : γ → Bool) (l : List γ) (b : Bool) :
    l.foldl (fun d x => d || g x) b = (b || l.any g) := by
  induction l generalizing b with
  | nil => simp
  | cons x l ih => rw [List.foldl_cons, ih, List.any_cons, Bool.or_assoc]

section Any

variable {β : α → Type*}

/-- A map passes `any f` exactly when one of its entries passes `f`. -/
theorem finmap_any_eq_true {f : ∀ a, β a → Bool} {m : Finmap β} :
    m.any f = true ↔ ∃ a b, m.lookup a = some b ∧ f a b = true := by
  simp only [Finmap.lookup_eq_some_iff]
  -- `any` folds over the entries, which form a list up to order
  rcases m with ⟨⟨l⟩, hl⟩
  change l.foldl (fun d x => d || f x.1 x.2) false = true ↔ _
  rw [foldl_or_eq, Bool.false_or, List.any_eq_true]
  constructor
  · rintro ⟨⟨a, b⟩, hmem, hf⟩
    exact ⟨a, b, hmem, hf⟩
  · rintro ⟨a, b, hmem, hf⟩
    exact ⟨⟨a, b⟩, hmem, hf⟩

/-- A map fails `any f` exactly when every entry fails `f`. -/
theorem finmap_any_eq_false {f : ∀ a, β a → Bool} {m : Finmap β} :
    m.any f = false ↔ ∀ a b, m.lookup a = some b → f a b = false := by
  rw [← Bool.not_eq_true, finmap_any_eq_true]
  simp

end Any

section Injective

variable {β : Type*}

/-- No two keys of the map store the same value. -/
def ValuesInjective (m : Finmap fun _ : α => β) : Prop :=
  ∀ a a' b, m.lookup a = some b → m.lookup a' = some b → a = a'

theorem valuesInjective_empty : ValuesInjective (∅ : Finmap fun _ : α => β) := by
  intro a _ _ ha
  rw [Finmap.lookup_empty] at ha
  cases ha

theorem ValuesInjective.erase {m : Finmap fun _ : α => β} (h : ValuesInjective m) (k : α) :
    ValuesInjective (m.erase k) := by
  intro a a' b ha ha'
  have hk : ∀ {x}, (m.erase k).lookup x = some b → m.lookup x = some b := by
    intro x hx
    by_cases hxk : x = k
    · rw [hxk, Finmap.lookup_erase] at hx
      cases hx
    · rwa [Finmap.lookup_erase_ne hxk] at hx
  exact h a a' b (hk ha) (hk ha')

/-- Storing a value the map does not hold yet keeps the values distinct, whether the key is
new or overwritten. -/
theorem ValuesInjective.insert {m : Finmap fun _ : α => β} (h : ValuesInjective m) (k : α)
    {v : β} (hv : ∀ a, m.lookup a ≠ some v) : ValuesInjective (m.insert k v) := by
  intro a a' b ha ha'
  by_cases hak : a = k
  · by_cases ha'k : a' = k
    · rw [hak, ha'k]
    · rw [hak, Finmap.lookup_insert] at ha
      rw [Finmap.lookup_insert_of_ne _ ha'k, ← ha] at ha'
      exact absurd ha' (hv a')
  · rw [Finmap.lookup_insert_of_ne _ hak] at ha
    by_cases ha'k : a' = k
    · rw [ha'k, Finmap.lookup_insert] at ha'
      rw [← ha'] at ha
      exact absurd ha (hv a)
    · rw [Finmap.lookup_insert_of_ne _ ha'k] at ha'
      exact h a a' b ha ha'

end Injective

section Keys

variable {β : α → Type*}

/-- Deleting a key forgets what was stored under it last. -/
theorem finmap_erase_insert (m : Finmap β) (a : α) (b : β a) :
    (m.insert a b).erase a = m.erase a := by
  apply Finmap.ext_lookup
  intro x
  by_cases hx : x = a
  · subst hx
    rw [Finmap.lookup_erase, Finmap.lookup_erase]
  · rw [Finmap.lookup_erase_ne hx, Finmap.lookup_erase_ne hx, Finmap.lookup_insert_of_ne _ hx]

theorem finmap_lookup_insert {γ : Type*} (m : Finmap fun _ : α => γ) (a x : α) (b : γ) :
    (m.insert a b).lookup x = if x = a then some b else m.lookup x := by
  split_ifs with hx
  · rw [hx, Finmap.lookup_insert]
  · rw [Finmap.lookup_insert_of_ne _ hx]

theorem finmap_lookup_erase (m : Finmap β) (a x : α) :
    (m.erase a).lookup x = if x = a then none else m.lookup x := by
  split_ifs with hx
  · rw [hx, Finmap.lookup_erase]
  · rw [Finmap.lookup_erase_ne hx]

theorem finmap_lookup_of_lookup_erase {γ : Type*} {m : Finmap fun _ : α => γ} {a x : α} {b : γ}
    (h : (m.erase a).lookup x = some b) : m.lookup x = some b := by
  rw [finmap_lookup_erase] at h
  split_ifs at h with hx
  exact h

theorem finmap_lookup_singleton {γ : Type*} (a x : α) (b : γ) :
    (Finmap.singleton a b : Finmap fun _ : α => γ).lookup x = if x = a then some b else none := by
  split_ifs with hx
  · subst hx
    exact Finmap.lookup_singleton_eq
  · exact Finmap.lookup_eq_none.mpr (by rwa [Finmap.mem_singleton])

end Keys

section Sorting

variable {α : Type*} [LinearOrder α]

/-- The elements of a finite set in ascending order, by insertion sort. -/
def sortedList (s : Finset α) : List α :=
  Quot.liftOn s.val (List.insertionSort (· ≤ ·)) fun _ _ h =>
    ((List.perm_insertionSort _ _).trans (h.trans (List.perm_insertionSort _ _).symm)).eq_of_pairwise'
      (List.pairwise_insertionSort _ _) (List.pairwise_insertionSort _ _)

/-- Insertion sort lists a finite set as `Finset.sort` does. -/
theorem sortedList_eq_sort (s : Finset α) : sortedList s = s.sort (· ≤ ·) := by
  obtain ⟨⟨l⟩, hl⟩ := s
  have hperm : (Finset.sort ⟨Quot.mk _ l, hl⟩ (· ≤ ·)).Perm l :=
    Multiset.coe_eq_coe.mp (Finset.sort_eq _ _)
  exact ((List.perm_insertionSort _ _).trans hperm.symm).eq_of_pairwise'
    (List.pairwise_insertionSort _ _) (Finset.pairwise_sort _ _)

@[simp] theorem mem_sortedList {s : Finset α} {a : α} : a ∈ sortedList s ↔ a ∈ s := by
  rw [sortedList_eq_sort, Finset.mem_sort]

theorem sortedList_sortedLT (s : Finset α) : (sortedList s).SortedLT := by
  rw [sortedList_eq_sort]
  exact Finset.sortedLT_sort s

theorem sortedList_nodup (s : Finset α) : (sortedList s).Nodup :=
  (sortedList_sortedLT s).nodup

theorem length_sortedList (s : Finset α) : (sortedList s).length = s.card := by
  rw [sortedList_eq_sort, Finset.length_sort]

/-- An ascending list of exactly the elements of `s` is `sortedList s`. -/
theorem eq_sortedList {l : List α} {s : Finset α} (hl : l.SortedLT) (hmem : ∀ a, a ∈ l ↔ a ∈ s) :
    l = sortedList s :=
  hl.eq_of_mem_iff (sortedList_sortedLT s) fun a => by rw [hmem, mem_sortedList]

theorem mem_erase_iff_of_ne {s : Finset α} {a b : α} (hb : b ≠ a) : b ∈ s.erase a ↔ b ∈ s := by
  rw [Finset.mem_erase, and_iff_right hb]

/-- The least element is listed first, then the others in order. -/
theorem sortedList_eq_cons {s : Finset α} {a : α} (ha : a ∈ s) (hmin : ∀ b ∈ s, a ≤ b) :
    sortedList s = a :: sortedList (s.erase a) := by
  refine (eq_sortedList ?_ fun b => ?_).symm
  · rw [List.sortedLT_iff_pairwise, List.pairwise_cons]
    refine ⟨fun b hb => ?_, List.sortedLT_iff_pairwise.mp (sortedList_sortedLT _)⟩
    rw [mem_sortedList, Finset.mem_erase] at hb
    exact lt_of_le_of_ne (hmin b hb.2) (Ne.symm hb.1)
  · rw [List.mem_cons, mem_sortedList]
    by_cases hba : b = a
    · subst hba
      simpa using ha
    · rw [mem_erase_iff_of_ne hba]
      simp [hba]

/-- The greatest element is listed last, after the others in order. -/
theorem sortedList_eq_concat {s : Finset α} {a : α} (ha : a ∈ s) (hmax : ∀ b ∈ s, b ≤ a) :
    sortedList s = sortedList (s.erase a) ++ [a] := by
  refine (eq_sortedList ?_ fun b => ?_).symm
  · rw [List.sortedLT_iff_pairwise, List.pairwise_append]
    refine ⟨List.sortedLT_iff_pairwise.mp (sortedList_sortedLT _), List.pairwise_singleton _ _,
      fun b hb c hc => ?_⟩
    rw [List.mem_singleton] at hc
    subst hc
    rw [mem_sortedList, Finset.mem_erase] at hb
    exact lt_of_le_of_ne (hmax b hb.2) hb.1
  · rw [List.mem_append, List.mem_singleton, mem_sortedList]
    by_cases hba : b = a
    · subst hba
      simpa using ha
    · rw [mem_erase_iff_of_ne hba]
      simp [hba]

end Sorting

section Values

variable {α β : Type*} [LinearOrder α]

/-- The values of a map in ascending key order: Go code that ranges over a map whose keys it
has sorted reads them so. -/
def sortedValues (m : Finmap fun _ : α => β) : List β := (sortedList m.keys).filterMap m.lookup

theorem mem_sortedValues {m : Finmap fun _ : α => β} {b : β} :
    b ∈ sortedValues m ↔ ∃ a, m.lookup a = some b := by
  simp only [sortedValues, List.mem_filterMap, mem_sortedList, Finmap.mem_keys]
  constructor
  · rintro ⟨a, -, h⟩
    exact ⟨a, h⟩
  · rintro ⟨a, h⟩
    exact ⟨a, Finmap.mem_of_lookup_eq_some h, h⟩

@[simp] theorem sortedValues_empty : sortedValues (∅ : Finmap fun _ : α => β) = [] := by
  simp [sortedValues, Finmap.keys_empty, sortedList_eq_sort]

theorem length_sortedValues (m : Finmap fun _ : α => β) : (sortedValues m).length = m.keys.card := by
  rw [sortedValues, ← length_sortedList m.keys]
  apply List.filterMap_length_eq_length.mpr
  intro a ha
  rw [mem_sortedList, Finmap.mem_keys, ← Finmap.lookup_isSome] at ha
  exact ha

/-- Reading the keys other than `a` of the map less `a` reads the map. -/
theorem filterMap_lookup_erase (m : Finmap fun _ : α => β) (a : α) :
    (sortedList (m.erase a).keys).filterMap (m.erase a).lookup =
      (sortedList (m.keys.erase a)).filterMap m.lookup := by
  rw [Finmap.keys_erase]
  apply List.filterMap_congr
  intro b hb
  rw [mem_sortedList, Finset.mem_erase] at hb
  exact Finmap.lookup_erase_ne hb.1

/-- The value at the least key comes first. -/
theorem sortedValues_eq_cons {m : Finmap fun _ : α => β} {a : α} {b : β} (h : m.lookup a = some b)
    (hmin : ∀ c ∈ m, a ≤ c) : sortedValues m = b :: sortedValues (m.erase a) := by
  have ha : a ∈ m.keys := Finmap.mem_keys.mpr (Finmap.mem_of_lookup_eq_some h)
  rw [sortedValues, sortedValues, filterMap_lookup_erase,
    sortedList_eq_cons ha fun c hc => hmin c (Finmap.mem_keys.mp hc),
    List.filterMap_cons_some (f := fun a => m.lookup a) h]

/-- The value at the greatest key comes last. -/
theorem sortedValues_eq_concat {m : Finmap fun _ : α => β} {a : α} {b : β}
    (h : m.lookup a = some b) (hmax : ∀ c ∈ m, c ≤ a) :
    sortedValues m = sortedValues (m.erase a) ++ [b] := by
  have ha : a ∈ m.keys := Finmap.mem_keys.mpr (Finmap.mem_of_lookup_eq_some h)
  rw [sortedValues, sortedValues, filterMap_lookup_erase,
    sortedList_eq_concat ha fun c hc => hmax c (Finmap.mem_keys.mp hc), List.filterMap_append,
    List.filterMap_cons_some (f := fun a => m.lookup a) h, List.filterMap_nil]

/-- A map that keeps the values of another passing a test lists them in the same order. -/
theorem sortedValues_of_lookup {m m' : Finmap fun _ : α => β} {p : β → Bool}
    (h : ∀ a, m'.lookup a = (m.lookup a).filter p) : sortedValues m' = (sortedValues m).filter p := by
  have hsub : ∀ a, a ∈ m' → a ∈ m := fun a ha => by
    rw [← Finmap.lookup_isSome, h a] at ha
    exact Finmap.lookup_isSome.mp (Option.isSome_of_isSome_filter _ _ ha)
  -- the keys of `m'` are those of `m` that `m'` keeps, in the same order
  have hkeys : sortedList m'.keys = (sortedList m.keys).filter fun a => decide (a ∈ m') := by
    refine (eq_sortedList ?_ fun a => ?_).symm
    · exact List.sortedLT_iff_pairwise.mpr
        ((List.sortedLT_iff_pairwise.mp (sortedList_sortedLT _)).filter _)
    · simp only [List.mem_filter, mem_sortedList, Finmap.mem_keys, decide_eq_true_eq]
      exact ⟨fun h' => h'.2, fun h' => ⟨hsub a h', h'⟩⟩
  rw [sortedValues, sortedValues, hkeys, List.filter_filterMap, List.filterMap_filter]
  apply List.filterMap_congr
  intro a _
  rw [← h a]
  split_ifs with ha
  · rfl
  · exact (Finmap.lookup_eq_none.mpr (by simpa using ha)).symm

end Values

/-! ### Association lists -/

section Entries

variable {β : α → Type*}

/-- In a list whose keys are distinct, erasing a key drops just the entry under it. -/
theorem kerase_eq_filter {a : α} {l : List (Sigma β)} (nd : l.NodupKeys) :
    l.kerase a = l.filter fun e => e.1 ≠ a := by
  induction l with
  | nil => rfl
  | cons e l ih =>
    rw [List.nodupKeys_cons] at nd
    by_cases he : a = e.1
    · subst he
      rw [List.kerase_cons_eq rfl, List.filter_cons_of_neg (by rw [decide_eq_true_iff, not_not]),
        eq_comm, List.filter_eq_self]
      intro x hx
      have hne : x.1 ≠ e.1 := fun h => nd.1 (h ▸ List.mem_keys_of_mem hx)
      simpa using hne
    · rw [List.kerase_cons_ne he, List.filter_cons_of_pos
      (by rw [decide_eq_true_iff]; exact fun h => he h.symm), ih nd.2]

/-- Erasing keys one after another keeps the entries under the other keys. -/
theorem entries_foldl_erase (ks : List α) (s : AList β) :
    (ks.foldl (fun s k => s.erase k) s).entries = s.entries.filter fun e => e.1 ∉ ks := by
  induction ks generalizing s with
  | nil => simp
  | cons k ks ih =>
    rw [List.foldl_cons, ih]
    show (s.entries.kerase k).filter _ = _
    rw [kerase_eq_filter s.nodupKeys, List.filter_filter]
    apply List.filter_congr
    intro e _
    rw [Bool.eq_iff_iff, Bool.and_eq_true, decide_eq_true_iff, decide_eq_true_iff,
      decide_eq_true_iff, List.mem_cons, not_or, and_comm]

/-- A map's entries are the one under a key and those of the map with the key erased. -/
theorem entries_perm_erase {a : α} {b : β a} {s : AList β} (h : s.lookup a = some b) :
    s.entries.Perm (⟨a, b⟩ :: (s.erase a).entries) := by
  have hmem : Sigma.mk a b ∈ s.entries := Iff.mp AList.mem_lookup_iff h
  obtain ⟨b', l₁, l₂, -, hl, he⟩ := List.exists_of_kerase (List.mem_keys_of_mem hmem)
  have hb : b' = b := by
    apply s.nodupKeys.eq_of_mk_mem _ hmem
    rw [hl]
    exact List.mem_append_right _ List.mem_cons_self
  show s.entries.Perm (⟨a, b⟩ :: s.entries.kerase a)
  rw [he, hl, hb]
  exact List.perm_middle

/-- A map's entries are those passing a test and those of the map with their keys erased. -/
theorem entries_perm_filter_erase (P : Sigma β → Bool) (s : AList β) :
    s.entries.Perm (s.entries.filter P ++
      (((s.entries.filter P).map Sigma.fst).foldl (fun s k => s.erase k) s).entries) := by
  rw [entries_foldl_erase]
  -- an entry's key is among the kept keys only if the entry itself was kept: keys are distinct
  have hrest : s.entries.filter (fun e => e.1 ∉ (s.entries.filter P).map Sigma.fst) =
      s.entries.filter fun e => !P e := by
    apply List.filter_congr
    intro e he
    by_cases hP : P e = true
    · rw [hP, Bool.not_true, decide_eq_false_iff_not, not_not]
      exact List.mem_map_of_mem (List.mem_filter.mpr ⟨he, hP⟩)
    · rw [Bool.not_eq_true] at hP
      rw [hP, Bool.not_false, decide_eq_true_iff, List.mem_map]
      rintro ⟨e', he', hkey⟩
      rw [List.mem_filter] at he'
      rw [s.nodupKeys.eq_of_fst_eq he'.1 he hkey, hP] at he'
      exact Bool.false_ne_true he'.2
  rw [hrest]
  exact (List.filter_append_perm P s.entries).symm

end Entries

end EpvChain.Lib
