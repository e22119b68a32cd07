import Mathlib

/-!
# An index kept beside a table of slots

A container that stores keys in numbered slots often keeps a map from each key to its slot.
`Indexes idx slot` says that the map is exactly the inverse of the table. `Indexes.update` is
how the pair changes together when one key's slot is set or emptied, and `valueAt_update` is
what the pair then stands for: a map from keys to values, changed at that key alone.
-/

namespace EpvChain.Lib

variable {κ V : Type}

/-- `idx` is the inverse of the table `slot`: a key is indexed at `p` exactly when slot `p` holds
it. -/
def Indexes (idx : κ → Option Nat) (slot : Nat → Option (κ × V)) : Prop :=
  ∀ x p, idx x = some p ↔ ∃ v, slot p = some (x, v)

/-- The value the pair keeps for `x`: that in its slot, `d` when it has none. -/
def valueAt (idx : κ → Option Nat) (slot : Nat → Option (κ × V)) (d : V) (x : κ) : V :=
  match idx x with
  | some p => ((slot p).map Prod.snd).getD d
  | none => d

section Read

variable {idx : κ → Option Nat} {slot : Nat → Option (κ × V)}

/-- No key sits in two slots. -/
theorem Indexes.slot_inj (h : Indexes idx slot) {x : κ} {p q : Nat} {v w : V}
    (hp : slot p = some (x, v)) (hq : slot q = some (x, w)) : p = q :=
  Option.some.inj (((h x p).mpr ⟨v, hp⟩).symm.trans ((h x q).mpr ⟨w, hq⟩))

/-- The value kept for a key is the one in its slot. -/
theorem Indexes.valueAt_eq (h : Indexes idx slot) {x : κ} {p : Nat} {v : V}
    (hp : slot p = some (x, v)) (d : V) : valueAt idx slot d x = v := by
  simp [valueAt, (h x p).mpr ⟨v, hp⟩, hp]

/-- A key kept with a value other than `d` sits in a slot under it. -/
theorem Indexes.exists_slot (h : Indexes idx slot) {x : κ} {d : V} (hx : valueAt idx slot d x ≠ d) :
    ∃ p, slot p = some (x, valueAt idx slot d x) := by
  cases hi : idx x with
  | none => simp [valueAt, hi] at hx
  | some p =>
    obtain ⟨v, hv⟩ := (h x p).mp hi
    exact ⟨p, by rw [h.valueAt_eq hv]; exact hv⟩

end Read

section Update

variable {idx idx' : κ → Option Nat} {slot slot' : Nat → Option (κ × V)} {x : κ} {p : Nat}
  {e : Option V}

/-- A slot that the key `x` owns or that is free holds no other key. -/
theorem Indexes.eq_of_slot (h : Indexes idx slot) (hp : idx x = some p ∨ idx x = none ∧ slot p = none)
    {y : κ} {v : V} (hy : slot p = some (y, v)) : y = x := by
  rcases hp with hp | ⟨-, hp⟩
  · obtain ⟨v', hv'⟩ := (h x p).mp hp
    rw [hy] at hv'
    exact (Prod.mk.inj (Option.some.inj hv')).1
  · rw [hp] at hy
    cases hy

variable [DecidableEq κ]

/-- Setting or emptying the slot `p` that `x` owns, or a free one, and indexing `x` there or
nowhere, keeps the map the inverse of the table. -/
theorem Indexes.update (h : Indexes idx slot)
    (hp : idx x = some p ∨ idx x = none ∧ slot p = none)
    (hslot : ∀ q, slot' q = if q = p then e.map (x, ·) else slot q)
    (hidx : idx' = Function.update idx x (e.map fun _ => p)) :
    Indexes idx' slot' := by
  intro y q
  rw [hidx, hslot]
  by_cases hy : y = x
  · subst hy
    rw [Function.update_self]
    by_cases hq : q = p
    · subst hq
      cases e <;> simp
    · -- another slot that held `y` would be indexed for it, which it is not
      simp only [if_neg hq]
      constructor
      · intro he
        cases e <;> simp at he
        exact absurd he.symm hq
      · rintro ⟨v, hv⟩
        rcases hp with hp | ⟨hp, -⟩ <;> rw [(h y q).mpr ⟨v, hv⟩] at hp <;> cases hp
        exact absurd rfl hq
  · rw [Function.update_of_ne hy]
    by_cases hq : q = p
    · -- slot `p` is `x`'s or free, so it is not `y`'s before or after
      subst hq
      rw [if_pos rfl]
      constructor
      · intro hyq
        obtain ⟨v, hv⟩ := (h y q).mp hyq
        exact absurd (h.eq_of_slot hp hv) hy
      · rintro ⟨v, hv⟩
        cases e <;> simp at hv
        exact absurd hv.1.symm hy
    · rw [if_neg hq]
      exact h y q

/-- After such a change the pair keeps for `x` its new value, `d` for an emptied slot, and for
every other key what it kept. -/
theorem Indexes.valueAt_update (h : Indexes idx slot)
    (hp : idx x = some p ∨ idx x = none ∧ slot p = none)
    (hslot : ∀ q, slot' q = if q = p then e.map (x, ·) else slot q)
    (hidx : idx' = Function.update idx x (e.map fun _ => p)) (d : V) :
    valueAt idx' slot' d = Function.update (valueAt idx slot d) x (e.getD d) := by
  funext y
  rw [hidx]
  by_cases hy : y = x
  · subst hy
    cases e <;> simp [valueAt, hslot]
  · rw [Function.update_of_ne hy]
    simp only [valueAt, Function.update_of_ne hy]
    cases hyq : idx y with
    | none => rfl
    | some q =>
      -- `y`'s slot is not `p`, which is `x`'s or free
      have hq : q ≠ p := by
        rintro rfl
        obtain ⟨v, hv⟩ := (h y q).mp hyq
        exact hy (h.eq_of_slot hp hv)
      simp only [hslot, if_neg hq]

end Update

end EpvChain.Lib
