import Mathlib
import EpvChain.Agreement.Epvdpos.Archive

/-!
# Replaying headers in pieces (`Archive.apply`)

`DPos.archive` rebuilds the snapshot of a block from whichever ancestor snapshot it finds
first, in the LRU cache, on disk or at genesis, and replays the headers after it. That is
sound only if replay does not depend on where the run is cut:

* `foldlM_applyHeader_withHead` — the loop of `apply` never reads the block number and hash,
  so it commutes with setting them;
* `consecutive_getLast` — a consecutive run of `n + 1` headers ends `n` after it starts
  (in `uint64` arithmetic);
* `consecutive_append_iff`, `junction_iff` — where a run may be cut: the second piece starts
  one after the archive the first piece leaves;
* `apply_append_iff` (from `apply_append_of_ok` and `apply_split_of_ok`) — replaying `h₁` then
  `h₂` succeeds exactly when replaying `h₁ ++ h₂` does, and both give the same archive: number,
  hash, signers, recents, votes and tallies.
-/

namespace EpvChain.Epvdpos.Archive

open EpvChain.Types

variable (c : Crypto) (config : DPosConfig)

/-- The loop of `apply` commutes with setting the block number and hash. -/
theorem foldlM_applyHeader_withHead (hs : List Header) (s : Archive) (k : DPosConfig) (n : UInt64)
    (x : Hash) :
    hs.foldlM (applyHeader c config) (s.withHead k n x) =
      (hs.foldlM (applyHeader c config) s).map (·.withHead k n x) := by
  induction hs generalizing s with
  | nil => rfl
  | cons h hs ih =>
    simp only [List.foldlM_cons, applyHeader_withHead]
    cases s.applyHeader c config h with
    | error e => rfl
    | ok s' => exact ih s'

/-- The loop of `apply` leaves the configuration, block number and hash where they were. -/
theorem foldlM_applyHeader_head {hs : List Header} {s s' : Archive}
    (h : hs.foldlM (applyHeader c config) s = .ok s') :
    s'.withHead s.config s.number s.hash = s' := by
  have e := foldlM_applyHeader_withHead c config hs s s.config s.number s.hash
  rw [withHead_self, h] at e
  exact (Except.ok.inj e).symm

/-- A consecutive run ends `rest.length` after its first header. -/
theorem consecutive_getLast (first : Header) (rest : List Header)
    (h : consecutive (first :: rest)) :
    ((first :: rest).getLast (List.cons_ne_nil _ _)).numberU64 =
      first.numberU64 + UInt64.ofNat rest.length := by
  induction rest generalizing first with
  | nil => simp
  | cons b rest ih =>
    obtain ⟨hb, hrest⟩ := List.isChain_cons_cons.mp h
    rw [List.getLast_cons_cons, ih b hrest, hb, List.length_cons, UInt64.ofNat_add]
    change _ = _ + (_ + 1)
    ac_rfl

/-- The result of a successful `apply` on a non-empty run: the loop from the receiver, then the
new number and hash. -/
theorem apply_cons_eq_ok {s a : Archive} {first : Header} {rest : List Header}
    (h : s.apply c (first :: rest) = .ok a) :
    consecutive (first :: rest) ∧ first.numberU64 = s.number + 1 ∧
      ∃ x, (first :: rest).foldlM (applyHeader c s.config) s = .ok x ∧
        a = x.withHead s.config (s.number + UInt64.ofNat (rest.length + 1))
          (c.hash ((first :: rest).getLast (List.cons_ne_nil _ _))) := by
  simp only [apply, copy_eq] at h
  split_ifs at h with h₁ h₂
  cases hx : (first :: rest).foldlM (applyHeader c s.config) s with
  | error e => rw [hx] at h; cases h
  | ok x =>
    rw [hx] at h
    have hhead := foldlM_applyHeader_head c s.config hx
    have hxn : x.number = s.number := by rw [← hhead]; rfl
    have hxc : x.config = s.config := by rw [← hhead]; rfl
    refine ⟨by simpa using h₁, by simpa using h₂, x, rfl, ?_⟩
    cases h
    rw [hxn, ← hxc]
    rfl

/-- The converse of `apply_cons_eq_ok`. -/
theorem apply_cons_of_fold {s x : Archive} {first : Header} {rest : List Header}
    (hc : consecutive (first :: rest)) (hn : first.numberU64 = s.number + 1)
    (hx : (first :: rest).foldlM (applyHeader c s.config) s = .ok x) :
    s.apply c (first :: rest) =
      .ok (x.withHead s.config (s.number + UInt64.ofNat (rest.length + 1))
        (c.hash ((first :: rest).getLast (List.cons_ne_nil _ _)))) := by
  have hhead := foldlM_applyHeader_head c s.config hx
  have hxn : x.number = s.number := by rw [← hhead]; rfl
  have hxc : x.config = s.config := by rw [← hhead]; rfl
  rw [apply, if_neg (not_not.mpr hc), if_neg (not_not.mpr hn), copy_eq, hx]
  show Except.ok { x with number := x.number + _, hash := _ } = _
  rw [hxn, ← hxc]
  rfl

/-- Two consecutive runs join into one exactly when the first header of the second comes one
after the last header of the first. -/
theorem consecutive_append_iff (f₁ f₂ : Header) (r₁ r₂ : List Header) :
    consecutive (f₁ :: r₁ ++ f₂ :: r₂) ↔
      consecutive (f₁ :: r₁) ∧ consecutive (f₂ :: r₂) ∧
        ((f₁ :: r₁).getLast (List.cons_ne_nil _ _)).numberU64 + 1 = f₂.numberU64 := by
  unfold consecutive
  rw [List.isChain_append, List.getLast?_eq_some_getLast (List.cons_ne_nil _ _), List.head?_cons]
  simp only [Option.mem_def, Option.some.injEq, forall_eq']
  exact ⟨fun ⟨h₁, h₂, h₃⟩ => ⟨h₁, h₂, h₃.symm⟩, fun ⟨h₁, h₂, h₃⟩ => ⟨h₁, h₂, h₃.symm⟩⟩

/-- The number a joined run ends on is the number the second piece ends on. -/
theorem number_add_length_append (n : UInt64) (f₂ : Header) (r₁ r₂ : List Header) :
    n + UInt64.ofNat ((r₁ ++ f₂ :: r₂).length + 1) =
      n + UInt64.ofNat (r₁.length + 1) + UInt64.ofNat (r₂.length + 1) := by
  simp only [List.length_append, List.length_cons, UInt64.ofNat_add]
  ac_rfl

/-- The last header of a joined run is the last header of the second piece. -/
theorem getLast_cons_append (f₁ f₂ : Header) (r₁ r₂ : List Header) :
    (f₁ :: (r₁ ++ f₂ :: r₂)).getLast (List.cons_ne_nil _ _) =
      (f₂ :: r₂).getLast (List.cons_ne_nil _ _) := by
  simp only [← List.cons_append]
  exact List.getLast_append_of_ne_nil _ (List.cons_ne_nil _ _)

/-- Where the second piece of a run must start: one after the number the first piece ends on. -/
theorem junction_iff (n : UInt64) (f₁ f₂ : Header) (r₁ : List Header)
    (hc₁ : consecutive (f₁ :: r₁)) (hn₁ : f₁.numberU64 = n + 1) :
    ((f₁ :: r₁).getLast (List.cons_ne_nil _ _)).numberU64 + 1 = f₂.numberU64 ↔
      f₂.numberU64 = n + UInt64.ofNat (r₁.length + 1) + 1 := by
  rw [consecutive_getLast f₁ r₁ hc₁, hn₁, UInt64.ofNat_add]
  change _ ↔ _ = _ + (_ + 1) + 1
  constructor
  · intro h; rw [← h]; ac_rfl
  · intro h; rw [h]; ac_rfl

/-- Replaying `h₁` then `h₂` succeeds with `a₂` only if replaying `h₁ ++ h₂` does. -/
theorem apply_append_of_ok {s a₁ a₂ : Archive} {h₁ h₂ : List Header}
    (e₁ : s.apply c h₁ = .ok a₁) (e₂ : a₁.apply c h₂ = .ok a₂) :
    s.apply c (h₁ ++ h₂) = .ok a₂ := by
  rcases h₁ with _ | ⟨f₁, r₁⟩
  · cases e₁; exact e₂
  rcases h₂ with _ | ⟨f₂, r₂⟩
  · cases e₂; rwa [List.append_nil]
  obtain ⟨hc₁, hn₁, x, hx, rfl⟩ := apply_cons_eq_ok c e₁
  obtain ⟨hc₂, hn₂, y, hy, rfl⟩ := apply_cons_eq_ok c e₂
  -- the second loop ran from `x` with a new head; strip the head off
  rw [config_withHead, foldlM_applyHeader_withHead] at hy
  cases hy' : (f₂ :: r₂).foldlM (applyHeader c s.config) x with
  | error e => rw [hy'] at hy; cases hy
  | ok y' =>
    rw [hy'] at hy
    cases hy
    have hc := (consecutive_append_iff f₁ f₂ r₁ r₂).mpr
      ⟨hc₁, hc₂, (junction_iff s.number f₁ f₂ r₁ hc₁ hn₁).mpr (by rw [hn₂, number_withHead])⟩
    rw [List.cons_append] at hc ⊢
    rw [apply_cons_of_fold c hc hn₁ (by rw [← List.cons_append, List.foldlM_append, hx]; exact hy'),
      number_add_length_append, getLast_cons_append]
    rfl

/-- Replaying `h₁ ++ h₂` succeeds with `a` only if replaying `h₁` and then `h₂` does. -/
theorem apply_split_of_ok {s a : Archive} {h₁ h₂ : List Header}
    (e : s.apply c (h₁ ++ h₂) = .ok a) : ∃ a₁, s.apply c h₁ = .ok a₁ ∧ a₁.apply c h₂ = .ok a := by
  rcases h₁ with _ | ⟨f₁, r₁⟩
  · exact ⟨s, rfl, e⟩
  rcases h₂ with _ | ⟨f₂, r₂⟩
  · rw [List.append_nil] at e; exact ⟨a, e, rfl⟩
  rw [List.cons_append] at e
  obtain ⟨hc, hn₁, x, hx, rfl⟩ := apply_cons_eq_ok c e
  rw [← List.cons_append] at hc hx
  obtain ⟨hc₁, hc₂, hj⟩ := (consecutive_append_iff f₁ f₂ r₁ r₂).mp hc
  rw [List.foldlM_append] at hx
  cases hx₁ : (f₁ :: r₁).foldlM (applyHeader c s.config) s with
  | error e => rw [hx₁] at hx; cases hx
  | ok x₁ =>
    rw [hx₁] at hx
    have hx₂ : (f₂ :: r₂).foldlM (applyHeader c s.config) x₁ = .ok x := hx
    refine ⟨_, apply_cons_of_fold c hc₁ hn₁ hx₁, ?_⟩
    have hn₂ := (junction_iff s.number f₁ f₂ r₁ hc₁ hn₁).mp hj
    have hfold := foldlM_applyHeader_withHead c s.config (f₂ :: r₂) x₁ s.config
      (s.number + UInt64.ofNat (r₁.length + 1)) (c.hash ((f₁ :: r₁).getLast (List.cons_ne_nil _ _)))
    rw [hx₂] at hfold
    rw [apply_cons_of_fold c hc₂ (by rw [hn₂, number_withHead]) hfold,
      number_add_length_append, getLast_cons_append]
    rfl

/-- **Replay does not depend on where the run is cut.** Replaying `h₁ ++ h₂` succeeds with `a`
exactly when replaying `h₁` and then `h₂` does: the snapshot reached is the same in every
field. -/
theorem apply_append_iff {s a : Archive} {h₁ h₂ : List Header} :
    s.apply c (h₁ ++ h₂) = .ok a ↔ ∃ a₁, s.apply c h₁ = .ok a₁ ∧ a₁.apply c h₂ = .ok a :=
  ⟨apply_split_of_ok c, fun ⟨_, e₁, e₂⟩ => apply_append_of_ok c e₁ e₂⟩

end EpvChain.Epvdpos.Archive
