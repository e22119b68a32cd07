import EpvChain.Agreement.Epvdpos.Engine
import EpvChain.Agreement.Epvdpos.Bookkeeping

/-!
# The seal check and the snapshot disagree on the window of early blocks

`verifySeal` and `Archive.apply` both refuse a signer of one of the last
`limit = len(Signers)/2 + 1` blocks, differently. `apply` deletes the block `number - limit` when
`number ≥ limit`, then refuses a signer holding any block (`signedRecently_openRound_iff`);
`verifySeal` refuses one holding a block later than `number - limit` in `uint64`
(`sealedRecently_eq_true_iff`). While `number < limit` that wraps, so `verifySeal` refuses no one
while `apply` refuses every earlier signer (`sealedRecently_eq_false_of_lt_limit`,
`signedRecently_openRound_of_lt_limit`).

So on a fresh chain a signer may seal two of the first blocks: the header passes `verifySeal`
(`verifySeal_ne_unauthorized_of_lt_limit`) and its snapshot cannot be computed
(`apply_singleton_eq_unauthorized_of_lt_limit`); `verifySeal_window_underflow` is the smallest
case. `Seal` itself waits while `number < limit`.
-/

namespace EpvChain.Epvdpos

open EpvChain.Types EpvChain.Lib

namespace Archive

variable (s : Archive) (number : UInt64) (signer : Address)

/-- What the recents loop of `verifySeal` tests. -/
theorem sealedRecently_eq_true_iff :
    s.sealedRecently number signer = true ↔
      ∃ seen, s.recents.lookup seen = some signer ∧ number - s.limit < seen := by
  unfold sealedRecently
  rw [finmap_any_eq_true]
  simp only [Bool.and_eq_true, beq_iff_eq, decide_eq_true_eq]
  constructor
  · rintro ⟨seen, x, hx, rfl, hlt⟩
    exact ⟨seen, hx, hlt⟩
  · rintro ⟨seen, hx, hlt⟩
    exact ⟨seen, signer, hx, rfl, hlt⟩

/-- What the recents check of a round of `apply` tests, after the window slid: a block of the
signer other than the one leaving the window. -/
theorem signedRecently_openRound_iff (config : DPosConfig) :
    (s.openRound config number).signedRecently signer = true ↔
      ∃ seen, s.recents.lookup seen = some signer ∧ ¬(s.limit ≤ number ∧ seen = number - s.limit) := by
  rw [← Bool.not_eq_false, signedRecently_eq_false, recents_openRound]
  simp only [ne_eq, not_forall, not_not]
  split_ifs with hle
  · constructor
    · rintro ⟨seen, hseen⟩
      have hne : seen ≠ number - s.limit := by
        rintro rfl
        rw [Finmap.lookup_erase] at hseen
        cases hseen
      exact ⟨seen, by rwa [Finmap.lookup_erase_ne hne] at hseen, fun h => hne h.2⟩
    · rintro ⟨seen, hseen, hne⟩
      exact ⟨seen, by rwa [Finmap.lookup_erase_ne fun h => hne ⟨hle, h⟩]⟩
  · exact ⟨fun ⟨seen, h⟩ => ⟨seen, h, fun h' => absurd h'.1 hle⟩,
      fun ⟨seen, h, _⟩ => ⟨seen, h⟩⟩

/-- While `number < limit`, `number - limit` wraps above every block the window can hold, and
the loop of `verifySeal` refuses no one. -/
theorem sealedRecently_eq_false_of_lt_limit (hlt : number < s.limit)
    (hkeys : ∀ seen x, s.recents.lookup seen = some x → seen < number)
    (hsmall : s.limit.toNat ≤ 2 ^ 63) : s.sealedRecently number signer = false := by
  rw [← Bool.not_eq_true, sealedRecently_eq_true_iff]
  rintro ⟨seen, hseen, hgt⟩
  have hk := hkeys seen signer hseen
  -- in `uint64`, `number - limit` is `2^64 - (limit - number)`, above `number`
  rw [UInt64.lt_iff_toNat_lt] at hlt hk hgt
  have hsub : (number - s.limit).toNat = 2 ^ 64 - s.limit.toNat + number.toNat := by
    rw [UInt64.toNat_sub]
    exact Nat.mod_eq_of_lt (by omega)
  omega

/-- While `number < limit` nothing leaves the window, and a round of `apply` refuses a signer
of any earlier block. -/
theorem signedRecently_openRound_of_lt_limit (config : DPosConfig) {seen : UInt64}
    (hlt : number < s.limit) (hseen : s.recents.lookup seen = some signer) :
    (s.openRound config number).signedRecently signer = true :=
  (signedRecently_openRound_iff s number signer config).mpr
    ⟨seen, hseen, fun h => absurd h.1 (UInt64.not_le.mpr hlt)⟩

/-- `apply` refuses a one-header run whose signer holds a block of the window, while
`number < limit`. -/
theorem apply_singleton_eq_unauthorized_of_lt_limit (c : Crypto) {header : Header} {seen : UInt64}
    (hn : header.numberU64 = s.number + 1) (hlt : header.numberU64 < s.limit)
    (hsigner : c.ecrecover header = .ok signer) (hseen : s.recents.lookup seen = some signer) :
    s.apply c [header] = .error .unauthorized := by
  have hrecent := signedRecently_openRound_of_lt_limit s _ signer s.config hlt hseen
  have hfold : s.applyHeader c s.config header = .error .unauthorized := by
    unfold applyHeader
    simp only [hsigner]
    split_ifs
    · rfl
    · rfl
  simp only [apply]
  rw [if_neg (by simp [consecutive]), if_neg (by simpa using hn)]
  simp [hfold, bind, Except.bind]

end Archive

/-- While `number < limit` and the window holds only earlier blocks, `verifySeal` refuses an
authorized signer for no reason but the difficulty, whatever blocks it holds. -/
theorem verifySeal_ne_unauthorized_of_lt_limit {σ : Type} (env : Env) (rng : GoRand σ)
    (chain : ChainView) (header : Header) (st : σ) {arch : Archive} {signer : Address}
    (hpos : header.numberU64 ≠ 0)
    (harch : chain.archive (header.numberU64 - 1) header.parentHash [] = .ok arch)
    (hsigner : env.crypto.ecrecover header = .ok signer) (hmem : signer ∈ arch.signers)
    (hlt : header.numberU64 < arch.limit)
    (hkeys : ∀ seen x, arch.recents.lookup seen = some x → seen < header.numberU64)
    (hsmall : arch.limit.toNat ≤ 2 ^ 63) :
    (verifySeal env rng chain header [] st).1 ≠ .error .unauthorized := by
  have hwin := arch.sealedRecently_eq_false_of_lt_limit _ signer hlt hkeys hsmall
  unfold verifySeal
  simp only [hpos, if_false, harch, hsigner, hmem, not_true_eq_false, hwin, Bool.false_eq_true]
  split_ifs <;> simp

/-! ### The smallest case -/

/-- Four signers, nothing signed yet. -/
def windowGenesis : Archive := newArchive ⟨15, 30000⟩ 0 0 [1, 2, 3, 4]

/-- A crypto where every header is signed by signer `1` and hashes to its number. -/
def windowCrypto : Crypto :=
  ⟨fun h => ⟨h.number % 2 ^ (8 * HashLength), Nat.mod_lt _ (Nat.two_pow_pos _)⟩, fun _ => .ok 1⟩

/-- An in-turn header with no vote. -/
def windowHeader (number : Nat) (parent : Hash) : Header :=
  ⟨parent, 0, 0, 0, 0, 0, 2, number, 0, 0, 0, [], 0, 0⟩

/-- **Signer `1` seals blocks 1 and 2 of a four-signer chain.** The archive after block 1 is
reachable, the seal check on block 2 passes the recents test, and the snapshot at block 2
cannot be computed: `apply` refuses the same header as unauthorized. -/
theorem verifySeal_window_underflow :
    ∃ a, windowGenesis.apply windowCrypto [windowHeader 1 0] = .ok a ∧
      Archive.Reachable windowCrypto a ∧
      a.sealedRecently (windowHeader 2 1).numberU64 1 = false ∧
      a.apply windowCrypto [windowHeader 2 1] = .error .unauthorized := by
  refine ⟨_, rfl, .apply (.newArchive ⟨15, 30000⟩ 0 0 [1, 2, 3, 4])
    (show windowGenesis.apply windowCrypto [windowHeader 1 0] = _ from rfl), by decide, by decide⟩

end EpvChain.Epvdpos
