import EpvChain.Agreement.Epvdpos.Replay
import EpvChain.Agreement.Epvdpos.Bookkeeping
import EpvChain.Agreement.Epvdpos.Engine
import EpvChain.Agreement.Epvdpos.Turn

/-!
# The recents window leaves a signer in turn (`agreement/epvdpos/archive.go`)

`Archive.inturn` draws an index below the number of able signers, those outside the window of
recent blocks the next block sees; with none, `rand.Intn(0)` panics (`Archive.inturnPanics`).
The window holds at most one block per number; `apply` evicts the block leaving it before each
round, and again after it drops a signer.

* `keysIn_of_reachableUnwrapped` — when a run's block numbers never wrap around `2 ^ 64`, the
  recents hold only blocks of the last `len(Signers)/2 + 1` numbers (`keysIn_evictRecent`,
  `keysIn_settle`, `keysIn_applyHeader`).
* `ableSigners_length_pos` — so an able signer is left whenever the archive has a signer.
* `inturn_exactly_one` — then exactly one address, an able signer, is in turn.
* `ableSigners_empty_selfDrop` — the only signer of a genesis archive votes itself out in block
  1, and the archive `apply` returns has no able signer for block 2.

After a wrap, `number >= limit` fails and nothing is evicted any more, which is why the
hypothesis on the numbers is there.
-/

namespace EpvChain.Epvdpos

open EpvChain.Types EpvChain.Lib

namespace Archive

/-- `len(Signers)/2 + 1` as a natural number; `limit` is its `uint64`. -/
def windowLen (s : Archive) : Nat := s.signers.card / 2 + 1

/-- Every block held in the recents is numbered in `[lo, hi)`. -/
def KeysIn (recents : RecentMap) (lo hi : Nat) : Prop :=
  ∀ k ∈ recents, lo ≤ k.toNat ∧ k.toNat < hi

theorem KeysIn.mono {r : RecentMap} {lo hi lo' hi' : Nat} (h : KeysIn r lo hi) (hlo : lo' ≤ lo)
    (hhi : hi ≤ hi') : KeysIn r lo' hi' := by
  intro k hk
  have := h k hk
  omega

theorem keysIn_empty (lo hi : Nat) : KeysIn ∅ lo hi := by
  intro k hk
  exact absurd hk Finmap.notMem_empty

/-- The blocks of a window `[lo, hi)` are at most `hi - lo`. -/
theorem card_keys_le {r : RecentMap} {lo hi : Nat} (h : KeysIn r lo hi) : r.keys.card ≤ hi - lo := by
  rw [← Nat.card_Ico lo hi]
  apply Finset.card_le_card_of_injOn UInt64.toNat
  · intro k hk
    rw [Finset.mem_coe, Finset.mem_Ico]
    exact h k (Finmap.mem_keys.mp hk)
  · intro k _ k' _ heq
    exact UInt64.toNat_inj.mp heq

/-- A signer in the window holds a block of it of its own. -/
theorem card_signedRecently_le (s : Archive) (signers : Finset Address) :
    (signers.filter fun x => s.signedRecently x = true).card ≤ s.recents.keys.card := by
  calc (signers.filter fun x => s.signedRecently x = true).card
      ≤ (s.recents.keys.image fun k => (s.recents.lookup k).getD 0).card := by
        apply Finset.card_le_card
        intro x hx
        obtain ⟨k, b, hk, hb⟩ := Iff.mp finmap_any_eq_true (Finset.mem_filter.mp hx).2
        rw [Finset.mem_image]
        refine ⟨k, Finmap.mem_keys.mpr (Finmap.mem_of_lookup_eq_some hk), ?_⟩
        rw [hk, Option.getD_some, beq_iff_eq.mp hb]
    _ ≤ s.recents.keys.card := Finset.card_image_le

/-! ### The window, one step of a round at a time -/

/-- The eviction for block `n` drops the one block that leaves the window. The window goes from
the last `windowLen` numbers before `n` to the last `windowLen - 1`. -/
theorem keysIn_evictRecent {s : Archive} {n hi : Nat} (h : KeysIn s.recents (n - s.windowLen) hi)
    (hn : n < 2 ^ 64) : KeysIn (s.evictRecent (UInt64.ofNat n)).recents (n + 1 - s.windowLen) hi := by
  intro k hk
  have hlimit : s.limit.toNat = s.windowLen % 2 ^ 64 := UInt64.toNat_ofNat'
  have hnum : (UInt64.ofNat n).toNat = n := by rw [UInt64.toNat_ofNat', Nat.mod_eq_of_lt hn]
  have hmod : s.windowLen % 2 ^ 64 ≤ s.windowLen := Nat.mod_le _ _
  rw [recents_evictRecent] at hk
  split_ifs at hk with hle
  · obtain ⟨hne, hk⟩ := Finmap.mem_erase.mp hk
    obtain ⟨hlo, hhi⟩ := h k hk
    have hle' := hle
    rw [UInt64.le_iff_toNat_le, hlimit, hnum] at hle'
    -- the evicted block is `n - limit`, read in `uint64`
    have hne' : k.toNat ≠ n - s.windowLen % 2 ^ 64 := by
      intro heq
      apply hne
      rw [← UInt64.toNat_inj, UInt64.toNat_sub_of_le _ _ hle, hlimit, hnum, heq]
    by_cases hwrap : s.windowLen < 2 ^ 64
    · rw [Nat.mod_eq_of_lt hwrap] at hne' hle'
      omega
    · omega
  · obtain ⟨hlo, hhi⟩ := h k hk
    rw [UInt64.le_iff_toNat_le, hlimit, hnum] at hle
    omega

@[simp] theorem signers_forget (s : Archive) (a : Address) : (s.forget a).signers = s.signers := by
  simp only [forget, purgeVotesOn_eq]

@[simp] theorem recents_forget (s : Archive) (a : Address) : (s.forget a).recents = s.recents := by
  simp only [forget, purgeVotesOn_eq]

/-- A decision keeps the window. Adding a signer only widens it. Dropping one narrows it by at
most one block, and the second eviction removes that block. -/
theorem keysIn_settle {s : Archive} {n : Nat} (h : KeysIn s.recents (n + 1 - s.windowLen) (n + 1))
    (hn : n < 2 ^ 64) (c : Address) :
    KeysIn (s.settle (UInt64.ofNat n) c).recents
      (n + 1 - (s.settle (UInt64.ofNat n) c).windowLen) (n + 1) := by
  unfold settle
  dsimp only
  split_ifs with hpass hauth
  · have hcard : s.signers.card ≤ (insert c s.signers).card :=
      Finset.card_le_card (Finset.subset_insert c s.signers)
    simp only [recents_forget, signers_forget, windowLen, addSigner]
    exact h.mono (by simp only [windowLen] at h ⊢; omega) le_rfl
  · have hcard := Finset.pred_card_le_card_erase (s := s.signers) (a := c)
    have hd : KeysIn s.recents (n - ({ s with signers := s.signers.erase c } : Archive).windowLen)
        (n + 1) :=
      h.mono (by simp only [windowLen] at h ⊢; omega) le_rfl
    have := keysIn_evictRecent (s := { s with signers := s.signers.erase c }) hd hn
    simp only [recents_forget, signers_forget, dropSigner, recents_dropVotesBy, signers_dropVotesBy,
      signers_evictRecent, windowLen] at this ⊢
    exact this
  · exact h

/-- A round that passes its checks at block `n` moves the window on to `n`. -/
theorem keysIn_applyHeader {c : Crypto} {config : DPosConfig} {x x' : Archive} {header : Header}
    {n : Nat} (h : KeysIn x.recents (n - x.windowLen) n) (hn : n < 2 ^ 64)
    (hnum : header.numberU64 = UInt64.ofNat n) (e : x.applyHeader c config header = .ok x') :
    KeysIn x'.recents (n + 1 - x'.windowLen) (n + 1) := by
  obtain ⟨signer, authorize, -, -, -, -, rfl⟩ := Iff.mp applyHeader_eq_ok_iff e
  rw [hnum]
  -- the round opens on the window evicted for `n`
  have hopen : KeysIn (x.openRound config (UInt64.ofNat n)).recents (n + 1 - x.windowLen) n := by
    rw [recents_openRound, ← recents_evictRecent]
    exact keysIn_evictRecent h hn
  unfold record
  apply keysIn_settle _ hn
  -- the round notes block `n`; the vote leaves the recents and the signers alone
  simp only [recents_castVote, recents_discardVote, signers_castVote, signers_discardVote,
    noteRecent, windowLen, signers_openRound]
  intro k hk
  rcases Finmap.mem_insert.mp hk with rfl | hk
  · rw [UInt64.toNat_ofNat', Nat.mod_eq_of_lt hn]
    omega
  · have := hopen k hk
    simp only [windowLen] at this
    omega

/-- The header loop of `apply` moves the window on with each header, as long as the block
numbers do not wrap. Induction on the headers, one round at a time. -/
theorem keysIn_foldlM {c : Crypto} {config : DPosConfig} {headers : List Header} {x y : Archive}
    {m : Nat} (hc : consecutive headers)
    (hfirst : ∀ h ∈ headers.head?, h.numberU64 = UInt64.ofNat (m + 1))
    (hlen : m + headers.length < 2 ^ 64) (h : KeysIn x.recents (m + 1 - x.windowLen) (m + 1))
    (e : headers.foldlM (applyHeader c config) x = .ok y) :
    KeysIn y.recents (m + headers.length + 1 - y.windowLen) (m + headers.length + 1) := by
  induction headers generalizing x m with
  | nil =>
    cases e
    exact h
  | cons first rest ih =>
    rw [List.foldlM_cons] at e
    rw [List.length_cons] at hlen ⊢
    cases hx : x.applyHeader c config first with
    | error err =>
      rw [hx] at e
      cases e
    | ok x' =>
      rw [hx] at e
      have h' := keysIn_applyHeader h (by omega) (hfirst first rfl) hx
      -- the next header comes one after `first`
      have hrest : ∀ h ∈ rest.head?, h.numberU64 = UInt64.ofNat (m + 1 + 1) := by
        intro second hsecond
        cases rest with
        | nil => cases hsecond
        | cons second' rest =>
          cases hsecond
          rw [(List.isChain_cons_cons.mp hc).1, hfirst first rfl, UInt64.ofNat_add (m + 1) 1]
          rfl
      have := ih (List.IsChain.tail hc) hrest (by omega) h' e
      exact this.mono (by omega) (by omega)

/-- A successful `apply` whose run does not wrap the block number leaves the window at the new
head. -/
theorem keysIn_apply {c : Crypto} {s a : Archive} {headers : List Header}
    (h : KeysIn s.recents (s.number.toNat + 1 - s.windowLen) (s.number.toNat + 1))
    (hlen : s.number.toNat + headers.length < 2 ^ 64) (e : s.apply c headers = .ok a) :
    KeysIn a.recents (a.number.toNat + 1 - a.windowLen) (a.number.toNat + 1) := by
  cases headers with
  | nil =>
    cases e
    exact h
  | cons first rest =>
    obtain ⟨hc, hfirst, x, hx, rfl⟩ := apply_cons_eq_ok c e
    rw [List.length_cons] at hlen
    have hnum : (s.number + UInt64.ofNat (rest.length + 1)).toNat =
        s.number.toNat + (rest.length + 1) := by
      rw [UInt64.toNat_add, UInt64.toNat_ofNat', Nat.mod_eq_of_lt (by omega),
        Nat.mod_eq_of_lt (by omega)]
    have hfirst' : ∀ h ∈ (first :: rest).head?, h.numberU64 = UInt64.ofNat (s.number.toNat + 1) := by
      rintro h ⟨⟩
      rw [hfirst, UInt64.ofNat_add, UInt64.ofNat_toNat]
      rfl
    have := keysIn_foldlM hc hfirst' (by rw [List.length_cons]; omega) h hx
    rw [List.length_cons] at this
    change KeysIn x.recents (_ + 1 - x.windowLen) (_ + 1)
    rw [number_withHead, hnum]
    exact this

/-! ### Reachable archives -/

/-- The archives `Reachable` describes, restricted to runs that keep the block number below
`2 ^ 64`. `apply` adds the length of the run to the number, in `uint64`. -/
inductive ReachableUnwrapped (c : Crypto) : Archive → Prop
  | newArchive (config : DPosConfig) (number : UInt64) (hash : Hash) (signers : List Address) :
      ReachableUnwrapped c (newArchive config number hash signers)
  | apply {s s' : Archive} {headers : List Header} :
      ReachableUnwrapped c s → s.number.toNat + headers.length < 2 ^ 64 →
        s.apply c headers = .ok s' → ReachableUnwrapped c s'

theorem ReachableUnwrapped.reachable {c : Crypto} {s : Archive} (h : ReachableUnwrapped c s) :
    Reachable c s := by
  induction h with
  | newArchive config number hash signers => exact .newArchive config number hash signers
  | apply _ _ e ih => exact .apply ih e

/-- In every archive reached by runs that do not wrap the block number, the recents hold blocks
of the last `len(Signers)/2 + 1` numbers only. -/
theorem keysIn_of_reachableUnwrapped {c : Crypto} {a : Archive} (h : ReachableUnwrapped c a) :
    KeysIn a.recents (a.number.toNat + 1 - a.windowLen) (a.number.toNat + 1) := by
  induction h with
  | newArchive config number hash signers => exact keysIn_empty _ _
  | apply _ hlen e ih => exact keysIn_apply ih hlen e

/-! ### The able signers and the draw -/

/-- Suppose the recents hold only blocks of the last `limit` numbers before `m + 1`, and the
archive has a signer. Then block `m + 1` has an able signer, because the window it sees holds
`len(Signers)/2` blocks at most. -/
theorem ableSigners_length_pos {s : Archive} {m : Nat}
    (h : KeysIn s.recents (m + 1 - s.windowLen) (m + 1)) (hm : m + 1 < 2 ^ 64)
    (hsigners : s.signers.Nonempty) : 0 < (s.ableSigners (UInt64.ofNat (m + 1))).length := by
  have hkeys := card_keys_le (keysIn_evictRecent h hm)
  have hrecent := card_signedRecently_le (s.evictRecent (UInt64.ofNat (m + 1))) s.signers
  have hsplit := Finset.card_filter_add_card_filter_not (s := s.signers)
    fun x => (s.evictRecent (UInt64.ofNat (m + 1))).signedRecently x = true
  have hpos := hsigners.card_pos
  simp only [Bool.not_eq_true] at hsplit
  rw [ableSigners, sortedList_eq_sort, Finset.length_sort]
  simp only [Bool.not_eq_eq_eq_not, Bool.not_true]
  simp only [windowLen] at hkeys
  omega

/-- With an able signer, the draw of `inturn` names exactly one address: the able signer at
the drawn index. Every other address sits at another index, or at none. -/
theorem inturn_unique {σ : Type} (rng : GoRand σ) (s : Archive) (number : UInt64) (hash : Hash)
    (st : σ) (hpos : 0 < (s.ableSigners number).length) :
    ∃ signer ∈ s.ableSigners number, ∀ x, (s.inturn rng number x hash st).1 = true ↔ x = signer := by
  have hnodup : (s.ableSigners number).Nodup := by
    rw [ableSigners, sortedList_eq_sort]
    exact Finset.sort_nodup _ _
  have hd : (rng.intn (rng.seed hash.lowInt64) (s.ableSigners number).length).1 <
      (s.ableSigners number).length := rng.intn_lt _ _ hpos
  refine ⟨_, List.getElem_mem hd, fun x => ?_⟩
  simp only [inturn, beq_iff_eq]
  constructor
  · intro hx
    have hlt : (s.ableSigners number).idxOf x < (s.ableSigners number).length := hx ▸ hd
    rw [← List.getElem_idxOf hlt]
    simp only [hx]
  · rintro rfl
    exact (hnodup.idxOf_getElem _ hd).symm

/-- **Exactly one signer is in turn.** In an archive reached by runs that do not wrap the block
number, with a signer left and a next block number that does not wrap either, the next block has
able signers. Whatever the hash and the state of the source, exactly one address is in turn for
it, and that address is an able signer. -/
theorem inturn_exactly_one {σ : Type} (rng : GoRand σ) {c : Crypto} {a : Archive}
    (h : ReachableUnwrapped c a) (hsigners : a.signers.Nonempty)
    (hnum : a.number.toNat + 1 < 2 ^ 64) (hash : Hash) (st : σ) :
    a.ableSigners (a.number + 1) ≠ [] ∧
      ∃ signer ∈ a.ableSigners (a.number + 1),
        ∀ x, (a.inturn rng (a.number + 1) x hash st).1 = true ↔ x = signer := by
  have hnext : a.number + 1 = UInt64.ofNat (a.number.toNat + 1) := by
    rw [UInt64.ofNat_add, UInt64.ofNat_toNat]
    rfl
  have hpos := ableSigners_length_pos (keysIn_of_reachableUnwrapped h) hnum hsigners
  rw [← hnext] at hpos
  exact ⟨List.ne_nil_of_length_pos hpos, inturn_unique rng a _ hash st hpos⟩

/-- After the voting run of `Bookkeeping`, four signers and an open vote, with the counter as the
source: exactly one address is in turn for block 4. -/
theorem inturn_exactly_one_votes :
    ∃ a, threeSigners.apply recoverExtra votingRun = .ok a ∧ a.signers.Nonempty ∧
      a.ableSigners (a.number + 1) ≠ [] ∧ ∃ signer ∈ a.ableSigners (a.number + 1),
        ∀ x, (a.inturn counterRand (a.number + 1) x 0 0).1 = true ↔ x = signer := by
  obtain ⟨a, happly, hne, hnum⟩ : ∃ a, threeSigners.apply recoverExtra votingRun = .ok a ∧
      a.signers.Nonempty ∧ a.number.toNat + 1 < 2 ^ 64 := ⟨_, rfl, by decide +kernel, by decide +kernel⟩
  exact ⟨a, happly, hne,
    inturn_exactly_one counterRand (.apply (.newArchive _ _ _ _) (by decide) happly) hne hnum 0 0⟩

/-! ### The last signer can vote itself out -/

/-- A genesis archive whose only signer is `1`. -/
def soleSigner : Archive := newArchive ⟨15, 30000⟩ 0 0 [1]

/-- Block 1, sealed by `1` with itself as coinbase and the drop nonce: `1` votes itself out. -/
def selfDropHeader : Header := ⟨0, 0, 1, 0, 0, 0, diffInTurn, 1, 0, 0, 0, [], 0, nonceDropVote⟩

/-- Signer recovery that recovers `1` from every header. -/
def recoverOne : Crypto := ⟨fun _ => 0, fun _ => .ok 1⟩

/-- A genesis archive with one signer reaches, in one block, an archive with no able signer for
the next block. -/
theorem ableSigners_empty_selfDrop :
    soleSigner.signers.Nonempty ∧
      ∃ a, soleSigner.apply recoverOne [selfDropHeader] = .ok a ∧ Reachable recoverOne a ∧
        a.ableSigners (a.number + 1) = [] :=
  ⟨by decide, _, rfl,
    @Reachable.apply recoverOne soleSigner _ [selfDropHeader] (.newArchive _ _ _ _) rfl,
    by decide +kernel⟩

end Archive

end EpvChain.Epvdpos
