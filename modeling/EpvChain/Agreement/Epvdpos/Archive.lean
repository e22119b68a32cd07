import Mathlib
import EpvChain.Lib.Sweep
import EpvChain.Lib.Finmap
import EpvChain.Kernel.Types.Header

/-!
# The DPoS voting archive (`agreement/epvdpos/archive.go`)

An `Archive` is the voting snapshot at one block: the authorized signers, who signed the recent
blocks, the open votes and their tallies. `Archive.apply` replays a run of headers on a copy.

* `Tally`, `Vote`, `Archive`, `newArchive`, `Archive.copy` — the data. Go maps are `Finmap`s,
  the signer set a `Finset`, the vote slice a list. `Archive.copy` is the identity on values:
  what `apply` may overwrite in place is a question about references, which are not modelled.
* `Archive.validVote`, `Archive.cast`, `Archive.uncast` — the tally bookkeeping.
* `Archive.applyHeader` — one round of `apply`, split into its checks
  (`Archive.applyHeader_eq_ok_iff`) and the update `Archive.record`; the loops that remove votes
  while rewinding the index are `Lib.sweep`.
* `Archive.apply` — the consecutiveness checks, the loop, the new number and hash.
* `Archive.signersList`, `Archive.ableSigners` — the sorted signer lists (`Lib.sortedList`, the
  result of the source's exchange sort).

The header hash and the recovered signer are functions of the header (`Crypto`).
-/

namespace EpvChain.Epvdpos

open EpvChain.Types EpvChain.Lib

/-- The errors the modelled consensus functions return: the sentinel errors of
`agreement/epvdpos/epvdpos.go`, the two of `agreement/errors.go` they pass on, the fork-hash
error of `agreement/misc/forks.go`, a failed signature recovery (`crypto.Ecrecover`), and
`randPanic`, the panic of `rand.Intn(0)`, which ends the process.
Source: `agreement/epvdpos/epvdpos.go` `var ( errUnknownBlock ... )` -/
inductive DposError where
  | unknownBlock
  | invalidCheckpointBeneficiary
  | invalidVote
  | invalidCheckpointVote
  | missingVanity
  | missingSignature
  | extraSigners
  | invalidCheckpointSigners
  | invalidMixDigest
  | invalidUncleHash
  | invalidDifficulty
  | invalidTimestamp
  | invalidVotingChain
  | unauthorized
  | waitTransactions
  | unknownAncestor
  | futureBlock
  | forkHash
  | recoverFailed
  | randPanic
  deriving DecidableEq, Repr

/-- `params.DPosConfig`: the block period and the epoch length.
Source: `content/config.go` `type DPosConfig struct` -/
structure DPosConfig where
  period : UInt64
  epoch : UInt64
  deriving DecidableEq, Repr

/-- The two functions of the header that the archive reads and cannot compute itself:
`Header.Hash()` and `ecrecover(header, sigcache)`.
Source: `kernel/types/block.go` `Header.Hash`; `agreement/epvdpos/epvdpos.go` `ecrecover` -/
structure Crypto where
  hash : Header → Hash
  ecrecover : Header → Except DposError Address

/-- `Tally`: the direction of the votes on an address and how many there are. -/
structure Tally where
  authorize : Bool
  votes : Nat
  deriving DecidableEq, Repr

/-- `Vote`: one signer's open vote on one address, cast in block `block`. -/
structure Vote where
  signer : Address
  block : UInt64
  address : Address
  authorize : Bool
  deriving DecidableEq, Repr

/-- `map[uint64]common.Address`: who signed which recent block. -/
abbrev RecentMap := Finmap fun _ : UInt64 => Address

/-- `map[common.Address]Tally`. -/
abbrev TallyMap := Finmap fun _ : Address => Tally

/-- `Archive`, less the signature cache (transparent behind `Crypto.ecrecover`).
Source: `agreement/epvdpos/archive.go` `type Archive struct` -/
structure Archive where
  config : DPosConfig
  number : UInt64
  hash : Hash
  signers : Finset Address
  recents : RecentMap
  votes : List Vote
  tally : TallyMap
  deriving DecidableEq

/-- `newArchive`: no recents, no votes, no tallies.
Source: `agreement/epvdpos/archive.go` `newArchive` -/
def newArchive (config : DPosConfig) (number : UInt64) (hash : Hash) (signers : List Address) :
    Archive :=
  ⟨config, number, hash, signers.toFinset, ∅, [], ∅⟩

namespace Archive

/-- `Archive.copy`: a field-by-field copy.
Source: `agreement/epvdpos/archive.go` `Archive.copy` -/
def copy (s : Archive) : Archive :=
  ⟨s.config, s.number, s.hash, s.signers, s.recents, s.votes, s.tally⟩

@[simp] theorem copy_eq (s : Archive) : s.copy = s := rfl

/-- `Archive.validVote`: a vote to add a non-signer or to drop a signer.
Source: `agreement/epvdpos/archive.go` `Archive.validVote` -/
def validVote (s : Archive) (address : Address) (authorize : Bool) : Bool :=
  let signer := decide (address ∈ s.signers)
  (signer && !authorize) || (!signer && authorize)

/-- `Archive.cast`: count a valid vote. An existing tally is incremented whatever its
direction.
Source: `agreement/epvdpos/archive.go` `Archive.cast` -/
def cast (s : Archive) (address : Address) (authorize : Bool) : Bool × Archive :=
  if !s.validVote address authorize then (false, s)
  else
    match s.tally.lookup address with
    | some old => (true, { s with tally := s.tally.insert address { old with votes := old.votes + 1 } })
    | none => (true, { s with tally := s.tally.insert address ⟨authorize, 1⟩ })

/-- `Archive.uncast`: take back one vote of the given direction.
Source: `agreement/epvdpos/archive.go` `Archive.uncast` -/
def uncast (s : Archive) (address : Address) (authorize : Bool) : Bool × Archive :=
  match s.tally.lookup address with
  | none => (false, s)
  | some tally =>
    if tally.authorize ≠ authorize then (false, s)
    else if tally.votes > 1 then
      (true, { s with tally := s.tally.insert address { tally with votes := tally.votes - 1 } })
    else (true, { s with tally := s.tally.erase address })

/-- `uint64(len(archive.Signers)/2 + 1)`: the length of the recent-signers window. -/
def limit (s : Archive) : UInt64 := UInt64.ofNat (s.signers.card / 2 + 1)

/-- `if limit := ...; number >= limit { delete(archive.Recents, number-limit) }`: the block
that leaves the window is forgotten. The loop of `apply` runs this before it checks a header's
signer and again after it drops a signer. -/
def evictRecent (s : Archive) (number : UInt64) : Archive :=
  if s.limit ≤ number then { s with recents := s.recents.erase (number - s.limit) } else s

/-- `for _, recent := range archive.Recents { if recent == signer ... }`. -/
def signedRecently (s : Archive) (signer : Address) : Bool :=
  s.recents.any fun _ recent => recent == signer

/-- The first loop of a round: the signer's earlier vote on the same address, if any, is
taken back and removed (the loop breaks after the first match).
Source: `agreement/epvdpos/archive.go` `Archive.apply`, `for i, vote := range archive.Votes` -/
def discardVote (s : Archive) (signer coinbase : Address) : Archive :=
  let same := fun v : Vote => v.signer == signer && v.address == coinbase
  match s.votes.find? same with
  | none => s
  | some vote => { (s.uncast vote.address vote.authorize).2 with votes := s.votes.eraseP same }

/-- The removal loop after a signer is dropped: every vote the dropped signer cast is taken
back and removed, rewinding the index (`Lib.sweep`). -/
def dropVotesBy (s : Archive) (dropped : Address) : Archive :=
  let r := sweep (fun v => v.signer == dropped) (fun v a => (a.uncast v.address v.authorize).2)
    s.votes s 0
  { r.2 with votes := r.1 }

/-- The purge loop after a decision: every vote on the decided address is removed,
rewinding the index (`Lib.sweep`). -/
def purgeVotesOn (s : Archive) (decided : Address) : Archive :=
  let r := sweep (fun v => v.address == decided) (fun _ a => a) s.votes s 0
  { r.2 with votes := r.1 }

/-- Adding a signer once the votes to add it pass half of the signers. -/
def addSigner (s : Archive) (coinbase : Address) : Archive :=
  { s with signers := insert coinbase s.signers }

/-- Dropping a signer once the votes to drop it pass half of the signers: the window shrinks
with the signer set, and every vote the dropped signer cast is taken back. -/
def dropSigner (s : Archive) (number : UInt64) (coinbase : Address) : Archive :=
  ({ s with signers := s.signers.erase coinbase }.evictRecent number).dropVotesBy coinbase

/-- After a decision the votes on the decided address and its tally are forgotten. -/
def forget (s : Archive) (coinbase : Address) : Archive :=
  let s := s.purgeVotesOn coinbase
  { s with tally := s.tally.erase coinbase }

/-- The decision at the end of a round: when the coinbase's tally passes half of the
signers, the coinbase is added or dropped, then forgotten. A missing tally reads as the zero
`Tally`, which never passes. -/
def settle (s : Archive) (number : UInt64) (coinbase : Address) : Archive :=
  let tally := (s.tally.lookup coinbase).getD ⟨false, 0⟩
  if s.signers.card / 2 < tally.votes then
    (if tally.authorize then s.addSigner coinbase else s.dropSigner number coinbase).forget coinbase
  else s

/-- The epoch reset at the head of a round: at a checkpoint the votes and tallies go. -/
def resetEpoch (s : Archive) (config : DPosConfig) (number : UInt64) : Archive :=
  if number % config.epoch = 0 then { s with votes := [], tally := ∅ } else s

/-- The head of a round, before any check: the epoch reset, then the window slides. -/
def openRound (s : Archive) (config : DPosConfig) (number : UInt64) : Archive :=
  (s.resetEpoch config number).evictRecent number

/-- `archive.Recents[number] = signer`. -/
def noteRecent (s : Archive) (number : UInt64) (signer : Address) : Archive :=
  { s with recents := s.recents.insert number signer }

/-- Cast the round's vote and, if it counted, append it to the open votes. -/
def castVote (s : Archive) (signer : Address) (number : UInt64) (coinbase : Address)
    (authorize : Bool) : Archive :=
  let r := s.cast coinbase authorize
  if r.1 then { r.2 with votes := r.2.votes ++ [⟨signer, number, coinbase, authorize⟩] } else r.2

/-- The part of a round after its checks: note the signer as recent, discard its earlier vote
on the coinbase, cast the new vote, then settle. -/
def record (s : Archive) (number : UInt64) (signer coinbase : Address) (authorize : Bool) :
    Archive :=
  (((s.noteRecent number signer).discardVote signer coinbase).castVote signer number coinbase
    authorize).settle number coinbase

/-! ### What each step of a round reads and writes

One lemma per step and field, so that the proofs about whole rounds cite these and never
unfold a step. -/

section Fields

variable (s : Archive) (a a' : Address) (b : Bool)

/-- A vote is valid when it would change the address's membership. -/
theorem validVote_eq_true : s.validVote a b = true ↔ (b = true ↔ a ∉ s.signers) := by
  unfold validVote
  by_cases h : a ∈ s.signers <;> cases b <;> simp [h]

/-- A signer signed recently when some block of the window is its. -/
theorem signedRecently_eq_false : s.signedRecently a = false ↔ ∀ n, s.recents.lookup n ≠ some a := by
  unfold signedRecently
  rw [finmap_any_eq_false]
  constructor
  · intro h n hn
    simpa using h n a hn
  · intro h n x hx
    rw [beq_eq_false_iff_ne]
    rintro rfl
    exact h n hx

@[simp] theorem signers_evictRecent (n : UInt64) : (s.evictRecent n).signers = s.signers := by
  unfold evictRecent; split_ifs <;> rfl

@[simp] theorem votes_evictRecent (n : UInt64) : (s.evictRecent n).votes = s.votes := by
  unfold evictRecent; split_ifs <;> rfl

@[simp] theorem tally_evictRecent (n : UInt64) : (s.evictRecent n).tally = s.tally := by
  unfold evictRecent; split_ifs <;> rfl

theorem recents_evictRecent (n : UInt64) :
    (s.evictRecent n).recents =
      if s.limit ≤ n then s.recents.erase (n - s.limit) else s.recents := by
  unfold evictRecent; split_ifs <;> rfl

@[simp] theorem signers_resetEpoch (config : DPosConfig) (n : UInt64) :
    (s.resetEpoch config n).signers = s.signers := by
  unfold resetEpoch; split_ifs <;> rfl

@[simp] theorem recents_resetEpoch (config : DPosConfig) (n : UInt64) :
    (s.resetEpoch config n).recents = s.recents := by
  unfold resetEpoch; split_ifs <;> rfl

@[simp] theorem limit_resetEpoch (config : DPosConfig) (n : UInt64) :
    (s.resetEpoch config n).limit = s.limit := by
  unfold limit; rw [signers_resetEpoch]

theorem signers_openRound (config : DPosConfig) (n : UInt64) :
    (s.openRound config n).signers = s.signers := by
  unfold openRound; rw [signers_evictRecent, signers_resetEpoch]

/-- The window a round sees: the block leaving it is gone. -/
theorem recents_openRound (config : DPosConfig) (n : UInt64) :
    (s.openRound config n).recents =
      if s.limit ≤ n then s.recents.erase (n - s.limit) else s.recents := by
  unfold openRound; rw [recents_evictRecent, limit_resetEpoch, recents_resetEpoch]

@[simp] theorem signers_uncast : (s.uncast a b).2.signers = s.signers := by
  unfold uncast; split <;> (try split_ifs) <;> rfl

@[simp] theorem votes_uncast : (s.uncast a b).2.votes = s.votes := by
  unfold uncast; split <;> (try split_ifs) <;> rfl

@[simp] theorem recents_uncast : (s.uncast a b).2.recents = s.recents := by
  unfold uncast; split <;> (try split_ifs) <;> rfl

@[simp] theorem signers_cast : (s.cast a b).2.signers = s.signers := by
  unfold cast; split_ifs <;> (try split) <;> rfl

@[simp] theorem votes_cast : (s.cast a b).2.votes = s.votes := by
  unfold cast; split_ifs <;> (try split) <;> rfl

@[simp] theorem recents_cast : (s.cast a b).2.recents = s.recents := by
  unfold cast; split_ifs <;> (try split) <;> rfl

/-- A vote counts exactly when it is valid. -/
@[simp] theorem fst_cast : (s.cast a b).1 = s.validVote a b := by
  unfold cast
  by_cases h : s.validVote a b
  · rw [if_neg (by simp [h])]; split <;> exact h.symm
  · rw [if_pos (by simp [h])]; simp [h]

theorem cast_of_not_validVote (h : s.validVote a b = false) : s.cast a b = (false, s) := by
  unfold cast; rw [if_pos (by simp [h])]

/-- A valid vote on `a` adds one to the tally of `a`, or opens it in its own direction. -/
theorem lookup_cast_self (h : s.validVote a b = true) :
    (s.cast a b).2.tally.lookup a =
      some ((s.tally.lookup a).elim ⟨b, 1⟩ fun old => { old with votes := old.votes + 1 }) := by
  unfold cast
  rw [if_neg (by simp [h])]
  split <;> rename_i heq <;> simp [heq, Finmap.lookup_insert]

theorem lookup_cast_of_ne (h : a' ≠ a) : (s.cast a b).2.tally.lookup a' = s.tally.lookup a' := by
  unfold cast
  split_ifs
  · rfl
  · split <;> exact Finmap.lookup_insert_of_ne _ h

/-- Taking back a vote in the direction of the tally lowers it by one, or deletes it when it
was the last. -/
theorem lookup_uncast_self {t : Tally} (ht : s.tally.lookup a = some t) (hb : t.authorize = b) :
    (s.uncast a b).2.tally.lookup a =
      if 1 < t.votes then some { t with votes := t.votes - 1 } else none := by
  unfold uncast
  simp only [ht, hb, ne_eq, not_true_eq_false, if_false]
  split_ifs <;> simp [Finmap.lookup_insert, Finmap.lookup_erase]

theorem lookup_uncast_of_ne (h : a' ≠ a) :
    (s.uncast a b).2.tally.lookup a' = s.tally.lookup a' := by
  unfold uncast
  split
  · rfl
  · split_ifs
    · rfl
    · exact Finmap.lookup_insert_of_ne _ h
    · exact Finmap.lookup_erase_ne h

/-- Taking back a vote never opens a tally nor turns one around. -/
theorem lookup_uncast_eq_some {t' : Tally} (h : (s.uncast a b).2.tally.lookup a' = some t') :
    ∃ t, s.tally.lookup a' = some t ∧ t'.authorize = t.authorize := by
  by_cases ha : a' = a
  · subst ha
    cases ht : s.tally.lookup a' with
    | none =>
      unfold uncast at h
      simp only [ht] at h
      cases h
    | some t =>
      by_cases hb : t.authorize = b
      · rw [lookup_uncast_self s a' b ht hb] at h
        split_ifs at h
        cases h
        exact ⟨t, rfl, rfl⟩
      · unfold uncast at h
        simp only [ht, ne_eq, hb, not_false_eq_true, if_true] at h
        cases h
        exact ⟨_, rfl, rfl⟩
  · rw [lookup_uncast_of_ne s a a' b ha] at h
    exact ⟨t', h, rfl⟩

/-- A field that taking back a vote leaves alone is left alone by any sequence of them. -/
theorem foldl_uncast_field {β : Type} (g : Archive → β)
    (hg : ∀ s a b, g (s.uncast a b).2 = g s) (l : List Vote) (s : Archive) :
    g (l.foldl (fun s v => (s.uncast v.address v.authorize).2) s) = g s := by
  induction l generalizing s with
  | nil => rfl
  | cons v l ih => rw [List.foldl_cons, ih, hg]

/-- Taking back a sequence of votes never opens a tally nor turns one around. -/
theorem lookup_foldl_uncast_eq_some {t' : Tally} (l : List Vote) (s : Archive)
    (h : (l.foldl (fun s v => (s.uncast v.address v.authorize).2) s).tally.lookup a' = some t') :
    ∃ t, s.tally.lookup a' = some t ∧ t'.authorize = t.authorize := by
  induction l generalizing s with
  | nil => exact ⟨t', h, rfl⟩
  | cons v l ih =>
    obtain ⟨t₁, h₁, e₁⟩ := ih _ h
    obtain ⟨t, ht, e⟩ := lookup_uncast_eq_some s v.address a' v.authorize h₁
    exact ⟨t, ht, e₁.trans e⟩

/-- `dropVotesBy` keeps the votes of other signers and takes back the dropped signer's,
in order. -/
theorem dropVotesBy_eq :
    s.dropVotesBy a = { (s.votes.filter fun v => v.signer == a).foldl
        (fun s v => (s.uncast v.address v.authorize).2) s with
      votes := s.votes.filter fun v => !(v.signer == a) } := by
  unfold dropVotesBy
  rw [sweep_zero]

@[simp] theorem signers_dropVotesBy : (s.dropVotesBy a).signers = s.signers := by
  rw [dropVotesBy_eq]
  exact foldl_uncast_field signers (signers_uncast) _ s

@[simp] theorem recents_dropVotesBy : (s.dropVotesBy a).recents = s.recents := by
  rw [dropVotesBy_eq]
  exact foldl_uncast_field recents (recents_uncast) _ s

/-- `purgeVotesOn` keeps the votes on other addresses and touches nothing else. -/
theorem purgeVotesOn_eq :
    s.purgeVotesOn a = { s with votes := s.votes.filter fun v => !(v.address == a) } := by
  unfold purgeVotesOn
  rw [sweep_zero, List.foldl_fixed]

/-- The first loop of a round takes back the vote it removes. -/
theorem discardVote_of_find? {v : Vote}
    (h : s.votes.find? (fun v => v.signer == a && v.address == a') = some v) :
    s.discardVote a a' = { (s.uncast v.address v.authorize).2 with
      votes := s.votes.eraseP fun v => v.signer == a && v.address == a' } := by
  unfold discardVote
  simp only [h]

theorem discardVote_of_find?_none
    (h : s.votes.find? (fun v => v.signer == a && v.address == a') = none) :
    s.discardVote a a' = s := by
  unfold discardVote
  simp only [h]

@[simp] theorem signers_discardVote : (s.discardVote a a').signers = s.signers := by
  cases h : s.votes.find? (fun v => v.signer == a && v.address == a') with
  | none => rw [discardVote_of_find?_none s a a' h]
  | some v => rw [discardVote_of_find? s a a' h, signers_uncast]

@[simp] theorem recents_discardVote : (s.discardVote a a').recents = s.recents := by
  cases h : s.votes.find? (fun v => v.signer == a && v.address == a') with
  | none => rw [discardVote_of_find?_none s a a' h]
  | some v => rw [discardVote_of_find? s a a' h, recents_uncast]

@[simp] theorem signers_castVote (n : UInt64) : (s.castVote a n a' b).signers = s.signers := by
  simp only [castVote]; split_ifs <;> simp

@[simp] theorem recents_castVote (n : UInt64) : (s.castVote a n a' b).recents = s.recents := by
  simp only [castVote]; split_ifs <;> simp

end Fields

end Archive

/-- `nonceAuthVote`: `0xffffffffffffffff`. -/
def nonceAuthVote : UInt64 := 0xffffffffffffffff

/-- `nonceDropVote`: `0x0000000000000000`. -/
def nonceDropVote : UInt64 := 0

/-- The vote a header's nonce casts: all ones to add, all zeros to drop, anything else is
`errInvalidVote`. -/
def voteOfNonce (nonce : UInt64) : Except DposError Bool :=
  if nonce = nonceAuthVote then .ok true
  else if nonce = nonceDropVote then .ok false
  else .error .invalidVote

namespace Archive

/-- One round of the header loop of `Archive.apply`: reset at an epoch, slide the window,
recover the signer, check that it is authorized and not recent, then `record`.
Source: `agreement/epvdpos/archive.go` `Archive.apply`, `for _, header := range headers` -/
def applyHeader (c : Crypto) (config : DPosConfig) (archive : Archive) (header : Header) :
    Except DposError Archive :=
  let number := header.numberU64
  let archive := archive.openRound config number
  match c.ecrecover header with
  | .error e => .error e
  | .ok signer =>
    if signer ∉ archive.signers then .error .unauthorized
    else if archive.signedRecently signer then .error .unauthorized
    else
      match voteOfNonce header.nonce with
      | .error e => .error e
      | .ok authorize => .ok (archive.record number signer header.coinbase authorize)

/-- The voting-chain check of `apply`: each header numbers one more than the one before. -/
def consecutive (headers : List Header) : Prop :=
  headers.IsChain fun h h' => h'.numberU64 = h.numberU64 + 1

instance (headers : List Header) : Decidable (consecutive headers) :=
  inferInstanceAs (Decidable (List.IsChain _ headers))

/-- `Archive.apply`: replay a run of headers on a copy of the archive. The empty run returns
the receiver itself.
Source: `agreement/epvdpos/archive.go` `Archive.apply` -/
def apply (c : Crypto) (s : Archive) : List Header → Except DposError Archive
  | [] => .ok s
  | first :: rest =>
    if ¬ consecutive (first :: rest) then .error .invalidVotingChain
    else if first.numberU64 ≠ s.number + 1 then .error .invalidVotingChain
    else do
      let archive ← (first :: rest).foldlM (applyHeader c s.config) s.copy
      pure { archive with
        number := archive.number + UInt64.ofNat (first :: rest).length
        hash := c.hash ((first :: rest).getLast (List.cons_ne_nil _ _)) }

/-- `Archive.signers`: the signers in ascending order.
Source: `agreement/epvdpos/archive.go` `Archive.signers` -/
def signersList (s : Archive) : List Address := sortedList s.signers

/-- `Archive.ableSigners`: the signers, in ascending order, that are not in the window the
block `number` would see.
Source: `agreement/epvdpos/archive.go` `Archive.ableSigners` -/
def ableSigners (s : Archive) (number : UInt64) : List Address :=
  let window := s.evictRecent number
  sortedList (s.signers.filter fun signer => !window.signedRecently signer)

/-! ## A round never reads the configuration, block number or hash

The number and hash of an archive are set once, at the end of `apply`, and its configuration
never changes; a round reads the configuration of the receiver of `apply`, passed to it. Every
function a round runs commutes with replacing these three fields (`applyHeader_withHead`),
which is what lets a run be cut into two runs. -/

/-- The archive with its configuration, block number and hash replaced. -/
def withHead (s : Archive) (config : DPosConfig) (number : UInt64) (hash : Hash) : Archive :=
  { s with config, number, hash }

@[simp] theorem withHead_withHead (s : Archive) (k k' : DPosConfig) (n n' : UInt64) (x x' : Hash) :
    (s.withHead k n x).withHead k' n' x' = s.withHead k' n' x' := rfl

@[simp] theorem withHead_self (s : Archive) : s.withHead s.config s.number s.hash = s := rfl

@[simp] theorem config_withHead (s : Archive) (k : DPosConfig) (n : UInt64) (x : Hash) :
    (s.withHead k n x).config = k := rfl

@[simp] theorem number_withHead (s : Archive) (k : DPosConfig) (n : UInt64) (x : Hash) :
    (s.withHead k n x).number = n := rfl

@[simp] theorem hash_withHead (s : Archive) (k : DPosConfig) (n : UInt64) (x : Hash) :
    (s.withHead k n x).hash = x := rfl

@[simp] theorem signers_withHead (s : Archive) (k : DPosConfig) (n : UInt64) (x : Hash) :
    (s.withHead k n x).signers = s.signers := rfl

@[simp] theorem limit_withHead (s : Archive) (k : DPosConfig) (n : UInt64) (x : Hash) :
    (s.withHead k n x).limit = s.limit := rfl

@[simp] theorem signedRecently_withHead (s : Archive) (k : DPosConfig) (n : UInt64) (x : Hash) (a : Address) :
    (s.withHead k n x).signedRecently a = s.signedRecently a := rfl

@[simp] theorem votes_withHead (s : Archive) (k : DPosConfig) (n : UInt64) (x : Hash) :
    (s.withHead k n x).votes = s.votes := rfl

@[simp] theorem tally_withHead (s : Archive) (k : DPosConfig) (n : UInt64) (x : Hash) :
    (s.withHead k n x).tally = s.tally := rfl

theorem resetEpoch_withHead (s : Archive) (k : DPosConfig) (n : UInt64) (x : Hash) (config : DPosConfig)
    (number : UInt64) :
    (s.withHead k n x).resetEpoch config number = (s.resetEpoch config number).withHead k n x := by
  by_cases h : number % config.epoch = 0
  · rw [resetEpoch, resetEpoch, if_pos h, if_pos h]; rfl
  · rw [resetEpoch, resetEpoch, if_neg h, if_neg h]

theorem evictRecent_withHead (s : Archive) (k : DPosConfig) (n : UInt64) (x : Hash) (number : UInt64) :
    (s.withHead k n x).evictRecent number = (s.evictRecent number).withHead k n x := by
  by_cases h : s.limit ≤ number
  · rw [evictRecent, evictRecent, limit_withHead, if_pos h, if_pos h]; rfl
  · rw [evictRecent, evictRecent, limit_withHead, if_neg h, if_neg h]

theorem uncast_withHead (s : Archive) (k : DPosConfig) (n : UInt64) (x : Hash) (a : Address) (b : Bool) :
    (s.withHead k n x).uncast a b = ((s.uncast a b).1, (s.uncast a b).2.withHead k n x) := by
  unfold uncast
  rw [tally_withHead]
  cases s.tally.lookup a with
  | none => rfl
  | some t => dsimp only; split_ifs <;> rfl

theorem cast_withHead (s : Archive) (k : DPosConfig) (n : UInt64) (x : Hash) (a : Address) (b : Bool) :
    (s.withHead k n x).cast a b = ((s.cast a b).1, (s.cast a b).2.withHead k n x) := by
  have hv : (s.withHead k n x).validVote a b = s.validVote a b := rfl
  unfold cast
  rw [hv, tally_withHead]
  by_cases h : (!s.validVote a b) = true
  · rw [if_pos h, if_pos h]
  · rw [if_neg h, if_neg h]
    cases s.tally.lookup a <;> rfl

theorem discardVote_withHead (s : Archive) (k : DPosConfig) (n : UInt64) (x : Hash) (signer coinbase : Address) :
    (s.withHead k n x).discardVote signer coinbase =
      (s.discardVote signer coinbase).withHead k n x := by
  simp only [discardVote, votes_withHead]
  cases s.votes.find? (fun v => v.signer == signer && v.address == coinbase) with
  | none => rfl
  | some v => dsimp only; rw [uncast_withHead]; rfl

theorem dropVotesBy_withHead (s : Archive) (k : DPosConfig) (n : UInt64) (x : Hash) (dropped : Address) :
    (s.withHead k n x).dropVotesBy dropped = (s.dropVotesBy dropped).withHead k n x := by
  unfold dropVotesBy
  rw [votes_withHead, sweep_map_state _ _ (withHead · k n x) _ _ _ fun v a => by
    rw [uncast_withHead]]
  rfl

theorem purgeVotesOn_withHead (s : Archive) (k : DPosConfig) (n : UInt64) (x : Hash) (decided : Address) :
    (s.withHead k n x).purgeVotesOn decided = (s.purgeVotesOn decided).withHead k n x := by
  unfold purgeVotesOn
  rw [votes_withHead, sweep_map_state _ _ (withHead · k n x) _ _ _ fun _ _ => rfl]
  rfl

theorem addSigner_withHead (s : Archive) (k : DPosConfig) (n : UInt64) (x : Hash) (coinbase : Address) :
    (s.withHead k n x).addSigner coinbase = (s.addSigner coinbase).withHead k n x := rfl

theorem dropSigner_withHead (s : Archive) (k : DPosConfig) (n : UInt64) (x : Hash) (number : UInt64)
    (coinbase : Address) :
    (s.withHead k n x).dropSigner number coinbase = (s.dropSigner number coinbase).withHead k n x := by
  have e : { s.withHead k n x with signers := (s.withHead k n x).signers.erase coinbase } =
      { s with signers := s.signers.erase coinbase }.withHead k n x := rfl
  rw [dropSigner, dropSigner, e, evictRecent_withHead, dropVotesBy_withHead]

theorem forget_withHead (s : Archive) (k : DPosConfig) (n : UInt64) (x : Hash) (coinbase : Address) :
    (s.withHead k n x).forget coinbase = (s.forget coinbase).withHead k n x := by
  simp only [forget, purgeVotesOn_withHead]
  rfl

theorem settle_withHead (s : Archive) (k : DPosConfig) (n : UInt64) (x : Hash) (number : UInt64)
    (coinbase : Address) :
    (s.withHead k n x).settle number coinbase = (s.settle number coinbase).withHead k n x := by
  unfold settle
  rw [signers_withHead, tally_withHead]
  by_cases h : s.signers.card / 2 < ((s.tally.lookup coinbase).getD ⟨false, 0⟩).votes
  · rw [if_pos h, if_pos h]
    by_cases ha : ((s.tally.lookup coinbase).getD ⟨false, 0⟩).authorize = true
    · rw [if_pos ha, if_pos ha, addSigner_withHead, forget_withHead]
    · rw [if_neg ha, if_neg ha, dropSigner_withHead, forget_withHead]
  · rw [if_neg h, if_neg h]

theorem noteRecent_withHead (s : Archive) (k : DPosConfig) (n : UInt64) (x : Hash) (number : UInt64)
    (signer : Address) :
    (s.withHead k n x).noteRecent number signer = (s.noteRecent number signer).withHead k n x := rfl

theorem castVote_withHead (s : Archive) (k : DPosConfig) (n : UInt64) (x : Hash) (signer : Address)
    (number : UInt64) (coinbase : Address) (authorize : Bool) :
    (s.withHead k n x).castVote signer number coinbase authorize =
      (s.castVote signer number coinbase authorize).withHead k n x := by
  simp only [castVote, cast_withHead]
  by_cases h : (s.cast coinbase authorize).1 = true
  · rw [if_pos h, if_pos h]; rfl
  · rw [if_neg h, if_neg h]

theorem record_withHead (s : Archive) (k : DPosConfig) (n : UInt64) (x : Hash) (number : UInt64)
    (signer coinbase : Address) (authorize : Bool) :
    (s.withHead k n x).record number signer coinbase authorize =
      (s.record number signer coinbase authorize).withHead k n x := by
  simp only [record, noteRecent_withHead, discardVote_withHead, castVote_withHead,
    settle_withHead]

theorem openRound_withHead (s : Archive) (k : DPosConfig) (n : UInt64) (x : Hash) (config : DPosConfig)
    (number : UInt64) :
    (s.withHead k n x).openRound config number = (s.openRound config number).withHead k n x := by
  rw [openRound, openRound, resetEpoch_withHead, evictRecent_withHead]

/-! ## What a round checks -/

/-- **Inversion of a round.** A round succeeds exactly when the signer is recovered, is
authorized and out of the window, and the nonce is a vote; it then `record`s. -/
theorem applyHeader_eq_ok_iff {c : Crypto} {config : DPosConfig} {archive archive' : Archive}
    {header : Header} :
    archive.applyHeader c config header = .ok archive' ↔
      ∃ signer authorize, c.ecrecover header = .ok signer ∧
        signer ∈ (archive.openRound config header.numberU64).signers ∧
        (archive.openRound config header.numberU64).signedRecently signer = false ∧
        voteOfNonce header.nonce = .ok authorize ∧
        (archive.openRound config header.numberU64).record header.numberU64 signer
          header.coinbase authorize = archive' := by
  simp only [applyHeader]
  cases c.ecrecover header with
  | error e => simp
  | ok signer =>
    by_cases h₁ : signer ∈ (archive.openRound config header.numberU64).signers
    · by_cases h₂ : (archive.openRound config header.numberU64).signedRecently signer = true
      · simp [h₁, h₂]
      · cases voteOfNonce header.nonce <;> simp [h₁, h₂]
    · simp [h₁]

theorem applyHeader_withHead (c : Crypto) (config : DPosConfig) (s : Archive) (n : UInt64)
    (x : Hash) (header : Header) :
    (s.withHead k n x).applyHeader c config header =
      (s.applyHeader c config header).map (·.withHead k n x) := by
  simp only [applyHeader, openRound_withHead, signers_withHead, signedRecently_withHead]
  cases c.ecrecover header with
  | error e => rfl
  | ok signer =>
    by_cases h₁ : signer ∈ (s.openRound config header.numberU64).signers
    · by_cases h₂ : (s.openRound config header.numberU64).signedRecently signer = true
      · simp [h₁, h₂, Except.map]
      · cases voteOfNonce header.nonce <;> simp [h₁, h₂, Except.map, record_withHead]
    · simp [h₁, Except.map]

end Archive

end EpvChain.Epvdpos