import EpvChain.Agreement.Epvdpos.SealWindow
import EpvChain.Agreement.Epvdpos.Turn

/-!
# A signer's own blocks pass validation

The local signer makes a block on top of the chain head with `Prepare`, `Finalize` and `Seal`
(`produce`); every node, the signer's own included, checks it with `verifyHeader`. The two
sides compute the same facts on separate paths: the difficulty from `calcDifficulty` on the
snapshot at the head against `inturn` on the header, the vote in the nonce, the extra-data
layout, the timestamp floor, and the recents window (`Seal` waits longer than `verifySeal`
refuses).

* `prepare_eq_ok`, `sealHeader_eq_some` — what a prepared and a sealed header hold.
* `verifyHeaderFields_eq_ok`, `verifySeal_fst_eq_ok`, `verifyCascadingFields_fst_eq_ok` — what
  each validation step needs.
* `verifyHeader_produce` — a produced header passes `verifyHeader` once the clock has reached
  its time, when the chain configuration does not pin the block's number to another hash
  (`misc.VerifyForkHashes`) and the clocks fit in an `int64`.
* `verifyHeader_produce_forkHash` — without the first condition it fails: a configuration that
  pins block 1 to a hash rejects the block the signer makes there.
-/

namespace EpvChain.Epvdpos

open EpvChain.Types EpvChain.Lib

variable {σ : Type} (env : Env) (rng : GoRand σ) (chain : ChainView)

/-- The block the local signer makes on `header`, whose number and parent the worker set:
`Prepare`, then `Finalize` with the roots the state and transactions give, then `Seal`.
Source: `work/worker.go` `commitNewWork`, through `agreement/epvdpos/epvdpos.go` -/
def produce (proposals : List (Address × Bool)) (signer : Address) (now : Nat)
    (root txHash receiptHash : Hash) (signFn : Address → Hash → Except DposError (List UInt8))
    (txCount : Nat) (stopped : Bool) (header : Header) (st : σ) :
    Except DposError (Option Header) × σ :=
  match prepare env rng chain proposals signer now header st with
  | (.error e, st) => (.error e, st)
  | (.ok prepared, st) =>
    sealHeader env rng chain signer signFn txCount stopped
      (finalize env root txHash receiptHash prepared) st

/-! ### What `Prepare` and `Seal` produce -/

/-- The signer list a header carries in its extra-data: the sorted signers at a checkpoint,
nothing otherwise. -/
def checkpointBytes (arch : Archive) (number : UInt64) : List UInt8 :=
  if number % env.config.epoch = 0 then signerBytes arch else []

/-- The extra-data of `Prepare`: a vanity of its length, the signer list, room for the seal. -/
theorem prepareExtra_eq (arch : Archive) (number : UInt64) (extra : List UInt8) :
    ∃ vanity : List UInt8, vanity.length = extraVanity ∧
      prepareExtra env arch number extra =
        vanity ++ (checkpointBytes env arch number ++ List.replicate extraSeal 0) := by
  refine ⟨(if extra.length < extraVanity then
      extra ++ List.replicate (extraVanity - extra.length) 0 else extra).take extraVanity, ?_, ?_⟩
  · split_ifs with h <;> simp [extraVanity] at h ⊢ <;> omega
  · simp only [prepareExtra, checkpointBytes]
    split_ifs <;> simp

/-- Sealing replaces the last `extraSeal` bytes of an extra-data laid out by `Prepare`. -/
theorem sealExtra_eq (vanity body sig : List UInt8) :
    let extra := vanity ++ (body ++ List.replicate extraSeal 0)
    extra.take (extra.length - extraSeal) ++ copySlice (extra.drop (extra.length - extraSeal)) sig =
      vanity ++ (body ++ copySlice (List.replicate extraSeal 0) sig) := by
  intro extra
  have hlen : extra.length - extraSeal = (vanity ++ body).length := by
    simp [extra]
    omega
  have hsplit : extra = (vanity ++ body) ++ List.replicate extraSeal 0 := by
    simp [extra]
  rw [hlen, hsplit, List.take_left' rfl, List.drop_left' rfl, List.append_assoc]

/-- The vote leaves every field but the coinbase and nonce, sets them only outside
checkpoints, and puts a vote or the old nonce in the nonce. -/
theorem proposeVote_fst (arch : Archive) (proposals : List (Address × Bool)) (number : UInt64)
    (header : Header) (st : σ) :
    ∃ coinbase nonce, (proposeVote env rng arch proposals number header st).1 =
        { header with coinbase, nonce } ∧
      (number % env.config.epoch = 0 → coinbase = header.coinbase ∧ nonce = header.nonce) ∧
      (nonce = header.nonce ∨ nonce = nonceAuthVote ∨ nonce = nonceDropVote) := by
  simp only [proposeVote]
  split_ifs with hcp hnone hauth
  · exact ⟨header.coinbase, header.nonce, rfl, fun h => absurd h hcp, .inl rfl⟩
  · exact ⟨_, _, rfl, fun h => absurd h hcp, .inr (.inl rfl)⟩
  · exact ⟨_, _, rfl, fun h => absurd h hcp, .inr (.inr rfl)⟩
  · exact ⟨header.coinbase, header.nonce, rfl, fun _ => ⟨rfl, rfl⟩, .inl rfl⟩

/-- The decision of `inturn` does not read the state of the source, which it reseeds. -/
theorem inturn_fst_state (s : Archive) (number : UInt64) (signer : Address) (hash : Hash)
    (st st' : σ) : (s.inturn rng number signer hash st).1 = (s.inturn rng number signer hash st').1 :=
  rfl

/-- What a header prepared by `Prepare` holds. -/
theorem prepare_eq_ok {proposals : List (Address × Bool)} {signer : Address} {now : Nat}
    {header h : Header} {st st' : σ}
    (e : prepare env rng chain proposals signer now header st = (.ok h, st')) :
    ∃ arch parent, chain.archive (header.numberU64 - 1) header.parentHash [] = .ok arch ∧
      chain.getHeader header.parentHash (header.numberU64 - 1) = some parent ∧
      arch.inturnPanics (arch.number + 1) = false ∧
      h.number = header.number ∧ h.parentHash = header.parentHash ∧
      h.difficulty =
        (if (arch.inturn rng (arch.number + 1) signer arch.hash st).1 then diffInTurn
          else diffNoTurn) ∧
      h.extra = prepareExtra env arch header.numberU64 header.extra ∧
      h.mixDigest = Hash.zero ∧
      (h.nonce = nonceAuthVote ∨ h.nonce = nonceDropVote) ∧
      (header.numberU64 % env.config.epoch = 0 →
        h.coinbase = Address.zero ∧ h.nonce = nonceDropVote) ∧
      h.timeMS =
        (if Int64.ofNat (parent.timeMS + env.config.period.toNat) < Int64.ofNat now then now
          else parent.timeMS + env.config.period.toNat) := by
  unfold prepare at e
  cases harch : chain.archive (header.numberU64 - 1) header.parentHash [] with
  | error err =>
    simp only [Header.numberU64] at harch
    simp [Header.numberU64, harch] at e
  | ok arch =>
    obtain ⟨coinbase, nonce, hvote, hcp, hnonce⟩ := proposeVote_fst env rng arch proposals
      header.numberU64 { header with coinbase := Address.zero, nonce := 0 } st
    simp only [Header.numberU64] at harch hvote hcp
    simp only [Header.numberU64, harch, hvote] at e
    -- `calcDifficulty` panics with no able signer, and `Prepare` with it
    have hpanic : arch.inturnPanics (arch.number + 1) = false := by
      cases h : arch.inturnPanics (arch.number + 1)
      · rfl
      · simp [calcDifficulty, h] at e
    simp only [calcDifficulty, hpanic, Bool.false_eq_true, if_false] at e
    cases hparent : chain.getHeader header.parentHash (UInt64.ofNat header.number - 1) with
    | none => simp [hparent] at e
    | some parent =>
      simp only [hparent, Prod.mk.injEq, Except.ok.injEq] at e
      obtain ⟨rfl, -⟩ := e
      refine ⟨arch, parent, rfl, by simpa [Header.numberU64] using hparent, hpanic, rfl, rfl, rfl,
        ?_, rfl, ?_, fun h => ?_, rfl⟩
      · simp only [prepareExtra, Header.numberU64]
        split_ifs <;> rfl
      · -- the cleared nonce is the drop vote
        rcases hnonce with h | h | h <;> simp [h, nonceDropVote]
      · obtain ⟨hc, hn⟩ := hcp h
        exact ⟨hc, by simp [hn, nonceDropVote]⟩

/-- What a header sealed by `Seal` holds. -/
theorem sealHeader_eq_some {signer : Address}
    {signFn : Address → Hash → Except DposError (List UInt8)} {txCount : Nat} {stopped : Bool}
    {header h : Header} {st st' : σ}
    (e : sealHeader env rng chain signer signFn txCount stopped header st = (.ok (some h), st')) :
    header.numberU64 ≠ 0 ∧ ∃ arch sig,
      chain.archive (header.numberU64 - 1) header.parentHash [] = .ok arch ∧
      signer ∈ arch.signers ∧ arch.mustWait header.numberU64 signer = false ∧
      h = { header with
        extra := header.extra.take (header.extra.length - extraSeal) ++
          copySlice (header.extra.drop (header.extra.length - extraSeal)) sig } := by
  simp only [sealHeader] at e
  by_cases hzero : header.numberU64 = 0
  · rw [if_pos hzero] at e
    simp at e
  rw [if_neg hzero] at e
  by_cases hwait : env.config.period = 0 ∧ txCount = 0
  · rw [if_pos hwait] at e
    simp at e
  rw [if_neg hwait] at e
  cases harch : chain.archive (header.numberU64 - 1) header.parentHash [] with
  | error err => simp [harch] at e
  | ok arch =>
    simp only [harch] at e
    by_cases hmem : signer ∈ arch.signers
    case neg =>
      rw [if_pos hmem] at e
      simp at e
    rw [if_neg (not_not.mpr hmem)] at e
    by_cases hrecent : arch.mustWait header.numberU64 signer = true
    · rw [if_pos hrecent] at e
      simp at e
    rw [if_neg hrecent] at e
    by_cases hstop : stopped = true
    · rw [if_pos hstop] at e
      simp at e
    rw [if_neg hstop] at e
    cases hsig : signFn signer (env.sigHash header) with
    | error err => simp [hsig] at e
    | ok sig =>
      simp only [hsig, Prod.mk.injEq, Except.ok.injEq, Option.some.injEq] at e
      exact ⟨hzero, arch, sig, rfl, hmem, by simpa using hrecent, e.1.symm⟩

/-! ### What validation needs -/

/-- The recents test of `Seal` is stricter than that of `verifySeal`. -/
theorem Archive.sealedRecently_eq_false_of_mustWait {s : Archive} {number : UInt64}
    {signer : Address} (h : s.mustWait number signer = false) :
    s.sealedRecently number signer = false := by
  unfold Archive.mustWait at h
  unfold Archive.sealedRecently
  rw [finmap_any_eq_false] at h ⊢
  intro seen recent hseen
  have hw := h seen recent hseen
  simp only [Bool.and_eq_false_iff, Bool.or_eq_false_iff] at hw ⊢
  rcases hw with hw | hw
  · exact .inl hw
  · exact .inr hw.2

/-- The timestamp `Prepare` sets is not below the floor `verifyCascadingFields` checks, when
both clocks fit in an `int64`. -/
theorem not_lt_timestamp_floor {p now : Nat} {period : UInt64}
    (hp : p + period.toNat < 2 ^ 63) (hnow : now < 2 ^ 63) :
    ¬UInt64.ofNat (if Int64.ofNat (p + period.toNat) < Int64.ofNat now then now
        else p + period.toNat) < UInt64.ofNat p + period := by
  have hsum : UInt64.ofNat p + period = UInt64.ofNat (p + period.toNat) := by
    rw [UInt64.ofNat_add, UInt64.ofNat_toNat]
  rw [hsum]
  split_ifs with h
  · -- `now` is past the floor, as numbers
    have hsize : UInt64.size = 2 ^ 64 := rfl
    rw [Int64.lt_iff_toInt_lt, Int64.toInt_ofNat_of_lt hp, Int64.toInt_ofNat_of_lt hnow] at h
    rw [UInt64.lt_iff_toNat_lt, UInt64.toNat_ofNat_of_lt' (by omega),
      UInt64.toNat_ofNat_of_lt' (by omega)]
    omega
  · exact UInt64.lt_irrefl _

/-- The checks of `verifyHeader` on the header alone pass when each field has the shape
`Prepare` gives it: `k` signers in the extra-data, none outside checkpoints. -/
theorem verifyHeaderFields_eq_ok {now : Nat} {header : Header} {k : Nat}
    (htime : header.timeMS ≤ now + futureTimeMS)
    (hcoinbase : header.numberU64 % env.config.epoch = 0 → header.coinbase = Address.zero)
    (hnonce : header.nonce = nonceAuthVote ∨ header.nonce = nonceDropVote)
    (hcpnonce : header.numberU64 % env.config.epoch = 0 → header.nonce = nonceDropVote)
    (hlen : header.extra.length = extraVanity + k * AddressLength + extraSeal)
    (hk : header.numberU64 % env.config.epoch ≠ 0 → k = 0)
    (hmix : header.mixDigest = Hash.zero) (huncle : header.uncleHash = env.uncleHash)
    (hdiff : header.difficulty = diffInTurn ∨ header.difficulty = diffNoTurn)
    (hfork : verifyForkHashes env.crypto env.forks header false = .ok ()) :
    verifyHeaderFields env now header = .ok () := by
  have hvote : ¬(header.nonce ≠ nonceAuthVote ∧ header.nonce ≠ nonceDropVote) := by
    rintro ⟨h₁, h₂⟩
    rcases hnonce with h | h
    · exact h₁ h
    · exact h₂ h
  have hd : ¬(0 < header.numberU64 ∧ header.difficulty ≠ diffInTurn ∧
      header.difficulty ≠ diffNoTurn) := by
    rintro ⟨-, h₁, h₂⟩
    rcases hdiff with h | h
    · exact h₁ h
    · exact h₂ h
  unfold verifyHeaderFields
  simp only
  rw [if_neg (by omega), if_neg (fun h => h.2 (hcoinbase h.1)), if_neg hvote,
    if_neg (fun h => h.2 (hcpnonce h.1)), if_neg (by rw [hlen]; omega),
    if_neg (by rw [hlen]; omega), if_neg (fun h => h.2 (by rw [hlen, hk h.1]; simp)),
    if_neg (fun h => h.2 (by rw [hlen]; simp [extraVanity, extraSeal, AddressLength])),
    if_neg (fun h => h hmix), if_neg (fun h => h huncle), if_neg hd]
  exact hfork

/-- `verifySeal` passes a header from an authorized signer outside the window whose difficulty
is its turn's. -/
theorem verifySeal_fst_eq_ok {header : Header} {st : σ} {arch : Archive} {signer : Address}
    (hpos : header.numberU64 ≠ 0)
    (harch : chain.archive (header.numberU64 - 1) header.parentHash [] = .ok arch)
    (hsigner : env.crypto.ecrecover header = .ok signer) (hmem : signer ∈ arch.signers)
    (hrecent : arch.sealedRecently header.numberU64 signer = false)
    (hable : arch.inturnPanics header.numberU64 = false)
    (hdiff : header.difficulty =
      if (arch.inturn rng header.numberU64 signer header.parentHash st).1 then diffInTurn
        else diffNoTurn) :
    (verifySeal env rng chain header [] st).1 = .ok () := by
  simp only [verifySeal, hpos, if_false, harch, hsigner, hmem, not_true_eq_false, hrecent, hable,
    Bool.false_eq_true]
  cases hturn : (arch.inturn rng header.numberU64 signer header.parentHash st).1 <;>
    simp [hturn, hdiff, diffInTurn, diffNoTurn]

/-- `verifyCascadingFields` passes a header on a known parent, not before the timestamp floor,
with the snapshot's signers at a checkpoint, when `verifySeal` passes it. -/
theorem verifyCascadingFields_fst_eq_ok {header parent : Header} {st : σ} {arch : Archive}
    (hpos : header.numberU64 ≠ 0)
    (hparent : chain.getHeader header.parentHash (header.numberU64 - 1) = some parent)
    (hpn : parent.numberU64 = header.numberU64 - 1)
    (hph : env.crypto.hash parent = header.parentHash)
    (htime : ¬UInt64.ofNat header.timeMS < UInt64.ofNat parent.timeMS + env.config.period)
    (harch : chain.archive (header.numberU64 - 1) header.parentHash [] = .ok arch)
    (hcp : header.numberU64 % env.config.epoch = 0 →
      (header.extra.drop extraVanity).take (header.extra.length - extraSeal - extraVanity) =
        signerBytes arch)
    (hseal : (verifySeal env rng chain header [] st).1 = .ok ()) :
    (verifyCascadingFields env rng chain header [] st).1 = .ok () := by
  simp only [verifyCascadingFields, hpos, if_false, parentOf, if_true, hparent, hpn, hph,
    ne_eq, not_true_eq_false, or_self, htime, harch]
  rw [if_neg (fun h => h.2 (hcp h.1))]
  exact hseal

/-- The checkpoint signer list is twenty bytes a signer. -/
theorem length_signerBytes (arch : Archive) :
    (signerBytes arch).length = arch.signersList.length * AddressLength := by
  unfold signerBytes
  induction arch.signersList with
  | nil => rfl
  | cons a rest ih =>
    rw [List.map_cons, List.flatten_cons, List.length_append, ih, Address.length_toBytes,
      List.length_cons, Nat.succ_mul, Nat.add_comm]

/-- The signer list in a produced header: `k` signers at a checkpoint, none elsewhere. -/
theorem length_checkpointBytes (arch : Archive) (number : UInt64) :
    (checkpointBytes env arch number).length =
      (if number % env.config.epoch = 0 then arch.signersList.length else 0) * AddressLength := by
  unfold checkpointBytes
  split_ifs
  · exact length_signerBytes arch
  · simp

/-! ### A produced header passes validation -/

/-- **A signer's own block passes `verifyHeader`.** The block is produced on a chain head whose
parent and snapshot the chain knows, by a signer whose seal recovers to it (`Seal` only returns
a block for an authorized signer outside the window); it is checked once the clock has reached
its time. Two conditions are not in the code's reach: the chain configuration must not pin the
block's number to another hash (`hfork`), and the clocks must fit in an `int64`. -/
theorem verifyHeader_produce {proposals : List (Address × Bool)} {signer : Address}
    {now now' : Nat} {root txHash receiptHash : Hash}
    {signFn : Address → Hash → Except DposError (List UInt8)} {txCount : Nat} {stopped : Bool}
    {header sealed parent : Header} {st st' st'' : σ}
    (hprod : produce env rng chain proposals signer now root txHash receiptHash signFn txCount
      stopped header st = (.ok (some sealed), st'))
    (hparent : chain.getHeader header.parentHash (header.numberU64 - 1) = some parent)
    (hpn : parent.numberU64 = header.numberU64 - 1)
    (hph : env.crypto.hash parent = header.parentHash)
    (hhead : ∀ arch, chain.archive (header.numberU64 - 1) header.parentHash [] = .ok arch →
      arch.number + 1 = header.numberU64 ∧ arch.hash = header.parentHash)
    (hrecover : env.crypto.ecrecover sealed = .ok signer)
    (htime : parent.timeMS + env.config.period.toNat < 2 ^ 63) (hnow : now < 2 ^ 63)
    (hclock : sealed.timeMS ≤ now')
    (hfork : verifyForkHashes env.crypto env.forks sealed false = .ok ()) :
    (verifyHeader env rng chain now' sealed [] st'').1 = .ok () := by
  unfold produce at hprod
  rcases hp : prepare env rng chain proposals signer now header st with ⟨_ | prepared, stp⟩
  · rw [hp] at hprod
    cases hprod
  rw [hp] at hprod
  obtain ⟨arch, parent', harch, hparent', hable, hnum, hpar, hdiff, hextra, hmix, hnonce, hcp,
    htimeMS⟩ := prepare_eq_ok env rng chain hp
  rw [hparent] at hparent'
  cases hparent'
  obtain ⟨hpos, arch', sig, harch', hmem, hwait, hsealed⟩ := sealHeader_eq_some env rng chain hprod
  -- the sealed header keeps what `Prepare` and `Finalize` set, and the worker's number and parent
  have hsN : sealed.numberU64 = header.numberU64 := by
    simp [hsealed, finalize, Header.numberU64, hnum]
  have hsP : sealed.parentHash = header.parentHash := by simp [hsealed, finalize, hpar]
  have hfN : (finalize env root txHash receiptHash prepared).numberU64 = header.numberU64 := by
    simp [finalize, Header.numberU64, hnum]
  have hfP : (finalize env root txHash receiptHash prepared).parentHash = header.parentHash := by
    simp [finalize, hpar]
  rw [hfN, hfP, harch] at harch'
  cases harch'
  rw [hfN] at hpos hwait
  obtain ⟨hanum, hahash⟩ := hhead arch harch
  -- the extra-data: vanity, signer list, seal
  obtain ⟨vanity, hvlen, hpe⟩ := prepareExtra_eq env arch header.numberU64 header.extra
  have hsE : sealed.extra =
      vanity ++ (checkpointBytes env arch header.numberU64 ++
        copySlice (List.replicate extraSeal 0) sig) := by
    rw [hsealed]
    simp only [finalize, hextra, hpe]
    exact sealExtra_eq vanity _ sig
  set k := if header.numberU64 % env.config.epoch = 0 then arch.signersList.length else 0 with hk
  have hlen : sealed.extra.length = extraVanity + k * AddressLength + extraSeal := by
    simp [hsE, hvlen, length_checkpointBytes, hk]
    omega
  have hcp' : sealed.numberU64 % env.config.epoch = 0 →
      sealed.coinbase = Address.zero ∧ sealed.nonce = nonceDropVote := fun h => by
    rw [hsN] at h
    simpa [hsealed, finalize] using hcp h
  have hfields : verifyHeaderFields env now' sealed = .ok () :=
    verifyHeaderFields_eq_ok env (k := k) (by omega) (fun h => (hcp' h).1)
      (by simpa [hsealed, finalize] using hnonce) (fun h => (hcp' h).2) hlen
      (fun h => by simp [hk, show ¬header.numberU64 % env.config.epoch = 0 by rwa [hsN] at h])
      (by simpa [hsealed, finalize] using hmix) (by simp [hsealed, finalize])
      (by simp only [hsealed, finalize, hdiff]; split_ifs <;> simp) hfork
  -- the difficulty `Prepare` set is the turn `verifySeal` recomputes
  have hturn : sealed.difficulty =
      if (arch.inturn rng sealed.numberU64 signer sealed.parentHash st'').1 then diffInTurn
        else diffNoTurn := by
    rw [hsN, hsP, ← hanum, ← hahash, ← inturn_fst_state rng arch (arch.number + 1) signer
      arch.hash st st'']
    simpa [hsealed, finalize] using hdiff
  have hseal : (verifySeal env rng chain sealed [] st'').1 = .ok () :=
    verifySeal_fst_eq_ok env rng chain (by rwa [hsN]) (by rwa [hsN, hsP]) hrecover hmem
      (by rw [hsN]; exact Archive.sealedRecently_eq_false_of_mustWait hwait)
      (by rwa [hsN, ← hanum]) hturn
  -- at a checkpoint the signer list sits between the vanity and the seal
  have hlist : sealed.numberU64 % env.config.epoch = 0 →
      (sealed.extra.drop extraVanity).take (sealed.extra.length - extraSeal - extraVanity) =
        signerBytes arch := by
    intro h
    rw [hsN] at h
    have hcb : checkpointBytes env arch header.numberU64 = signerBytes arch := by
      simp [checkpointBytes, h]
    rw [hlen, hsE, hcb, List.drop_left' hvlen]
    simp [hk, h, length_signerBytes]
  unfold verifyHeader
  rw [hfields]
  exact verifyCascadingFields_fst_eq_ok env rng chain (by rwa [hsN]) (by rwa [hsN, hsP])
    (by rwa [hsN]) (by rwa [hsP])
    (by simpa [hsealed, finalize, htimeMS] using not_lt_timestamp_floor htime hnow)
    (by rwa [hsN, hsP]) hlist hseal

/-! ### Block 1 of a four-signer chain -/

/-- The engine of the smallest case: the crypto and signers of `windowGenesis`, blocks fifteen
apart, and the fork configuration `forks`. -/
def genesisEnv (forks : ForkConfig) : Env := ⟨windowCrypto, fun _ => 0, 0, forks, ⟨15, 30000⟩⟩

/-- A chain of the genesis block alone, whose snapshot is `windowGenesis`. -/
def genesisChain : ChainView where
  getHeader hash number := if number = 0 ∧ hash = 0 then some (windowHeader 0 0) else none
  archive number hash _ := if number = 0 ∧ hash = 0 then .ok windowGenesis else .error .unknownAncestor

/-- Signer `1` makes block 1 with no proposals, signing with sixty-five zero bytes. -/
def genesisBlock (forks : ForkConfig) : Except DposError (Option Header) × Nat :=
  produce (genesisEnv forks) counterRand genesisChain [] 1 0 0 0 0
    (fun _ _ => .ok (List.replicate extraSeal 0)) 1 false (windowHeader 1 0) 0

/-- **A configuration that pins block 1 to another hash rejects the signer's block 1.** -/
theorem verifyHeader_produce_forkHash :
    ∃ sealed st', genesisBlock ⟨some 1, 5⟩ = (.ok (some sealed), st') ∧ sealed.timeMS ≤ 15 ∧
      (verifyHeader (genesisEnv ⟨some 1, 5⟩) counterRand genesisChain 15 sealed [] 0).1 =
        .error .forkHash :=
  ⟨_, _, rfl, by decide, by decide⟩

/-- The engine of `genesisEnv` with no pinned hash and an epoch of one block: every block is a
checkpoint. -/
def checkpointEnv : Env := ⟨windowCrypto, fun _ => 0, 0, ⟨none, 0⟩, ⟨15, 1⟩⟩

/-- Signer `1` makes block 1, a checkpoint, as `genesisBlock` does. -/
def checkpointBlock : Except DposError (Option Header) × Nat :=
  produce checkpointEnv counterRand genesisChain [] 1 0 0 0 0
    (fun _ _ => .ok (List.replicate extraSeal 0)) 1 false (windowHeader 1 0) 0

/-- Without a pinned hash the signer's block 1 passes, as a plain block with no signer list and
as a checkpoint carrying the four signers. -/
theorem verifyHeader_produce_genesis :
    (∃ sealed st', genesisBlock ⟨none, 0⟩ = (.ok (some sealed), st') ∧
      sealed.extra.length = extraVanity + extraSeal ∧
      (verifyHeader (genesisEnv ⟨none, 0⟩) counterRand genesisChain 15 sealed [] 0).1 = .ok ()) ∧
    (∃ sealed st', checkpointBlock = (.ok (some sealed), st') ∧
      sealed.extra.length = extraVanity + 4 * AddressLength + extraSeal ∧
      (verifyHeader checkpointEnv counterRand genesisChain 15 sealed [] 0).1 = .ok ()) := by
  have hhead : ∀ arch, genesisChain.archive 0 0 [] = .ok arch →
      arch.number + 1 = 1 ∧ arch.hash = 0 := by
    intro arch h
    cases h
    exact ⟨rfl, rfl⟩
  refine ⟨⟨_, _, rfl, by decide +kernel, ?_⟩, ⟨_, _, rfl, by decide +kernel, ?_⟩⟩
  · exact @verifyHeader_produce Nat (genesisEnv ⟨none, 0⟩) counterRand genesisChain [] 1 0 15 0 0 0
      (fun _ _ => .ok (List.replicate extraSeal 0)) 1 false (windowHeader 1 0) _ (windowHeader 0 0)
      0 _ 0 rfl rfl rfl rfl hhead rfl (by decide) (by decide) (by decide) rfl
  · exact @verifyHeader_produce Nat checkpointEnv counterRand genesisChain [] 1 0 15 0 0 0
      (fun _ _ => .ok (List.replicate extraSeal 0)) 1 false (windowHeader 1 0) _ (windowHeader 0 0)
      0 _ 0 rfl rfl rfl rfl hhead rfl (by decide) (by decide) (by decide) rfl

end EpvChain.Epvdpos
