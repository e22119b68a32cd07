import EpvChain.Agreement.Epvdpos.Archive

/-!
# The DPoS engine (`agreement/epvdpos/epvdpos.go`)

The functions of `DPos` that decide whether a header may join the chain, and those that make one:

* `Archive.inturn`, `calcDifficulty` — whose turn it is: `inturn` reseeds Go's process-wide
  `math/rand` source with the parent hash's low eight bytes and draws an index into the able
  signers. The generator is a parameter (`GoRand`). With no able signer `rand.Intn(0)` panics
  (`Archive.inturnPanics`, the error `randPanic`).
* `Archive.sealedRecently`, `Archive.mustWait` — the recents loops of `verifySeal` and `Seal`,
  with `number - limit` in `uint64`.
* `verifyHeaderFields`, `verifyCascadingFields`, `verifySeal`, `verifyHeader` — validation;
  `verifyForkHashes` is `misc.VerifyForkHashes`.
* `prepare`, `finalize`, `sealHeader` — production by the local signer (`Seal` is `sealHeader`).

What `epvdpos.go` reads and does not compute is a parameter: `Crypto`, the seal hash and signing
function, `ForkConfig`, the chain (`ChainView`, built from `DPos.archive` in `Snapshot`), the
clock in milliseconds and Go's range order over `c.proposals`. Every function threads the state
of the random source.
-/

namespace EpvChain.Epvdpos

open EpvChain.Types EpvChain.Lib

/-- `extraVanity`: the bytes of extra-data kept for the signer's vanity. -/
def extraVanity : Nat := 32

/-- `extraSeal`: the bytes of extra-data kept for the seal. -/
def extraSeal : Nat := 65

/-- `diffInTurn`. -/
def diffInTurn : Nat := 2

/-- `diffNoTurn`. -/
def diffNoTurn : Nat := 1

/-- `futureTime`, in milliseconds. -/
def futureTimeMS : Nat := 5000

/-- `int64(wiggleTime)`: half a second, in nanoseconds. -/
def wiggleTime : Int64 := 500000000

/-- Go's process-wide `math/rand` source as this package uses it: `rand.Seed` sets the state
from a seed, `rand.Intn` and `rand.Int63n` draw from it and advance it. A draw below `n` is
what the source promises for `n > 0`.
Source: `math/rand` `Seed`, `Intn`, `Int63n` -/
structure GoRand (σ : Type) where
  seed : Int64 → σ
  intn : σ → Nat → Nat × σ
  int63n : σ → Int64 → Int64 × σ
  intn_lt : ∀ st n, 0 < n → (intn st n).1 < n

/-- The fields of `params.ChainConfig` that `misc.VerifyForkHashes` reads. -/
structure ForkConfig where
  eip150Block : Option Nat
  eip150Hash : Hash

/-- `misc.VerifyForkHashes`: the block at the EIP-150 fork must have the configured hash, if
one is configured.
Source: `agreement/misc/forks.go` `VerifyForkHashes` -/
def verifyForkHashes (c : Crypto) (config : ForkConfig) (header : Header) (uncle : Bool) :
    Except DposError Unit :=
  if uncle then .ok ()
  else if config.eip150Block = some header.number ∧ config.eip150Hash ≠ Hash.zero ∧
      config.eip150Hash ≠ c.hash header then .error .forkHash
  else .ok ()

namespace Archive

variable {σ : Type}

/-- `Archive.inturn`: reseed the source with the low eight bytes of `hash`, draw an index into
the able signers, and compare it with the signer's position among them (their count when it is
not one of them). The state before the call is overwritten by `rand.Seed`. With no able signer
`rand.Intn(0)` panics: the callers test `inturnPanics` first.
Source: `agreement/epvdpos/archive.go` `Archive.inturn` -/
def inturn (rng : GoRand σ) (s : Archive) (number : UInt64) (signer : Address) (hash : Hash)
    (_ : σ) : Bool × σ :=
  let signers := s.ableSigners number
  let draw := rng.intn (rng.seed hash.lowInt64) signers.length
  (draw.1 == signers.idxOf signer, draw.2)

/-- Whether `inturn` panics: `rand.Intn` of the number of able signers, when there are none.
Source: `agreement/epvdpos/archive.go` `Archive.inturn`, `rand.Intn(sigLen)` -/
def inturnPanics (s : Archive) (number : UInt64) : Bool := (s.ableSigners number).isEmpty

/-- The recents loop of `verifySeal`: the signer holds a block later than `number - limit`,
the subtraction in `uint64`.
Source: `agreement/epvdpos/epvdpos.go` `DPos.verifySeal`, `for seen, recent := range arch.Recents` -/
def sealedRecently (s : Archive) (number : UInt64) (signer : Address) : Bool :=
  s.recents.any fun seen recent => recent == signer && decide (number - s.limit < seen)

/-- The recents loop of `Seal`: the test of `verifySeal`, and also any block of the signer while
`number < limit`.
Source: `agreement/epvdpos/epvdpos.go` `DPos.Seal`, `for seen, recent := range arch.Recents` -/
def mustWait (s : Archive) (number : UInt64) (signer : Address) : Bool :=
  s.recents.any fun seen recent =>
    recent == signer && (decide (number < s.limit) || decide (number - s.limit < seen))

end Archive

/-- `calcDifficulty`: in turn for the block after the archive's; the panic of `inturn`.
Source: `agreement/epvdpos/epvdpos.go` `calcDifficulty` -/
def calcDifficulty {σ : Type} (rng : GoRand σ) (arch : Archive) (signer : Address) (st : σ) :
    Except DposError Nat × σ :=
  if arch.inturnPanics (arch.number + 1) then (.error .randPanic, st)
  else
    let r := arch.inturn rng (arch.number + 1) signer arch.hash st
    (.ok (if r.1 then diffInTurn else diffNoTurn), r.2)

/-- What the engine computes with and does not define: the header hash and signer recovery,
the seal hash `sigHash`, the hash of an empty uncle list (`types.EmptyUncleHash`), the chain
configuration, and the engine's own configuration (its epoch defaulted by `New`). -/
structure Env where
  crypto : Crypto
  sigHash : Header → Hash
  uncleHash : Hash
  forks : ForkConfig
  config : DPosConfig

/-- What the engine asks of the chain: a header by hash and number (`chain.GetHeader`), and the
snapshot at a block given the headers not yet in the chain (`DPos.archive`, whose model
`ChainView.ofDPos` makes this view). -/
structure ChainView where
  getHeader : Hash → UInt64 → Option Header
  archive : UInt64 → Hash → List Header → Except DposError Archive

section Validation

variable {σ : Type} (env : Env) (rng : GoRand σ) (chain : ChainView)

/-- The checks of `DPos.verifyHeader` on the header alone, up to `misc.VerifyForkHashes`.
Source: `agreement/epvdpos/epvdpos.go` `DPos.verifyHeader` -/
def verifyHeaderFields (now : Nat) (header : Header) : Except DposError Unit :=
  let number := header.numberU64
  let checkpoint := number % env.config.epoch = 0
  let signersBytes := header.extra.length - extraVanity - extraSeal
  if header.timeMS > now + futureTimeMS then .error .futureBlock
  else if checkpoint ∧ header.coinbase ≠ Address.zero then .error .invalidCheckpointBeneficiary
  else if header.nonce ≠ nonceAuthVote ∧ header.nonce ≠ nonceDropVote then .error .invalidVote
  else if checkpoint ∧ header.nonce ≠ nonceDropVote then .error .invalidCheckpointVote
  else if header.extra.length < extraVanity then .error .missingVanity
  else if header.extra.length < extraVanity + extraSeal then .error .missingSignature
  else if ¬checkpoint ∧ signersBytes ≠ 0 then .error .extraSigners
  else if checkpoint ∧ signersBytes % AddressLength ≠ 0 then .error .invalidCheckpointSigners
  else if header.mixDigest ≠ Hash.zero then .error .invalidMixDigest
  else if header.uncleHash ≠ env.uncleHash then .error .invalidUncleHash
  else if 0 < number ∧ header.difficulty ≠ diffInTurn ∧ header.difficulty ≠ diffNoTurn then
    .error .invalidDifficulty
  else verifyForkHashes env.crypto env.forks header false

/-- `DPos.verifySeal`: the signer is authorized, has not signed within the window, and the
difficulty says whether it was its turn.
Source: `agreement/epvdpos/epvdpos.go` `DPos.verifySeal` -/
def verifySeal (header : Header) (parents : List Header) (st : σ) : Except DposError Unit × σ :=
  let number := header.numberU64
  if number = 0 then (.error .unknownBlock, st)
  else
    match chain.archive (number - 1) header.parentHash parents with
    | .error e => (.error e, st)
    | .ok arch =>
      match env.crypto.ecrecover header with
      | .error e => (.error e, st)
      | .ok signer =>
        if signer ∉ arch.signers then (.error .unauthorized, st)
        else if arch.sealedRecently number signer then (.error .unauthorized, st)
        else if arch.inturnPanics number then (.error .randPanic, st)
        else
          let r := arch.inturn rng number signer header.parentHash st
          if r.1 = true ∧ header.difficulty ≠ diffInTurn then (.error .invalidDifficulty, r.2)
          else if r.1 = false ∧ header.difficulty ≠ diffNoTurn then (.error .invalidDifficulty, r.2)
          else (.ok (), r.2)

/-- The parent `verifyCascadingFields` checks against: the last of the headers not yet in the
chain, or the chain's header one below. -/
def parentOf (header : Header) (parents : List Header) : Option Header :=
  if parents = [] then chain.getHeader header.parentHash (header.numberU64 - 1)
  else parents.getLast?

/-- The checkpoint signer list of `verifyCascadingFields` and `Prepare`: the sorted signers'
bytes, one after the other. -/
def signerBytes (arch : Archive) : List UInt8 :=
  (arch.signersList.map Address.toBytes).flatten

/-- `DPos.verifyCascadingFields`: the parent, the timestamp floor, the checkpoint signer list,
then `verifySeal`.
Source: `agreement/epvdpos/epvdpos.go` `DPos.verifyCascadingFields` -/
def verifyCascadingFields (header : Header) (parents : List Header) (st : σ) :
    Except DposError Unit × σ :=
  let number := header.numberU64
  if number = 0 then (.ok (), st)
  else
    match parentOf chain header parents with
    | none => (.error .unknownAncestor, st)
    | some parent =>
      if parent.numberU64 ≠ number - 1 ∨ env.crypto.hash parent ≠ header.parentHash then
        (.error .unknownAncestor, st)
      else if UInt64.ofNat header.timeMS < UInt64.ofNat parent.timeMS + env.config.period then
        (.error .invalidTimestamp, st)
      else
        match chain.archive (number - 1) header.parentHash parents with
        | .error e => (.error e, st)
        | .ok arch =>
          if number % env.config.epoch = 0 ∧
              (header.extra.drop extraVanity).take
                (header.extra.length - extraSeal - extraVanity) ≠ signerBytes arch then
            (.error .invalidCheckpointSigners, st)
          else verifySeal env rng chain header parents st

/-- `DPos.verifyHeader`.
Source: `agreement/epvdpos/epvdpos.go` `DPos.verifyHeader` -/
def verifyHeader (now : Nat) (header : Header) (parents : List Header) (st : σ) :
    Except DposError Unit × σ :=
  match verifyHeaderFields env now header with
  | .error e => (.error e, st)
  | .ok () => verifyCascadingFields env rng chain header parents st

end Validation

section Production

variable {σ : Type} (env : Env) (rng : GoRand σ) (chain : ChainView)

/-- The vote of `Prepare`: outside checkpoints, a proposal drawn at random among those valid
for the archive, as the coinbase, with its direction in the nonce. `proposals` is `c.proposals`
in the order Go ranges over it. -/
def proposeVote (arch : Archive) (proposals : List (Address × Bool)) (number : UInt64)
    (header : Header) (st : σ) : Header × σ :=
  if number % env.config.epoch ≠ 0 then
    let addresses := (proposals.filter fun p => arch.validVote p.1 p.2).map Prod.fst
    if addresses = [] then (header, st)
    else
      let draw := rng.intn st addresses.length
      let coinbase := addresses.getD draw.1 Address.zero
      let nonce := if (proposals.lookup coinbase).getD false then nonceAuthVote else nonceDropVote
      ({ header with coinbase, nonce }, draw.2)
  else (header, st)

/-- The extra-data `Prepare` lays out: the vanity padded or cut to its length, the signer list
at a checkpoint, and room for the seal. -/
def prepareExtra (arch : Archive) (number : UInt64) (extra : List UInt8) : List UInt8 :=
  let extra := if extra.length < extraVanity then
      extra ++ List.replicate (extraVanity - extra.length) 0
    else extra
  let extra := extra.take extraVanity
  let extra := if number % env.config.epoch = 0 then extra ++ signerBytes arch else extra
  extra ++ List.replicate extraSeal 0

/-- `DPos.Prepare`: clear the vote, cast one, set the difficulty, lay out the extra-data, and
time the block one period after its parent, or now if that has passed. `signer` is `c.signer`
and `now` the wall clock in milliseconds.
Source: `agreement/epvdpos/epvdpos.go` `DPos.Prepare` -/
def prepare (proposals : List (Address × Bool)) (signer : Address) (now : Nat) (header : Header)
    (st : σ) : Except DposError Header × σ :=
  let header := { header with coinbase := Address.zero, nonce := 0 }
  let number := header.numberU64
  match chain.archive (number - 1) header.parentHash [] with
  | .error e => (.error e, st)
  | .ok arch =>
    let voted := proposeVote env rng arch proposals number header st
    match calcDifficulty rng arch signer voted.2 with
    | (.error e, st) => (.error e, st)
    | (.ok difficulty, st) =>
      let header := { voted.1 with
        difficulty
        extra := prepareExtra env arch number voted.1.extra
        mixDigest := Hash.zero }
      match chain.getHeader header.parentHash (number - 1) with
      | none => (.error .unknownAncestor, st)
      | some parent =>
        let timeMS := parent.timeMS + env.config.period.toNat
        let timeMS := if Int64.ofNat timeMS < Int64.ofNat now then now else timeMS
        (.ok { header with timeMS }, st)

/-- The header fields `DPos.Finalize` sets, directly and through `types.NewBlock`: the state
root, the uncle hash of no uncles, and the roots of the transactions and receipts.
Source: `agreement/epvdpos/epvdpos.go` `DPos.Finalize`; `kernel/types/block.go` `NewBlock` -/
def finalize (root txHash receiptHash : Hash) (header : Header) : Header :=
  { header with root, uncleHash := env.uncleHash, txHash, receiptHash }

/-- `DPos.Seal`: refuse block zero, an empty block when blocks have no period, and an
unauthorized signer; wait (and give up when `stop` closes) while the signer is recent; for an
out-of-turn block draw a wiggle; then sign the seal hash into the last bytes of the extra-data.
`stopped` says whether `stop` closes before the delay has passed; `none` is Go's `nil, nil`.
Source: `agreement/epvdpos/epvdpos.go` `DPos.Seal` -/
def sealHeader (signer : Address) (signFn : Address → Hash → Except DposError (List UInt8))
    (txCount : Nat) (stopped : Bool) (header : Header) (st : σ) :
    Except DposError (Option Header) × σ :=
  let number := header.numberU64
  if number = 0 then (.error .unknownBlock, st)
  else if env.config.period = 0 ∧ txCount = 0 then (.error .waitTransactions, st)
  else
    match chain.archive (number - 1) header.parentHash [] with
    | .error e => (.error e, st)
    | .ok arch =>
      if signer ∉ arch.signers then (.error .unauthorized, st)
      else if arch.mustWait number signer then (.ok none, st)
      else
        let st := if header.difficulty = diffNoTurn then (rng.int63n st wiggleTime).2 else st
        if stopped then (.ok none, st)
        else
          match signFn signer (env.sigHash header) with
          | .error e => (.error e, st)
          | .ok sighash =>
            let body := header.extra.take (header.extra.length - extraSeal)
            let slot := header.extra.drop (header.extra.length - extraSeal)
            (.ok (some { header with extra := body ++ copySlice slot sighash }), st)

end Production

end EpvChain.Epvdpos
