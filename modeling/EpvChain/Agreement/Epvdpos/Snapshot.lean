import EpvChain.Agreement.Epvdpos.Bookkeeping
import EpvChain.Agreement.Epvdpos.Engine

/-!
# The snapshot at a block (`DPos.archive`)

`DPos.archive` answers the archive at a block: it walks back from the block through the headers
not yet in the chain and then the chain's own, until the in-memory recents, a checkpoint archive
on disk or the genesis gives an archive, and replays the headers walked on it. The result goes
into the recents, and onto disk at a checkpoint. The validation functions of `Engine` read it
through `ChainView.archive`; `ChainView.ofDPos` is that view.

* `DPos.Holds` — every archive kept in memory or on disk is reachable, of the engine's
  configuration, and stored under its own hash.
* `archive_holds` — a call keeps `Holds` and answers a reachable archive of the engine's
  configuration; `holds_calls` carries this over any run of calls.
* `ofDPos_reachable` — so every archive `ChainView.ofDPos` answers is reachable, whatever the
  stores held before, as long as they hold.

The genesis branch calls `VerifyHeader` on the chain's header number 0, which is numbered 0:
`verifyHeader` makes only the checks of `verifyHeaderFields` there (`verifyHeader_numberU64_zero`).
The bound of `inmemoryArchives` entries on the recents is not modelled: an evicted entry only
makes a later call walk further back. Writes to the database do not fail.
-/

namespace EpvChain.Epvdpos

open EpvChain.Types EpvChain.Lib

/-- `checkpointInterval`: blocks between archives saved to disk. -/
def checkpointInterval : UInt64 := 1024

/-- Archives by block hash. -/
abbrev ArchiveMap := Finmap fun _ : Hash => Archive

/-- The fields of `DPos` that `archive` reads and writes: the recents cache and the database,
both by block hash. The database holds what `Archive.store` wrote: the JSON of the archive, which
leaves out the configuration.
Source: `agreement/epvdpos/epvdpos.go` `type DPos struct` -/
structure DPos where
  recents : ArchiveMap
  db : ArchiveMap

/-- What `DPos.archive` reads of the chain: `GetHeader`, and `GetHeaderByNumber(0)`. -/
structure ChainReader where
  getHeader : Hash → UInt64 → Option Header
  genesis : Header

/-- `loadArchive`: the archive stored under the hash, with the engine's configuration.
Source: `agreement/epvdpos/archive.go` `loadArchive` -/
def loadArchive (config : DPosConfig) (db : ArchiveMap) (hash : Hash) : Option Archive :=
  (db.lookup hash).map fun s => { s with config }

/-- `s.store(db)`: the archive under its hash.
Source: `agreement/epvdpos/archive.go` `Archive.store` -/
def storeArchive (db : ArchiveMap) (s : Archive) : ArchiveMap := db.insert s.hash s

/-- `copy(signers[i][:], b)`: the address whose bytes are the first twenty of `b`. -/
def copyAddress (b : List UInt8) : Address :=
  ⟨ofBytesBE (copySlice (List.replicate AddressLength 0) b) % 2 ^ (8 * AddressLength),
    Nat.mod_lt _ (Nat.two_pow_pos _)⟩

/-- The signers of the genesis extra-data, twenty bytes each between the vanity and the seal. -/
def genesisSigners (extra : List UInt8) : List Address :=
  (List.range ((extra.length - extraVanity - extraSeal) / AddressLength)).map fun i =>
    copyAddress (extra.drop (extraVanity + i * AddressLength))

variable (env : Env) (reader : ChainReader) (now : Nat)

/-- The header the walk takes at `(number, hash)`: the last of `parents`, which must be that
block, or the chain's; and the parents left. -/
def nextHeader (number : UInt64) (hash : Hash) (parents : List Header) :
    Except DposError (Header × List Header) :=
  match parents.getLast? with
  | some header =>
    if env.crypto.hash header ≠ hash ∨ header.numberU64 ≠ number then .error .unknownAncestor
    else .ok (header, parents.dropLast)
  | none =>
    match reader.getHeader hash number with
    | some header => .ok (header, [])
    | none => .error .unknownAncestor

/-- The loop of `DPos.archive`: the archive it stops at and the headers walked, latest first,
with the database as the genesis branch leaves it.
Source: `agreement/epvdpos/epvdpos.go` `DPos.archive`, `for arch == nil` -/
def gather (recents db : ArchiveMap) (number : UInt64) (hash : Hash) (parents headers : List Header) :
    Except DposError (Archive × List Header) × ArchiveMap :=
  match recents.lookup hash with
  | some arch => (.ok (arch, headers), db)
  | none =>
    match (if number % checkpointInterval = 0 then loadArchive env.config db hash else none) with
    | some arch => (.ok (arch, headers), db)
    | none =>
      if _hzero : number = 0 then
        match verifyHeaderFields env now reader.genesis with
        | .error e => (.error e, db)
        | .ok () =>
          let arch := newArchive env.config 0 (env.crypto.hash reader.genesis)
            (genesisSigners reader.genesis.extra)
          (.ok (arch, headers), storeArchive db arch)
      else
        match nextHeader env reader number hash parents with
        | .error e => (.error e, db)
        | .ok (header, parents) =>
          gather recents db (number - 1) header.parentHash parents (headers ++ [header])
termination_by number.toNat
decreasing_by
  have h1 : number.toNat ≠ 0 := fun h => _hzero (UInt64.toNat_inj.mp h)
  rw [UInt64.toNat_sub_of_le _ _ (UInt64.le_iff_toNat_le.mpr (by simp; omega))]
  simp
  omega

/-- `DPos.archive`: the walk, then `apply` of the headers walked in chain order, kept in the
recents and, at a checkpoint reached by a walk, stored.
Source: `agreement/epvdpos/epvdpos.go` `DPos.archive` -/
def DPos.archive (c : DPos) (number : UInt64) (hash : Hash) (parents : List Header) :
    Except DposError Archive × DPos :=
  match gather env reader now c.recents c.db number hash parents [] with
  | (.error e, db) => (.error e, { c with db })
  | (.ok (arch, headers), db) =>
    match arch.apply env.crypto headers.reverse with
    | .error e => (.error e, { c with db })
    | .ok arch =>
      let db := if arch.number % checkpointInterval = 0 ∧ headers ≠ [] then storeArchive db arch
        else db
      (.ok arch, ⟨c.recents.insert arch.hash arch, db⟩)

/-- The validation's view of the chain at the stores `c`: the chain's headers, and the archives
`DPos.archive` answers. -/
def ChainView.ofDPos (c : DPos) : ChainView :=
  ⟨reader.getHeader, fun number hash parents => (c.archive env reader now number hash parents).1⟩

/-- The stores after a run of calls, each a block number, hash and parents. -/
def DPos.archiveCalls (c : DPos) : List (UInt64 × Hash × List Header) → DPos
  | [] => c
  | (number, hash, parents) :: calls =>
    ((c.archive env reader now number hash parents).2).archiveCalls calls

/-- At a header numbered 0, `verifyHeader` makes only the checks of `verifyHeaderFields`:
`verifyCascadingFields` returns before it reads the chain. -/
theorem verifyHeader_numberU64_zero {σ : Type} (rng : GoRand σ) (chain : ChainView)
    {header : Header} (h : header.numberU64 = 0) (parents : List Header) (st : σ) :
    (verifyHeader env rng chain now header parents st).1 = verifyHeaderFields env now header := by
  unfold verifyHeader
  cases verifyHeaderFields env now header with
  | error e => rfl
  | ok u => simp [verifyCascadingFields, h]

/-! ### What the stores hold -/

/-- An archive `DPos` may hold under the hash `h`: reachable, of the engine's configuration, and
the archive of block `h`. -/
structure Good (h : Hash) (a : Archive) : Prop where
  hash : a.hash = h
  config : a.config = env.config
  reachable : Archive.Reachable env.crypto a

/-- Every archive of the map is good for its key. -/
def GoodMap (m : ArchiveMap) : Prop := ∀ h a, m.lookup h = some a → Good env h a

/-- The invariant of the stores: what the recents and the database hold is good. -/
structure DPos.Holds (c : DPos) : Prop where
  recents : GoodMap env c.recents
  db : GoodMap env c.db

variable {env}

/-- Keeping a good archive under its hash keeps the map good. -/
theorem GoodMap.insert {m : ArchiveMap} (hm : GoodMap env m) {a : Archive}
    (hc : a.config = env.config) (hr : Archive.Reachable env.crypto a) : GoodMap env (m.insert a.hash a) := by
  intro h b hb
  rw [finmap_lookup_insert] at hb
  split_ifs at hb with hh
  · cases hb
    exact ⟨hh.symm, hc, hr⟩
  · exact hm h b hb

/-- A good archive loaded from disk is the one stored: its configuration is the engine's. -/
theorem loadArchive_good {db : ArchiveMap} (hdb : GoodMap env db) {h : Hash} {a : Archive}
    (e : loadArchive env.config db h = some a) : Good env h a := by
  obtain ⟨s, hs, rfl⟩ := Option.map_eq_some_iff.mp e
  have hg := hdb h s hs
  rw [← hg.config]
  exact hg

/-- `apply` keeps the configuration. -/
theorem apply_config {c : Crypto} {s a : Archive} {headers : List Header}
    (e : s.apply c headers = .ok a) : a.config = s.config := by
  cases headers with
  | nil => cases e; rfl
  | cons first rest =>
    obtain ⟨-, -, x, -, rfl⟩ := Archive.apply_cons_eq_ok c e
    rfl

/-- **The walk keeps the database good and stops at a good archive.** The induction follows the
loop; the recents are read only. -/
theorem gather_good {recents : ArchiveMap} (hrec : GoodMap env recents) :
    ∀ (db : ArchiveMap) (number : UInt64) (hash : Hash) (parents headers : List Header),
      GoodMap env db →
      GoodMap env (gather env reader now recents db number hash parents headers).2 ∧
        ∀ arch hs, (gather env reader now recents db number hash parents headers).1 =
          .ok (arch, hs) → arch.config = env.config ∧ Archive.Reachable env.crypto arch := by
  intro db number hash parents headers hdb
  fun_induction gather env reader now recents db number hash parents headers with
  | case1 _ _ _ _ arch hhit =>
    refine ⟨hdb, fun a hs e => ?_⟩
    cases e
    exact ⟨(hrec _ _ hhit).config, (hrec _ _ hhit).reachable⟩
  | case2 _ _ _ _ _ arch hload =>
    -- a checkpoint archive loaded from disk
    refine ⟨hdb, fun a hs e => ?_⟩
    cases e
    split_ifs at hload
    exact ⟨(loadArchive_good hdb hload).config, (loadArchive_good hdb hload).reachable⟩
  | case3 => exact ⟨hdb, fun _ _ e => by cases e⟩
  | case4 =>
    -- the genesis archive, stored on disk
    exact ⟨hdb.insert rfl (.newArchive _ _ _ _), fun a hs e => by cases e; exact ⟨rfl, .newArchive _ _ _ _⟩⟩
  | case5 => exact ⟨hdb, fun _ _ e => by cases e⟩
  | case6 =>
    rename_i ih
    exact ih

/-- **A call of `DPos.archive` keeps the stores good and answers a reachable archive of the
engine's configuration.** -/
theorem archive_holds {c : DPos} (hc : c.Holds env) (number : UInt64) (hash : Hash)
    (parents : List Header) :
    (c.archive env reader now number hash parents).2.Holds env ∧
      ∀ a, (c.archive env reader now number hash parents).1 = .ok a →
        a.config = env.config ∧ Archive.Reachable env.crypto a := by
  obtain ⟨hdb, hbase⟩ := gather_good reader now hc.recents c.db number hash parents [] hc.db
  unfold DPos.archive
  rcases hg : gather env reader now c.recents c.db number hash parents [] with ⟨_ | ⟨base, headers⟩, db⟩
  · rw [hg] at hdb
    exact ⟨⟨hc.recents, hdb⟩, fun _ e => by cases e⟩
  · dsimp only
    rw [hg] at hdb hbase
    obtain ⟨hconf, hreach⟩ := hbase base headers rfl
    cases happly : base.apply env.crypto headers.reverse with
    | error e => exact ⟨⟨hc.recents, hdb⟩, fun _ e => by cases e⟩
    | ok a =>
      -- the archive answered is replayed from a good one, and goes into both stores
      have hac : a.config = env.config := (apply_config happly).trans hconf
      have har : Archive.Reachable env.crypto a := .apply hreach happly
      refine ⟨⟨hc.recents.insert hac har, ?_⟩, fun b e => by cases e; exact ⟨hac, har⟩⟩
      dsimp only
      split_ifs
      · exact hdb.insert hac har
      · exact hdb

/-- **Over any run of calls the stores stay good**, so every call of the run answers a reachable
archive of the engine's configuration. -/
theorem holds_calls {c : DPos} (hc : c.Holds env) :
    ∀ calls, (c.archiveCalls env reader now calls).Holds env
  | [] => hc
  | (number, hash, parents) :: calls =>
    holds_calls (archive_holds reader now hc number hash parents).1 calls

/-- **Every archive the validation reads through `ChainView.ofDPos` is reachable** and of the
engine's configuration: the views the validation of `Engine` is given are those of reachable
archives. -/
theorem ofDPos_reachable {c : DPos} (hc : c.Holds env) {number : UInt64} {hash : Hash}
    {parents : List Header} {a : Archive}
    (e : (ChainView.ofDPos env reader now c).archive number hash parents = .ok a) :
    a.config = env.config ∧ Archive.Reachable env.crypto a :=
  (archive_holds reader now hc number hash parents).2 a e

end EpvChain.Epvdpos
