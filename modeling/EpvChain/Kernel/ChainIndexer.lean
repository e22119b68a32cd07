import EpvChain.Public.Types

/-!
# Chain index sections under reorgs

`kernel/chain_indexer.go`: a `ChainIndexer` cuts the canonical chain into sections of
`sectionSize` blocks and has a backend index each one. It keeps how many sections are confirmed
(`knownSections`), how many are indexed (`storedSections`), and the last header's hash of each
indexed section (`SectionHead`).

The event loop calls `newHead` for every chain event (with `reorg` for the common ancestor of a
reorganisation). The update loop picks the next section under the lock, releases it while
`processSection` reads the headers one by one, and takes it again to store the section if the
head of the section before is unchanged. The model is a state machine over the indexer, the
canonical chain and the update loop's place (`IndexerPhase`); each step (`IndexerStep`) is a part
between lock operations, in any order. Child indexers, throttling and `AddKnownSectionHead` are
not modelled.

* `reorg_inside_section_stored`: a reorg whose common ancestor falls inside the section being
  processed does not stop it being stored, since the post-check reads only the head of the
  section before; the stored `SectionHead` may then not be canonical.
* `stale_section_run`: a run from a new indexer that reaches a quiescent state with a stored
  section whose head the chain no longer has.
-/

namespace EpvChain.Core

/-- The indexer's configuration: the blocks in a section, and the confirmations a section's last
block needs before it is indexed. -/
structure IndexerConfig where
  sectionSize : UInt64
  confirmsReq : UInt64

/-- The canonical chain, as the indexer reads it from the chain database: the hash at a height
(`GetCanonicalHash`, zero when there is none) and the parent of a stored header (`GetHeader`). -/
structure CanonChain where
  canon : UInt64 → Hash
  header : UInt64 → Hash → Option Hash

/-- Why `processSection` fails. -/
inductive SectionError where
  | reset
  | unknownCanonical (number : UInt64)
  | headerNotFound (number : UInt64)
  | reorged
  | commit
  deriving DecidableEq

/-- Where the update loop is. `processing sec oldHead number lastHead` is inside
`processSection`'s loop with the lock released, the next header to read being `number`;
`processed sec oldHead result` has returned from it and waits for the lock. -/
inductive IndexerPhase where
  | idle
  | processing (sec : UInt64) (oldHead : Hash) (number : UInt64) (lastHead : Hash)
  | processed (sec : UInt64) (oldHead : Hash) (result : Except SectionError Hash)
  deriving DecidableEq

/-- The indexer's state: its counters and section heads (`shead` keys of the index database,
zero when absent), the one-slot `update` channel, where the update loop is, and the backend's
headers since its `Reset` and at each `Commit`. -/
structure ChainIndexer where
  storedSections : UInt64
  knownSections : UInt64
  cascadedHead : UInt64
  sheads : UInt64 → Hash
  update : Bool
  phase : IndexerPhase
  processing : List Hash
  committed : UInt64 → List Hash

namespace ChainIndexer

variable (cfg : IndexerConfig)

/-- A new indexer, before any section is stored. -/
def new : ChainIndexer where
  storedSections := 0
  knownSections := 0
  cascadedHead := 0
  sheads := fun _ => 0
  update := false
  phase := .idle
  processing := []
  committed := fun _ => []

/-- `c.setValidSections(sections)`: the loop deletes the heads of the sections from `sections`
up to the last one stored, and the count becomes `sections`. -/
def setValidSections (c : ChainIndexer) (sections : UInt64) : ChainIndexer :=
  { c with
    sheads := fun s => if sections ≤ s ∧ s < c.storedSections then 0 else c.sheads s
    storedSections := sections }

/-- `c.newHead(head, reorg)`, under the lock. A reorg back to `head` forgets the sections from
the one holding `head` on; a new head makes the sections below it with enough confirmations
known, and signals the update loop. -/
def newHead (c : ChainIndexer) (head : UInt64) (reorg : Bool) : ChainIndexer :=
  if reorg then
    let changed := head / cfg.sectionSize
    let c := if changed < c.knownSections then { c with knownSections := changed } else c
    let c := if changed < c.storedSections then c.setValidSections changed else c
    let head := changed * cfg.sectionSize
    if head < c.cascadedHead then { c with cascadedHead := head } else c
  else if cfg.confirmsReq ≤ head then
    let sections := (head + 1 - cfg.confirmsReq) / cfg.sectionSize
    if sections > c.knownSections then { c with knownSections := sections, update := true } else c
  else c

/-- The update loop's `case <-c.update`, up to the release of the lock: when a section is
known but not stored, start `processSection` on the next one from the head of the one before;
the backend's `Reset` may fail, which sets the stored sections to zero. -/
def updateStart (c : ChainIndexer) (resetOk : Bool) : ChainIndexer :=
  let c := { c with update := false }
  if c.knownSections > c.storedSections then
    let sec := c.storedSections
    let oldHead : Hash := if sec > 0 then c.sheads (sec - 1) else 0
    if resetOk then
      { c with
        phase := .processing sec oldHead (sec * cfg.sectionSize) oldHead
        processing := [] }
    else { c.setValidSections 0 with phase := .processed sec oldHead (.error .reset) }
  else c

/-- One turn of `processSection`'s loop, without the lock: read the next canonical header and
give it to the backend if it extends the last one; after the last header of the section, the
backend's `Commit`, which may fail. -/
def readHeader (chain : CanonChain) (c : ChainIndexer) (commitOk : Bool) : ChainIndexer :=
  match c.phase with
  | .processing sec oldHead number lastHead =>
    let stop result := { c with phase := .processed sec oldHead result }
    if number < (sec + 1) * cfg.sectionSize then
      let hash := chain.canon number
      if hash = 0 then stop (.error (.unknownCanonical number))
      else
        match chain.header number hash with
        | none => stop (.error (.headerNotFound number))
        | some parent =>
          if parent ≠ lastHead then stop (.error .reorged)
          else { c with
            processing := c.processing ++ [hash]
            phase := .processing sec oldHead (number + 1) hash }
    else if commitOk then
      { c with
        committed := Function.update c.committed sec c.processing
        phase := .processed sec oldHead (.ok lastHead) }
    else stop (.error .commit)
  | _ => c

/-- The update loop back under the lock after `processSection`: store the section if it
succeeded and the head of the section before is still `oldHead`, else forget the known sections
above the stored ones; signal again while sections remain. -/
def updateFinish (c : ChainIndexer) : ChainIndexer :=
  match c.phase with
  | .processed sec oldHead result =>
    let c := { c with phase := .idle }
    let c : ChainIndexer := match result with
      | .ok newHead =>
        if oldHead = c.sheads (sec - 1) then
          let c := { c with sheads := Function.update c.sheads sec newHead }
          let c := c.setValidSections (sec + 1)
          { c with cascadedHead := c.storedSections * cfg.sectionSize - 1 }
        else { c with knownSections := c.storedSections }
      | .error _ => { c with knownSections := c.storedSections }
    if c.knownSections > c.storedSections then { c with update := true } else c
  | _ => c

/-- `setValidSections (s + 1)` keeps the head of section `s`, even when `s + 1` wraps. -/
theorem setValidSections_succ_sheads_self (c : ChainIndexer) (s : UInt64) :
    (c.setValidSections (s + 1)).sheads s = c.sheads s := by
  have hkeep : ¬ (s + 1 ≤ s ∧ s < c.storedSections) := by
    rintro ⟨hle, hlt⟩
    rw [UInt64.le_iff_toNat_le, UInt64.toNat_add] at hle
    rw [UInt64.lt_iff_toNat_lt] at hlt
    have hs := UInt64.toNat_lt_size s
    have hc := UInt64.toNat_lt_size c.storedSections
    simp only [UInt64.toNat_one, UInt64.size] at *
    omega
  simp only [setValidSections, if_neg hkeep]

@[simp] theorem newHead_phase (c : ChainIndexer) (head : UInt64) (reorg : Bool) :
    (c.newHead cfg head reorg).phase = c.phase := by
  unfold newHead
  split
  · dsimp only
    split <;> split <;> split <;> rfl
  · split
    · dsimp only
      split <;> rfl
    · rfl

/-- A reorg back into the first section not stored, or above it, stores nothing less. -/
theorem newHead_reorg_of_le (c : ChainIndexer) (head : UInt64)
    (h : c.storedSections ≤ head / cfg.sectionSize) :
    (c.newHead cfg head true).storedSections = c.storedSections ∧
      (c.newHead cfg head true).sheads = c.sheads := by
  have hnot : ¬ head / cfg.sectionSize < c.storedSections := by
    rw [UInt64.not_lt]
    exact h
  by_cases hk : head / cfg.sectionSize < c.knownSections <;>
    by_cases hc : head / cfg.sectionSize * cfg.sectionSize < c.cascadedHead <;>
    simp [newHead, hk, hc, hnot]

/-- Back under the lock after a section was processed from the head `oldHead` of the section
before, the update loop stores it if that head is still the one stored. -/
theorem updateFinish_ok (c : ChainIndexer) {s : UInt64} {oldHead newHead : Hash}
    (hphase : c.phase = .processed s oldHead (.ok newHead)) (hold : c.sheads (s - 1) = oldHead) :
    (c.updateFinish cfg).storedSections = s + 1 ∧ (c.updateFinish cfg).sheads s = newHead := by
  have hhead := setValidSections_succ_sheads_self
    { c with phase := .idle, sheads := Function.update c.sheads s newHead } s
  unfold updateFinish
  rw [hphase]
  simp only [hold, if_true]
  -- whether the loop signals itself again changes neither the count nor the heads
  split <;> exact ⟨rfl, hhead.trans (Function.update_self _ _ _)⟩

end ChainIndexer

/-- The indexer and the chain it indexes. -/
structure IndexerSystem where
  chain : CanonChain
  idx : ChainIndexer

/-- The steps of the two goroutines and of the blockchain. -/
inductive IndexerStep where
  | newHead (head : UInt64) (reorg : Bool)
  | updateStart (resetOk : Bool)
  | readHeader (commitOk : Bool)
  | updateFinish
  | setChain (chain : CanonChain)

namespace IndexerSystem

variable (cfg : IndexerConfig)

/-- One step; the update loop starts only when it is idle and signalled. -/
def step (sys : IndexerSystem) : IndexerStep → IndexerSystem
  | .newHead head reorg => { sys with idx := sys.idx.newHead cfg head reorg }
  | .updateStart resetOk =>
    if sys.idx.phase = .idle ∧ sys.idx.update then
      { sys with idx := sys.idx.updateStart cfg resetOk }
    else sys
  | .readHeader commitOk => { sys with idx := sys.idx.readHeader cfg sys.chain commitOk }
  | .updateFinish => { sys with idx := sys.idx.updateFinish cfg }
  | .setChain chain => { sys with chain := chain }

/-- A run of steps. -/
def run (sys : IndexerSystem) (steps : List IndexerStep) : IndexerSystem :=
  steps.foldl (step cfg) sys

/-- The indexer is at rest: the update loop waits and has no signal. -/
def Quiescent (sys : IndexerSystem) : Prop :=
  sys.idx.phase = .idle ∧ sys.idx.update = false

/-- The index of a quiescent indexer is the chain's: every stored section's head is the canonical
hash of its last block, and the section was built from the canonical headers of its blocks. -/
def SectionsCanonical (sys : IndexerSystem) : Prop :=
  ∀ s < sys.idx.storedSections,
    sys.idx.sheads s = sys.chain.canon ((s + 1) * cfg.sectionSize - 1) ∧
      sys.idx.committed s =
        (List.range cfg.sectionSize.toNat).map fun i => sys.chain.canon (s * cfg.sectionSize + i.toUInt64)

/-- A reorg whose common ancestor `a` lies in the section the update loop has just processed,
notified before the loop takes the lock back, leaves the section to be stored with the head the
loop read; when the reorg replaced the section's last block, the stored head is not canonical. -/
theorem reorg_inside_section_stored (sys : IndexerSystem) {s a : UInt64} {oldHead h : Hash}
    (hphase : sys.idx.phase = .processed s oldHead (.ok h))
    (hstored : sys.idx.storedSections = s) (hold : sys.idx.sheads (s - 1) = oldHead)
    (ha : a / cfg.sectionSize = s)
    (hcanon : sys.chain.canon ((s + 1) * cfg.sectionSize - 1) ≠ h) :
    let sys' := (sys.step cfg (.newHead a true)).step cfg .updateFinish
    sys'.idx.storedSections = s + 1 ∧ sys'.idx.sheads s = h ∧
      sys'.idx.sheads s ≠ sys'.chain.canon ((s + 1) * cfg.sectionSize - 1) := by
  obtain ⟨-, hsheads⟩ := sys.idx.newHead_reorg_of_le cfg a (by rw [ha, hstored]; exact UInt64.le_refl s)
  have hfin := (sys.idx.newHead cfg a true).updateFinish_ok cfg
    (by rw [ChainIndexer.newHead_phase, hphase]) (by rw [hsheads, hold])
  -- neither step touches the chain
  show _ ∧ _ ∧ ((sys.idx.newHead cfg a true).updateFinish cfg).sheads s ≠
    sys.chain.canon ((s + 1) * cfg.sectionSize - 1)
  refine ⟨hfin.1, hfin.2, ?_⟩
  rw [hfin.2]
  exact hcanon.symm

/-- Sections of two blocks, each indexed as soon as it is on the chain. -/
def twoBlockSections : IndexerConfig := ⟨2, 0⟩

/-- Genesis `1` and block `2` canonical; block `3`, a sibling of `2`, stored beside it. -/
def chainBeforeReorg : CanonChain where
  canon n := if n = 0 then 1 else if n = 1 then 2 else 0
  header n h := if n = 0 ∧ h = 1 then some 0 else if n = 1 ∧ (h = 2 ∨ h = 3) then some 1 else none

/-- The same blocks after block `3` replaced block `2`. -/
def chainAfterReorg : CanonChain :=
  { chainBeforeReorg with canon := fun n => if n = 0 then 1 else if n = 1 then 3 else 0 }

/-- The head `1` makes section `0` known; the update loop reads its two headers and commits, and
the blockchain then switches to block `3`. -/
def readSectionZero : List IndexerStep :=
  [.newHead 1 false, .updateStart true, .readHeader true, .readHeader true, .readHeader true,
    .setChain chainAfterReorg]

/-- From a new indexer, the event loop's reorg notification for block `3` (the common ancestor
`0`, then the new head `1`) interleaved with the update loop's finish leaves a quiescent indexer
whose section `0` has the head `2`, which the chain no longer has. -/
theorem stale_section_run :
    let sys := run twoBlockSections ⟨chainBeforeReorg, ChainIndexer.new⟩
      (readSectionZero ++ [.newHead 0 true, .updateFinish, .newHead 1 false, .updateStart true])
    Quiescent sys ∧ ¬ SectionsCanonical twoBlockSections sys := by
  obtain ⟨-, -, hstale⟩ := @reorg_inside_section_stored twoBlockSections
    (run twoBlockSections ⟨chainBeforeReorg, ChainIndexer.new⟩ readSectionZero) 0 0 0 2
    (by decide) (by decide) (by decide) (by decide) (by decide)
  refine ⟨by unfold Quiescent; decide, fun hc => hstale ?_⟩
  exact (hc 0 (by decide)).1

end IndexerSystem

end EpvChain.Core
