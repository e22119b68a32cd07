import EpvChain.Kernel.Types.Block
import Mathlib

/-!
# The canonical chain index (`kernel/blockchain.go`)

`WriteBlockWithState` stores a block with its total difficulty and decides whether it becomes the
head: when heavier than the head, or as heavy and lower, or at the same height on a coin toss
(`coin`). A new head whose parent is not the old head goes through `reorg`, which walks both
branches to their common ancestor, writes the new branch into the canonical index from there
(`insert`, at each block's own height only), and deletes the old branch's transaction lookups
that the new branch lacks.

Header and transaction hashes are parameters; the tables are maps by hash, height or transaction
hash, and `getBlock` checks a block's height. The state commit, receipts, preimages, the other
heads and the events are left out: the index and the head depend on none of them.

* `writeBlockWithState_stale_canonical` — no path deletes a canonical hash, so a reorg to a
  shorter, heavier branch leaves the old branch's hashes above the new head.
-/

namespace EpvChain.Core

open EpvChain.Types

/-- `TxLookupEntry`: the block holding a transaction, the block's height, and the transaction's
index in it.
Source: `kernel/database_util.go` `type TxLookupEntry struct` -/
structure TxLookupEntry where
  blockHash : Hash
  blockIndex : Nat
  index : Nat
  deriving DecidableEq

/-- The errors of `WriteBlockWithState` that the chain index can cause.
Source: `kernel/blockchain.go` `BlockChain.WriteBlockWithState`, `BlockChain.reorg` -/
inductive ChainError where
  | unknownAncestor
  | invalidOldChain
  | invalidNewChain
  deriving DecidableEq, Repr

/-- `WriteStatus`: whether a written block became the head.
Source: `kernel/blockchain.go` `type WriteStatus byte` -/
inductive WriteStatus where
  | nonStatTy
  | canonStatTy
  | sideStatTy
  deriving DecidableEq, Repr

/-- The blocks, total difficulties, canonical hashes and transaction lookup entries of the
chain database, and the head (`currentBlock`).
Source: `kernel/blockchain.go` `type BlockChain struct` -/
structure BlockChain (τ : Type) where
  blocks : Finmap fun _ : Hash => Block τ
  td : Finmap fun _ : Hash => Nat
  canonical : Finmap fun _ : Nat => Hash
  txLookup : Finmap fun _ : Hash => TxLookupEntry
  currentBlock : Block τ

/-- `types.TxDifference`: the transactions of `a` whose hash is not that of one of `b`.
Source: `kernel/types/transaction.go` `TxDifference` -/
def txDifference {τ : Type} (txHash : τ → Hash) (a b : List τ) : List τ :=
  a.filter fun tx => !(b.map txHash).contains (txHash tx)

namespace BlockChain

variable {τ : Type} (hash : Header → Hash) (txHash : τ → Hash)

/-- `BlockChain.GetBlock`: the block stored under the hash, when it has the height asked for.
Source: `kernel/blockchain.go` `BlockChain.GetBlock` -/
def getBlock (bc : BlockChain τ) (h : Hash) (number : Nat) : Option (Block τ) :=
  (bc.blocks.lookup h).filter fun b => b.header.number = number

/-- `bc.GetBlock(b.ParentHash(), b.NumberU64()-1)`; below the genesis block the height wraps
around. -/
def parentOf (bc : BlockChain τ) (b : Block τ) : Option (Block τ) :=
  bc.getBlock b.header.parentHash (b.header.numberU64 - 1).toNat

/-- `BlockChain.GetTd`.
Source: `kernel/blockchain.go` `BlockChain.GetTd` -/
def getTd (bc : BlockChain τ) (h : Hash) : Option Nat := bc.td.lookup h

/-- `WriteTxLookupEntries`: every transaction of the block points at it.
Source: `kernel/database_util.go` `WriteTxLookupEntries` -/
def writeTxLookupEntries (bc : BlockChain τ) (block : Block τ) : BlockChain τ :=
  { bc with
    txLookup := (block.transactions.zipIdx).foldl
      (fun m (tx, i) => m.insert (txHash tx) ⟨hash block.header, block.header.number, i⟩)
      bc.txLookup }

/-- `DeleteTxLookupEntry`.
Source: `kernel/database_util.go` `DeleteTxLookupEntry` -/
def deleteTxLookupEntry (bc : BlockChain τ) (h : Hash) : BlockChain τ :=
  { bc with txLookup := bc.txLookup.erase h }

/-- `BlockChain.insert`: the block becomes the canonical block at its height and the head. The
header chain's and the fast sync's heads, which it also moves, are left out.
Source: `kernel/blockchain.go` `BlockChain.insert` -/
def insert (bc : BlockChain τ) (block : Block τ) : BlockChain τ :=
  { bc with
    canonical := bc.canonical.insert block.header.number (hash block.header)
    currentBlock := block }

/-- The first loop of `reorg`: the higher branch walked down to the given height, its blocks
collected from the top. A missing parent ends the walk with `none`. -/
def descend (bc : BlockChain τ) : Nat → Block τ → Nat → Option (List (Block τ) × Block τ)
  | fuel, b, number =>
    if b.header.number = number then some ([], b)
    else
      match fuel, bc.parentOf b with
      | fuel + 1, some p => (bc.descend fuel p number).map fun (chain, b') => (b :: chain, b')
      | _, _ => none

/-- The second loop of `reorg`: both branches walked down together until they meet, their
blocks collected from the top, and the common block. -/
def meet (bc : BlockChain τ) : Nat → Block τ → Block τ →
    Except ChainError (List (Block τ) × List (Block τ) × Block τ)
  | fuel, old, new =>
    if hash old.header = hash new.header then .ok ([], [], old)
    else
      match fuel, bc.parentOf old, bc.parentOf new with
      | fuel + 1, some o, some n =>
        (bc.meet fuel o n).map fun (olds, news, common) => (old :: olds, new :: news, common)
      | _, none, _ => .error .invalidOldChain
      | _, _, none => .error .invalidNewChain
      | 0, _, _ => .error .invalidOldChain

/-- `BlockChain.reorg`: the old branch dropped and the new one made canonical from the common
ancestor up, with the lookup entries of the transactions only the old branch held deleted.
The walks take at most as many steps as the heights; the fuel is the new block's height plus
the old block's, plus one.
Source: `kernel/blockchain.go` `BlockChain.reorg` -/
def reorg (bc : BlockChain τ) (oldBlock newBlock : Block τ) : Except ChainError (BlockChain τ) := do
  let fuel := oldBlock.header.number + newBlock.header.number + 1
  -- the higher branch first comes down to the other's height
  let (oldChain, newChain, oldBlock, newBlock) ←
    if oldBlock.header.number > newBlock.header.number then
      match bc.descend fuel oldBlock newBlock.header.number with
      | some (oldChain, oldBlock) => pure (oldChain, [], oldBlock, newBlock)
      | none => throw ChainError.invalidOldChain
    else
      match bc.descend fuel newBlock oldBlock.header.number with
      | some (newChain, newBlock) => pure ([], newChain, oldBlock, newBlock)
      | none => throw ChainError.invalidNewChain
  let (olds, news, _) ← bc.meet hash fuel oldBlock newBlock
  let oldChain := oldChain ++ olds
  let newChain := newChain ++ news
  let deletedTxs := oldChain.flatMap (·.transactions)
  -- the new branch is inserted from the bottom up
  let bc := newChain.reverse.foldl
    (fun bc block => (bc.insert hash block).writeTxLookupEntries hash txHash block) bc
  let addedTxs := newChain.reverse.flatMap (·.transactions)
  pure ((txDifference txHash deletedTxs addedTxs).foldl
    (fun bc tx => bc.deleteTxLookupEntry (txHash tx)) bc)

/-- `BlockChain.WriteBlockWithState`, for the chain index: the total difficulty written, the
head kept or moved to the block (through `reorg` when the block is not on the head), and the
block and its lookup entries written last with the batch.
Source: `kernel/blockchain.go` `BlockChain.WriteBlockWithState` -/
def writeBlockWithState (bc : BlockChain τ) (block : Block τ) (coin : Bool) :
    Except ChainError (WriteStatus × BlockChain τ) := do
  let some ptd := bc.getTd block.header.parentHash | throw ChainError.unknownAncestor
  -- the head's total difficulty was written with it
  let localTd := (bc.getTd (hash bc.currentBlock.header)).getD 0
  let externTd := block.header.difficulty + ptd
  let bc := { bc with td := bc.td.insert (hash block.header) externTd }
  let reorg := decide (externTd > localTd) ||
    (decide (externTd = localTd) &&
      (decide (block.header.number < bc.currentBlock.header.number) ||
        (decide (block.header.number = bc.currentBlock.header.number) && coin)))
  if reorg then
    let bc ← if block.header.parentHash ≠ hash bc.currentBlock.header then
        bc.reorg hash txHash bc.currentBlock block
      else pure bc
    -- the batch: the block and its lookup entries
    let bc := { bc with blocks := bc.blocks.insert (hash block.header) block }
    let bc := bc.writeTxLookupEntries hash txHash block
    pure (.canonStatTy, bc.insert hash block)
  else
    pure (.sideStatTy, { bc with blocks := bc.blocks.insert (hash block.header) block })

end BlockChain

/-! ### A reorg to a shorter branch -/

/-- A header hash that reads the timestamp: the blocks below have distinct ones. -/
def timeHash (h : Header) : Hash := ⟨h.timeMS % 2 ^ (8 * HashLength), Nat.mod_lt _ (Nat.two_pow_pos _)⟩

/-- A block with one transaction, by its parent, height, difficulty and timestamp. -/
def forkBlock (parent : Hash) (number difficulty time : Nat) (tx : Hash) : Block Hash :=
  ⟨⟨parent, 0, 0, 0, 0, 0, difficulty, number, 0, 0, time, [], 0, 0⟩, 0, [tx]⟩

/-- The genesis block, hash `1`, total difficulty `1`. -/
def genesisBlock : Block Hash := forkBlock 0 0 1 1 1

/-- Three blocks sealed out of turn (difficulty 1) on the genesis block. -/
def outOfTurn1 : Block Hash := forkBlock 1 1 1 2 2
def outOfTurn2 : Block Hash := forkBlock 2 2 1 3 3
def outOfTurn3 : Block Hash := forkBlock 3 3 1 4 4

/-- Two blocks sealed in turn (difficulty 2) on the genesis block. -/
def inTurn1 : Block Hash := forkBlock 1 1 2 5 5
def inTurn2 : Block Hash := forkBlock 5 2 2 6 6

/-- The chain holding only the genesis block. -/
def genesisChain : BlockChain Hash :=
  ⟨Finmap.singleton 1 genesisBlock, Finmap.singleton 1 1, Finmap.singleton 0 1, ∅, genesisBlock⟩

/-- **A reorg to a shorter chain keeps a stale canonical hash.** The three out-of-turn blocks
become the head one by one (total difficulty 4). The first in-turn block is a side block
(3 < 4); the second makes the in-turn branch heavier (5 > 4) and the head at height 2. `reorg`
rewrites heights 1 and 2 and deletes the lookup entries of the out-of-turn transactions, but
height 3 still holds the third out-of-turn block's hash. -/
theorem writeBlockWithState_stale_canonical :
    ([outOfTurn1, outOfTurn2, outOfTurn3, inTurn1, inTurn2].foldlM
        (fun (bc : BlockChain Hash) block => (bc.writeBlockWithState timeHash id block false).map (·.2))
        genesisChain).map
      (fun bc => (bc.currentBlock.header.number, bc.canonical.lookup 1, bc.canonical.lookup 2,
        bc.canonical.lookup 3, bc.txLookup.lookup 4)) =
      Except.ok (2, some 5, some 6, some 4, none) := by
  decide +kernel

end EpvChain.Core
