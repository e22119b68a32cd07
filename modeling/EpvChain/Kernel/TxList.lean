import EpvChain.Public.Types
import EpvChain.Lib.Finmap

/-!
# The price-sorted view of the transaction pool (`kernel/tx_list.go`, `kernel/tx_pool.go`)

`txPricedList` keeps the pool's transactions in a heap by gas price over the pool's map `all`. A
transaction deleted from `all` stays in the heap, counted in `stales`, until the stale entries
pass a quarter of the heap and it is rebuilt. `Cap`, `Underpriced` and `Discard` pop the heap,
skipping (and uncounting) entries no longer in `all`.

The heap is a list: `Put` appends, and a pop takes the first cheapest entry (`popCheapest`). A
transaction is anything with a hash and a gas price; what the account's list answered is a
parameter of each pool operation.

* `perm_popCheapest`, `popCheapest_le` — a pop answers a cheapest entry and leaves the rest.
* `mem_all_of_mem_discard` — `Discard` returns only transactions `all` holds.
* `enqueueTx_of_mem` — `enqueueTx` on a transaction `all` holds, as `demoteUnexecutables` calls
  it, puts a second copy in the heap (`promoteTx` checks `all` first, `promoteTx_of_mem`); then
  `Discard` returns it twice, and once it is removed `Cap` counts `stales` below zero.
-/

namespace EpvChain.Core

open EpvChain.Lib

/-- `txPricedList`, with the pool's `all` map it reads.
Source: `kernel/tx_list.go` `type txPricedList struct` -/
structure PricedList (τ : Type) where
  all : Finmap fun _ : Hash => τ
  items : List τ
  stales : Int

namespace PricedList

variable {τ : Type} (txHash : τ → Hash) (gasPrice : τ → Nat)

/-- `heap.Pop` on `priceHeap`: a cheapest entry, the first of them in the list, and the rest. -/
def popCheapest : List τ → Option (τ × List τ)
  | [] => none
  | tx :: rest =>
    match popCheapest rest with
    | some (m, rest') => if gasPrice m < gasPrice tx then some (m, tx :: rest') else some (tx, rest)
    | none => some (tx, [])

/-- `txPricedList.Put`.
Source: `kernel/tx_list.go` `txPricedList.Put` -/
def put (l : PricedList τ) (tx : τ) : PricedList τ := { l with items := l.items ++ [tx] }

/-- `txPricedList.Removed`: one stale entry more; past a quarter of the heap, the heap is rebuilt
from `all` (in the map's order, here its hashes' order) and nothing is stale.
Source: `kernel/tx_list.go` `txPricedList.Removed` -/
def removed (l : PricedList τ) : PricedList τ :=
  if l.stales + 1 ≤ ((l.items.length / 4 : Nat) : Int) then { l with stales := l.stales + 1 }
  else { l with stales := 0, items := (sortedList l.all.keys).filterMap l.all.lookup }

/-- The loop of `Cap`: entries popped until one is as dear as `threshold`; a stale entry is
uncounted, a local one saved, any other dropped. Each round pops an entry. -/
def capLoop (threshold : Nat) (isLocal : τ → Bool) :
    Nat → PricedList τ → List τ → List τ → PricedList τ × List τ × List τ
  | 0, l, drop, save => (l, drop, save)
  | fuel + 1, l, drop, save =>
    match popCheapest gasPrice l.items with
    | none => (l, drop, save)
    | some (tx, items) =>
      if txHash tx ∉ l.all then capLoop threshold isLocal fuel { l with items, stales := l.stales - 1 } drop save
      else if threshold ≤ gasPrice tx then ({ l with items }, drop, save ++ [tx])
      else if isLocal tx then capLoop threshold isLocal fuel { l with items } drop (save ++ [tx])
      else capLoop threshold isLocal fuel { l with items } (drop ++ [tx]) save

/-- `txPricedList.Cap`: the transactions cheaper than `threshold` that are not local, taken out of
the heap; the local ones and the first dear one pushed back.
Source: `kernel/tx_list.go` `txPricedList.Cap` -/
def cap (l : PricedList τ) (threshold : Nat) (isLocal : τ → Bool) : PricedList τ × List τ :=
  let (l, drop, save) := capLoop txHash gasPrice threshold isLocal l.items.length l [] []
  (save.foldl put l, drop)

/-- The loop of `Underpriced`: stale entries popped off the top of the heap. -/
def underpricedLoop : Nat → PricedList τ → PricedList τ
  | 0, l => l
  | fuel + 1, l =>
    match popCheapest gasPrice l.items with
    | none => l
    | some (head, items) =>
      if txHash head ∉ l.all then underpricedLoop fuel { l with items, stales := l.stales - 1 }
      else l

/-- `txPricedList.Underpriced`: whether a transaction that is not local is no dearer than the
cheapest transaction of the pool; `false` for an empty pool.
Source: `kernel/tx_list.go` `txPricedList.Underpriced` -/
def underpriced (l : PricedList τ) (tx : τ) (isLocal : τ → Bool) : PricedList τ × Bool :=
  if isLocal tx then (l, false)
  else
    let l := underpricedLoop txHash gasPrice l.items.length l
    match popCheapest gasPrice l.items with
    | none => (l, false)
    | some (cheapest, _) => (l, decide (gasPrice tx ≤ gasPrice cheapest))

/-- The loop of `Discard`: entries popped while `count` transactions are still to go; a stale
entry is uncounted, a local one saved, any other dropped. -/
def discardLoop (isLocal : τ → Bool) :
    Nat → Int → PricedList τ → List τ → List τ → PricedList τ × List τ × List τ
  | 0, _, l, drop, save => (l, drop, save)
  | fuel + 1, count, l, drop, save =>
    if count ≤ 0 then (l, drop, save)
    else
      match popCheapest gasPrice l.items with
      | none => (l, drop, save)
      | some (tx, items) =>
        if txHash tx ∉ l.all then
          discardLoop isLocal fuel count { l with items, stales := l.stales - 1 } drop save
        else if isLocal tx then discardLoop isLocal fuel count { l with items } drop (save ++ [tx])
        else discardLoop isLocal fuel (count - 1) { l with items } (drop ++ [tx]) save

/-- `txPricedList.Discard`: the `count` cheapest transactions that are not local, taken out of the
heap; the local ones pushed back.
Source: `kernel/tx_list.go` `txPricedList.Discard` -/
def discard (l : PricedList τ) (count : Int) (isLocal : τ → Bool) : PricedList τ × List τ :=
  let (l, drop, save) := discardLoop txHash gasPrice isLocal l.items.length count l [] []
  (save.foldl put l, drop)

/-- `TxPool.enqueueTx`, once the account's queue has answered: nothing when it refused the
transaction; otherwise the transaction it replaced deleted from `all`, and the transaction put in
`all` and in the heap.
Source: `kernel/tx_pool.go` `TxPool.enqueueTx` -/
def enqueueTx (l : PricedList τ) (tx : τ) (inserted : Bool) (old : Option τ) : PricedList τ :=
  if inserted = false then l
  else
    let l := match old with
      | some old => removed { l with all := l.all.erase (txHash old) }
      | none => l
    put { l with all := l.all.insert (txHash tx) tx } tx

/-- `TxPool.promoteTx`, once the account's pending list has answered: a refused transaction
deleted from `all`; otherwise the transaction it replaced deleted, and the transaction put in `all`
and in the heap unless `all` holds it already.
Source: `kernel/tx_pool.go` `TxPool.promoteTx` -/
def promoteTx (l : PricedList τ) (tx : τ) (inserted : Bool) (old : Option τ) : PricedList τ :=
  if inserted = false then removed { l with all := l.all.erase (txHash tx) }
  else
    let l := match old with
      | some old => removed { l with all := l.all.erase (txHash old) }
      | none => l
    if txHash tx ∈ l.all then l else put { l with all := l.all.insert (txHash tx) tx } tx

/-- `TxPool.removeTx`, for `all` and the heap.
Source: `kernel/tx_pool.go` `TxPool.removeTx` -/
def removeTx (l : PricedList τ) (hash : Hash) : PricedList τ :=
  if hash ∈ l.all then removed { l with all := l.all.erase hash } else l

/-! ### A pop answers a cheapest entry -/

theorem popCheapest_eq_none {xs : List τ} : popCheapest gasPrice xs = none ↔ xs = [] := by
  cases xs with
  | nil => exact ⟨fun _ => rfl, fun _ => rfl⟩
  | cons tx rest =>
    refine ⟨fun h => ?_, fun h => by cases h⟩
    rw [popCheapest] at h
    split at h
    · split_ifs at h
    · cases h

theorem perm_popCheapest {xs rest : List τ} {m : τ} (h : popCheapest gasPrice xs = some (m, rest)) :
    xs.Perm (m :: rest) := by
  induction xs generalizing m rest with
  | nil => cases h
  | cons tx xs ih =>
    rw [popCheapest] at h
    split at h
    · rename_i m' rest' hm'
      split_ifs at h
      · obtain ⟨rfl, rfl⟩ := Prod.mk.inj (Option.some.inj h)
        exact ((ih hm').cons tx).trans (List.Perm.swap m' tx rest')
      · obtain ⟨rfl, rfl⟩ := Prod.mk.inj (Option.some.inj h)
        exact List.Perm.refl _
    · rename_i hnone
      obtain ⟨rfl, rfl⟩ := Prod.mk.inj (Option.some.inj h)
      rw [(popCheapest_eq_none gasPrice).mp hnone]

theorem popCheapest_le {xs rest : List τ} {m : τ} (h : popCheapest gasPrice xs = some (m, rest)) :
    ∀ y ∈ xs, gasPrice m ≤ gasPrice y := by
  induction xs generalizing m rest with
  | nil => cases h
  | cons tx xs ih =>
    rw [popCheapest] at h
    intro y hy
    split at h
    · rename_i m' rest' hm'
      have hle := ih hm'
      split_ifs at h with hlt
      · obtain ⟨rfl, rfl⟩ := Prod.mk.inj (Option.some.inj h)
        rcases List.mem_cons.mp hy with rfl | hy
        · exact hlt.le
        · exact hle y hy
      · obtain ⟨rfl, rfl⟩ := Prod.mk.inj (Option.some.inj h)
        rcases List.mem_cons.mp hy with rfl | hy
        · exact le_rfl
        · exact (not_lt.mp hlt).trans (hle y hy)
    · rename_i hnone
      obtain ⟨rfl, rfl⟩ := Prod.mk.inj (Option.some.inj h)
      rw [(popCheapest_eq_none gasPrice).mp hnone, List.mem_singleton] at hy
      rw [hy]

/-! ### What `Discard` returns -/

/-- The loop of `Discard` changes the heap and the counter, never `all`, and drops only
transactions `all` holds. -/
theorem discardLoop_spec (isLocal : τ → Bool) (fuel : Nat) (count : Int) (l : PricedList τ)
    (drop save : List τ) :
    (discardLoop txHash gasPrice isLocal fuel count l drop save).1.all = l.all ∧
      ∀ tx ∈ (discardLoop txHash gasPrice isLocal fuel count l drop save).2.1,
        tx ∈ drop ∨ txHash tx ∈ l.all := by
  induction fuel generalizing count l drop save with
  | zero => exact ⟨rfl, fun tx h => .inl h⟩
  | succ fuel ih =>
    rw [discardLoop]
    split_ifs with hc
    · exact ⟨rfl, fun tx h => .inl h⟩
    split
    · exact ⟨rfl, fun tx h => .inl h⟩
    rename_i tx items _
    by_cases hlive : txHash tx ∈ l.all
    · rw [if_neg (not_not.mpr hlive)]
      by_cases hlocal : isLocal tx = true
      · rw [if_pos hlocal]
        exact ih count _ drop _
      -- the dropped transaction is one `all` holds
      rw [if_neg hlocal]
      obtain ⟨hall, hdrop⟩ := ih (count - 1) { l with items } (drop ++ [tx]) save
      refine ⟨hall, fun y hy => ?_⟩
      rcases hdrop y hy with hy | hy
      · rcases List.mem_append.mp hy with hy | hy
        · exact .inl hy
        · rw [List.mem_singleton.mp hy]
          exact .inr hlive
      · exact .inr hy
    · rw [if_pos hlive]
      exact ih count _ drop save

theorem mem_all_of_mem_discard {l : PricedList τ} {count : Int} {isLocal : τ → Bool} {tx : τ}
    (h : tx ∈ (discard txHash gasPrice l count isLocal).2) : txHash tx ∈ l.all := by
  have hspec := (discardLoop_spec txHash gasPrice isLocal l.items.length count l [] []).2 tx h
  simpa using hspec

/-! ### Re-enqueueing a pending transaction -/

/-- `promoteTx` puts a transaction `all` holds already nowhere: the heap is as it was. -/
theorem promoteTx_of_mem {l : PricedList τ} {tx : τ} (h : txHash tx ∈ l.all) :
    promoteTx txHash l tx true none = l := by
  simp [promoteTx, h]

/-- `enqueueTx` on a transaction `all` holds already, as `demoteUnexecutables` calls it for a
pending transaction its account can no longer run: `all` stays as it was, and the heap gets a
second copy of the transaction, which nothing counts as stale. -/
theorem enqueueTx_of_mem {l : PricedList τ} {tx : τ} (h : l.all.lookup (txHash tx) = some tx) :
    (enqueueTx txHash l tx true none).all = l.all ∧
      (enqueueTx txHash l tx true none).items = l.items ++ [tx] ∧
      (enqueueTx txHash l tx true none).stales = l.stales := by
  refine ⟨?_, rfl, rfl⟩
  apply Finmap.ext_lookup
  intro x
  show (l.all.insert (txHash tx) tx).lookup x = l.all.lookup x
  rw [finmap_lookup_insert]
  split_ifs with hx
  · rw [hx, h]
  · rfl

/-- Transaction `1` at price 1, queued, promoted and demoted back to the queue: the heap holds it
twice, and `Discard` of two transactions returns it twice. -/
theorem enqueueTx_of_mem_demoted :
    let l := promoteTx Prod.fst (enqueueTx Prod.fst (⟨∅, [], 0⟩ : PricedList (Hash × Nat)) (1, 1)
      true none) (1, 1) true none
    l.all.lookup 1 = some (1, 1) ∧
      ((enqueueTx Prod.fst l (1, 1) true none).all = l.all ∧
        (enqueueTx Prod.fst l (1, 1) true none).items = l.items ++ [(1, 1)] ∧
        (enqueueTx Prod.fst l (1, 1) true none).stales = l.stales) ∧
      l.items = [(1, 1)] ∧
      (discard Prod.fst Prod.snd (enqueueTx Prod.fst l (1, 1) true none) 2 fun _ => false).2 =
        [(1, 1), (1, 1)] := by
  intro l
  have hl : l.all.lookup 1 = some (1, 1) := by decide
  exact ⟨hl, enqueueTx_of_mem Prod.fst hl, by decide, by decide⟩

/-- With seven dearer transactions beside it, removing the demoted transaction leaves both of its
copies to `Cap`, which uncounts each: `stales` ends at -1. -/
example :
    let l := [(2, 10), (3, 10), (4, 10), (5, 10), (6, 10), (7, 10), (8, 10)].foldl
      (fun l tx => enqueueTx Prod.fst l tx true none) (⟨∅, [], 0⟩ : PricedList (Hash × Nat))
    let l := enqueueTx Prod.fst
      (promoteTx Prod.fst (enqueueTx Prod.fst l (1, 1) true none) (1, 1) true none) (1, 1) true none
    (cap Prod.fst Prod.snd (removeTx l 1) 5 fun _ => false).1.stales = -1 := by
  decide

end PricedList

end EpvChain.Core
