import EpvChain.Public.Types
import EpvChain.Lib.Finmap
import EpvChain.Lib.Heap

/-!
# The miner's order of transactions (`kernel/types/transaction.go`)

`TransactionsByPriceAndNonce` hands the miner one transaction at a time from a map of accounts to
their lists: each account's next transaction sits in a heap by gas price (`TxByPrice`), the rest
in the map under the recovered sender. `Peek` answers the root; `Shift` replaces it by its
sender's next transaction or pops it; `Pop` drops the root's account. `run` takes the miner's
choices as a list. `Tracks` relates the set to the map: each account's answered transactions and
its queue make up its list, and an account out of the heap was answered in full or popped.

* `new_tracks`, `Tracks.shift`, `Tracks.pop`, `tracks_run` — every step keeps the relation.
* `peek_le` — `Peek` answers a dearest head.
* `byPriceAndNonce_order` — each account's transactions come in list order, `Shift` alone
  answers all of them once, and nothing of an account comes after it is popped.
* `new_empty_account_panics` — an account with no transactions panics the constructor.

The signer is the function `sender`; the model ranges over the map in ascending address order.
-/

set_option linter.unusedSectionVars false

namespace EpvChain.Types

open EpvChain.Lib

/-- `TransactionsByPriceAndNonce`: what is left of each account's list, and the heap of the
accounts' next transactions.
Source: `kernel/types/transaction.go` `type TransactionsByPriceAndNonce struct` -/
structure ByPriceAndNonce (τ : Type) where
  txs : Finmap fun _ : Address => List τ
  heads : Array τ

namespace ByPriceAndNonce

variable {τ : Type} [Inhabited τ] (sender : τ → Address) (gasPrice : τ → Nat)

/-- `TxByPrice.Less`, `s[i].Price > s[j].Price`, as the key of a min-heap: the dearest
transaction orders first. -/
def priceKey (tx : τ) : ℕᵒᵈ := OrderDual.toDual (gasPrice tx)

/-- One round of the constructor's range over the map: the account's first transaction goes into
the heap and the rest is stored under the first one's sender. `accTxs[0]` of an empty list
panics (`none`). -/
def newStep (acc : Option ((Finmap fun _ : Address => List τ) × Array τ)) (k : Address) :
    Option ((Finmap fun _ : Address => List τ) × Array τ) :=
  acc.bind fun r =>
    match r.1.lookup k with
    | some (tx :: rest) => some (r.1.insert (sender tx) rest, r.2.push tx)
    | some [] => none
    | none => some r

/-- `NewTransactionsByPriceAndNonce`.
Source: `kernel/types/transaction.go` `NewTransactionsByPriceAndNonce` -/
def new (txs : Finmap fun _ : Address => List τ) : Option (ByPriceAndNonce τ) :=
  ((sortedList txs.keys).foldl (newStep sender) (some (txs, #[]))).map fun r =>
    ⟨r.1, Heap.init (priceKey gasPrice) r.2⟩

/-- `TransactionsByPriceAndNonce.Peek`: the heap's root, nil when the heap is empty.
Source: `kernel/types/transaction.go` `TransactionsByPriceAndNonce.Peek` -/
def peek (t : ByPriceAndNonce τ) : Option τ :=
  if t.heads.size = 0 then none else some t.heads[0]!

/-- `TransactionsByPriceAndNonce.Shift`: the root replaced by the next transaction of its sender
and sifted into place, or popped when its sender has none left. `t.heads[0]` panics on an empty
heap.
Source: `kernel/types/transaction.go` `TransactionsByPriceAndNonce.Shift` -/
def shift (t : ByPriceAndNonce τ) : Option (ByPriceAndNonce τ) :=
  if t.heads.size = 0 then none
  else
    match t.txs.lookup (sender t.heads[0]!) with
    | some (tx :: rest) =>
      some ⟨t.txs.insert (sender t.heads[0]!) rest,
        Heap.fix (priceKey gasPrice) (t.heads.setIfInBounds 0 tx) 0⟩
    | _ => (Heap.pop (priceKey gasPrice) t.heads).map fun r => ⟨t.txs, r.2⟩

/-- `TransactionsByPriceAndNonce.Pop`: the root's account dropped; `heap.Pop` panics on an empty
heap.
Source: `kernel/types/transaction.go` `TransactionsByPriceAndNonce.Pop` -/
def pop (t : ByPriceAndNonce τ) : Option (ByPriceAndNonce τ) :=
  (Heap.pop (priceKey gasPrice) t.heads).map fun r => ⟨t.txs, r.2⟩

/-- What the miner does after `Peek`: go on to the account's next transaction, or drop the
account. -/
inductive Next where
  | shift
  | pop

/-- `Shift` or `Pop`, as told. -/
def advance (t : ByPriceAndNonce τ) : Next → Option (ByPriceAndNonce τ)
  | .shift => t.shift sender gasPrice
  | .pop => t.pop gasPrice

/-- The miner's loop over the set: `Peek`, stop when it answers nothing, then `Shift` or `Pop`
as the next choice says; the transactions `Peek` answered, and the set at the end. -/
def run : List Next → ByPriceAndNonce τ → List τ × ByPriceAndNonce τ
  | [], t => ([], t)
  | c :: cs, t =>
    match t.peek with
    | none => ([], t)
    | some tx =>
      match t.advance sender gasPrice c with
      | some t' => (tx :: (run cs t').1, (run cs t').2)
      | none => ([tx], t)

/-! ### What the set is to hand out -/

/-- Account `a`'s transactions in the map, none when it has no entry. -/
def listOf (M : Finmap fun _ : Address => List τ) (a : Address) : List τ := (M.lookup a).getD []

/-- The number of transactions in the map. -/
def total (M : Finmap fun _ : Address => List τ) : Nat := ((sortedValues M).map List.length).sum

/-- A map from accounts to their transactions: every account has some, all sent by it. -/
def WellFormed (M : Finmap fun _ : Address => List τ) : Prop :=
  ∀ a l, M.lookup a = some l → l ≠ [] ∧ ∀ tx ∈ l, sender tx = a

/-- The number of transactions in the queues `Q`, heads included. -/
def queued (Q : List (τ × List τ)) : Nat := (Q.map fun p => p.2.length + 1).sum

/-- How the set stands towards the map `M` it was built from, after `Peek` answered `ys` and the
accounts `popped` were dropped. `Q` holds, for each account in the heap, its head and what is
left of its list: the heap holds exactly the heads, one for each account, and the map holds the
rest under the account. An account's answered transactions and its queue make up its list; an
account no longer in the heap was answered in full, or answered in part and popped. -/
structure Tracks (M : Finmap fun _ : Address => List τ) (ys : List τ) (popped : List Address)
    (t : ByPriceAndNonce τ) (Q : List (τ × List τ)) : Prop where
  heap : Heap.Ordered (priceKey gasPrice) t.heads t.heads.size
  heads : t.heads.toList.Perm (Q.map Prod.fst)
  same_sender : ∀ p ∈ Q, ∀ tx ∈ p.2, sender tx = sender p.1
  distinct : (Q.map fun p => sender p.1).Nodup
  rest : ∀ p ∈ Q, t.txs.lookup (sender p.1) = some p.2
  live : ∀ p ∈ Q, ys.filter (fun tx => sender tx = sender p.1) ++ p.1 :: p.2 = listOf M (sender p.1)
  done : ∀ a, a ∉ popped → (∀ p ∈ Q, sender p.1 ≠ a) →
    ys.filter (fun tx => sender tx = a) = listOf M a
  dropped : ∀ a ∈ popped, (∀ p ∈ Q, sender p.1 ≠ a) ∧
    ys.filter (fun tx => sender tx = a) <+: listOf M a

variable {sender gasPrice}

/-! ### `Peek` -/

/-- `Peek` answers the top of a heap that is not empty. -/
theorem peek_eq_some {t : ByPriceAndNonce τ} {x : τ} (h : t.peek = some x) :
    0 < t.heads.size ∧ t.heads[0]! = x := by
  unfold peek at h
  split_ifs at h with hs
  cases h
  exact ⟨Nat.pos_of_ne_zero hs, rfl⟩

/-- `Peek` answers nothing exactly on an empty heap. -/
theorem peek_eq_none {t : ByPriceAndNonce τ} : t.peek = none ↔ t.heads.size = 0 := by
  unfold peek
  split_ifs with hs <;> simp [hs]

/-- The heap's array starts with the transaction `Peek` answers. -/
theorem toList_heads {t : ByPriceAndNonce τ} {x : τ} (h : t.peek = some x) :
    t.heads.toList = x :: t.heads.toList.tail := by
  obtain ⟨hs, hx⟩ := peek_eq_some h
  cases hl : t.heads.toList with
  | nil =>
    have : t.heads.size = 0 := by rw [← Array.length_toList, hl, List.length_nil]
    omega
  | cons y tl =>
    have hy : y = x := by
      rw [← hx, getElem!_pos t.heads 0 hs, ← Array.getElem_toList]
      simp [hl]
    rw [hy, List.tail_cons]

/-- `Peek` answers a dearest transaction of the heap. -/
theorem peek_le {t : ByPriceAndNonce τ}
    (hheap : Heap.Ordered (priceKey gasPrice) t.heads t.heads.size) {x : τ} (hx : t.peek = some x) :
    ∀ y ∈ t.heads.toList, gasPrice y ≤ gasPrice x := by
  obtain ⟨hs, rfl⟩ := peek_eq_some hx
  intro y hy
  obtain ⟨k, hk, rfl⟩ := List.getElem_of_mem hy
  rw [Array.length_toList] at hk
  rw [Array.getElem_toList, ← getElem!_pos t.heads k hk]
  exact OrderDual.toDual_le_toDual.mp (Heap.Ordered.root_le hheap k hk)

/-! ### Each step keeps `Tracks` -/

section Tracks

variable {M : Finmap fun _ : Address => List τ} {ys : List τ} {popped : List Address}
  {t : ByPriceAndNonce τ} {Q R : List (τ × List τ)} {x : τ} {rest : List τ}

theorem filter_snoc_ne {x : τ} {a : Address} (h : sender x ≠ a) (ys : List τ) :
    (ys ++ [x]).filter (fun tx => sender tx = a) = ys.filter (fun tx => sender tx = a) := by
  simp [List.filter_append, h]

theorem filter_snoc_self (x : τ) (ys : List τ) :
    (ys ++ [x]).filter (fun tx => sender tx = sender x) =
      ys.filter (fun tx => sender tx = sender x) ++ [x] := by
  simp [List.filter_append]

/-- The order of the queues does not matter. -/
theorem Tracks.perm (h : Tracks sender gasPrice M ys popped t Q) {Q' : List (τ × List τ)}
    (hQ : Q.Perm Q') : Tracks sender gasPrice M ys popped t Q' where
  heap := h.heap
  heads := h.heads.trans (hQ.map _)
  same_sender p hp := h.same_sender p (hQ.mem_iff.mpr hp)
  distinct := (hQ.map _).nodup_iff.mp h.distinct
  rest p hp := h.rest p (hQ.mem_iff.mpr hp)
  live p hp := h.live p (hQ.mem_iff.mpr hp)
  done a ha hlive := h.done a ha fun p hp => hlive p (hQ.mem_iff.mp hp)
  dropped a ha := ⟨fun p hp => (h.dropped a ha).1 p (hQ.mem_iff.mpr hp), (h.dropped a ha).2⟩

/-- The transaction `Peek` answers heads one of the queues. -/
theorem Tracks.root (h : Tracks sender gasPrice M ys popped t Q) (hx : t.peek = some x) :
    ∃ rest R, Q.Perm ((x, rest) :: R) := by
  have hmem : x ∈ Q.map Prod.fst := by
    rw [← h.heads.mem_iff, toList_heads hx]
    exact List.mem_cons_self ..
  obtain ⟨p, hp, rfl⟩ := List.mem_map.mp hmem
  obtain ⟨s, u, rfl⟩ := List.append_of_mem hp
  exact ⟨p.2, s ++ u, List.perm_middle⟩

/-- The accounts of the other queues are not the root's. -/
theorem Tracks.sender_ne (h : Tracks sender gasPrice M ys popped t ((x, rest) :: R)) :
    ∀ p ∈ R, sender p.1 ≠ sender x := by
  intro p hp hpx
  have hmem : sender x ∈ R.map fun p => sender p.1 := by
    rw [← hpx]
    exact List.mem_map_of_mem hp
  exact (List.nodup_cons.mp h.distinct).1 hmem

/-- The heap without its root holds the other queues' heads. -/
theorem Tracks.pop_heads (h : Tracks sender gasPrice M ys popped t ((x, rest) :: R))
    (hx : t.peek = some x) {y : τ} {b : Array τ}
    (hp : Heap.pop (priceKey gasPrice) t.heads = some (y, b)) : b.toList.Perm (R.map Prod.fst) := by
  have hy : y = x := (Heap.pop_fst hp).trans (peek_eq_some hx).2
  subst hy
  exact ((Heap.pop_perm hp).symm.trans h.heads).cons_inv

/-- Taking the root off the heap, when its account's queue is over or the account is popped,
leaves the other queues. -/
theorem Tracks.drop_root (h : Tracks sender gasPrice M ys popped t ((x, rest) :: R))
    (hx : t.peek = some x) {popped' : List Address}
    (hpopped : (rest = [] ∧ popped' = popped) ∨ popped' = sender x :: popped) {y : τ}
    {b : Array τ} (hp : Heap.pop (priceKey gasPrice) t.heads = some (y, b)) :
    Tracks sender gasPrice M (ys ++ [x]) popped' ⟨t.txs, b⟩ R := by
  have hne := h.sender_ne
  have hsub : ∀ a ∈ popped, a ∈ popped' := by
    rcases hpopped with ⟨-, rfl⟩ | rfl
    · exact fun a ha => ha
    · exact fun a ha => List.mem_cons_of_mem _ ha
  -- an account popped before is not the root's, which is still in the heap
  have hold : ∀ a ∈ popped, a ≠ sender x := fun a ha hax =>
    (h.dropped a ha).1 (x, rest) List.mem_cons_self hax.symm
  refine ⟨Heap.pop_ordered h.heap hp, h.pop_heads hx hp,
    fun p hp => h.same_sender p (List.mem_cons_of_mem _ hp),
    (List.nodup_cons.mp h.distinct).2, fun p hp => h.rest p (List.mem_cons_of_mem _ hp),
    fun p hp => ?_, fun a ha hlive => ?_, fun a ha => ?_⟩
  · rw [filter_snoc_ne (hne p hp).symm]
    exact h.live p (List.mem_cons_of_mem _ hp)
  · by_cases hax : a = sender x
    · -- the root's account was answered in full
      subst hax
      rcases hpopped with ⟨rfl, -⟩ | rfl
      · rw [filter_snoc_self]
        exact h.live (x, []) List.mem_cons_self
      · exact absurd List.mem_cons_self ha
    · rw [filter_snoc_ne (Ne.symm hax)]
      refine h.done a (fun ha' => ha (hsub a ha')) fun p hp => ?_
      rcases List.mem_cons.mp hp with rfl | hp
      · exact Ne.symm hax
      · exact hlive p hp
  · by_cases hax : a = sender x
    · -- the root's account, popped now: answered up to the root
      subst hax
      refine ⟨fun p hp hpa => hne p hp hpa, ?_⟩
      rw [filter_snoc_self, ← h.live (x, rest) List.mem_cons_self]
      exact ⟨rest, by rw [List.append_assoc, List.singleton_append]⟩
    · have ha' : a ∈ popped := by
        rcases hpopped with ⟨-, rfl⟩ | rfl
        · exact ha
        · exact (List.mem_cons.mp ha).resolve_left hax
      rw [filter_snoc_ne (Ne.symm hax)]
      exact ⟨fun p hp => (h.dropped a ha').1 p (List.mem_cons_of_mem _ hp), (h.dropped a ha').2⟩

/-- Replacing the root by its account's next transaction and sifting it into place moves that
account's queue on by one. -/
theorem Tracks.replace_root {tx : τ} (h : Tracks sender gasPrice M ys popped t ((x, tx :: rest) :: R))
    (hx : t.peek = some x) :
    Tracks sender gasPrice M (ys ++ [x]) popped
      ⟨t.txs.insert (sender x) rest,
        Heap.fix (priceKey gasPrice) (t.heads.setIfInBounds 0 tx) 0⟩ ((tx, rest) :: R) := by
  have hne := h.sender_ne
  have htx : sender tx = sender x := h.same_sender _ List.mem_cons_self tx List.mem_cons_self
  have hold : ∀ a ∈ popped, a ≠ sender x := fun a ha hax =>
    (h.dropped a ha).1 _ List.mem_cons_self hax.symm
  -- the new root sits on the old heap, ordered away from the root
  have hperm := Heap.fix_perm (priceKey gasPrice) (t.heads.setIfInBounds 0 tx) 0
  have hsize : (Heap.fix (priceKey gasPrice) (t.heads.setIfInBounds 0 tx) 0).size = t.heads.size := by
    simpa using hperm.length_eq
  have hset : (t.heads.setIfInBounds 0 tx).toList = tx :: t.heads.toList.tail := by
    rw [Array.toList_setIfInBounds, toList_heads hx, List.set_cons_zero, List.tail_cons]
  have htail : t.heads.toList.tail.Perm (R.map Prod.fst) := by
    have := h.heads
    rw [toList_heads hx] at this
    exact this.cons_inv
  refine ⟨?_, ?_, fun p hp y hy => ?_, ?_, fun p hp => ?_, fun p hp => ?_, fun a ha hlive => ?_,
    fun a ha => ?_⟩
  · show Heap.Ordered _ _ (Heap.fix (priceKey gasPrice) (t.heads.setIfInBounds 0 tx) 0).size
    rw [hsize, ← Array.size_setIfInBounds (i := 0) (a := tx)]
    apply Heap.fix_zero_ordered
    intro k hk0 hk hpk
    rw [Array.size_setIfInBounds] at hk
    rw [Heap.getElem!_setIfInBounds_ne hpk, Heap.getElem!_setIfInBounds_ne (by omega)]
    exact h.heap k hk0 hk
  · exact hperm.trans (hset ▸ htail.cons tx)
  · rcases List.mem_cons.mp hp with rfl | hp
    · rw [htx]
      exact h.same_sender _ List.mem_cons_self y (List.mem_cons_of_mem _ hy)
    · exact h.same_sender p (List.mem_cons_of_mem _ hp) y hy
  · rw [List.map_cons, htx]
    exact h.distinct
  · rcases List.mem_cons.mp hp with rfl | hp
    · rw [htx, finmap_lookup_insert, if_pos rfl]
    · rw [finmap_lookup_insert, if_neg (hne p hp)]
      exact h.rest p (List.mem_cons_of_mem _ hp)
  · rcases List.mem_cons.mp hp with rfl | hp
    · -- the account's answered transactions gain the old root
      rw [htx, filter_snoc_self, List.append_assoc, List.singleton_append]
      exact h.live _ List.mem_cons_self
    · rw [filter_snoc_ne (hne p hp).symm]
      exact h.live p (List.mem_cons_of_mem _ hp)
  · have hax : sender x ≠ a := by
      rw [← htx]
      exact hlive _ List.mem_cons_self
    rw [filter_snoc_ne hax]
    refine h.done a ha fun p hp => ?_
    rcases List.mem_cons.mp hp with rfl | hp
    · exact hax
    · exact hlive p (List.mem_cons_of_mem _ hp)
  · rw [filter_snoc_ne (Ne.symm (hold a ha))]
    refine ⟨fun p hp => ?_, (h.dropped a ha).2⟩
    rcases List.mem_cons.mp hp with rfl | hp
    · rw [htx]
      exact Ne.symm (hold a ha)
    · exact (h.dropped a ha).1 p (List.mem_cons_of_mem _ hp)

/-- `Shift` answers the next state, one transaction fewer queued. -/
theorem Tracks.shift (h : Tracks sender gasPrice M ys popped t ((x, rest) :: R))
    (hx : t.peek = some x) :
    ∃ t' Q', t.shift sender gasPrice = some t' ∧ Tracks sender gasPrice M (ys ++ [x]) popped t' Q' ∧
      queued Q' + 1 = queued ((x, rest) :: R) := by
  obtain ⟨hs, hx0⟩ := peek_eq_some hx
  have hrest : t.txs.lookup (sender t.heads[0]!) = some rest := by
    rw [hx0]
    exact h.rest _ List.mem_cons_self
  cases rest with
  | nil =>
    obtain ⟨y, b, hp⟩ : ∃ y b, Heap.pop (priceKey gasPrice) t.heads = some (y, b) :=
      ⟨_, _, Heap.pop_eq_some _ (Nat.pos_iff_ne_zero.mp hs)⟩
    refine ⟨⟨t.txs, b⟩, R, ?_, h.drop_root hx (Or.inl ⟨rfl, rfl⟩) hp, by simp [queued]; omega⟩
    rw [ByPriceAndNonce.shift, if_neg (by omega), hrest]
    simp [hp]
  | cons tx rest =>
    refine ⟨_, (tx, rest) :: R, ?_, h.replace_root hx, by simp [queued]; omega⟩
    rw [ByPriceAndNonce.shift, if_neg (by omega), hrest, hx0]

/-- `Pop` drops the root's account and its queue. -/
theorem Tracks.pop (h : Tracks sender gasPrice M ys popped t ((x, rest) :: R))
    (hx : t.peek = some x) :
    ∃ t', t.pop gasPrice = some t' ∧ Tracks sender gasPrice M (ys ++ [x]) (sender x :: popped) t' R := by
  obtain ⟨hs, -⟩ := peek_eq_some hx
  obtain ⟨y, b, hp⟩ : ∃ y b, Heap.pop (priceKey gasPrice) t.heads = some (y, b) :=
    ⟨_, _, Heap.pop_eq_some _ (Nat.pos_iff_ne_zero.mp hs)⟩
  refine ⟨⟨t.txs, b⟩, ?_, h.drop_root hx (Or.inr rfl) hp⟩
  rw [ByPriceAndNonce.pop, hp]
  rfl

/-- The count of queued transactions does not depend on the order of the queues. -/
theorem queued_perm (hQ : Q.Perm R) : queued Q = queued R :=
  (hQ.map _).sum_eq

/-- `Shift` or `Pop` after `Peek` keeps `Tracks`, with the accounts popped so far kept popped; a
`Shift` pops none and queues one transaction fewer. -/
theorem Tracks.advance (h : Tracks sender gasPrice M ys popped t Q) (hx : t.peek = some x)
    (c : Next) :
    ∃ t' popped' Q', t.advance sender gasPrice c = some t' ∧
      Tracks sender gasPrice M (ys ++ [x]) popped' t' Q' ∧ (∀ a ∈ popped, a ∈ popped') ∧
      (c = .shift → popped' = popped ∧ queued Q' + 1 = queued Q) := by
  obtain ⟨rest, R, hQ⟩ := h.root hx
  have h' := h.perm hQ
  cases c with
  | shift =>
    obtain ⟨t', Q', hs, ht', hq⟩ := h'.shift hx
    exact ⟨t', popped, Q', hs, ht', fun _ ha => ha, fun _ => ⟨rfl, by rw [hq, queued_perm hQ]⟩⟩
  | pop =>
    obtain ⟨t', hp, ht'⟩ := h'.pop hx
    exact ⟨t', _, R, hp, ht', fun _ ha => List.mem_cons_of_mem _ ha, fun hc => by cases hc⟩

/-- A run stops at an empty heap. -/
theorem run_cons_none {c : Next} {cs : List Next} (hx : t.peek = none) :
    run sender gasPrice (c :: cs) t = ([], t) := by
  rw [run, hx]

/-- A run hands out the top and goes on from the heap the call leaves. -/
theorem run_cons_some {c : Next} {cs : List Next} {t' : ByPriceAndNonce τ} (hx : t.peek = some x)
    (ht : t.advance sender gasPrice c = some t') :
    run sender gasPrice (c :: cs) t =
      (x :: (run sender gasPrice cs t').1, (run sender gasPrice cs t').2) := by
  rw [run, hx]
  simp only [ht]

/-- A run keeps `Tracks`, and what was popped stays popped. -/
theorem tracks_run : ∀ (cs : List Next) (t : ByPriceAndNonce τ) (ys : List τ)
    (popped : List Address) (Q : List (τ × List τ)), Tracks sender gasPrice M ys popped t Q →
    ∃ popped' Q', Tracks sender gasPrice M (ys ++ (run sender gasPrice cs t).1) popped'
        (run sender gasPrice cs t).2 Q' ∧ ∀ a ∈ popped, a ∈ popped'
  | [], t, ys, popped, Q, h => ⟨popped, Q, by rw [run, List.append_nil]; exact h, fun _ ha => ha⟩
  | c :: cs, t, ys, popped, Q, h => by
    cases hx : t.peek with
    | none =>
      rw [run_cons_none hx, List.append_nil]
      exact ⟨popped, Q, h, fun _ ha => ha⟩
    | some x =>
      obtain ⟨t', popped', Q', ht, h', hsub, -⟩ := h.advance hx c
      obtain ⟨popped'', Q'', h'', hsub'⟩ := tracks_run cs t' _ popped' Q' h'
      rw [run_cons_some hx ht, ← List.singleton_append, ← List.append_assoc]
      exact ⟨popped'', Q'', h'', fun a ha => hsub' a (hsub a ha)⟩

/-- Nothing more of a popped account comes. -/
theorem Tracks.run_ne (h : Tracks sender gasPrice M ys popped t Q) {a : Address} (ha : a ∈ popped) :
    ∀ cs, ∀ y ∈ (run sender gasPrice cs t).1, sender y ≠ a := by
  intro cs
  induction cs generalizing t ys popped Q with
  | nil => simp [run]
  | cons c cs ih =>
    cases hx : t.peek with
    | none =>
      rw [run_cons_none hx]
      simp
    | some x =>
      obtain ⟨t', popped', Q', ht, h', hsub, -⟩ := h.advance hx c
      rw [run_cons_some hx ht]
      intro y hy
      rcases List.mem_cons.mp hy with rfl | hy
      · -- the root belongs to an account still in the heap, which was not popped
        obtain ⟨rest, R, hQ⟩ := h.root hx
        intro hya
        exact (h.dropped a ha).1 (y, rest) (hQ.mem_iff.mpr List.mem_cons_self) hya
      · exact ih h' (hsub a ha) y hy

/-- With nothing popped, `Shift`s as many as the transactions queued answer all of them. -/
theorem Tracks.drain (h : Tracks sender gasPrice M ys [] t Q) :
    ∀ n, queued Q ≤ n → Tracks sender gasPrice M
      (ys ++ (run sender gasPrice (List.replicate n .shift) t).1) []
      (run sender gasPrice (List.replicate n .shift) t).2 [] := by
  intro n
  induction n generalizing t ys Q with
  | zero =>
    intro hq
    have hQ : Q = [] := by
      cases Q with
      | nil => rfl
      | cons p Q => simp [queued] at hq
    subst hQ
    rw [List.replicate_zero, run, List.append_nil]
    exact h
  | succ n ih =>
    intro hq
    rw [List.replicate_succ]
    cases hx : t.peek with
    | none =>
      -- an empty heap has no queues left
      have hQ : Q = [] := by
        have hnil : t.heads.toList = [] := by
          rw [← List.length_eq_zero_iff, Array.length_toList]
          exact peek_eq_none.mp hx
        have := h.heads
        rw [hnil] at this
        exact List.map_eq_nil_iff.mp this.symm.eq_nil
      subst hQ
      rw [run_cons_none hx, List.append_nil]
      exact h
    | some x =>
      obtain ⟨t', popped', Q', ht, h', -, hshift⟩ := h.advance hx .shift
      obtain ⟨rfl, hq'⟩ := hshift rfl
      rw [run_cons_some hx ht, ← List.singleton_append, ← List.append_assoc]
      exact ih h' (by omega)

/-! ### The constructor -/

/-- A list of a map's transactions is its first one, then the rest. -/
theorem headD_cons_tail {l : List τ} (h : l ≠ []) : l.headD default :: l.tail = l := by
  cases l with
  | nil => exact absurd rfl h
  | cons y l => rfl

/-- The constructor's range over distinct accounts of a well-formed map, their entries still as
in the map, puts their first transactions into the heap in order and leaves the rest under them. -/
theorem foldl_newStep (hM : WellFormed sender M) :
    ∀ (ks : List Address) (txs : Finmap fun _ : Address => List τ) (heads : Array τ), ks.Nodup →
      (∀ k ∈ ks, txs.lookup k = M.lookup k ∧ k ∈ M) →
      ∃ txs' heads', ks.foldl (newStep sender) (some (txs, heads)) = some (txs', heads') ∧
        heads'.toList = heads.toList ++ ks.map (fun k => (listOf M k).headD default) ∧
        ∀ a, txs'.lookup a = if a ∈ ks then some (listOf M a).tail else txs.lookup a
  | [], txs, heads, _, _ => ⟨txs, heads, rfl, by simp, fun a => by simp⟩
  | k :: ks, txs, heads, hnd, hks => by
    obtain ⟨hk, hkM⟩ := hks k List.mem_cons_self
    obtain ⟨l, hl⟩ := Finmap.mem_iff.mp hkM
    obtain ⟨hne, hsender⟩ := hM k l hl
    obtain ⟨y, rest, rfl⟩ := List.exists_cons_of_ne_nil hne
    have hstep : newStep sender (some (txs, heads)) k = some (txs.insert k rest, heads.push y) := by
      rw [newStep, Option.bind_some, hk, hl]
      show some (txs.insert (sender y) rest, heads.push y) = _
      rw [hsender y List.mem_cons_self]
    obtain ⟨hk', hnd'⟩ := List.nodup_cons.mp hnd
    obtain ⟨txs', heads', hfold, hheads, hlookup⟩ := foldl_newStep hM ks (txs.insert k rest)
      (heads.push y) hnd' fun k' hk'' => by
        have hkk : k' ≠ k := fun h => hk' (h ▸ hk'')
        rw [finmap_lookup_insert, if_neg hkk]
        exact hks k' (List.mem_cons_of_mem _ hk'')
    refine ⟨txs', heads', by rw [List.foldl_cons, hstep, hfold], ?_, fun a => ?_⟩
    · rw [hheads, Array.toList_push, List.map_cons, listOf, hl, Option.getD_some, List.headD_cons,
        List.append_assoc, List.singleton_append]
    · rw [hlookup a, finmap_lookup_insert]
      by_cases hak : a = k
      · subst hak
        simp [hk', listOf, hl]
      · simp [hak]

/-- The queues the constructor sets up: each account's first transaction and the rest. -/
def initialQueues (M : Finmap fun _ : Address => List τ) : List (τ × List τ) :=
  (sortedList M.keys).map fun k => ((listOf M k).headD default, (listOf M k).tail)

/-- The constructor succeeds on a well-formed map and sets up `Tracks` with nothing answered, every
transaction queued. -/
theorem new_tracks (hM : WellFormed sender M) :
    ∃ t, new sender gasPrice M = some t ∧ Tracks sender gasPrice M [] [] t (initialQueues M) ∧
      queued (initialQueues M) = total M := by
  have hkeys : ∀ k ∈ sortedList M.keys, M.lookup k = some (listOf M k) ∧ listOf M k ≠ [] ∧
      ∀ tx ∈ listOf M k, sender tx = k := by
    intro k hk
    obtain ⟨l, hl⟩ := Finmap.mem_iff.mp (Finmap.mem_keys.mp (mem_sortedList.mp hk))
    rw [listOf, hl, Option.getD_some]
    exact ⟨rfl, hM k l hl⟩
  obtain ⟨txs', heads', hfold, hheads, hlookup⟩ := foldl_newStep hM (sortedList M.keys) M #[]
    (sortedList_nodup _) fun k hk => ⟨rfl, Finmap.mem_keys.mp (mem_sortedList.mp hk)⟩
  have hinit := Heap.init_perm (priceKey gasPrice) heads'
  have hsize : (Heap.init (priceKey gasPrice) heads').size = heads'.size := by
    simpa using hinit.length_eq
  -- the senders of the heads are the accounts, in order
  have hsenders : (initialQueues M).map (fun p => sender p.1) = sortedList M.keys := by
    rw [initialQueues, List.map_map]
    conv_rhs => rw [← List.map_id (sortedList M.keys)]
    apply List.map_congr_left
    intro k hk
    obtain ⟨-, hne, hs⟩ := hkeys k hk
    exact hs _ (by rw [← headD_cons_tail hne]; exact List.mem_cons_self)
  refine ⟨⟨txs', Heap.init (priceKey gasPrice) heads'⟩, ?_, ⟨?_, ?_, ?_, ?_, ?_, ?_, ?_, ?_⟩, ?_⟩
  · rw [new, hfold]
    rfl
  · show Heap.Ordered _ _ (Heap.init (priceKey gasPrice) heads').size
    rw [hsize]
    exact Heap.init_ordered _ heads'
  · rw [initialQueues, List.map_map]
    exact hinit.trans (by rw [hheads]; rfl)
  · intro p hp y hy
    obtain ⟨k, hk, rfl⟩ := List.mem_map.mp hp
    obtain ⟨-, hne, hs⟩ := hkeys k hk
    rw [hs y (List.mem_of_mem_tail hy), hs _ (by rw [← headD_cons_tail hne]; exact List.mem_cons_self)]
  · rw [hsenders]
    exact sortedList_nodup _
  · intro p hp
    obtain ⟨k, hk, rfl⟩ := List.mem_map.mp hp
    obtain ⟨-, hne, hs⟩ := hkeys k hk
    show txs'.lookup (sender ((listOf M k).headD default)) = some (listOf M k).tail
    rw [hs _ (by rw [← headD_cons_tail hne]; exact List.mem_cons_self), hlookup, if_pos hk]
  · intro p hp
    obtain ⟨k, hk, rfl⟩ := List.mem_map.mp hp
    obtain ⟨-, hne, hs⟩ := hkeys k hk
    show [].filter _ ++ (listOf M k).headD default :: (listOf M k).tail = _
    rw [List.filter_nil, List.nil_append, headD_cons_tail hne,
      hs _ (by rw [← headD_cons_tail hne]; exact List.mem_cons_self)]
  · -- an account without a queue has no entry
    intro a _ hlive
    have ha : a ∉ M := fun ha => by
      have hmem : a ∈ (initialQueues M).map (fun p => sender p.1) := by
        rw [hsenders]
        exact mem_sortedList.mpr (Finmap.mem_keys.mpr ha)
      obtain ⟨p, hp, hpa⟩ := List.mem_map.mp hmem
      exact hlive p hp hpa
    rw [List.filter_nil, listOf, Finmap.lookup_eq_none.mpr ha, Option.getD_none]
  · intro a ha
    cases ha
  · -- every account's list is its head and the rest
    have hvals : (sortedList M.keys).filterMap (fun k => M.lookup k) =
        (sortedList M.keys).map (listOf M) := by
      rw [← List.filterMap_eq_map']
      exact List.filterMap_congr fun k hk => (hkeys k hk).1
    rw [queued, total, initialQueues, List.map_map, sortedValues, hvals, List.map_map]
    congr 1
    apply List.map_congr_left
    intro k hk
    obtain ⟨-, hne, -⟩ := hkeys k hk
    show (listOf M k).tail.length + 1 = (listOf M k).length
    have := List.length_pos_of_ne_nil hne
    rw [List.length_tail]
    omega

/-- Each account's answered transactions are a prefix of its list. -/
theorem Tracks.prefix (h : Tracks sender gasPrice M ys popped t Q) (a : Address) :
    ys.filter (fun tx => sender tx = a) <+: listOf M a := by
  by_cases hlive : ∃ p ∈ Q, sender p.1 = a
  · obtain ⟨p, hp, rfl⟩ := hlive
    exact ⟨p.1 :: p.2, h.live p hp⟩
  · simp only [not_exists, not_and] at hlive
    by_cases ha : a ∈ popped
    · exact (h.dropped a ha).2
    · rw [h.done a ha hlive]

end Tracks

/-! ### What the miner sees -/

/-- On a map from accounts to their transactions, the set the constructor builds hands the miner,
over any run of `Peek` followed by `Shift` or `Pop`: at each `Peek` a dearest head; each
account's transactions in list order, never more than its list; with as many `Shift`s as
there are transactions, every transaction once; and after an account is popped, nothing more
of it. -/
theorem byPriceAndNonce_order {M : Finmap fun _ : Address => List τ} (hM : WellFormed sender M) :
    ∃ t, new sender gasPrice M = some t ∧
      (∀ pre x, (run sender gasPrice pre t).2.peek = some x →
        ∀ y ∈ (run sender gasPrice pre t).2.heads.toList, gasPrice y ≤ gasPrice x) ∧
      (∀ cs a, (run sender gasPrice cs t).1.filter (fun tx => sender tx = a) <+: listOf M a) ∧
      (∀ n, total M ≤ n → ∀ a,
        (run sender gasPrice (List.replicate n .shift) t).1.filter (fun tx => sender tx = a) =
          listOf M a) ∧
      (∀ pre post x, (run sender gasPrice pre t).2.peek = some x →
        ∃ ys, (run sender gasPrice (.pop :: post) (run sender gasPrice pre t).2).1 = x :: ys ∧
          ∀ y ∈ ys, sender y ≠ sender x) := by
  obtain ⟨t, hnew, h0, hq⟩ := @new_tracks _ _ sender gasPrice _ hM
  refine ⟨t, hnew, fun pre x hx => ?_, fun cs a => ?_, fun n hn a => ?_, fun pre post x hx => ?_⟩
  · obtain ⟨popped, Q, h, -⟩ := tracks_run pre t [] [] _ h0
    exact peek_le h.heap hx
  · obtain ⟨popped, Q, h, -⟩ := tracks_run cs t [] [] _ h0
    rw [List.nil_append] at h
    exact h.prefix a
  · have h := h0.drain n (by omega)
    rw [List.nil_append] at h
    exact h.done a List.not_mem_nil fun p hp => absurd hp List.not_mem_nil
  · -- the popped account is the root's, and nothing more of it comes
    obtain ⟨popped, Q, h, -⟩ := tracks_run pre t [] [] _ h0
    obtain ⟨rest, R, hQ⟩ := h.root hx
    obtain ⟨t', hpop, h'⟩ := (h.perm hQ).pop hx
    rw [run_cons_some hx (show (run sender gasPrice pre t).2.advance sender gasPrice .pop = some t'
      from hpop)]
    exact ⟨_, rfl, h'.run_ne List.mem_cons_self post⟩

/-- Transactions numbered by their price, sent by the account of their parity. -/
def paritySender (tx : Nat) : Address := if tx % 2 = 0 then 0 else 1

/-- Two accounts whose prices interleave: account `0` sends `4` then `2`, account `1` sends `5`
then `1`. -/
def twoAccounts : Finmap fun _ : Address => List Nat :=
  (Finmap.singleton (0 : Address) [4, 2]).insert 1 [5, 1]

/-- Two accounts whose prices interleave: the set hands out `5, 4, 2, 1`, switching account at
each step while keeping each account's order. -/
theorem byPriceAndNonce_order_two_accounts :
    WellFormed paritySender twoAccounts ∧
    (∃ t, new paritySender id twoAccounts = some t ∧
      (∀ pre x, (run paritySender id pre t).2.peek = some x →
        ∀ y ∈ (run paritySender id pre t).2.heads.toList, id y ≤ id x) ∧
      (∀ cs a, (run paritySender id cs t).1.filter (fun tx => paritySender tx = a) <+:
        listOf twoAccounts a) ∧
      (∀ n, total twoAccounts ≤ n → ∀ a,
        (run paritySender id (List.replicate n .shift) t).1.filter
            (fun tx => paritySender tx = a) = listOf twoAccounts a) ∧
      (∀ pre post x, (run paritySender id pre t).2.peek = some x →
        ∃ ys, (run paritySender id (.pop :: post) (run paritySender id pre t).2).1 = x :: ys ∧
          ∀ y ∈ ys, paritySender y ≠ paritySender x)) ∧
    (new paritySender id twoAccounts).map (fun t => (run paritySender id (List.replicate 4 .shift) t).1) =
      some [5, 4, 2, 1] :=
  have hM : WellFormed paritySender twoAccounts := by
    intro a l h
    rw [twoAccounts, finmap_lookup_insert, finmap_lookup_singleton] at h
    split_ifs at h with h1 h0 <;> cases h
    · exact ⟨List.cons_ne_nil _ _, by subst h1; decide +kernel⟩
    · exact ⟨List.cons_ne_nil _ _, by subst h0; decide +kernel⟩
  ⟨hM, byPriceAndNonce_order hM, by decide +kernel⟩

/-- An account with no transactions makes the constructor panic (`accTxs[0]`), so the other
account's transaction is never handed out. -/
theorem new_empty_account_panics :
    new (fun _ : Nat => (1 : Address)) id
      ((Finmap.singleton (0 : Address) ([] : List Nat)).insert 1 [5]) = none := by
  rfl

end ByPriceAndNonce

end EpvChain.Types
