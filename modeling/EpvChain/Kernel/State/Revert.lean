import EpvChain.Kernel.State.StateDb

/-!
# What `Finalise` writes, and a revert that is not undone

* `trie_finalise` — `Finalise` changes the trie exactly at the dirty addresses, each after its
  own object alone (`finalisedAt`).
* `dirty_subset_revertToSnapshot` — a revert takes no address out of the dirty set unless it
  undoes a creation or a touch: the other undos go through the setters.
* `revertToSnapshot_last` — a revert to the last snapshot undoes exactly the entries recorded
  since, last first.
* `revertToSnapshot_deletes_empty_account` — a reverted balance change of an empty account that
  the trie holds restores every read of it, but leaves it dirty: `IntermediateRoot(true)` then
  deletes it from the trie, which it keeps when the change is never made.
-/

namespace EpvChain.State

open Lib

section Keccak

variable (keccak : List UInt8 → Hash)

/-- What `Finalise` leaves in the trie at a dirty address: nothing for a suicided object or, when
empty objects are deleted, an empty one; the account with its storage written otherwise. -/
def finalisedAt (deleteEmptyObjects : Bool) (obj? : Option StateObject) (cur : Option Account) :
    Option Account :=
  match obj? with
  | none => cur
  | some obj =>
    if obj.suicided || (deleteEmptyObjects && obj.empty keccak) then none else some obj.updateRoot.data

namespace StateDB

variable {keccak} (d : Bool)

/-! ### One dirty address at a time -/

theorem trie_finaliseObject_of_ne (s : StateDB) {a b : Address} (h : a ≠ b) :
    (s.finaliseObject keccak d b).trie.lookup a = s.trie.lookup a := by
  unfold finaliseObject
  rcases hb : s.stateObjects.lookup b with _ | obj
  · rfl
  · -- the object stored under `b` is the one found there, so the trie changes at `b` only
    have haddr : obj.address = b := s.stateObjects.keyed b obj hb
    dsimp only
    split_ifs
    · simp [deleteStateObject, Finmap.lookup_erase_ne (haddr ▸ h)]
    · simp [updateStateObject, setStateObject, Finmap.lookup_insert_of_ne _ (haddr ▸ h)]

theorem lookup_finaliseObject_of_ne (s : StateDB) {a b : Address} (h : a ≠ b) :
    (s.finaliseObject keccak d b).stateObjects.lookup a = s.stateObjects.lookup a := by
  unfold finaliseObject
  rcases hb : s.stateObjects.lookup b with _ | obj
  · rfl
  · have haddr : obj.address = b := s.stateObjects.keyed b obj hb
    dsimp only
    split_ifs
    · simp [deleteStateObject, setStateObject, ObjectMap.lookup_insert, haddr, h]
    · simp [updateStateObject, setStateObject, ObjectMap.lookup_insert, haddr, h]

theorem trie_finaliseObject_self (s : StateDB) (a : Address) :
    (s.finaliseObject keccak d a).trie.lookup a =
      finalisedAt keccak d (s.stateObjects.lookup a) (s.trie.lookup a) := by
  unfold finaliseObject finalisedAt
  rcases ha : s.stateObjects.lookup a with _ | obj
  · rfl
  · have haddr : obj.address = a := s.stateObjects.keyed a obj ha
    dsimp only
    split_ifs
    · simp [deleteStateObject, haddr]
    · simp [updateStateObject, setStateObject, haddr]

/-- The visits of distinct addresses: each address's trie entry is set by its own visit, from
the object found before any visit. -/
theorem trie_foldl_finaliseObject (a : Address) :
    ∀ (l : List Address) (s : StateDB), l.Nodup →
      (l.foldl (finaliseObject keccak d) s).trie.lookup a =
        if a ∈ l then finalisedAt keccak d (s.stateObjects.lookup a) (s.trie.lookup a)
        else s.trie.lookup a
  | [], s, _ => by rw [if_neg List.not_mem_nil, List.foldl_nil]
  | b :: l, s, hl => by
    obtain ⟨hbl, hl⟩ := List.nodup_cons.mp hl
    rw [List.foldl_cons, trie_foldl_finaliseObject a l _ hl]
    by_cases hab : a = b
    · subst hab
      rw [if_neg hbl, if_pos List.mem_cons_self, trie_finaliseObject_self]
    · rw [lookup_finaliseObject_of_ne d s hab, trie_finaliseObject_of_ne d s hab]
      simp only [List.mem_cons, hab, false_or]

/-- `Finalise` changes the trie exactly at the dirty addresses, each after its own object. -/
theorem trie_finalise (s : StateDB) (a : Address) :
    (s.finalise keccak d).trie.lookup a =
      if a ∈ s.stateObjectsDirty then finalisedAt keccak d (s.stateObjects.lookup a) (s.trie.lookup a)
      else s.trie.lookup a := by
  have hnodup : (sortedList s.stateObjectsDirty).Nodup := by
    rw [sortedList_eq_sort]
    exact Finset.sort_nodup _ _
  have hmem : a ∈ sortedList s.stateObjectsDirty ↔ a ∈ s.stateObjectsDirty := by
    rw [sortedList_eq_sort, Finset.mem_sort]
  unfold finalise
  rw [clearJournalAndRefund, trie_foldl_finaliseObject d a _ s hnodup]
  simp only [hmem]

/-! ### The dirty set under undo -/

theorem dirty_subset_dirtied (s : StateDB) (obj : StateObject) :
    s.stateObjectsDirty ⊆ (s.dirtied obj).stateObjectsDirty := by
  unfold dirtied
  split_ifs
  · exact Finset.subset_insert _ _
  · exact subset_rfl

theorem dirty_getStateObject (s : StateDB) (a : Address) :
    (s.getStateObject a).2.stateObjectsDirty = s.stateObjectsDirty := by
  unfold getStateObject
  split
  · rfl
  · split <;> rfl

/-- Only the undo of a creation or of a touch takes an address out of the dirty set: every other
undo goes through a setter, which marks and never unmarks. -/
theorem dirty_subset_undo {s s' : StateDB} {entry : JournalEntry}
    (hcreate : ∀ a, entry ≠ .createObjectChange a) (htouch : ∀ a p q, entry ≠ .touchChange a p q)
    (h : entry.undo s = some s') : s.stateObjectsDirty ⊆ s'.stateObjectsDirty := by
  -- the undos that call a setter on the object found at the address
  have hwith : ∀ (a : Address) (f : StateObject → StateDB → StateDB),
      (∀ obj t, t.stateObjectsDirty ⊆ (f obj t).stateObjectsDirty) →
      s.withObject a f = some s' → s.stateObjectsDirty ⊆ s'.stateObjectsDirty := by
    intro a f hf hs
    unfold withObject at hs
    rcases hget : s.getStateObject a with ⟨_ | obj, t⟩
    · rw [hget] at hs
      cases hs
    · rw [hget] at hs
      cases hs
      have ht : t.stateObjectsDirty = s.stateObjectsDirty := by
        rw [← dirty_getStateObject s a, hget]
      exact ht ▸ hf obj t
  cases entry with
  | createObjectChange a => exact absurd rfl (hcreate a)
  | touchChange a p q => exact absurd rfl (htouch a p q)
  | resetObjectChange prev =>
    cases h
    exact subset_rfl
  | suicideChange a prev prevbalance =>
    simp only [JournalEntry.undo] at h
    rcases hget : s.getStateObject a with ⟨_ | obj, t⟩
    · -- no object: only the load, which leaves the dirty set
      rw [hget] at h
      cases h
      rw [← dirty_getStateObject s a, hget]
    · rw [hget] at h
      cases h
      rw [← dirty_getStateObject s a, hget]
      exact dirty_subset_dirtied _ _
  | balanceChange a prev => exact hwith a _ (fun obj t => dirty_subset_dirtied _ _) h
  | nonceChange a prev => exact hwith a _ (fun obj t => dirty_subset_dirtied _ _) h
  | codeChange a prevcode prevhash => exact hwith a _ (fun obj t => dirty_subset_dirtied _ _) h
  | storageChange a key prevalue => exact hwith a _ (fun obj t => dirty_subset_dirtied _ _) h
  | refundChange prev =>
    cases h
    exact subset_rfl
  | addLogChange txhash =>
    unfold JournalEntry.undo at h
    dsimp only at h
    split_ifs at h <;> cases h <;> exact subset_rfl
  | addPreimageChange hash =>
    cases h
    exact subset_rfl

/-- Undoing entries none of which is a creation or a touch keeps every dirty address dirty. -/
theorem dirty_subset_undoAll : ∀ {s s' : StateDB} {entries : List JournalEntry},
    (∀ entry ∈ entries, (∀ a, entry ≠ .createObjectChange a) ∧ ∀ a p q, entry ≠ .touchChange a p q) →
    s.undoAll entries = some s' → s.stateObjectsDirty ⊆ s'.stateObjectsDirty
  | s, s', [], _, h => by
    cases h
    exact subset_rfl
  | s, s', entry :: entries, hentries, h => by
    rw [undoAll] at h
    obtain ⟨t, ht, hrest⟩ := Option.bind_eq_some_iff.mp h
    have hentry := hentries entry List.mem_cons_self
    exact (dirty_subset_undo hentry.1 hentry.2 ht).trans
      (dirty_subset_undoAll (fun e he => hentries e (List.mem_cons_of_mem _ he)) hrest)

/-- **A revert keeps the dirty set.** When the journal records no creation and no touch,
`RevertToSnapshot` leaves every dirty address dirty, whatever it undoes. -/
theorem dirty_subset_revertToSnapshot {s s' : StateDB} {revid : Nat}
    (hjournal : ∀ entry ∈ s.journal,
      (∀ a, entry ≠ .createObjectChange a) ∧ ∀ a p q, entry ≠ .touchChange a p q)
    (h : s.revertToSnapshot revid = some s') : s.stateObjectsDirty ⊆ s'.stateObjectsDirty := by
  unfold revertToSnapshot at h
  dsimp only at h
  split at h
  · cases h
  · split_ifs at h
    obtain ⟨t, ht, rfl⟩ := Option.map_eq_some_iff.mp h
    have hsub := dirty_subset_undoAll
      (fun e he => hjournal e (List.mem_of_mem_drop (List.mem_reverse.mp he))) ht
    exact hsub

/-! ### Reverting to the last snapshot -/

/-- The search for a revision taken after all others finds it last. -/
theorem searchRevision_last (revisions : List Revision) {n : Nat} (len : Nat)
    (hids : ∀ r ∈ revisions, r.id < n) :
    searchRevision (revisions ++ [⟨n, len⟩]) n = revisions.length := by
  have hbelow : ∀ r ∈ revisions, decide (n ≤ r.id) = false := by
    intro r hr
    exact decide_eq_false (Nat.not_le.mpr (hids r hr))
  rw [searchRevision, List.findIdx_append, List.findIdx_eq_length_of_false hbelow, if_neg (lt_irrefl _)]
  simp

/-- A revert to the last snapshot undoes the entries recorded since, last first, and drops them
with the revision. -/
theorem revertToSnapshot_last {t : StateDB} {revisions : List Revision} {n : Nat}
    {journal entries : List JournalEntry} (hids : ∀ r ∈ revisions, r.id < n)
    (hrev : t.validRevisions = revisions ++ [⟨n, journal.length⟩])
    (hjournal : t.journal = journal ++ entries) :
    t.revertToSnapshot n = (t.undoAll entries.reverse).map fun s' =>
      { s' with journal := journal, validRevisions := revisions } := by
  unfold revertToSnapshot
  rw [hrev, searchRevision_last revisions _ hids]
  dsimp only
  rw [List.getElem?_concat_length]
  dsimp only
  rw [if_neg (not_not.mpr rfl), hjournal, List.drop_left, List.take_left, List.take_left]

/-! ### A reverted change to an empty account -/

/-- `SetBalance` on an account that the trie holds and the cache does not: loaded, changed,
recorded and marked dirty. -/
theorem setBalance_of_trie {s : StateDB} {e : Address} {acct : Account}
    (hcached : s.stateObjects.lookup e = none) (htrie : s.trie.lookup e = some acct) (amount : Int) :
    (s.setBalance keccak e amount).stateObjects.lookup e =
        some { StateObject.new e acct false with data := { acct with balance := amount } } ∧
      e ∈ (s.setBalance keccak e amount).stateObjectsDirty ∧
      (s.setBalance keccak e amount).journal = s.journal ++ [.balanceChange e acct.balance] ∧
      (s.setBalance keccak e amount).validRevisions = s.validRevisions := by
  have hset : s.setBalance keccak e amount =
      (StateObject.new e acct true).SetBalance (s.setStateObject (StateObject.new e acct true)) amount := by
    rw [setBalance, getOrNewStateObject, getStateObject_of_trie hcached htrie]
    rfl
  rw [hset]
  refine ⟨?_, ?_, ?_, ?_⟩ <;>
    simp [StateObject.SetBalance, StateObject.setBalance, dirtied, record, setStateObject,
      ObjectMap.lookup_insert, StateObject.new]

/-- **A reverted balance change deletes an empty account.** An empty account that the trie
holds and the cache does not is loaded by `SetBalance`, changed and marked dirty; the revert
restores its balance, and every read of it, but not its clean state. `IntermediateRoot(true)`
then deletes it from the trie, where without the change it stays. -/
theorem revertToSnapshot_deletes_empty_account (s : StateDB) {e : Address} {acct : Account}
    (hids : ∀ r ∈ s.validRevisions, r.id < s.nextRevisionId)
    (hcached : s.stateObjects.lookup e = none) (htrie : s.trie.lookup e = some acct)
    (hempty : acct.nonce = 0 ∧ acct.balance = 0 ∧ acct.codeHash = emptyCodeHash keccak)
    (amount : Int) :
    ∃ s', (s.snapshot.2.setBalance keccak e amount).revertToSnapshot s.snapshot.1 = some s' ∧
      s'.getBalance e = s.snapshot.2.getBalance e ∧ s'.getNonce e = s.snapshot.2.getNonce e ∧
      s'.exist e = s.snapshot.2.exist e ∧ s'.empty keccak e = s.snapshot.2.empty keccak e ∧
      (s.snapshot.2.intermediateRoot keccak true).2.lookup e = some acct ∧
      (s'.intermediateRoot keccak true).2.lookup e = none := by
  set s₁ := s.snapshot.2
  set o₂ : StateObject := { StateObject.new e acct false with data := { acct with balance := amount } }
  obtain ⟨h₂obj, h₂dirty, h₂journal, h₂rev⟩ := setBalance_of_trie (s := s₁) hcached htrie amount
  set s₂ := s₁.setBalance keccak e amount
  -- the revert finds the object `SetBalance` left and sets its balance back
  have hundo : s₂.undoAll [JournalEntry.balanceChange e acct.balance].reverse =
      some (o₂.setBalance s₂ acct.balance) := by
    rw [List.reverse_singleton, undoAll, JournalEntry.undo, withObject,
      getStateObject_of_cached h₂obj rfl]
    rfl
  set s' := { o₂.setBalance s₂ acct.balance with
    journal := s.journal, validRevisions := s.validRevisions }
  have h'obj : s'.stateObjects.lookup e = some (StateObject.new e acct false) := by
    cases acct
    simp [s', o₂, StateObject.setBalance, dirtied, ObjectMap.lookup_insert, StateObject.new]
  have h'dirty : e ∈ s'.stateObjectsDirty := by
    simpa [s', o₂, StateObject.setBalance, dirtied, StateObject.new] using h₂dirty
  have h₁obj : s₁.stateObjects.lookup e = none := hcached
  have h₁trie : s₁.trie.lookup e = some acct := htrie
  refine ⟨s', ?_, ?_, ?_, ?_, ?_, ?_, ?_⟩
  · show s₂.revertToSnapshot s.nextRevisionId = some s'
    rw [revertToSnapshot_last hids h₂rev h₂journal, hundo]
    rfl
  · rw [getBalance, getBalance, getStateObject_of_cached h'obj rfl, getStateObject_of_trie h₁obj h₁trie]
    rfl
  · rw [getNonce, getNonce, getStateObject_of_cached h'obj rfl, getStateObject_of_trie h₁obj h₁trie]
    rfl
  · rw [exist, exist, getStateObject_of_cached h'obj rfl, getStateObject_of_trie h₁obj h₁trie]
    rfl
  · rw [StateDB.empty, StateDB.empty, getStateObject_of_cached h'obj rfl,
      getStateObject_of_trie h₁obj h₁trie]
    rfl
  · -- without the change the account is not dirty, or dirty with no object: the trie keeps it
    rw [intermediateRoot, trie_finalise, h₁obj, h₁trie]
    split_ifs <;> rfl
  · -- after the revert it is dirty and empty: `Finalise` deletes it
    have hemptyObj : (StateObject.new e acct false).empty keccak = true := by
      simp [StateObject.empty, StateObject.new, hempty]
    rw [intermediateRoot, trie_finalise, if_pos h'dirty, h'obj, finalisedAt, hemptyObj]
    rfl

end StateDB

end Keccak

/-- An empty account at address `5`, alone in the trie, with nothing cached or journaled. -/
def emptyAccountState : StateDB :=
  ⟨Finmap.singleton 5 ⟨0, 0, ∅, 0⟩, ∅, ∅, ∅, 0, 0, 0, 0, ∅, 0, ∅, [], [], 0⟩

/-- With a hash that is `0` for every input, `SetBalance(5, 7)` then a revert. -/
theorem revertToSnapshot_deletes_empty_account_five :
    ∃ s', ((emptyAccountState.snapshot.2.setBalance (fun _ => 0) 5 7).revertToSnapshot
          emptyAccountState.snapshot.1 = some s' ∧
        s'.getBalance 5 = emptyAccountState.snapshot.2.getBalance 5 ∧
        s'.getNonce 5 = emptyAccountState.snapshot.2.getNonce 5 ∧
        s'.exist 5 = emptyAccountState.snapshot.2.exist 5 ∧
        s'.empty (fun _ => 0) 5 = emptyAccountState.snapshot.2.empty (fun _ => 0) 5 ∧
        (emptyAccountState.snapshot.2.intermediateRoot (fun _ => 0) true).2.lookup 5 =
          some ⟨0, 0, ∅, 0⟩ ∧
        (s'.intermediateRoot (fun _ => 0) true).2.lookup 5 = none) :=
  @StateDB.revertToSnapshot_deletes_empty_account (fun _ => 0) emptyAccountState 5 ⟨0, 0, ∅, 0⟩
    (by decide) (by decide) (by decide) (by decide) 7

end EpvChain.State
