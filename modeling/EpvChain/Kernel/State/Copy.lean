import EpvChain.Kernel.State.Revert
import EpvChain.Lib.ExceptLoop

/-!
# `Copy` and `DeleteSuicides` (`kernel/state/statedb.go`)

`StateDB.Copy` copies the account trie, refund, logs and preimages, and deep-copies only the
objects at dirty addresses; the copy loads other accounts from the trie. So a copy reads as its
original only where each cached non-dirty object is still the trie's account. `DeleteSuicides`
breaks that: it marks suicided objects deleted, empties the dirty set, and writes nothing.

* `copy_spec`, `deleteSuicides_spec`: what the two loops leave when every dirty address is cached.
* `getStateObject_copy_of_dirty`, `copy_reads_of_dirty`: at a dirty address the copy reads the
  deep copy, and every accessor agrees; `getStateObject_copy_of_not_dirty`: elsewhere it reads
  the trie.
* `intermediateRoot_copy`: the copy's `IntermediateRoot`, refund and logs are the original's.
* `copy_resurrects_suicided`: after `Suicide` and `DeleteSuicides` an account is gone, and its
  copy has it again, with the balance the trie still holds.
-/

namespace EpvChain.State

open Lib

namespace StateObject

/-- `stateObject.deepCopy`: a new object, with the new state's `onDirty`, that keeps the data,
the code, the written storage, which is also its cached storage, and the flags `suicided`,
`dirtyCode` and `deleted`; `touched` is not copied.
Source: `kernel/state/state_object.go` `stateObject.deepCopy` -/
def deepCopy (obj : StateObject) : StateObject :=
  { StateObject.new obj.address obj.data true with
    code := obj.code
    dirtyStorage := obj.dirtyStorage
    cachedStorage := obj.dirtyStorage
    suicided := obj.suicided
    dirtyCode := obj.dirtyCode
    deleted := obj.deleted }

end StateObject

namespace StateDB

/-- The new state of `Copy` before its loops: the trie (`CopyTrie`), the code store below it, the
refund, the logs, their count and the preimages; nothing cached or dirty, no journal, and no
transaction or block hash. -/
def copyBase (s : StateDB) : StateDB :=
  ⟨s.trie, s.codes, ∅, ∅, s.refund, 0, 0, 0, s.logs, s.logSize, s.preimages, [], [], 0⟩

/-- One dirty address in `Copy`: the object there, deep-copied into the new state and marked
dirty in it. -/
def copyObject (s c : StateDB) (addr : Address) : Option StateDB :=
  (s.stateObjects.lookup addr).map fun obj =>
    { c.setStateObject obj.deepCopy with stateObjectsDirty := insert addr c.stateObjectsDirty }

/-- `StateDB.Copy`. The dirty addresses are visited in ascending order; each visit changes only
its own address.
Source: `kernel/state/statedb.go` `StateDB.Copy` -/
def copy (s : StateDB) : Option StateDB :=
  (sortedList s.stateObjectsDirty).foldlM (copyObject s) (copyBase s)

/-- One dirty address in `DeleteSuicides`: a suicided object is marked deleted, and the address
leaves the dirty set. -/
def deleteSuicide (s : StateDB) (addr : Address) : Option StateDB :=
  (s.stateObjects.lookup addr).map fun obj =>
    { (if obj.suicided then s.setStateObject { obj with deleted := true } else s) with
      stateObjectsDirty := s.stateObjectsDirty.erase addr }

/-- `StateDB.DeleteSuicides`: the journal and refund cleared, then every dirty address visited.
Source: `kernel/state/statedb.go` `StateDB.DeleteSuicides` -/
def deleteSuicides (s : StateDB) : Option StateDB :=
  (sortedList s.stateObjectsDirty).foldlM deleteSuicide s.clearJournalAndRefund

/-- Every dirty address has a cached object, which `Copy`, `DeleteSuicides` and `Finalise`
dereference. -/
def DirtyCached (s : StateDB) : Prop :=
  ∀ a ∈ s.stateObjectsDirty, ∃ obj, s.stateObjects.lookup a = some obj

/-! ### The two loops -/

/-- What `Copy` makes: the deep copies of the dirty objects, dirty, and the original's trie,
code store, refund and logs. -/
structure CopyOf (s c : StateDB) : Prop where
  lookup : ∀ a, c.stateObjects.lookup a =
    if a ∈ s.stateObjectsDirty then (s.stateObjects.lookup a).map StateObject.deepCopy else none
  dirty : c.stateObjectsDirty = s.stateObjectsDirty
  trie : c.trie = s.trie
  codes : c.codes = s.codes
  refund : c.refund = s.refund
  logs : c.logs = s.logs

theorem address_of_lookup {s : StateDB} {a : Address} {obj : StateObject}
    (h : s.stateObjects.lookup a = some obj) : obj.address = a :=
  s.stateObjects.keyed a obj h

theorem copyObject_of_lookup {s c : StateDB} {x : Address} {obj : StateObject}
    (h : s.stateObjects.lookup x = some obj) :
    copyObject s c x = some { c with
      stateObjects := c.stateObjects.insert obj.deepCopy
      stateObjectsDirty := insert x c.stateObjectsDirty } := by
  rw [copyObject, h]
  rfl

theorem copy_spec {s : StateDB} (hs : DirtyCached s) : ∃ c, s.copy = some c ∧ CopyOf s c := by
  -- the addresses done are copied, and dirty in the copy; nothing else is cached
  obtain ⟨c, hc, hlookup, hdirty, htrie, hcodes, hrefund, hlogs⟩ :=
    foldlM_eq_some (copyObject s) (sortedList s.stateObjectsDirty)
      (fun done c => (∀ a, c.stateObjects.lookup a =
          if a ∈ done then (s.stateObjects.lookup a).map StateObject.deepCopy else none) ∧
        c.stateObjectsDirty = done.toFinset ∧ c.trie = s.trie ∧ c.codes = s.codes ∧
        c.refund = s.refund ∧ c.logs = s.logs)
      (fun done x rest c hl ⟨hlookup, hdirty, hrest⟩ => by
        have hx : x ∈ s.stateObjectsDirty := by simp [← mem_sortedList, ← hl]
        obtain ⟨obj, hobj⟩ := hs x hx
        refine ⟨_, copyObject_of_lookup hobj, fun a => ?_, ?_, hrest⟩
        · show (c.stateObjects.insert obj.deepCopy).lookup a = _
          rw [ObjectMap.lookup_insert]
          show (if a = obj.address then _ else _) = _
          rw [address_of_lookup hobj]
          by_cases hax : a = x
          · subst hax
            simp [hobj]
          · simp [hax, hlookup a]
        · ext b
          simp [hdirty])
      _ [] (copyBase s) rfl
      ⟨fun a => by simp only [List.not_mem_nil, if_false]; exact Finmap.lookup_empty a,
        rfl, rfl, rfl, rfl, rfl⟩
  refine ⟨c, hc, fun a => by simp [hlookup a], ?_, htrie, hcodes, hrefund, hlogs⟩
  rw [hdirty]
  ext a
  simp

/-- What `DeleteSuicides` leaves: each dirty suicided object marked deleted, nothing dirty, the
trie as it was, and the refund cleared. -/
structure DeleteSuicidesOf (s t : StateDB) : Prop where
  lookup : ∀ a, t.stateObjects.lookup a =
    if a ∈ s.stateObjectsDirty then
      (s.stateObjects.lookup a).map fun obj =>
        if obj.suicided then { obj with deleted := true } else obj
    else s.stateObjects.lookup a
  dirty : t.stateObjectsDirty = ∅
  trie : t.trie = s.trie
  refund : t.refund = 0

theorem deleteSuicide_of_lookup {t : StateDB} {x : Address} {obj : StateObject}
    (h : t.stateObjects.lookup x = some obj) :
    deleteSuicide t x = some { t with
      stateObjects := if obj.suicided then t.stateObjects.insert { obj with deleted := true }
        else t.stateObjects
      stateObjectsDirty := t.stateObjectsDirty.erase x } := by
  simp only [deleteSuicide, h, Option.map_some]
  split_ifs <;> rfl

theorem deleteSuicides_spec {s : StateDB} (hs : DirtyCached s) :
    ∃ t, s.deleteSuicides = some t ∧ DeleteSuicidesOf s t := by
  have hnodup := sortedList_nodup s.stateObjectsDirty
  -- the addresses done are marked and no longer dirty; the others are as they were
  obtain ⟨t, ht, hlookup, hdirty, htrie, hrefund⟩ :=
    foldlM_eq_some deleteSuicide (sortedList s.stateObjectsDirty)
      (fun done t => (∀ a, t.stateObjects.lookup a =
          if a ∈ done then (s.stateObjects.lookup a).map
            (fun obj => if obj.suicided then { obj with deleted := true } else obj)
          else s.stateObjects.lookup a) ∧
        t.stateObjectsDirty = s.stateObjectsDirty \ done.toFinset ∧ t.trie = s.trie ∧
          t.refund = 0)
      (fun done x rest t hl ⟨hlookup, hdirty, htrie, hrefund⟩ => by
        have hx : x ∈ s.stateObjectsDirty := by simp [← mem_sortedList, ← hl]
        have hxdone : x ∉ done := by
          rw [← hl] at hnodup
          exact fun h => List.disjoint_of_nodup_append hnodup h List.mem_cons_self
        obtain ⟨obj, hobj⟩ := hs x hx
        have htx : t.stateObjects.lookup x = some obj := by rw [hlookup x, if_neg hxdone, hobj]
        have hxaddr : obj.address = x := address_of_lookup hobj
        refine ⟨_, deleteSuicide_of_lookup htx, fun a => ?_, ?_, htrie, hrefund⟩
        · by_cases hax : a = x
          · -- the address of this turn: marked if suicided
            subst hax
            rw [if_pos (show a ∈ done ++ [a] by simp), hobj, Option.map_some]
            by_cases hsu : obj.suicided = true
            · simp [hsu, ObjectMap.lookup_insert, hxaddr]
            · simp [hsu, htx]
          · -- any other address: as the turns before left it
            have hne : a ≠ obj.address := by rw [hxaddr]; exact hax
            have hmem : a ∈ done ++ [x] ↔ a ∈ done := by simp [hax]
            simp only [hmem, ← hlookup a]
            by_cases hsu : obj.suicided = true
            · simp [hsu, ObjectMap.lookup_insert, hne]
            · simp [hsu]
        · ext b
          simp only [hdirty, Finset.mem_erase, Finset.mem_sdiff, List.mem_toFinset, List.mem_append,
            List.mem_singleton]
          tauto)
      _ [] s.clearJournalAndRefund rfl ⟨fun a => by simp [clearJournalAndRefund], by
        simp [clearJournalAndRefund], rfl, rfl⟩
  refine ⟨t, ht, fun a => by simp [hlookup a], ?_, htrie, hrefund⟩
  rw [hdirty]
  ext a
  simp

/-! ### What the copy reads -/

/-- The deep copy has the object's code, loaded or not. -/
theorem Code_deepCopy (keccak : List UInt8 → Hash) (codes : Finmap fun _ : Hash => List UInt8)
    (obj : StateObject) : (obj.deepCopy.Code keccak codes).1 = (obj.Code keccak codes).1 := by
  unfold StateObject.Code
  cases hcode : obj.code with
  | some code => simp [StateObject.deepCopy, hcode]
  | none =>
    simp only [StateObject.deepCopy, StateObject.new, hcode]
    split_ifs <;> rfl

/-- `Finalise` writes the deep copy of an object as it writes the object. -/
theorem finalisedAt_deepCopy (keccak : List UInt8 → Hash) (d : Bool) (o : Option StateObject)
    (cur : Option Account) :
    finalisedAt keccak d (o.map StateObject.deepCopy) cur = finalisedAt keccak d o cur := by
  cases o with
  | none => rfl
  | some obj => rfl

section Reads

variable {s c : StateDB} (hc : CopyOf s c)
include hc

/-- At a dirty address the copy finds the deep copy of the original's object. -/
theorem getStateObject_copy_of_dirty {a : Address} (ha : a ∈ s.stateObjectsDirty) :
    (c.getStateObject a).1 = (s.getStateObject a).1.map StateObject.deepCopy := by
  unfold getStateObject
  rw [hc.lookup a, if_pos ha]
  cases s.stateObjects.lookup a with
  | none =>
    -- a dirty address with nothing cached: both load the trie's account as a new object
    rw [hc.trie]
    cases s.trie.lookup a <;> rfl
  | some obj => by_cases hd : obj.deleted = true <;> simp [hd, StateObject.deepCopy]

/-- Anywhere else the copy has nothing cached, and loads the account from the trie. -/
theorem getStateObject_copy_of_not_dirty {a : Address} (ha : a ∉ s.stateObjectsDirty) :
    (c.getStateObject a).1 = (s.trie.lookup a).map fun data => StateObject.new a data true := by
  unfold getStateObject
  rw [hc.lookup a, if_neg ha, hc.trie]
  cases s.trie.lookup a <;> rfl

/-- At a dirty address every read through the object's data, code and flags agrees. -/
theorem copy_reads_of_dirty (keccak : List UInt8 → Hash) {a : Address}
    (ha : a ∈ s.stateObjectsDirty) :
    c.exist a = s.exist a ∧ c.empty keccak a = s.empty keccak a ∧
      c.getBalance a = s.getBalance a ∧ c.getNonce a = s.getNonce a ∧
      c.getCode keccak a = s.getCode keccak a ∧ c.hasSuicided a = s.hasSuicided a := by
  have hobj := getStateObject_copy_of_dirty hc ha
  unfold exist StateDB.empty getBalance getNonce getCode hasSuicided
  rw [hobj, hc.codes]
  cases (s.getStateObject a).1 with
  | none => simp
  | some obj =>
    -- the deep copy has the object's data and flags; its code is read as the object's
    exact ⟨rfl, rfl, rfl, rfl, Code_deepCopy keccak s.codes obj, rfl⟩

/-- The copy's `IntermediateRoot` is the original's, and so are its refund and logs. -/
theorem intermediateRoot_copy (keccak : List UInt8 → Hash) (d : Bool) :
    (c.intermediateRoot keccak d).2 = (s.intermediateRoot keccak d).2 ∧
      c.getRefund = s.getRefund ∧ ∀ h, c.getLogs h = s.getLogs h := by
  refine ⟨Finmap.ext_lookup fun a => ?_, hc.refund, fun h => by rw [getLogs, getLogs, hc.logs]⟩
  rw [intermediateRoot, intermediateRoot]
  dsimp only
  rw [trie_finalise, trie_finalise, hc.dirty, hc.trie, hc.lookup a]
  split_ifs
  · exact finalisedAt_deepCopy keccak d _ _
  · rfl

end Reads

/-! ### A suicided account comes back -/

/-- **A copy brings back a suicided account.** An account that the trie holds and the cache does
not, suicided and passed through `DeleteSuicides`, is gone from the state: it does not exist and
has no balance. The trie still holds it and the address is no longer dirty, so `Copy` leaves the
deleted object behind and the copy loads the account from the trie, with its balance. -/
theorem copy_resurrects_suicided (s : StateDB) {a : Address} {acct : Account}
    (hs : DirtyCached s) (hcached : s.stateObjects.lookup a = none)
    (htrie : s.trie.lookup a = some acct) :
    ∃ t c, (s.suicide a).1 = true ∧ (s.suicide a).2.deleteSuicides = some t ∧
      t.copy = some c ∧ t.exist a = false ∧ c.exist a = true ∧ t.getBalance a = 0 ∧
      c.getBalance a = acct.balance := by
  set o : StateObject := StateObject.new a acct true
  set o₁ : StateObject :=
    { o with suicided := true, data := { acct with balance := 0 }, onDirty := false }
  set s₁ := (s.suicide a).2
  have hsuicide : s.suicide a = (true, ((s.setStateObject o).record
      (.suicideChange a false acct.balance)).dirtied
        { o with suicided := true, data := { acct with balance := 0 } }) := by
    rw [suicide, getStateObject_of_trie hcached htrie]
    rfl
  -- `Suicide` caches the marked object at `a` and makes `a` dirty; the trie is untouched
  have h₁lookup : ∀ b, s₁.stateObjects.lookup b =
      if b = a then some o₁ else s.stateObjects.lookup b := by
    intro b
    simp only [s₁, hsuicide, dirtied, record, setStateObject, ObjectMap.lookup_insert]
    by_cases hba : b = a
    · simp [hba, o, o₁, StateObject.new]
    · simp [hba, o, StateObject.new]
  have h₁dirty : s₁.stateObjectsDirty = insert a s.stateObjectsDirty := by
    simp [s₁, hsuicide, dirtied, record, setStateObject, o, StateObject.new]
  have h₁trie : s₁.trie = s.trie := by simp [s₁, hsuicide, dirtied, record, setStateObject]
  have hs₁ : DirtyCached s₁ := by
    intro b hb
    rw [h₁dirty, Finset.mem_insert] at hb
    rw [h₁lookup b]
    by_cases hba : b = a
    · exact ⟨o₁, if_pos hba⟩
    · rw [if_neg hba]
      exact hs b (hb.resolve_left hba)
  obtain ⟨t, ht, htdel⟩ := deleteSuicides_spec hs₁
  -- after `DeleteSuicides` the object at `a` is deleted and nothing is dirty
  have htobj : t.stateObjects.lookup a = some { o₁ with deleted := true } := by
    rw [htdel.lookup a, if_pos (by rw [h₁dirty]; exact Finset.mem_insert_self a _), h₁lookup a,
      if_pos rfl]
    rfl
  have hts : DirtyCached t := by
    intro b hb
    rw [htdel.dirty] at hb
    exact absurd hb (Finset.notMem_empty b)
  obtain ⟨c, hcopy, hc⟩ := copy_spec hts
  have hnot : a ∉ t.stateObjectsDirty := by rw [htdel.dirty]; exact Finset.notMem_empty a
  have hcobj := getStateObject_copy_of_not_dirty hc hnot
  rw [htdel.trie, h₁trie, htrie] at hcobj
  have htget : (t.getStateObject a).1 = none := by
    rw [getStateObject, htobj]
    rfl
  refine ⟨t, c, by rw [hsuicide], ht, hcopy, ?_, ?_, ?_, ?_⟩
  · rw [exist, htget]
    rfl
  · rw [exist, hcobj]
    rfl
  · rw [getBalance, htget]
    rfl
  · rw [getBalance, hcobj]
    rfl

end StateDB

/-- One account at address `5`, with balance `7`, alone in the trie; nothing cached. -/
def fundedAccountState : StateDB :=
  ⟨Finmap.singleton 5 ⟨0, 7, ∅, 0⟩, ∅, ∅, ∅, 0, 0, 0, 0, ∅, 0, ∅, [], [], 0⟩

/-- The account at `5` suicided, passed through `DeleteSuicides` and copied. -/
theorem copy_resurrects_suicided_five :
    ∃ t c, (fundedAccountState.suicide 5).1 = true ∧
      (fundedAccountState.suicide 5).2.deleteSuicides = some t ∧ t.copy = some c ∧
      t.exist 5 = false ∧ c.exist 5 = true ∧ t.getBalance 5 = 0 ∧ c.getBalance 5 = 7 :=
  @StateDB.copy_resurrects_suicided fundedAccountState 5 ⟨0, 7, ∅, 0⟩
    (fun b hb => absurd hb (Finset.notMem_empty b)) (by decide) (by decide)

end EpvChain.State
