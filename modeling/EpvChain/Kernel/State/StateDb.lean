import EpvChain.Kernel.Types.Block
import EpvChain.Lib.Finmap

/-!
# The state database and its journal (`kernel/state`)

`StateDB` caches the accounts it reads as state objects, journals every change, and writes the
dirty objects back to the trie in `Finalise`. `Snapshot` marks a journal position;
`RevertToSnapshot` undoes the entries after it, last first. An object's first change puts its
address in `stateObjectsDirty` (`onDirty`, a flag here). Undoing a balance, nonce, code, storage
or suicide change leaves the address dirty; only undoing a creation or a touch removes it.

* The account trie is its contents, a map from addresses to accounts, and a storage trie its
  contents too (`Account.root`); `IntermediateRoot` returns them. A slot holds its value.
* `crypto.Keccak256` is a parameter (`keccak`). Go maps are `Finmap`s; `Finalise` visits the
  dirty addresses in ascending order, each changing only its own trie entry.
* `dbErr`, the lock and `thash` are left out; `Copy` and `DeleteSuicides` are in
  `Kernel/State/Copy.lean`. A nil dereference in the source is `none`.
-/

namespace EpvChain.State

open Lib EpvChain.Types

/-- `state.Account`: the account as the account trie stores it. `root` is the content of the
account's storage trie, of which the source keeps the hash.
Source: `kernel/state/state_object.go` `type Account struct` -/
structure Account where
  nonce : UInt64
  balance : Int
  root : Finmap fun _ : Hash => Hash
  codeHash : Hash
  deriving DecidableEq

/-- `stateObject`: a cached account with its loaded code, its cached and not yet written storage,
and its flags. `onDirty` is whether the callback that marks the object dirty is still set.
Source: `kernel/state/state_object.go` `type stateObject struct` -/
structure StateObject where
  address : Address
  data : Account
  code : Option (List UInt8)
  cachedStorage : Finmap fun _ : Hash => Hash
  dirtyStorage : Finmap fun _ : Hash => Hash
  dirtyCode : Bool
  suicided : Bool
  touched : Bool
  deleted : Bool
  onDirty : Bool
  deriving DecidableEq

/-- The cached objects, each under its own address: an object is cached only under
`obj.address` (`setStateObject`), so an address never finds another account's object. -/
structure ObjectMap where
  map : Finmap fun _ : Address => StateObject
  keyed : ∀ a obj, map.lookup a = some obj → obj.address = a

namespace ObjectMap

/-- The object cached under an address. -/
def lookup (m : ObjectMap) (a : Address) : Option StateObject := m.map.lookup a

/-- Cache an object under its address. -/
def insert (m : ObjectMap) (obj : StateObject) : ObjectMap where
  map := m.map.insert obj.address obj
  keyed a o h := by
    rw [finmap_lookup_insert] at h
    split_ifs at h with ha
    · cases h
      exact ha.symm
    · exact m.keyed a o h

/-- Drop the object cached under an address. -/
def erase (m : ObjectMap) (a : Address) : ObjectMap where
  map := m.map.erase a
  keyed b o h := by
    rw [finmap_lookup_erase] at h
    split_ifs at h
    exact m.keyed b o h

theorem lookup_insert (m : ObjectMap) (obj : StateObject) (a : Address) :
    (m.insert obj).lookup a = if a = obj.address then some obj else m.lookup a :=
  finmap_lookup_insert m.map obj.address a obj

instance : EmptyCollection ObjectMap where
  emptyCollection := ⟨∅, fun a obj h => by rw [Finmap.lookup_empty] at h; cases h⟩

end ObjectMap

/-- `types.Log` as `AddLog` stamps it: the log with its transaction, block and positions. -/
structure LogRecord where
  log : Log
  txHash : Hash
  blockHash : Hash
  txIndex : Nat
  index : Nat
  deriving DecidableEq

/-- `journalEntry`: one change, with what its undo needs.
Source: `kernel/state/journal.go` -/
inductive JournalEntry where
  | createObjectChange (account : Address)
  | resetObjectChange (prev : StateObject)
  | suicideChange (account : Address) (prev : Bool) (prevbalance : Int)
  | balanceChange (account : Address) (prev : Int)
  | nonceChange (account : Address) (prev : UInt64)
  | storageChange (account : Address) (key prevalue : Hash)
  | codeChange (account : Address) (prevcode : Option (List UInt8)) (prevhash : Hash)
  | refundChange (prev : UInt64)
  | addLogChange (txhash : Hash)
  | addPreimageChange (hash : Hash)
  | touchChange (account : Address) (prev prevDirty : Bool)
  deriving DecidableEq

/-- `revision`: a snapshot's id and the journal length it was taken at.
Source: `kernel/state/statedb.go` `type revision struct` -/
structure Revision where
  id : Nat
  journalIndex : Nat
  deriving DecidableEq

/-- `StateDB`: the account trie and the code store below, the cached objects, the dirty
addresses, the refund counter, the logs and preimages, and the journal with its revisions.
Source: `kernel/state/statedb.go` `type StateDB struct` -/
structure StateDB where
  trie : Finmap fun _ : Address => Account
  codes : Finmap fun _ : Hash => List UInt8
  stateObjects : ObjectMap
  stateObjectsDirty : Finset Address
  refund : UInt64
  thash : Hash
  bhash : Hash
  txIndex : Nat
  logs : Finmap fun _ : Hash => List LogRecord
  logSize : Nat
  preimages : Finmap fun _ : Hash => List UInt8
  journal : List JournalEntry
  validRevisions : List Revision
  nextRevisionId : Nat

/-- The address of the RIPEMD precompile, whose touch is never undone.
Source: `kernel/state/journal.go` `ripemd` -/
def ripemd : Address := 3

section Keccak

variable (keccak : List UInt8 → Hash)

/-- `emptyCodeHash`: the hash of no code.
Source: `kernel/state/state_object.go` `emptyCodeHash` -/
def emptyCodeHash : Hash := keccak []

/-- `Account{}` as `newObject` completes it: no nonce, no balance, no storage, no code. -/
def Account.new : Account := ⟨0, 0, ∅, emptyCodeHash keccak⟩

namespace StateObject

/-- `newObject`: a clean object for the account.
Source: `kernel/state/state_object.go` `newObject` -/
def new (address : Address) (data : Account) (onDirty : Bool) : StateObject :=
  ⟨address, data, none, ∅, ∅, false, false, false, false, onDirty⟩

/-- `stateObject.empty`: no nonce, no balance and no code.
Source: `kernel/state/state_object.go` `stateObject.empty` -/
def empty (obj : StateObject) : Bool :=
  obj.data.nonce == 0 && obj.data.balance == 0 && obj.data.codeHash == emptyCodeHash keccak

/-- `stateObject.GetState`: a cached slot, or the slot read from the storage trie and cached
when it is not zero.
Source: `kernel/state/state_object.go` `stateObject.GetState` -/
def getState (obj : StateObject) (key : Hash) : Hash × StateObject :=
  match obj.cachedStorage.lookup key with
  | some value => (value, obj)
  | none =>
    let value := (obj.data.root.lookup key).getD 0
    (value, if value ≠ 0 then { obj with cachedStorage := obj.cachedStorage.insert key value } else obj)

/-- `stateObject.Code`: the loaded code, or the code read from the database and kept; nothing
for the empty code hash.
Source: `kernel/state/state_object.go` `stateObject.Code` -/
def Code (obj : StateObject) (codes : Finmap fun _ : Hash => List UInt8) :
    Option (List UInt8) × StateObject :=
  match obj.code with
  | some code => (some code, obj)
  | none =>
    if obj.data.codeHash = emptyCodeHash keccak then (none, obj)
    else
      let code := codes.lookup obj.data.codeHash
      (code, { obj with code := code })

/-- `stateObject.updateTrie` and `updateRoot`: the written slots go into the storage trie, a zero
deleting its slot, and none is left to write.
Source: `kernel/state/state_object.go` `stateObject.updateTrie`, `stateObject.updateRoot` -/
def updateRoot (obj : StateObject) : StateObject :=
  let root := (sortedList obj.dirtyStorage.keys).foldl
    (fun root key =>
      match obj.dirtyStorage.lookup key with
      | some value => if value = 0 then root.erase key else root.insert key value
      | none => root)
    obj.data.root
  { obj with data := { obj.data with root := root }, dirtyStorage := ∅ }

@[simp] theorem address_updateRoot (obj : StateObject) : obj.updateRoot.address = obj.address := rfl

end StateObject

namespace StateDB

/-- `StateDB.setStateObject`: cache the object under its address.
Source: `kernel/state/statedb.go` `StateDB.setStateObject` -/
def setStateObject (s : StateDB) (obj : StateObject) : StateDB :=
  { s with stateObjects := s.stateObjects.insert obj }

/-- The object after a change that fires `onDirty`: on its first change it is marked dirty
(`MarkStateObjectDirty`) and loses the callback. -/
def dirtied (s : StateDB) (obj : StateObject) : StateDB :=
  { s with
    stateObjectsDirty :=
      if obj.onDirty then insert obj.address s.stateObjectsDirty else s.stateObjectsDirty
    stateObjects := s.stateObjects.insert { obj with onDirty := false } }

/-- Append an entry to the journal. -/
def record (s : StateDB) (entry : JournalEntry) : StateDB :=
  { s with journal := s.journal ++ [entry] }

/-- `StateDB.getStateObject`: the cached object unless deleted, or the account read from the
trie, cached as a new object.
Source: `kernel/state/statedb.go` `StateDB.getStateObject` -/
def getStateObject (s : StateDB) (addr : Address) : Option StateObject × StateDB :=
  match s.stateObjects.lookup addr with
  | some obj => (if obj.deleted then none else some obj, s)
  | none =>
    match s.trie.lookup addr with
    | none => (none, s)
    | some data =>
      let obj := StateObject.new addr data true
      (some obj, s.setStateObject obj)

theorem getStateObject_of_cached {s : StateDB} {addr : Address} {obj : StateObject}
    (h : s.stateObjects.lookup addr = some obj) (hdel : obj.deleted = false) :
    s.getStateObject addr = (some obj, s) := by
  rw [getStateObject, h]
  dsimp only
  rw [hdel, if_neg Bool.false_ne_true]

theorem getStateObject_of_trie {s : StateDB} {addr : Address} {data : Account}
    (hcached : s.stateObjects.lookup addr = none) (htrie : s.trie.lookup addr = some data) :
    s.getStateObject addr =
      (some (StateObject.new addr data true), s.setStateObject (StateObject.new addr data true)) := by
  rw [getStateObject, hcached, htrie]

end StateDB

namespace StateObject

/-! The setters change the object and fire `onDirty`; the journaled ones record the old value
first. -/

/-- `stateObject.setBalance`.
Source: `kernel/state/state_object.go` `stateObject.setBalance` -/
def setBalance (obj : StateObject) (s : StateDB) (amount : Int) : StateDB :=
  s.dirtied { obj with data := { obj.data with balance := amount } }

/-- `stateObject.setNonce`.
Source: `kernel/state/state_object.go` `stateObject.setNonce` -/
def setNonce (obj : StateObject) (s : StateDB) (nonce : UInt64) : StateDB :=
  s.dirtied { obj with data := { obj.data with nonce := nonce } }

/-- `stateObject.setCode`.
Source: `kernel/state/state_object.go` `stateObject.setCode` -/
def setCode (obj : StateObject) (s : StateDB) (codeHash : Hash) (code : Option (List UInt8)) :
    StateDB :=
  s.dirtied { obj with code := code, data := { obj.data with codeHash := codeHash }, dirtyCode := true }

/-- `stateObject.setState`.
Source: `kernel/state/state_object.go` `stateObject.setState` -/
def setState (obj : StateObject) (s : StateDB) (key value : Hash) : StateDB :=
  s.dirtied { obj with
    cachedStorage := obj.cachedStorage.insert key value
    dirtyStorage := obj.dirtyStorage.insert key value }

/-- `stateObject.SetBalance`.
Source: `kernel/state/state_object.go` `stateObject.SetBalance` -/
def SetBalance (obj : StateObject) (s : StateDB) (amount : Int) : StateDB :=
  obj.setBalance (s.record (.balanceChange obj.address obj.data.balance)) amount

/-- `stateObject.SetNonce`.
Source: `kernel/state/state_object.go` `stateObject.SetNonce` -/
def SetNonce (obj : StateObject) (s : StateDB) (nonce : UInt64) : StateDB :=
  obj.setNonce (s.record (.nonceChange obj.address obj.data.nonce)) nonce

/-- `stateObject.SetCode`: the old code is loaded to be recorded.
Source: `kernel/state/state_object.go` `stateObject.SetCode` -/
def SetCode (obj : StateObject) (s : StateDB) (codeHash : Hash) (code : List UInt8) : StateDB :=
  let (prevcode, obj) := obj.Code keccak s.codes
  obj.setCode (s.record (.codeChange obj.address prevcode obj.data.codeHash)) codeHash (some code)

/-- `stateObject.SetState`: the old value is read (and cached) to be recorded.
Source: `kernel/state/state_object.go` `stateObject.SetState` -/
def SetState (obj : StateObject) (s : StateDB) (key value : Hash) : StateDB :=
  let (prevalue, obj) := obj.getState key
  obj.setState (s.record (.storageChange obj.address key prevalue)) key value

/-- `stateObject.touch`: recorded with whether the object was touched and already dirty.
Source: `kernel/state/state_object.go` `stateObject.touch` -/
def touch (obj : StateObject) (s : StateDB) : StateDB :=
  s.record (.touchChange obj.address obj.touched !obj.onDirty) |>.dirtied { obj with touched := true }

/-- `stateObject.AddBalance`: adding zero only touches an empty object.
Source: `kernel/state/state_object.go` `stateObject.AddBalance` -/
def AddBalance (obj : StateObject) (s : StateDB) (amount : Int) : StateDB :=
  if amount = 0 then (if obj.empty keccak then obj.touch s else s)
  else obj.SetBalance s (obj.data.balance + amount)

/-- `stateObject.SubBalance`.
Source: `kernel/state/state_object.go` `stateObject.SubBalance` -/
def SubBalance (obj : StateObject) (s : StateDB) (amount : Int) : StateDB :=
  if amount = 0 then s else obj.SetBalance s (obj.data.balance - amount)

end StateObject

namespace StateDB

/-- `StateDB.createObject`: a new object replaces the cached one, if any. `setNonce(0)` fires its
`onDirty`, so it is dirty from the start; the journal records the creation or the old object.
Source: `kernel/state/statedb.go` `StateDB.createObject` -/
def createObject (s : StateDB) (addr : Address) : StateObject × Option StateObject × StateDB :=
  let (prev, s) := s.getStateObject addr
  let newobj := StateObject.new addr (Account.new keccak) true
  let s := newobj.setNonce s 0
  let newobj : StateObject := { newobj with data := { newobj.data with nonce := 0 }, onDirty := false }
  let s := s.record (match prev with
    | none => .createObjectChange addr
    | some prev => .resetObjectChange prev)
  (newobj, prev, s.setStateObject newobj)

/-- `StateDB.GetOrNewStateObject`.
Source: `kernel/state/statedb.go` `StateDB.GetOrNewStateObject` -/
def getOrNewStateObject (s : StateDB) (addr : Address) : StateObject × StateDB :=
  match s.getStateObject addr with
  | (some obj, s) =>
    if obj.deleted then
      let (obj, _, s) := s.createObject keccak addr
      (obj, s)
    else (obj, s)
  | (none, s) =>
    let (obj, _, s) := s.createObject keccak addr
    (obj, s)

/-- `StateDB.CreateAccount`: a new object that keeps the old balance.
Source: `kernel/state/statedb.go` `StateDB.CreateAccount` -/
def createAccount (s : StateDB) (addr : Address) : StateDB :=
  match s.createObject keccak addr with
  | (new, some prev, s) => new.setBalance s prev.data.balance
  | (_, none, s) => s

/-- `StateDB.AddBalance`.
Source: `kernel/state/statedb.go` `StateDB.AddBalance` -/
def addBalance (s : StateDB) (addr : Address) (amount : Int) : StateDB :=
  let (obj, s) := s.getOrNewStateObject keccak addr
  obj.AddBalance keccak s amount

/-- `StateDB.SubBalance`.
Source: `kernel/state/statedb.go` `StateDB.SubBalance` -/
def subBalance (s : StateDB) (addr : Address) (amount : Int) : StateDB :=
  let (obj, s) := s.getOrNewStateObject keccak addr
  obj.SubBalance s amount

/-- `StateDB.SetBalance`.
Source: `kernel/state/statedb.go` `StateDB.SetBalance` -/
def setBalance (s : StateDB) (addr : Address) (amount : Int) : StateDB :=
  let (obj, s) := s.getOrNewStateObject keccak addr
  obj.SetBalance s amount

/-- `StateDB.SetNonce`.
Source: `kernel/state/statedb.go` `StateDB.SetNonce` -/
def setNonce (s : StateDB) (addr : Address) (nonce : UInt64) : StateDB :=
  let (obj, s) := s.getOrNewStateObject keccak addr
  obj.SetNonce s nonce

/-- `StateDB.SetCode`.
Source: `kernel/state/statedb.go` `StateDB.SetCode` -/
def setCode (s : StateDB) (addr : Address) (code : List UInt8) : StateDB :=
  let (obj, s) := s.getOrNewStateObject keccak addr
  obj.SetCode keccak s (keccak code) code

/-- `StateDB.SetState`.
Source: `kernel/state/statedb.go` `StateDB.SetState` -/
def setState (s : StateDB) (addr : Address) (key value : Hash) : StateDB :=
  let (obj, s) := s.getOrNewStateObject keccak addr
  obj.SetState s key value

/-- `StateDB.Suicide`: marked (which fires `onDirty`) and emptied of its balance; `false` for an
account that does not exist.
Source: `kernel/state/statedb.go` `StateDB.Suicide` -/
def suicide (s : StateDB) (addr : Address) : Bool × StateDB :=
  match s.getStateObject addr with
  | (none, s) => (false, s)
  | (some obj, s) =>
    let s := s.record (.suicideChange addr obj.suicided obj.data.balance)
    (true, s.dirtied { obj with suicided := true, data := { obj.data with balance := 0 } })

/-- `StateDB.AddLog`: stamped with the current transaction, block and log index.
Source: `kernel/state/statedb.go` `StateDB.AddLog` -/
def addLog (s : StateDB) (log : Log) : StateDB :=
  let s := s.record (.addLogChange s.thash)
  let entry : LogRecord := ⟨log, s.thash, s.bhash, s.txIndex, s.logSize⟩
  { s with
    logs := s.logs.insert s.thash ((s.logs.lookup s.thash).getD [] ++ [entry])
    logSize := s.logSize + 1 }

/-- `StateDB.AddPreimage`: a preimage already known is not recorded again.
Source: `kernel/state/statedb.go` `StateDB.AddPreimage` -/
def addPreimage (s : StateDB) (hash : Hash) (preimage : List UInt8) : StateDB :=
  if hash ∈ s.preimages then s
  else { s.record (.addPreimageChange hash) with preimages := s.preimages.insert hash preimage }

/-- `StateDB.AddRefund`.
Source: `kernel/state/statedb.go` `StateDB.AddRefund` -/
def addRefund (s : StateDB) (gas : UInt64) : StateDB :=
  { s.record (.refundChange s.refund) with refund := s.refund + gas }

/-! ### Reads -/

/-- `StateDB.Exist`.
Source: `kernel/state/statedb.go` `StateDB.Exist` -/
def exist (s : StateDB) (addr : Address) : Bool := (s.getStateObject addr).1.isSome

/-- `StateDB.Empty`.
Source: `kernel/state/statedb.go` `StateDB.Empty` -/
def empty (s : StateDB) (addr : Address) : Bool :=
  match (s.getStateObject addr).1 with
  | none => true
  | some obj => obj.empty keccak

/-- `StateDB.GetBalance`.
Source: `kernel/state/statedb.go` `StateDB.GetBalance` -/
def getBalance (s : StateDB) (addr : Address) : Int :=
  ((s.getStateObject addr).1.map (·.data.balance)).getD 0

/-- `StateDB.GetNonce`.
Source: `kernel/state/statedb.go` `StateDB.GetNonce` -/
def getNonce (s : StateDB) (addr : Address) : UInt64 :=
  ((s.getStateObject addr).1.map (·.data.nonce)).getD 0

/-- `StateDB.GetCode`.
Source: `kernel/state/statedb.go` `StateDB.GetCode` -/
def getCode (s : StateDB) (addr : Address) : Option (List UInt8) :=
  (s.getStateObject addr).1.bind fun obj => (obj.Code keccak s.codes).1

/-- `StateDB.GetCodeHash`.
Source: `kernel/state/statedb.go` `StateDB.GetCodeHash` -/
def getCodeHash (s : StateDB) (addr : Address) : Hash :=
  ((s.getStateObject addr).1.map (·.data.codeHash)).getD 0

/-- `StateDB.GetState`.
Source: `kernel/state/statedb.go` `StateDB.GetState` -/
def getState (s : StateDB) (addr : Address) (key : Hash) : Hash :=
  ((s.getStateObject addr).1.map fun obj => (obj.getState key).1).getD 0

/-- `StateDB.HasSuicided`.
Source: `kernel/state/statedb.go` `StateDB.HasSuicided` -/
def hasSuicided (s : StateDB) (addr : Address) : Bool :=
  ((s.getStateObject addr).1.map (·.suicided)).getD false

/-- `StateDB.GetRefund`.
Source: `kernel/state/statedb.go` `StateDB.GetRefund` -/
def getRefund (s : StateDB) : UInt64 := s.refund

/-- `StateDB.GetLogs`.
Source: `kernel/state/statedb.go` `StateDB.GetLogs` -/
def getLogs (s : StateDB) (hash : Hash) : List LogRecord := (s.logs.lookup hash).getD []

/-- `StateDB.Preimages`.
Source: `kernel/state/statedb.go` `StateDB.Preimages` -/
def Preimages (s : StateDB) : Finmap fun _ : Hash => List UInt8 := s.preimages

/-! ### The journal -/

/-- An undo that calls a method on `getStateObject(account)`: a missing object is a nil
dereference. -/
def withObject (s : StateDB) (account : Address) (f : StateObject → StateDB → StateDB) :
    Option StateDB :=
  match s.getStateObject account with
  | (none, _) => none
  | (some obj, s) => some (f obj s)

end StateDB

/-- `journalEntry.undo`. The field undos go through the setters, which leave the address dirty;
only a creation's and a touch's undo remove it.
Source: `kernel/state/journal.go` -/
def JournalEntry.undo (s : StateDB) : JournalEntry → Option StateDB
  | .createObjectChange account =>
    some { s with
      stateObjects := s.stateObjects.erase account
      stateObjectsDirty := s.stateObjectsDirty.erase account }
  | .resetObjectChange prev => some (s.setStateObject prev)
  | .suicideChange account prev prevbalance =>
    match s.getStateObject account with
    | (none, s) => some s
    | (some obj, s) => some ({ obj with suicided := prev }.setBalance s prevbalance)
  | .balanceChange account prev => s.withObject account fun obj s => obj.setBalance s prev
  | .nonceChange account prev => s.withObject account fun obj s => obj.setNonce s prev
  | .codeChange account prevcode prevhash =>
    s.withObject account fun obj s => obj.setCode s prevhash prevcode
  | .storageChange account key prevalue =>
    s.withObject account fun obj s => obj.setState s key prevalue
  | .refundChange prev => some { s with refund := prev }
  | .addLogChange txhash =>
    let logs := (s.logs.lookup txhash).getD []
    if logs.length = 1 then some { s with logs := s.logs.erase txhash, logSize := s.logSize - 1 }
    -- `logs[:len(logs)-1]` on no logs is out of range
    else if logs = [] then none
    else some { s with logs := s.logs.insert txhash logs.dropLast, logSize := s.logSize - 1 }
  | .addPreimageChange hash => some { s with preimages := s.preimages.erase hash }
  | .touchChange account prev prevDirty =>
    if !prev && account ≠ ripemd then
      s.withObject account fun obj s =>
        let s := s.setStateObject { obj with touched := prev }
        if !prevDirty then { s with stateObjectsDirty := s.stateObjectsDirty.erase account } else s
    else some s

namespace StateDB

/-- Undo the entries in the order given. -/
def undoAll (s : StateDB) : List JournalEntry → Option StateDB
  | [] => some s
  | entry :: entries => (entry.undo s).bind fun s => s.undoAll entries

/-- `StateDB.Snapshot`: a new revision at the journal's length.
Source: `kernel/state/statedb.go` `StateDB.Snapshot` -/
def snapshot (s : StateDB) : Nat × StateDB :=
  (s.nextRevisionId,
    { s with
      nextRevisionId := s.nextRevisionId + 1
      validRevisions := s.validRevisions ++ [⟨s.nextRevisionId, s.journal.length⟩] })

/-- `sort.Search` over the revisions for the first id not below `revid`.
Source: `kernel/state/statedb.go` `StateDB.RevertToSnapshot` -/
def searchRevision (revisions : List Revision) (revid : Nat) : Nat :=
  revisions.findIdx fun r => revid ≤ r.id

/-- `StateDB.RevertToSnapshot`: undo the entries after the revision, last first, and drop them
and the revisions from it on; an id that is not a valid revision panics.
Source: `kernel/state/statedb.go` `StateDB.RevertToSnapshot` -/
def revertToSnapshot (s : StateDB) (revid : Nat) : Option StateDB :=
  let idx := searchRevision s.validRevisions revid
  match s.validRevisions[idx]? with
  | none => none
  | some r =>
    if r.id ≠ revid then none
    else
      (s.undoAll (s.journal.drop r.journalIndex).reverse).map fun s' =>
        { s' with
          journal := s.journal.take r.journalIndex
          validRevisions := s.validRevisions.take idx }

/-- `StateDB.deleteStateObject`: marked deleted, and its trie entry removed.
Source: `kernel/state/statedb.go` `StateDB.deleteStateObject` -/
def deleteStateObject (s : StateDB) (obj : StateObject) : StateDB :=
  { s.setStateObject { obj with deleted := true } with trie := s.trie.erase obj.address }

/-- `StateDB.updateStateObject`: the account written to the trie.
Source: `kernel/state/statedb.go` `StateDB.updateStateObject` -/
def updateStateObject (s : StateDB) (obj : StateObject) : StateDB :=
  { s with trie := s.trie.insert obj.address obj.data }

/-- One dirty address in `Finalise`: a suicided object, or an empty one when empty objects are
deleted, leaves the trie; any other is written with its storage. A dirty address is always
cached; a missing object is passed over. -/
def finaliseObject (deleteEmptyObjects : Bool) (s : StateDB) (addr : Address) : StateDB :=
  match s.stateObjects.lookup addr with
  | none => s
  | some obj =>
    if obj.suicided || (deleteEmptyObjects && obj.empty keccak) then s.deleteStateObject obj
    else
      let obj := obj.updateRoot
      (s.setStateObject obj).updateStateObject obj

/-- `StateDB.clearJournalAndRefund`.
Source: `kernel/state/statedb.go` `StateDB.clearJournalAndRefund` -/
def clearJournalAndRefund (s : StateDB) : StateDB :=
  { s with journal := [], validRevisions := [], refund := 0 }

/-- `StateDB.Finalise`: every dirty object written to or removed from the trie. The dirty set
is kept.
Source: `kernel/state/statedb.go` `StateDB.Finalise` -/
def finalise (s : StateDB) (deleteEmptyObjects : Bool) : StateDB :=
  ((sortedList s.stateObjectsDirty).foldl (finaliseObject keccak deleteEmptyObjects) s).clearJournalAndRefund

/-- `StateDB.IntermediateRoot`: the trie after `Finalise`, whose hash is the root.
Source: `kernel/state/statedb.go` `StateDB.IntermediateRoot` -/
def intermediateRoot (s : StateDB) (deleteEmptyObjects : Bool) :
    StateDB × Finmap fun _ : Address => Account :=
  let s := s.finalise keccak deleteEmptyObjects
  (s, s.trie)

end StateDB

end Keccak

end EpvChain.State
