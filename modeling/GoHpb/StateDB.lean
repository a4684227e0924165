/-
**The world state: accounts, journal and revisions.**

A model of `blockchain/state`: the state objects with their write caches (`state_object.go`), the
database of accounts over them (`statedb.go`) and the journal entries with their undo methods
(`journal.go`).

A trie is given by what it contains, and a trie root by the trie; so `Account.root` is the storage
of the account.  A state object is a value: the source shares it through pointers, and a method
that changes it here returns the database with the changed object stored.  The callback `onDirty`
is a flag that says whether it is still set.  Run-time panics (a nil pointer, an unknown revision)
are `none`.

Main results:

* `StateDB.Local.addBalance`, …, `StateDB.Local.undo` — **every operation and every undo method is
  confined to the account it names**.
-/

import GoHpb.BlockHeader
import GoHpb.ExchangeSort
import GoHpb.FinmapTotal
import GoHpb.UndoJournal

open UndoJournal FixedBytes

/-! ### Accounts and state objects -/

/-- The storage of a contract. -/
abbrev Storage : Type := Finmap fun _ : Hash => Hash

/-- An account as the account trie stores it. -/
structure Account where
  nonce : UInt64
  balance : ℤ
  root : Storage
  codeHash : Hash
  deriving DecidableEq

/-- A live account with its write caches. -/
structure StateObject where
  data : Account
  /-- the storage trie, opened on first access -/
  trie : Option Storage := none
  /-- the code, once it is loaded or set -/
  code : Option Bytes := none
  cachedStorage : Storage := ∅
  dirtyStorage : Storage := ∅
  dirtyCode : Bool := false
  suicided : Bool := false
  touched : Bool := false
  deleted : Bool := false
  /-- whether the callback that marks the object dirty is still set -/
  onDirty : Bool := true
  deriving DecidableEq

def newObject (data : Account) : StateObject := { data := data }

section Objects

variable [Crypto]

/-- The digest of the empty code. -/
def emptyCodeHash : Hash := Crypto.keccak256 []

/-- The account a missing account is created as. -/
def emptyAccount : Account :=
  { nonce := 0, balance := 0, root := ∅, codeHash := emptyCodeHash }

namespace StateObject

def empty (obj : StateObject) : Bool :=
  obj.data.nonce = 0 && obj.data.balance = 0 && obj.data.codeHash = emptyCodeHash

/-- `Code`: the code of the object, read from the database of codes when it is first needed. -/
def readCode (codes : Finmap fun _ : Hash => Bytes) (obj : StateObject) : StateObject :=
  match obj.code with
  | some _ => obj
  | none =>
    if obj.data.codeHash = emptyCodeHash then obj
    else { obj with code := codes.lookup obj.data.codeHash }

theorem readCode_eq {obj : StateObject} (codes : Finmap fun _ : Hash => Bytes) :
    obj.readCode codes = { obj with code := (obj.readCode codes).code } := by
  unfold readCode
  split
  · rfl
  · split_ifs <;> rfl

end StateObject

end Objects

namespace StateObject

def setBalance (amount : ℤ) (obj : StateObject) : StateObject :=
  { obj with data := { obj.data with balance := amount } }

def setNonce (nonce : UInt64) (obj : StateObject) : StateObject :=
  { obj with data := { obj.data with nonce := nonce } }

def setCode (codeHash : Hash) (code : Option Bytes) (obj : StateObject) : StateObject :=
  { obj with code := code, data := { obj.data with codeHash := codeHash }, dirtyCode := true }

def setState (key value : Hash) (obj : StateObject) : StateObject :=
  { obj with
    cachedStorage := obj.cachedStorage.insert key value
    dirtyStorage := obj.dirtyStorage.insert key value }

/-- `getTrie`: the storage trie is opened at the root of the account. -/
def getTrie (obj : StateObject) : StateObject :=
  { obj with trie := some (obj.trie.getD obj.data.root) }

/-- The value of a storage key, where a missing key has the zero value. -/
def storageValue (obj : StateObject) (key : Hash) : Hash :=
  match obj.cachedStorage.lookup key with
  | some value => value
  | none => ((obj.trie.getD obj.data.root).lookup key).getD (zero 32)

/-- `GetState`, as a change of the object: what was read from the trie is cached. -/
def cacheState (key : Hash) (obj : StateObject) : StateObject :=
  match obj.cachedStorage.lookup key with
  | some _ => obj
  | none =>
    if obj.storageValue key = zero 32 then obj.getTrie
    else
      { obj.getTrie with
        cachedStorage := obj.cachedStorage.insert key (obj.storageValue key) }

theorem cacheState_eq {obj : StateObject} (key : Hash) : obj.cacheState key = { obj with
      trie := (obj.cacheState key).trie
      cachedStorage := (obj.cacheState key).cachedStorage } := by
  unfold cacheState
  split
  · rfl
  · split_ifs <;> rfl

/-- Writing one storage entry to a trie: a zero value is a deletion. -/
def writeStorage (dirty : Storage) (trie : Storage) (key : Hash) : Storage :=
  match dirty.lookup key with
  | none => trie
  | some value => if value = zero 32 then trie.erase key else trie.insert key value

/-- `updateTrie`: the changed storage entries are written to the storage trie. -/
def updateTrie (obj : StateObject) : StateObject :=
  { obj with
    trie := some ((sortedKeys obj.dirtyStorage.keys).foldl (writeStorage obj.dirtyStorage)
      (obj.trie.getD obj.data.root))
    dirtyStorage := ∅ }

/-- `updateRoot`: the account's root becomes that of the storage trie. -/
def updateRoot (obj : StateObject) : StateObject :=
  { obj.updateTrie with
    data := { obj.data with root := obj.updateTrie.trie.getD obj.data.root } }

/-- `deepCopy`: the storage that was only read is read again by the copy. -/
def deepCopy (obj : StateObject) : StateObject :=
  { newObject obj.data with
    trie := obj.trie
    code := obj.code
    dirtyStorage := obj.dirtyStorage
    cachedStorage := obj.dirtyStorage
    suicided := obj.suicided
    dirtyCode := obj.dirtyCode
    deleted := obj.deleted }

end StateObject

/-! ### The database -/

/-- A log entry of a contract. -/
structure Log where
  address : Address
  topics : List Hash
  data : Bytes
  blockNumber : UInt64
  txHash : Hash
  blockHash : Hash
  txIndex : ℕ
  index : ℕ
  deriving DecidableEq

/-- The journal entries. -/
inductive JournalEntry where
  | createObjectChange (account : Address)
  | resetObjectChange (account : Address) (prev : StateObject)
  | suicideChange (account : Address) (prev : Bool) (prevbalance : ℤ)
  | balanceChange (account : Address) (prev : ℤ)
  | nonceChange (account : Address) (prev : UInt64)
  | storageChange (account : Address) (key prevalue : Hash)
  | codeChange (account : Address) (prevcode : Option Bytes) (prevhash : Hash)
  | refundChange (prev : ℤ)
  | addLogChange (txhash : Hash)
  | addPreimageChange (hash : Hash)
  | touchChange (account : Address) (prev prevDirty : Bool)
  deriving DecidableEq

/-- The world state while transactions are processed. -/
structure StateDB where
  /-- the account trie -/
  trie : Finmap fun _ : Address => Account
  /-- the contract codes of the underlying database -/
  codes : Finmap fun _ : Hash => Bytes
  stateObjects : Finmap fun _ : Address => StateObject := ∅
  stateObjectsDirty : Finset Address := ∅
  refund : ℤ := 0
  thash : Hash := zero 32
  bhash : Hash := zero 32
  txIndex : ℕ := 0
  logs : Finmap fun _ : Hash => List Log := ∅
  logSize : ℕ := 0
  preimages : Finmap fun _ : Hash => Bytes := ∅
  journal : List JournalEntry := []
  validRevisions : List Revision := []
  nextRevisionId : ℕ := 0

namespace StateDB

/-- `New`: the state at an account trie. -/
def new (trie : Finmap fun _ : Address => Account) (codes : Finmap fun _ : Hash => Bytes) :
    StateDB := { trie := trie, codes := codes }

variable (st : StateDB) (addr : Address)

def setStateObject (obj : StateObject) : StateDB :=
  { st with stateObjects := st.stateObjects.insert addr obj }

/-- Live objects are preferred; others are loaded from the trie and kept. -/
def getStateObject : Option StateObject × StateDB :=
  match st.stateObjects.lookup addr with
  | some obj => (if obj.deleted then none else some obj, st)
  | none =>
    match st.trie.lookup addr with
    | none => (none, st)
    | some data => (some (newObject data), st.setStateObject addr (newObject data))

/-- The object found at an address. -/
def live : Option StateObject := (st.getStateObject addr).1

/-- The state after a look-up. -/
def load : StateDB := (st.getStateObject addr).2

/-- Storing a changed object.  The first change of an object calls `onDirty`, which is then
cleared. -/
def update (obj : StateObject) : StateDB :=
  { st with
    stateObjects := st.stateObjects.insert addr { obj with onDirty := false }
    stateObjectsDirty :=
      if obj.onDirty then insert addr st.stateObjectsDirty else st.stateObjectsDirty }

/-- Appending to the journal. -/
def record (entry : JournalEntry) : StateDB :=
  { st with journal := st.journal ++ [entry] }

/-! ### Observers -/

/-- `Exist`, also true of suicided accounts; the observers also return the state after the
look-up. -/
def exist : Bool × StateDB :=
  ((st.live addr).isSome, st.load addr)

def getBalance : ℤ × StateDB :=
  (((st.live addr).map fun obj => obj.data.balance).getD 0, st.load addr)

def getNonce : UInt64 × StateDB :=
  (((st.live addr).map fun obj => obj.data.nonce).getD 0, st.load addr)

def getCodeHash : Hash × StateDB :=
  (((st.live addr).map fun obj => obj.data.codeHash).getD (zero 32), st.load addr)

/-- `GetCodeSize`: the database of codes is asked also for the empty code, which it does not
hold. -/
def getCodeSize : ℕ × StateDB :=
  (match st.live addr with
    | none => 0
    | some obj => ((obj.code <|> st.codes.lookup obj.data.codeHash).getD []).length,
    st.load addr)

def hasSuicided : Bool × StateDB :=
  (((st.live addr).map fun obj => obj.suicided).getD false, st.load addr)

def getState (key : Hash) : Hash × StateDB :=
  match st.live addr with
  | none => (zero 32, st.load addr)
  | some obj => (obj.storageValue key, (st.load addr).setStateObject addr (obj.cacheState key))

def getLogs (hash : Hash) : List Log := (st.logs.lookup hash).getD []

section Operations

variable [Crypto] (st : StateDB) (addr : Address)

def empty : Bool × StateDB :=
  (((st.live addr).map fun obj => obj.empty).getD true, st.load addr)

def getCode : Bytes × StateDB :=
  match st.live addr with
  | none => ([], st.load addr)
  | some obj =>
    ((obj.readCode st.codes).code.getD [],
      (st.load addr).setStateObject addr (obj.readCode st.codes))

/-! ### Changes -/

/-- `createObject`, without its result: a new object takes the place of the one found at the
address.  Setting its nonce has marked it dirty. -/
def createObject : StateDB :=
  ((st.load addr).record
    (match st.live addr with
      | none => .createObjectChange addr
      | some prev => .resetObjectChange addr prev)).update addr
    (newObject emptyAccount)

/-- `CreateAccount`: the balance of an account that existed is carried over. -/
def createAccount : StateDB :=
  match st.live addr with
  | none => st.createObject addr
  | some prev =>
    (st.createObject addr).update addr
      { (newObject emptyAccount).setBalance prev.data.balance with onDirty := false }

def getOrNewStateObject : StateObject × StateDB :=
  match st.live addr with
  | some obj => (obj, st.load addr)
  | none => ({ newObject emptyAccount with onDirty := false }, st.createObject addr)

/-- A journalled change of an account. -/
def change (entry : StateObject → JournalEntry)
    (f : StateObject → StateObject) : StateDB :=
  let found := st.getOrNewStateObject addr
  (found.2.record (entry found.1)).update addr (f found.1)

def setBalance (amount : ℤ) : StateDB :=
  st.change addr (fun obj => .balanceChange addr obj.data.balance)
    (StateObject.setBalance amount)

/-- `AddBalance`: adding nothing to an empty account touches it. -/
def addBalance (amount : ℤ) : StateDB :=
  let found := st.getOrNewStateObject addr
  if amount = 0 then
    if found.1.empty then
      (found.2.record (.touchChange addr found.1.touched (!found.1.onDirty))).update
        addr { found.1 with touched := true }
    else found.2
  else found.2.setBalance addr (found.1.data.balance + amount)

def subBalance (amount : ℤ) : StateDB :=
  let found := st.getOrNewStateObject addr
  if amount = 0 then found.2 else found.2.setBalance addr (found.1.data.balance - amount)

def setNonce (nonce : UInt64) : StateDB :=
  st.change addr (fun obj => .nonceChange addr obj.data.nonce)
    (StateObject.setNonce nonce)

def setCode (code : Bytes) : StateDB :=
  st.change addr
    (fun obj => .codeChange addr (obj.readCode st.codes).code obj.data.codeHash)
    fun obj => (obj.readCode st.codes).setCode (Crypto.keccak256 code) (some code)

def setState (key value : Hash) : StateDB :=
  st.change addr (fun obj => .storageChange addr key (obj.storageValue key))
    fun obj => (obj.cacheState key).setState key value

end Operations

/-- `Suicide`: the account keeps its object until the end of the transaction. -/
def suicide : StateDB :=
  match st.live addr with
  | none => st.load addr
  | some obj =>
    ((st.load addr).record
      (.suicideChange addr obj.suicided obj.data.balance)).update addr
      { obj.setBalance 0 with suicided := true }

def addRefund (gas : ℤ) : StateDB :=
  { st.record (.refundChange st.refund) with refund := st.refund + gas }

/-- `AddLog`: the log is completed with the transaction it belongs to. -/
def addLog (log : Log) : StateDB :=
  { st.record (.addLogChange st.thash) with
    logs := st.logs.insert st.thash ((st.logs.lookup st.thash).getD [] ++
      [{ log with
          txHash := st.thash
          blockHash := st.bhash
          txIndex := st.txIndex
          index := st.logSize }])
    logSize := st.logSize + 1 }

def addPreimage (hash : Hash) (preimage : Bytes) : StateDB :=
  if hash ∈ st.preimages then st
  else
    { st.record (.addPreimageChange hash) with
      preimages := st.preimages.insert hash preimage }

def prepare (thash bhash : Hash) (txIndex : ℕ) : StateDB :=
  { st with thash := thash, bhash := bhash, txIndex := txIndex }

end StateDB

/-! ### Undoing -/

/-- The account whose touched mark is never taken back. -/
def ripemd : Address := setBytes 20 [3]

/-- Taking an account out of the set of dirty ones. -/
def StateDB.unmark (st : StateDB) (addr : Address) : StateDB :=
  { st with stateObjectsDirty := st.stateObjectsDirty.erase addr }

/-- Changing an object that must be there. -/
def StateDB.restore (st : StateDB) (addr : Address) (f : StateObject → StateObject) :
    Option StateDB :=
  (st.live addr).map fun obj => (st.load addr).update addr (f obj)

/-- The undo methods. -/
def JournalEntry.undo : JournalEntry → StateDB → Option StateDB
  | createObjectChange account, st =>
    some ({ st with stateObjects := st.stateObjects.erase account }.unmark account)
  | resetObjectChange account prev, st => some (st.setStateObject account prev)
  | suicideChange account prev prevbalance, st =>
    match st.live account with
    | none => some (st.load account)
    | some obj =>
      some ((st.load account).update account
        { obj.setBalance prevbalance with suicided := prev })
  | balanceChange account prev, st => st.restore account (StateObject.setBalance prev)
  | nonceChange account prev, st => st.restore account (StateObject.setNonce prev)
  | storageChange account key prevalue, st =>
    st.restore account (StateObject.setState key prevalue)
  | codeChange account prevcode prevhash, st =>
    st.restore account (StateObject.setCode prevhash prevcode)
  | refundChange prev, st => some { st with refund := prev }
  | addLogChange txhash, st =>
    match (st.logs.lookup txhash).getD [] with
    | [] => none
    | [_] => some { st with logs := st.logs.erase txhash, logSize := st.logSize - 1 }
    | logs =>
      some { st with logs := st.logs.insert txhash logs.dropLast, logSize := st.logSize - 1 }
  | addPreimageChange hash, st => some { st with preimages := st.preimages.erase hash }
  | touchChange account prev prevDirty, st =>
    if prev = false ∧ account ≠ ripemd then
      (st.live account).map fun obj =>
        if prevDirty then
          (st.load account).setStateObject account { obj with touched := prev }
        else
          ((st.load account).setStateObject account { obj with touched := prev }).unmark account
    else some st

namespace StateDB

/-- `Snapshot`: the identifier of the new revision, and the state that remembers it. -/
def snapshot (st : StateDB) : ℕ × StateDB :=
  (st.nextRevisionId,
    { st with
      nextRevisionId := st.nextRevisionId + 1
      validRevisions := st.validRevisions ++ [⟨st.nextRevisionId, st.journal.length⟩] })

def revertToSnapshot (st : StateDB) (revid : ℕ) : Option StateDB :=
  match findRevision st.validRevisions revid with
  | none => none
  | some (idx, snapshot) =>
    (undoAll JournalEntry.undo (st.journal.drop snapshot) st).map fun st =>
      { st with
        journal := st.journal.take snapshot
        validRevisions := st.validRevisions.take idx }

/-! ### The end of a transaction and of a block -/

section Finalise

variable [Crypto]

def updateStateObject (st : StateDB) (addr : Address) (obj : StateObject) : StateDB :=
  { st.setStateObject addr obj with trie := st.trie.insert addr obj.data }

def deleteStateObject (st : StateDB) (addr : Address) (obj : StateObject) : StateDB :=
  { st.setStateObject addr { obj with deleted := true } with trie := st.trie.erase addr }

def clearJournalAndRefund (st : StateDB) : StateDB :=
  { st with journal := [], validRevisions := [], refund := 0 }

/-- What `Finalise` does with one dirty object. -/
def finaliseObject (deleteEmptyObjects : Bool) (st : StateDB) (addr : Address) : Option StateDB :=
  (st.stateObjects.lookup addr).map fun obj =>
    if obj.suicided || (deleteEmptyObjects && obj.empty) then st.deleteStateObject addr obj
    else st.updateStateObject addr obj.updateRoot

/-- `Finalise`: the dirty objects are written to the trie or deleted from it. -/
def finalise (st : StateDB) (deleteEmptyObjects : Bool) : Option StateDB :=
  ((sortedKeys st.stateObjectsDirty).foldlM (finaliseObject deleteEmptyObjects) st).map
    clearJournalAndRefund

/-- What `DeleteSuicides` does with one dirty object. -/
def flagSuicided (st : StateDB) (addr : Address) : Option StateDB :=
  (st.stateObjects.lookup addr).map fun obj =>
    (if obj.suicided then st.setStateObject addr { obj with deleted := true } else st).unmark addr

/-- `DeleteSuicides`: the suicided objects are flagged, but stay in the trie. -/
def deleteSuicides (st : StateDB) : Option StateDB :=
  (sortedKeys st.stateObjectsDirty).foldlM flagSuicided st.clearJournalAndRefund

/-- What `Copy` does with one dirty object. -/
def copyObject (st copied : StateDB) (addr : Address) : Option StateDB :=
  (st.stateObjects.lookup addr).map fun obj => copied.setStateObject addr obj.deepCopy

/-- `Copy`: the objects that are not dirty are loaded again by the copy. -/
def copy (st : StateDB) : Option StateDB :=
  (sortedKeys st.stateObjectsDirty).foldlM st.copyObject
    { new st.trie st.codes with
      stateObjectsDirty := st.stateObjectsDirty
      refund := st.refund
      logs := st.logs
      logSize := st.logSize
      preimages := st.preimages }

/-- `Reset`: the state at another account trie, in place of this one. -/
def reset (st : StateDB) (trie : Finmap fun _ : Address => Account) : StateDB :=
  { new trie st.codes with nextRevisionId := st.nextRevisionId }

/-- What `CommitTo` does with one live object. -/
def commitObject (deleteEmptyObjects : Bool) (st : StateDB) (addr : Address) : StateDB :=
  match st.stateObjects.lookup addr with
  | none => st
  | some obj =>
    let isDirty := decide (addr ∈ st.stateObjectsDirty)
    let st := { st with stateObjectsDirty := st.stateObjectsDirty.erase addr }
    if obj.suicided || (isDirty && deleteEmptyObjects && obj.empty) then
      st.deleteStateObject addr obj
    else if isDirty then
      let writesCode := obj.code.isSome && obj.dirtyCode
      { st.updateStateObject addr
          { obj.updateRoot with dirtyCode := obj.dirtyCode && !writesCode } with
        codes :=
          if writesCode then st.codes.insert obj.data.codeHash (obj.code.getD [])
          else st.codes }
    else st

/-- `CommitTo`: the live objects, and the codes that were set, are written to the database. -/
def commitTo (st : StateDB) (deleteEmptyObjects : Bool) : StateDB :=
  ((sortedKeys st.stateObjects.keys).foldl (commitObject deleteEmptyObjects) st)
    |>.clearJournalAndRefund

end Finalise

end StateDB

/-! ### Look-ups -/

/-- The account an entry is about. -/
def JournalEntry.account : JournalEntry → Option Address
  | createObjectChange account => some account
  | resetObjectChange account _ => some account
  | suicideChange account _ _ => some account
  | balanceChange account _ => some account
  | nonceChange account _ => some account
  | storageChange account _ _ => some account
  | codeChange account _ _ => some account
  | touchChange account _ _ => some account
  | refundChange _ => none
  | addLogChange _ => none
  | addPreimageChange _ => none

namespace StateDB

variable {st st' : StateDB} {a b : Address}

theorem live_eq (st : StateDB) (a : Address) : st.live a = match st.stateObjects.lookup a with
      | some obj => if obj.deleted then none else some obj
      | none => (st.trie.lookup a).map newObject := by
  unfold live getStateObject
  cases st.stateObjects.lookup a with
  | some obj => rfl
  | none => cases st.trie.lookup a <;> rfl

variable {obj : StateObject}

theorem live_of_lookup (h : st.stateObjects.lookup a = some obj)
    (hkept : obj.deleted = false) : st.live a = some obj := by
  rw [live_eq, h]
  simp [hkept]

theorem live_of_deleted (h : st.stateObjects.lookup a = some obj)
    (hdeleted : obj.deleted = true) : st.live a = none := by
  rw [live_eq, h]
  simp [hdeleted]

theorem live_of_lookup_none (h : st.stateObjects.lookup a = none) :
    st.live a = (st.trie.lookup a).map newObject := by
  rw [live_eq, h]

theorem live_new (trie : Finmap fun _ : Address => Account) (codes : Finmap fun _ : Hash => Bytes)
    (a : Address) : (StateDB.new trie codes).live a = (trie.lookup a).map newObject :=
  live_of_lookup_none (Finmap.lookup_empty a)

theorem of_live (h : st.live a = some obj) :
    (st.stateObjects.lookup a = some obj ∧ obj.deleted = false) ∨ st.stateObjects.lookup a = none ∧
        ∃ data, st.trie.lookup a = some data ∧ newObject data = obj := by
  cases hobj : st.stateObjects.lookup a with
  | some found =>
    rw [live_eq, hobj] at h
    simp only at h
    split_ifs at h with hdeleted
    cases h
    exact .inl ⟨rfl, Bool.eq_false_of_not_eq_true hdeleted⟩
  | none => exact .inr ⟨rfl, Option.map_eq_some_iff.1 (live_of_lookup_none hobj ▸ h)⟩

theorem of_live_none (h : st.live a = none) :
    (∃ obj, st.stateObjects.lookup a = some obj ∧ obj.deleted = true) ∨
      st.stateObjects.lookup a = none ∧ st.trie.lookup a = none := by
  cases hobj : st.stateObjects.lookup a with
  | some obj =>
    refine .inl ⟨obj, rfl, ?_⟩
    by_contra hkept
    rw [live_of_lookup hobj (Bool.eq_false_of_not_eq_true hkept)] at h
    cases h
  | none => exact .inr ⟨rfl, Option.map_eq_none_iff.1 (live_of_lookup_none hobj ▸ h)⟩

theorem load_eq_self (h : st.stateObjects.lookup a = some obj) : st.load a = st := by
  unfold load getStateObject
  rw [h]

theorem load_cases (st : StateDB) (a : Address) : st.load a = st ∨
    st.stateObjects.lookup a = none ∧ ∃ data, st.trie.lookup a = some data ∧
      st.load a = st.setStateObject a (newObject data) := by
  unfold load getStateObject
  cases st.stateObjects.lookup a with
  | some obj => exact .inl rfl
  | none =>
    cases st.trie.lookup a with
    | none => exact .inl rfl
    | some data => exact .inr ⟨rfl, data, rfl, rfl⟩

theorem load_eq (st : StateDB) (a : Address) :
    st.load a = { st with stateObjects := (st.load a).stateObjects } := by
  rcases load_cases st a with h | ⟨-, data, -, h⟩ <;> rw [h]
  rfl

@[simp] theorem trie_load : (st.load a).trie = st.trie := by rw [load_eq]

@[simp] theorem codes_load : (st.load a).codes = st.codes := by rw [load_eq]

@[simp] theorem stateObjectsDirty_load : (st.load a).stateObjectsDirty = st.stateObjectsDirty := by
  rw [load_eq]

@[simp] theorem journal_load : (st.load a).journal = st.journal := by rw [load_eq]

@[simp] theorem validRevisions_load : (st.load a).validRevisions = st.validRevisions := by
  rw [load_eq]

@[simp] theorem nextRevisionId_load : (st.load a).nextRevisionId = st.nextRevisionId := by
  rw [load_eq]

theorem lookup_load_self (h : st.live a = some obj) :
    (st.load a).stateObjects.lookup a = some obj ∧ obj.deleted = false := by
  rcases of_live h with hfound | ⟨hnone, data, hdata, rfl⟩
  · rwa [load_eq_self hfound.1]
  unfold load getStateObject
  rw [hnone, hdata]
  exact ⟨Finmap.lookup_insert _, rfl⟩

section

variable [Crypto] {obj : StateObject}

theorem getOrNewStateObject_eq (h : st.live a = some obj) :
    st.getOrNewStateObject a = (obj, st.load a) := by
  rw [getOrNewStateObject, h]

theorem change_eq {entry : StateObject → JournalEntry} {f : StateObject → StateObject}
    (h : st.live a = some obj) :
    st.change a entry f = ((st.load a).record (entry obj)).update a (f obj) := by
  rw [change, getOrNewStateObject_eq h]

end

/-! ### Changes confined to one account -/

/-- The change from `st` to `st'` is confined to the account `o`, or to no account at all: it leaves
the trie, the revisions and the objects of the other accounts as they are, and its journal entries
are about `o`, if they are about an account. -/
structure Local (o : Option Address) (st st' : StateDB) : Prop where
  trie : st'.trie = st.trie
  codes : st'.codes = st.codes
  objects : ∀ b, o ≠ some b → st'.stateObjects.lookup b = st.stateObjects.lookup b
  dirty : ∀ b, o ≠ some b → (b ∈ st'.stateObjectsDirty ↔ b ∈ st.stateObjectsDirty)
  revisions : st'.validRevisions = st.validRevisions
  nextId : st'.nextRevisionId = st.nextRevisionId
  journal : ∃ es, st'.journal = st.journal ++ es ∧
    ∀ e ∈ es, e.account = none ∨ e.account = o

namespace Local

variable {o : Option Address}

theorem refl (o : Option Address) (st : StateDB) : Local o st st :=
  ⟨rfl, rfl, fun _ _ => rfl, fun _ _ => Iff.rfl, rfl, rfl, [], by simp, by simp⟩

theorem trans {st'' : StateDB} (h : Local o st st') (h' : Local o st' st'') : Local o st st'' := by
  obtain ⟨es, hes, habout⟩ := h.journal
  obtain ⟨fs, hfs, habout'⟩ := h'.journal
  refine ⟨h'.trie.trans h.trie, h'.codes.trans h.codes,
    fun b hb => (h'.objects b hb).trans (h.objects b hb),
    fun b hb => (h'.dirty b hb).trans (h.dirty b hb), h'.revisions.trans h.revisions,
    h'.nextId.trans h.nextId, es ++ fs, by rw [hfs, hes, List.append_assoc], ?_⟩
  intro e he
  rcases List.mem_append.1 he with he | he
  · exact habout e he
  · exact habout' e he

theorem live (h : Local o st st') (hb : o ≠ some b) : st'.live b = st.live b := by
  rw [live_eq, live_eq, h.objects b hb, h.trie]

variable (st) (a)

theorem setStateObject (obj : StateObject) :
    Local (some a) st (st.setStateObject a obj) :=
  ⟨rfl, rfl, fun _ hb => Finmap.lookup_insert_of_ne _ fun heq => hb (by rw [heq]),
    fun _ _ => Iff.rfl, rfl, rfl, [], by simp [StateDB.setStateObject], by simp⟩

theorem load : Local (some a) st (st.load a) := by
  rcases load_cases st a with h | ⟨-, data, -, h⟩ <;> rw [h]
  · exact refl _ _
  · exact setStateObject st a _

theorem update (obj : StateObject) :
    Local (some a) st (st.update a obj) := by
  refine ⟨rfl, rfl, fun _ hb => Finmap.lookup_insert_of_ne _ fun heq => hb (by rw [heq]),
    fun b hb => ?_, rfl, rfl, [], by simp [StateDB.update], by simp⟩
  have hne : b ≠ a := fun heq => hb (by rw [heq])
  unfold StateDB.update
  split
  · simp [Finset.mem_insert, hne]
  · rfl

theorem unmark : Local (some a) st (st.unmark a) := by
  refine ⟨rfl, rfl, fun _ _ => rfl, fun b hb => ?_, rfl, rfl, [], by simp [StateDB.unmark], by simp⟩
  have hne : b ≠ a := fun heq => hb (by rw [heq])
  simp [StateDB.unmark, hne]

variable {st} {a}

theorem record {entry : JournalEntry} (h : entry.account = none ∨ entry.account = o) :
    Local o st (st.record entry) :=
  ⟨rfl, rfl, fun _ _ => rfl, fun _ _ => Iff.rfl, rfl, rfl, [entry], rfl, by simpa using h⟩

theorem cache (st : StateDB) (a : Address) (obj : StateObject) :
    Local (some a) st ((st.load a).setStateObject a obj) :=
  (load st a).trans (setStateObject _ a obj)

theorem write {entry : JournalEntry} (h : entry.account = some a) (obj : StateObject) :
    Local (some a) st (((st.load a).record entry).update a obj) :=
  (load st a).trans ((record (.inr h)).trans (update _ a obj))

section Operations

variable [Crypto]

variable (st) (a)

theorem createObject : Local (some a) st (st.createObject a) := by
  refine write ?_ _
  cases st.live a <;> rfl

theorem createAccount : Local (some a) st (st.createAccount a) := by
  unfold StateDB.createAccount
  cases st.live a with
  | none => exact createObject st a
  | some prev => exact (createObject st a).trans (update _ a _)

theorem getOrNewStateObject :
    Local (some a) st (st.getOrNewStateObject a).2 := by
  unfold StateDB.getOrNewStateObject
  cases st.live a with
  | none => exact createObject st a
  | some obj => exact load st a

variable {st} {a}

theorem change {entry : StateObject → JournalEntry} {f : StateObject → StateObject}
    (h : ∀ obj, (entry obj).account = some a) : Local (some a) st (st.change a entry f) :=
  (getOrNewStateObject st a).trans ((record (.inr (h _))).trans (update _ a _))

theorem setBalance (st : StateDB) (a : Address) (amount : ℤ) :
    Local (some a) st (st.setBalance a amount) :=
  change fun _ => rfl

theorem addBalance (st : StateDB) (a : Address) (amount : ℤ) :
    Local (some a) st (st.addBalance a amount) := by
  simp only [StateDB.addBalance]
  split_ifs
  · refine (getOrNewStateObject st a).trans ((record (.inr ?_)).trans (update _ a _))
    rfl
  · exact getOrNewStateObject st a
  · exact (getOrNewStateObject st a).trans (setBalance _ a _)

end Operations

theorem addRefund (st : StateDB) (gas : ℤ) : Local o st (st.addRefund gas) :=
  ⟨rfl, rfl, fun _ _ => rfl, fun _ _ => Iff.rfl, rfl, rfl, _, rfl, by simp [JournalEntry.account]⟩

theorem addLog (st : StateDB) (log : Log) : Local o st (st.addLog log) :=
  ⟨rfl, rfl, fun _ _ => rfl, fun _ _ => Iff.rfl, rfl, rfl, _, rfl, by simp [JournalEntry.account]⟩

theorem addPreimage (st : StateDB) (hash : Hash) (preimage : Bytes) :
    Local o st (st.addPreimage hash preimage) := by
  unfold StateDB.addPreimage
  split_ifs
  · exact refl o st
  · exact ⟨rfl, rfl, fun _ _ => rfl, fun _ _ => Iff.rfl, rfl, rfl, _, rfl,
      by simp [JournalEntry.account]⟩

end Local

end StateDB

/-! ### What the undo methods do -/

/-- Changing an object back. -/
inductive StateObject.Back (obj : StateObject) : JournalEntry → StateObject → Prop
  | suicide (a : Address) (prev : Bool) (prevbalance : ℤ) :
      Back obj (.suicideChange a prev prevbalance)
        { obj.setBalance prevbalance with suicided := prev }
  | balance (a : Address) (prev : ℤ) :
      Back obj (.balanceChange a prev) (obj.setBalance prev)
  | nonce (a : Address) (prev : UInt64) :
      Back obj (.nonceChange a prev) (obj.setNonce prev)
  | storage (a : Address) (key prevalue : Hash) :
      Back obj (.storageChange a key prevalue) (obj.setState key prevalue)
  | code (a : Address) (prevcode : Option Bytes) (prevhash : Hash) :
      Back obj (.codeChange a prevcode prevhash) (obj.setCode prevhash prevcode)

theorem StateObject.Back.deleted {obj obj' : StateObject} {e : JournalEntry} (h : obj.Back e obj') :
    obj'.deleted = obj.deleted := by
  cases h <;> rfl

namespace StateDB

/-- The ways in which an entry is undone. -/
inductive Undone (st : StateDB) : JournalEntry → StateDB → Prop
  | forget (a : Address) : Undone st (.createObjectChange a)
      ({ st with stateObjects := st.stateObjects.erase a }.unmark a)
  | reset (a : Address) (prev : StateObject) :
      Undone st (.resetObjectChange a prev) (st.setStateObject a prev)
  | load {a : Address} {e : JournalEntry} : e.account = some a → Undone st e (st.load a)
  | restore {a : Address} {obj obj' : StateObject} {e : JournalEntry} : e.account = some a →
      st.live a = some obj → obj.Back e obj' → Undone st e ((st.load a).update a obj')
  | touched {a : Address} {obj : StateObject} {prev prevDirty : Bool} : st.live a = some obj →
      Undone st (.touchChange a prev prevDirty)
        ((st.load a).setStateObject a { obj with touched := prev })
  | unmarked {a : Address} {obj : StateObject} {prev prevDirty : Bool} : st.live a = some obj →
      prev = false ∧ a ≠ ripemd → prevDirty = false →
      Undone st (.touchChange a prev prevDirty)
        (((st.load a).setStateObject a { obj with touched := prev }).unmark a)
  | kept (e : JournalEntry) : Undone st e st
  | refund (prev : ℤ) : Undone st (.refundChange prev) { st with refund := prev }
  | beside {e : JournalEntry} (logs : Finmap fun _ : Hash => List Log) (logSize : ℕ)
      (preimages : Finmap fun _ : Hash => Bytes) : e.account = none →
      Undone st e { st with logs := logs, logSize := logSize, preimages := preimages }

variable {st st' : StateDB} {a b : Address} {e : JournalEntry}

/-- **Every undo method works in one of these ways.** -/
theorem Undone.of_undo (h : e.undo st = some st') : Undone st e st' := by
  have hback : ∀ {a f}, st.restore a f = some st' → e.account = some a →
      (∀ obj : StateObject, obj.Back e (f obj)) → Undone st e st' := by
    intro a f hf ha hobj
    obtain ⟨obj, hlive, rfl⟩ := Option.map_eq_some_iff.1 hf
    exact restore ha hlive (hobj obj)
  cases e with
  | createObjectChange account =>
    cases h
    exact forget account
  | resetObjectChange account prev =>
    cases h
    exact reset account prev
  | suicideChange account prev prevbalance =>
    simp only [JournalEntry.undo] at h
    cases hlive : st.live account with
    | none =>
      simp only [hlive, Option.some.injEq] at h
      exact h ▸ load rfl
    | some obj =>
      simp only [hlive, Option.some.injEq] at h
      exact h ▸ restore rfl hlive (.suicide account prev prevbalance)
  | balanceChange account prev => exact hback h rfl fun _ => .balance _ _
  | nonceChange account prev => exact hback h rfl fun _ => .nonce _ _
  | storageChange account key prevalue => exact hback h rfl fun _ => .storage _ _ _
  | codeChange account prevcode prevhash => exact hback h rfl fun _ => .code _ _ _
  | refundChange prev =>
    cases h
    exact refund prev
  | addLogChange txhash =>
    simp only [JournalEntry.undo] at h
    split at h
    · cases h
    all_goals
      cases h
      exact beside _ _ _ rfl
  | addPreimageChange hash =>
    cases h
    exact beside _ _ _ rfl
  | touchChange account prev prevDirty =>
    simp only [JournalEntry.undo] at h
    split_ifs at h with hfirst hdirty
    · obtain ⟨obj, hlive, rfl⟩ := Option.map_eq_some_iff.1 h
      exact touched hlive
    · obtain ⟨obj, hlive, rfl⟩ := Option.map_eq_some_iff.1 h
      exact unmarked hlive hfirst (by simpa using hdirty)
    · cases h
      exact kept _

/-- **An undo method is confined to the account of its entry.** -/
theorem Local.undo (h : e.undo st = some st') : Local e.account st st' := by
  cases Undone.of_undo h with
  | forget a =>
    have herase : Local (some a) st { st with stateObjects := st.stateObjects.erase a } :=
      ⟨rfl, rfl, fun _ hb => Finmap.lookup_erase_ne fun heq => hb (by rw [heq]),
        fun _ _ => Iff.rfl, rfl, rfl, [], by simp, by simp⟩
    exact herase.trans (unmark _ a)
  | reset a prev => exact setStateObject st a prev
  | @load a _ ha => exact ha ▸ load st a
  | @restore a obj obj' _ ha hlive hobj => exact ha ▸ (load st a).trans (update _ a obj')
  | @touched a obj prev prevDirty hlive => exact cache st a _
  | @unmarked a obj prev prevDirty hlive _ _ => exact (cache st a _).trans (unmark _ a)
  | kept => exact refl _ st
  | refund prev | beside logs logSize preimages hnone =>
    exact ⟨rfl, rfl, fun _ _ => rfl, fun _ _ => Iff.rfl, rfl, rfl, [], by simp, by simp⟩

theorem journal_undo (h : e.undo st = some st') : st'.journal = st.journal := by
  cases Undone.of_undo h with
  | load _ | restore _ _ _ | touched _ | unmarked _ _ _ => exact journal_load
  | _ => rfl

theorem live_setStateObject_self {obj : StateObject} (h : obj.deleted = false) :
    (st.setStateObject a obj).live a = some obj :=
  live_of_lookup (Finmap.lookup_insert _) h

theorem live_update_self {obj : StateObject} (h : obj.deleted = false) :
    (st.update a obj).live a = some { obj with onDirty := false } :=
  live_of_lookup (Finmap.lookup_insert _) h

@[simp] theorem live_load (st : StateDB) (a : Address) : (st.load a).live b = st.live b := by
  rcases load_cases st a with h | ⟨hnone, data, hdata, h⟩ <;> rw [h]
  by_cases hab : b = a
  · rw [hab, live_setStateObject_self rfl, live_of_lookup_none hnone, hdata]
    rfl
  · exact (Local.setStateObject st a _).live fun h => hab (Option.some.inj h).symm

end StateDB
