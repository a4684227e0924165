/-
**What can be observed of the world state.**

The observers of a state look at its accounts, the refund counter, the logs and the preimages.  They
do not see where an account comes from: from the trie, from a live object, from a storage trie that
is not opened yet or from a code that is not loaded yet.  This is the `View` of the state, and the
operations of the state act on it as plain functions.

Main results:

* `StateDB.view_setBalance`, `StateDB.view_createAccount`, … — **the operations of the state are the
  operations on its view**.
-/

import GoHpb.AccountStanding

open StateObject Function

/-! ### Views -/

/-- What the observers see of an account. -/
@[ext] structure AccountView where
  nonce : UInt64
  balance : ℤ
  codeHash : Hash
  code : Bytes
  suicided : Bool
  storage : Hash → Hash

/-- What the observers see of a state. -/
@[ext] structure View where
  account : Address → Option AccountView
  refund : ℤ
  logs : Hash → List Log
  logSize : ℕ
  preimages : Finmap fun _ : Hash => Bytes

namespace View

variable {v : View} {a b : Address} {x y : Option AccountView}

/-- The view after an account has changed. -/
def set (v : View) (a : Address) (x : Option AccountView) : View :=
  { v with account := update v.account a x }

@[simp] theorem set_set : (v.set a x).set a y = v.set a y := by
  simp [set]

theorem set_self (h : v.account a = x) : v.set a x = v := by
  simp [set, ← h]

@[simp] theorem account_set : (v.set a x).account a = x := by
  simp [set]

theorem account_set_of_ne (h : b ≠ a) : (v.set a x).account b = v.account b := by
  simp [set, h]

def addRefund (v : View) (gas : ℤ) : View := { v with refund := v.refund + gas }

def addLog (v : View) (hash : Hash) (log : Log) : View :=
  { v with
    logs := update v.logs hash (v.logs hash ++ [log])
    logSize := v.logSize + 1 }

def addPreimage (v : View) (hash : Hash) (preimage : Bytes) : View :=
  if hash ∈ v.preimages then v else { v with preimages := v.preimages.insert hash preimage }

/-- An account that destroys itself loses its balance. -/
def suicide (v : View) (a : Address) : View :=
  match v.account a with
  | none => v
  | some x => v.set a (some { x with balance := 0, suicided := true })

end View

theorem StateObject.storageValue_cacheState (obj : StateObject) (key : Hash) :
    (obj.cacheState key).storageValue = obj.storageValue := by
  funext k
  unfold cacheState
  cases hkey : obj.cachedStorage.lookup key with
  | some value => rfl
  | none =>
    split_ifs with hzero
    · simp [storageValue, getTrie]
    by_cases hk : k = key
    · subst hk
      simp [storageValue, hkey, Finmap.lookup_insert]
    · simp [storageValue, getTrie, Finmap.lookup_insert_of_ne _ hk]

theorem StateObject.storageValue_setState {obj : StateObject} (key value : Hash) :
    (obj.setState key value).storageValue = update obj.storageValue key value := by
  funext k
  by_cases hk : k = key
  · subst hk
    simp [storageValue, setState, Finmap.lookup_insert]
  · simp [storageValue, setState, Finmap.lookup_insert_of_ne _ hk, update_of_ne hk]

variable [Crypto]

/-- What a missing account is created as. -/
def AccountView.fresh : AccountView where
  nonce := 0
  balance := 0
  codeHash := emptyCodeHash
  code := []
  suicided := false
  storage := fun _ => FixedBytes.zero 32

namespace View

/-- An account that is created if it is missing. -/
def get (v : View) (a : Address) : AccountView := (v.account a).getD AccountView.fresh

theorem get_of_account {v : View} {a : Address} {x : AccountView} (h : v.account a = some x) :
    v.get a = x := by
  rw [get, h]
  rfl

variable (v : View) (a : Address)

def setBalance (amount : ℤ) : View :=
  v.set a (some { v.get a with balance := amount })

def addBalance (amount : ℤ) : View :=
  v.setBalance a ((v.get a).balance + amount)

def subBalance (amount : ℤ) : View :=
  v.setBalance a ((v.get a).balance - amount)

def setNonce (nonce : UInt64) : View :=
  v.set a (some { v.get a with nonce := nonce })

def setCode (code : Bytes) : View :=
  v.set a (some { v.get a with codeHash := Crypto.keccak256 code, code := code })

def setState (key value : Hash) : View :=
  v.set a (some { v.get a with storage := update (v.get a).storage key value })

def createAccount : View :=
  v.set a (some { AccountView.fresh with balance := (v.get a).balance })

end View

/-! ### The view of a state -/

/-- The code of an object that holds `code` and has the hash `codeHash`. -/
def codeOf (codes : Finmap fun _ : Hash => Bytes) (code : Option Bytes) (codeHash : Hash) : Bytes :=
  match code with
  | some code => code
  | none => if codeHash = emptyCodeHash then [] else (codes.lookup codeHash).getD []

namespace StateObject

def view (codes : Finmap fun _ : Hash => Bytes) (obj : StateObject) : AccountView where
  nonce := obj.data.nonce
  balance := obj.data.balance
  codeHash := obj.data.codeHash
  code := codeOf codes obj.code obj.data.codeHash
  suicided := obj.suicided
  storage := obj.storageValue

variable (obj : StateObject) (codes : Finmap fun _ : Hash => Bytes)

theorem codeOf_readCode : codeOf codes (obj.readCode codes).code obj.data.codeHash =
      codeOf codes obj.code obj.data.codeHash := by
  unfold readCode
  cases hcode : obj.code with
  | some code => simp [hcode]
  | none =>
    by_cases hempty : obj.data.codeHash = emptyCodeHash
    · simp [hempty, hcode]
    · cases hlookup : codes.lookup obj.data.codeHash <;> simp [codeOf, hempty, hlookup]

theorem getD_readCode :
    (obj.readCode codes).code.getD [] = codeOf codes obj.code obj.data.codeHash := by
  unfold readCode
  cases hcode : obj.code with
  | some code => simp [codeOf, hcode]
  | none =>
    by_cases hempty : obj.data.codeHash = emptyCodeHash
    · simp [codeOf, hempty, hcode]
    · simp [codeOf, hempty]

@[simp] theorem view_readCode : (obj.readCode codes).view codes = obj.view codes := by
  have hcode := obj.codeOf_readCode codes
  rw [readCode_eq]
  simp only [view, hcode]
  rfl

@[simp] theorem view_cacheState (key : Hash) :
    (obj.cacheState key).view codes = obj.view codes := by
  have hstorage := obj.storageValue_cacheState key
  rw [cacheState_eq] at hstorage ⊢
  simp only [view, hstorage]

theorem view_setState (key value : Hash) : (obj.setState key value).view codes =
      { obj.view codes with storage := update (obj.view codes).storage key value } := by
  simp only [view, storageValue_setState]
  rfl

@[simp] theorem view_newObject : (newObject emptyAccount).view codes = AccountView.fresh := by
  have hstorage : (newObject emptyAccount).storageValue = fun _ => FixedBytes.zero 32 := by
    funext key
    simp [storageValue, newObject, emptyAccount]
  simp only [view, hstorage]
  simp [AccountView.fresh, newObject, emptyAccount, codeOf]

end StateObject

namespace StateDB

variable {st st' : StateDB} {a : Address} {obj : StateObject}

/-- What the observers look at. -/
def view (st : StateDB) : View where
  account a := (st.live a).map (StateObject.view st.codes)
  refund := st.refund
  logs := st.getLogs
  logSize := st.logSize
  preimages := st.preimages

theorem account_view (st : StateDB) (a : Address) :
    st.view.account a = (st.live a).map (StateObject.view st.codes) := rfl

theorem account_view_of_live (h : st.live a = some obj) :
    st.view.account a = some (obj.view st.codes) := by
  rw [account_view, h]
  rfl

@[simp] theorem view_load : (st.load a).view = st.view := by
  have hlive : ∀ b, (st.load a).live b = st.live b := fun b => live_load st a
  have hload := load_eq st a
  simp only [view, hlive, codes_load]
  rw [hload]
  rfl

theorem view_eq_iff {v : View} : st.view = v ↔ st.view.account = v.account ∧ st.refund = v.refund ∧
      (∀ hash, st.getLogs hash = v.logs hash) ∧ st.logSize = v.logSize ∧
      st.preimages = v.preimages := by
  constructor
  · rintro rfl
    exact ⟨rfl, rfl, fun _ => rfl, rfl, rfl⟩
  · rintro ⟨haccount, hrefund, hlogs, hsize, hpreimages⟩
    exact View.ext haccount hrefund (funext hlogs) hsize hpreimages

theorem account_view_congr (hobjects : st'.stateObjects = st.stateObjects)
    (htrie : st'.trie = st.trie) (hcodes : st'.codes = st.codes) :
    st'.view.account = st.view.account := by
  funext b
  rw [account_view, account_view, live_eq, live_eq, hobjects, htrie, hcodes]

theorem view_congr (hobjects : st'.stateObjects = st.stateObjects) (htrie : st'.trie = st.trie)
    (hcodes : st'.codes = st.codes) (hrefund : st'.refund = st.refund) (hlogs : st'.logs = st.logs)
    (hsize : st'.logSize = st.logSize) (hpreimages : st'.preimages = st.preimages) :
    st'.view = st.view :=
  view_eq_iff.2 ⟨account_view_congr hobjects htrie hcodes, hrefund,
    fun hash => congrArg (fun logs => (logs.lookup hash).getD []) hlogs, hsize, hpreimages⟩

@[simp] theorem view_record (e : JournalEntry) : (st.record e).view = st.view :=
  view_congr rfl rfl rfl rfl rfl rfl rfl

@[simp] theorem view_snapshot (st : StateDB) : st.snapshot.2.view = st.view :=
  view_congr rfl rfl rfl rfl rfl rfl rfl

@[simp] theorem view_unmark (st : StateDB) (a : Address) : (st.unmark a).view = st.view :=
  view_congr rfl rfl rfl rfl rfl rfl rfl

theorem view_eq_set (hdeleted : obj.deleted = false)
    (hobjects : st'.stateObjects = st.stateObjects.insert a obj) (htrie : st'.trie = st.trie)
    (hcodes : st'.codes = st.codes) (hrefund : st'.refund = st.refund) (hlogs : st'.logs = st.logs)
    (hsize : st'.logSize = st.logSize) (hpreimages : st'.preimages = st.preimages) :
    st'.view = st.view.set a (some (obj.view st.codes)) := by
  have haccount : st'.view.account =
      Function.update st.view.account a (some (obj.view st.codes)) := by
    funext b
    rw [account_view, live_eq, hobjects, htrie, hcodes]
    by_cases hb : b = a
    · subst hb
      simp [hdeleted]
    · rw [Finmap.lookup_insert_of_ne _ hb, update_of_ne hb, ← live_eq]
      rfl
  refine view_eq_iff.2 ⟨haccount, hrefund, fun hash => ?_, hsize, hpreimages⟩
  change (st'.logs.lookup hash).getD [] = (st.logs.lookup hash).getD []
  rw [hlogs]

theorem view_setStateObject (h : obj.deleted = false) :
    (st.setStateObject a obj).view = st.view.set a (some (obj.view st.codes)) :=
  view_eq_set h rfl rfl rfl rfl rfl rfl rfl

theorem view_update (h : obj.deleted = false) :
    (st.update a obj).view = st.view.set a (some (obj.view st.codes)) := by
  have hset : (st.update a obj).view =
      st.view.set a (some (({ obj with onDirty := false } : StateObject).view st.codes)) :=
    view_eq_set h rfl rfl rfl rfl rfl rfl rfl
  exact hset

/-! ### The operations on views -/

theorem view_createObject (st : StateDB) (a : Address) :
    (st.createObject a).view = st.view.set a (some AccountView.fresh) := by
  rw [createObject, view_update rfl, view_record, view_load, view_newObject]

theorem view_getOrNewStateObject (st : StateDB) (a : Address) :
    (st.getOrNewStateObject a).2.view = st.view.set a (some (st.view.get a)) ∧
      (st.getOrNewStateObject a).1.view st.codes = st.view.get a := by
  cases hlive : st.live a with
  | some obj =>
    have hget : st.view.get a = obj.view st.codes :=
      View.get_of_account (account_view_of_live hlive)
    rw [getOrNewStateObject_eq hlive, view_load, hget, View.set_self (account_view_of_live hlive)]
    exact ⟨rfl, rfl⟩
  | none =>
    have hget : st.view.get a = AccountView.fresh := by
      rw [View.get, account_view, hlive]
      rfl
    have hnew : st.getOrNewStateObject a =
        ({ newObject emptyAccount with onDirty := false }, st.createObject a) := by
      rw [getOrNewStateObject, hlive]
    rw [hget, hnew]
    exact ⟨view_createObject st a, view_newObject st.codes⟩

theorem view_change {entry : StateObject → JournalEntry} {f : StateObject → StateObject}
    (hdeleted : ∀ obj, (f obj).deleted = obj.deleted) : (st.change a entry f).view =
      st.view.set a (some ((f (st.getOrNewStateObject a).1).view st.codes)) := by
  have hlive := live_getOrNewStateObject st a
  rw [change, view_update ((hdeleted _).trans (lookup_load_self hlive).2), view_record,
    (view_getOrNewStateObject st a).1, View.set_set]
  congr 3
  exact codes_getOrNewStateObject st a

variable (st) (a)

theorem view_setBalance (amount : ℤ) :
    (st.setBalance a amount).view = st.view.setBalance a amount := by
  have hdeleted : ∀ obj : StateObject, (obj.setBalance amount).deleted = obj.deleted := fun _ => rfl
  rw [setBalance, view_change hdeleted, View.setBalance, ← (view_getOrNewStateObject st a).2]
  rfl

theorem view_addBalance (amount : ℤ) :
    (st.addBalance a amount).view = st.view.addBalance a amount := by
  obtain ⟨hview, hget⟩ := view_getOrNewStateObject st a
  have hlive := live_getOrNewStateObject st a
  have hbalance : (st.getOrNewStateObject a).1.data.balance = (st.view.get a).balance := by
    rw [← hget]
    rfl
  have hsame : (st.view.get a).balance + 0 = (st.view.get a).balance := add_zero _
  simp only [addBalance]
  split_ifs with hzero hempty
  · -- an empty account is only touched
    have hdeleted : ({ (st.getOrNewStateObject a).1 with touched := true } : StateObject).deleted =
        false := (lookup_load_self hlive).2
    have htouched : ({ (st.getOrNewStateObject a).1 with touched := true } : StateObject).view
        st.codes = st.view.get a := hget
    rw [view_update hdeleted, view_record, hview, View.set_set, hzero, View.addBalance, hsame]
    simp only [record, codes_getOrNewStateObject, htouched]
    rfl
  · rw [hview, hzero, View.addBalance, hsame]
    rfl
  · rw [view_setBalance, hview, hbalance, View.setBalance, View.set_set,
      View.get_of_account View.account_set]
    rfl

theorem view_subBalance (amount : ℤ) :
    (st.subBalance a amount).view = st.view.subBalance a amount := by
  obtain ⟨hview, hget⟩ := view_getOrNewStateObject st a
  have hbalance : (st.getOrNewStateObject a).1.data.balance = (st.view.get a).balance := by
    rw [← hget]
    rfl
  simp only [subBalance]
  split_ifs with hzero
  · rw [hview, hzero, View.subBalance, sub_zero]
    rfl
  rw [view_setBalance, hview, hbalance, View.setBalance, View.set_set,
    View.get_of_account View.account_set]
  rfl

theorem view_setNonce (nonce : UInt64) :
    (st.setNonce a nonce).view = st.view.setNonce a nonce := by
  have hdeleted : ∀ obj : StateObject, (obj.setNonce nonce).deleted = obj.deleted := fun _ => rfl
  rw [setNonce, view_change hdeleted, View.setNonce, ← (view_getOrNewStateObject st a).2]
  rfl

theorem view_setCode (code : Bytes) :
    (st.setCode a code).view = st.view.setCode a code := by
  have hdeleted : ∀ obj : StateObject,
      ((obj.readCode st.codes).setCode (Crypto.keccak256 code) (some code)).deleted =
        obj.deleted := by
    intro obj
    rw [readCode_eq]
    rfl
  rw [setCode, view_change hdeleted, View.setCode, ← (view_getOrNewStateObject st a).2, readCode_eq]
  rfl

theorem view_setState (key value : Hash) :
    (st.setState a key value).view = st.view.setState a key value := by
  have hdeleted : ∀ obj : StateObject,
      ((obj.cacheState key).setState key value).deleted = obj.deleted := by
    intro obj
    rw [cacheState_eq]
    rfl
  rw [setState, view_change hdeleted, View.setState, ← (view_getOrNewStateObject st a).2,
    StateObject.view_setState, StateObject.view_cacheState]

theorem view_createAccount :
    (st.createAccount a).view = st.view.createAccount a := by
  unfold createAccount
  cases hlive : st.live a with
  | none =>
    have hget : st.view.get a = AccountView.fresh := by
      rw [View.get, account_view, hlive]
      rfl
    rw [view_createObject, View.createAccount, hget]
  | some prev =>
    have hget : st.view.get a = prev.view st.codes :=
      View.get_of_account (account_view_of_live hlive)
    have hfresh := view_newObject st.codes
    rw [view_update rfl, view_createObject, View.set_set, View.createAccount, hget,
      (Local.createObject st a).codes, ← hfresh]
    rfl

theorem view_suicide : (st.suicide a).view = st.view.suicide a := by
  unfold suicide
  cases hlive : st.live a with
  | none => simp [View.suicide, account_view, hlive]
  | some obj =>
    have hdeleted : deleted { obj.setBalance 0 with suicided := true } = false :=
      (lookup_load_self hlive).2
    rw [view_update hdeleted, view_record, view_load, View.suicide, account_view_of_live hlive]
    simp only [record, codes_load]
    rfl

variable {st} {a}

variable (st)

theorem view_addRefund (gas : ℤ) : (st.addRefund gas).view = st.view.addRefund gas :=
  View.ext (account_view_congr rfl rfl rfl) rfl rfl rfl rfl

/-- The log as it is kept. -/
def completeLog (log : Log) : Log :=
  { log with txHash := st.thash, blockHash := st.bhash, txIndex := st.txIndex, index := st.logSize }

theorem view_addLog (log : Log) :
    (st.addLog log).view = st.view.addLog st.thash (st.completeLog log) := by
  refine View.ext (account_view_congr rfl rfl rfl) rfl ?_ rfl rfl
  funext hash
  change ((st.addLog log).logs.lookup hash).getD [] = _
  by_cases hhash : hash = st.thash
  · subst hhash
    simp [addLog, Finmap.lookup_insert, View.addLog, view, getLogs, completeLog]
  · simp [addLog, Finmap.lookup_insert_of_ne _ hhash, View.addLog, view, getLogs, record,
      update_of_ne hhash]

theorem view_addPreimage (hash : Hash) (preimage : Bytes) :
    (st.addPreimage hash preimage).view = st.view.addPreimage hash preimage := by
  have hmem : hash ∈ st.view.preimages ↔ hash ∈ st.preimages := Iff.rfl
  rw [addPreimage, View.addPreimage]
  by_cases h : hash ∈ st.preimages
  · rw [if_pos h, if_pos (hmem.2 h)]
  · rw [if_neg h, if_neg fun h' => h (hmem.1 h')]
    exact View.ext (account_view_congr rfl rfl rfl) rfl rfl rfl rfl

@[simp] theorem view_getState (a : Address) (key : Hash) :
    (st.getState a key).2.view = st.view := by
  unfold getState
  cases hlive : st.live a with
  | none => exact view_load
  | some obj =>
    have hdeleted : (obj.cacheState key).deleted = false := by
      rw [cacheState_eq]
      exact (lookup_load_self hlive).2
    rw [view_setStateObject hdeleted, view_load, view_cacheState, codes_load]
    exact View.set_self (account_view_of_live hlive)

@[simp] theorem view_getCode (a : Address) : (st.getCode a).2.view = st.view := by
  unfold getCode
  cases hlive : st.live a with
  | none => exact view_load
  | some obj =>
    have hdeleted : (obj.readCode st.codes).deleted = false := by
      rw [readCode_eq]
      exact (lookup_load_self hlive).2
    rw [view_setStateObject hdeleted, view_load, codes_load, view_readCode]
    exact View.set_self (account_view_of_live hlive)

/-! ### Observers -/

variable {st}

/-- No observer can tell the two states apart. -/
structure SameObservers (st st' : StateDB) : Prop where
  exist : ∀ a, (st'.exist a).1 = (st.exist a).1
  empty : ∀ a, (st'.empty a).1 = (st.empty a).1
  hasSuicided : ∀ a, (st'.hasSuicided a).1 = (st.hasSuicided a).1
  getBalance : ∀ a, (st'.getBalance a).1 = (st.getBalance a).1
  getNonce : ∀ a, (st'.getNonce a).1 = (st.getNonce a).1
  getCode : ∀ a, (st'.getCode a).1 = (st.getCode a).1
  getCodeHash : ∀ a, (st'.getCodeHash a).1 = (st.getCodeHash a).1
  getState : ∀ a key, (st'.getState a key).1 = (st.getState a key).1
  refund : st'.refund = st.refund
  getLogs : ∀ hash, st'.getLogs hash = st.getLogs hash
  logSize : st'.logSize = st.logSize
  preimages : st'.preimages = st.preimages

variable (st) (a)

theorem exist_eq : (st.exist a).1 = (st.view.account a).isSome := by
  rw [exist, account_view, Option.isSome_map]

theorem getBalance_eq :
    (st.getBalance a).1 = (st.view.get a).balance := by
  rw [getBalance, View.get, account_view]
  cases st.live a <;> rfl

theorem getNonce_eq : (st.getNonce a).1 = (st.view.get a).nonce := by
  rw [getNonce, View.get, account_view]
  cases st.live a <;> rfl

theorem getCode_eq : (st.getCode a).1 = (st.view.get a).code := by
  rw [getCode, View.get, account_view]
  cases st.live a with
  | none => rfl
  | some obj => exact obj.getD_readCode st.codes

theorem hasSuicided_eq :
    (st.hasSuicided a).1 = (st.view.get a).suicided := by
  rw [hasSuicided, View.get, account_view]
  cases st.live a <;> rfl

theorem getState_eq (key : Hash) :
    (st.getState a key).1 = (st.view.get a).storage key := by
  rw [getState, View.get, account_view]
  cases st.live a <;> rfl

/-- A missing account has the zero hash, other than an account without code. -/
theorem getCodeHash_eq :
    (st.getCodeHash a).1 = ((st.view.account a).map AccountView.codeHash).getD
      (FixedBytes.zero 32) := by
  rw [getCodeHash, account_view]
  cases st.live a <;> rfl

theorem empty_eq :
    (st.empty a).1 = (decide ((st.view.get a).nonce = 0) && decide ((st.view.get a).balance = 0) &&
      decide ((st.view.get a).codeHash = emptyCodeHash)) := by
  rw [empty, View.get, account_view]
  cases st.live a with
  | none => simp [AccountView.fresh]
  | some obj => rfl

variable {st} {a}

/-- **Equal views are observed alike.** -/
theorem sameObservers_of_view (h : st'.view = st.view) : SameObservers st st' where
  exist a := by rw [exist_eq, exist_eq, h]
  empty a := by rw [empty_eq, empty_eq, h]
  hasSuicided a := by rw [hasSuicided_eq, hasSuicided_eq, h]
  getBalance a := by rw [getBalance_eq, getBalance_eq, h]
  getNonce a := by rw [getNonce_eq, getNonce_eq, h]
  getCode a := by rw [getCode_eq, getCode_eq, h]
  getCodeHash a := by rw [getCodeHash_eq, getCodeHash_eq, h]
  getState a key := by rw [getState_eq, getState_eq, h]
  refund := congrArg View.refund h
  getLogs := congrFun (congrArg View.logs h)
  logSize := congrArg View.logSize h
  preimages := congrArg View.preimages h

end StateDB
