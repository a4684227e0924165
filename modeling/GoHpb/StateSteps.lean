/-
**The steps that operations on the state are made of.**

Every operation finds or creates an object, changes it and leaves an entry behind, or only fills a
cache.  Here this is said once, so that what every step keeps is kept by every operation, and what
every undo method keeps is kept by going back to a snapshot.

Main results:

* `StateOp.steps` — **every operation is made of steps**.
-/

import GoHpb.StateDB

open UndoJournal Relation ReflTransGen

variable [Crypto]

/-! ### Operations -/

/-- An operation on the state, with the look-ups that fill its caches. -/
inductive StateOp where
  | addBalance (addr : Address) (amount : ℤ)
  | subBalance (addr : Address) (amount : ℤ)
  | setBalance (addr : Address) (amount : ℤ)
  | setNonce (addr : Address) (nonce : UInt64)
  | setCode (addr : Address) (code : Bytes)
  | setState (addr : Address) (key value : Hash)
  | createAccount (addr : Address)
  | suicide (addr : Address)
  | addRefund (gas : ℤ)
  | addLog (log : Log)
  | addPreimage (hash : Hash) (preimage : Bytes)
  | lookUp (addr : Address)
  | getCode (addr : Address)
  | getState (addr : Address) (key : Hash)
  | snapshot
  | revertToSnapshot (revid : ℕ)

namespace StateOp

/-- The state after an operation; going back to an unknown revision panics. -/
def run (st : StateDB) : StateOp → Option StateDB
  | addBalance addr amount => some (st.addBalance addr amount)
  | subBalance addr amount => some (st.subBalance addr amount)
  | setBalance addr amount => some (st.setBalance addr amount)
  | setNonce addr nonce => some (st.setNonce addr nonce)
  | setCode addr code => some (st.setCode addr code)
  | setState addr key value => some (st.setState addr key value)
  | createAccount addr => some (st.createAccount addr)
  | suicide addr => some (st.suicide addr)
  | addRefund gas => some (st.addRefund gas)
  | addLog log => some (st.addLog log)
  | addPreimage hash preimage => some (st.addPreimage hash preimage)
  | lookUp addr => some (st.load addr)
  | getCode addr => some (st.getCode addr).2
  | getState addr key => some (st.getState addr key).2
  | snapshot => some st.snapshot.2
  | revertToSnapshot revid => st.revertToSnapshot revid

/-- An operation that does not go back to the snapshot `id` or an earlier one. -/
def Nested (id : ℕ) : StateOp → Prop
  | revertToSnapshot revid => id < revid
  | _ => True

/-- An operation that neither takes a snapshot nor goes back to one. -/
def Direct : StateOp → Prop
  | snapshot => False
  | revertToSnapshot _ => False
  | _ => True

/-- An operation of a payment: accounts are created at free addresses only. -/
def Payment (Free : Address → Prop) : StateOp → Prop
  | lookUp _ => True
  | addBalance _ _ => True
  | subBalance _ _ => True
  | createAccount addr => Free addr
  | _ => False

/-- An operation that a contract may cause: it creates accounts, sets nonces and sets codes at free
addresses only, and destroys only accounts whose code may run.  Gas is counted in unsigned numbers,
so the refund counter is not decreased. -/
def Permitted (May Free : Address → Prop) : StateOp → Prop
  | createAccount addr => Free addr
  | setNonce addr _ => Free addr
  | setCode addr _ => Free addr
  | suicide addr => May addr
  | addRefund gas => 0 ≤ gas
  | snapshot => False
  | revertToSnapshot _ => False
  | _ => True

variable {May Free : Address → Prop} {op : StateOp}

omit [Crypto] in
theorem Payment.permitted (h : op.Payment Free) : op.Permitted May Free := by
  cases op <;> first | exact h | trivial

omit [Crypto] in
theorem Permitted.direct (h : op.Permitted May Free) : op.Direct := by
  cases op <;> trivial

end StateOp

/-- Operations one after another. -/
def runOps (st : StateDB) (ops : List StateOp) : Option StateDB := ops.foldlM StateOp.run st

/-! ### Steps -/

/-- The changes of the object at the address `a`, and the entries they leave behind.  All but those
of the balance are the work of one operation. -/
inductive StateObject.Edit (op : StateOp) (codes : Finmap fun _ : Hash => Bytes) (a : Address)
    (obj : StateObject) : JournalEntry → StateObject → Prop
  | balance (amount : ℤ) : Edit op codes a obj (.balanceChange a obj.data.balance)
      (obj.setBalance amount)
  | nonce (nonce : UInt64) : op = .setNonce a nonce →
      Edit op codes a obj (.nonceChange a obj.data.nonce) (obj.setNonce nonce)
  | code {code : Bytes} : op = .setCode a code →
      Edit op codes a obj
        (.codeChange a (obj.readCode codes).code obj.data.codeHash)
        ((obj.readCode codes).setCode (Crypto.keccak256 code) (some code))
  | storage (key value : Hash) : op = .setState a key value →
      Edit op codes a obj (.storageChange a key (obj.storageValue key))
        ((obj.cacheState key).setState key value)
  | suicide : op = .suicide a →
      Edit op codes a obj (.suicideChange a obj.suicided obj.data.balance)
        { obj.setBalance 0 with suicided := true }
  | touch : obj.empty = true →
      Edit op codes a obj (.touchChange a obj.touched (!obj.onDirty))
        { obj with touched := true }

theorem StateObject.Edit.flags {op : StateOp} {codes : Finmap fun _ : Hash => Bytes} {a : Address}
    {obj obj' : StateObject} {e : JournalEntry} (h : obj.Edit op codes a e obj') :
    e.account = some a ∧ obj'.deleted = obj.deleted ∧ obj'.onDirty = obj.onDirty := by
  cases h with
  | code hop =>
    rw [readCode_eq]
    exact ⟨rfl, rfl, rfl⟩
  | storage key value =>
    rw [cacheState_eq]
    exact ⟨rfl, rfl, rfl⟩
  | _ => exact ⟨rfl, rfl, rfl⟩

namespace StateDB

/-- The entry of a creation. -/
def creation (st : StateDB) (a : Address) : JournalEntry :=
  match st.live a with
  | none => .createObjectChange a
  | some prev => .resetObjectChange a prev

omit [Crypto] in
theorem account_creation {st : StateDB} {a : Address} : (st.creation a).account = some a := by
  unfold creation
  split <;> rfl

/-- The steps of an operation. -/
inductive Step (op : StateOp) (st : StateDB) : StateDB → Prop
  | load (a : Address) : Step op st (st.load a)
  | readCode {a : Address} {obj : StateObject} : st.live a = some obj → op = .getCode a →
      Step op st ((st.load a).setStateObject a (obj.readCode st.codes))
  | cacheState {a : Address} {obj : StateObject} (key : Hash) : st.live a = some obj →
      op = .getState a key →
      Step op st ((st.load a).setStateObject a (obj.cacheState key))
  | create (a : Address) (balance : ℤ) : st.live a = none ∨ op = .createAccount a →
      Step op st (((st.load a).record (st.creation a)).update a
        ((newObject emptyAccount).setBalance balance))
  | edit {a : Address} {obj obj' : StateObject} {e : JournalEntry} : st.live a = some obj →
      obj.Edit op st.codes a e obj' → Step op st (((st.load a).record e).update a obj')
  | addRefund {gas : ℤ} : op = .addRefund gas → Step op st (st.addRefund gas)
  | addLog (log : Log) : op = .addLog log → Step op st (st.addLog log)
  | addPreimage {hash : Hash} (preimage : Bytes) : hash ∉ st.preimages →
      op = .addPreimage hash preimage → Step op st (st.addPreimage hash preimage)

variable {op : StateOp} {st st' : StateDB} {a : Address} {obj : StateObject}

theorem Step.confined (h : Step op st st') : ∃ o, Local o st st' := by
  cases h with
  | load a => exact ⟨_, Local.load st a⟩
  | @readCode a obj _ _ | @cacheState a obj key _ _ => exact ⟨_, Local.cache st a _⟩
  | create a balance _ => exact ⟨_, Local.write account_creation _⟩
  | edit _ hedit => exact ⟨_, Local.write hedit.flags.1 _⟩
  | @addRefund gas _ => exact ⟨none, Local.addRefund st gas⟩
  | addLog log _ => exact ⟨none, Local.addLog st log⟩
  | @addPreimage hash preimage _ _ => exact ⟨none, Local.addPreimage st hash preimage⟩

variable (st) (a)

theorem live_getOrNewStateObject :
    (st.getOrNewStateObject a).2.live a = some (st.getOrNewStateObject a).1 := by
  cases hlive : st.live a with
  | some obj => rw [getOrNewStateObject_eq hlive, live_load, hlive]
  | none =>
    rw [getOrNewStateObject, hlive]
    exact live_update_self rfl

@[simp] theorem codes_getOrNewStateObject :
    (st.getOrNewStateObject a).2.codes = st.codes := (Local.getOrNewStateObject st a).codes

theorem lookup_getOrNewStateObject :
    (st.getOrNewStateObject a).2.stateObjects.lookup a = some (st.getOrNewStateObject a).1 := by
  cases hlive : st.live a with
  | some obj =>
    rw [getOrNewStateObject_eq hlive]
    exact (lookup_load_self hlive).1
  | none =>
    rw [getOrNewStateObject, hlive]
    exact Finmap.lookup_insert _

variable {st} {a}

theorem steps_createObject (hnew : st.live a = none) :
    ReflTransGen (Step op) st (st.createObject a) :=
  single (.create a 0 (.inl hnew))

theorem createAccount_eq (h : st.live a = some obj) :
    st.createAccount a = ((st.load a).record (st.creation a)).update a
      ((newObject emptyAccount).setBalance obj.data.balance) := by
  have hcreate : st.createObject a =
      ((st.load a).record (st.creation a)).update a (newObject emptyAccount) := rfl
  rw [createAccount, h]
  simp only [hcreate, update, Finmap.insert_insert]
  rfl

theorem steps_createAccount (st : StateDB) (a : Address) :
    ReflTransGen (Step (.createAccount a)) st (st.createAccount a) := by
  cases hlive : st.live a with
  | none =>
    rw [createAccount, hlive]
    exact steps_createObject hlive
  | some prev =>
    rw [createAccount_eq hlive]
    exact single (.create a _ (.inr rfl))

theorem steps_getOrNewStateObject (op : StateOp) (st : StateDB) (a : Address) :
    ReflTransGen (Step op) st (st.getOrNewStateObject a).2 := by
  cases hlive : st.live a with
  | some obj =>
    rw [getOrNewStateObject_eq hlive]
    exact single (.load a)
  | none =>
    rw [getOrNewStateObject, hlive]
    exact steps_createObject hlive

theorem steps_edit {e : JournalEntry} {obj' : StateObject}
    (h : (st.getOrNewStateObject a).1.Edit op st.codes a e obj') :
    ReflTransGen (Step op) st (((st.getOrNewStateObject a).2.record e).update a obj') := by
  rw [← codes_getOrNewStateObject st a] at h
  have hstep := Step.edit (live_getOrNewStateObject st a) h
  rw [load_eq_self (lookup_getOrNewStateObject st a)] at hstep
  exact (steps_getOrNewStateObject op st a).tail hstep

theorem steps_setBalance (op : StateOp) (st : StateDB) (a : Address) (amount : ℤ) :
    ReflTransGen (Step op) st (st.setBalance a amount) :=
  steps_edit (.balance amount)

theorem steps_addBalance (op : StateOp) (st : StateDB) (a : Address) (amount : ℤ) :
    ReflTransGen (Step op) st (st.addBalance a amount) := by
  have hfound := steps_getOrNewStateObject op st a
  simp only [addBalance]
  split_ifs with hzero hempty
  · exact steps_edit (.touch hempty)
  · exact hfound
  · exact hfound.trans (steps_setBalance op _ a _)

theorem steps_subBalance (op : StateOp) (st : StateDB) (a : Address) (amount : ℤ) :
    ReflTransGen (Step op) st (st.subBalance a amount) := by
  have hfound := steps_getOrNewStateObject op st a
  simp only [subBalance]
  split_ifs
  · exact hfound
  · exact hfound.trans (steps_setBalance op _ a _)

end StateDB

namespace StateOp

variable {op : StateOp} {st st' : StateDB} {P : StateDB → Prop}

open StateDB in
/-- **Every operation is made of steps.** -/
theorem steps (hdirect : op.Direct) (hrun : op.run st = some st') :
    ReflTransGen (Step op) st st' := by
  cases op with
  | snapshot | revertToSnapshot revid => exact absurd hdirect id
  | addBalance addr amount => cases hrun; exact steps_addBalance _ st addr amount
  | subBalance addr amount => cases hrun; exact steps_subBalance _ st addr amount
  | setBalance addr amount => cases hrun; exact steps_setBalance _ st addr amount
  | setNonce addr nonce => cases hrun; exact steps_edit (.nonce nonce rfl)
  | setCode addr code => cases hrun; exact steps_edit (.code rfl)
  | setState addr key value =>
    cases hrun
    exact steps_edit (.storage key value rfl)
  | createAccount addr => cases hrun; exact steps_createAccount st addr
  | suicide addr =>
    cases hrun
    unfold StateDB.suicide
    cases hlive : st.live addr with
    | none => exact single (.load addr)
    | some obj => exact single (.edit hlive (.suicide rfl))
  | addRefund gas => cases hrun; exact single (.addRefund rfl)
  | addLog log => cases hrun; exact single (.addLog log rfl)
  | addPreimage hash preimage =>
    cases hrun
    by_cases hmem : hash ∈ st.preimages
    · rw [StateDB.addPreimage, if_pos hmem]
    · exact single (.addPreimage preimage hmem rfl)
  | lookUp addr => cases hrun; exact single (.load addr)
  | getCode addr =>
    cases hrun
    unfold StateDB.getCode
    cases hlive : st.live addr with
    | none => exact single (.load addr)
    | some obj => exact single (.readCode hlive rfl)
  | getState addr key =>
    cases hrun
    unfold StateDB.getState
    cases hlive : st.live addr with
    | none => exact single (.load addr)
    | some obj => exact single (.cacheState key hlive rfl)

theorem induction (hdirect : op.Direct) (hrun : op.run st = some st')
    (hstep : ∀ {t t'}, P t → StateDB.Step op t t' → P t') (h : P st) : P st' := by
  have hsteps := steps hdirect hrun
  clear hrun
  induction hsteps with
  | refl => exact h
  | tail _ hlast ih => exact hstep ih hlast

end StateOp

namespace StateDB

variable {st st' : StateDB} {P : StateDB → Prop}

omit [Crypto] in
theorem undoAll_induction (hundo : ∀ {t t' e}, P t → e ∈ t.journal → e.undo t = some t' → P t')
    {es : List JournalEntry} (hes : ∀ e ∈ es, e ∈ st.journal)
    (hback : undoAll JournalEntry.undo es st = some st') (h : P st) : P st' := by
  induction es using List.reverseRecOn generalizing st with
  | nil =>
    cases hback
    exact h
  | append_singleton es e ih =>
    obtain ⟨t, ht, hrest⟩ := undoAll_concat.1 hback
    refine ih (fun f hf => ?_) hrest (hundo h (hes e (by simp)) ht)
    rw [journal_undo ht]
    exact hes f (List.mem_append_left _ hf)

omit [Crypto] in
theorem revertToSnapshot_induction
    (hundo : ∀ {t t' e}, P t → e ∈ t.journal → e.undo t = some t' → P t')
    (hcut : ∀ {t : StateDB} (k i : ℕ), P t →
      P { t with journal := t.journal.take k, validRevisions := t.validRevisions.take i })
    {revid : ℕ} (hback : st.revertToSnapshot revid = some st') (h : P st) : P st' := by
  unfold revertToSnapshot at hback
  split at hback
  · cases hback
  · obtain ⟨t, ht, rfl⟩ := Option.map_eq_some_iff.1 hback
    exact hcut _ _ (undoAll_induction hundo (fun _ => List.mem_of_mem_drop) ht h)

end StateDB

/-- **What the steps, the snapshots and the undo methods keep, every operation keeps.** -/
theorem StateOp.invariant {op : StateOp} {st st' : StateDB} {P : StateDB → Prop}
    (hstep : ∀ {t t'}, P t → StateDB.Step op t t' → P t') (hsnapshot : ∀ {t}, P t → P t.snapshot.2)
    (hundo : ∀ {t t' e}, P t → e ∈ t.journal → e.undo t = some t' → P t')
    (hcut : ∀ {t : StateDB} (k i : ℕ), P t →
      P { t with journal := t.journal.take k, validRevisions := t.validRevisions.take i })
    (hrun : op.run st = some st') (h : P st) : P st' := by
  cases op with
  | snapshot =>
    cases hrun
    exact hsnapshot h
  | revertToSnapshot revid => exact StateDB.revertToSnapshot_induction hundo hcut hrun h
  | _ =>
    refine StateOp.induction ?_ hrun hstep h
    trivial
