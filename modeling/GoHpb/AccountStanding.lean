/-
**The standing of one account while contracts run.**

Contracts call one another, create contracts and fail at any depth, and a failing frame takes the
state back to a snapshot.  This module follows one account through all of that.  Its *standing* is
what decides about its nonce: the nonce itself, the hash of its code, and, for an account without
code, that there really is none.

The journal entries that contracts can leave about the account are the links of a trail in the
sense of `UndoJournal`; undoing them leads the standing back.  So a state that `Extends` another
one may be taken back to a snapshot in between, and still extends it.

Main results:

* `StateDB.Extends.step`, `StateDB.Kept.run` — **what the operations do to the standing of an
  account**.
-/

import GoHpb.StateSteps

open UndoJournal JournalEntry List StateObject

/-- Whether an entry is about the nonce of `S`. -/
def JournalEntry.isNonceChange (S : Address) : JournalEntry → Bool
  | nonceChange account _ => account = S
  | _ => false

theorem JournalEntry.isNonceChange_eq_false {S : Address} {e : JournalEntry}
    (h : e.account ≠ some S) : e.isNonceChange S = false := by
  cases e with
  | nonceChange account prev =>
    have hne : account ≠ S := fun heq => h (by rw [heq]; rfl)
    simpa [isNonceChange] using hne
  | _ => rfl

namespace StateDB

variable {S a : Address} {st st' : StateDB} {obj : StateObject}

/-! ### Recorded accounts -/

/-- Every change of the live object of `S` is known: either it was not changed since it was loaded
from the trie, or the account is marked dirty. -/
def Recorded (S : Address) (st : StateDB) : Prop :=
  ∀ obj, st.stateObjects.lookup S = some obj →
    (obj.onDirty = true → st.trie.lookup S = some obj.data) ∧
      (obj.onDirty = false → S ∈ st.stateObjectsDirty)

theorem Recorded.of_local {o : Option Address} (h : Recorded S st) (hl : Local o st st')
    (ho : o ≠ some S) : Recorded S st' := by
  intro obj hobj
  rw [hl.objects S ho] at hobj
  rw [hl.trie, hl.dirty S ho]
  exact h obj hobj

theorem Recorded.load (h : Recorded S st) : Recorded S (st.load a) := by
  by_cases hS : some a ≠ some S
  · exact h.of_local (Local.load st a) hS
  obtain rfl : a = S := by simpa using hS
  rcases load_cases st a with hsame | ⟨-, data, hdata, hsame⟩ <;> rw [hsame]
  · exact h
  -- the object was just loaded, so it agrees with the trie
  intro obj hobj
  obtain rfl : newObject data = obj := by
    simpa [setStateObject, Finmap.lookup_insert] using hobj
  exact ⟨fun _ => hdata, fun hfalse => by simp [newObject] at hfalse⟩

theorem Recorded.update_self (h : obj.onDirty = false → S ∈ st.stateObjectsDirty) :
    Recorded S (st.update S obj) := by
  intro found hfound
  obtain rfl : { obj with onDirty := false } = found := by
    simpa [update, Finmap.lookup_insert] using hfound
  by_cases hd : obj.onDirty = true
  · simp [update, hd]
  · simpa [update, hd] using h (by simpa using hd)

theorem Recorded.mem_dirty (h : Recorded S st) (hlive : st.live S = some obj)
    (hd : obj.onDirty = false) : S ∈ st.stateObjectsDirty := by
  have hload := (h.load (a := S)) obj (lookup_load_self hlive).1
  simpa using hload.2 hd

theorem Recorded.update_live {obj' : StateObject} (hr : Recorded S st)
    (hlive : st.live S = some obj) (hdirty : obj'.onDirty = obj.onDirty) :
    Recorded S ((st.load S).update S obj') := by
  refine Recorded.update_self fun hd => ?_
  simpa using hr.mem_dirty hlive (hdirty ▸ hd)

/-- The identifiers of the revisions are below the next one. -/
def RevisionsOk (st : StateDB) : Prop := ∀ r ∈ st.validRevisions, r.id < st.nextRevisionId

end StateDB

variable [Crypto]

/-! ### Standings -/

/-- What decides about the nonce of an account. -/
structure Standing where
  nonce : UInt64
  codeHash : Hash
  /-- the code an object holds although its hash is that of the empty code -/
  code : Bytes
  /-- whether an account without code is marked as suicided -/
  suicided : Bool

def StateObject.standing (obj : StateObject) : Standing where
  nonce := obj.data.nonce
  codeHash := obj.data.codeHash
  code := if obj.data.codeHash = emptyCodeHash then obj.code.getD [] else []
  suicided := decide (obj.data.codeHash = emptyCodeHash) && obj.suicided

/-- The standing of the account at an address, if there is one. -/
def StateDB.standing (st : StateDB) (a : Address) : Option Standing :=
  (st.live a).map StateObject.standing

/-- `Link S v e w`: a contract's change that leaves the entry `e` behind may lead the standing of
the account `S` from `v` to `w`.  The code of an account runs only if it has some, so an account
without code neither creates contracts nor destroys itself. -/
inductive Link (S : Address) : Option Standing → JournalEntry → Option Standing → Prop
  | other {v : Option Standing} {e : JournalEntry} : e.account ≠ some S → Link S v e v
  | balance {v : Option Standing} {prev : ℤ} : Link S v (.balanceChange S prev) v
  | storage {v : Option Standing} {key prevalue : Hash} :
      Link S v (.storageChange S key prevalue) v
  | suicide {p : Standing} {prev : Bool} {prevbalance : ℤ} : p.codeHash ≠ emptyCodeHash →
      Link S (some p) (.suicideChange S prev prevbalance) (some p)
  | nonce {p : Standing} : p.codeHash ≠ emptyCodeHash →
      Link S (some p) (.nonceChange S p.nonce) (some { p with nonce := p.nonce + 1 })

section Trails

variable {S : Address} {v w : Option Standing} {es : List JournalEntry}

theorem trail_of_other (h : ∀ e ∈ es, e.account ≠ some S) : Trail (Link S) v es v := by
  induction es using List.reverseRecOn with
  | nil => exact .nil v
  | append_singleton es e ih =>
    refine .snoc (ih fun e he => h e (mem_append_left _ he)) (.other ?_)
    exact h e (by simp)

/-- **The nonce counts the links that increase it**, and there are none without code. -/
theorem trail_nonce {p : Standing} (h : Trail (Link S) (some p) es w) : w = some { p with
      nonce := p.nonce + UInt64.ofNat (es.countP (JournalEntry.isNonceChange S)) } ∧
      (p.codeHash = emptyCodeHash → es.countP (JournalEntry.isNonceChange S) = 0) := by
  induction h with
  | nil => simp
  | @snoc v w es e _ hlink ih =>
    have hkeep : e.isNonceChange S = false → (es ++ [e]).countP (isNonceChange S) =
          es.countP (isNonceChange S) := by
      intro hfalse
      simp [countP_append, hfalse]
    cases hlink with
    | other hother =>
      rw [hkeep (isNonceChange_eq_false hother)]
      exact ih
    | balance | storage | suicide _ =>
      rw [hkeep rfl]
      exact ih
    | nonce hcode =>
      obtain rfl := Option.some.inj ih.1
      refine ⟨?_, fun hempty => absurd hempty hcode⟩
      simp [isNonceChange, countP_append, add_assoc]

end Trails

namespace StateDB

variable {S a : Address} {st st' st'' : StateDB} {obj obj' : StateObject}

theorem standing_eq_some (h : st.live a = some obj) : st.standing a = some obj.standing := by
  rw [standing, h]
  rfl

theorem standing_congr (hobjects : st'.stateObjects = st.stateObjects)
    (htrie : st'.trie = st.trie) : st'.standing a = st.standing a := by
  rw [standing, standing, live_eq, live_eq, hobjects, htrie]

@[simp] theorem standing_load : (st.load a).standing S = st.standing S := by
  rw [standing, live_load, standing]

theorem standing_update_self (h : obj.deleted = false) :
    (st.update a obj).standing a = some obj.standing := by
  rw [standing_eq_some (live_update_self h)]
  rfl

/-! ### Extensions -/

/-- `st'` is reached from `st` by changes that keep what is in the journal and in the list of
revisions, and change the standing of `S` by links only. -/
structure Extends (S : Address) (st st' : StateDB) : Prop where
  journal : ∃ es, st'.journal = st.journal ++ es ∧
    Trail (Link S) (st.standing S) es (st'.standing S)
  revisions : ∃ rs, st'.validRevisions = st.validRevisions ++ rs ∧
    ∀ r ∈ rs, st.nextRevisionId ≤ r.id ∧ r.id < st'.nextRevisionId
  nextId : st.nextRevisionId ≤ st'.nextRevisionId
  recorded : Recorded S st → Recorded S st'

namespace Extends

theorem refl (S : Address) (st : StateDB) : Extends S st st :=
  ⟨⟨[], by simp, .nil _⟩, ⟨[], by simp, by simp⟩, le_rfl, id⟩

theorem trans (h : Extends S st st') (h' : Extends S st' st'') : Extends S st st'' := by
  obtain ⟨es, hes, htrail⟩ := h.journal
  obtain ⟨fs, hfs, htrail'⟩ := h'.journal
  obtain ⟨rs, hrs, hids⟩ := h.revisions
  obtain ⟨qs, hqs, hids'⟩ := h'.revisions
  refine ⟨⟨es ++ fs, by rw [hfs, hes, append_assoc], htrail.trans htrail'⟩,
    ⟨rs ++ qs, by rw [hqs, hrs, append_assoc], ?_⟩, h.nextId.trans h'.nextId,
    fun hr => h'.recorded (h.recorded hr)⟩
  intro r hr
  rcases mem_append.1 hr with hr | hr
  · exact ⟨(hids r hr).1, (hids r hr).2.trans_le h'.nextId⟩
  · exact ⟨h.nextId.trans (hids' r hr).1, (hids' r hr).2⟩

theorem revisionsOk (h : Extends S st st') (hrev : RevisionsOk st) : RevisionsOk st' := by
  obtain ⟨rs, hrs, hids⟩ := h.revisions
  intro r hr
  rw [hrs] at hr
  rcases mem_append.1 hr with hr | hr
  · exact (hrev r hr).trans_le h.nextId
  · exact (hids r hr).2

theorem of_local {o : Option Address} (h : Local o st st') (ho : o ≠ some S) :
    Extends S st st' := by
  obtain ⟨es, hes, habout⟩ := h.journal
  have hother : ∀ e ∈ es, e.account ≠ some S := by
    intro e he heq
    rcases habout e he with hnone | hsome
    · rw [hnone] at heq
      cases heq
    · exact ho (hsome ▸ heq)
  have hstanding : st'.standing S = st.standing S := by
    rw [standing, h.live ho, standing]
  exact ⟨⟨es, hes, hstanding ▸ trail_of_other hother⟩, ⟨[], by simp [h.revisions], by simp⟩,
    h.nextId.ge, fun hr => hr.of_local h ho⟩

theorem of_self (h : Local (some S) st st') (hjournal : st'.journal = st.journal)
    (hstanding : st'.standing S = st.standing S) (hrec : Recorded S st → Recorded S st') :
    Extends S st st' :=
  ⟨⟨[], by simp [hjournal], hstanding ▸ .nil _⟩, ⟨[], by simp [h.revisions], by simp⟩,
    h.nextId.ge, hrec⟩

theorem load (st : StateDB) (a : Address) : Extends S st (st.load a) := by
  by_cases hS : some a ≠ some S
  · exact of_local (Local.load st a) hS
  · obtain rfl : a = S := by simpa using hS
    exact of_self (Local.load st a) journal_load standing_load Recorded.load

theorem cache (hlive : st.live a = some obj) (hstanding : obj'.standing = obj.standing)
    (hdata : obj'.data = obj.data) (hdeleted : obj'.deleted = obj.deleted)
    (hdirty : obj'.onDirty = obj.onDirty) : Extends S st ((st.load a).setStateObject a obj') := by
  have hl := (Local.load st a).trans (Local.setStateObject _ a obj')
  by_cases hS : some a ≠ some S
  · exact of_local hl hS
  obtain rfl : a = S := by simpa using hS
  obtain ⟨hlook, hdel⟩ := lookup_load_self hlive
  refine of_self hl journal_load ?_ fun hr found hfound => ?_
  · rw [standing_eq_some (live_setStateObject_self (hdeleted.trans hdel)), hstanding,
      standing_eq_some hlive]
  obtain rfl : obj' = found := by
    simpa [setStateObject, Finmap.lookup_insert] using hfound
  rw [hdirty, hdata]
  exact (hr.load (a := a)) obj hlook

theorem change_self {e : JournalEntry} (hlive : st.live S = some obj)
    (hlink : Link S (some obj.standing) e (some obj'.standing))
    (hdeleted : obj'.deleted = obj.deleted) (hdirty : obj'.onDirty = obj.onDirty) :
    Extends S st (((st.load S).record e).update S obj') := by
  obtain ⟨hlook, hdel⟩ := lookup_load_self hlive
  refine ⟨⟨[e], by simp [update, record], ?_⟩, ⟨[], by simp [update, record], by simp⟩,
    by simp [update, record], fun hr => Recorded.update_self fun hd => ?_⟩
  · rw [standing_eq_some hlive, standing_update_self (hdeleted.trans hdel)]
    exact Trail.single hlink
  · simpa [record] using hr.mem_dirty hlive (hdirty ▸ hd)

end Extends

/-! ### Safe accounts -/

/-- A creation cannot take the place of the account: it has code, or its nonce is not zero.  The
collision check takes the zero hash for that of a missing account. -/
def Safe (S : Address) (H : Hash) (st : StateDB) : Prop :=
  ∃ p, st.standing S = some p ∧ p.codeHash = H ∧ p.code = [] ∧
    ((H ≠ emptyCodeHash ∧ H ≠ FixedBytes.zero 32) ∨ (H = emptyCodeHash ∧ p.nonce ≠ 0))

variable {H : Hash}

theorem Safe.live (h : Safe S H st) : ∃ obj, st.live S = some obj ∧ obj.data.codeHash = H ∧
      (H = emptyCodeHash → obj.code.getD [] = []) ∧ obj.empty = false := by
  obtain ⟨p, hp, rfl, hcode, hguard⟩ := h
  obtain ⟨obj, hobj, rfl⟩ := Option.map_eq_some_iff.1 hp
  refine ⟨obj, hobj, rfl, fun hempty => ?_, ?_⟩
  · have hhash : obj.data.codeHash = emptyCodeHash := hempty
    simpa [StateObject.standing, hhash] using hcode
  rcases hguard with ⟨hguard, -⟩ | ⟨-, hguard⟩
  · have hhash : ¬ obj.data.codeHash = emptyCodeHash := hguard
    simp [StateObject.empty, hhash]
  · have hnonce : ¬ obj.data.nonce = 0 := hguard
    simp [StateObject.empty, hnonce]

theorem Safe.isSome (h : Safe S H st) : (st.live S).isSome := by
  obtain ⟨obj, hobj, -⟩ := h.live
  simp [hobj]

theorem Safe.collision (h : Safe S H st) : (st.getNonce S).1 ≠ 0 ∨
      ((st.getCodeHash S).1 ≠ FixedBytes.zero 32 ∧ (st.getCodeHash S).1 ≠ emptyCodeHash) := by
  obtain ⟨p, hp, rfl, -, hguard⟩ := h
  obtain ⟨obj, hobj, rfl⟩ := Option.map_eq_some_iff.1 hp
  simp only [getNonce, getCodeHash, hobj, Option.map_some, Option.getD_some]
  rcases hguard with ⟨hguard, hzero⟩ | ⟨-, hguard⟩
  · exact .inr ⟨hzero, hguard⟩
  · exact .inl hguard

theorem Safe.of_extends (h : Safe S H st) (hext : Extends S st st') : Safe S H st' := by
  obtain ⟨p, hp, hhash, hcode, hguard⟩ := h
  obtain ⟨es, -, htrail⟩ := hext.journal
  rw [hp] at htrail
  obtain ⟨hstanding, hnone⟩ := trail_nonce htrail
  refine ⟨_, hstanding, hhash, hcode, ?_⟩
  rcases hguard with hguard | ⟨hempty, hguard⟩
  · exact .inl hguard
  -- without code the nonce has not moved
  refine .inr ⟨hempty, ?_⟩
  rw [hnone (hhash.trans hempty)]
  simpa using hguard

/-- `st` is reached from `st₀`, and the account is still safe. -/
structure Kept (S : Address) (H : Hash) (st₀ st : StateDB) : Prop where
  ext : Extends S st₀ st
  safe : Safe S H st
  revisionsOk : RevisionsOk st

theorem Kept.refl (hsafe : Safe S H st) (hrev : RevisionsOk st) : Kept S H st st :=
  ⟨Extends.refl S st, hsafe, hrev⟩

theorem Kept.extend (h : Kept S H st st') (hext : Extends S st' st'') : Kept S H st st'' :=
  ⟨h.ext.trans hext, h.safe.of_extends hext, hext.revisionsOk h.revisionsOk⟩

end StateDB

/-! ### The operations -/

namespace StateObject

variable {obj : StateObject}

theorem standing_cacheState (key : Hash) : (obj.cacheState key).standing = obj.standing := by
  rw [cacheState_eq]
  rfl

theorem standing_readCode (codes : Finmap fun _ : Hash => Bytes) :
    (obj.readCode codes).standing = obj.standing := by
  by_cases hempty : obj.data.codeHash = emptyCodeHash
  · have hsame : obj.readCode codes = obj := by
      unfold readCode
      split
      · rfl
      · rw [if_pos hempty]
    rw [hsame]
  · rw [readCode_eq]
    simp [standing, hempty]

end StateObject

namespace StateDB

variable {S a : Address} {st st' st'' : StateDB} {obj obj' : StateObject} {H : Hash}

/-- What a contract may do about an account: its code runs only if it has some, and a creation does
not take its place. -/
abbrev Permits (S : Address) (H : Hash) : StateOp → Prop :=
  StateOp.Permitted (fun a => a = S → H ≠ emptyCodeHash) fun a => a ≠ S

namespace Extends

/-- **What a step of a contract does to the standing of a safe account.**  The account is not empty,
so it is not touched. -/
theorem step {op : StateOp} (hop : Permits S H op) (h : Safe S H st) (hstep : Step op st st') :
    Extends S st st' := by
  cases hstep with
  | load a => exact load st a
  | @readCode a obj hlive _ =>
    refine cache hlive (standing_readCode st.codes) ?_ ?_ ?_ <;>
      rw [readCode_eq]
  | @cacheState a obj key hlive _ =>
    refine cache hlive (standing_cacheState key) ?_ ?_ ?_ <;>
      rw [cacheState_eq]
  | create a balance hnew =>
    refine of_local (Local.write account_creation _) fun heq => ?_
    obtain rfl := Option.some.inj heq
    rcases hnew with hnone | rfl
    · have hsome := h.isSome
      rw [hnone] at hsome
      cases hsome
    · exact hop rfl
  | @edit a obj obj' e hlive hedit =>
    by_cases hS : some a ≠ some S
    · exact of_local (Local.write hedit.flags.1 _) hS
    obtain rfl : a = S := by simpa using hS
    obtain ⟨found, hfound, hhash, -, hempty⟩ := h.live
    obtain rfl : found = obj := Option.some.inj (hfound.symm.trans hlive)
    refine change_self hlive ?_ hedit.flags.2.1 hedit.flags.2.2
    cases hedit with
    | balance amount => exact .balance
    | nonce nonce hset | code hset =>
      subst hset
      exact absurd rfl hop
    | storage key value _ =>
      have hstanding : ((found.cacheState key).setState key value).standing = found.standing :=
        standing_cacheState key
      rw [hstanding]
      exact .storage
    | suicide hset =>
      subst hset
      have hcode : ¬ found.data.codeHash = emptyCodeHash := hhash ▸ hop rfl
      have hstanding : StateObject.standing { found.setBalance 0 with suicided := true } =
          found.standing := by
        simp [StateObject.standing, StateObject.setBalance, hcode]
      rw [hstanding]
      exact .suicide hcode
    | touch htouch =>
      rw [hempty] at htouch
      cases htouch
  | @addRefund gas _ => exact of_local (o := none) (Local.addRefund st gas) nofun
  | addLog log _ => exact of_local (o := none) (Local.addLog st log) nofun
  | @addPreimage hash preimage _ _ =>
    exact of_local (o := none) (Local.addPreimage st hash preimage) nofun

theorem nextNonce (hcode : H ≠ emptyCodeHash) (h : Safe S H st) :
    Extends S st (st.setNonce S ((st.getNonce S).1 + 1)) := by
  obtain ⟨obj, hobj, rfl, -⟩ := h.live
  have hnonce : (st.getNonce S).1 = obj.data.nonce := by simp [StateDB.getNonce, hobj]
  rw [StateDB.setNonce, change_eq hobj, hnonce]
  have hlink : Link S (some obj.standing) (.nonceChange S obj.standing.nonce)
      (some { obj.standing with nonce := obj.standing.nonce + 1 }) := .nonce hcode
  exact change_self hobj hlink rfl rfl

end Extends

/-- **What a contract may do keeps the account safe.** -/
theorem Kept.run {op : StateOp} (h : Kept S H st st') (hop : Permits S H op)
    (hrun : op.run st' = some st'') : Kept S H st st'' :=
  StateOp.induction hop.direct hrun (fun ht hstep => ht.extend (Extends.step hop ht.safe hstep)) h

/-! ### Quiet changes -/

/-- A change that leaves the standing of `S` alone and no entry about its nonce.  Unlike the
changes of contracts it may touch an empty account. -/
structure Quiet (S : Address) (st₀ st : StateDB) : Prop where
  isSome : (st.live S).isSome
  standing : st.standing S = st₀.standing S
  journal : ∃ es, st.journal = st₀.journal ++ es ∧
    es.countP (JournalEntry.isNonceChange S) = 0
  revisions : st.validRevisions = st₀.validRevisions
  nextId : st.nextRevisionId = st₀.nextRevisionId
  recorded : Recorded S st₀ → Recorded S st

namespace Quiet

theorem refl (h : (st.live S).isSome) : Quiet S st st :=
  ⟨h, rfl, ⟨[], by simp, rfl⟩, rfl, rfl, id⟩

theorem trans (h : Quiet S st st') (h' : Quiet S st' st'') : Quiet S st st'' := by
  obtain ⟨es, hes, hcount⟩ := h.journal
  obtain ⟨fs, hfs, hcount'⟩ := h'.journal
  exact ⟨h'.isSome, h'.standing.trans h.standing,
    ⟨es ++ fs, by rw [hfs, hes, append_assoc], by rw [countP_append, hcount, hcount']⟩,
    h'.revisions.trans h.revisions, h'.nextId.trans h.nextId,
    fun hr => h'.recorded (h.recorded hr)⟩

theorem of_local {o : Option Address} (hsome : (st.live S).isSome) (h : Local o st st')
    (ho : o ≠ some S) : Quiet S st st' := by
  obtain ⟨es, hes, habout⟩ := h.journal
  have hlive := h.live ho
  refine ⟨hlive ▸ hsome, by rw [StateDB.standing, hlive, StateDB.standing],
    ⟨es, hes, ?_⟩, h.revisions, h.nextId, fun hr => hr.of_local h ho⟩
  refine countP_eq_zero.2 fun e he => ?_
  rw [isNonceChange_eq_false]
  · exact Bool.false_ne_true
  intro heq
  rcases habout e he with hnone | hsome
  · rw [hnone] at heq
    cases heq
  · exact ho (hsome ▸ heq)

theorem load (hsome : (st.live S).isSome) (a : Address) : Quiet S st (st.load a) :=
  ⟨by simpa using hsome, standing_load, ⟨[], by simp, rfl⟩, validRevisions_load,
    nextRevisionId_load, Recorded.load⟩

theorem change_self {e : JournalEntry} (hlive : st.live S = some obj)
    (he : e.isNonceChange S = false) (hstanding : obj'.standing = obj.standing)
    (hdeleted : obj'.deleted = obj.deleted) (hdirty : obj'.onDirty = obj.onDirty) :
    Quiet S st (((st.load S).record e).update S obj') := by
  obtain ⟨hlook, hdel⟩ := lookup_load_self hlive
  refine ⟨?_, ?_, ⟨[e], by simp [update, record], by simp [he]⟩, by simp [update, record],
    by simp [update, record], fun hr => Recorded.update_self fun hd => ?_⟩
  · rw [live_update_self (hdeleted.trans hdel)]
    rfl
  · rw [standing_eq_some hlive, standing_update_self (hdeleted.trans hdel), hstanding]
  · simpa [record] using hr.mem_dirty hlive (hdirty ▸ hd)

theorem step {op : StateOp} (hop : op.Payment fun a => a ≠ S) (h : (st.live S).isSome)
    (hstep : Step op st st') : Quiet S st st' := by
  cases hstep with
  | load a => exact load h a
  | create a balance hnew =>
    refine of_local h (Local.write account_creation _) fun heq => ?_
    obtain rfl := Option.some.inj heq
    rcases hnew with hnone | rfl
    · rw [hnone] at h
      cases h
    · exact hop rfl
  | @edit a obj obj' e hlive hedit =>
    by_cases hS : some a ≠ some S
    · exact of_local h (Local.write hedit.flags.1 _) hS
    obtain rfl : a = S := by simpa using hS
    cases hedit with
    | balance amount | touch htouch => exact change_self hlive rfl rfl rfl rfl
    | _ =>
      -- the work of an operation that is none of a payment
      subst_vars
      exact absurd hop id
  | _ =>
    subst_vars
    exact absurd hop id

/-- **Payments are quiet.** -/
theorem run {op : StateOp} (h : Quiet S st st') (hop : op.Payment fun a => a ≠ S)
    (hrun : op.run st' = some st'') : Quiet S st st'' := by
  have hpermitted : op.Permitted (fun _ => True) fun a => a ≠ S := hop.permitted
  exact StateOp.induction hpermitted.direct hrun
    (fun ht hstep => ht.trans (Quiet.step hop ht.isSome hstep)) h

end Quiet

/-! ### Going back -/

/-- **Every entry undoes its own links.** -/
theorem Link.undo {v : Option Standing} {e : JournalEntry} (h : Link S v e (st.standing S))
    (hundo : e.undo st = some st') : st'.standing S = v ∧ (Recorded S st → Recorded S st') := by
  generalize hw : st.standing S = w at h
  cases h with
  | other hother =>
    have hl := Local.undo hundo
    exact ⟨by rw [standing, hl.live hother, ← hw, standing], fun hr => hr.of_local hl hother⟩
  | @balance _ prev =>
    obtain ⟨obj, hobj, rfl⟩ := Option.map_eq_some_iff.1 hundo
    have hdel : (obj.setBalance prev).deleted = false := (lookup_load_self hobj).2
    refine ⟨?_, fun hr => hr.update_live hobj rfl⟩
    rw [standing_update_self hdel, ← hw, standing_eq_some hobj]
    rfl
  | @storage _ key prevalue =>
    obtain ⟨obj, hobj, rfl⟩ := Option.map_eq_some_iff.1 hundo
    have hdel : (obj.setState key prevalue).deleted = false := (lookup_load_self hobj).2
    refine ⟨?_, fun hr => hr.update_live hobj rfl⟩
    rw [standing_update_self hdel, ← hw, standing_eq_some hobj]
    rfl
  | @suicide p prev prevbalance hcode =>
    obtain ⟨obj, hobj, rfl⟩ := Option.map_eq_some_iff.1 hw
    have hdel : StateObject.deleted { obj.setBalance prevbalance with suicided := prev } =
        false := (lookup_load_self hobj).2
    have hhash : ¬ obj.data.codeHash = emptyCodeHash := hcode
    simp only [JournalEntry.undo, hobj, Option.some.injEq] at hundo
    subst hundo
    refine ⟨?_, fun hr => hr.update_live hobj rfl⟩
    rw [standing_update_self hdel]
    simp [StateObject.standing, StateObject.setBalance, hhash]
  | @nonce p hcode =>
    obtain ⟨obj, hobj, rfl⟩ := Option.map_eq_some_iff.1 hundo
    have hdel : (obj.setNonce p.nonce).deleted = false := (lookup_load_self hobj).2
    refine ⟨?_, fun hr => hr.update_live hobj rfl⟩
    rw [standing_eq_some hobj, Option.some.injEq] at hw
    -- apart from the nonce the standing is the one before the change
    have hp : (obj.setNonce p.nonce).standing = { obj.standing with nonce := p.nonce } := rfl
    rw [standing_update_self hdel, hp, hw]

theorem standing_snapshot : st.snapshot.2.standing S = st.standing S := standing_congr rfl rfl

theorem Extends.snapshot (st : StateDB) : Extends S st st.snapshot.2 :=
  ⟨⟨[], by simp [StateDB.snapshot], standing_snapshot ▸ .nil _⟩,
    ⟨_, rfl, by simp [StateDB.snapshot]⟩, by simp [StateDB.snapshot], id⟩

/-- **Going back to a snapshot** leads to a state that extends the one in which it was taken. -/
theorem Extends.revert (hrev : RevisionsOk st) (h : Extends S st.snapshot.2 st')
    (hback : st'.revertToSnapshot st.snapshot.1 = some st'') : Extends S st st'' := by
  obtain ⟨es, hes, htrail⟩ := h.journal
  obtain ⟨rs, hrs, hids⟩ := h.revisions
  have hjournal : st'.journal = st.journal ++ es := hes
  have hvalid : st'.validRevisions =
      st.validRevisions ++ ⟨st.nextRevisionId, st.journal.length⟩ :: rs := by
    simpa [StateDB.snapshot] using hrs
  have hnew : ∀ r ∈ rs, st.nextRevisionId ≤ r.id := by
    intro r hr
    have hle : st.nextRevisionId + 1 ≤ r.id := (hids r hr).1
    omega
  have hfind : findRevision st'.validRevisions st.snapshot.1 =
      some (st.validRevisions.length, st.journal.length) := by
    rw [hvalid]
    exact findRevision_eq (r := ⟨st.nextRevisionId, st.journal.length⟩) hrev hnew
  rw [revertToSnapshot, hfind] at hback
  obtain ⟨t, ht, rfl⟩ := Option.map_eq_some_iff.1 hback
  rw [hjournal, drop_left] at ht
  -- undoing the entries above the snapshot leads the standing back, and leaves the rest to the end
  obtain ⟨hstanding, hsame, hsame', hnext, hrecorded⟩ := htrail.view_undoAll (fun t => t.standing S)
    (fun t => t.journal = st'.journal ∧ t.validRevisions = st'.validRevisions ∧
      t.nextRevisionId = st'.nextRevisionId ∧ (Recorded S st' → Recorded S t))
    (fun {v e s s'} hlink hundo hP => by
      obtain ⟨hstanding, hrec⟩ := Link.undo hlink hundo
      have hl := Local.undo hundo
      exact ⟨hstanding, (journal_undo hundo).trans hP.1, hl.revisions.trans hP.2.1,
        hl.nextId.trans hP.2.2.1, fun hr => hrec (hP.2.2.2 hr)⟩)
    rfl ⟨rfl, rfl, rfl, id⟩ ht
  have hstanding' : t.standing S = st.standing S := hstanding.trans standing_snapshot
  refine ⟨⟨[], ?_, ?_⟩, ⟨[], ?_, by simp⟩, ?_, fun hr => ?_⟩
  · simp only [hsame, hjournal, take_left, append_nil]
  · have hlast : StateDB.standing { t with
        journal := t.journal.take st.journal.length
        validRevisions := t.validRevisions.take st.validRevisions.length } S = t.standing S :=
      standing_congr rfl rfl
    rw [hlast, hstanding']
    exact .nil _
  · simp only [hsame', hvalid, take_left, append_nil]
  · have hle : st.nextRevisionId + 1 ≤ st'.nextRevisionId := h.nextId
    rw [hnext]
    omega
  · exact hrecorded (h.recorded hr)

end StateDB
