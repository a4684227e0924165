/-
**Committing, and committing again.**

After `CommitTo`, a state opened at the new root should show every account as the old one does, up
to the accounts that were removed: the destroyed ones, and the empty ones if they are to be deleted.
It does so as long as every account is *prepared*: it is marked as dirty, or it is destroyed, or its
callback is still set and the trie already has it as it is seen.  A state that was just opened is
prepared, and writes keep it so; hence the first commit loses nothing.

`CommitTo` clears the marks but not the callbacks that were used up.  After a commit, the state is
prepared exactly if no account was ever written to; otherwise a further write to that account is
seen, but not marked, and the second commit loses it.

Main results:

* `StateDB.Prepared.move` — **writes keep a state prepared**;
* `commit_repeat_iff` — **exactly the prepared states are committed without loss, and after a commit
  exactly those in which no callback was used up**.
-/

import GoHpb.CodeStore

open UndoJournal Relation StateDB Finmap

/-! ### What is read of an account -/

/-- Two views of an account with the same balance, nonce, code and storage. -/
structure SameReads (x y : AccountView) : Prop where
  balance : y.balance = x.balance
  nonce : y.nonce = x.nonce
  code : y.code = x.code
  storage : ∀ key, y.storage key = x.storage key

namespace SameReads

variable {x y z : AccountView}

theorem refl (x : AccountView) : SameReads x x := ⟨rfl, rfl, rfl, fun _ => rfl⟩

end SameReads

section Commits

variable [Crypto]

namespace StateDB

/-- An account has the same balance, nonce, code and storage in both states. -/
structure SameAccount (st st' : StateDB) (a : Address) : Prop where
  balance : (st'.getBalance a).1 = (st.getBalance a).1
  nonce : (st'.getNonce a).1 = (st.getNonce a).1
  code : (st'.getCode a).1 = (st.getCode a).1
  storage : ∀ key, (st'.getState a key).1 = (st.getState a key).1

variable {pool : Set Bytes} {st st' : StateDB} {a b : Address} {obj obj' : StateObject} {d : Bool}

theorem sameAccount_iff : SameAccount st st' a ↔ SameReads (st.view.get a) (st'.view.get a) := by
  constructor
  · intro h
    refine ⟨?_, ?_, ?_, fun key => ?_⟩
    · rw [← getBalance_eq, ← getBalance_eq, h.balance]
    · rw [← getNonce_eq, ← getNonce_eq, h.nonce]
    · rw [← getCode_eq, ← getCode_eq, h.code]
    · rw [← getState_eq, ← getState_eq, h.storage]
  · intro h
    refine ⟨?_, ?_, ?_, fun key => ?_⟩
    · rw [getBalance_eq, getBalance_eq, h.balance]
    · rw [getNonce_eq, getNonce_eq, h.nonce]
    · rw [getCode_eq, getCode_eq, h.code]
    · rw [getState_eq, getState_eq, h.storage]

/-- The state that is opened at the root of a commit. -/
def reopened (st : StateDB) (d : Bool) : StateDB :=
  StateDB.new (st.commitTo d).trie (st.commitTo d).codes

/-- A state opened at the root of a commit shows every account as before, or the account was
destroyed or empty and is removed. -/
def Reopens (d : Bool) (st : StateDB) : Prop :=
  ∀ a, SameAccount st (st.reopened d) a ∨
    ((st.reopened d).exist a).1 = false ∧
      ((st.hasSuicided a).1 = true ∨ d = true ∧ (st.empty a).1 = true)

/-- Whatever is written, a commit loses nothing. -/
def Lossless (pool : Set Bytes) (d : Bool) (st : StateDB) : Prop :=
  ∀ ops t, (∀ op ∈ ops, op.Direct ∧ op.Within pool) → runOps st ops = some t → t.Reopens d

/-- What the trie has of an account. -/
def trieView (st : StateDB) (a : Address) : AccountView :=
  ((st.trie.lookup a).map fun data => (newObject data).view st.codes).getD AccountView.fresh

/-- The trie has an account as it is seen, or the account is empty and may be missing. -/
def TrieReads (d : Bool) (st : StateDB) (a : Address) (obj : StateObject) : Prop :=
  SameReads (obj.view st.codes) (st.trieView a) ∨
    st.trie.lookup a = none ∧ d = true ∧ obj.empty = true

/-- Every account is marked, or destroyed, or in the trie as it is seen with its callback still set;
and what a commit leaves of a hidden account reads as a missing one. -/
structure Prepared (d : Bool) (st : StateDB) : Prop where
  live : ∀ {a obj}, st.live a = some obj → a ∈ st.stateObjectsDirty ∨ obj.suicided = true ∨
    (obj.onDirty = true ∧ st.TrieReads d a obj)
  gone : ∀ {a data}, st.live a = none → st.commitAt d a = some data →
    SameReads AccountView.fresh ((newObject data).view st.codes)

/-! ### Writes keep a state prepared -/

theorem TrieReads.congr (h : st.TrieReads d a obj) (hview : obj'.view st.codes = obj.view st.codes)
    (hcodes : st'.codes = st.codes) (htrie : st'.trie = st.trie) : st'.TrieReads d a obj' := by
  unfold TrieReads trieView
  rw [hcodes, htrie, hview, StateObject.empty_congr hview]
  exact h

theorem Prepared.confined {o : Option Address} (h : st.Prepared d) (hlocal : Local o st st')
    (hself : ∀ {a obj}, o = some a → st'.live a = some obj → a ∈ st'.stateObjectsDirty ∨
      obj.suicided = true ∨ (obj.onDirty = true ∧ st'.TrieReads d a obj))
    (hgone : ∀ {a}, o = some a → st'.live a = none → st.live a = none ∧
      st'.commitAt d a = st.commitAt d a) : st'.Prepared d := by
  refine ⟨fun {b obj} hlive => ?_, fun {b data} hlive hdata => ?_⟩
  · by_cases hb : o = some b
    · exact hself hb hlive
    rw [hlocal.live hb] at hlive
    rw [hlocal.dirty b hb]
    exact (h.live hlive).imp_right fun hrest =>
      hrest.imp_right fun ⟨harmed, hreads⟩ => ⟨harmed, hreads.congr rfl hlocal.codes hlocal.trie⟩
  · rw [hlocal.codes]
    by_cases hb : o = some b
    · obtain ⟨hlive', hcommit⟩ := hgone hb hlive
      exact h.gone hlive' (hcommit ▸ hdata)
    · refine h.gone ((hlocal.live hb).symm.trans hlive) (Eq.trans ?_ hdata)
      exact (commitAt_congr (hlocal.objects b hb) (hlocal.dirty b hb) (by rw [hlocal.trie])).symm

theorem Prepared.mem_dirty (h : st.Prepared d) (hlive : st.live a = some obj)
    (hflag : obj'.onDirty = obj.onDirty) {e : JournalEntry} :
    a ∈ (((st.load a).record e).update a obj').stateObjectsDirty ∨ obj.suicided = true := by
  have hload : ((st.load a).record e).stateObjectsDirty = st.stateObjectsDirty :=
    stateObjectsDirty_load
  rw [mem_dirty_update, hflag, hload]
  rcases h.live hlive with hdirty | hsuicided | ⟨harmed, -⟩
  · exact .inl (.inr hdirty)
  · exact .inr hsuicided
  · exact .inl (.inl harmed)

theorem Prepared.put {e : JournalEntry} (h : st.Prepared d) (he : e.account = some a)
    (hkept : obj'.deleted = false)
    (hmarked : a ∈ (((st.load a).record e).update a obj').stateObjectsDirty ∨
      obj'.suicided = true) : (((st.load a).record e).update a obj').Prepared d := by
  refine h.confined (Local.write he obj') ?_ ?_
  · rintro _ found ⟨⟩ hfound
    rw [live_update_self hkept] at hfound
    cases hfound
    exact hmarked.imp_right .inl
  · rintro _ ⟨⟩ hnone
    rw [live_update_self hkept] at hnone
    cases hnone

/-- **Writes keep a state prepared.** -/
theorem Prepared.move (h : st.Prepared d) (hmove : Move st st') : st'.Prepared d := by
  cases hmove with
  | load a =>
    refine h.confined (Local.load st a) ?_ ?_
    · rintro _ obj ⟨⟩ hlive
      rw [live_load] at hlive
      rw [stateObjectsDirty_load]
      exact (h.live hlive).imp_right fun hrest =>
        hrest.imp_right fun ⟨harmed, hreads⟩ => ⟨harmed, hreads.congr rfl codes_load trie_load⟩
    rintro _ ⟨⟩ hlive
    rw [live_load] at hlive
    refine ⟨hlive, ?_⟩
    -- nothing is found, and nothing is kept
    rcases load_cases st a with hsame | ⟨hnone, data, hdata, -⟩
    · rw [hsame]
    · rw [live_of_lookup_none hnone, hdata] at hlive
      cases hlive
  | @cache a obj obj' hlive hrewrites hview =>
    have hkept : obj'.deleted = false := hrewrites.deleted.trans (lookup_load_self hlive).2
    refine h.confined (Local.cache st a obj') ?_ ?_
    · rintro _ found ⟨⟩ hfound
      rw [live_setStateObject_self hkept] at hfound
      cases hfound
      change a ∈ (st.load a).stateObjectsDirty ∨ _
      rw [stateObjectsDirty_load, hrewrites.onDirty]
      exact (h.live hlive).imp_right fun hrest => hrest.imp hrewrites.suicided
        fun ⟨harmed, hreads⟩ => ⟨harmed, hreads.congr hview codes_load trie_load⟩
    · rintro _ ⟨⟩ hnone
      rw [live_setStateObject_self hkept] at hnone
      cases hnone
  | @create a obj hcoherent hdeleted harmed =>
    exact h.put account_creation hdeleted (.inl (mem_dirty_update.2 (.inl harmed)))
  | @write a obj obj' e hlive hrewrites hchange haccount =>
    refine h.put haccount (hrewrites.deleted.trans (lookup_load_self hlive).2) ?_
    exact (h.mem_dirty hlive hrewrites.onDirty).imp_right hrewrites.suicided
  | @touch a obj hlive hempty =>
    exact h.put rfl (lookup_load_self hlive).2 (h.mem_dirty hlive rfl)
  | @aside _ e hsame hjournal haccount =>
    refine h.confined (hsame.confined hjournal haccount) ?_ ?_
    · rintro a obj ⟨⟩
    · rintro a ⟨⟩

/-! ### A commit of a prepared state -/

/-- The states that are committed: well-formed, with every code under its digest, and complete. -/
structure Sound (pool : Set Bytes) (st : StateDB) : Prop where
  wf : st.Wf
  digested : st.Digested pool
  complete : st.Complete

theorem Sound.run (h : st.Sound pool) {op : StateOp} (hdirect : op.Direct) (hop : op.Within pool)
    (hrun : op.run st = some st') : st'.Sound pool :=
  ⟨h.wf.run hrun, h.digested.run hop hrun, h.complete.run hdirect hrun⟩

section

variable (hinj : Set.InjOn Crypto.keccak256 pool) (hempty : [] ∈ pool)

include hinj hempty

theorem codeOf_none {codes : Finmap fun _ : Hash => Bytes} {hash : Hash} {code : Bytes}
    (hcodes : ∀ hash code, codes.lookup hash = some code →
      hash = Crypto.keccak256 code ∧ code ∈ pool)
    (hhash : hash = Crypto.keccak256 code) (hcode : code ∈ pool) (hknown : codeKnown codes hash) :
    codeOf codes none hash = code := by
  unfold codeOf
  by_cases hzero : hash = emptyCodeHash
  · rw [if_pos hzero]
    exact hinj hempty hcode (hzero.symm.trans hhash)
  rw [if_neg hzero]
  obtain ⟨found, hfound⟩ := mem_iff.1 (hknown.resolve_left hzero)
  obtain ⟨hdigest, hpool⟩ := hcodes hash found hfound
  rw [hfound]
  exact hinj hpool hcode (hdigest.symm.trans hhash)

omit hempty in
theorem kept_commitTo (h : st.Digested pool) (d : Bool) : CodesKept st (st.commitTo d) :=
  (Committed.of_commitTo hinj h d).kept

variable (h : st.Sound pool) (hobj : st.stateObjects.lookup a = some obj)
include h hobj

omit hempty in
theorem known_commitTo
    (hstored : obj.Stored st.codes) (hdirty : a ∈ st.stateObjectsDirty)
    (hleft : st.commitAt d a ≠ none) : codeKnown (st.commitTo d).codes obj.data.codeHash := by
  cases hcode : obj.code with
  | none => exact (kept_commitTo hinj h.digested d).known (hstored (.inl hcode))
  | some code =>
    cases hset : obj.dirtyCode with
    | false => exact (kept_commitTo hinj h.digested d).known (hstored (.inr hset))
    | true =>
      have hmem : a ∈ sortedKeys st.stateObjects.keys := by
        rw [mem_sortedKeys, mem_keys]
        exact mem_iff.2 ⟨obj, hobj⟩
      exact .inr (mem_iff.2 ⟨code, (Committed.of_commitTo hinj h.digested d).stored a
        hmem obj code hobj hdirty hleft hcode hset⟩)

theorem codeOf_commitTo
    (hstored : obj.Stored st.codes) (hdirty : a ∈ st.stateObjectsDirty)
    (hleft : st.commitAt d a ≠ none) : codeOf (st.commitTo d).codes none obj.data.codeHash =
      codeOf st.codes obj.code obj.data.codeHash := by
  cases hcode : obj.code with
  | none =>
    exact (kept_commitTo hinj h.digested d).codeOf_eq fun _ => hstored (.inl hcode)
  | some code =>
    obtain ⟨hhash, hpool⟩ := h.digested.objects hobj code hcode
    exact codeOf_none hinj hempty (h.digested.commitTo hinj d).codes hhash hpool
      (known_commitTo hinj h hobj hstored hdirty hleft)

theorem sameReads_updateRoot
    (hstored : obj.Stored st.codes) (hdirty : a ∈ st.stateObjectsDirty)
    (hleft : st.commitAt d a ≠ none) :
    SameReads (obj.view st.codes) ((newObject obj.updateRoot.data).view (st.commitTo d).codes) := by
  have hshows := (h.wf.objects hobj).shows_updateRoot st.codes
  refine ⟨rfl, rfl, codeOf_commitTo hinj hempty h hobj hstored hdirty hleft, fun key => ?_⟩
  change (obj.updateRoot.data.root.lookup key).getD (FixedBytes.zero 32) = _
  rw [hshows.root key]
  split_ifs with hzero
  · exact hzero.symm
  · rfl

omit h hobj

variable {data : Account}

omit hempty in
theorem view_newObject_commitTo (h : st.Sound pool) (hknown : codeKnown st.codes data.codeHash) :
    (newObject data).view (st.commitTo d).codes = (newObject data).view st.codes := by
  have hcode : codeOf (st.commitTo d).codes none data.codeHash =
      codeOf st.codes none data.codeHash :=
    (kept_commitTo hinj h.digested d).codeOf_eq fun _ => hknown
  unfold StateObject.view
  congr 1

omit hinj hempty in
theorem account_reopened (st : StateDB) (d : Bool) (a : Address) : (st.reopened d).view.account a =
    ((st.commitTo d).trie.lookup a).map fun data =>
      (newObject data).view (st.commitTo d).codes := by
  rw [account_view, reopened, live_new, Option.map_map]
  rfl

omit hinj hempty in
theorem get_reopened (st : StateDB) (d : Bool) (a : Address) :
    (st.reopened d).view.get a = (st.commitTo d).trieView a := by
  rw [View.get, account_reopened]
  rfl

omit hinj hempty in
theorem get_view_of_live (h : st.live a = some obj) : st.view.get a = obj.view st.codes :=
  View.get_of_account (account_view_of_live h)

omit hinj hempty in
theorem get_view_of_none (h : st.live a = none) : st.view.get a = AccountView.fresh := by
  rw [View.get, account_view, h]
  rfl

omit hinj hempty in
theorem exist_reopened : ((st.reopened d).exist a).1 = ((st.commitTo d).trie.lookup a).isSome := by
  rw [exist_eq, account_reopened, Option.isSome_map]

omit hempty in
theorem trieView_commitTo (h : st.Sound pool) {left : Option Account}
    (hleft : (st.commitTo d).trie.lookup a = left)
    (hknown : ∀ data, left = some data → codeKnown st.codes data.codeHash) :
    (st.commitTo d).trieView a =
      (left.map fun data => (newObject data).view st.codes).getD AccountView.fresh := by
  rw [trieView, hleft]
  cases left with
  | none => rfl
  | some data => exact view_newObject_commitTo hinj h (hknown data rfl)

omit hinj hempty in
theorem known_of_gone (h : st.Sound pool) (hlive : st.live a = none)
    (hdata : st.commitAt d a = some data) : codeKnown st.codes data.codeHash := by
  unfold commitAt at hdata
  rcases of_live_none hlive with ⟨obj, hobj, hdeleted⟩ | ⟨hobj, hnone⟩
  · rw [hobj] at hdata
    simp only at hdata
    split_ifs at hdata with hdel hdirty
    · -- a hidden object that is written is empty
      have hdead := h.wf.dead hobj hdeleted
      have hnot : obj.suicided = false := by
        cases hs : obj.suicided
        · rfl
        · simp [hs] at hdel
      rw [hnot, Bool.false_or] at hdead
      have hhash : obj.data.codeHash = emptyCodeHash := by
        unfold StateObject.empty at hdead
        simp only [Bool.and_eq_true, decide_eq_true_eq] at hdead
        exact hdead.2
      cases hdata
      exact .inl hhash
    · exact h.complete.trie hdata hdirty
  · rw [hobj, hnone] at hdata
    cases hdata

omit hinj hempty in
theorem commitAt_of_clean (hlive : st.live a = some obj) (hclean : a ∉ st.stateObjectsDirty)
    (hsuicided : obj.suicided = false) : st.commitAt d a = st.trie.lookup a := by
  unfold commitAt
  rcases of_live hlive with ⟨hobj, -⟩ | ⟨hnone, -⟩
  · simp [hobj, hsuicided, hclean]
  · rw [hnone]

omit hinj hempty in
theorem lookup_of_live (hwf : st.Wf) (hlive : st.live a = some obj)
    (h : a ∈ st.stateObjectsDirty ∨ obj.suicided = true) : st.stateObjects.lookup a = some obj := by
  rcases h with hdirty | hsuicided
  · exact hwf.lookup_of_dirty hlive hdirty
  rcases of_live hlive with ⟨hobj, -⟩ | ⟨-, data, -, rfl⟩
  · exact hobj
  · cases hsuicided

/-- **A commit of a prepared state loses nothing.** -/
theorem Prepared.reopens (h : st.Prepared d) (hsound : st.Sound pool) : st.Reopens d := by
  intro a
  have htrie := lookup_commitTo hinj hsound.digested d a
  cases hlive : st.live a with
  | none =>
    refine .inl (sameAccount_iff.2 ?_)
    rw [get_view_of_none hlive, get_reopened,
      trieView_commitTo hinj hsound htrie fun data => known_of_gone hsound hlive]
    cases hdata : st.commitAt d a with
    | none => exact SameReads.refl _
    | some data => exact h.gone hlive hdata
  | some obj =>
    -- a removed account was destroyed or empty
    have hremoved : st.commitAt d a = none →
        obj.suicided = true ∨ d = true ∧ obj.empty = true → SameAccount st (st.reopened d) a ∨
          ((st.reopened d).exist a).1 = false ∧
            ((st.hasSuicided a).1 = true ∨ d = true ∧ (st.empty a).1 = true) := by
      intro hnone hwhy
      refine .inr ⟨by rw [exist_reopened, htrie, hnone]; rfl, ?_⟩
      simp only [hasSuicided, empty, hlive, Option.map_some, Option.getD_some]
      exact hwhy
    by_cases hdirty : a ∈ st.stateObjectsDirty
    · have hobj := lookup_of_live hsound.wf hlive (.inl hdirty)
      by_cases hdel : (obj.suicided || (decide (a ∈ st.stateObjectsDirty) && d && obj.empty)) = true
      · refine hremoved (by rw [commitAt, hobj]; exact if_pos hdel) ?_
        simp only [hdirty, decide_true, Bool.true_and, Bool.or_eq_true, Bool.and_eq_true] at hdel
        exact hdel
      have hcommit : st.commitAt d a = some obj.updateRoot.data := by
        rw [commitAt, hobj]
        simp only [if_neg hdel, if_pos hdirty]
      refine .inl (sameAccount_iff.2 ?_)
      rw [get_view_of_live hlive, get_reopened, trieView, htrie, hcommit]
      exact sameReads_updateRoot hinj hempty hsound hobj (hsound.complete.objects hlive) hdirty
        (by simp [hcommit])
    rcases h.live hlive with hmem | hsuicided | ⟨-, hreads⟩
    · exact absurd hmem hdirty
    · refine hremoved ?_ (.inl hsuicided)
      rw [commitAt, lookup_of_live hsound.wf hlive (.inr hsuicided)]
      simp [hsuicided]
    cases hsuicided : obj.suicided with
    | true =>
      refine hremoved ?_ (.inl hsuicided)
      rw [commitAt, lookup_of_live hsound.wf hlive (.inr hsuicided)]
      simp [hsuicided]
    | false =>
      have hcommit : st.commitAt d a = st.trie.lookup a :=
        commitAt_of_clean hlive hdirty hsuicided
      rcases hreads with hreads | ⟨hnone, hremove⟩
      · refine .inl (sameAccount_iff.2 ?_)
        rw [get_view_of_live hlive, get_reopened, trieView_commitTo hinj hsound
          (htrie.trans hcommit) fun data hdata => hsound.complete.trie hdata hdirty]
        exact hreads
      · exact hremoved (hcommit.trans hnone) (.inr hremove)

theorem Prepared.lossless (h : st.Prepared d) (hsound : st.Sound pool) : st.Lossless pool d := by
  intro ops t hops hrun
  have hkept : ∀ {u op u'}, op ∈ ops → u.Prepared d ∧ u.Sound pool → StateOp.run u op = some u' →
      u'.Prepared d ∧ u'.Sound pool := by
    rintro u op u' hop ⟨hprepared, hsound⟩ hstep
    obtain ⟨hdirect, hwithin⟩ := hops op hop
    exact ⟨StateOp.induction hdirect hstep (fun ht hstep => ht.move (Move.of_step hstep)) hprepared,
      hsound.run hdirect hwithin hstep⟩
  obtain ⟨hprepared, hsound'⟩ := foldlM_induction hkept ⟨h, hsound⟩ hrun
  exact hprepared.reopens hinj hempty hsound'

/-! ### The condition is exact -/

omit hempty in
/-- A write to an account whose callback is used up and that is not marked is lost. -/
theorem Lossless.armed (h : st.Lossless pool d) (hsound : st.Sound pool)
    (hlive : st.live a = some obj) (hclean : a ∉ st.stateObjectsDirty)
    (hsuicided : obj.suicided = false) : obj.onDirty = true := by
  by_contra hused
  -- whatever the balance is set to, the commit leaves the one of the trie
  have hbalance : ∀ amount : ℤ, amount ≠ 0 → amount = (st.trieView a).balance := by
    intro amount hamount
    have hdeleted := (lookup_load_self hlive).2
    have hrun : runOps st [.setBalance a amount] = some (st.setBalance a amount) := rfl
    have hwithin : (StateOp.setBalance a amount).Within pool := trivial
    have hdirect : (StateOp.setBalance a amount).Direct := trivial
    have hsound' : (st.setBalance a amount).Sound pool := hsound.run hdirect hwithin rfl
    have hstate : st.setBalance a amount = ((st.load a).record
        (.balanceChange a obj.data.balance)).update a (obj.setBalance amount) :=
      change_eq hlive
    have hlive' : (st.setBalance a amount).live a =
        some { obj.setBalance amount with onDirty := false } := by
      rw [hstate]
      exact live_update_self hdeleted
    have hclean' : a ∉ (st.setBalance a amount).stateObjectsDirty := by
      rw [hstate, mem_dirty_update]
      have hload : ((st.load a).record (.balanceChange a
          obj.data.balance)).stateObjectsDirty = st.stateObjectsDirty := stateObjectsDirty_load
      rw [hload]
      simp only [not_or]
      exact ⟨hused, hclean⟩
    have htrie' : (st.setBalance a amount).trie = st.trie := (Local.setBalance st a amount).trie
    have hcommit := lookup_commitTo hinj hsound'.digested d a
    rw [commitAt_of_clean hlive' hclean' hsuicided, htrie'] at hcommit
    rcases h _ _ (by simp [hwithin, hdirect]) hrun a with hsame | ⟨-, hwhy⟩
    · have hsame := (sameAccount_iff.1 hsame).balance
      rw [get_view_of_live hlive', get_reopened, trieView, hcommit] at hsame
      refine Eq.trans hsame.symm ?_
      unfold trieView
      cases st.trie.lookup a <;> rfl
    exfalso
    simp only [hasSuicided, empty, hlive', Option.map_some, Option.getD_some] at hwhy
    rcases hwhy with hwhy | ⟨-, hwhy⟩
    · have hkept : obj.suicided = true := hwhy
      rw [hsuicided] at hkept
      cases hkept
    · unfold StateObject.empty at hwhy
      simp only [Bool.and_eq_true, decide_eq_true_eq] at hwhy
      exact hamount hwhy.1.2
  have hone := hbalance 1 (by decide)
  have htwo := hbalance 2 (by decide)
  omega

omit hempty in
theorem Lossless.prepared (h : st.Lossless pool d) (hsound : st.Sound pool) : st.Prepared d := by
  have hreopens : st.Reopens d := h [] st (by simp) rfl
  refine ⟨fun {a obj} hlive => ?_, fun {a data} hlive hdata => ?_⟩
  · by_cases hdirty : a ∈ st.stateObjectsDirty
    · exact .inl hdirty
    cases hsuicided : obj.suicided with
    | true => exact .inr (.inl rfl)
    | false =>
      refine .inr (.inr ⟨h.armed hinj hsound hlive hdirty hsuicided, ?_⟩)
      have hcommit : (st.commitTo d).trie.lookup a = st.trie.lookup a :=
        (lookup_commitTo hinj hsound.digested d a).trans (commitAt_of_clean hlive hdirty hsuicided)
      rcases hreopens a with hsame | ⟨hgone, hwhy⟩
      · refine .inl ?_
        have hsame := sameAccount_iff.1 hsame
        rw [get_view_of_live hlive, get_reopened, trieView_commitTo hinj hsound hcommit
          fun data hdata => hsound.complete.trie hdata hdirty] at hsame
        exact hsame
      · refine .inr ⟨?_, ?_⟩
        · rw [exist_reopened, hcommit] at hgone
          exact Option.not_isSome_iff_eq_none.1 (by simp [hgone])
        simp only [hasSuicided, empty, hlive, Option.map_some,
          Option.getD_some, hsuicided] at hwhy
        exact hwhy.resolve_left (by simp)
  · have hcommit := (lookup_commitTo hinj hsound.digested d a).trans hdata
    rcases hreopens a with hsame | ⟨hgone, -⟩
    · have hsame := sameAccount_iff.1 hsame
      rw [get_view_of_none hlive, get_reopened, trieView, hcommit, Option.map_some,
        view_newObject_commitTo hinj hsound (known_of_gone hsound hlive hdata)] at hsame
      exact hsame
    · rw [exist_reopened, hcommit] at hgone
      cases hgone

/-! ### After a commit -/

omit hempty in
theorem not_mem_dirty_commitTo (hsound : st.Sound pool) :
    a ∉ (st.commitTo d).stateObjectsDirty := by
  intro hmem
  obtain ⟨hdirty, hnone⟩ := ((Committed.of_commitTo hinj hsound.digested d).dirty a).1 hmem
  obtain ⟨obj, hobj⟩ := hsound.wf.dirty a hdirty
  have hkeys : a ∈ sortedKeys st.stateObjects.keys := by
    rw [mem_sortedKeys, mem_keys]
    exact mem_iff.2 ⟨obj, hobj⟩
  rw [hnone hkeys] at hobj
  cases hobj

omit hempty in
theorem lookup_objects_commitTo (hsound : st.Sound pool) (a : Address) :
    (st.commitTo d).stateObjects.lookup a = (st.stateObjects.lookup a).map (st.committed d a) := by
  rw [(Committed.of_commitTo hinj hsound.digested d).objects a]
  split_ifs with ha
  · rfl
  rw [mem_sortedKeys, mem_keys] at ha
  rw [lookup_eq_none.2 ha]
  rfl

/-- What is found after a commit: an account of the trie that was not loaded, an object that was
written, or one that was left alone. -/
inductive AfterCommit (d : Bool) (st : StateDB) (a : Address) : StateObject → Prop
  | unloaded {data : Account} : st.stateObjects.lookup a = none → st.trie.lookup a = some data →
      (st.commitTo d).trie.lookup a = some data → AfterCommit d st a (newObject data)
  | written {obj : StateObject} : st.live a = some obj → st.stateObjects.lookup a = some obj →
      a ∈ st.stateObjectsDirty → st.commitAt d a = some obj.updateRoot.data →
      AfterCommit d st a { obj.updateRoot with
        dirtyCode := obj.dirtyCode && !(obj.code.isSome && obj.dirtyCode) }
  | left {obj : StateObject} : st.live a = some obj → a ∉ st.stateObjectsDirty →
      obj.suicided = false → AfterCommit d st a obj

omit hempty in
theorem afterCommit (hsound : st.Sound pool) (hlive : (st.commitTo d).live a = some obj') :
    AfterCommit d st a obj' := by
  have htrie := lookup_commitTo hinj hsound.digested d a
  rw [live_eq, lookup_objects_commitTo hinj hsound a] at hlive
  cases hobj : st.stateObjects.lookup a with
  | none =>
    rw [hobj] at hlive
    obtain ⟨data, hdata, rfl⟩ := Option.map_eq_some_iff.1 hlive
    refine .unloaded hobj ?_ hdata
    rw [← hdata, htrie, commitAt, hobj]
  | some obj =>
    rw [hobj] at hlive
    simp only [Option.map_some] at hlive
    split_ifs at hlive with hdeleted
    cases hlive
    by_cases hdel : (obj.suicided || (decide (a ∈ st.stateObjectsDirty) && d && obj.empty)) = true
    · rw [committed, if_pos hdel] at hdeleted
      exact absurd rfl hdeleted
    have hfound : obj.deleted = false → st.live a = some obj := live_of_lookup hobj
    by_cases hdirty : a ∈ st.stateObjectsDirty
    · rw [committed, if_neg hdel, if_pos hdirty] at hdeleted ⊢
      refine .written (hfound ?_) hobj hdirty ?_
      · exact Bool.eq_false_of_not_eq_true hdeleted
      · rw [commitAt, hobj]
        simp only [if_neg hdel, if_pos hdirty]
    · rw [committed, if_neg hdel, if_neg hdirty] at hdeleted ⊢
      refine .left (hfound (Bool.eq_false_of_not_eq_true hdeleted)) hdirty ?_
      cases hsuicided : obj.suicided
      · rfl
      · simp [hsuicided] at hdel

omit hempty in
theorem complete_commitTo (hsound : st.Sound pool) : (st.commitTo d).Complete := by
  have hkept := kept_commitTo hinj hsound.digested d
  refine ⟨fun {a obj'} hlive => ?_, fun {a data} hdata _ => ?_⟩
  · cases afterCommit hinj hsound hlive with
    | unloaded hnone hdata _ =>
      intro _
      refine hkept.known (hsound.complete.trie hdata fun hmem => ?_)
      obtain ⟨found, hfound⟩ := hsound.wf.dirty a hmem
      rw [hnone] at hfound
      cases hfound
    | written hfound hobj hdirty hcommit =>
      intro _
      have hstored := hsound.complete.objects hfound
      have hleft : st.commitAt d a ≠ none := by simp [hcommit]
      have hknown := known_commitTo hinj hsound hobj hstored hdirty hleft
      exact hknown
    | left hfound _ _ =>
      intro hcode
      exact hkept.known (hsound.complete.objects hfound hcode)
  rw [lookup_commitTo hinj hsound.digested d a] at hdata
  have hcommit := hdata
  unfold commitAt at hdata
  cases hobj : st.stateObjects.lookup a with
  | none =>
    rw [hobj] at hdata
    refine hkept.known (hsound.complete.trie hdata fun hmem => ?_)
    obtain ⟨found, hfound⟩ := hsound.wf.dirty a hmem
    rw [hobj] at hfound
    cases hfound
  | some obj =>
    cases hlive : st.live a with
    | none => exact hkept.known (known_of_gone hsound hlive hcommit)
    | some found =>
      rw [hobj] at hdata
      simp only at hdata
      split_ifs at hdata with hdel hdirty
      · cases hdata
        have hsame := lookup_of_live hsound.wf hlive (.inl hdirty)
        rw [hobj] at hsame
        cases hsame
        have hstored := hsound.complete.objects hlive
        have hleft : st.commitAt d a ≠ none := by simp [hcommit]
        have hknown := known_commitTo hinj hsound hobj hstored hdirty hleft
        exact hknown
      · exact hkept.known (hsound.complete.trie hdata hdirty)

omit hempty in
theorem Sound.commitTo (hsound : st.Sound pool) (d : Bool) : (st.commitTo d).Sound pool :=
  ⟨hsound.wf.commitTo d, hsound.digested.commitTo hinj d, complete_commitTo hinj hsound⟩

theorem trieReads_commitTo (h : st.Prepared d) (hsound : st.Sound pool)
    (hlive : (st.commitTo d).live a = some obj') (harmed : obj'.onDirty = true) :
    (st.commitTo d).TrieReads d a obj' := by
  have htrie := lookup_commitTo hinj hsound.digested d a
  unfold TrieReads
  cases afterCommit hinj hsound hlive with
  | unloaded hnone hdata hkept =>
    rw [trieView, hkept]
    exact .inl (SameReads.refl _)
  | @written obj hfound hobj hdirty hcommit =>
    rw [trieView, htrie, hcommit]
    have hstored := hsound.complete.objects hfound
    have hread := sameReads_updateRoot hinj hempty hsound hobj hstored hdirty
      (d := d) (by simp [hcommit])
    refine .inl ⟨rfl, rfl, ?_, fun key => ?_⟩
    · -- the code the object keeps is the one that was stored
      refine hread.code.trans ?_
      exact ((kept_commitTo hinj hsound.digested d).codeOf_eq fun hcode =>
        hstored (.inl hcode)).symm
    · refine (hread.storage key).trans ?_
      exact ((hsound.wf.objects hobj).storageValue_updateRoot key).symm
  | left hfound hclean hsuicided =>
    have hcommit := htrie.trans (commitAt_of_clean hfound hclean hsuicided)
    rw [hcommit, trieView_commitTo hinj hsound hcommit
      fun data hdata => hsound.complete.trie hdata hclean]
    rcases h.live hfound with hmem | hdestroyed | ⟨-, hreads⟩
    · exact absurd hmem hclean
    · rw [hsuicided] at hdestroyed
      cases hdestroyed
    have hcode := (kept_commitTo hinj hsound.digested d).codeOf_eq
      fun hcode => hsound.complete.objects hfound (.inl hcode)
    have hview : obj'.view (st.commitTo d).codes = obj'.view st.codes := by
      unfold StateObject.view
      congr 1
    rw [hview]
    exact hreads

omit hempty in
theorem gone_commitTo (h : st.Prepared d) (hsound : st.Sound pool)
    (hlive : (st.commitTo d).live a = none) (hdata : (st.commitTo d).commitAt d a = some data) :
    SameReads AccountView.fresh ((newObject data).view (st.commitTo d).codes) := by
  -- nothing is marked, so that the trie is left as it is
  have hclean := not_mem_dirty_commitTo (a := a) (d := d) hinj hsound
  have htrie := lookup_commitTo hinj hsound.digested d a
  rw [live_eq, lookup_objects_commitTo hinj hsound a] at hlive
  unfold commitAt at hdata
  rw [lookup_objects_commitTo hinj hsound a] at hdata
  cases hobj : st.stateObjects.lookup a with
  | none =>
    simp only [hobj, Option.map_none] at hlive hdata
    rw [hdata] at hlive
    cases hlive
  | some obj =>
    simp only [hobj, Option.map_some] at hlive hdata
    split_ifs at hdata with hdel
    · rw [htrie] at hdata
      have hgone : st.live a = none := by
        refine live_of_deleted hobj ?_
        by_contra hkept
        have hfound : obj.deleted = false := Bool.eq_false_of_not_eq_true hkept
        have hdeleted : (st.committed d a obj).deleted = true := by
          by_contra hnot
          simp [hnot] at hlive
        -- it was deleted by this commit, and is not in the trie
        have hnone : st.commitAt d a = none := by
          rw [commitAt, hobj]
          refine if_pos ?_
          by_contra hleft
          rw [committed, if_neg hleft] at hdeleted
          split_ifs at hdeleted
          · have hkept' : obj.deleted = true := hdeleted
            rw [hfound] at hkept'
            cases hkept'
          · rw [hfound] at hdeleted
            cases hdeleted
        rw [hnone] at hdata
        cases hdata
      rw [view_newObject_commitTo hinj hsound (known_of_gone hsound hgone hdata)]
      exact h.gone hgone hdata

theorem prepared_commitTo_iff (h : st.Prepared d) (hsound : st.Sound pool) :
    (st.commitTo d).Prepared d ↔
      ∀ a obj, (st.commitTo d).live a = some obj → obj.onDirty = true := by
  constructor
  · intro hprepared a obj' hlive
    rcases hprepared.live hlive with hdirty | hsuicided | ⟨harmed, -⟩
    · exact absurd hdirty (not_mem_dirty_commitTo hinj hsound)
    · -- the destroyed accounts were deleted
      cases afterCommit hinj hsound hlive with
      | unloaded _ _ _ => cases hsuicided
      | @written obj _ hobj hdirty hcommit =>
        have hkept : obj.suicided = true := hsuicided
        rw [commitAt, hobj] at hcommit
        simp [hkept] at hcommit
      | left _ _ hkept =>
        rw [hkept] at hsuicided
        cases hsuicided
    · exact harmed
  · intro harmed
    refine ⟨fun {a obj'} hlive => .inr (.inr ⟨harmed a obj' hlive, ?_⟩),
      fun hlive hdata => gone_commitTo hinj h hsound hlive hdata⟩
    exact trieReads_commitTo hinj hempty h hsound hlive (harmed a obj' hlive)

end

theorem prepared_new (trie : Finmap fun _ : Address => Account)
    (codes : Finmap fun _ : Hash => Bytes) (d : Bool) : (StateDB.new trie codes).Prepared d := by
  refine ⟨fun {a obj} hlive => ?_, fun {a data} hlive hdata => ?_⟩
  · rcases of_live hlive with ⟨hobj, -⟩ | ⟨-, data, hdata, rfl⟩
    · simp [new] at hobj
    refine .inr (.inr ⟨rfl, .inl ?_⟩)
    rw [trieView, hdata]
    exact SameReads.refl _
  · have hnone : (new trie codes).stateObjects.lookup a = none := by simp [new]
    rw [commitAt, hnone] at hdata
    simp only at hdata
    rw [live_of_lookup_none hnone, hdata] at hlive
    cases hlive

end StateDB

end Commits
