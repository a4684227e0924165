/-
**Going back to a snapshot restores what can be observed.**

Every journalled operation leaves entries behind that form a trail of views, in the sense of
`UndoJournal`, and every entry can be undone and leads back along its link.  So a state can be taken
back to a snapshot after any sequence of operations, with further snapshots and reverts in between.

There is one condition on the state.  Undoing the creation of an account forgets its object, and the
next look-up asks the trie.  If the account was hidden by an object that is flagged as deleted while
the trie still has it, as after `DeleteSuicides`, the account comes back to life.

Main results:

* `ViewLink.undo` — **every entry can be undone and leads back along its link**;
* `revert_exact_iff` — **exactly the states without hidden accounts are restored after every
  sequence of operations**.
-/

import GoHpb.StateView
import GoHpb.StateTransition

open UndoJournal List StateObject JournalEntry StateDB Finmap

/-! ### Hidden accounts -/

namespace StateDB

variable {st st' : StateDB} {a : Address} {obj : StateObject}

/-- No account of the trie is hidden by an object that is flagged as deleted. -/
def NoGhost (st : StateDB) : Prop :=
  ∀ a obj, st.stateObjects.lookup a = some obj → obj.deleted = true → st.trie.lookup a = none

namespace NoGhost

variable (h : st.NoGhost)
include h

theorem congr (hobjects : st'.stateObjects = st.stateObjects)
    (htrie : st'.trie = st.trie) : st'.NoGhost := by
  intro a obj hobj hdeleted
  rw [hobjects] at hobj
  rw [htrie]
  exact h a obj hobj hdeleted

theorem store (hobjects : st'.stateObjects = st.stateObjects.insert a obj)
    (htrie : ∀ b, b ≠ a → st'.trie.lookup b = st.trie.lookup b)
    (hdeleted : obj.deleted = true → st'.trie.lookup a = none) : st'.NoGhost := by
  intro b found hfound hghost
  rw [hobjects] at hfound
  obtain ⟨rfl, rfl⟩ | ⟨hb, hfound⟩ := FinmapTotal.of_lookup_insert hfound
  · exact hdeleted hghost
  · rw [htrie b hb]
    exact h b found hfound hghost

theorem insert (hdeleted : obj.deleted = false)
    (hobjects : st'.stateObjects = st.stateObjects.insert a obj) (htrie : st'.trie = st.trie) :
    st'.NoGhost :=
  h.store hobjects (fun _ _ => by rw [htrie]) (by simp [hdeleted])

theorem erase (hobjects : st'.stateObjects = st.stateObjects.erase a)
    (htrie : st'.trie = st.trie) : st'.NoGhost := by
  intro b found hfound hghost
  rw [hobjects] at hfound
  rw [htrie]
  by_cases hb : b = a
  · subst hb
    simp at hfound
  · rw [lookup_erase_ne hb] at hfound
    exact h b found hfound hghost

theorem load (a : Address) : (st.load a).NoGhost := by
  rcases load_cases st a with hsame | ⟨-, data, -, hsame⟩ <;> rw [hsame]
  · exact h
  · exact h.insert rfl rfl rfl

theorem lookup_eq_none (ha : st.live a = none) : st.trie.lookup a = none := by
  rcases of_live_none ha with ⟨obj, hobj, hdeleted⟩ | ⟨-, hnone⟩
  · exact h a obj hobj hdeleted
  · exact hnone

omit h

end NoGhost

end StateDB

section Trails

variable [Crypto]

/-! ### Links -/

/-- `ViewLink T C v e w`: a change that leaves the entry `e` behind may lead from the view `v` to
the view `w`, over the account trie `T` and the codes `C`. -/
inductive ViewLink (T : Finmap fun _ : Address => Account) (C : Finmap fun _ : Hash => Bytes) :
    View → JournalEntry → View → Prop
  | create {v : View} {a : Address} {y : AccountView} :
      v.account a = none → T.lookup a = none →
      ViewLink T C v (.createObjectChange a) (v.set a (some y))
  | reset {v : View} {a : Address} {prev : StateObject} {y : AccountView} :
      prev.deleted = false → v.account a = some (prev.view C) →
      ViewLink T C v (.resetObjectChange a prev) (v.set a (some y))
  | suicide {v : View} {a : Address} {x : AccountView} : v.account a = some x →
      ViewLink T C v (.suicideChange a x.suicided x.balance)
        (v.set a (some { x with balance := 0, suicided := true }))
  | balance {v : View} {a : Address} {x : AccountView} {amount : ℤ} : v.account a = some x →
      ViewLink T C v (.balanceChange a x.balance)
        (v.set a (some { x with balance := amount }))
  | nonce {v : View} {a : Address} {x : AccountView} {nonce : UInt64} : v.account a = some x →
      ViewLink T C v (.nonceChange a x.nonce)
        (v.set a (some { x with nonce := nonce }))
  | storage {v : View} {a : Address} {x : AccountView} {key value : Hash} :
      v.account a = some x →
      ViewLink T C v (.storageChange a key (x.storage key))
        (v.set a (some { x with storage := Function.update x.storage key value }))
  | code {v : View} {a : Address} {x : AccountView} {prevcode : Option Bytes} {codeHash : Hash}
      {code : Bytes} :
      v.account a = some x → codeOf C prevcode x.codeHash = x.code →
      ViewLink T C v (.codeChange a prevcode x.codeHash)
        (v.set a (some { x with codeHash := codeHash, code := code }))
  | refund {v : View} {gas : ℤ} :
      ViewLink T C v (.refundChange v.refund) (v.addRefund gas)
  | log {v : View} {hash : Hash} {log : Log} :
      ViewLink T C v (.addLogChange hash) (v.addLog hash log)
  | preimage {v : View} {hash : Hash} {preimage : Bytes} : hash ∉ v.preimages →
      ViewLink T C v (.addPreimageChange hash)
        { v with preimages := v.preimages.insert hash preimage }
  | touch {v : View} {a : Address} {prev prevDirty : Bool} : (v.account a).isSome →
      ViewLink T C v (.touchChange a prev prevDirty) v

namespace StateDB

variable {st st' st'' : StateDB} {a : Address} {obj : StateObject} {v : View} {x y : AccountView}

theorem exists_live (h : st.view.account a = some x) :
    ∃ obj, st.live a = some obj ∧ obj.view st.codes = x ∧ obj.deleted = false := by
  obtain ⟨obj, hobj, rfl⟩ := Option.map_eq_some_iff.1 h
  exact ⟨obj, hobj, rfl, (lookup_load_self hobj).2⟩

theorem exists_restore {f : StateObject → StateObject} (hview : st.view = v.set a (some y))
    (hx : v.account a = some x) (hf : ∀ obj, obj.view st.codes = y → (f obj).view st.codes = x)
    (hdeleted : ∀ obj, (f obj).deleted = obj.deleted) :
    ∃ st', st.restore a f = some st' ∧ st'.view = v ∧ (NoGhost st → NoGhost st') := by
  obtain ⟨obj, hobj, hy, hlive⟩ := exists_live (hview ▸ View.account_set)
  refine ⟨(st.load a).update a (f obj), by rw [restore, hobj]; rfl, ?_, fun h => ?_⟩
  · rw [view_update ((hdeleted obj).trans hlive), view_load, codes_load, hf obj hy, hview,
      View.set_set, View.set_self hx]
  have hkept : ({ f obj with onDirty := false } : StateObject).deleted = false :=
    (hdeleted obj).trans hlive
  exact (h.load a).insert hkept rfl rfl

theorem exists_undo_log {hash : Hash} {log : Log} (hview : st.view = v.addLog hash log) :
    ∃ st', (addLogChange hash).undo st = some st' ∧ st'.view = v ∧
      (NoGhost st → NoGhost st') := by
  obtain ⟨haccount, hrefund, hlogs, hsize, hpreimages⟩ := view_eq_iff.1 hview
  have hlast : (st.logs.lookup hash).getD [] = v.logs hash ++ [log] :=
    (hlogs hash).trans (by simp [View.addLog])
  have hother : ∀ k, k ≠ hash → (st.logs.lookup k).getD [] = v.logs k := by
    intro k hk
    exact (hlogs k).trans (by simp [View.addLog, hk])
  -- both branches leave the other fields alone
  have hdone : ∀ logs : Finmap fun _ : Hash => List Log, (∀ k, (logs.lookup k).getD [] = v.logs k) →
      ({ st with logs := logs, logSize := st.logSize - 1 } : StateDB).view = v := by
    intro logs hkept
    refine view_eq_iff.2 ⟨Eq.trans (b := st.view.account) (account_view_congr rfl rfl rfl) haccount,
      hrefund, hkept, ?_, hpreimages⟩
    change st.logSize - 1 = v.logSize
    rw [hsize]
    rfl
  simp only [undo, hlast]
  cases hrest : v.logs hash with
  | nil =>
    refine ⟨_, rfl, hdone _ fun k => ?_, fun h => h.congr rfl rfl⟩
    by_cases hk : k = hash
    · subst hk
      simp [hrest]
    · rw [lookup_erase_ne hk, hother k hk]
  | cons first rest =>
    have hne : rest ++ [log] ≠ [] := by simp
    obtain ⟨second, others, hcons⟩ := exists_cons_of_ne_nil hne
    simp only [cons_append, hcons]
    refine ⟨_, rfl, hdone _ fun k => ?_, fun h => h.congr rfl rfl⟩
    by_cases hk : k = hash
    · subst hk
      rw [lookup_insert, hrest, ← hcons, ← cons_append]
      exact dropLast_concat
    · rw [lookup_insert_of_ne _ hk, hother k hk]

theorem exists_undo_touch {prev prevDirty : Bool} (h : (st.view.account a).isSome) :
    ∃ st', (touchChange a prev prevDirty).undo st = some st' ∧ st'.view = st.view ∧
      (NoGhost st → NoGhost st') := by
  obtain ⟨x, hx⟩ := Option.isSome_iff_exists.1 h
  obtain ⟨obj, hobj, hview, hlive⟩ := exists_live hx
  have hkept : ({ obj with touched := prev } : StateObject).deleted = false := hlive
  have hset : ((st.load a).setStateObject a { obj with touched := prev }).view = st.view := by
    have hsame : ({ obj with touched := prev } : StateObject).view st.codes = x := hview
    rw [view_setStateObject hkept, view_load, codes_load, hsame, View.set_self hx]
  simp only [undo, hobj, Option.map_some]
  split_ifs
  · exact ⟨_, rfl, hset, fun h => (h.load a).insert hkept rfl rfl⟩
  · refine ⟨_, rfl, ?_, fun h => (h.load a).insert hkept rfl rfl⟩
    rw [view_unmark, hset]
  · exact ⟨st, rfl, rfl, id⟩

end StateDB

open StateDB in
/-- **Every entry can be undone and leads back along its link.** -/
theorem ViewLink.undo {st : StateDB} {v : View} {e : JournalEntry}
    (h : ViewLink st.trie st.codes v e st.view) :
    ∃ st', e.undo st = some st' ∧ st'.view = v ∧ (NoGhost st → NoGhost st') := by
  generalize hw : st.view = w at h
  have hall := view_eq_iff.1 hw
  cases h with
  | @create a y hnone htrie =>
    refine ⟨_, rfl, ?_, fun h => h.erase rfl rfl⟩
    obtain ⟨haccount, hrest⟩ := hall
    refine view_eq_iff.2 ⟨funext fun b => ?_, hrest⟩
    by_cases hb : b = a
    · subst hb
      rw [hnone, account_view, live_eq]
      simp [unmark, htrie]
    · have hother := congrFun haccount b
      rw [View.account_set_of_ne hb, account_view, live_eq] at hother
      rw [← hother, account_view, live_eq]
      simp only [unmark, lookup_erase_ne hb]
  | @reset a prev y hdeleted hx =>
    refine ⟨_, rfl, ?_, fun h => h.insert hdeleted rfl rfl⟩
    rw [view_setStateObject hdeleted, hw, View.set_set, View.set_self hx]
  | @suicide a x hx =>
    have hrestore := exists_restore (f := fun obj =>
      { obj.setBalance x.balance with suicided := x.suicided }) hw hx
      (fun obj hobj => by
        have hback : view st.codes { obj.setBalance x.balance with suicided := x.suicided } =
            { obj.view st.codes with balance := x.balance, suicided := x.suicided } := rfl
        rw [hback, hobj]) fun _ => rfl
    obtain ⟨st', hst', hrest⟩ := hrestore
    refine ⟨st', ?_, hrest⟩
    obtain ⟨obj, hobj, rfl⟩ := Option.map_eq_some_iff.1 hst'
    simp only [JournalEntry.undo, hobj]
  | @balance a x amount hx =>
    refine exists_restore hw hx (fun obj hobj => ?_) fun _ => rfl
    have hback : (obj.setBalance x.balance).view st.codes =
        { obj.view st.codes with balance := x.balance } := rfl
    rw [hback, hobj]
  | @nonce a x nonce hx =>
    refine exists_restore hw hx (fun obj hobj => ?_) fun _ => rfl
    have hback : (obj.setNonce x.nonce).view st.codes =
        { obj.view st.codes with nonce := x.nonce } := rfl
    rw [hback, hobj]
  | @storage a x key value hx =>
    refine exists_restore hw hx (fun obj hobj => ?_) fun _ => rfl
    rw [StateObject.view_setState, hobj]
    simp
  | @code a x prevcode codeHash code hx hcode =>
    refine exists_restore hw hx (fun obj hobj => ?_) fun _ => rfl
    have hback : (obj.setCode x.codeHash prevcode).view st.codes = { obj.view st.codes with
          codeHash := x.codeHash, code := codeOf st.codes prevcode x.codeHash } := rfl
    rw [hback, hobj, hcode]
  | refund =>
    refine ⟨_, rfl, ?_, fun h => h.congr rfl rfl⟩
    obtain ⟨haccount, -, hrest⟩ := hall
    exact view_eq_iff.2
      ⟨Eq.trans (b := st.view.account) (account_view_congr rfl rfl rfl) haccount, rfl, hrest⟩
  | log => exact exists_undo_log hw
  | @preimage hash preimage hnew =>
    refine ⟨_, rfl, ?_, fun h => h.congr rfl rfl⟩
    obtain ⟨haccount, hrefund, hlogs, hsize, hpreimages⟩ := hall
    refine view_eq_iff.2
      ⟨Eq.trans (b := st.view.account) (account_view_congr rfl rfl rfl) haccount, hrefund, hlogs,
        hsize, ?_⟩
    change st.preimages.erase hash = v.preimages
    rw [hpreimages]
    refine ext_lookup fun k => ?_
    by_cases hk : k = hash
    · subst hk
      rw [lookup_erase, lookup_eq_none.2 hnew]
    · rw [lookup_erase_ne hk, lookup_insert_of_ne _ hk]
  | touch hsome =>
    subst hw
    exact exists_undo_touch hsome

/-! ### Trails of operations -/

namespace StateDB

variable {st st' st'' : StateDB} {a : Address} {obj obj' : StateObject} {v : View}

/-- The journal of `st'` extends that of `st` by entries that lead back to its view. -/
structure Tracks (st st' : StateDB) : Prop where
  trie : st'.trie = st.trie
  codes : st'.codes = st.codes
  revisions : st'.validRevisions = st.validRevisions
  nextId : st'.nextRevisionId = st.nextRevisionId
  journal : ∃ es, st'.journal = st.journal ++ es ∧
    Trail (ViewLink st.trie st.codes) st.view es st'.view
  noGhost : st'.NoGhost

namespace Tracks

theorem trans (h : Tracks st st') (h' : Tracks st' st'') : Tracks st st'' := by
  obtain ⟨es, hes, htrail⟩ := h.journal
  obtain ⟨fs, hfs, htrail'⟩ := h'.journal
  rw [h.trie, h.codes] at htrail'
  exact ⟨h'.trie.trans h.trie, h'.codes.trans h.codes, h'.revisions.trans h.revisions,
    h'.nextId.trans h.nextId, ⟨es ++ fs, by rw [hfs, hes, append_assoc], htrail.trans htrail'⟩,
    h'.noGhost⟩

theorem silent {o : Option Address} (h : Local o st st') (hjournal : st'.journal = st.journal)
    (hview : st'.view = st.view) (hghost : st'.NoGhost) : Tracks st st' :=
  ⟨h.trie, h.codes, h.revisions, h.nextId, ⟨[], by simp [hjournal], hview ▸ .nil _⟩, hghost⟩

variable {e : JournalEntry}

theorem linked {o : Option Address} (h : Local o st st')
    (hjournal : st'.journal = st.journal ++ [e])
    (hlink : ViewLink st.trie st.codes st.view e st'.view) (hghost : st'.NoGhost) : Tracks st st' :=
  ⟨h.trie, h.codes, h.revisions, h.nextId, ⟨[e], hjournal, Trail.single hlink⟩, hghost⟩

theorem load (h : st.NoGhost) (a : Address) : Tracks st (st.load a) :=
  silent (Local.load st a) journal_load view_load (h.load a)

theorem update (h : st.NoGhost) (he : e.account = some a) (hdeleted : obj.deleted = false)
    (hlink : ViewLink st.trie st.codes st.view e (st.view.set a (some (obj.view st.codes)))) :
    Tracks st (((st.load a).record e).update a obj) := by
  have hkept : ({ obj with onDirty := false } : StateObject).deleted = false := hdeleted
  refine linked (e := e) (Local.write he obj) (by simp [StateDB.update, record]) ?_
    ((h.load a).insert hkept rfl rfl)
  rw [view_update hdeleted, view_record, view_load]
  simpa [record] using hlink

theorem cache (h : st.NoGhost) (hlive : st.live a = some obj)
    (hdeleted : obj'.deleted = obj.deleted) (hview : obj'.view st.codes = obj.view st.codes) :
    Tracks st ((st.load a).setStateObject a obj') := by
  have hkept : obj'.deleted = false := hdeleted.trans (lookup_load_self hlive).2
  refine silent (Local.cache st a obj') journal_load ?_ ((h.load a).insert hkept rfl rfl)
  rw [view_setStateObject hkept, view_load, codes_load, hview]
  exact View.set_self (account_view_of_live hlive)

theorem viewLink_creation (h : st.NoGhost) {y : AccountView} :
    ViewLink st.trie st.codes st.view (st.creation a) (st.view.set a (some y)) := by
  unfold creation
  cases hlive : st.live a with
  | none =>
    refine .create ?_ (h.lookup_eq_none hlive)
    rw [account_view, hlive]
    rfl
  | some prev => exact .reset (lookup_load_self hlive).2 (account_view_of_live hlive)

theorem viewLink_edit {op : StateOp} (hlive : st.live a = some obj)
    (hedit : obj.Edit op st.codes a e obj') :
    ViewLink st.trie st.codes st.view e (st.view.set a (some (obj'.view st.codes))) := by
  have haccount := account_view_of_live hlive
  cases hedit with
  | balance amount => exact .balance haccount
  | nonce nonce => exact .nonce haccount
  | @code code hop =>
    have hview : ((obj.readCode st.codes).setCode (Crypto.keccak256 code) (some code)).view
        st.codes =
        { obj.view st.codes with codeHash := Crypto.keccak256 code, code := code } := by
      rw [readCode_eq]
      rfl
    rw [hview]
    exact .code haccount (obj.codeOf_readCode st.codes)
  | storage key value =>
    rw [StateObject.view_setState, StateObject.view_cacheState]
    exact .storage haccount
  | suicide => exact .suicide haccount
  | touch hempty =>
    have hset : st.view.set a (some (({ obj with touched := true } : StateObject).view st.codes)) =
        st.view := View.set_self haccount
    rw [hset]
    refine .touch ?_
    rw [haccount]
    rfl

/-- **Every step leaves a link behind.** -/
theorem step {op : StateOp} (h : st.NoGhost) (hstep : Step op st st') : Tracks st st' := by
  cases hstep with
  | load a => exact load h a
  | @readCode a obj hlive =>
    refine cache h hlive ?_ (obj.view_readCode st.codes)
    rw [readCode_eq]
  | @cacheState a obj key hlive =>
    refine cache h hlive ?_ (obj.view_cacheState st.codes key)
    rw [cacheState_eq]
  | create a balance => exact update h account_creation rfl (viewLink_creation h)
  | edit hlive hedit =>
    obtain ⟨haccount, hdeleted, -⟩ := hedit.flags
    exact update h haccount (hdeleted.trans (lookup_load_self hlive).2) (viewLink_edit hlive hedit)
  | @addRefund gas hop =>
    refine linked (Local.addRefund st gas (o := none)) rfl ?_ (h.congr rfl rfl)
    rw [view_addRefund]
    exact .refund
  | addLog log =>
    refine linked (Local.addLog st log (o := none)) rfl ?_ (h.congr rfl rfl)
    rw [view_addLog]
    exact .log
  | @addPreimage hash preimage hnew =>
    have hlocal : Local none st (st.addPreimage hash preimage) := Local.addPreimage st hash preimage
    have hview := view_addPreimage st hash preimage
    have hunknown : hash ∉ st.view.preimages := hnew
    rw [View.addPreimage, if_neg hunknown] at hview
    refine linked hlocal ?_ ?_ ?_ (e := .addPreimageChange hash)
    · rw [addPreimage, if_neg hnew]
      rfl
    · rw [hview]
      exact .preimage hunknown
    · rw [addPreimage, if_neg hnew]
      exact h.congr rfl rfl

end Tracks

end StateDB

/-! ### Sequences of operations -/

namespace StateDB

variable {st₀ st st' : StateDB} {es : List JournalEntry} {v : View}

/-- **Every operation leaves a trail behind.** -/
theorem Tracks.run (h : st.NoGhost) {op : StateOp} (hdirect : op.Direct)
    (hrun : op.run st = some st') : Tracks st st' :=
  StateOp.induction hdirect hrun (fun ht hstep => ht.trans (Tracks.step ht.noGhost hstep))
    (Tracks.silent (Local.refl none st) rfl rfl h)

theorem exists_undoAll (htrail : Trail (ViewLink st.trie st.codes) v es st.view)
    (hghost : st.NoGhost) :
    ∃ t, undoAll undo es st = some t ∧ t.view = v ∧ t.NoGhost ∧ t.trie = st.trie ∧
      t.codes = st.codes ∧ t.journal = st.journal ∧ t.validRevisions = st.validRevisions ∧
      t.nextRevisionId = st.nextRevisionId := by
  refine htrail.exists_undoAll view
    (fun t => t.NoGhost ∧ t.trie = st.trie ∧ t.codes = st.codes ∧ t.journal = st.journal ∧
      t.validRevisions = st.validRevisions ∧ t.nextRevisionId = st.nextRevisionId)
    (fun {v e s} hlink hP => ?_) rfl ⟨hghost, rfl, rfl, rfl, rfl, rfl⟩
  obtain ⟨hghost, htrie, hcodes, hjournal, hrevisions, hnext⟩ := hP
  rw [← htrie, ← hcodes] at hlink
  obtain ⟨s', hs', hview, hkept⟩ := hlink.undo
  have hlocal := Local.undo hs'
  exact ⟨s', hs', hview, hkept hghost, hlocal.trie.trans htrie, hlocal.codes.trans hcodes,
    (journal_undo hs').trans hjournal, hlocal.revisions.trans hrevisions,
    hlocal.nextId.trans hnext⟩

/-- `st` is reached from the state `st₀` since a snapshot of it was taken, and the snapshot is still
valid. -/
structure Since (st₀ st : StateDB) : Prop where
  trie : st.trie = st₀.trie
  codes : st.codes = st₀.codes
  noGhost : st.NoGhost
  nextId : st₀.nextRevisionId < st.nextRevisionId
  journal : ∃ es, st.journal = st₀.journal ++ es ∧
    Trail (ViewLink st₀.trie st₀.codes) st₀.view es st.view
  revisions : ∃ rs, st.validRevisions =
      st₀.validRevisions ++ ⟨st₀.nextRevisionId, st₀.journal.length⟩ :: rs ∧
    ∀ r ∈ rs, st₀.nextRevisionId < r.id ∧ st₀.journal.length ≤ r.journalIndex

namespace Since

theorem snapshot (h : st.NoGhost) : Since st st.snapshot.2 := by
  refine ⟨rfl, rfl, h.congr rfl rfl, Nat.lt_succ_self _, ⟨[], by simp [StateDB.snapshot], ?_⟩,
    ⟨[], rfl, by simp⟩⟩
  rw [view_snapshot]
  exact .nil _

variable (h : Since st₀ st)
include h

theorem extend (hext : Tracks st st') : Since st₀ st' := by
  obtain ⟨es, hes, htrail⟩ := h.journal
  obtain ⟨fs, hfs, htrail'⟩ := hext.journal
  rw [h.trie, h.codes] at htrail'
  refine ⟨hext.trie.trans h.trie, hext.codes.trans h.codes, hext.noGhost, ?_,
    ⟨es ++ fs, by rw [hfs, hes, append_assoc], htrail.trans htrail'⟩, ?_⟩
  · rw [hext.nextId]
    exact h.nextId
  · rw [hext.revisions]
    exact h.revisions

theorem snapshotAgain : Since st₀ st.snapshot.2 := by
  obtain ⟨es, hes, htrail⟩ := h.journal
  obtain ⟨rs, hrs, hids⟩ := h.revisions
  refine ⟨h.trie, h.codes, h.noGhost.congr rfl rfl, h.nextId.trans (Nat.lt_succ_self _),
    ⟨es, hes, (view_snapshot st).symm ▸ htrail⟩,
    ⟨rs ++ [⟨st.nextRevisionId, st.journal.length⟩], ?_, ?_⟩⟩
  · simp [StateDB.snapshot, hrs]
  intro r hr
  rcases mem_append.1 hr with hr | hr
  · exact hids r hr
  obtain rfl := mem_singleton.1 hr
  refine ⟨h.nextId, ?_⟩
  rw [hes]
  simp

variable (hrev : RevisionsOk st₀)
include hrev

theorem revertBetween {revid : ℕ}
    (hid : st₀.nextRevisionId < revid) (hback : st.revertToSnapshot revid = some st') :
    Since st₀ st' := by
  obtain ⟨es, hes, htrail⟩ := h.journal
  obtain ⟨rs, hrs, hids⟩ := h.revisions
  unfold revertToSnapshot at hback
  cases hfind : findRevision st.validRevisions revid with
  | none =>
    rw [hfind] at hback
    cases hback
  | some found =>
    obtain ⟨idx, k⟩ := found
    rw [hfind] at hback
    obtain ⟨t, ht, rfl⟩ := Option.map_eq_some_iff.1 hback
    obtain ⟨r, hr, rfl, rfl⟩ := of_findRevision hfind
    -- the revision was taken after the snapshot
    rw [hrs] at hr
    have hlen : st₀.validRevisions.length < idx := by
      by_contra hle
      rcases Nat.lt_or_eq_of_le (Nat.not_lt.1 hle) with hlt | rfl
      · rw [getElem?_append_left hlt] at hr
        have hold := hrev r (mem_of_getElem? hr)
        omega
      · simp only [getElem?_append_right le_rfl, Nat.sub_self, getElem?_cons_zero,
          Option.some.injEq] at hr
        rw [← hr] at hid
        exact lt_irrefl _ hid
    obtain ⟨i, rfl⟩ : ∃ i, idx = st₀.validRevisions.length + (i + 1) :=
      ⟨idx - st₀.validRevisions.length - 1, by omega⟩
    rw [getElem?_append_right (by omega), Nat.add_sub_cancel_left, getElem?_cons_succ] at hr
    obtain ⟨-, hindex⟩ := hids r (mem_of_getElem? hr)
    obtain ⟨k, hk⟩ : ∃ k, r.journalIndex = st₀.journal.length + k :=
      ⟨r.journalIndex - st₀.journal.length, by omega⟩
    -- the entries above it lead back to a view on the way
    obtain ⟨v, hbelow, habove⟩ := Trail.of_append ((take_append_drop k es).symm ▸ htrail)
    rw [← h.trie, ← h.codes] at habove
    obtain ⟨t', ht', hview, hghost, htrie, hcodes, hjournal, hrevisions, hnext⟩ :=
      exists_undoAll habove h.noGhost
    have hdrop : st.journal.drop r.journalIndex = es.drop k := by
      rw [hes, hk, drop_append, drop_of_length_le (by omega), Nat.add_sub_cancel_left, nil_append]
    rw [hdrop, ht'] at ht
    cases ht
    have hsame : ({ t with
        journal := t.journal.take r.journalIndex
        validRevisions := t.validRevisions.take (st₀.validRevisions.length + (i + 1)) } :
        StateDB).view = v := by
      rw [← hview]
      exact view_congr rfl rfl rfl rfl rfl rfl rfl
    refine ⟨htrie.trans h.trie, hcodes.trans h.codes, hghost.congr rfl rfl, hnext ▸ h.nextId,
      ⟨es.take k, ?_, hsame ▸ hbelow⟩, ⟨rs.take i, ?_, ?_⟩⟩
    · simp only [hjournal, hes, hk]
      rw [take_append, take_of_length_le (by omega), Nat.add_sub_cancel_left]
    · simp only [hrevisions, hrs]
      rw [take_append, take_of_length_le (by omega), Nat.add_sub_cancel_left, take_succ_cons]
    · intro q hq
      exact hids q (mem_of_mem_take hq)

/-- **One operation since the snapshot.** -/
theorem step {op : StateOp}
    (hnested : op.Nested st₀.snapshot.1) (hrun : op.run st = some st') : Since st₀ st' := by
  cases op with
  | revertToSnapshot revid => exact h.revertBetween hrev hnested hrun
  | snapshot =>
    cases hrun
    exact h.snapshotAgain
  | _ =>
    refine h.extend (Tracks.run h.noGhost ?_ hrun)
    trivial

/-- **Every run of operations since the snapshot.** -/
theorem run {ops : List StateOp}
    (hnested : ∀ op ∈ ops, op.Nested st₀.snapshot.1) (hrun : runOps st ops = some st') :
    Since st₀ st' :=
  foldlM_induction (fun hop ht hstep => ht.step hrev (hnested _ hop) hstep) h hrun

/-- **Going back to the snapshot restores the view.** -/
theorem revert :
    ∃ st', st.revertToSnapshot st₀.snapshot.1 = some st' ∧ st'.view = st₀.view ∧ st'.NoGhost := by
  obtain ⟨es, hes, htrail⟩ := h.journal
  obtain ⟨rs, hrs, hids⟩ := h.revisions
  have hfind : findRevision st.validRevisions st₀.snapshot.1 =
      some (st₀.validRevisions.length, st₀.journal.length) := by
    rw [hrs]
    exact findRevision_eq (r := ⟨st₀.nextRevisionId, st₀.journal.length⟩) hrev
      fun q hq => (hids q hq).1.le
  rw [← h.trie, ← h.codes] at htrail
  obtain ⟨t, ht, hview, hghost, -⟩ := exists_undoAll htrail h.noGhost
  refine ⟨_, by rw [revertToSnapshot, hfind]; simp only; rw [hes, drop_left, ht]; rfl, ?_, ?_⟩
  · rw [← hview]
    exact view_congr rfl rfl rfl rfl rfl rfl rfl
  · exact hghost.congr rfl rfl

omit hrev

omit h

end Since

/-! ### The states of the program -/

/-- The states of the program: a state is opened at a trie, changed by operations, finalised,
committed, copied, reset, and its suicided accounts are flagged.  `GetRefund` returns the counter
itself, so that its callers can change it. -/
inductive Reachable : StateDB → Prop
  | new (trie : Finmap fun _ : Address => Account) (codes : Finmap fun _ : Hash => Bytes) :
      Reachable (new trie codes)
  | run {st st' : StateDB} (op : StateOp) : Reachable st → op.run st = some st' → Reachable st'
  | refund {st : StateDB} (refund : ℤ) : Reachable st → Reachable { st with refund := refund }
  | prepare {st : StateDB} (thash bhash : Hash) (txIndex : ℕ) : Reachable st →
      Reachable (st.prepare thash bhash txIndex)
  | finalise {st st' : StateDB} (deleteEmptyObjects : Bool) : Reachable st →
      st.finalise deleteEmptyObjects = some st' → Reachable st'
  | commitTo {st : StateDB} (deleteEmptyObjects : Bool) : Reachable st →
      Reachable (st.commitTo deleteEmptyObjects)
  | deleteSuicides {st st' : StateDB} : Reachable st → st.deleteSuicides = some st' → Reachable st'
  | copy {st st' : StateDB} : Reachable st → st.copy = some st' → Reachable st'
  | reset {st : StateDB} (trie : Finmap fun _ : Address => Account) : Reachable st →
      Reachable (st.reset trie)

omit [Crypto] in
theorem RevisionsOk.of_nil (h : st.validRevisions = []) : RevisionsOk st := by
  intro r hr
  rw [h] at hr
  cases hr

omit [Crypto] in
theorem RevisionsOk.of_local {o : Option Address} (h : RevisionsOk st) (hl : Local o st st') :
    RevisionsOk st' := by
  intro r hr
  rw [hl.revisions] at hr
  rw [hl.nextId]
  exact h r hr

theorem RevisionsOk.run (h : RevisionsOk st) {op : StateOp} (hrun : op.run st = some st') :
    RevisionsOk st' := by
  refine StateOp.invariant (fun {t t'} ht hstep => ?_) (fun {t} ht r hr => ?_)
    (fun ht _ hundo => ht.of_local (Local.undo hundo))
    (fun k i ht r hr => ht r (mem_of_mem_take hr)) hrun h
  · obtain ⟨o, hlocal⟩ := hstep.confined
    exact ht.of_local hlocal
  rcases mem_append.1 hr with hr | hr
  · exact (ht r hr).trans (Nat.lt_succ_self _)
  · obtain rfl := mem_singleton.1 hr
    exact Nat.lt_succ_self _

theorem Reachable.revisionsOk (h : Reachable st) : RevisionsOk st := by
  induction h with
  | new trie codes => exact RevisionsOk.of_nil rfl
  | run op _ hrun ih => exact ih.run hrun
  | refund refund _ ih | prepare thash bhash txIndex _ ih => exact ih
  | finalise deleteEmptyObjects _ hfinal _ =>
    obtain ⟨t, -, rfl⟩ := Option.map_eq_some_iff.1 hfinal
    exact RevisionsOk.of_nil rfl
  | commitTo deleteEmptyObjects _ _ => exact RevisionsOk.of_nil rfl
  | @deleteSuicides st st' _ hdelete _ =>
    refine RevisionsOk.of_nil ?_
    refine foldlM_induction (P := fun t => t.validRevisions = []) (fun {t a t'} _ ht hstep => ?_)
      rfl hdelete
    obtain ⟨obj, -, rfl⟩ := Option.map_eq_some_iff.1 hstep
    split_ifs <;> exact ht
  | @copy st st' _ hcopy _ =>
    refine RevisionsOk.of_nil ?_
    refine foldlM_induction (P := fun t => t.validRevisions = []) (fun {t a t'} _ ht hstep => ?_)
      rfl hcopy
    obtain ⟨obj, -, rfl⟩ := Option.map_eq_some_iff.1 hstep
    exact ht
  | reset trie _ _ => exact RevisionsOk.of_nil rfl

/-- After every sequence of operations since a snapshot, the state can be taken back to the snapshot
and is then observed as before. -/
def Restored (st : StateDB) : Prop :=
  ∀ ops st', (∀ op ∈ ops, op.Nested st.snapshot.1) → runOps st.snapshot.2 ops = some st' →
    ∃ back, st'.revertToSnapshot st.snapshot.1 = some back ∧ SameObservers st back

omit [Crypto] in
theorem exists_revert_single {t : StateDB} {e : JournalEntry} (hrev : RevisionsOk st)
    (hjournal : st'.journal = st.journal ++ [e])
    (hrevisions : st'.validRevisions = st.snapshot.2.validRevisions) (hundo : e.undo st' = some t) :
    ∃ back, st'.revertToSnapshot st.snapshot.1 = some back ∧
      back.stateObjects = t.stateObjects ∧ back.stateObjectsDirty = t.stateObjectsDirty ∧
      back.trie = t.trie := by
  have hfind : findRevision st'.validRevisions st.snapshot.1 =
      some (st.validRevisions.length, st.journal.length) := by
    rw [hrevisions]
    exact findRevision_eq (r := ⟨st.nextRevisionId, st.journal.length⟩) hrev (by simp)
  have hall : undoAll undo [e] st' = some t := by
    simp [undoAll, hundo]
  refine ⟨{ t with
    journal := t.journal.take st.journal.length
    validRevisions := t.validRevisions.take st.validRevisions.length }, ?_, rfl, rfl, rfl⟩
  rw [revertToSnapshot, hfind]
  simp only
  rw [hjournal, drop_left, hall]
  rfl

theorem exists_revert_create (hrev : RevisionsOk st) {a : Address} {obj : StateObject}
    (hobj : st.stateObjects.lookup a = some obj) (hdeleted : obj.deleted = true) :
    ∃ back, (st.snapshot.2.createAccount a).revertToSnapshot st.snapshot.1 = some back ∧
      back.live a = (st.trie.lookup a).map newObject ∧ a ∉ back.stateObjectsDirty ∧
      back.trie = st.trie := by
  have hobj' : st.snapshot.2.stateObjects.lookup a = some obj := hobj
  have hlive : st.snapshot.2.live a = none := live_of_deleted hobj' hdeleted
  have hstate : st.snapshot.2.createAccount a = (st.snapshot.2.record
      (.createObjectChange a)).update a (newObject emptyAccount) := by
    rw [createAccount, hlive]
    simp only [createObject, load_eq_self hobj', hlive]
  have htrie := (Local.createAccount st.snapshot.2 a).trie
  obtain ⟨back, hback, hobjects, hdirty, hback'⟩ := exists_revert_single
    (e := .createObjectChange a) hrev (by rw [hstate]; rfl)
    (Local.createAccount st.snapshot.2 a).revisions rfl
  have hnone : back.stateObjects.lookup a = none := by
    rw [hobjects]
    simp [unmark]
  refine ⟨back, hback, ?_, ?_, hback'.trans htrie⟩
  · rw [live_of_lookup_none hnone, hback'.trans htrie]
    rfl
  · rw [hdirty]
    simp [unmark]

theorem noGhost_of_restored (hrev : RevisionsOk st) (h : st.Restored) : st.NoGhost := by
  intro a obj hobj hdeleted
  obtain ⟨back, hback, hfound, -⟩ := exists_revert_create hrev hobj hdeleted
  obtain ⟨back', hback', hsame⟩ := h [.createAccount a] _ (by simp [StateOp.Nested]) rfl
  obtain rfl := Option.some.inj (hback.symm.trans hback')
  have hexist := hsame.exist a
  rw [exist, exist, live_of_deleted hobj hdeleted, hfound] at hexist
  simpa using hexist

end StateDB

/-- **Exactly the states without hidden accounts are restored** after every sequence of
operations. -/
theorem revert_exact_iff {st : StateDB} (h : st.Reachable) : st.Restored ↔ st.NoGhost := by
  constructor
  · exact noGhost_of_restored h.revisionsOk
  intro hghost ops st' hnested hrun
  have hsince := (StateDB.Since.snapshot hghost).run h.revisionsOk hnested hrun
  obtain ⟨back, hback, hview, -⟩ := hsince.revert h.revisionsOk
  exact ⟨back, hback, sameObservers_of_view hview⟩

end Trails

open Payments in
/-- A state that was just opened hides nothing. -/
theorem revert_exact_iff_opened : state.Restored := by
  refine (revert_exact_iff (.new _ _)).2 fun a obj hobj _ => ?_
  simp [new] at hobj

open Payments in
/-- **An account that comes back to life**: the payee destroys itself and is flagged as deleted, so
it does not exist; it is created again after a snapshot, and the creation is taken back. -/
theorem revert_revives_deleted :
    ((state.suicide payee).deleteSuicides.bind fun st =>
      (runOps st.snapshot.2 [StateOp.createAccount payee]).bind fun st' =>
        (st'.revertToSnapshot st.snapshot.1).map fun back =>
          ((st.exist payee).1, (back.exist payee).1)) = some (false, true) := by
  decide
