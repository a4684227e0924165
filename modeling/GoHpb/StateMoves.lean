/-
**What a step of the world state can do.**

Every operation on the world state is made of a few kinds of moves: an object is loaded or fills its
caches, an object is created, an object is changed and the change journalled, an empty object is
touched, or something beside the accounts is changed.  An invariant of the states is proved for the
moves and for the undo methods, once.

Main results:

* `StateDB.Move.of_step` — **every step of an operation is a move**;
* `StateDB.Wf.move`, `StateDB.Wf.undo`, `StateDB.Built.wf` — **the states of the program are
  well-formed**.
-/

import GoHpb.StateRevert
import GoHpb.WriteBack

open UndoJournal Relation Finmap List StateObject

/-! ### Moves -/

/-- The changes of an object: they leave its flags alone, and keep it coherent. -/
structure StateObject.Rewrites (obj obj' : StateObject) : Prop where
  deleted : obj'.deleted = obj.deleted
  onDirty : obj'.onDirty = obj.onDirty
  touched : obj'.touched = obj.touched
  suicided : obj.suicided = true → obj'.suicided = true
  coherent : obj.Coherent → obj'.Coherent

/-- The entries of changes to an object that stays where it is. -/
def JournalEntry.IsChange : JournalEntry → Prop
  | createObjectChange _ => False
  | resetObjectChange _ _ => False
  | touchChange _ _ _ => False
  | _ => True

namespace StateDB

/-- The state beside the accounts is left alone. -/
structure SameObjects (st st' : StateDB) : Prop where
  trie : st'.trie = st.trie
  codes : st'.codes = st.codes
  objects : st'.stateObjects = st.stateObjects
  dirty : st'.stateObjectsDirty = st.stateObjectsDirty
  revisions : st'.validRevisions = st.validRevisions
  nextId : st'.nextRevisionId = st.nextRevisionId

theorem SameObjects.confined {st st' : StateDB} {e : JournalEntry} (h : SameObjects st st')
    (hjournal : st'.journal = st.journal ++ [e]) (he : e.account = none) : Local none st st' :=
  ⟨h.trie, h.codes, fun b _ => by rw [h.objects], fun b _ => by rw [h.dirty], h.revisions, h.nextId,
    [e], hjournal, by simp [he]⟩

variable [Crypto]

/-- The moves that operations are made of. -/
inductive Move (st : StateDB) : StateDB → Prop
  | load (a : Address) : Move st (st.load a)
  | cache {a : Address} {obj obj' : StateObject} : st.live a = some obj → obj.Rewrites obj' →
      obj'.view st.codes = obj.view st.codes → Move st ((st.load a).setStateObject a obj')
  | create {a : Address} {obj : StateObject} : obj.Coherent → obj.deleted = false →
      obj.onDirty = true → Move st (((st.load a).record (st.creation a)).update a obj)
  | write {a : Address} {obj obj' : StateObject} {e : JournalEntry} : st.live a = some obj →
      obj.Rewrites obj' → e.IsChange → e.account = some a →
      Move st (((st.load a).record e).update a obj')
  | touch {a : Address} {obj : StateObject} : st.live a = some obj → obj.empty = true →
      Move st (((st.load a).record
        (JournalEntry.touchChange a obj.touched (!obj.onDirty))).update a
          { obj with touched := true })
  | aside {st' : StateDB} {e : JournalEntry} : SameObjects st st' →
      st'.journal = st.journal ++ [e] → e.account = none → Move st st'

variable {st st' : StateDB} {a : Address} {obj : StateObject}

omit [Crypto] in
theorem mem_dirty_update :
    a ∈ (st.update a obj).stateObjectsDirty ↔ obj.onDirty = true ∨ a ∈ st.stateObjectsDirty := by
  unfold update
  split_ifs with hdirty
  · simp [hdirty]
  · simp [hdirty]

omit [Crypto] in
theorem live_congr (hobjects : st'.stateObjects = st.stateObjects) (htrie : st'.trie = st.trie) :
    st'.live a = st.live a := by
  rw [live_eq, live_eq, hobjects, htrie]

theorem coherent_emptyAccount : (newObject emptyAccount).Coherent :=
  coherent_newObject Storage.Proper.empty

theorem rewrites_readCode (obj : StateObject) (codes : Finmap fun _ : Hash => Bytes) :
    obj.Rewrites (obj.readCode codes) := by
  have hflags := @readCode_eq _ obj codes
  refine ⟨?_, ?_, ?_, fun hsuicided => ?_, fun h => h.readCode _⟩
  · rw [hflags]
  · rw [hflags]
  · rw [hflags]
  · rw [hflags]
    exact hsuicided

omit [Crypto] in
theorem rewrites_cacheState [Crypto] (obj : StateObject) (key : Hash) :
    obj.Rewrites (obj.cacheState key) := by
  have hflags := @cacheState_eq obj key
  refine ⟨?_, ?_, ?_, fun hsuicided => ?_, fun h => h.cacheState key⟩
  · rw [hflags]
  · rw [hflags]
  · rw [hflags]
  · rw [hflags]
    exact hsuicided

theorem Move.of_edit {op : StateOp} {obj' : StateObject} {e : JournalEntry}
    (hlive : st.live a = some obj) (h : obj.Edit op st.codes a e obj') :
    Move st (((st.load a).record e).update a obj') := by
  cases h with
  | code hop =>
    have hread := rewrites_readCode obj st.codes
    refine .write hlive ⟨hread.deleted, hread.onDirty, hread.touched, hread.suicided,
      fun h => ?_⟩ trivial rfl
    exact (hread.coherent h).congr rfl rfl rfl
  | storage key value =>
    have hread := rewrites_cacheState obj key
    exact .write hlive ⟨hread.deleted, hread.onDirty, hread.touched, hread.suicided,
      fun h => (hread.coherent h).setState key value⟩ trivial rfl
  | touch hempty => exact .touch hlive hempty
  | suicide =>
    exact .write hlive ⟨rfl, rfl, rfl, fun _ => rfl, fun h => h.congr rfl rfl rfl⟩ trivial rfl
  | _ => exact .write hlive ⟨rfl, rfl, rfl, id, fun h => h.congr rfl rfl rfl⟩ trivial rfl

/-- **Every step of an operation is a move.** -/
theorem Move.of_step {op : StateOp} (h : Step op st st') : Move st st' := by
  cases h with
  | load a => exact .load a
  | @readCode a obj hlive =>
    exact .cache hlive (rewrites_readCode obj st.codes) (obj.view_readCode st.codes)
  | @cacheState a obj key hlive =>
    exact .cache hlive (rewrites_cacheState obj key) (obj.view_cacheState st.codes key)
  | create a balance => exact .create (coherent_emptyAccount.congr rfl rfl rfl) rfl rfl
  | edit hlive hedit => exact Move.of_edit hlive hedit
  | addRefund hop | addLog log => exact .aside ⟨rfl, rfl, rfl, rfl, rfl, rfl⟩ rfl rfl
  | @addPreimage hash preimage hnew =>
    rw [addPreimage, if_neg hnew]
    exact .aside ⟨rfl, rfl, rfl, rfl, rfl, rfl⟩ rfl rfl

end StateDB

/-! ### Well-formed states -/

namespace StateDB

section

variable [Crypto]

/-- Well-formed states: the objects are coherent, an object that is flagged as deleted would be
deleted again, the dirty objects are there, and the storage tries have no zero entries. -/
structure Wf (st : StateDB) : Prop where
  objects : ∀ {a obj}, st.stateObjects.lookup a = some obj → obj.Coherent
  dead : ∀ {a obj}, st.stateObjects.lookup a = some obj → obj.deleted = true →
    (obj.suicided || obj.empty) = true
  dirty : ∀ a ∈ st.stateObjectsDirty, ∃ obj, st.stateObjects.lookup a = some obj
  trie : ∀ {a data}, st.trie.lookup a = some data → Storage.Proper data.root
  resets : ∀ {a prev}, JournalEntry.resetObjectChange a prev ∈ st.journal →
    prev.Coherent ∧ prev.deleted = false
  revisions : RevisionsOk st

namespace Wf

variable {st st' : StateDB} {a : Address} {obj : StateObject}

variable (h : st.Wf)
include h

theorem live (ha : st.live a = some obj) : obj.Coherent := by
  rcases of_live ha with ⟨hobj, -⟩ | ⟨-, data, hdata, rfl⟩
  · exact h.objects hobj
  · exact coherent_newObject (h.trie hdata)

theorem lookup_of_dirty (hlive : st.live a = some obj)
    (hdirty : a ∈ st.stateObjectsDirty) : st.stateObjects.lookup a = some obj := by
  rcases of_live hlive with ⟨hobj, -⟩ | ⟨hnone, -⟩
  · exact hobj
  obtain ⟨found, hfound⟩ := h.dirty a hdirty
  rw [hnone] at hfound
  cases hfound

theorem congr (hobjects : st'.stateObjects = st.stateObjects)
    (hdirty : st'.stateObjectsDirty = st.stateObjectsDirty) (htrie : st'.trie = st.trie)
    (hresets : ∀ {a prev}, .resetObjectChange a prev ∈ st'.journal →
      .resetObjectChange a prev ∈ st.journal) (hrevisions : RevisionsOk st') : st'.Wf := by
  refine ⟨fun {a obj} hobj => ?_, fun {a obj} hobj => ?_, fun a ha => ?_, fun {a data} hdata => ?_,
    fun hmem => h.resets (hresets hmem), hrevisions⟩
  · rw [hobjects] at hobj
    exact h.objects hobj
  · rw [hobjects] at hobj
    exact h.dead hobj
  · rw [hdirty] at ha
    rw [hobjects]
    exact h.dirty a ha
  · rw [htrie] at hdata
    exact h.trie hdata

theorem store (hcoherent : obj.Coherent)
    (hdead : obj.deleted = true → (obj.suicided || obj.empty) = true)
    (hobjects : st'.stateObjects = st.stateObjects.insert a obj)
    (hdirty : ∀ b ∈ st'.stateObjectsDirty, b = a ∨ b ∈ st.stateObjectsDirty)
    (htrie : ∀ {b data}, st'.trie.lookup b = some data → Storage.Proper data.root)
    (hresets : ∀ {b prev}, .resetObjectChange b prev ∈ st'.journal →
      prev.Coherent ∧ prev.deleted = false) (hrevisions : RevisionsOk st') : st'.Wf := by
  refine ⟨fun {b found} hfound => ?_, fun {b found} hfound => ?_, fun b hb => ?_, htrie, hresets,
    hrevisions⟩
  · rw [hobjects] at hfound
    rcases FinmapTotal.of_lookup_insert hfound with ⟨-, rfl⟩ | ⟨-, hold⟩
    · exact hcoherent
    · exact h.objects hold
  · rw [hobjects] at hfound
    rcases FinmapTotal.of_lookup_insert hfound with ⟨-, rfl⟩ | ⟨-, hold⟩
    · exact hdead
    · exact h.dead hold
  rw [hobjects]
  by_cases hab : b = a
  · subst hab
    exact ⟨obj, lookup_insert _⟩
  rw [lookup_insert_of_ne _ hab]
  rcases hdirty b hb with rfl | hb
  · exact absurd rfl hab
  · exact h.dirty b hb

theorem load (a : Address) : (st.load a).Wf := by
  rcases load_cases st a with hsame | ⟨-, data, hdata, hsame⟩ <;> rw [hsame]
  · exact h
  · exact h.store (coherent_newObject (h.trie hdata)) (by simp [newObject]) rfl
      (fun _ hb => .inr hb) (fun hb => h.trie hb) (fun hb => h.resets hb) h.revisions

theorem setStateObject (hcoherent : obj.Coherent)
    (hdead : obj.deleted = true → (obj.suicided || obj.empty) = true) :
    (st.setStateObject a obj).Wf :=
  h.store hcoherent hdead rfl (fun _ hb => .inr hb) (fun hb => h.trie hb)
    (fun hb => h.resets hb) h.revisions

theorem update (hcoherent : obj.Coherent) (hdeleted : obj.deleted = false) :
    (st.update a obj).Wf := by
  have hcoherent' : ({ obj with onDirty := false } : StateObject).Coherent :=
    hcoherent.congr rfl rfl rfl
  refine h.store hcoherent' (fun hdead => ?_) rfl (fun b hb => ?_) (fun hb => h.trie hb)
    (fun hb => h.resets hb) h.revisions
  · change obj.deleted = true at hdead
    rw [hdeleted] at hdead
    cases hdead
  unfold StateDB.update at hb
  split_ifs at hb
  · exact Finset.mem_insert.1 hb
  · exact .inr hb

omit h

theorem record {e : JournalEntry} (h : st.Wf) (he : ∀ {b prev}, e = .resetObjectChange b prev →
      prev.Coherent ∧ prev.deleted = false) : (st.record e).Wf := by
  refine ⟨h.objects, h.dead, h.dirty, h.trie, fun {b prev} hmem => ?_, h.revisions⟩
  rcases mem_append.1 hmem with hmem | hmem
  · exact h.resets hmem
  · exact he (mem_singleton.1 hmem).symm

/-- **The moves keep a state well-formed.** -/
theorem move (h : st.Wf) (hmove : Move st st') : st'.Wf := by
  cases hmove with
  | load a => exact h.load a
  | cache hlive hrewrites hview =>
    refine (h.load _).setStateObject (hrewrites.coherent (h.live hlive)) fun hdead => ?_
    rw [hrewrites.deleted, (lookup_load_self hlive).2] at hdead
    cases hdead
  | create hcoherent hdeleted hdirty =>
    refine ((h.load _).record fun {b prev} he => ?_).update hcoherent hdeleted
    unfold creation at he
    split at he
    · cases he
    rename_i found hlive
    cases he
    exact ⟨h.live hlive, (lookup_load_self hlive).2⟩
  | write hlive hrewrites hchange haccount =>
    refine ((h.load _).record fun {b prev} he => ?_).update (hrewrites.coherent (h.live hlive)) ?_
    · subst he
      exact absurd hchange id
    · rw [hrewrites.deleted, (lookup_load_self hlive).2]
  | touch hlive hempty =>
    refine ((h.load _).record fun {b prev} he => ?_).update ((h.live hlive).congr rfl rfl rfl) ?_
    · cases he
    · exact (lookup_load_self hlive).2
  | @aside _ e hsame hjournal haccount =>
    refine h.congr hsame.objects hsame.dirty hsame.trie (fun {b prev} hmem => ?_) ?_
    · rw [hjournal] at hmem
      rcases mem_append.1 hmem with hmem | hmem
      · exact hmem
      · rw [← mem_singleton.1 hmem] at haccount
        cases haccount
    · intro r hr
      rw [hsame.revisions] at hr
      rw [hsame.nextId]
      exact h.revisions r hr

theorem unmark (h : st.Wf) (a : Address) : (st.unmark a).Wf :=
  ⟨h.objects, h.dead, fun b hb => h.dirty b (Finset.mem_of_mem_erase hb), h.trie, h.resets,
    h.revisions⟩

/-- **The undo methods keep a state well-formed.** -/
theorem undo {e : JournalEntry} (h : st.Wf) (he : e ∈ st.journal) (hundo : e.undo st = some st') :
    st'.Wf := by
  -- the object whose touched mark is taken back is not flagged
  have htouched : ∀ {a obj} {prev : Bool}, st.live a = some obj →
      ((st.load a).setStateObject a { obj with touched := prev }).Wf := by
    intro a obj prev hlive
    refine (h.load a).setStateObject ((h.live hlive).congr rfl rfl rfl) fun hdead => ?_
    change obj.deleted = true at hdead
    rw [(lookup_load_self hlive).2] at hdead
    cases hdead
  cases Undone.of_undo hundo with
  | forget a =>
    refine ⟨fun {b obj} hobj => ?_, fun {b obj} hobj => ?_, fun b hb => ?_, h.trie, h.resets,
      h.revisions⟩
    · exact h.objects (FinmapTotal.of_lookup_erase hobj).2
    · exact h.dead (FinmapTotal.of_lookup_erase hobj).2
    obtain ⟨hne, hmem⟩ := Finset.mem_erase.1 hb
    simp only [StateDB.unmark, lookup_erase_ne hne]
    exact h.dirty b hmem
  | reset a prev =>
    obtain ⟨hcoherent, hdeleted⟩ := h.resets he
    refine h.setStateObject hcoherent fun hdead => ?_
    rw [hdeleted] at hdead
    cases hdead
  | @load a _ ha => exact h.load a
  | @restore a obj obj' _ ha hlive hback =>
    refine (h.load a).update ?_ (hback.deleted.trans (lookup_load_self hlive).2)
    have hcoherent := h.live hlive
    cases hback with
    | storage a key prevalue => exact hcoherent.setState key prevalue
    | _ => exact hcoherent.congr rfl rfl rfl
  | touched hlive => exact htouched hlive
  | @unmarked a obj prev prevDirty hlive _ _ => exact (htouched hlive).unmark a
  | kept => exact h
  | refund prev | beside logs logSize preimages ha => exact h.congr rfl rfl rfl id h.revisions

theorem snapshot (h : st.Wf) : st.snapshot.2.Wf := by
  have hrun : StateOp.snapshot.run st = some st.snapshot.2 := rfl
  exact h.congr rfl rfl rfl id (h.revisions.run hrun)

/-- **Every operation keeps a state well-formed.** -/
theorem run (h : st.Wf) {op : StateOp} (hrun : op.run st = some st') : st'.Wf := by
  refine StateOp.invariant (fun ht hstep => ht.move (Move.of_step hstep)) (fun ht => ht.snapshot)
    (fun ht he hundo => ht.undo he hundo) (fun {t} k i ht => ?_) hrun h
  exact ht.congr rfl rfl rfl (fun hmem => mem_of_mem_take hmem)
    fun r hr => ht.revisions r (mem_of_mem_take hr)

theorem revertToSnapshot {revid : ℕ} (h : st.Wf) (hback : st.revertToSnapshot revid = some st') :
    st'.Wf := by
  have hrun : (StateOp.revertToSnapshot revid).run st = some st' := hback
  exact h.run hrun

/-! ### The end of a transaction and of a block -/

theorem deleteStateObject (h : st.Wf) (hcoherent : obj.Coherent)
    (hdead : (obj.suicided || obj.empty) = true) : (st.deleteStateObject a obj).Wf := by
  have hcoherent' : ({ obj with deleted := true } : StateObject).Coherent :=
    hcoherent.congr rfl rfl rfl
  refine h.store hcoherent' (fun _ => hdead) rfl (fun b hb => .inr hb) (fun {b data} hdata => ?_)
    (fun hb => h.resets hb) h.revisions
  refine h.trie (a := b) ?_
  by_cases hb : b = a
  · subst hb
    simp [StateDB.deleteStateObject] at hdata
  · simpa only [StateDB.deleteStateObject, lookup_erase_ne hb] using hdata

theorem updateStateObject (h : st.Wf) (hcoherent : obj.Coherent)
    (hdead : obj.deleted = true → (obj.suicided || obj.empty) = true)
    (hroot : Storage.Proper obj.data.root) : (st.updateStateObject a obj).Wf := by
  refine h.store hcoherent hdead rfl (fun b hb => .inr hb) (fun {b data} hdata => ?_)
    (fun hb => h.resets hb) h.revisions
  by_cases hb : b = a
  · subst hb
    simp only [StateDB.updateStateObject, lookup_insert, Option.some.injEq] at hdata
    exact hdata ▸ hroot
  · simp only [StateDB.updateStateObject, lookup_insert_of_ne _ hb] at hdata
    exact h.trie hdata

theorem clearJournalAndRefund (h : st.Wf) : st.clearJournalAndRefund.Wf :=
  h.congr rfl rfl rfl (fun hmem => absurd hmem not_mem_nil) (RevisionsOk.of_nil rfl)

theorem finaliseObject {d : Bool} (h : st.Wf) (hfin : st.finaliseObject d a = some st') :
    st'.Wf := by
  obtain ⟨obj, hobj, rfl⟩ := Option.map_eq_some_iff.1 hfin
  have hcoherent := h.objects hobj
  have hdead := h.dead hobj
  split_ifs with hdel
  · refine h.deleteStateObject hcoherent ?_
    cases hs : obj.suicided <;> cases he : obj.empty <;> simp [hs, he] at hdel ⊢
  · exact h.updateStateObject hcoherent.updateRoot hdead hcoherent.updateRoot.proper

theorem finalise {d : Bool} (h : st.Wf) (hfin : st.finalise d = some st') : st'.Wf := by
  obtain ⟨t, ht, rfl⟩ := Option.map_eq_some_iff.1 hfin
  exact (foldlM_induction (fun _ h hstep => h.finaliseObject hstep) h ht).clearJournalAndRefund

theorem commitObject {d : Bool} (h : st.Wf) (a : Address) : (st.commitObject d a).Wf := by
  unfold StateDB.commitObject
  cases hobj : st.stateObjects.lookup a with
  | none => exact h
  | some obj =>
    have hcoherent := h.objects hobj
    have hdead := h.dead hobj
    have hunmark := h.unmark a
    dsimp only
    split
    · rename_i hdel
      refine hunmark.deleteStateObject hcoherent ?_
      cases hs : obj.suicided <;> cases he : obj.empty <;> simp [hs, he] at hdel ⊢
    split
    · have hcoherent' : ({ obj.updateRoot with dirtyCode :=
          obj.dirtyCode && !(obj.code.isSome && obj.dirtyCode) } : StateObject).Coherent :=
        hcoherent.updateRoot.congr rfl rfl rfl
      have hwritten := hunmark.updateStateObject (a := a) hcoherent' hdead
        hcoherent.updateRoot.proper
      exact { hwritten with }
    · exact hunmark

theorem commitTo (h : st.Wf) (d : Bool) : (st.commitTo d).Wf := by
  refine clearJournalAndRefund ?_
  generalize sortedKeys st.stateObjects.keys = l
  induction l generalizing st with
  | nil => exact h
  | cons a l ih => exact ih (h.commitObject a)

theorem deleteSuicides (h : st.Wf) (hdel : st.deleteSuicides = some st') : st'.Wf := by
  refine foldlM_induction (fun {t a t'} _ h hstep => ?_) h.clearJournalAndRefund hdel
  obtain ⟨obj, hobj, rfl⟩ := Option.map_eq_some_iff.1 hstep
  split_ifs with hsuicided
  · have hcoherent : ({ obj with deleted := true } : StateObject).Coherent :=
      (h.objects hobj).congr rfl rfl rfl
    refine (h.setStateObject hcoherent fun _ => ?_).unmark a
    simp [hsuicided]
  · exact h.unmark a

end Wf

/-! ### Copies -/

variable {st c : StateDB}

omit [Crypto] in
theorem of_foldlM_copyObject {l : List Address} {t : StateDB}
    (h : l.foldlM st.copyObject t = some c) : c = { t with stateObjects := c.stateObjects } ∧
      (∀ b, c.stateObjects.lookup b =
        if b ∈ l then (st.stateObjects.lookup b).map deepCopy
        else t.stateObjects.lookup b) ∧
      ∀ b ∈ l, ∃ obj, st.stateObjects.lookup b = some obj := by
  induction l generalizing t with
  | nil =>
    cases h
    exact ⟨rfl, by simp, by simp⟩
  | cons a l ih =>
    obtain ⟨u, hu, hrest⟩ := Option.bind_eq_some_iff.1 h
    obtain ⟨obj, hobj, rfl⟩ := Option.map_eq_some_iff.1 hu
    obtain ⟨hc, hlookup, hthere⟩ := ih hrest
    refine ⟨by rw [hc]; rfl, fun b => ?_, fun b hb => ?_⟩
    · rw [hlookup b]
      by_cases hb : b ∈ l
      · rw [if_pos hb, if_pos (mem_cons_of_mem _ hb)]
      rw [if_neg hb]
      by_cases hab : b = a
      · subst hab
        rw [if_pos mem_cons_self, hobj]
        exact lookup_insert _
      · rw [if_neg (by simp [hab, hb])]
        exact lookup_insert_of_ne _ hab
    · rcases mem_cons.1 hb with rfl | hb
      · exact ⟨obj, hobj⟩
      · exact hthere b hb

theorem Wf.copy (h : st.Wf) (hcopy : st.copy = some c) : c.Wf := by
  obtain ⟨hc, hlookup, hthere⟩ := of_foldlM_copyObject hcopy
  have hfound : ∀ {b found}, c.stateObjects.lookup b = some found →
      ∃ obj, st.stateObjects.lookup b = some obj ∧ found = obj.deepCopy := by
    intro b found hb
    rw [hlookup b] at hb
    split_ifs at hb
    · obtain ⟨obj, hobj, rfl⟩ := Option.map_eq_some_iff.1 hb
      exact ⟨obj, hobj, rfl⟩
    · simp [new] at hb
  refine ⟨fun hobj => ?_, fun hobj hdeleted => ?_, fun b hb => ?_, fun hdata => ?_,
    fun hmem => ?_, ?_⟩
  · obtain ⟨obj, horig, rfl⟩ := hfound hobj
    exact (h.objects horig).deepCopy
  · obtain ⟨obj, horig, rfl⟩ := hfound hobj
    have hdead := h.dead horig
    exact hdead hdeleted
  · have hb' : b ∈ st.stateObjectsDirty := by
      rw [hc] at hb
      exact hb
    obtain ⟨obj, hobj⟩ := h.dirty b hb'
    rw [hlookup b, if_pos (mem_sortedKeys.2 hb'), hobj]
    exact ⟨obj.deepCopy, rfl⟩
  · rw [hc] at hdata
    exact h.trie hdata
  · rw [hc] at hmem
    exact absurd hmem not_mem_nil
  · rw [hc]
    exact RevisionsOk.of_nil rfl

/-! ### The states of the program -/

/-- The storage tries below an account trie have no zero entries. -/
def ProperTrie (trie : Finmap fun _ : Address => Account) : Prop :=
  ∀ {a data}, trie.lookup a = some data → Storage.Proper data.root

/-- The states of the program, opened at tries without zero entries. -/
inductive Built : StateDB → Prop
  | new {trie : Finmap fun _ : Address => Account} (codes : Finmap fun _ : Hash => Bytes) :
      ProperTrie trie → Built (StateDB.new trie codes)
  | run {st st' : StateDB} (op : StateOp) : Built st → op.run st = some st' → Built st'
  | refund {st : StateDB} (refund : ℤ) : Built st → Built { st with refund := refund }
  | prepare {st : StateDB} (thash bhash : Hash) (txIndex : ℕ) : Built st →
      Built (st.prepare thash bhash txIndex)
  | finalise {st st' : StateDB} (deleteEmptyObjects : Bool) : Built st →
      st.finalise deleteEmptyObjects = some st' → Built st'
  | commitTo {st : StateDB} (deleteEmptyObjects : Bool) : Built st →
      Built (st.commitTo deleteEmptyObjects)
  | deleteSuicides {st st' : StateDB} : Built st → st.deleteSuicides = some st' → Built st'
  | copy {st st' : StateDB} : Built st → st.copy = some st' → Built st'
  | reset {st : StateDB} {trie : Finmap fun _ : Address => Account} : Built st →
      ProperTrie trie → Built (st.reset trie)

theorem wf_new {trie : Finmap fun _ : Address => Account} (h : ProperTrie trie)
    (codes : Finmap fun _ : Hash => Bytes) : (StateDB.new trie codes).Wf :=
  ⟨by simp [new], by simp [new], by simp [new], h, by simp [new], RevisionsOk.of_nil rfl⟩

/-- **The states of the program are well-formed.** -/
theorem Built.wf (h : st.Built) : st.Wf := by
  induction h with
  | new codes htrie => exact wf_new htrie codes
  | run op _ hrun ih => exact ih.run hrun
  | refund refund _ ih | prepare thash bhash txIndex _ ih =>
    exact ih.congr rfl rfl rfl id ih.revisions
  | finalise deleteEmptyObjects _ hfin ih => exact ih.finalise hfin
  | commitTo deleteEmptyObjects _ ih => exact ih.commitTo deleteEmptyObjects
  | deleteSuicides _ hdel ih => exact ih.deleteSuicides hdel
  | copy _ hcopy ih => exact ih.copy hcopy
  | @reset st trie _ htrie _ =>
    exact (wf_new htrie st.codes).congr rfl rfl rfl id (RevisionsOk.of_nil rfl)

/-! ### The account trie after `Finalise` -/

/-- What `Finalise` leaves in the account trie at an address. -/
def entryAt (st : StateDB) (deleteEmptyObjects : Bool) (a : Address) : Option Account :=
  if a ∈ st.stateObjectsDirty then
    (st.stateObjects.lookup a).bind (entry deleteEmptyObjects)
  else st.trie.lookup a

theorem exists_finaliseObject {d : Bool} {a : Address} {obj : StateObject}
    (h : st.stateObjects.lookup a = some obj) :
    ∃ t, st.finaliseObject d a = some t ∧ t.trie.lookup a = obj.entry d ∧
      ∀ b, b ≠ a → t.trie.lookup b = st.trie.lookup b ∧
        t.stateObjects.lookup b = st.stateObjects.lookup b := by
  unfold finaliseObject
  rw [h, Option.map_some]
  refine ⟨_, rfl, ?_, fun b hb => ?_⟩
  · unfold entry
    split_ifs
    · simp [deleteStateObject]
    · simp [updateStateObject, lookup_insert]
  · split_ifs
    · exact ⟨lookup_erase_ne hb, lookup_insert_of_ne _ hb⟩
    · exact ⟨lookup_insert_of_ne _ hb, lookup_insert_of_ne _ hb⟩

theorem exists_foldlM_finaliseObject {d : Bool} {l : List Address} (hnodup : l.Nodup)
    (h : ∀ a ∈ l, ∃ obj, st.stateObjects.lookup a = some obj) :
    ∃ t, l.foldlM (finaliseObject d) st = some t ∧ ∀ a, t.trie.lookup a =
      if a ∈ l then (st.stateObjects.lookup a).bind (entry d)
      else st.trie.lookup a := by
  induction l generalizing st with
  | nil => exact ⟨st, rfl, by simp⟩
  | cons a l ih =>
    obtain ⟨obj, hobj⟩ := h a mem_cons_self
    obtain ⟨hnot, hnodup⟩ := nodup_cons.1 hnodup
    obtain ⟨t, ht, hself, hother⟩ := exists_finaliseObject (d := d) hobj
    have hne : ∀ {b}, b ∈ l → b ≠ a := by
      rintro b hb rfl
      exact hnot hb
    have hthere : ∀ b ∈ l, ∃ obj, t.stateObjects.lookup b = some obj := by
      intro b hb
      rw [(hother b (hne hb)).2]
      exact h b (mem_cons_of_mem _ hb)
    obtain ⟨u, hu, hlookup⟩ := ih hnodup hthere
    refine ⟨u, ?_, fun b => ?_⟩
    · rw [foldlM_cons, ht]
      exact hu
    rw [hlookup b]
    by_cases hb : b ∈ l
    · rw [if_pos hb, if_pos (mem_cons_of_mem _ hb), (hother b (hne hb)).2]
    rw [if_neg hb]
    by_cases hab : b = a
    · subst hab
      rw [if_pos mem_cons_self, hself, hobj]
      rfl
    · rw [if_neg (by simp [hab, hb]), (hother b hab).1]

/-- **`Finalise` writes back the dirty objects.** -/
theorem exists_finalise (h : st.Wf) (d : Bool) :
    ∃ t, st.finalise d = some t ∧ ∀ a, t.trie.lookup a = st.entryAt d a := by
  obtain ⟨t, ht, hlookup⟩ := exists_foldlM_finaliseObject (d := d)
    (nodup_sortedKeys st.stateObjectsDirty) fun a ha => h.dirty a (mem_sortedKeys.1 ha)
  refine ⟨t.clearJournalAndRefund, by rw [finalise, ht]; rfl, fun a => ?_⟩
  change t.trie.lookup a = _
  simp only [hlookup a, entryAt, mem_sortedKeys]

end

end StateDB

namespace Payments

open scoped Payments

theorem lookup_state {a : Address} {data : Account} (h : state.trie.lookup a = some data) :
    data = owner 1000000 ∨ data = owner 5 := by
  by_cases hpayee : a = payee
  · subst hpayee
    exact .inr (Option.some.inj h).symm
  have hother : state.trie.lookup a = ((∅ : Finmap fun _ : Address => Account).insert payer
      (owner 1000000)).lookup a := lookup_insert_of_ne _ hpayee
  rw [hother] at h
  by_cases hpayer : a = payer
  · subst hpayer
    exact .inl (Option.some.inj h).symm
  · rw [lookup_insert_of_ne _ hpayer] at h
    cases h

theorem properTrie_state : StateDB.ProperTrie state.trie := by
  intro a data h
  rcases lookup_state h with rfl | rfl <;> exact Storage.Proper.empty

end Payments
