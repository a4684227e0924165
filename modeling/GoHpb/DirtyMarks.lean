/-
**Dirty marks and going back.**

`Finalise` writes back the objects that are marked as dirty.  An object is marked by its first
change, through a callback that is then used up; undoing a change leaves the mark where it is,
except for the touch of an account that was empty, whose mark is taken back while the callback
stays used up.

An account is *settled* if what `Finalise` leaves of it is what its object shows, and stays so: it
is marked and its callback is used up, or its callback is still set, no touch can use it up for
nothing, and without a mark the trie already has what would be written.  An account that was
destroyed before it ever got into the trie may be marked or not.

This module shows that settled accounts stay settled, whatever is done and taken back.

Main results:

* `StateDB.Tidy.step` — **the steps keep the invariant**;
* `StateDB.Tidy.undo` — **undoing the newest entry keeps it**.
-/

import GoHpb.StateMoves

open UndoJournal Relation List

namespace StateDB

variable [Crypto]

/-! ### Settled accounts -/

/-- What `Finalise` leaves of the account is what its object shows, and stays so. -/
def Settles (st : StateDB) (a : Address) (obj : StateObject) : Prop :=
  (a ∈ st.stateObjectsDirty ∧ obj.onDirty = false) ∨
    (obj.onDirty = true ∧ (obj.empty = false ∨ obj.touched = true ∨ a = ripemd) ∧
      (a ∈ st.stateObjectsDirty ∨ obj.entry true = st.trie.lookup a))

variable (V : Set Address) (es : List JournalEntry)

/-- One of the accounts `V` that was not created anew since. -/
def Void (a : Address) : Prop :=
  a ∈ V ∧ ∀ prev, .resetObjectChange a prev ∉ es

/-- What an entry relies on when it is undone, after the entries `es` before it. -/
def Guard : JournalEntry → Prop
  | .createObjectChange a => a ∉ V ∧ ∀ e ∈ es, e.account ≠ some a
  | .resetObjectChange a prev =>
    ((∃ e ∈ es, e.account = some a) → prev.onDirty = false ∨ Void V es a) ∧
      (prev.onDirty = true →
        (prev.empty = false ∨ prev.touched = true ∨ a = ripemd) ∨ Void V es a)
  | .touchChange a prev prevDirty =>
    prev = false → a ≠ ripemd → prevDirty = false → Void V es a
  | _ => True

/-- Every entry has what it relies on. -/
def Guarded : Prop :=
  ∀ before e after, es = before ++ e :: after → Guard V before e

/-- The invariant for one account. -/
structure Held (V : Set Address) (es : List JournalEntry) (st : StateDB) (a : Address) : Prop where
  fine : ∀ {obj}, st.live a = some obj → st.Settles a obj ∨ Void V es a
  marked : (∃ e ∈ es, e.account = some a) →
    (a ∈ st.stateObjectsDirty ∧ ∃ obj, st.live a = some obj ∧ obj.onDirty = false) ∨ Void V es a
  there : a ∈ V → ∃ obj, st.live a = some obj

/-- The invariant, after the entries `es`. -/
structure Tidy (V : Set Address) (es : List JournalEntry) (st : StateDB) : Prop where
  wf : st.Wf
  noGhost : st.NoGhost
  guarded : Guarded V es
  held : ∀ a, Held V es st a

variable {V : Set Address} {es fs : List JournalEntry} {e : JournalEntry} {st st' : StateDB}
  {a b : Address} {obj obj' : StateObject}

omit [Crypto] in
theorem Void.of_append (h : Void V (es ++ fs) a) : Void V es a :=
  ⟨h.1, fun prev hmem => h.2 prev (mem_append_left _ hmem)⟩

omit [Crypto] in
theorem Void.concat (h : Void V es a) (he : ∀ prev, e ≠ .resetObjectChange a prev) :
    Void V (es ++ [e]) a := by
  refine ⟨h.1, fun prev hmem => ?_⟩
  rcases mem_append.1 hmem with hmem | hmem
  · exact h.2 prev hmem
  · exact he prev (mem_singleton.1 hmem).symm

theorem guarded_nil (V : Set Address) : Guarded V [] := by
  intro before e after h
  simp at h

theorem guarded_concat : Guarded V (es ++ [e]) ↔ Guarded V es ∧ Guard V es e := by
  constructor
  · intro h
    refine ⟨fun before f after heq => h before f (after ++ [e]) (by rw [heq]; simp), ?_⟩
    exact h es e [] rfl
  rintro ⟨hes, he⟩ before f after heq
  rcases eq_nil_or_concat after with rfl | ⟨after, last, rfl⟩
  · obtain ⟨rfl, hlast⟩ := append_inj' heq rfl
    cases hlast
    exact he
  · rw [concat_eq_append, ← cons_append, ← append_assoc] at heq
    obtain ⟨rfl, -⟩ := append_inj' heq rfl
    exact hes before f after rfl

/-! ### Changes that are confined to one account -/

theorem Held.of_used (hlive : st.live a = some obj) (hused : obj.onDirty = false)
    (hdirty : a ∈ st.stateObjectsDirty ∨ Void V es a) : Held V es st a := by
  refine ⟨fun {found} hfound => ?_, fun _ => ?_, fun _ => ⟨obj, hlive⟩⟩
  · rw [hlive] at hfound
    cases hfound
    exact hdirty.imp_left fun h => .inl ⟨h, hused⟩
  · exact hdirty.imp_left fun h => ⟨h, obj, hlive, hused⟩

theorem Held.congr (h : Held V es st b) (hlive : st'.live b = st.live b)
    (hdirty : b ∈ st'.stateObjectsDirty ↔ b ∈ st.stateObjectsDirty) (htrie : st'.trie = st.trie)
    (hentries : ∀ e, e.account = some b → (e ∈ fs ↔ e ∈ es)) : Held V fs st' b := by
  have hvoid : Void V es b → Void V fs b := fun hvoid =>
    ⟨hvoid.1, fun prev hmem => hvoid.2 prev ((hentries _ rfl).1 hmem)⟩
  refine ⟨fun {obj} hobj => ?_, fun ⟨e, he, hb⟩ => ?_, fun hb => ?_⟩
  · rw [hlive] at hobj
    refine (h.fine hobj).imp ?_ hvoid
    unfold Settles
    rw [hdirty, htrie]
    exact id
  · rw [hlive, hdirty]
    exact (h.marked ⟨e, (hentries e hb).1 he, hb⟩).imp_right hvoid
  · rw [hlive]
    exact h.there hb

theorem Tidy.confined {o : Option Address} (h : Tidy V es st) (hlocal : Local o st st')
    (hwf : st'.Wf) (hghost : st'.NoGhost) (hguarded : Guarded V fs)
    (hentries : ∀ b e, o ≠ some b → e.account = some b → (e ∈ fs ↔ e ∈ es))
    (hself : ∀ a, o = some a → Held V fs st' a) : Tidy V fs st' := by
  refine ⟨hwf, hghost, hguarded, fun b => ?_⟩
  by_cases hb : o = some b
  · exact hself b hb
  · exact (h.held b).congr (hlocal.live hb) (hlocal.dirty b hb) hlocal.trie (hentries b · hb)

omit [Crypto] in
theorem mem_concat_iff_of_ne {o : Option Address} (he : e.account = none ∨ e.account = o) :
    ∀ b f, o ≠ some b → f.account = some b → (f ∈ es ++ [e] ↔ f ∈ es) := by
  intro b f hb hf
  rw [mem_append, mem_singleton, or_iff_left]
  rintro rfl
  rcases he with he | he
  · rw [hf] at he
    cases he
  · exact hb (he.symm.trans hf)

/-! ### Steps -/

theorem Held.mem_dirty (h : Held V es st a) (hlive : st.live a = some obj)
    (hflag : obj'.onDirty = obj.onDirty) :
    a ∈ (((st.load a).record e).update a obj').stateObjectsDirty ∨ Void V es a := by
  rw [mem_dirty_update, hflag]
  have hload : ((st.load a).record e).stateObjectsDirty = st.stateObjectsDirty :=
    stateObjectsDirty_load
  rw [hload]
  rcases h.fine hlive with hsettles | hvoid
  · rcases hsettles with ⟨hdirty, -⟩ | ⟨harmed, -⟩
    · exact .inl (.inr hdirty)
    · exact .inl (.inl harmed)
  · exact .inr hvoid

theorem Held.write (h : Held V es st a) (hlive : st.live a = some obj)
    (hflag : obj'.onDirty = obj.onDirty) (hdeleted : obj'.deleted = false)
    (he : ∀ prev, e ≠ .resetObjectChange a prev) :
    Held V (es ++ [e]) (((st.load a).record e).update a obj') a :=
  Held.of_used (live_update_self hdeleted) rfl
    ((h.mem_dirty hlive hflag).imp_right fun hvoid => hvoid.concat he)

theorem Tidy.guard_creation (h : Tidy V es st) (a : Address) : Guard V es (st.creation a) := by
  unfold creation
  cases hlive : st.live a with
  | none =>
    -- an account with entries is there, and so are those of `V`
    have hnot : a ∉ V := fun ha => by
      obtain ⟨obj, hobj⟩ := (h.held a).there ha
      rw [hlive] at hobj
      cases hobj
    refine ⟨hnot, fun e he ha => ?_⟩
    rcases (h.held a).marked ⟨e, he, ha⟩ with ⟨-, obj, hobj, -⟩ | hvoid
    · rw [hlive] at hobj
      cases hobj
    · exact hnot hvoid.1
  | some prev =>
    refine ⟨fun hearlier => ?_, fun harmed => ?_⟩
    · rcases (h.held a).marked hearlier with ⟨-, obj, hobj, hused⟩ | hvoid
      · rw [hlive] at hobj
        cases hobj
        exact .inl hused
      · exact .inr hvoid
    · refine ((h.held a).fine hlive).imp_left fun hsettles => ?_
      rcases hsettles with ⟨-, hused⟩ | ⟨-, hkept, -⟩
      · rw [hused] at harmed
        cases harmed
      · exact hkept

/-- **The steps keep the invariant.** -/
theorem Tidy.step {op : StateOp} (h : Tidy V es st) (hstep : Step op st st') :
    ∃ fs, st'.journal = st.journal ++ fs ∧ Tidy V (es ++ fs) st' := by
  have hmove := Move.of_step hstep
  have hwf := h.wf.move hmove
  have hghost := (Tracks.step h.noGhost hstep).noGhost
  cases hmove with
  | load a =>
    refine ⟨[], by simp, ?_⟩
    rw [append_nil]
    refine h.confined (Local.load st a) hwf hghost h.guarded (fun _ _ _ _ => Iff.rfl) ?_
    rintro _ ⟨⟩
    exact (h.held a).congr (live_load st a) (by simp) trie_load fun _ _ => Iff.rfl
  | @cache a obj obj' hlive hrewrites hview =>
    have hkept : obj'.deleted = false := hrewrites.deleted.trans (lookup_load_self hlive).2
    have hlive' : ((st.load a).setStateObject a obj').live a = some obj' :=
      live_setStateObject_self hkept
    have hdirty : a ∈ ((st.load a).setStateObject a obj').stateObjectsDirty ↔
        a ∈ st.stateObjectsDirty := by
      change a ∈ (st.load a).stateObjectsDirty ↔ _
      rw [stateObjectsDirty_load]
    have htrie : ((st.load a).setStateObject a obj').trie = st.trie := trie_load
    have hcoherent := h.wf.live hlive
    have hentry : obj'.entry true = obj.entry true :=
      (hrewrites.coherent hcoherent).entry_eq hcoherent hview
    refine ⟨[], by simp [setStateObject], ?_⟩
    rw [append_nil]
    refine h.confined (Local.cache st a obj') hwf hghost h.guarded (fun _ _ _ _ => Iff.rfl) ?_
    rintro _ ⟨⟩
    -- the object is seen as before, and its flags are the same
    refine ⟨fun {found} hfound => ?_, fun hearlier => ?_, fun _ => ⟨obj', hlive'⟩⟩
    · rw [hlive'] at hfound
      cases hfound
      refine ((h.held a).fine hlive).imp_left ?_
      unfold Settles
      rw [hdirty, htrie, hrewrites.onDirty, hrewrites.touched,
        StateObject.empty_congr hview, hentry]
      exact id
    · refine ((h.held a).marked hearlier).imp_left ?_
      rintro ⟨hmem, found, hfound, hused⟩
      rw [hlive] at hfound
      cases hfound
      exact ⟨hdirty.2 hmem, obj', hlive', hrewrites.onDirty.trans hused⟩
  | @create a obj hcoherent hdeleted harmed =>
    refine ⟨[st.creation a], by simp [record, update], ?_⟩
    refine h.confined (Local.write account_creation obj) hwf hghost
      (guarded_concat.2 ⟨h.guarded, h.guard_creation a⟩)
      (mem_concat_iff_of_ne (.inr account_creation)) ?_
    rintro _ ⟨⟩
    exact Held.of_used (live_update_self hdeleted) rfl (.inl (mem_dirty_update.2 (.inl harmed)))
  | @write a obj obj' e hlive hrewrites hchange haccount =>
    refine ⟨[e], by simp [record, update], ?_⟩
    have hguard : Guard V es e := by
      cases e <;> first | exact absurd hchange id | exact trivial
    refine h.confined (Local.write haccount obj') hwf hghost
      (guarded_concat.2 ⟨h.guarded, hguard⟩) (mem_concat_iff_of_ne (.inr haccount)) ?_
    rintro _ ⟨⟩
    refine (h.held a).write hlive hrewrites.onDirty
      (hrewrites.deleted.trans (lookup_load_self hlive).2) ?_
    rintro prev rfl
    exact absurd hchange id
  | @touch a obj hlive hempty =>
    refine ⟨[.touchChange a obj.touched (!obj.onDirty)], by simp [record, update], ?_⟩
    have hguard : Guard V es (.touchChange a obj.touched (!obj.onDirty)) := by
      -- the callback of an empty account is used up for the first time
      intro htouched hripemd harmed
      rcases (h.held a).fine hlive with hsettles | hvoid
      · rcases hsettles with ⟨-, hused⟩ | ⟨-, hkept, -⟩
        · rw [hused] at harmed
          cases harmed
        rcases hkept with hkept | hkept | hkept
        · rw [hempty] at hkept
          cases hkept
        · rw [htouched] at hkept
          cases hkept
        · exact absurd hkept hripemd
      · exact hvoid
    refine h.confined (Local.write rfl _) hwf hghost (guarded_concat.2 ⟨h.guarded, hguard⟩)
      (mem_concat_iff_of_ne (.inr rfl)) ?_
    rintro _ ⟨⟩
    refine (h.held a).write hlive rfl (lookup_load_self hlive).2 fun prev he => ?_
    cases he
  | @aside _ e hsame hjournal haccount =>
    refine ⟨[e], hjournal, ?_⟩
    have hguard : Guard V es e := by
      cases e <;> first | exact trivial | cases haccount
    refine h.confined (hsame.confined hjournal haccount) hwf hghost
      (guarded_concat.2 ⟨h.guarded, hguard⟩) (mem_concat_iff_of_ne (.inl haccount)) ?_
    rintro a ⟨⟩

theorem Tidy.run {op : StateOp} (h : Tidy V es st) (hdirect : op.Direct)
    (hrun : op.run st = some st') :
    ∃ fs, st'.journal = st.journal ++ fs ∧ Tidy V (es ++ fs) st' := by
  refine StateOp.induction (P := fun t => ∃ fs, t.journal = st.journal ++ fs ∧ Tidy V (es ++ fs) t)
    hdirect hrun (fun ht hstep => ?_) ⟨[], by simp, by simpa using h⟩
  obtain ⟨fs, hfs, htidy⟩ := ht
  obtain ⟨gs, hgs, htidy⟩ := htidy.step hstep
  exact ⟨fs ++ gs, by rw [hgs, hfs, append_assoc], by rwa [← append_assoc]⟩

/-! ### Undoing -/

theorem Tidy.held_undo (h : Tidy V (es ++ [e]) st) (he : e ∈ st.journal)
    (htrie : ∀ b, e = .createObjectChange b → st.trie.lookup b = none)
    (hundo : e.undo st = some st') (ha : e.account = some a) : Held V es st' a := by
  obtain ⟨-, hguard⟩ := guarded_concat.1 h.guarded
  -- the account of the newest entry is marked
  have hmarked := ((h.held a).marked ⟨e, by simp, ha⟩).imp_right Void.of_append
  have hkept : Held V es st a := by
    rcases hmarked with ⟨hmem, obj, hobj, hused⟩ | hvoid
    · exact Held.of_used hobj hused (.inl hmem)
    · exact ⟨fun _ => .inr hvoid, fun _ => .inr hvoid, (h.held a).there⟩
  cases Undone.of_undo hundo with
  | forget account =>
    cases ha
    -- the account is gone, and no earlier entry is about it
    have hlive : (({ st with stateObjects := st.stateObjects.erase a } : StateDB).unmark
        a).live a = none := by
      rw [live_eq]
      simp [unmark, htrie a rfl]
    refine ⟨fun hobj => ?_, ?_, fun ha => absurd ha hguard.1⟩
    · rw [hlive] at hobj
      cases hobj
    · rintro ⟨e, he, ha⟩
      exact absurd ha (hguard.2 e he)
  | reset account prev =>
    cases ha
    obtain ⟨hearlier, hprev⟩ := hguard
    have hlive : (st.setStateObject a prev).live a = some prev :=
      live_setStateObject_self (h.wf.resets he).2
    -- the object that is replaced was marked when it was created
    have hdirty : a ∈ st.stateObjectsDirty := by
      rcases (h.held a).marked ⟨_, mem_append_right _ mem_cons_self, rfl⟩ with
        ⟨hdirty, -⟩ | hvoid
      · exact hdirty
      · exact absurd (mem_append_right _ mem_cons_self) (hvoid.2 prev)
    refine ⟨fun {found} hfound => ?_, fun hbefore => ?_, fun _ => ⟨prev, hlive⟩⟩
    · rw [hlive] at hfound
      cases hfound
      cases harmed : prev.onDirty with
      | false => exact .inl (.inl ⟨hdirty, harmed⟩)
      | true => exact (hprev harmed).imp_left fun h => .inr ⟨harmed, h, .inl hdirty⟩
    · exact (hearlier hbefore).imp_left fun hused => ⟨hdirty, prev, hlive, hused⟩
  | @load account _ haccount =>
    obtain rfl := Option.some.inj (ha.symm.trans haccount)
    exact hkept.congr (live_load st a) (by simp) trie_load fun _ _ => Iff.rfl
  | @restore account obj obj' _ haccount hlive hback =>
    obtain rfl := Option.some.inj (ha.symm.trans haccount)
    refine Held.of_used (live_update_self (hback.deleted.trans (lookup_load_self hlive).2)) rfl
      (hmarked.imp_left fun hdirty => mem_dirty_update.2 (.inr ?_))
    rw [stateObjectsDirty_load]
    exact hdirty.1
  | @touched account obj prev prevDirty hlive =>
    cases ha
    -- the mark stays
    have hlive' : ((st.load a).setStateObject a
        { obj with touched := prev }).live a = some { obj with touched := prev } :=
      live_setStateObject_self (lookup_load_self hlive).2
    rcases hmarked with ⟨hmem, found, hfound, hused⟩ | hvoid
    · rw [hlive] at hfound
      cases hfound
      refine Held.of_used hlive' hused (.inl ?_)
      change a ∈ (st.load a).stateObjectsDirty
      rwa [stateObjectsDirty_load]
    · exact ⟨fun _ => .inr hvoid, fun _ => .inr hvoid, fun _ => ⟨_, hlive'⟩⟩
  | @unmarked account obj prev prevDirty hlive hfirst hdirty =>
    cases ha
    -- the mark is taken back
    have hvoid := hguard hfirst.1 hfirst.2 hdirty
    refine ⟨fun _ => .inr hvoid, fun _ => .inr hvoid, fun _ => ⟨{ obj with touched := prev }, ?_⟩⟩
    exact live_of_lookup (Finmap.lookup_insert _) (lookup_load_self hlive).2
  | kept => exact hkept
  | refund prev => cases ha
  | beside logs logSize preimages hnone =>
    rw [ha] at hnone
    cases hnone

/-- **Undoing the newest entry keeps the invariant.** -/
theorem Tidy.undo {v : View} (h : Tidy V (es ++ [e]) st) (he : e ∈ st.journal)
    (hlink : ViewLink st.trie st.codes v e st.view) :
    ∃ st', e.undo st = some st' ∧ st'.view = v ∧ Tidy V es st' := by
  obtain ⟨st', hundo, hview, hghost⟩ := hlink.undo
  have htrie : ∀ b, e = .createObjectChange b → st.trie.lookup b = none := by
    rintro b rfl
    generalize st.view = w at hlink
    cases hlink with
    | create hnone htrie => exact htrie
  refine ⟨st', hundo, hview, h.confined (Local.undo hundo) (h.wf.undo he hundo) (hghost h.noGhost)
    (guarded_concat.1 h.guarded).1 (fun b f hb hf => ?_) fun a ha => ?_⟩
  · exact (mem_concat_iff_of_ne (.inr rfl) b f hb hf).symm
  · exact h.held_undo he htrie hundo ha

/-! ### What is written back -/

/-- The accounts that may be marked or not are destroyed, and not in the trie. -/
def VoidGone (V : Set Address) (es : List JournalEntry) (st : StateDB) : Prop :=
  ∀ a, Void V es a → st.trie.lookup a = none ∧
    ∀ obj, st.live a = some obj → obj.suicided = true

/-- **What `Finalise` leaves of an account is what its object shows.** -/
theorem Tidy.entryAt_eq (h : Tidy V es st) (hvoid : VoidGone V es st) (a : Address) :
    st.entryAt true a = (st.live a).bind (StateObject.entry true) := by
  unfold entryAt
  cases hlive : st.live a with
  | none =>
    have htrie := h.noGhost.lookup_eq_none hlive
    rw [htrie]
    split_ifs with hdirty
    · -- a marked object that is hidden is deleted again
      obtain ⟨found, hfound⟩ := h.wf.dirty a hdirty
      rcases of_live_none hlive with ⟨obj, hobj, hdeleted⟩ | ⟨hnone, -⟩
      · have hdead := h.wf.dead hobj hdeleted
        rw [hobj]
        simp [StateObject.entry, hdead]
      · rw [hnone] at hfound
        cases hfound
    · rfl
  | some obj =>
    have hentry : a ∈ st.stateObjectsDirty →
        (st.stateObjects.lookup a).bind (StateObject.entry true) = obj.entry true := by
      intro hdirty
      rw [h.wf.lookup_of_dirty hlive hdirty]
      rfl
    have hclean : a ∉ st.stateObjectsDirty → st.trie.lookup a = obj.entry true := by
      intro hclean
      rcases (h.held a).fine hlive with hsettles | hgone
      · rcases hsettles with ⟨hdirty, -⟩ | ⟨-, -, hdirty | hsame⟩
        · exact absurd hdirty hclean
        · exact absurd hdirty hclean
        · exact hsame.symm
      · obtain ⟨htrie, hsuicided⟩ := hvoid a hgone
        rw [htrie]
        simp [StateObject.entry, hsuicided obj hlive]
    split_ifs with hdirty
    · exact hentry hdirty
    · exact hclean hdirty

end StateDB
