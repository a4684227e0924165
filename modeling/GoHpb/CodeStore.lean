/-
**The database of codes, and what a commit writes.**

The codes of the contracts are stored in the database under their digests, and a state object keeps
the code it has read or been given.  The states are *digested* if every code is stored, kept and
journalled under its digest; then no commit changes what the database already had, as long as the
digests of the codes in play do not collide.  They are *complete* if the code of every account can
be found.

`CommitTo` goes through the live objects once.  What it leaves of an account in the trie depends on
that account only.

Main results:

* `StateDB.Digested.run`, `StateDB.Digested.finalise`, … — **the states stay digested**;
* `StateDB.Committed.of_commitTo` — **what `CommitTo` does**, account by account.
-/

import GoHpb.StateMoves

open UndoJournal List StateObject

variable [Crypto]

/-! ### Digests -/

/-- The code an object keeps has the digest of its account. -/
def StateObject.Digested (pool : Set Bytes) (obj : StateObject) : Prop :=
  ∀ code, obj.code = some code → obj.data.codeHash = Crypto.keccak256 code ∧ code ∈ pool

/-- The codes in an entry of the journal stand under their digests. -/
def JournalEntry.Digested (pool : Set Bytes) : JournalEntry → Prop
  | resetObjectChange _ prev => prev.Digested pool
  | codeChange _ prevcode prevhash =>
    ∀ code, prevcode = some code → prevhash = Crypto.keccak256 code ∧ code ∈ pool
  | _ => True

/-- An operation that sets a code of the pool, if it sets one. -/
def StateOp.Within (pool : Set Bytes) : StateOp → Prop
  | setCode _ code => code ∈ pool
  | _ => True

namespace StateDB

/-- Every code is stored, kept and journalled under its digest. -/
structure Digested (pool : Set Bytes) (st : StateDB) : Prop where
  codes : ∀ hash code, st.codes.lookup hash = some code →
    hash = Crypto.keccak256 code ∧ code ∈ pool
  objects : ∀ {a obj}, st.stateObjects.lookup a = some obj → obj.Digested pool
  journal : ∀ e ∈ st.journal, e.Digested pool

variable {pool : Set Bytes} {st st' : StateDB} {a b : Address} {obj obj' : StateObject}
  {e : JournalEntry}

theorem digested_new {trie : Finmap fun _ : Address => Account}
    {codes : Finmap fun _ : Hash => Bytes} (h : ∀ hash code, codes.lookup hash = some code →
      hash = Crypto.keccak256 code ∧ code ∈ pool) : (StateDB.new trie codes).Digested pool :=
  ⟨h, by simp [new], by simp [new]⟩

namespace Digested

variable (h : st.Digested pool)
include h

theorem live (ha : st.live a = some obj) : obj.Digested pool := by
  rcases of_live ha with ⟨hobj, -⟩ | ⟨-, data, -, rfl⟩
  · exact h.objects hobj
  · intro code hcode
    cases hcode

theorem congr (hcodes : st'.codes = st.codes)
    (hobjects : st'.stateObjects = st.stateObjects)
    (hjournal : ∀ e ∈ st'.journal, e ∈ st.journal) : st'.Digested pool := by
  refine ⟨fun hash code hcode => ?_, fun {a obj} hobj => ?_, fun e he => ?_⟩
  · rw [hcodes] at hcode
    exact h.codes hash code hcode
  · rw [hobjects] at hobj
    exact h.objects hobj
  · exact h.journal e (hjournal e he)

theorem store (hobj : obj.Digested pool) (hcodes : st'.codes = st.codes)
    (hobjects : st'.stateObjects = st.stateObjects.insert a obj)
    (hjournal : st'.journal = st.journal) : st'.Digested pool := by
  refine ⟨fun hash code hcode => ?_, fun {b found} hfound => ?_, fun e he => ?_⟩
  · rw [hcodes] at hcode
    exact h.codes hash code hcode
  · rw [hobjects] at hfound
    rcases FinmapTotal.of_lookup_insert hfound with ⟨-, rfl⟩ | ⟨-, hold⟩
    · exact hobj
    · exact h.objects hold
  · rw [hjournal] at he
    exact h.journal e he

theorem load (a : Address) : (st.load a).Digested pool := by
  rcases load_cases st a with hsame | ⟨-, data, -, hsame⟩ <;> rw [hsame]
  · exact h
  · refine h.store (fun code hcode => ?_) rfl rfl rfl
    cases hcode

theorem setStateObject (hobj : obj.Digested pool) :
    (st.setStateObject a obj).Digested pool :=
  h.store hobj rfl rfl rfl

theorem update (hobj : obj.Digested pool) :
    (st.update a obj).Digested pool := by
  have hkept : ({ obj with onDirty := false } : StateObject).Digested pool := hobj
  exact h.store hkept rfl rfl rfl

theorem record (he : e.Digested pool) : (st.record e).Digested pool := by
  refine ⟨h.codes, h.objects, fun f hf => ?_⟩
  rcases mem_append.1 hf with hf | hf
  · exact h.journal f hf
  · obtain rfl := mem_singleton.1 hf
    exact he

theorem readCode (hobj : obj.Digested pool) :
    (obj.readCode st.codes).Digested pool := by
  unfold StateObject.readCode
  split
  · exact hobj
  split_ifs with hempty
  · exact hobj
  · intro code hcode
    exact h.codes _ code hcode

omit h

variable {op : StateOp}

theorem edit (h : st.Digested pool) (hop : op.Within pool) (hobj : obj.Digested pool)
    (hedit : obj.Edit op st.codes a e obj') : e.Digested pool ∧ obj'.Digested pool := by
  cases hedit with
  | code hset =>
    subst hset
    refine ⟨fun prevcode hprev => ?_, fun c hc => ?_⟩
    · have hread := h.readCode hobj prevcode hprev
      rw [readCode_eq] at hread
      exact hread
    · cases hc
      exact ⟨rfl, hop⟩
  | storage key value =>
    rw [cacheState_eq]
    exact ⟨trivial, hobj⟩
  | _ => exact ⟨trivial, hobj⟩

/-- **The steps of an operation keep a state digested**, if it sets a code of the pool. -/
theorem step (h : st.Digested pool) (hop : op.Within pool)
    (hstep : Step op st st') : st'.Digested pool := by
  cases hstep with
  | load a => exact h.load a
  | readCode hlive => exact (h.load _).setStateObject (h.readCode (h.live hlive))
  | cacheState key hlive =>
    have hobj := h.live hlive
    refine (h.load _).setStateObject ?_
    rw [cacheState_eq]
    exact hobj
  | create a balance =>
    refine ((h.load a).record ?_).update fun code hcode => ?_
    · unfold creation
      split
      · trivial
      · rename_i prev hprev
        exact h.live hprev
    · cases hcode
  | edit hlive hedit =>
    obtain ⟨he, hobj⟩ := h.edit hop (h.live hlive) hedit
    exact ((h.load _).record he).update hobj
  | addRefund hgas =>
    exact (h.record (e := .refundChange st.refund) trivial).congr rfl rfl fun _ => id
  | addLog log =>
    exact (h.record (e := .addLogChange st.thash) trivial).congr rfl rfl fun _ => id
  | @addPreimage hash preimage hnew =>
    rw [StateDB.addPreimage, if_neg hnew]
    exact (h.record (e := .addPreimageChange hash) trivial).congr rfl rfl fun _ => id

theorem undo (h : st.Digested pool) (he : e.Digested pool) (hundo : e.undo st = some st') :
    st'.Digested pool := by
  cases Undone.of_undo hundo with
  | forget a =>
    exact ⟨h.codes, fun hobj => h.objects (FinmapTotal.of_lookup_erase hobj).2, h.journal⟩
  | reset a prev => exact h.setStateObject he
  | @load a _ ha => exact h.load a
  | @restore a obj obj' _ ha hlive hback =>
    refine (h.load a).update ?_
    have hobj := h.live hlive
    cases hback with
    | code a prevcode prevhash => exact he
    | _ => exact hobj
  | touched hlive =>
    have hobj := h.live hlive
    exact (h.load _).setStateObject hobj
  | @unmarked a obj prev prevDirty hlive _ _ =>
    have hobj := h.live hlive
    have hkept : ({ obj with touched := prev } : StateObject).Digested pool := hobj
    have hset := (h.load a).setStateObject (a := a) hkept
    exact hset.congr rfl rfl fun _ => id
  | kept => exact h
  | refund prev | beside logs logSize preimages ha => exact h.congr rfl rfl fun _ => id

/-- **Every operation keeps a state digested**, if it sets a code of the pool. -/
theorem run (h : st.Digested pool) (hop : op.Within pool)
    (hrun : op.run st = some st') : st'.Digested pool :=
  StateOp.invariant (fun ht hstep => ht.step hop hstep) (fun ht => ht.congr rfl rfl fun _ => id)
    (fun ht he hundo => ht.undo (ht.journal _ he) hundo)
    (fun _ _ ht => ht.congr rfl rfl fun _ he => mem_of_mem_take he) hrun h

theorem clearJournalAndRefund (h : st.Digested pool) : st.clearJournalAndRefund.Digested pool :=
  h.congr rfl rfl fun _ he => absurd he not_mem_nil

theorem finaliseObject {d : Bool} (h : st.Digested pool)
    (hfin : st.finaliseObject d a = some st') : st'.Digested pool := by
  obtain ⟨obj, hobj, rfl⟩ := Option.map_eq_some_iff.1 hfin
  have hdigested := h.objects hobj
  split_ifs
  · have hkept : ({ obj with deleted := true } : StateObject).Digested pool := hdigested
    exact h.store hkept rfl rfl rfl
  · have hkept : obj.updateRoot.Digested pool := hdigested
    exact h.store hkept rfl rfl rfl

theorem finalise {d : Bool} (h : st.Digested pool) (hfin : st.finalise d = some st') :
    st'.Digested pool := by
  obtain ⟨t, ht, rfl⟩ := Option.map_eq_some_iff.1 hfin
  exact (foldlM_induction (fun _ h hstep => finaliseObject h hstep) h ht).clearJournalAndRefund

theorem copy (h : st.Digested pool) {c : StateDB} (hcopy : st.copy = some c) : c.Digested pool := by
  obtain ⟨hc, hlookup, -⟩ := of_foldlM_copyObject hcopy
  refine ⟨fun hash code hcode => ?_, fun {b found} hfound => ?_, fun e he => ?_⟩
  · rw [hc] at hcode
    exact h.codes hash code hcode
  · rw [hlookup b] at hfound
    split_ifs at hfound
    · obtain ⟨obj, hobj, rfl⟩ := Option.map_eq_some_iff.1 hfound
      have hdigested := h.objects hobj
      exact hdigested
    · simp [new] at hfound
  · rw [hc] at he
    exact absurd he not_mem_nil

end Digested

/-! ### What a commit writes -/

/-- What the database had is still there. -/
def CodesKept (st st' : StateDB) : Prop :=
  ∀ hash code, st.codes.lookup hash = some code → st'.codes.lookup hash = some code

/-- What `CommitTo` leaves in the account trie at an address. -/
def commitAt (st : StateDB) (d : Bool) (a : Address) : Option Account :=
  match st.stateObjects.lookup a with
  | none => st.trie.lookup a
  | some obj =>
    if obj.suicided || (decide (a ∈ st.stateObjectsDirty) && d && obj.empty) then none
    else if a ∈ st.stateObjectsDirty then some obj.updateRoot.data
    else st.trie.lookup a

/-- What `CommitTo` leaves of an object. -/
def committed (st : StateDB) (d : Bool) (a : Address) (obj : StateObject) : StateObject :=
  if obj.suicided || (decide (a ∈ st.stateObjectsDirty) && d && obj.empty) then
    { obj with deleted := true }
  else if a ∈ st.stateObjectsDirty then
    { obj.updateRoot with dirtyCode := obj.dirtyCode && !(obj.code.isSome && obj.dirtyCode) }
  else obj

/-- A part of a commit, for the accounts `l`. -/
structure Committed (d : Bool) (l : List Address) (st st' : StateDB) : Prop where
  trie : ∀ a, st'.trie.lookup a = if a ∈ l then st.commitAt d a else st.trie.lookup a
  objects : ∀ a, st'.stateObjects.lookup a =
    if a ∈ l then (st.stateObjects.lookup a).map (st.committed d a) else st.stateObjects.lookup a
  dirty : ∀ a, a ∈ st'.stateObjectsDirty ↔
    a ∈ st.stateObjectsDirty ∧ (a ∈ l → st.stateObjects.lookup a = none)
  /-- the codes that were set are stored -/
  stored : ∀ a ∈ l, ∀ obj code, st.stateObjects.lookup a = some obj → a ∈ st.stateObjectsDirty →
    st.commitAt d a ≠ none → obj.code = some code → obj.dirtyCode = true →
    st'.codes.lookup obj.data.codeHash = some code
  kept : CodesKept st st'

theorem committed_commitObject (hinj : Set.InjOn Crypto.keccak256 pool) (h : st.Digested pool)
    (d : Bool) (a : Address) : Committed d [a] st (st.commitObject d a) := by
  unfold commitObject
  cases hobj : st.stateObjects.lookup a with
  | none =>
    refine ⟨fun b => ?_, fun b => ?_, fun b => ?_, ?_, fun _ _ => id⟩
    · simp only [mem_singleton]
      split_ifs with hb
      · subst hb
        rw [commitAt, hobj]
      · rfl
    · simp only [mem_singleton]
      split_ifs with hb
      · subst hb
        rw [hobj]
        rfl
      · rfl
    · simp only [mem_singleton]
      refine ⟨fun hmem => ⟨hmem, fun hb => by rw [hb, hobj]⟩, fun hmem => hmem.1⟩
    · intro b hb obj code hfound
      obtain rfl := mem_singleton.1 hb
      rw [hobj] at hfound
      cases hfound
  | some obj =>
    have hdirty : ∀ b, b ∈ st.stateObjectsDirty.erase a ↔
        b ∈ st.stateObjectsDirty ∧ (b ∈ [a] → st.stateObjects.lookup b = none) := by
      intro b
      rw [Finset.mem_erase, mem_singleton]
      constructor
      · rintro ⟨hne, hmem⟩
        exact ⟨hmem, fun hb => absurd hb hne⟩
      rintro ⟨hmem, hnone⟩
      refine ⟨fun hb => ?_, hmem⟩
      rw [hb] at hnone
      rw [hnone rfl] at hobj
      cases hobj
    dsimp only
    split
    · -- the object is deleted
      rename_i hdel
      refine ⟨fun b => ?_, fun b => ?_, hdirty, ?_, fun _ _ => id⟩
      · simp only [mem_singleton]
        split_ifs with hb
        · subst hb
          rw [commitAt, hobj]
          simp only [if_pos hdel]
          exact Finmap.lookup_erase _ _
        · exact Finmap.lookup_erase_ne hb
      · simp only [mem_singleton]
        split_ifs with hb
        · subst hb
          rw [hobj, Option.map_some, committed, if_pos hdel]
          exact Finmap.lookup_insert _
        · exact Finmap.lookup_insert_of_ne _ hb
      · intro b hb found code hfound _ hleft
        obtain rfl := mem_singleton.1 hb
        refine absurd ?_ hleft
        rw [commitAt, hobj]
        simp only [if_pos hdel]
    rename_i hkeep
    split
    · -- the object is written
      rename_i hmem
      have hmem' : a ∈ st.stateObjectsDirty := of_decide_eq_true hmem
      refine ⟨fun b => ?_, fun b => ?_, hdirty, ?_, ?_⟩
      · simp only [mem_singleton]
        split_ifs with hb
        · subst hb
          rw [commitAt, hobj]
          simp only [if_neg hkeep, if_pos hmem']
          exact Finmap.lookup_insert _
        · exact Finmap.lookup_insert_of_ne _ hb
      · simp only [mem_singleton]
        split_ifs with hb
        · subst hb
          rw [hobj, Option.map_some, committed, if_neg hkeep, if_pos hmem']
          exact Finmap.lookup_insert _
        · exact Finmap.lookup_insert_of_ne _ hb
      · intro b hb found code hfound _ _ hcode hset
        obtain rfl := mem_singleton.1 hb
        rw [hobj] at hfound
        cases hfound
        simp only [hcode, hset, Option.isSome_some, Bool.and_self, if_true, Option.getD_some]
        exact Finmap.lookup_insert _
      -- a code that was there has the same digest
      intro hash code hcode
      simp only
      split_ifs with hwrites
      · by_cases hhash : hash = obj.data.codeHash
        · subst hhash
          obtain ⟨hsome, -⟩ := Bool.and_eq_true_iff.1 hwrites
          obtain ⟨new, hnew⟩ := Option.isSome_iff_exists.1 hsome
          obtain ⟨hdigest, hpool⟩ := h.objects hobj new hnew
          obtain ⟨hdigest', hpool'⟩ := h.codes _ code hcode
          have hsame : new = code := hinj hpool hpool' (hdigest.symm.trans hdigest')
          rw [hnew, hsame]
          exact Finmap.lookup_insert _
        · rw [Finmap.lookup_insert_of_ne _ hhash]
          exact hcode
      · exact hcode
    · -- the object is left alone
      rename_i hmem
      have hmem' : a ∉ st.stateObjectsDirty := of_decide_eq_false (by simpa using hmem)
      refine ⟨fun b => ?_, fun b => ?_, hdirty, ?_, fun _ _ => id⟩
      · simp only [mem_singleton]
        split_ifs with hb
        · subst hb
          rw [commitAt, hobj]
          simp only [if_neg hkeep, if_neg hmem']
        · rfl
      · simp only [mem_singleton]
        split_ifs with hb
        · subst hb
          rw [hobj, Option.map_some, committed, if_neg hkeep, if_neg hmem']
        · rfl
      · intro b hb found code _ hmarked
        obtain rfl := mem_singleton.1 hb
        exact absurd hmarked hmem'

theorem Digested.commitObject (h : st.Digested pool) (d : Bool) (a : Address) :
    (st.commitObject d a).Digested pool := by
  unfold StateDB.commitObject
  cases hobj : st.stateObjects.lookup a with
  | none => exact h
  | some obj =>
    have hdigested := h.objects hobj
    have hunmark : ({ st with stateObjectsDirty := st.stateObjectsDirty.erase a } :
        StateDB).Digested pool := h.congr rfl rfl fun _ => id
    dsimp only
    split
    · have hkept : ({ obj with deleted := true } : StateObject).Digested pool := hdigested
      exact hunmark.store hkept rfl rfl rfl
    split
    · have hkept : ({ obj.updateRoot with dirtyCode :=
          obj.dirtyCode && !(obj.code.isSome && obj.dirtyCode) } : StateObject).Digested pool :=
        hdigested
      have hwritten := hunmark.setStateObject (a := a) hkept
      refine ⟨fun hash code hcode => ?_, hwritten.objects, hwritten.journal⟩
      split_ifs at hcode with hwrites
      · by_cases hhash : hash = obj.data.codeHash
        · subst hhash
          obtain ⟨hsome, -⟩ := Bool.and_eq_true_iff.1 hwrites
          obtain ⟨new, hnew⟩ := Option.isSome_iff_exists.1 hsome
          rw [Finmap.lookup_insert, hnew] at hcode
          cases hcode
          exact hdigested _ hnew
        · rw [Finmap.lookup_insert_of_ne _ hhash] at hcode
          exact h.codes hash code hcode
      · exact h.codes hash code hcode
    · exact hunmark

theorem commitAt_congr {d : Bool} (hobjects : st'.stateObjects.lookup a = st.stateObjects.lookup a)
    (hdirty : a ∈ st'.stateObjectsDirty ↔ a ∈ st.stateObjectsDirty)
    (htrie : st'.trie.lookup a = st.trie.lookup a) : st'.commitAt d a = st.commitAt d a := by
  unfold commitAt
  simp only [hobjects, hdirty, htrie]

theorem Committed.cons {d : Bool} {l : List Address} {u : StateDB} (ha : a ∉ l)
    (h : Committed d [a] st u) (h' : Committed d l u st') : Committed d (a :: l) st st' := by
  have hne : ∀ {b}, b ∈ l → b ∉ [a] := by
    intro b hb hba
    rw [mem_singleton.1 hba] at hb
    exact ha hb
  -- the other accounts are as before
  have hobjects : ∀ {b}, b ∈ l → u.stateObjects.lookup b = st.stateObjects.lookup b := by
    intro b hb
    rw [h.objects b, if_neg (hne hb)]
  have hdirty : ∀ {b}, b ∈ l → (b ∈ u.stateObjectsDirty ↔ b ∈ st.stateObjectsDirty) := by
    intro b hb
    rw [h.dirty b]
    exact ⟨fun hmem => hmem.1, fun hmem => ⟨hmem, fun hba => absurd hba (hne hb)⟩⟩
  have hcommit : ∀ {b}, b ∈ l → u.commitAt d b = st.commitAt d b := by
    intro b hb
    refine commitAt_congr (hobjects hb) (hdirty hb) ?_
    rw [h.trie b, if_neg (hne hb)]
  refine ⟨fun b => ?_, fun b => ?_, fun b => ?_, fun b hb obj code hobj hmem hleft hcode hset => ?_,
    fun hash code hcode => h'.kept hash code (h.kept hash code hcode)⟩
  · rw [h'.trie b]
    by_cases hb : b ∈ l
    · rw [if_pos hb, if_pos (mem_cons_of_mem _ hb), hcommit hb]
    · rw [if_neg hb, h.trie b]
      simp only [mem_cons, hb, or_false, not_mem_nil]
  · rw [h'.objects b]
    by_cases hb : b ∈ l
    · rw [if_pos hb, if_pos (mem_cons_of_mem _ hb), hobjects hb]
      have hsame : u.committed d b = st.committed d b := by
        unfold committed
        simp only [hdirty hb]
      rw [hsame]
    · rw [if_neg hb, h.objects b]
      simp only [mem_cons, hb, or_false, not_mem_nil]
  · rw [h'.dirty b, h.dirty b]
    by_cases hb : b ∈ l
    · rw [hobjects hb]
      have hba := hne hb
      simp only [mem_cons, hb, or_true, true_implies]
      constructor
      · rintro ⟨⟨hmem, -⟩, hnone⟩
        exact ⟨hmem, hnone⟩
      · rintro ⟨hmem, hnone⟩
        exact ⟨⟨hmem, fun hba' => absurd hba' (by simpa using hba)⟩, hnone⟩
    · simp only [mem_cons, hb, or_false, not_mem_nil, false_implies, and_true]
  · rcases mem_cons.1 hb with rfl | hb
    · exact h'.kept _ code (h.stored b (by simp) obj code hobj hmem hleft hcode hset)
    · exact h'.stored b hb obj code ((hobjects hb).trans hobj) ((hdirty hb).2 hmem)
        (by rwa [hcommit hb]) hcode hset

variable (hinj : Set.InjOn Crypto.keccak256 pool)
include hinj

theorem committed_foldl (d : Bool) :
    ∀ {l : List Address} {st : StateDB}, l.Nodup → st.Digested pool →
      Committed d l st (l.foldl (commitObject d) st) ∧
        (l.foldl (commitObject d) st).Digested pool := by
  intro l
  induction l with
  | nil =>
    intro st _ h
    exact ⟨⟨by simp, by simp, by simp, by simp, fun _ _ => id⟩, h⟩
  | cons a l ih =>
    intro st hnodup h
    obtain ⟨ha, hnodup⟩ := nodup_cons.1 hnodup
    obtain ⟨hcommitted, hdigested⟩ := ih hnodup (h.commitObject d a)
    exact ⟨(committed_commitObject hinj h d a).cons ha hcommitted, hdigested⟩

/-- **What `CommitTo` does**, account by account. -/
theorem Committed.of_commitTo (h : st.Digested pool)
    (d : Bool) : Committed d (sortedKeys st.stateObjects.keys) st (st.commitTo d) := by
  obtain ⟨hcommitted, -⟩ := committed_foldl hinj d (nodup_sortedKeys st.stateObjects.keys) h
  exact { hcommitted with }

theorem Digested.commitTo (h : st.Digested pool)
    (d : Bool) : (st.commitTo d).Digested pool :=
  (committed_foldl hinj d (nodup_sortedKeys st.stateObjects.keys) h).2.clearJournalAndRefund

theorem lookup_commitTo (h : st.Digested pool) (d : Bool)
    (a : Address) : (st.commitTo d).trie.lookup a = st.commitAt d a := by
  rw [(Committed.of_commitTo hinj h d).trie a]
  split_ifs with ha
  · rfl
  have hnone : st.stateObjects.lookup a = none := by
    rw [mem_sortedKeys, Finmap.mem_keys] at ha
    exact Finmap.lookup_eq_none.2 ha
  rw [commitAt, hnone]

omit hinj

end StateDB

/-! ### Complete states -/

/-- A code that is empty or in the database. -/
def codeKnown (codes : Finmap fun _ : Hash => Bytes) (hash : Hash) : Prop :=
  hash = emptyCodeHash ∨ hash ∈ codes

/-- The code of an object is in the database, unless the object is still to write it. -/
def StateObject.Stored (codes : Finmap fun _ : Hash => Bytes) (obj : StateObject) : Prop :=
  obj.code = none ∨ obj.dirtyCode = false → codeKnown codes obj.data.codeHash

namespace StateDB

/-- The code of every account can be found. -/
structure Complete (st : StateDB) : Prop where
  objects : ∀ {a obj}, st.live a = some obj → obj.Stored st.codes
  trie : ∀ {a data}, st.trie.lookup a = some data → a ∉ st.stateObjectsDirty →
    codeKnown st.codes data.codeHash

variable {pool : Set Bytes} {st st' : StateDB} {a b : Address} {obj obj' : StateObject}
  {e : JournalEntry}

theorem complete_new {trie : Finmap fun _ : Address => Account}
    {codes : Finmap fun _ : Hash => Bytes}
    (h : ∀ {a data}, trie.lookup a = some data → codeKnown codes data.codeHash) :
    (StateDB.new trie codes).Complete := by
  refine ⟨fun {a obj} hlive _ => ?_, fun hdata _ => h hdata⟩
  obtain ⟨data, hdata, rfl⟩ := Option.map_eq_some_iff.1 (live_new trie codes a ▸ hlive)
  exact h hdata

namespace Complete

theorem of_local {o : Option Address} (h : st.Complete) (hlocal : Local o st st')
    (hself : ∀ {a obj}, o = some a → st'.live a = some obj → obj.Stored st.codes)
    (hdirty : ∀ {a}, o = some a → a ∈ st.stateObjectsDirty → a ∈ st'.stateObjectsDirty) :
    st'.Complete := by
  refine ⟨fun {b obj} hlive => ?_, fun {b data} hdata hclean => ?_⟩
  · rw [hlocal.codes]
    by_cases hb : o = some b
    · exact hself hb hlive
    · rw [hlocal.live hb] at hlive
      exact h.objects hlive
  · rw [hlocal.codes]
    rw [hlocal.trie] at hdata
    refine h.trie hdata fun hmem => hclean ?_
    by_cases hb : o = some b
    · exact hdirty hb hmem
    · exact (hlocal.dirty b hb).2 hmem

variable (h : st.Complete)
include h

theorem load (a : Address) : (st.load a).Complete := by
  refine h.of_local (Local.load st a) (fun {b obj} hb hlive => ?_) fun _ hmem => ?_
  · rw [live_load] at hlive
    exact h.objects hlive
  · rwa [stateObjectsDirty_load]

theorem setStateObject (hobj : obj.Stored st.codes)
    (hdeleted : obj.deleted = false) : (st.setStateObject a obj).Complete := by
  refine h.of_local (Local.setStateObject st a obj) ?_ fun _ hmem => hmem
  rintro _ found ⟨⟩ hlive
  rw [live_setStateObject_self hdeleted] at hlive
  cases hlive
  exact hobj

theorem update (hobj : obj.Stored st.codes) (hdeleted : obj.deleted = false) :
    (st.update a obj).Complete := by
  refine h.of_local (Local.update st a obj) ?_ ?_
  · rintro _ found ⟨⟩ hlive
    rw [live_update_self hdeleted] at hlive
    cases hlive
    exact hobj
  · rintro _ ⟨⟩ hmem
    exact mem_dirty_update.2 (.inr hmem)

theorem congr (hcodes : st'.codes = st.codes)
    (hobjects : st'.stateObjects = st.stateObjects) (htrie : st'.trie = st.trie)
    (hdirty : st'.stateObjectsDirty = st.stateObjectsDirty) : st'.Complete := by
  refine ⟨fun {a obj} hlive => ?_, fun {a data} hdata hclean => ?_⟩
  · rw [live_congr hobjects htrie] at hlive
    rw [hcodes]
    exact h.objects hlive
  · rw [htrie] at hdata
    rw [hdirty] at hclean
    rw [hcodes]
    exact h.trie hdata hclean

theorem record (e : JournalEntry) : (st.record e).Complete :=
  h.congr rfl rfl rfl rfl

omit h

omit [Crypto] in
theorem stored_readCode [Crypto] {codes : Finmap fun _ : Hash => Bytes}
    (h : obj.Stored codes) : (obj.readCode codes).Stored codes := by
  intro hcode
  have hflags := @StateObject.readCode_eq _ obj codes
  have hhash : (obj.readCode codes).data = obj.data := by rw [hflags]
  have hdirty : (obj.readCode codes).dirtyCode = obj.dirtyCode := by rw [hflags]
  rw [hhash]
  refine h (hcode.imp (fun hnone => ?_) fun hset => hdirty ▸ hset)
  unfold readCode at hnone
  split at hnone
  · exact hnone
  · assumption

variable {op : StateOp}

theorem stored_edit {codes : Finmap fun _ : Hash => Bytes} (h : obj.Stored codes)
    (hedit : obj.Edit op codes a e obj') : obj'.Stored codes := by
  cases hedit with
  | code hop =>
    rintro (hnone | hset)
    · cases hnone
    · cases hset
  | storage key value =>
    rw [cacheState_eq]
    exact h
  | _ => exact h

theorem write (h : st.Complete) (hobj : obj.Stored st.codes) (hdeleted : obj.deleted = false) :
    (((st.load a).record e).update a obj).Complete := by
  refine ((h.load a).record e).update ?_ hdeleted
  change StateObject.Stored (st.load a).codes _
  rw [codes_load]
  exact hobj

theorem cache (h : st.Complete) (hobj : obj.Stored st.codes) (hdeleted : obj.deleted = false) :
    ((st.load a).setStateObject a obj).Complete := by
  refine (h.load a).setStateObject ?_ hdeleted
  rw [codes_load]
  exact hobj

theorem step (h : st.Complete) (hstep : Step op st st') : st'.Complete := by
  cases hstep with
  | load a => exact h.load a
  | readCode hlive =>
    refine h.cache (stored_readCode (h.objects hlive)) ?_
    rw [readCode_eq]
    exact (lookup_load_self hlive).2
  | cacheState key hlive =>
    have hobj := h.objects hlive
    refine h.cache ?_ ?_
    · rw [cacheState_eq]
      exact hobj
    · rw [cacheState_eq]
      exact (lookup_load_self hlive).2
  | create a balance => exact h.write (fun _ => .inl rfl) rfl
  | edit hlive hedit =>
    exact h.write (stored_edit (h.objects hlive) hedit)
      (hedit.flags.2.1.trans (lookup_load_self hlive).2)
  | addRefund hgas | addLog log => exact h.congr rfl rfl rfl rfl
  | addPreimage preimage hnew =>
    rw [StateDB.addPreimage, if_neg hnew]
    exact h.congr rfl rfl rfl rfl

/-- **Writes keep a state complete.** -/
theorem run (h : st.Complete) (hdirect : op.Direct) (hrun : op.run st = some st') : st'.Complete :=
  StateOp.induction hdirect hrun (fun ht hstep => ht.step hstep) h

end Complete

theorem CodesKept.known (h : CodesKept st st') {hash : Hash} (hknown : codeKnown st.codes hash) :
    codeKnown st'.codes hash := by
  refine hknown.imp_right fun hmem => ?_
  obtain ⟨code, hcode⟩ := Finmap.mem_iff.1 hmem
  exact Finmap.mem_iff.2 ⟨code, h hash code hcode⟩

theorem CodesKept.codeOf_eq (h : CodesKept st st') {hash : Hash} {code : Option Bytes}
    (hknown : code = none → codeKnown st.codes hash) :
    codeOf st'.codes code hash = codeOf st.codes code hash := by
  cases code with
  | some code => rfl
  | none =>
    unfold codeOf
    rcases hknown rfl with rfl | hmem
    · simp
    · obtain ⟨code, hcode⟩ := Finmap.mem_iff.1 hmem
      rw [hcode, h hash code hcode]

end StateDB
