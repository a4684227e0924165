/-
**Journals with undo and revisions.**

A program that must be able to take back its last changes keeps a journal: every change appends an
entry that knows how to undo it, a revision remembers a position in the journal, and going back to
a revision undoes the entries above that position, newest first.

What such a journal gives back is described by a *view*, a function of the state, and a *link*
relation: `link v e w` says that a change that leaves the entry `e` behind leads from the view `v`
to the view `w`.  The entries of a run of changes then form a `Trail` between two views, and if
every entry undoes its own links, undoing the whole trail leads back to the view at its start.

Main results:

* `UndoJournal.Trail.exists_undoAll_of`, `UndoJournal.Trail.view_undoAll` — **undoing a trail
  restores the view at its start**.
-/

import Mathlib

open List

namespace UndoJournal

theorem foldlM_induction {σ ι : Type} {P : σ → Prop} {f : σ → ι → Option σ} {l : List ι}
    (hf : ∀ {s i s'}, i ∈ l → P s → f s i = some s' → P s') {s s' : σ} (h : P s)
    (hfold : l.foldlM f s = some s') : P s' := by
  induction l generalizing s with
  | nil =>
    cases hfold
    exact h
  | cons i l ih =>
    obtain ⟨t, ht, hrest⟩ := Option.bind_eq_some_iff.1 hfold
    exact ih (fun hj => hf (mem_cons_of_mem _ hj)) (hf mem_cons_self h ht) hrest

/-! ### Binary search -/

/-- The loop of `sort.Search` between the bounds `i` and `j`. -/
def searchFrom (f : ℕ → Bool) : ℕ → ℕ → ℕ → ℕ
  | 0, i, _ => i
  | fuel + 1, i, j =>
    if i < j then
      if f ((i + j) / 2) then searchFrom f fuel i ((i + j) / 2)
      else searchFrom f fuel ((i + j) / 2 + 1) j
    else i

/-- `sort.Search`: the interval shrinks in every round, so `n` rounds are enough. -/
def search (n : ℕ) (f : ℕ → Bool) : ℕ := searchFrom f n 0 n

theorem searchFrom_eq {f : ℕ → Bool} {m n : ℕ} (hlow : ∀ k < m, f k = false)
    (hhigh : ∀ k, m ≤ k → k < n → f k = true) :
    ∀ fuel i j, j - i ≤ fuel → i ≤ m → m ≤ j → j ≤ n → searchFrom f fuel i j = m := by
  intro fuel
  induction fuel with
  | zero =>
    intro i j hfuel him hmj _
    have h : i = m := by omega
    exact h
  | succ fuel ih =>
    intro i j hfuel him hmj hjn
    simp only [searchFrom]
    by_cases hij : i < j
    · rw [if_pos hij]
      by_cases hmid : m ≤ (i + j) / 2
      · rw [if_pos (hhigh _ hmid (by omega))]
        exact ih _ _ (by omega) him hmid (by omega)
      · rw [hlow _ (by omega)]
        exact ih _ _ (by omega) (by omega) hmj hjn
    · rw [if_neg hij]
      omega

theorem search_eq {f : ℕ → Bool} {m n : ℕ} (hmn : m ≤ n) (hlow : ∀ k < m, f k = false)
    (hhigh : ∀ k, m ≤ k → k < n → f k = true) : search n f = m :=
  searchFrom_eq hlow hhigh n 0 n (by omega) (Nat.zero_le m) hmn le_rfl

/-! ### Revisions -/

/-- A revision: its identifier, and the length the journal had when it was taken. -/
structure Revision where
  id : ℕ
  journalIndex : ℕ
  deriving DecidableEq

/-- The position and the journal index of the revision `revid` in a list of revisions with rising
identifiers. -/
def findRevision (revisions : List Revision) (revid : ℕ) : Option (ℕ × ℕ) :=
  let idx := search revisions.length fun i => revisions[i]?.any fun r => revid ≤ r.id
  match revisions[idx]? with
  | none => none
  | some r => if r.id = revid then some (idx, r.journalIndex) else none

theorem findRevision_eq {old new : List Revision} {r : Revision} (hold : ∀ q ∈ old, q.id < r.id)
    (hnew : ∀ q ∈ new, r.id ≤ q.id) :
    findRevision (old ++ r :: new) r.id = some (old.length, r.journalIndex) := by
  have hsearch : (search (old ++ r :: new).length fun i =>
      (old ++ r :: new)[i]?.any fun q => r.id ≤ q.id) = old.length := by
    refine search_eq (by simp) (fun k hk => ?_) fun k hk hlen => ?_
    · rw [getElem?_append_left hk, getElem?_eq_getElem hk]
      simpa using hold _ (getElem_mem hk)
    rw [getElem?_append_right hk]
    have hlen' : k - old.length < (r :: new).length := by
      simp only [length_append] at hlen
      omega
    rw [getElem?_eq_getElem hlen']
    have hmem : (r :: new)[k - old.length] ∈ r :: new := getElem_mem hlen'
    rcases mem_cons.1 hmem with heq | hmem
    · simp [heq]
    · simpa using hnew _ hmem
  simp only [findRevision, hsearch]
  simp

theorem of_findRevision {revisions : List Revision} {revid idx k : ℕ}
    (h : findRevision revisions revid = some (idx, k)) :
    ∃ r, revisions[idx]? = some r ∧ r.id = revid ∧ r.journalIndex = k := by
  simp only [findRevision] at h
  split at h
  · cases h
  rename_i r hr
  split at h
  · rename_i hid
    cases h
    exact ⟨r, hr, hid, rfl⟩
  · cases h

/-! ### Trails -/

variable {σ ε V : Type}

/-- The entries left behind by a run of changes that leads from one view to another. -/
inductive Trail (link : V → ε → V → Prop) : V → List ε → V → Prop
  | nil (v : V) : Trail link v [] v
  | snoc {u v w : V} {es : List ε} {e : ε} :
      Trail link u es v → link v e w → Trail link u (es ++ [e]) w

namespace Trail

variable {link : V → ε → V → Prop} {u v w : V} {es fs : List ε} {e : ε}

theorem single (h : link v e w) : Trail link v [e] w := .snoc (.nil v) h

theorem trans (h : Trail link u es v) (h' : Trail link v fs w) : Trail link u (es ++ fs) w := by
  induction h' with
  | nil => simpa using h
  | snoc _ hlink ih =>
    rw [← append_assoc]
    exact .snoc ih hlink

end Trail

/-! ### Undoing -/

/-- Undoing entries, newest first; an entry may find nothing to undo. -/
def undoAll (undo : ε → σ → Option σ) (es : List ε) (s : σ) : Option σ := es.foldrM undo s

variable {undo : ε → σ → Option σ} {link : V → ε → V → Prop} {es : List ε} {u w : V}

theorem undoAll_concat {e : ε} {s s' : σ} : undoAll undo (es ++ [e]) s = some s' ↔
      ∃ t, undo e s = some t ∧ undoAll undo es t = some s' := by
  simp only [undoAll, foldrM_append, foldrM_cons, foldrM_nil]
  simp [Option.bind_eq_some_iff]

theorem Trail.of_append {es fs : List ε}
    (h : Trail link u (es ++ fs) w) : ∃ v, Trail link u es v ∧ Trail link v fs w := by
  induction fs using List.reverseRecOn generalizing w with
  | nil => exact ⟨w, by simpa using h, .nil w⟩
  | append_singleton fs f ih =>
    rw [← append_assoc] at h
    generalize hall : es ++ fs ++ [f] = all at h
    cases h with
    | nil => simp at hall
    | snoc hprev hlink =>
      obtain ⟨rfl, hlast⟩ := append_inj' hall rfl
      cases hlast
      obtain ⟨v, hfirst, hsecond⟩ := ih hprev
      exact ⟨v, hfirst, .snoc hsecond hlink⟩

/-- **A trail can be undone**, and leads back to the view at its start, if every link can.  A
property of the state and of the entries that are left is kept if every single undoing keeps it. -/
theorem Trail.exists_undoAll_of (view : σ → V) (P : List ε → σ → Prop)
    (hundo : ∀ {v : V} {e : ε} {es : List ε} {s : σ}, link v e (view s) → P (es ++ [e]) s →
      ∃ s', undo e s = some s' ∧ view s' = v ∧ P es s')
    (h : Trail link u es w) {s : σ} (hview : view s = w) (hP : P es s) :
    ∃ s', undoAll undo es s = some s' ∧ view s' = u ∧ P [] s' := by
  induction h generalizing s with
  | nil => exact ⟨s, rfl, hview, hP⟩
  | snoc _ hlink ih =>
    -- the newest entry is undone first
    obtain ⟨t, ht, hv, hPt⟩ := hundo (hview ▸ hlink) hP
    obtain ⟨s', hs', hu, hPs'⟩ := ih hv hPt
    exact ⟨s', undoAll_concat.2 ⟨t, ht, hs'⟩, hu, hPs'⟩

theorem Trail.exists_undoAll (view : σ → V) (P : σ → Prop)
    (hundo : ∀ {v e s}, link v e (view s) → P s → ∃ s', undo e s = some s' ∧ view s' = v ∧ P s')
    (h : Trail link u es w) {s : σ} (hview : view s = w) (hP : P s) :
    ∃ s', undoAll undo es s = some s' ∧ view s' = u ∧ P s' := by
  refine Trail.exists_undoAll_of view (fun _ => P) ?_ h hview hP
  intro v e es s hlink hPs
  exact hundo hlink hPs

/-- **Undoing a trail restores the view at its start**, if every entry undoes its own links; a
property that every single undoing keeps is kept as well. -/
theorem Trail.view_undoAll (view : σ → V) (P : σ → Prop)
    (hundo : ∀ {v e s s'}, link v e (view s) → undo e s = some s' → P s → view s' = v ∧ P s')
    (h : Trail link u es w) {s s' : σ} (hview : view s = w) (hP : P s)
    (hs : undoAll undo es s = some s') : view s' = u ∧ P s' := by
  induction h generalizing s with
  | nil =>
    cases hs
    exact ⟨hview, hP⟩
  | snoc _ hlink ih =>
    -- the newest entry is undone first, and leads to the view it was linked to
    obtain ⟨t, ht, hrest⟩ := undoAll_concat.1 hs
    obtain ⟨hv, hPt⟩ := hundo (hview ▸ hlink) ht hP
    exact ih hv hPt hrest

/-! ### Trails with snapshots -/

/-- A trail on which snapshots were taken: for each of them, the number of entries and the view at
that time. -/
inductive Marked (link : V → ε → V → Prop) : V → List (ℕ × V) → List ε → V → Prop
  | start {u w : V} {es : List ε} : Trail link u es w → Marked link u [] es w
  | mark {u v w : V} {marks : List (ℕ × V)} {es fs : List ε} : Marked link u marks es v →
      Trail link v fs w → Marked link u (marks ++ [(es.length, v)]) (es ++ fs) w

namespace Marked

variable {link : V → ε → V → Prop} {u v w : V} {marks : List (ℕ × V)} {es fs : List ε}

theorem extend (h : Marked link u marks es v) (htrail : Trail link v fs w) :
    Marked link u marks (es ++ fs) w := by
  cases h with
  | start hes => exact .start (hes.trans htrail)
  | mark hbefore hes =>
    rw [append_assoc]
    exact .mark hbefore (hes.trans htrail)

variable (h : Marked link u marks es w)
include h

theorem snapshot :
    Marked link u (marks ++ [(es.length, w)]) es w := by
  have hmark := Marked.mark h (Trail.nil w)
  rwa [append_nil] at hmark

theorem trail : Trail link u es w := by
  induction h with
  | start hes => exact hes
  | mark _ hfs ih => exact ih.trans hfs

/-- **Going back to a snapshot** leads to the trail as it was then, and undoes the rest. -/
theorem cut {old new : List (ℕ × V)} {n : ℕ}
    (hmarks : marks = old ++ (n, v) :: new) :
    n ≤ es.length ∧ Marked link u old (es.take n) v ∧ Trail link v (es.drop n) w := by
  induction h generalizing new with
  | start hes => simp at hmarks
  | @mark v' w marks es fs hbefore hfs ih =>
    rcases eq_nil_or_concat new with rfl | ⟨new, last, rfl⟩
    · -- the last snapshot
      obtain ⟨rfl, hlast⟩ := append_inj' hmarks rfl
      cases hlast
      simp only [length_append, take_left, drop_left]
      exact ⟨Nat.le_add_right _ _, hbefore, hfs⟩
    · rw [concat_eq_append, ← cons_append, ← append_assoc] at hmarks
      obtain ⟨rfl, -⟩ := append_inj' hmarks rfl
      obtain ⟨hle, hold, hrest⟩ := ih rfl
      rw [length_append, take_append_of_le_length hle, drop_append_of_le_length hle]
      exact ⟨hle.trans (Nat.le_add_right _ _), hold, hrest.trans hfs⟩

omit h

end Marked

end UndoJournal
