/-
**Compressed tries over keys of one length.**

A library on radix trees with branching degree `b`: a branch has one subtree per digit, and a run
of digits without a branch is one node.  The two operations that change a tree keep it compressed,
which makes the tree a function of the map it stands for.

All keys of a tree have the same length; it is the index of the predicate `PTree.Wf`, which says
that a tree is compressed: no branch with fewer than two subtrees, and no run of digits directly
under another one.

Main results:

* `PTree.Canon.ext` — **a compressed tree is determined by its map**.
-/

import Mathlib.Data.List.FinRange

open List Function

namespace Patricia

/-! ### Common beginnings -/

section CommonLen

variable {α : Type} [DecidableEq α]

/-- The length of the common beginning of two lists. -/
def commonLen : List α → List α → ℕ
  | a :: l, c :: m => if a = c then commonLen l m + 1 else 0
  | _, _ => 0

/-- **The common beginning**: what follows it is empty on one side, or starts differently. -/
theorem exists_commonLen (l m : List α) :
    ∃ p x y : List α, l = p ++ x ∧ m = p ++ y ∧ commonLen l m = p.length ∧
      (x = [] ∨ y = [] ∨ ∃ c x' d y', x = c :: x' ∧ y = d :: y' ∧ c ≠ d) := by
  induction l generalizing m with
  | nil => exact ⟨[], [], m, rfl, rfl, by cases m <;> rfl, .inl rfl⟩
  | cons a l ih =>
    cases m with
    | nil => exact ⟨[], a :: l, [], rfl, rfl, rfl, .inr (.inl rfl)⟩
    | cons c m =>
      by_cases hac : a = c
      · subst hac
        obtain ⟨p, x, y, rfl, rfl, hlen, hrest⟩ := ih m
        exact ⟨a :: p, x, y, rfl, rfl, by simp [commonLen, hlen], hrest⟩
      · exact ⟨[], a :: l, c :: m, rfl, rfl, by simp [commonLen, hac],
          .inr (.inr ⟨a, l, c, m, rfl, rfl, hac⟩)⟩

end CommonLen

/-! ### Trees -/

/-- A compressed trie: nothing, a value, a run of digits, or a branch. -/
inductive PTree (b : ℕ) (β : Type) where
  | nil
  | value (v : β)
  | short (key : List (Fin b)) (child : PTree b β)
  | full (children : Fin b → PTree b β)

namespace PTree

variable {b : ℕ} {β : Type}

/-- The empty tree. -/
def isNil : PTree b β → Bool
  | nil => true
  | _ => false

/-- A run of digits. -/
def isShort : PTree b β → Bool
  | short _ _ => true
  | _ => false

variable {t : PTree b β} {n : ℕ} {cs : Fin b → PTree b β} {key : List (Fin b)}
  {k key : List (Fin b)} {key key' : List (Fin b)} {k : List (Fin b)} {d x : Fin b}

theorem isNil_iff : t.isNil = true ↔ t = nil := by
  cases t <;> simp [isNil]

/-- The value of a key. -/
def find : PTree b β → List (Fin b) → Option β
  | nil, _ => none
  | value v, _ => some v
  | short k c, key => if key.take k.length = k then c.find (key.drop k.length) else none
  | full _, [] => none
  | full cs, a :: key => (cs a).find key

/-- A tree below some digits. -/
def graft (key : List (Fin b)) (t : PTree b β) : PTree b β :=
  if key = [] then t else short key t

/-- A tree below some digits, when it may start with a run of digits itself. -/
def join (key : List (Fin b)) : PTree b β → PTree b β
  | short k c => short (key ++ k) c
  | t => short key t

/-- The branch with two subtrees. -/
def fork (d : Fin b) (s : PTree b β) (c : Fin b) (t : PTree b β) : Fin b → PTree b β :=
  Function.update (Function.update (fun _ => nil) d s) c t

/-- The branch with the given subtrees; a single one takes its place. -/
def shrink (cs : Fin b → PTree b β) : PTree b β :=
  match (List.finRange b).filter fun i => !(cs i).isNil with
  | [i] => join [i] (cs i)
  | _ => full cs

/-- Put the tree `v` at a key. -/
def insert (v : PTree b β) : PTree b β → List (Fin b) → PTree b β
  | nil, key => graft key v
  | value _, key => graft key v
  | short k c, key =>
    match k.drop (commonLen key k), key.drop (commonLen key k) with
    | [], rest => short k (insert v c rest)
    | d :: k', x :: key' =>
      graft (key.take (commonLen key k)) (full (fork d (graft k' c) x (graft key' v)))
    | _ :: _, [] => v
  | full _, [] => v
  | full cs, a :: key => full (Function.update cs a (insert v (cs a) key))

/-- Remove a key. -/
def remove : PTree b β → List (Fin b) → PTree b β
  | nil, _ => nil
  | value _, _ => nil
  | short k c, key =>
    match k.drop (commonLen key k), key.drop (commonLen key k) with
    | _ :: _, _ => short k c
    | [], [] => nil
    | [], x :: rest => join k (remove c (x :: rest))
  | full cs, [] => full cs
  | full cs, a :: key => shrink (Function.update cs a (remove (cs a) key))

/-- Compressed trees whose keys all have the length `n`. -/
inductive Wf : ℕ → PTree b β → Prop where
  | value (v : β) : Wf 0 (value v)
  | short {n : ℕ} {k : List (Fin b)} {c : PTree b β} (hk : k ≠ []) (hc : Wf n c)
      (hshort : c.isShort = false) : Wf (k.length + n) (short k c)
  | full {n : ℕ} {cs : Fin b → PTree b β} (i j : Fin b) (hij : i ≠ j) (hi : cs i ≠ nil)
      (hj : cs j ≠ nil) (hcs : ∀ a, cs a ≠ nil → Wf n (cs a)) : Wf (n + 1) (full cs)

/-- A compressed tree, or the empty one. -/
def Canon (n : ℕ) (t : PTree b β) : Prop := t = nil ∨ Wf n t

theorem Wf.ne_nil (h : Wf n t) : t ≠ nil := by
  cases h <;> simp

/-! ### Look-up -/

@[simp] theorem find_nil (key : List (Fin b)) : (nil : PTree b β).find key = none := rfl

@[simp] theorem find_value (v : β) (key : List (Fin b)) : (value v : PTree b β).find key = some v :=
  rfl

@[simp] theorem find_full_cons (cs : Fin b → PTree b β) (a : Fin b) (key : List (Fin b)) :
    (full cs).find (a :: key) = (cs a).find key := rfl

@[simp] theorem find_short_append (k rest : List (Fin b)) (c : PTree b β) :
    (short k c).find (k ++ rest) = c.find rest := by
  simp [find]

theorem find_short_of_not (c : PTree b β) (h : ¬ k <+: key) : (short k c).find key = none := by
  have hne : ¬ key.take k.length = k := fun heq => h (heq ▸ take_prefix _ _)
  simp [find, hne]

@[simp] theorem find_graft_append (k rest : List (Fin b)) (t : PTree b β) :
    (graft k t).find (k ++ rest) = t.find rest := by
  by_cases hk : k = []
  · simp [graft, hk]
  · simp [graft, hk]

theorem find_graft_of_not (t : PTree b β) (h : ¬ k <+: key) : (graft k t).find key = none := by
  have hk : k ≠ [] := by
    rintro rfl
    exact h nil_prefix
  rw [graft, if_neg hk, find_short_of_not t h]

theorem find_graft_value (v : β) (hlen : key'.length = key.length) :
    (graft key (value v)).find key' = if key' = key then some v else none := by
  by_cases hkey : key <+: key'
  · obtain rfl := List.IsPrefix.eq_of_length hkey hlen.symm
    have hfind := find_graft_append key [] (value v)
    rw [append_nil] at hfind
    simp [hfind]
  · have hne : key' ≠ key := fun heq => hkey (heq ▸ prefix_refl _)
    rw [find_graft_of_not _ hkey, if_neg hne]

@[simp] theorem find_join_append (k rest : List (Fin b)) (t : PTree b β) :
    (join k t).find (k ++ rest) = t.find rest := by
  cases t with
  | nil => exact find_short_append k rest nil
  | value v => exact find_short_append k rest (value v)
  | full cs => exact find_short_append k rest (full cs)
  | short k' c =>
    change (short (k ++ k') c).find (k ++ rest) = (short k' c).find rest
    by_cases hk : k' <+: rest
    · obtain ⟨tail, rfl⟩ := hk
      rw [← append_assoc, find_short_append, find_short_append]
    have hkk : ¬ k ++ k' <+: k ++ rest := by
      rw [prefix_append_right_inj]
      exact hk
    rw [find_short_of_not c hk, find_short_of_not c hkk]

theorem find_join_of_not (t : PTree b β) (h : ¬ k <+: key) : (join k t).find key = none := by
  cases t with
  | short k' c =>
    exact find_short_of_not c fun hkk => h ((prefix_append k k').trans hkk)
  | _ => exact find_short_of_not _ h

theorem Wf.exists_find (h : Wf n t) : ∃ key v, key.length = n ∧ t.find key = some v := by
  induction h with
  | value v => exact ⟨[], v, rfl, rfl⟩
  | @short n k c hk hc hshort ih =>
    obtain ⟨key, v, hlen, hfind⟩ := ih
    exact ⟨k ++ key, v, by simp [hlen], by rw [find_short_append, hfind]⟩
  | full i j hij hi hj hcs ih =>
    obtain ⟨key, v, hlen, hfind⟩ := ih i hi
    exact ⟨i :: key, v, by simp [hlen], hfind⟩

theorem Wf.full_inv {N : ℕ} (h : Wf N (.full cs)) :
    ∃ n, N = n + 1 ∧ (∃ i j, i ≠ j ∧ cs i ≠ nil ∧ cs j ≠ nil) ∧ ∀ a, Canon n (cs a) := by
  cases h with
  | @full n cs i j hij hi hj hcs =>
    refine ⟨n, rfl, ⟨i, j, hij, hi, hj⟩, fun a => ?_⟩
    by_cases hnil : cs a = nil
    · exact .inl hnil
    · exact .inr (hcs a hnil)

theorem Wf.value_inv {N : ℕ} {v : β} (h : Wf N (.value v : PTree b β)) : N = 0 := by
  cases h
  rfl

theorem Wf.short_inv {N : ℕ} {c : PTree b β} (h : Wf N (.short k c)) :
    ∃ n, N = k.length + n ∧ k ≠ [] ∧ Wf n c ∧ c.isShort = false := by
  cases h with
  | short hk hc hshort => exact ⟨_, rfl, hk, hc, hshort⟩

theorem Wf.exists_find_ne (h : Wf (n + 1) (PTree.full cs)) (d : Fin b) :
    ∃ a key v, a ≠ d ∧ key.length = n ∧ (PTree.full cs).find (a :: key) = some v := by
  obtain ⟨m, hm, ⟨i, j, hij, hi, hj⟩, hcs⟩ := h.full_inv
  obtain rfl := Nat.succ.inj hm
  by_cases hid : i = d
  · obtain ⟨key, v, hlen, hfind⟩ := ((hcs j).resolve_left hj).exists_find
    exact ⟨j, key, v, fun hjd => hij (hid.trans hjd.symm), hlen, hfind⟩
  · obtain ⟨key, v, hlen, hfind⟩ := ((hcs i).resolve_left hi).exists_find
    exact ⟨i, key, v, hid, hlen, hfind⟩

/-! ### Putting trees together -/

theorem Wf.graft (h : Wf n t)
    (hshort : t.isShort = false) : Wf (k.length + n) (PTree.graft k t) := by
  by_cases hk : k = []
  · subst hk
    simpa [PTree.graft] using h
  · rw [PTree.graft, if_neg hk]
    exact .short hk h hshort

theorem Wf.join (hk : k ≠ []) (h : Wf n t) : Wf (k.length + n) (PTree.join k t) := by
  cases h with
  | value v => exact .short hk (.value v) rfl
  | full i j hij hi hj hcs => exact .short hk (.full i j hij hi hj hcs) rfl
  | @short m k' c hk' hc hshort =>
    have hlen : k.length + (k'.length + m) = (k ++ k').length + m := by simp [Nat.add_assoc]
    rw [hlen]
    exact .short (by simp [hk]) hc hshort

theorem Wf.fork {d c : Fin b} {s t : PTree b β} (hdc : c ≠ d) (hs : Wf n s) (ht : Wf n t) :
    Wf (n + 1) (.full (PTree.fork d s c t)) := by
  have hd : PTree.fork d s c t d = s := by simp [PTree.fork, update_of_ne hdc.symm]
  have hc : PTree.fork d s c t c = t := by simp [PTree.fork]
  refine .full d c hdc.symm (by rw [hd]; exact hs.ne_nil) (by rw [hc]; exact ht.ne_nil) ?_
  intro a ha
  by_cases hac : a = c
  · subst hac
    rwa [hc]
  by_cases had : a = d
  · subst had
    rwa [hd]
  · exact absurd (by simp [PTree.fork, hac, had]) ha

theorem find_fork {d c : Fin b} {s t : PTree b β} (a : Fin b) (key : List (Fin b)) :
    (full (fork d s c t)).find (a :: key) =
      if a = c then t.find key else if a = d then s.find key else none := by
  rw [find_full_cons, fork]
  by_cases hac : a = c
  · subst hac
    simp
  rw [update_of_ne hac, if_neg hac]
  by_cases had : a = d
  · subst had
    simp
  · rw [update_of_ne had, if_neg had, find_nil]

/-! ### Inserting -/

theorem commonLen_append (k rest : List (Fin b)) : commonLen (k ++ rest) k = k.length := by
  induction k with
  | nil => cases rest <;> rfl
  | cons a k ih => simp [commonLen, ih]

theorem commonLen_fork (p k' key' : List (Fin b)) (hne : x ≠ d) :
    commonLen (p ++ x :: key') (p ++ d :: k') = p.length := by
  induction p with
  | nil => simp [commonLen, hne]
  | cons a p ih => simp [commonLen, ih]

theorem insert_short_append (v : PTree b β) (k rest : List (Fin b)) (c : PTree b β) :
    insert v (short k c) (k ++ rest) = short k (insert v c rest) := by
  rw [insert, commonLen_append]
  simp

theorem insert_short_fork (v : PTree b β) (p k' key' : List (Fin b)) (hne : x ≠ d)
    (c : PTree b β) : insert v (short (p ++ d :: k') c) (p ++ x :: key') =
      graft p (full (fork d (graft k' c) x (graft key' v))) := by
  rw [insert, commonLen_fork _ _ _ hne]
  simp

/-- **The ways a key can lie to a run of digits that is not longer than it.** -/
theorem short_cases (hlen : k.length ≤ key.length) : (∃ rest, key = k ++ rest) ∨
      ∃ p d k' x key', x ≠ d ∧ k = p ++ d :: k' ∧ key = p ++ x :: key' := by
  obtain ⟨p, x, y, rfl, rfl, -, hcase⟩ := exists_commonLen key k
  rcases hcase with rfl | rfl | ⟨c, x', d, y', rfl, rfl, hne⟩
  · have hy : y = [] := by
      rw [← length_eq_zero_iff]
      simp only [append_nil, length_append] at hlen
      omega
    exact .inl ⟨[], by simp [hy]⟩
  · exact .inl ⟨x, by simp⟩
  · exact .inr ⟨p, d, y', c, x', hne, rfl, rfl⟩

theorem isShort_insert (v : β) (h : Wf n t) (hshort : t.isShort = false) (hkey : key.length = n) :
    (insert (value v) t key).isShort = false := by
  cases h with
  | value w =>
    obtain rfl := length_eq_zero_iff.1 hkey
    rfl
  | short hk hc hs => cases hshort
  | full i j hij hi hj hcs =>
    cases key with
    | nil => cases hkey
    | cons a key => rfl

theorem Canon.insert (h : Canon n t) (v : β)
    (hkey : key.length = n) : Wf n (PTree.insert (.value v) t key) := by
  rcases h with rfl | h
  · have hgraft := (Wf.value (b := b) v).graft (k := key) rfl
    rw [hkey] at hgraft
    exact hgraft
  induction h generalizing key with
  | value w =>
    obtain rfl := length_eq_zero_iff.1 hkey
    exact .value v
  | @short n k c hk hc hshort ih =>
    rcases short_cases (show k.length ≤ key.length by omega) with
      ⟨rest, rfl⟩ | ⟨p, d, k', x, key', hne, rfl, rfl⟩
    · have hrest : rest.length = n := by simpa using hkey
      rw [insert_short_append]
      exact .short hk (ih hrest) (isShort_insert v hc hshort hrest)
    rw [insert_short_fork _ _ _ _ hne]
    have hlen : (p ++ d :: k').length + n = p.length + ((k'.length + n) + 1) := by
      simp
      omega
    have hkey' : key'.length = k'.length + n := by
      simp at hkey
      omega
    have hnew : Wf (k'.length + n) (PTree.graft key' (.value v) : PTree b β) := by
      have hgraft := (Wf.value (b := b) v).graft (k := key') rfl
      rwa [hkey'] at hgraft
    rw [hlen]
    exact (Wf.fork hne (hc.graft hshort) hnew).graft rfl
  | @full n cs i j hij hi hj hcs ih =>
    cases key with
    | nil => cases hkey
    | cons a key =>
      have hlen : key.length = n := by simpa using hkey
      have hnew : Wf n (PTree.insert (.value v) (cs a) key) := by
        by_cases hnil : cs a = nil
        · rw [hnil]
          have hgraft := (Wf.value (b := b) v).graft (k := key) rfl
          rw [hlen] at hgraft
          exact hgraft
        · exact ih a hnil hlen
      have hupdate : ∀ c, cs c ≠ nil →
          Function.update cs a (PTree.insert (.value v) (cs a) key) c ≠ nil := by
        intro c hc
        by_cases hca : c = a
        · subst hca
          simpa using hnew.ne_nil
        · rwa [update_of_ne hca]
      refine .full i j hij (hupdate i hi) (hupdate j hj) fun c hc => ?_
      by_cases hca : c = a
      · subst hca
        simpa using hnew
      · rw [update_of_ne hca] at hc ⊢
        exact hcs c hc

/-- **Inserting writes one key.** -/
theorem find_insert (h : Canon n t) (v : β) (hkey : key.length = n) (hkey' : key'.length = n) :
    (insert (value v) t key).find key' = if key' = key then some v else t.find key' := by
  rcases h with rfl | h
  · exact find_graft_value v (hkey'.trans hkey.symm)
  induction h generalizing key key' with
  | value w =>
    obtain rfl := length_eq_zero_iff.1 hkey
    obtain rfl := length_eq_zero_iff.1 hkey'
    rfl
  | @short n k c hk hc hshort ih =>
    rcases short_cases (show k.length ≤ key.length by omega) with
      ⟨rest, rfl⟩ | ⟨p, d, k', x, tail, hne, rfl, rfl⟩
    · rw [insert_short_append]
      by_cases hpre : k <+: key'
      · obtain ⟨rest', rfl⟩ := hpre
        rw [find_short_append, find_short_append, ih (by simpa using hkey) (by simpa using hkey')]
        simp
      · have hother : key' ≠ k ++ rest := fun heq => hpre (heq ▸ prefix_append _ _)
        rw [find_short_of_not _ hpre, find_short_of_not _ hpre, if_neg hother]
    rw [insert_short_fork _ _ _ _ hne]
    by_cases hpre : p <+: key'
    · obtain ⟨rest', rfl⟩ := hpre
      cases rest' with
      | nil =>
        simp at hkey'
        omega
      | cons e rest' =>
        have hrest' : rest'.length = tail.length := by
          simp at hkey hkey'
          omega
        rw [find_graft_append, find_fork]
        by_cases hex : e = x
        · subst hex
          have hold : ¬ p ++ d :: k' <+: p ++ e :: rest' := by
            rw [prefix_append_right_inj, cons_prefix_cons]
            exact fun hd => hne hd.1.symm
          rw [if_pos rfl, find_graft_value v hrest', find_short_of_not c hold]
          simp
        rw [if_neg hex, if_neg (show ¬ p ++ e :: rest' = p ++ x :: tail by simp [hex])]
        by_cases hed : e = d
        · subst hed
          rw [if_pos rfl]
          by_cases hk' : k' <+: rest'
          · obtain ⟨rest'', rfl⟩ := hk'
            have hsplit : p ++ e :: (k' ++ rest'') = (p ++ e :: k') ++ rest'' := by simp
            rw [find_graft_append, hsplit, find_short_append]
          · have hold : ¬ p ++ e :: k' <+: p ++ e :: rest' := by
              rw [prefix_append_right_inj, cons_prefix_cons]
              exact fun hd => hk' hd.2
            rw [find_graft_of_not _ hk', find_short_of_not _ hold]
        · have hold : ¬ p ++ d :: k' <+: p ++ e :: rest' := by
            rw [prefix_append_right_inj, cons_prefix_cons]
            exact fun hd => hed hd.1.symm
          rw [if_neg hed, find_short_of_not _ hold]
    · have hold : ¬ p ++ d :: k' <+: key' := fun hd =>
        hpre ((prefix_append _ _).trans hd)
      have hother : key' ≠ p ++ x :: tail := fun heq => hpre (heq ▸ prefix_append _ _)
      rw [find_graft_of_not _ hpre, find_short_of_not _ hold, if_neg hother]
  | @full n cs i j hij hi hj hcs ih =>
    cases key with
    | nil => cases hkey
    | cons a key =>
      cases key' with
      | nil => cases hkey'
      | cons a' key' =>
        have hlen : key.length = n := by simpa using hkey
        have hlen' : key'.length = n := by simpa using hkey'
        rw [insert, find_full_cons, find_full_cons]
        by_cases haa : a' = a
        · subst haa
          rw [update_self]
          by_cases hnil : cs a' = nil
          · rw [hnil]
            have hgraft : (PTree.insert (value v) nil key).find key' =
                if key' = key then some v else none :=
              find_graft_value v (hlen'.trans hlen.symm)
            simpa using hgraft
          · rw [ih a' hnil hlen hlen']
            simp
        · rw [update_of_ne haa]
          simp [haa]

/-! ### Removing -/

theorem remove_short_append_cons (k rest : List (Fin b)) (x : Fin b) (c : PTree b β) :
    remove (short k c) (k ++ x :: rest) = join k (remove c (x :: rest)) := by
  rw [remove, commonLen_append]
  simp

theorem remove_short_self (k : List (Fin b)) (c : PTree b β) : remove (short k c) k = nil := by
  have hlen : commonLen k k = k.length := by simpa using commonLen_append k []
  rw [remove, hlen]
  simp

theorem remove_short_fork (p k' key' : List (Fin b)) (hne : x ≠ d) (c : PTree b β) :
    remove (short (p ++ d :: k') c) (p ++ x :: key') = short (p ++ d :: k') c := by
  rw [remove, commonLen_fork _ _ _ hne]
  simp

/-- **The subtrees that are left in a branch**: none, one, or two. -/
theorem shrink_cases (cs : Fin b → PTree b β) :
    (∀ i, cs i = nil) ∨ (∃ i, cs i ≠ nil ∧ (∀ j, cs j ≠ nil → j = i) ∧
      shrink cs = join [i] (cs i)) ∨
      (∃ i j, i ≠ j ∧ cs i ≠ nil ∧ cs j ≠ nil) ∧ shrink cs = full cs := by
  have hmem : ∀ i, i ∈ (List.finRange b).filter (fun i => !(cs i).isNil) ↔ cs i ≠ nil := by
    intro i
    rw [mem_filter, Bool.not_eq_true', ← Bool.not_eq_true, isNil_iff]
    exact and_iff_right (mem_finRange i)
  have hnodup : ((List.finRange b).filter fun i => !(cs i).isNil).Nodup :=
    (nodup_finRange b).filter _
  unfold shrink
  cases hlist : (List.finRange b).filter fun i => !(cs i).isNil with
  | nil =>
    left
    intro i
    by_contra hi
    have := (hmem i).2 hi
    rw [hlist] at this
    cases this
  | cons i rest =>
    rw [hlist] at hmem hnodup
    cases rest with
    | nil =>
      right
      left
      exact ⟨i, (hmem i).1 (by simp), fun j hj => by simpa using (hmem j).2 hj, rfl⟩
    | cons j rest =>
      right
      right
      refine ⟨⟨i, j, ?_, (hmem i).1 (by simp), (hmem j).1 (by simp)⟩, rfl⟩
      rintro rfl
      simp at hnodup

theorem shrink_of_two {i j : Fin b} (hij : i ≠ j) (hi : cs i ≠ nil)
    (hj : cs j ≠ nil) : shrink cs = full cs := by
  rcases shrink_cases cs with hnone | ⟨a, -, honly, -⟩ | ⟨-, hshrink⟩
  · exact absurd (hnone i) hi
  · exact absurd ((honly i hi).trans (honly j hj).symm) hij
  · exact hshrink

theorem find_shrink (cs : Fin b → PTree b β) (hsome : ∃ i, cs i ≠ nil) (hkey : key.length = n + 1) :
    (shrink cs).find key = (full cs).find key := by
  cases key with
  | nil => cases hkey
  | cons a key =>
    rcases shrink_cases cs with hnone | ⟨i, hi, honly, hshrink⟩ | ⟨-, hshrink⟩
    · obtain ⟨i, hi⟩ := hsome
      exact absurd (hnone i) hi
    · rw [hshrink, find_full_cons]
      by_cases hai : a = i
      · subst hai
        exact find_join_append [a] key (cs a)
      have hnil : cs a = nil := by
        by_contra hne
        exact hai (honly a hne)
      have hnot : ¬ [i] <+: a :: key := by
        rw [cons_prefix_cons]
        exact fun hd => hai hd.1.symm
      rw [find_join_of_not _ hnot, hnil, find_nil]
    · rw [hshrink]

theorem shrink_ne_nil (hsome : ∃ i, cs i ≠ nil) : shrink cs ≠ nil := by
  rcases shrink_cases cs with hnone | ⟨i, -, -, hshrink⟩ | ⟨-, hshrink⟩
  · obtain ⟨i, hi⟩ := hsome
    exact absurd (hnone i) hi
  · rw [hshrink]
    cases cs i <;> simp [join]
  · rw [hshrink]
    simp

theorem Wf.shrink (hsome : ∃ i, cs i ≠ nil)
    (hcs : ∀ a, cs a ≠ nil → Wf n (cs a)) : Wf (n + 1) (PTree.shrink cs) := by
  rcases shrink_cases cs with hnone | ⟨i, hi, -, hshrink⟩ | ⟨⟨i, j, hij, hi, hj⟩, hshrink⟩
  · obtain ⟨i, hi⟩ := hsome
    exact absurd (hnone i) hi
  · rw [hshrink, Nat.add_comm]
    exact (hcs i hi).join (k := [i]) (by simp)
  · rw [hshrink]
    exact .full i j hij hi hj hcs

theorem exists_update_ne {i j : Fin b} (hij : i ≠ j) (hi : cs i ≠ nil)
    (hj : cs j ≠ nil) (a : Fin b) (t : PTree b β) : ∃ c, Function.update cs a t c ≠ nil := by
  by_cases hia : i = a
  · exact ⟨j, by rwa [update_of_ne (fun hja => hij (hia.trans hja.symm))]⟩
  · exact ⟨i, by rwa [update_of_ne hia]⟩

theorem Wf.remove (h : Wf n t) (hkey : key.length = n) : Canon n (t.remove key) := by
  induction h generalizing key with
  | value v => exact .inl rfl
  | @short n k c hk hc hshort ih =>
    rcases short_cases (show k.length ≤ key.length by omega) with
      ⟨rest, rfl⟩ | ⟨p, d, k', x, key', hne, rfl, rfl⟩
    · have hrest : rest.length = n := by simpa using hkey
      cases rest with
      | nil =>
        rw [append_nil, remove_short_self]
        exact .inl rfl
      | cons x rest =>
        rw [remove_short_append_cons]
        right
        rcases ih hrest with hnil | hwf
        · -- something is left below a branch, and a value is not this deep
          cases hc with
          | value v => cases hrest
          | short hk' hc' hs' => cases hshort
          | full i j hij hi hj hcs =>
            exact absurd hnil (shrink_ne_nil (exists_update_ne hij hi hj x _))
        · exact hwf.join hk
    · rw [remove_short_fork _ _ _ hne]
      exact .inr (.short hk hc hshort)
  | @full n cs i j hij hi hj hcs ih =>
    cases key with
    | nil => cases hkey
    | cons a key =>
      have hlen : key.length = n := by simpa using hkey
      refine .inr (Wf.shrink (exists_update_ne hij hi hj a _) fun c hc => ?_)
      by_cases hca : c = a
      · subst hca
        rw [update_self] at hc ⊢
        by_cases hnil : cs c = nil
        · rw [hnil] at hc
          exact absurd rfl hc
        · exact (ih c hnil hlen).resolve_left hc
      · rw [update_of_ne hca] at hc ⊢
        exact hcs c hc

/-- **Removing erases one key.** -/
theorem find_remove (h : Wf n t) (hkey : key.length = n) (hkey' : key'.length = n) :
    (t.remove key).find key' = if key' = key then none else t.find key' := by
  induction h generalizing key key' with
  | value v =>
    obtain rfl := length_eq_zero_iff.1 hkey
    obtain rfl := length_eq_zero_iff.1 hkey'
    rfl
  | @short n k c hk hc hshort ih =>
    rcases short_cases (show k.length ≤ key.length by omega) with
      ⟨rest, rfl⟩ | ⟨p, d, k', x, tail, hne, rfl, rfl⟩
    · have hrest : rest.length = n := by simpa using hkey
      cases rest with
      | nil =>
        rw [append_nil] at hkey ⊢
        rw [remove_short_self, find_nil]
        by_cases hpre : k <+: key'
        · obtain rfl := List.IsPrefix.eq_of_length hpre (hkey.trans hkey'.symm)
          rw [if_pos rfl]
        · rw [find_short_of_not c hpre, ite_self]
      | cons x rest =>
        rw [remove_short_append_cons]
        by_cases hpre : k <+: key'
        · obtain ⟨rest', rfl⟩ := hpre
          rw [find_join_append, find_short_append, ih hrest (by simpa using hkey')]
          simp
        · have hother : key' ≠ k ++ x :: rest := fun heq => hpre (heq ▸ prefix_append _ _)
          rw [find_join_of_not _ hpre, find_short_of_not _ hpre, if_neg hother]
    · rw [remove_short_fork _ _ _ hne]
      by_cases heq : key' = p ++ x :: tail
      · have hold : ¬ p ++ d :: k' <+: p ++ x :: tail := by
          rw [prefix_append_right_inj, cons_prefix_cons]
          exact fun hd => hne hd.1.symm
        rw [heq, if_pos rfl, find_short_of_not c hold]
      · rw [if_neg heq]
  | @full n cs i j hij hi hj hcs ih =>
    cases key with
    | nil => cases hkey
    | cons a key =>
      cases key' with
      | nil => cases hkey'
      | cons a' key' =>
        have hlen : key.length = n := by simpa using hkey
        have hlen' : key'.length = n := by simpa using hkey'
        rw [PTree.remove, find_shrink _ (exists_update_ne hij hi hj a _) hkey',
          find_full_cons, find_full_cons]
        by_cases haa : a' = a
        · subst haa
          rw [update_self]
          by_cases hnil : cs a' = nil
          · rw [hnil]
            exact (ite_self _).symm
          · rw [ih a' hnil hlen hlen']
            simp
        · simp [haa]

theorem Canon.remove (h : Canon n t) (hkey : key.length = n) : Canon n (t.remove key) := by
  rcases h with rfl | h
  · exact .inl rfl
  · exact h.remove hkey

/-! ### The tree of a map -/

/-- The digits after a run are not all the same, unless the run ends at a value. -/
theorem Wf.short_prefix {n m : ℕ} {k l : List (Fin b)} {c c' : PTree b β} (hc : Wf n c)
    (hshort : c.isShort = false) (hlen : k.length + n = (k ++ l).length + m)
    (hfind : ∀ key, key.length = k.length + n →
      (PTree.short k c).find key = (PTree.short (k ++ l) c').find key) : l = [] := by
  cases l with
  | nil => rfl
  | cons d l =>
    exfalso
    cases hc with
    | value v =>
      simp at hlen
      omega
    | short hk' hc' hs' => cases hshort
    | @full n cs i j hij hi hj hcs =>
      obtain ⟨a, key, v, had, hkey, hsome⟩ := (Wf.full i j hij hi hj hcs).exists_find_ne d
      have hold : ¬ k ++ d :: l <+: k ++ a :: key := by
        rw [prefix_append_right_inj, cons_prefix_cons]
        exact fun hd => had hd.1.symm
      have heq := hfind (k ++ a :: key) (by simp [hkey])
      rw [find_short_append, hsome, find_short_of_not c' hold] at heq
      cases heq

/-- **A compressed tree is determined by its map.** -/
theorem Wf.ext {t t' : PTree b β} (h : Wf n t) (h' : Wf n t')
    (hfind : ∀ key, key.length = n → t.find key = t'.find key) : t = t' := by
  induction h generalizing t' with
  | value v =>
    generalize hzero : 0 = z at h'
    cases h' with
    | value w =>
      have heq := hfind [] rfl
      rw [find_value, find_value, Option.some.injEq] at heq
      rw [heq]
    | short hk hc hs =>
      exact absurd (length_eq_zero_iff.1 (by omega)) hk
    | full i j hij hi hj hcs => cases hzero
  | @short n k c hk hc hshort ih =>
    generalize hN : k.length + n = N at h'
    cases h' with
    | value w => exact absurd (length_eq_zero_iff.1 (by omega)) hk
    | @full m cs i j hij hi hj hcs =>
      -- a branch has keys that do not start with the first digit of the run
      exfalso
      cases k with
      | nil => exact hk rfl
      | cons d k =>
        obtain ⟨a, key, v, had, hkey, hsome⟩ := (Wf.full i j hij hi hj hcs).exists_find_ne d
        have hold : ¬ d :: k <+: a :: key := by
          rw [cons_prefix_cons]
          exact fun hd => had hd.1.symm
        have heq := hfind (a :: key) (by rw [length_cons, hkey, hN])
        rw [hsome, find_short_of_not c hold] at heq
        cases heq
    | @short m k' c' hk' hc' hshort' =>
      obtain ⟨p, x, y, rfl, rfl, -, hcase⟩ := exists_commonLen k k'
      have hsame : x = [] ∧ y = [] := by
        rcases hcase with rfl | rfl | ⟨d, x', e, y', rfl, rfl, hne⟩
        · rw [append_nil] at hN hfind
          exact ⟨rfl, hc.short_prefix hshort hN hfind⟩
        · rw [append_nil] at hN hfind
          have hback : ∀ key, key.length = p.length + m →
              (PTree.short p c').find key = (PTree.short (p ++ x) c).find key :=
            fun key hkey => (hfind key (hkey.trans hN.symm)).symm
          exact ⟨hc'.short_prefix hshort' hN.symm hback, rfl⟩
        exfalso
        obtain ⟨key, v, hkey, hsome⟩ := hc.exists_find
        have hold : ¬ p ++ e :: y' <+: (p ++ d :: x') ++ key := by
          rw [append_assoc, prefix_append_right_inj, cons_append, cons_prefix_cons]
          exact fun hd => hne hd.1.symm
        have heq := hfind ((p ++ d :: x') ++ key) (by rw [length_append, hkey])
        rw [find_short_append, hsome, find_short_of_not c' hold] at heq
        cases heq
      obtain ⟨rfl, rfl⟩ := hsame
      have hnm : n = m := by omega
      subst hnm
      have hchild : c = c' := by
        refine ih hc' fun key hkey => ?_
        have heq := hfind ((p ++ []) ++ key) (by rw [length_append, hkey])
        simpa using heq
      rw [hchild]
  | @full n cs i j hij hi hj hcs ih =>
    generalize hN : n + 1 = N at h'
    cases h' with
    | value w => cases hN
    | @short m k' c' hk' hc' hshort' =>
      exfalso
      cases k' with
      | nil => exact hk' rfl
      | cons d k' =>
        obtain ⟨a, key, v, had, hkey, hsome⟩ := (Wf.full i j hij hi hj hcs).exists_find_ne d
        have hold : ¬ d :: k' <+: a :: key := by
          rw [cons_prefix_cons]
          exact fun hd => had hd.1.symm
        have heq := hfind (a :: key) (by rw [length_cons, hkey])
        rw [hsome, find_short_of_not c' hold] at heq
        cases heq
    | @full m cs' i' j' hij' hi' hj' hcs' =>
      have hnm : n = m := by omega
      subst hnm
      have hchild : ∀ a key, key.length = n → (cs a).find key = (cs' a).find key := by
        intro a key hkey
        exact hfind (a :: key) (by rw [length_cons, hkey])
      congr 1
      funext a
      by_cases hnil : cs a = nil
      · by_contra hne
        have hne' : cs' a ≠ nil := fun heq => hne (hnil.trans heq.symm)
        obtain ⟨key, v, hkey, hsome⟩ := (hcs' a hne').exists_find
        have heq := hchild a key hkey
        rw [hnil, hsome] at heq
        cases heq
      · have hne' : cs' a ≠ nil := by
          intro hnil'
          obtain ⟨key, v, hkey, hsome⟩ := (hcs a hnil).exists_find
          have heq := hchild a key hkey
          rw [hnil', hsome] at heq
          cases heq
        exact ih a hnil (hcs' a hne') (hchild a)

theorem Canon.ext {t t' : PTree b β} (h : Canon n t) (h' : Canon n t')
    (hfind : ∀ key, key.length = n → t.find key = t'.find key) : t = t' := by
  rcases h with rfl | h <;> rcases h' with rfl | h'
  · rfl
  · obtain ⟨key, v, hkey, hsome⟩ := h'.exists_find
    have heq := hfind key hkey
    rw [hsome] at heq
    cases heq
  · obtain ⟨key, v, hkey, hsome⟩ := h.exists_find
    have heq := hfind key hkey
    rw [hsome] at heq
    cases heq
  · exact h.ext h' hfind

end PTree

end Patricia
