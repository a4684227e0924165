/-
**Branches of a tree, and tables that index a branch.**

The nodes of a tree know their parents.  A `Segment` of it leads from a node down to one of its
ancestors.  A table that gives the name of a node for its height *indexes* a branch if it has the
names of the head of the branch and of all its ancestors.  When the head moves to another branch,
it is enough to write the names of the nodes above the fork into the table: this is what a
reorganisation of a chain does, in whatever order it writes them.

Main results:

* `BlockTree.Indexes.writeAll` — **rewriting the table above the fork**.
-/

import Mathlib

namespace BlockTree

open Function List

variable {β ι : Type}

/-! ### Segments -/

/-- `Segment up b bs a`: going up to the parent again and again leads from `b` to `a`, and the nodes
passed, from `b` on and without `a`, are `bs`. -/
inductive Segment (up : β → β → Prop) : β → List β → β → Prop
  | nil (b : β) : Segment up b [] b
  | cons {b p a : β} {bs : List β} : up b p → Segment up p bs a → Segment up b (b :: bs) a

namespace Segment

variable {up : β → β → Prop} {a b c p : β} {bs cs : List β}

theorem single (h : up b p) : Segment up b [b] p := .cons h (.nil p)

theorem trans (h : Segment up b bs c) (h' : Segment up c cs a) : Segment up b (bs ++ cs) a := by
  induction h with
  | nil => exact h'
  | cons hup _ ih => exact .cons hup (ih h')

theorem forall_mem {P : β → Prop} (hP : ∀ b p, up b p → P b → P p) (h : Segment up b bs a)
    (hb : P b) : (∀ c ∈ bs, P c) ∧ P a := by
  induction h with
  | nil => exact ⟨fun _ hc => absurd hc not_mem_nil, hb⟩
  | cons hup _ ih =>
    obtain ⟨hall, hend⟩ := ih (hP _ _ hup hb)
    exact ⟨forall_mem_cons.2 ⟨hb, hall⟩, hend⟩

theorem split_mem (h : Segment up b bs a) (hc : c ∈ bs) :
    ∃ ds es, Segment up b ds c ∧ Segment up c (c :: es) a ∧ bs = ds ++ c :: es := by
  induction h with
  | nil => exact absurd hc not_mem_nil
  | @cons b p a bs hup hrest ih =>
    rcases mem_cons.1 hc with rfl | hc
    · exact ⟨[], bs, .nil c, .cons hup hrest, rfl⟩
    · obtain ⟨ds, es, hfirst, hlast, rfl⟩ := ih hc
      exact ⟨b :: ds, es, .cons hup hfirst, hlast, rfl⟩

/-- **Of two ancestors of a node, one is an ancestor of the other**, if a node has one parent. -/
theorem compare (hfun : ∀ b p q, up b p → up b q → p = q) (h : Segment up b bs a)
    (h' : Segment up b cs c) : (∃ ds, Segment up a ds c ∧ cs = bs ++ ds) ∨
      (∃ es, Segment up c (c :: es) a ∧ bs = cs ++ c :: es) := by
  induction h generalizing cs with
  | nil => exact .inl ⟨cs, h', rfl⟩
  | @cons b p a bs hup hrest ih =>
    cases h' with
    | nil => exact .inr ⟨bs, .cons hup hrest, rfl⟩
    | @cons _ q _ cs hup' hrest' =>
      obtain rfl : p = q := hfun b p q hup hup'
      rcases ih hrest' with ⟨ds, hds, rfl⟩ | ⟨es, hes, rfl⟩
      · exact .inl ⟨ds, hds, rfl⟩
      · exact .inr ⟨es, hes, rfl⟩

section Height

variable {height : β → ℕ} (hheight : ∀ b p, up b p → height b = height p + 1)

include hheight

theorem height_eq (h : Segment up b bs a) : height b = height a + bs.length := by
  induction h with
  | nil => rfl
  | cons hup _ ih =>
    rw [hheight _ _ hup, ih, length_cons]
    omega

theorem height_mem (h : Segment up b bs a) (hc : c ∈ bs) :
    height a < height c ∧ height c ≤ height b := by
  obtain ⟨ds, es, hfirst, hlast, -⟩ := h.split_mem hc
  have htop := hfirst.height_eq hheight
  have hbottom := hlast.height_eq hheight
  rw [length_cons] at hbottom
  omega

theorem pairwise_height (h : Segment up b bs a) : bs.Pairwise fun c d => height d < height c := by
  induction h with
  | nil => exact List.Pairwise.nil
  | cons hup hrest ih =>
    refine List.Pairwise.cons (fun c hc => ?_) ih
    have hle := (hrest.height_mem hheight hc).2
    rw [hheight _ _ hup]
    omega

theorem mono {up' : β → β → Prop} {n : ℕ} (hup : ∀ b p, height b ≤ n → up b p → up' b p)
    (h : Segment up b bs a) (hb : height b ≤ n) : Segment up' b bs a := by
  induction h with
  | nil b => exact .nil b
  | @cons b p _ _ hp _ ih =>
    have := hheight b p hp
    exact .cons (hup _ _ hb hp) (ih (by omega))

theorem unique (hfun : ∀ b p q, up b p → up b q → p = q) (h : Segment up b bs a)
    (h' : Segment up b cs a) : bs = cs := by
  rcases h.compare hfun h' with ⟨ds, hds, rfl⟩ | ⟨es, hes, -⟩
  · have hlen := hds.height_eq hheight
    have hnil : ds = [] := eq_nil_of_length_eq_zero (by omega)
    rw [hnil, append_nil]
  · have hlen := hes.height_eq hheight
    rw [length_cons] at hlen
    omega

theorem exists_height (h : Segment up b bs a) {n : ℕ} (hlow : height a ≤ n)
    (hhigh : n ≤ height b) : ∃ c ds, Segment up b ds c ∧ height c = n := by
  induction h with
  | nil b => exact ⟨b, [], .nil b, by omega⟩
  | @cons b p a bs hup hrest ih =>
    by_cases hn : n = height b
    · exact ⟨b, [], .nil b, hn.symm⟩
    have hp : n ≤ height p := by
      have := hheight _ _ hup
      omega
    obtain ⟨c, ds, hds, hc⟩ := ih hlow hp
    exact ⟨c, b :: ds, .cons hup hds, hc⟩

end Height

end Segment

/-! ### Tables -/

section Tables

variable (name : β → ι) (height : β → ℕ)

/-- Writing the names of nodes into a table, one after the other. -/
def writeAll (bs : List β) (table : ℕ → Option ι) : ℕ → Option ι :=
  bs.foldl (fun table b => update table (height b) (some (name b))) table

/-- Deleting all entries from a height on. -/
def truncate (i : ℕ) (table : ℕ → Option ι) : ℕ → Option ι :=
  fun n => if i ≤ n then none else table n

/-- The table has the names of the head and of all its ancestors. -/
def Indexes (up : β → β → Prop) (table : ℕ → Option ι) (head : β) : Prop :=
  ∀ bs a, Segment up head bs a → table (height a) = some (name a)

variable {name height} {up : β → β → Prop} {table : ℕ → Option ι} {old new a : β}
  {os ns : List β}

theorem truncate_of_lt {i n : ℕ} (h : n < i) : truncate i table n = table n := if_neg (not_le.2 h)

theorem truncate_of_le {i n : ℕ} (h : i ≤ n) : truncate i table n = none := if_pos h

theorem truncate_update (i : ℕ) (table : ℕ → Option ι) :
    truncate (i + 1) (update table i none) = truncate i table := by
  funext n
  rcases lt_trichotomy n i with hn | rfl | hn
  · rw [truncate_of_lt (hn.trans (Nat.lt_succ_self i)), truncate_of_lt hn,
      update_of_ne hn.ne]
  · rw [truncate_of_lt (Nat.lt_succ_self n), truncate_of_le le_rfl, update_self]
  · rw [truncate_of_le hn, truncate_of_le hn.le]

theorem writeAll_of_forall_ne {bs : List β} {n : ℕ} (h : ∀ b ∈ bs, height b ≠ n) :
    writeAll name height bs table n = table n := by
  induction bs generalizing table with
  | nil => rfl
  | cons b bs ih =>
    have hne : n ≠ height b := fun heq => h b mem_cons_self heq.symm
    have hrest : writeAll name height bs (update table (height b) (some (name b))) n =
          update table (height b) (some (name b)) n :=
      ih fun c hc => h c (mem_cons_of_mem b hc)
    rw [update_of_ne hne] at hrest
    exact hrest

theorem writeAll_of_mem {bs : List β} {b : β} (hpair : bs.Pairwise fun c d => height d < height c)
    (hb : b ∈ bs) : writeAll name height bs table (height b) = some (name b) := by
  induction bs generalizing table with
  | nil => exact absurd hb not_mem_nil
  | cons c bs ih =>
    rw [pairwise_cons] at hpair
    rcases mem_cons.1 hb with rfl | hb
    · -- the nodes written later are lower
      have hkeep : writeAll name height bs
          (update table (height b) (some (name b))) (height b) =
            update table (height b) (some (name b)) (height b) :=
        writeAll_of_forall_ne fun d hd => (hpair.1 d hd).ne
      rw [update_self] at hkeep
      exact hkeep
    · exact ih hpair.2 hb

variable (hheight : ∀ b p, up b p → height b = height p + 1)
  (hfun : ∀ b p q, up b p → up b q → p = q)

include hheight hfun

/-- **Rewriting the table above the fork** moves the index to another branch. -/
theorem Indexes.writeAll (h : Indexes name height up table old) (hold : Segment up old os a)
    (hnew : Segment up new ns a) :
    Indexes name height up (BlockTree.writeAll name height ns table) new := by
  intro cs c hc
  rcases hnew.compare hfun hc with ⟨ds, hds, -⟩ | ⟨es, hes, rfl⟩
  · -- below the fork nothing is written, and the node is an ancestor of the old head
    have hle := hds.height_eq hheight
    have hkeep : BlockTree.writeAll name height ns table (height c) = table (height c) := by
      refine writeAll_of_forall_ne fun b hb heq => ?_
      have hlt := (hnew.height_mem hheight hb).1
      omega
    rw [hkeep]
    exact h _ c (hold.trans hds)
  · exact writeAll_of_mem (hnew.pairwise_height hheight) (by simp)

omit hfun in
theorem Indexes.truncate (h : Indexes name height up table old) (hold : Segment up old os a) {i : ℕ}
    (hi : height a < i) : Indexes name height up (BlockTree.truncate i table) a := by
  intro cs c hc
  have hle := hc.height_eq hheight
  rw [truncate_of_lt (by omega)]
  exact h _ c (hold.trans hc)

theorem Indexes.cons (h : Indexes name height up table old) (hup : up new old) :
    Indexes name height up (update table (height new) (some (name new))) new := by
  intro cs c hc
  cases hc with
  | nil => exact update_self _ _ _
  | @cons _ p _ cs hup' hrest =>
    obtain rfl := hfun _ _ _ hup hup'
    have hlow := hrest.height_eq hheight
    have hnew := hheight _ _ hup
    rw [update_of_ne (by omega)]
    exact h cs c hrest

omit hfun in
theorem writeAll_of_lt (hnew : Segment up new ns a) {n : ℕ} (hn : height new < n) :
    writeAll name height ns table n = table n := by
  refine writeAll_of_forall_ne fun b hb heq => ?_
  have hle := (hnew.height_mem hheight hb).2
  omega

end Tables

end BlockTree
