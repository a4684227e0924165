/-
**A ledger of tasks.**

A pool of numbered tasks is worked off by many hands: a task waits in a queue, is held by somebody,
or is done, and the ledger says that each one is in exactly one of these places.  Tasks are known by
a key; the keys of the done ones are remembered until the task is retired.  When the tasks count up
from a first number and the queue gives out the least one, the number of a task that leaves the
queue is bounded by how many are done or held.

Main results:

* `WorkLedger.Ledger.count_add_done` — **each task is in exactly one place**;
* `WorkLedger.Ledger.num_le` — **the least waiting task is near the front**.
-/

import Mathlib

open List

namespace WorkLedger

variable {α κ : Type}

/-! ### Consecutive numbers -/

/-- The tasks count up from a number. -/
def Consecutive (num : α → ℕ) : ℕ → List α → Prop
  | _, [] => True
  | n, a :: l => num a = n ∧ Consecutive num (n + 1) l

namespace Consecutive

variable {num : α → ℕ} {n : ℕ} {l l' : List α} {a : α}

theorem append_iff :
    Consecutive num n (l ++ l') ↔ Consecutive num n l ∧ Consecutive num (n + l.length) l' := by
  induction l generalizing n with
  | nil => simp [Consecutive]
  | cons a l ih =>
    rw [cons_append, Consecutive, Consecutive, ih, length_cons, and_assoc,
      Nat.add_right_comm, Nat.add_assoc]

theorem num_of_getElem? (h : Consecutive num n l) {i : ℕ} (ha : l[i]? = some a) :
    num a = n + i := by
  induction l generalizing n i with
  | nil => simp at ha
  | cons b l ih =>
    cases i with
    | zero =>
      obtain rfl : b = a := by simpa using ha
      exact h.1
    | succ i =>
      have := ih h.2 ha
      omega

theorem getElem?_of_mem (h : Consecutive num n l) (ha : a ∈ l) :
    ∃ i, l[i]? = some a ∧ num a = n + i := by
  obtain ⟨i, hi⟩ := mem_iff_getElem?.1 ha
  exact ⟨i, hi, h.num_of_getElem? hi⟩

theorem filter_le (h : Consecutive num n l) (m : ℕ) :
    Consecutive num n (l.filter fun a => num a ≤ m) := by
  induction l generalizing n with
  | nil => trivial
  | cons a l ih =>
    by_cases hle : num a ≤ m
    · rw [filter_cons_of_pos (by simpa using hle)]
      exact ⟨h.1, ih h.2⟩
    have hnil : (l.filter fun b => num b ≤ m) = [] := by
      refine filter_eq_nil_iff.2 fun b hb => ?_
      obtain ⟨i, -, hi⟩ := h.2.getElem?_of_mem hb
      have := h.1
      simp only [decide_eq_true_eq]
      omega
    rw [filter_cons_of_neg (by simpa using hle), hnil]
    trivial

end Consecutive

variable [DecidableEq α]

/-- Takes an element of least priority out of a queue. -/
def popMin (num : α → ℕ) (q : List α) : Option (α × List α) :=
  (q.argmin num).map fun a => (a, q.erase a)

variable {num : α → ℕ} {q : List α} {a : α}

theorem popMin_eq_some {rest : List α} (h : popMin num q = some (a, rest)) :
    (q : Multiset α) = a ::ₘ (rest : Multiset α) ∧ ∀ b ∈ rest, num a ≤ num b := by
  obtain ⟨x, hx, heq⟩ := Option.map_eq_some_iff.1 h
  obtain ⟨rfl, rfl⟩ := Prod.mk.inj heq
  refine ⟨?_, fun b hb => le_of_mem_argmin (mem_of_mem_erase hb) hx⟩
  exact Multiset.coe_eq_coe.2 (perm_cons_erase (argmin_mem hx))

/-! ### The ledger -/

variable [DecidableEq κ] {key : α → κ}

/-- The tasks held somewhere are the ones that are not done, and only tasks are done. -/
structure Ledger (key : α → κ) (tasks : List α) (held : Multiset α) (done : Finset κ) : Prop where
  held_eq : held = (tasks.filter fun a => key a ∉ done : List α)
  known : ∀ k ∈ done, ∃ a ∈ tasks, key a = k

namespace Ledger

variable {tasks : List α} {held : Multiset α} {done : Finset κ}

omit [DecidableEq α] in
theorem empty : Ledger key [] 0 ∅ := ⟨rfl, fun _ h => absurd h (Finset.notMem_empty _)⟩

omit [DecidableEq α] in
theorem mem_held (h : Ledger key tasks held done) : a ∈ held ↔ a ∈ tasks ∧ key a ∉ done := by
  rw [h.held_eq, Multiset.mem_coe, mem_filter, decide_eq_true_eq]

omit [DecidableEq α] in
theorem nodup_held (h : Ledger key tasks held done) (hnd : (tasks.map key).Nodup) :
    (held.map key).Nodup := by
  rw [h.held_eq, Multiset.map_coe, Multiset.coe_nodup]
  exact hnd.sublist (filter_sublist.map key)

/-- **Each task is in exactly one place, and there once.** -/
theorem count_add_done (h : Ledger key tasks held done) (hnd : (tasks.map key).Nodup)
    (ha : a ∈ tasks) : held.count a + (if key a ∈ done then 1 else 0) = 1 := by
  by_cases hdone : key a ∈ done
  · rw [if_pos hdone, Multiset.count_eq_zero_of_notMem fun hmem => (h.mem_held.1 hmem).2 hdone]
  · rw [if_neg hdone]
    exact Multiset.count_eq_one_of_mem (h.nodup_held hnd).of_map (h.mem_held.2 ⟨ha, hdone⟩)

omit [DecidableEq α] in
theorem finish (h : Ledger key tasks (a ::ₘ held) done) (hnd : (tasks.map key).Nodup) :
    Ledger key tasks held (insert (key a) done) := by
  have hnodup := h.nodup_held hnd
  rw [Multiset.map_cons, Multiset.nodup_cons] at hnodup
  have hfresh : ∀ b ∈ held, key b ≠ key a := fun b hb heq =>
    hnodup.1 (heq ▸ Multiset.mem_map_of_mem key hb)
  have hrest : (tasks.filter fun b => key b ∉ insert (key a) done) =
      (tasks.filter fun b => key b ∉ done).filter fun b => key b ≠ key a := by
    rw [filter_filter]
    simp only [Finset.mem_insert, not_or, Bool.decide_and]
  constructor
  · rw [hrest, ← Multiset.filter_coe, ← h.held_eq, Multiset.filter_cons_of_neg _ (by simp),
      Multiset.filter_eq_self.2 hfresh]
  intro k hk
  rcases Finset.mem_insert.1 hk with rfl | hk
  · exact ⟨a, (h.mem_held.1 (Multiset.mem_cons_self a held)).1, rfl⟩
  · exact h.known k hk

omit [DecidableEq α] in
theorem add (h : Ledger key tasks held done) {new : List α} (hnew : ∀ b ∈ new, key b ∉ done) :
    Ledger key (tasks ++ new) (held + (new : Multiset α)) done := by
  have hkept : (new.filter fun b => key b ∉ done) = new :=
    filter_eq_self.2 fun b hb => decide_eq_true (hnew b hb)
  constructor
  · rw [filter_append, hkept, ← Multiset.coe_add, ← h.held_eq]
  intro k hk
  obtain ⟨b, hb, hkey⟩ := h.known k hk
  exact ⟨b, mem_append_left _ hb, hkey⟩

omit [DecidableEq α] in
theorem retire {old : List α} (h : Ledger key (old ++ tasks) held done)
    (hnd : ((old ++ tasks).map key).Nodup) (hold : ∀ b ∈ old, key b ∈ done) :
    Ledger key tasks held (done \ (old.map key).toFinset) := by
  have hapart : ∀ b ∈ tasks, key b ∉ (old.map key).toFinset := by
    intro b hb hmem
    rw [map_append, nodup_append] at hnd
    exact hnd.2.2 _ (mem_toFinset.1 hmem) _ (mem_map_of_mem hb) rfl
  constructor
  · rw [h.held_eq, filter_append, filter_eq_nil_iff.2 (by simpa using hold), nil_append]
    congr 1
    refine filter_congr fun b hb => ?_
    exact decide_eq_decide.2 (not_congr (by rw [Finset.mem_sdiff, and_iff_left (hapart b hb)]))
  intro k hk
  obtain ⟨hk, hnot⟩ := Finset.mem_sdiff.1 hk
  obtain ⟨b, hb, rfl⟩ := h.known k hk
  rcases mem_append.1 hb with hb | hb
  · exact absurd (mem_toFinset.2 (mem_map_of_mem hb)) hnot
  · exact ⟨b, hb, rfl⟩

/-- **The least waiting task is near the front**: all tasks before it are done, or held apart from
the queue. -/
theorem num_le {n : ℕ} {queue apart : Multiset α}
    (h : Ledger key tasks (a ::ₘ (queue + apart)) done) (hnd : (tasks.map key).Nodup)
    (hnum : Consecutive num n tasks) (hmin : ∀ b ∈ queue, num a ≤ num b) :
    num a ≤ n + done.card + Multiset.card apart := by
  obtain ⟨i, hi, hai⟩ := hnum.getElem?_of_mem (h.mem_held.1 (Multiset.mem_cons_self a _)).1
  -- the tasks before `a`
  have hlen : (tasks.take i).length = i :=
    List.length_take_of_le (List.getElem?_eq_some_iff.1 hi).1.le
  have hbefore : ∀ b ∈ tasks.take i, b ∈ tasks ∧ num b < num a := by
    intro b hb
    obtain ⟨j, hj⟩ := List.mem_iff_getElem?.1 hb
    have hji : j < i := hlen ▸ (List.getElem?_eq_some_iff.1 hj).1
    rw [List.getElem?_take_of_lt hji] at hj
    have := hnum.num_of_getElem? hj
    exact ⟨mem_of_getElem? hj, by omega⟩
  have hnodup : ((tasks.take i).map key).Nodup := hnd.sublist ((take_sublist i tasks).map key)
  -- those that are done
  have hdone : ((tasks.take i).filter fun b => key b ∈ done).length ≤ done.card := by
    have hnodup' : (((tasks.take i).filter fun b => key b ∈ done).map key).Nodup :=
      hnodup.sublist (filter_sublist.map key)
    rw [← length_map (f := key), ← toFinset_card_of_nodup hnodup']
    refine Finset.card_le_card fun k hk => ?_
    obtain ⟨b, hb, rfl⟩ := mem_map.1 (mem_toFinset.1 hk)
    simpa using (mem_filter.1 hb).2
  -- those that are not
  have hapart : ((tasks.take i).filter fun b => ¬ key b ∈ done).length ≤ Multiset.card apart := by
    have hnodup' : ((tasks.take i).filter fun b => ¬ key b ∈ done).Nodup :=
      hnodup.of_map.sublist filter_sublist
    refine Multiset.card_le_card
      ((Multiset.le_iff_subset (Multiset.coe_nodup.2 hnodup')).2 fun b hb => ?_)
    obtain ⟨hb, hnot⟩ := mem_filter.1 hb
    obtain ⟨hmem, hlt⟩ := hbefore b hb
    rcases Multiset.mem_cons.1 (h.mem_held.2 ⟨hmem, by simpa using hnot⟩) with rfl | hheld
    · omega
    rcases Multiset.mem_add.1 hheld with hq | hap
    · have := hmin b hq
      omega
    · exact hap
  have hsplit := length_eq_length_filter_add (l := tasks.take i) fun b => decide (key b ∈ done)
  simp only [decide_not] at hapart hsplit hdone
  omega

end Ledger

end WorkLedger
