/-
**Sorting by exchanges.**

The sort with two nested index loops: position `i` is compared with every later position `j`, and
the two entries are exchanged whenever they are out of order.  After the inner loop the smallest
remaining entry stands at `i`, and every entry it displaced stands where its replacement was.

What the loops compute is the sorted list, whatever the order of the input, so the result is a
function of the *set* of entries.  That is how the keys of a map are listed: the iteration order
of a map is unspecified, and `sortedKeys` is defined on a finite set by choosing any order of it.

Main results:

* `ExchangeSort.exchangeSort_eq_of_perm` — **the order of the input does not matter**.
-/

import Mathlib

namespace ExchangeSort

variable {α : Type*} [LinearOrder α]

/-! ### The two loops -/

/-- The inner loop: `x` is the entry at position `i`, and the list holds the later positions.
Returned are the entry left at `i` and the later positions after the exchanges. -/
def sweep (x : α) : List α → α × List α
  | [] => (x, [])
  | y :: ys => if y < x then ((sweep y ys).1, x :: (sweep y ys).2)
      else ((sweep x ys).1, y :: (sweep x ys).2)

/-- The outer loop, with the number of positions it still has to visit. -/
def outer : ℕ → List α → List α
  | _, [] => []
  | 0, x :: xs => x :: xs
  | n + 1, x :: xs => (sweep x xs).1 :: outer n (sweep x xs).2

/-- The sort with two nested loops. -/
def exchangeSort (l : List α) : List α := outer l.length l

/-! ### The result is a sorted rearrangement -/

theorem sweep_perm (x : α) (l : List α) : List.Perm ((sweep x l).1 :: (sweep x l).2) (x :: l) := by
  induction l generalizing x with
  | nil => rfl
  | cons y ys ih =>
    by_cases h : y < x
    · simp only [sweep, if_pos h]
      exact (List.Perm.swap _ _ _).trans (List.Perm.cons x (ih y))
    · simp only [sweep, if_neg h]
      exact ((List.Perm.swap _ _ _).trans (List.Perm.cons y (ih x))).trans (List.Perm.swap _ _ _)

@[simp] theorem length_sweep (x : α) (l : List α) : (sweep x l).2.length = l.length := by
  simpa using (sweep_perm x l).length_eq

theorem sweep_le (x : α) (l : List α) :
    (sweep x l).1 ≤ x ∧ ∀ y ∈ (sweep x l).2, (sweep x l).1 ≤ y := by
  induction l generalizing x with
  | nil => simp [sweep]
  | cons y ys ih =>
    by_cases h : y < x
    · obtain ⟨hy, hrest⟩ := ih y
      simp only [sweep, if_pos h, List.mem_cons, forall_eq_or_imp]
      exact ⟨hy.trans h.le, hy.trans h.le, hrest⟩
    · obtain ⟨hx, hrest⟩ := ih x
      simp only [sweep, if_neg h, List.mem_cons, forall_eq_or_imp]
      exact ⟨hx, hx.trans (not_lt.1 h), hrest⟩

theorem outer_perm (n : ℕ) (l : List α) : List.Perm (outer n l) l := by
  induction n generalizing l with
  | zero => cases l <;> rfl
  | succ n ih =>
    cases l with
    | nil => rfl
    | cons x xs => exact (List.Perm.cons _ (ih _)).trans (sweep_perm x xs)

theorem outer_sorted (n : ℕ) (l : List α) (h : l.length ≤ n) : (outer n l).Pairwise (· ≤ ·) := by
  induction n generalizing l with
  | zero =>
    have : l = [] := List.length_eq_zero_iff.1 (by omega)
    subst this
    exact List.Pairwise.nil
  | succ n ih =>
    cases l with
    | nil => exact List.Pairwise.nil
    | cons x xs =>
      refine List.Pairwise.cons (fun y hy => ?_) (ih _ (by simpa using h))
      exact (sweep_le x xs).2 y ((outer_perm n _).mem_iff.1 hy)

theorem exchangeSort_perm (l : List α) : List.Perm (exchangeSort l) l := outer_perm l.length l

theorem exchangeSort_sorted (l : List α) : (exchangeSort l).Pairwise (· ≤ ·) :=
  outer_sorted l.length l le_rfl

/-- **The order of the input does not matter.** -/
theorem exchangeSort_eq_of_perm {l m : List α} (h : List.Perm l m) :
    exchangeSort l = exchangeSort m :=
  ((exchangeSort_perm l).trans (h.trans (exchangeSort_perm m).symm)).eq_of_pairwise'
    (exchangeSort_sorted l) (exchangeSort_sorted m)

end ExchangeSort

/-! ### The sorted list of a finite set -/

section SortedKeys

open ExchangeSort

variable {α : Type*} [LinearOrder α]

/-- The elements of a finite set, listed in any order and sorted. -/
def sortedKeys (s : Finset α) : List α :=
  Quot.liftOn s.1 exchangeSort fun _ _ h => exchangeSort_eq_of_perm h

theorem coe_sortedKeys (s : Finset α) : (sortedKeys s : Multiset α) = s.1 := by
  obtain ⟨m, hm⟩ := s
  induction m using Quot.inductionOn with
  | h l => exact Multiset.coe_eq_coe.2 (exchangeSort_perm l)

@[simp] theorem mem_sortedKeys {s : Finset α} {a : α} : a ∈ sortedKeys s ↔ a ∈ s := by
  rw [← Multiset.mem_coe, coe_sortedKeys, Finset.mem_val]

@[simp] theorem length_sortedKeys (s : Finset α) : (sortedKeys s).length = s.card := by
  rw [← Multiset.coe_card, coe_sortedKeys, Finset.card_val]

theorem nodup_sortedKeys (s : Finset α) : (sortedKeys s).Nodup := by
  rw [← Multiset.coe_nodup, coe_sortedKeys]
  exact s.nodup

end SortedKeys
