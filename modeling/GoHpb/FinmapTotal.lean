/-
**Totals over a finite map.**

What is found in a map after a change, and sums over its values.  A table that counts references
has a number for each entry, and the sum of these numbers over the table.  The sum moves with every
change of the table: by what a new entry brings, by what an erased one takes away, and by the
difference when an entry is replaced.

Main results:

* `FinmapTotal.total_insert_new`, `FinmapTotal.total_insert`, `FinmapTotal.total_erase` — **how the
  sum changes**.
-/

import Mathlib

open Finmap

namespace FinmapTotal

variable {κ β : Type} [DecidableEq κ]

/-- The sum of a number over the values of a map. -/
def total (f : β → ℕ) (m : Finmap fun _ : κ => β) : ℕ :=
  ∑ k ∈ m.keys, (m.lookup k).elim 0 f

variable {f : β → ℕ} {m : Finmap fun _ : κ => β} {k : κ} {b b' : β}

theorem of_lookup_insert {a : κ} (h : (m.insert k b).lookup a = some b') :
    (a = k ∧ b' = b) ∨ (a ≠ k ∧ m.lookup a = some b') := by
  by_cases ha : a = k
  · subst ha
    rw [lookup_insert] at h
    exact .inl ⟨rfl, (Option.some.inj h).symm⟩
  · rw [lookup_insert_of_ne _ ha] at h
    exact .inr ⟨ha, h⟩

theorem lookup_insert_eq (m : Finmap fun _ : κ => β) (k : κ) (b : β) (a : κ) :
    (m.insert k b).lookup a = if a = k then some b else m.lookup a := by
  split_ifs with ha
  · rw [ha, lookup_insert]
  · exact lookup_insert_of_ne m ha

theorem of_lookup_erase {a : κ} (h : (m.erase k).lookup a = some b) :
    a ≠ k ∧ m.lookup a = some b := by
  by_cases ha : a = k
  · subst ha
    simp at h
  · rw [lookup_erase_ne ha] at h
    exact ⟨ha, h⟩

theorem mem_keys_of_lookup (h : m.lookup k = some b) : k ∈ m.keys :=
  mem_keys.2 (mem_iff.2 ⟨b, h⟩)

theorem keys_insert (k : κ) (b : β) (m : Finmap fun _ : κ => β) :
    (m.insert k b).keys = insert k m.keys := by
  ext a
  rw [mem_keys, mem_insert, Finset.mem_insert, mem_keys]

theorem keys_erase (k : κ) (m : Finmap fun _ : κ => β) : (m.erase k).keys = m.keys.erase k := by
  ext a
  rw [mem_keys, mem_erase, Finset.mem_erase, mem_keys]

theorem sum_erase_congr {m' : Finmap fun _ : κ => β} (s : Finset κ)
    (h : ∀ a, a ≠ k → m'.lookup a = m.lookup a) :
    ∑ a ∈ s.erase k, (m'.lookup a).elim 0 f = ∑ a ∈ s.erase k, (m.lookup a).elim 0 f :=
  Finset.sum_congr rfl fun a ha => by rw [h a (Finset.ne_of_mem_erase ha)]

theorem total_eq_add (h : m.lookup k = some b) :
    total f m = f b + ∑ a ∈ m.keys.erase k, (m.lookup a).elim 0 f := by
  rw [total, ← Finset.add_sum_erase _ _ (mem_keys_of_lookup h), h]
  rfl

theorem total_insert_new (h : m.lookup k = none) : total f (m.insert k b) = total f m + f b := by
  have hk : k ∉ m.keys := fun hmem => by
    obtain ⟨c, hc⟩ := mem_iff.1 (mem_keys.1 hmem)
    rw [h] at hc
    cases hc
  have herase : (insert k m.keys).erase k = m.keys.erase k := Finset.erase_insert_eq_erase _ _
  rw [total_eq_add (lookup_insert m), keys_insert, herase,
    sum_erase_congr (m := m) _ fun a ha => lookup_insert_of_ne m ha,
    Finset.erase_eq_of_notMem hk, add_comm]
  rfl

theorem total_insert (h : m.lookup k = some b') :
    total f (m.insert k b) + f b' = total f m + f b := by
  have herase : (insert k m.keys).erase k = m.keys.erase k := Finset.erase_insert_eq_erase _ _
  rw [total_eq_add (lookup_insert m), keys_insert, herase,
    sum_erase_congr (m := m) _ fun a ha => lookup_insert_of_ne m ha, total_eq_add h]
  omega

theorem total_erase (h : m.lookup k = some b) : total f (m.erase k) + f b = total f m := by
  rw [total_eq_add h, total, keys_erase,
    sum_erase_congr (m := m) _ fun a ha => lookup_erase_ne ha, add_comm]

theorem total_erase_none (h : m.lookup k = none) : total f (m.erase k) = total f m := by
  have hk : k ∉ m.keys := fun hmem => by
    obtain ⟨c, hc⟩ := mem_iff.1 (mem_keys.1 hmem)
    rw [h] at hc
    cases hc
  rw [total, keys_erase, sum_erase_congr (m := m) _ fun a ha => lookup_erase_ne ha,
    Finset.erase_eq_of_notMem hk]
  rfl

theorem eq_zero_of_total (h : total f m = 0) (hk : m.lookup k = some b) : f b = 0 := by
  rw [total_eq_add hk] at h
  omega

theorem total_eq_zero (h : ∀ k b, m.lookup k = some b → f b = 0) : total f m = 0 := by
  refine Finset.sum_eq_zero fun k _ => ?_
  cases hk : m.lookup k with
  | none => rfl
  | some b => exact h k b hk

theorem total_congr {f' : β → ℕ} (h : ∀ k b, m.lookup k = some b → f' b = f b) :
    total f' m = total f m := by
  refine Finset.sum_congr rfl fun k _ => ?_
  cases hk : m.lookup k with
  | none => rfl
  | some b => exact h k b hk

theorem card_keys_erase (h : m.lookup k = some b) : (m.erase k).keys.card + 1 = m.keys.card := by
  rw [keys_erase, Finset.card_erase_add_one (mem_keys_of_lookup h)]

theorem card_keys_insert (h : m.lookup k = some b') : (m.insert k b).keys.card = m.keys.card := by
  rw [keys_insert, Finset.insert_eq_of_mem (mem_keys_of_lookup h)]

/-! ### What the values hold -/

variable {ι : Type} [DecidableEq ι]

/-- What the values of a map hold together. -/
def members (g : β → Finset ι) (m : Finmap fun _ : κ => β) : Finset ι :=
  m.keys.biUnion fun k => (m.lookup k).elim ∅ g

variable {g : β → Finset ι} {i : ι}

theorem mem_members : i ∈ members g m ↔ ∃ k b, m.lookup k = some b ∧ i ∈ g b := by
  rw [members, Finset.mem_biUnion]
  constructor
  · rintro ⟨k, -, hi⟩
    cases hk : m.lookup k with
    | none =>
      rw [hk] at hi
      exact absurd hi (Finset.notMem_empty i)
    | some b =>
      rw [hk] at hi
      exact ⟨k, b, hk, hi⟩
  · rintro ⟨k, b, hk, hi⟩
    refine ⟨k, mem_keys_of_lookup hk, ?_⟩
    rw [hk]
    exact hi

theorem filter_members (p : ι → Prop) [DecidablePred p] :
    (members g m).filter p = members (fun b => (g b).filter p) m := by
  ext i
  rw [Finset.mem_filter, mem_members, mem_members]
  constructor
  · rintro ⟨⟨k, b, hk, hi⟩, hp⟩
    exact ⟨k, b, hk, Finset.mem_filter.2 ⟨hi, hp⟩⟩
  rintro ⟨k, b, hk, hi⟩
  obtain ⟨hi, hp⟩ := Finset.mem_filter.1 hi
  exact ⟨⟨k, b, hk, hi⟩, hp⟩

theorem card_members (h : ∀ k k' b b', m.lookup k = some b → m.lookup k' = some b' → k ≠ k' →
    Disjoint (g b) (g b')) : (members g m).card = total (fun b => (g b).card) m := by
  rw [members, Finset.card_biUnion]
  · refine Finset.sum_congr rfl fun k _ => ?_
    cases m.lookup k with
    | none | some b => rfl
  intro k _ k' _ hne
  change Disjoint ((m.lookup k).elim ∅ g) ((m.lookup k').elim ∅ g)
  cases hk : m.lookup k with
  | none => exact Finset.disjoint_empty_left _
  | some b =>
    cases hk' : m.lookup k' with
    | none => exact Finset.disjoint_empty_right _
    | some b' => exact h k k' b b' hk hk' hne

end FinmapTotal
