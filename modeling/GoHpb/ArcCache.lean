/-
**The adaptive replacement cache.**

`golang-lru` keeps four least-recently-used lists: the entries seen once and the entries seen more
often, which hold values, and for each of them a list of the keys evicted from it, which steers
how the room is divided.  This module models the list and the cache built from four of them.

A cache forgets, so nothing can be said about *which* entries it holds.  What a client relies on
is that it never invents one: **whatever is true of every entry that was added is true of every
entry that is found**.  `Arc.All` states that, and it is preserved by every operation.

Main results:

* `Arc.get_all` — **what is found has the property**.
-/

import Mathlib

variable {α β : Type*} [DecidableEq α]

/-! ### The least-recently-used list -/

/-- A list of entries of bounded length, newest first. -/
structure Lru (α β : Type*) where
  size : ℕ
  entries : List (α × β)
  deriving DecidableEq

namespace Lru

variable (c : Lru α β)

/-- The value of a key, without renewing the entry. -/
def peek (k : α) : Option β := (c.entries.find? fun e => e.1 = k).map Prod.snd

/-- Whether a key is present. -/
def contains (k : α) : Bool := (c.peek k).isSome

/-- The number of entries. -/
def len : ℕ := c.entries.length

/-- Removing a key. -/
def remove (k : α) : Lru α β :=
  { c with entries := c.entries.filter fun e => e.1 ≠ k }

/-- Removing the oldest entry, which is returned. -/
def removeOldest : Option (α × β) × Lru α β :=
  (c.entries.getLast?, { c with entries := c.entries.dropLast })

/-- Adding a key renews it and sets its value; a new key may push out the oldest entry. -/
def add (k : α) (v : β) : Lru α β :=
  if c.contains k then { c with entries := (k, v) :: (c.remove k).entries }
  else if c.size < c.len + 1 then { c with entries := ((k, v) :: c.entries).dropLast }
  else { c with entries := (k, v) :: c.entries }

/-- The value of a key, which is renewed. -/
def get (k : α) : Option β × Lru α β :=
  match c.peek k with
  | some v => (some v, { c with entries := (k, v) :: (c.remove k).entries })
  | none => (none, c)

/-- Every entry has the property `P`. -/
def All (P : α → β → Prop) (c : Lru α β) : Prop := ∀ e ∈ c.entries, P e.1 e.2

variable {P : α → β → Prop} {c : Lru α β}

theorem All.peek (h : c.All P) {k : α} {v : β} (hv : c.peek k = some v) : P k v := by
  obtain ⟨e, he, rfl⟩ := Option.map_eq_some_iff.1 hv
  have hk : e.1 = k := by simpa using List.find?_some he
  exact hk ▸ h e (List.mem_of_find?_eq_some he)

theorem All.remove (h : c.All P) (k : α) : (c.remove k).All P :=
  fun e he => h e (List.mem_of_mem_filter he)

omit [DecidableEq α] in
theorem All.removeOldest (h : c.All P) : c.removeOldest.2.All P :=
  fun e he => h e (List.mem_of_mem_dropLast he)

theorem All.add (h : c.All P) {k : α} {v : β} (hv : P k v) : (c.add k v).All P := by
  have hcons : ∀ l : List (α × β), (∀ e ∈ l, P e.1 e.2) → ∀ e ∈ (k, v) :: l, P e.1 e.2 := by
    intro l hl e he
    rcases List.mem_cons.1 he with rfl | he
    · exact hv
    · exact hl e he
  simp only [Lru.add]
  split_ifs
  · exact hcons _ (h.remove k)
  · exact fun e he => hcons _ h e (List.mem_of_mem_dropLast he)
  · exact hcons _ h

theorem All.get (h : c.All P) (k : α) : (c.get k).2.All P := by
  simp only [Lru.get]
  cases hv : c.peek k with
  | none => exact h
  | some v =>
    intro e he
    rcases List.mem_cons.1 he with rfl | he
    · exact h.peek hv
    · exact h.remove k e he

theorem get_fst (c : Lru α β) (k : α) : (c.get k).1 = c.peek k := by
  simp only [Lru.get]
  cases c.peek k <;> rfl

end Lru

/-! ### The cache -/

/-- The adaptive replacement cache: `t1` and `t2` hold the entries seen once and more often, `b1`
and `b2` the keys evicted from them, and `p` is the preference towards `t1`. -/
structure Arc (α β : Type*) where
  size : ℕ
  p : ℕ
  t1 : Lru α β
  b1 : Lru α Unit
  t2 : Lru α β
  b2 : Lru α Unit
  deriving DecidableEq

namespace Arc

/-- The empty cache. -/
def new (size : ℕ) : Arc α β :=
  { size := size, p := 0, t1 := ⟨size, []⟩, b1 := ⟨size, []⟩, t2 := ⟨size, []⟩, b2 := ⟨size, []⟩ }

variable (c : Arc α β)

/-- Looking up a key: an entry seen once is promoted, one seen more often is renewed. -/
def get (k : α) : Option β × Arc α β :=
  match c.t1.peek k with
  | some v => (some v, { c with t1 := c.t1.remove k, t2 := c.t2.add k v })
  | none => ((c.t2.get k).1, { c with t2 := (c.t2.get k).2 })

/-- Evicting one entry, from `t1` or from `t2` as the preference says. -/
def replace (b2ContainsKey : Bool) : Arc α β :=
  if 0 < c.t1.len ∧ (c.p < c.t1.len ∨ (c.t1.len = c.p ∧ b2ContainsKey)) then
    { c with
      t1 := c.t1.removeOldest.2
      b1 := match c.t1.removeOldest.1 with
        | some e => c.b1.add e.1 ()
        | none => c.b1 }
  else
    { c with
      t2 := c.t2.removeOldest.2
      b2 := match c.t2.removeOldest.1 with
        | some e => c.b2.add e.1 ()
        | none => c.b2 }

/-- Evicting one entry if the cache is full. -/
def makeRoom (b2ContainsKey : Bool) : Arc α β :=
  if c.size ≤ c.t1.len + c.t2.len then c.replace b2ContainsKey else c

/-- A key recently evicted from `t1`: `t1` is too small, so the preference grows. -/
def growP : Arc α β :=
  let delta := if c.b1.len < c.b2.len then c.b2.len / c.b1.len else 1
  { c with p := if c.size ≤ c.p + delta then c.size else c.p + delta }

/-- A key recently evicted from `t2`: `t2` is too small, so the preference shrinks. -/
def shrinkP : Arc α β :=
  let delta := if c.b2.len < c.b1.len then c.b1.len / c.b2.len else 1
  { c with p := if c.p ≤ delta then 0 else c.p - delta }

/-- Keeping the lists of evicted keys trim. -/
def trim : Arc α β :=
  let c := if c.size - c.p < c.b1.len then { c with b1 := c.b1.removeOldest.2 } else c
  if c.p < c.b2.len then { c with b2 := c.b2.removeOldest.2 } else c

/-- Adding an entry. -/
def add (k : α) (v : β) : Arc α β :=
  if c.t1.contains k then { c with t1 := c.t1.remove k, t2 := c.t2.add k v }
  else if c.t2.contains k then { c with t2 := c.t2.add k v }
  else if c.b1.contains k then
    let c := c.growP.makeRoom false
    { c with b1 := c.b1.remove k, t2 := c.t2.add k v }
  else if c.b2.contains k then
    let c := c.shrinkP.makeRoom true
    { c with b2 := c.b2.remove k, t2 := c.t2.add k v }
  else
    let c := (c.makeRoom false).trim
    { c with t1 := c.t1.add k v }

/-! ### What is true of all the entries -/

/-- Every entry has the property `P`. -/
def All (P : α → β → Prop) (c : Arc α β) : Prop := c.t1.All P ∧ c.t2.All P

variable {P : α → β → Prop} {c : Arc α β}

omit [DecidableEq α] in
theorem all_new (P : α → β → Prop) (size : ℕ) : (new size : Arc α β).All P :=
  ⟨by simp [new, Lru.All], by simp [new, Lru.All]⟩

omit [DecidableEq α] in
theorem All.mono {Q : α → β → Prop} (h : c.All P) (hPQ : ∀ k v, P k v → Q k v) : c.All Q :=
  ⟨fun e he => hPQ e.1 e.2 (h.1 e he), fun e he => hPQ e.1 e.2 (h.2 e he)⟩

/-- **What is found has the property.** -/
theorem get_all (h : c.All P) {k : α} {v : β} (hv : (c.get k).1 = some v) : P k v := by
  simp only [get] at hv
  cases h₁ : c.t1.peek k with
  | some w =>
    rw [h₁] at hv
    exact h.1.peek (h₁.trans hv)
  | none =>
    rw [h₁, Lru.get_fst] at hv
    exact h.2.peek hv

theorem all_get (h : c.All P) (k : α) : (c.get k).2.All P := by
  simp only [get]
  cases h₁ : c.t1.peek k with
  | some w => exact ⟨h.1.remove k, h.2.add (h.1.peek h₁)⟩
  | none => exact ⟨h.1, h.2.get k⟩

theorem all_replace (h : c.All P) (b : Bool) : (c.replace b).All P := by
  simp only [replace]
  split_ifs
  · exact ⟨h.1.removeOldest, h.2⟩
  · exact ⟨h.1, h.2.removeOldest⟩

theorem all_makeRoom (h : c.All P) (b : Bool) : (c.makeRoom b).All P := by
  simp only [makeRoom]
  split_ifs
  · exact all_replace h b
  · exact h

omit [DecidableEq α] in
theorem all_trim (h : c.All P) : c.trim.All P := by
  simp only [trim]
  split_ifs <;> exact h

/-- **Adding keeps what is true of all the entries**, if it is true of the new one. -/
theorem all_add (h : c.All P) {k : α} {v : β} (hv : P k v) : (c.add k v).All P := by
  have hgrow : c.growP.All P := h
  have hshrink : c.shrinkP.All P := h
  simp only [add]
  split_ifs
  · exact ⟨h.1.remove k, h.2.add hv⟩
  · exact ⟨h.1, h.2.add hv⟩
  · have hroom := all_makeRoom hgrow false
    exact ⟨hroom.1, hroom.2.add hv⟩
  · have hroom := all_makeRoom hshrink true
    exact ⟨hroom.1, hroom.2.add hv⟩
  · have hroom := all_trim (all_makeRoom h false)
    exact ⟨hroom.1.add hv, hroom.2⟩

end Arc
