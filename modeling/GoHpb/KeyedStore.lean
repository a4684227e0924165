/-
**A typed store over a key-value store.**

Values of several kinds are kept in one key-value store: each slot has a key, and each value is
written down as the bytes of its kind.  As long as the keys of different slots differ, the store
holds for every slot what was last written to it and not deleted since, whatever happens at the
other slots.

Main results:

* `KeyedStore.get_foldl_apply` — **a store whose keys do not collide returns what was written
  last**.
-/

import Mathlib

namespace KeyedStore

/-- A way to write values down. -/
structure Codec (α β : Type) where
  encode : α → β
  decode : β → Option α
  decode_encode : ∀ a, decode (encode a) = some a

variable {κ σ β : Type} {V : σ → Type} [DecidableEq κ] [DecidableEq σ]

/-- One change of a store. -/
inductive Effect (V : σ → Type)
  | put (s : σ) (v : V s)
  | delete (s : σ)

/-- The slot that is changed. -/
def Effect.slot : Effect V → σ
  | put s _ => s
  | delete s => s

/-- A change, in the table of what was written last. -/
def record (m : ∀ s, Option (V s)) : Effect V → ∀ s, Option (V s)
  | Effect.put s v => Function.update m s (some v)
  | Effect.delete s => Function.update m s none

variable (key : σ → κ) (codec : ∀ s, Codec (V s) β)

/-- A change, in the key-value store. -/
def apply (store : Finmap fun _ : κ => β) : Effect V → Finmap fun _ : κ => β
  | Effect.put s v => store.insert (key s) ((codec s).encode v)
  | Effect.delete s => store.erase (key s)

/-- What is read at a slot. -/
def get (store : Finmap fun _ : κ => β) (s : σ) : Option (V s) :=
  (store.lookup (key s)).bind (codec s).decode

variable {key} {codec} {store : Finmap fun _ : κ => β} {m : ∀ s, Option (V s)} {S : Set σ}

theorem get_apply_self (e : Effect V) :
    get key codec (apply key codec store e) e.slot = record m e e.slot := by
  cases e with
  | put s v =>
    simp only [get, apply, record, Effect.slot, Finmap.lookup_insert, Function.update_self]
    exact (codec s).decode_encode v
  | delete s => simp [get, apply, record, Effect.slot]

variable {e : Effect V}

omit [DecidableEq σ] in
theorem get_apply_of_ne {s : σ} (h : key s ≠ key e.slot) :
    get key codec (apply key codec store e) s = get key codec store s := by
  cases e with
  | put t v =>
    change key s ≠ key t at h
    rw [get, apply, Finmap.lookup_insert_of_ne _ h, get]
  | delete t =>
    change key s ≠ key t at h
    rw [get, apply, Finmap.lookup_erase_ne h, get]

theorem record_of_ne {s : σ} (h : s ≠ e.slot) : record m e s = m s := by
  cases e with
  | put t v | delete t => exact Function.update_of_ne h _ _

theorem get_apply (hkey : Set.InjOn key S) (h : ∀ s ∈ S, get key codec store s = m s)
    (he : e.slot ∈ S) : ∀ s ∈ S, get key codec (apply key codec store e) s = record m e s := by
  intro s hs
  by_cases hslot : s = e.slot
  · subst hslot
    exact get_apply_self e
  · rw [get_apply_of_ne fun heq => hslot (hkey hs he heq), record_of_ne hslot, h s hs]

/-- **A store whose keys do not collide returns what was written last.** -/
theorem get_foldl_apply (hkey : Set.InjOn key S) {es : List (Effect V)}
    (hes : ∀ e ∈ es, e.slot ∈ S) (h : ∀ s ∈ S, get key codec store s = m s) :
    ∀ s ∈ S, get key codec (es.foldl (apply key codec) store) s = es.foldl record m s := by
  induction es generalizing store m with
  | nil => exact h
  | cons e es ih =>
    rw [List.forall_mem_cons] at hes
    exact ih hes.2 (get_apply hkey h hes.1)

end KeyedStore
