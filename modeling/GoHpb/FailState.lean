/-
**Programs with state that may fail.**

A Go method works on an object and may return an error; what it has written before the error
stays written.  In Lean this is a computation in `EStateM ε σ`, which keeps the state on failure.
This module has the inversion lemmas for such computations and the rules of pre- and
postconditions that the proofs about the engine use: a specification `Spec P x Q E` says that from
a state with `P` the program `x` either returns a value and a state with `Q`, or fails with an
error and a state with `E`.

Main definitions:

* `FailState.checks` — a list of checks, each with the error it raises;
* `FailState.fromExcept`, `FailState.onPart` — a pure computation that may fail, and a computation
  on a part of the state;
* `FailState.operate`, `FailState.attempt`, `FailState.zoom`, `FailState.mapError` — an operation
  that always succeeds, one that may be undefined, a program on a part of the state, and one that
  passes on its errors in another form;
* `FailState.Spec`, `FailState.Yields`, `FailState.Raises`, `FailState.Maintains` — specifications,
  what a program returns, how it fails, and what it keeps.

Main results:

* `FailState.except_bind_eq_ok`, `FailState.bind_eq_ok`, `FailState.bind_ok`,
  `FailState.bind_error` — running one program after another;
* `FailState.Spec.pure`, `FailState.Spec.throw`, `FailState.Spec.bind`, `FailState.Spec.mono` — the
  rules for specifications.
-/

import Mathlib

namespace FailState

open FailState

variable {ε σ τ α β : Type}

/-- Going through a list of checks: the first condition that holds raises its error. -/
def checks : List (Bool × ε) → Except ε Unit
  | [] => .ok ()
  | c :: cs => if c.1 then .error c.2 else checks cs

theorem checks_eq_ok {cs : List (Bool × ε)} : checks cs = .ok () ↔ ∀ c ∈ cs, c.1 = false := by
  induction cs with
  | nil => simp [checks]
  | cons c cs ih =>
    by_cases hc : c.1 = true
    · simp [checks, hc]
    · simp only [checks, hc, List.forall_mem_cons]
      simpa using ih

theorem except_bind_eq_ok {r : Except ε α} {f : α → Except ε β} {b : β} :
    (r >>= f) = .ok b ↔ ∃ a, r = .ok a ∧ f a = .ok b := by
  cases r with
  | error e =>
    change Except.error e = _ ↔ _
    simp
  | ok a =>
    change f a = _ ↔ _
    simp

/-! ### Programs -/

/-- A pure computation that may fail. -/
def fromExcept : Except ε α → EStateM ε σ α
  | .ok a => pure a
  | .error e => throw e

/-- A computation on a part of the state, which is written back also on failure. -/
def onPart (part : σ → τ) (write : τ → σ → σ) (f : τ → Except ε α × τ) : EStateM ε σ α :=
  fun s =>
    match f (part s) with
    | (.ok a, t) => .ok a (write t s)
    | (.error e, t) => .error e (write t s)

/-- An operation that always succeeds. -/
def operate (f : σ → α × σ) : EStateM ε σ α := fun s => .ok (f s).1 (f s).2

/-- An operation that fails with the error `e` where it is undefined. -/
def attempt (e : ε) (f : σ → Option σ) : EStateM ε σ Unit :=
  fun s =>
    match f s with
    | some s' => .ok () s'
    | none => .error e s

/-- A program on a part of the state. -/
def zoom (part : σ → τ) (write : τ → σ → σ) (x : EStateM ε τ α) : EStateM ε σ α :=
  fun s =>
    match x (part s) with
    | .ok a t => .ok a (write t s)
    | .error e t => .error e (write t s)

/-- A program that passes on its errors in another form. -/
def mapError (f : ε → ε) (x : EStateM ε σ α) : EStateM ε σ α :=
  fun s =>
    match x s with
    | .ok a s' => .ok a s'
    | .error e s' => .error (f e) s'

/-! ### One program after another -/

variable {x : EStateM ε σ α} {f : α → EStateM ε σ β} {s s' s'' : σ} {a : α} {e : ε}

theorem bind_ok (h : x s = .ok a s') : (x >>= f) s = f a s' := by
  change EStateM.bind x f s = _
  rw [EStateM.bind, h]

theorem get_bind (g : σ → EStateM ε σ β) : (MonadState.get >>= g) s = g s s := rfl

theorem bind_error (h : x s = .error e s') : (x >>= f) s = .error e s' := by
  change EStateM.bind x f s = _
  rw [EStateM.bind, h]

theorem bind_eq_ok {b : β} : (x >>= f) s = .ok b s'' ↔
      ∃ a s', x s = .ok a s' ∧ f a s' = .ok b s'' := by
  constructor
  · intro h
    cases hx : x s with
    | ok a s' =>
      rw [bind_ok hx] at h
      exact ⟨a, s', rfl, h⟩
    | error e s' =>
      rw [bind_error hx] at h
      cases h
  · rintro ⟨a, s', hx, hf⟩
    rw [bind_ok hx, hf]

theorem fromExcept_eq_ok {r : Except ε α} :
    (fromExcept r : EStateM ε σ α) s = .ok a s' ↔ r = .ok a ∧ s' = s := by
  cases r with
  | ok b =>
    change EStateM.Result.ok b s = _ ↔ _
    simp [eq_comm]
  | error e =>
    change EStateM.Result.error e s = _ ↔ _
    simp

theorem onPart_eq_ok {part : σ → τ} {write : τ → σ → σ} {g : τ → Except ε α × τ} :
    onPart part write g s = .ok a s' ↔ (g (part s)).1 = .ok a ∧ s' = write (g (part s)).2 s := by
  rw [onPart]
  rcases g (part s) with ⟨e | b, t⟩
  · simp
  · simp [eq_comm]

theorem attempt_eq_ok {g : σ → Option σ} {u : Unit} : attempt e g s = .ok u s' ↔ g s = some s' := by
  rw [attempt]
  cases g s <;> simp

theorem zoom_eq_ok {part : σ → τ} {write : τ → σ → σ} {y : EStateM ε τ α} :
    zoom part write y s = .ok a s' ↔ ∃ t, y (part s) = .ok a t ∧ s' = write t s := by
  rw [zoom]
  cases y (part s) with
  | ok b t => simp [eq_comm]
  | error e t => simp

theorem mapError_eq_ok {g : ε → ε} : mapError g x s = .ok a s' ↔ x s = .ok a s' := by
  rw [mapError]
  cases x s <;> simp

theorem mapError_eq_error {g : ε → ε} : mapError g x s = .error e s' ↔
      ∃ e', x s = .error e' s' ∧ g e' = e := by
  rw [mapError]
  cases x s with
  | ok a t => simp
  | error e' t =>
    simp only [EStateM.Result.error.injEq]
    constructor
    · rintro ⟨rfl, rfl⟩
      exact ⟨e', ⟨rfl, rfl⟩, rfl⟩
    · rintro ⟨_, ⟨rfl, rfl⟩, rfl⟩
      exact ⟨rfl, rfl⟩

theorem bind_eq_error : (x >>= f) s = .error e s'' ↔ x s = .error e s'' ∨
        ∃ a s', x s = .ok a s' ∧ f a s' = .error e s'' := by
  cases hx : x s with
  | ok a s' =>
    rw [bind_ok hx]
    simp
  | error e' s' =>
    rw [bind_error hx]
    simp

/-! ### Specifications -/

/-- From a state with `P` the program returns with `Q` or fails with `E`. -/
def Spec (P : σ → Prop) (x : EStateM ε σ α) (Q : α → σ → Prop) (E : ε → σ → Prop) : Prop :=
  ∀ s, P s →
    match x s with
    | .ok a s' => Q a s'
    | .error e s' => E e s'

namespace Spec

variable {P : σ → Prop} {Q : α → σ → Prop} {R : β → σ → Prop} {E : ε → σ → Prop}

theorem of_ok (h : Spec P x Q E) (hs : P s) {a : α} (hx : x s = .ok a s') : Q a s' := by
  have hspec := h s hs
  rw [hx] at hspec
  exact hspec

theorem of_error (h : Spec P x Q E) (hs : P s) {e : ε} (hx : x s = .error e s') : E e s' := by
  have hspec := h s hs
  rw [hx] at hspec
  exact hspec

theorem pure {a : α} (h : ∀ s, P s → Q a s) : Spec P (Pure.pure a : EStateM ε σ α) Q E := h

theorem throw {e : ε} (h : ∀ s, P s → E e s) : Spec P (MonadExcept.throw e : EStateM ε σ α) Q E :=
  h

/-- **Sequencing**: what holds after the first program is what the second may assume. -/
theorem bind (hx : Spec P x Q E) (hf : ∀ a, Spec (Q a) (f a) R E) : Spec P (x >>= f) R E := by
  intro s hs
  cases h : x s with
  | ok a s' =>
    rw [bind_ok h]
    exact hf a s' (hx.of_ok hs h)
  | error e s' =>
    rw [bind_error h]
    exact hx.of_error hs h

theorem after {a : α} {Q : σ → Prop} (hx : ∀ s, P s → ∃ s', x s = .ok a s' ∧ Q s')
    (hf : Spec Q (f a) R E) : Spec P (x >>= f) R E := by
  intro s hs
  obtain ⟨s', hs', hQ⟩ := hx s hs
  rw [bind_ok hs']
  exact hf s' hQ

theorem mono {P' : σ → Prop} {Q' : α → σ → Prop} {E' : ε → σ → Prop} (h : Spec P x Q E)
    (hP : ∀ s, P' s → P s) (hQ : ∀ a s, Q a s → Q' a s) (hE : ∀ e s, E e s → E' e s) :
    Spec P' x Q' E' := by
  intro s hs
  have hspec := h s (hP s hs)
  cases hx : x s with
  | ok a s' =>
    rw [hx] at hspec
    exact hQ a s' hspec
  | error e s' =>
    rw [hx] at hspec
    exact hE e s' hspec

theorem and {P' : σ → Prop} {Q' : α → σ → Prop} {E' : ε → σ → Prop} (h : Spec P x Q E)
    (h' : Spec P' x Q' E') :
    Spec (fun s => P s ∧ P' s) x (fun a s => Q a s ∧ Q' a s) fun e s => E e s ∧ E' e s := by
  rintro s ⟨hs, hs'⟩
  cases hx : x s with
  | ok a t => exact ⟨h.of_ok hs hx, h'.of_ok hs' hx⟩
  | error e t => exact ⟨h.of_error hs hx, h'.of_error hs' hx⟩

theorem assume {p : Prop} (h : p → Spec P x Q E) : Spec (fun s => P s ∧ p) x Q E :=
  fun s hs => h hs.2 s hs.1

theorem get_bind {g : σ → EStateM ε σ β} (h : ∀ s, P s → Spec (fun t => t = s) (g s) R E) :
    Spec P (MonadState.get >>= g) R E := fun s hs => h s hs s rfl

theorem modify {g : σ → σ} {Q : Unit → σ → Prop} (h : ∀ s, P s → Q () (g s)) :
    Spec P (modifyThe σ g : EStateM ε σ Unit) Q E := fun s hs => h s hs

theorem operate {g : σ → α × σ} (h : ∀ s, P s → Q (g s).1 (g s).2) :
    Spec P (operate g) Q E := fun s hs => h s hs

theorem attempt {e : ε} {g : σ → Option σ} {Q : Unit → σ → Prop}
    (hok : ∀ s s', P s → g s = some s' → Q () s') (herror : ∀ s, P s → g s = none → E e s) :
    Spec P (attempt e g) Q E := by
  intro s hs
  simp only [FailState.attempt]
  cases hg : g s with
  | some s' => exact hok s s' hs hg
  | none => exact herror s hs hg

theorem onPart {part : σ → τ} {write : τ → σ → σ} {g : τ → Except ε α × τ}
    (hok : ∀ a s, P s → (g (part s)).1 = .ok a → Q a (write (g (part s)).2 s))
    (herror : ∀ e s, P s → (g (part s)).1 = .error e → E e (write (g (part s)).2 s)) :
    Spec P (onPart part write g) Q E := by
  intro s hs
  simp only [FailState.onPart]
  rcases hg : g (part s) with ⟨e | a, t⟩
  · have hspec := herror e s hs (by rw [hg])
    rw [hg] at hspec
    exact hspec
  · have hspec := hok a s hs (by rw [hg])
    rw [hg] at hspec
    exact hspec

theorem fromExcept {r : Except ε α} (hok : ∀ a s, r = .ok a → P s → Q a s)
    (herror : ∀ e s, r = .error e → P s → E e s) : Spec P (fromExcept r) Q E := by
  cases r with
  | ok a => exact Spec.pure fun s hs => hok a s rfl hs
  | error e => exact Spec.throw fun s hs => herror e s rfl hs

end Spec

/-! ### What a program returns -/

/-- From the state `s` the program returns `a`, in a state with `Q`. -/
def Yields (x : EStateM ε σ α) (s : σ) (a : α) (Q : σ → Prop) : Prop :=
  ∃ s', x s = .ok a s' ∧ Q s'

namespace Yields

variable {a : α} {b : β} {Q R : σ → Prop}

theorem pure (h : Q s) : Yields (Pure.pure a : EStateM ε σ α) s a Q := ⟨s, rfl, h⟩

/-- **Sequencing.** -/
theorem bind (hx : Yields x s a Q) (hf : ∀ s', Q s' → Yields (f a) s' b R) :
    Yields (x >>= f) s b R := by
  obtain ⟨s', hs', hQ⟩ := hx
  obtain ⟨s'', hs'', hR⟩ := hf s' hQ
  exact ⟨s'', (bind_ok hs').trans hs'', hR⟩

theorem operate {g : σ → α × σ} (ha : (g s).1 = a) (h : Q (g s).2) :
    Yields (operate g : EStateM ε σ α) s a Q := ⟨(g s).2, by rw [← ha]; rfl, h⟩

theorem modify {g : σ → σ} (h : Q (g s)) :
    Yields (modifyThe σ g : EStateM ε σ Unit) s () Q := ⟨g s, rfl, h⟩

theorem zoom {part : τ → σ} {write : σ → τ → τ} {t : τ} {R : τ → Prop} (h : Yields x (part t) a Q)
    (hwrite : ∀ s, Q s → R (write s t)) : Yields (zoom part write x) t a R := by
  obtain ⟨s', hs', hQ⟩ := h
  exact ⟨write s' t, by rw [FailState.zoom, hs'], hwrite s' hQ⟩

end Yields

/-! ### How a program fails -/

/-- Every error of the program satisfies `P`. -/
def Raises (x : EStateM ε σ α) (P : ε → Prop) : Prop :=
  ∀ ⦃s e s'⦄, x s = .error e s' → P e

namespace Raises

variable {P Q : ε → Prop}

theorem mono (h : Raises x P) (hPQ : ∀ {e}, P e → Q e) : Raises x Q := fun _ _ _ hx => hPQ (h hx)

theorem pure (a : α) : Raises (Pure.pure a : EStateM ε σ α) P :=
  fun _ _ _ h => by cases h

theorem modify (g : σ → σ) : Raises (modifyThe σ g : EStateM ε σ Unit) P :=
  fun _ _ _ h => by cases h

theorem throw {e : ε} (h : P e) : Raises (MonadExcept.throw e : EStateM ε σ α) P := by
  intro s e' s' hx
  cases hx
  exact h

/-- **Sequencing.** -/
theorem bind (hx : Raises x P) (hf : ∀ a, Raises (f a) P) : Raises (x >>= f) P := by
  intro s e s' h
  rcases bind_eq_error.1 h with h | ⟨a, t, -, h⟩
  · exact hx h
  · exact hf a h

theorem ite {c : Prop} [Decidable c] {y : EStateM ε σ α} (hx : Raises x P) (hy : Raises y P) :
    Raises (if c then x else y) P := by
  split_ifs
  · exact hx
  · exact hy

theorem mapError {g : ε → ε} (hx : Raises x P) (hg : ∀ {e}, P e → Q (g e)) :
    Raises (mapError g x) Q := by
  intro s e s' h
  obtain ⟨e', he, rfl⟩ := mapError_eq_error.1 h
  exact hg (hx he)

end Raises

/-! ### What a program keeps -/

/-- The program keeps every member of a family of assertions, and what it returns satisfies `I`; if
it fails, `E` holds. -/
def Maintains {ι : Type} (K E : ι → σ → Prop) (x : EStateM ε σ α) (I : α → Prop) : Prop :=
  ∀ i, Spec (K i) x (fun a s => K i s ∧ I a) fun _ s => E i s

namespace Maintains

variable {ι : Type} {K E : ι → σ → Prop} {I : α → Prop} {J : β → Prop}

theorem pure {a : α} (h : I a) : Maintains K E (Pure.pure a : EStateM ε σ α) I :=
  fun _ => Spec.pure fun _ hs => ⟨hs, h⟩

theorem throw (hE : ∀ {i s}, K i s → E i s) (e : ε) :
    Maintains K E (MonadExcept.throw e : EStateM ε σ α) I :=
  fun _ => Spec.throw fun _ hs => hE hs

theorem bind (hx : Maintains K E x I) (hf : ∀ a, I a → Maintains K E (f a) J) :
    Maintains K E (x >>= f) J := by
  intro i
  refine Spec.bind (hx i) fun a => ?_
  intro s hs
  exact hf a hs.2 i s hs.1

theorem operate {g : σ → α × σ} (h : ∀ {i s}, K i s → K i (g s).2 ∧ I (g s).1) :
    Maintains K E (operate g : EStateM ε σ α) I :=
  fun _ => Spec.operate fun _ hs => h hs

theorem modify {g : σ → σ} (h : ∀ {i s}, K i s → K i (g s)) :
    Maintains K E (modifyThe σ g : EStateM ε σ Unit) fun _ => True :=
  fun _ => Spec.modify fun _ hs => ⟨h hs, trivial⟩

theorem zoom {part : τ → σ} {write : σ → τ → τ} (hwrite : ∀ s t, part (write s t) = s)
    (h : Maintains K E x I) :
    Maintains (fun i t => K i (part t)) (fun i t => E i (part t)) (FailState.zoom part write x)
      I := by
  intro i t ht
  have hspec := h i (part t) ht
  simp only [FailState.zoom]
  cases hx : x (part t) with
  | ok a s | error e s =>
    rw [hx] at hspec
    simpa only [hwrite] using hspec

end Maintains

end FailState
