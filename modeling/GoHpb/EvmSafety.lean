/-
**What contracts cannot do.**

A frame may enter other contracts, which enter further ones, and any of them may fail.  This module
follows whole executions, for every instruction set.  A frame that fails takes back what its
contracts did, because a state can go back from whatever was done above a snapshot.  A frame that
succeeds is followed instruction by instruction: a `Law` is a property of what is seen of the state
that every allowed instruction keeps, and in read-only mode fewer instructions are allowed.

Main results:

* `Evm.value_not_minted` — **contracts do not make money**;
* `Evm.static_call_writes_nothing` — **a static call leaves all accounts and logs as they were**;
* `Evm.failed_call_undone` — **a failed call or creation leaves nothing but a nonce**;
* `Evm.gas_not_created` — **no frame returns more gas than it was given**;
* `Evm.account_not_replaced` — **no contract takes the place of a used account**.
-/

import GoHpb.NativePath
import GoHpb.SenderNonce
import GoHpb.ValueConservation
import GoHpb.WorkEnvironment

open FailState StateDB Finset

/-! ### Balances -/

/-- No balance is negative, and no accounts have more than `T` together. -/
def Bounded {α : Type} (T : ℤ) (f : α → ℤ) : Prop := (∀ a, 0 ≤ f a) ∧ ∀ s, ∑ a ∈ s, f a ≤ T

namespace Bounded

variable {α : Type} {T : ℤ} {f g : α → ℤ} {s r : α} {x : ℤ}

theorem mono (h : Bounded T f) (hg : ∀ a, 0 ≤ g a ∧ g a ≤ f a) : Bounded T g :=
  ⟨fun a => (hg a).1, fun s => (sum_le_sum fun a _ => (hg a).2).trans (h.2 s)⟩

theorem move [DecidableEq α] (h : Bounded T f) (hx : 0 ≤ x) (hs : x ≤ f s) :
    Bounded T fun a => f a - (if a = s then x else 0) + if a = r then x else 0 := by
  refine ⟨fun a => ?_, fun t => ?_⟩
  · have hnonneg := h.1 a
    dsimp only
    split_ifs with hsender
    · rw [hsender] at hnonneg ⊢
      omega
    all_goals grind
  have hsum := h.2 t
  have hinsert := h.2 (insert s t)
  rw [sum_add_distrib, sum_sub_distrib, sum_ite_eq', sum_ite_eq']
  by_cases hmem : s ∈ t
  · split_ifs <;> omega
  · rw [sum_insert hmem] at hinsert
    split_ifs <;> omega

end Bounded

namespace Evm

section Frames

variable {α : Type} {st st' : StateDB} {vm : Machine} {out : Outcome}

/-! ### Failed frames -/

/-- The states in which going back to a snapshot restores what was seen. -/
structure Sane (st : StateDB) : Prop where
  noGhost : st.NoGhost
  revisions : RevisionsOk st

theorem sane_new (trie : Finmap fun _ : Address => Account)
    (codes : Finmap fun _ : Hash => Bytes) : Sane (StateDB.new trie codes) where
  noGhost _ _ h := by cases h
  revisions _ h := by cases h

variable [Crypto]

theorem Sane.run (h : Sane st) (op : StateOp) (hop : op.Direct) (hrun : op.run st = some st') :
    Sane st' := ⟨(Tracks.run h.noGhost hop hrun).noGhost, h.revisions.run hrun⟩

theorem Sane.snapshot (h : Sane st) : Sane st.snapshot.2 :=
  ⟨h.noGhost.congr rfl rfl, @RevisionsOk.run _ _ _ h.revisions .snapshot rfl⟩

/-- The state can go back to a snapshot of `st₀`. -/
def Over (st₀ st : StateDB) : Prop := Above st₀ st ∧ RevisionsOk st

theorem guard_over : Guard Over (fun _ _ => True) (fun _ => True) fun _ => True where
  fails _ := trivial
  free _ _ := trivial
  run op hop hrun h := ⟨guard_since.run op hop hrun h.1, h.2.run hrun⟩
  may_free := id
  may_code _ _ := trivial
  vacant _ _ := trivial
  nextNonce {_ _ a} hmay h :=
    ⟨guard_since.nextNonce hmay h.1, @RevisionsOk.run _ _ _ h.2 (.setNonce a _) rfl⟩
  enter h := ⟨guard_since.enter h.1, @RevisionsOk.run _ _ _ h.2 .snapshot rfl⟩
  back h := by
    obtain ⟨j, hj, hback⟩ := guard_since.back h.1
    exact ⟨j, ⟨hj, @RevisionsOk.run _ _ _ h.2 .snapshot rfl⟩, fun h' hrun =>
      ⟨hback h'.1 hrun, @RevisionsOk.run _ _ _ h'.2 (.revertToSnapshot _) hrun⟩⟩

/-- A program above a snapshot. -/
abbrev Guarded (x : Exec α) (I : α → Prop) : Prop := Maintains Over (fun _ _ => True) x I

/-- **What a frame does**: its body succeeds, or what is seen is as it was before. -/
theorem frame_eq_ok {body : Exec Outcome} {I : Outcome → Prop} (hst : Sane st)
    (hbody : Guarded body I) (hrun : frame body st = .ok out st') :
    (out.err = none ∧ body st.snapshot.2 = .ok out st') ∨ (st'.view = st.view ∧ Sane st') := by
  have hframe : (body >>= settle st.snapshot.1) st.snapshot.2 = .ok out st' := hrun
  obtain ⟨out₁, st₁, hbody₁, hsettle⟩ := bind_eq_ok.1 hframe
  have hover : Over st st.snapshot.2 :=
    ⟨⟨hst.revisions, Since.snapshot hst.noGhost⟩, hst.snapshot.revisions⟩
  obtain ⟨⟨⟨hrev, hsince⟩, hrev₁⟩, -⟩ := (hbody st).of_ok hover hbody₁
  unfold settle at hsettle
  cases herr : out₁.err with
  | none =>
    rw [herr] at hsettle
    cases hsettle
    exact .inl ⟨herr, hbody₁⟩
  | some err =>
    rw [herr] at hsettle
    obtain ⟨u, st₂, hback, hpure⟩ := bind_eq_ok.1 hsettle
    obtain ⟨st₃, hback', hview, hghost⟩ := hsince.revert hrev
    rw [attempt_eq_ok.1 hback] at hback'
    cases hback'
    cases hpure
    exact .inr ⟨hview, hghost, @RevisionsOk.run _ _ _ hrev₁ (.revertToSnapshot _)
      (attempt_eq_ok.1 hback)⟩

/-! ### What instructions do to a view -/

/-- Nothing that a contract can look at differs. -/
structure Same (v w : View) : Prop where
  get : ∀ a, w.get a = v.get a
  refund : w.refund = v.refund
  logs : w.logs = v.logs

/-- What holds of a view, and is kept by the instructions that are allowed. -/
structure Law (P : View → Prop) (readOnly : Bool) : Prop where
  same : ∀ {v w}, P v → Same v w → P w
  edit : readOnly = false → ∀ {v w : View}, P v →
    (∀ a, (w.get a).balance = (v.get a).balance) → P w
  move : ∀ {v s r amount}, P v → 0 ≤ amount → amount ≤ (v.get s).balance →
    (readOnly = true → amount = 0) → P (v.move s r amount)
  suicide : readOnly = false → ∀ {v} a b, P v → P ((v.addBalance b (v.get a).balance).suicide a)

variable {P Q : View → Prop} {readOnly : Bool}

theorem Law.static (h : Law P readOnly) : Law P true where
  same := h.same
  edit := nofun
  move hv hx hs hzero := h.move hv hx hs fun _ => hzero rfl
  suicide := nofun

/-- The state can go back, and has the property. -/
def Held (P : View → Prop) (st : StateDB) : Prop := Sane st ∧ P st.view

theorem stable_sane : Stable (fun _ : Unit => Sane) (fun _ _ => True) fun _ => True where
  fails _ := trivial
  free _ _ := trivial
  pay op hop hrun h := by
    have hpermitted : op.Permitted (fun _ => True) fun _ => True := hop.permitted
    exact h.run op hpermitted.direct hrun

/-- A program with the property afterwards, unless it fails. -/
abbrev Keeps (P : View → Prop) (x : Exec α) (Q : α → View → Prop) : Prop :=
  Spec (Held P) x (fun a => Held (Q a)) fun _ _ => True

theorem keeps_of_yields {x : Exec α} {I : α → Prop} {b : View → α} {f : View → View}
    {Q : α → View → Prop} (hsane : Maintains (fun _ : Unit => Sane) (fun _ _ => True) x I)
    (hview : ∀ st : StateDB, P st.view → Yields x st (b st.view) fun st' => st'.view = f st.view)
    (hQ : ∀ v, P v → Q (b v) (f v)) : Keeps P x Q := by
  rintro st ⟨hst, hP⟩
  obtain ⟨st', hrun, hst'⟩ := hview st hP
  rw [hrun]
  refine ⟨((hsane ()).of_ok hst hrun).1, ?_⟩
  rw [hst']
  exact hQ _ hP

theorem keeps_op {g : StateDB → StateDB} (op : StateOp) (hop : op.Direct)
    (hrun : ∀ st, op.run st = some (g st)) (hQ : ∀ st : StateDB, P st.view → Q (g st).view) :
    Keeps P (modifyThe StateDB g : Exec Unit) fun _ => Q :=
  Spec.modify fun st h => ⟨h.1.run op hop (hrun st), hQ st h.2⟩

theorem keeps_look {g : StateDB → α × StateDB} (op : StateOp) (hop : op.Direct)
    (hrun : ∀ st, op.run st = some (g st).2) (hview : ∀ st : StateDB, (g st).2.view = st.view) :
    Keeps P (operate g : Exec α) fun _ => P :=
  Spec.operate fun st h => ⟨h.1.run op hop (hrun st), (hview st).symm ▸ h.2⟩

theorem keeps_frame {body : Exec Outcome} {I : Outcome → Prop} (hbody : Keeps Q body fun _ => P)
    (hguarded : Guarded body I) (hQ : ∀ v, Q v → P v) : Keeps Q (frame body) fun _ => P := by
  rintro st ⟨hst, hv⟩
  cases hrun : frame body st with
  | error e st' => trivial
  | ok out st' =>
    rcases frame_eq_ok hst hguarded hrun with ⟨-, hok⟩ | ⟨hview, hsane⟩
    · exact hbody.of_ok ⟨hst.snapshot, (view_snapshot st).symm ▸ hv⟩ hok
    · exact ⟨hsane, hview.symm ▸ hQ _ hv⟩

/-! ### Entering a contract -/

/-- The property holds, and the account can pay the value. -/
def Pays (P : View → Prop) (caller : Address) (value : ℤ) (v : View) : Prop :=
  P v ∧ value ≤ (v.get caller).balance

theorem keeps_canTransfer (caller : Address) (value : ℤ) :
    Keeps P (canTransfer caller value) fun solvent v =>
      P v ∧ (solvent = true → value ≤ (v.get caller).balance) :=
  keeps_of_yields (stable_sane.keeps_canTransfer caller value)
    (fun _ _ => yields_canTransfer caller value rfl) fun _ h => ⟨h, of_decide_eq_true⟩

/-- The checks before a frame: the depth, and that the caller can pay. -/
theorem spec_entry {R : α → StateDB → Prop} {x : Exec α} {a b : α} {caller : Address} {value : ℤ}
    {depth : ℕ} (ha : ∀ st, Held P st → R a st) (hb : ∀ st, Held P st → R b st)
    (hx : Spec (Held (Pays P caller value)) x R fun _ _ => True) :
    Spec (Held P) (if callCreateDepth < depth then pure a else
      canTransfer caller value >>= fun solvent => if !solvent then pure b else x) R
      fun _ _ => True := by
  split_ifs
  · exact ha
  refine Spec.bind (keeps_canTransfer caller value) fun solvent => ?_
  cases solvent with
  | false => exact fun st h => hb st ⟨h.1, h.2.1⟩
  | true => exact fun st h => hx st ⟨h.1, h.2.1, h.2.2 rfl⟩

theorem keeps_lookUp {g : StateDB → α} (a : Address) :
    Keeps P (operate fun st => (g st, st.load a) : Exec α) fun _ => P :=
  keeps_look (.lookUp a) trivial (fun _ => rfl) fun _ => view_load

theorem keeps_getCode (a : Address) :
    Keeps P (operate fun st => st.getCode a : Exec Bytes) fun _ => P :=
  keeps_look (.getCode a) trivial (fun _ => rfl) fun st => view_getCode st a

theorem keeps_increaseNonce {a : Address} (h : ∀ v, P v → Q (v.bump a)) :
    Keeps P (increaseNonce a) fun _ => Q := by
  have hsane : Maintains (fun _ : Unit => Sane) (fun _ _ => True) (increaseNonce a) fun _ => True :=
    (stable_sane.observe a).bind fun n _ => Maintains.bind (I := fun _ => True)
      (Maintains.modify fun h => h.run (.setNonce a (n + 1)) trivial rfl)
      fun _ _ => Maintains.pure trivial
  exact keeps_of_yields (b := fun v => (v.get a).nonce) (f := fun v => v.bump a) hsane
    (fun _ _ => yields_increaseNonce a rfl) h

/-- An account is changed, but not its balance. -/
theorem keeps_edit (hP : ∀ {v w : View}, P v →
      (∀ a, (w.get a).balance = (v.get a).balance) → P w) {g : StateDB → StateDB} (op : StateOp)
    (hop : op.Direct) (hrun : ∀ st, op.run st = some (g st)) (hg : ∀ st : StateDB, ∃ a x,
      (g st).view = st.view.set a (some x) ∧ x.balance = (st.view.get a).balance) :
    Keeps P (modifyThe StateDB g : Exec Unit) fun _ => P := by
  refine keeps_op op hop hrun fun st h => hP h fun b => ?_
  obtain ⟨a, x, hview, hbalance⟩ := hg st
  rw [hview, View.get_set]
  split_ifs with hb
  · rw [hbalance, hb]
  · rfl

theorem Law.pays (hlaw : Law P false) {caller : Address} {value : ℤ} {v w : View}
    (h : Pays P caller value v) (hsame : ∀ a, (w.get a).balance = (v.get a).balance) :
    Pays P caller value w := ⟨hlaw.edit rfl h.1 hsame, (hsame caller).symm ▸ h.2⟩

theorem keeps_transfer (hlaw : Law P readOnly) {caller addr : Address} {value : ℤ}
    (hvalue : 0 ≤ value) (hstatic : readOnly = true → value = 0) :
    Keeps (Pays P caller value) (transfer caller addr value) fun _ => P :=
  keeps_of_yields (b := fun _ => ()) (f := fun v => v.move caller addr value)
    (stable_sane.keeps_transfer caller addr value)
    (fun _ _ => yields_transfer caller addr value rfl) fun _ h => hlaw.move h.1 hvalue h.2 hstatic

/-- A creation, from what its frame does. -/
theorem spec_create {interpret : ℕ → Bool → Contract → Exec Outcome} {depth : ℕ} {caller : Address}
    {code : Bytes} {gas : UInt64} {value : ℤ} {R : Address × Outcome → StateDB → Prop}
    (hrefuse : ∀ out st, Held P st → R (FixedBytes.zero 20, out) st)
    (hbump : ∀ v, Pays P caller value v → Q (v.bump caller))
    (hcollide : ∀ out st, Held Q st → R (FixedBytes.zero 20, out) st)
    (hframe : ∀ a, Spec (Held Q)
      (frame (enterCreate vm interpret depth readOnly caller a code gas value))
      (fun out => R (a, out)) fun _ _ => True) :
    Spec (Held P) (create vm interpret depth readOnly caller code gas value) R
      fun _ _ => True := by
  refine spec_entry (hrefuse _) (hrefuse _) (Spec.bind (keeps_increaseNonce hbump) fun nonce => ?_)
  refine Spec.bind (keeps_lookUp _) fun contractHash => Spec.bind (keeps_lookUp _) fun _ => ?_
  split_ifs
  · exact hcollide _
  · exact Spec.bind (hframe _) fun _ => Spec.pure fun _ => id

section Calls

variable {interpret : ℕ → Bool → Contract → Exec Outcome} {depth : ℕ}
  (hguard : ∀ depth readOnly contract, True →
    Guarded (interpret depth readOnly contract) (Outcome.Within vm contract.gas))
  (hinterpret : ∀ depth readOnly contract, Law P readOnly →
    Keeps P (interpret depth readOnly contract) fun _ => P)
  (hlaw : Law P readOnly) {caller self addr : Address} {value : ℤ}

include hinterpret hlaw

theorem keeps_run (contract : Contract) :
    Keeps P (run vm interpret depth readOnly contract) fun _ => P := by
  unfold run
  cases vm.precompiled contract.codeAddr with
  | some p => exact Spec.pure fun _ => id
  | none =>
    dsimp only
    split_ifs
    · exact Spec.pure fun _ => id
    · exact hinterpret _ _ _ hlaw

theorem keeps_enterCode (callerAddress : Address) (input : Bytes) (gas : UInt64) :
    Keeps P (enterCode vm interpret depth readOnly callerAddress self addr input gas value)
      fun _ => P :=
  Spec.bind (keeps_getCode addr) fun _ => keeps_run hinterpret hlaw _

theorem keeps_enterCall (hvalue : 0 ≤ value) (hstatic : readOnly = true → value = 0)
    (input : Bytes) (gas : UInt64) : Keeps (Pays P caller value)
      (enterCall vm interpret depth readOnly caller addr input gas value) fun _ => P := by
  refine Spec.bind (keeps_of_yields (Q := fun known v => Pays P caller value v ∧
      known = (v.account addr).isSome) (stable_sane.keeps_exist addr)
    (fun _ _ => yields_exist addr rfl) fun _ h => ⟨h, rfl⟩) fun known => ?_
  split_ifs
  · exact Spec.pure fun _ h => ⟨h.1, h.2.1.1⟩
  refine Spec.bind (keeps_of_yields (b := fun _ => ()) (f := fun v => v.ensure addr)
    (Q := fun _ => Pays P caller value) (stable_sane.keeps_createMissing fun _ => trivial)
    (fun _ h => yields_createMissing h.2 rfl) fun v h => ⟨hlaw.same h.1.1 ?_, ?_⟩) fun _ => ?_
  · exact ⟨v.get_ensure addr, rfl, rfl⟩
  · rw [View.get_ensure]
    exact h.1.2
  exact Spec.bind (keeps_transfer hlaw hvalue hstatic) fun _ =>
    Spec.bind (keeps_getCode addr) fun _ => keeps_run hinterpret hlaw _

theorem keeps_enterCreate (hwrite : Law P false) (hvalue : 0 ≤ value) (code : Bytes)
    (gas : UInt64) : Keeps (Pays P caller value)
      (enterCreate vm interpret depth readOnly caller addr code gas value) fun _ => P := by
  refine Spec.bind (keeps_edit hwrite.pays (.createAccount addr) trivial (fun _ => rfl) fun st =>
    ⟨_, _, view_createAccount st _, rfl⟩) fun _ => ?_
  refine Spec.bind (keeps_edit hwrite.pays (.setNonce addr 1) trivial (fun _ => rfl) fun st =>
    ⟨_, _, view_setNonce st _ _, rfl⟩) fun _ => ?_
  refine Spec.bind (keeps_transfer hwrite hvalue nofun) fun _ =>
    Spec.bind (keeps_run hinterpret hlaw _) fun out => ?_
  unfold storeCode
  split
  · exact Spec.pure fun _ => id
  split_ifs
  · exact Spec.pure fun _ => id
  · exact Spec.pure fun _ => id
  exact Spec.bind (keeps_edit (hwrite.edit rfl) (.setCode _ _) trivial (fun _ => rfl) fun st =>
    ⟨_, _, view_setCode st _ _, rfl⟩) fun _ => Spec.pure fun _ => id

include hguard

theorem keeps_call (hvalue : 0 ≤ value) (hstatic : readOnly = true → value = 0)
    (input : Bytes) (gas : UInt64) :
    Keeps P (call vm interpret depth readOnly caller addr input gas value) fun _ => P :=
  spec_entry (fun _ => id) (fun _ => id) (keeps_frame
    (keeps_enterCall hinterpret hlaw hvalue hstatic input gas)
    (guard_over.keeps_enterCall hguard caller addr input gas value) fun _ => And.left)

theorem keeps_enterFrame (callerAddress : Address) (input : Bytes) (gas : UInt64) :
    Keeps P (frame (enterCode vm interpret depth readOnly callerAddress self addr input gas value))
      fun _ => P :=
  keeps_frame (keeps_enterCode hinterpret hlaw callerAddress input gas)
    (guard_over.keeps_enterCode hguard callerAddress input gas value (.inr trivial)) fun _ => id

theorem keeps_create (hwrite : Law P false) (hvalue : 0 ≤ value) (code : Bytes) (gas : UInt64) :
    Keeps P (create vm interpret depth readOnly caller code gas value) fun _ => P := by
  -- until the transfer the creator can pay
  refine spec_create (fun _ _ => id) (fun v h => hwrite.pays h fun a => ?_)
    (fun _ _ h => ⟨h.1, h.2.1⟩) fun a => keeps_frame
      (keeps_enterCreate hinterpret hlaw hwrite hvalue code gas)
      (guard_over.keeps_enterCreate hguard trivial caller code gas value) fun _ => And.left
  rw [View.get_bump]
  split_ifs <;> rfl

theorem keeps_perform (contract : Contract) (r : Request)
    (hallowed : readOnly = true → (Instruction.request r).writes = false) :
    Keeps P (perform vm interpret depth readOnly contract r) fun _ => P := by
  have hwrites : (Instruction.request r).writes = true → Law P false := by
    intro h
    cases readOnly with
    | false => exact hlaw
    | true => rw [hallowed rfl] at h; cases h
  have hpure : ∀ {α : Type} (a : α), Keeps P (pure a : Exec α) fun _ => P :=
    fun a => Spec.pure fun _ => id
  cases r with
  | getBalance addr | getCodeSize addr | empty addr | hasSuicided =>
    exact Spec.bind (keeps_lookUp _) fun _ => hpure _
  | getCode addr =>
    exact Spec.bind (keeps_getCode addr) fun _ => hpure _
  | getState key =>
    exact Spec.bind (keeps_look (.getState contract.self key) trivial (fun _ => rfl) fun st =>
      view_getState st contract.self key) fun _ => hpure _
  | setState key value =>
    exact Spec.bind (keeps_edit ((hwrites rfl).edit rfl) (.setState contract.self key value) trivial
      (fun _ => rfl) fun st => ⟨_, _, view_setState st _ key value, rfl⟩) fun _ => hpure _
  | addRefund gas =>
    exact Spec.bind (keeps_op (.addRefund gas) trivial (fun _ => rfl) fun st h =>
      (hwrites rfl).edit rfl h fun a => by rw [view_addRefund]; rfl) fun _ => hpure _
  | addLog topics data blockNumber =>
    exact Spec.bind (keeps_op (.addLog _) trivial (fun _ => rfl) fun st h =>
      (hwrites rfl).edit rfl h fun a => by rw [view_addLog]; rfl) fun _ => hpure _
  | addPreimage hash preimage =>
    refine Spec.bind (keeps_op (.addPreimage hash preimage) trivial (fun _ => rfl) fun st h =>
      hlaw.same h ?_) fun _ => hpure _
    rw [view_addPreimage, View.addPreimage]
    split_ifs <;> exact ⟨fun _ => rfl, rfl, rfl⟩
  | create code gas value =>
    exact Spec.bind (keeps_create hguard hinterpret hlaw (hwrites rfl) (Int.natCast_nonneg value)
      code gas) fun _ => hpure _
  | call addr input gas value =>
    refine Spec.bind (keeps_call hguard hinterpret hlaw (Int.natCast_nonneg value) ?_ input gas)
      fun _ => hpure _
    intro hstatic
    simpa [Instruction.writes] using hallowed hstatic
  | callCode addr input gas value =>
    exact Spec.bind (spec_entry (fun _ => id) (fun _ => id) fun st h =>
      keeps_enterFrame hguard hinterpret hlaw _ input gas st ⟨h.1, h.2.1⟩) fun _ => hpure _
  | delegateCall addr input gas =>
    refine Spec.bind ?_ fun _ => hpure _
    unfold delegateCall
    split_ifs
    · exact hpure _
    · exact keeps_enterFrame hguard hinterpret hlaw _ input gas
  | staticCall addr input gas =>
    refine Spec.bind ?_ fun _ => hpure _
    unfold staticCall
    split_ifs
    · exact hpure _
    · exact keeps_enterFrame hguard hinterpret hlaw.static _ input gas

end Calls

/-! ### The interpreter -/

theorem keeps_interpretFrom (fuel depth : ℕ) (readOnly : Bool) (contract : Contract) (m : vm.State)
    (hlaw : Law P readOnly) :
    Keeps P (interpretFrom vm fuel depth readOnly contract m) fun _ => P := by
  induction fuel generalizing depth readOnly contract m with
  | zero => exact Spec.throw fun _ _ => trivial
  | succ fuel ih =>
    unfold interpretFrom
    split_ifs with hwrites
    · exact Spec.pure fun _ => id
    cases hnext : vm.next m with
    | halt out => exact Spec.pure fun _ => id
    | suicide beneficiary gas =>
      obtain rfl : readOnly = false := by simpa [hnext, Instruction.writes] using hwrites
      refine Spec.bind ?_ fun _ => Spec.pure fun _ => id
      refine Spec.bind (keeps_of_yields (Q := fun balance v => P v ∧
        balance = (v.get contract.self).balance) (stable_sane.observe _)
        (fun _ _ => yields_getBalance _ rfl) fun _ h => ⟨h, rfl⟩) fun balance => ?_
      refine Spec.bind (keeps_op (Q := fun v => P (v.suicide contract.self))
        (.addBalance beneficiary balance) trivial (fun _ => rfl) fun st h => ?_) fun _ =>
          keeps_op (.suicide contract.self) trivial (fun _ => rfl) fun st h => ?_
      · rw [view_addBalance, h.2]
        exact hlaw.suicide rfl _ _ h.1
      · rw [view_suicide]
        exact h
    | request r =>
      refine Spec.bind (keeps_perform (guard_over.keeps_interpret vm fuel)
        (fun depth readOnly contract => ih depth readOnly contract _) hlaw contract r ?_)
        fun reply => ih depth readOnly contract _ hlaw
      simpa [hnext] using hwrites

variable {fuel depth : ℕ} {contract : Contract} {r : Request}

theorem held_perform {reply : Reply} (hlaw : Law P readOnly)
    (hallowed : readOnly = true → (Instruction.request r).writes = false) (hst : Held P st)
    (h : perform vm (interpret vm fuel) depth readOnly contract r st = .ok reply st') :
    P st'.view :=
  ((keeps_perform (guard_over.keeps_interpret vm fuel)
    (fun _ _ _ => keeps_interpretFrom _ _ _ _ _) hlaw contract r hallowed).of_ok hst h).2

/-! ### Value -/

theorem balance_suicide (v : View) (a c : Address) :
    ((v.suicide a).get c).balance = if c = a then 0 else (v.get c).balance := by
  unfold View.suicide
  cases haccount : v.account a with
  | none =>
    split_ifs with hc
    · rw [hc, View.get, haccount]
      rfl
    · rfl
  | some x =>
    dsimp only
    rw [View.get_set]
    split_ifs <;> rfl

theorem law_bounded (T : ℤ) : Law (fun v => Bounded T fun a => (v.get a).balance) readOnly where
  same h hsame := by simpa only [hsame.get] using h
  edit _ _ _ h hsame := by simpa only [hsame] using h
  move h hx hs _ := by
    simpa only [View.move, View.balance_addBalance, View.balance_subBalance] using h.move hx hs
  suicide _ v a b h := by
    refine (h.move (r := b) (h.1 a) le_rfl).mono fun c => ?_
    have ha := h.1 a
    have hc := h.1 c
    rw [balance_suicide, View.balance_addBalance]
    split_ifs with hself <;> grind

theorem bounded_totalBalance (h : ∀ a, 0 ≤ (st.getBalance a).1) :
    Bounded st.totalBalance fun a => (st.view.get a).balance := by
  simp only [← getBalance_eq]
  refine ⟨h, fun s => ?_⟩
  have hknown : st.trie.keys ∪ st.stateObjects.keys ⊆ st.trie.keys ∪ st.stateObjects.keys ∪ s :=
    subset_union_left
  rw [totalBalance_eq_sum hknown]
  exact sum_le_sum_of_subset_of_nonneg subset_union_right fun a _ _ => h a

/-! ### Static calls -/

theorem law_same (v₀ : View) : Law (Same v₀) true where
  same h h' := ⟨fun a => (h'.get a).trans (h.get a), h'.refund.trans h.refund, h'.logs.trans h.logs⟩
  edit := nofun
  move {v s r _} h _ _ hzero := by
    rw [hzero rfl, View.move, View.addBalance, add_zero, View.subBalance, sub_zero]
    refine ⟨fun a => ?_, h.refund, h.logs⟩
    rw [← h.get a]
    exact (View.get_ensure (v.ensure s) r a).trans (View.get_ensure v s a)
  suicide := nofun

/-! ### Failed calls -/

theorem spec_failed_frame {v : View} {body : Exec Outcome} {I : Outcome → Prop}
    (h : Guarded body I) : Spec (Held (· = v)) (frame body)
      (fun out st => out.err ≠ none → st.view = v) fun _ _ => True := by
  rintro st ⟨hst, rfl⟩
  cases hrun : frame body st with
  | error e st' => trivial
  | ok out st' =>
    rcases frame_eq_ok hst h hrun with ⟨hnone, -⟩ | ⟨hview, -⟩
    · exact fun herr => absurd hnone herr
    · exact fun _ => hview

theorem spec_failed_call {v : View} {body : Exec Outcome} {I : Outcome → Prop} (h : Guarded body I)
    {caller : Address} {gas : UInt64} {value : ℤ} : Spec (Held (· = v))
      (if callCreateDepth < depth then pure ⟨[], gas, some .errDepth⟩
        else canTransfer caller value >>= fun solvent =>
          if !solvent then pure ⟨[], gas, some .errInsufficientBalance⟩ else frame body)
      (fun out st => out.err ≠ none → st.view = v) fun _ _ => True :=
  spec_entry (fun _ h _ => h.2) (fun _ h _ => h.2)
    fun st hst => spec_failed_frame h st ⟨hst.1, hst.2.1⟩

theorem spec_failed_create {v : View} {caller : Address} {code : Bytes} {gas : UInt64} {value : ℤ} :
    Spec (Held (· = v)) (create vm (interpret vm fuel) depth readOnly caller code gas value)
      (fun created st => created.2.err ≠ none → st.view = v ∨ st.view = v.bump caller)
      fun _ _ => True := by
  refine spec_create (Q := (· = v.bump caller)) (fun _ _ h _ => .inl h.2) (fun w h => ?_)
    (fun _ _ h _ => .inr h.2) fun a => ?_
  · rw [h.1]
  · exact (spec_failed_frame (guard_over.keeps_enterCreate (guard_over.keeps_interpret vm fuel)
      trivial caller code gas value)).mono (fun _ => id) (fun _ _ h herr => .inr (h herr))
      fun _ _ => id

end Frames

end Evm

namespace Contracts

open Payments

/-- A request of the payer, where contracts write to their storage. -/
def visit (readOnly : Bool) (r : Request) : EStateM.Result Abort StateDB Reply :=
  Evm.perform writer (Evm.interpret writer 2) 0 readOnly ⟨payer, payer, 0, [], payer, [], 100⟩ r
    Contracts.state

theorem balance_nonneg (a : Address) : 0 ≤ (Contracts.state.getBalance a).1 := by
  change 0 ≤ ((Contracts.state.live a).map fun obj => obj.data.balance).getD 0
  rw [Contracts.state, live_new]
  by_cases hpayee : a = payee
  · subst hpayee
    decide
  by_cases hpayer : a = payer
  · subst hpayer
    decide
  rw [Finmap.lookup_insert_of_ne _ hpayee, Finmap.lookup_insert_of_ne _ hpayer]
  rfl

/-- The writer has no gas. -/
theorem nonempty_meter : Nonempty (Meter writer) := by
  refine ⟨fun _ => 0, fun _ => UInt64.zero_le, fun {m _} h => ?_, fun {m _ _} h => ?_,
    fun _ _ => UInt64.le_refl 0⟩
  · cases m <;> cases h
    exact UInt64.le_refl 0
  · cases m <;> cases h

end Contracts

namespace Evm

/-! ### Whole executions -/

variable {vm : Machine} {fuel depth : ℕ} {readOnly : Bool} {contract : Contract} {r : Request}
  {addr : Address} {st st' : StateDB} {out : Outcome}

/-- **No contract makes money**: whatever an instruction set does within the read-only mode, by
itself or through the contracts it enters at any depth, no balance gets negative, and the sum of all
balances does not grow. -/
theorem value_not_minted [Crypto] {reply : Reply} (hst : Sane st)
    (hbalances : ∀ a, 0 ≤ (st.getBalance a).1)
    (hallowed : readOnly = true → (Instruction.request r).writes = false)
    (h : perform vm (interpret vm fuel) depth readOnly contract r st = .ok reply st') :
    (∀ a, 0 ≤ (st'.getBalance a).1) ∧ st'.totalBalance ≤ st.totalBalance := by
  obtain ⟨hnonneg, hsum⟩ :=
    held_perform (law_bounded _) hallowed ⟨hst, bounded_totalBalance hbalances⟩ h
  simp only [← getBalance_eq] at hnonneg hsum
  exact ⟨hnonneg, hsum _⟩

open Contracts Payments in
/-- A payment to a contract. -/
theorem value_not_minted_visit : ∃ reply st', visit false (.call payee [] 50 7) = .ok reply st' ∧
    st'.totalBalance ≤ Contracts.state.totalBalance :=
  ⟨_, _, rfl, (value_not_minted (h := (rfl : visit false (.call payee [] 50 7) = _)) (sane_new _ _)
    balance_nonneg (absurd · Bool.false_ne_true)).2⟩

/-- **A static call writes nothing**: whether it succeeds or fails, every account, the refund
counter and the logs are as they were, whatever instruction set runs. -/
theorem static_call_writes_nothing [Crypto] {input : Bytes} {gas : UInt64} {reply : Reply}
    (hst : Sane st) (h : perform vm (interpret vm fuel) depth readOnly contract
      (.staticCall addr input gas) st = .ok reply st') : Same st.view st'.view := by
  -- a static call is the same in both modes
  have hread : perform vm (interpret vm fuel) depth true contract (.staticCall addr input gas) st =
      .ok reply st' := h
  exact held_perform (law_same st.view) (fun _ => rfl) ⟨hst, fun _ => rfl, rfl, rfl⟩ hread

open Contracts Payments in
/-- The contract in a static call. -/
theorem static_call_writes_nothing_visit : ∃ out st',
    visit false (.staticCall payee [] 50) = .ok (.result payee out) st' ∧
    out.err = some .errWriteProtection ∧ Same Contracts.state.view st'.view :=
  ⟨_, _, rfl, rfl, static_call_writes_nothing (sane_new _ _)
    (rfl : visit false (.staticCall payee [] 50) = _)⟩

/-- **A failed call leaves no trace**: if a contract enters another one in any way and gets an
error, whatever has run in between, all that can be observed is as it was, but for the nonce of the
account that failed to create a contract. -/
theorem failed_call_undone [Crypto] (hst : Sane st)
    (h : perform vm (interpret vm fuel) depth readOnly contract r st = .ok (.result addr out) st')
    (herr : out.err ≠ none) : st'.view = st.view ∨
      ((∃ code gas value, r = .create code gas value) ∧ st'.view = st.view.bump contract.self) := by
  have hguard := guard_over.keeps_interpret vm fuel
  have hheld : Held (· = st.view) st := ⟨hst, rfl⟩
  cases r with
  | create code gas value =>
    obtain ⟨created, st₁, hrun, hpure⟩ := bind_eq_ok.1 h
    cases hpure
    exact (spec_failed_create.of_ok hheld hrun herr).imp_right fun hview => ⟨⟨_, _, _, rfl⟩, hview⟩
  | call addr input gas value =>
    obtain ⟨out, st₁, hrun, hpure⟩ := bind_eq_ok.1 h
    cases hpure
    exact .inl ((spec_failed_call (guard_over.keeps_enterCall hguard _ _ input gas value)).of_ok
      hheld hrun herr)
  | callCode addr input gas value =>
    obtain ⟨out, st₁, hrun, hpure⟩ := bind_eq_ok.1 h
    cases hpure
    exact .inl ((spec_failed_call (guard_over.keeps_enterCode hguard _ input gas value
      (.inr trivial))).of_ok hheld hrun herr)
  | delegateCall addr input gas | staticCall addr input gas =>
    obtain ⟨out, st₁, hrun, hpure⟩ := bind_eq_ok.1 h
    cases hpure
    simp only [delegateCall, staticCall] at hrun
    split_ifs at hrun
    · cases hrun
      exact .inl rfl
    · exact .inl ((spec_failed_frame (guard_over.keeps_enterCode hguard _ input gas _
        (.inr trivial))).of_ok hheld hrun herr)
  | _ =>
    obtain ⟨a, st₁, -, hpure⟩ := bind_eq_ok.1 h
    cases hpure

open Contracts Payments in
/-- The contract must not write in read-only mode. -/
theorem failed_call_undone_visit : ∃ reply st', visit true (.call payee [] 50 0) = .ok reply st' ∧
    st'.view = Contracts.state.view := by
  refine ⟨_, _, rfl, ?_⟩
  rcases failed_call_undone (h := (rfl : visit true (.call payee [] 50 0) = _)) (sane_new _ _)
    (Option.some_ne_none _) with h | ⟨⟨_, _, _, h⟩, -⟩
  · exact h
  · cases h

/-- **No contract makes gas**: a machine that counts its gas never gets more back than it hands
over, in whatever way it enters another contract. -/
theorem gas_not_created [Crypto] (meter : Meter vm)
    (h : perform vm (interpret vm fuel) depth readOnly contract r st = .ok (.result addr out) st') :
    out.gas ≤ r.gas := by
  have hclosed : Closed fun _ : StateDB => True := ⟨fun _ _ _ _ => trivial, fun _ _ => trivial⟩
  exact ((hclosed.guard.keeps_perform (hclosed.guard.keeps_interpret vm fuel) trivial r ()).of_ok
    trivial h).2 addr out rfl ⟨meter⟩

open Contracts Payments in
/-- The contract has no gas left. -/
theorem gas_not_created_visit : ∃ out st',
    visit false (.call payee [] 50 7) = .ok (.result payee out) st' ∧ out.gas ≤ 50 := by
  obtain ⟨meter⟩ := nonempty_meter
  exact ⟨_, _, rfl, gas_not_created meter (rfl : visit false (.call payee [] 50 7) = _)⟩

end Evm
