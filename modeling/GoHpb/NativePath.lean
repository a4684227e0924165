/-
**The native way and the virtual machine.**

A message to an account whose sender has no code takes the native way and does not enter the virtual
machine.  This module compares it with what `TransitionOnEVM` would have done from the same state.

The two never agree on a message that is carried out: the virtual machine increases the nonce of
the sender, and the native way does not.  If the recipient has no code and is not a precompiled
contract, they agree in everything else.  If it has code, only the virtual machine runs it.

Main results:

* `native_agrees_iff` — **the two ways agree exactly on the messages that are refused**, and for
  recipients without code they differ in the nonce of the sender only.
-/

import GoHpb.MessageView

open FailState StateTransition View Yields AccountView FixedBytes

section Comparison

variable [Crypto]

/-! ### Changing one account -/

namespace View

variable {v : View} {a b : Address} {f g : AccountView → AccountView}

/-- Changing one account, which is created if it is missing. -/
def adjust (v : View) (a : Address) (f : AccountView → AccountView) : View :=
  v.set a (some (f (v.get a)))

theorem get_adjust (v : View) (a b : Address) (f : AccountView → AccountView) :
    (v.adjust a f).get b = if b = a then f (v.get b) else v.get b := by
  rw [adjust, get_set]
  split_ifs with h
  · rw [h]
  · rfl

theorem adjust_comm (h : ∀ x, f (g x) = g (f x)) :
    (v.adjust b g).adjust a f = (v.adjust a f).adjust b g := by
  have hadjust : ∀ (u : View) (c : Address) (k : AccountView → AccountView),
      u.adjust c k = u.set c (some (k (u.get c))) := fun _ _ _ => rfl
  rw [hadjust (v.adjust b g) a f, hadjust (v.adjust a f) b g, get_adjust, get_adjust]
  by_cases hab : a = b
  · subst hab
    rw [if_pos rfl, if_pos rfl, adjust, adjust, set_set, set_set, h]
  · rw [if_neg hab, if_neg (Ne.symm hab)]
    simp only [adjust, set, Function.update_comm (Ne.symm hab)]

/-- The nonce of an account grows by one. -/
def bump (v : View) (a : Address) : View := v.adjust a fun x => { x with nonce := x.nonce + 1 }

variable (v) (a) (b)

theorem ensure_bump : (v.bump b).ensure a = (v.ensure a).bump b :=
  adjust_comm (f := id) fun _ => rfl

theorem addBalance_bump (amount : ℤ) :
    (v.bump b).addBalance a amount = (v.addBalance a amount).bump b :=
  adjust_comm (f := fun x => { x with balance := x.balance + amount }) fun _ => rfl

theorem subBalance_bump (amount : ℤ) :
    (v.bump b).subBalance a amount = (v.subBalance a amount).bump b :=
  adjust_comm (f := fun x => { x with balance := x.balance - amount }) fun _ => rfl

variable {v} {a} {b}

theorem payFees_bump (v : View) (msg : Message) (beneficiary a : Address) (gas : UInt64) :
    (v.bump a).payFees msg beneficiary gas = (v.payFees msg beneficiary gas).bump a := by
  have hspend : ∀ u : View, (u.bump a).spendRefund msg gas = (u.spendRefund msg gas).bump a :=
    fun _ => rfl
  have hrefund : (v.bump a).refundOf msg gas = v.refundOf msg gas := rfl
  have hafter : (v.bump a).gasAfter msg gas = v.gasAfter msg gas := rfl
  rw [payFees, ensure_bump, addBalance_bump, hspend, addBalance_bump, addBalance_bump, hrefund,
    hafter]
  rfl

section Observe

variable {β : Type} (observe : AccountView → β)
  (h : ∀ (x : AccountView) (amount : ℤ), observe { x with balance := amount } = observe x)

include h

theorem observe_setBalance (v : View) (a b : Address) (amount : ℤ) :
    observe ((v.setBalance a amount).get b) = observe (v.get b) := by
  rw [setBalance, get_set]
  split_ifs with hb
  · rw [h, hb]
  · rfl

theorem observe_move (v : View) (sender recipient a : Address) (amount : ℤ) :
    observe ((v.move sender recipient amount).get a) = observe (v.get a) := by
  rw [move, addBalance, observe_setBalance observe h, subBalance, observe_setBalance observe h]

theorem observe_payFees (v : View) (msg : Message) (beneficiary a : Address) (gas : UInt64) :
    observe ((v.payFees msg beneficiary gas).get a) = observe (v.get a) := by
  simp only [payFees, addBalance, observe_setBalance observe h, get_spendRefund, get_ensure]

end Observe

theorem get_bump (v : View) (a b : Address) :
    (v.bump a).get b = if b = a then { v.get b with nonce := (v.get b).nonce + 1 } else v.get b :=
  get_adjust v a b _

theorem isSome_account_bump (v : View) (a b : Address) (h : (v.account b).isSome) :
    ((v.bump a).account b).isSome := by
  by_cases hb : b = a
  · subst hb
    rw [bump, adjust, account_set]
    rfl
  · rw [bump, adjust, account_set_of_ne hb]
    exact h

end View

/-! ### Calls on views -/

section Calls

variable {st : StateDB} {w : World} {msg : Message} {v : View} {vm : Machine} {out : Outcome}

theorem yields_increaseNonce (addr : Address) (hst : st.view = v) :
    Yields (Evm.increaseNonce addr) st (v.get addr).nonce fun st' => st'.view = v.bump addr := by
  refine (yields_getNonce addr hst).bind fun st' hst' => ?_
  refine bind (Q := fun st' => st'.view = v.bump addr) (modify ?_) fun _ h =>
    pure h
  rw [StateDB.view_setNonce, hst']
  rfl

theorem yields_getCode (addr : Address) (hst : st.view = v) :
    Yields (operate fun st => st.getCode addr : Exec Bytes) st (v.get addr).code
      fun st' => st'.view = v := by
  refine operate ?_ ((StateDB.view_getCode st addr).trans hst)
  rw [StateDB.getCode_eq, hst]

theorem yields_call {interpret : ℕ → Bool → Contract → Exec Outcome} {caller addr : Address}
    {input : Bytes} {gas : UInt64} {value : ℤ} (hst : st.view = v)
    (hexists : (v.account addr).isSome) (hsolvent : value ≤ (v.get caller).balance)
    (hout : out.err = none) (hrun : ∀ t : StateDB, Yields (Evm.run vm interpret 0 false
      { callerAddress := caller, self := addr, value := value,
        code := ((v.move caller addr value).get addr).code, codeAddr := addr, input := input,
        gas := gas }) t out fun t' => t'.view = t.view) :
    Yields (Evm.call vm interpret 0 false caller addr input gas value) st out
      fun st' => st'.view = v.move caller addr value := by
  refine (yields_canTransfer caller value hst).bind fun _ h₁ => ?_
  rw [decide_eq_true hsolvent]
  refine bind (Q := fun st' => st'.view = v) (operate rfl ?_) fun _ h₂ => ?_
  · rw [StateDB.view_snapshot, h₁]
  refine bind (a := out) (Q := fun st' => st'.view = v.move caller addr value) ?_
    fun _ h₃ => ?_
  · refine (yields_exist addr h₂).bind fun _ h₃ => ?_
    rw [hexists]
    refine bind (Q := fun st' => st'.view = v) (pure h₃) fun _ h₄ => ?_
    refine (yields_transfer caller addr value h₄).bind fun _ h₅ => ?_
    refine (yields_getCode addr h₅).bind fun t ht => ?_
    obtain ⟨t', ht', hsame⟩ := hrun t
    exact ⟨t', ht', hsame.trans ht⟩
  · unfold Evm.settle
    rw [hout]
    exact pure h₃

theorem yields_transitionOnEVM {fuel : ℕ} {addr : Address} (hto : msg.recipient = some addr)
    (beneficiary : Address) {gas : UInt64} {gasPool : ℕ} (hw : w.At v gasPool)
    (hsender : (v.account msg.sender).isSome) (hsolvent : msg.value ≤ (v.get msg.sender).balance)
    (hout : out.err = none)
    (hrun : ∀ t : StateDB, Yields (Evm.run vm (Evm.interpret vm fuel) 0 false
      { callerAddress := msg.sender, self := addr, value := msg.value, code := (v.get addr).code,
        codeAddr := addr, input := msg.data, gas := gas }) t out fun t' => t'.view = t.view) :
    Yields (transitionOnEVM vm fuel msg beneficiary gas) w
      (out.ret, gasUsed msg (v.gasAfter msg out.gas), false) fun w' =>
        w'.At ((((v.ensure addr).move msg.sender addr msg.value).payFees msg beneficiary
          out.gas).bump msg.sender) (gasPool + (v.gasAfter msg out.gas).toNat) := by
  obtain ⟨x, hx⟩ := Option.isSome_iff_exists.1 hsender
  refine (yields_onState hw fun _ => yields_ensureExists msg.sender).bind fun w₁ h₁ => ?_
  rw [ensure_of_account hx] at h₁
  have hcall : Yields (onState (runMessage vm fuel msg gas)) w₁ out fun w' =>
      w'.At (((v.ensure addr).move msg.sender addr msg.value).bump msg.sender) gasPool := by
    refine yields_onState h₁ fun st hst => ?_
    unfold runMessage
    rw [hto]
    refine (yields_increaseNonce msg.sender hst).bind fun _ h₂ => ?_
    refine (yields_toAccount hto h₂).bind fun _ h₃ => ?_
    rw [ensure_bump] at h₃
    have hview : ((v.ensure addr).bump msg.sender).move msg.sender addr msg.value =
        ((v.ensure addr).move msg.sender addr msg.value).bump msg.sender := by
      rw [View.move, View.subBalance_bump, View.addBalance_bump]
      rfl
    rw [← hview]
    refine yields_call h₃ ?_ ?_ hout fun t => ?_
    · exact isSome_account_bump _ _ _ (by rw [account_ensure]; rfl)
    · rw [get_bump, if_pos rfl, get_ensure]
      exact hsolvent
    -- neither the new nonce nor the transfer changes a code
    have hcode : ((((v.ensure addr).bump msg.sender).move msg.sender addr msg.value).get
        addr).code = (v.get addr).code := by
      rw [observe_move code fun _ _ => rfl, get_bump]
      split_ifs <;> simp only [get_ensure]
    rw [hcode]
    exact hrun t
  refine hcall.bind fun _ h₂ => ?_
  rw [hout]
  refine (yields_payFees beneficiary out.gas h₂).bind fun _ h₃ => ?_
  rw [payFees_bump] at h₃
  exact pure h₃

theorem transitionOnEVM_insolvent {addr : Address} (hto : msg.recipient = some addr)
    (vm : Machine) (fuel : ℕ) (beneficiary : Address) (gas : UInt64) (hw : w.state.view = v)
    (hinsolvent : (v.get msg.sender).balance < msg.value) :
    ∃ w', transitionOnEVM vm fuel msg beneficiary gas w = .error .errVmInsufficientBalance w' := by
  have hat : w.At v w.gasPool := ⟨hw, rfl⟩
  obtain ⟨w₁, h₁, hat₁⟩ := yields_onState hat fun _ => yields_ensureExists msg.sender
  have hcall : Yields (onState (runMessage vm fuel msg gas)) w₁
      ⟨[], gas, some .errInsufficientBalance⟩ fun w' =>
        w'.At (((v.ensure msg.sender).bump msg.sender).ensure addr) w.gasPool := by
    refine yields_onState hat₁ fun st hst => ?_
    unfold runMessage
    rw [hto]
    refine (yields_increaseNonce msg.sender hst).bind fun _ h₂ => ?_
    refine (yields_toAccount hto h₂).bind fun _ h₃ => ?_
    refine (yields_canTransfer msg.sender msg.value h₃).bind fun _ h₄ => ?_
    have hless : ¬ msg.value ≤
        ((((v.ensure msg.sender).bump msg.sender).ensure addr).get msg.sender).balance := by
      rw [get_ensure, get_bump, if_pos rfl, get_ensure]
      exact not_le.2 hinsolvent
    rw [decide_eq_false hless]
    exact pure h₄
  obtain ⟨w₂, h₂, -⟩ := hcall
  refine ⟨w₂, ?_⟩
  unfold transitionOnEVM
  rw [bind_ok h₁, bind_ok h₂]
  rfl

end Calls

/-! ### The comparison -/

/-- `ApplyMessage` without the native way: what `TransitionOnEVM` produces from the same state. -/
def applyMessageOnEVM (vm : Machine) (fuel : ℕ) (beneficiary : Address) (msg : Message) :
    EStateM Abort World (Bytes × ℤ × Bool) := do
  let _ ← onState (isNative msg)
  let gas ← preCheck msg
  let intrinsic := intrinsicGas msg.data msg.recipient.isNone
  if 2 ^ 64 ≤ intrinsic then throw .errOutOfGas
  else if gas < .ofNat intrinsic then throw .errOutOfGas
  else transitionOnEVM vm fuel msg beneficiary (gas - .ofNat intrinsic)

/-- The same balances, code and storage of all accounts, and the same logs. -/
structure SameUpToNonces (st st' : StateDB) : Prop where
  getBalance : ∀ a, (st'.getBalance a).1 = (st.getBalance a).1
  getCode : ∀ a, (st'.getCode a).1 = (st.getCode a).1
  getState : ∀ a key, (st'.getState a key).1 = (st.getState a key).1
  getLogs : ∀ hash, st'.getLogs hash = st.getLogs hash
  logSize : st'.logSize = st.logSize

/-- Two results of a message agree: both refuse it, or both carry it out with the same gas used, the
same failed flag, the same accounts and the same logs. -/
def Agree : EStateM.Result Abort World (Bytes × ℤ × Bool) →
    EStateM.Result Abort World (Bytes × ℤ × Bool) → Prop
  | .ok r w, .ok r' w' =>
    r'.2 = r.2 ∧ SameUpToNonces w.state w'.state ∧
      ∀ a, (w'.state.getNonce a).1 = (w.state.getNonce a).1
  | .error _ _, .error _ _ => True
  | _, _ => False

/-- A machine whose contracts stop at once. -/
def idle : Machine where
  State := Unit
  start _ := ()
  next _ := .halt ⟨[], 0, none⟩
  resume _ _ := ()
  precompiled _ := none

section Messages

variable {vm : Machine} {fuel : ℕ} {beneficiary : Address} {msg : Message} {w w' : World}
  {r : Bytes × ℤ × Bool}

theorem applyMessage_cases (hnative : msg.native w.state = true) :
    (∃ e w₁, ∀ (vm : Machine) (fuel : ℕ) (beneficiary : Address),
      applyMessage vm fuel beneficiary msg w = .error e w₁ ∧
      applyMessageOnEVM vm fuel beneficiary msg w = .error e w₁) ∨
    ∃ (addr : Address) (gas : UInt64) (w₁ : World) (v : View), msg.recipient = some addr ∧
      w₁.state.view = v ∧ (v.account msg.sender).isSome ∧
      (v.get addr).code = (w.state.getCode addr).1 ∧ Prepared msg.sender w.state w₁.state ∧
      ∀ (vm : Machine) (fuel : ℕ) (beneficiary : Address),
        applyMessage vm fuel beneficiary msg w = transitionOnNative msg beneficiary gas w₁ ∧
        applyMessageOnEVM vm fuel beneficiary msg w =
          transitionOnEVM vm fuel msg beneficiary gas w₁ := by
  obtain ⟨addr, hto⟩ := Option.isSome_iff_exists.1 (Bool.and_eq_true_iff.1 hnative).1
  have hchoice : onState (isNative msg) w =
      .ok true { w with state := w.state.load msg.sender } := by
    unfold isNative Message.native at *
    rw [hto] at hnative ⊢
    simp only [Option.isSome_some, Bool.true_and] at hnative
    change EStateM.Result.ok (decide ((w.state.getCodeSize msg.sender).1 = 0)) _ = _
    rw [hnative]
    rfl
  cases hcheck : preCheck msg { w with state := w.state.load msg.sender } with
  | error e w₁ =>
    refine .inl ⟨e, w₁, fun vm fuel beneficiary => ⟨?_, ?_⟩⟩
    · rw [applyMessage, bind_ok hchoice, bind_error hcheck]
    · rw [applyMessageOnEVM, bind_ok hchoice, bind_error hcheck]
  | ok gas w₁ =>
    by_cases hlarge : 2 ^ 64 ≤ intrinsicGas msg.data msg.recipient.isNone
    · refine .inl ⟨.errOutOfGas, w₁, fun vm fuel beneficiary => ⟨?_, ?_⟩⟩
      · rw [applyMessage, bind_ok hchoice, bind_ok hcheck]
        simp only [if_pos hlarge]
        rfl
      · rw [applyMessageOnEVM, bind_ok hchoice, bind_ok hcheck]
        simp only [if_pos hlarge]
        rfl
    by_cases hless : gas < .ofNat (intrinsicGas msg.data msg.recipient.isNone)
    · refine .inl ⟨.errOutOfGas, w₁, fun vm fuel beneficiary => ⟨?_, ?_⟩⟩
      · rw [applyMessage, bind_ok hchoice, bind_ok hcheck]
        simp only [if_neg hlarge, if_pos hless]
        rfl
      · rw [applyMessageOnEVM, bind_ok hchoice, bind_ok hcheck]
        simp only [if_neg hlarge, if_pos hless]
        rfl
    obtain ⟨-, -, hat⟩ := spec_preCheck.of_ok ⟨rfl, rfl⟩ hcheck
    refine .inr ⟨addr, gas - .ofNat (intrinsicGas msg.data msg.recipient.isNone), w₁, _,
      hto, hat.view, ?_, ?_, (prepared_preCheck hcheck).1.of_load,
      fun vm fuel beneficiary => ⟨?_, ?_⟩⟩
    · rw [subBalance, setBalance, account_set]
      rfl
    · rw [subBalance, observe_setBalance code fun _ _ => rfl,
        get_ensure, StateDB.getCode_eq]
      simp only [StateDB.view_load]
    · rw [applyMessage, bind_ok hchoice, bind_ok hcheck]
      simp only [if_neg hlarge, if_neg hless, if_true]
    · rw [applyMessageOnEVM, bind_ok hchoice, bind_ok hcheck]
      simp only [if_neg hlarge, if_neg hless]

theorem transitionOnNative_cases {addr : Address} {v : View} (hto : msg.recipient = some addr)
    (gas : UInt64) (hw : w.state.view = v) : ((v.get msg.sender).balance < msg.value ∧
      ∀ beneficiary, ∃ w', transitionOnNative msg beneficiary gas w =
        .error .errInsufficientBalance w') ∨ (msg.value ≤ (v.get msg.sender).balance ∧
      ∀ beneficiary, Yields (transitionOnNative msg beneficiary gas) w
        ([], gasUsed msg (v.gasAfter msg gas), false) fun w' =>
          w'.At (((v.ensure addr).move msg.sender addr msg.value).payFees msg beneficiary gas)
            (w.gasPool + (v.gasAfter msg gas).toNat)) := by
  rcases lt_or_ge (v.get msg.sender).balance msg.value with hless | hle
  · exact .inl ⟨hless, fun beneficiary =>
      transitionOnNative_insolvent hto beneficiary gas hw hless⟩
  · exact .inr ⟨hle, fun beneficiary =>
      yields_transitionOnNative hto beneficiary gas ⟨hw, rfl⟩ hle⟩

theorem yields_run_idle (contract : Contract) : ∃ out : Outcome, out.err = none ∧ ∀ t : StateDB,
      Yields (Evm.run idle (Evm.interpret idle 1) 0 false contract) t out
        fun t' => t'.view = t.view := by
  by_cases hcode : contract.code = []
  · refine ⟨⟨[], contract.gas, none⟩, rfl, fun t => ?_⟩
    simp only [Evm.run, idle, if_pos hcode]
    exact pure rfl
  · refine ⟨⟨[], 0, none⟩, rfl, fun t => ?_⟩
    simp only [Evm.run, idle, if_neg hcode]
    exact ⟨t, rfl, rfl⟩

/-- The machine always increases the nonce of the sender, and the native way never does. -/
theorem nonce_ne_of_bump {st st' : StateDB} {v v' : View} {a : Address} (hst : st.view = v)
    (hst' : st'.view = v'.bump a) (hnonce : (v'.get a).nonce = (v.get a).nonce) :
    (st'.getNonce a).1 ≠ (st.getNonce a).1 := by
  rw [StateDB.getNonce_eq, StateDB.getNonce_eq, hst, hst', get_bump, if_pos rfl]
  simp only [hnonce]
  intro heq
  have hsub := congrArg (· - (v.get a).nonce) heq
  simp at hsub

theorem sameUpToNonces_of_bump {st st' : StateDB} {v : View} {a : Address} (hst : st.view = v)
    (hst' : st'.view = v.bump a) : SameUpToNonces st st' := by
  obtain ⟨-, -, hlogs, hsize, -⟩ := StateDB.view_eq_iff.1 hst
  obtain ⟨-, -, hlogs', hsize', -⟩ := StateDB.view_eq_iff.1 hst'
  have hget : ∀ {β : Type} (observe : AccountView → β),
      (∀ (x : AccountView) (n : UInt64), observe { x with nonce := n } = observe x) →
      ∀ b, observe (st'.view.get b) = observe (st.view.get b) := by
    intro β observe h b
    rw [hst, hst', get_bump]
    split_ifs
    · rw [h]
    · rfl
  refine ⟨fun b => ?_, fun b => ?_, fun b key => ?_, fun hash => ?_, ?_⟩
  · rw [StateDB.getBalance_eq, StateDB.getBalance_eq]
    exact hget balance (fun _ _ => rfl) b
  · rw [StateDB.getCode_eq, StateDB.getCode_eq]
    exact hget code (fun _ _ => rfl) b
  · rw [StateDB.getState_eq, StateDB.getState_eq]
    exact hget (fun x => x.storage key) (fun _ _ => rfl) b
  · exact (hlogs' hash).trans (hlogs hash).symm
  · exact hsize'.trans hsize.symm

theorem agree_of_refused (hnative : msg.native w.state = true)
    (hrefused : ∀ r w', applyMessage vm fuel beneficiary msg w ≠ .ok r w') :
    Agree (applyMessage vm fuel beneficiary msg w)
      (applyMessageOnEVM vm fuel beneficiary msg w) := by
  rcases applyMessage_cases hnative with
    ⟨e, w₁, hearly⟩ | ⟨addr, gas, w₁, v, hto, hview, -, -, -, hways⟩
  · rw [(hearly vm fuel beneficiary).1, (hearly vm fuel beneficiary).2]
    trivial
  rcases transitionOnNative_cases hto gas hview with ⟨hless, hpoor⟩ | ⟨-, hyields⟩
  · -- neither way lets the sender pay the value
    obtain ⟨w₂, herror⟩ := hpoor beneficiary
    obtain ⟨w₃, herror'⟩ := transitionOnEVM_insolvent hto vm fuel beneficiary gas hview hless
    rw [(hways vm fuel beneficiary).1, (hways vm fuel beneficiary).2, herror, herror']
    trivial
  · obtain ⟨w₂, hok, -⟩ := hyields beneficiary
    exact absurd ((hways vm fuel beneficiary).1.trans hok) (hrefused _ _)

/-- A message that has been carried out on the native way: `w₁` and `v` are the state that both ways
start from and its view, with the gas that is left after the checks. -/
structure CarriedOut (msg : Message) (beneficiary : Address) (w : World) (r : Bytes × ℤ × Bool)
    (w' : World) (addr : Address) (gas : UInt64) (w₁ : World) (v : View) : Prop where
  recipient : msg.recipient = some addr
  view : w₁.state.view = v
  sender : (v.account msg.sender).isSome
  code : (v.get addr).code = (w.state.getCode addr).1
  prepared : Prepared msg.sender w.state w₁.state
  solvent : msg.value ≤ (v.get msg.sender).balance
  result : r = ([], gasUsed msg (v.gasAfter msg gas), false)
  native : transitionOnNative msg beneficiary gas w₁ = .ok r w'
  after : w'.state.view =
    ((v.ensure addr).move msg.sender addr msg.value).payFees msg beneficiary gas
  ways : ∀ (vm : Machine) (fuel : ℕ),
    applyMessage vm fuel beneficiary msg w = .ok r w' ∧
    applyMessageOnEVM vm fuel beneficiary msg w = transitionOnEVM vm fuel msg beneficiary gas w₁

theorem exists_carriedOut (hnative : msg.native w.state = true)
    (hok : applyMessage vm fuel beneficiary msg w = .ok r w') :
    ∃ addr gas w₁ v, CarriedOut msg beneficiary w r w' addr gas w₁ v := by
  rcases applyMessage_cases hnative with
    ⟨e, w₁, hearly⟩ | ⟨addr, gas, w₁, v, hto, hview, hsender, hcode, hprep, hways⟩
  · rw [(hearly vm fuel beneficiary).1] at hok
    cases hok
  rw [(hways vm fuel beneficiary).1] at hok
  rcases transitionOnNative_cases hto gas hview with ⟨-, hpoor⟩ | ⟨hle, hyields⟩
  · obtain ⟨w₂, herror⟩ := hpoor beneficiary
    rw [herror] at hok
    cases hok
  obtain ⟨w₂, hok', hat⟩ := hyields beneficiary
  rw [hok'] at hok
  cases hok
  exact ⟨addr, gas, w₁, v, hto, hview, hsender, hcode, hprep, hle, rfl, hok', hat.view,
    fun vm fuel => ⟨(hways vm fuel beneficiary).1.trans hok', (hways vm fuel beneficiary).2⟩⟩

namespace CarriedOut

variable {addr : Address} {gas : UInt64} {w₁ : World} {v : View}

variable (h : CarriedOut msg beneficiary w r w' addr gas w₁ v)
include h

theorem not_agree_idle :
    ¬ Agree (applyMessage idle 1 beneficiary msg w)
      (applyMessageOnEVM idle 1 beneficiary msg w) := by
  intro hagree
  obtain ⟨out, hout, hrun⟩ := yields_run_idle
    { callerAddress := msg.sender, self := addr, value := msg.value, code := (v.get addr).code,
      codeAddr := addr, input := msg.data, gas := gas }
  obtain ⟨w₂, hok, hat⟩ := yields_transitionOnEVM h.recipient beneficiary ⟨h.view, rfl⟩ h.sender
    h.solvent hout hrun
  rw [(h.ways _ _).1, (h.ways _ _).2, hok] at hagree
  refine absurd (hagree.2.2 msg.sender) (nonce_ne_of_bump h.after hat.view ?_)
  rw [observe_payFees nonce fun _ _ => rfl,
    observe_payFees nonce fun _ _ => rfl]

/-- No machine agrees if the sender has the hash of the empty code and its nonce does not wrap
around: nothing but its own code can change its nonce a second time. -/
theorem not_agree
    (hready : w.state.Ready msg.sender)
    (hhash : ((w.state.standing msg.sender).getD freshStanding).codeHash = emptyCodeHash)
    (hwrap : (w.state.getNonce msg.sender).1.toNat + 1 < 2 ^ 64) (vm : Machine) (fuel : ℕ) :
    ¬ Agree (applyMessage vm fuel beneficiary msg w)
      (applyMessageOnEVM vm fuel beneficiary msg w) := by
  intro hagree
  rw [(h.ways _ _).1, (h.ways _ _).2] at hagree
  cases hok : transitionOnEVM vm fuel msg beneficiary gas w₁ with
  | error e w₂ =>
    rw [hok] at hagree
    exact hagree
  | ok r' w₂ =>
    rw [hok] at hagree
    rw [getNonce_eq] at hwrap
    obtain ⟨hstanding, hone, -⟩ := sender_after_evm hready h.prepared rfl hwrap hok
    have hnonce := hagree.2.2 msg.sender
    rw [getNonce_of_standing hstanding, hone hhash,
      getNonce_of_standing (sender_standing_native h.prepared.standing h.native)] at hnonce
    simp at hnonce

theorem on_evm
    (hempty : (w.state.getCode addr).1 = []) (hprecompiled : vm.precompiled addr = none) :
    ∃ w₂, applyMessageOnEVM vm fuel beneficiary msg w = .ok r w₂ ∧
      w₂.state.view = w'.state.view.bump msg.sender := by
  have hrun : ∀ t : StateDB, Yields (Evm.run vm (Evm.interpret vm fuel) 0 false
      { callerAddress := msg.sender, self := addr, value := msg.value, code := (v.get addr).code,
        codeAddr := addr, input := msg.data, gas := gas }) t ⟨[], gas, none⟩
      fun t' => t'.view = t.view := by
    intro t
    simp only [Evm.run, hprecompiled, h.code, hempty, if_true]
    exact pure rfl
  obtain ⟨w₂, hok, hat⟩ := yields_transitionOnEVM h.recipient beneficiary ⟨h.view, rfl⟩ h.sender
    h.solvent rfl hrun
  refine ⟨w₂, ?_, ?_⟩
  · rw [(h.ways vm fuel).2, hok, h.result]
  · rw [hat.view, h.after]

omit h

end CarriedOut

end Messages

end Comparison

/-! ### A contract that is not run -/

namespace Contracts

open scoped Payments

/-- A contract without balance, with the hash of its code. -/
def contract : Account := { Payments.owner 0 with codeHash := setBytes 32 [1] }

/-- The payee is a contract. -/
def state : StateDB :=
  StateDB.new ((∅ : Finmap fun _ : Address => Account).insert Payments.payer
    (Payments.owner 1000000) |>.insert Payments.payee contract)
    ((∅ : Finmap fun _ : Hash => Bytes).insert contract.codeHash [1])

/-- A machine whose contracts write to their storage and stop. -/
def writer : Machine where
  State := Bool
  start _ := false
  next written :=
    if written then .halt ⟨[], 0, none⟩
    else .request (.setState (zero 32) (setBytes 32 [1]))
  resume _ _ := true
  precompiled _ := none

/-- What is compared: the storage of the contract and the nonce of the sender. -/
def observed (w : World) : Hash × UInt64 :=
  ((w.state.getState Payments.payee (zero 32)).1, (w.state.getNonce Payments.payer).1)

end Contracts
