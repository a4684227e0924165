/-
**What a message does to the view of the state.**

The programs of a state transition, read on views: which account they make exist, what they charge
and pay, and what they return.  All of them but the checks always succeed, so that each has an
equation: from every state it returns a value that is given, and leads to a view that is given.

Main results:

* `exec_payFees`, `exec_transitionOnNative` — **the end of a message and the native way, on views**.
-/

import GoHpb.StateView
import GoHpb.SenderNonce

open FailState StateTransition StateDB Yields

section Effects

variable [Crypto]

/-! ### Accounts of a view -/

namespace View

variable {v : View} {a b : Address} {x : AccountView}

theorem get_set (v : View) (a b : Address) (x : AccountView) :
    (v.set a (some x)).get b = if b = a then x else v.get b := by
  by_cases h : b = a
  · subst h
    rw [if_pos rfl, get, account_set, Option.getD_some]
  · rw [if_neg h, get, get, account_set_of_ne h]

/-- The account exists, as it was or as a new one. -/
def ensure (v : View) (a : Address) : View := v.set a (some (v.get a))

theorem ensure_of_account (h : v.account a = some x) : v.ensure a = v := by
  rw [ensure, get_of_account h, set_self h]

@[simp] theorem account_ensure (v : View) (a : Address) :
    (v.ensure a).account a = some (v.get a) := account_set

@[simp] theorem get_ensure (v : View) (a b : Address) : (v.ensure a).get b = v.get b := by
  rw [ensure, get_set]
  split_ifs with h
  · rw [h]
  · rfl

@[simp] theorem ensure_ensure (v : View) (a : Address) : (v.ensure a).ensure a = v.ensure a :=
  ensure_of_account (account_ensure v a)

theorem createAccount_of_none (h : v.account a = none) : v.createAccount a = v.ensure a := by
  have hget : v.get a = AccountView.fresh := by
    rw [get, h]
    rfl
  rw [createAccount, ensure, hget]

variable (v)

@[simp] theorem balance_addBalance (a b : Address) (amount : ℤ) :
    ((v.addBalance a amount).get b).balance = (v.get b).balance + if b = a then amount else 0 := by
  rw [addBalance, setBalance, get_set]
  split_ifs with h
  · rw [h]
  · rw [add_zero]

@[simp] theorem balance_subBalance (a b : Address) (amount : ℤ) :
    ((v.subBalance a amount).get b).balance = (v.get b).balance - if b = a then amount else 0 := by
  rw [subBalance, setBalance, get_set]
  split_ifs with h
  · rw [h]
  · rw [sub_zero]

@[simp] theorem refund_addBalance (a : Address) (amount : ℤ) :
    (v.addBalance a amount).refund = v.refund := rfl

@[simp] theorem refund_subBalance (a : Address) (amount : ℤ) :
    (v.subBalance a amount).refund = v.refund := rfl

/-- A transfer. -/
def move (sender recipient : Address) (amount : ℤ) : View :=
  (v.subBalance sender amount).addBalance recipient amount

/-! ### The end of a message -/

variable (msg : Message) (gas : UInt64)

/-- The refund: the refund counter, but half of the used gas at most. -/
def refundOf : ℤ :=
  if v.refund < gasUsed msg gas / 2 then v.refund else gasUsed msg gas / 2

/-- The gas that is left after the refund. -/
def gasAfter : UInt64 :=
  gas + UInt64.ofNat (v.refundOf msg gas).natAbs

/-- The refund counter after the refund has been multiplied in place. -/
def spendRefund : View :=
  { v with refund := if v.refund < gasUsed msg gas / 2 then v.refund * msg.gasPrice else v.refund }

@[simp] theorem get_spendRefund (a : Address) :
    (v.spendRefund msg gas).get a = v.get a := rfl

/-- The sender gets back what was not used, and the beneficiary gets the rest. -/
def payFees (msg : Message) (beneficiary : Address) (gas : UInt64) : View :=
  ((((v.ensure msg.sender).addBalance msg.sender (gas.toNat * msg.gasPrice)).spendRefund msg
    gas).addBalance msg.sender (v.refundOf msg gas * msg.gasPrice)).addBalance beneficiary
      (gasUsed msg (v.gasAfter msg gas) * msg.gasPrice)

variable {v}

omit [Crypto] in
theorem refundOf_bounds {msg : Message} {gas : UInt64} (hrefund : 0 ≤ v.refund)
    (hgas : gas.toNat ≤ msg.gas) :
    0 ≤ v.refundOf msg gas ∧ v.refundOf msg gas ≤ gasUsed msg gas / 2 := by
  unfold refundOf gasUsed
  split_ifs <;> omega

omit [Crypto] in
theorem toNat_gasAfter {msg : Message} {gas : UInt64} (hrefund : 0 ≤ v.refund)
    (hgas : gas.toNat ≤ msg.gas) (hbig : msg.gas < 2 ^ 64) :
    ((v.gasAfter msg gas).toNat : ℤ) = gas.toNat + v.refundOf msg gas := by
  obtain ⟨hlow, hhigh⟩ := refundOf_bounds hrefund hgas
  unfold gasUsed at hhigh
  have hsmall : (v.refundOf msg gas).natAbs < 2 ^ 64 := by omega
  rw [gasAfter, UInt64.toNat_add, UInt64.toNat_ofNat_of_lt' hsmall]
  omega

end View

/-! ### Programs on views -/

section Programs

variable {α : Type} {st : StateDB} {w : World} {msg : Message} {v v' : View} {a : α}

/-- The state has this view, and the gas pool has this size. -/
structure World.At (w : World) (v : View) (gasPool : ℕ) : Prop where
  view : w.state.view = v
  gasPool : w.gasPool = gasPool

variable {addr : Address} {gasPool : ℕ}

theorem yields_onState {x : Exec α} (hw : w.At v gasPool)
    (h : ∀ st : StateDB, st.view = v → Yields x st a fun st' => st'.view = v') :
    Yields (onState x) w a fun w' => w'.At v' gasPool :=
  (h w.state hw.view).zoom fun _ hst => ⟨hst, hw.gasPool⟩

theorem yields_createMissing {known : Bool}
    (hknown : known = (v.account addr).isSome) (hst : st.view = v) :
    Yields (Evm.createMissing known addr) st () fun st' => st'.view = v.ensure addr := by
  cases haccount : v.account addr with
  | some x =>
    rw [hknown, haccount]
    refine pure ?_
    rw [hst, View.ensure_of_account haccount]
  | none =>
    rw [hknown, haccount]
    refine modify ?_
    rw [view_createAccount, hst, View.createAccount_of_none haccount]

theorem yields_exist (addr : Address) (hst : st.view = v) :
    Yields (operate fun st => st.exist addr : Exec Bool) st (v.account addr).isSome
      fun st' => st'.view = v := by
  refine operate ?_ (view_load.trans hst)
  rw [exist_eq, hst]

theorem yields_ensureExists (addr : Address) (hst : st.view = v) :
    Yields (ensureExists addr) st () fun st' => st'.view = v.ensure addr :=
  (yields_exist addr hst).bind fun _ hst' => yields_createMissing rfl hst'

theorem yields_toAccount (hto : msg.recipient = some addr) (hst : st.view = v) :
    Yields (toAccount msg) st addr fun st' => st'.view = v.ensure addr := by
  unfold toAccount
  rw [hto]
  exact (yields_ensureExists addr hst).bind fun _ hst' => pure hst'

variable (addr)

theorem yields_getBalance (hst : st.view = v) :
    Yields (operate fun st => st.getBalance addr : Exec ℤ) st (v.get addr).balance
      fun st' => st'.view = v := by
  refine operate ?_ (view_load.trans hst)
  rw [getBalance_eq, hst]

theorem yields_getNonce (hst : st.view = v) :
    Yields (operate fun st => st.getNonce addr : Exec UInt64) st (v.get addr).nonce
      fun st' => st'.view = v := by
  refine operate ?_ (StateDB.view_load.trans hst)
  rw [StateDB.getNonce_eq, hst]

theorem yields_canTransfer (amount : ℤ) (hst : st.view = v) :
    Yields (Evm.canTransfer addr amount) st (decide (amount ≤ (v.get addr).balance))
      fun st' => st'.view = v :=
  (yields_getBalance addr hst).bind fun _ hst' => pure hst'

theorem yields_addBalance (amount : ℤ) (hst : st.view = v) :
    Yields (modifyThe StateDB fun st => st.addBalance addr amount : Exec Unit) st ()
      fun st' => st'.view = v.addBalance addr amount := by
  refine modify ?_
  rw [view_addBalance, hst]

theorem yields_subBalance (amount : ℤ) (hst : st.view = v) :
    Yields (modifyThe StateDB fun st => st.subBalance addr amount : Exec Unit) st ()
      fun st' => st'.view = v.subBalance addr amount := by
  refine modify ?_
  rw [view_subBalance, hst]

variable {addr}

theorem yields_transfer (sender recipient : Address) (amount : ℤ) (hst : st.view = v) :
    Yields (Evm.transfer sender recipient amount) st ()
      fun st' => st'.view = v.move sender recipient amount :=
  (yields_subBalance sender amount hst).bind fun _ hst' => yields_addBalance recipient amount hst'

theorem yields_refundCounter (msg : Message) (gas : UInt64) (hst : st.view = v) :
    Yields (operate (refundCounter msg gas) : Exec ℤ) st (v.refundOf msg gas)
      fun st' => st'.view = v.spendRefund msg gas := by
  have hrefund : v.refund = st.refund := by
    rw [← hst]
    rfl
  unfold View.refundOf View.spendRefund
  by_cases hless : st.refund < gasUsed msg gas / 2
  · simp only [hrefund, if_pos hless]
    refine operate (by simp [refundCounter, hless]) ?_
    simp only [refundCounter, if_pos hless]
    obtain ⟨haccount, -, hrest⟩ := view_eq_iff.1 hst
    exact view_eq_iff.2
      ⟨Eq.trans (b := st.view.account) (account_view_congr rfl rfl rfl) haccount, rfl, hrest⟩
  · simp only [hrefund, if_neg hless]
    refine operate (by simp [refundCounter, hless]) ?_
    simp only [refundCounter, if_neg hless]
    rw [hst, ← hrefund]

/-- **The end of a message.** -/
theorem yields_payFees (beneficiary : Address) (gas : UInt64) (hw : w.At v gasPool) :
    Yields (payFees msg beneficiary gas) w (gasUsed msg (v.gasAfter msg gas)) fun w' =>
      w'.At (v.payFees msg beneficiary gas) (gasPool + (v.gasAfter msg gas).toNat) := by
  have hrefundGas : Yields (refundGas msg gas) w (v.gasAfter msg gas) fun w' =>
      w'.At ((((v.ensure msg.sender).addBalance msg.sender (gas.toNat * msg.gasPrice)).spendRefund
        msg gas).addBalance msg.sender (v.refundOf msg gas * msg.gasPrice))
        (gasPool + (v.gasAfter msg gas).toNat) := by
    refine (yields_onState hw fun _ => yields_ensureExists msg.sender).bind fun _ h₁ => ?_
    refine (yields_onState h₁ fun _ => yields_addBalance _ _).bind fun _ h₂ => ?_
    -- the refund counter has not changed since the start
    have hsame : ((v.ensure msg.sender).addBalance msg.sender (gas.toNat * msg.gasPrice)).refundOf
        msg gas = v.refundOf msg gas := rfl
    refine (yields_onState h₂ fun _ => yields_refundCounter msg gas).bind fun _ h₃ => ?_
    rw [hsame]
    refine (yields_onState h₃ fun _ => yields_addBalance _ _).bind fun _ h₄ => ?_
    generalize View.addBalance _ msg.sender (v.refundOf msg gas * msg.gasPrice) = v₄ at h₄ ⊢
    refine bind (Q := fun w' => w'.At v₄ (gasPool + (v.gasAfter msg gas).toNat))
      (modify ⟨h₄.view, ?_⟩) fun _ h₅ => pure h₅
    rw [h₄.gasPool]
    rfl
  refine hrefundGas.bind fun _ h₁ => ?_
  exact (yields_onState h₁ fun _ => yields_addBalance _ _).bind fun _ h₂ => pure h₂

/-- **The native way**: the value is moved, and the fees are paid. -/
theorem yields_transitionOnNative (hto : msg.recipient = some addr) (beneficiary : Address)
    (gas : UInt64) (hw : w.At v gasPool) (hsolvent : msg.value ≤ (v.get msg.sender).balance) :
    Yields (transitionOnNative msg beneficiary gas) w
      ([], gasUsed msg (v.gasAfter msg gas), false) fun w' =>
        w'.At (((v.ensure addr).move msg.sender addr msg.value).payFees msg beneficiary gas)
          (gasPool + (v.gasAfter msg gas).toNat) := by
  refine (yields_onState hw fun _ => yields_toAccount hto).bind fun _ h₁ => ?_
  refine (yields_onState h₁ fun _ => yields_canTransfer _ _).bind fun _ h₂ => ?_
  rw [View.get_ensure, decide_eq_true hsolvent]
  refine (yields_onState h₂ fun _ => yields_toAccount hto).bind fun _ h₃ => ?_
  rw [View.ensure_ensure] at h₃
  refine (yields_onState h₃ fun _ => yields_exist addr).bind fun _ h₄ => ?_
  refine (yields_onState h₄ fun _ => yields_createMissing rfl).bind fun _ h₅ => ?_
  rw [View.ensure_ensure] at h₅
  refine (yields_onState h₅ fun _ => yields_transfer _ _ _).bind fun _ h₆ => ?_
  exact (yields_payFees beneficiary gas h₆).bind fun _ h₇ => pure h₇

theorem transitionOnNative_insolvent (hto : msg.recipient = some addr) (beneficiary : Address)
    (gas : UInt64) (hw : w.state.view = v) (hinsolvent : (v.get msg.sender).balance < msg.value) :
    ∃ w', transitionOnNative msg beneficiary gas w = .error .errInsufficientBalance w' := by
  have hat : w.At v w.gasPool := ⟨hw, rfl⟩
  obtain ⟨w₁, h₁, hat₁⟩ := yields_onState hat fun _ => yields_toAccount hto
  obtain ⟨w₂, h₂, -⟩ := yields_onState hat₁ fun _ => yields_canTransfer msg.sender msg.value
  refine ⟨w₂, ?_⟩
  unfold transitionOnNative
  rw [bind_ok h₁, bind_ok h₂, View.get_ensure, decide_eq_false (not_le.2 hinsolvent)]
  rfl

/-- What `preCheck` asks for: the nonce is the one of the sender, the gas is a 64-bit number, and
the sender and the block can afford it. -/
structure Message.Affordable (msg : Message) (v : View) (gasPool : ℕ) : Prop where
  nonce : msg.checkNonce = true → (v.get msg.sender).nonce = msg.nonce
  small : msg.gas < 2 ^ 64
  balance : msg.gas * msg.gasPrice ≤ (v.get msg.sender).balance
  pool : msg.gas ≤ gasPool

/-- **What a message has passed and paid before it runs**, and what is left if it is refused. -/
theorem spec_preCheck : Spec (fun w => w.At v gasPool) (preCheck msg)
      (fun gas w => msg.Affordable v gasPool ∧ gas = UInt64.ofNat msg.gas ∧
        w.At ((v.ensure msg.sender).subBalance msg.sender (msg.gas * msg.gasPrice))
          (gasPool - msg.gas))
      fun _ w => ¬ msg.Affordable v gasPool ∧ w.gasPool = gasPool := by
  refine Spec.after (fun _ hw => yields_onState hw fun _ => yields_ensureExists msg.sender) ?_
  refine Spec.after (fun _ hw => yields_onState hw fun _ => yields_getNonce msg.sender) ?_
  rw [View.get_ensure]
  split_ifs with hhigh hlow
  · refine Spec.throw fun w hw => ⟨fun h => ?_, hw.gasPool⟩
    simp only [Bool.and_eq_true, decide_eq_true_eq] at hhigh
    exact UInt64.ne_of_lt hhigh.2 (h.nonce hhigh.1)
  · refine Spec.throw fun w hw => ⟨fun h => ?_, hw.gasPool⟩
    simp only [Bool.and_eq_true, decide_eq_true_eq] at hlow
    exact UInt64.ne_of_lt hlow.2 (h.nonce hlow.1).symm
  have hnonce : msg.checkNonce = true → (v.get msg.sender).nonce = msg.nonce := by
    intro hcheck
    simp only [hcheck, Bool.true_and, decide_eq_true_eq, UInt64.not_lt] at hhigh hlow
    exact UInt64.le_antisymm hlow hhigh
  unfold buyGas
  split_ifs with hbig
  · exact Spec.throw fun w hw => ⟨fun h => absurd h.small (not_lt.2 hbig), hw.gasPool⟩
  refine Spec.after (fun _ hw => yields_onState hw fun _ => yields_ensureExists msg.sender) ?_
  refine Spec.after (fun _ hw => yields_onState hw fun _ => yields_getBalance msg.sender) ?_
  rw [View.ensure_ensure, View.get_ensure]
  refine Spec.after (fun w hw => ⟨w, congrArg (EStateM.Result.ok · w) hw.gasPool, hw⟩) ?_
  split_ifs with hbalance hlimit
  · exact Spec.throw fun w hw => ⟨fun h => absurd h.balance (not_le.2 hbalance), hw.gasPool⟩
  · exact Spec.throw fun w hw => ⟨fun h => absurd h.pool (not_le.2 hlimit), hw.gasPool⟩
  refine Spec.bind (Spec.modify (Q := fun _ w => w.At (v.ensure msg.sender) (gasPool - msg.gas))
    fun w hw => ⟨hw.view, congrArg (· - msg.gas) hw.gasPool⟩) fun _ => ?_
  refine Spec.after (fun _ hw => yields_onState hw fun _ => yields_subBalance _ _) ?_
  exact Spec.pure fun w hw =>
    ⟨⟨hnonce, not_le.1 hbig, not_lt.1 hbalance, not_lt.1 hlimit⟩, rfl, hw⟩

/-- **A successful message on the native way.** -/
theorem applyMessage_native_eq_ok {vm : Machine} {fuel : ℕ} {beneficiary : Address}
    {r : Bytes × ℤ × Bool} {w' : World} (hw : w.state.view = v)
    (hnative : msg.native w.state = true) (h : applyMessage vm fuel beneficiary msg w = .ok r w') :
    ∃ (addr : Address) (gas : UInt64) (w₁ : World),
      msg.recipient = some addr ∧ msg.gas < 2 ^ 64 ∧ gas.toNat ≤ msg.gas ∧
      msg.gas * msg.gasPrice ≤ (v.get msg.sender).balance ∧
      w₁.At ((v.ensure msg.sender).subBalance msg.sender (msg.gas * msg.gasPrice))
        (w.gasPool - msg.gas) ∧ transitionOnNative msg beneficiary gas w₁ = .ok r w' := by
  obtain ⟨native, w₁, h₁, hchecked⟩ := bind_eq_ok.1 h
  obtain ⟨bought, w₂, h₂, hrun⟩ := bind_eq_ok.1 hchecked
  obtain ⟨st₁, hchoice, rfl⟩ := zoom_eq_ok.1 h₁
  obtain ⟨rfl, hst₁⟩ := isNative_eq_ok hchoice
  have hview : st₁.view = v := by
    rcases hst₁ with rfl | rfl
    · exact hw
    · exact view_load.trans hw
  obtain ⟨⟨-, hbig, hbalance, -⟩, rfl, hat⟩ := spec_preCheck.of_ok (show World.At _ v _ from
    ⟨hview, rfl⟩) h₂
  obtain ⟨addr, hto⟩ := Option.isSome_iff_exists.1 (Bool.and_eq_true_iff.1 hnative).1
  rw [hnative] at hrun
  split_ifs at hrun with hlarge hintrinsic
  · cases hrun
  · cases hrun
  · refine ⟨addr, _, w₂, hto, hbig, ?_, hbalance, hat, hrun⟩
    have hle := UInt64.toNat_sub_of_le _ _ (UInt64.not_lt.1 hintrinsic)
    rw [hle, UInt64.toNat_ofNat_of_lt' hbig]
    exact Nat.sub_le _ _
  · exact absurd rfl ‹¬true = true›

end Programs

end Effects
