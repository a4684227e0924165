/-
**The native way conserves value.**

A message on the native way moves money in five steps: the gas is bought, the value is transferred,
the unused gas is paid back, the refund is paid, and the beneficiary gets the fee.  The sender, the
recipient and the beneficiary may be the same account in any way.  Taken together the steps charge
the sender the value and the fee, credit the recipient with the value and the beneficiary with the
fee, and nothing else: no balance gets negative, and the sum of all balances stays the same.

Main results:

* `native_conserves_value` — **a successful message on the native way conserves value**.
-/

import GoHpb.EvmClosure
import GoHpb.MessageView

open FailState StateTransition Finset

/-- The sum of all balances. -/
def StateDB.totalBalance (st : StateDB) : ℤ :=
  ∑ a ∈ st.trie.keys ∪ st.stateObjects.keys, (st.getBalance a).1

theorem StateDB.totalBalance_eq_sum {st : StateDB} {accounts : Finset Address}
    (h : st.trie.keys ∪ st.stateObjects.keys ⊆ accounts) :
    st.totalBalance = ∑ a ∈ accounts, (st.getBalance a).1 := by
  refine sum_subset h fun a _ ha => ?_
  rw [notMem_union, Finmap.mem_keys, Finmap.mem_keys] at ha
  have hlive : st.live a = none := by
    rw [live_eq, Finmap.lookup_eq_none.2 ha.2, Finmap.lookup_eq_none.2 ha.1]
    rfl
  rw [getBalance, hlive]
  rfl

theorem StateDB.totalBalance_of_moved {st st' : StateDB} {sender recipient beneficiary : Address}
    {value fee : ℤ}
    (h : ∀ a, (st'.getBalance a).1 = (st.getBalance a).1 - (if a = sender then value + fee else 0) +
      (if a = recipient then value else 0) + if a = beneficiary then fee else 0) :
    st'.totalBalance = st.totalBalance := by
  -- both sums run over the accounts of both states and the three parties
  obtain ⟨accounts, haccounts⟩ : ∃ accounts : Finset Address, accounts =
      (st.trie.keys ∪ st.stateObjects.keys) ∪ (st'.trie.keys ∪ st'.stateObjects.keys) ∪
        {sender, recipient, beneficiary} := ⟨_, rfl⟩
  have hbefore : st.trie.keys ∪ st.stateObjects.keys ⊆ accounts := by
    rw [haccounts]
    exact subset_union_left.trans subset_union_left
  have hafter : st'.trie.keys ∪ st'.stateObjects.keys ⊆ accounts := by
    rw [haccounts]
    exact subset_union_right.trans subset_union_left
  have hparties : ∀ a ∈ ({sender, recipient, beneficiary} : Finset Address), a ∈ accounts := by
    intro a ha
    rw [haccounts]
    exact mem_union_right _ ha
  rw [totalBalance_eq_sum hafter, totalBalance_eq_sum hbefore, sum_congr rfl fun a _ => h a,
    sum_add_distrib, sum_add_distrib, sum_sub_distrib, sum_ite_eq',
    sum_ite_eq', sum_ite_eq', if_pos (hparties _ (by simp)),
    if_pos (hparties _ (by simp)), if_pos (hparties _ (by simp))]
  ring

section Conservation

variable [Crypto]

namespace View

variable {v : View} {msg : Message} {gas : UInt64}

/-- The balances after the fees: the sender gets back the price of the gas that is left, and the
beneficiary gets that of the gas that was used. -/
theorem balance_payFees (hrefund : 0 ≤ v.refund) (hgas : gas.toNat ≤ msg.gas)
    (hbig : msg.gas < 2 ^ 64) (beneficiary a : Address) :
    ((v.payFees msg beneficiary gas).get a).balance = (v.get a).balance +
        (if a = msg.sender then (v.gasAfter msg gas).toNat * msg.gasPrice else 0) +
        if a = beneficiary then gasUsed msg (v.gasAfter msg gas) * msg.gasPrice else 0 := by
  have hleft := toNat_gasAfter hrefund hgas hbig
  simp only [payFees, balance_addBalance, get_spendRefund, get_ensure]
  rw [hleft]
  split_ifs <;> ring

/-- **The balances after a message on the native way.** -/
theorem balance_native (hrefund : 0 ≤ v.refund) (hgas : gas.toNat ≤ msg.gas)
    (hbig : msg.gas < 2 ^ 64) (recipient beneficiary a : Address) :
    (((((v.ensure msg.sender).subBalance msg.sender (msg.gas * msg.gasPrice)).ensure
      recipient).move msg.sender recipient msg.value).payFees msg beneficiary gas
      |>.get a).balance =
      (v.get a).balance -
        (if a = msg.sender then msg.value + gasUsed msg (v.gasAfter msg gas) * msg.gasPrice
          else 0) +
        (if a = recipient then msg.value else 0) +
        if a = beneficiary then gasUsed msg (v.gasAfter msg gas) * msg.gasPrice else 0 := by
  refine (balance_payFees ?_ hgas hbig beneficiary a).trans ?_
  · exact hrefund
  simp only [move, balance_addBalance, balance_subBalance, get_ensure]
  change (v.get a).balance - (if a = msg.sender then ↑msg.gas * msg.gasPrice else 0) -
    (if a = msg.sender then msg.value else 0) + (if a = recipient then msg.value else 0) +
    (if a = msg.sender then (v.gasAfter msg gas).toNat * msg.gasPrice else 0) +
    (if a = beneficiary then gasUsed msg (v.gasAfter msg gas) * msg.gasPrice else 0) = _
  rw [gasUsed]
  split_ifs <;> ring

end View

/-- **A successful message on the native way conserves value**: the sender is charged the value and
the fee, the recipient is credited with the value and the beneficiary with the fee, no balance gets
negative, and the sum of all balances stays the same. -/
theorem native_conserves_value {vm : Machine} {fuel : ℕ} {beneficiary : Address} {msg : Message}
    {w w' : World} {ret : Bytes} {used : ℤ} {failed : Bool} (hstate : w.state.Lawful)
    (hbalances : ∀ a, 0 ≤ (w.state.getBalance a).1) (hvalue : 0 ≤ msg.value)
    (hprice : 0 ≤ msg.gasPrice) (hnative : msg.native w.state = true)
    (hok : applyMessage vm fuel beneficiary msg w = EStateM.Result.ok (ret, used, failed) w') :
    ∃ recipient, msg.recipient = some recipient ∧ w'.state.totalBalance = w.state.totalBalance ∧
      (∀ a, 0 ≤ (w'.state.getBalance a).1) ∧ ∀ a, (w'.state.getBalance a).1 =
        (w.state.getBalance a).1 - (if a = msg.sender then msg.value + used * msg.gasPrice else 0) +
          (if a = recipient then msg.value else 0) +
          if a = beneficiary then used * msg.gasPrice else 0 := by
  obtain ⟨recipient, gas, w₁, hto, hbig, hgas, hbuy, hat, hrun⟩ :=
    applyMessage_native_eq_ok rfl hnative hok
  have hrefund : 0 ≤ w.state.view.refund := hstate.refund_nonneg
  -- the transfer was possible, so what the message left is known
  have hsolvent : msg.value ≤ (((w.state.view.ensure msg.sender).subBalance msg.sender
      (msg.gas * msg.gasPrice)).get msg.sender).balance := by
    by_contra hinsolvent
    obtain ⟨w₂, herror⟩ := transitionOnNative_insolvent hto beneficiary gas hat.view
      (not_le.1 hinsolvent)
    rw [herror] at hrun
    cases hrun
  obtain ⟨w₂, hyield, hat₂⟩ := yields_transitionOnNative hto beneficiary gas hat hsolvent
  rw [hyield] at hrun
  cases hrun
  have hafter : ∀ a, (w'.state.getBalance a).1 = (w.state.getBalance a).1 - (if a = msg.sender then
          msg.value + gasUsed msg (w.state.view.gasAfter msg gas) * msg.gasPrice else 0) +
        (if a = recipient then msg.value else 0) +
        if a = beneficiary then gasUsed msg (w.state.view.gasAfter msg gas) * msg.gasPrice
          else 0 := by
    intro a
    rw [StateDB.getBalance_eq, StateDB.getBalance_eq, hat₂.view]
    exact View.balance_native hrefund hgas hbig recipient beneficiary a
  obtain ⟨hlow, hhigh⟩ := View.refundOf_bounds hrefund hgas
  have hleft := View.toNat_gasAfter hrefund hgas hbig
  have hused : 0 ≤ gasUsed msg (w.state.view.gasAfter msg gas) ∧
      gasUsed msg (w.state.view.gasAfter msg gas) ≤ msg.gas := by
    unfold gasUsed at hhigh ⊢
    omega
  refine ⟨recipient, hto, ?_, fun a => ?_, hafter⟩
  · exact StateDB.totalBalance_of_moved hafter
  -- the sender had at least the price of all its gas and the value
  have hcharged : 0 ≤ (w.state.getBalance a).1 - if a = msg.sender then
        msg.value + gasUsed msg (w.state.view.gasAfter msg gas) * msg.gasPrice else 0 := by
    split_ifs with ha
    · rw [View.balance_subBalance, View.get_ensure, if_pos rfl] at hsolvent
      have hfee : gasUsed msg (w.state.view.gasAfter msg gas) * msg.gasPrice ≤
          msg.gas * msg.gasPrice := mul_le_mul_of_nonneg_right hused.2 hprice
      rw [ha, StateDB.getBalance_eq]
      linarith
    · rw [sub_zero]
      exact hbalances a
  have hcredited : 0 ≤ if a = recipient then msg.value else 0 := by
    split_ifs
    · exact hvalue
    · exact le_rfl
  have hfee : 0 ≤ if a = beneficiary then
      gasUsed msg (w.state.view.gasAfter msg gas) * msg.gasPrice else 0 := by
    split_ifs
    · exact mul_nonneg hused.1 hprice
    · exact le_rfl
  rw [hafter a]
  exact add_nonneg (add_nonneg hcharged hcredited) hfee

end Conservation

open Payments in
/-- The payment of the payer to the payee. -/
theorem native_conserves_payment :
    returned (applyMessage plain 0 beneficiary payment
      ⟨state, 1000⟩) = Except.ok ([], 10, false) ∧
    (worldAfter (applyMessage plain 0 beneficiary payment
      ⟨state, 1000⟩)).state.totalBalance = state.totalBalance := by
  have hrun : returned (applyMessage plain 0 beneficiary payment
      ⟨state, 1000⟩) = .ok ([], 10, false) := by decide
  have hbalances : ∀ a, 0 ≤ (state.getBalance a).1 := by
    intro a
    have hlive : state.live a = (state.trie.lookup a).map newObject := by
      rw [StateDB.live_eq]
      rfl
    rw [StateDB.getBalance, hlive]
    by_cases hpayee : a = payee
    · subst hpayee
      decide
    by_cases hpayer : a = payer
    · subst hpayer
      decide
    · simp [state, StateDB.new, Finmap.lookup_insert_of_ne _ hpayee,
        Finmap.lookup_insert_of_ne _ hpayer]
  obtain ⟨recipient, -, htotal, -⟩ := native_conserves_value (w := ⟨state, 1000⟩)
    (.new _ _) hbalances (by decide) (by decide) (by decide)
    (eq_ok_of_returned hrun)
  exact ⟨hrun, htotal⟩
