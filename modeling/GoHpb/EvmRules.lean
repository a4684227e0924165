/-
**What contracts keep.**

Messages and contracts reach the world state only through its operations.  An assertion about the
state that payments keep is therefore kept by a message without code; one that all operations keep
that a contract may cause is kept by everything that is built from them: the ways to enter a
contract, the interpreter with any instruction set, and the processing of a message, whether it
returns or fails.  The assertions come in families, since what holds after a frame has failed is
said from the state in which its snapshot was taken.

On the way the gas is followed: a machine that counts its gas never returns more than it was given.

Main results:

* `Evm.Guard.keeps_interpret` — **every run of the interpreter keeps the assertions**, by induction
  on the fuel.
-/

import GoHpb.StateSteps
import GoHpb.StateTransition

open FailState StateTransition

/-! ### Gas -/

/-- The gas that a request hands over. -/
def Request.gas : Request → UInt64
  | create _ gas _ => gas
  | call _ _ gas _ => gas
  | callCode _ _ gas _ => gas
  | delegateCall _ _ gas => gas
  | staticCall _ _ gas => gas
  | _ => 0

/-- The gas a machine has left: it does not grow when a request is answered, as long as no more gas
comes back than was handed over. -/
structure Meter (vm : Machine) where
  left : vm.State → UInt64
  start : ∀ contract, left (vm.start contract) ≤ contract.gas
  halt : ∀ {m out}, vm.next m = Instruction.halt out → out.gas ≤ left m
  suicide : ∀ {m beneficiary gas}, vm.next m = Instruction.suicide beneficiary gas → gas ≤ left m
  resume : ∀ {m r reply}, vm.next m = Instruction.request r →
    (∀ addr out, reply = Reply.result addr out → out.gas ≤ r.gas) →
    left (vm.resume m reply) ≤ left m

/-- A machine that counts its gas does not return more than it was given. -/
def Outcome.Within (vm : Machine) (gas : UInt64) (out : Outcome) : Prop :=
  Nonempty (Meter vm) → out.gas ≤ gas

namespace Outcome.Within

variable {vm : Machine} {gas gas' : UInt64} {out : Outcome}

theorem of_le (h : out.gas ≤ gas) : out.Within vm gas := fun _ => h

theorem less (h : out.Within vm gas) (hle : gas' ≤ out.gas) :
    ({ out with gas := gas' } : Outcome).Within vm gas := fun hmeter =>
  UInt64.le_trans hle (h hmeter)

end Outcome.Within

namespace Evm

theorem sub_le_self {a b : UInt64} (h : ¬ a < b) : a - b ≤ a := by
  rw [UInt64.le_iff_toNat_le, UInt64.toNat_sub_of_le _ _ (UInt64.not_lt.1 h)]
  exact Nat.sub_le _ _

theorem gas_runPrecompiledContract (p : Precompiled) (input : Bytes) (gas : UInt64) :
    (runPrecompiledContract p input gas).gas ≤ gas := by
  unfold runPrecompiledContract
  split_ifs with hgas
  · exact UInt64.le_refl gas
  split
  · exact sub_le_self hgas
  · exact sub_le_self hgas

variable [Crypto] {ι α : Type} {K E : ι → StateDB → Prop} {May Free : Address → Prop}

/-! ### Assertions that payments keep -/

/-- A family of assertions that payments keep, with what holds when a program fails.  An address
without an account is free. -/
structure Stable (K E : ι → StateDB → Prop) (Free : Address → Prop) : Prop where
  fails : ∀ {i st}, K i st → E i st
  free : ∀ {i st a}, K i st → st.live a = none → Free a
  pay : ∀ {i st st'} (op : StateOp), op.Payment Free → op.run st = some st' → K i st → K i st'

/-- What the assertions about the state say about the state and the gas pool. -/
abbrev MaintainsWorld (K E : ι → StateDB → Prop) (x : EStateM Abort World α) (I : α → Prop) :
    Prop :=
  Maintains (fun i (w : World) => K i w.state) (fun i (w : World) => E i w.state) x I

omit [Crypto] in
theorem maintains_onState {x : Exec α} {I : α → Prop} (h : Maintains K E x I) :
    MaintainsWorld K E (onState x) I := Maintains.zoom (fun _ _ => rfl) h

omit [Crypto] in
theorem spec_onState {x : Exec α} {I : α → Prop} {F : World → Prop} {i : ι} {n : ℕ}
    (h : Maintains K E x I) (hF : ∀ w : World, E i w.state → w.gasPool = n → F w) :
    Spec (fun w => K i w.state ∧ w.gasPool = n) (onState x)
      (fun a w => (K i w.state ∧ w.gasPool = n) ∧ I a) fun _ w => F w := by
  rintro w ⟨hst, hpool⟩
  have hspec := h i w.state hst
  simp only [onState, zoom]
  cases hx : x w.state with
  | ok a st =>
    rw [hx] at hspec
    exact ⟨⟨hspec.1, hpool⟩, hspec.2⟩
  | error e st =>
    rw [hx] at hspec
    exact hF _ hspec hpool

namespace Stable

variable (hK : Stable K E Free) {msg : Message}

include hK

theorem observe {g : StateDB → α} (a : Address) :
    Maintains K E (operate fun st => (g st, st.load a) : Exec α) fun _ => True :=
  Maintains.operate fun h => ⟨hK.pay (.lookUp a) trivial rfl h, trivial⟩

theorem keeps_exist (addr : Address) : Maintains K E (operate fun st => st.exist addr : Exec Bool)
      fun known => known = false → Free addr := by
  refine Maintains.operate fun {i st} h => ⟨hK.pay (.lookUp addr) trivial rfl h, ?_⟩
  intro hknown
  exact hK.free h (Option.not_isSome_iff_eq_none.1 (by simpa [StateDB.exist] using hknown))

theorem keeps_createMissing {known : Bool} {addr : Address} (h : known = false → Free addr) :
    Maintains K E (createMissing known addr) fun _ => True := by
  cases known with
  | true => exact Maintains.pure trivial
  | false => exact Maintains.modify (hK.pay (.createAccount addr) (h rfl) rfl)

variable (addr : Address) (amount : ℤ)

theorem keeps_canTransfer :
    Maintains K E (canTransfer addr amount) fun _ => True :=
  (hK.observe addr).bind fun _ _ => Maintains.pure trivial

theorem keeps_subBalance :
    Maintains K E (modifyThe StateDB fun st => st.subBalance addr amount : Exec Unit)
      fun _ => True :=
  Maintains.modify (hK.pay (.subBalance addr amount) trivial rfl)

theorem keeps_addBalance :
    Maintains K E (modifyThe StateDB fun st => st.addBalance addr amount : Exec Unit)
      fun _ => True :=
  Maintains.modify (hK.pay (.addBalance addr amount) trivial rfl)

theorem keeps_transfer (sender recipient : Address) (amount : ℤ) :
    Maintains K E (transfer sender recipient amount) fun _ => True :=
  (hK.keeps_subBalance sender amount).bind fun _ _ => hK.keeps_addBalance recipient amount

/-! ### Messages without code -/

theorem keeps_ensureExists (addr : Address) : Maintains K E (ensureExists addr) fun _ => True :=
  (hK.keeps_exist addr).bind fun _ h => hK.keeps_createMissing h

theorem keeps_toAccount (msg : Message) :
    Maintains K E (toAccount msg) fun a => a = msg.recipient.getD (FixedBytes.zero 20) := by
  unfold toAccount
  cases msg.recipient with
  | none => exact Maintains.pure rfl
  | some addr => exact (hK.keeps_ensureExists addr).bind fun _ _ => Maintains.pure rfl

theorem keeps_isNative (msg : Message) : Maintains K E (isNative msg) fun _ => True := by
  unfold isNative
  cases msg.recipient with
  | none => exact Maintains.pure trivial
  | some addr => exact (hK.observe msg.sender).bind fun _ _ => Maintains.pure trivial

theorem keeps_buyGas (msg : Message) : MaintainsWorld K E (buyGas msg) fun _ => True := by
  unfold buyGas
  split_ifs
  · exact Maintains.throw hK.fails _
  refine (maintains_onState (hK.keeps_ensureExists msg.sender)).bind fun _ _ => ?_
  refine (maintains_onState (hK.observe msg.sender)).bind fun balance _ => ?_
  refine Maintains.bind (I := fun _ => True)
    (Maintains.operate fun h => ⟨h, trivial⟩) fun gasPool _ => ?_
  split_ifs
  · exact Maintains.throw hK.fails _
  · exact Maintains.throw hK.fails _
  refine Maintains.bind (Maintains.modify id) fun _ _ => ?_
  exact (maintains_onState (hK.keeps_subBalance msg.sender _)).bind fun _ _ =>
    Maintains.pure trivial

theorem keeps_preCheck (msg : Message) : MaintainsWorld K E (preCheck msg) fun _ => True := by
  refine (maintains_onState (hK.keeps_ensureExists msg.sender)).bind fun _ _ => ?_
  refine (maintains_onState (hK.observe msg.sender)).bind fun nonce _ => ?_
  split_ifs
  · exact Maintains.throw hK.fails _
  · exact Maintains.throw hK.fails _
  · exact hK.keeps_buyGas msg

theorem keeps_payFees
    (hrefund : ∀ {i st}, K i st → K i { st with refund := st.refund * msg.gasPrice })
    (beneficiary : Address) (gas : UInt64) :
    MaintainsWorld K E (payFees msg beneficiary gas) fun _ => True := by
  have hcounter : Maintains K E (operate (refundCounter msg gas) : Exec ℤ) fun _ => True := by
    refine Maintains.operate fun {i st} h => ⟨?_, trivial⟩
    simp only [refundCounter]
    split_ifs
    · exact hrefund h
    · exact h
  have hgas : MaintainsWorld K E (refundGas msg gas) fun _ => True := by
    refine (maintains_onState (hK.keeps_ensureExists msg.sender)).bind fun _ _ => ?_
    refine (maintains_onState (hK.keeps_addBalance msg.sender _)).bind fun _ _ => ?_
    refine (maintains_onState hcounter).bind fun refund _ => ?_
    refine (maintains_onState (hK.keeps_addBalance msg.sender _)).bind fun _ _ => ?_
    exact Maintains.bind (Maintains.modify id) fun _ _ => Maintains.pure trivial
  refine hgas.bind fun gas _ => ?_
  exact (maintains_onState (hK.keeps_addBalance beneficiary _)).bind fun _ _ =>
    Maintains.pure trivial

theorem spec_transitionOnNative {i : ι} {n : ℕ} {beneficiary : Address} {gas : UInt64}
    {Q : ℤ → World → Prop} {F : World → Prop} (hF : ∀ w : World, E i w.state → w.gasPool = n → F w)
    (hfees : Spec (fun w => K i w.state ∧ w.gasPool = n) (payFees msg beneficiary gas) Q
      fun _ w => F w) :
    Spec (fun w => K i w.state ∧ w.gasPool = n) (transitionOnNative msg beneficiary gas)
      (fun r => Q r.2.1) fun _ w => F w := by
  refine Spec.bind (spec_onState (hK.keeps_toAccount msg) hF) fun target =>
    Spec.assume fun htarget => ?_
  refine Spec.bind (spec_onState (hK.keeps_canTransfer msg.sender msg.value) hF)
    fun solvent => Spec.assume fun _ => ?_
  split_ifs
  · exact Spec.throw fun w hw => hF w (hK.fails hw.1) hw.2
  refine Spec.bind (spec_onState (hK.keeps_toAccount msg) hF) fun again =>
    Spec.assume fun hagain => ?_
  refine Spec.bind (spec_onState (hK.keeps_exist again) hF) fun known =>
    Spec.assume fun hknown => ?_
  have hmissing : known = false → Free target := by
    rw [htarget, ← hagain]
    exact hknown
  refine Spec.bind (spec_onState (hK.keeps_createMissing hmissing) hF) fun _ =>
    Spec.assume fun _ => ?_
  refine Spec.bind (spec_onState (hK.keeps_transfer msg.sender target msg.value) hF)
    fun _ => Spec.assume fun _ => ?_
  exact Spec.bind hfees fun used => Spec.pure fun _ => id

end Stable

/-! ### Assertions that contracts keep -/

/-- A family of assertions that contracts keep.  An account whose code is not empty may act, and so
may a new one; a creation that passes the collision check takes a free address.  Going back to a
snapshot keeps an assertion, if another one of the family was kept since the snapshot. -/
structure Guard (K E : ι → StateDB → Prop) (May Free : Address → Prop) : Prop where
  fails : ∀ {i st}, K i st → E i st
  free : ∀ {i st a}, K i st → st.live a = none → Free a
  run : ∀ {i st st'} (op : StateOp), op.Permitted May Free → op.run st = some st' → K i st →
    K i st'
  may_free : ∀ {a}, Free a → May a
  may_code : ∀ {i st a}, K i st → (st.getCode a).1 ≠ [] → May a
  vacant : ∀ {i st a}, K i st → ¬ ((st.getNonce a).1 ≠ 0 ∨
    ((st.getCodeHash a).1 ≠ FixedBytes.zero 32 ∧ (st.getCodeHash a).1 ≠ emptyCodeHash)) → Free a
  nextNonce : ∀ {i st a}, May a → K i st → K i (st.setNonce a ((st.getNonce a).1 + 1))
  enter : ∀ {i st}, K i st → K i st.snapshot.2
  back : ∀ {i st}, K i st → ∃ j, K j st.snapshot.2 ∧
    ∀ {st' st''}, K j st' → st'.revertToSnapshot st.snapshot.1 = some st'' → K i st''

namespace Guard

variable (hG : Guard K E May Free)

include hG

theorem stable : Stable K E Free :=
  ⟨hG.fails, hG.free, fun op hop => hG.run op (StateOp.Payment.permitted hop)⟩

theorem keeps_getCode (addr : Address) :
    Maintains K E (operate fun st => st.getCode addr : Exec Bytes) fun code =>
      code ≠ [] → May addr :=
  Maintains.operate fun h => ⟨hG.run (.getCode addr) trivial rfl h, hG.may_code h⟩

theorem keeps_increaseNonce {addr : Address} (h : May addr) :
    Maintains K E (increaseNonce addr) fun _ => True := by
  intro i st hst
  have hload : K i (st.load addr) := hG.run (.lookUp addr) trivial rfl hst
  have hnonce : ((st.load addr).getNonce addr).1 = (st.getNonce addr).1 := by
    simp [StateDB.getNonce]
  have hset := hG.nextNonce h hload
  rw [hnonce] at hset
  exact ⟨hset, trivial⟩

theorem keeps_opSuicide {self : Address} (beneficiary : Address) (h : May self) :
    Maintains K E (opSuicide self beneficiary) fun _ => True :=
  (hG.stable.observe self).bind fun balance _ =>
    (hG.stable.keeps_addBalance beneficiary balance).bind fun _ _ =>
      Maintains.modify (hG.run (.suicide self) h rfl)

/-- **A body that runs above a snapshot**: if it fails, the state goes back to the snapshot. -/
theorem keeps_frame {body : Exec Outcome} {vm : Machine} {gas : UInt64}
    (h : Maintains K E body (Outcome.Within vm gas)) :
    Maintains K E (frame body) (Outcome.Within vm gas) := by
  intro i st hst
  obtain ⟨j, hj, hback⟩ := hG.back hst
  have hbody := h i _ (hG.enter hst)
  have hsince := h j _ hj
  have hframe : frame body st = (body >>= settle st.snapshot.1) st.snapshot.2 := rfl
  rw [hframe]
  cases hrun : body st.snapshot.2 with
  | error e st' =>
    rw [hrun] at hbody
    rw [bind_error hrun]
    exact hbody
  | ok out st' =>
    rw [hrun] at hbody hsince
    rw [bind_ok hrun, settle]
    cases out.err with
    | none => exact hbody
    | some err =>
      have hless : (if err = .errExecutionReverted then out.gas else 0) ≤ out.gas := by
        split_ifs
        · exact UInt64.le_refl _
        · exact UInt64.zero_le
      have hrevert : Spec (fun s => s = st') (revertToSnapshot st.snapshot.1) (fun _ s => K i s)
          fun _ s => E i s := by
        refine Spec.attempt ?_ ?_
        · rintro s s' rfl hs'
          exact hback hsince.1 hs'
        · rintro s rfl -
          exact hG.fails hbody.1
      exact Spec.bind hrevert (fun _ => Spec.pure fun s hs => ⟨hs, hbody.2.less hless⟩) st' rfl

/-! ### Entering a contract -/

section Calls

variable {vm : Machine} {interpret : ℕ → Bool → Contract → Exec Outcome}
  (hinterpret : ∀ depth readOnly contract, May contract.self →
    Maintains K E (interpret depth readOnly contract) (Outcome.Within vm contract.gas))
  {depth : ℕ} {readOnly : Bool}

include hinterpret

omit [Crypto] hG hinterpret in
theorem keeps_unused {α : Type} {a : α} {f : α → Outcome} {gas : UInt64} (h : (f a).gas = gas) :
    Maintains K E (pure a : Exec α) fun a => (f a).Within vm gas :=
  Maintains.pure (Outcome.Within.of_le (h ▸ UInt64.le_refl _))

omit [Crypto] hG in
theorem keeps_run {contract : Contract} (h : contract.code ≠ [] → May contract.self) :
    Maintains K E (Evm.run vm interpret depth readOnly contract)
      (Outcome.Within vm contract.gas) := by
  unfold Evm.run
  cases vm.precompiled contract.codeAddr with
  | some p => exact Maintains.pure (Outcome.Within.of_le (gas_runPrecompiledContract p _ _))
  | none =>
    by_cases hcode : contract.code = []
    · simp only [if_pos hcode]
      exact keeps_unused rfl
    · simp only [if_neg hcode]
      exact hinterpret _ _ _ (h hcode)

theorem keeps_enterCall (caller addr : Address) (input : Bytes) (gas : UInt64) (value : ℤ) :
    Maintains K E (enterCall vm interpret depth readOnly caller addr input gas value)
      (Outcome.Within vm gas) := by
  refine (hG.stable.keeps_exist addr).bind fun known hknown => ?_
  split_ifs
  · exact keeps_unused rfl
  refine (hG.stable.keeps_createMissing hknown).bind fun _ _ => ?_
  refine (hG.stable.keeps_transfer caller addr value).bind fun _ _ => ?_
  exact (hG.keeps_getCode addr).bind fun code hcode => keeps_run hinterpret hcode

theorem keeps_call (caller addr : Address) (input : Bytes) (gas : UInt64) (value : ℤ) :
    Maintains K E (call vm interpret depth readOnly caller addr input gas value)
      (Outcome.Within vm gas) := by
  unfold call
  split_ifs
  · exact keeps_unused rfl
  refine (hG.stable.keeps_canTransfer caller value).bind fun solvent _ => ?_
  split_ifs
  · exact keeps_unused rfl
  · exact hG.keeps_frame (hG.keeps_enterCall hinterpret caller addr input gas value)

theorem keeps_enterCode {self addr : Address} (callerAddress : Address) (input : Bytes)
    (gas : UInt64) (value : ℤ) (h : self = addr ∨ May self) :
    Maintains K E (enterCode vm interpret depth readOnly callerAddress self addr input gas value)
      (Outcome.Within vm gas) := by
  refine (hG.keeps_getCode addr).bind fun code hcode => keeps_run hinterpret fun hne => ?_
  rcases h with rfl | h
  · exact hcode hne
  · exact h

theorem keeps_callCode {caller : Address} (addr : Address) (input : Bytes) (gas : UInt64)
    (value : ℤ) (h : May caller) :
    Maintains K E (callCode vm interpret depth readOnly caller addr input gas value)
      (Outcome.Within vm gas) := by
  unfold callCode
  split_ifs
  · exact keeps_unused rfl
  refine (hG.stable.keeps_canTransfer caller value).bind fun solvent _ => ?_
  split_ifs
  · exact keeps_unused rfl
  · exact hG.keeps_frame (hG.keeps_enterCode hinterpret caller input gas value (.inr h))

theorem keeps_delegateCall {caller : Contract} (addr : Address) (input : Bytes) (gas : UInt64)
    (h : May caller.self) :
    Maintains K E (delegateCall vm interpret depth readOnly caller addr input gas)
      (Outcome.Within vm gas) := by
  unfold delegateCall
  split_ifs
  · exact keeps_unused rfl
  · exact hG.keeps_frame (hG.keeps_enterCode hinterpret _ input gas caller.value (.inr h))

theorem keeps_staticCall (caller addr : Address) (input : Bytes) (gas : UInt64) :
    Maintains K E (staticCall vm interpret depth caller addr input gas)
      (Outcome.Within vm gas) := by
  unfold staticCall
  split_ifs
  · exact keeps_unused rfl
  · exact hG.keeps_frame (hG.keeps_enterCode hinterpret caller input gas 0 (.inl rfl))

omit hinterpret in
theorem keeps_storeCode {contractAddr : Address} (h : Free contractAddr) {gas : UInt64}
    {out : Outcome} (hout : out.Within vm gas) :
    Maintains K E (storeCode contractAddr out) (Outcome.Within vm gas) := by
  unfold storeCode
  cases out.err with
  | some err => exact Maintains.pure hout
  | none =>
    split_ifs with hsize hgas
    · exact Maintains.pure hout
    · exact Maintains.pure hout
    refine Maintains.bind (Maintains.modify
      (hG.run (.setCode contractAddr out.ret) h rfl)) fun _ _ => ?_
    exact Maintains.pure (hout.less (sub_le_self hgas))

theorem keeps_enterCreate {contractAddr : Address} (h : Free contractAddr) (caller : Address)
    (code : Bytes) (gas : UInt64) (value : ℤ) :
    Maintains K E (enterCreate vm interpret depth readOnly caller contractAddr code gas value)
      (Outcome.Within vm gas) := by
  refine Maintains.bind (Maintains.modify
    (hG.run (.createAccount contractAddr) h rfl)) fun _ _ => ?_
  refine Maintains.bind (Maintains.modify (hG.run (.setNonce contractAddr 1) h rfl)) fun _ _ => ?_
  refine (hG.stable.keeps_transfer caller contractAddr value).bind fun _ _ => ?_
  refine (keeps_run hinterpret fun _ => hG.may_free h).bind fun out hout => ?_
  exact hG.keeps_storeCode h hout

theorem keeps_deploy (caller contractAddr : Address) (code : Bytes) (gas : UInt64) (value : ℤ) :
    Maintains K E (deploy vm interpret depth readOnly caller contractAddr code gas value)
      fun created => created.2.Within vm gas := by
  intro i st hst
  have hload : K i ((st.load contractAddr).load contractAddr) :=
    hG.run (.lookUp contractAddr) trivial rfl (hG.run (.lookUp contractAddr) trivial rfl hst)
  have hnonce : ((st.load contractAddr).getNonce contractAddr).1 =
      (st.getNonce contractAddr).1 := by
    simp [StateDB.getNonce]
  suffices hrest : Maintains K E (if ((st.load contractAddr).getNonce contractAddr).1 ≠ 0 ∨
          ((st.getCodeHash contractAddr).1 ≠ FixedBytes.zero 32 ∧
            (st.getCodeHash contractAddr).1 ≠ emptyCodeHash) then
        pure (FixedBytes.zero 20, ⟨[], 0, some .errContractAddressCollision⟩)
      else frame (enterCreate vm interpret depth readOnly caller contractAddr code gas value) >>=
        fun out => pure (contractAddr, out) : Exec (Address × Outcome))
      fun created => created.2.Within vm gas from hrest i _ hload
  rw [hnonce]
  split_ifs with hcollision
  · exact Maintains.pure (Outcome.Within.of_le UInt64.zero_le)
  have hfree := hG.vacant hst hcollision
  exact (hG.keeps_frame (hG.keeps_enterCreate hinterpret hfree caller code gas value)).bind
    fun _ hout => Maintains.pure hout

theorem keeps_create {caller : Address} (code : Bytes) (gas : UInt64) (value : ℤ) (h : May caller) :
    Maintains K E (create vm interpret depth readOnly caller code gas value)
      fun created => created.2.Within vm gas := by
  unfold create
  split_ifs
  · exact keeps_unused rfl
  refine (hG.stable.keeps_canTransfer caller value).bind fun solvent _ => ?_
  split_ifs
  · exact keeps_unused rfl
  · exact (hG.keeps_increaseNonce h).bind fun nonce _ =>
      hG.keeps_deploy hinterpret caller _ code gas value

theorem keeps_perform {contract : Contract} (h : May contract.self) (r : Request) :
    Maintains K E (perform vm interpret depth readOnly contract r) fun reply =>
      ∀ addr out, reply = .result addr out → out.Within vm r.gas := by
  have hdone : ∀ (op : StateOp) {g : StateDB → StateDB} {reply : Reply}, op.Permitted May Free →
      (∀ st, op.run st = some (g st)) → (∀ addr out, reply ≠ .result addr out) →
      Maintains K E (modifyThe StateDB g >>= fun _ => pure reply : Exec Reply) fun reply =>
        ∀ addr out, reply = .result addr out → out.Within vm r.gas := by
    intro op g reply hop hrun hne
    refine Maintains.bind (Maintains.modify fun hst => hG.run op hop (hrun _) hst) fun _ _ => ?_
    exact Maintains.pure fun addr out heq => absurd heq (hne addr out)
  have hresult : ∀ {α : Type} {x : Exec α} {f : α → Address} {g : α → Outcome},
      (Maintains K E x fun a => (g a).Within vm r.gas) →
      Maintains K E (x >>= fun a => pure (.result (f a) (g a)) : Exec Reply) fun reply =>
        ∀ addr out, reply = .result addr out → out.Within vm r.gas := by
    intro α x f g hx
    refine hx.bind fun a hout => Maintains.pure ?_
    rintro addr out ⟨⟩
    exact hout
  cases r with
  | getBalance addr | getCodeSize addr =>
    exact (hG.stable.observe addr).bind fun _ _ => Maintains.pure nofun
  | getCode addr => exact (hG.keeps_getCode addr).bind fun _ _ => Maintains.pure nofun
  | getState key =>
    refine Maintains.bind (I := fun _ => True) (Maintains.operate fun hst => ?_) fun _ _ =>
      Maintains.pure nofun
    exact ⟨hG.run (.getState contract.self key) trivial rfl hst, trivial⟩
  | empty addr => exact (hG.stable.observe addr).bind fun _ _ => Maintains.pure nofun
  | hasSuicided => exact (hG.stable.observe contract.self).bind fun _ _ => Maintains.pure nofun
  | setState key value =>
    exact hdone (.setState contract.self key value) trivial (fun _ => rfl) nofun
  | addRefund gas =>
    exact hdone (.addRefund gas) (Int.natCast_nonneg gas) (fun _ => rfl) nofun
  | addLog topics data blockNumber =>
    exact hdone (.addLog _) trivial (fun _ => rfl) nofun
  | addPreimage hash preimage =>
    exact hdone (.addPreimage hash preimage) trivial (fun _ => rfl) nofun
  | create code gas value => exact hresult (hG.keeps_create hinterpret code gas value h)
  | call addr input gas value =>
    exact hresult (hG.keeps_call hinterpret _ addr input gas value)
  | callCode addr input gas value =>
    exact hresult (hG.keeps_callCode hinterpret addr input gas value h)
  | delegateCall addr input gas =>
    exact hresult (hG.keeps_delegateCall hinterpret addr input gas h)
  | staticCall addr input gas =>
    exact hresult (hG.keeps_staticCall hinterpret _ addr input gas)

end Calls

/-! ### The interpreter -/

theorem keeps_interpretFrom (vm : Machine) (fuel : ℕ) :
    ∀ (depth : ℕ) (readOnly : Bool) (contract : Contract) (m : vm.State), May contract.self →
      Maintains K E (interpretFrom vm fuel depth readOnly contract m)
        fun out => ∀ meter : Meter vm, out.gas ≤ meter.left m := by
  induction fuel with
  | zero => exact fun _ _ _ _ _ => Maintains.throw hG.fails _
  | succ fuel ih =>
    intro depth readOnly contract m h
    have hinterpret : ∀ depth readOnly contract, May contract.self →
        Maintains K E (interpretFrom vm fuel depth readOnly contract (vm.start contract))
          (Outcome.Within vm contract.gas) := by
      intro depth readOnly contract hself i st hst
      refine Spec.mono (ih depth readOnly contract _ hself i) (fun _ => id) ?_ (fun _ _ => id) st
        hst
      rintro out s ⟨hs, hout⟩
      exact ⟨hs, fun ⟨meter⟩ => UInt64.le_trans (hout meter) (meter.start contract)⟩
    unfold interpretFrom
    split_ifs
    · exact Maintains.pure fun _ => UInt64.zero_le
    cases hnext : vm.next m with
    | halt out => exact Maintains.pure fun meter => meter.halt hnext
    | suicide beneficiary gas =>
      exact (hG.keeps_opSuicide beneficiary h).bind fun _ _ =>
        Maintains.pure fun meter => meter.suicide hnext
    | request r =>
      refine (hG.keeps_perform hinterpret h r).bind fun reply hreply => ?_
      intro i st hst
      refine Spec.mono (ih depth readOnly contract (vm.resume m reply) h i) (fun _ => id) ?_
        (fun _ _ => id) st hst
      rintro out s ⟨hs, hout⟩
      refine ⟨hs, fun meter => UInt64.le_trans (hout meter) (meter.resume hnext ?_)⟩
      exact fun addr out heq => hreply addr out heq ⟨meter⟩

/-- **Every run of the interpreter keeps the assertions**, and returns no more gas than it was
given. -/
theorem keeps_interpret (vm : Machine) (fuel depth : ℕ) (readOnly : Bool) (contract : Contract)
    (h : May contract.self) : Maintains K E (interpret vm fuel depth readOnly contract)
      (Outcome.Within vm contract.gas) := by
  intro i st hst
  refine Spec.mono (hG.keeps_interpretFrom vm fuel depth readOnly contract _ h i) (fun _ => id) ?_
    (fun _ _ => id) st hst
  rintro out s ⟨hs, hout⟩
  exact ⟨hs, fun ⟨meter⟩ => UInt64.le_trans (hout meter) (meter.start contract)⟩

/-! ### Messages -/

variable {msg : Message}

variable (vm : Machine) (fuel : ℕ)

theorem keeps_runMessage (gas : UInt64) (h : May msg.sender) :
    Maintains K E (runMessage vm fuel msg gas) (Outcome.Within vm gas) := by
  have hinterpret := hG.keeps_interpret vm fuel
  unfold runMessage
  cases msg.recipient with
  | none =>
    exact (hG.keeps_create hinterpret msg.data gas msg.value h).bind fun _ hout =>
      Maintains.pure hout
  | some addr =>
    refine (hG.keeps_increaseNonce h).bind fun _ _ => ?_
    refine (hG.stable.keeps_toAccount msg).bind fun target _ => ?_
    exact hG.keeps_call hinterpret msg.sender target msg.data gas msg.value

theorem spec_transitionOnEVM {beneficiary : Address}
    {gas : UInt64} {i : ι} {n : ℕ} {Q : ℤ → World → Prop} {F : World → Prop} (h : May msg.sender)
    (hF : ∀ w : World, E i w.state → w.gasPool = n → F w)
    (hfees : ∀ out : Outcome, out.Within vm gas → Spec (fun w => K i w.state ∧ w.gasPool = n)
      (payFees msg beneficiary out.gas) Q fun _ w => F w) :
    Spec (fun w => K i w.state ∧ w.gasPool = n) (transitionOnEVM vm fuel msg beneficiary gas)
      (fun r => Q r.2.1) fun _ w => F w := by
  refine Spec.bind (spec_onState (hG.stable.keeps_ensureExists msg.sender) hF) fun _ =>
    Spec.assume fun _ => ?_
  refine Spec.bind (spec_onState (hG.keeps_runMessage vm fuel gas h) hF) fun out =>
    Spec.assume fun hout => ?_
  split_ifs
  · exact Spec.throw fun w hw => hF w (hG.fails hw.1) hw.2
  · exact Spec.bind (hfees out hout) fun used => Spec.pure fun _ => id

/-- **The processing of a message keeps the assertions** up to the fees, with which it ends. -/
theorem spec_applyMessage {beneficiary : Address} {i : ι}
    {Q : ℤ → World → Prop} (h : May msg.sender)
    (hfees : ∀ gas, Spec (fun w => K i w.state) (payFees msg beneficiary gas) Q
      fun _ w => E i w.state) :
    Spec (fun w => K i w.state) (applyMessage vm fuel beneficiary msg) (fun r => Q r.2.1)
      fun _ w => E i w.state := by
  have hK := hG.stable
  refine Spec.bind (maintains_onState (hK.keeps_isNative msg) i) fun native =>
    Spec.assume fun _ => ?_
  refine Spec.bind (hK.keeps_preCheck msg i) fun gas => Spec.assume fun _ => ?_
  have hfees' : ∀ n left, Spec (fun w => K i w.state ∧ w.gasPool = n)
      (payFees msg beneficiary left) Q fun _ w => E i w.state := fun n left =>
    (hfees left).mono (fun _ hw => hw.1) (fun _ _ => id) fun _ _ => id
  have hF : ∀ (n : ℕ) (w : World), E i w.state → w.gasPool = n → E i w.state :=
    fun _ _ hw _ => hw
  dsimp only
  split_ifs
  · exact Spec.throw fun _ => hG.fails
  · exact Spec.throw fun _ => hG.fails
  · exact fun w hw => hK.spec_transitionOnNative (hF w.gasPool) (hfees' _ _) w ⟨hw, rfl⟩
  · exact fun w hw => hG.spec_transitionOnEVM vm fuel h (hF w.gasPool) (fun out _ => hfees' _ _) w
      ⟨hw, rfl⟩

end Guard

end Evm
