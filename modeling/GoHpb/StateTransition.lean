/-
**State transitions: the messages of a block.**

A model of `blockchain/state_transition.go` and of the loop of `state_processor.go`: what a message
checks and pays before it runs, the two ways it can take, and what is refunded afterwards.  A
message to an account, sent by an account without code, takes the native way and moves its value
without the virtual machine; every other message is a creation or a call of the virtual machine.

An error that is returned leaves behind what has been changed before it, so a program here is one
on the world state and the gas pool of the block that keeps them on failure.

The module ends with two accounts and the messages of one of them, for evaluation:
`Payments.state`, `Payments.payment` and `Payments.deployment`.
-/

import GoHpb.CryptoTable
import GoHpb.EvmCall

open FailState

/-! ### Messages -/

/-- A message: a transaction with its sender. -/
structure Message where
  sender : Address
  /-- the recipient; none for the creation of a contract -/
  recipient : Option Address
  nonce : UInt64
  gasPrice : ℤ
  gas : ℕ
  value : ℤ
  data : Bytes
  checkNonce : Bool

/-- The world state and the gas that is left in the block. -/
structure World where
  state : StateDB
  gasPool : ℕ

def txGas : ℕ := 10

def txGasContractCreation : ℕ := 53000

def txDataZeroGas : ℕ := 1

def txDataNonZeroGas : ℕ := 1

def intrinsicGas (data : Bytes) (contractCreation : Bool) : ℕ :=
  let nz := data.countP fun byt => byt ≠ 0
  (if contractCreation then txGasContractCreation else txGas) + nz * txDataNonZeroGas +
    (data.length - nz) * txDataZeroGas

/-- A program on the world state, as one on the state and the gas pool. -/
def onState {α : Type} (x : Exec α) : EStateM Abort World α :=
  zoom World.state (fun state w => { w with state := state }) x

namespace StateTransition

section

variable [Crypto]

/-- An account is created if it is not there, as `from` and `to` do. -/
def ensureExists (addr : Address) : Exec Unit := do
  let known ← operate fun st => st.exist addr
  Evm.createMissing known addr

variable (msg : Message)

/-- `to`: the recipient. -/
def toAccount : Exec Address :=
  match msg.recipient with
  | none => return FixedBytes.zero 20
  | some addr => do
      ensureExists addr
      return addr

/-- The choice made by `NewStateTransition`; the size of the sender's code is asked for only when
there is a recipient. -/
def isNative : Exec Bool :=
  match msg.recipient with
  | none => return false
  | some _ => do
      let size ← operate fun st => st.getCodeSize msg.sender
      return decide (size = 0)

def gasUsed (gas : UInt64) : ℤ := msg.gas - gas.toNat

/-- `buyGas`: the gas of the message is paid in advance and taken from the gas pool. -/
def buyGas : EStateM Abort World UInt64 :=
  if 2 ^ 64 ≤ msg.gas then throw .errOutOfGas
  else do
    onState (ensureExists msg.sender)
    let balance ← onState (operate fun st => st.getBalance msg.sender)
    let gasPool ← operate fun w => (w.gasPool, w)
    if balance < msg.gas * msg.gasPrice then throw .errInsufficientBalanceForGas
    else if gasPool < msg.gas then throw .errGasLimitReached
    else
      modify fun w => { w with gasPool := w.gasPool - msg.gas }
      onState (modify fun st => st.subBalance msg.sender (msg.gas * msg.gasPrice))
      return .ofNat msg.gas

def preCheck : EStateM Abort World UInt64 := do
  onState (ensureExists msg.sender)
  let nonce ← onState (operate fun st => st.getNonce msg.sender)
  if msg.checkNonce && nonce < msg.nonce then throw .errNonceTooHigh
  else if msg.checkNonce && msg.nonce < nonce then throw .errNonceTooLow
  else buyGas msg

/-- The refund: half of the used gas at most.  `BigMin` returns one of its arguments, so when the
refund counter is the smaller one, multiplying the refund by the gas price changes the counter. -/
def refundCounter (gas : UInt64) (st : StateDB) : ℤ × StateDB :=
  let uhalf := gasUsed msg gas / 2
  if st.refund < uhalf then (st.refund, { st with refund := st.refund * msg.gasPrice })
  else (uhalf, st)

/-- `refundGas`: the gas that is left, after the refund. -/
def refundGas (gas : UInt64) : EStateM Abort World UInt64 := do
  onState (ensureExists msg.sender)
  onState (modify fun st => st.addBalance msg.sender (gas.toNat * msg.gasPrice))
  let refund ← onState (operate (refundCounter msg gas))
  onState (modify fun st => st.addBalance msg.sender (refund * msg.gasPrice))
  let gas := gas + .ofNat refund.natAbs
  modify fun w => { w with gasPool := w.gasPool + gas.toNat }
  return gas

/-- The end of both ways: the refund, and the fee of the beneficiary. -/
def payFees (beneficiary : Address) (gas : UInt64) : EStateM Abort World ℤ := do
  let gas ← refundGas msg gas
  onState (modify fun st => st.addBalance beneficiary (gasUsed msg gas * msg.gasPrice))
  return gasUsed msg gas

def transitionOnNative (beneficiary : Address) (gas : UInt64) :
    EStateM Abort World (Bytes × ℤ × Bool) := do
  let target ← onState (toAccount msg)
  let solvent ← onState (Evm.canTransfer msg.sender msg.value)
  if !solvent then throw .errInsufficientBalance
  else
    let again ← onState (toAccount msg)
    let known ← onState (operate fun st => st.exist again)
    onState (Evm.createMissing known target)
    onState (Evm.transfer msg.sender target msg.value)
    let used ← payFees msg beneficiary gas
    return ([], used, false)

/-- The run of the virtual machine in `TransitionOnEVM`: a creation increases the nonce of the
sender itself, for a call it is increased here. -/
def runMessage (vm : Machine) (fuel : ℕ) (msg : Message) (gas : UInt64) : Exec Outcome :=
  match msg.recipient with
  | none => do
      let created ←
        Evm.create vm (Evm.interpret vm fuel) 0 false msg.sender msg.data gas msg.value
      return created.2
  | some _ => do
      let _ ← Evm.increaseNonce msg.sender
      let target ← toAccount msg
      Evm.call vm (Evm.interpret vm fuel) 0 false msg.sender target msg.data gas msg.value

/-- `TransitionOnEVM`: of the errors of the virtual machine only a missing balance is one of the
message. -/
def transitionOnEVM (vm : Machine) (fuel : ℕ) (msg : Message) (beneficiary : Address)
    (gas : UInt64) : EStateM Abort World (Bytes × ℤ × Bool) := do
  onState (ensureExists msg.sender)
  let out ← onState (runMessage vm fuel msg gas)
  if out.err = some .errInsufficientBalance then throw .errVmInsufficientBalance
  else
    let used ← payFees msg beneficiary out.gas
    return (out.ret, used, out.err.isSome)

end

end StateTransition

section

variable [Crypto]

open StateTransition

/-- `ApplyMessage`: the returned bytes, the gas used, and whether the virtual machine failed. -/
def applyMessage (vm : Machine) (fuel : ℕ) (beneficiary : Address) (msg : Message) :
    EStateM Abort World (Bytes × ℤ × Bool) := do
  let native ← onState (isNative msg)
  let gas ← preCheck msg
  let intrinsic := intrinsicGas msg.data msg.recipient.isNone
  if 2 ^ 64 ≤ intrinsic then throw .errOutOfGas
  else if gas < .ofNat intrinsic then throw .errOutOfGas
  else if native then
    transitionOnNative msg beneficiary (gas - .ofNat intrinsic)
  else transitionOnEVM vm fuel msg beneficiary (gas - .ofNat intrinsic)

/-- `ApplyTransaction`, without the receipt: the message is applied and its changes are written to
the trie. -/
def applyTransaction (vm : Machine) (fuel : ℕ) (beneficiary : Address) (msg : Message) :
    EStateM Abort World (ℤ × Bool) := do
  let result ← applyMessage vm fuel beneficiary msg
  onState (attempt .panic fun st => st.finalise true)
  return result.2

/-- The end of a block: `Finalize` of the engine computes the state root, the state is committed,
and the next block starts from what was written. -/
def endBlock (st : StateDB) : Option StateDB :=
  (st.finalise true).map fun st => StateDB.new (st.commitTo true).trie (st.commitTo true).codes

/-- The states that a chain of blocks leads to, with the messages of its transactions.  A block
with a failing transaction is rejected, so each of them has succeeded. -/
inductive Applied (st : StateDB) : List Message → StateDB → Prop
  | start : Applied st [] st
  | transaction {msgs : List Message} {st₁ : StateDB} {w : World} {msg : Message}
      {r : ℤ × Bool} (vm : Machine) (fuel gasPool : ℕ) (beneficiary : Address)
      (thash bhash : Hash) (txIndex : ℕ) :
      Applied st msgs st₁ →
      applyTransaction vm fuel beneficiary msg ⟨st₁.prepare thash bhash txIndex, gasPool⟩ =
        .ok r w →
      Applied st (msgs ++ [msg]) w.state
  | block {msgs : List Message} {st₁ st₂ : StateDB} :
      Applied st msgs st₁ → endBlock st₁ = some st₂ → Applied st msgs st₂

end

/-! ### Runs on a small state -/

/-- What a program on the world state returned. -/
def returned {α : Type} : EStateM.Result Abort World α → Except Abort α
  | .ok a _ => .ok a
  | .error e _ => .error e

/-- The world state a program left behind. -/
def worldAfter {α : Type} : EStateM.Result Abort World α → World
  | .ok _ w => w
  | .error _ w => w

theorem eq_ok_of_returned {α : Type} {r : EStateM.Result Abort World α} {a : α}
    (h : returned r = .ok a) : r = .ok a (worldAfter r) := by
  cases r with
  | ok b w =>
    cases h
    rfl
  | error e w => cases h

namespace Payments

/-- The account that pays, and the one that is paid. -/
def payer : Address := Sample.member

def payee : Address := Sample.outsider

/-- The account of the miner. -/
def beneficiary : Address := FixedBytes.setBytes 20 [0x77]

/-- The digests of the empty code, and of the payer's address with the nonce zero. -/
def digests : List (Bytes × Hash) :=
  [([], Sample.array 32 0xc5d2460186f7233c927e7db2dcc703c0e500b653ca82273b7bfad8045d85a470),
    ([0xd6, 0x94] ++ payer.bytes ++ [0x80],
      Sample.array 32 0x1a2d7922a9dae1ffeda1b12bc8501479803c58592ef3be0beabbee22e3377c08)]

scoped instance crypto : Crypto := tableCrypto digests []

/-- An account without code. -/
def owner (balance : ℤ) : Account := { emptyAccount with balance := balance }

/-- The state at the start of a block: both accounts have some balance. -/
def state : StateDB :=
  StateDB.new ((∅ : Finmap fun _ : Address => Account).insert payer (owner 1000000)
    |>.insert payee (owner 5)) ∅

/-- A payment, and the creation of a contract without code. -/
def payment : Message :=
  { sender := payer, recipient := some payee, nonce := 0, gasPrice := 1, gas := 100, value := 7
    data := [], checkNonce := true }

def deployment : Message :=
  { payment with recipient := none, gas := 60000 }

/-- A machine whose contracts stop at once. -/
def plain : Machine where
  State := Unit
  start _ := ()
  next _ := .halt ⟨[], 0, none⟩
  resume _ _ := ()
  precompiled _ := none

end Payments
