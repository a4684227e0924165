/-
**Calls and creations of the virtual machine.**

A model of `hvm/evm/evm.go` and of the part of the interpreter that touches the world state.  The
five ways to enter a contract (`Call`, `CallCode`, `DelegateCall`, `StaticCall`, `Create`) are
translated as they are: the depth and balance checks, the snapshots, the transfers, the collision
check of a creation and the revert of a failed frame.

The instructions themselves are a parameter.  A `Machine` is any deterministic device that runs a
contract by a sequence of actions: it may ask the world state for something, change it through one
of the operations that instructions have, enter another contract, destroy its own account, or
halt.  It never sees the state but through the answers.  A machine may run for ever, so the
interpreter has fuel, and running out of it is told apart from every result.
-/

import GoHpb.FailState
import GoHpb.StateDB

open FailState FixedBytes

/-! ### Errors -/

/-- The errors of the virtual machine that the code tells apart; `errInstruction` stands for the
other errors of an instruction. -/
inductive VmErr where
  | errOutOfGas
  | errCodeStoreOutOfGas
  | errDepth
  | errInsufficientBalance
  | errContractAddressCollision
  | errExecutionReverted
  | errMaxCodeSizeExceeded
  | errWriteProtection
  | errInstruction (code : ℕ)
  deriving DecidableEq

/-- What ends the processing of a message without a result: an error that is returned, a run-time
panic, or the end of the fuel, which only the model has. -/
inductive Abort where
  | errNonceTooHigh
  | errNonceTooLow
  | errOutOfGas
  | errInsufficientBalanceForGas
  | errGasLimitReached
  | errInsufficientBalance
  | errVmInsufficientBalance
  | panic
  | outOfFuel
  deriving DecidableEq

/-- A program on the world state. -/
abbrev Exec : Type → Type := EStateM Abort StateDB

/-! ### Machines -/

/-- The result of a frame. -/
structure Outcome where
  ret : Bytes
  gas : UInt64
  err : Option VmErr
  deriving DecidableEq

/-- A contract in execution. -/
structure Contract where
  callerAddress : Address
  self : Address
  value : ℤ
  code : Bytes
  codeAddr : Address
  input : Bytes
  gas : UInt64

/-- What an instruction may ask of the world state before it goes on. -/
inductive Request where
  | getBalance (addr : Address)
  | getCodeSize (addr : Address)
  | getCode (addr : Address)
  | getState (key : Hash)
  | empty (addr : Address)
  | hasSuicided
  | setState (key value : Hash)
  | addRefund (gas : ℕ)
  | addLog (topics : List Hash) (data : Bytes) (blockNumber : UInt64)
  | addPreimage (hash : Hash) (preimage : Bytes)
  | create (code : Bytes) (gas : UInt64) (value : ℕ)
  | call (addr : Address) (input : Bytes) (gas : UInt64) (value : ℕ)
  | callCode (addr : Address) (input : Bytes) (gas : UInt64) (value : ℕ)
  | delegateCall (addr : Address) (input : Bytes) (gas : UInt64)
  | staticCall (addr : Address) (input : Bytes) (gas : UInt64)

/-- What it is answered. -/
inductive Reply where
  | done
  | int (v : ℤ)
  | bytes (b : Bytes)
  | word (h : Hash)
  | bool (b : Bool)
  | result (addr : Address) (out : Outcome)

/-- What a machine does next. -/
inductive Instruction where
  | request (r : Request)
  | suicide (beneficiary : Address) (gas : UInt64)
  | halt (out : Outcome)

/-- A precompiled contract. -/
structure Precompiled where
  requiredGas : Bytes → UInt64
  run : Bytes → Except VmErr Bytes

/-- An instruction set, with the block and message it runs in, and the precompiled contracts. -/
structure Machine where
  State : Type
  start : Contract → State
  next : State → Instruction
  resume : State → Reply → State
  precompiled : Address → Option Precompiled

/-- Whether read-only mode forbids an instruction.  The refund counter is changed by `SSTORE` and
`SELFDESTRUCT` only, after the restrictions are enforced. -/
def Instruction.writes : Instruction → Bool
  | request (.setState _ _) => true
  | request (.addRefund _) => true
  | request (.addLog _ _ _) => true
  | request (.create _ _ _) => true
  | request (.call _ _ _ value) => value ≠ 0
  | suicide _ _ => true
  | _ => false

/-! ### The functions of the source -/

def callCreateDepth : ℕ := 1024

def maxCodeSize : ℕ := 24576

def createDataGas : ℕ := 200

namespace Evm

def runPrecompiledContract (p : Precompiled) (input : Bytes) (gas : UInt64) : Outcome :=
  if gas < p.requiredGas input then ⟨[], gas, some .errOutOfGas⟩
  else
    match p.run input with
    | .ok ret => ⟨ret, gas - p.requiredGas input, none⟩
    | .error err => ⟨[], gas - p.requiredGas input, some err⟩

/-- `RevertToSnapshot`; a revision that is not valid is a panic. -/
def revertToSnapshot (revid : ℕ) : Exec Unit :=
  attempt .panic fun st => st.revertToSnapshot revid

def canTransfer (addr : Address) (amount : ℤ) : Exec Bool := do
  let balance ← operate fun st => st.getBalance addr
  return decide (amount ≤ balance)

/-- `run`: precompiled contracts, and the interpreter for all others, which has nothing to do when
there is no code. -/
def run (vm : Machine) (interpret : ℕ → Bool → Contract → Exec Outcome) (depth : ℕ)
    (readOnly : Bool) (contract : Contract) : Exec Outcome :=
  match vm.precompiled contract.codeAddr with
  | some p => return runPrecompiledContract p contract.input contract.gas
  | none =>
    if contract.code = [] then return ⟨[], contract.gas, none⟩
    else interpret (depth + 1) readOnly contract

/-- The end of a frame: an error takes the state back to the snapshot, and all gas with it unless
the frame has reverted on purpose. -/
def settle (snapshot : ℕ) (out : Outcome) : Exec Outcome :=
  match out.err with
  | none => return out
  | some err => do
      revertToSnapshot snapshot
      return { out with gas := if err = .errExecutionReverted then out.gas else 0 }

/-- A frame: its body runs above a snapshot. -/
def frame (body : Exec Outcome) : Exec Outcome := do
  let snapshot ← operate StateDB.snapshot
  let out ← body
  settle snapshot out

section Calls

variable [Crypto]

def transfer (sender recipient : Address) (amount : ℤ) : Exec Unit := do
  modify fun st => st.subBalance sender amount
  modify fun st => st.addBalance recipient amount

/-- Creating an account that was not found. -/
def createMissing (known : Bool) (addr : Address) : Exec Unit :=
  if known then return () else modify fun st => st.createAccount addr

/-- Setting the nonce of an account to the next one; the old nonce is returned. -/
def increaseNonce (addr : Address) : Exec UInt64 := do
  let nonce ← operate fun st => st.getNonce addr
  modify fun st => st.setNonce addr (nonce + 1)
  return nonce

def createAddress (b : Address) (nonce : UInt64) : Address :=
  setBytes 20 ((Crypto.keccak256 (Rlp.encode (.list
    [.str b.bytes, .str (bigBytes nonce.toNat)]))).bytes.drop 12)

variable (vm : Machine) (interpret : ℕ → Bool → Contract → Exec Outcome) (depth : ℕ)
  (readOnly : Bool)

/-- `Call` after the snapshot: the account is created unless the call would do nothing, and its
code runs on its own account. -/
def enterCall (caller addr : Address) (input : Bytes) (gas : UInt64) (value : ℤ) :
    Exec Outcome := do
  let known ← operate fun st => st.exist addr
  if !known && (vm.precompiled addr).isNone && value = 0 then return ⟨[], gas, none⟩
  else
    createMissing known addr
    transfer caller addr value
    let code ← operate fun st => st.getCode addr
    run vm interpret depth readOnly
      { callerAddress := caller, self := addr, value := value, code := code, codeAddr := addr,
        input := input, gas := gas }

def call (caller addr : Address) (input : Bytes) (gas : UInt64) (value : ℤ) : Exec Outcome :=
  if callCreateDepth < depth then return ⟨[], gas, some .errDepth⟩
  else do
    let solvent ← canTransfer caller value
    if !solvent then return ⟨[], gas, some .errInsufficientBalance⟩
    else frame (enterCall vm interpret depth readOnly caller addr input gas value)

/-- Running the code of another account for the account `self`. -/
def enterCode (callerAddress self addr : Address) (input : Bytes) (gas : UInt64) (value : ℤ) :
    Exec Outcome := do
  let code ← operate fun st => st.getCode addr
  run vm interpret depth readOnly
    { callerAddress := callerAddress, self := self, value := value, code := code,
      codeAddr := addr, input := input, gas := gas }

/-- `CallCode`: the code runs on the account of the caller. -/
def callCode (caller addr : Address) (input : Bytes) (gas : UInt64) (value : ℤ) : Exec Outcome :=
  if callCreateDepth < depth then return ⟨[], gas, some .errDepth⟩
  else do
    let solvent ← canTransfer caller value
    if !solvent then return ⟨[], gas, some .errInsufficientBalance⟩
    else frame (enterCode vm interpret depth readOnly caller caller addr input gas value)

/-- `DelegateCall`: the caller's caller and value stay visible. -/
def delegateCall (caller : Contract) (addr : Address) (input : Bytes) (gas : UInt64) :
    Exec Outcome :=
  if callCreateDepth < depth then return ⟨[], gas, some .errDepth⟩
  else
    frame (enterCode vm interpret depth readOnly caller.callerAddress caller.self addr input gas
      caller.value)

/-- `StaticCall`: read-only mode lasts until the call returns. -/
def staticCall (caller addr : Address) (input : Bytes) (gas : UInt64) : Exec Outcome :=
  if callCreateDepth < depth then return ⟨[], gas, some .errDepth⟩
  else frame (enterCode vm interpret depth true caller addr addr input gas 0)

/-- The end of a creation: the returned code is stored if it is not too long and can be paid. -/
def storeCode (contractAddr : Address) (out : Outcome) : Exec Outcome :=
  match out.err with
  | some _ => return out
  | none =>
    if maxCodeSize < out.ret.length then
      return { out with err := some .errMaxCodeSizeExceeded }
    else if out.gas < UInt64.ofNat (out.ret.length * createDataGas) then
      return { out with err := some .errCodeStoreOutOfGas }
    else do
      modify fun st => st.setCode contractAddr out.ret
      return { out with gas := out.gas - UInt64.ofNat (out.ret.length * createDataGas) }

/-- `Create` after the snapshot. -/
def enterCreate (caller contractAddr : Address) (code : Bytes) (gas : UInt64) (value : ℤ) :
    Exec Outcome := do
  modify fun st => st.createAccount contractAddr
  modify fun st => st.setNonce contractAddr 1
  transfer caller contractAddr value
  let out ← run vm interpret depth readOnly
    { callerAddress := caller, self := contractAddr, value := value, code := code,
      codeAddr := contractAddr, input := [], gas := gas }
  storeCode contractAddr out

/-- `Create` after the nonce of the creator has been increased. -/
def deploy (caller contractAddr : Address) (code : Bytes) (gas : UInt64) (value : ℤ) :
    Exec (Address × Outcome) := do
  let contractHash ← operate fun st => st.getCodeHash contractAddr
  let contractNonce ← operate fun st => st.getNonce contractAddr
  if contractNonce ≠ 0 ∨ (contractHash ≠ zero 32 ∧ contractHash ≠ emptyCodeHash) then
    return (zero 20, ⟨[], 0, some .errContractAddressCollision⟩)
  else
    let out ← frame (enterCreate vm interpret depth readOnly caller contractAddr code gas value)
    return (contractAddr, out)

def create (caller : Address) (code : Bytes) (gas : UInt64) (value : ℤ) :
    Exec (Address × Outcome) :=
  if callCreateDepth < depth then
    return (zero 20, ⟨[], gas, some .errDepth⟩)
  else do
    let solvent ← canTransfer caller value
    if !solvent then
      return (zero 20, ⟨[], gas, some .errInsufficientBalance⟩)
    else
      let nonce ← increaseNonce caller
      deploy vm interpret depth readOnly caller (createAddress caller nonce) code gas value

/-! ### The interpreter -/

/-- Carrying out a request of the contract in execution. -/
def perform (contract : Contract) : Request → Exec Reply
  | .getBalance addr => do
      let v ← operate fun st => st.getBalance addr
      return .int v
  | .getCodeSize addr => do
      let v ← operate fun st => st.getCodeSize addr
      return .int v
  | .getCode addr => do
      let v ← operate fun st => st.getCode addr
      return .bytes v
  | .getState key => do
      let v ← operate fun st => st.getState contract.self key
      return .word v
  | .empty addr => do
      let v ← operate fun st => st.empty addr
      return .bool v
  | .hasSuicided => do
      let v ← operate fun st => st.hasSuicided contract.self
      return .bool v
  | .setState key value => do
      modify fun st => st.setState contract.self key value
      return .done
  | .addRefund gas => do
      modify fun st => st.addRefund gas
      return .done
  | .addLog topics data blockNumber => do
      modify fun st => st.addLog
        { address := contract.self, topics := topics, data := data, blockNumber := blockNumber,
          txHash := zero 32, blockHash := zero 32, txIndex := 0, index := 0 }
      return .done
  | .addPreimage hash preimage => do
      modify fun st => st.addPreimage hash preimage
      return .done
  | .create code gas value => do
      let created ← create vm interpret depth readOnly contract.self code gas value
      return .result created.1 created.2
  | .call addr input gas value => do
      let out ← call vm interpret depth readOnly contract.self addr input gas value
      return .result addr out
  | .callCode addr input gas value => do
      let out ← callCode vm interpret depth readOnly contract.self addr input gas value
      return .result addr out
  | .delegateCall addr input gas => do
      let out ← delegateCall vm interpret depth readOnly contract addr input gas
      return .result addr out
  | .staticCall addr input gas => do
      let out ← staticCall vm interpret depth contract.self addr input gas
      return .result addr out

end Calls

/-- `SELFDESTRUCT`: the balance goes to the beneficiary before the account is marked. -/
def opSuicide [Crypto] (self beneficiary : Address) : Exec Unit := do
  let balance ← operate fun st => st.getBalance self
  modify fun st => st.addBalance beneficiary balance
  modify fun st => st.suicide self

/-- The loop of `Interpreter.Run`, from a state of the machine. -/
def interpretFrom [Crypto] (vm : Machine) : ℕ → ℕ → Bool → Contract → vm.State → Exec Outcome
  | 0, _, _, _, _ => throw .outOfFuel
  | fuel + 1, depth, readOnly, contract, m =>
    if readOnly && (vm.next m).writes then return ⟨[], 0, some .errWriteProtection⟩
    else
      match vm.next m with
      | .halt out => return out
      | .suicide beneficiary gas => do
          opSuicide contract.self beneficiary
          return ⟨[], gas, none⟩
      | .request r => do
          let reply ← perform vm
            (fun depth readOnly contract =>
              interpretFrom vm fuel depth readOnly contract (vm.start contract))
            depth readOnly contract r
          interpretFrom vm fuel depth readOnly contract (vm.resume m reply)

/-- `Interpreter.Run`. -/
def interpret [Crypto] (vm : Machine) (fuel depth : ℕ) (readOnly : Bool) (contract : Contract) :
    Exec Outcome := interpretFrom vm fuel depth readOnly contract (vm.start contract)

end Evm
