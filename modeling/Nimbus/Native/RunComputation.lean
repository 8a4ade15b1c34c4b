import Nimbus.Native.CallTree
import Mathlib.Algebra.Ring.Int.Defs

/-!
# Transactions and system calls

Model of `execution_chain/transaction/call_common.nim`, `eoa_delegation.nim` and
`system_call.nim`: from the gas limit of a transaction to the gas it is charged for. The
balances that are moved, the logs and the tracer are left out.
-/

namespace Nimbus.Native.Evm

open Aristo (UInt256)
open EVMFork

structure IntrinsicGas where
  execution : Nat
  floorDataGas : Nat

/-- A valid entry of the authorization list, with what the state says about its authority. -/
structure Authorization where
  accountExists : Bool := false
  /-- an account that the transaction has written before -/
  written : Bool := false
  /-- the entry removes the delegation -/
  clears : Bool := false
  /-- a delegation before the transaction, or set earlier in it -/
  delegated : Bool := false

/-- A transaction, with what it meets in the state. -/
structure Transaction where
  gasLimit : Nat
  isCreate : Bool := false
  valueNonZero : Bool := false
  /-- the recipient, or the address that is created -/
  currentTarget : Address
  authorizationList : List Authorization := []
  /-- the recipient is a delegation: is its target not in the access list? -/
  delegateIsCold : Option Bool := none
  /-- the recipient is not alive, or the address that is created was empty -/
  isNewAccount : Bool := false
  nonceOverflow : Bool := false
  contractCollision : Bool := false

/-- The gas limit checks of `validateTxBasic`. -/
structure validateTxBasic (fork : EVMFork) (tx : Transaction) (intrinsic : IntrinsicGas) :
    Prop where
  minGasLimit : max intrinsic.execution intrinsic.floorDataGas ≤ tx.gasLimit
  amsterdam : FkAmsterdam ≤ fork →
    max intrinsic.execution intrinsic.floorDataGas ≤ TX_MAX_GAS_LIMIT
      ∧ tx.gasLimit ≤ TX_MAX_TOTAL_GAS_LIMIT
  osaka : FkOsaka ≤ fork → fork < FkAmsterdam → tx.gasLimit ≤ TX_MAX_GAS_LIMIT

/-- The parameters of a call that has passed `validateTxBasic`. -/
structure CallParams (fork : EVMFork) where
  tx : Transaction
  intrinsic : IntrinsicGas
  gasLimit_le : tx.gasLimit ≤ GasInt.high
  valid : validateTxBasic fork tx intrinsic

/-- What the run of a transaction adds up in `vmState`. -/
structure VmState where
  refundCounter : Int := 0
  authStateGasUsed : Int := 0

/-! ### Before the execution -/

/-- `setDelegation` before Amsterdam: the execution refund. -/
def setDelegation (tx : Transaction) : Int :=
  (tx.authorizationList.map fun auth =>
    if auth.accountExists then ((PER_EMPTY_ACCOUNT_COST - PER_AUTH_BASE_COST : Nat) : Int)
    else 0).sum

/-- The charges of one authorization, from Amsterdam. -/
def chargeAuthorization (auth : Authorization) : EvmM Unit := do
  onlyIf (¬ auth.accountExists) (chargeStateGas CREATE_ACCOUNT_STATE_GAS)
  onlyIf (¬ auth.written) (consumeGas ACCOUNT_WRITE_8038)
  onlyIf (¬ auth.clears ∧ ¬ auth.delegated) (chargeStateGas AUTH_BASE_STATE_GAS)

/-- `setDelegation` from Amsterdam. -/
def setDelegation8037 : List Authorization → EvmM Unit
  | [] => return ()
  | auth :: rest => do
    chargeAuthorization auth
    setDelegation8037 rest

def prepareDispatch (tx : Transaction) : EvmM Unit := do
  onlyIf (tx.isNewAccount ∧ (tx.isCreate ∨ tx.valueNonZero))
    (chargeStateGas CREATE_ACCOUNT_STATE_GAS)
  match tx.delegateIsCold with
  | some isCold =>
    onlyIf (¬ tx.isCreate)
      (consumeGas (if isCold then COLD_ACCOUNT_ACCESS_8038 else WARM_ACCESS))
  | none => return ()

/-- `authAndDelegation`: the state gas of the authorizations and the reservoir they leave. -/
def authAndDelegation (tx : Transaction) (stateGasReservoir : Nat) : EvmM (Int × Nat) := do
  setDelegation8037 tx.authorizationList
  let gasMeter ← getGasMeter
  setGasMeter { gasMeter with stateGasSpilled := 0 }
  prepareDispatch tx
  return (gasMeter.frameStateGasUsed stateGasReservoir, gasMeter.stateGasLeft)

/-- How the top frame stands before it is executed. -/
structure Prepared where
  msg : Message
  error : Option Error := none
  authStateGasUsed : Int := 0

def topFrameAuthAndDelegation (tx : Transaction) (msg : Message) : EvmM Prepared := do
  let storage := (← get).storage
  match ← attempt (authAndDelegation tx msg.stateGasReservoir) with
  | some (authStateGasUsed, stateGasReservoir) =>
    let msg := { msg with stateGasReservoir := stateGasReservoir }
    return ⟨msg, none, authStateGasUsed⟩
  | none =>
    modify fun s => { s with storage := storage }
    refillFrameStateGas msg.stateGasReservoir
    return ⟨msg, some ⟨true⟩, 0⟩

variable (fork : EVMFork)

/-- `preExecComputation`, before the address that is created is looked at. -/
def prepareTopFrame (tx : Transaction) (msg : Message) : EvmM Prepared :=
  if tx.isCreate && tx.nonceOverflow then return ⟨msg, some ⟨false⟩, 0⟩
  else if FkAmsterdam ≤ fork then topFrameAuthAndDelegation tx msg
  else return ⟨msg, none, 0⟩

def preExecComputation (tx : Transaction) (msg : Message) : EvmM Prepared := do
  let prepared ← prepareTopFrame fork tx msg
  if tx.isCreate && prepared.error.isNone && tx.contractCollision then
    refillFrameStateGas prepared.msg.stateGasReservoir
    return { prepared with error := some ⟨true⟩ }
  else
    return prepared

/-- The part of `evmGas` that is execution gas. -/
def topFrameGas (intrinsic : IntrinsicGas) (evmGas : Nat) : EvmM Nat := do
  -- the code computes the budget before it looks at the fork
  if FkAmsterdam ≤ fork then
    let executionGasBudget ← sub TX_MAX_GAS_LIMIT intrinsic.execution
    return min executionGasBudget evmGas
  else
    return evmGas

/-- `setupEVM`: the message of the top frame. -/
def setupEVM (params : CallParams fork) : EvmM Message := do
  let tx := params.tx
  let evmGas := if tx.gasLimit < params.intrinsic.execution then 0
    else tx.gasLimit - params.intrinsic.execution
  let executionGas ← topFrameGas fork params.intrinsic evmGas
  let stateGasReservoir ← sub evmGas executionGas
  return {
    isCreate := tx.isCreate
    gas := executionGas
    stateGasReservoir := stateGasReservoir
    currentTarget := tx.currentTarget }

/-! ### The execution -/

/-- The top frame as `postExecComputation` finds it. -/
def execTopFrame (prepared : Prepared) (code : Message → EvmM Ending) : EvmM Computation := do
  let gasMeter ← getGasMeter
  match prepared.error with
  | none => execCallOrCreate fork prepared.msg gasMeter (code prepared.msg)
  | some error => return ⟨prepared.msg, gasMeter, some error⟩

/-- `postExecComputation`, with `refundSelfDestruct`. -/
def postExecComputation (selfDestructLen : Nat) (c : Computation) : Computation :=
  if c.isSuccess ∧ fork < FkLondon then
    { c with gasMeter := { c.gasMeter with
        refundCounter :=
          c.gasMeter.refundCounter + (gasFees fork).RefundSelfDestruct * selfDestructLen } }
  else c

/-! ### After the execution -/

def MaxRefundQuotient : Nat := if FkLondon ≤ fork then 5 else 2

/-- `getGasRefund`. -/
def getGasRefund (vmState : VmState) (c : Computation) : EvmM Nat := do
  doAssert (c.msg.depth == 0 && 0 ≤ c.gasMeter.refundCounter)
  let refundCounter :=
    if c.isSuccess then vmState.refundCounter + c.gasMeter.refundCounter
    else vmState.refundCounter
  -- `GasInt refundCounter`
  if 0 ≤ refundCounter then return refundCounter.toNat else throw .defect

/-- `burnGas`, when the top frame should burn its gas. -/
def burnGas (c : Computation) : EvmM GasMeter := do
  if c.shouldBurnGas then
    let executionGasUsed ← add c.gasMeter.executionGasUsed c.gasMeter.executionGasLeft
    return { c.gasMeter with executionGasUsed := executionGasUsed, executionGasLeft := 0 }
  else
    return c.gasMeter

/-- `GasUsed`, with the values it is computed from. -/
structure GasUsed where
  gasUsedBeforeRefund : Nat
  gasRefund : Nat
  txGasUsed : Nat
  blockExecutionGasUsed : Nat
  blockStateGasUsed : Nat

def calculateAndPossiblyRefundGas (params : CallParams fork)
    (vmState : VmState) (c : Computation) : EvmM GasUsed := do
  let tx := params.tx
  let gasMeter ← burnGas c
  let gasUsedBeforeRefund ← sub (← sub tx.gasLimit gasMeter.executionGasLeft)
    gasMeter.stateGasLeft
  let gasRefund := min (gasUsedBeforeRefund / MaxRefundQuotient fork) (← getGasRefund vmState c)
  let gasUsedAfterRefund ← sub gasUsedBeforeRefund gasRefund
  let txGasUsed :=
    if FkPrague ≤ fork then max gasUsedAfterRefund params.intrinsic.floorDataGas
    else gasUsedAfterRefund
  let stateGasUsed :=
    vmState.authStateGasUsed + gasMeter.frameStateGasUsed c.msg.stateGasReservoir
  let blockStateGasUsed := if FkAmsterdam ≤ fork then (max 0 stateGasUsed).toNat else 0
  let executionPart ← sub gasUsedBeforeRefund blockStateGasUsed
  let blockExecutionGasUsed :=
    if FkAmsterdam ≤ fork then max executionPart params.intrinsic.floorDataGas
    else gasUsedAfterRefund
  -- the unused gas that is refunded
  let _ ← sub tx.gasLimit txGasUsed
  return {
    gasUsedBeforeRefund := gasUsedBeforeRefund
    gasRefund := gasRefund
    txGasUsed := txGasUsed
    blockExecutionGasUsed := blockExecutionGasUsed
    blockStateGasUsed := blockStateGasUsed }

/-- `runComputation`: the top frame at its end, and the gas used. `selfDestructLen` accounts are
registered for deletion at the end of the run. -/
def runComputation (params : CallParams fork) (selfDestructLen : Nat)
    (code : Message → EvmM Ending) : EvmM (Computation × GasUsed) := do
  let executionRefund := if fork < FkAmsterdam then setDelegation params.tx else 0
  let msg ← setupEVM fork params
  setGasMeter (GasMeter.init msg.gas msg.stateGasReservoir)
  let prepared ← preExecComputation fork params.tx msg
  let c ← execTopFrame fork prepared code
  let c := postExecComputation fork selfDestructLen c
  let gasUsed ← calculateAndPossiblyRefundGas fork params
    ⟨executionRefund, prepared.authStateGasUsed⟩ c
  return (c, gasUsed)

/-! ### System calls -/

structure SysCallParams where
  currentTarget : Address
  /-- the contract must have code, and has none -/
  codeMissing : Bool := false

/-- The gas limit of every system call. -/
def SysCallParams.gasLimit (_ : SysCallParams) : Nat := 30000000

/-- `systemCall`: the frame at its end. -/
def systemCall (params : SysCallParams) (code : Message → EvmM Ending) : EvmM Computation := do
  let stateGasReservoir := if FkAmsterdam ≤ fork then SYSTEM_STATE_GAS_RESERVOIR else 0
  let msg : Message :=
    { gas := params.gasLimit
      stateGasReservoir := stateGasReservoir
      currentTarget := params.currentTarget }
  let gasMeter := GasMeter.init msg.gas msg.stateGasReservoir
  if params.codeMissing then
    return ⟨msg, gasMeter, some ⟨false⟩⟩
  else
    execCallOrCreate fork msg gasMeter (code msg)

end Nimbus.Native.Evm
