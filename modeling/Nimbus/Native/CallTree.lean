import Nimbus.Native.GasMeter

/-!
# Call trees

Model of the opcode handlers of `execution_chain/evm/interpreter/op_handlers` that move gas
between frames (`oph_call.nim`, `oph_create.nim`) or charge and credit it by the state
(`oph_memory.nim`'s `SSTORE`), of `evm/computation.nim` and `evm/interpreter_dispatch.nim`, and
of the run of a transaction or a system call in `transaction/call_common.nim`,
`eoa_delegation.nim` and `system_call.nim`.

A run is given by the opcodes that its frames execute, as a tree. What an opcode finds out from
the rest of the state (is an account new, cold, does it have the balance) stands with the
opcode: every answer is covered.
-/

namespace Nimbus.Native.Evm

open Aristo (UInt256)
open EVMFork

def MaxCallDepth : Nat := 1024
def EIP170_MAX_CODE_SIZE : Nat := 0x6000
def EIP3860_MAX_INITCODE_SIZE : Nat := 2 * EIP170_MAX_CODE_SIZE
def EIP7954_MAX_CODE_SIZE : Nat := 0x10000
def EIP7954_MAX_INITCODE_SIZE : Nat := 2 * EIP7954_MAX_CODE_SIZE
def TX_MAX_GAS_LIMIT : Nat := 2 ^ 24
def TX_MAX_TOTAL_GAS_LIMIT : Nat := 2 ^ 32 - 1
def PER_AUTH_BASE_COST : Nat := 12500
def PER_EMPTY_ACCOUNT_COST : Nat := 25000

inductive CallOp where
  | Call
  | CallCode
  | DelegateCall
  | StaticCall
  deriving DecidableEq

/-- The operands of a call, and what the handler reads of the state. -/
structure LocalParams where
  kind : CallOp
  contractGas : UInt256
  value : UInt256
  codeAddress : Address
  memInPos : UInt256 := 0
  memInLen : UInt256 := 0
  memOutPos : UInt256 := 0
  memOutLen : UInt256 := 0
  currentMemSize : Nat := 0
  /-- the code address is not in the access list -/
  isCold : Bool := false
  /-- the code address is a delegation: is its target not in the access list? -/
  delegateIsCold : Option Bool := none
  isNewAccount : Bool := false
  /-- the balance of the sender is below the value -/
  senderBalanceLow : Bool := false

structure CreateParams where
  /-- `CREATE2` -/
  create2 : Bool := false
  endowmentNonZero : Bool := false
  memPos : UInt256 := 0
  memLen : UInt256 := 0
  currentMemSize : Nat := 0
  currentTarget : Address
  senderBalanceLow : Bool := false
  /-- the nonce of the sender is at its maximum -/
  nonceOverflow : Bool := false
  isNewAccount : Bool := true
  contractCollision : Bool := false

/-- The opcodes a frame executes. -/
inductive Prog where
  /-- `STOP`, `RETURN` or `SELFDESTRUCT`, or the end of a precompile -/
  | success (output : List UInt8)
  | revert
  /-- an invalid opcode, a stack or jump error, a failing precompile, ... -/
  | halt
  /-- an opcode (or precompile) that only costs gas -/
  | opcode (gasCost : Nat) (rest : Prog)
  /-- the new account of a `SELFDESTRUCT`, after its gas cost -/
  | newAccount (rest : Prog)
  | sstore (slot value : UInt256) (isCold : Bool) (rest : Prog)
  | call (params : LocalParams) (child rest : Prog)
  | create (params : CreateParams) (child rest : Prog)

/-- How the code of a frame ends, when no opcode fails. -/
inductive Ending where
  | success (output : List UInt8)
  | revert

/-! ### Storage writes -/

variable (fork : EVMFork) (msg : Message) (slot newValue : UInt256)

/-- `sstoreImpl`, of the forks without net gas metering. -/
def sstoreImpl : EvmM Unit := do
  let storage := (← get).storage
  let currentValue := storage.getStorage msg.currentTarget slot
  let res := gasSstore (forkToSchedule fork) newValue ⟨currentValue, 0⟩
  consumeGas res.gasCost
  refundGas res.gasRefund
  modify fun s => { s with storage := s.storage.setStorage msg.currentTarget slot newValue }

def sstoreNetGasMeteringImpl (coldAccess : Nat) : EvmM Unit := do
  let storage := (← get).storage
  let currentValue := storage.getStorage msg.currentTarget slot
  let originalValue := storage.getCommittedStorage msg.currentTarget slot
  let res := gasSstore (forkToSchedule fork) newValue ⟨currentValue, originalValue⟩
  let gasCost ← add res.gasCost coldAccess
  consumeGas gasCost
  refundGas res.gasRefund
  modify fun s => { s with storage := s.storage.setStorage msg.currentTarget slot newValue }

def sstore8038Impl (coldAccess : Nat) : EvmM Unit := do
  let storage := (← get).storage
  let currentValue := storage.getStorage msg.currentTarget slot
  let originalValue := storage.getCommittedStorage msg.currentTarget slot
  let res := gasSstore (forkToSchedule fork) newValue ⟨currentValue, originalValue⟩
  let gasCost ← add res.gasCost coldAccess
  consumeGas gasCost
  onlyIf (res.creditStateGas > 0) (creditStateGasRefund res.creditStateGas)
  onlyIf (res.stateGas > 0) (chargeStateGas res.stateGas)
  refundGas res.gasRefund
  modify fun s => { s with storage := s.storage.setStorage msg.currentTarget slot newValue }

def SentryGasEIP2200 : Nat := 2300

/-- The `SSTORE` handlers, by the forks that use them. -/
def sstoreOp (isCold : Bool) : EvmM Unit := do
  if fork < FkConstantinople ∨ fork = FkPetersburg then
    sstoreImpl fork msg slot newValue
  else if fork = FkConstantinople then
    sstoreNetGasMeteringImpl fork msg slot newValue 0
  else if fork < FkBerlin then
    checkGas (SentryGasEIP2200 + 1)
    sstoreNetGasMeteringImpl fork msg slot newValue 0
  else if fork < FkAmsterdam then
    checkGas (SentryGasEIP2200 + 1)
    sstoreNetGasMeteringImpl fork msg slot newValue
      (if isCold then COLD_STORAGE_ACCESS_2929 else 0)
  else
    let coldAccessGas := if isCold then COLD_STORAGE_ACCESS_8038 else WARM_ACCESS
    checkGas (max coldAccessGas (SentryGasEIP2200 + 1))
    sstore8038Impl fork msg slot newValue coldAccessGas

/-! ### Frames -/

/-- Runs what the code follows by `isOkOr`: the result, if there is one. -/
def attempt {α : Type} (x : EvmM α) : EvmM (Option α) := fun s =>
  match x s with
  | .ok a s' => .ok (some a) s'
  | .error .evm s' => .ok none s'
  | .error .defect s' => .error .defect s'

/-- `writeContract`: the error it sets. -/
def writeContract (output : List UInt8) : EvmM (Option Error) := do
  -- what is left of the block `writeContractCode` when it is broken out of
  let outOfGas : Option Error := if FkHomestead ≤ fork then some ⟨true⟩ else none
  if output.length = 0 then
    return none
  else if FkLondon ≤ fork ∧ output.head? = some 0xEF then
    return some ⟨true⟩
  else if FkAmsterdam ≤ fork then
    if output.length > EIP7954_MAX_CODE_SIZE then
      return outOfGas
    else if (← attempt (consumeGas (6 * wordCount output.length))).isNone then
      return outOfGas
    else if (← attempt (chargeStateGas (output.length * COST_PER_STATE_BYTE))).isNone then
      return outOfGas
    else
      return none
  else if (← attempt (consumeGas (gasCodeDeposit (forkToSchedule fork) output.length))).isNone then
    return outOfGas
  else if FkSpurious ≤ fork ∧ output.length > EIP170_MAX_CODE_SIZE then
    return some ⟨true⟩
  else
    return none

/-- `executeOpcodes`: the error of the frame, or its output. -/
def executeOpcodes (code : EvmM Ending) : EvmM (Except Error (List UInt8)) := fun s =>
  match code s with
  | .ok (.success output) s' => .ok (.ok output) s'
  | .ok .revert s' => .ok (.error ⟨false⟩) s'
  | .error .evm s' => .ok (.error ⟨true⟩) s'
  | .error .defect s' => .error .defect s'

/-- `afterExec`, up to the end of the savepoint. -/
def afterExec (res : Except Error (List UInt8)) : EvmM (Option Error) := do
  match res with
  | .error error => return some error
  | .ok output => if msg.isCreate then writeContract fork output else return none

/-- `beforeExec`, as far as it changes the storage. -/
def beforeExec : EvmM Unit :=
  onlyIf msg.isCreate
    (modify fun s => { s with storage := s.storage.clearStorage msg.currentTarget })

/-- The end of `afterExec`: the savepoint of the frame is committed or rolled back. -/
def endSavePoint (before : Storage) (error : Option Error) : EvmM Unit :=
  onlyIf error.isSome do
    refillFrameStateGas msg.stateGasReservoir
    modify fun s => { s with storage := before }

/-- One frame of `execCallOrCreate`, from `beforeExec` to `afterExec`. The gas meter of the
caller is set aside meanwhile. -/
def execCallOrCreate (gasMeter : GasMeter) (code : EvmM Ending) : EvmM Computation := do
  let caller ← get
  setGasMeter gasMeter
  beforeExec msg
  let res ← executeOpcodes code
  let error ← afterExec fork msg res
  endSavePoint msg caller.storage error
  let gasMeter ← getGasMeter
  -- the gas used that `captureExit` gets
  let _ ← sub msg.gas gasMeter.executionGasLeft
  let c : Computation := ⟨msg, gasMeter, error⟩
  modify fun s => { s with gasMeter := caller.gasMeter, ended := c :: s.ended }
  return c

/-- The continuations of a call and of a creation: the execution gas the child gives back. -/
def returnChildGas (child : Computation) : EvmM Unit := do
  if child.shouldBurnGas then
    let used ← add child.gasMeter.executionGasUsed child.gasMeter.executionGasLeft
    appendExecutionGasUsed used
  else
    returnGas child.gasMeter.executionGasLeft
    appendExecutionGasUsed child.gasMeter.executionGasUsed

/-- The state gas of a child that has succeeded. -/
def mergeStateGas (child : Computation) : EvmM Unit := do
  returnStateGas child.gasMeter.stateGasLeft
  appendStateGasUsed child.gasMeter.stateGasUsed
  let gasMeter ← getGasMeter
  let stateGasSpilled ← add gasMeter.stateGasSpilled child.gasMeter.stateGasSpilled
  setGasMeter { gasMeter with stateGasSpilled := stateGasSpilled }
  repayStateGasSpill

/-- The part that the continuations of a call and of a creation share. -/
def mergeChild (child : Computation) (newAccountCharged : Bool) : EvmM Unit := do
  returnChildGas child
  if child.isSuccess then
    onlyIf (FkAmsterdam ≤ fork) (mergeStateGas child)
    refundGas child.gasMeter.refundCounter
  else if FkAmsterdam ≤ fork then
    returnStateGas child.gasMeter.stateGasLeft
    onlyIf newAccountCharged (creditStateGasRefund CREATE_ACCOUNT_STATE_GAS)
  else
    return ()

/-! ### Calls -/

/-- `gasCallEIP2929`. -/
def gasCallEIP2929 (isCold : Bool) : Nat :=
  if FkBerlin ≤ fork ∧ isCold then
    if FkAmsterdam ≤ fork then COLD_ACCOUNT_ACCESS_8038 - WARM_ACCESS
    else COLD_ACCOUNT_ACCESS_2929 - WARM_ACCESS
  else 0

/-- `gasCallDelegate`, with `delegateResolutionCost`. -/
def gasCallDelegate (delegateIsCold : Option Bool) : Nat :=
  if FkPrague ≤ fork then
    match delegateIsCold with
    | none => 0
    | some true =>
      if FkAmsterdam ≤ fork then COLD_ACCOUNT_ACCESS_8038 else COLD_ACCOUNT_ACCESS_2929
    | some false => WARM_ACCESS
  else 0

variable (p : LocalParams)

def LocalParams.nonZeroVal : Bool := p.kind != .StaticCall && p.value != 0

/-- The call moves its value, and pays for it. -/
def LocalParams.paysValue : Bool :=
  p.nonZeroVal && (p.kind == .Call || p.kind == .CallCode)

/-- The operands of the wider of the two memory ranges. -/
def LocalParams.memRange : Nat × Nat :=
  let memInPos := cleanMemRef p.memInPos
  let memInLen := cleanMemRef p.memInLen
  let memOutPos := cleanMemRef p.memOutPos
  let memOutLen := cleanMemRef p.memOutLen
  if calcMemSize memOutPos memOutLen < calcMemSize memInPos memInLen then (memInPos, memInLen)
  else (memOutPos, memOutLen)

def gasCall1 (gasLeft : Nat) : EvmM Nat := do
  let (memOffset, memLength) := p.memRange
  let memoryCost := gasMemoryExpansion (forkToSchedule fork) p.currentMemSize memOffset memLength
  let valueCost := if p.paysValue then (gasFees (forkToSchedule fork)).GasCallValue else 0
  let gasCost ← add memoryCost valueCost
  let gasCost ← add gasCost (gasFees (forkToSchedule fork)).GasCall
  let gasCost ← add gasCost (gasCallEIP2929 fork p.isCold)
  if gasLeft < gasCost then throw .evm else return gasCost

/-- The charge for an account that the call creates, before Amsterdam. -/
def newAccountCost : Nat :=
  if p.kind = .Call ∧ p.isNewAccount
      ∧ (fork < FkSpurious ∨ (fork < FkAmsterdam ∧ p.nonZeroVal)) then
    (gasFees (forkToSchedule fork)).GasNewAccount
  else 0

/-- The gas of the child, before the stipend. -/
def gasCap (gasLeft : Nat) : EvmM Nat :=
  if FkTangerine ≤ fork then
    let gas := all_but_one_64th gasLeft
    if p.contractGas.toNat > GasInt.high ∨ gas < p.contractGas.toNat then return gas
    else return p.contractGas.toNat
  else if p.contractGas.toNat > GasInt.high then throw .evm
  else return p.contractGas.toNat

/-- `gasCall2`: the gas cost, and the gas of the child. -/
def gasCall2 (gasCost1 gasLeft : Nat) : EvmM (Nat × Nat) := do
  let gasCost ← add gasCost1 (gasCallDelegate fork p.delegateIsCold)
  if gasLeft < gasCost then
    throw .evm
  else
    let gasCost ← add gasCost (newAccountCost fork p)
    if gasLeft < gasCost then
      throw .evm
    else
      let gasLeft ← sub gasLeft gasCost
      let childGasLimit ← gasCap fork p gasLeft
      if gasCost + childGasLimit > GasInt.high then
        throw .evm
      else
        let stipend := if p.paysValue then (gasFees (forkToSchedule fork)).GasCallStipend else 0
        return (gasCost + childGasLimit, ← add childGasLimit stipend)

/-- Does the opcode charge for a new account in state gas? -/
def LocalParams.newAccountCharged (fork : EVMFork) : Bool :=
  FkAmsterdam ≤ fork && p.kind == .Call && p.isNewAccount && p.nonZeroVal

/-- `callOp`, `callCodeOp`, `delegateCallOp` and `staticCallOp`. -/
def callOp (child : Message → EvmM Ending) : EvmM Unit := do
  let gasCost1 ← gasCall1 fork p (← getGasMeter).executionGasLeft
  let newAccountCharged := p.newAccountCharged fork
  onlyIf newAccountCharged do
    checkStateGas gasCost1 CREATE_ACCOUNT_STATE_GAS
    chargeStateGas CREATE_ACCOUNT_STATE_GAS
  let (gasCost, childGasLimit) ← gasCall2 fork p gasCost1 (← getGasMeter).executionGasLeft
  consumeGas gasCost
  escrowSubcallExecutionGas childGasLimit
  if msg.depth ≥ MaxCallDepth ∨ (p.paysValue ∧ p.senderBalanceLow) then
    returnGas childGasLimit
    onlyIf newAccountCharged (creditStateGasRefund CREATE_ACCOUNT_STATE_GAS)
  else
    -- the full reservoir goes to the child
    let gasMeter ← getGasMeter
    setGasMeter { gasMeter with stateGasLeft := 0 }
    let childMsg : Message :=
      { depth := msg.depth + 1
        gas := childGasLimit
        stateGasReservoir := gasMeter.stateGasLeft
        currentTarget :=
          match p.kind with
          | .Call | .StaticCall => p.codeAddress
          | .CallCode | .DelegateCall => msg.currentTarget }
    let c ← execCallOrCreate fork childMsg
      (GasMeter.init childMsg.gas childMsg.stateGasReservoir) (child childMsg)
    mergeChild fork c newAccountCharged

/-! ### Creations -/

/-- A child frame that never gets to run. -/
def failedChild (burnsGas : Bool) : EvmM Computation := do
  let c : Computation := ⟨msg, GasMeter.init msg.gas msg.stateGasReservoir, some ⟨burnsGas⟩⟩
  modify fun s => { s with ended := c :: s.ended }
  return c

def execSubCreate (p : CreateParams) (child : Message → EvmM Ending) : EvmM Unit := do
  let childMsg : Message :=
    { isCreate := true
      depth := msg.depth + 1
      gas := 0
      stateGasReservoir := 0
      currentTarget := p.currentTarget }
  if p.nonceOverflow then
    let c ← failedChild childMsg false
    mergeChild fork c false
  else
    let newAccountCharged := decide (FkAmsterdam ≤ fork) && p.isNewAccount
    onlyIf newAccountCharged (chargeStateGas CREATE_ACCOUNT_STATE_GAS)
    let gasMeter ← getGasMeter
    let createMsgGas ← sub gasMeter.executionGasLeft
      (if FkTangerine ≤ fork then gasMeter.executionGasLeft / 64 else 0)
    let executionGasLeft ← sub gasMeter.executionGasLeft createMsgGas
    setGasMeter { gasMeter with executionGasLeft := executionGasLeft }
    if p.contractCollision then
      let c ← failedChild { childMsg with gas := createMsgGas } true
      mergeChild fork c newAccountCharged
    else
      let gasMeter ← getGasMeter
      setGasMeter { gasMeter with stateGasLeft := 0 }
      let childMsg :=
        { childMsg with gas := createMsgGas, stateGasReservoir := gasMeter.stateGasLeft }
      let c ← execCallOrCreate fork childMsg
        (GasMeter.init childMsg.gas childMsg.stateGasReservoir) (child childMsg)
      mergeChild fork c newAccountCharged

/-- Is the init code above the limit of its size? -/
def initcodeTooLong (memLen : Nat) : Bool :=
  if FkAmsterdam ≤ fork then memLen > EIP7954_MAX_INITCODE_SIZE
  else FkShanghai ≤ fork && memLen > EIP3860_MAX_INITCODE_SIZE

/-- `createOp` and `create2Op`. -/
def createOp (p : CreateParams) (child : Message → EvmM Ending) : EvmM Unit := do
  let memPos := safeInt p.memPos
  let memLen := safeInt p.memLen
  let gasCost ← add (gasCreate (forkToSchedule fork) p.currentMemSize memPos memLen)
    (if p.create2 then gasCreate2 (forkToSchedule fork) memLen else 0)
  consumeGas gasCost
  if initcodeTooLong fork memLen then
    throw .evm
  else if msg.depth ≥ MaxCallDepth ∨ (p.endowmentNonZero ∧ p.senderBalanceLow) then
    return ()
  else
    execSubCreate fork msg p child

/-! ### The opcodes of a frame -/

def Prog.exec (fork : EVMFork) : Prog → Message → EvmM Ending
  | .success output, _ => return .success output
  | .revert, _ => return .revert
  | .halt, _ => throw .evm
  | .opcode gasCost rest, msg => do
    consumeGas gasCost
    rest.exec fork msg
  | .newAccount rest, msg => do
    onlyIf (FkAmsterdam ≤ fork) (chargeStateGas CREATE_ACCOUNT_STATE_GAS)
    rest.exec fork msg
  | .sstore slot value isCold rest, msg => do
    sstoreOp fork msg slot value isCold
    rest.exec fork msg
  | .call params child rest, msg => do
    callOp fork msg params (child.exec fork)
    rest.exec fork msg
  | .create params child rest, msg => do
    createOp fork msg params (child.exec fork)
    rest.exec fork msg

end Nimbus.Native.Evm
