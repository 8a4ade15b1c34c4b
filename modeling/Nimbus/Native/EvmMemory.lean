import Nimbus.Native.CallTree

/-!
# Memory of a frame

Model of `execution_chain/evm/memory.nim`, of the gas costs of the opcodes that use memory, and
of their handlers in `evm/interpreter/op_handlers` (`oph_hash.nim`, `oph_envinfo.nim`,
`oph_memory.nim`, `oph_log.nim`, `oph_sysops.nim`, `oph_call.nim`, `oph_create.nim`). A frame
executes its opcodes one at a time. A call and a creation that start a child leave the frame
waiting; what the child comes back with, and every answer of the ledger, stand with the step.

`memoryGas` counts what the code does not keep: how much of the gas charged so far was for the
expansion of memory.
-/

namespace Nimbus.Native.Evm.MemoryFrame

open Aristo (UInt256)
open EVMFork

/-! ### Memory -/

def ceil32 (value : Nat) : Nat :=
  let remainder := value % 32
  if remainder ≠ 0 then value + 32 - remainder else value

structure EvmMemory where
  bytes : List UInt8 := []

namespace EvmMemory

variable (memory : EvmMemory)

def len : Nat := memory.bytes.length

def extend (startPos size : Nat) : EvmMemory :=
  if size > 0 then
    let newSize := ceil32 (startPos + size)
    if newSize > memory.len then
      ⟨memory.bytes ++ List.replicate (newSize - memory.len) 0⟩
    else memory
  else memory

def read (startPos size : Nat) : List UInt8 :=
  (memory.bytes.drop startPos).take size

/-- `assign` to the bytes from `startPos` on. -/
def assign (startPos : Nat) (value : List UInt8) : EvmMemory :=
  ⟨memory.bytes.take startPos ++ value ++ memory.bytes.drop (startPos + value.length)⟩

/-- `none` is `MemoryFull`. -/
def write (startPos : Nat) (value : List UInt8) : Option EvmMemory :=
  let size := value.length
  -- no caller writes an empty value
  if size = 0 then some memory
  else if startPos + size > memory.len then none
  else some (memory.assign startPos value)

def copy (dst src len : Nat) : EvmMemory :=
  if len = 0 then memory
  else
    let memory := memory.extend (max dst src) len
    if dst = src then memory
    else memory.assign dst (memory.read src len)

def writePadded (data : List UInt8) (memPos dataPos len : Nat) : EvmMemory :=
  let memory := memory.extend memPos len
  let dataEndPos := dataPos + len
  let dataStart := min dataPos data.length
  let dataEnd := min data.length dataEndPos
  let dataLen := dataEnd - dataStart
  let padStart := min (memPos + dataLen) memory.len
  let numPad := min (memory.len - padStart) (len - dataLen)
  let padEnd := padStart + numPad
  let memory :=
    if dataLen > 0 then memory.assign memPos ((data.drop dataStart).take dataLen) else memory
  let mi := memPos + dataLen
  if mi < padEnd then memory.assign mi (List.replicate (padEnd - mi) 0) else memory

end EvmMemory

/-! ### Gas costs -/

def GasVeryLow : Nat := 3
def GasCopy : Nat := 3
def GasSha3 : Nat := 30
def GasLog : Nat := 375
def GasLogData : Nat := 8
def GasLogTopic : Nat := 375

variable (fork : EVMFork)

/-- The entry `GasExtCode` of the fee schedules. -/
def GasExtCode : Nat :=
  if fork < FkTangerine then 20 else if fork < FkBerlin then 700 else 0

variable (currentMemSize memOffset memLength : Nat)

def gasSha3 : Nat :=
  gasMemoryExpansion fork currentMemSize memOffset memLength
    + (GasSha3 + (gasFees fork).GasSha3Word * wordCount memLength)

def gasCopy : Nat :=
  GasVeryLow + GasCopy * wordCount memLength
    + gasMemoryExpansion fork currentMemSize memOffset memLength

def gasExtCodeCopy : Nat :=
  GasExtCode fork + GasCopy * wordCount memLength
    + gasMemoryExpansion fork currentMemSize memOffset memLength

def gasLoadStore : Nat :=
  GasVeryLow + gasMemoryExpansion fork currentMemSize memOffset memLength

/-- `gasLog0` to `gasLog4`. -/
def gasLog (topicCount : Nat) (fork : EVMFork) (currentMemSize memOffset memLength : Nat) : Nat :=
  gasMemoryExpansion fork currentMemSize memOffset memLength
    + (GasLog + GasLogData * memLength + topicCount * GasLogTopic)

def gasHalt : Nat :=
  gasMemoryExpansion fork currentMemSize memOffset memLength

/-- `gasEip2929AccountCheck` and `gasEip8038AccountCheck` of an account. -/
def gasAccountCheck (isCold : Bool) : Nat :=
  if isCold then
    if FkAmsterdam ≤ fork then COLD_ACCOUNT_ACCESS_8038 else COLD_ACCOUNT_ACCESS_2929
  else WARM_ACCESS

/-! ### Words as bytes -/

def toBytesBE (x : UInt256) : List UInt8 :=
  (List.range 32).map fun i => UInt8.ofNat (x.toNat / 256 ^ (31 - i))

def fromBytesBE (bytes : List UInt8) : UInt256 :=
  BitVec.ofNat 256 (bytes.foldl (fun acc b => acc * 256 + b.toNat) 0)

def toAddress (x : UInt256) : Address := Vector.ofFn fun i => (toBytesBE x).getD (12 + i) 0

/-! ### Frames -/

/-- What a frame cannot change while it runs. -/
structure FrameEnv where
  fork : EVMFork
  msg : Message
  /-- `Static` is among the flags of the message -/
  isStatic : Bool := false
  /-- the value of the message -/
  value : UInt256 := 0
  data : List UInt8 := []
  code : List UInt8 := []
  keccak256 : List UInt8 → UInt256

structure Log where
  address : Address
  topics : List UInt256
  data : List UInt8

/-- What the frame does when its child has ended. -/
inductive Continuation where
  | call (memPos memLen : Nat) (newAccountCharged : Bool)
  | create (newAccountCharged : Bool)

inductive Progress where
  | running
  | waiting (continuation : Continuation)
  /-- the last opcode has been executed, with the error set by `REVERT` -/
  | halted (error : Option Error)

structure Frame where
  machine : Machine
  /-- the top element first -/
  stack : List UInt256 := []
  memory : EvmMemory := {}
  returnData : List UInt8 := []
  output : List UInt8 := []
  logEntries : List Log := []
  progress : Progress := .running
  memoryGas : Nat := 0

abbrev FrameM := EStateM Fault Frame

/-- An operation of the gas meter. -/
def onMachine {α : Type} (x : EvmM α) : FrameM α := fun f =>
  match x f.machine with
  | .ok a machine => .ok a { f with machine := machine }
  | .error e machine => .error e { f with machine := machine }

variable (env : FrameEnv)

/-- `opcodeGasCost` of an opcode that uses the memory from `memOffset` on. -/
def opcodeGasCost (gasCost memOffset memLength : Nat) : FrameM Unit := do
  onMachine (consumeGas gasCost)
  modify fun f =>
    let expansion :=
      gasMemoryExpansion (forkToSchedule env.fork) f.memory.len memOffset memLength
    { f with memoryGas := f.memoryGas + expansion }

def lsCheck (expected : Nat) : FrameM Unit := do
  if (← get).stack.length < expected then throw .evm else pure ()

/-- The `i`-th element, the top one being the first. -/
def lsPeekInt (i : Nat) : FrameM UInt256 := do return (← get).stack.getD (i - 1) 0

def lsPeekMemRef (i : Nat) : FrameM Nat := do return cleanMemRef (← lsPeekInt i)

def lsPeekSafeInt (i : Nat) : FrameM Nat := do return safeInt (← lsPeekInt i)

def lsPeekAddress (i : Nat) : FrameM Address := do return toAddress (← lsPeekInt i)

def lsShrink (x : Nat) : FrameM Unit := modify fun f => { f with stack := f.stack.drop x }

def lsTop (value : UInt256) : FrameM Unit :=
  modify fun f => { f with stack := value :: f.stack.tail }

def memoryLen : FrameM Nat := do return (← get).memory.len

def modifyMemory (g : EvmMemory → EvmMemory) : FrameM Unit :=
  modify fun f => { f with memory := g f.memory }

def memoryRead (startPos size : Nat) : FrameM (List UInt8) := do
  return (← get).memory.read startPos size

def memoryWrite (startPos : Nat) (value : List UInt8) : FrameM Unit := do
  match (← get).memory.write startPos value with
  | none => throw .evm
  | some memory => modify fun f => { f with memory := memory }

def setReturnData (data : List UInt8) : FrameM Unit :=
  modify fun f => { f with returnData := data }

def setProgress (progress : Progress) : FrameM Unit :=
  modify fun f => { f with progress := progress }

/-- An `if` statement without an `else`. -/
def whenever (p : Prop) [Decidable p] (x : FrameM Unit) : FrameM Unit :=
  if p then x else pure ()

def checkInStaticContext : FrameM Unit := whenever env.isStatic (throw .evm)

/-! ### Opcode handlers -/

def sha3Op : FrameM Unit := do
  lsCheck 2
  let pos ← lsPeekSafeInt 1
  let len ← lsPeekSafeInt 2
  lsShrink 1
  opcodeGasCost env (gasSha3 (forkToSchedule env.fork) (← memoryLen) pos len) pos len
  modifyMemory (·.extend pos len)
  -- of no bytes, where the code takes `EMPTY_SHA3`
  let endRange := min (pos + len) (← memoryLen)
  lsTop (env.keccak256 (← memoryRead pos (endRange - pos)))

/-- `callDataCopyOp` and `codeCopyOp`: the source of the bytes is known. -/
def copyOp (data : List UInt8) : FrameM Unit := do
  lsCheck 3
  let memPos ← lsPeekMemRef 1
  let copyPos ← lsPeekMemRef 2
  let len ← lsPeekMemRef 3
  lsShrink 3
  opcodeGasCost env (gasCopy (forkToSchedule env.fork) (← memoryLen) memPos len) memPos len
  modifyMemory (·.writePadded data memPos copyPos len)

def callDataCopyOp : FrameM Unit := copyOp env env.data

def codeCopyOp : FrameM Unit := copyOp env env.code

/-- `extCodeCopyOp`, `extCodeCopyEIP2929Op` and `extCodeCopyEIP8038Op`, by the forks that use
them. -/
def extCodeCopyOp (isCold : Bool) (code : List UInt8) : FrameM Unit := do
  lsCheck 4
  let memPos ← lsPeekMemRef 2
  let codePos ← lsPeekMemRef 3
  let len ← lsPeekMemRef 4
  let gasCost := gasExtCodeCopy (forkToSchedule env.fork) (← memoryLen) memPos len
  lsShrink 4
  let accountCheck :=
    if env.fork < FkBerlin then 0
    else gasAccountCheck env.fork isCold + if FkAmsterdam ≤ env.fork then WARM_ACCESS else 0
  opcodeGasCost env (gasCost + accountCheck) memPos len
  modifyMemory (·.writePadded code memPos codePos len)

def returnDataCopyOp : FrameM Unit := do
  lsCheck 3
  let memPos ← lsPeekMemRef 1
  let copyPos ← lsPeekMemRef 2
  let len ← lsPeekMemRef 3
  lsShrink 3
  opcodeGasCost env (gasCopy (forkToSchedule env.fork) (← memoryLen) memPos len) memPos len
  let returnData := (← get).returnData
  if copyPos + len > returnData.length then throw .evm
  else modifyMemory (·.writePadded returnData memPos copyPos len)

def mloadOp : FrameM Unit := do
  lsCheck 1
  let memPos ← lsPeekMemRef 1
  opcodeGasCost env (gasLoadStore (forkToSchedule env.fork) (← memoryLen) memPos 32) memPos 32
  modifyMemory (·.extend memPos 32)
  lsTop (fromBytesBE (← memoryRead memPos 32))

def mstoreOp : FrameM Unit := do
  lsCheck 2
  let memPos ← lsPeekMemRef 1
  let value ← lsPeekInt 2
  lsShrink 2
  opcodeGasCost env (gasLoadStore (forkToSchedule env.fork) (← memoryLen) memPos 32) memPos 32
  modifyMemory (·.extend memPos 32)
  memoryWrite memPos (toBytesBE value)

def mstore8Op : FrameM Unit := do
  lsCheck 2
  let memPos ← lsPeekMemRef 1
  let value ← lsPeekInt 2
  lsShrink 2
  opcodeGasCost env (gasLoadStore (forkToSchedule env.fork) (← memoryLen) memPos 1) memPos 1
  modifyMemory (·.extend memPos 1)
  memoryWrite memPos [(toBytesBE value).getD 31 0]

def mCopyOp : FrameM Unit := do
  lsCheck 3
  let dstPos ← lsPeekMemRef 1
  let srcPos ← lsPeekMemRef 2
  let len ← lsPeekMemRef 3
  lsShrink 3
  opcodeGasCost env
    (gasCopy (forkToSchedule env.fork) (← memoryLen) (max dstPos srcPos) len)
    (max dstPos srcPos) len
  modifyMemory (·.copy dstPos srcPos len)

def logImpl (topicCount : Nat) : FrameM Unit := do
  checkInStaticContext env
  lsCheck (2 + topicCount)
  let memPos ← lsPeekMemRef 1
  let len ← lsPeekMemRef 2
  opcodeGasCost env (gasLog topicCount (forkToSchedule env.fork) (← memoryLen) memPos len)
    memPos len
  modifyMemory (·.extend memPos len)
  modify fun f =>
    let log : Log :=
      { address := env.msg.currentTarget
        topics := (f.stack.drop 2).take topicCount
        data := f.memory.read memPos len }
    { f with logEntries := f.logEntries ++ [log] }
  lsShrink (2 + topicCount)

/-- The part that `RETURN` and `REVERT` share. -/
def haltOp (error : Option Error) : FrameM Unit := do
  lsCheck 2
  let pos ← lsPeekMemRef 1
  let len ← lsPeekMemRef 2
  lsShrink 2
  opcodeGasCost env (gasHalt (forkToSchedule env.fork) (← memoryLen) pos len) pos len
  modifyMemory (·.extend pos len)
  modify fun f => { f with output := f.memory.read pos len, progress := .halted error }

def returnOp : FrameM Unit := haltOp env none

def revertOp : FrameM Unit := haltOp env (some ⟨false⟩)

/-! ### Calls -/

/-- What a call reads of the ledger. -/
structure CallAnswers where
  /-- the code address is not in the access list -/
  isCold : Bool := false
  /-- the code address is a delegation: is its target not in the access list? -/
  delegateIsCold : Option Bool := none
  isNewAccount : Bool := false
  senderBalance : UInt256 := 0

/-- `CALL` and `CALLCODE` have the value among their operands. -/
def callValue (kind : CallOp) : FrameM UInt256 :=
  match kind with
  | .Call | .CallCode => lsPeekInt 3
  | .DelegateCall => pure env.value
  | .StaticCall => pure 0

/-- How many operands stand between the code address and the memory ranges. -/
def callSkip (kind : CallOp) : Nat :=
  match kind with
  | .Call | .CallCode => 1
  | .DelegateCall | .StaticCall => 0

/-- `callParams`, `callCodeParams`, `delegateCallParams` and `staticCallParams`. -/
def callParams (kind : CallOp) (answers : CallAnswers) : FrameM LocalParams := do
  let skip := callSkip kind
  lsCheck (6 + skip)
  let value ← callValue env kind
  let p : LocalParams :=
    { kind := kind
      contractGas := ← lsPeekInt 1
      value := value
      codeAddress := ← lsPeekAddress 2
      memInPos := ← lsPeekInt (3 + skip)
      memInLen := ← lsPeekInt (4 + skip)
      memOutPos := ← lsPeekInt (5 + skip)
      memOutLen := ← lsPeekInt (6 + skip)
      currentMemSize := ← memoryLen
      isCold := answers.isCold
      delegateIsCold := answers.delegateIsCold
      isNewAccount := answers.isNewAccount
      senderBalanceLow := answers.senderBalance < value }
  lsShrink (5 + skip)
  lsTop 0
  return p

/-- The two ranges of memory that a call uses. -/
def extendForCall (p : LocalParams) : FrameM Unit := do
  modifyMemory (·.extend (cleanMemRef p.memInPos) (cleanMemRef p.memInLen))
  modifyMemory (·.extend (cleanMemRef p.memOutPos) (cleanMemRef p.memOutLen))

/-- The gas for the child of a call that is given up goes back. -/
def rejectCall (childGasLimit : Nat) (newAccountCharged : Bool) : EvmM Unit := do
  returnGas childGasLimit
  onlyIf newAccountCharged (creditStateGasRefund CREATE_ACCOUNT_STATE_GAS)

/-- A call from its charge on. -/
def callCharged (p : LocalParams) (newAccountCharged : Bool)
    (gasCost childGasLimit : Nat) : FrameM Unit := do
  opcodeGasCost env gasCost p.memRange.1 p.memRange.2
  onMachine (escrowSubcallExecutionGas childGasLimit)
  setReturnData []
  if env.msg.depth ≥ MaxCallDepth then
    onMachine (rejectCall childGasLimit newAccountCharged)
  else
    extendForCall p
    if p.paysValue ∧ p.senderBalanceLow then
      onMachine (rejectCall childGasLimit newAccountCharged)
    else
      -- the full reservoir goes to the child
      onMachine (modify fun m => { m with gasMeter := { m.gasMeter with stateGasLeft := 0 } })
      setProgress (.waiting (.call (cleanMemRef p.memOutPos) (cleanMemRef p.memOutLen)
        newAccountCharged))

/-- `callOp`, `callCodeOp`, `delegateCallOp` and `staticCallOp`. -/
def callImpl (kind : CallOp) (answers : CallAnswers) : FrameM Unit := do
  let p ← callParams env kind answers
  let gasCost1 ← onMachine do gasCall1 env.fork p (← getGasMeter).executionGasLeft
  let newAccountCharged := p.newAccountCharged env.fork
  onMachine (onlyIf newAccountCharged do
    checkStateGas gasCost1 CREATE_ACCOUNT_STATE_GAS
    chargeStateGas CREATE_ACCOUNT_STATE_GAS)
  let gas ← onMachine do gasCall2 env.fork p gasCost1 (← getGasMeter).executionGasLeft
  callCharged env p newAccountCharged gas.1 gas.2

variable (answers : CallAnswers)

def callOp : FrameM Unit := do
  if env.isStatic then
    lsCheck 3
    if (← lsPeekInt 3) > 0 then throw .evm else callImpl env .Call answers
  else callImpl env .Call answers

def callCodeOp : FrameM Unit :=
  callImpl env .CallCode answers

def delegateCallOp : FrameM Unit :=
  callImpl env .DelegateCall answers

def staticCallOp : FrameM Unit :=
  callImpl env .StaticCall answers

/-! ### Creations -/

/-- What a creation reads of the ledger. -/
structure CreateAnswers where
  /-- the address of the new account -/
  address : Address
  senderBalance : UInt256 := 0
  /-- the nonce of the sender is at its maximum -/
  nonceOverflow : Bool := false
  isNewAccount : Bool := true
  contractCollision : Bool := false

def toWord (address : Address) : UInt256 := fromBytesBE address.toList

def postExecutionCreate (child : Computation) (output : List UInt8)
    (newAccountCharged : Bool) : FrameM Unit := do
  onMachine (mergeChild env.fork child newAccountCharged)
  if child.isSuccess then lsTop (toWord child.msg.currentTarget)
  else if child.shouldBurnGas then pure ()
  else setReturnData output

/-- The part of a creation from the gas of its child on. -/
def createChild (answers : CreateAnswers) (childMsg : Message)
    (newAccountCharged : Bool) : FrameM Unit := do
  let createMsgGas ← onMachine do
    let gasMeter ← getGasMeter
    let createMsgGas ← sub gasMeter.executionGasLeft
      (if FkTangerine ≤ env.fork then gasMeter.executionGasLeft / 64 else 0)
    let executionGasLeft ← sub gasMeter.executionGasLeft createMsgGas
    setGasMeter { gasMeter with executionGasLeft := executionGasLeft }
    return createMsgGas
  if answers.contractCollision then
    let child ← onMachine (failedChild { childMsg with gas := createMsgGas } true)
    postExecutionCreate env child [] newAccountCharged
  else
    onMachine (modify fun m => { m with gasMeter := { m.gasMeter with stateGasLeft := 0 } })
    setProgress (.waiting (.create newAccountCharged))

/-- `execSubCreate` of `oph_create.nim`. -/
def execSubCreate (answers : CreateAnswers) : FrameM Unit := do
  let childMsg : Message :=
    { isCreate := true
      depth := env.msg.depth + 1
      gas := 0
      stateGasReservoir := 0
      currentTarget := answers.address }
  if answers.nonceOverflow then
    let child ← onMachine (failedChild childMsg false)
    postExecutionCreate env child [] false
  else
    let newAccountCharged := decide (FkAmsterdam ≤ env.fork) && answers.isNewAccount
    onMachine (onlyIf newAccountCharged (chargeStateGas CREATE_ACCOUNT_STATE_GAS))
    createChild env answers childMsg newAccountCharged

/-- A creation after its memory has been extended. -/
def createExtended (answers : CreateAnswers) (endowment : UInt256)
    (memLen : Nat) : FrameM Unit := do
  setReturnData []
  if initcodeTooLong env.fork memLen then throw .evm
  else
    whenever (env.fork < FkAmsterdam) (checkInStaticContext env)
    if env.msg.depth ≥ MaxCallDepth then pure ()
    else if endowment ≠ 0 ∧ answers.senderBalance < endowment then pure ()
    else execSubCreate env answers

/-- `createOp` and `create2Op`. -/
def createImpl (create2 : Bool) (answers : CreateAnswers) : FrameM Unit := do
  whenever (FkAmsterdam ≤ env.fork) (checkInStaticContext env)
  -- the salt is the fourth operand of `CREATE2`
  let skip := if create2 then 1 else 0
  lsCheck (3 + skip)
  let endowment ← lsPeekInt 1
  let memPos ← lsPeekSafeInt 2
  let memLen ← lsPeekSafeInt 3
  lsShrink (2 + skip)
  lsTop 0
  let gasCost := gasCreate (forkToSchedule env.fork) (← memoryLen) memPos memLen
  opcodeGasCost env
    (gasCost + if create2 then gasCreate2 (forkToSchedule env.fork) memLen else 0) memPos memLen
  modifyMemory (·.extend memPos memLen)
  createExtended env answers endowment memLen

/-! ### Steps of a frame -/

inductive Opcode where
  | Sha3
  | CallDataCopy
  | CodeCopy
  | ExtCodeCopy (isCold : Bool) (code : List UInt8)
  | ReturnDataCopy
  | Mload
  | Mstore
  | Mstore8
  | Mcopy
  | Log (topicCount : Nat)
  | Return
  | Revert
  | Call (answers : CallAnswers)
  | CallCode (answers : CallAnswers)
  | DelegateCall (answers : CallAnswers)
  | StaticCall (answers : CallAnswers)
  | Create (answers : CreateAnswers)
  | Create2 (answers : CreateAnswers)
  /-- an opcode that does not change memory: the new stack, and what it does to gas and state -/
  | other (op : Frame → EvmM (List UInt256))

def Opcode.exec : Opcode → FrameM Unit
  | .Sha3 => sha3Op env
  | .CallDataCopy => callDataCopyOp env
  | .CodeCopy => codeCopyOp env
  | .ExtCodeCopy isCold code => extCodeCopyOp env isCold code
  | .ReturnDataCopy => returnDataCopyOp env
  | .Mload => mloadOp env
  | .Mstore => mstoreOp env
  | .Mstore8 => mstore8Op env
  | .Mcopy => mCopyOp env
  | .Log topicCount => logImpl env topicCount
  | .Return => returnOp env
  | .Revert => revertOp env
  | .Call answers => callOp env answers
  | .CallCode answers => callCodeOp env answers
  | .DelegateCall answers => delegateCallOp env answers
  | .StaticCall answers => staticCallOp env answers
  | .Create answers => createImpl env false answers
  | .Create2 answers => createImpl env true answers
  | .other op => do
    let stack ← onMachine (op (← get))
    modify fun f => { f with stack := stack }

inductive FrameStep where
  | opcode (op : Opcode)
  /-- the child has ended, and left the storage -/
  | resume (child : Computation) (output : List UInt8) (storage : Storage)

/-- The continuation of a call. -/
def resumeCall (child : Computation) (output : List UInt8)
    (memPos memLen : Nat) (newAccountCharged : Bool) : FrameM Unit := do
  onMachine (mergeChild env.fork child newAccountCharged)
  whenever child.isSuccess (lsTop 1)
  let actualOutputSize := min memLen output.length
  whenever (actualOutputSize > 0) (memoryWrite memPos (output.take actualOutputSize))
  setReturnData output

def FrameStep.run (x : FrameStep) : FrameM Unit := do
  match x, (← get).progress with
  | .opcode op, .running => op.exec env
  | .resume child output storage, .waiting continuation =>
    modify fun f => { f with
      progress := .running
      machine := { f.machine with storage := storage, ended := child :: f.machine.ended } }
    match continuation with
    | .call memPos memLen newAccountCharged =>
      resumeCall env child output memPos memLen newAccountCharged
    | .create newAccountCharged => postExecutionCreate env child output newAccountCharged
  -- no such step: a frame that waits runs no opcode, and one that has halted goes no further
  | _, _ => throw .defect

/-- `newComputation`, with the gas and the state that the frame starts with. -/
def newComputation (machine : Machine) : Frame := { machine := machine }

/-- The state after a step, if the frame has met no error. -/
def frameStep (f : Frame) (x : FrameStep) : Except Fault Frame :=
  match x.run env f with
  | .ok _ f' => .ok f'
  | .error e _ => .error e

end Nimbus.Native.Evm.MemoryFrame
