import Nimbus.Native.Interpreter

/-!
# Frames and opcode handlers

Model of `evm/interpreter_dispatch.nim` (`beforeExec`, `afterExec`, `execCallOrCreate`), of
`writeContract` and `execSelfDestruct` of `evm/computation.nim`, and of the handlers of
`oph_call.nim`, `oph_create.nim`, `oph_memory.nim`, `oph_log.nim` and `oph_sysops.nim` that touch
the state. An opcode that only reads is a warm access at most.
-/

namespace Nimbus.Native.Interpreter

open Aristo (Hash32 UInt256)
open Evm (EVMFork CallOp Ending MaxCallDepth EIP170_MAX_CODE_SIZE EIP7954_MAX_CODE_SIZE
  initcodeTooLong)
open Evm.EVMFork
open Ledger (RIPEMD_ADDR)
open MsgFlag

/-! ### Precompiles and delegations -/

variable (fork : EVMFork)

/-- `getMaxPrecompile`, by the lower two bytes of the address. -/
def getMaxPrecompile : Nat :=
  if fork < FkByzantium then 4
  else if fork < FkIstanbul then 8
  else if fork < FkCancun then 9
  else if fork < FkPrague then 10
  else if fork < FkOsaka then 17
  else 0x100

def isPrecompile (codeAddress : Address) : Bool :=
  let key := (codeAddress.get 18).toNat * 256 + (codeAddress.get 19).toNat
  (codeAddress.toList.take 18).all (· == 0) && 0 < key && (key ≤ 17 || key == 0x100)
    && key ≤ getMaxPrecompile fork

def isDelegation (code : List UInt8) : Bool :=
  code.length == 23 && code.take 3 == [0xef, 0x01, 0x00]

def parseDelegationAddress (code : List UInt8) : Option Address :=
  if isDelegation code then some (Vector.ofFn fun i : Fin 20 => code.getD (3 + i) 0) else none

/-! ### Logs of transfers -/

def SYSTEM_ADDRESS : Address := Vector.ofFn fun i => if i = 19 then 0xfe else 0xff

/-- A topic that holds an address. -/
def addressTopic (address : Address) : Hash32 :=
  Vector.ofFn fun i : Fin 32 => if i.val < 12 then 0 else address.toList.getD (i.val - 12) 0

def createTransferLog (originator beneficiary : Address) (value : UInt256) : Log where
  address := SYSTEM_ADDRESS
  topics :=
    [toBytesBE 0xddf252ad1be2c89b69c2b068fc378daa952ba7f163c4a11628f55a4df523b3ef#256,
      addressTopic originator, addressTopic beneficiary]
  data := (toBytesBE value).toList

variable (msg : Message)

def emitTransferLog : InterpM Unit :=
  if msg.value = 0 then pure ()
  else if msg.sender = msg.currentTarget then pure ()
  else addLogEntry (createTransferLog msg.sender msg.currentTarget msg.value)

variable (beneficiary : Address)

def emitSelfDestructLog (value : UInt256) : InterpM Unit :=
  if value = 0 then pure ()
  else onlyIf (msg.currentTarget ≠ beneficiary)
    (addLogEntry (createTransferLog msg.currentTarget beneficiary value))

/-! ### Frames -/

/-- What a creation meets besides the state. -/
structure Creation where
  /-- the database has storage of the account -/
  hasStorage : Bool := false
  /-- the gas pays for the code -/
  depositGas : Bool := true

/-- The transfer of a call or a creation. -/
def transfer : InterpM Unit := do
  subBalance msg.sender msg.value
  addBalance fork msg.currentTarget msg.value

def beforeExecCall : InterpM Unit :=
  onlyIf (msg.kind = .Call) do
    transfer fork msg
    onlyIf (FkAmsterdam ≤ fork) (emitTransferLog msg)

variable (creation : Creation)

def beforeExecCreate : InterpM Unit := do
  transfer fork msg
  modifyLedger (·.clearStorage msg.currentTarget creation.hasStorage)
  onlyIf (FkSpurious ≤ fork) (modifyLedger (·.incNonce msg.currentTarget))
  onlyIf (FkAmsterdam ≤ fork) (emitTransferLog msg)

def beforeExec : InterpM Unit :=
  if msg.isCreate then beforeExecCreate fork msg creation else beforeExecCall fork msg

/-- `executeOpcodes`: the output, if no opcode fails. -/
def executeOpcodes (code : InterpM Ending) : InterpM (Option (List UInt8)) := fun s =>
  match code s with
  | .ok (.success output) s' => .ok (some output) s'
  | .ok .revert s' => .ok none s'
  | .error _ s' => .ok none s'

/-- `writeContract`: does the frame stay successful? -/
def writeContract (output : List UInt8) : InterpM Bool := do
  -- what is left of the block `writeContractCode` when it is broken out of
  let outOfGas : Bool := fork < FkHomestead
  if output.length = 0 then return true
  else if FkLondon ≤ fork ∧ output.head? = some 0xEF then return false
  else if FkAmsterdam ≤ fork ∧ output.length > EIP7954_MAX_CODE_SIZE then return outOfGas
  else if !creation.depositGas then return outOfGas
  else if fork < FkAmsterdam ∧ FkSpurious ≤ fork ∧ output.length > EIP170_MAX_CODE_SIZE then
    return false
  else
    modifyLedger (·.setCode msg.currentTarget output)
    return true

def afterExecCall (isError : Bool) : InterpM Unit :=
  onlyIf ((isError ∨ FkByzantium ≤ fork) ∧ msg.currentTarget = RIPEMD_ADDR)
    (modify fun s => { s with ripemdSpecial := true })

/-- `afterExec`, up to the end of the savepoint: has the frame succeeded? -/
def afterExec (output : Option (List UInt8)) : InterpM Bool := do
  if msg.isCreate then
    match output with
    | some output => writeContract fork msg creation output
    | none => return false
  else
    afterExecCall fork msg output.isNone
    return output.isSome

structure Computation where
  msg : Message
  isSuccess : Bool
  logEntries : List Log := []
  transientStorage : Table (Address × UInt256) UInt256 := ∅

/-- The savepoint of the frame is committed or rolled back. -/
def endSavePoint (before : LedgerState) (isSuccess : Bool) : InterpM Unit :=
  onlyIf (isSuccess = false) (modifyLedger fun _ => before)

/-- One frame of `execCallOrCreate`, from `beforeExec` to `afterExec`. The logs and the transient
storage of the caller are set aside meanwhile. -/
def execCallOrCreate (code : InterpM Ending) : InterpM Computation := do
  let caller ← get
  let before : Effects := { ledger := caller.ledger }
  set { caller with toEffects := before }
  beforeExec fork msg creation
  let output ← executeOpcodes code
  let isSuccess ← afterExec fork msg creation output
  endSavePoint before.ledger isSuccess
  let s ← get
  set { s with
    logEntries := caller.logEntries
    transientStorage := caller.transientStorage
    ended := ⟨msg, before, s.toEffects⟩ :: s.ended }
  return ⟨msg, isSuccess, s.logEntries, s.transientStorage⟩

/-- The continuations of a call and of a creation, with `merge`. -/
def mergeChild (child : Computation) : InterpM Unit :=
  onlyIf child.isSuccess
    (modify fun s => { s with
      logEntries := s.logEntries ++ child.logEntries
      transientStorage := child.transientStorage ∪ s.transientStorage })

/-- A child frame, from its start to the end of the continuation. -/
def execChild (code : Message → InterpM Ending) : InterpM Unit := do
  let child ← execCallOrCreate fork msg creation (code msg)
  mergeChild child

/-! ### Calls -/

structure CallOperands where
  op : CallOp
  value : UInt256 := 0
  codeAddress : Address

structure LocalParams where
  value : UInt256
  codeAddress : Address
  sender : Address
  flags : Finset MsgFlag
  currentTarget : Address

/-- The part of `updateStackAndParams` that concerns the flags. -/
def updateStackAndParams (q : LocalParams) : LocalParams :=
  if isPrecompile fork q.codeAddress then { q with flags := insert Precompile q.flags } else q

variable (p : CallOperands)

def callParams : LocalParams :=
  updateStackAndParams fork
    { value := p.value
      codeAddress := p.codeAddress
      sender := msg.currentTarget
      flags := msg.flags
      currentTarget := p.codeAddress }

def callCodeParams : LocalParams :=
  { callParams fork msg p with currentTarget := msg.currentTarget }

def delegateCallParams : LocalParams :=
  updateStackAndParams fork
    { value := msg.value
      codeAddress := p.codeAddress
      sender := msg.sender
      flags := msg.flags
      currentTarget := msg.currentTarget }

def staticCallParams : LocalParams :=
  updateStackAndParams fork
    { value := 0
      codeAddress := p.codeAddress
      sender := msg.currentTarget
      flags := {Static}
      currentTarget := p.codeAddress }

def LocalParams.childMsg (q : LocalParams) (kind : CallKind) (depth : Nat) : Message where
  kind := kind
  depth := depth + 1
  sender := q.sender
  currentTarget := q.currentTarget
  codeAddress := q.codeAddress
  value := q.value
  flags := q.flags

/-- `gasCallEIP2929` and `gasCallDelegate`, as far as they warm accounts. -/
def accessCallee (q : LocalParams) : InterpM Unit := do
  onlyIf (FkBerlin ≤ fork) (modifyLedger (·.access q.codeAddress))
  let code := (← get).ledger.code q.codeAddress
  match parseDelegationAddress code with
  | some delegateTo =>
    onlyIf (FkPrague ≤ fork ∧ Precompile ∉ q.flags) (modifyLedger (·.access delegateTo))
  | none => return ()

/-- What `callOp`, `callCodeOp`, `delegateCallOp` and `staticCallOp` share. -/
def execCall (q : LocalParams) (kind : CallKind)
    (checkBalance : Bool) (child : Message → InterpM Ending) : InterpM Unit := do
  accessCallee fork q
  if MaxCallDepth ≤ msg.depth then
    return ()
  else if checkBalance && (← get).ledger.getBalance q.sender < q.value then
    return ()
  else
    execChild fork (q.childMsg kind msg.depth) {} child

variable (child : Message → InterpM Ending)

def callOp : InterpM Unit :=
  if Static ∈ msg.flags ∧ p.value > 0 then throw .StaticContext
  else execCall fork msg (callParams fork msg p) .Call true child

def callCodeOp : InterpM Unit :=
  execCall fork msg (callCodeParams fork msg p) .CallCode true child

def delegateCallOp : InterpM Unit := do
  requireFork fork FkHomestead
  execCall fork msg (delegateCallParams fork msg p) .DelegateCall false child

def staticCallOp : InterpM Unit := do
  requireFork fork FkByzantium
  execCall fork msg (staticCallParams fork msg p) .Call false child

/-- The call opcode of the operands. -/
def callOps : InterpM Unit :=
  match p.op with
  | .Call => callOp fork msg p child
  | .CallCode => callCodeOp fork msg p child
  | .DelegateCall => delegateCallOp fork msg p child
  | .StaticCall => staticCallOp fork msg p child

/-! ### Creations -/

structure CreateOperands extends Creation where
  /-- `CREATE2` -/
  create2 : Bool := false
  endowment : UInt256 := 0
  memLen : Nat := 0
  /-- the address that the creation comes to -/
  currentTarget : Address

/-- `incrementNonce`: does the nonce of the sender allow it? -/
def incrementNonce : InterpM Bool := do
  let nonce := (← get).ledger.nonce msg.sender
  if nonce + 1 < nonce then return false
  else
    modifyLedger (·.setNonce msg.sender (nonce + 1))
    return true

def accountDeployable : InterpM Bool := do
  onlyIf (FkBerlin ≤ fork) (modifyLedger (·.access msg.currentTarget))
  return !(← get).ledger.contractCollision msg.currentTarget creation.hasStorage

def CreateOperands.childMsg (p : CreateOperands) (msg : Message) : Message where
  kind := if p.create2 then .Create2 else .Create
  depth := msg.depth + 1
  sender := msg.currentTarget
  value := p.endowment
  currentTarget := p.currentTarget
  codeAddress := Vector.replicate 20 0

def execSubCreate (p : CreateOperands) (child : Message → InterpM Ending) : InterpM Unit := do
  let childMsg := p.childMsg msg
  if !(← incrementNonce childMsg) then return ()
  else if !(← accountDeployable fork childMsg p.toCreation) then return ()
  else execChild fork childMsg p.toCreation child

/-- `createOp` and `create2Op`. -/
def createOp (p : CreateOperands) (child : Message → InterpM Ending) : InterpM Unit := do
  onlyIf p.create2 (requireFork fork FkConstantinople)
  onlyIf (FkAmsterdam ≤ fork) (checkInStaticContext msg)
  onlyIf (initcodeTooLong fork p.memLen) (throw .InvalidInitCode)
  onlyIf (fork < FkAmsterdam) (checkInStaticContext msg)
  if MaxCallDepth ≤ msg.depth then return ()
  else if p.endowment ≠ 0 ∧ (← get).ledger.getBalance msg.currentTarget < p.endowment then
    return ()
  else execSubCreate fork msg p child

/-! ### Storage and logs -/

variable (slot value : UInt256)

/-- `sstoreOp`, `sstoreEIP1283Op` and `sstoreEIP2200Op`. -/
def sstoreOp : InterpM Unit := do
  checkInStaticContext msg
  modifyLedger (·.setStorage msg.currentTarget slot value)

/-- `sstoreEIP2929Op` and `sstoreEIP8038Op`. -/
def sstoreEIP2929Op : InterpM Unit := do
  checkInStaticContext msg
  modifyLedger (·.accessSlot msg.currentTarget slot)
  modifyLedger (·.setStorage msg.currentTarget slot value)

def sstoreOps : InterpM Unit :=
  if fork < FkBerlin then sstoreOp msg slot value else sstoreEIP2929Op msg slot value

/-- `sloadOp` and `sloadEIP2929Op`. -/
def sloadOp (slot : UInt256) : InterpM Unit :=
  onlyIf (FkBerlin ≤ fork) (modifyLedger (·.accessSlot msg.currentTarget slot))

def tstoreOp : InterpM Unit := do
  requireFork fork FkCancun
  checkInStaticContext msg
  modify fun s => { s with
    transientStorage := s.transientStorage.insert (msg.currentTarget, slot) value }

def logImpl (topics : List Hash32) (data : List UInt8) : InterpM Unit := do
  checkInStaticContext msg
  addLogEntry ⟨msg.currentTarget, topics, data⟩

/-! ### Self-destructs -/

/-- What a self-destruct burns: the balance of an account that is deleted and names itself. -/
def burntBySelfDestruct (currentTarget beneficiary : Address)
    (localBalance : UInt256) (newlyCreated : Bool) : Nat :=
  if currentTarget = beneficiary ∧ (fork < FkCancun ∨ fork < FkAmsterdam ∧ newlyCreated) then
    localBalance.toNat
  else 0

variable (newlyCreated : Bool)

def execSelfDestruct : InterpM Unit := do
  let localBalance := (← get).ledger.getBalance msg.currentTarget
  modifyLedger (·.burn
    (burntBySelfDestruct fork msg.currentTarget beneficiary localBalance newlyCreated))
  if FkCancun ≤ fork then
    subBalance msg.currentTarget localBalance
    addBalance fork beneficiary localBalance
    if FkAmsterdam ≤ fork then
      modifyLedger (·.selfDestruct8246 msg.currentTarget newlyCreated)
      emitSelfDestructLog msg beneficiary localBalance
    else
      modifyLedger (·.selfDestruct6780 msg.currentTarget newlyCreated)
  else
    addBalance fork beneficiary localBalance
    modifyLedger (·.destroy msg.currentTarget)

/-- `selfDestructOp` and `selfDestructEIP150Op`. -/
def selfDestructOp : InterpM Unit :=
  execSelfDestruct fork msg beneficiary newlyCreated

def selfDestructEIP161Op : InterpM Unit := do
  checkInStaticContext msg
  execSelfDestruct fork msg beneficiary newlyCreated

/-- `selfDestructEIP2929Op` and `selfDestructEIP8037Op`. -/
def selfDestructEIP2929Op : InterpM Unit := do
  checkInStaticContext msg
  modifyLedger (·.access beneficiary)
  execSelfDestruct fork msg beneficiary newlyCreated

def selfDestructOps : InterpM Unit :=
  if fork < FkSpurious then selfDestructOp fork msg beneficiary newlyCreated
  else if fork < FkBerlin then selfDestructEIP161Op fork msg beneficiary newlyCreated
  else selfDestructEIP2929Op fork msg beneficiary newlyCreated

/-! ### The opcodes of a frame -/

/-- The opcodes that a frame executes, as far as they touch the state. -/
inductive Prog where
  /-- `STOP`, `RETURN`, or the end of a precompile -/
  | success (output : List UInt8)
  | revert
  | halt
  /-- `BALANCE`, `EXTCODESIZE`, `EXTCODECOPY` or `EXTCODEHASH` -/
  | accountAccess (address : Address) (rest : Prog)
  | sload (slot : UInt256) (rest : Prog)
  | sstore (slot value : UInt256) (rest : Prog)
  | tstore (slot value : UInt256) (rest : Prog)
  | log (topics : List Hash32) (data : List UInt8) (rest : Prog)
  | call (operands : CallOperands) (child rest : Prog)
  | create (operands : CreateOperands) (child rest : Prog)
  /-- `newlyCreated` is what the flags of the account say -/
  | selfDestruct (beneficiary : Address) (newlyCreated : Bool)

/-- `execPrecompile`: a precompile does not touch the state. -/
def Prog.execPrecompile : Prog → InterpM Ending
  | .success output => return .success output
  | _ => throw .Halt

def Prog.exec (fork : EVMFork) : Prog → Message → InterpM Ending
  | .success output, _ => return .success output
  | .revert, _ => return .revert
  | .halt, _ => throw .Halt
  | .accountAccess address rest, msg => do
    onlyIf (FkBerlin ≤ fork) (modifyLedger (·.access address))
    rest.exec fork msg
  | .sload slot rest, msg => do
    sloadOp fork msg slot
    rest.exec fork msg
  | .sstore slot value rest, msg => do
    sstoreOps fork msg slot value
    rest.exec fork msg
  | .tstore slot value rest, msg => do
    tstoreOp fork msg slot value
    rest.exec fork msg
  | .log topics data rest, msg => do
    logImpl msg topics data
    rest.exec fork msg
  | .call operands child rest, msg => do
    callOps fork msg operands fun childMsg =>
      if Precompile ∈ childMsg.flags then child.execPrecompile else child.exec fork childMsg
    rest.exec fork msg
  | .create operands child rest, msg => do
    createOp fork msg operands (child.exec fork)
    rest.exec fork msg
  | .selfDestruct beneficiary newlyCreated, msg => do
    selfDestructOps fork msg beneficiary newlyCreated
    return .success []

end Nimbus.Native.Interpreter
