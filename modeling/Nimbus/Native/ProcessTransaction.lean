import Nimbus.Native.OpHandlers
import Nimbus.Native.Transaction

/-!
# Processing a transaction

Model of `processTransaction` and `commitOrRollbackDependingOnGasUsed` of
`core/executor/process_transaction.nim`, of what `transaction/call_common.nim` and
`transaction/eoa_delegation.nim` do to the accounts before and after the top frame, of
`transaction/system_call.nim`, and of the loop over the transactions in
`tools/t8n/transition.nim`. The gas that is used comes from the run of the gas model; whatever it is, and
whatever the frames do to the state, the two are put together here.
-/

namespace Nimbus.Native.Executor

open Aristo (UInt256 Defect)
open BalTracker (Tracker)
open Evm (EVMFork IntrinsicGas GasUsed)
open Evm.EVMFork
open Interpreter
open MsgFlag

/-- What the run of a transaction meets, and what its frames do. -/
structure EvmRun where
  /-- the top frame and all below it, as far as they touch the state -/
  prog : Prog
  /-- the same frames, as far as gas is concerned -/
  gasProg : Evm.Prog
  /-- what the gas costs depend on -/
  gasTx : Evm.Transaction
  /-- the number of accounts that are registered for deletion at the end of the run -/
  selfDestructLen : Nat := 0
  /-- the address of the contract, if the transaction creates one -/
  createdAddress : Address := Vector.replicate 20 0
  creation : Creation := {}
  /-- the gas does not last for the authorizations -/
  authFails : Bool := false
  /-- what the calls of the frames make of the tracker -/
  track : Tracker → Tracker := id

def EvmRun.gasTransaction (run : EvmRun) (tx : Transaction) : Evm.Transaction :=
  { run.gasTx with gasLimit := tx.gasLimit.toNat, isCreate := tx.contractCreation }

structure VmState where
  ledger : LedgerState
  ripemdSpecial : Bool := false
  /-- the tracker, if it is enabled -/
  balTracker : Option Tracker := none
  gas : BlockGas := {}

structure TxResult where
  gasUsed : Nat
  blockExecutionGasUsed : Nat
  blockStateGasUsed : Nat
  txFee : UInt256

/-! ### Before the top frame -/

/-- The gas fee that is taken before the run, with the blob fee. -/
def gasFee (ctx : BlockContext) (tx : Transaction) : UInt256 :=
  let gasFee :=
    u256 tx.gasLimit.toNat * u256 (tx.effectiveGasPrice ctx.baseFeePerGas.toNat)
  if FkCancun ≤ ctx.fork then gasFee + blobGasFee ctx tx else gasFee

def prepareToRunComputation (ctx : BlockContext) (tx : Transaction) (sender : Address) :
    InterpM Unit := do
  onlyIf (!tx.contractCreation) (modifyLedger (·.incNonce sender))
  subBalance sender (gasFee ctx tx)

/-- `validateAuthorization`, after the checks of the signature. -/
def validateAuthorization (auth : Authorization) : InterpM (Option Address) := do
  match auth.authority with
  | none => return none
  | some authority =>
    modifyLedger (·.access authority)
    let ledger := (← get).ledger
    if !isEOA (ledger.code authority) then return none
    else if ledger.nonce authority ≠ auth.nonce then return none
    else return some authority

/-- The code that an authorization sets. -/
def authCode (auth : Authorization) : List UInt8 :=
  if auth.address = Vector.replicate 20 0 then [] else [0xef, 0x01, 0x00] ++ auth.address.toList

/-- `setDelegation`. -/
def setDelegation : List Authorization → InterpM Unit
  | [] => return ()
  | auth :: rest => do
    match ← validateAuthorization auth with
    | none => setDelegation rest
    | some authority =>
      modifyLedger (·.setCode authority (authCode auth))
      modifyLedger (·.setNonce authority (auth.nonce + 1))
      setDelegation rest

variable (fork : EVMFork)

/-- The flags that `getRecipientCode` adds to the message of the top frame. -/
def recipientFlags (msg : Message) : InterpM Message := do
  if msg.isCreate then return msg
  else if isPrecompile fork msg.codeAddress then
    return { msg with flags := insert Precompile msg.flags }
  else
    modifyLedger (·.access msg.codeAddress)
    if FkPrague ≤ fork ∧ isDelegation ((← get).ledger.code msg.codeAddress) then
      return { msg with flags := insert Delegated msg.flags }
    else
      return msg

/-- The message of the top frame. -/
def topMessage (tx : Transaction) (sender createdAddress : Address) : Message :=
  match tx.recipient with
  | some recipient =>
    { kind := .Call
      sender := sender
      currentTarget := recipient
      codeAddress := recipient
      value := tx.value }
  | none =>
    { kind := .Create
      sender := sender
      currentTarget := createdAddress
      codeAddress := createdAddress
      value := tx.value }

def setupEVM (tx : Transaction) (sender : Address) (run : EvmRun) : InterpM Message := do
  let msg := topMessage tx sender run.createdAddress
  if fork < FkAmsterdam then
    setDelegation tx.authorizationList
    recipientFlags fork msg
  else
    return msg

/-- `topFrameAuthAndDelegation`: the message goes on if the gas lasts. -/
def topFrameAuthAndDelegation (fork : EVMFork) (tx : Transaction) (run : EvmRun)
    (msg : Message) : InterpM (Option Message) := do
  let before := (← get).ledger
  setDelegation tx.authorizationList
  let msg ← recipientFlags fork msg
  if run.authFails then
    modifyLedger fun _ => before
    return none
  else
    return some msg

/-- The call of `topFrameAuthAndDelegation`, which is made from Amsterdam on. -/
def topFrameAuth (tx : Transaction) (run : EvmRun) (msg : Message) : InterpM (Option Message) := do
  if FkAmsterdam ≤ fork then topFrameAuthAndDelegation fork tx run msg
  else return some msg

/-- `preExecComputation`: the message, if the top frame is to be executed. -/
def preExecComputation (tx : Transaction) (run : EvmRun) (msg : Message) :
    InterpM (Option Message) := do
  if tx.contractCreation then
    if ← incrementNonce msg then
      match ← topFrameAuth fork tx run msg with
      | none => return none
      | some msg =>
        if ← accountDeployable fork msg run.creation then return some msg
        else return none
    else
      return none
  else
    topFrameAuth fork tx run msg

/-! ### The top frame and after -/

def execTopFrame (run : EvmRun) (msg : Message) : InterpM Computation :=
  execCallOrCreate fork msg run.creation
    (if Precompile ∈ msg.flags then run.prog.execPrecompile else run.prog.exec fork msg)

/-- `runComputation`, up to the end of the top frame. -/
def runComputation (ctx : BlockContext) (tx : Transaction) (sender : Address) (run : EvmRun) :
    InterpM Unit := do
  prepareToRunComputation ctx tx sender
  let msg ← setupEVM ctx.fork tx sender run
  match ← preExecComputation ctx.fork tx run msg with
  | none => return ()
  | some msg =>
    let _ ← execTopFrame ctx.fork run msg
    return ()

/-- The end of `calculateAndPossiblyRefundGas`: the unused gas is paid back. -/
def refundUnusedGas (ctx : BlockContext) (tx : Transaction) (sender : Address) (txGasUsed : Nat) :
    InterpM Unit :=
  let txGasLeft := gasSub tx.gasLimit.toNat txGasUsed
  onlyIf (txGasLeft > 0)
    (addBalance ctx.fork sender
      (u256 txGasLeft * u256 (tx.effectiveGasPrice ctx.baseFeePerGas.toNat)))

/-- The fee that the coinbase gets. -/
def txFee (ctx : BlockContext) (tx : Transaction) (gasUsed : Nat) : UInt256 :=
  let priorityFee :=
    min tx.maxPriorityFeePerGasNorm (gasSub tx.maxFeePerGasNorm ctx.baseFeePerGas.toNat)
  u256 gasUsed * u256 priorityFee

/-! ### System calls -/

structure SysCallParams where
  sender : Address
  recipient : Address
  /-- the contract must have code, and has none -/
  codeMissing : Bool := false

/-- `systemCall`, up to the end of its frame. -/
def systemCall (params : SysCallParams) (prog : Prog) : InterpM Unit := do
  if params.codeMissing then return ()
  else
    let msg : Message :=
      { kind := .Call
        sender := params.sender
        currentTarget := params.recipient
        codeAddress := params.recipient
        value := 0 }
    let _ ← execCallOrCreate fork msg {} (prog.exec fork msg)
    return ()

/-! ### The transaction in its block -/

/-- Is the gas limit of the block exceeded by the transaction that has been executed? -/
def blockGasLimitReached (ctx : BlockContext) (gas : BlockGas) (gasUsed : GasUsed) : Bool :=
  if FkAmsterdam ≤ ctx.fork then
    ctx.gasLimit.toNat < max (gasAdd gas.blockExecutionGasUsed gasUsed.blockExecutionGasUsed)
      (gasAdd gas.blockStateGasUsed gasUsed.blockStateGasUsed)
  else ctx.gasLimit.toNat < gasAdd gas.cumulativeGasUsed gasUsed.txGasUsed

def BlockGas.count (gas : BlockGas) (tx : Transaction) (gasUsed : GasUsed) : BlockGas where
  cumulativeGasUsed := gasAdd gas.cumulativeGasUsed gasUsed.txGasUsed
  blockExecutionGasUsed := gasAdd gas.blockExecutionGasUsed gasUsed.blockExecutionGasUsed
  blockStateGasUsed := gasAdd gas.blockStateGasUsed gasUsed.blockStateGasUsed
  blobGasUsed := gasAdd gas.blobGasUsed tx.getTotalBlobGas

section
variable [Keccak]

variable (ctx : BlockContext)

/-- The tracker at the end of the transaction. -/
def endTracker (ledger : LedgerState) (fee : UInt256) (accepted : Bool)
    (tracker : Tracker) : Except Defect Tracker :=
  if accepted then do
    let tracker ← tracker.trackAddBalanceChange ledger.toWorld.readOnly ctx.coinbase fee
    tracker.commitCallFrame ledger.toWorld.readOnly
  else tracker.rollbackCallFrame

/-- The run and the refund, on the machine of the interpreter. -/
def txCallEvm (tx : Transaction) (sender : Address) (run : EvmRun)
    (gasUsed : GasUsed) (s : VmState) : Except Defect Machine :=
  let call : InterpM Unit := do
    runComputation ctx tx sender run
    refundUnusedGas ctx tx sender gasUsed.txGasUsed
  match call { ledger := s.ledger, ripemdSpecial := s.ripemdSpecial } with
  | .ok _ m => .ok m
  | .error _ _ => .error .assertion

/-- `commitOrRollbackDependingOnGasUsed`. -/
def commitOrRollbackDependingOnGasUsed (tx : Transaction) (s : VmState)
    (gasUsed : GasUsed) (tracker : Option Tracker) (m : Machine) :
    Except Defect (Except TxError TxResult × VmState) := do
  let fee := txFee ctx tx gasUsed.txGasUsed
  let accepted := !blockGasLimitReached ctx s.gas gasUsed
  let tracker ← tracker.mapM (endTracker ctx m.ledger fee accepted)
  if accepted then
    return (.ok ⟨gasUsed.txGasUsed, gasUsed.blockExecutionGasUsed, gasUsed.blockStateGasUsed, fee⟩,
      { ledger := m.ledger.addBalance ctx.coinbase fee (ctx.fork < FkParis)
        ripemdSpecial := m.ripemdSpecial
        balTracker := tracker
        gas := s.gas.count tx gasUsed })
  else
    return (.error .blockGasLimitReached,
      { ledger := s.ledger
        ripemdSpecial := m.ripemdSpecial
        balTracker := tracker
        gas := s.gas })

def VmState.persist (s : VmState) : VmState :=
  { s with
    ledger := s.ledger.persist (FkSpurious ≤ ctx.fork) s.ripemdSpecial
    ripemdSpecial := s.ripemdSpecial && !(FkSpurious ≤ ctx.fork : Bool) }

/-- `processTransaction`. -/
def processTransaction (tx : Transaction) (sender : Address)
    (intrinsic : IntrinsicGas) (run : EvmRun) (persist : Bool) (s : VmState) :
    Except Defect (Except TxError TxResult × VmState) :=
  let gasTx := run.gasTransaction tx
  match validateForInclusion ctx s.gas s.ledger tx sender gasTx intrinsic with
  | .error error => .ok (.error error, s)
  | .ok () =>
    if h : Evm.validateTxBasic ctx.fork gasTx intrinsic then do
      let params : Evm.CallParams ctx.fork :=
        ⟨gasTx, intrinsic, Nat.le_sub_one_of_lt tx.gasLimit.toNat_lt, h⟩
      match Evm.runComputation ctx.fork params run.selfDestructLen (run.gasProg.exec ctx.fork)
        { storage := Evm.Storage.persisted s.ledger.storage } with
      | .error _ _ => .error .assertion
      | .ok (_, gasUsed) _ =>
        let m ← txCallEvm ctx tx sender run gasUsed s
        let tracker := s.balTracker.map fun tracker => run.track tracker.beginCallFrame
        let (res, s) ← commitOrRollbackDependingOnGasUsed ctx tx s gasUsed tracker m
        return (res, if persist then s.persist ctx else s)
    else .error .assertion

/-! ### The transactions of a block -/

/-- A transaction that is tried, with what its run meets. -/
structure Attempt where
  tx : Transaction
  sender : Address
  intrinsic : IntrinsicGas
  run : EvmRun

/-- The tracker goes on to the given index, if it is enabled. -/
def VmState.setBlockAccessIndex (s : VmState) (blockAccessIndex : Nat) : VmState :=
  { s with balTracker := s.balTracker.map (·.setBlockAccessIndex blockAccessIndex) }

/-- The loop of `exec` over the transactions: a rejected transaction is left out. -/
def execTransactions (ctx : BlockContext) :
    List Attempt → List Attempt → VmState → Except Defect (List Attempt × VmState)
  | [], includedTx, s => .ok (includedTx, s)
  | a :: txList, includedTx, s => do
    let (rc, s) ← processTransaction ctx a.tx a.sender a.intrinsic a.run true
      (s.setBlockAccessIndex (includedTx.length + 1))
    match rc with
    | .error _ => execTransactions ctx txList includedTx s
    | .ok _ => execTransactions ctx txList (includedTx ++ [a]) s

/-- `exec`, from the loop to the post-execution index of the tracker. -/
def exec (txList : List Attempt) (s : VmState) : Except Defect (List Attempt × VmState) := do
  let (includedTx, s) ← execTransactions ctx txList [] s
  return (includedTx, s.setBlockAccessIndex (includedTx.length + 1))

end

end Nimbus.Native.Executor
