import Nimbus.ForStd.ExecM
import Nimbus.Native.OpHandlers

/-!
# The driver of the call frames

Model of `evm/interpreter_dispatch.nim` and of what it uses of `evm/computation.nim`,
`evm/precompiles.nim` and `db/ledger.nim`: computations that refer to their parent and child,
continuations, savepoints and call frames of the access list tracker.

What the opcodes, the continuations and the precompiles do is a parameter. They may read all
that there is, and write the computation that runs and the accounts; a child and a continuation
come from `chainTo`, which sets both. They have no part in the savepoints.

The log of events is not part of the code.
-/

namespace Nimbus.Native.Dispatch

open Aristo (UInt256)
open Evm (EVMFork)
open Evm.EVMFork
open Interpreter (CallKind MsgFlag Log isPrecompile createTransferLog)
open Ledger (RIPEMD_ADDR)
open Function (update)

/-- A failing assertion, or a `nil` reference that is followed. -/
inductive Defect where
  | assertion
  | nilAccess

abbrev Exec (α : Type) := ExecM Defect α

/-- A reference to a computation. -/
abbrev CompId := Nat

/-- A reference to a savepoint of the ledger. -/
abbrev SpRef := Nat

inductive StatusCode where
  | None
  | Revert
  | Failure
  | ContractValidationFailure
  | OutOfGas
  | PrecompileFailure
  deriving DecidableEq

structure Error where
  status : StatusCode
  info : String
  burnsGas : Bool
  deriving DecidableEq

inductive EvmErrorCode where
  | EvmBug
  | OutOfGas
  | MemoryFull
  | StackFull
  | StackInsufficient
  | PrcInvalidSig
  | PrcInvalidPoint
  | PrcInvalidParam
  | PrcValidationError
  | GasIntOverflow
  | NonceOverflow
  | InvalidInstruction
  | StaticContext
  | InvalidJumpDest
  | OutOfBounds
  | InvalidInitCode
  | EvmInvalidParam

def EvmErrorCode.text : EvmErrorCode → String
  | EvmBug => "EvmBug"
  | OutOfGas => "OutOfGas"
  | MemoryFull => "MemoryFull"
  | StackFull => "StackFull"
  | StackInsufficient => "StackInsufficient"
  | PrcInvalidSig => "PrcInvalidSig"
  | PrcInvalidPoint => "PrcInvalidPoint"
  | PrcInvalidParam => "PrcInvalidParam"
  | PrcValidationError => "PrcValidationError"
  | GasIntOverflow => "GasIntOverflow"
  | NonceOverflow => "NonceOverflow"
  | InvalidInstruction => "InvalidInstruction"
  | StaticContext => "StaticContext"
  | InvalidJumpDest => "InvalidJumpDest"
  | OutOfBounds => "OutOfBounds"
  | InvalidInitCode => "InvalidInitCode"
  | EvmInvalidParam => "EvmInvalidParam"

abbrev EvmResultVoid := Except EvmErrorCode Unit

inductive Op where
  | Stop
  | Return
  | Revert
  | SelfDestruct
  | other (code : UInt8)
  deriving DecidableEq

inductive Precompiles where
  | paEcRecover
  | paSha256
  | paRipeMd160
  | paIdentity
  | paModExp
  | paEcAdd
  | paEcMul
  | paPairing
  | paBlake2bf
  | paPointEvaluation
  | paBlsG1Add
  | paBlsG1MultiExp
  | paBlsG2Add
  | paBlsG2MultiExp
  | paBlsPairing
  | paBlsMapG1
  | paBlsMapG2
  | paP256Verify

/-- `precompileForKey`, by the lower two bytes of an address of a precompile. -/
def precompileForKey : Nat → Precompiles
  | 1 => .paEcRecover
  | 2 => .paSha256
  | 3 => .paRipeMd160
  | 4 => .paIdentity
  | 5 => .paModExp
  | 6 => .paEcAdd
  | 7 => .paEcMul
  | 8 => .paPairing
  | 9 => .paBlake2bf
  | 10 => .paPointEvaluation
  | 11 => .paBlsG1Add
  | 12 => .paBlsG1MultiExp
  | 13 => .paBlsG2Add
  | 14 => .paBlsG2MultiExp
  | 15 => .paBlsPairing
  | 16 => .paBlsMapG1
  | 17 => .paBlsMapG2
  | _ => .paP256Verify

/-- `getPrecompile`, for an address of which `isPrecompile` holds. -/
def getPrecompile (codeAddress : Address) : Precompiles :=
  precompileForKey ((codeAddress.get 18).toNat * 256 + (codeAddress.get 19).toNat)

/-! ### Computations -/

/-- What this model does not look into. -/
class VmTypes where
  fork : EVMFork
  /-- the accounts of the ledger, the entries of the tracker and the rest of `vmState` -/
  World : Type
  /-- memory, code, gas meter, return data, logs and transient storage of a computation -/
  Frame : Type
  /-- the `after` block of a `chainTo` -/
  Continuation : Type

open VmTypes

section
variable [VmTypes]

/-- A message. Its flag for a precompile is set if the code address is one. -/
structure Message extends Interpreter.Message where
  precompile : MsgFlag.Precompile ∈ flags → isPrecompile fork codeAddress = true

/-- What the opcodes that a computation runs may write to it. -/
structure Own where
  msg : Message
  error : Option Error := none
  instr : Op := .Stop
  /-- the stack is taken away when the computation is disposed -/
  stack : Option (List UInt256)
  keepStack : Bool
  finalStack : List UInt256 := []
  output : List UInt8 := []
  frame : Frame

structure Computation extends Own where
  parent : Option CompId := none
  child : Option CompId := none
  continuation : Option Continuation := none
  savePoint : Option SpRef := none
  balTrackerEnabled : Bool

def Own.isSuccess (c : Own) : Bool := c.error.isNone

inductive Event where
  | beforeExec (c : CompId)
  | beginCallFrame (c : CompId)
  | beginSavePoint (c : CompId) (savePoint : SpRef)
  /-- the continuation of `c` runs, with what its child has ended with -/
  | resume (c child : CompId) (result : Option Error)
  | afterExec (c : CompId)
  | commitCallFrame (c : CompId)
  | rollbackCallFrame (c : CompId)
  | commit (c : CompId) (savePoint : SpRef)
  | rollback (c : CompId) (savePoint : SpRef)
  | dispose (c : CompId)
  deriving DecidableEq

structure VmState where
  balTrackerEnabled : Bool
  world : World
  /-- the savepoint that the ledger writes to -/
  savePoint : SpRef
  /-- the savepoints that enclose it, the innermost first -/
  parentSavePoints : List SpRef
  /-- not in use yet, as all above -/
  nextSavePoint : SpRef
  /-- the number of the open frames of the tracker -/
  callFrames : Nat
  computations : CompId → Computation
  /-- not in use yet, as all above -/
  nextComputation : CompId
  log : List Event

/-- What a run of opcodes or a continuation leaves. -/
structure Slice where
  own : Own
  world : World
  /-- the arguments of the last `chainTo` -/
  chained : Option (Own × Continuation)
  result : EvmResultVoid

end

/-- What the driver calls. -/
class Vm extends VmTypes where
  trackSubBalanceChange : Address → UInt256 → World → World
  trackAddBalanceChange : Address → UInt256 → World → World
  trackIncNonceChange : Address → World → World
  beginCallFrame : World → World
  commitCallFrame : (hasParentCallFrame : Bool) → World → World
  rollbackCallFrame : (hasParentCallFrame : Bool) → World → World
  subBalance : Address → UInt256 → World → World
  addBalance : Address → UInt256 → (checkEmptyAccount : Bool) → World → World
  clearStorage : Address → World → World
  incNonce : Address → World → World
  ripemdSpecial : World → World
  beginSavePoint : World → World
  commit : World → World
  rollback : World → World
  addLogEntry : Log → Frame → Frame
  refillFrameStateGas : Frame → Frame
  writeContract : VmState → CompId → Own × World
  /-- the precompile itself, before `execPrecompile` looks at what it returns -/
  runPrecompile : Precompiles → VmState → CompId → Own × World × EvmResultVoid
  /-- the run of a continuation, and what it leaves of the frame and the output of the child -/
  runContinuation : Continuation → VmState → CompId → CompId → Slice × Frame × List UInt8
  /-- the interpreter, up to where it leaves its loop -/
  selectVM : VmState → CompId → Option Slice

variable [Vm]

namespace VmState

variable (s : VmState) (c : CompId)

def modify (f : Computation → Computation) : VmState :=
  { s with computations := update s.computations c (f (s.computations c)) }

def emit (e : Event) : VmState := { s with log := s.log ++ [e] }

def modifyWorld (f : World → World) : VmState := { s with world := f s.world }

/-- `newComputation`. The reference is the one that was not in use. -/
def newComputation (own : Own) : VmState :=
  { s with
    computations := update s.computations s.nextComputation
      { own with balTrackerEnabled := s.balTrackerEnabled }
    nextComputation := s.nextComputation + 1 }

def chainTo (child : Own) (after : Continuation) : VmState :=
  (s.newComputation child).modify c fun cpt =>
    { cpt with child := some s.nextComputation, continuation := some after }

def writeOwn (own : Own) (world : World) : VmState :=
  { s.modify c fun cpt => { cpt with toOwn := own } with world := world }

def setError (error : Error) : VmState := s.modify c fun cpt => { cpt with error := some error }

/-! ### Savepoints -/

def beginSavePoint : VmState :=
  let tracked := (s.computations c).balTrackerEnabled
  let s := if tracked then
      { s.emit (.beginCallFrame c) with
        callFrames := s.callFrames + 1, world := Vm.beginCallFrame s.world }
    else s
  let sp := s.nextSavePoint
  let s := { s.emit (.beginSavePoint c sp) with
    savePoint := sp
    parentSavePoints := s.savePoint :: s.parentSavePoints
    nextSavePoint := sp + 1
    world := Vm.beginSavePoint s.world }
  s.modify c fun cpt => { cpt with savePoint := some sp }

/-- Ends the innermost frame of the tracker. -/
def endCallFrame (close : Bool → World → World) (e : Event) : Exec VmState :=
  if s.callFrames = 0 then throw .assertion
  else pure { s.emit e with
    callFrames := s.callFrames - 1, world := close (1 < s.callFrames) s.world }

/-- Ends the innermost savepoint of the ledger, which has to be `savePoint`. -/
def endSavePoint (savePoint : Option SpRef) (close : World → World) (e : SpRef → Event) :
    Exec VmState :=
  match s.parentSavePoints with
  | [] => throw .assertion
  | parent :: parents =>
    if savePoint = some s.savePoint then
      pure { s.emit (e s.savePoint) with
        savePoint := parent, parentSavePoints := parents, world := close s.world }
    else throw .assertion

/-- Ends the savepoint of `c`, and its frame of the tracker first. -/
def closeSavePoint (closeCallFrame : Bool → World → World) (close : World → World)
    (callFrameEvent : Event) (savePointEvent : SpRef → Event) : Exec VmState := do
  let tracked := (s.computations c).balTrackerEnabled
  let s ← if tracked then s.endCallFrame closeCallFrame callFrameEvent else pure s
  let s ← s.endSavePoint (s.computations c).savePoint close savePointEvent
  return s.modify c fun cpt => { cpt with savePoint := none }

def commit : Exec VmState :=
  s.closeSavePoint c Vm.commitCallFrame Vm.commit (.commitCallFrame c) (.commit c)

def rollback : Exec VmState :=
  s.closeSavePoint c Vm.rollbackCallFrame Vm.rollback (.rollbackCallFrame c) (.rollback c)

/-- The part of `dispose` that is about the stack. -/
def disposeStack : VmState :=
  s.modify c fun cpt =>
    match cpt.stack with
    | some stack =>
      { cpt with stack := none, finalStack := if cpt.keepStack then stack else cpt.finalStack }
    | none => cpt

/-- `dispose` of the ledger: rolls back a savepoint that has a parent still. -/
def disposeSavePoint (sp : SpRef) : Exec VmState :=
  if sp ∈ (s.savePoint :: s.parentSavePoints).dropLast then
    s.endSavePoint (some sp) Vm.rollback (.rollback c)
  else pure s

def dispose : Exec VmState := do
  let s := s.emit (.dispose c)
  let s ← match (s.computations c).savePoint with
    | some sp => do
      let s ← s.disposeSavePoint c sp
      pure (s.modify c fun cpt => { cpt with savePoint := none })
    | none => pure s
  return s.disposeStack c

/-! ### Before and after the execution -/

def emitTransferLog : VmState :=
  let msg := (s.computations c).msg
  if msg.value = 0 then s
  else if msg.sender = msg.currentTarget then s
  else s.modify c fun cpt =>
    { cpt with frame :=
        Vm.addLogEntry (createTransferLog msg.sender msg.currentTarget msg.value) cpt.frame }

/-- The balances of a message that carries a value. -/
def moveValue (tracked : Bool) (msg : Message) (world : World) : World :=
  let world := if tracked then Vm.trackSubBalanceChange msg.sender msg.value world else world
  let world := Vm.subBalance msg.sender msg.value world
  let world := if tracked then Vm.trackAddBalanceChange msg.currentTarget msg.value world else world
  Vm.addBalance msg.currentTarget msg.value (fork < FkParis) world

/-- The account of a contract that is created. -/
def initAccount (tracked : Bool) (msg : Message) (world : World) : World :=
  let world := Vm.clearStorage msg.currentTarget world
  if FkSpurious ≤ fork then
    let world := if tracked then Vm.trackIncNonceChange msg.currentTarget world else world
    Vm.incNonce msg.currentTarget world
  else world

def beforeExecCall : VmState × Bool :=
  let s := s.beginSavePoint c
  let cpt := s.computations c
  let s := if cpt.msg.kind = .Call then
      let s := s.modifyWorld (moveValue cpt.balTrackerEnabled cpt.msg)
      if FkAmsterdam ≤ fork then s.emitTransferLog c else s
    else s
  (s, false)

def beforeExecCreate : VmState × Bool :=
  let s := s.beginSavePoint c
  let cpt := s.computations c
  let s := s.modifyWorld (moveValue cpt.balTrackerEnabled cpt.msg)
  let s := s.modifyWorld (initAccount cpt.balTrackerEnabled cpt.msg)
  let s := if FkAmsterdam ≤ fork then s.emitTransferLog c else s
  (s, false)

def beforeExec : VmState × Bool :=
  let s := s.emit (.beforeExec c)
  if (s.computations c).msg.isCreate then s.beforeExecCreate c else s.beforeExecCall c

def afterExecCall : VmState :=
  let cpt := s.computations c
  if (!cpt.isSuccess || FkByzantium ≤ fork) && cpt.msg.currentTarget == RIPEMD_ADDR then
    s.modifyWorld Vm.ripemdSpecial
  else s

def afterExecCreate : VmState :=
  if (s.computations c).isSuccess then
    let written := Vm.writeContract s c
    -- this can change whether the computation is a success
    let s := s.writeOwn c written.1 written.2
    let cpt := s.computations c
    if 0 < cpt.msg.depth || !cpt.isSuccess then s.modify c fun cpt => { cpt with output := [] }
    else s
  else s

def afterExec : Exec VmState :=
  let s := s.emit (.afterExec c)
  let s := if (s.computations c).msg.isCreate then s.afterExecCreate c else s.afterExecCall c
  if (s.computations c).isSuccess then s.commit c
  else
    (s.modify c fun cpt => { cpt with frame := Vm.refillFrameStateGas cpt.frame }).rollback c

/-! ### The execution -/

def handleEvmError (code : EvmErrorCode) : VmState :=
  let depth := toString ((s.computations c).msg.depth + 1)
  s.setError c ⟨.Failure, "Opcode Dispatch Error: " ++ code.text ++ ", depth=" ++ depth, true⟩

def execPrecompile (precompile : Precompiles) : VmState :=
  let (own, world, res) := Vm.runPrecompile precompile s c
  let s := s.writeOwn c own world
  match res with
  | .ok () => s
  | .error .OutOfGas => s.setError c ⟨.OutOfGas, EvmErrorCode.OutOfGas.text, true⟩
  | .error code =>
    if FkByzantium ≤ fork ∧ Precompiles.paIdentity.ctorIdx < precompile.ctorIdx then
      s.setError c ⟨.PrecompileFailure, code.text, true⟩
    -- any other error of a precompile is swallowed
    else s

/-- The state after a run of opcodes of `c`. -/
def writeSlice (slice : Slice) : VmState :=
  let s := s.writeOwn c slice.own slice.world
  match slice.chained with
  | some (child, after) => s.chainTo c child after
  | none => s

/-- The end of `executeOpcodes`: on with the opcodes, unless the last one has ended the frame. -/
def runOpcodes : Exec VmState :=
  let instr := (s.computations c).instr
  if instr = .Return ∨ instr = .Revert ∨ instr = .SelfDestruct then pure s
  else match Vm.selectVM s c with
    | none => ExecM.diverge
    | some slice =>
      let s := s.writeSlice c slice
      match slice.result with
      | .error code => pure (s.handleEvmError c code)
      | .ok () => pure s

/-- The run of a continuation, which finds the child of `c` as it has ended. -/
def resume (after : Continuation) (child : CompId) : VmState × EvmResultVoid :=
  let (slice, frame, output) := Vm.runContinuation after s c child
  let s := s.emit (.resume c child (s.computations child).error)
  let s := s.modify child fun cpt => { cpt with frame := frame, output := output }
  (s.writeSlice c slice, slice.result)

def executeOpcodes : Exec VmState :=
  let cpt := s.computations c
  match cpt.continuation with
  | none =>
    if MsgFlag.Precompile ∈ cpt.msg.flags then
      pure (s.execPrecompile c (getPrecompile cpt.msg.codeAddress))
    else s.runOpcodes c
  | some after =>
    let s := s.modify c fun cpt => { cpt with continuation := none }
    match cpt.child with
    | none => throw .nilAccess
    | some child =>
      match s.resume c after child with
      | (s, .error code) => pure (s.handleEvmError c code)
      | (s, .ok ()) =>
        -- back to the caller, which runs the child and then calls this again
        if (s.computations c).continuation.isSome then pure s else s.runOpcodes c

def setParent (child : CompId) : VmState :=
  s.modify child fun cpt => { cpt with parent := some c }

def clearChild : VmState := s.modify c fun cpt => { cpt with child := none }

/-! ### The driver -/

/-- One turn of the inner loop: the child to go on with, or nothing where the loop is left. -/
def turn (before : Bool) : Exec (VmState × Option CompId) := do
  let (s, stop) := if before then s.beforeExec c else (s, false)
  if stop then pure (s, none)
  else
    let s ← s.executeOpcodes c
    match (s.computations c).continuation, (s.computations c).child with
    | none, _ => do
      let s ← (s.clearChild c).afterExec c
      pure (s, none)
    -- recurse into the child computation
    | some _, some child => pure (s.setParent c child, some child)
    | some _, none => throw .nilAccess

/-- The two loops around the computations. It counts the turns of the inner one, and ends with
the computation at which the outer one is left. -/
def loop : Nat → VmState → CompId → Bool → Exec (VmState × CompId)
  | 0, _, _, _ => ExecM.diverge
  | n + 1, s, c, before => do
    let (s, child) ← s.turn c before
    match child with
    | some child => loop n s child true
    | none =>
      match (s.computations c).parent with
      | none => pure (s, c)
      | some parent => do
        let s ← s.dispose c
        -- recurse out: the child is still owned by the parent
        loop n s parent false

/-- The last loop, over what is left of the chain of parents. -/
def disposeLoop : Nat → VmState → Option CompId → Exec VmState
  | _, s, none => pure s
  | 0, _, some _ => ExecM.diverge
  | n + 1, s, some c => do
    let p := (s.computations c).parent
    let s ← s.dispose c
    disposeLoop n (s.clearChild c) p

def execCallOrCreate (n : Nat) (s : VmState) (cParam : CompId) : Exec VmState := do
  let (s, c) ← loop n s cParam true
  disposeLoop n s (some c)

end VmState

end Nimbus.Native.Dispatch
