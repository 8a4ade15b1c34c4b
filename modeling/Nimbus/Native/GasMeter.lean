import Nimbus.Native.GasCosts

/-!
# Gas meter

Model of `execution_chain/evm/interpreter/gas_meter.nim`. `GasInt` is an unsigned 64-bit
integer: a sum or a difference that leaves its range ends the run with a `defect`, where the
code would go on with the wrapped value. The refund counter and the state gas used are signed.
-/

namespace Nimbus.Native.Evm

open Aristo (UInt256)

/-- How a computation stops. -/
inductive Fault where
  /-- the running opcode fails, and the frame with it -/
  | evm
  /-- an unsigned counter leaves its range, or an assertion does not hold -/
  | defect

structure GasMeter where
  refundCounter : Int := 0
  executionGasLeft : Nat := 0
  stateGasLeft : Nat := 0
  stateGasUsed : Int := 0
  executionGasUsed : Nat := 0
  stateGasSpilled : Nat := 0

def GasMeter.init (startGas stateGas : Nat) : GasMeter :=
  { executionGasLeft := startGas, stateGasLeft := stateGas }

structure Message where
  isCreate : Bool := false
  depth : Nat := 0
  gas : Nat
  stateGasReservoir : Nat
  currentTarget : Address

structure Error where
  burnsGas : Bool

/-- A frame that has ended. -/
structure Computation where
  msg : Message
  gasMeter : GasMeter
  error : Option Error

def Computation.isSuccess (c : Computation) : Bool := c.error.isNone

def Computation.shouldBurnGas (c : Computation) : Bool := c.error.any (·.burnsGas)

/-- The storage of the ledger: the values the opcodes see, and the values
`getCommittedStorage` answers with. -/
structure Storage where
  current : Address → UInt256 → UInt256
  committed : Address → UInt256 → UInt256

namespace Storage

/-- Nothing has been written since the ledger was last persisted. -/
def persisted (committed : Address → UInt256 → UInt256) : Storage := ⟨committed, committed⟩

def getStorage (storage : Storage) (address : Address) (slot : UInt256) : UInt256 :=
  storage.current address slot

def getCommittedStorage (storage : Storage) (address : Address) (slot : UInt256) : UInt256 :=
  storage.committed address slot

def setStorage (storage : Storage) (address : Address) (slot value : UInt256) : Storage :=
  { storage with
    current := fun a k => if a = address ∧ k = slot then value else storage.current a k }

def clearStorage (storage : Storage) (address : Address) : Storage :=
  { current := fun a k => if a = address then 0 else storage.current a k
    committed := fun a k => if a = address then 0 else storage.committed a k }

end Storage

/-- What the running frame can change. -/
structure Machine where
  gasMeter : GasMeter := {}
  storage : Storage
  /-- every frame that has ended, the last one first -/
  ended : List Computation := []

abbrev EvmM := EStateM Fault Machine

def add (a b : Nat) : EvmM Nat :=
  if a + b ≤ GasInt.high then pure (a + b) else throw .defect

def sub (a b : Nat) : EvmM Nat :=
  if b ≤ a then pure (a - b) else throw .defect

def doAssert (p : Bool) : EvmM Unit :=
  if p then pure () else throw .defect

/-- An `if` statement without an `else`. -/
def onlyIf (p : Prop) [Decidable p] (x : EvmM Unit) : EvmM Unit :=
  if p then x else pure ()

def getGasMeter : EvmM GasMeter := do
  return (← get).gasMeter

def setGasMeter (gasMeter : GasMeter) : EvmM Unit :=
  modify fun s => { s with gasMeter := gasMeter }

variable (amount : Nat)

def consumeGas : EvmM Unit := do
  let gasMeter ← getGasMeter
  if amount > gasMeter.executionGasLeft then
    throw .evm
  else
    let executionGasUsed ← add gasMeter.executionGasUsed amount
    let executionGasLeft ← sub gasMeter.executionGasLeft amount
    setGasMeter { gasMeter with
      executionGasUsed := executionGasUsed
      executionGasLeft := executionGasLeft }

def returnGas : EvmM Unit := do
  let gasMeter ← getGasMeter
  let executionGasLeft ← add gasMeter.executionGasLeft amount
  setGasMeter { gasMeter with executionGasLeft := executionGasLeft }

def refundGas (amount : Int) : EvmM Unit := do
  let gasMeter ← getGasMeter
  setGasMeter { gasMeter with refundCounter := gasMeter.refundCounter + amount }

def chargeStateGas : EvmM Unit := do
  let gasMeter ← getGasMeter
  if amount ≤ gasMeter.stateGasLeft then
    let stateGasLeft ← sub gasMeter.stateGasLeft amount
    setGasMeter { gasMeter with
      stateGasLeft := stateGasLeft
      stateGasUsed := gasMeter.stateGasUsed + amount }
  else
    let available ← add gasMeter.stateGasLeft gasMeter.executionGasLeft
    if amount ≤ available then
      let remainder ← sub amount gasMeter.stateGasLeft
      let executionGasLeft ← sub gasMeter.executionGasLeft remainder
      let stateGasSpilled ← add gasMeter.stateGasSpilled remainder
      setGasMeter { gasMeter with
        stateGasLeft := 0
        executionGasLeft := executionGasLeft
        stateGasSpilled := stateGasSpilled
        stateGasUsed := gasMeter.stateGasUsed + amount }
    else
      throw .evm

def returnStateGas : EvmM Unit := do
  let gasMeter ← getGasMeter
  let stateGasLeft ← add gasMeter.stateGasLeft amount
  setGasMeter { gasMeter with stateGasLeft := stateGasLeft }

def escrowSubcallExecutionGas (subCallGas : Nat) : EvmM Unit := do
  let gasMeter ← getGasMeter
  let executionGasUsed ← sub gasMeter.executionGasUsed subCallGas
  setGasMeter { gasMeter with executionGasUsed := executionGasUsed }

def appendExecutionGasUsed : EvmM Unit := do
  let gasMeter ← getGasMeter
  let executionGasUsed ← add gasMeter.executionGasUsed amount
  setGasMeter { gasMeter with executionGasUsed := executionGasUsed }

def appendStateGasUsed (amount : Int) : EvmM Unit := do
  let gasMeter ← getGasMeter
  setGasMeter { gasMeter with stateGasUsed := gasMeter.stateGasUsed + amount }

/-- `checkGas` for an amount of state gas that is taken after `cost`. -/
def checkStateGas (cost amount : Nat) : EvmM Unit := do
  let gasMeter ← getGasMeter
  let left ← add gasMeter.stateGasLeft gasMeter.executionGasLeft
  let available ← sub left cost
  if amount > available then throw .evm else pure ()

def checkGas : EvmM Unit := do
  if amount > (← getGasMeter).executionGasLeft then throw .evm else pure ()

def refillFrameStateGas (stateGasReservoir : Nat) : EvmM Unit := do
  let gasMeter ← getGasMeter
  let executionGasLeft ← add gasMeter.executionGasLeft gasMeter.stateGasSpilled
  setGasMeter { gasMeter with
    executionGasLeft := executionGasLeft
    stateGasLeft := stateGasReservoir
    stateGasSpilled := 0 }

def creditStateGasRefund : EvmM Unit := do
  let gasMeter ← getGasMeter
  let fromGasLeft := min amount gasMeter.stateGasSpilled
  let executionGasLeft ← add gasMeter.executionGasLeft fromGasLeft
  let stateGasSpilled ← sub gasMeter.stateGasSpilled fromGasLeft
  let rest ← sub amount fromGasLeft
  let stateGasLeft ← add gasMeter.stateGasLeft rest
  setGasMeter { gasMeter with
    executionGasLeft := executionGasLeft
    stateGasSpilled := stateGasSpilled
    stateGasLeft := stateGasLeft
    stateGasUsed := gasMeter.stateGasUsed - amount }

def GasMeter.frameStateGasUsed (gasMeter : GasMeter) (stateGasReservoir : Nat) : Int :=
  stateGasReservoir - gasMeter.stateGasLeft + gasMeter.stateGasSpilled

/-- Repays the outstanding spill from the reservoir after a child merges. -/
def repayStateGasSpill : EvmM Unit := do
  let gasMeter ← getGasMeter
  let repayment := min gasMeter.stateGasLeft gasMeter.stateGasSpilled
  let executionGasLeft ← add gasMeter.executionGasLeft repayment
  let stateGasLeft ← sub gasMeter.stateGasLeft repayment
  let stateGasSpilled ← sub gasMeter.stateGasSpilled repayment
  setGasMeter { gasMeter with
    executionGasLeft := executionGasLeft
    stateGasLeft := stateGasLeft
    stateGasSpilled := stateGasSpilled }
  doAssert (stateGasLeft == 0 || stateGasSpilled == 0)

end Nimbus.Native.Evm
