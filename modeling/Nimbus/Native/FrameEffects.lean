import Nimbus.Native.Interpreter

/-!
# Transient storage, logs and refunds of call frames

Model of `evm/transient_storage.nim`, `utils/mergeutils.nim`, and of what the frames of
`evm/computation.nim` and the continuations of `oph_call.nim` and `oph_create.nim` do with
transient storage, logs and refunds.

A computation is followed by the computations that have called it, by way of `parent`. What else
an execution does is given by the code of the frame: what it does next may depend on what it has
loaded, and on how its children have ended.

The history of events is not part of the code.
-/

namespace Nimbus.Native.FrameEffects

open Aristo (UInt256)
open Interpreter (Log)

/-! ### Merging -/

/-- `mergeAndReset` of two tables, `merge` being the `mergeAndDiscard` of their values. -/
def mergeAndReset {K V : Type} [DecidableEq K] (merge : V → V → V) (tgt src : Table K V) :
    Table K V :=
  if tgt.len = 0 then src
  else
    Table.putAll (fun k sv =>
      match tgt.lookup k with
      | some tv => merge tv sv
      | none => sv) src tgt

abbrev StorageTable := Table UInt256 UInt256

structure TransientStorage where
  map : Table Address StorageTable := ∅

namespace TransientStorage

variable (ts : TransientStorage) (address : Address) (slot : UInt256)

def getStorage : Bool × UInt256 :=
  match ts.map.lookup address with
  | none => (false, 0)
  | some table =>
    match table.lookup slot with
    | some val => (true, val)
    | none => (false, 0)

def setStorage (value : UInt256) : TransientStorage where
  map := ts.map.insert address (((ts.map.lookup address).getD ∅).insert slot value)

/-- `mergeAndReset`. The values of `other` replace those of `ts`. -/
def merge (other : TransientStorage) : TransientStorage where
  map := mergeAndReset (mergeAndReset fun _ src => src) ts.map other.map

end TransientStorage

/-! ### Computations -/

structure Computation where
  currentTarget : Address
  logEntries : List Log := []
  transientStorage : TransientStorage := {}
  refundCounter : Int := 0

/-- What is found on the way from the first of the computations to the one that nothing has
called. -/
def findTransientStorage (address : Address) (slot : UInt256) : List Computation → UInt256
  | [] => 0
  | cpt :: parents =>
    match cpt.transientStorage.getStorage address slot with
    | (true, res) => res
    | (false, _) => findTransientStorage address slot parents

namespace Computation

variable (c : Computation)

def setTransientStorage (slot value : UInt256) : Computation :=
  { c with transientStorage := c.transientStorage.setStorage c.currentTarget slot value }

def getTransientStorage (parents : List Computation) (slot : UInt256) : UInt256 :=
  findTransientStorage c.currentTarget slot (c :: parents)

def addLogEntry (log : Log) : Computation := { c with logEntries := c.logEntries ++ [log] }

def refundGas (amount : Int) : Computation := { c with refundCounter := c.refundCounter + amount }

def merge (child : Computation) : Computation :=
  { c with
    logEntries := c.logEntries ++ child.logEntries
    transientStorage := c.transientStorage.merge child.transientStorage
  }.refundGas child.refundCounter

end Computation

/-! ### Executions -/

/-- What a frame does, up to its end. A call and a creation are the same here. -/
inductive Code where
  | finish (isSuccess : Bool)
  | tstore (slot value : UInt256) (next : Code)
  | tload (slot : UInt256) (next : UInt256 → Code)
  | log (entry : Log) (next : Code)
  | refund (amount : Int) (next : Code)
  | call (currentTarget : Address) (child : Code) (next : Bool → Code)

inductive Event where
  | tstore (key : Address × UInt256) (value : UInt256)
  | tload (key : Address × UInt256) (value : UInt256)
  | log (entry : Log)
  | refund (amount : Int)
  | beforeExec
  | afterExec (isSuccess : Bool)

structure Ended where
  computation : Computation
  isSuccess : Bool
  /-- the last event first -/
  history : List Event

/-- The execution of `c`, called by the first of `parents`. -/
def exec : Code → Computation → List Computation → List Event → Ended
  | .finish isSuccess, c, _, history => ⟨c, isSuccess, history⟩
  | .tstore slot value next, c, parents, history =>
    exec next (c.setTransientStorage slot value) parents
      (.tstore (c.currentTarget, slot) value :: history)
  | .tload slot next, c, parents, history =>
    let value := c.getTransientStorage parents slot
    exec (next value) c parents (.tload (c.currentTarget, slot) value :: history)
  | .log entry next, c, parents, history =>
    exec next (c.addLogEntry entry) parents (.log entry :: history)
  | .refund amount next, c, parents, history =>
    exec next (c.refundGas amount) parents (.refund amount :: history)
  | .call currentTarget child next, c, parents, history =>
    let child := exec child { currentTarget } (c :: parents) (.beforeExec :: history)
    -- the continuation that runs after the child
    let c := if child.isSuccess then c.merge child.computation else c
    exec (next child.isSuccess) c parents (.afterExec child.isSuccess :: child.history)

/-- The frame of a transaction. -/
def execTop (code : Code) (currentTarget : Address) : Ended :=
  exec code { currentTarget } [] [.beforeExec]

/-- `vmState.txLogs`, as `finishRunningComputation` leaves them. -/
def Ended.txLogs (ended : Ended) : List Log :=
  if ended.isSuccess then ended.computation.logEntries else []

/-- What `getGasRefund` adds to the refunds of the transaction itself. -/
def Ended.gasRefund (ended : Ended) : Int :=
  if ended.isSuccess then ended.computation.refundCounter else 0

end Nimbus.Native.FrameEffects
