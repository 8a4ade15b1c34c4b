import Mathlib.Algebra.BigOperators.Group.Finset.Defs
import Nimbus.Native.BalTracker
import Nimbus.Native.CallTree
import Nimbus.Native.Ledger

/-!
# What call trees do to the state

Model of the effects on the state of `evm/interpreter_dispatch.nim`, `evm/computation.nim`,
`evm/eip7708.nim` and of the opcode handlers of `evm/interpreter/op_handlers`: the message that a
call makes, the checks of the static context, the balances, nonces, codes, storage, logs and
self-destructs.

A frame is given by the opcodes that it executes with their operands, as a tree. Gas is metered
in `Nimbus.Native.CallTree`; here an opcode that runs out of it, or that finds its stack too
short, is `halt`, so that every frame may end at every opcode. The ledger is what its savepoints
are for: a frame that fails gets back the ledger that it began with.
-/

namespace Nimbus.Native.Interpreter

open Aristo (UInt256)
open BalTracker (World)
open Evm (EVMFork CallOp Ending MaxCallDepth EIP170_MAX_CODE_SIZE EIP7954_MAX_CODE_SIZE
  EIP3860_MAX_INITCODE_SIZE EIP7954_MAX_INITCODE_SIZE)
open Evm.EVMFork
open Ledger (AccessList RIPEMD_ADDR)

/-! ### The ledger -/

structure LedgerState extends World where
  /-- empty accounts that were sent nothing -/
  touched : Finset Address := ∅
  selfDestruct : Finset Address := ∅
  /-- the accounts that keep their balance when they are deleted -/
  clearAccountPreserveBalance : Finset Address := ∅
  accessList : AccessList := {}
  /-- What self-destructs have burnt. The code keeps no such count. -/
  burnt : Nat := 0

namespace LedgerState

variable (ledger : LedgerState) (address : Address)

def setWorld (world : World) : LedgerState := { ledger with toWorld := world }

def getBalance : UInt256 := ledger.balance address

def setBalance (balance : UInt256) : LedgerState :=
  ledger.setWorld (ledger.toWorld.setBalance address balance)

def setNonce (nonce : UInt64) : LedgerState :=
  ledger.setWorld (ledger.toWorld.setNonce address nonce)

def setCode (code : List UInt8) : LedgerState :=
  ledger.setWorld (ledger.toWorld.setCode address code)

def setStorage (slot value : UInt256) : LedgerState :=
  ledger.setWorld (ledger.toWorld.setStorage address slot value)

def isEmpty : Bool :=
  ledger.nonce address == 0 && ledger.balance address == 0 && ledger.code address == []

def addBalance (delta : UInt256) (checkEmptyAccount : Bool) : LedgerState :=
  if delta = 0 then
    if checkEmptyAccount && ledger.isEmpty address then
      { ledger with touched := insert address ledger.touched }
    else ledger
  else ledger.setBalance address (ledger.getBalance address + delta)

def subBalance (delta : UInt256) : LedgerState :=
  if delta = 0 then ledger
  else ledger.setBalance address (ledger.getBalance address - delta)

def incNonce : LedgerState := ledger.setNonce address (ledger.nonce address + 1)

/-- `clearStorage`, where the database may hold storage of the account. -/
def clearStorage (hasStorage : Bool) : LedgerState :=
  if hasStorage then
    ledger.setWorld { ledger.toWorld with
      storage := Function.update ledger.storage address fun _ => 0 }
  else ledger

def contractCollision (hasStorage : Bool) : Bool :=
  ledger.nonce address != 0 || ledger.code address != [] || hasStorage

def inclSelfDestruct : LedgerState :=
  { ledger with selfDestruct := insert address ledger.selfDestruct }

def burn (amount : Nat) : LedgerState := { ledger with burnt := ledger.burnt + amount }

/-- `selfDestruct` of the ledger. -/
def destroy : LedgerState := (ledger.setBalance address 0).inclSelfDestruct address

/-- `selfDestruct6780`, with what the flags of the account say. -/
def selfDestruct6780 (newlyCreated : Bool) : LedgerState :=
  if newlyCreated then ledger.destroy address else ledger

def selfDestruct8246 (newlyCreated : Bool) : LedgerState :=
  if newlyCreated then
    { ledger with
      clearAccountPreserveBalance := insert address ledger.clearAccountPreserveBalance }.inclSelfDestruct
        address
  else ledger

def access : LedgerState := { ledger with accessList := ledger.accessList.add address }

def accessSlot (slot : UInt256) : LedgerState :=
  { ledger with accessList := ledger.accessList.addSlot address slot }

/-- `deleteAccount`, for each account that is registered for it. -/
def deleteAccounts : LedgerState :=
  let killed := ledger.selfDestruct \ ledger.clearAccountPreserveBalance
  { ledger with
    balance := fun a => if a ∈ killed then 0 else ledger.balance a
    nonce := fun a => if a ∈ ledger.selfDestruct then 0 else ledger.nonce a
    code := fun a => if a ∈ ledger.selfDestruct then [] else ledger.code a
    storage := fun a => if a ∈ ledger.selfDestruct then fun _ => 0 else ledger.storage a
    burnt := ledger.burnt + ∑ a ∈ killed, (ledger.balance a).toNat }

/-- `clearEmptyAccounts`: of an empty account there is only storage to go. -/
def clearEmptyAccounts (ripemdSpecial : Bool) : LedgerState :=
  { ledger with
    storage := fun a =>
      if (a ∈ ledger.touched ∨ ripemdSpecial ∧ a = RIPEMD_ADDR) ∧ ledger.isEmpty a then fun _ => 0
      else ledger.storage a }

def persist (clearEmptyAccount ripemdSpecial : Bool) : LedgerState :=
  let ledger := ledger.deleteAccounts
  let ledger := if clearEmptyAccount then ledger.clearEmptyAccounts ripemdSpecial else ledger
  { ledger with
    touched := ∅
    selfDestruct := ∅
    clearAccountPreserveBalance := ∅
    accessList := {} }

end LedgerState

/-! ### Messages -/

inductive CallKind where
  | Call
  | DelegateCall
  | CallCode
  | Create
  | Create2
  deriving DecidableEq

inductive MsgFlag where
  | Static
  | Precompile
  | Delegated
  deriving DecidableEq

open MsgFlag

structure Message where
  kind : CallKind
  depth : Nat := 0
  sender : Address
  currentTarget : Address
  codeAddress : Address
  value : UInt256
  flags : Finset MsgFlag := ∅

def Message.isCreate (msg : Message) : Bool := msg.kind == .Create || msg.kind == .Create2

/-- A log record. The address is the one of the account that logs. -/
structure Log where
  address : Address
  topics : List Aristo.Hash32
  data : List UInt8

/-- What a frame may change. Logs and transient storage are the frame's own until it succeeds. -/
structure Effects where
  ledger : LedgerState
  logEntries : List Log := []
  transientStorage : Table (Address × UInt256) UInt256 := ∅

/-- A frame that has ended, with the state that it began and ended with. -/
structure Ended where
  msg : Message
  before : Effects
  after : Effects

structure Machine extends Effects where
  /-- not part of a savepoint -/
  ripemdSpecial : Bool := false
  /-- every call of `subBalance`: the balance it finds and the amount it takes -/
  subs : List (UInt256 × UInt256) := []
  /-- every frame that has ended, the last one first -/
  ended : List Ended := []

/-- Why an opcode fails. -/
inductive OpError where
  | StaticContext
  | InvalidInstruction
  | InvalidInitCode
  /-- out of gas, a stack or a jump error, a failing precompile, ... -/
  | Halt

abbrev InterpM := EStateM OpError Machine

def modifyLedger (f : LedgerState → LedgerState) : InterpM Unit :=
  modify fun s => { s with ledger := f s.ledger }

/-- `subBalance`, with a note of what it does. -/
def subBalance (address : Address) (delta : UInt256) : InterpM Unit :=
  modify fun s => { s with
    ledger := s.ledger.subBalance address delta
    subs := (s.ledger.getBalance address, delta) :: s.subs }

def addBalance (fork : EVMFork) (address : Address) (delta : UInt256) : InterpM Unit :=
  modifyLedger (·.addBalance address delta (fork < FkParis))

def addLogEntry (log : Log) : InterpM Unit :=
  modify fun s => { s with logEntries := s.logEntries ++ [log] }

/-- `checkInStaticContext`. -/
def checkInStaticContext (msg : Message) : InterpM Unit :=
  if Static ∈ msg.flags then throw .StaticContext else pure ()

/-- An `if` statement without an `else`. -/
def onlyIf (p : Prop) [Decidable p] (x : InterpM Unit) : InterpM Unit :=
  if p then x else pure ()

/-- An opcode that a fork introduces. -/
def requireFork (fork since : EVMFork) : InterpM Unit :=
  if since ≤ fork then pure () else throw .InvalidInstruction

end Nimbus.Native.Interpreter
