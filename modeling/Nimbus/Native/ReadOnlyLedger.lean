import Nimbus.Native.Ledger

/-!
# The read-only view of a ledger

Model of `ReadOnlyLedger` of `execution_chain/db/ledger.nim`, a distinct type over `LedgerRef`
whose queries pass on to those of the ledger behind it. A query of a ledger fills its caches, so
it returns the ledger as well as the answer, and a query of the view does the same.
-/

namespace Nimbus.Native.Ledger

open Aristo (Hash32 UInt256 Defect)
open CoreDb

section
variable [Keccak]

namespace LedgerRef

variable (ledger : LedgerRef) (address : Address)

/-- `isEmptyAccount`, which asserts that there is an account. -/
def isEmptyAccount : Except Defect Bool × LedgerRef :=
  match ledger.getAccount address false with
  | (none, ledger) => (.error .assertion, ledger)
  | (some acc, ledger) => (if acc.exists' then .ok acc.isEmpty else .error .assertion, ledger)

def getCodeSize : Nat × LedgerRef :=
  match ledger.getAccount address false with
  | (none, ledger) => (0, ledger)
  | (some acc, ledger) =>
    match acc.code with
    | some code => (code.bytes.length, ledger)
    | none =>
      if acc.statement.codeHash = EMPTY_CODE_HASH then (0, ledger)
      else (((ledger.txFrame.getCodeByHash acc.statement.codeHash).map List.length).getD 0, ledger)

end LedgerRef

/-- `ReadOnlyLedger* = distinct LedgerRef` -/
structure ReadOnlyLedger where
  distinctBase : LedgerRef

/-- A result of the ledger behind a view, with the view on the ledger that is left. -/
def viewed {α : Type} (r : α × LedgerRef) : α × ReadOnlyLedger := (r.1, ⟨r.2⟩)

namespace ReadOnlyLedger

variable (ledger : ReadOnlyLedger) (address : Address)

def getCodeHash : Hash32 × ReadOnlyLedger := viewed (ledger.distinctBase.getCodeHash address)

def getBalance : UInt256 × ReadOnlyLedger := viewed (ledger.distinctBase.getBalance address)

def getStorage (slot : UInt256) : UInt256 × ReadOnlyLedger :=
  viewed (ledger.distinctBase.getStorage address slot)

def getNonce : UInt64 × ReadOnlyLedger := viewed (ledger.distinctBase.getNonce address)

def getCode : List UInt8 × ReadOnlyLedger := viewed (ledger.distinctBase.getCode address)

def getCodeSize : Nat × ReadOnlyLedger := viewed (ledger.distinctBase.getCodeSize address)

def contractCollision : Bool × ReadOnlyLedger :=
  viewed (ledger.distinctBase.contractCollision address)

def accountExists : Bool × ReadOnlyLedger := viewed (ledger.distinctBase.accountExists address)

def isAccountAlive : Bool × ReadOnlyLedger := viewed (ledger.distinctBase.isAccountAlive address)

def isEmptyAccount : Except Defect Bool × ReadOnlyLedger :=
  viewed (ledger.distinctBase.isEmptyAccount address)

def getCommittedStorage (slot : UInt256) : UInt256 × ReadOnlyLedger :=
  viewed (ledger.distinctBase.getCommittedStorage address slot)

def inAccessList : Bool := ledger.distinctBase.inAccessList address

/-- `inAccessList` of an address and a slot. -/
def inAccessListSlot (_slot : UInt256) : Bool :=
  -- the slot is not passed on
  ledger.distinctBase.inAccessList address

end ReadOnlyLedger

/-! ## The queries as data -/

/-- A query about an address and a slot. Most of them leave the slot alone. -/
inductive Query where
  | getBalance
  | getNonce
  | getCodeHash
  | getCode
  | getCodeSize
  | getStorage
  | getCommittedStorage
  | accountExists
  | isAccountAlive
  | isEmptyAccount
  | contractCollision
  | inAccessList
  | inAccessListSlot
  deriving DecidableEq

inductive Answer where
  | word (value : UInt256)
  | nonce (value : UInt64)
  | hash (value : Hash32)
  | bytes (value : List UInt8)
  | size (value : Nat)
  | flag (value : Bool)
  | checked (value : Except Defect Bool)

/-- The answer of a ledger, and the ledger that is left. -/
def LedgerRef.answer (ledger : LedgerRef) (address : Address) (slot : UInt256) :
    Query → Answer × LedgerRef
  | .getBalance => (ledger.getBalance address).map .word id
  | .getNonce => (ledger.getNonce address).map .nonce id
  | .getCodeHash => (ledger.getCodeHash address).map .hash id
  | .getCode => (ledger.getCode address).map .bytes id
  | .getCodeSize => (ledger.getCodeSize address).map .size id
  | .getStorage => (ledger.getStorage address slot).map .word id
  | .getCommittedStorage => (ledger.getCommittedStorage address slot).map .word id
  | .accountExists => (ledger.accountExists address).map .flag id
  | .isAccountAlive => (ledger.isAccountAlive address).map .flag id
  | .isEmptyAccount => (ledger.isEmptyAccount address).map .checked id
  | .contractCollision => (ledger.contractCollision address).map .flag id
  | .inAccessList => (.flag (ledger.inAccessList address), ledger)
  | .inAccessListSlot => (.flag (ledger.inAccessListSlot address slot), ledger)

/-- The answer of the view, and the view that is left. -/
def ReadOnlyLedger.answer (ledger : ReadOnlyLedger) (address : Address) (slot : UInt256) :
    Query → Answer × ReadOnlyLedger
  | .getBalance => (ledger.getBalance address).map .word id
  | .getNonce => (ledger.getNonce address).map .nonce id
  | .getCodeHash => (ledger.getCodeHash address).map .hash id
  | .getCode => (ledger.getCode address).map .bytes id
  | .getCodeSize => (ledger.getCodeSize address).map .size id
  | .getStorage => (ledger.getStorage address slot).map .word id
  | .getCommittedStorage => (ledger.getCommittedStorage address slot).map .word id
  | .accountExists => (ledger.accountExists address).map .flag id
  | .isAccountAlive => (ledger.isAccountAlive address).map .flag id
  | .isEmptyAccount => (ledger.isEmptyAccount address).map .checked id
  | .contractCollision => (ledger.contractCollision address).map .flag id
  | .inAccessList => (.flag (ledger.inAccessList address), ledger)
  | .inAccessListSlot => (.flag (ledger.inAccessListSlot address slot), ledger)

end

end Nimbus.Native.Ledger
