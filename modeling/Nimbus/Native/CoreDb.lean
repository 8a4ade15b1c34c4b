import Mathlib.Data.Set.Function
import Nimbus.Native.Aristo.Desc

/-!
# The state database as the ledger sees it

The calls of `execution_chain/db/core_db/base.nim` that the ledger makes, on what they store:
an account record under each account path, with a table of slots that belongs to the account,
and the contract codes under their hashes. The slot table of an account goes when the account
goes, and no slot is stored with the value zero.

The hash function is a library of its own, and a parameter here.
-/

namespace Nimbus.Native

open Aristo (Hash32 UInt256 AristoAccount)

/-- `keccak256` of `eth/common/hashes`. -/
class Keccak where
  keccak256 : List UInt8 → Hash32

export Keccak (keccak256)

abbrev Address := Vector UInt8 20

instance neZeroAddress : NeZero 20 := ⟨by decide⟩

instance lawfulAddress : LawfulBEq Address := inferInstance

def toBytesBE (x : UInt256) : Vector UInt8 32 :=
  Vector.ofFn fun i => UInt8.ofBitVec (x.extractLsb' (8 * (31 - i)) 8)

section
variable [Keccak]

def computeAccPath (address : Address) : Hash32 := keccak256 address.toList

def computeSlotKey (slot : UInt256) : Hash32 := keccak256 (toBytesBE slot).toList

/-- The hash of the empty code. -/
def EMPTY_CODE_HASH : Hash32 := keccak256 []

end

namespace CoreDb

abbrev CoreDbAccount := AristoAccount

inductive CoreDbError where
  | AccNotFound
  | MergeStoAccMissing

structure AccountEntry where
  account : CoreDbAccount
  storage : Table Hash32 UInt256
  ne_zero : ∀ stoPath value, storage.lookup stoPath = some value → value ≠ 0

/-- What `CoreDbTxRef` gives access to. -/
structure CoreDbTx where
  accounts : Table Hash32 AccountEntry
  code : Table Hash32 (List UInt8)

namespace AccountEntry

/-- The value of a slot, zero where there is none. -/
def slot (e : AccountEntry) (stoPath : Hash32) : UInt256 := (e.storage.lookup stoPath).getD 0

end AccountEntry

namespace CoreDbTx

variable (db : CoreDbTx) (accPath : Hash32)

def fetchAccount : Except CoreDbError CoreDbAccount :=
  match db.accounts.lookup accPath with
  | none => .error .AccNotFound
  | some e => .ok e.account

def fetchSlot (stoPath : Hash32) : Except CoreDbError UInt256 :=
  match db.accounts.lookup accPath with
  | none => .error .AccNotFound
  | some e => .ok (e.slot stoPath)

def hasStorage : Except CoreDbError Bool :=
  match db.accounts.lookup accPath with
  | none => .error .AccNotFound
  | some e => .ok (decide (0 < e.storage.len))

def getCodeByHash (codeHash : Hash32) : Option (List UInt8) := db.code.lookup codeHash

end CoreDbTx

end CoreDb

end Nimbus.Native
