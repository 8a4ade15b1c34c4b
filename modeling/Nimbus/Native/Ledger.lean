import Mathlib.Data.Finset.Erase
import Mathlib.Data.Finset.SDiff
import Nimbus.Native.CoreDb

/-!
# The ledger: accounts with savepoints on top of the state database

Model of `execution_chain/db/ledger.nim` and `access_list.nim`.

An account object is held by value in the `cache` of its savepoint. The code shares objects
in two ways, and both are kept: a caller that does not go through `makeDirty` changes the
object in the savepoint where `getAccount` found it, here `modifyAccount`; and all objects of
one address share one `OriginalValueRef`, here the entry of the address in `originals`, which
is new whenever the address is loaded anew. The `dirty` table refers to the objects of
`cache` of the same savepoint, so only its keys are kept.
-/

namespace Nimbus.Native.Ledger

open Aristo (Hash32 UInt256 Defect)
open CoreDb

inductive AccountFlag where
  | LeafExists
  | IsNew
  | Dirty
  | Touched
  | CodeChanged
  | StorageChanged
  /-- EIP-6780: self destruct only in same transaction -/
  | NewlyCreated
  | ClearAccountPreserveBalance
  deriving DecidableEq

open AccountFlag

abbrev AccountFlags := Finset AccountFlag

abbrev HashSet (K : Type) := Table K Unit

def HashSet.incl {K : Type} [DecidableEq K] (s : HashSet K) (k : K) : HashSet K := s.insert k ()

/-- The original value from the database. -/
structure OriginalValue where
  statement : CoreDbAccount
  storage : Table UInt256 UInt256

structure CodeBytes where
  bytes : List UInt8
  persisted : Bool := false

structure Account where
  statement : CoreDbAccount
  accPath : Hash32
  flags : AccountFlags
  code : Option CodeBytes := none
  overlayStorage : Table UInt256 UInt256 := ∅

structure AccessList where
  addresses : HashSet Address := ∅
  storageKeys : Table Address (HashSet UInt256) := ∅

structure LedgerSp where
  cache : Table Address Account := ∅
  dirty : HashSet Address := ∅
  selfDestruct : HashSet Address := ∅
  accessList : AccessList := {}

structure LedgerRef where
  txFrame : CoreDbTx
  savePoint : LedgerSp
  /-- the savepoints that enclose `savePoint`, the innermost first -/
  parentSavePoints : List LedgerSp
  isDirty : Bool
  ripemdSpecial : Bool
  /-- second-level cache, filled when a `persist` clears the first one -/
  cache : Table Address Account
  originals : Table Address OriginalValue

def RIPEMD_ADDR : Address := Vector.ofFn fun i => if i = 19 then 3 else 0

/-! ## Access lists -/

namespace AccessList

def contains (al : AccessList) (address : Address) : Bool := decide (address ∈ al.addresses)

def containsSlot (al : AccessList) (address : Address) (slot : UInt256) : Bool :=
  match al.storageKeys.lookup address with
  | none => false
  | some val => decide (slot ∈ val)

def add (al : AccessList) (address : Address) : AccessList :=
  { al with addresses := HashSet.incl al.addresses address }

def addSlot (al : AccessList) (address : Address) (slot : UInt256) : AccessList :=
  match al.storageKeys.lookup address with
  | some val =>
    { al with storageKeys := al.storageKeys.insert address (HashSet.incl val slot) }
  | none => { al with storageKeys := al.storageKeys.insert address (HashSet.incl ∅ slot) }

end AccessList

/-! ## Account objects -/

section
variable [Keccak]

def EMPTY_STATEMENT : CoreDbAccount where
  nonce := 0
  balance := 0
  codeHash := EMPTY_CODE_HASH

namespace Account

variable (acc : Account)

def isEmpty : Bool :=
  acc.statement.nonce == 0 && acc.statement.balance == 0 &&
    acc.statement.codeHash == EMPTY_CODE_HASH

def exists' : Bool := decide (LeafExists ∈ acc.flags)

end Account

namespace LedgerRef

/-! ## Looking up accounts -/

/-- The object of an address in the innermost savepoint that has one. -/
def findAccount (address : Address) : List LedgerSp → Option Account
  | [] => none
  | sp :: sps =>
    match sp.cache.lookup address with
    | some acc => some acc
    | none => findAccount address sps

variable (ledger : LedgerRef) (address : Address)

def modifyOriginal (f : OriginalValue → OriginalValue) : LedgerRef :=
  { ledger with originals := ledger.originals.modify address f }

/-- `savePoint.cache[address] = acc` -/
def putCache (acc : Account) : LedgerRef :=
  { ledger with
    savePoint := { ledger.savePoint with cache := ledger.savePoint.cache.insert address acc } }

/-- `savePoint.dirty[address] = acc`, where `acc` is in `savePoint.cache` -/
def putDirty : LedgerRef :=
  { ledger with
    savePoint := { ledger.savePoint with
      dirty := HashSet.incl ledger.savePoint.dirty address } }

/-- Caches an object that comes with an original value of its own. -/
def cacheNew (acc : Account) : LedgerRef :=
  ({ ledger with
    originals := ledger.originals.insert address
      { statement := acc.statement, storage := ∅ } }.putCache address acc).putDirty address

def getAccount (shouldCreate : Bool) : Option Account × LedgerRef :=
  -- search account from layers of cache
  match findAccount address (ledger.savePoint :: ledger.parentSavePoints) with
  | some acc => (some acc, ledger)
  | none =>
    -- check second-level cache
    match ledger.cache.lookup address with
    | some acc =>
      (some acc, { ledger with cache := ledger.cache.erase address }.putCache address acc)
    | none =>
      -- not found in cache, look into state trie
      let accPath := computeAccPath address
      match ledger.txFrame.fetchAccount accPath with
      | .ok statement =>
        let acc : Account := { statement, accPath, flags := {LeafExists} }
        (some acc, ledger.cacheNew address acc)
      | .error _ =>
        if shouldCreate then
          let acc : Account :=
            { statement := EMPTY_STATEMENT, accPath, flags := {LeafExists, IsNew} }
          (some acc, ledger.cacheNew address acc)
        else (none, ledger)

def fetchSlotChecked (accPath : Hash32) (slot : UInt256) : UInt256 :=
  match ledger.txFrame.fetchSlot accPath (computeSlotKey slot) with
  | .ok value => value
  | .error _ => 0

def originalStorageValue (acc : Account) (slot : UInt256) : UInt256 × LedgerRef :=
  match (ledger.originals.lookup address).bind (·.storage.lookup slot) with
  | some value => (value, ledger)
  | none =>
    -- not in the original values cache: go to the DB unless it's a new account
    let value :=
      if IsNew ∈ acc.flags ∨ NewlyCreated ∈ acc.flags then 0
      else ledger.fetchSlotChecked acc.accPath slot
    (value, ledger.modifyOriginal address fun o =>
      { o with storage := o.storage.insert slot value })

def storageValue (acc : Account) (slot : UInt256) : UInt256 × LedgerRef :=
  match acc.overlayStorage.lookup slot with
  | some value => (value, ledger)
  | none => ledger.originalStorageValue address acc slot

/-! ## Savepoints -/

/-- A ledger on a transaction frame, with the outermost savepoint open. -/
def init (db : CoreDbTx) : LedgerRef where
  txFrame := db
  savePoint := {}
  parentSavePoints := []
  isDirty := false
  ripemdSpecial := false
  cache := ∅
  originals := ∅

/-! ## Getters -/

def getCodeHash : Hash32 × LedgerRef :=
  match ledger.getAccount address false with
  | (none, ledger) => (EMPTY_CODE_HASH, ledger)
  | (some acc, ledger) => (acc.statement.codeHash, ledger)

def getBalance : UInt256 × LedgerRef :=
  match ledger.getAccount address false with
  | (none, ledger) => (0, ledger)
  | (some acc, ledger) => (acc.statement.balance, ledger)

def getNonce : UInt64 × LedgerRef :=
  match ledger.getAccount address false with
  | (none, ledger) => (0, ledger)
  | (some acc, ledger) => (acc.statement.nonce, ledger)

/-- `getCode`. The code that it reads from the database is not kept in the object. -/
def getCode : List UInt8 × LedgerRef :=
  match ledger.getAccount address false with
  | (none, ledger) => ([], ledger)
  | (some acc, ledger) =>
    match acc.code with
    | some code => (code.bytes, ledger)
    | none =>
      if acc.statement.codeHash ≠ EMPTY_CODE_HASH then
        ((ledger.txFrame.getCodeByHash acc.statement.codeHash).getD [], ledger)
      else ([], ledger)

def getCommittedStorage (slot : UInt256) : UInt256 × LedgerRef :=
  match ledger.getAccount address false with
  | (none, ledger) => (0, ledger)
  | (some acc, ledger) => ledger.originalStorageValue address acc slot

def getStorage (slot : UInt256) : UInt256 × LedgerRef :=
  match ledger.getAccount address false with
  | (none, ledger) => (0, ledger)
  | (some acc, ledger) => ledger.storageValue address acc slot

def hasStorage (accPath : Hash32) : Bool :=
  match ledger.txFrame.hasStorage accPath with
  | .ok b => b
  | .error _ => false

def contractCollision : Bool × LedgerRef :=
  match ledger.getAccount address false with
  | (none, ledger) => (false, ledger)
  | (some acc, ledger) =>
    (acc.statement.nonce != 0 || acc.statement.codeHash != EMPTY_CODE_HASH ||
      ledger.hasStorage acc.accPath, ledger)

def accountExists : Bool × LedgerRef :=
  match ledger.getAccount address false with
  | (none, ledger) => (false, ledger)
  | (some acc, ledger) => (acc.exists', ledger)

def isAccountAlive : Bool × LedgerRef :=
  match ledger.getAccount address false with
  | (none, ledger) => (false, ledger)
  | (some acc, ledger) => (acc.exists' && !acc.isEmpty, ledger)

def inAccessList : Bool :=
  (ledger.savePoint :: ledger.parentSavePoints).any (·.accessList.contains address)

def inAccessListSlot (slot : UInt256) : Bool :=
  (ledger.savePoint :: ledger.parentSavePoints).any (·.accessList.containsSlot address slot)

/-! ## Setters -/

def accessList : LedgerRef :=
  { ledger with
    savePoint := { ledger.savePoint with
      accessList := ledger.savePoint.accessList.add address } }

/-! ## Persisting -/

end LedgerRef

namespace LedgerRef

variable (ledger : LedgerRef) (address : Address)

/-! ## Runs -/

end LedgerRef

end

end Nimbus.Native.Ledger
