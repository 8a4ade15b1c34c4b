import Nimbus.ForStd.Keeps
import Nimbus.ForStd.WriteAll
import Nimbus.Native.ChainLookups
import Mathlib.Algebra.Group.Nat.Defs

/-!
# Import of a batch of blocks

Model of `execution_chain/core/chain/persist_blocks.nim`, of the writers of
`db/core_db/core_apps.nim` that it uses, and of the order of `processBlock` and
`validateHeaderAndKinship`. A batch has one frame for accounts and storage, which is dropped
when a block fails. The key-value store has no frames: what is put is on disk at once. The
cache of block hashes mirrors the store.

Running transactions, system calls and rewards, and the checks that read nothing but a block and
what it has left, are a parameter. The caches of the ledger hold what state and store hold, and
are left out.
-/

namespace Nimbus.Native.PersistBlocks

open Nimbus.Native.ForkedChain
  (Hash32 Transaction Receipt TransactionKey Withdrawal GENESIS_PARENT_HASH EMPTY_ROOT_HASH
   EMPTY_UNCLE_HASH)

inductive PersistBlockFlag where
  | validation
  | fullValidation
  | persistHeaders
  | persistTransactions
  | persistUncles
  | persistWithdrawals
  | persistReceipts
  | persistSlotHashes
  deriving DecidableEq

abbrev PersistBlockFlags := List PersistBlockFlag

/-- A header, with the encoding of the fields that only the execution reads. -/
structure Header where
  parentHash : Hash32
  number : Nat
  timestamp : Nat
  difficulty : Nat
  gasUsed : Nat
  stateRoot : Hash32
  txRoot : Hash32
  receiptsRoot : Hash32
  ommersHash : Hash32
  withdrawalsRoot : Option Hash32
  rest : List UInt8
  deriving DecidableEq

def Header.isGenesis (header : Header) : Bool :=
  header.number == 0 && header.parentHash == GENESIS_PARENT_HASH

structure Block where
  header : Header
  transactions : List Transaction
  uncles : List Header
  withdrawals : Option (List Withdrawal)

/-- An error result, or an assertion that fails and ends the process. -/
inductive Failure where
  | error (msg : String)
  | defect
  deriving DecidableEq

/-! ## The key-value store -/

inductive DbKey where
  /-- of a header or of ommers -/
  | genericHash (hash : Hash32)
  | blockNumberToHash (number : Nat)
  | blockHashToScore (hash : Hash32)
  | canonicalHeadHash
  | hashIndex (root : Hash32) (index : Nat)
  | transactionHashToBlock (hash : Hash32)
  | withdrawals (root : Hash32)
  | tailId
  | contractHash (hash : Hash32)
  | slotHashToSlot (hash : Hash32)
  | blockHashToWitness (hash : Hash32)
  deriving DecidableEq

inductive DbValue where
  | header (header : Header)
  | uncles (uncles : List Header)
  | hash (hash : Hash32)
  | score (score : Nat)
  | transaction (tx : Transaction)
  | receipt (receipt : Receipt)
  | txKey (key : TransactionKey)
  | withdrawals (withdrawals : List Withdrawal)
  | number (number : Nat)
  | bytes (bytes : List UInt8)

abbrev Records := DbKey → Option DbValue

/-- The store with its cache of block hashes, and what has been put in the past, one after the
other, which nothing reads. -/
structure KvtDb where
  records : Records
  blockHashes : Nat → Option Hash32
  puts : List (DbKey × DbValue)

def getHeader (records : Records) (hash : Hash32) : Option Header :=
  match records (.genericHash hash) with
  | some (.header header) => some header
  | _ => none

def getScore (records : Records) (hash : Hash32) : Option Nat :=
  match records (.blockHashToScore hash) with
  | some (.score score) => some score
  | _ => none

def getCanonicalHeaderHash (records : Records) : Option Hash32 :=
  match records .canonicalHeadHash with
  | some (.hash hash) => some hash
  | _ => none

/-- `getBlockHash`: the cache is asked first. -/
def KvtDb.getBlockHash (kvt : KvtDb) (number : Nat) : Option Hash32 :=
  match kvt.blockHashes number with
  | some cached => some cached
  | none =>
    match kvt.records (.blockNumberToHash number) with
    | some (.hash hash) => some hash
    | _ => none

/-! ## The environment -/

/-- What the execution of a block reads. -/
structure View (σ : Type) where
  state : σ
  records : Records
  getBlockHash : Nat → Option Hash32

/-- Code, or the slot of a slot hash, that is stored while a block runs. -/
inductive Preimage where
  | code (hash : Hash32) (code : List UInt8)
  | slot (hash : Hash32) (slot : List UInt8)

/-- What a part of a block ends with, and what it has stored by then. -/
structure Ran (α : Type) where
  stored : List Preimage
  result : Except Failure α

/-- What `procBlkEpilogue` has when its checks begin, and what they come to: the one of the block
access list, and those of bloom, receipts root and requests hash. -/
structure Epilogue (σ β : Type) where
  state : σ
  books : β
  accessListCheck : Except Failure Unit
  receiptsCheck : Except Failure Unit

structure ProcessOptions where
  skipValidation : Bool
  skipReceipts : Bool
  skipUncles : Bool
  skipStateRootCheck : Bool
  skipPostExecBalCheck : Bool
  storeSlotHash : Bool

/-- `CommonRef`, with the virtual machine over states `σ`. Its books `β` are receipts, logs and
gas of the block. -/
structure CommonRef (σ β : Type) where
  computeBlockHash : Header → Hash32
  /-- the hash of the list of ommers -/
  rlpHash : List Header → Hash32
  stateRoot : σ → Hash32
  startOfHistory : Hash32
  amsterdamTime : Option Nat
  /-- the number that the cache of block hashes drops to make room -/
  evicted : (Nat → Option Hash32) → Nat → Option Nat
  /-- `header.extraData.len > 32` -/
  genesisCheck : Block → Except Failure Unit
  /-- `validateHeader` up to the number, and from the timestamp on, with the uncles -/
  fieldsCheck : Block → Except Failure Unit
  kinshipCheck : View σ → Header → Block → Except Failure Unit
  /-- `procBlkPreamble` up to the check of the gas that has been used -/
  preamble : ProcessOptions → View σ → Header → Block → Ran (σ × β)
  /-- the reward, and `procBlkEpilogue` -/
  epilogue : ProcessOptions → View σ → β → Header → Block → Ran (Epilogue σ β)
  receipts : β → List Receipt
  /-- the encoded witness, and its validation -/
  witness : View σ → View σ → Header → Block → Except Failure (List UInt8)
  statelessProvider : Bool

/-- The database: accounts and storage as of the block with the saved number. -/
structure CoreDb (σ : Type) where
  kvt : KvtDb
  state : σ
  savedStateBlockNumber : Nat

variable {σ β : Type} (com : CommonRef σ β)

def CommonRef.isAmsterdamOrLater (timestamp : Nat) : Bool :=
  match com.amsterdamTime with
  | none => false
  | some time => decide (time ≤ timestamp)

abbrev PersistM := EStateM Failure KvtDb

def liftExcept {α : Type} : Except Failure α → PersistM α
  | .ok a => return a
  | .error e => throw e

def onlyIf (c : Bool) (task : PersistM Unit) : PersistM Unit := if c then task else return ()

/-! ## Writers -/

def put (key : DbKey) (value : DbValue) : PersistM Unit :=
  modify fun kvt =>
    { kvt with
      records := Function.update kvt.records key (some value)
      puts := kvt.puts ++ [(key, value)] }

def putPreimages : List Preimage → PersistM Unit
  | [] => return ()
  | .code hash code :: rest => do
    put (.contractHash hash) (.bytes code)
    putPreimages rest
  | .slot hash slot :: rest => do
    put (.slotHashToSlot hash) (.bytes slot)
    putPreimages rest

/-- What was stored is there also if the run has failed. -/
def runPart {α : Type} (ran : Ran α) : PersistM α := do
  putPreimages ran.stored
  liftExcept ran.result

/-- `blockHashes.put` -/
def cacheBlockHash (number : Nat) (hash : Hash32) : PersistM Unit :=
  modify fun kvt =>
    { kvt with
      blockHashes := fun n =>
        if n = number then some hash
        else if some n = com.evicted kvt.blockHashes number then none
        else kvt.blockHashes n }

def addBlockNumberToHashLookup (number : Nat) (hash : Hash32) : PersistM Unit := do
  put (.blockNumberToHash number) (.hash hash)
  cacheBlockHash com number hash

/-- The indices are 16-bit words. -/
def persistTransactions (blockNumber : Nat) (txRoot : Hash32) : List (Transaction × Nat) →
    PersistM Unit
  | [] => return ()
  | (tx, idx) :: rest => do
    put (.hashIndex txRoot (idx % 2 ^ 16)) (.transaction tx)
    put (.transactionHashToBlock tx.hash) (.txKey ⟨blockNumber, idx⟩)
    persistTransactions blockNumber txRoot rest

def persistReceipts (receiptsRoot : Hash32) : List (Receipt × Nat) → PersistM Unit
  | [] => return ()
  | (rec, idx) :: rest => do
    put (.hashIndex receiptsRoot (idx % 2 ^ 16)) (.receipt rec)
    persistReceipts receiptsRoot rest

def persistWithdrawals (withdrawalsRoot : Hash32) (withdrawals : List Withdrawal) : PersistM Unit :=
  match withdrawals with
  | [] => return ()
  | _ => put (.withdrawals withdrawalsRoot) (.withdrawals withdrawals)

/-- The total difficulty of the parent. -/
def parentScore (records : Records) (header : Header) : Option Nat :=
  if header.parentHash = com.startOfHistory then some 0 else getScore records header.parentHash

/-- "It's slightly wrong to fail here and leave the block in the db." -/
def persistHeader (blockHash : Hash32) (header : Header) : PersistM Unit := do
  let kvt ← get
  if header.parentHash ≠ com.startOfHistory ∧
      (kvt.records (.genericHash header.parentHash)).isNone then
    throw (.error s!"persistHeader: parent header missing number {header.number}")
  else do
    put (.genericHash blockHash) (.header header)
    let kvt ← get
    match parentScore com kvt.records header with
    | none => throw (.error "persistHeader: cannot get score")
    | some parentScore => do
      put (.blockHashToScore blockHash) (.score ((parentScore + header.difficulty) % 2 ^ 256))
      addBlockNumberToHashLookup com header.number blockHash

def setHead (blockHash : Hash32) : PersistM Unit := put .canonicalHeadHash (.hash blockHash)

/-- The head moves to a block of a higher total difficulty only. -/
def moveHead (blockHash : Hash32) (header : Header) : PersistM Unit := do
  let kvt ← get
  if header.parentHash = com.startOfHistory then setHead blockHash
  else
    match getCanonicalHeaderHash kvt.records with
    | none => throw (.error "getHash()")
    | some canonicalHash =>
      match getScore kvt.records canonicalHash, getScore kvt.records blockHash with
      | none, _ => throw (.error "cannot load canon score")
      | _, none => throw (.error "cannot load score")
      | some canonScore, some score =>
        if score ≤ canonScore then return () else setHead blockHash

def persistHeaderAndSetHead (blockHash : Hash32) (header : Header) : PersistM Unit := do
  persistHeader com blockHash header
  moveHead com blockHash header

/-! ## A block -/

def validateHeaderAndKinship (view : View σ) (parent : Header) (blk : Block) :
    Except Failure Unit :=
  if blk.header.isGenesis then com.genesisCheck blk
  else do
    com.fieldsCheck blk
    if blk.header.number ≠ parent.number + 1 then
      .error (.error "Blocks must be numbered consecutively")
    else if blk.header.timestamp ≤ parent.timestamp then
      .error (.error "timestamp must be strictly later than parent")
    else com.kinshipCheck view parent blk

variable (opts : ProcessOptions)

/-- The end of `procBlkPreamble`: uncles are stored before they are compared. -/
def checkUncles (blk : Block) : PersistM Unit :=
  if blk.header.ommersHash ≠ EMPTY_UNCLE_HASH then
    if !opts.skipUncles then do
      put (.genericHash (com.rlpHash blk.uncles)) (.uncles blk.uncles)
      if com.rlpHash blk.uncles ≠ blk.header.ommersHash then
        throw (.error "ommersHash mismatch")
      else return ()
    else if !opts.skipValidation && com.rlpHash blk.uncles != blk.header.ommersHash then
      throw (.error "ommersHash mismatch")
    else return ()
  else if blk.uncles.length > 0 then throw (.error "Uncles in block with empty uncle hash")
  else return ()

/-- The check of the access list that the tracker has made. -/
def accessListChecks (balTracker : Bool) (blk : Block)
    (done : Epilogue σ β) : Except Failure Unit :=
  if !opts.skipPostExecBalCheck && com.isAmsterdamOrLater blk.header.timestamp then
    -- `doAssert vmState.balTrackerEnabled`
    if !balTracker then .error .defect else done.accessListCheck
  else .ok ()

/-- The checks of `procBlkEpilogue`. -/
def epilogueChecks (balTracker : Bool) (blk : Block) (done : Epilogue σ β) : Except Failure Unit :=
  if opts.skipValidation then .ok ()
  else do
    accessListChecks com opts balTracker blk done
    if !opts.skipStateRootCheck && com.stateRoot done.state != blk.header.stateRoot then
      .error (.error "stateRoot mismatch")
    else done.receiptsCheck

def viewOf (kvt : KvtDb) (state : σ) : View σ where
  state := state
  records := kvt.records
  getBlockHash := kvt.getBlockHash

/-- `processBlock`: the state and the books that the block leaves. -/
def processBlock (balTracker : Bool) (state : σ) (parent : Header)
    (blk : Block) : PersistM (σ × β) := do
  let kvt ← get
  let ran ← runPart (com.preamble opts (viewOf kvt state) parent blk)
  checkUncles com opts blk
  let kvt ← get
  let done ← runPart (com.epilogue opts (viewOf kvt ran.1) ran.2 parent blk)
  liftExcept (epilogueChecks com opts balTracker blk done)
  return (done.state, done.books)

/-! ## The persister -/

/-- The frame of the batch, with the header that it is the state of. -/
structure VmState (σ : Type) where
  state : σ
  parent : Header
  balTracker : Bool

structure PersistStats where
  blocks : Nat := 0
  txs : Nat := 0
  gas : Nat := 0
  deriving DecidableEq

structure Persister (σ : Type) where
  vmState : Option (VmState σ) := none
  stats : PersistStats := {}

variable (flags : PersistBlockFlags) (db : CoreDb σ)

/-- The access list is tracked for the whole batch or not at all. -/
def getVmState (p : Persister σ) (header : Header) : PersistM (VmState σ) := do
  let kvt ← get
  match p.vmState with
  | none =>
    match getHeader kvt.records header.parentHash with
    | none => throw (.error s!"No block with hash {header.parentHash}")
    | some parent =>
      -- `doAssert txFrame.getSavedStateBlockNumber() == parent.number`
      if db.savedStateBlockNumber ≠ parent.number then throw .defect
      else
        return {
          state := db.state
          parent := parent
          balTracker := decide (.fullValidation ∈ flags) &&
            com.isAmsterdamOrLater header.timestamp }
  | some vmState =>
    if header.number ≠ vmState.parent.number + 1 then
      throw (.error "Only linear histories supported by Persister")
    else return vmState

def processOptions : ProcessOptions where
  skipValidation := decide (.fullValidation ∉ flags)
  skipReceipts := decide (.fullValidation ∉ flags) && decide (.persistReceipts ∉ flags)
  skipUncles := decide (.persistUncles ∉ flags)
  skipStateRootCheck := decide (.fullValidation ∉ flags)
  skipPostExecBalCheck := decide (.fullValidation ∉ flags)
  storeSlotHash := decide (.persistSlotHashes ∈ flags)

/-- The witness of the block, for peers without a state. -/
def storeWitness (before after : σ) (parent : Header) (blk : Block) : PersistM Unit := do
  let kvt ← get
  let witness ← liftExcept (com.witness (viewOf kvt before) (viewOf kvt after) parent blk)
  put (.blockHashToWitness (com.computeBlockHash blk.header)) (.bytes witness)

def storeWithdrawals (blk : Block) : PersistM Unit :=
  match blk.withdrawals, blk.header.withdrawalsRoot with
  | none, _ => return ()
  -- "WithdrawalsRoot should be verified before"
  | some _, none => throw .defect
  | some withdrawals, some withdrawalsRoot => persistWithdrawals withdrawalsRoot withdrawals

/-- The records of a block that has been processed. -/
def storeBlock (blk : Block) (books : β) : PersistM Unit := do
  onlyIf (decide (.persistHeaders ∈ flags))
    (persistHeaderAndSetHead com (com.computeBlockHash blk.header) blk.header)
  onlyIf (decide (.persistTransactions ∈ flags))
    (persistTransactions blk.header.number blk.header.txRoot blk.transactions.zipIdx)
  onlyIf (decide (.persistReceipts ∈ flags))
    (persistReceipts blk.header.receiptsRoot (com.receipts books).zipIdx)
  onlyIf (decide (.persistWithdrawals ∈ flags)) (storeWithdrawals blk)
  onlyIf (decide (.persistTransactions ∉ flags ∧ .persistReceipts ∉ flags ∧
      .persistWithdrawals ∉ flags))
    (put .tailId (.number blk.header.number))

def persistBlock (p : Persister σ) (blk : Block) : PersistM (Persister σ) := do
  let vmState ← getVmState com flags db p blk.header
  let kvt ← get
  onlyIf (decide (.fullValidation ∈ flags))
    (liftExcept (validateHeaderAndKinship com (viewOf kvt vmState.state) vmState.parent blk))
  let done ← processBlock com (processOptions flags) vmState.balTracker vmState.state
    vmState.parent blk
  onlyIf com.statelessProvider (storeWitness com vmState.state done.1 vmState.parent blk)
  storeBlock com flags blk done.2
  return {
    vmState := some { vmState with state := done.1, parent := blk.header }
    stats := {
      blocks := p.stats.blocks + 1
      txs := p.stats.txs + blk.transactions.length
      gas := p.stats.gas + blk.header.gasUsed } }

/-- `checkpoint`: the state is written, unless its root is wrong. -/
def checkpoint (p : Persister σ) : Except Failure (CoreDb σ) :=
  match p.vmState with
  | none => .error .defect
  | some vmState =>
    if .validation ∈ flags ∧ vmState.parent.stateRoot ≠ com.stateRoot vmState.state then
      .error (.error "stateRoot mismatch")
    else
      .ok { db with state := vmState.state, savedStateBlockNumber := vmState.parent.number }

/-- The loop over the blocks of the batch. -/
def persistLoop (blocks : List Block) (p : Persister σ) : PersistM (Persister σ) :=
  blocks.foldlM (persistBlock com flags db) p

def persistBlocks (blocks : List Block) : Except Failure PersistStats × CoreDb σ :=
  if blocks = [] then (.ok {}, db)
  else
    match persistLoop com flags db blocks {} db.kvt with
    | .error e kvt => (.error e, { db with kvt := kvt })
    | .ok p kvt =>
      match checkpoint com flags { db with kvt := kvt } p with
      | .error e => (.error e, { db with kvt := kvt })
      | .ok db => (.ok p.stats, db)

end Nimbus.Native.PersistBlocks
