import Mathlib.Algebra.Group.Nat.Defs
import Nimbus.ForStd.StepRun
import Nimbus.Native.ChainDb

/-!
# Lookups of blocks, receipts and transactions

Model of the lookups of `execution_chain/core/chain/forked_chain.nim`, of the readers of
`db/core_db/core_apps.nim` and `db/payload_body_db.nim` behind them, of the transaction
lookups that `writeCanonicalMappings` leaves on disk, of the block tags of
`rpc/rpc_utils.nim`, and of the ranges of `beacon/api_handler/api_getbodies.nim`.

The store knows a record by its key. What a header record or a payload holds is what its
hash or root is the hash of (`Contents`); a lookup that fails is `none`, whatever the text of
its error. The portal, which answers every request with an error, is left out.
-/

namespace Nimbus.Native.ForkedChain

/-- Of a transaction only the hash. -/
structure Transaction where
  hash : Hash32
  deriving DecidableEq

abbrev Address := Nat

structure Log where
  address : Address
  topics : List Hash32
  data : List UInt8
  deriving DecidableEq

/-- `StoredReceipt` -/
structure Receipt where
  cumulativeGasUsed : Nat := 0
  logs : List Log
  deriving DecidableEq

abbrev Withdrawal := Nat

abbrev BlockAccessList := List UInt8

/-- What the hash of a header and the roots in a header are hashes of. -/
structure Contents where
  header : Hash32 → Header
  transactions : Hash32 → List Transaction
  receipts : Hash32 → List Receipt
  uncles : Hash32 → List Header
  withdrawals : Hash32 → List Withdrawal
  transactions_nil : ∀ root, transactions root = [] ↔ root = EMPTY_ROOT_HASH
  receipts_nil : ∀ root, receipts root = [] ↔ root = EMPTY_ROOT_HASH
  uncles_empty : uncles EMPTY_UNCLE_HASH = []
  withdrawals_empty : withdrawals EMPTY_ROOT_HASH = []

structure BlockBody where
  transactions : List Transaction
  uncles : List Header
  withdrawals : Option (List Withdrawal)

structure ExecutionPayloadBodyV1 where
  transactions : List Transaction
  withdrawals : Option (List Withdrawal)

structure ExecutionPayloadBodyV2 where
  transactions : List Transaction
  withdrawals : Option (List Withdrawal)
  blockAccessList : Option BlockAccessList

def toPayloadBodyV1 (body : BlockBody) : ExecutionPayloadBodyV1 :=
  ⟨body.transactions, body.withdrawals⟩

def toPayloadBodyV2 (body : BlockBody) (blockAccessList : Option BlockAccessList) :
    ExecutionPayloadBodyV2 :=
  ⟨body.transactions, body.withdrawals, blockAccessList⟩

structure TransactionKey where
  blockNumber : Nat := 0
  index : Nat := 0

/-- The chain with all that the lookups read. -/
structure LookupNode where
  node : ChainNode
  contents : Contents
  /-- the transaction lookups on disk -/
  txKeys : Hash32 → Option TransactionKey
  /-- the block access lists on disk, by block hash -/
  accessLists : Hash32 → Option BlockAccessList

namespace LookupNode

variable (s : LookupNode)

def chain : ForkedChainRef := s.node.chain

def db : BlockDb := s.node.db

/-- The transaction hashes that a block of the tree carries. `init` makes the block that the
node starts on, the first one, without any. -/
def txHashes (b : BlockRef) : List Hash32 :=
  if b = 0 then []
  else (s.contents.transactions (s.chain.blocks b).header.txRoot).map (·.hash)

/-! ## The transaction lookups on disk -/

/-- `for index, hash in b.txHashes` -/
def putTxKeys (blockNumber : Nat) (txHashes : List Hash32)
    (txKeys : Hash32 → Option TransactionKey) : Hash32 → Option TransactionKey :=
  txHashes.zipIdx.foldl
    (fun txKeys (hash, index) => Function.update txKeys hash (some ⟨blockNumber, index⟩)) txKeys

/-- The transaction lookups of `writeCanonicalMappings`. -/
def writeTxKeys (base : BlockRef) : Hash32 → Option TransactionKey :=
  let fresh := (s.chain.ancestors (some base)).takeWhile
    fun b => !s.chain.sameBlock b s.chain.base
  fresh.foldl (fun txKeys b => putTxKeys (s.chain.number b) (s.txHashes b) txKeys) s.txKeys

/-- The transaction lookups after a step: only `updateBase` writes any. -/
def txKeysAfter (e : Event) : Hash32 → Option TransactionKey :=
  match e with
  | .handle i =>
    match s.chain.queue[i]?, s.chain.baseQueue with
    | some .processUpdateBase, base :: _ =>
      if s.chain.number base = s.chain.number s.chain.base then s.txKeys
      else s.writeTxKeys base
    | _, _ => s.txKeys
  | _ => s.txKeys

def step (env : Env) (e : Event) : Except Defect LookupNode := do
  let node ← s.node.step env e
  return { s with node := node, txKeys := s.txKeysAfter e }

def run : LookupNode → List (Env × Event) → Except Defect LookupNode :=
  StepRun.run fun s (env, e) => s.step env e

/-- The node starts as `ForkedChainRef.init` has it, on a store with all its records. -/
def init {com : CommonRef} {db : SavedState com} (saved : SavedBlocks com db)
    (contents : Contents) (txKeys : Hash32 → Option TransactionKey)
    (accessLists : Hash32 → Option BlockAccessList) (baseDistance : Nat)
    (persistBatchSize : { size : Nat // size > 0 }) (dynamicBatchSize : Bool) : LookupNode where
  node := ChainNode.init saved baseDistance persistBatchSize dynamicBatchSize
  contents := contents
  txKeys := txKeys
  accessLists := accessLists

/-! ## Readers of the store -/

variable (number : Nat)

/-- `getBlockHash` -/
def getBlockHash : Option Hash32 := s.chain.canonical number

def getBlockHeader (blockHash : Hash32) : Option Header :=
  if s.db.header blockHash then some (s.contents.header blockHash) else none

/-- `getBlockHeader`, by number. -/
def getBlockHeaderByNumber : Option Header := do
  let blockHash ← s.getBlockHash number
  s.getBlockHeader blockHash

/-- Is the payload there? -/
def hasPayload (key : BodyData) : Bool := (s.db.bodies key).stored

/-- The records under a root, up to the first one that is missing. -/
def getBlockTransactionData (txRoot : Hash32) : List Transaction :=
  if txRoot ≠ EMPTY_ROOT_HASH ∧ s.hasPayload (.indexed txRoot) then
    s.contents.transactions txRoot
  else []

def getTransactions (txRoot : Hash32) : Option (List Transaction) :=
  let res := s.getBlockTransactionData txRoot
  if res.length = 0 ∧ txRoot ≠ EMPTY_ROOT_HASH then none else some res

/-- A root without records has no receipts. -/
def getReceipts (receiptsRoot : Hash32) : List Receipt :=
  if receiptsRoot ≠ EMPTY_ROOT_HASH ∧ s.hasPayload (.indexed receiptsRoot) then
    s.contents.receipts receiptsRoot
  else []

/-- Uncles that are not there are none. -/
def getUncles (ommersHash : Hash32) : List Header :=
  if ommersHash ≠ EMPTY_UNCLE_HASH ∧ s.hasPayload (.ommers ommersHash) then
    s.contents.uncles ommersHash
  else []

/-- Withdrawals that are not there are none. -/
def getWithdrawals (withdrawalsRoot : Hash32) : List Withdrawal :=
  if s.hasPayload (.withdrawals withdrawalsRoot) then s.contents.withdrawals withdrawalsRoot
  else []

def getTransactionByIndex (txRoot : Hash32) (txIndex : Nat) : Option Transaction :=
  if s.hasPayload (.indexed txRoot) then (s.contents.transactions txRoot)[txIndex]? else none

def getReceiptByIndex (receiptsRoot : Hash32) (index : Nat) : Option Receipt :=
  if s.hasPayload (.indexed receiptsRoot) then (s.contents.receipts receiptsRoot)[index]?
  else none

/-- A miss reads back as the zero key. -/
def getTransactionKey (txHash : Hash32) : TransactionKey := (s.txKeys txHash).getD {}

def getBlockBody (header : Header) : Option BlockBody := do
  let transactions ← s.getTransactions header.txRoot
  return {
    transactions := transactions
    uncles := s.getUncles header.ommersHash
    withdrawals := header.withdrawalsRoot.map s.getWithdrawals }

def getEthBlock (hash : Hash32) : Option (Header × BlockBody) := do
  let header ← s.getBlockHeader hash
  let blockBody ← s.getBlockBody header
  return (header, blockBody)

/-- Of `getExecutionPayloadBodyV1`: the withdrawals of an empty root are not looked up. -/
def getExecutionPayloadBodyV1 (header : Header) : Option ExecutionPayloadBodyV1 := do
  let transactions ← s.getTransactions header.txRoot
  return {
    transactions := transactions
    withdrawals := header.withdrawalsRoot.map fun root =>
      if root = EMPTY_ROOT_HASH then [] else s.getWithdrawals root }

def getExecutionPayloadBodyV2 (header : Header) : Option ExecutionPayloadBodyV2 := do
  let body ← s.getExecutionPayloadBodyV1 header
  let blockAccessList :=
    if header.blockAccessListHash.isSome then
      s.accessLists (s.chain.com.computeBlockHash header)
    else none
  return ⟨body.transactions, body.withdrawals, blockAccessList⟩

/-! ## Lookups of `ForkedChainRef` -/

def ancestors (b : BlockRef) : List BlockRef := s.chain.ancestors (some b)

def header (b : BlockRef) : Header := (s.chain.blocks b).header

def latestHeader : Header := s.header s.chain.latest

def headerByNumber : Option Header :=
  if number > s.chain.number s.chain.latest then none
  else if number < s.chain.number s.chain.base then s.getBlockHeaderByNumber number
  else ((s.ancestors s.chain.latest).find? (number == s.chain.number ·)).map s.header

def finalizedHeader : Header :=
  match s.chain.hashToBlock s.chain.latestFinalized.hash with
  | some b => s.header b
  | none => s.header s.chain.base

def safeHeader : Header :=
  match s.chain.hashToBlock s.chain.fcuSafe.hash with
  | some b => s.header b
  | none => s.header s.chain.base

def latestBlock : Option (Header × BlockBody) := s.getEthBlock (s.chain.hash s.chain.latest)

def finalizedBlock : Option (Header × BlockBody) :=
  match s.chain.hashToBlock s.chain.latestFinalized.hash with
  | some b => s.getEthBlock (s.chain.hash b)
  | none => s.getEthBlock (s.chain.hash s.chain.base)

def safeBlock : Option (Header × BlockBody) :=
  match s.chain.hashToBlock s.chain.fcuSafe.hash with
  | some b => s.getEthBlock (s.chain.hash b)
  | none => s.getEthBlock (s.chain.hash s.chain.base)

variable (blockHash : Hash32)

/-- The header of base or of a canonical block below it. -/
def persistedHeaderByHash : Option Header := do
  let header ← s.getBlockHeader blockHash
  if header.number > s.chain.number s.chain.base ∨
      (s.getBlockHash header.number).getD zeroHash32 ≠ blockHash then none
  else return header

def headerByHash : Option Header :=
  match s.chain.hashToBlock blockHash with
  | some b => some (s.header b)
  | none => s.persistedHeaderByHash blockHash

/-- The first block on the way down from `latest` that carries the transaction, and its
index there. -/
def findInMemory (txHash : Hash32) : Option (Hash32 × Nat) :=
  (s.ancestors s.chain.latest).findSome? fun b =>
    ((s.txHashes b).idxOf? txHash).map fun index => (s.chain.hash b, index)

def txDetailsByTxHash (txHash : Hash32) : Option (Hash32 × Nat) :=
  match s.findInMemory txHash with
  | some details => some details
  | none => do
    let txDetails := s.getTransactionKey txHash
    if txDetails.blockNumber = 0 then none
    else
      let header ← s.headerByNumber txDetails.blockNumber
      return (s.chain.com.computeBlockHash header, txDetails.index)

def blockBodyByHash : Option BlockBody :=
  match s.chain.hashToBlock blockHash with
  | some b => s.getBlockBody (s.header b)
  | none => do
    let header ← s.persistedHeaderByHash blockHash
    s.getBlockBody header

def blockByHash : Option (Header × BlockBody) :=
  match s.chain.hashToBlock blockHash with
  | some b => s.getEthBlock (s.chain.hash b)
  | none => do
    let header ← s.persistedHeaderByHash blockHash
    let blockBody ← s.getBlockBody header
    return (header, blockBody)

def payloadBodyV1ByHash : Option ExecutionPayloadBodyV1 :=
  match s.chain.hashToBlock blockHash with
  | some b => (s.getEthBlock (s.chain.hash b)).map fun blk => toPayloadBodyV1 blk.2
  | none => do
    let header ← s.persistedHeaderByHash blockHash
    s.getExecutionPayloadBodyV1 header

def payloadBodyV2ByHash : Option ExecutionPayloadBodyV2 :=
  match s.chain.hashToBlock blockHash with
  | some b => (s.getEthBlock (s.chain.hash b)).map fun blk =>
      toPayloadBodyV2 blk.2 (s.accessLists (s.chain.hash b))
  | none => do
    let header ← s.persistedHeaderByHash blockHash
    s.getExecutionPayloadBodyV2 header

/-- `for it in ancestors(c.latest): if number >= it.number` -/
def firstFromLatest : Option BlockRef :=
  (s.ancestors s.chain.latest).find? (s.chain.number · ≤ number)

def payloadBodyV1ByNumber : Option ExecutionPayloadBodyV1 :=
  if number > s.chain.number s.chain.latest then none
  else if number ≤ s.chain.number s.chain.base then do
    let header ← s.getBlockHeaderByNumber number
    s.getExecutionPayloadBodyV1 header
  else do
    let it ← s.firstFromLatest number
    let blk ← s.getEthBlock (s.chain.hash it)
    return toPayloadBodyV1 blk.2

def payloadBodyV2ByNumber : Option ExecutionPayloadBodyV2 :=
  if number > s.chain.number s.chain.latest then none
  else if number ≤ s.chain.number s.chain.base then do
    let header ← s.getBlockHeaderByNumber number
    s.getExecutionPayloadBodyV2 header
  else do
    let it ← s.firstFromLatest number
    let blk ← s.getEthBlock (s.chain.hash it)
    return toPayloadBodyV2 blk.2 (s.accessLists (s.chain.hash it))

def blockByNumber : Option (Header × BlockBody) :=
  if number > s.chain.number s.chain.latest then none
  else if number ≤ s.chain.number s.chain.base then do
    let header ← s.getBlockHeaderByNumber number
    let blockBody ← s.getBlockBody header
    return (header, blockBody)
  else do
    let it ← s.firstFromLatest number
    s.getEthBlock (s.chain.hash it)

/-- The header whose roots the receipts and transactions of a block are stored under. -/
def payloadHeader : Option Header :=
  if blockHash ≠ s.chain.hash s.chain.base then
    match s.chain.hashToBlock blockHash with
    | some b => s.getBlockHeader (s.chain.hash b)
    | none => s.persistedHeaderByHash blockHash
  else s.persistedHeaderByHash blockHash

def receiptsByBlockHash : Option (List Receipt) := do
  let header ← s.payloadHeader blockHash
  return s.getReceipts header.receiptsRoot

def receiptByBlockHashAndIndex (index : Nat) : Option Receipt := do
  let header ← s.payloadHeader blockHash
  s.getReceiptByIndex header.receiptsRoot index

/-- The header in memory is used where the block is there. -/
def txByBlockHashAndIndex (index : Nat) : Option Transaction := do
  let header ← if blockHash ≠ s.chain.hash s.chain.base then s.headerByHash blockHash
    else s.persistedHeaderByHash blockHash
  s.getTransactionByIndex header.txRoot index

/-- The transaction hashes of a block in memory, if it has any. -/
def memoryTxHashesForBlock : Option (List Hash32) :=
  match s.chain.hashToBlock blockHash with
  | none => none
  | some b => if (s.txHashes b).length = 0 then none else some (s.txHashes b)

/-! ## Block tags -/

inductive BlockTag where
  | latest
  | pending
  | finalized
  | safe
  | earliest
  | unsupported
  | number (number : Nat)
  | hash (hash : Hash32)
  deriving DecidableEq

def headerFromTag : BlockTag → Option Header
  | .latest | .pending => some s.latestHeader
  | .finalized => some s.finalizedHeader
  | .safe => some s.safeHeader
  | .earliest => s.headerByNumber 0
  | .unsupported => none
  | .number number => s.headerByNumber number
  | .hash hash => s.headerByHash hash

def blockFromTag (noHash : Bool) : BlockTag → Option (Header × BlockBody)
  | .latest | .pending => s.latestBlock
  | .finalized => s.finalizedBlock
  | .safe => s.safeBlock
  | .earliest => s.blockByNumber 0
  | .unsupported => none
  | .number number => s.blockByNumber number
  | .hash hash => if noHash then none else s.blockByHash hash

/-! ## Payload bodies by range -/

def maxBodyRequest : Nat := 32

/-- What ends a request without a list. -/
inductive RangeError where
  | invalidParams (msg : String)
  | tooLargeRequest (msg : String)
  /-- `expect("ok")` -/
  | resultDefect

section

variable {β : Type} (byNumber : Nat → Option β)
  (toPayloadBody : BlockRef → BlockBody → Except RangeError β)

def addBodies : List BlockRef → Except RangeError (List (Option β))
  | [] => .ok []
  | y :: blocks =>
    match s.getEthBlock (s.chain.hash y) with
    -- `continue`: the block leaves no entry
    | none => addBodies blocks
    | some blk => do
      let body ← toPayloadBody y blk.2
      let list ← addBodies blocks
      return some body :: list

/-- The blocks that `payloadBodyV1InMemory` and `payloadBodyV2InMemory` add to the list. -/
def blocksInMemory (first last : Nat) : List BlockRef :=
  ((s.ancestors s.chain.latest).filter
    fun it => s.chain.number it ≥ first ∧ s.chain.number it ≤ last).reverse

/-- The numbers have 64 bits. -/
def getPayloadBodiesByRange (start count : Nat) : Except RangeError (List (Option β)) :=
  if start = 0 then .error (.invalidParams "start block should greater than zero")
  else if count = 0 then .error (.invalidParams "blocks count should greater than zero")
  else if count > maxBodyRequest then
    .error (.tooLargeRequest s!"request exceeds max allowed {maxBodyRequest}")
  else if start > s.chain.number s.chain.latest then .ok []
  else
    let last := min ((start + count - 1) % 2 ^ 64) (s.chain.number s.chain.latest)
    let base := s.chain.number s.chain.base
    if start < base then do
      let list := (List.range' start (min last base + 1 - start)).map byNumber
      if last > base then
        let cached ← s.addBodies toPayloadBody (s.blocksInMemory base last)
        return list ++ cached
      else return list
    else s.addBodies toPayloadBody (s.blocksInMemory start last)

end

def getPayloadBodiesByRangeV1 :
    (start count : Nat) → Except RangeError (List (Option ExecutionPayloadBodyV1)) :=
  s.getPayloadBodiesByRange s.payloadBodyV1ByNumber fun _ body => .ok (toPayloadBodyV1 body)

/-- What is on disk as an access list may not decode, which is an error of every reader. -/
def getPayloadBodiesByRangeV2 (decodes : BlockAccessList → Bool) :
    (start count : Nat) → Except RangeError (List (Option ExecutionPayloadBodyV2)) :=
  s.getPayloadBodiesByRange
    (fun number =>
      (s.payloadBodyV2ByNumber number).filter fun body => body.blockAccessList.all decodes)
    fun y body =>
      let bal := s.accessLists (s.chain.hash y)
      if bal.all decodes then .ok (toPayloadBodyV2 body bal) else .error .resultDefect

end LookupNode

end Nimbus.Native.ForkedChain
