import Nimbus.Native.ChainLookups

/-!
# Log queries and the logs of receipts

Model of `execution_chain/rpc/filters.nim`, of `getLogsForBlock`, `getLogsForRange` and the
requests for logs and receipts of `rpc/server_api.nim`, and of `populateReceipt` of
`rpc/rpc_utils.nim`. The bloom filter is code of a package: what it says of the bytes of an
address or a topic is an argument. A request that raises, or returns nil, is `none`.
-/

namespace Nimbus.Native.ForkedChain

/-! ## Filters -/

inductive SingleOrList (α : Type) where
  | slkNull
  | slkSingle (single : α)
  | slkList (list : List α)

abbrev AddressOrList := SingleOrList Address

abbrev TopicOrList := SingleOrList Hash32

/-- What the bloom filter is asked for: the bytes of an address, or those of a topic. -/
inductive BloomItem where
  | address (address : Address)
  | topic (topic : Hash32)

/-- The bytes of the item may be in the bloom. -/
abbrev BloomFilter := Nat → BloomItem → Bool

structure FilterOptions where
  fromBlock : Option LookupNode.BlockTag := none
  toBlock : Option LookupNode.BlockTag := none
  address : AddressOrList := .slkNull
  topics : List TopicOrList := []
  blockHash : Option Hash32 := none

structure FilterLog where
  removed : Bool
  logIndex : Option Nat
  transactionIndex : Option Nat
  transactionHash : Option Hash32
  blockHash : Option Hash32
  blockNumber : Option Nat
  blockTimestamp : Option Nat
  address : Address
  data : List UInt8
  topics : List Hash32

/-- One turn of the loop of `matchTopics`: an empty list is a wildcard too. -/
def matchTopic (topic : Option Hash32) : TopicOrList → Bool
  | .slkNull => true
  | .slkSingle single => topic == some single
  | .slkList list => list.length == 0 || list.any (topic == some ·)

def matchTopics : List Hash32 → List TopicOrList → Bool
  | _, [] => true
  | topics, sub :: filter => matchTopic topics.head? sub && matchTopics topics.tail filter

/-- The first two tests of `match`. -/
def matchAddress (address : Address) : AddressOrList → Bool
  | .slkNull => true
  | .slkSingle single => single == address
  | .slkList list => list.length == 0 || list.contains address

/-- `match` -/
def Log.matches (log : Log) (addresses : AddressOrList) (topics : List TopicOrList) : Bool :=
  if !matchAddress log.address addresses then false
  else if topics.length > log.topics.length then false
  else matchTopics log.topics topics

def participateInFilter : AddressOrList → Bool
  | .slkNull => false
  | .slkSingle _ => true
  | .slkList list => list.length != 0

def addrIncluded (contains : BloomFilter) (bloom : Nat) : AddressOrList → Bool
  | .slkNull => false
  | .slkSingle single => contains bloom (.address single)
  | .slkList list => list.any fun address => contains bloom (.address address)

def topicIncluded (contains : BloomFilter) (bloom : Nat) : TopicOrList → Bool
  | .slkNull => true
  | .slkSingle single => contains bloom (.topic single)
  | .slkList list => list.length == 0 || list.any fun topic => contains bloom (.topic topic)

def bloomFilter (contains : BloomFilter) (bloom : Nat) (addresses : AddressOrList)
    (topics : List TopicOrList) : Bool :=
  if participateInFilter addresses && !addrIncluded contains bloom addresses then false
  else topics.all (topicIncluded contains bloom)

def headerBloomFilter (contains : BloomFilter) (header : Header) (addresses : AddressOrList)
    (topics : List TopicOrList) : Bool :=
  bloomFilter contains header.logsBloom addresses topics

namespace LookupNode

variable (s : LookupNode) (contains : BloomFilter)

/-! ## Logs -/

/-- The hash of the transaction `i` of a block: from the block in memory, if it has any, or
from the store. -/
def resolveTxHash (blkHash : Hash32) (i : Nat) : Option Hash32 :=
  match (s.memoryTxHashesForBlock blkHash).bind (·[i]?) with
  | some txHash => some txHash
  | none => (s.txByBlockHashAndIndex blkHash i).map (·.hash)

/-- The log object of `getLogsForBlock`. -/
def filterLog (header : Header) (i logIndex : Nat) (txHash : Hash32) (log : Log) : FilterLog where
  removed := false
  logIndex := some logIndex
  transactionIndex := some i
  transactionHash := some txHash
  blockHash := some (s.chain.com.computeBlockHash header)
  blockNumber := some header.number
  blockTimestamp := some header.timestamp
  address := log.address
  data := log.data
  topics := log.topics

/-- The hash that an earlier log of the receipt has asked for is used again. -/
def askTxHash (blkHash : Hash32) (i : Nat) : Option Hash32 → Option Hash32
  | some txHash => some txHash
  | none => s.resolveTxHash blkHash i

/-- `for log in receipt.logs`. Until the first log matches, the hash of the transaction has
not been asked for. -/
def logsOfReceipt (header : Header) (opts : FilterOptions) (i : Nat) :
    Nat → Option Hash32 → List Log → Option (List FilterLog)
  | _, _, [] => some []
  | logIndex, txHash, log :: logs =>
    if log.matches opts.address opts.topics then do
      let txHash ← s.askTxHash (s.chain.com.computeBlockHash header) i txHash
      let resLogs ← logsOfReceipt header opts i (logIndex + 1) (some txHash) logs
      return s.filterLog header i logIndex txHash log :: resLogs
    else logsOfReceipt header opts i (logIndex + 1) txHash logs

/-- `for i, receipt in receipts` -/
def logsOfReceipts (header : Header) (opts : FilterOptions) :
    Nat → Nat → List Receipt → Option (List FilterLog)
  | _, _, [] => some []
  | i, logIndex, receipt :: receipts => do
    let resLogs ← s.logsOfReceipt header opts i logIndex none receipt.logs
    let rest ← logsOfReceipts header opts (i + 1) (logIndex + receipt.logs.length) receipts
    return resLogs ++ rest

def getLogsForBlock (header : Header) (opts : FilterOptions) : Option (List FilterLog) :=
  if !headerBloomFilter contains header opts.address opts.topics then some []
  else do
    let receipts ← s.receiptsByBlockHash (s.chain.com.computeBlockHash header)
    s.logsOfReceipts header opts 0 0 receipts

/-- `while blockNum <= finish`, with `finish + 1 - blockNum` as fuel. -/
def logsFrom (opts : FilterOptions) : Nat → Nat → List FilterLog
  | 0, _ => []
  | fuel + 1, blockNum =>
    match s.headerByNumber blockNum with
    | none => []
    | some header =>
      match s.getLogsForBlock contains header opts with
      | none => []
      | some filtered => filtered ++ logsFrom opts fuel (blockNum + 1)

def getLogsForRange (start finish : Nat) (opts : FilterOptions) : List FilterLog :=
  s.logsFrom contains opts (finish + 1 - start) start

/-- The tag is a number beyond the head. -/
def beyondHead : Option BlockTag → Bool
  | some (.number number) => number > s.latestHeader.number
  | _ => false

def eth_getLogs (filterOptions : FilterOptions) : Option (List FilterLog) :=
  match filterOptions.blockHash with
  | some hash =>
    if filterOptions.fromBlock.isSome || filterOptions.toBlock.isSome then none
    else do
      let header ← s.headerByHash hash
      s.getLogsForBlock contains header filterOptions
  | none =>
    if s.beyondHead filterOptions.fromBlock || s.beyondHead filterOptions.toBlock then none
    else do
      let blockFrom ← s.headerFromTag (filterOptions.fromBlock.getD .latest)
      let blockTo ← s.headerFromTag (filterOptions.toBlock.getD .latest)
      if blockFrom.number > blockTo.number then none
      else return s.getLogsForRange contains blockFrom.number blockTo.number filterOptions

/-! ## Receipts -/

/-- Of a receipt object the fields that say where it comes from, and its logs. -/
structure ReceiptObject where
  transactionHash : Hash32
  transactionIndex : Nat
  blockHash : Hash32
  blockNumber : Nat
  cumulativeGasUsed : Nat
  gasUsed : Nat
  logs : List FilterLog

/-- The index of each log is that of the transaction ("TODO: Not sure what is difference
between logIndex and TxIndex"). -/
def populateReceipt (rec : Receipt) (gasUsed : Nat) (tx : Transaction) (txIndex : Nat)
    (header : Header) : ReceiptObject where
  transactionHash := tx.hash
  transactionIndex := txIndex
  blockHash := s.chain.com.computeBlockHash header
  blockNumber := header.number
  cumulativeGasUsed := rec.cumulativeGasUsed
  gasUsed := gasUsed
  logs := rec.logs.map fun log => s.filterLog header txIndex txIndex tx.hash log

def eth_getTransactionReceipt (txHash : Hash32) : Option ReceiptObject := do
  let (blockHash, txid) ← s.txDetailsByTxHash txHash
  let header ← s.headerByHash blockHash
  let tx ← s.txByBlockHashAndIndex blockHash txid
  let receipt ← s.receiptByBlockHashAndIndex blockHash txid
  let prevGasUsed ← if txid = 0 then some 0
    else (s.receiptByBlockHashAndIndex blockHash (txid - 1)).map (·.cumulativeGasUsed)
  return s.populateReceipt receipt (receipt.cumulativeGasUsed - prevGasUsed) tx txid header

/-- `for receipt in receipts`. A receipt without its transaction ends the process. -/
def populateReceipts (header : Header) (transactions : List Transaction) :
    Nat → Nat → List Receipt → Option (List ReceiptObject)
  | _, _, [] => some []
  | index, prevGasUsed, receipt :: receipts => do
    let tx ← transactions[index]?
    let recs ← populateReceipts header transactions (index + 1) receipt.cumulativeGasUsed receipts
    return s.populateReceipt receipt (receipt.cumulativeGasUsed - prevGasUsed) tx index header ::
      recs

/-- `requireCanonical` is the flag of a hash tag. -/
def eth_getBlockReceipts (quantityTag : BlockTag) (requireCanonical : Bool) :
    Option (List ReceiptObject) :=
  match quantityTag, requireCanonical with
  | .hash _, true => none
  | _, _ => do
    let blk ← s.blockFromTag false quantityTag
    let receipts ← s.receiptsByBlockHash (s.chain.com.computeBlockHash blk.1)
    if blk.2.transactions.length = 0 then return []
    else s.populateReceipts blk.1 blk.2.transactions 0 0 receipts

end LookupNode

end Nimbus.Native.ForkedChain
