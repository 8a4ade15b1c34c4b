import Nimbus.Native.ProxyBlocks

/-!
# Logs and receipts of the verified proxy

Model of `nimbus_verified_proxy/engine/receipts.nim`. The backend answers whatever it likes, and
other requests of the proxy may run while it does, so its answers are tasks that change the
world. Headers of numbers and aliases are looked up on the chain that the light client follows;
these lookups are a parameter.
-/

namespace Nimbus.Native.VerifiedProxy

open Nimbus.Native.ForkedChain (Hash32 Header AddressOrList TopicOrList)

structure FilterOptions where
  fromBlock : Option BlockTag := none
  toBlock : Option BlockTag := none
  address : AddressOrList := .slkNull
  topics : List TopicOrList := []
  blockHash : Option Hash32 := none

variable {keccak : Hashes}

/-! ## The engine -/

/-- The header store, and all that the answers of a backend depend on. -/
structure World (keccak : Hashes) (β : Type) where
  headerStore : HeaderStore keccak
  rest : β

/-- A call to the backend that the engine chooses for it. -/
structure ExecutionApiBackend (keccak : Hashes) (β : Type) where
  blocks : BlockQuery → TaskM (World keccak β) Failure BlockAnswer
  eth_getBlockReceipts : BlockTag → TaskM (World keccak β) Failure (Option (List ReceiptObject))
  eth_getLogs : FilterOptions → TaskM (World keccak β) Failure (List LogObject)

structure RpcVerificationEngine (keccak : Hashes) (β : Type) where
  backend : ExecutionApiBackend keccak β
  blocks : BlockConfig keccak
  /-- `getVerified` of an alias, of a number, or of a hash that must be canonical -/
  getCanonicalHeader : BlockTag → AnchorHashes → TaskM (World keccak β) Failure Header

variable {β : Type} (engine : RpcVerificationEngine keccak β)

namespace RpcVerificationEngine

/-- The request over the header store, with the answers of the backend. -/
def onStore {α : Type} (request : EngineM keccak α) : TaskM (World keccak β) Failure α :=
  request.toTask engine.backend.blocks (·.headerStore)
    fun headerStore world => { world with headerStore := headerStore }

/-- `getVerifiedHeader`. Without `requireCanonical` the hash pins the block, so it anchors
itself. -/
def getVerifiedHeader (blockTag : BlockTag) (snapshot : Option AnchorHashes) :
    TaskM (World keccak β) Failure Header := do
  let anchors ← engine.onStore (BlockConfig.anchorsOf snapshot)
  match blockTag with
  | .bidHash hash false => engine.onStore (engine.blocks.getTrustedHeader hash .none)
  | blockTag => engine.getCanonicalHeader blockTag anchors

/-! ## Receipts -/

/-- `getReceipts` of a header. -/
def getReceiptsOf (header : Header) (blockTag : BlockTag) :
    TaskM (World keccak β) Failure (List ReceiptObject) := do
  match ← engine.backend.eth_getBlockReceipts blockTag with
  | some rxs =>
    if keccak.receiptsRoot (toReceipts rxs) ≠ header.receiptsRoot then
      throw (.error .verificationError
        "downloaded receipts do not evaluate to the receipts root of the block")
    else return rxs
  | none => throw (.error .backendFetchError "error downloading the receipts")

/-- `getReceipts` of a tag. All other tags are resolved while getting the header. -/
def getReceipts (blockTag : BlockTag) : TaskM (World keccak β) Failure (List ReceiptObject) := do
  let header ← engine.getVerifiedHeader blockTag none
  engine.getReceiptsOf header (.bidNumber header.number)

/-- `getReceipts` of a block hash. -/
def getReceiptsByHash (blockHash : Hash32) :
    TaskM (World keccak β) Failure (List ReceiptObject) := do
  let header ← engine.getVerifiedHeader (.bidHash blockHash false) none
  engine.getReceiptsOf header (.bidNumber header.number)

/-! ## Logs -/

def isHashTag : BlockTag → Bool
  | .bidHash _ _ => true
  | _ => false

variable (filter : FilterOptions)

/-- Both ends of the range resolve against the same anchors. -/
def resolveFilterTags : TaskM (World keccak β) Failure FilterOptions := do
  if filter.blockHash.isSome then return filter
  else
    let fromBlock := filter.fromBlock.getD (.bidAlias "latest")
    let toBlock := filter.toBlock.getD (.bidAlias "latest")
    if isHashTag fromBlock || isHashTag toBlock then
      throw (.error .invalidDataError "a log filter range cannot be bounded by a block hash")
    else
      let anchors ← engine.onStore BlockConfig.snapshotAnchors
      let fromHeader ← engine.getVerifiedHeader fromBlock (some anchors)
      let toHeader ← engine.getVerifiedHeader toBlock (some anchors)
      return { filter with
        fromBlock := some (.bidNumber fromHeader.number)
        toBlock := some (.bidNumber toHeader.number) }

/-- The receipts of the block that the logs before belong to. -/
structure Prefetched where
  prevBlockHash : Hash32 := Nimbus.Native.ForkedChain.zeroHash32
  rxs : List ReceiptObject := []

/-- "Exploit sequentiality of logs." -/
def prefetch (st : Prefetched) (blockHash : Hash32) : TaskM (World keccak β) Failure Prefetched := do
  if st.prevBlockHash ≠ blockHash then
    let rxs ← engine.getReceiptsByHash blockHash
    return ⟨blockHash, rxs⟩
  else return st

/-- The log of the receipts at the index `logIndex` of the block, which counts from the index
that the receipts give to the first log of the transaction. -/
def receiptLog (rxs : List ReceiptObject) (txIdx logIndex : UInt64) : Option LogObject := do
  let rx ← rxs[txIdx.toNat]?
  let first ← rx.logs[0]?
  let firstIndex ← first.logIndex
  let logIdx := logIndex - firstIndex
  rx.logs[logIdx.toNat]?

/-- The block hash of the log is the one of the filter, or its block number is in the range. -/
def inFilterRange (lg : LogObject) (blockHash : Hash32) : Except Failure Bool :=
  match filter.blockHash with
  | some hash => .ok (blockHash == hash)
  | none =>
    match lg.blockNumber with
    | none => .error (.error .verificationError "a returned log has no block number")
    | some number =>
      match filter.fromBlock, filter.toBlock with
      | some (.bidNumber fromNumber), some (.bidNumber toNumber) =>
        .ok (decide (number ≥ fromNumber) && decide (number ≤ toNumber))
      | _, _ => .error .defect

/-- The tests of a log against the one of the receipts. -/
def checkLog (lg : LogObject) (blockHash : Hash32)
    (rxLog : Option LogObject) : Except Failure Unit := do
  match rxLog with
  | none => .error .defect
  | some rxLog =>
    let inRange ← inFilterRange filter lg blockHash
    if rxLog.address ≠ lg.address ∨ rxLog.data ≠ lg.data ∨ rxLog.topics ≠ lg.topics ∨
        inRange = false ∨ lg.toLog.matches filter.address filter.topics = false then
      .error (.error .verificationError "one of the returned logs is invalid")
    else .ok ()

/-- One turn of the loop of `verifyLogs`. A log without its block hash or its indices is
passed over ("none only for pending logs before block is built"). -/
def verifyLog (st : Prefetched) (lg : LogObject) : TaskM (World keccak β) Failure Prefetched :=
  match lg.blockHash, lg.transactionIndex, lg.logIndex with
  | some blockHash, some transactionIndex, some logIndex => do
    let st ← engine.prefetch st blockHash
    match checkLog filter lg blockHash (receiptLog st.rxs transactionIndex logIndex) with
    | .ok () => return st
    | .error e => throw e
  | _, _, _ => return st

/-- The loop over some logs, with what it holds at the end. -/
def verifyLogs (logObjs : List LogObject) : TaskM (World keccak β) Failure Prefetched :=
  logObjs.foldlM (engine.verifyLog filter) {}

def getLogs : TaskM (World keccak β) Failure (List LogObject) := do
  let resolvedFilter ← engine.resolveFilterTags filter
  let logObjs ← engine.backend.eth_getLogs resolvedFilter
  let _ ← engine.verifyLogs resolvedFilter logObjs
  return logObjs

end RpcVerificationEngine

end Nimbus.Native.VerifiedProxy
