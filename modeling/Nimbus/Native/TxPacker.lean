import Nimbus.ForStd.Rlp
import Nimbus.Native.ProcessTransaction

/-!
# Packing transactions into a block

Model of `core/tx_pool/tx_packer.nim` and of the part of `core/tx_pool.nim` that puts the block
together, with `TxItemRef.new` of `core/tx_pool/tx_item.nim` and the size `addTxImpl` of
`core/tx_pool/tx_desc.nim` gives it. The lengths of encodings come from the package `eth/rlp`
(`EthRlp`). The thresholds of the forks are taken to be in order: a fork is in force at a time
stamp if the fork of the time stamp is not before it. Lengths do not wrap around.
-/

namespace Nimbus.Native.Packer

open Aristo (Defect Hash32 UInt256)
open Evm (EVMFork IntrinsicGas)
open Evm.EVMFork
open Executor

/-! ### Blocks -/

def zeroHash : Hash32 := Vector.replicate 32 0

/-- A default value of the code stands for a field that `prospectiveHeader` leaves out. -/
structure Header where
  parentHash : Hash32 := zeroHash
  ommersHash : Hash32 := zeroHash
  coinbase : Address := Vector.replicate 20 0
  stateRoot : Hash32 := zeroHash
  transactionsRoot : Hash32 := zeroHash
  receiptsRoot : Hash32 := zeroHash
  logsBloom : Vector UInt8 256 := Vector.replicate 256 0
  difficulty : UInt256 := 0
  number : UInt64
  gasLimit : UInt64
  gasUsed : UInt64
  timestamp : UInt64
  extraData : List UInt8
  mixHash : Hash32 := zeroHash
  nonce : Vector UInt8 8 := Vector.replicate 8 0
  baseFeePerGas : Option UInt256 := none
  withdrawalsRoot : Option Hash32 := none
  blobGasUsed : Option UInt64 := none
  excessBlobGas : Option UInt64 := none
  parentBeaconBlockRoot : Option Hash32 := none
  requestsHash : Option Hash32 := none
  blockAccessListHash : Option Hash32 := none
  slotNumber : Option UInt64 := none

structure Withdrawal where
  index : UInt64
  validatorIndex : UInt64
  address : Address
  amount : UInt64

/-- A transaction, with the fields of its payload as they are encoded. -/
structure SignedTx where
  tx : Transaction
  payload : List Rlp

structure EthBlock where
  header : Header
  txs : List SignedTx
  uncles : List Header := []
  withdrawals : Option (List Withdrawal)

/-- `eth/rlp`: `getEncodedLength` of headers, withdrawals and blocks, and
`getEncodedLengthAndHash` of transactions. -/
class EthRlp where
  headerLength : Header → Nat
  withdrawalsLength : List Withdrawal → Nat
  blockLength : EthBlock → Nat
  txLengthAndHash : SignedTx → Nat × Hash32

structure TxItem where
  tx : SignedTx
  sender : Address
  id : Hash32
  /-- `rlp.getEncodedLength(tx)` -/
  rlpSize : Nat

/-! ### Lengths -/

def rlpLengthBytes (v : Nat) : Nat := if v > 0 then rlpLengthBytes (v / 256) + 1 else 0

def rlpListPrefixLen (payloadLen : Nat) : Nat :=
  if payloadLen ≤ 55 then 1 else 1 + rlpLengthBytes payloadLen

/-- The loop of `rlpListPayloadLen`. -/
def rlpListPayloadLoop (encodedLen : Nat) : Nat → Nat
  | 0 => 0
  | n + 1 =>
    if rlpListPrefixLen (n + 1) + (n + 1) > encodedLen then rlpListPayloadLoop encodedLen n
    else n + 1

/-- Inverse of `rlpListPrefixLen p + p`. -/
def rlpListPayloadLen (encodedLen : Nat) : Nat := rlpListPayloadLoop encodedLen (encodedLen - 1)

def rlpUintLen (v : Nat) : Nat := if v < 128 then 1 else 1 + rlpLengthBytes v

/-! ### The packer -/

def MAX_BLOCK_SIZE : Nat := 10485760
def SAFETY_MARGIN : Nat := 2097152
def MAX_RLP_BLOCK_SIZE : Nat := MAX_BLOCK_SIZE - SAFETY_MARGIN
def TX_BASE_COST : Nat := 21000
def TX_BASE_COST_2780 : Nat := 12000

/-- What the packer reads of the pool and of the block that is built. -/
structure TxPoolRef where
  ctx : BlockContext
  parentHash : Hash32
  blockNumber : UInt64
  timestamp : UInt64
  slotNumber : UInt64
  excessBlobGas : UInt64
  feeRecipient : Address
  prevRandao : Hash32
  parentBeaconBlockRoot : Hash32
  withdrawals : List Withdrawal
  /-- `com.extraData` -/
  extraData : List UInt8
  /-- `com.maxBlobs` -/
  maxBlobs : Option Nat := none

/-- The fork that is in force at the time stamp. -/
def TxPoolRef.nextFork (xp : TxPoolRef) : EVMFork := xp.ctx.fork

def getExtraData (xp : TxPoolRef) : List UInt8 :=
  if xp.extraData.length > 32 then xp.extraData.take 32 else xp.extraData

structure TxPacker where
  vmState : VmState
  numBlobPerBlock : Nat := 0
  txsRlpSize : Nat := 0
  withdrawalsRlpSize : Nat := 0
  headerFixedSize : Nat := 0
  blockValue : UInt256 := 0
  packedTxs : List TxItem := []

/-- Gas counted against the block gas limit so far. -/
def blockGasUsed (fork : EVMFork) (gas : BlockGas) : Nat :=
  if FkAmsterdam ≤ fork then max gas.blockExecutionGasUsed gas.blockStateGasUsed
  else gas.cumulativeGasUsed

def minTxGas (fork : EVMFork) : Nat :=
  if FkAmsterdam ≤ fork then TX_BASE_COST_2780 else TX_BASE_COST

/-- The header whose length `prospectiveHeaderFixedSize` takes. -/
def prospectiveHeader (xp : TxPoolRef) : Header where
  number := xp.blockNumber
  gasLimit := xp.ctx.gasLimit
  gasUsed := 0
  timestamp := xp.timestamp
  extraData := getExtraData xp
  baseFeePerGas := some (u256 xp.ctx.baseFeePerGas.toNat)
  withdrawalsRoot := if FkShanghai ≤ xp.nextFork then some zeroHash else none
  parentBeaconBlockRoot := if FkCancun ≤ xp.nextFork then some zeroHash else none
  blobGasUsed := if FkCancun ≤ xp.nextFork then some 0 else none
  excessBlobGas := if FkCancun ≤ xp.nextFork then some xp.excessBlobGas else none
  requestsHash := if FkPrague ≤ xp.nextFork then some zeroHash else none
  blockAccessListHash := if FkAmsterdam ≤ xp.nextFork then some zeroHash else none
  slotNumber := if FkAmsterdam ≤ xp.nextFork then some xp.slotNumber else none

section
variable [EthRlp]

/-- The item of a transaction that is added to the pool. -/
def TxItem.new (tx : SignedTx) (sender : Address) : TxItem where
  tx := tx
  sender := sender
  id := (EthRlp.txLengthAndHash tx).2
  rlpSize := (EthRlp.txLengthAndHash tx).1

variable (xp : TxPoolRef)

def prospectiveHeaderFixedSize : Nat :=
  rlpListPayloadLen (EthRlp.headerLength (prospectiveHeader xp)) - 2 * rlpUintLen 0

/-- The gas used that `prospectiveBlockSize` puts in the place of the final one. -/
def prospectiveGasUsed (pst : TxPacker) (item : TxItem) : Nat :=
  min (gasAdd (blockGasUsed xp.ctx.fork pst.vmState.gas) item.tx.tx.gasLimit.toNat)
    xp.ctx.gasLimit.toNat

def prospectiveBlockSize (pst : TxPacker) (item : TxItem) : Nat :=
  let gasUsed := prospectiveGasUsed xp pst item
  let blobGasUsed := gasAdd pst.vmState.gas.blobGasUsed item.tx.tx.getTotalBlobGas
  let headerLen := pst.headerFixedSize + rlpUintLen gasUsed + rlpUintLen blobGasUsed
  let txsLen := pst.txsRlpSize + item.rlpSize
  let bodyLen :=
    rlpListPrefixLen headerLen + headerLen
      + rlpListPrefixLen txsLen + txsLen
      + 1
      + pst.withdrawalsRlpSize
  rlpListPrefixLen bodyLen + bodyLen

/-- `vmExecInit`, after its system calls have left `vmState`. -/
def vmExecInit (vmState : VmState) : TxPacker where
  vmState := vmState
  withdrawalsRlpSize :=
    if FkShanghai ≤ xp.nextFork then EthRlp.withdrawalsLength xp.withdrawals else 0
  headerFixedSize := if FkOsaka ≤ xp.nextFork then prospectiveHeaderFixedSize xp else 0

def classifyPackedNext (vmState : VmState) : Bool :=
  blockGasUsed xp.ctx.fork vmState.gas < xp.ctx.gasLimit.toNat

/-- Are there too many blobs in the transaction, or in the block with it? -/
def tooManyBlobs (pst : TxPacker) (tx : Transaction) : Bool :=
  if tx.txType = .TxEip4844 then
    let maxForkBlobsPerBlock := xp.ctx.maxBlobsPerBlock.toNat
    let maxBlobsPerBlock :=
      match xp.maxBlobs with
      | some maxBlobs => min (max maxBlobs 1) maxForkBlobsPerBlock
      | none => maxForkBlobsPerBlock
    (FkOsaka ≤ xp.ctx.fork ∧ tx.versionedHashes.length > MAX_BLOBS_PER_TX)
      ∨ pst.numBlobPerBlock + tx.versionedHashes.length > maxBlobsPerBlock
  else false

def ContinueWithNextAccount : Bool := true
def StopCollecting : Bool := false

variable [Keccak]

/-- The part of `vmExecGrabItem` from the execution on. -/
def execItem (pst : TxPacker) (item : TxItem) (intrinsic : IntrinsicGas)
    (run : EvmRun) : Except Defect (TxPacker × Bool) := do
  let balTracker :=
    pst.vmState.balTracker.map (·.setBlockAccessIndex (pst.packedTxs.length + 1))
  let (rc, vmState) ←
    processTransaction xp.ctx item.tx.tx item.sender intrinsic run true
      { pst.vmState with balTracker := balTracker }
  match rc with
  | .error _ =>
    return ({ pst with vmState := vmState },
      if classifyPackedNext xp vmState then ContinueWithNextAccount else StopCollecting)
  | .ok value =>
    return ({ pst with
      vmState := vmState
      packedTxs := pst.packedTxs ++ [item]
      numBlobPerBlock := pst.numBlobPerBlock + item.tx.tx.versionedHashes.length
      blockValue := pst.blockValue + value.txFee
      txsRlpSize := pst.txsRlpSize + item.rlpSize }, ContinueWithNextAccount)

def vmExecGrabItem (pst : TxPacker) (item : TxItem) (intrinsic : IntrinsicGas)
    (run : EvmRun) : Except Defect (TxPacker × Bool) :=
  let gasLeft := gasSub xp.ctx.gasLimit.toNat (blockGasUsed xp.ctx.fork pst.vmState.gas)
  if gasLeft < minTxGas xp.ctx.fork then
    .ok (pst, StopCollecting)
  else
    match checkBlockGasCapacity xp.ctx pst.vmState.gas item.tx.tx with
    | .error _ => .ok (pst, ContinueWithNextAccount)
    | .ok () =>
      if tooManyBlobs xp pst item.tx.tx then .ok (pst, ContinueWithNextAccount)
      else if FkOsaka ≤ xp.ctx.fork ∧ prospectiveBlockSize xp pst item > MAX_RLP_BLOCK_SIZE then
        .ok (pst, ContinueWithNextAccount)
      else execItem xp pst item intrinsic run

end

/-! ### The block -/

/-- What `vmExecCommit` and the hashes of the block yield. -/
structure PackResults where
  stateRoot : Hash32
  receiptsRoot : Hash32
  transactionsRoot : Hash32
  ommersHash : Hash32
  logsBloom : Vector UInt8 256
  withdrawalsRoot : Hash32
  requestsHash : Hash32
  blockAccessListHash : Hash32

/-- The gas used of the header. -/
def headerGasUsed (fork : EVMFork) (gas : BlockGas) : UInt64 := UInt64.ofNat (blockGasUsed fork gas)

/-- `assembleHeader`, with the root of the transactions that `assembleBlock` adds. -/
def assembleHeader (xp : TxPoolRef) (gas : BlockGas) (res : PackResults) : Header where
  parentHash := xp.parentHash
  ommersHash := res.ommersHash
  coinbase := xp.feeRecipient
  stateRoot := res.stateRoot
  transactionsRoot := res.transactionsRoot
  receiptsRoot := res.receiptsRoot
  logsBloom := res.logsBloom
  number := xp.blockNumber
  gasLimit := xp.ctx.gasLimit
  gasUsed := headerGasUsed xp.ctx.fork gas
  timestamp := xp.timestamp
  extraData := getExtraData xp
  mixHash := xp.prevRandao
  baseFeePerGas := some (u256 xp.ctx.baseFeePerGas.toNat)
  withdrawalsRoot := if FkShanghai ≤ xp.nextFork then some res.withdrawalsRoot else none
  parentBeaconBlockRoot :=
    if FkCancun ≤ xp.nextFork then some xp.parentBeaconBlockRoot else none
  blobGasUsed :=
    if FkCancun ≤ xp.nextFork then some (UInt64.ofNat gas.blobGasUsed) else none
  excessBlobGas := if FkCancun ≤ xp.nextFork then some xp.excessBlobGas else none
  requestsHash := if FkPrague ≤ xp.nextFork then some res.requestsHash else none
  blockAccessListHash :=
    if FkAmsterdam ≤ xp.nextFork then some res.blockAccessListHash else none
  slotNumber := if FkAmsterdam ≤ xp.nextFork then some xp.slotNumber else none

/-- The block of `assembleBlock`, before its size is checked. -/
def blockOf (xp : TxPoolRef) (gas : BlockGas) (txs : List TxItem) (res : PackResults) :
    EthBlock where
  header := assembleHeader xp gas res
  txs := txs.map (·.tx)
  withdrawals := if FkShanghai ≤ xp.nextFork then some xp.withdrawals else none

/-- `assembleBlock`, from the end of the packing on: `none` is the error that the block exceeds
`MAX_RLP_BLOCK_SIZE`. -/
def assembleBlock [EthRlp] (xp : TxPoolRef) (pst : TxPacker) (res : PackResults) :
    Option EthBlock :=
  let blk := blockOf xp pst.vmState.gas pst.packedTxs res
  if FkOsaka ≤ xp.nextFork ∧ EthRlp.blockLength blk > MAX_RLP_BLOCK_SIZE then none else some blk

end Nimbus.Native.Packer
