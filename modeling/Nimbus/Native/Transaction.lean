import Nimbus.Native.Interpreter
import Nimbus.Native.RunComputation

/-!
# Transactions and their validation

Model of `transaction.nim` (the fees of a transaction), of `validateTxBasic`, `gasCost` and
`validateTransaction` of `core/validate.nim`, of the blob gas of `core/eip4844.nim`, and of
`checkBlockGasCapacity` and `validateForInclusion` of
`core/executor/process_transaction.nim`. A `GasInt` is an unsigned 64-bit integer and wraps
around, and so does a 256-bit product.
-/

namespace Nimbus.Native.Executor

open Aristo (Hash32 UInt256)
open Evm (EVMFork IntrinsicGas TX_MAX_GAS_LIMIT TX_MAX_TOTAL_GAS_LIMIT)
open Evm.EVMFork
open Interpreter (LedgerState)

/-- The conversion of a `GasInt`. -/
def u256 (n : Nat) : UInt256 := BitVec.ofNat 256 n

def gasAdd (a b : Nat) : Nat := (a + b) % 2 ^ 64

def gasSub (a b : Nat) : Nat := if b ≤ a then a - b else a + 2 ^ 64 - b

def GAS_PER_BLOB : Nat := 2 ^ 17
def MAX_CALLDATA_SIZE : Nat := 2 ^ 24
def MAX_ACCESS_LIST_SIZE : Nat := 2 ^ 24
def MAX_ACCESS_LIST_STORAGE_KEYS : Nat := 2 ^ 24
def MAX_BLOBS_PER_TX : Nat := 6
def VERSIONED_HASH_VERSION_KZG : UInt8 := 1

inductive TxType where
  | TxLegacy
  | TxEip2930
  | TxEip1559
  | TxEip4844
  | TxEip7702
  deriving DecidableEq

/-- The type has the fields that came with `since`. -/
def TxType.since (txType since : TxType) : Bool := since.ctorIdx ≤ txType.ctorIdx

/-- An entry of the authorization list. -/
structure Authorization where
  /-- the account that has signed it, if chain id, nonce and signature are valid -/
  authority : Option Address
  address : Address
  nonce : UInt64

structure Transaction where
  txType : TxType
  /-- does the chain id match? -/
  validChainId : Bool := true
  /-- does the signature have the form that the fork asks for? -/
  validSignatureForm : Bool := true
  nonce : UInt64
  gasPrice : UInt64 := 0
  maxPriorityFeePerGas : UInt64 := 0
  maxFeePerGas : UInt64 := 0
  gasLimit : UInt64
  /-- `to`; a transaction without a recipient creates a contract -/
  recipient : Option Address
  value : UInt256 := 0
  payloadLen : Nat := 0
  /-- the numbers of storage keys of the entries of the access list -/
  accessList : List Nat := []
  maxFeePerBlobGas : UInt256 := 0
  versionedHashes : List Hash32 := []
  authorizationList : List Authorization := []
  /-- Only a blob transaction has blobs: the others are encoded without the field. -/
  blobs_of_type : versionedHashes ≠ [] → txType = .TxEip4844 := by simp

/-- What the header of the block says, and what follows from it. -/
structure BlockContext where
  fork : EVMFork
  gasLimit : UInt64
  baseFeePerGas : UInt64
  coinbase : Address
  /-- `getBlobBaseFee` -/
  blobBaseFee : UInt256 := 0
  /-- `getMaxBlobsPerBlock` -/
  maxBlobsPerBlock : UInt64 := 0

inductive TxError where
  | executionGasUsedExceedsLimit
  | stateGasUsedExceedsLimit
  | gasUsedExceedsLimit
  | blobGasUsedExceedsMaximum
  | chainIdMismatch
  | nonceAtMaximum
  | txTypeBeforeFork
  | initcodeSizeExceedsMaximum
  | maxFeeSmallerThanMaxPriorityFee
  | gasLimits
  | payloadTooLong
  | accessListTooLong
  | invalidSignatureForm
  | destinationMustBeNotEmpty
  | noBlobs
  | tooManyBlobs
  | invalidVersionedHash
  | authorizationListMustNotBeEmpty
  | blockHeaderGasLimitExceeded
  | maxFeeSmallerThanBaseFee
  | notEnoughCashForGas
  | notEnoughCashToSend
  | accountNonceMismatch
  | senderIsNotAnEOA
  | maxFeePerBlobGasSmallerThanBlobGasPrice
  | blockGasLimitReached

/-! ### Fees -/

namespace Transaction

variable (tx : Transaction)

def contractCreation : Bool := tx.recipient.isNone

def maxPriorityFeePerGasNorm : Nat :=
  if tx.txType.since .TxEip1559 then tx.maxPriorityFeePerGas.toNat else tx.gasPrice.toNat

def maxFeePerGasNorm : Nat :=
  if tx.txType.since .TxEip1559 then tx.maxFeePerGas.toNat else tx.gasPrice.toNat

def effectiveGasPrice (baseFeePerGas : Nat) : Nat :=
  if tx.txType.since .TxEip1559 then
    gasAdd baseFeePerGas
      (min tx.maxPriorityFeePerGas.toNat (gasSub tx.maxFeePerGas.toNat baseFeePerGas))
  else tx.gasPrice.toNat

def getTotalBlobGas : Nat := GAS_PER_BLOB * tx.versionedHashes.length % 2 ^ 64

def gasCost : UInt256 :=
  if tx.txType.since .TxEip4844 then
    u256 tx.gasLimit.toNat * u256 tx.maxFeePerGas.toNat
      + u256 tx.getTotalBlobGas * tx.maxFeePerBlobGas
  else if tx.txType.since .TxEip1559 then
    u256 tx.gasLimit.toNat * u256 tx.maxFeePerGas.toNat
  else
    u256 tx.gasLimit.toNat * u256 tx.gasPrice.toNat

end Transaction

variable (ctx : BlockContext)

/-- `blobGasFee`. -/
def blobGasFee (tx : Transaction) : UInt256 :=
  u256 tx.getTotalBlobGas * ctx.blobBaseFee

/-! ### Checks -/

/-- A check of a validation: the error is returned if the condition holds. -/
def failIf (p : Prop) [Decidable p] (error : TxError) : Except TxError Unit :=
  if p then .error error else .ok ()

instance (fork : EVMFork) (tx : Evm.Transaction) (intrinsic : IntrinsicGas) :
    Decidable (Evm.validateTxBasic fork tx intrinsic) :=
  decidable_of_iff
    (max intrinsic.execution intrinsic.floorDataGas ≤ tx.gasLimit
      ∧ (FkAmsterdam ≤ fork → max intrinsic.execution intrinsic.floorDataGas ≤ TX_MAX_GAS_LIMIT
        ∧ tx.gasLimit ≤ TX_MAX_TOTAL_GAS_LIMIT)
      ∧ (FkOsaka ≤ fork → fork < FkAmsterdam → tx.gasLimit ≤ TX_MAX_GAS_LIMIT))
    ⟨fun h => ⟨h.1, h.2.1, h.2.2⟩, fun h => ⟨h.minGasLimit, h.amsterdam, h.osaka⟩⟩

/-- The fork that introduces a type of transactions. -/
def TxType.fork : TxType → EVMFork
  | .TxLegacy => FkFrontier
  | .TxEip2930 => FkBerlin
  | .TxEip1559 => FkLondon
  | .TxEip4844 => FkCancun
  | .TxEip7702 => FkPrague

/-- `validateTxBasic`. The checks of the gas limit are those of the gas model, on `gasTx`. -/
def validateTxBasic (tx : Transaction) (gasTx : Evm.Transaction)
    (intrinsic : IntrinsicGas) : Except TxError Unit := do
  let fork := ctx.fork
  failIf (!tx.validChainId) .chainIdMismatch
  failIf (tx.nonce.toNat ≥ 2 ^ 64 - 1) .nonceAtMaximum
  failIf (fork < tx.txType.fork) .txTypeBeforeFork
  failIf (tx.contractCreation ∧ Evm.initcodeTooLong fork tx.payloadLen)
    .initcodeSizeExceedsMaximum
  failIf (tx.maxFeePerGasNorm < tx.maxPriorityFeePerGasNorm) .maxFeeSmallerThanMaxPriorityFee
  failIf (¬ Evm.validateTxBasic fork gasTx intrinsic) .gasLimits
  failIf (FkCancun ≤ fork ∧ tx.payloadLen > MAX_CALLDATA_SIZE) .payloadTooLong
  failIf (FkCancun ≤ fork ∧ (tx.accessList.length > MAX_ACCESS_LIST_SIZE
    ∨ ∃ n ∈ tx.accessList, n > MAX_ACCESS_LIST_STORAGE_KEYS)) .accessListTooLong
  failIf (!tx.validSignatureForm) .invalidSignatureForm
  failIf ((tx.txType = .TxEip4844 ∨ tx.txType = .TxEip7702) ∧ tx.recipient.isNone)
    .destinationMustBeNotEmpty
  failIf (tx.txType = .TxEip4844 ∧ tx.versionedHashes = []) .noBlobs
  failIf (tx.txType = .TxEip4844 ∧ tx.versionedHashes.length >
    (if FkOsaka ≤ fork then MAX_BLOBS_PER_TX else ctx.maxBlobsPerBlock.toNat)) .tooManyBlobs
  failIf (tx.txType = .TxEip4844 ∧
    ∃ bv ∈ tx.versionedHashes, bv.get 0 ≠ VERSIONED_HASH_VERSION_KZG) .invalidVersionedHash
  failIf (tx.txType = .TxEip7702 ∧ tx.authorizationList.length = 0)
    .authorizationListMustNotBeEmpty

/-- Is the code of the sender a delegation, or empty? -/
def isEOA (code : List UInt8) : Bool :=
  code.length == 0 || (code.length == 23 && code.take 3 == [0xef, 0x01, 0x00])

def validateTransaction (ledger : LedgerState) (tx : Transaction)
    (sender : Address) (skipNonceCheck : Bool) : Except TxError Unit := do
  let balance := ledger.getBalance sender
  let nonce := ledger.nonce sender
  failIf (ctx.gasLimit.toNat < tx.gasLimit.toNat) .blockHeaderGasLimitExceeded
  failIf (tx.maxFeePerGasNorm < ctx.baseFeePerGas.toNat) .maxFeeSmallerThanBaseFee
  failIf (balance < tx.gasCost) .notEnoughCashForGas
  failIf (balance - tx.gasCost < tx.value) .notEnoughCashToSend
  failIf (!skipNonceCheck ∧ tx.nonce ≠ nonce) .accountNonceMismatch
  failIf (tx.nonce.toNat = 2 ^ 64 - 1) .nonceAtMaximum
  failIf (!isEOA (ledger.code sender)) .senderIsNotAnEOA
  failIf (tx.txType = .TxEip4844 ∧ tx.maxFeePerBlobGas < ctx.blobBaseFee)
    .maxFeePerBlobGasSmallerThanBlobGasPrice

/-- The counters of the block. -/
structure BlockGas where
  cumulativeGasUsed : Nat := 0
  blockExecutionGasUsed : Nat := 0
  blockStateGasUsed : Nat := 0
  blobGasUsed : Nat := 0

def checkBlockGasCapacity (gas : BlockGas) (tx : Transaction) : Except TxError Unit := do
  let txGasLimit := tx.gasLimit.toNat
  if FkAmsterdam ≤ ctx.fork then
    let executionGasAvailable := gasSub ctx.gasLimit.toNat gas.blockExecutionGasUsed
    let stateGasAvailable := gasSub ctx.gasLimit.toNat gas.blockStateGasUsed
    failIf (min TX_MAX_GAS_LIMIT txGasLimit > executionGasAvailable) .executionGasUsedExceedsLimit
    failIf (txGasLimit > stateGasAvailable) .stateGasUsedExceedsLimit
  else
    let gasAvailable := gasSub ctx.gasLimit.toNat gas.cumulativeGasUsed
    failIf (txGasLimit > gasAvailable) .gasUsedExceedsLimit
  failIf (gasAdd gas.blobGasUsed tx.getTotalBlobGas >
    ctx.maxBlobsPerBlock.toNat * GAS_PER_BLOB % 2 ^ 64) .blobGasUsedExceedsMaximum

def validateForInclusion (gas : BlockGas) (ledger : LedgerState)
    (tx : Transaction) (sender : Address) (gasTx : Evm.Transaction) (intrinsic : IntrinsicGas) :
    Except TxError Unit := do
  checkBlockGasCapacity ctx gas tx
  validateTxBasic ctx tx gasTx intrinsic
  validateTransaction ctx ledger tx sender false

end Nimbus.Native.Executor
