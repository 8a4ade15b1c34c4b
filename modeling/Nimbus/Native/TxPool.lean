import Nimbus.ForStd.KeyIndex
import Nimbus.Native.GasCosts
import Nimbus.Native.HeaderChainCache
import Mathlib.Algebra.Group.Int.Defs

/-!
# The transaction pool

Model of `core/tx_pool/{tx_item,tx_tabs,tx_desc}.nim` and of what `tx_pool.nim` and
`tx_packer.nim` do to the tables. The pool keeps a transaction in two tables, by its hash and
by its sender and nonce, and a third one leads from a blob hash to a transaction that carries
the blob.

What a transaction says beyond its fees, its nonce and its blobs is left to the class
`TxRules`, and executing one to the class `TxVm`: no table is changed there. Metrics, logs
and the observer of new transactions are left out.
-/

namespace Nimbus.Native.TxPool

open Aristo (Hash32)
open Evm (EVMFork)
open HeaderChainCache (u64)

/-! ## Transactions -/

inductive TxType where
  | TxLegacy
  | TxEip2930
  | TxEip1559
  | TxEip4844
  | TxEip7702
  deriving DecidableEq

/-- Fees have 64 bits, but for the one of blobs which has 256. Only blob transactions are
decoded with versioned hashes. -/
structure Transaction where
  txType : TxType := .TxLegacy
  nonce : Nat := 0
  gasPrice : Nat := 0
  maxPriorityFeePerGas : Nat := 0
  maxFeePerGas : Nat := 0
  maxFeePerBlobGas : Nat := 0
  versionedHashes : List Hash32 := []
  /-- the chain, the recipient, the payload and the signature -/
  others : List UInt8 := []
  hashes_eip4844 : versionedHashes ≠ [] → txType = .TxEip4844 := by simp
  deriving DecidableEq

inductive WrapperVersion where
  | WrapperVersionEIP4844
  | WrapperVersionEIP7594
  deriving DecidableEq

structure BlobsBundle where
  wrapperVersion : WrapperVersion
  blobs : List (List UInt8)
  commitments : List (List UInt8)
  proofs : List (List UInt8)
  deriving DecidableEq

structure PooledTransaction where
  tx : Transaction
  blobsBundle : Option BlobsBundle := none
  deriving DecidableEq

inductive TxError where
  | txErrorInvalidSignature
  | txErrorItemNotFound
  | txErrorAlreadyKnown
  | txErrorNonceTooSmall
  | txErrorBasicValidation
  | txErrorInvalidBlob
  | txErrorReplacementGasTooLow
  | txErrorReplacementBlobGasTooLow
  | txErrorPoolIsFull
  | txErrorSenderMaxTxs
  | txErrorTxInvalid
  | txErrorChainIdMismatch
  | txErrorOversized
  deriving DecidableEq

abbrev Address := Nimbus.Native.Address

/-- `TxItemRef`. The price is left to `calculatePrice`, since it is computed anew for every
block. -/
structure TxItem where
  ptx : PooledTransaction
  id : Hash32
  /-- in nanoseconds -/
  time : Int
  sender : Address
  deriving DecidableEq

structure TxGasPrice where
  maxFee : Nat
  tip : Nat

/-- `txGasPrice` -/
def txGasPrice (tx : Transaction) : TxGasPrice :=
  match tx.txType with
  | .TxLegacy | .TxEip2930 => { maxFee := tx.gasPrice, tip := tx.gasPrice }
  | _ => { maxFee := tx.maxFeePerGas, tip := tx.maxPriorityFeePerGas }

namespace TxItem

variable (item : TxItem)

def tx : Transaction := item.ptx.tx

def nonce : Nat := item.tx.nonce

def wrapperVersion : Option WrapperVersion := item.ptx.blobsBundle.map (·.wrapperVersion)

/-- `calculatePrice`: the effective tip, where the fee may wrap below the base fee. -/
def price (baseFee : Nat) : Nat :=
  min (txGasPrice item.tx).tip (u64 ((txGasPrice item.tx).maxFee + (2 ^ 64 - u64 baseFee)))

end TxItem

def MIN_GAS_PRICE_BUMP_PERCENT : Nat := 10

/-- `validateTxGasBump` -/
def validateTxGasBump (current added : TxItem) : Except TxError Unit :=
  let currentGasPrice := txGasPrice current.tx
  let newGasPrice := txGasPrice added.tx
  let minTipCap :=
    u64 (currentGasPrice.tip + u64 (currentGasPrice.tip * MIN_GAS_PRICE_BUMP_PERCENT) / 100)
  let minFeeCap :=
    u64 (currentGasPrice.maxFee + u64 (currentGasPrice.maxFee * MIN_GAS_PRICE_BUMP_PERCENT) / 100)
  if newGasPrice.tip < minTipCap ∨ newGasPrice.maxFee < minFeeCap then
    .error .txErrorReplacementGasTooLow
  else if added.tx.txType = .TxEip4844 ∧ current.tx.txType = .TxEip4844 then
    let minblobGasFee := (current.tx.maxFeePerBlobGas +
      current.tx.maxFeePerBlobGas * MIN_GAS_PRICE_BUMP_PERCENT % 2 ^ 256 / 100) % 2 ^ 256
    if added.tx.maxFeePerBlobGas < minblobGasFee then .error .txErrorReplacementBlobGasTooLow
    else .ok ()
  else .ok ()

/-! ## Tables -/

/-- `SenderNonceList`: the transactions of a sender by their nonces. -/
abbrev SenderNonceList := Table Nat TxItem

/-- `sn.list.lt(nonce)`: the entry with the largest key below `nonce`. -/
def SenderNonceList.lt (sn : SenderNonceList) (nonce : Nat) : Option TxItem :=
  ((sn.entries.map (·.1)).filter (· < nonce)).max?.bind sn.lookup

structure BlobLookup where
  item : TxItem
  blobIndex : Nat

structure TxTabs where
  senderTab : Table Address SenderNonceList := ∅
  idTab : Table Hash32 TxItem := ∅
  blobTab : Table Hash32 BlobLookup := ∅

/-- `addLookup` -/
def addLookup (blobTab : Table Hash32 BlobLookup) (item : TxItem) : Table Hash32 BlobLookup :=
  KeyIndex.insertKeys blobTab item.tx.versionedHashes fun i => { item := item, blobIndex := i }

/-- `removeLookup` -/
def removeLookup (blobTab : Table Hash32 BlobLookup) (item : TxItem) : Table Hash32 BlobLookup :=
  KeyIndex.eraseKeys blobTab item.tx.versionedHashes

namespace TxTabs

variable (tabs : TxTabs)

def removeFromSenderTab (item : TxItem) : TxTabs :=
  match tabs.senderTab.lookup item.sender with
  | none => tabs
  | some sn =>
    let sn := sn.erase item.nonce
    if Table.len sn = 0 then { tabs with senderTab := tabs.senderTab.erase item.sender }
    else { tabs with senderTab := tabs.senderTab.insert item.sender sn }

def MAX_TXS_PER_ACCOUNT : Nat := 2048

/-- `insertToSenderTab` -/
def insertToSenderTab (item : TxItem) : Except TxError TxTabs :=
  match tabs.senderTab.lookup item.sender with
  | none =>
    -- first insertion
    let sn : SenderNonceList := AList.insert item.nonce item ∅
    .ok { tabs with senderTab := tabs.senderTab.insert item.sender sn }
  | some sn =>
    let insertOrReplace := tabs.senderTab.insert item.sender (sn.insert item.nonce item)
    match sn.lookup item.nonce with
    | none =>
      if MAX_TXS_PER_ACCOUNT ≤ Table.len sn then .error .txErrorSenderMaxTxs
      else .ok { tabs with senderTab := insertOrReplace }
    | some current =>
      match validateTxGasBump current item with
      | .error e => .error e
      | .ok () =>
        .ok {
          senderTab := insertOrReplace
          idTab := tabs.idTab.erase current.id
          blobTab := removeLookup tabs.blobTab current }

/-- Takes an item of the sender `a` out of the three tables, in the walk by price. -/
def dropItem (a : Address) (item : TxItem) : TxTabs where
  idTab := tabs.idTab.erase item.id
  blobTab := removeLookup tabs.blobTab item
  senderTab := tabs.senderTab.modify a (·.erase item.nonce)

/-- `validBlobItem` -/
def validBlobItem (a : Address) (item : TxItem) (fork : EVMFork) : TxTabs × Bool :=
  match item.wrapperVersion with
  -- without blobs is ok
  | none => (tabs, true)
  | some wrapperVersion =>
    -- no blobs allowed
    if fork < .FkCancun then (tabs, false)
    else
      match wrapperVersion with
      | .WrapperVersionEIP4844 =>
        -- should not exist anymore
        if .FkOsaka ≤ fork then (tabs.dropItem a item, false) else (tabs, true)
      | .WrapperVersionEIP7594 =>
        -- maybe eligible for the next fork
        if fork < .FkOsaka then (tabs, false) else (tabs, true)

/-- `getHeadAndPushTo` for the sender `a`. -/
def getHeadAndPushTo (a : Address) (byPrice : List TxItem) (nonce : Nat) (fork : EVMFork) :
    TxTabs × List TxItem :=
  match (tabs.senderTab.lookup a).bind (·.lookup nonce) with
  | none => (tabs, byPrice)
  | some item =>
    match tabs.validBlobItem a item fork with
    | (tabs, true) => (tabs, item :: byPrice)
    | (tabs, false) => (tabs, byPrice)

/-- Removes the items of `a` with a lower nonce than that of the account, `fuel` of them at
most. -/
def dropStale (a : Address) (nonce : Nat) : Nat → TxTabs → TxTabs
  | 0, tabs => tabs
  | fuel + 1, tabs =>
    match (tabs.senderTab.lookup a).bind (·.lt nonce) with
    | none => tabs
    | some item => dropStale a nonce fuel (tabs.dropItem a item)

/-- The number of items in all lists of senders. -/
def total : Nat := (tabs.senderTab.entries.map fun e => Table.len e.2).sum

end TxTabs

/-- The item with the highest price, and the other ones. -/
def popBest (baseFee : Nat) : List TxItem → Option (TxItem × List TxItem)
  | [] => none
  | item :: items =>
    match popBest baseFee items with
    | none => some (item, [])
    | some (best, rest) =>
      if item.price baseFee < best.price baseFee then some (best, item :: rest)
      else some (item, best :: rest)

/-! ## Parameters -/

/-- What executes transactions. -/
class TxVm where
  /-- the ledger, together with what the packer and the block context keep -/
  Ledger : Type
  getNonce : Ledger → Address → Nat
  /-- the override of the gas limit, and `vmExecInit` -/
  vmExecInit : Option Nat → Ledger → Ledger
  /-- `false` is `StopCollecting` -/
  vmExecGrabItem : Ledger → TxItem → Ledger × Bool
  vmExecCommit : Ledger → Ledger × Bool

/-- The block context on top of a parent block. -/
structure TxEnv [TxVm] where
  ledger : TxVm.Ledger
  baseFee : Nat
  fork : EVMFork
  /-- `getBlobBaseFee` at the excess blob gas of the block -/
  blobBaseFee : Nat

structure VmState [TxVm] extends TxEnv where
  parentHash : Hash32
  timestamp : Nat

/-- `ForkedChainRef`, as the pool sees it. -/
structure Chain [TxVm] where
  latestHash : Hash32
  latestTimestamp : Nat
  /-- `setupVMState` on top of a block, for a block at a timestamp -/
  setupVMState : Hash32 → Nat → TxEnv
  hasHeader : Hash32 → Bool
  txHashInRange : Hash32 → Hash32 → List Hash32

/-- Validations that look at all of a transaction. -/
class TxRules [TxVm] where
  validateChainId : Transaction → Bool
  rlpHash : Transaction → Hash32
  encodedLength : Transaction → Nat
  recoverSender : Transaction → Option Address
  /-- with the intrinsic gas for the sender -/
  validateTxBasic : Transaction → Address → TxEnv → Bool
  kzgToVersionedHash : List UInt8 → Hash32
  /-- the proofs of the blobs, of either wrapper version -/
  verifyKzgProofs : BlobsBundle → Bool

/-! ## The pool -/

inductive TxPoolFlag where
  | XP_ORDERED
  | XP_SKIP_BLOB_WRAPPER_VALIDATION
  | XP_SKIP_SIZE_VALIDATION
  deriving DecidableEq

structure TxPoolRef [TxVm] extends TxTabs where
  vmState : VmState
  chain : Chain
  rmHash : Hash32
  /-- `pos.timestamp` -/
  timestamp : Nat
  flags : List TxPoolFlag := []

def MAX_POOL_SIZE : Nat := 10000

/-- `TX_ITEM_LIFETIME`: ten minutes -/
def TX_ITEM_LIFETIME : Int := 10 * 60 * 10 ^ 9

def TX_MAX_SIZE : Nat := 128 * 1024

def BLOB_TX_MAX_SIZE : Nat := 1024 * 1024 * 2

def CELLS_PER_EXT_BLOB : Nat := 128

def VERSIONED_HASH_VERSION_KZG : UInt8 := 1

section
variable [TxVm] [TxRules]

/-- `validateBlobTransactionWrapper4844` and `validateBlobTransactionWrapper7594`, where
`proofsPerBlob` is what they differ in. -/
def validateBlobTransactionWrapperOf (tx : Transaction) (bundle : BlobsBundle) (proofsPerBlob : Nat) :
    Bool :=
  tx.versionedHashes.length = bundle.commitments.length ∧
    tx.versionedHashes.length = bundle.blobs.length ∧
    bundle.proofs.length = proofsPerBlob * bundle.blobs.length ∧
    TxRules.verifyKzgProofs bundle = true ∧
    (tx.versionedHashes.all fun v => v.get 0 = VERSIONED_HASH_VERSION_KZG) ∧
    tx.versionedHashes = bundle.commitments.map TxRules.kzgToVersionedHash

/-- `validateBlobTransactionWrapper` -/
def validateBlobTransactionWrapper (ptx : PooledTransaction) (fork : EVMFork) : Bool :=
  match ptx.blobsBundle with
  | none => false
  | some bundle =>
    match bundle.wrapperVersion with
    | .WrapperVersionEIP4844 =>
      if .FkOsaka ≤ fork then false else validateBlobTransactionWrapperOf ptx.tx bundle 1
    | .WrapperVersionEIP7594 =>
      if fork < .FkPrague then false
      else validateBlobTransactionWrapperOf ptx.tx bundle CELLS_PER_EXT_BLOB

namespace TxPoolRef

variable (xp : TxPoolRef)

/-- `init`, with default flags. -/
def init (chain : Chain) : TxPoolRef where
  vmState :=
    { chain.setupVMState chain.latestHash chain.latestTimestamp with
      parentHash := chain.latestHash
      timestamp := chain.latestTimestamp }
  chain := chain
  rmHash := chain.latestHash
  timestamp := chain.latestTimestamp

def len : Nat := Table.len xp.idTab

/-- `updateVmState` on top of the given block. -/
def updateVmState (parentHash : Hash32) : TxPoolRef :=
  { xp with
    vmState :=
      { xp.chain.setupVMState parentHash xp.timestamp with
        parentHash := parentHash
        timestamp := xp.timestamp } }

/-- `removeTx` -/
def removeTx (id : Hash32) : TxPoolRef :=
  match xp.idTab.lookup id with
  | none => xp
  | some item =>
    let tabs := if .XP_ORDERED ∈ xp.flags then xp.toTxTabs else xp.removeFromSenderTab item
    { xp with
      senderTab := tabs.senderTab
      idTab := tabs.idTab.erase id
      blobTab := removeLookup tabs.blobTab item }

/-- `for txHash in txHashes: xp.removeTx(txHash)` -/
def removeTxs (txHashes : List Hash32) : TxPoolRef := txHashes.foldl (fun xp id => xp.removeTx id) xp

/-- What `removeExpiredTxs` is about to remove at the time `now`. -/
def expired (lifeTime now : Int) : List Hash32 :=
  (xp.idTab.entries.filter fun e => lifeTime < now - e.2.time).map (·.1)

/-- `removeExpiredTxs` -/
def removeExpiredTxs (lifeTime now : Int) : TxPoolRef := xp.removeTxs (xp.expired lifeTime now)

/-- `classifyValid` -/
def classifyValid (tx : Transaction) : Bool :=
  if tx.txType = .TxEip4844 ∧ tx.maxFeePerBlobGas < xp.vmState.blobBaseFee then false
  else
    match tx.txType with
    | .TxLegacy | .TxEip2930 => true
    | _ => xp.vmState.baseFee ≤ tx.maxFeePerGas ∧ 1 ≤ tx.maxFeePerGas

/-- Re-anchors the validation state when the chain head or the timestamp has moved. -/
def anchor : TxPoolRef :=
  if xp.chain.latestHash ≠ xp.vmState.parentHash then
    let xp := { xp with timestamp := max xp.timestamp xp.chain.latestTimestamp }
    xp.updateVmState xp.chain.latestHash
  else if xp.timestamp ≠ xp.vmState.timestamp then xp.updateVmState xp.chain.latestHash
  else xp

/-- The checks of `addTxImpl` up to the size of the pool: the item to add. -/
def vetTx (ptx : PooledTransaction) (now : Int) : Except TxError TxItem :=
  let size := TxRules.encodedLength ptx.tx
  let id := TxRules.rlpHash ptx.tx
  if ¬ TxRules.validateChainId ptx.tx then .error .txErrorChainIdMismatch
  else if .XP_SKIP_SIZE_VALIDATION ∉ xp.flags ∧
      (if ptx.tx.txType = .TxEip4844 then BLOB_TX_MAX_SIZE else TX_MAX_SIZE) < size then
    .error .txErrorOversized
  else if (xp.idTab.lookup id).isSome then .error .txErrorAlreadyKnown
  else
    match TxRules.recoverSender ptx.tx with
    | none => .error .txErrorInvalidSignature
    | some sender =>
      if ¬ TxRules.validateTxBasic ptx.tx sender xp.vmState.toTxEnv then
        .error .txErrorBasicValidation
      else if ptx.tx.nonce < TxVm.getNonce xp.vmState.ledger sender then
        .error .txErrorNonceTooSmall
      else if ptx.tx.txType = .TxEip4844 ∧ .XP_SKIP_BLOB_WRAPPER_VALIDATION ∉ xp.flags ∧
          ¬ validateBlobTransactionWrapper ptx xp.vmState.fork then
        .error .txErrorInvalidBlob
      else if ¬ xp.classifyValid ptx.tx then .error .txErrorTxInvalid
      else .ok { ptx := ptx, id := id, time := now, sender := sender }

/-- Makes room in a full pool. -/
def purge (now : Int) : TxPoolRef :=
  if MAX_POOL_SIZE ≤ xp.len then xp.removeExpiredTxs TX_ITEM_LIFETIME now else xp

/-- `insertToSenderTab`, `idTab` and `addLookup` -/
def insert (item : TxItem) : TxPoolRef × Except TxError Unit :=
  match if .XP_ORDERED ∈ xp.flags then .ok xp.toTxTabs else xp.insertToSenderTab item with
  | .error e => (xp, .error e)
  | .ok tabs =>
    ({ xp with
      senderTab := tabs.senderTab
      idTab := tabs.idTab.insert item.id item
      blobTab := addLookup tabs.blobTab item }, .ok ())

/-- `addTx` -/
def addTx (ptx : PooledTransaction) (now : Int) : TxPoolRef × Except TxError Unit :=
  let xp := xp.anchor
  match xp.vetTx ptx now with
  | .error e => (xp, .error e)
  | .ok item =>
    let xp := xp.purge now
    if MAX_POOL_SIZE ≤ xp.len then (xp, .error .txErrorPoolIsFull) else xp.insert item

/-! ## Blocks -/

/-- What the pool reads of a new block. -/
structure Block where
  parentHash : Hash32
  hash : Hash32
  transactions : List Transaction

/-- The transactions that `removeNewBlockTxs` removes. -/
def newBlockTxs (blk : Block) (optHash : Option Hash32) : List Hash32 :=
  let fromHash := optHash.getD blk.hash
  if fromHash = xp.rmHash then []
  else if blk.parentHash = xp.rmHash then blk.transactions.map TxRules.rlpHash
  else xp.chain.txHashInRange fromHash xp.rmHash

/-- `removeNewBlockTxs` -/
def removeNewBlockTxs (blk : Block) (optHash : Option Hash32) : TxPoolRef :=
  { xp.removeTxs (xp.newBlockTxs blk optHash) with rmHash := optHash.getD blk.hash }

/-- The head item of each account goes on the heap, with the stale ones removed before. -/
def heads (tabs : TxTabs) (ledger : TxVm.Ledger) (fork : EVMFork) : TxTabs × List TxItem :=
  tabs.senderTab.keys.foldl (fun (tabs, byPrice) a =>
    let nonce := TxVm.getNonce ledger a
    let fuel := Table.len ((tabs.senderTab.lookup a).getD ∅)
    (tabs.dropStale a nonce fuel).getHeadAndPushTo a byPrice nonce fork) (tabs, [])

/-- `for item in xp.byPriceAndNonce`, with at most `fuel` items. -/
def packByPrice (baseFee : Nat) (fork : EVMFork) :
    Nat → TxTabs → TxVm.Ledger → List TxItem → TxTabs × TxVm.Ledger
  | 0, tabs, ledger, _ => (tabs, ledger)
  | fuel + 1, tabs, ledger, byPrice =>
    match popBest baseFee byPrice with
    | none => (tabs, ledger)
    | some (best, byPrice) =>
      match TxVm.vmExecGrabItem ledger best with
      | (ledger, false) => (tabs, ledger)
      | (ledger, true) =>
        let nonce := TxVm.getNonce ledger best.sender
        if best.nonce < nonce then
          match tabs.getHeadAndPushTo best.sender byPrice nonce fork with
          | (tabs, byPrice) => packByPrice baseFee fork fuel tabs ledger byPrice
        else packByPrice baseFee fork fuel tabs ledger byPrice

/-- `for item in xp.byOrder` -/
def packByOrder : List TxItem → TxVm.Ledger → TxVm.Ledger
  | [], ledger => ledger
  | item :: items, ledger =>
    match TxVm.vmExecGrabItem ledger item with
    | (ledger, false) => ledger
    | (ledger, true) => packByOrder items ledger

/-- `packerVmExec` -/
def packerVmExec (gasLimit : Option Nat) : TxPoolRef :=
  let ledger := TxVm.vmExecInit gasLimit xp.vmState.ledger
  let packed : TxTabs × TxVm.Ledger :=
    if .XP_ORDERED ∈ xp.flags then
      (xp.toTxTabs, packByOrder (xp.idTab.entries.map (·.2)) ledger)
    else
      match heads xp.toTxTabs ledger xp.vmState.fork with
      | (tabs, byPrice) =>
        packByPrice xp.vmState.baseFee xp.vmState.fork xp.total tabs ledger byPrice
  { xp with
    toTxTabs := packed.1
    vmState := { xp.vmState with ledger := (TxVm.vmExecCommit packed.2).1 } }

/-- `assembleBlock`, what it does to the pool. -/
def assembleBlock (parentHash : Hash32) (gasLimit : Option Nat) : TxPoolRef :=
  if xp.chain.hasHeader parentHash then (xp.updateVmState parentHash).packerVmExec gasLimit else xp

end TxPoolRef

end

/-! ## Runs -/

inductive Event [TxVm] where
  /-- the chain moves -/
  | chain (chain : Chain)
  /-- the timestamp of the next block is set -/
  | timestamp (timestamp : Nat)
  | addTx (ptx : PooledTransaction) (now : Int)
  | removeTx (id : Hash32)
  | removeExpiredTxs (lifeTime now : Int)
  | removeNewBlockTxs (blk : TxPoolRef.Block) (optHash : Option Hash32)
  | assembleBlock (parentHash : Hash32) (gasLimit : Option Nat)

namespace TxPoolRef

variable [TxVm] [TxRules]

def step (xp : TxPoolRef) : Event → TxPoolRef
  | .chain chain => { xp with chain := chain }
  | .timestamp timestamp => { xp with timestamp := timestamp }
  | .addTx ptx now => (xp.addTx ptx now).1
  | .removeTx id => xp.removeTx id
  | .removeExpiredTxs lifeTime now => xp.removeExpiredTxs lifeTime now
  | .removeNewBlockTxs blk optHash => xp.removeNewBlockTxs blk optHash
  | .assembleBlock parentHash gasLimit => xp.assembleBlock parentHash gasLimit

def run (xp : TxPoolRef) (events : List Event) : TxPoolRef := events.foldl step xp

end TxPoolRef

end Nimbus.Native.TxPool
