import Nimbus.Spec.BlockRuns

/-!
# The size of a packed block

The packer estimates the encoded size of the block before it executes a transaction. The
estimate counts the lengths of the transactions as they are hashed; in the body of a block a
typed transaction is wrapped as a byte string, and its prefix is left out.
-/

namespace Nimbus.Spec.Packer

open Native Native.Executor Native.Packer
open Aristo (Defect Hash32 UInt256)
open Native.Evm (EVMFork IntrinsicGas)
open Native.Evm.EVMFork
open Rlp (encode listLen natLen prefixLen payloadLen byteCount)
open Spec.Executor (BlockState zeroKeccak emptyState)

/-! ### Encodings -/

def bytes {n : Nat} (v : Vector UInt8 n) : Rlp := .str v.toList

/-- The fields of a header, in the order of their encoding. -/
def headerFields (header : Header) : List Rlp :=
  [ bytes header.parentHash, bytes header.ommersHash, bytes header.coinbase,
    bytes header.stateRoot, bytes header.transactionsRoot, bytes header.receiptsRoot,
    bytes header.logsBloom, .nat header.difficulty.toNat, .nat header.number.toNat,
    .nat header.gasLimit.toNat, .nat header.gasUsed.toNat, .nat header.timestamp.toNat,
    .str header.extraData, bytes header.mixHash, bytes header.nonce ]
  ++ header.baseFeePerGas.toList.map (.nat ·.toNat)
  ++ header.withdrawalsRoot.toList.map bytes
  ++ header.blobGasUsed.toList.map (.nat ·.toNat)
  ++ header.excessBlobGas.toList.map (.nat ·.toNat)
  ++ header.parentBeaconBlockRoot.toList.map bytes
  ++ header.requestsHash.toList.map bytes
  ++ header.blockAccessListHash.toList.map bytes
  ++ header.slotNumber.toList.map (.nat ·.toNat)

def withdrawalItem (w : Withdrawal) : Rlp :=
  .list [.nat w.index.toNat, .nat w.validatorIndex.toNat, bytes w.address, .nat w.amount.toNat]

/-- The encoding of a transaction, as it is hashed. -/
def txEncoding (tx : SignedTx) : List UInt8 :=
  if tx.tx.txType = .TxLegacy then encode (.list tx.payload)
  else UInt8.ofNat tx.tx.txType.ctorIdx :: encode (.list tx.payload)

/-- A transaction in the body of a block. -/
def txItem (tx : SignedTx) : Rlp :=
  if tx.tx.txType = .TxLegacy then .list tx.payload else .str (txEncoding tx)

def blockItem (blk : EthBlock) : Rlp :=
  .list ([.list (headerFields blk.header), .list (blk.txs.map txItem),
    .list (blk.uncles.map fun uncle => .list (headerFields uncle))]
    ++ blk.withdrawals.toList.map fun ws => .list (ws.map withdrawalItem))

/-- What `eth/rlp` says about the lengths that it computes. -/
class LawfulEthRlp [EthRlp] : Prop where
  headerLength (header : Header) :
    EthRlp.headerLength header = (encode (.list (headerFields header))).length
  withdrawalsLength (ws : List Withdrawal) :
    EthRlp.withdrawalsLength ws = (encode (.list (ws.map withdrawalItem))).length
  blockLength (blk : EthBlock) : EthRlp.blockLength blk = (encode (blockItem blk)).length
  txLength (tx : SignedTx) : (EthRlp.txLengthAndHash tx).1 = (txEncoding tx).length

/-! ### The lengths of the packer -/

theorem rlpLengthBytes_eq (v : Nat) : rlpLengthBytes v = byteCount v := by
  induction v using rlpLengthBytes.induct with
  | case1 v hv ih =>
    rw [rlpLengthBytes, if_pos hv, ih]
    unfold byteCount
    rw [Nat.digits_def' (by decide) hv, List.length_cons]
  | case2 v hv =>
    rw [rlpLengthBytes, Nat.eq_zero_of_not_pos hv]
    rfl

theorem rlpListPrefixLen_eq (len : Nat) : rlpListPrefixLen len = prefixLen len := by
  unfold rlpListPrefixLen prefixLen
  rw [rlpLengthBytes_eq]

theorem rlpUintLen_eq (v : Nat) : rlpUintLen v = natLen v := by
  unfold rlpUintLen natLen
  rw [rlpLengthBytes_eq]

theorem rlpListPayloadLoop_listLen {p n : Nat} (h : p ≤ n) :
    rlpListPayloadLoop (listLen p) n = p := by
  induction n with
  | zero => exact (Nat.le_zero.mp h).symm
  | succ n ih =>
    unfold rlpListPayloadLoop
    rw [rlpListPrefixLen_eq]
    by_cases hle : n + 1 ≤ p
    · have heq : n + 1 = p := by omega
      rw [← heq]
      exact if_neg (Nat.lt_irrefl _)
    · have hlt : listLen p < listLen (n + 1) := Rlp.listLen_lt (by omega)
      exact (if_pos hlt).trans (ih (by omega))

theorem rlpListPayloadLen_listLen (p : Nat) : rlpListPayloadLen (listLen p) = p := by
  apply rlpListPayloadLoop_listLen
  unfold listLen prefixLen
  split <;> omega

/-! ### The header -/

theorem encode_bytes_length {n : Nat} (v : Vector UInt8 n) (h : n ≠ 1) :
    (encode (bytes v)).length = prefixLen n + n := by
  have hlen : v.toList.length = n := by simp
  unfold bytes
  rw [Rlp.encode_str_length (by rw [hlen]; exact h), hlen]

theorem encode_uint64_length (v : UInt64) : (encode (.nat v.toNat)).length = natLen v.toNat := by
  have hlt := v.toNat_lt
  exact Rlp.encode_nat_length (by omega)

theorem since_le {since base fork : EVMFork} (h : since ≤ base) (hfork : base ≤ fork) :
    since ≤ fork := Nat.le_trans h hfork

/-- Of the header, only the gas used and the blob gas used depend on the transactions. -/
theorem payloadLen_assembleHeader {xp : TxPoolRef} (hfork : FkOsaka ≤ xp.ctx.fork)
    (gas : BlockGas) (res : PackResults) :
    payloadLen (headerFields (assembleHeader xp gas res)) + 2
      = payloadLen (headerFields (prospectiveHeader xp))
        + natLen (headerGasUsed xp.ctx.fork gas).toNat
        + natLen (UInt64.ofNat gas.blobGasUsed).toNat := by
  have hshanghai : FkShanghai ≤ xp.nextFork := since_le (by decide) hfork
  have hcancun : FkCancun ≤ xp.nextFork := since_le (by decide) hfork
  have hprague : FkPrague ≤ xp.nextFork := since_le (by decide) hfork
  have hgas := encode_uint64_length (headerGasUsed xp.ctx.fork gas)
  have hblob := encode_uint64_length (UInt64.ofNat gas.blobGasUsed)
  have hzero : (encode (.nat (0 : UInt64).toNat)).length = 1 := rfl
  by_cases hamsterdam : FkAmsterdam ≤ xp.nextFork
  · simp (disch := decide) only [headerFields, prospectiveHeader, assembleHeader,
      if_pos hshanghai, if_pos hcancun, if_pos hprague, if_pos hamsterdam, Option.toList_some,
      List.map_cons, List.map_nil, Rlp.payloadLen_append, Rlp.payloadLen_cons,
      Rlp.payloadLen_nil, encode_bytes_length, hgas, hblob, hzero]
    omega
  · simp (disch := decide) only [headerFields, prospectiveHeader, assembleHeader,
      if_pos hshanghai, if_pos hcancun, if_pos hprague, if_neg hamsterdam, Option.toList_some,
      Option.toList_none, List.map_cons, List.map_nil, Rlp.payloadLen_append,
      Rlp.payloadLen_cons, Rlp.payloadLen_nil, encode_bytes_length, hgas, hblob, hzero]
    omega

theorem two_le_payloadLen (xp : TxPoolRef) :
    2 ≤ payloadLen (headerFields (prospectiveHeader xp)) := by
  have hfirst : (encode (bytes (prospectiveHeader xp).parentHash)).length = 33 := rfl
  unfold headerFields
  simp only [Rlp.payloadLen_append, Rlp.payloadLen_cons, hfirst]
  omega

/-! ### The transactions -/

/-- What the wrapping of a typed transaction takes. -/
def wrapLen (tx : SignedTx) : Nat :=
  if tx.tx.txType = .TxLegacy then 0 else prefixLen (txEncoding tx).length

theorem encode_ne_nil (items : List Rlp) : 0 < (encode (.list items)).length := by
  rw [Rlp.encode_list_length]
  unfold listLen prefixLen
  split <;> omega

theorem txItem_length (tx : SignedTx) :
    (encode (txItem tx)).length = (txEncoding tx).length + wrapLen tx := by
  unfold txItem wrapLen
  by_cases hlegacy : tx.tx.txType = .TxLegacy
  · rw [if_pos hlegacy, if_pos hlegacy, txEncoding, if_pos hlegacy, Nat.add_zero]
  · have hlen : (txEncoding tx).length ≠ 1 := by
      have hpos := encode_ne_nil tx.payload
      rw [txEncoding, if_neg hlegacy, List.length_cons]
      omega
    rw [if_neg hlegacy, if_neg hlegacy, Rlp.encode_str_length hlen, Nat.add_comm]

theorem wrapLen_eq_zero {tx : SignedTx} : wrapLen tx = 0 ↔ tx.tx.txType = .TxLegacy := by
  unfold wrapLen prefixLen
  constructor
  · intro h
    by_contra hlegacy
    rw [if_neg hlegacy] at h
    split at h <;> omega
  · exact fun h => if_pos h

theorem payloadLen_txs (txs : List SignedTx) :
    payloadLen (txs.map txItem)
      = (txs.map fun tx => (txEncoding tx).length).sum + (txs.map wrapLen).sum := by
  induction txs with
  | nil => rfl
  | cons tx txs ih =>
    simp only [List.map_cons, Rlp.payloadLen_cons, List.sum_cons]
    rw [txItem_length]
    omega

/-! ### The block -/

/-- The length of a block with a header, transactions and withdrawals of the given lengths. -/
def blockLen (headerLen txsLen withdrawalsLen : Nat) : Nat :=
  listLen (listLen headerLen + listLen txsLen + 1 + withdrawalsLen)

theorem blockLen_le {h h' t t' w : Nat} :
    blockLen h t w ≤ blockLen h' t' w ↔ listLen h + listLen t ≤ listLen h' + listLen t' := by
  unfold blockLen
  rw [Rlp.listLen_le]
  omega

section
variable [EthRlp]

omit [EthRlp] in
theorem prospectiveBlockSize_eq (xp : TxPoolRef) (pst : TxPacker) (item : TxItem) :
    prospectiveBlockSize xp pst item
      = blockLen (pst.headerFixedSize + natLen (prospectiveGasUsed xp pst item)
          + natLen (gasAdd pst.vmState.gas.blobGasUsed item.tx.tx.getTotalBlobGas))
        (pst.txsRlpSize + item.rlpSize) pst.withdrawalsRlpSize := by
  unfold prospectiveBlockSize blockLen listLen
  simp only [rlpListPrefixLen_eq, rlpUintLen_eq]
  congr 1
  · congr 1
    omega
  · omega

variable [LawfulEthRlp]

theorem blockLength_blockOf {xp : TxPoolRef} (hfork : FkOsaka ≤ xp.ctx.fork) (gas : BlockGas)
    (txs : List TxItem) (res : PackResults) :
    EthRlp.blockLength (blockOf xp gas txs res)
      = blockLen (payloadLen (headerFields (assembleHeader xp gas res)))
          (payloadLen ((txs.map (·.tx)).map txItem))
          (EthRlp.withdrawalsLength xp.withdrawals) := by
  have hshanghai : FkShanghai ≤ xp.nextFork := since_le (by decide) hfork
  rw [LawfulEthRlp.blockLength, LawfulEthRlp.withdrawalsLength]
  unfold blockItem blockOf blockLen
  simp only [if_pos hshanghai, List.map_nil, Option.toList_some, List.map_cons,
    Rlp.payloadLen_append, Rlp.payloadLen_cons, Rlp.payloadLen_nil, Rlp.encode_list_length]
  congr 1

/-! ### The states of the packer -/

section
variable [Keccak]

/-- The states of the packer: transactions are grabbed one after the other. -/
inductive Reached (xp : TxPoolRef) : TxPacker → Prop where
  | init {vmState : VmState} (hgas : vmState.gas = {}) : Reached xp (vmExecInit xp vmState)
  | grab {pst pst' : TxPacker} {tx : SignedTx} {sender : Address} {intrinsic : IntrinsicGas}
      {run : EvmRun} {next : Bool} (h : Reached xp pst)
      (hgrab : vmExecGrabItem xp pst (TxItem.new tx sender) intrinsic run = .ok (pst', next)) :
      Reached xp pst'

variable {xp : TxPoolRef} {pst pst' : TxPacker} {item : TxItem} {intrinsic : IntrinsicGas}
  {run : EvmRun} {next : Bool}

/-- The state after a transaction that has been accepted. -/
def accept (pst : TxPacker) (item : TxItem) (vmState : VmState) (txFee : UInt256) : TxPacker :=
  { pst with
    vmState := vmState
    packedTxs := pst.packedTxs ++ [item]
    numBlobPerBlock := pst.numBlobPerBlock + item.tx.tx.versionedHashes.length
    blockValue := pst.blockValue + txFee
    txsRlpSize := pst.txsRlpSize + item.rlpSize }

omit [EthRlp] [LawfulEthRlp] in
/-- A transaction is accepted, if the size of the block allows it, or only the state of the VM
may have changed. -/
theorem vmExecGrabItem_cases (hs : BlockState xp.ctx pst.vmState)
    (h : vmExecGrabItem xp pst item intrinsic run = .ok (pst', next)) :
    (∃ vmState, BlockState xp.ctx vmState ∧ pst' = { pst with vmState := vmState }) ∨
      ∃ vmState value,
        processTransaction xp.ctx item.tx.tx item.sender intrinsic run true
          (pst.vmState.setBlockAccessIndex (pst.packedTxs.length + 1)) = .ok (.ok value, vmState)
        ∧ (FkOsaka ≤ xp.ctx.fork → prospectiveBlockSize xp pst item ≤ MAX_RLP_BLOCK_SIZE)
        ∧ pst' = accept pst item vmState value.txFee := by
  have hsame : ∃ vmState, BlockState xp.ctx vmState ∧ pst = { pst with vmState := vmState } :=
    ⟨pst.vmState, hs, rfl⟩
  unfold vmExecGrabItem at h
  dsimp only at h
  split at h
  · cases h
    exact .inl hsame
  split at h
  · cases h
    exact .inl hsame
  split at h
  · cases h
    exact .inl hsame
  split at h
  · cases h
    exact .inl hsame
  · next hsize =>
    have hindex := Executor.setBlockAccessIndex_state (n := pst.packedTxs.length + 1) hs
    obtain ⟨⟨res, vmState⟩, hstep, h⟩ := except_bind_ok.mp h
    cases res with
    | error error =>
      cases h
      exact .inl ⟨vmState, hindex.transaction hstep, rfl⟩
    | ok value =>
      cases h
      refine .inr ⟨vmState, value, hstep, fun hfork => ?_, rfl⟩
      exact Nat.le_of_not_lt fun hlt => hsize ⟨hfork, hlt⟩

/-- What the packer has counted is what it has packed. -/
structure Packed (xp : TxPoolRef) (pst : TxPacker) : Prop where
  block : BlockState xp.ctx pst.vmState
  header : FkOsaka ≤ xp.ctx.fork → pst.headerFixedSize = prospectiveHeaderFixedSize xp
  withdrawals : FkOsaka ≤ xp.ctx.fork →
    pst.withdrawalsRlpSize = EthRlp.withdrawalsLength xp.withdrawals
  txs : pst.txsRlpSize = ((pst.packedTxs.map (·.tx)).map fun tx => (txEncoding tx).length).sum

theorem Reached.packed (h : Reached xp pst) : Packed xp pst := by
  induction h with
  | init hgas =>
    constructor
    · exact .start hgas
    · exact fun hfork => if_pos hfork
    · exact fun hfork => if_pos (since_le (by decide) hfork)
    · rfl
  | grab h hgrab ih =>
    rcases vmExecGrabItem_cases ih.block hgrab with
      ⟨vmState, hblock, rfl⟩ | ⟨vmState, value, hstep, -, rfl⟩
    · exact ⟨hblock, ih.header, ih.withdrawals, ih.txs⟩
    · constructor
      · exact (Executor.setBlockAccessIndex_state ih.block).transaction hstep
      · exact ih.header
      · exact ih.withdrawals
      · unfold accept
        dsimp only
        rw [ih.txs, List.map_append, List.map_append, List.sum_append]
        congr 1
        exact (LawfulEthRlp.txLength _).trans (Nat.add_zero _).symm

/-! ### The estimate -/

/-- The gas that is used if the transaction uses all of its gas limit. -/
def maxGasUsed (xp : TxPoolRef) (pst : TxPacker) (item : TxItem) : Nat :=
  blockGasUsed xp.ctx.fork pst.vmState.gas + item.tx.tx.gasLimit.toNat

/-- The counters of a block in which the transaction comes next. -/
structure FinalGas (xp : TxPoolRef) (pst : TxPacker) (item : TxItem) (gas : BlockGas) : Prop where
  gasUsed : blockGasUsed xp.ctx.fork gas ≤ min (maxGasUsed xp pst item) xp.ctx.gasLimit.toNat
  blobGasUsed :
    gas.blobGasUsed = gasAdd pst.vmState.gas.blobGasUsed item.tx.tx.getTotalBlobGas

/-- No transaction is wrapped, and if the sum of the gas wraps around, what is left of it is as
long as the gas limit of the block. -/
structure Estimable (xp : TxPoolRef) (pst : TxPacker) (item : TxItem) : Prop where
  legacy : ∀ it ∈ pst.packedTxs ++ [item], it.tx.tx.txType = .TxLegacy
  gasUsed : maxGasUsed xp pst item < 2 ^ 64 ∨
    rlpUintLen xp.ctx.gasLimit.toNat ≤ rlpUintLen (maxGasUsed xp pst item - 2 ^ 64)

omit [EthRlp] [LawfulEthRlp] in
theorem natLen_prospectiveGasUsed (h : BlockState xp.ctx pst.vmState) :
    natLen (min (maxGasUsed xp pst item) xp.ctx.gasLimit.toNat)
        ≤ natLen (prospectiveGasUsed xp pst item) ↔
      maxGasUsed xp pst item < 2 ^ 64 ∨
        rlpUintLen xp.ctx.gasLimit.toNat ≤ rlpUintLen (maxGasUsed xp pst item - 2 ^ 64) := by
  have hle := h.gas_le
  have hlimit := xp.ctx.gasLimit.toNat_lt
  have htx := item.tx.tx.gasLimit.toNat_lt
  have hprospective : prospectiveGasUsed xp pst item
      = min (maxGasUsed xp pst item % 2 ^ 64) xp.ctx.gasLimit.toNat := rfl
  rw [hprospective, rlpUintLen_eq, rlpUintLen_eq]
  by_cases hlt : maxGasUsed xp pst item < 2 ^ 64
  · rw [Nat.mod_eq_of_lt hlt]
    exact ⟨fun _ => .inl hlt, fun _ => le_rfl⟩
  · have hmod : maxGasUsed xp pst item % 2 ^ 64 = maxGasUsed xp pst item - 2 ^ 64 := by
      unfold maxGasUsed at hlt ⊢
      omega
    rw [hmod, min_eq_right (by omega)]
    constructor
    · exact fun h => .inr (h.trans (Rlp.natLen_mono (min_le_left _ _)))
    · intro h
      have hlen := h.resolve_left hlt
      rcases min_choice (maxGasUsed xp pst item - 2 ^ 64) xp.ctx.gasLimit.toNat with hmin | hmin
      · rwa [hmin]
      · rw [hmin]

omit [EthRlp] [LawfulEthRlp] [Keccak] in
theorem sum_wrapLen_eq_zero {txs : List TxItem} :
    ((txs.map (·.tx)).map wrapLen).sum = 0 ↔ ∀ it ∈ txs, it.tx.tx.txType = .TxLegacy := by
  rw [List.sum_eq_zero_iff]
  constructor
  · intro h it hit
    exact wrapLen_eq_zero.mp (h _ (List.mem_map_of_mem (List.mem_map_of_mem hit)))
  · intro h n hn
    obtain ⟨tx, htx, rfl⟩ := List.mem_map.mp hn
    obtain ⟨it, hit, rfl⟩ := List.mem_map.mp htx
    exact wrapLen_eq_zero.mpr (h it hit)

omit [Keccak] in
theorem prospectiveHeaderFixedSize_eq (xp : TxPoolRef) :
    prospectiveHeaderFixedSize xp + 2 = payloadLen (headerFields (prospectiveHeader xp)) := by
  have htwo := two_le_payloadLen xp
  have hzero : rlpUintLen 0 = 1 := rfl
  unfold prospectiveHeaderFixedSize
  rw [LawfulEthRlp.headerLength, Rlp.encode_list_length, rlpListPayloadLen_listLen]
  omega

/-- The estimate is an upper bound, if what it leaves out is made up for by the gas. -/
theorem blockLength_le_iff (hfork : FkOsaka ≤ xp.ctx.fork) (h : Packed xp pst) {gas : BlockGas}
    (hgas : FinalGas xp pst item gas) (hitem : item.rlpSize = (txEncoding item.tx).length)
    (res : PackResults) :
    let fixed := pst.headerFixedSize + natLen gas.blobGasUsed
    let txsLen := pst.txsRlpSize + item.rlpSize
    let wrap := (((pst.packedTxs ++ [item]).map (·.tx)).map wrapLen).sum
    EthRlp.blockLength (blockOf xp gas (pst.packedTxs ++ [item]) res)
        ≤ prospectiveBlockSize xp pst item ↔
      listLen (fixed + natLen (blockGasUsed xp.ctx.fork gas)) + listLen (txsLen + wrap)
        ≤ listLen (fixed + natLen (prospectiveGasUsed xp pst item)) + listLen txsLen := by
  intro fixed txsLen wrap
  have hlimit := xp.ctx.gasLimit.toNat_lt
  have hused : blockGasUsed xp.ctx.fork gas < 2 ^ 64 :=
    Nat.lt_of_le_of_lt (hgas.gasUsed.trans (min_le_right _ _)) hlimit
  have hgasUsed : (headerGasUsed xp.ctx.fork gas).toNat = blockGasUsed xp.ctx.fork gas :=
    UInt64.toNat_ofNat_of_lt' hused
  have hblobUsed : (UInt64.ofNat gas.blobGasUsed).toNat = gas.blobGasUsed := by
    rw [hgas.blobGasUsed]
    exact UInt64.toNat_ofNat_of_lt' (Nat.mod_lt _ (by decide))
  have hheader : payloadLen (headerFields (assembleHeader xp gas res))
      = fixed + natLen (blockGasUsed xp.ctx.fork gas) := by
    have hfields := payloadLen_assembleHeader hfork gas res
    have hfixed := prospectiveHeaderFixedSize_eq xp
    rw [hgasUsed, hblobUsed] at hfields
    show _ = pst.headerFixedSize + natLen gas.blobGasUsed + _
    rw [h.header hfork]
    omega
  have htxs : payloadLen (((pst.packedTxs ++ [item]).map (·.tx)).map txItem)
      = txsLen + wrap := by
    rw [payloadLen_txs]
    congr 1
    show _ = pst.txsRlpSize + item.rlpSize
    rw [h.txs, hitem]
    simp
  have hestimate : pst.headerFixedSize + natLen (prospectiveGasUsed xp pst item)
      + natLen gas.blobGasUsed = fixed + natLen (prospectiveGasUsed xp pst item) :=
    Nat.add_right_comm _ _ _
  rw [blockLength_blockOf hfork, prospectiveBlockSize_eq, hheader, htxs, h.withdrawals hfork,
    blockLen_le, ← hgas.blobGasUsed, hestimate]

def zeroResults : PackResults where
  stateRoot := zeroHash
  receiptsRoot := zeroHash
  transactionsRoot := zeroHash
  ommersHash := zeroHash
  logsBloom := Vector.replicate 256 0
  withdrawalsRoot := zeroHash
  requestsHash := zeroHash
  blockAccessListHash := zeroHash

omit [EthRlp] [LawfulEthRlp] [Keccak] in
/-- The transaction may use all of its gas, up to the limit of the block. -/
theorem exists_finalGas (xp : TxPoolRef) (pst : TxPacker) (item : TxItem) :
    ∃ gas, FinalGas xp pst item gas
      ∧ blockGasUsed xp.ctx.fork gas = min (maxGasUsed xp pst item) xp.ctx.gasLimit.toNat := by
  let used := min (maxGasUsed xp pst item) xp.ctx.gasLimit.toNat
  let gas : BlockGas :=
    { cumulativeGasUsed := used
      blockExecutionGasUsed := used
      blobGasUsed := gasAdd pst.vmState.gas.blobGasUsed item.tx.tx.getTotalBlobGas }
  have hused : blockGasUsed xp.ctx.fork gas = used := by
    unfold blockGasUsed
    split
    · exact Nat.max_eq_left (Nat.zero_le _)
    · rfl
  exact ⟨gas, ⟨hused.le, rfl⟩, hused⟩

theorem blockLength_le_prospective_iff (hfork : FkOsaka ≤ xp.ctx.fork) (h : Packed xp pst)
    (hitem : item.rlpSize = (txEncoding item.tx).length) :
    (∀ gas res, FinalGas xp pst item gas →
      EthRlp.blockLength (blockOf xp gas (pst.packedTxs ++ [item]) res)
        ≤ prospectiveBlockSize xp pst item) ↔ Estimable xp pst item := by
  have hgasUsed : natLen (min (maxGasUsed xp pst item) xp.ctx.gasLimit.toNat)
      ≤ natLen (prospectiveGasUsed xp pst item) ↔ _ := natLen_prospectiveGasUsed h.block
  have hle : natLen (prospectiveGasUsed xp pst item)
      ≤ natLen (min (maxGasUsed xp pst item) xp.ctx.gasLimit.toNat) :=
    Rlp.natLen_mono (min_le_min (Nat.mod_le _ _) le_rfl)
  constructor
  · intro hbound
    -- the block that uses as much gas as it may is the longest one
    obtain ⟨gas, hgas, hused⟩ := exists_finalGas xp pst item
    have hlen := (blockLength_le_iff hfork h hgas hitem zeroResults).mp
      (hbound gas zeroResults hgas)
    rw [hused, Rlp.listLen_add_le (Nat.add_le_add_left hle _) (Nat.le_add_right _ _)] at hlen
    constructor
    · exact sum_wrapLen_eq_zero.mp (by omega)
    · exact hgasUsed.mp (by omega)
  · intro hsafe gas res hgas
    have hfinal := (Rlp.natLen_mono hgas.gasUsed).trans (hgasUsed.mpr hsafe.gasUsed)
    apply (blockLength_le_iff hfork h hgas hitem res).mpr
    rw [sum_wrapLen_eq_zero.mpr hsafe.legacy]
    exact Nat.add_le_add_right (Rlp.listLen_le.mpr (Nat.add_le_add_left hfinal _)) _

omit [EthRlp] [LawfulEthRlp] in
theorem accepted_finalGas {vmState : VmState} {value : TxResult} {n : Nat}
    (hs : BlockState xp.ctx pst.vmState)
    (hstep : processTransaction xp.ctx item.tx.tx item.sender intrinsic run true
      (pst.vmState.setBlockAccessIndex n) = .ok (.ok value, vmState)) :
    FinalGas xp pst item vmState.gas := by
  obtain ⟨gasUsed, hfits, hcharge, hgas⟩ :=
    Executor.processTransaction_accepted (Executor.setBlockAccessIndex_state hs) hstep
  have hlimit := Executor.blockGasUsed_count_le hfits hcharge
  rw [← hgas] at hlimit
  have hmax : blockGasUsed xp.ctx.fork vmState.gas ≤ maxGasUsed xp pst item := by
    have htx := hcharge.txGasUsed
    have hexecution := hcharge.blockExecutionGas
    have hstate := hcharge.blockStateGas
    have hadd (a b : Nat) : gasAdd a b ≤ a + b := Nat.mod_le _ _
    have hsum₁ := hadd pst.vmState.gas.cumulativeGasUsed gasUsed.txGasUsed
    have hsum₂ := hadd pst.vmState.gas.blockExecutionGasUsed gasUsed.blockExecutionGasUsed
    have hsum₃ := hadd pst.vmState.gas.blockStateGasUsed gasUsed.blockStateGasUsed
    rw [hgas]
    unfold maxGasUsed blockGasUsed BlockGas.count
    dsimp only [VmState.setBlockAccessIndex]
    split <;> omega
  constructor
  · exact le_min hmax hlimit
  · rw [hgas]
    rfl

/-- The estimate is an upper bound of the size of every block in which the transaction comes next
if and only if no transaction is wrapped in the body and the gas does not wrap around. Then the
block that is put together after the transaction has been accepted is not too large. -/
theorem prospectiveBlockSize_iff (hfork : FkOsaka ≤ xp.ctx.fork) (h : Reached xp pst)
    (tx : SignedTx) (sender : Address) :
    ((∀ gas res, FinalGas xp pst (TxItem.new tx sender) gas →
        EthRlp.blockLength (blockOf xp gas (pst.packedTxs ++ [TxItem.new tx sender]) res)
          ≤ prospectiveBlockSize xp pst (TxItem.new tx sender))
      ↔ Estimable xp pst (TxItem.new tx sender)) ∧
    ∀ {intrinsic run pst' next}, Estimable xp pst (TxItem.new tx sender) →
      vmExecGrabItem xp pst (TxItem.new tx sender) intrinsic run = .ok (pst', next) →
      pst'.packedTxs = pst.packedTxs ++ [TxItem.new tx sender] →
      ∀ res, assembleBlock xp pst' res
        = some (blockOf xp pst'.vmState.gas pst'.packedTxs res) := by
  have hpacked := h.packed
  have hiff := blockLength_le_prospective_iff hfork hpacked
    (show (TxItem.new tx sender).rlpSize = _ from LawfulEthRlp.txLength tx)
  constructor
  · exact hiff
  · intro intrinsic run pst' next hsafe hgrab htxs res
    rcases vmExecGrabItem_cases hpacked.block hgrab with
      ⟨vmState, -, rfl⟩ | ⟨vmState, value, hstep, hsize, rfl⟩
    · have hlen := congrArg List.length htxs
      rw [List.length_append] at hlen
      exact absurd hlen (Nat.ne_of_lt (Nat.lt_succ_self _))
    · have hle := (hiff.mpr hsafe vmState.gas res
        (accepted_finalGas hpacked.block hstep)).trans (hsize hfork)
      exact if_neg fun hlt => Nat.not_lt_of_le hle hlt.2

end

end

/-! ### A typed transaction -/

/-- Lengths that are those of the encodings. -/
@[reducible]
def exactRlp : EthRlp where
  headerLength header := (encode (.list (headerFields header))).length
  withdrawalsLength ws := (encode (.list (ws.map withdrawalItem))).length
  blockLength blk := (encode (blockItem blk)).length
  txLengthAndHash tx := ((txEncoding tx).length, zeroHash)

theorem exactRlp_lawful : @LawfulEthRlp exactRlp :=
  @LawfulEthRlp.mk exactRlp (fun _ => rfl) (fun _ => rfl) (fun _ => rfl) fun _ => rfl

def emptyPool : TxPoolRef where
  ctx :=
    { fork := FkOsaka
      gasLimit := 60000000
      baseFeePerGas := 0
      coinbase := Vector.replicate 20 7 }
  parentHash := zeroHash
  blockNumber := 1
  timestamp := 12
  slotNumber := 1
  excessBlobGas := 0
  feeRecipient := Vector.replicate 20 7
  prevRandao := zeroHash
  parentBeaconBlockRoot := zeroHash
  withdrawals := []
  extraData := []

/-- A call of an account without code, with the fields that `payload` is encoded from. -/
def callOf (txType : TxType) (payload : List Rlp) : SignedTx where
  tx :=
    { txType := txType
      nonce := 0
      gasLimit := 21000
      recipient := some (Vector.replicate 20 1)
      blobs_of_type := fun h => absurd rfl h }
  payload := payload

/-- Chain id, nonce, fees, gas limit, recipient, value, data, access list and signature. -/
def dynamicFeeCall : SignedTx :=
  callOf .TxEip1559
    [.nat 1, .nat 0, .nat 0, .nat 0, .nat 21000, bytes (Vector.replicate 20 1), .nat 0, .str [],
      .list [], .nat 0, .nat 1, .nat 1]

def legacyCall : SignedTx :=
  callOf .TxLegacy
    [.nat 0, .nat 0, .nat 21000, bytes (Vector.replicate 20 1), .nat 0, .str [], .nat 37, .nat 1,
      .nat 1]

def someSender : Address := Vector.replicate 20 2

/-- The run of a call without code. -/
def callRun : EvmRun where
  prog := .success []
  gasProg := .success []
  gasTx := { gasLimit := 21000, currentTarget := Vector.replicate 20 1 }

/-- The first transaction of a block is a legacy one. -/
theorem prospectiveBlockSize_iff_legacy :
    @EthRlp.blockLength exactRlp
        (blockOf emptyPool { cumulativeGasUsed := 21000 }
          [@TxItem.new exactRlp legacyCall someSender] zeroResults)
      ≤ prospectiveBlockSize emptyPool (@vmExecInit exactRlp emptyPool emptyState)
        (@TxItem.new exactRlp legacyCall someSender) :=
  let _ : EthRlp := exactRlp
  let _ : LawfulEthRlp := exactRlp_lawful
  let _ : Keccak := zeroKeccak
  (prospectiveBlockSize_iff (by decide) (.init rfl) legacyCall someSender).1.mpr
    ⟨fun it hit => by rw [List.mem_singleton.mp hit]; rfl, .inl (by decide)⟩
    { cumulativeGasUsed := 21000 } zeroResults ⟨by decide, rfl⟩

/-- The length of the block that is put together after a transaction has been accepted. -/
def acceptedLength (r : Except Defect (TxPacker × Bool)) : Option Nat :=
  match r with
  | .ok (pst, _) =>
    if pst.packedTxs = [] then none
    else
      some (@EthRlp.blockLength exactRlp
        (blockOf emptyPool pst.vmState.gas pst.packedTxs zeroResults))
  | .error _ => none

/-- The estimate is too small if the transaction is a typed one. -/
theorem prospectiveBlockSize_underestimates :
    ¬ ∀ [EthRlp] [LawfulEthRlp] [Keccak] {xp : TxPoolRef} {pst pst' : TxPacker} {tx : SignedTx}
      {sender : Address} {intrinsic : IntrinsicGas} {run : EvmRun} {next : Bool}
      (res : PackResults), FkOsaka ≤ xp.ctx.fork → Reached xp pst →
      vmExecGrabItem xp pst (TxItem.new tx sender) intrinsic run = .ok (pst', next) →
      pst'.packedTxs ≠ pst.packedTxs →
      EthRlp.blockLength (blockOf xp pst'.vmState.gas pst'.packedTxs res)
        ≤ prospectiveBlockSize xp pst (TxItem.new tx sender) := by
  intro hclaim
  let _ : EthRlp := exactRlp
  let _ : LawfulEthRlp := exactRlp_lawful
  let _ : Keccak := zeroKeccak
  let pst := vmExecInit emptyPool emptyState
  let item := TxItem.new dynamicFeeCall someSender
  have hfork : FkOsaka ≤ emptyPool.ctx.fork := by decide
  have hreached : Reached emptyPool pst := .init rfl
  have hlonger : (acceptedLength (vmExecGrabItem emptyPool pst item ⟨21000, 21000⟩ callRun)).any
      (prospectiveBlockSize emptyPool pst item < ·) = true := by decide +kernel
  cases hgrab : vmExecGrabItem emptyPool pst item ⟨21000, 21000⟩ callRun with
  | error error =>
    rw [hgrab] at hlonger
    cases hlonger
  | ok r =>
    rw [hgrab] at hlonger
    unfold acceptedLength at hlonger
    dsimp only at hlonger
    split at hlonger
    · cases hlonger
    · next hpacked =>
      have hle := hclaim zeroResults hfork hreached hgrab hpacked
      rw [Option.any_some] at hlonger
      exact Nat.not_lt_of_le hle (of_decide_eq_true hlonger)

end Nimbus.Spec.Packer
