import Nimbus.ForStd.Bytes
import Nimbus.Native.PersistBlocks
import Mathlib.Algebra.Group.Int.Defs

/-!
# History files

Model of `execution_chain/history/e2store_formats/ere.nim`: the writer, the index at the end of a
file, the getters, and the two readers that go over all blocks of an era, and of the index in
`era1.nim`. Records, their framing
and compression, RLP and the hashes are parameters; so are the checks of proofs against the
accumulators of the network. Input and output do not fail.
-/

namespace Nimbus.Native.Ere

open Nimbus.Native.ForkedChain (Hash32 Transaction Receipt)
open Nimbus.Native.PersistBlocks (Header)

abbrev RecordType := UInt8 × UInt8

def E2CompressedHeader : RecordType := (0x03, 0x00)
def E2CompressedBody : RecordType := (0x04, 0x00)
def E2CompressedSlimReceipts : RecordType := (0x0a, 0x00)
def E2TotalDifficulty : RecordType := (0x06, 0x00)
def E2Proof : RecordType := (0x0b, 0x00)
def E2AccumulatorRoot : RecordType := (0x07, 0x00)
def E2DynamicBlockIndex : RecordType := (0x67, 0x32)

def MaxEreSize : Nat := 8192

/-- Absolute positions in the file. -/
abbrev Indexes := List Int

structure DynamicBlockIndex where
  startNumber : Nat
  /-- the indexes of each block -/
  indexesList : List Indexes
  componentCount : Nat
  noReceipts : Bool
  noProofs : Bool

structure EreGroup where
  blockIndex : DynamicBlockIndex

/-- Of the last block, if there is one. -/
def DynamicBlockIndex.endNumber (index : DynamicBlockIndex) : Nat :=
  index.startNumber + index.indexesList.length - 1

structure BlockBody where
  transactions : List Transaction
  uncles : List Header
  withdrawals : Option (List Nimbus.Native.ForkedChain.Withdrawal)

structure Proof where
  proofType : Nat
  proofData : List UInt8

def ProofTypeHistoricalHashesAccumulator : Nat := 0x00
def ProofTypeHistoricalRoots : Nat := 0x01
def ProofTypeHistoricalSummaries : Nat := 0x02
def ProofTypeHistoricalSummariesDeneb : Nat := 0x03
def ProofTypeHistoricalSummariesGloas : Nat := 0x04

abbrev UInt256 := BitVec 256

abbrev Digest := Vector UInt8 32

structure HeaderRecord where
  blockHash : Hash32
  totalDifficulty : UInt256

/-- An error result, or an assertion that fails and ends the process. -/
inductive Failure where
  | error (msg : String)
  | defect

/-! ## The environment -/

structure Codec (α : Type) where
  encode : α → List UInt8
  decode : List UInt8 → Except String α

/-- The records of a file: eight bytes, and the data. -/
structure E2Store where
  version : RecordType
  header : RecordType → Nat → List UInt8
  /-- the record at the start of the bytes -/
  readRecord : List UInt8 → Except String (RecordType × List UInt8)
  readIndexCount : List UInt8 → Except String Nat

structure Formats where
  store : E2Store
  /-- compressed RLP -/
  headers : Codec Header
  bodies : Codec BlockBody
  receipts : Codec (List Receipt)
  proofs : Codec Proof
  computeRlpHash : Header → Hash32
  /-- `computeRlpHash` of a list of uncles -/
  unclesHash : List Header → Hash32
  calcTxRoot : List Transaction → Hash32
  calcReceiptsRoot : List Receipt → Hash32
  /-- of an epoch record -/
  hashTreeRoot : List HeaderRecord → Digest
  /-- the data of a proof of this type is valid SSZ -/
  decodesSsz : Nat → List UInt8 → Bool

/-- What the proofs are checked against. -/
structure HeaderVerifier where
  historicalHashes : Option (Header → List UInt8 → Bool)
  historicalRoots : List UInt8 → Hash32 → Bool
  /-- of each of the types of such proofs -/
  historicalSummaries : Nat → List UInt8 → Hash32 → Bool
  genesisBlockHash : Option Hash32

variable (fmt : Formats)

def liftResult {ω α : Type} : Except String α → EStateM Failure ω α
  | .ok a => return a
  | .error msg => throw (.error msg)

/-! ## Writing -/

/-- A program that writes at the end of a file. -/
abbrev WriteM := EStateM Failure (List UInt8)

def append (bytes : List UInt8) : WriteM Unit := modify fun content => content ++ bytes

/-- The position of the record. -/
def appendHeader (typ : RecordType) (len : Nat) : WriteM Nat := do
  let content ← get
  append (fmt.store.header typ len)
  return content.length

def appendRecord (typ : RecordType) (data : List UInt8) : WriteM Nat := do
  let pos ← appendHeader fmt typ data.length
  append data
  return pos

/-- The offset of a position from the index, as an unsigned word. -/
def toOffset (i : Int) (pos : Nat) : Nat := ((i - pos) % 2 ^ 64).toNat

def appendOffsets (pos : Nat) : List Int → WriteM Unit
  | [] => return ()
  | i :: rest => do
    -- the subtraction is checked
    if i - pos < -2 ^ 63 ∨ 2 ^ 63 ≤ i - pos then throw .defect
    else do
      append (toBytesLE 8 (toOffset i pos))
      appendOffsets pos rest

def appendIndex (index : DynamicBlockIndex) : WriteM Nat := do
  let len := index.indexesList.length * index.componentCount * 8 + 24
  let pos ← appendHeader fmt E2DynamicBlockIndex len
  append (toBytesLE 8 index.startNumber)
  appendOffsets pos index.indexesList.flatten
  append (toBytesLE 8 index.componentCount)
  append (toBytesLE 8 index.indexesList.length)
  return pos

def componentCount (startNumber mergeBlockNumber : Nat) (noReceipts noProofs : Bool) : Nat :=
  -- header and body
  2 + (if noReceipts then 0 else 1) + (if noProofs then 0 else 1) +
    -- up to the era of the merge
    (if startNumber < mergeBlockNumber then 1 else 0)

/-- `EreGroup.init`. The indexes hold what the memory held before. -/
def initGroup (memory : Nat → Nat → Int) (startNumber mergeBlockNumber : Nat)
    (noReceipts noProofs : Bool) : WriteM EreGroup := do
  let _ ← appendHeader fmt fmt.store.version 0
  let count := componentCount startNumber mergeBlockNumber noReceipts noProofs
  return {
    blockIndex := {
      startNumber := startNumber
      indexesList := (List.range MaxEreSize).map fun i => (List.range count).map (memory i)
      componentCount := count
      noReceipts := noReceipts
      noProofs := noProofs } }

def getIndexesPos (index : DynamicBlockIndex) (headerType : RecordType) : Except Failure Nat :=
  let receipts := if index.noReceipts then 0 else 1
  let proofs := if index.noProofs then 0 else 1
  if headerType = E2CompressedHeader then .ok 0
  else if headerType = E2CompressedBody then .ok 1
  else if headerType = E2CompressedSlimReceipts then
    if index.noReceipts then .error (.error "Index doesn't have receipts") else .ok 2
  else if headerType = E2Proof then
    if index.noProofs then .error (.error "Index doesn't have proofs") else .ok (2 + receipts)
  else if headerType = E2TotalDifficulty then
    if 2 + receipts + proofs + 1 = index.componentCount then .ok (2 + receipts + proofs)
    else .error (.error "Index doesn't have total difficulty")
  else
    -- "Invalid header type"
    .error .defect

def liftExcept {ω α : Type} : Except Failure α → EStateM Failure ω α
  | .ok a => return a
  | .error e => throw e

variable (g : EreGroup)

def update (blockNumber : Nat) (data : List UInt8) (headerType : RecordType) : WriteM EreGroup := do
  if blockNumber < g.blockIndex.startNumber then throw .defect
  else do
    let index := blockNumber - g.blockIndex.startNumber
    let column ← liftExcept (getIndexesPos g.blockIndex headerType)
    let pos ← appendRecord fmt headerType data
    match g.blockIndex.indexesList[index]? with
    | none => throw .defect
    | some indexes =>
      if indexes.length ≤ column then throw .defect
      else
        return {
          g with
          blockIndex := {
            g.blockIndex with
            indexesList := g.blockIndex.indexesList.set index (indexes.set column pos) } }

def updateHeader (blockNumber : Nat) (header : Header) : WriteM EreGroup :=
  update fmt g blockNumber (fmt.headers.encode header) E2CompressedHeader

def updateBody (blockNumber : Nat) (body : BlockBody) : WriteM EreGroup :=
  update fmt g blockNumber (fmt.bodies.encode body) E2CompressedBody

def updateReceipts (blockNumber : Nat) (receipts : List Receipt) : WriteM EreGroup :=
  update fmt g blockNumber (fmt.receipts.encode receipts) E2CompressedSlimReceipts

def updateProof (blockNumber : Nat) (proof : Proof) : WriteM EreGroup :=
  update fmt g blockNumber (fmt.proofs.encode proof) E2Proof

def updateTotalDifficulty (blockNumber : Nat) (totalDifficulty : UInt256) : WriteM EreGroup :=
  update fmt g blockNumber (toBytesLE 32 totalDifficulty.toNat) E2TotalDifficulty

def appendAccumulatorRoot (accumulatorRoot : Option Digest) : WriteM Unit :=
  match accumulatorRoot with
  | none => return ()
  | some root => do
    let _ ← appendRecord fmt E2AccumulatorRoot root.toList
    return ()

def finish (accumulatorRoot : Option Digest) (lastBlockNumber : Nat) : WriteM Unit := do
  appendAccumulatorRoot fmt accumulatorRoot
  if 0 < lastBlockNumber then do
    let _ ← appendIndex fmt g.blockIndex
    return ()
  else return ()

/-! ## Reading -/

structure IoHandle where
  content : List UInt8
  pos : Nat

abbrev ReadM := EStateM Failure IoHandle

inductive SeekPosition where
  | seekBegin
  | seekCurrent
  | seekEnd

def setFilePos (offset : Int) (mode : SeekPosition) : ReadM Unit := do
  let f ← get
  let origin :=
    match mode with
    | .seekBegin => 0
    | .seekCurrent => f.pos
    | .seekEnd => f.content.length
  if offset + origin < 0 then throw (.error "setFilePos")
  else set { f with pos := (offset + origin).toNat }

def readRecord : ReadM (RecordType × List UInt8) := do
  let f ← get
  let record ← liftResult (fmt.store.readRecord (f.content.drop f.pos))
  set { f with pos := f.pos + 8 + record.2.length }
  return record

def readIndexCount : ReadM Nat := do
  let f ← get
  let count ← liftResult (fmt.store.readIndexCount (f.content.drop f.pos))
  set { f with pos := f.pos + 8 }
  return count

/-- The distance from the end of the file back to the index. -/
def findDynamicBlockIndexStartOffset : ReadM Int := do
  setFilePos (-16) .seekCurrent
  let componentCount ← readIndexCount fmt
  let count ← readIndexCount fmt
  -- the arithmetic is checked
  if 2 ^ 63 ≤ count * 8 ∨ 2 ^ 63 ≤ count * 8 * componentCount + 32 then throw .defect
  else return -(count * 8 * componentCount + 32)

/-- The eight bytes at a position. -/
def readUInt64 (buf : List UInt8) (pos : Nat) : Except Failure Nat :=
  if buf.length < pos + 8 then .error .defect
  else .ok (fromBytesLE ((buf.drop pos).take 8))

def toInt64 (x : Nat) : Int := if x < 2 ^ 63 then x else x - 2 ^ 64

/-- "Wrapping math is actually convenient here" -/
def fromOffset (startPos offset : Nat) : Int :=
  if offset = 0 then 0 else toInt64 ((startPos + offset) % 2 ^ 64)

/-- The indexes of a block. -/
def readIndexes (buf : List UInt8) (startPos fileSize : Nat) : Nat → Nat → Except Failure Indexes
  | 0, _ => .ok []
  | count + 1, pos => do
    let offset ← readUInt64 buf pos
    let absolute := fromOffset startPos offset
    if absolute < 0 ∨ fileSize < absolute then .error (.error "invalid offset")
    else do
      let rest ← readIndexes buf startPos fileSize count (pos + 8)
      return absolute :: rest

def readIndexesList (buf : List UInt8) (startPos fileSize componentCount : Nat) :
    Nat → Nat → Except Failure (List Indexes)
  | 0, _ => .ok []
  | count + 1, pos => do
    let indexes ← readIndexes buf startPos fileSize componentCount pos
    let rest ← readIndexesList buf startPos fileSize componentCount count (pos + 8 * componentCount)
    return indexes :: rest

/-- An index record, from its data. -/
def decodeDynamicBlockIndex (buf : List UInt8) (startPos fileSize mergeBlockNumber : Nat)
    (noProofs noReceipts : Bool) : Except Failure DynamicBlockIndex :=
  if buf.length < 16 then .error (.error "index entry too small")
  else if buf.length % 8 ≠ 0 then .error (.error "index length invalid")
  else do
    let blockNumber ← readUInt64 buf 0
    let count₀ ← readUInt64 buf (buf.length - 16)
    -- the conversion to an integer, and the division
    if 2 ^ 63 ≤ count₀ ∨ count₀ = 0 then .error .defect
    else if count₀ ≠ componentCount blockNumber mergeBlockNumber noReceipts noProofs then
      .error (.error ("component-count mismatch: expected " ++
        toString (componentCount blockNumber mergeBlockNumber noReceipts noProofs) ++
        ", got " ++ toString count₀))
    else if 2 ^ 31 - 1 < blockNumber then .error (.error "fishy block number")
    else do
      let count := (buf.length - 24) / 8 / count₀
      let indexesList ← readIndexesList buf startPos fileSize count₀ count 8
      let stored ← readUInt64 buf (8 + 8 * count₀ * count + 8)
      if count ≠ stored then .error (.error "invalid count")
      else
        return {
          startNumber := blockNumber
          indexesList := indexesList
          componentCount := count₀
          noReceipts := noReceipts
          noProofs := noProofs }

def readDynamicBlockIndex (mergeBlockNumber : Nat) (noProofs noReceipts : Bool) :
    ReadM DynamicBlockIndex := do
  let f ← get
  let record ← readRecord fmt
  if record.1 ≠ E2DynamicBlockIndex then throw (.error "not an index")
  else
    liftExcept (decodeDynamicBlockIndex record.2 f.pos f.content.length mergeBlockNumber noProofs
      noReceipts)

structure EreFile where
  blockIdx : DynamicBlockIndex
  mergeBlockNumber : Nat

/-- `EreFile.open`: only files of a single era. -/
def openEreFile (mergeBlockNumber : Nat) (noProofs noReceipts : Bool) : ReadM EreFile := do
  setFilePos 0 .seekEnd
  let blockIdxPos ← findDynamicBlockIndexStartOffset fmt
  setFilePos blockIdxPos .seekCurrent
  let blockIdx ← readDynamicBlockIndex fmt mergeBlockNumber noProofs noReceipts
  if blockIdx.indexesList.length ≠ MaxEreSize then
    throw (.error ("Block indexes list length invalid: " ++
      toString blockIdx.indexesList.length ++ " vs expected " ++ toString MaxEreSize))
  else return ⟨blockIdx, mergeBlockNumber⟩

/-- The next record, which is of this type. -/
def getNext {α : Type} (typ : RecordType) (what : String)
    (decode : List UInt8 → Except String α) : ReadM α := do
  let record ← readRecord fmt
  if record.1 ≠ typ then
    throw (.error ("Invalid era file: didn't find " ++ what ++ " at index position"))
  else liftResult (decode record.2)

def getNextBlockHeader : ReadM Header :=
  getNext fmt E2CompressedHeader "block header" fmt.headers.decode

def getNextBlockBody : ReadM BlockBody :=
  getNext fmt E2CompressedBody "block body" fmt.bodies.decode

def getNextReceipts : ReadM (List Receipt) :=
  getNext fmt E2CompressedSlimReceipts "receipts" fmt.receipts.decode

def getNextProof : ReadM Proof := getNext fmt E2Proof "proof" fmt.proofs.decode

def decodeTotalDifficulty (bytes : List UInt8) : Except String UInt256 :=
  if bytes.length ≠ 32 then .error "Invalid total difficulty length"
  else .ok (BitVec.ofNat 256 (fromBytesLE bytes))

def getNextTotalDifficulty : ReadM UInt256 :=
  getNext fmt E2TotalDifficulty "total difficulty" decodeTotalDifficulty

/-- The component of a block, at the position that the index has for it. -/
def getAt {α : Type} (f : EreFile) (blockNumber : Nat) (typ : RecordType) (next : ReadM α) :
    ReadM α := do
  if blockNumber < f.blockIdx.startNumber ∨ f.blockIdx.endNumber < blockNumber then throw .defect
  else do
    let column ← liftExcept (getIndexesPos f.blockIdx typ)
    match (f.blockIdx.indexesList[blockNumber - f.blockIdx.startNumber]?).bind (·[column]?) with
    | none => throw .defect
    | some pos => do
      setFilePos pos .seekBegin
      next

variable (f : EreFile) (blockNumber : Nat)

def getBlockHeader : ReadM Header :=
  getAt f blockNumber E2CompressedHeader (getNextBlockHeader fmt)

def getBlockBody : ReadM BlockBody :=
  getAt f blockNumber E2CompressedBody (getNextBlockBody fmt)

def getReceipts : ReadM (List Receipt) :=
  getAt f blockNumber E2CompressedSlimReceipts (getNextReceipts fmt)

def getProof : ReadM Proof :=
  getAt f blockNumber E2Proof (getNextProof fmt)

def getTotalDifficulty : ReadM UInt256 :=
  getAt f blockNumber E2TotalDifficulty (getNextTotalDifficulty fmt)

structure EthBlock where
  header : Header
  transactions : List Transaction
  uncles : List Header
  withdrawals : Option (List Nimbus.Native.ForkedChain.Withdrawal)

def getEthBlock : ReadM EthBlock := do
  let header ← getBlockHeader fmt f blockNumber
  let body ← getBlockBody fmt f blockNumber
  return ⟨header, body.transactions, body.uncles, body.withdrawals⟩

/-! ## The readers of an era -/

/-- The record of the root is right before the index. -/
def getAccumulatorRoot : ReadM Digest := do
  setFilePos 0 .seekEnd
  let blockIdxPos ← findDynamicBlockIndexStartOffset fmt
  setFilePos (blockIdxPos - 40) .seekCurrent
  let record ← readRecord fmt
  if record.1 ≠ E2AccumulatorRoot then
    throw (.error "Didn't find accumulator root at index position")
  else if h : record.2.length = 32 then
    return ⟨record.2.toArray, by simp [h]⟩
  else throw (.error "invalid accumulator root")

/-- The numbers of the blocks of the file. -/
def EreFile.blockNumbers : List Nat :=
  List.range' f.blockIdx.startNumber (f.blockIdx.endNumber + 1 - f.blockIdx.startNumber)

def headerRecordOf : ReadM HeaderRecord := do
  let header ← getBlockHeader fmt f blockNumber
  let totalDifficulty ← getTotalDifficulty fmt f blockNumber
  return ⟨fmt.computeRlpHash header, totalDifficulty⟩

/-- The epoch record. -/
def buildAccumulator : ReadM (List HeaderRecord) :=
  f.blockNumbers.mapM (headerRecordOf fmt f)

/-- A proof whose data is no valid SSZ, or that does not fit the header, is refused. -/
def checkProof (name : String) (decodes verified : Bool) : Except String Unit :=
  -- the text is not interpolated
  if !decodes then .error ("Invalid " ++ name ++ ": $error")
  else if !verified then .error ("Invalid " ++ name ++ ": verification failed")
  else .ok ()

variable (v : HeaderVerifier)

def verifyProof (proof : Proof) (header : Header) : Except String Unit :=
  let decodes := fmt.decodesSsz proof.proofType proof.proofData
  let blockHash := fmt.computeRlpHash header
  let summary := v.historicalSummaries proof.proofType proof.proofData blockHash
  if proof.proofType = ProofTypeHistoricalHashesAccumulator then
    match decodes, v.historicalHashes with
    | true, none =>
      .error "Invalid HistoricalHashesAccumulatorProof: no accumulator for this network"
    | _, historicalHashes =>
      checkProof "HistoricalHashesAccumulatorProof" decodes
        (historicalHashes.any fun verify => verify header proof.proofData)
  else if proof.proofType = ProofTypeHistoricalRoots then
    checkProof "BlockProofHistoricalRoots" decodes (v.historicalRoots proof.proofData blockHash)
  else if proof.proofType = ProofTypeHistoricalSummaries then
    checkProof "BlockProofHistoricalSummaries" decodes summary
  else if proof.proofType = ProofTypeHistoricalSummariesDeneb then
    checkProof "BlockProofHistoricalSummariesDeneb" decodes summary
  else if proof.proofType = ProofTypeHistoricalSummariesGloas then
    checkProof "BlockProofHistoricalSummariesGloas" decodes summary
  else .error "Invalid proof type"

def verifyReceipts (header : Header) : ReadM Unit := do
  let receipts ← getReceipts fmt f blockNumber
  if header.receiptsRoot ≠ fmt.calcReceiptsRoot receipts then
    throw (.error s!"Invalid receipts root: blocknumber {blockNumber}")
  else return ()

/-- "The genesis block of a PoS only network predates the beacon chain" -/
def verifyGenesis (header : Header) : Except String Unit :=
  match v.genesisBlockHash with
  | none => .error "No genesis block hash to verify the genesis block with"
  | some genesisBlockHash =>
    if fmt.computeRlpHash header ≠ genesisBlockHash then
      .error "Invalid genesis block: does not match the network genesis block"
    else .ok ()

def verifyProofs (blockNumber : Nat) (header : Header) : ReadM Unit :=
  if blockNumber = 0 ∧ f.mergeBlockNumber = 0 then liftResult (verifyGenesis fmt v header)
  else if !f.blockIdx.noProofs then do
    let proof ← getProof fmt f blockNumber
    liftResult (verifyProof fmt v proof header)
  else return ()

def onlyIf (c : Bool) (task : ReadM Unit) : ReadM Unit := if c then task else return ()

/-- The body of the loop of `verify`. -/
def verifyBlock (headerRecords : List HeaderRecord)
    (blockNumber : Nat) : ReadM (List HeaderRecord) := do
  let header ← getBlockHeader fmt f blockNumber
  let body ← getBlockBody fmt f blockNumber
  onlyIf (header.txRoot != fmt.calcTxRoot body.transactions)
    (throw (.error s!"Invalid transactions root: blocknumber {blockNumber}"))
  onlyIf (header.ommersHash != fmt.unclesHash body.uncles)
    (throw (.error s!"Invalid ommers hash: blocknumber {blockNumber}"))
  onlyIf (!f.blockIdx.noReceipts) (verifyReceipts fmt f blockNumber header)
  verifyProofs fmt f v blockNumber header
  if blockNumber < f.mergeBlockNumber then do
    let td ← getTotalDifficulty fmt f blockNumber
    return headerRecords ++ [⟨fmt.computeRlpHash header, td⟩]
  else return headerRecords

def verify : ReadM (Option Digest) := do
  let headerRecords ← f.blockNumbers.foldlM (verifyBlock fmt f v) []
  if f.blockIdx.startNumber < f.mergeBlockNumber then do
    let expectedRoot ← getAccumulatorRoot fmt
    if fmt.hashTreeRoot headerRecords ≠ expectedRoot then
      throw (.error "Invalid accumulator root")
    else return some (fmt.hashTreeRoot headerRecords)
  else return none

/-! ## The older format -/

def E2BlockIndex : RecordType := (0x66, 0x32)

structure BlockIndex where
  startNumber : Nat
  /-- absolute positions in the file -/
  offsets : List Int

/-- An index record of this format, from its data. -/
def decodeBlockIndex (buf : List UInt8) (startPos fileSize : Nat) : Except Failure BlockIndex :=
  if buf.length < 16 then .error (.error "index entry too small")
  else if buf.length % 8 ≠ 0 then .error (.error "index length invalid")
  else do
    let blockNumber ← readUInt64 buf 0
    let count := buf.length / 8 - 2
    if 2 ^ 31 - 1 < blockNumber then .error (.error "fishy block number")
    else do
      let offsets ← readIndexes buf startPos fileSize count 8
      let stored ← readUInt64 buf (8 + 8 * count)
      if count ≠ stored then .error (.error "invalid count")
      else return { startNumber := blockNumber, offsets := offsets }

def readBlockIndex : ReadM BlockIndex := do
  let f ← get
  let record ← readRecord fmt
  if record.1 ≠ E2BlockIndex then throw (.error "not an index")
  else liftExcept (decodeBlockIndex record.2 f.pos f.content.length)

end Nimbus.Native.Ere
