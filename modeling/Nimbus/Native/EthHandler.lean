import Nimbus.Native.Aristo.Desc

/-!
# Answers to requests of the eth protocol

Model of `getStoredReceipts70`, `getBlockBodies` and `getBlockHeaders` in
`execution_chain/sync/wire_protocol/eth/eth_handler.nim`, and of the lookups by number in
`execution_chain/core/chain/forked_chain.nim`. Numbers that come from the wire have 64 bits
and are added without overflow checks (`u64`). How long a value is when it is encoded is a
parameter. Log texts are left out.
-/

namespace Nimbus.Native.EthHandler

open Aristo (Hash32)

def MAX_RECEIPTS_SERVE : Nat := 1024
def MAX_HEADERS_SERVE : Nat := 1024
def MAX_BODIES_SERVE : Nat := 256
def SOFT_RESPONSE_LIMIT : Nat := 2 * 1024 * 1024

def u64 (n : Nat) : Nat := n % 2 ^ 64

/-- `getEncodedLength`: the number of bytes of the RLP of a value. -/
class EncodedLength (α : Type) where
  getEncodedLength : α → Nat

export EncodedLength (getEncodedLength)

/-! ## Receipts -/

structure StoredReceipts70Request where
  firstBlockReceiptIndex : Nat
  blockHashes : List Hash32

structure StoredReceipts70Packet (R : Type) where
  lastBlockIncomplete : Bool := false
  receipts : List (List R) := []
  deriving DecidableEq

section
variable {R : Type} [EncodedLength R]

/-- The receipts of one block as far as they fit, whether some were cut off, and the bytes
counted so far. -/
def receiptsLoop : List R → (totalBytes : Nat) → List R × Bool × Nat
  | [], totalBytes => ([], false, totalBytes)
  | receipt :: rest, totalBytes =>
    let size := getEncodedLength receipt
    if SOFT_RESPONSE_LIMIT < totalBytes + size then ([], true, totalBytes)
    else
      let (served, truncated, totalBytes) := receiptsLoop rest (totalBytes + size)
      (receipt :: served, truncated, totalBytes)

/-- The blocks from the `i`th on. Each block before has got its list. -/
def receiptBlocksLoop (receiptsByBlockHash : Hash32 → Option (List R))
    (firstBlockReceiptIndex : Nat) : List Hash32 → (i totalBytes : Nat) → StoredReceipts70Packet R
  | [], _, _ => {}
  | blockHash :: hashes, i, totalBytes =>
    if MAX_RECEIPTS_SERVE ≤ i ∨ SOFT_RESPONSE_LIMIT < totalBytes then {}
    else
      match receiptsByBlockHash blockHash with
      -- going on would misalign the hashes with the lists
      | none => {}
      | some receiptList =>
        let firstIndex := if i = 0 then min firstBlockReceiptIndex receiptList.length else 0
        let (served, truncated, totalBytes) :=
          receiptsLoop (receiptList.drop firstIndex) totalBytes
        if truncated then
          if 0 < served.length then { lastBlockIncomplete := true, receipts := [served] } else {}
        else
          let packet :=
            receiptBlocksLoop receiptsByBlockHash firstBlockReceiptIndex hashes (i + 1) totalBytes
          { packet with receipts := served :: packet.receipts }

def getStoredReceipts70 (receiptsByBlockHash : Hash32 → Option (List R))
    (req : StoredReceipts70Request) : StoredReceipts70Packet R :=
  receiptBlocksLoop receiptsByBlockHash req.firstBlockReceiptIndex req.blockHashes 0 0

end

/-! ## The chain -/

/-- A block header. `others` stands for the fields that the handlers do not look at. -/
structure Header where
  number : Nat
  others : List UInt8 := []
  number_lt : number < 2 ^ 64 := by decide

instance decEqHeader : DecidableEq Header := fun a b =>
  decidable_of_iff (a.number = b.number ∧ a.others = b.others) (by cases a; cases b; simp)

structure BlockBody where
  /-- the encoded transactions, uncles and withdrawals -/
  rlp : List UInt8

structure Block where
  header : Header
  body : BlockBody

/-- What the handlers read of the chain: the lineage of the latest block in memory, down to
the base block, the headers on disk by number, and the lookups by hash. -/
structure ForkedChain where
  latest : Header
  /-- the ancestors of the latest block in memory, the last one is the base -/
  parents : List Header := []
  getBlockHeader : Nat → Option Header
  /-- a header on disk stands under its own number -/
  getBlockHeader_number : ∀ number header, getBlockHeader number = some header →
    header.number = number
  headerByHash : Hash32 → Option Header
  blockByHash : Hash32 → Option Block
  /-- the expiry limit, when history expiry is active -/
  portal : Option Nat := none

namespace ForkedChain

variable (c : ForkedChain)

def ancestors : List Header := c.latest :: c.parents

def baseNumber : Nat := (c.ancestors.getLastD c.latest).number

def headerByNumber (number : Nat) : Option Header :=
  if c.latest.number < number then none
  else if number < c.baseNumber then c.getBlockHeader number
  else c.ancestors.find? fun it => number = it.number

end ForkedChain

inductive BlockHashOrNumber where
  | hash (h : Hash32)
  | number (n : Nat)

def ForkedChain.blockHeader (c : ForkedChain) : BlockHashOrNumber → Option Header
  | .hash h => c.headerByHash h
  | .number n => c.headerByNumber n

/-! ## Bodies and headers -/

section
variable [EncodedLength BlockBody]

/-- The blocks that are served: `len` and `totalBytes` count what stands before. -/
def bodiesLoop (c : ForkedChain) : List Hash32 → (len totalBytes : Nat) → List Block
  | [], _, _ => []
  | blockHash :: hashes, len, totalBytes =>
    match c.blockByHash blockHash with
    | none => bodiesLoop c hashes len totalBytes
    | some blk =>
      -- EIP-4444 limit
      if c.portal.any fun limit => limit < blk.header.number then
        bodiesLoop c hashes len totalBytes
      else
        let totalBytes := totalBytes + getEncodedLength blk.body
        blk :: if MAX_BODIES_SERVE ≤ len + 1 ∨ SOFT_RESPONSE_LIMIT < totalBytes then []
          else bodiesLoop c hashes (len + 1) totalBytes

def getBlockBodies (c : ForkedChain) (hashes : List Hash32) : List BlockBody :=
  (bodiesLoop c hashes 0 0).map (·.body)

end

structure BlockHeadersRequest where
  startBlock : BlockHashOrNumber
  maxResults : Nat
  skip : Nat
  reverse : Bool
  maxResults_lt : maxResults < 2 ^ 64 := by decide
  skip_lt : skip < 2 ^ 64 := by decide

/-- The number that is looked up after `number`. -/
def BlockHeadersRequest.next (req : BlockHeadersRequest) (number : Nat) : Nat :=
  if req.reverse then u64 (number + (2 ^ 64 - 1) + (2 ^ 64 - req.skip))
  else u64 (number + 1 + req.skip)

/-- EIP-4444 limit: whether the request is not answered. -/
def expiryRefused (c : ForkedChain) (req : BlockHeadersRequest) (header : Header) : Bool :=
  c.portal.any fun limit =>
    if req.reverse then limit < header.number
    else limit < u64 (header.number + req.maxResults)

section
variable [EncodedLength Header]

/-- The headers after `header`, where `len` headers with `totalBytes` have been listed. The
limit on the number of headers ends the loop before `room` is used up. -/
def headersLoop (c : ForkedChain) (req : BlockHeadersRequest) :
    (room : Nat) → (header : Header) → (len totalBytes : Nat) → List Header
  | 0, _, _, _ => []
  | room + 1, header, len, totalBytes =>
    if len < req.maxResults then
      match c.headerByNumber (req.next header.number) with
      | none => []
      | some header =>
        let totalBytes := totalBytes + getEncodedLength header
        header :: if MAX_HEADERS_SERVE ≤ len + 1 ∨ SOFT_RESPONSE_LIMIT < totalBytes then []
          else headersLoop c req room header (len + 1) totalBytes
    else []

def getBlockHeaders (c : ForkedChain) (req : BlockHeadersRequest) : List Header :=
  match c.blockHeader req.startBlock with
  | none => []
  | some header =>
    if expiryRefused c req header then []
    else header :: headersLoop c req MAX_HEADERS_SERVE header 1 (getEncodedLength header)

end

end Nimbus.Native.EthHandler
