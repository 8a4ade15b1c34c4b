import Nimbus.ForStd.IntervalSet
import Nimbus.Native.HeaderChainCache

/-!
# Descriptors of the beacon syncer

Model of `sync/beacon/worker/worker_desc.nim`, `worker_const.nim` and of the control states
of `sync/sync_desc.nim`. A worker peer is a coroutine that stops only where it awaits a
reply or an import. `Job` says where it stopped and what its local variables hold there, and
everything between two awaits is one step.

Block numbers have 64 bits, error counters have eight. Throughput statistics, metrics, log
texts and the time estimates are left out, and so is what is sent to a peer, since its
answer may be anything.
-/

namespace Nimbus.Native.Beacon

open Aristo (Hash32)
open HeaderChainCache

/-- `uint8` counters wrap. -/
def u8 (n : Nat) : Nat := n % 2 ^ 8

/-- A header that can have a child: its number leaves room for one more. -/
abbrev ChainHeader := { h : Header // h.number + 1 < 2 ^ 64 }

/-- The hash of an empty trie. -/
def emptyRoot : Hash32 :=
  #v[0x56, 0xe8, 0x1f, 0x17, 0x1b, 0xcc, 0x55, 0xa6, 0xff, 0x83, 0x45, 0xe6, 0x92, 0xc0, 0xf8, 0x6e,
    0x5b, 0x48, 0xe0, 0x1b, 0x99, 0x6c, 0xad, 0xc0, 0x01, 0x62, 0x2f, 0xb5, 0xe3, 0x63, 0xb4, 0x21]

/-- What the block download reads of a header and of the chain configuration. -/
class HeaderFields where
  transactionsRoot : Header → Hash32
  timestamp : Header → Nat
  slotNumber : Header → Option Nat
  isAmsterdamOrLater : Nat → Bool
  /-- `decodeBlockAccessList`: decodes the bytes and checks them against the header. -/
  decodeBlockAccessList : List UInt8 → Header → Option (List UInt8)

/-! ## Constants -/

def nFetchHeadersFailedInitialPeersThreshold : Nat := 30
def nFetchHeadersRequest : Nat := 800
def nFetchHeadersErrThreshold : Nat := 4
def nStashHeadersErrThreshold : Nat := 2
def headersStagedQueueLengthMax : Nat := 8
def nFetchBodiesFailedInitialPeersThreshold : Nat := 50
def nFetchBodiesRequest : Nat := 40
def nFetchBodiesErrThreshold : Nat := 4
def nFetchBalsErrThreshold : Nat := 4
def nProcBlocksErrThreshold : Nat := 2
def nImportBlocksErrThreshold : Nat := 2
def blocksStagedQueueLengthMax : Nat := 2

/-- `fetchHeadersErrTimeout`, `fetchBodiesErrTimeout` and `fetchBalsErrTimeout`, in
nanoseconds. -/
def fetchErrTimeout : Nat := 25 * 10 ^ 9

/-- EIP-7928: how long block access lists are kept. -/
def SLOTS_PER_EPOCH : Nat := 32
def BAL_RETENTION_EPOCHS : Nat := 14299

/-! ## Peers -/

structure PeerId where
  hash : Nat
  deriving DecidableEq

inductive SyncPeerRunState where
  | running
  | stopped
  | zombieStop
  | zombieRun
  deriving DecidableEq

namespace SyncPeerRunState

/-- `zombie = true` -/
def zombify : SyncPeerRunState → SyncPeerRunState
  | .running => .zombieRun
  | .stopped => .zombieStop
  | state => state

/-- `stopped = true` -/
def stop : SyncPeerRunState → SyncPeerRunState
  | .running => .stopped
  | state => state

end SyncPeerRunState

/-- Three values, for headers, bodies and block access lists. -/
inductive FetchKind where
  | hdr
  | bdy
  | bal

structure FetchErrors where
  hdr : Nat := 0
  bdy : Nat := 0
  bal : Nat := 0

structure ApplyErrors where
  hdr : Nat := 0
  blk : Nat := 0

structure PeerErrors where
  fetch : FetchErrors := {}
  apply : ApplyErrors := {}

/-- The last request that took too long, so as not to send it again. -/
structure PeerFirstFetchReq where
  blockNumber : Nat := 0
  bdyHash : Hash32 := zeroHash32
  balHash : Hash32 := zeroHash32

inductive ErrorType where
  | EGeneric
  | ESyncerTermination
  | EAlreadyTriedAndFailed
  | EPeerDisconnected
  | ECatchableError
  | ECancelledError
  | ENoDataAvailable
  | EValidationError

/-- How a request over the wire can end: `EGeneric` stands for an empty response. -/
inductive WireError where
  | generic
  | peerDisconnected
  | cancelled
  | catchable

def WireError.excp : WireError → ErrorType
  | .generic => .EGeneric
  | .peerDisconnected => .EPeerDisconnected
  | .cancelled => .ECancelledError
  | .catchable => .ECatchableError

/-! ## Blocks -/

structure BlockBody where
  transactions : List (List UInt8) := []
  /-- uncles and withdrawals -/
  others : List UInt8 := []

structure EthBlock where
  header : Header := {}
  body : BlockBody := {}

/-- Headers list item. The list is reversed, the largest number comes first. -/
structure HeaderChain where
  revHdrs : List Header
  peerID : PeerId

/-- Blocks list item, with the block access lists by the same index. -/
structure BlocksForImport where
  blocks : List EthBlock
  bals : List (Option (List UInt8))
  peerID : PeerId

/-! ## Coroutines -/

/-- Awaiting headers, in `headersFetch`. -/
structure HeadersJob where
  iv : PtRange
  /-- fetched by parent hash, to be put on the cache right away -/
  direct : Bool
  stashedOK : Bool

/-- Awaiting bodies, in `blocksFetch`. -/
structure BodiesJob where
  iv : PtRange
  /-- to be imported right away -/
  direct : Bool
  importedOK : Bool
  blockHashes : List Hash32
  headers : List Header

/-- Awaiting block access lists, in `blocksFetch`. -/
structure BalsJob where
  iv : PtRange
  direct : Bool
  importedOK : Bool
  /-- the hashes of `blocks` -/
  blockHashes : List Hash32
  blocks : List EthBlock
  /-- what was received so far -/
  raws : List (List UInt8) := []

/-- Where a list of blocks to import comes from. -/
inductive ImportOrigin where
  | collect (importedOK : Bool)
  | unstage

/-- Awaiting the import of `blocks[n]`, in `blocksImport`. -/
structure ImportJob where
  item : BlocksForImport
  n : Nat
  /-- the least number of the list -/
  minPt : Nat
  origin : ImportOrigin

inductive Job where
  | idle
  | headers (job : HeadersJob)
  | bodies (job : BodiesJob)
  | bals (job : BalsJob)
  | importing (job : ImportJob)

/-- `BeaconPeerRef`: a worker peer. -/
structure BeaconPeer where
  ctrl : SyncPeerRunState := .running
  nErrors : PeerErrors := {}
  failedReq : PeerFirstFetchReq := {}
  supportsBal : Bool := false
  job : Job := .idle

namespace BeaconPeer

variable (buddy : BeaconPeer)

def running : Bool := buddy.ctrl = .running

def stopped : Bool := buddy.ctrl ≠ .running

def zombify : BeaconPeer := { buddy with ctrl := buddy.ctrl.zombify }

def stop : BeaconPeer := { buddy with ctrl := buddy.ctrl.stop }

/-- Whether the peer counts as active with the scheduler. -/
def isIdle : Bool :=
  match buddy.job with
  | .idle => true
  | _ => false

end BeaconPeer

/-! ## Shared data -/

inductive BeaconState where
  | idle
  | headers
  | headersCancel
  | headersFinish
  | linger
  | blocks
  | blocksCancel
  | blocksFinish
  deriving DecidableEq

structure SyncSubState where
  topNum : Nat := 0
  headNum : Nat := 0
  headHash : Hash32 := zeroHash32
  cancelRequest : Bool := false
  procFailNum : Nat := 0
  procFailCount : Nat := 0

/-- Staging area for items that come in over the network. -/
structure FetchSync (Item : Type) where
  unprocessed : IntervalSet := {}
  borrowed : IntervalSet := {}
  staged : Table Nat Item := ∅
  reserveStaged : Int := 0
  /-- The range a session was set up for. No function reads it. -/
  asked : Option PtRange := none

abbrev HeaderFetchSync := FetchSync HeaderChain

abbrev BlocksFetchSync := FetchSync BlocksForImport

/-- What happens to a block on its way to the `FC` module. -/
inductive ImportMark where
  /-- at or below the base, hence not handed over -/
  | skipped (bn : Nat)
  /-- handed to `queueImportBlock` -/
  | submitted (bn : Nat)
  | imported (bn : Nat)
  /-- failed, or the wait for it was cut short -/
  | failed (bn : Nat)

structure BeaconCtx where
  hdr : HeaderFetchSync := {}
  blk : BlocksFetchSync := {}
  syncState : BeaconState := .idle
  standByMode : Bool := false
  subState : SyncSubState := {}
  hdrCache : HeaderChainRef
  stopBase : Option ChainHeader := none
  lastSlowPeer : Option PeerId := none
  failedPeers : Finset PeerId := ∅
  seenData : Bool := false
  minInitBuddies : Int := 0
  initTarget : Option Hash32 := none
  poolMode : Bool := false
  daemon : Bool := false
  peers : Table PeerId BeaconPeer := ∅
  /-- The last fork choice update, as the header cache keeps it for later. -/
  consHead : ChainHeader := ⟨{}, by decide⟩
  finHash : Hash32 := zeroHash32
  /-- The blocks of a session in the order they were dealt with. No function reads it. -/
  marks : List ImportMark := []

/-- Assertions of the code, and the defects of the header cache. -/
inductive Defect where
  /-- `doAssert borrowed.merge(iv) == iv.len` -/
  | borrowedMerge
  /-- `doAssert borrowed.reduce(iv) == iv.len` -/
  | borrowedReduce
  /-- `doAssert unprocessed.merge(..) == ..` -/
  | unprocessedMerge
  /-- `expect "iv"` -/
  | overlap
  /-- "duplicate key on staged queue" -/
  | duplicateKey
  /-- `doAssert dangling <= unprocTop + 1` -/
  | gapBelowCache
  /-- `doAssert iv.len == blocks.len` -/
  | blocksLen
  /-- `doAssert 0 < req.blockHashes.len` -/
  | emptyRequest
  /-- `doAssert startInx < req.blockHashes.len` -/
  | startInx
  | hdrCache (defect : HeaderChainCache.Defect)

namespace BeaconCtx

variable (ctx : BeaconCtx)

def nSyncPeers : Nat := ctx.peers.len

def hibernate : Bool := !ctx.daemon

/-- The peer `p`, with default values when there is none. -/
def buddy (p : PeerId) : BeaconPeer := (ctx.peers.lookup p).getD {}

/-- Changes the peer `p`, which is the one that is running. -/
def modifyPeer (p : PeerId) (f : BeaconPeer → BeaconPeer) : BeaconCtx :=
  { ctx with peers := ctx.peers.insert p (f (ctx.buddy p)) }

def setJob (p : PeerId) (job : Job) : BeaconCtx :=
  ctx.modifyPeer p fun buddy => { buddy with job := job }

/-- `getSyncPeer`, for changing the peer `q` from within `p`: it must be there and, unless it
is `p` itself, be running. -/
def modifySyncPeer (p q : PeerId) (f : BeaconPeer → BeaconPeer) : BeaconCtx :=
  { ctx with
    peers := ctx.peers.modify q fun buddy =>
      if q = p ∨ buddy.running = true then f buddy else buddy }

def chain : ForkedChain := ctx.hdrCache.chain

/-- `hdrCache.antecedent`: the lowest header on the cache. -/
def antecedent : Header :=
  if ctx.hdrCache.session.mode = .closed then {} else ctx.hdrCache.session.ante

/-- `hdrCache.head` -/
def head : Header :=
  if ctx.hdrCache.session.mode = .closed then {} else ctx.hdrCache.session.head

/-- `hdrCache.headHash` -/
def headHash : Hash32 :=
  if ctx.hdrCache.session.mode = .closed then zeroHash32 else ctx.hdrCache.session.headHash

end BeaconCtx

end Nimbus.Native.Beacon
