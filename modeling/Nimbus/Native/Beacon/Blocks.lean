import Nimbus.Native.Beacon.Headers

/-!
# Downloading and importing blocks

Model of `sync/beacon/worker/blocks.nim` and `blocks_blocks.nim`. The headers are on the
cache already, what is fetched are the bodies and, where there are any, the block access
lists. One peer fetches the blocks right above the last imported one and imports them (a
direct fetch), all others leave their lists on the staged queue.

There are three awaits: for the bodies, for the access lists, and for the import of one
block. What the `FC` module says to a block is a parameter of the step.
-/

namespace Nimbus.Native.Beacon

open Aristo (Hash32)
open HeaderChainCache

/-- What the wait for `queueImportBlock` can end with. -/
inductive Verdict where
  /-- `Valid` or `AlreadyObserved` -/
  | ok
  | orphaned
  | missingParent
  | invalid
  | cancelled
  deriving DecidableEq

/-- `isWithinBalRetentionPeriod` -/
def isWithinBalRetentionPeriod [HeaderFields] (header : Header) (headSlot : Nat) : Bool :=
  match HeaderFields.slotNumber header with
  | none => false
  | some blockSlot =>
    headSlot / SLOTS_PER_EPOCH < u64 (blockSlot / SLOTS_PER_EPOCH + BAL_RETENTION_EPOCHS)

namespace ImportJob

variable (job : ImportJob)

/-- `blocks[n].header.number` -/
def nthBn : Nat := (job.item.blocks[job.n]?.getD {}).header.number

/-- `blocks[^1].header.number`, which is zero once that block is imported. -/
def lastBn : Nat := (job.item.blocks.getLastD {}).header.number

/-- `blocks[n].reset()`, and on to the next one. -/
def next : ImportJob :=
  { job with
    item := { job.item with blocks := job.item.blocks.set job.n {} }
    n := job.n + 1 }

end ImportJob

namespace BeaconCtx

variable (ctx : BeaconCtx)

/-- `blkSessionStopped` -/
def blkSessionStopped : Bool := ctx.poolMode || ctx.syncState ≠ .blocks

/-- `blocksCollectOk` -/
def blocksCollectOk (p : PeerId) : Bool :=
  (ctx.buddy p).running && 0 < ctx.blk.unprocAvail && !ctx.blkSessionStopped

/-- `updateLastBlockImported` -/
def updateLastBlockImported (bn : Nat) : BeaconCtx :=
  { ctx with subState := { ctx.subState with topNum := bn } }

/-! ## Fetching -/

/-- The headers with the `count` numbers from `bn` on, `none` when one is missing. -/
def getHeaders (hc : HeaderChainRef) (bn : Nat) :
    Nat → Except Defect (Option (List Header))
  | 0 => .ok (some [])
  | count + 1 =>
    match hc.get bn with
    | .error e => .error (.hdrCache e)
    | .ok none => .ok none
    | .ok (some header) =>
      match getHeaders hc (bn + 1) count with
      | .error e => .error e
      | .ok headers => .ok (headers.map (header :: ·))

/-- The hashes of the blocks: those of parents, and the one of the last header. -/
def requestHashes [BlockHash] (headers : List Header) : List Hash32 :=
  headers.tail.map (·.parentHash) ++ [computeBlockHash (headers.getLastD {})]

/-- The end of `blocksFetch`. -/
def blocksFetchFinish (iv : PtRange) (rc : Option BlocksForImport) :
    Except Defect (BeaconCtx × Option BlocksForImport) :=
  -- the books might have been reset in the meantime
  if ctx.blkSessionStopped then .ok (ctx, none)
  else
    match rc with
    | none =>
      match ctx.blk.unprocCommit iv iv with
      | .error e => .error e
      | .ok blk => .ok ({ ctx with blk := blk }, none)
    | some item =>
      match ctx.blk.unprocCommitRest iv (u64 (iv.minPt + item.blocks.length)) iv.maxPt with
      | .error e => .error e
      | .ok blk => .ok ({ ctx with blk := blk }, some item)

/-- `blocksFetch` before the `await`: the range to ask for, with its headers. -/
def blocksFetchStart (p : PeerId) : Except Defect (BeaconCtx × Option (PtRange × List Header)) :=
  -- make sure that this peer is not banned from block processing
  if nProcBlocksErrThreshold < (ctx.buddy p).nErrors.apply.blk then
    .ok (ctx.modifyPeer p (·.zombify), none)
  else
    match ctx.blk.unprocFetch nFetchBodiesRequest with
    | .error e => .error e
    | .ok none => .ok (ctx, none)
    | .ok (some (iv, blk)) =>
      let ctx := { ctx with blk := blk }
      match getHeaders ctx.hdrCache iv.minPt (len64 iv) with
      | .error e => .error e
      | .ok none =>
        -- block header missing, so require reorg
        let ctx := { ctx with subState := { ctx.subState with cancelRequest := true } }
        match ctx.blocksFetchFinish iv none with
        | .error e => .error e
        | .ok (ctx, _) => .ok (ctx, none)
      | .ok (some headers) => .ok (ctx, some (iv, headers))

/-- Whether the body has transactions exactly when the header says so. -/
def checkTxLenOk [HeaderFields] (header : Header) (body : BlockBody) : Bool :=
  if HeaderFields.transactionsRoot header ≠ emptyRoot then 0 < body.transactions.length
  else body.transactions.length = 0

/-- Puts blocks together, up to the first body that does not fit. The flag says that there was
one. -/
def appendBodies [HeaderFields] : List Header → List BlockBody → List EthBlock × Bool
  | header :: headers, body :: bodies =>
    if checkTxLenOk header body then
      let (blocks, cut) := appendBodies headers bodies
      ({ header := header, body := body } :: blocks, cut)
    else ([], true)
  | _, _ => ([], false)

/-- Whether access lists are fetched for blocks that start with `header`. -/
def wantsBals [HeaderFields] (header : Header) : Bool :=
  match HeaderFields.slotNumber ctx.head with
  | none => false
  | some headSlot =>
    HeaderFields.isAmsterdamOrLater (HeaderFields.timestamp header) &&
      isWithinBalRetentionPeriod header headSlot

/-- The blocks with what could be decoded of their access lists. -/
def blocksWithBals [HeaderFields] (p : PeerId) (blocks : List EthBlock)
    (raws : List (List UInt8)) : BlocksForImport where
  blocks := blocks
  bals := blocks.zipIdx.map fun (blk, j) =>
    raws[j]?.bind fun raw => HeaderFields.decodeBlockAccessList raw blk.header
  peerID := p

/-! ## Importing -/

def mark (m : ImportMark) : BeaconCtx := { ctx with marks := ctx.marks ++ [m] }

/-- The loop of `blocksImport` over the next `count` blocks, up to the `await`. The flag says
that a block was handed over. -/
def importSkip (ctx : BeaconCtx) (job : ImportJob) : Nat → BeaconCtx × ImportJob × Bool
  | 0 => (ctx, job, false)
  | count + 1 =>
    -- skip blocks at or below the current base
    if job.nthBn ≤ ctx.chain.baseNumber then
      importSkip ((ctx.updateLastBlockImported job.nthBn).mark (.skipped job.nthBn)) job.next count
    else (ctx.mark (.submitted job.nthBn), job, true)

/-- `blocksImport` up to the first `await`. -/
def blocksImportStart (item : BlocksForImport) (origin : ImportOrigin) :
    Except Defect (BeaconCtx × ImportJob × Bool) :=
  let minPt := (item.blocks.headD {}).header.number
  let iv := PtRange.new minPt (item.blocks.getLastD {}).header.number
  if len64 iv = u64 item.blocks.length then
    .ok (ctx.importSkip { item := item, n := 0, minPt := minPt, origin := origin }
      item.blocks.length)
  else .error .blocksLen

/-- The end of `blocksImport`: the number of blocks imported. -/
def blocksImportEnd (p : PeerId) (job : ImportJob) (isError : Bool) : BeaconCtx × Nat :=
  let ctx :=
    if isError then ctx else ctx.modifySyncPeer p job.item.peerID (·.setApplyBlk 0)
  (ctx, u64 (ctx.subState.topNum + 2 ^ 64 - job.minPt + 1))

/-- The import may be incomplete, so a partial roll back may be needed. -/
def blocksImportRollBack (job : ImportJob) : BeaconCtx :=
  if ctx.subState.topNum < job.lastBn then
    { ctx with blk := ctx.blk.unprocAppend (u64 (ctx.subState.topNum + 1)) job.lastBn }
  else ctx

/-! ## Collecting -/

/-- The end of `blocksCollect`. -/
def blocksCollectDone (p : PeerId) (importedOK : Bool) (nQueued : Nat) : BeaconCtx :=
  let ctx := ctx.setJob p .idle
  if importedOK = false ∧ nQueued = 0 ∧ ctx.seenData = false ∧ p ∉ ctx.failedPeers ∧
      (ctx.buddy p).stopped = true then
    { ctx with failedPeers := insert p ctx.failedPeers }
  else ctx

/-- Awaits the bodies of a range. -/
def awaitBodies [BlockHash] (p : PeerId) (iv : PtRange) (headers : List Header)
    (direct importedOK : Bool) : BeaconCtx :=
  ctx.setJob p (.bodies {
    iv := iv, direct := direct, importedOK := importedOK
    blockHashes := requestHashes headers, headers := headers })

/-- Fetches blocks for the staged queue. -/
def blocksCollectQueued [BlockHash] (p : PeerId) (importedOK : Bool) : Except Defect BeaconCtx :=
  if ctx.blk.canReserve blocksStagedQueueLengthMax then
    let ctx := { ctx with blk := ctx.blk.reserve }
    match ctx.blocksFetchStart p with
    | .error e => .error e
    | .ok (ctx, none) =>
      .ok ({ ctx with blk := ctx.blk.unreserve }.blocksCollectDone p importedOK 0)
    | .ok (ctx, some (iv, headers)) => .ok (ctx.awaitBodies p iv headers false importedOK)
  else .ok (ctx.blocksCollectDone p importedOK 0)

/-- Fetches blocks for importing them right away. -/
def blocksCollectDirect [BlockHash] (p : PeerId) (importedOK : Bool) : Except Defect BeaconCtx :=
  match ctx.blocksFetchStart p with
  | .error e => .error e
  | .ok (ctx, none) => .ok (ctx.blocksCollectDone p importedOK 0)
  | .ok (ctx, some (iv, headers)) => .ok (ctx.awaitBodies p iv headers true importedOK)

/-- One round of the loop of `blocksCollect`, up to the `await`. -/
def blocksCollectLoop [BlockHash] (p : PeerId) (importedOK : Bool) : Except Defect BeaconCtx :=
  let bottom := u64 (ctx.blk.unprocAvailBottom + (2 ^ 64 - 1))
  let topNum := ctx.subState.topNum
  if topNum < bottom then ctx.blocksCollectQueued p importedOK
  else if bottom < topNum then
    -- throw away overlap
    match ctx.blk.unprocFetch (topNum - bottom) with
    | .error e => .error e
    | .ok none => .error .overlap
    | .ok (some (_, blk)) => { ctx with blk := blk }.blocksCollectDirect p importedOK
  else ctx.blocksCollectDirect p importedOK

def blocksCollect [BlockHash] (p : PeerId) : Except Defect BeaconCtx :=
  if ctx.blk.unprocIsEmpty then .ok ctx else ctx.blocksCollectLoop p false

/-! ## Unstaging -/

/-- The loop of `blocksUnstage`, for at most `fuel` rounds and up to the `await`. -/
def blocksUnstageLoop (ctx : BeaconCtx) (p : PeerId) : Nat → Except Defect BeaconCtx
  | 0 => .ok (ctx.setJob p .idle)
  | fuel + 1 =>
    if ctx.syncState = .blocks then
      -- fetch list with the least block numbers
      match ctx.blk.stagedBottom with
      | none => .ok (ctx.setJob p .idle)
      | some (key, qItem) =>
        let minNum := (qItem.blocks.headD {}).header.number
        -- no unprocessed block number may precede the least staged block
        if u64 (ctx.subState.topNum + 1) < minNum then .ok (ctx.setJob p .idle)
        else
          let ctx := { ctx with blk := ctx.blk.stagedQueueDelete key }
          match ctx.blocksImportStart qItem .unstage with
          | .error e => .error e
          | .ok (ctx, job, true) => .ok (ctx.setJob p (.importing job))
          | .ok (ctx, job, false) =>
            ((ctx.blocksImportEnd p job false).1.blocksImportRollBack job).blocksUnstageLoop p fuel
    else .ok (ctx.setJob p .idle)

/-- Every round but the last takes an item off the queue. -/
def blocksUnstage (p : PeerId) : Except Defect BeaconCtx :=
  if ctx.blk.staged.len = 0 then .ok ctx
  else ctx.blocksUnstageLoop p (ctx.blk.staged.len + 1)

/-! ## After an await -/

/-- What follows when an import is over. -/
def blocksImported [BlockHash] (p : PeerId) (job : ImportJob) (isError : Bool) :
    Except Defect BeaconCtx :=
  let (ctx, nBlocks) := ctx.blocksImportEnd p job isError
  let ctx := ctx.blocksImportRollBack job
  match job.origin with
  | .collect importedOK =>
    let importedOK := importedOK || 0 < nBlocks
    -- sync peer might have been cancelled while importing blocks
    if (ctx.buddy p).stopped || ctx.poolMode then .ok (ctx.blocksCollectDone p importedOK 0)
    else ctx.blocksCollectLoop p importedOK
  | .unstage => ctx.blocksUnstageLoop p (ctx.blk.staged.len + 1)

/-- What follows on a round of the import loop. -/
def blocksImportGo [BlockHash] (p : PeerId) : BeaconCtx × ImportJob × Bool → Except Defect BeaconCtx
  | (ctx, job, true) => .ok (ctx.setJob p (.importing job))
  | (ctx, job, false) => ctx.blocksImported p job false

/-- `blocksImport` from the `await` for `blocks[n]` on. -/
def blocksImportResume [BlockHash] (p : PeerId) (job : ImportJob) (verdict : Verdict) :
    Except Defect BeaconCtx :=
  let nthBn := job.nthBn
  match verdict with
  | .ok =>
    let ctx := (ctx.updateLastBlockImported nthBn).mark (.imported nthBn)
    blocksImportGo p (ctx.importSkip job.next (job.item.blocks.length - (job.n + 1)))
  | .cancelled => (ctx.mark (.failed nthBn)).blocksImported p job false
  | verdict =>
    let ctx := ctx.mark (.failed nthBn)
    -- daemon stopped mid-import
    if ctx.daemon = false then ctx.blocksImported p job false
    else if verdict = .invalid then
      -- the peer that produced the block is of no use any more
      let ctx := ctx.modifySyncPeer p job.item.peerID (·.setApplyBlk (nProcBlocksErrThreshold + 1))
      (ctx.registerProcFail nthBn nImportBlocksErrThreshold).blocksImported p job true
    else (ctx.registerProcFail nthBn nImportBlocksErrThreshold).blocksImported p job false

/-- What `blocksCollect` does with the outcome of a fetch. -/
def blocksCollectFetched [BlockHash] (p : PeerId) (iv : PtRange) (direct importedOK : Bool)
    (rc : Option BlocksForImport) : Except Defect BeaconCtx :=
  match ctx.blocksFetchFinish iv rc with
  | .error e => .error e
  | .ok (ctx, res) =>
    if direct then
      match res with
      | none => .ok (ctx.blocksCollectDone p importedOK 0)
      | some item =>
        match { ctx with seenData := true }.blocksImportStart item (.collect importedOK) with
        | .error e => .error e
        | .ok res => blocksImportGo p res
    else
      let ctx := { ctx with blk := ctx.blk.unreserve }
      match res with
      | none => .ok (ctx.blocksCollectDone p importedOK 0)
      | some item =>
        match ctx.blk.stagedQueueInsert (item.blocks.headD {}).header.number item with
        | .error e => .error e
        | .ok blk => .ok ({ ctx with blk := blk }.blocksCollectDone p importedOK item.blocks.length)

/-- `blocksCollect` from the `await` for bodies on. -/
def bodiesResume [BlockHash] [HeaderFields] (p : PeerId) (job : BodiesJob)
    (rc : Except WireError (List BlockBody)) (elapsed : Nat) : Except Defect BeaconCtx :=
  match ctx.fetchBodies p job.blockHashes rc elapsed with
  | .error e => .error e
  | .ok (ctx, none) => ctx.blocksCollectFetched p job.iv job.direct job.importedOK none
  | .ok (ctx, some bodies) =>
    if (ctx.buddy p).stopped then ctx.blocksCollectFetched p job.iv job.direct job.importedOK none
    else
      let (blocks, cut) := appendBodies job.headers bodies
      let ctx := if cut then ctx.fetchRegisterError p .bdy false false else ctx
      match blocks with
      | [] =>
        let ctx := ctx.modifyPeer p fun buddy => buddy.setApplyBlk (u8 (buddy.nErrors.apply.blk + 1))
        ctx.blocksCollectFetched p job.iv job.direct job.importedOK none
      | first :: _ =>
        if ctx.wantsBals first.header && (ctx.buddy p).supportsBal then
          .ok (ctx.setJob p (.bals {
            iv := job.iv, direct := job.direct, importedOK := job.importedOK
            blockHashes := job.blockHashes.take blocks.length, blocks := blocks }))
        else
          ctx.blocksCollectFetched p job.iv job.direct job.importedOK
            (some (blocksWithBals p blocks []))

/-- `blocksCollect` from the `await` for block access lists on. -/
def balsResume [BlockHash] [HeaderFields] (p : PeerId) (job : BalsJob)
    (rc : Except WireError (List (List UInt8))) (elapsed : Nat) : Except Defect BeaconCtx :=
  match ctx.fetchBlockAccessListsSome p job.blockHashes job.raws.length rc elapsed with
  | .error e => .error e
  | .ok (ctx, none) =>
    ctx.blocksCollectFetched p job.iv job.direct job.importedOK
      (some (blocksWithBals p job.blocks []))
  | .ok (ctx, some rsp) =>
    let raws := job.raws ++ rsp
    if raws.length < job.blockHashes.length then
      -- follow-up request for the remaining hashes
      .ok (ctx.setJob p (.bals { job with raws := raws }))
    else
      ctx.blocksCollectFetched p job.iv job.direct job.importedOK
        (some (blocksWithBals p job.blocks raws))

/-- `blocksStagedReorg`, in pool mode. -/
def blocksStagedReorg : BeaconCtx :=
  if ctx.syncState = .blocksCancel ∨ ctx.syncState = .blocksFinish then
    { ctx with blk := ctx.blk.unprocClear.stagedQueueClear, subState := {} }
  else ctx

end BeaconCtx

end Nimbus.Native.Beacon
