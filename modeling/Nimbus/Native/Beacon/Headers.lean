import Nimbus.Native.Beacon.Fetch

/-!
# Downloading headers

Model of `sync/beacon/worker/headers.nim` and `headers_headers.nim`. One peer fetches the
headers right below the lowest one on the cache and puts them there (a direct fetch), all
others fetch further below and leave their lists on the staged queue.

`headersCollect` runs up to the first `await` and leaves a `HeadersJob`; `headersReply` goes
on from there.
-/

namespace Nimbus.Native.Beacon

open Aristo (Hash32)
open HeaderChainCache

namespace BeaconCtx

variable (ctx : BeaconCtx)

/-- `hdrSessionStopped`: stop conditions other than those of a peer. -/
def hdrSessionStopped : Bool :=
  ctx.poolMode || ctx.syncState ≠ .headers || ctx.hdrCache.session.mode ≠ .collecting

variable (p : PeerId)

/-- `headersCollectOk` -/
def headersCollectOk : Bool :=
  (ctx.buddy p).running && 0 < ctx.hdr.unprocAvail && !ctx.hdrSessionStopped

/-! ## Fetching and stashing -/

/-- `headersFetch` before the `await`: the range to ask for. -/
def headersFetchStart : Except Defect (BeaconCtx × Option PtRange) :=
  -- make sure that this peer is not banned from header processing
  if nStashHeadersErrThreshold < (ctx.buddy p).nErrors.apply.hdr then
    .ok (ctx.modifyPeer p (·.zombify), none)
  else
    match ctx.hdr.unprocFetch nFetchHeadersRequest with
    | .error e => .error e
    | .ok none => .ok (ctx, none)
    | .ok (some (iv, hdr)) => .ok ({ ctx with hdr := hdr }, some iv)

/-- Whether the list starts and ends with the numbers that were asked for. -/
def isGarbled (iv : PtRange) (rev : List Header) : Bool :=
  (rev.headD {}).number ≠ iv.maxPt ||
    (rev.getLastD {}).number ≠ u64 (iv.maxPt + 2 ^ 64 - rev.length + 1)

/-- `headersFetch` after the `await`. -/
def headersFetchFinish (iv : PtRange) (rc : Except WireError (List Header))
    (elapsed : Nat) : Except Defect (BeaconCtx × Option (List Header)) :=
  let (ctx, rc) := ctx.fetchHeadersReversed p iv rc elapsed
  -- the books might have been reset in the meantime
  if ctx.hdrSessionStopped then .ok (ctx, none)
  else
    match rc with
    | .error _ =>
      match ctx.hdr.unprocCommit iv iv with
      | .error e => .error e
      | .ok hdr => .ok ({ ctx with hdr := hdr }, none)
    | .ok rev =>
      if isGarbled iv rev then
        let ctx := ctx.modifyPeer p (·.hdrProcRegisterError)
        match ctx.hdr.unprocCommit iv iv with
        | .error e => .error e
        | .ok hdr => .ok ({ ctx with hdr := hdr }, none)
      else
        -- revert lower unused block numbers
        match ctx.hdr.unprocCommitRest iv iv.minPt (u64 (iv.maxPt + 2 ^ 64 - rev.length)) with
        | .error e => .error e
        | .ok hdr => .ok ({ ctx with hdr := hdr }, some rev)

/-- Takes down a failure at `num`, and gives up the session when it is the same again. -/
def registerProcFail (num errThreshold : Nat) : BeaconCtx :=
  if ctx.subState.procFailNum ≠ num then
    { ctx with subState := { ctx.subState with procFailNum := num, procFailCount := 1 } }
  else
    let count := u8 (ctx.subState.procFailCount + 1)
    { ctx with
      subState := { ctx.subState with
        procFailCount := count
        cancelRequest := ctx.subState.cancelRequest || errThreshold < count } }

/-- `headersStashOnDisk`: the number of headers stored. -/
def headersStashOnDisk [BlockHash] (p : PeerId) (revHdrs : List Header) (peerID : PeerId) :
    BeaconCtx × Option Nat :=
  let dTop := ctx.antecedent.number
  match ctx.hdrCache.put revHdrs with
  | (hdrCache, .error _) =>
    let ctx := { ctx with hdrCache := hdrCache }
    -- the peer that produced the list is of no use any more
    let ctx := ctx.modifySyncPeer p peerID (·.setApplyHdr (nStashHeadersErrThreshold + 1))
    (ctx.registerProcFail dTop nStashHeadersErrThreshold, none)
  | (hdrCache, .ok ()) =>
    let ctx := { ctx with hdrCache := hdrCache }
    let dBottom := ctx.antecedent.number
    let ctx := ctx.modifySyncPeer p peerID (·.setApplyHdr 0)
    (ctx, some (u64 (dTop + 2 ^ 64 - dBottom)))

/-! ## Collecting -/

variable (stashedOK : Bool)

/-- The end of `headersCollect`. -/
def headersCollectDone (nQueued : Nat) : BeaconCtx :=
  let ctx := ctx.setJob p .idle
  if stashedOK = false ∧ nQueued = 0 ∧ ctx.seenData = false ∧ p ∉ ctx.failedPeers ∧
      (ctx.buddy p).stopped = true then
    -- collect peers for detecting cul-de-sac syncing
    { ctx with failedPeers := insert p ctx.failedPeers }
  else ctx

/-- Fetches by block number, for the staged queue. -/
def headersCollectQueued : Except Defect BeaconCtx :=
  if ctx.hdr.canReserve headersStagedQueueLengthMax then
    let ctx := { ctx with hdr := ctx.hdr.reserve }
    match ctx.headersFetchStart p with
    | .error e => .error e
    | .ok (ctx, none) =>
      .ok ({ ctx with hdr := ctx.hdr.unreserve }.headersCollectDone p stashedOK 0)
    | .ok (ctx, some iv) =>
      .ok (ctx.setJob p (.headers { iv := iv, direct := false, stashedOK := stashedOK }))
  else .ok (ctx.headersCollectDone p stashedOK 0)

/-- Fetches by parent hash, for the cache. -/
def headersCollectDirect : Except Defect BeaconCtx :=
  match ctx.headersFetchStart p with
  | .error e => .error e
  | .ok (ctx, none) => .ok (ctx.headersCollectDone p stashedOK 0)
  | .ok (ctx, some iv) =>
    .ok (ctx.setJob p (.headers { iv := iv, direct := true, stashedOK := stashedOK }))

/-- One round of the loop of `headersCollect`, up to the `await`. -/
def headersCollectLoop : Except Defect BeaconCtx :=
  let top := u64 (ctx.hdr.unprocAvailTop + 1)
  let dangling := ctx.antecedent.number
  if top < dangling then ctx.headersCollectQueued p stashedOK
  else if dangling < top then
    -- throw away overlap
    match ctx.hdr.unprocFetch (top - dangling) with
    | .error e => .error e
    | .ok none => .error .overlap
    | .ok (some (_, hdr)) => { ctx with hdr := hdr }.headersCollectDirect p stashedOK
  else ctx.headersCollectDirect p stashedOK

def headersCollect (p : PeerId) : Except Defect BeaconCtx :=
  if ctx.hdr.unprocIsEmpty || ctx.hdrCache.session.mode ≠ .collecting then .ok ctx
  else ctx.headersCollectLoop p false

/-- What `headersCollect` does with the outcome of a direct fetch. -/
def headersCollectStash [BlockHash] (p : PeerId) (stashedOK : Bool) (rev : List Header) :
    Except Defect BeaconCtx :=
  let ctx := { ctx with seenData := true }
  match ctx.headersStashOnDisk p rev p with
  | (ctx, none) =>
    let hdr := ctx.hdr.unprocAppend (rev.getLastD {}).number (rev.headD {}).number
    .ok ({ ctx with hdr := hdr }.headersCollectDone p stashedOK 0)
  | (ctx, some nHdrs) =>
    if nHdrs = 0 then .ok (ctx.headersCollectDone p stashedOK 0)
    else if (ctx.buddy p).stopped then .ok (ctx.headersCollectDone p true 0)
    else ctx.headersCollectLoop p true

/-- What `headersCollect` does with the outcome of a fetch for the queue. -/
def headersCollectStage (rev : List Header) : Except Defect BeaconCtx :=
  match ctx.hdr.stagedQueueInsert (rev.headD {}).number { revHdrs := rev, peerID := p } with
  | .error e => .error e
  | .ok hdr => .ok ({ ctx with hdr := hdr }.headersCollectDone p stashedOK rev.length)

/-- `headersCollect` from the `await` of `job` on. -/
def headersCollectResume [BlockHash] (p : PeerId) (job : HeadersJob)
    (rc : Except WireError (List Header)) (elapsed : Nat) : Except Defect BeaconCtx :=
  match ctx.headersFetchFinish p job.iv rc elapsed with
  | .error e => .error e
  | .ok (ctx, res) =>
    if job.direct then
      match res with
      | none => .ok (ctx.headersCollectDone p job.stashedOK 0)
      | some rev => ctx.headersCollectStash p job.stashedOK rev
    else
      let ctx := { ctx with hdr := ctx.hdr.unreserve }
      match res with
      | none => .ok (ctx.headersCollectDone p job.stashedOK 0)
      | some rev => ctx.headersCollectStage p job.stashedOK rev

/-! ## Unstaging -/

/-- The loop of `headersUnstage`, for at most `fuel` rounds. -/
def headersUnstageLoop [BlockHash] (ctx : BeaconCtx) (p : PeerId) : Nat → Except Defect BeaconCtx
  | 0 => .ok ctx
  | fuel + 1 =>
    if ctx.hdrCache.session.mode = .collecting then
      -- fetch list with largest block numbers
      match ctx.hdr.stagedTop with
      | none => .ok ctx
      | some (key, qItem) =>
        let minNum := (qItem.revHdrs.getLastD {}).number
        let maxNum := (qItem.revHdrs.headD {}).number
        let dangling := ctx.antecedent.number
        if u64 (maxNum + 1) < dangling then
          -- there is a gap, come back later
          if dangling ≤ u64 (ctx.hdr.unprocTotalTop + 1) then .ok ctx
          else .error .gapBelowCache
        else
          let ctx := { ctx with hdr := ctx.hdr.stagedQueueDelete key }
          match ctx.headersStashOnDisk p qItem.revHdrs qItem.peerID with
          | (ctx, none) => .ok { ctx with hdr := ctx.hdr.unprocAppend minNum maxNum }
          | (ctx, some _) => ctx.headersUnstageLoop p fuel
    else .ok ctx

/-- Every round but the last takes an item off the queue. -/
def headersUnstage [BlockHash] (p : PeerId) : Except Defect BeaconCtx :=
  if ctx.hdr.staged.len = 0 then .ok ctx
  else ctx.headersUnstageLoop p (ctx.hdr.staged.len + 1)

/-- `headersStagedReorg`, in pool mode. -/
def headersStagedReorg : BeaconCtx :=
  if ctx.syncState = .headersCancel ∨ ctx.syncState = .headersFinish then
    { ctx with hdr := ctx.hdr.unprocClear.stagedQueueClear, subState := {} }
  else ctx

end BeaconCtx

end Nimbus.Native.Beacon
