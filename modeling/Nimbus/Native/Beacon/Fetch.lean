import Nimbus.Native.Beacon.Unproc

/-!
# Evaluating what a peer answers

Model of the parts of `headers_fetch.nim`, `blocks_fetch_body.nim` and
`blocks_fetch_bal.nim` after the `await`, and of the error registers they use in
`headers_helpers.nim` and `blocks_helpers.nim`. The three are alike but for the counter they
use and for how they remember a request that failed, so they are one definition with the
`FetchKey` of the request.
-/

namespace Nimbus.Native.Beacon

open Aristo (Hash32)
open HeaderChainCache

/-! ## Error registers -/

def FetchErrors.get (e : FetchErrors) : FetchKind → Nat
  | .hdr => e.hdr
  | .bdy => e.bdy
  | .bal => e.bal

def FetchErrors.set (e : FetchErrors) (n : Nat) : FetchKind → FetchErrors
  | .hdr => { e with hdr := n }
  | .bdy => { e with bdy := n }
  | .bal => { e with bal := n }

def FetchKind.nErrThreshold : FetchKind → Nat
  | .hdr => nFetchHeadersErrThreshold
  | .bdy => nFetchBodiesErrThreshold
  | .bal => nFetchBalsErrThreshold

namespace BeaconPeer

variable (buddy : BeaconPeer)

def setFetchErrors (kind : FetchKind) (n : Nat) : BeaconPeer :=
  { buddy with nErrors := { buddy.nErrors with fetch := buddy.nErrors.fetch.set n kind } }

/-- `nErrors.fetch.xxx.inc` -/
def incFetchErrors (kind : FetchKind) : BeaconPeer :=
  buddy.setFetchErrors kind (u8 (buddy.nErrors.fetch.get kind + 1))

/-- `nErrors.apply.hdr = n` -/
def setApplyHdr (n : Nat) : BeaconPeer :=
  { buddy with nErrors := { buddy.nErrors with apply := { buddy.nErrors.apply with hdr := n } } }

/-- `nErrors.apply.blk = n` -/
def setApplyBlk (n : Nat) : BeaconPeer :=
  { buddy with nErrors := { buddy.nErrors with apply := { buddy.nErrors.apply with blk := n } } }

/-- `updateErrorState` -/
def updateErrorState : BeaconPeer :=
  if (0 < buddy.nErrors.fetch.hdr ∨ 0 < buddy.nErrors.apply.hdr) ∧ buddy.stopped = true ∨
      nFetchHeadersErrThreshold < buddy.nErrors.fetch.hdr ∨
      nStashHeadersErrThreshold < buddy.nErrors.apply.hdr then
    -- make sure that this peer does not immediately reconnect
    buddy.zombify
  else buddy

/-- `hdrProcRegisterError` -/
def hdrProcRegisterError : BeaconPeer :=
  (buddy.setApplyHdr (u8 (buddy.nErrors.apply.hdr + 1))).updateErrorState

end BeaconPeer

/-- What a failed request is remembered by. -/
inductive FetchKey where
  | number (bn : Nat)
  | bdyHash (hash : Hash32)
  | balHash (hash : Hash32)

namespace FetchKey

def kind : FetchKey → FetchKind
  | number _ => .hdr
  | bdyHash _ => .bdy
  | balHash _ => .bal

/-- Whether the same request was tried and took too long. A zero block number stands for a
header that is fetched by hash, only. -/
def hasFailed (req : PeerFirstFetchReq) : FetchKey → Bool
  | number bn => req.blockNumber = bn && bn ≠ 0
  | bdyHash hash => req.bdyHash = hash
  | balHash hash => req.balHash = hash

def setFailed (req : PeerFirstFetchReq) : FetchKey → PeerFirstFetchReq
  | number bn => { req with blockNumber := bn }
  | bdyHash hash => { req with bdyHash := hash }
  | balHash hash => { req with balHash := hash }

def clearFailed (req : PeerFirstFetchReq) : FetchKey → PeerFirstFetchReq
  | number _ => { req with blockNumber := 0 }
  | bdyHash _ => { req with bdyHash := zeroHash32 }
  | balHash _ => { req with balHash := zeroHash32 }

end FetchKey

namespace BeaconCtx

variable (ctx : BeaconCtx)

variable (p : PeerId)

/-- `hdrFetchRegisterError`, `bdyFetchRegisterError` and `balFetchRegisterError` -/
def fetchRegisterError (kind : FetchKind) (slowPeer forceZombie : Bool) : BeaconCtx :=
  let ctx := ctx.modifyPeer p (·.incFetchErrors kind)
  if kind.nErrThreshold < (ctx.buddy p).nErrors.fetch.get kind then
    if forceZombie = false ∧ ctx.nSyncPeers = 1 ∧ slowPeer = true then
      -- the last peer can keep on downloading
      { ctx with lastSlowPeer := some p }
    else ctx.modifyPeer p (·.zombify)
  else ctx

/-- `maybeSlowPeerError` -/
def maybeSlowPeerError (key : FetchKey) (elapsed : Nat) : BeaconCtx × Bool :=
  if fetchErrTimeout ≤ elapsed then
    let ctx := ctx.fetchRegisterError p key.kind true false
    -- do not repeat the same time-consuming failed request
    (ctx.modifyPeer p fun buddy => { buddy with failedReq := key.setFailed buddy.failedReq }, true)
  else (ctx, false)

/-- `if not buddy.maybeSlowPeerError(..): buddy.xxxFetchRegisterError()` -/
def slowOrError (key : FetchKey) (elapsed : Nat) : BeaconCtx :=
  let (ctx, slow) := ctx.maybeSlowPeerError p key elapsed
  if slow then ctx else ctx.fetchRegisterError p key.kind false false

/-- The checks of an answer to a request for `nReq` items. -/
def fetchEval {α : Type} (p : PeerId) (key : FetchKey) (nReq : Nat)
    (rc : Except WireError (List α)) (elapsed : Nat) : BeaconCtx × Except ErrorType (List α) :=
  if key.hasFailed (ctx.buddy p).failedReq then (ctx, .error .EAlreadyTriedAndFailed)
  else
    match rc with
    | .error .generic => (ctx.slowOrError p key elapsed, .error .EGeneric)
    | .error .catchable =>
      (ctx.fetchRegisterError p key.kind false false, .error .ECatchableError)
    | .error e => (ctx.modifyPeer p fun buddy => (buddy.incFetchErrors key.kind).zombify, .error e.excp)
    | .ok items =>
      if (ctx.buddy p).stopped then (ctx.slowOrError p key elapsed, .error .EGeneric)
      else if nReq < items.length then
        -- bogus peer returning additional rubbish
        (ctx.fetchRegisterError p key.kind false true, .error .EGeneric)
      else if items.length = 0 then
        ((ctx.maybeSlowPeerError p key elapsed).1, .error .ENoDataAvailable)
      else (ctx, .ok items)

/-- What is registered for an answer that passed the checks. -/
def fetchDone (key : FetchKey) (elapsed : Nat) : BeaconCtx :=
  let ctx := ctx.modifyPeer p fun buddy =>
    { buddy with failedReq := key.clearFailed buddy.failedReq }
  if fetchErrTimeout < elapsed then ctx.fetchRegisterError p key.kind true false
  else
    { ctx.modifyPeer p (·.setFetchErrors key.kind 0) with lastSlowPeer := none }

/-- `fetchHeadersReversed` -/
def fetchHeadersReversed (ivReq : PtRange) (rc : Except WireError (List Header))
    (elapsed : Nat) : BeaconCtx × Except ErrorType (List Header) :=
  let key := FetchKey.number ivReq.maxPt
  match ctx.fetchEval p key (len64 ivReq) rc elapsed with
  | (ctx, .error e) => (ctx, .error e)
  | (ctx, .ok h) =>
    let first := (h.headD {}).number
    if first ≠ ivReq.maxPt ∧ ivReq.maxPt ≠ 0 ∨ first = 0 then
      (ctx.fetchRegisterError p .hdr false true, .error .EValidationError)
    else (ctx.fetchDone p key elapsed, .ok h)

/-- `fetchBodies` -/
def fetchBodies (blockHashes : List Hash32) (rc : Except WireError (List BlockBody))
    (elapsed : Nat) : Except Defect (BeaconCtx × Option (List BlockBody)) :=
  match blockHashes with
  | [] => .error .emptyRequest
  | startHash :: _ =>
    let key := FetchKey.bdyHash startHash
    match ctx.fetchEval p key blockHashes.length rc elapsed with
    | (ctx, .error _) => .ok (ctx, none)
    | (ctx, .ok b) => .ok (ctx.fetchDone p key elapsed, some b)

/-- `fetchBlockAccessListsSome`, from the request `startInx` on -/
def fetchBlockAccessListsSome (blockHashes : List Hash32) (startInx : Nat)
    (rc : Except WireError (List (List UInt8))) (elapsed : Nat) :
    Except Defect (BeaconCtx × Option (List (List UInt8))) :=
  match blockHashes.drop startInx with
  | [] => .error .startInx
  | startHash :: rest =>
    let key := FetchKey.balHash startHash
    match ctx.fetchEval p key (rest.length + 1) rc elapsed with
    | (ctx, .error _) => .ok (ctx, none)
    | (ctx, .ok b) => .ok (ctx.fetchDone p key elapsed, some b)

end BeaconCtx

end Nimbus.Native.Beacon
