import Nimbus.Native.Beacon.Blocks

/-!
# The state machine of the beacon syncer, and its runs

Model of `sync/beacon/worker/update.nim`, of the call-backs of the header cache, and of what
the scheduler `sync_sched.nim` guarantees: `runPool` is called while no worker peer is in
the middle of anything. A run is a list of events in any order: fork choice updates, laps
of the daemon, peers that come and go, peers that start to work, answers and verdicts that
arrive. An event that its guard does not allow changes nothing.
-/

namespace Nimbus.Native.Beacon

open Aristo (Hash32)
open HeaderChainCache

namespace BeaconCtx

variable (ctx : BeaconCtx)

/-- `hdrCache.clear()` -/
def clearHdrCache : Except Defect BeaconCtx :=
  match ctx.hdrCache.clear with
  | .error e => .error (.hdrCache e)
  | .ok hdrCache => .ok { ctx with hdrCache := hdrCache }

/-! ## Activation -/

/-- Activates the syncer for the headers between `b` and `t`, if there are any. -/
def activate (b t : Nat) : Except Defect BeaconCtx :=
  if u64 (b + 1) < t then
    .ok { ctx with
      minInitBuddies := 0
      syncState := .headers
      daemon := true
      hdr := ctx.hdr.unprocSet (u64 (b + 1)) (t - 1)
      subState := { ctx.subState with headNum := t, headHash := ctx.headHash } }
  else ctx.clearHdrCache

/-- `updateActivateSyncer`: if in hibernate mode, accept a cache session. -/
def updateActivateSyncer [BlockHash] : Except Defect BeaconCtx :=
  if ctx.standByMode then .ok ctx
  else if ctx.hibernate = true ∧ ctx.minInitBuddies ≤ (ctx.nSyncPeers : Int) ∧ ctx.initTarget = none then
    match ctx.stopBase with
    | none => ctx.activate ctx.chain.baseNumber ctx.head.number
    | some stopBase =>
      if u64 (1 + stopBase.1.number) < ctx.antecedent.number then
        let ctx := { ctx with hdrCache := ctx.hdrCache.updateBlindStop stopBase }
        ctx.activate stopBase.1.number ctx.head.number
      else
        -- wake up for state change
        .ok { ctx with subState := { ctx.subState with cancelRequest := true }, daemon := true }
  else ctx.clearHdrCache

/-- `headUpdateFromCL`, with the notification of the syncer. -/
def headUpdateFromCL [BlockHash] (h : ChainHeader) (f : Hash32) : Except Defect BeaconCtx :=
  if f = zeroHash32 then .ok ctx
  else if ctx.chain.baseNumber + 1 < h.1.number ∧ ctx.hdrCache.session.mode = .closed then
    match updateActivateSyncer { ctx with hdrCache := ctx.hdrCache.headUpdateFromCL h f } with
    | .error e => .error e
    | .ok ctx => .ok { ctx with consHead := h, finHash := f }
  else .ok { ctx with consHead := h, finHash := f }

/-! ## State transition handlers -/

/-- `idleNext` -/
def idleNext : BeaconState :=
  if ctx.subState.cancelRequest = true ∧ ctx.stopBase.isSome = true then .linger
  else if ctx.hdrCache.session.mode = .collecting then .headers
  else .idle

/-- `headersNext` -/
def headersNext : BeaconState :=
  if ctx.seenData = false ∧
      nFetchHeadersFailedInitialPeersThreshold < ctx.failedPeers.card then .headersCancel
  else if ctx.subState.cancelRequest then .headersCancel
  else if ctx.hdrCache.session.mode = .collecting then .headers
  else if ctx.hdrCache.session.mode = .ready then .headersFinish
  else .headersCancel

/-- `headersCancelNext` -/
def headersCancelNext : BeaconState :=
  if ctx.poolMode then .headersCancel
  else if ctx.stopBase.isSome then .linger
  else .idle

/-- `setupProcessingBlocks` -/
def setupProcessingBlocks : BeaconCtx :=
  let topNum := u64 (ctx.antecedent.number + (2 ^ 64 - 1))
  { ctx with
    failedPeers := ∅
    seenData := false
    subState := { ctx.subState with
      topNum := topNum, headNum := ctx.head.number, headHash := ctx.headHash }
    blk := ctx.blk.unprocSet (u64 (topNum + 1)) ctx.head.number
    marks := [] }

/-- `headersFinishNext` -/
def headersFinishNext : Except Defect (BeaconCtx × BeaconState) :=
  if ctx.poolMode then .ok (ctx, .headersFinish)
  else if ctx.hdrCache.session.mode = .ready then
    match ctx.hdrCache.commit with
    | .error e => .error (.hdrCache e)
    | .ok (hdrCache, .error _) => .ok ({ ctx with hdrCache := hdrCache }, .idle)
    | .ok (hdrCache, .ok ()) =>
      let ctx := { ctx with hdrCache := hdrCache }
      if ctx.stopBase.isSome then .ok (ctx, .linger)
      else .ok (ctx.setupProcessingBlocks, .blocks)
  else .ok (ctx, .idle)

/-- `lingerNext`; the notifier it calls is left out. -/
def lingerNext : BeaconCtx × BeaconState :=
  let ctx :=
    if ctx.hdrCache.session.mode = .orphan then
      { ctx with subState := { ctx.subState with cancelRequest := true } }
    else ctx
  (ctx, if ctx.subState.cancelRequest then .idle else .linger)

/-- `blocksNext` -/
def blocksNext : BeaconState :=
  if ctx.seenData = false ∧
      nFetchBodiesFailedInitialPeersThreshold < ctx.failedPeers.card then .blocksCancel
  else if ctx.subState.cancelRequest then .blocksCancel
  else if ctx.subState.headNum ≤ ctx.subState.topNum then .blocksFinish
  else .blocks

/-- `blocksCancelNext`, and `blocksFinishNext` which does the same. -/
def blocksCancelNext : BeaconState := if ctx.poolMode then .blocksCancel else .idle

/-- What the state handler says, together with what it changes. -/
def nextState : Except Defect (BeaconCtx × BeaconState) :=
  match ctx.syncState with
  | .idle => .ok (ctx, ctx.idleNext)
  | .headers => .ok (ctx, ctx.headersNext)
  | .headersCancel => .ok (ctx, ctx.headersCancelNext)
  | .headersFinish => ctx.headersFinishNext
  | .linger => .ok ctx.lingerNext
  | .blocks => .ok (ctx, ctx.blocksNext)
  | .blocksCancel => .ok (ctx, ctx.blocksCancelNext)
  | .blocksFinish => .ok (ctx, ctx.blocksCancelNext)

/-- `updateSuspendSyncer` -/
def updateSuspendSyncer : Except Defect BeaconCtx :=
  match ctx.clearHdrCache with
  | .error e => .error e
  | .ok ctx =>
    .ok { ctx with
      failedPeers := ∅
      seenData := false
      subState := { ctx.subState with cancelRequest := false }
      daemon := false }

/-- Enters the state `newState`. -/
def enterState (newState : BeaconState) : Except Defect BeaconCtx :=
  let ctx := { ctx with syncState := newState }
  match newState with
  -- these states require synchronisation via `poolMode`
  | .headersCancel | .headersFinish | .blocksCancel | .blocksFinish =>
    .ok { ctx with poolMode := true }
  | .idle => ctx.updateSuspendSyncer
  | _ => .ok ctx

/-- `updateBeaconState` -/
def updateBeaconState : Except Defect BeaconCtx :=
  match ctx.nextState with
  | .error e => .error e
  | .ok (next, newState) =>
    if ctx.syncState = newState then .ok next else next.enterState newState

/-! ## Single runs -/

/-- `singleRun`: trigger a header chain download that ends at `baseHeader`. -/
def singleRun [BlockHash] (baseHeader : ChainHeader) : Except Defect BeaconCtx :=
  if ctx.syncState = .idle then
    match ctx.clearHdrCache with
    | .error e => .error e
    | .ok ctx =>
      let ctx := { ctx with standByMode := false, stopBase := some baseHeader }
      -- trigger last cached FCU update
      ctx.headUpdateFromCL ctx.consHead ctx.finHash
  else .ok ctx

/-- `singleReset`, with `resetSingleRun`. -/
def singleReset : BeaconCtx :=
  if ctx.stopBase.isSome then
    match ctx.syncState with
    | .idle => { ctx with standByMode := true, stopBase := none }
    | .headers => { ctx with subState := { ctx.subState with cancelRequest := true } }
    | .linger =>
      { ctx with
        subState := { ctx.subState with cancelRequest := true }
        standByMode := true, stopBase := none }
    | _ => ctx
  else ctx

/-! ## Pool mode -/

/-- No worker peer is in the middle of anything. -/
def allIdle : Bool := ctx.peers.entries.all fun e => e.2.isIdle

/-- `runPool`; the scheduler resets the flag before. -/
def runPool : BeaconCtx := ({ ctx with poolMode := false }.headersStagedReorg).blocksStagedReorg

end BeaconCtx

/-! ## Runs -/

inductive Event where
  /-- a fork choice update from the `CL`, or a target that was set by hand -/
  | headUpdate (h : ChainHeader) (f : Hash32)
  | resolveFinHash (f : Hash32)
  /-- the `FC` module changes -/
  | forkChoice (chain : ForkedChain)
  /-- `initTarget` is set or reset -/
  | headersTarget (target : Option Hash32)
  /-- one lap of the daemon loop -/
  | daemon
  | runPool
  /-- the scheduler shuts down -/
  | terminate
  | singleRun (baseHeader : ChainHeader)
  | singleReset
  /-- a new process on the same database -/
  | restart (chain : ForkedChain) (minInitBuddies : Int) (standByMode : Bool)
  | connect (p : PeerId) (supportsBal : Bool)
  /-- the peer is told to stop -/
  | disconnect (p : PeerId)
  /-- the worker loop of a stopped peer ends -/
  | leave (p : PeerId)
  | headersCollect (p : PeerId)
  | headersReply (p : PeerId) (rc : Except WireError (List Header)) (elapsed : Nat)
  | headersUnstage (p : PeerId)
  | blocksCollect (p : PeerId)
  | bodiesReply (p : PeerId) (rc : Except WireError (List BlockBody)) (elapsed : Nat)
  | balsReply (p : PeerId) (rc : Except WireError (List (List UInt8))) (elapsed : Nat)
  | importReply (p : PeerId) (verdict : Verdict)
  | blocksUnstage (p : PeerId)

namespace BeaconCtx

variable (ctx : BeaconCtx)

/-- `setupServices` -/
def setup (chain : ForkedChain) (kvt : KvtDb) (minInitBuddies : Int) (standByMode : Bool) :
    Except Defect BeaconCtx :=
  match HeaderChainRef.init chain kvt with
  | .error e => .error (.hdrCache e)
  | .ok hdrCache =>
    .ok { hdrCache := hdrCache, minInitBuddies := minInitBuddies, standByMode := standByMode }

/-- Whether the peer is there, and its worker loop is about to start a lap. -/
def isWaiting (p : PeerId) : Bool := (ctx.peers.lookup p).any (·.isIdle)

variable [BlockHash] [HeaderFields]

/-- What a worker peer does next, or on what comes in. -/
def stepPeer : Event → Except Defect BeaconCtx
  | .headersCollect p =>
    if ctx.isWaiting p && ctx.headersCollectOk p then ctx.headersCollect p else .ok ctx
  | .headersUnstage p => if ctx.isWaiting p then ctx.headersUnstage p else .ok ctx
  | .blocksCollect p =>
    if ctx.isWaiting p && ctx.blocksCollectOk p then ctx.blocksCollect p else .ok ctx
  | .blocksUnstage p => if ctx.isWaiting p then ctx.blocksUnstage p else .ok ctx
  | .headersReply p rc elapsed =>
    match (ctx.buddy p).job with
    | .headers job => ctx.headersCollectResume p job rc elapsed
    | _ => .ok ctx
  | .bodiesReply p rc elapsed =>
    match (ctx.buddy p).job with
    | .bodies job => ctx.bodiesResume p job rc elapsed
    | _ => .ok ctx
  | .balsReply p rc elapsed =>
    match (ctx.buddy p).job with
    | .bals job => ctx.balsResume p job rc elapsed
    | _ => .ok ctx
  | .importReply p verdict =>
    match (ctx.buddy p).job with
    | .importing job => ctx.blocksImportResume p job verdict
    | _ => .ok ctx
  | _ => .ok ctx

def step : Event → Except Defect BeaconCtx
  | .headUpdate h f => ctx.headUpdateFromCL h f
  | .resolveFinHash f => .ok { ctx with hdrCache := ctx.hdrCache.resolveFinHash f }
  | .forkChoice chain => .ok { ctx with hdrCache := { ctx.hdrCache with chain := chain } }
  | .headersTarget target => .ok { ctx with initTarget := target }
  | .daemon => if ctx.daemon then ctx.updateBeaconState else .ok ctx
  | .runPool => .ok (if ctx.poolMode && ctx.allIdle then ctx.runPool else ctx)
  | .terminate => .ok { ctx with daemon := false }
  | .singleRun baseHeader => ctx.singleRun baseHeader
  | .singleReset => .ok ctx.singleReset
  | .restart chain minInitBuddies standByMode =>
    setup chain ctx.hdrCache.kvt minInitBuddies standByMode
  | .connect p supportsBal =>
    .ok (if ctx.peers.lookup p = none ∧ (ctx.seenData = true ∨ p ∉ ctx.failedPeers) then
      { ctx with
        peers := ctx.peers.insert p { supportsBal := supportsBal }
        lastSlowPeer := none }
      else ctx)
  | .disconnect p => .ok { ctx with peers := ctx.peers.modify p (·.stop) }
  | .leave p =>
    .ok (if ctx.isWaiting p && (ctx.buddy p).stopped then
      { ctx with
        peers := ctx.peers.erase p
        lastSlowPeer := if ctx.nSyncPeers ≤ 1 then none else ctx.lastSlowPeer }
      else ctx)
  | event => ctx.stepPeer event

def run (events : List Event) : Except Defect BeaconCtx :=
  events.foldlM (fun ctx event => ctx.step event) ctx

end BeaconCtx

end Nimbus.Native.Beacon
