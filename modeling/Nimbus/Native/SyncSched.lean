import Nimbus.ForStd.RecencyMap
import Nimbus.Native.Beacon.Desc

/-!
# The scheduler of the sync workers

Model of `workerLoop` in `execution_chain/sync/sync_sched.nim`. A loop gives up control at an
`await` only, so a step here is all that one loop does from an `await` to the next one. The methods
of the application are parameters: they reach the shared state and no field of the scheduler that
is private to it. Between two steps everything but the private fields may have changed.
-/

namespace Nimbus.Native.SyncSched

open Beacon (SyncPeerRunState)

abbrev WorkerId := Nat
abbrev Hash := Nat
abbrev IpAddress := Nat
abbrev Port := Nat
abbrev Moment := Nat

inductive RunCtrl where
  | uninitialised
  | shutdown
  | allRunning
  | standByMode
  | terminated
  deriving DecidableEq

/-- `CtrlDownStates` -/
def RunCtrl.isDown : RunCtrl → Bool
  | .uninitialised | .shutdown | .terminated => true
  | .allRunning | .standByMode => false

def execPoolModeLoopMax : Nat := 100

structure Peer where
  key : Hash
  ip : IpAddress
  tcpPort : Port
  udpPort : Port

/-- What the methods of the application reach: their own state, the flag for the pool mode, the
run state of the scheduler and the states of the workers. -/
structure Shared (S : Type) where
  pool : S
  poolMode : Bool
  runCtrl : RunCtrl
  ctrl : WorkerId → SyncPeerRunState

def Shared.stop {S : Type} (s : Shared S) (i : WorkerId) : Shared S :=
  { s with ctrl := Function.update s.ctrl i (s.ctrl i).stop }

/-- The methods that a loop calls without an `await`. -/
class SyncApp (S : Type) where
  runPool : Shared S → WorkerId → (last : Bool) → (laps : Nat) → Bool × Shared S
  runStop : Shared S → WorkerId → Shared S
  /-- starting the loop of the ticker, up to its first `await` -/
  tickerLoop : Shared S → Bool × Shared S

export SyncApp (runPool runStop tickerLoop)

/-- Where a loop stands: before its start, at one of its `await`s, or behind its end. The loop that
has control is `running`. -/
inductive Await where
  | idle
  | running
  /-- waits with the monitor lock until no `runPeer()` is active -/
  | lockWait
  | runPeer
  | loopSleep
  | ended
  deriving DecidableEq

structure RunnerSync (S : Type) where
  shared : Shared S
  syncPeers : RecencyMap Hash WorkerId
  zombies : RecencyMap Hash Moment
  orphans : RecencyMap Hash WorkerId
  peerByIP : RecencyMap IpAddress (List Port)
  tickerRunning : Bool
  /-- monitor mode is activated -/
  monitorLock : Bool
  /-- number of workers that are active -/
  activeMulti : Int
  /-- the peer of each worker, which never changes -/
  peer : WorkerId → Peer
  place : WorkerId → Await

/-- A call of `runPool()`, and the state in which it is made. -/
structure PoolCall (S : Type) where
  dsc : RunnerSync S
  worker : WorkerId
  last : Bool
  laps : Nat

section
variable {S : Type} [SyncApp S]

variable (dsc : RunnerSync S) (i : WorkerId)

def RunnerSync.goto (await : Await) : RunnerSync S :=
  { dsc with place := Function.update dsc.place i await }

/-- `isActive` -/
def isActive : Bool :=
  dsc.shared.ctrl i = .running ∧ ¬ dsc.shared.runCtrl.isDown

def unregisterByIP (peer : Peer) : RunnerSync S :=
  match dsc.peerByIP.peek peer.ip with
  | none => dsc
  | some ports =>
    let left := ports.filter fun port => port ≠ peer.tcpPort ∧ port ≠ peer.udpPort
    if left.length = 0 then { dsc with peerByIP := dsc.peerByIP.erase peer.ip }
    else if left.length ≠ ports.length then
      { dsc with peerByIP := dsc.peerByIP.put peer.ip left }
    else dsc

/-- What is behind the block of the loop. -/
def endLoop (now : Moment) : RunnerSync S :=
  let peer := dsc.peer i
  let dsc := { dsc with shared := runStop dsc.shared i }
  let dsc := if dsc.shared.ctrl i = .zombieStop ∨ dsc.shared.ctrl i = .zombieRun then
      { dsc with zombies := dsc.zombies.put peer.key now }
    else dsc
  let dsc := unregisterByIP dsc peer
  { dsc with
    syncPeers := dsc.syncPeers.erase peer.key
    orphans := dsc.orphans.erase peer.key
    place := Function.update dsc.place i .ended }

/-- The end of the body of the loop, from the check for a shutdown to the sleep. -/
def loopEnd (now : Moment) : RunnerSync S :=
  if dsc.shared.runCtrl.isDown then endLoop { dsc with shared := dsc.shared.stop i } i now
  else
    let dsc := if dsc.tickerRunning then dsc
      else
        let (tickerRunning, shared) := tickerLoop dsc.shared
        { dsc with tickerRunning, shared }
    if dsc.shared.ctrl i ≠ .running then endLoop dsc i now
    else dsc.goto i .loopSleep

def call (w : WorkerId) (last : Bool) (laps : Nat) : Bool × RunnerSync S × PoolCall S :=
  let (stop, shared) := runPool dsc.shared w last laps
  (stop, { dsc with shared }, ⟨dsc, w, last, laps⟩)

/-- How the loop over the peers ends: with a last item or without one, or by a shutdown. -/
inductive RoundEnd where
  | delayed (w : Option WorkerId)
  | shutdown

/-- The loop over the peers, which calls `runPool()` for the item before. -/
def poolPeers (laps : Nat) : List WorkerId → Option WorkerId → RunnerSync S →
    RunnerSync S × List (PoolCall S) × RoundEnd
  | [], delayed, dsc => (dsc, [], .delayed delayed)
  | w :: ws, none, dsc =>
    if dsc.shared.runCtrl.isDown then (dsc, [], .shutdown) else poolPeers laps ws (some w) dsc
  | w :: ws, some d, dsc =>
    let (stop, dsc, made) := call dsc d false laps
    if stop then (dsc, [made], .delayed none)
    else if dsc.shared.runCtrl.isDown then (dsc, [made], .shutdown)
    else
      let (dsc, calls, roundEnd) := poolPeers laps ws (some w) dsc
      (dsc, made :: calls, roundEnd)

/-- A round over the peers. The result says whether the rounds go on, or a shutdown is seen. -/
def poolRound (laps : Nat) (dsc : RunnerSync S) : RunnerSync S × List (PoolCall S) × Option Bool :=
  let dsc := { dsc with shared := { dsc.shared with poolMode := false } }
  match poolPeers laps dsc.syncPeers.values none dsc with
  | (dsc, calls, .shutdown) => (dsc, calls, none)
  | (dsc, calls, .delayed none) => (dsc, calls, some dsc.shared.poolMode)
  | (dsc, calls, .delayed (some d)) =>
    let (_, dsc, made) := call dsc d true laps
    (dsc, calls ++ [made], some dsc.shared.poolMode)

/-- The rounds from `laps` on, `n` of them at most, and whether a shutdown ended them. -/
def poolRounds : (n laps : Nat) → RunnerSync S → RunnerSync S × List (PoolCall S) × Bool
  | 0, _, dsc => (dsc, [], false)
  | n + 1, laps, dsc =>
    match poolRound laps dsc with
    | (dsc, calls, none) => (dsc, calls, true)
    | (dsc, calls, some false) => (dsc, calls, false)
    | (dsc, calls, some true) =>
      let (dsc, more, down) := poolRounds n (laps + 1) dsc
      (dsc, calls ++ more, down)

/-- With the lock: the rounds if nothing is active, and another sleep otherwise. -/
def withLock (now : Moment) : RunnerSync S × List (PoolCall S) :=
  if 0 < dsc.activeMulti then (dsc.goto i .lockWait, [])
  else
    let (dsc, calls, down) := poolRounds execPoolModeLoopMax 0 dsc
    let dsc := { dsc with monitorLock := false }
    (if down then endLoop dsc i now else loopEnd dsc i now, calls)

/-- The body of the loop, from its condition on. -/
def loopBody (now : Moment) : RunnerSync S × List (PoolCall S) :=
  if ¬ isActive dsc i then (endLoop dsc i now, [])
  else if dsc.monitorLock then (loopEnd dsc i now, [])
  else if dsc.shared.poolMode then withLock { dsc with monitorLock := true } i now
  else if dsc.shared.runCtrl = .standByMode then (loopEnd dsc i now, [])
  else
    let dsc := { dsc with
      syncPeers := (dsc.syncPeers.get (dsc.peer i).key).2
      activeMulti := dsc.activeMulti + 1 }
    (dsc.goto i .runPeer, [])

/-- What happens next. -/
inductive Action (S : Type) where
  /-- the loop of a new worker is started -/
  | spawn (i : WorkerId) (now : Moment)
  /-- the sleep with the lock is over, or cancelled -/
  | lockWoken (i : WorkerId) (cancelled : Bool) (now : Moment)
  /-- `runPeer()` returns -/
  | peerReturns (i : WorkerId) (now : Moment)
  /-- the sleep at the end of the loop is over, or cancelled -/
  | loopWoken (i : WorkerId) (cancelled : Bool) (now : Moment)
  /-- other tasks change what is not private to the loops: the `runPeer()`s on their way, the
  ticker, the daemon, connecting and disconnecting peers, and starting and stopping; a worker is
  listed under the key of its peer -/
  | others (shared : Shared S) (syncPeers : RecencyMap Hash WorkerId)
      (zombies : RecencyMap Hash Moment) (orphans : RecencyMap Hash WorkerId)
      (peerByIP : RecencyMap IpAddress (List Port)) (tickerRunning : Bool)

/-- One step, with the calls of `runPool()` in it, if the action is possible. -/
def step : Action S → Option (RunnerSync S × List (PoolCall S))
  | .spawn i now =>
    if dsc.place i = .idle then some (loopBody (dsc.goto i .running) i now) else none
  | .lockWoken i cancelled now =>
    if dsc.place i = .lockWait then
      let dsc := dsc.goto i .running
      if cancelled ∨ ¬ isActive dsc i then
        some (endLoop { dsc with monitorLock := false } i now, [])
      else some (withLock dsc i now)
    else none
  | .peerReturns i now =>
    if dsc.place i = .runPeer then
      let dsc := dsc.goto i .running
      some (loopEnd { dsc with activeMulti := dsc.activeMulti - 1 } i now, [])
    else none
  | .loopWoken i cancelled now =>
    if dsc.place i = .loopSleep then
      let dsc := dsc.goto i .running
      if cancelled then some (endLoop dsc i now, [])
      else if dsc.shared.runCtrl.isDown then
        some (endLoop { dsc with shared := dsc.shared.stop i } i now, [])
      else some (loopBody dsc i now)
    else none
  | .others shared syncPeers zombies orphans peerByIP tickerRunning =>
    if ∀ entry ∈ syncPeers.items, entry.1 = (dsc.peer entry.2).key then
      some ({ dsc with shared, syncPeers, zombies, orphans, peerByIP, tickerRunning }, [])
    else none

end

end Nimbus.Native.SyncSched
