import Nimbus.ForStd.RangeBooks
import Nimbus.Spec.BeaconHeaderCache
import Nimbus.Spec.BeaconPeers

/-!
# Views of the beacon syncer

The books on headers, the books on blocks and the state machine depend on three different
parts of the descriptor. A view is such a part. What downloads headers does not change the
view of the blocks and the other way round, so that each of the invariants has to be
followed through its own functions only.
-/

namespace Nimbus.Spec.Beacon

open Nimbus.Native.Beacon
open Nimbus.Native.HeaderChainCache Function

/-- The range of a header fetch that waits for its answer. -/
def jobRange : Job → Option PtRange
  | .headers job => some job.iv
  | _ => none

/-- What the books on headers are about. -/
structure HdrView extends RangeBooks HeaderChain where
  asked : Option PtRange
  syncState : BeaconState
  poolMode : Bool
  mode : HeaderChainMode
  /-- the number of the lowest header on the cache -/
  ante : Nat
  fetch : PeerId → Option PtRange

def hdrView (ctx : BeaconCtx) : HdrView where
  unprocessed := ctx.hdr.unprocessed
  borrowed := ctx.hdr.borrowed
  staged := ctx.hdr.staged
  asked := ctx.hdr.asked
  syncState := ctx.syncState
  poolMode := ctx.poolMode
  mode := ctx.hdrCache.session.mode
  ante := ctx.hdrCache.session.ante.number
  fetch p := jobRange (ctx.buddy p).job

/-- `hdrSessionStopped` -/
def HdrView.Stopped (v : HdrView) : Prop :=
  v.poolMode = true ∨ v.syncState ≠ .headers ∨ v.mode ≠ .collecting

/-- What a coroutine waits for in the block download. -/
def blkJob : Job → Job
  | .headers _ => .idle
  | job => job

/-- What the books on blocks are about. -/
structure BlkView extends RangeBooks BlocksForImport where
  asked : Option PtRange
  syncState : BeaconState
  poolMode : Bool
  topNum : Nat
  headNum : Nat
  marks : List ImportMark
  job : PeerId → Job

def blkView (ctx : BeaconCtx) : BlkView where
  unprocessed := ctx.blk.unprocessed
  borrowed := ctx.blk.borrowed
  staged := ctx.blk.staged
  asked := ctx.blk.asked
  syncState := ctx.syncState
  poolMode := ctx.poolMode
  topNum := ctx.subState.topNum
  headNum := ctx.subState.headNum
  marks := ctx.marks
  job p := blkJob (ctx.buddy p).job

/-- The states that wait for the scheduler to bring all peers to a halt. -/
def InPool (state : BeaconState) : Prop :=
  state = .headersCancel ∨ state = .headersFinish ∨ state = .blocksCancel ∨ state = .blocksFinish

/-- What the cache says about its session, unless there is none. -/
structure SessionWf (session : HccSession) : Prop where
  head_pos : 1 ≤ session.head.number
  head_lt : session.head.number + 1 < 2 ^ 64
  ante_pos : 1 ≤ session.ante.number

/-- What the state machine relies on. -/
structure Life (ctx : BeaconCtx) : Prop where
  pool : ctx.poolMode = true → InPool ctx.syncState
  /-- without a session nothing is fetched -/
  closed : ctx.hdrCache.session.mode = .closed → ctx.syncState = .idle ∨ ctx.syncState = .linger
  keyed : Keyed ctx.hdrCache.kvt
  session : ctx.hdrCache.session.mode ≠ .closed → SessionWf ctx.hdrCache.session

variable {ctx ctx' : BeaconCtx} {p : PeerId}

namespace Frame

theorem hdrView_eq (h : Frame ctx ctx') : hdrView ctx' = hdrView ctx := by
  unfold hdrView
  rw [h.hdr, h.syncState, h.poolMode, h.hdrCache, funext fun p => congrArg jobRange (h.job p)]

theorem blkView_eq (h : Frame ctx ctx') : blkView ctx' = blkView ctx := by
  unfold blkView
  rw [h.blk, h.syncState, h.poolMode, h.topNum, h.headNum, h.marks,
    funext fun p => congrArg blkJob (h.job p)]

theorem life (h : Frame ctx ctx') (hl : Life ctx) : Life ctx' where
  pool := by rw [h.poolMode, h.syncState]; exact hl.pool
  closed := by rw [h.hdrCache, h.syncState]; exact hl.closed
  keyed := by rw [h.hdrCache]; exact hl.keyed
  session := by rw [h.hdrCache]; exact hl.session

end Frame

theorem hdrView_setJob (ctx : BeaconCtx) (p : PeerId) (job : Job) :
    hdrView (ctx.setJob p job) =
      { hdrView ctx with fetch := update (hdrView ctx).fetch p (jobRange job) } := by
  have hfetch : (fun q => jobRange ((ctx.setJob p job).buddy q).job) =
      update (fun q => jobRange (ctx.buddy q).job) p (jobRange job) := by
    funext q
    rw [job_setJob]
    by_cases hq : q = p
    · rw [if_pos hq, hq, update_self]
    · rw [if_neg hq, update_of_ne hq]
  unfold hdrView
  rw [hfetch]
  rfl

theorem blkView_setJob (ctx : BeaconCtx) (p : PeerId) (job : Job) :
    blkView (ctx.setJob p job) =
      { blkView ctx with job := update (blkView ctx).job p (blkJob job) } := by
  have hjob : (fun q => blkJob ((ctx.setJob p job).buddy q).job) =
      update (fun q => blkJob (ctx.buddy q).job) p (blkJob job) := by
    funext q
    rw [job_setJob]
    by_cases hq : q = p
    · rw [if_pos hq, hq, update_self]
    · rw [if_neg hq, update_of_ne hq]
  unfold blkView
  rw [hjob]
  rfl

theorem blkView_setJob_same {job : Job} (h : blkJob (ctx.buddy p).job = blkJob job) :
    blkView (ctx.setJob p job) = blkView ctx := by
  rw [blkView_setJob, ← h]
  show { blkView ctx with job := update (blkView ctx).job p ((blkView ctx).job p) } = _
  rw [update_eq_self]

theorem hdrView_setJob_same {job : Job} (h : jobRange (ctx.buddy p).job = jobRange job) :
    hdrView (ctx.setJob p job) = hdrView ctx := by
  rw [hdrView_setJob, ← h]
  show { hdrView ctx with fetch := update (hdrView ctx).fetch p ((hdrView ctx).fetch p) } = _
  rw [update_eq_self]

theorem setJob_life (job : Job) (h : Life ctx) : Life (ctx.setJob p job) :=
  ⟨h.pool, h.closed, h.keyed, h.session⟩

end Nimbus.Spec.Beacon
