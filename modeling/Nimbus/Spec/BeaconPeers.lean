import Nimbus.Native.Beacon.Update
import Nimbus.Spec.BeaconUnproc

/-!
# What the evaluation of an answer leaves alone

Registering errors, banning a peer and remembering failed requests changes the descriptor of
a peer, but neither the books on block numbers nor what any coroutine is waiting for. `Frame`
says this of two descriptors; all functions of `Native.Beacon.Fetch` keep it.
-/

namespace Nimbus.Spec.Beacon

open Nimbus.Native.Beacon
open Nimbus.Native.Beacon.BeaconCtx
open Nimbus.Native.HeaderChainCache
open Nimbus.Native.Aristo (Hash32)
open BeaconCtx

/-- The two descriptors have the same books, and the same coroutines. -/
structure Frame (ctx ctx' : BeaconCtx) : Prop where
  hdr : ctx'.hdr = ctx.hdr
  blk : ctx'.blk = ctx.blk
  syncState : ctx'.syncState = ctx.syncState
  poolMode : ctx'.poolMode = ctx.poolMode
  hdrCache : ctx'.hdrCache = ctx.hdrCache
  topNum : ctx'.subState.topNum = ctx.subState.topNum
  headNum : ctx'.subState.headNum = ctx.subState.headNum
  marks : ctx'.marks = ctx.marks
  job : ∀ p, (ctx'.buddy p).job = (ctx.buddy p).job

namespace Frame

variable {ctx ctx' ctx'' : BeaconCtx}

theorem refl (ctx : BeaconCtx) : Frame ctx ctx :=
  ⟨rfl, rfl, rfl, rfl, rfl, rfl, rfl, rfl, fun _ => rfl⟩

theorem trans (h : Frame ctx ctx') (h' : Frame ctx' ctx'') : Frame ctx ctx'' where
  hdr := h'.hdr.trans h.hdr
  blk := h'.blk.trans h.blk
  syncState := h'.syncState.trans h.syncState
  poolMode := h'.poolMode.trans h.poolMode
  hdrCache := h'.hdrCache.trans h.hdrCache
  topNum := h'.topNum.trans h.topNum
  headNum := h'.headNum.trans h.headNum
  marks := h'.marks.trans h.marks
  job p := (h'.job p).trans (h.job p)

end Frame

variable {ctx : BeaconCtx} {p : PeerId} {f : BeaconPeer → BeaconPeer}

/-! ## Single peers -/

theorem buddy_modifyPeer (f : BeaconPeer → BeaconPeer) (q : PeerId) :
    (ctx.modifyPeer p f).buddy q = if q = p then f (ctx.buddy p) else ctx.buddy q := by
  unfold modifyPeer buddy
  rw [Table.lookup_insert']
  split
  · rfl
  · rfl

theorem job_setJob (job : Job) (q : PeerId) :
    ((ctx.setJob p job).buddy q).job = if q = p then job else (ctx.buddy q).job := by
  unfold setJob
  rw [buddy_modifyPeer]
  split
  · rfl
  · rfl

theorem modifyPeer_frame (hf : ∀ buddy, (f buddy).job = buddy.job) :
    Frame ctx (ctx.modifyPeer p f) where
  hdr := rfl
  blk := rfl
  syncState := rfl
  poolMode := rfl
  hdrCache := rfl
  topNum := rfl
  headNum := rfl
  marks := rfl
  job q := by
    rw [buddy_modifyPeer]
    split
    · next h => rw [hf, h]
    · rfl

theorem modifyTable_frame (hf : ∀ buddy, (f buddy).job = buddy.job) :
    Frame ctx { ctx with peers := ctx.peers.modify p f } where
  hdr := rfl
  blk := rfl
  syncState := rfl
  poolMode := rfl
  hdrCache := rfl
  topNum := rfl
  headNum := rfl
  marks := rfl
  job q := by
    unfold buddy
    rw [Table.lookup_modify]
    split
    · next h =>
      subst h
      cases ctx.peers.lookup q with
      | none => rfl
      | some buddy => exact hf buddy
    · rfl

theorem modifySyncPeer_frame {q : PeerId}
    (hf : ∀ buddy, (f buddy).job = buddy.job) : Frame ctx (ctx.modifySyncPeer p q f) := by
  apply modifyTable_frame
  intro buddy
  split
  · exact hf buddy
  · rfl

theorem lastSlowPeer_frame (ctx : BeaconCtx) (peer : Option PeerId) :
    Frame ctx { ctx with lastSlowPeer := peer } :=
  ⟨rfl, rfl, rfl, rfl, rfl, rfl, rfl, rfl, fun _ => rfl⟩

theorem registerProcFail_frame (num errThreshold : Nat) :
    Frame ctx (ctx.registerProcFail num errThreshold) := by
  unfold registerProcFail
  split
  · exact ⟨rfl, rfl, rfl, rfl, rfl, rfl, rfl, rfl, fun _ => rfl⟩
  · exact ⟨rfl, rfl, rfl, rfl, rfl, rfl, rfl, rfl, fun _ => rfl⟩

/-! ## Evaluating an answer -/

theorem fetchRegisterError_frame (kind : FetchKind) (slowPeer forceZombie : Bool) :
    Frame ctx (ctx.fetchRegisterError p kind slowPeer forceZombie) := by
  unfold fetchRegisterError
  have hinc : Frame ctx (ctx.modifyPeer p (·.incFetchErrors kind)) :=
    modifyPeer_frame fun _ => rfl
  dsimp only
  split
  · split
    · exact hinc.trans (lastSlowPeer_frame _ _)
    · exact hinc.trans (modifyPeer_frame fun _ => rfl)
  · exact hinc

theorem maybeSlowPeerError_frame (key : FetchKey) (elapsed : Nat) :
    Frame ctx (ctx.maybeSlowPeerError p key elapsed).1 := by
  unfold maybeSlowPeerError
  split
  · apply (fetchRegisterError_frame (p := p) key.kind true false).trans
    dsimp only
    apply modifyPeer_frame
    intro buddy
    rfl
  · exact Frame.refl ctx

theorem slowOrError_frame (key : FetchKey) (elapsed : Nat) :
    Frame ctx (ctx.slowOrError p key elapsed) := by
  unfold slowOrError
  have hslow : Frame ctx (ctx.maybeSlowPeerError p key elapsed).1 :=
    maybeSlowPeerError_frame key elapsed
  dsimp only
  split
  · exact hslow
  · exact hslow.trans (fetchRegisterError_frame _ _ _)

/-- The checks change no book, and what passes is a list of the right length. -/
theorem fetchEval_frame {α : Type} (ctx : BeaconCtx) (p : PeerId) (key : FetchKey) (nReq : Nat)
    (rc : Except WireError (List α)) (elapsed : Nat) :
    Frame ctx (ctx.fetchEval p key nReq rc elapsed).1 ∧
      ∀ items, (ctx.fetchEval p key nReq rc elapsed).2 = .ok items →
        items ≠ [] ∧ items.length ≤ nReq := by
  unfold fetchEval
  split
  · exact ⟨Frame.refl ctx, fun _ h => nomatch h⟩
  · split
    · exact ⟨slowOrError_frame _ _, fun _ h => nomatch h⟩
    · exact ⟨fetchRegisterError_frame _ _ _, fun _ h => nomatch h⟩
    · refine ⟨?_, fun _ h => nomatch h⟩
      dsimp only
      apply modifyPeer_frame
      intro buddy
      rfl
    · next items =>
      split
      · exact ⟨slowOrError_frame _ _, fun _ h => nomatch h⟩
      · split
        · exact ⟨fetchRegisterError_frame _ _ _, fun _ h => nomatch h⟩
        · next hlen =>
          split
          · exact ⟨maybeSlowPeerError_frame _ _, fun _ h => nomatch h⟩
          · next hne =>
            refine ⟨Frame.refl ctx, ?_⟩
            intro items' h
            obtain rfl := Except.ok.inj h
            exact ⟨fun hnil => hne (congrArg List.length hnil), not_lt.mp hlen⟩

theorem fetchDone_frame (key : FetchKey) (elapsed : Nat) :
    Frame ctx (ctx.fetchDone p key elapsed) := by
  unfold fetchDone
  have hclear : Frame ctx (ctx.modifyPeer p fun buddy =>
      { buddy with failedReq := key.clearFailed buddy.failedReq }) := modifyPeer_frame fun _ => rfl
  split
  · exact hclear.trans (fetchRegisterError_frame _ _ _)
  · have hreset : Frame _ (modifyPeer (ctx.modifyPeer p fun buddy =>
        { buddy with failedReq := key.clearFailed buddy.failedReq }) p
          (·.setFetchErrors key.kind 0)) := modifyPeer_frame fun _ => rfl
    exact hclear.trans (hreset.trans (lastSlowPeer_frame _ _))

/-- Headers that passed are at most as many as were asked for, from the top of the range. -/
theorem fetchHeadersReversed_spec (ctx : BeaconCtx) (p : PeerId) (iv : PtRange)
    (rc : Except WireError (List Header)) (elapsed : Nat) :
    Frame ctx (ctx.fetchHeadersReversed p iv rc elapsed).1 ∧
      ∀ rev, (ctx.fetchHeadersReversed p iv rc elapsed).2 = .ok rev →
        rev ≠ [] ∧ rev.length ≤ len64 iv := by
  unfold fetchHeadersReversed
  have heval := fetchEval_frame ctx p (.number iv.maxPt) (len64 iv) rc elapsed
  dsimp only
  generalize ctx.fetchEval p (.number iv.maxPt) (len64 iv) rc elapsed = res at heval
  obtain ⟨ctx', res⟩ := res
  cases res with
  | error e => exact ⟨heval.1, fun _ h => by cases h⟩
  | ok h =>
    dsimp only
    split
    · exact ⟨heval.1.trans (fetchRegisterError_frame _ _ _), fun _ h => by cases h⟩
    · refine ⟨heval.1.trans (fetchDone_frame _ _), ?_⟩
      intro rev hrev
      obtain rfl := Except.ok.inj hrev
      exact heval.2 h rfl

theorem fetchBodies_spec {blockHashes : List Hash32} (hne : blockHashes ≠ [])
    (rc : Except WireError (List BlockBody)) (elapsed : Nat) :
    ∃ ctx' res, ctx.fetchBodies p blockHashes rc elapsed = .ok (ctx', res) ∧ Frame ctx ctx' ∧
      ∀ bodies, res = some bodies → bodies ≠ [] ∧ bodies.length ≤ blockHashes.length := by
  obtain ⟨hash, rest, rfl⟩ := List.exists_cons_of_ne_nil hne
  unfold fetchBodies
  have heval := fetchEval_frame ctx p (.bdyHash hash) (hash :: rest).length rc
    elapsed
  dsimp only
  generalize ctx.fetchEval p (.bdyHash hash) (hash :: rest).length rc elapsed = res at heval
  obtain ⟨ctx', res⟩ := res
  cases res with
  | error e => exact ⟨ctx', none, rfl, heval.1, fun _ h => nomatch h⟩
  | ok b =>
    refine ⟨_, some b, rfl, heval.1.trans (fetchDone_frame _ _), ?_⟩
    intro bodies h
    obtain rfl := Option.some.inj h
    exact heval.2 b rfl

theorem fetchBlockAccessListsSome_spec (ctx : BeaconCtx) (p : PeerId)
    {blockHashes : List Hash32} {startInx : Nat} (hlt : startInx < blockHashes.length)
    (rc : Except WireError (List (List UInt8))) (elapsed : Nat) :
    ∃ ctx' res, ctx.fetchBlockAccessListsSome p blockHashes startInx rc elapsed = .ok (ctx', res) ∧
      Frame ctx ctx' := by
  unfold fetchBlockAccessListsSome
  cases hdrop : blockHashes.drop startInx with
  | nil =>
    have hle := List.drop_eq_nil_iff.mp hdrop
    omega
  | cons hash rest =>
    have heval := fetchEval_frame ctx p (.balHash hash) (rest.length + 1) rc elapsed
    dsimp only
    generalize ctx.fetchEval p (.balHash hash) (rest.length + 1) rc elapsed = res at heval
    obtain ⟨ctx', res⟩ := res
    cases res with
    | error e => exact ⟨ctx', none, rfl, heval.1⟩
    | ok b => exact ⟨_, some b, rfl, heval.1.trans (fetchDone_frame _ _)⟩

end Nimbus.Spec.Beacon
