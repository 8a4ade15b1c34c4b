import Nimbus.Spec.BeaconBooks

/-!
# Header downloads keep the books

Each function of the header download is followed from one `await` to the next. No assertion
fires on the way, the books are right again at the end of it, and the blocks and the state
machine are left alone (`HdrKeeps`).
-/

namespace Nimbus.Spec.Beacon

open Nimbus.Native.Beacon
open Nimbus.Native.Beacon.BeaconCtx
open Nimbus.Native.HeaderChainCache
open Nimbus.Spec.HeaderChainCache (ModeAfter)
open BeaconCtx Function

variable {ctx ctx' ctx'' : BeaconCtx} {p : PeerId} {bottom : Nat} {iv : PtRange}

/-- What the header download does not touch. -/
structure HdrKeeps (ctx ctx' : BeaconCtx) : Prop where
  blk : blkView ctx' = blkView ctx
  asked : ctx'.hdr.asked = ctx.hdr.asked
  life : Life ctx → Life ctx'

namespace HdrKeeps

theorem refl (ctx : BeaconCtx) : HdrKeeps ctx ctx := ⟨rfl, rfl, id⟩

theorem trans (h : HdrKeeps ctx ctx') (h' : HdrKeeps ctx' ctx'') : HdrKeeps ctx ctx'' where
  blk := h'.blk.trans h.blk
  asked := h'.asked.trans h.asked
  life hl := h'.life (h.life hl)

theorem of_frame (h : Frame ctx ctx') : HdrKeeps ctx ctx' where
  blk := h.blkView_eq
  asked := congrArg FetchSync.asked h.hdr
  life := h.life

theorem setHdr (ctx : BeaconCtx) {hdr : HeaderFetchSync} (h : hdr.asked = ctx.hdr.asked) :
    HdrKeeps ctx { ctx with hdr := hdr } where
  blk := rfl
  asked := h
  life hl := ⟨hl.pool, hl.closed, hl.keyed, hl.session⟩

theorem setJob {job : Job} (h : blkJob (ctx.buddy p).job = blkJob job) :
    HdrKeeps ctx (ctx.setJob p job) where
  blk := blkView_setJob_same h
  asked := rfl
  life := setJob_life job

theorem syncState (h : HdrKeeps ctx ctx') : ctx'.syncState = ctx.syncState :=
  congrArg BlkView.syncState h.blk

theorem poolMode (h : HdrKeeps ctx ctx') : ctx'.poolMode = ctx.poolMode :=
  congrArg BlkView.poolMode h.blk

theorem blkJob (h : HdrKeeps ctx ctx') (q : PeerId) :
    blkJob (ctx'.buddy q).job = blkJob (ctx.buddy q).job := congrFun (congrArg BlkView.job h.blk) q

end HdrKeeps

/-- The books while the peer `p` runs: it waits for nothing. -/
def openView (ctx : BeaconCtx) (p : PeerId) : HdrView :=
  { hdrView ctx with fetch := update (hdrView ctx).fetch p none }

theorem hdrView_setJob_open (job : Job) :
    hdrView (ctx.setJob p job) =
      { openView ctx p with fetch := update (openView ctx p).fetch p (jobRange job) } := by
  rw [hdrView_setJob]
  unfold openView
  rw [update_idem]

theorem hdrView_setJob_none {job : Job} (h : jobRange job = none) :
    hdrView (ctx.setJob p job) = openView ctx p := by
  rw [hdrView_setJob, h]
  rfl

theorem openView_frame (h : Frame ctx ctx') (p : PeerId) : openView ctx' p = openView ctx p := by
  unfold openView
  rw [h.hdrView_eq]

theorem openView_fetch (ctx : BeaconCtx) (p : PeerId) : (openView ctx p).fetch p = none :=
  update_self _ _ _

theorem openView_of_none (h : jobRange (ctx.buddy p).job = none) : openView ctx p = hdrView ctx := by
  unfold openView
  rw [show (none : Option PtRange) = (hdrView ctx).fetch p from h.symm, update_eq_self]

theorem stopped_iff : ctx.hdrSessionStopped = true ↔ (hdrView ctx).Stopped := by
  unfold hdrSessionStopped HdrView.Stopped hdrView
  simp only [Bool.or_eq_true, decide_eq_true_eq, or_assoc]

/-! ## Choosing what to fetch -/

/-- Enough for fetching a range: what is unprocessed is not borrowed, and below the cache. -/
structure CanFetch (v : HdrView) : Prop where
  room : Roomy v.unprocessed
  disjoint : ∀ n ∈ v.unprocessed, n ∉ v.borrowed
  below : ∀ n ∈ v.unprocessed, n < v.ante

theorem HdrBooks.canFetch {v : HdrView} {hand : Option PtRange} (h : HdrBooks v bottom hand) :
    CanFetch v where
  room := h.roomy
  disjoint _ hn := h.disjoint hn
  below _ hn := (h.of_unprocessed hn).2

theorem headersFetchStart_spec (hf : CanFetch (openView ctx p)) :
    ∃ ctx' res, ctx.headersFetchStart p = .ok (ctx', res) ∧ (res = none → Frame ctx ctx') ∧
      ∀ iv, res = some iv → ctx' = { ctx with hdr := lend ctx.hdr iv } ∧
        ∀ n ∈ iv, n ∈ ctx.hdr.unprocessed := by
  unfold headersFetchStart
  split
  · exact ⟨_, none, rfl, fun _ => modifyPeer_frame fun _ => rfl, fun _ h => nomatch h⟩
  · obtain ⟨hfetch, _⟩ | ⟨iv, hsub, _, hfetch⟩ :=
      HeaderFetchSync.unprocFetch_spec nFetchHeadersRequest hf.room hf.disjoint
    · rw [hfetch]
      exact ⟨ctx, none, rfl, fun _ => Frame.refl ctx, fun _ h => nomatch h⟩
    · rw [hfetch]
      refine ⟨_, some iv, rfl, nofun, ?_⟩
      intro iv' h
      cases h
      exact ⟨rfl, hsub⟩

/-- Where `headersCollect` comes to an `await` or to its end, from the state `ctx` on. -/
structure Collected (ctx ctx' : BeaconCtx) (p : PeerId) : Prop where
  keeps : HdrKeeps ctx ctx'
  hdrCache : ctx'.hdrCache = ctx.hdrCache
  books : ∀ bottom, HdrBooks (openView ctx p) bottom none → HdrBooks (hdrView ctx') bottom none

theorem headersCollectDone_spec (hj : blkJob (ctx.buddy p).job = .idle) (stashedOK : Bool)
    (nQueued : Nat) : HdrKeeps ctx (ctx.headersCollectDone p stashedOK nQueued) ∧
      (ctx.headersCollectDone p stashedOK nQueued).hdrCache = ctx.hdrCache ∧
      hdrView (ctx.headersCollectDone p stashedOK nQueued) = openView ctx p := by
  have hkeeps : HdrKeeps ctx (ctx.setJob p .idle) := .setJob hj
  have hview : hdrView (ctx.setJob p .idle) = openView ctx p := hdrView_setJob_none rfl
  unfold headersCollectDone
  dsimp only
  split
  · exact ⟨⟨hkeeps.blk, hkeeps.asked, fun hl => have h := hkeeps.life hl;
      ⟨h.pool, h.closed, h.keyed, h.session⟩⟩, rfl, hview⟩
  · exact ⟨hkeeps, rfl, hview⟩

theorem Collected.done (ctx : BeaconCtx) (p : PeerId) (hj : blkJob (ctx.buddy p).job = .idle)
    (stashedOK : Bool) (nQueued : Nat) :
    Collected ctx (ctx.headersCollectDone p stashedOK nQueued) p := by
  obtain ⟨hkeeps, hcache, hview⟩ := headersCollectDone_spec hj stashedOK nQueued
  exact ⟨hkeeps, hcache, fun bottom hb => hview ▸ hb⟩

section

variable (hj : blkJob (ctx.buddy p).job = .idle)
include hj

theorem Collected.await {job : HeadersJob}
    {hdr : HeaderFetchSync} (hu : hdr.unprocessed = ctx.hdr.unprocessed.reduce job.iv)
    (hb : hdr.borrowed = ctx.hdr.borrowed.merge job.iv) (hs : hdr.staged = ctx.hdr.staged)
    (ha : hdr.asked = ctx.hdr.asked) (hsub : ∀ n ∈ job.iv, n ∈ ctx.hdr.unprocessed) :
    Collected ctx ({ ctx with hdr := hdr }.setJob p (.headers job)) p where
  keeps := (HdrKeeps.setHdr ctx ha).trans (.setJob hj)
  hdrCache := rfl
  books bottom hbooks := by
    have hlend := hbooks.lend p hsub (openView_fetch ctx p)
    rw [hdrView_setJob_open]
    have hview : openView { ctx with hdr := hdr } p = { openView ctx p with
        unprocessed := ctx.hdr.unprocessed.reduce job.iv
        borrowed := ctx.hdr.borrowed.merge job.iv } := by
      unfold openView hdrView
      rw [hu, hb, hs, ha]
      rfl
    rw [hview]
    exact hlend

section

variable (hf : CanFetch (openView ctx p))
include hf

theorem headersCollectDirect_spec (stashedOK : Bool) :
    ∃ ctx', ctx.headersCollectDirect p stashedOK = .ok ctx' ∧ Collected ctx ctx' p := by
  obtain ⟨ctx₁, res, hstart, hnone, hsome⟩ := headersFetchStart_spec hf
  unfold headersCollectDirect
  rw [hstart]
  cases res with
  | none =>
    have hframe := hnone rfl
    have hdone := Collected.done ctx₁ p (by rw [hframe.job]; exact hj) stashedOK 0
    refine ⟨_, rfl, (HdrKeeps.of_frame hframe).trans hdone.keeps,
      hdone.hdrCache.trans hframe.hdrCache, ?_⟩
    intro bottom hb
    exact hdone.books bottom (openView_frame hframe p ▸ hb)
  | some iv =>
    obtain ⟨rfl, hsub⟩ := hsome iv rfl
    exact ⟨_, rfl, .await hj rfl rfl rfl rfl hsub⟩

theorem headersCollectQueued_spec (stashedOK : Bool) :
    ∃ ctx', ctx.headersCollectQueued p stashedOK = .ok ctx' ∧ Collected ctx ctx' p := by
  unfold headersCollectQueued
  split
  · have hf' : CanFetch (openView { ctx with hdr := ctx.hdr.reserve } p) := hf
    obtain ⟨ctx₁, res, hstart, hnone, hsome⟩ := headersFetchStart_spec hf'
    dsimp only
    rw [hstart]
    cases res with
    | none =>
      have hframe := hnone rfl
      -- the slot is free again, which no book is about
      have hreserve : HdrKeeps ctx { ctx with hdr := ctx.hdr.reserve } := .setHdr ctx rfl
      have hunreserve : HdrKeeps ctx₁ { ctx₁ with hdr := ctx₁.hdr.unreserve } := .setHdr ctx₁ rfl
      have hkeeps := hreserve.trans ((HdrKeeps.of_frame hframe).trans hunreserve)
      have hview : openView { ctx₁ with hdr := ctx₁.hdr.unreserve } p = openView ctx p :=
        openView_frame hframe p
      have hdone := Collected.done { ctx₁ with hdr := ctx₁.hdr.unreserve } p
        (by rw [hkeeps.blkJob]; exact hj) stashedOK 0
      refine ⟨_, rfl, hkeeps.trans hdone.keeps, hdone.hdrCache.trans hframe.hdrCache, ?_⟩
      intro bottom hb
      exact hdone.books bottom (hview ▸ hb)
    | some iv =>
      obtain ⟨rfl, hsub⟩ := hsome iv rfl
      exact ⟨_, rfl, .await hj rfl rfl rfl rfl hsub⟩
  · exact ⟨_, rfl, .done ctx p hj stashedOK 0⟩

theorem headersCollectLoop_spec (hmode : ctx.hdrCache.session.mode ≠ .closed)
    (hante : 1 ≤ ctx.hdrCache.session.ante.number) (stashedOK : Bool) :
    ∃ ctx', ctx.headersCollectLoop p stashedOK = .ok ctx' ∧ Collected ctx ctx' p := by
  have hdangling : ctx.antecedent.number = ctx.hdrCache.session.ante.number := by
    unfold antecedent
    rw [if_neg hmode]
  have htop : u64 (ctx.hdr.unprocAvailTop + 1) ≤ ctx.hdrCache.session.ante.number := by
    by_cases hex : ∃ n, n ∈ ctx.hdr.unprocessed
    · obtain ⟨n, hn⟩ := hex
      have hbelow := hf.below _ (HeaderFetchSync.unprocAvailTop_spec hn).1
      have hlt' : ctx.hdr.unprocAvailTop < ctx.hdrCache.session.ante.number := hbelow
      unfold u64
      omega
    · rw [HeaderFetchSync.unprocAvailTop_none fun n hn => hex ⟨n, hn⟩]
      exact hante
  unfold headersCollectLoop
  dsimp only
  rw [hdangling]
  split
  · exact headersCollectQueued_spec hj hf stashedOK
  · rw [if_neg (not_lt.mpr htop)]
    exact headersCollectDirect_spec hj hf stashedOK

end

end

/-! ## After the answer -/

theorem openView_setHdr (ctx : BeaconCtx) (p : PeerId) (hdr : HeaderFetchSync) :
    openView { ctx with hdr := hdr } p = { openView ctx p with
      unprocessed := hdr.unprocessed
      borrowed := hdr.borrowed
      staged := hdr.staged
      asked := hdr.asked } := rfl

/-- What is known of a list that was neither refused nor garbled. -/
theorem forRange_of_not_garbled {rev : List Header} (hne : rev ≠ []) (hlo : 1 ≤ iv.minPt)
    (hhi : iv.maxPt < 2 ^ 64) (hlen : rev.length ≤ len64 iv) (hg : isGarbled iv rev = false) :
    ∃ hv : PtRange, ForRange rev hv.minPt hv.maxPt ∧ hv.maxPt = iv.maxPt ∧
      iv.minPt ≤ hv.minPt ∧ hv.minPt + rev.length = iv.maxPt + 1 := by
  have hmin := iv.min_le
  have hpos := List.length_pos_iff.mpr hne
  have hlen' : len64 iv = iv.len := u64_of_lt (len_lt hlo hhi)
  have hle : rev.length ≤ iv.maxPt - iv.minPt + 1 := by
    rw [hlen'] at hlen
    exact hlen
  have hbottom : u64 (iv.maxPt + 2 ^ 64 - rev.length + 1) = iv.maxPt + 1 - rev.length := by
    unfold u64
    omega
  unfold isGarbled at hg
  rw [hbottom] at hg
  simp only [ne_eq, Bool.or_eq_false_iff, decide_eq_false_iff_not, not_not] at hg
  refine ⟨⟨iv.maxPt + 1 - rev.length, iv.maxPt, by omega⟩, ⟨hne, hg.1, hg.2, ?_⟩, rfl, ?_, ?_⟩
  · dsimp only
    omega
  · dsimp only
    omega
  · dsimp only
    omega

/-- What the end of a fetch leaves: nothing, or a list of headers in the hands of the peer. -/
structure Fetched (ctx ctx' : BeaconCtx) (p : PeerId) (bottom : Nat) (res : Option (List Header)) :
    Prop where
  keeps : HdrKeeps ctx ctx'
  hdrCache : ctx'.hdrCache = ctx.hdrCache
  stopped : (hdrView ctx).Stopped → res = none ∧ hdrView ctx' = hdrView ctx
  none : ¬ (hdrView ctx).Stopped → res = none → HdrBooks (openView ctx' p) bottom none
  some : ¬ (hdrView ctx).Stopped → ∀ rev, res = some rev →
    ∃ hv : PtRange, ForRange rev hv.minPt hv.maxPt ∧ HdrBooks (openView ctx' p) bottom (some hv)

theorem commitAll_spec (hframe : Frame ctx ctx') (hp : jobRange (ctx.buddy p).job = some iv)
    (hrun : ¬ (hdrView ctx).Stopped) (hb : HdrBooks (hdrView ctx) bottom none) :
    ∃ hdr, ctx'.hdr.unprocCommit iv iv = .ok hdr ∧
      Fetched ctx { ctx' with hdr := hdr } p bottom none := by
  have hbor : ∀ n ∈ iv, n ∈ ctx.hdr.borrowed := fun n hn =>
    hb.fetch_borrowed (v := hdrView ctx) hp hrun hn
  have hunp : ∀ n ∈ iv, n ∉ ctx.hdr.unprocessed := fun n hn hu => hb.disjoint hu (hbor n hn)
  have hcommit := unprocCommit_spec hbor hunp
  rw [hframe.hdr]
  refine ⟨_, hcommit, ?_, hframe.hdrCache, fun h => absurd h hrun, ?_, fun _ _ h => nomatch h⟩
  · exact (HdrKeeps.of_frame hframe).trans (.setHdr ctx' (by rw [hframe.hdr]))
  · intro _ _
    rw [openView_setHdr, openView_frame hframe]
    exact (hb.take hp hrun).giveAll

theorem headersFetchFinish_spec (hp : jobRange (ctx.buddy p).job = some iv)
    (hb : ¬ (hdrView ctx).Stopped → HdrBooks (hdrView ctx) bottom none)
    (rc : Except WireError (List Header)) (elapsed : Nat) :
    ∃ ctx' res, ctx.headersFetchFinish p iv rc elapsed = .ok (ctx', res) ∧
      Fetched ctx ctx' p bottom res := by
  obtain ⟨hframe, hrev⟩ := fetchHeadersReversed_spec ctx p iv rc elapsed
  unfold headersFetchFinish
  generalize ctx.fetchHeadersReversed p iv rc elapsed = ans at hframe hrev
  obtain ⟨ctx₁, rc₁⟩ := ans
  dsimp only at hframe hrev ⊢
  have hstop : ctx₁.hdrSessionStopped = true ↔ (hdrView ctx).Stopped := by
    rw [stopped_iff, hframe.hdrView_eq]
  by_cases hs : (hdrView ctx).Stopped
  · rw [if_pos (hstop.mpr hs)]
    refine ⟨ctx₁, none, rfl, .of_frame hframe, hframe.hdrCache, fun _ => ⟨rfl, hframe.hdrView_eq⟩,
      fun h => absurd hs h, fun h => absurd hs h⟩
  · rw [if_neg (fun h => hs (hstop.mp h))]
    have hbooks := hb hs
    cases rc₁ with
    | error e =>
      obtain ⟨hdr, hcommit, hfetched⟩ := commitAll_spec hframe hp hs hbooks
      rw [hcommit]
      exact ⟨_, none, rfl, hfetched⟩
    | ok rev =>
      dsimp only
      cases hg : isGarbled iv rev with
      | true =>
        have herr : Frame ctx (ctx₁.modifyPeer p (·.hdrProcRegisterError)) := by
          apply hframe.trans
          apply modifyPeer_frame
          intro buddy
          unfold BeaconPeer.hdrProcRegisterError BeaconPeer.updateErrorState
          split
          · rfl
          · rfl
        obtain ⟨hdr, hcommit, hfetched⟩ := commitAll_spec herr hp hs hbooks
        rw [hcommit]
        exact ⟨_, none, rfl, hfetched⟩
      | false =>
        obtain ⟨hne, hlen⟩ := hrev rev rfl
        have hbor : ∀ n ∈ iv, n ∈ ctx.hdr.borrowed := fun n hn =>
          hbooks.fetch_borrowed (v := hdrView ctx) hp hs hn
        have hmin := hbooks.of_borrowed (hbor _ iv.minPt_mem)
        have hmax := hbooks.of_borrowed (hbor _ iv.maxPt_mem)
        have hpos := hbooks.bottom_pos
        have hlt := hbooks.ante_lt
        obtain ⟨hv, hr, htop, hlow, hcount⟩ :=
          forRange_of_not_garbled hne (by omega) (by omega) hlen hg
        have hrest : u64 (iv.maxPt + 2 ^ 64 - rev.length) = hv.minPt - 1 := by
          unfold u64
          omega
        have hunp : ∀ n, iv.minPt ≤ n → n ≤ hv.minPt - 1 → n ∉ ctx.hdr.unprocessed := by
          intro n hlo hhi hu
          exact hbooks.disjoint hu (hbor n ⟨hlo, by omega⟩)
        rw [hrest, hframe.hdr, unprocCommitRest_spec hbor hunp]
        refine ⟨_, some rev, rfl, ?_, hframe.hdrCache, fun h => absurd h hs,
          (fun _ h => nomatch h), ?_⟩
        · exact (HdrKeeps.of_frame hframe).trans (.setHdr ctx₁ (by rw [hframe.hdr]))
        · intro _ rev' h
          obtain rfl := Option.some.inj h
          refine ⟨hv, hr, ?_⟩
          rw [openView_setHdr, openView_frame hframe]
          apply (hbooks.take hp hs).give (some hv)
          · intro n rv hrv hn
            obtain rfl := Option.some.inj hrv
            exact ⟨hlow.trans hn.1, htop ▸ hn.2⟩
          · intro n
            simp only [mem_mergeRest, Option.some.injEq, forall_eq', PtRange.mem_def]
            have hor : (iv.minPt ≤ n ∧ n ≤ hv.minPt - 1) ↔
                (iv.minPt ≤ n ∧ n ≤ iv.maxPt) ∧ ¬ (hv.minPt ≤ n ∧ n ≤ hv.maxPt) := by omega
            rw [hor]
            exact Iff.rfl

end Nimbus.Spec.Beacon
