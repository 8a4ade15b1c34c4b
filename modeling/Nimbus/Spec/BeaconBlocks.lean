import Nimbus.Spec.BeaconImports

/-!
# Block downloads keep the books

Each function of the block download is followed from one `await` to the next, as for headers.
No assertion fires on the way, the invariant of the session holds again at the end of it, and
the headers and the state machine are left alone (`BlkKeeps`).
-/

namespace Nimbus.Spec.Beacon

open Nimbus.Native.Beacon
open Nimbus.Native.Beacon.BeaconCtx
open Nimbus.Native.HeaderChainCache BeaconCtx IntervalSet Function

variable {ctx ctx' ctx'' : BeaconCtx} {p : PeerId} {range iv : PtRange} {hand : Option PtRange}

/-- What the block download does not touch. -/
structure BlkKeeps (ctx ctx' : BeaconCtx) : Prop where
  hdr : hdrView ctx' = hdrView ctx
  asked : ctx'.blk.asked = ctx.blk.asked
  hdrCache : ctx'.hdrCache = ctx.hdrCache

namespace BlkKeeps

theorem refl (ctx : BeaconCtx) : BlkKeeps ctx ctx := ⟨rfl, rfl, rfl⟩

theorem trans (h : BlkKeeps ctx ctx') (h' : BlkKeeps ctx' ctx'') : BlkKeeps ctx ctx'' :=
  ⟨h'.hdr.trans h.hdr, h'.asked.trans h.asked, h'.hdrCache.trans h.hdrCache⟩

theorem of_frame (h : Frame ctx ctx') : BlkKeeps ctx ctx' :=
  ⟨h.hdrView_eq, congrArg FetchSync.asked h.blk, h.hdrCache⟩

section

variable (h : BlkKeeps ctx ctx')
include h

theorem syncState : ctx'.syncState = ctx.syncState :=
  congrArg HdrView.syncState h.hdr

theorem poolMode : ctx'.poolMode = ctx.poolMode :=
  congrArg HdrView.poolMode h.hdr

theorem jobRange (q : PeerId) : jobRange (ctx'.buddy q).job = jobRange (ctx.buddy q).job :=
  congrFun (congrArg HdrView.fetch h.hdr) q

theorem life (hl : Life ctx) : Life ctx' where
  pool := by rw [h.poolMode, h.syncState]; exact hl.pool
  closed := by rw [h.hdrCache, h.syncState]; exact hl.closed
  keyed := by rw [h.hdrCache]; exact hl.keyed
  session := by rw [h.hdrCache]; exact hl.session

end

theorem setJob {job : Job} (h : Beacon.jobRange (ctx.buddy p).job = Beacon.jobRange job) :
    BlkKeeps ctx (ctx.setJob p job) := ⟨hdrView_setJob_same h, rfl, rfl⟩

end BlkKeeps

/-- The books while the peer `p` runs: it waits for nothing. -/
def blkOpen (ctx : BeaconCtx) (p : PeerId) : BlkView :=
  { blkView ctx with job := update (blkView ctx).job p .idle }

theorem blkOpen_idle (ctx : BeaconCtx) (p : PeerId) : (blkOpen ctx p).job p = .idle :=
  update_self _ _ _

theorem blkView_setJob_open (ctx : BeaconCtx) (p : PeerId) (job : Job) :
    blkView (ctx.setJob p job) =
      { blkOpen ctx p with job := update (blkOpen ctx p).job p (blkJob job) } := by
  rw [blkView_setJob]
  unfold blkOpen
  rw [update_idem]

theorem blkView_setJob_idle (ctx : BeaconCtx) (p : PeerId) :
    blkView (ctx.setJob p .idle) = blkOpen ctx p := blkView_setJob ctx p .idle

theorem blkOpen_frame (h : Frame ctx ctx') (p : PeerId) : blkOpen ctx' p = blkOpen ctx p := by
  unfold blkOpen
  rw [h.blkView_eq]

theorem blkOpen_of_idle (h : (blkView ctx).job p = .idle) : blkOpen ctx p = blkView ctx := by
  unfold blkOpen
  rw [← h, update_eq_self]

theorem blkOpen_setBlk (ctx : BeaconCtx) (p : PeerId) {blk : BlocksFetchSync}
    (h : blk.asked = ctx.blk.asked) : blkOpen { ctx with blk := blk } p =
      { blkOpen ctx p with toRangeBooks := ⟨blk.unprocessed, blk.borrowed, blk.staged⟩ } := by
  unfold blkOpen blkView
  rw [h]
  rfl

/-- A step of the block download, from the end of one `await` to the next. -/
structure BlkTurn (ctx ctx' : BeaconCtx) (range : PtRange) : Prop where
  keeps : BlkKeeps ctx ctx'
  inv : BlkInv (blkView ctx') range none

theorem BlkTurn.of_keeps (h : BlkKeeps ctx ctx') (h' : BlkTurn ctx' ctx'' range) :
    BlkTurn ctx ctx'' range := ⟨h.trans h'.keeps, h'.inv⟩

theorem BlkTurn.idle (hj : jobRange (ctx.buddy p).job = none)
    (h : BlkInv (blkOpen ctx p) range none) : BlkTurn ctx (ctx.setJob p .idle) range where
  keeps := .setJob hj
  inv := by
    rw [blkView_setJob_idle]
    exact h

theorem BlkTurn.done (hj : jobRange (ctx.buddy p).job = none)
    (h : BlkInv (blkOpen ctx p) range none) (importedOK : Bool) (nQueued : Nat) :
    BlkTurn ctx (ctx.blocksCollectDone p importedOK nQueued) range := by
  have hidle : BlkTurn ctx (ctx.setJob p .idle) range := .idle hj h
  unfold blocksCollectDone
  dsimp only
  split
  · exact ⟨⟨hidle.keeps.hdr, hidle.keeps.asked, hidle.keeps.hdrCache⟩, hidle.inv⟩
  · exact hidle

/-! ## Importing -/

/-- What the loop of `blocksImport` leaves at the next `await`, or at its end. -/
structure Skipped (ctx ctx' : BeaconCtx) (p : PeerId) (range : PtRange) (job : ImportJob)
    (handed : Bool) : Prop where
  keeps : BlkKeeps ctx ctx'
  staged : ctx'.blk.staged = ctx.blk.staged
  wf : ImportWf job ctx'.subState.topNum
  await : handed = true → BlkInv (blkView (ctx'.setJob p (.importing job))) range none
  done : handed = false → BlkInv (blkOpen ctx' p) range (importRest job)

theorem importSkip_spec {count : Nat} {job : ImportJob} (hj : jobRange (ctx.buddy p).job = none)
    (hcount : job.n + count = job.item.blocks.length) (hwf : ImportWf job ctx.subState.topNum)
    (hinv : BlkInv (blkOpen ctx p) range (importRest job))
    (hquiet : ∀ q, ¬ Importing (blkOpen ctx p) q) :
    ∃ ctx' job' handed, ctx.importSkip job count = (ctx', job', handed) ∧
      Skipped ctx ctx' p range job' handed := by
  induction count generalizing ctx job with
  | zero =>
    exact ⟨ctx, job, false, rfl, .refl ctx, rfl, hwf, nofun, fun _ => hinv⟩
  | succ count ih =>
    have hn : job.n < job.item.blocks.length := by omega
    have hbn : job.nthBn = ctx.subState.topNum + 1 := hwf.nthBn hn
    unfold importSkip
    split
    · let next := (ctx.updateLastBlockImported job.nthBn).mark (.skipped job.nthBn)
      have hview : blkOpen next p = { blkOpen ctx p with
          topNum := (blkOpen ctx p).topNum + 1
          marks := (blkOpen ctx p).marks ++ [.skipped job.nthBn] } := by
        show { blkOpen ctx p with
          topNum := job.nthBn
          marks := (blkOpen ctx p).marks ++ [ImportMark.skipped job.nthBn] } = _
        rw [hbn]
        rfl
      have hwf' : ImportWf job.next next.subState.topNum := by
        show ImportWf job.next job.nthBn
        rw [hbn]
        exact hwf.step hn
      have hcount' : job.next.n + count = job.next.item.blocks.length := by
        have hlen := ImportWf.length_next job
        show job.n + 1 + count = job.next.item.blocks.length
        omega
      have hinv' : BlkInv (blkOpen next p) range (importRest job.next) :=
        hview ▸ hinv.skip hwf hn hquiet
      have hquiet' : ∀ q, ¬ Importing (blkOpen next p) q := hquiet
      obtain ⟨ctx', job', handed, heq, hskip⟩ : ∃ ctx' job' handed,
          next.importSkip job.next count = (ctx', job', handed) ∧
            Skipped next ctx' p range job' handed := ih hj hcount' hwf' hinv' hquiet'
      refine ⟨ctx', job', handed, heq, ?_, hskip.staged, hskip.wf, hskip.await, hskip.done⟩
      exact ⟨hskip.keeps.hdr, hskip.keeps.asked, hskip.keeps.hdrCache⟩
    · refine ⟨_, job, true, rfl, ⟨rfl, rfl, rfl⟩, rfl, hwf, fun _ => ?_, nofun⟩
      rw [blkView_setJob_open]
      exact hinv.submit hwf hn hquiet (blkOpen_idle ctx p)

theorem blocksImportRollBack_spec {job : ImportJob} (hwf : ImportWf job ctx.subState.topNum)
    (hinv : BlkInv (blkOpen ctx p) range (importRest job)) :
    BlkKeeps ctx (ctx.blocksImportRollBack job) ∧
      BlkInv (blkOpen (ctx.blocksImportRollBack job) p) range none ∧
      (ctx.blocksImportRollBack job).blk.staged = ctx.blk.staged := by
  unfold blocksImportRollBack
  by_cases hn : job.n < job.item.blocks.length
  · obtain ⟨iv, hiv, hmin, hmax⟩ := importRest_of_lt hn
    have hlast := hwf.lastBn hn
    have hnext := hwf.next
    rw [hiv] at hinv
    rw [if_pos (by omega)]
    have hasked : (ctx.blk.unprocAppend (u64 (ctx.subState.topNum + 1)) job.lastBn).asked =
        ctx.blk.asked := unprocAppend_asked _ _ _
    refine ⟨⟨rfl, hasked, rfl⟩, ?_, unprocAppend_staged _ _ _⟩
    rw [blkOpen_setBlk ctx p hasked]
    apply hinv.setBooks
    intro hsync
    have hbooks := hinv.books hsync
    have htop : ctx.subState.topNum ≤ ctx.subState.headNum := hbooks.top_le
    have hhead : ctx.subState.headNum + 1 < 2 ^ 64 := hbooks.head_lt
    have hlow : u64 (ctx.subState.topNum + 1) = iv.minPt := by
      rw [u64_of_lt (by omega)]
      omega
    have hhigh : job.lastBn = iv.maxPt := by omega
    have hout : ∀ n, iv.minPt ≤ n → n ≤ iv.maxPt → n ∉ ctx.blk.borrowed :=
      fun n hlo hhi => (hbooks.hand_disjoint ⟨hlo, hhi⟩).2
    rw [hlow, hhigh, unprocAppend_spec iv.min_le hout, PtRange.new_self]
    exact hbooks.giveAll
  · have hall : job.n = job.item.blocks.length := le_antisymm hwf.le (not_lt.mp hn)
    rw [hwf.lastBn_done hall]
    rw [importRest_of_ge hall.ge] at hinv
    exact ⟨.refl ctx, hinv, rfl⟩

theorem blocksImportEnd_frame (job : ImportJob) (isError : Bool) :
    Frame ctx (ctx.blocksImportEnd p job isError).1 := by
  unfold blocksImportEnd
  split
  · exact Frame.refl ctx
  · exact modifySyncPeer_frame fun _ => rfl

theorem importEnd_spec {job : ImportJob} (isError : Bool) (hwf : ImportWf job ctx.subState.topNum)
    (hinv : BlkInv (blkOpen ctx p) range (importRest job)) :
    let ctx' := (ctx.blocksImportEnd p job isError).1.blocksImportRollBack job
    BlkKeeps ctx ctx' ∧ BlkInv (blkOpen ctx' p) range none ∧ ctx'.blk.staged = ctx.blk.staged := by
  have hframe : Frame ctx (ctx.blocksImportEnd p job isError).1 :=
    blocksImportEnd_frame job isError
  have hwf' : ImportWf job (ctx.blocksImportEnd p job isError).1.subState.topNum := by
    rw [hframe.topNum]
    exact hwf
  obtain ⟨hkeeps, hinv', hstaged⟩ := blocksImportRollBack_spec (p := p) hwf'
    ((blkOpen_frame hframe p).symm ▸ hinv)
  exact ⟨(BlkKeeps.of_frame hframe).trans hkeeps, hinv', by rw [hstaged, hframe.blk]⟩

/-! ## Choosing what to fetch -/

/-- The session runs exactly while the scheduler has not been asked to stop all peers. -/
def BlkLive (ctx : BeaconCtx) : Prop := ctx.syncState = .blocks ↔ ctx.poolMode = false

theorem BlkLive.of_keeps (h : BlkLive ctx) (hk : BlkKeeps ctx ctx') : BlkLive ctx' := by
  unfold BlkLive
  rw [hk.syncState, hk.poolMode]
  exact h

theorem BlkLive.stopped_iff (h : BlkLive ctx) :
    ctx.blkSessionStopped = true ↔ ctx.syncState ≠ .blocks := by
  unfold blkSessionStopped
  rw [Bool.or_eq_true, decide_eq_true_eq]
  constructor
  · rintro (hpool | hsync)
    · intro hsync
      rw [h.mp hsync] at hpool
      cases hpool
    · exact hsync
  · exact .inr

/-- Headers with the numbers from `bn` on. -/
def HeadersFrom (headers : List Header) (bn : Nat) : Prop :=
  ∀ i h, headers[i]? = some h → h.number = bn + i

theorem getHeaders_spec {hc : HeaderChainRef} (hk : Keyed hc.kvt) {bn : Nat} (hpos : 1 ≤ bn)
    (count : Nat) : getHeaders hc bn count = .ok none ∨ ∃ headers,
      getHeaders hc bn count = .ok (some headers) ∧ headers.length = count ∧
        HeadersFrom headers bn := by
  induction count generalizing bn with
  | zero => exact .inr ⟨[], rfl, rfl, fun i h hi => nomatch hi⟩
  | succ count ih =>
    unfold getHeaders HeaderChainRef.get
    cases hk.getHeader hpos with
    | inl hnone =>
      rw [hnone]
      exact .inl rfl
    | inr hsome =>
      obtain ⟨h, hget, hnum⟩ := hsome
      rw [hget]
      cases ih (show 1 ≤ bn + 1 by omega) with
      | inl hnone =>
        rw [hnone]
        exact .inl rfl
      | inr hmore =>
        obtain ⟨headers, heq, hlen, hfrom⟩ := hmore
        rw [heq]
        refine .inr ⟨h :: headers, rfl, by rw [List.length_cons, hlen], ?_⟩
        intro i h' hi
        cases i with
        | zero =>
          cases hi
          exact hnum
        | succ i =>
          have htail := hfrom i h' hi
          omega

theorem blkOpen_not_importing (ctx : BeaconCtx) (p : PeerId) : ¬ Importing (blkOpen ctx p) p := by
  rintro ⟨j, hj⟩
  rw [blkOpen_idle] at hj
  cases hj

/-- What `blocksFetch` comes to before its `await`, from the state `ctx` on. -/
structure FetchStarted (ctx ctx' : BeaconCtx) (p : PeerId) (range : PtRange)
    (res : Option (PtRange × List Header)) : Prop where
  keeps : BlkKeeps ctx ctx'
  none : res = none → BlkInv (blkOpen ctx' p) range none
  some : ∀ iv headers, res = some (iv, headers) → ctx' = { ctx with blk := lend ctx.blk iv } ∧
    (∀ n ∈ iv, n ∈ ctx.blk.unprocessed) ∧ ctx.blk.unprocAvailBottom = iv.minPt ∧
    headers.length = iv.len ∧ HeadersFrom headers iv.minPt

/-- When a header is missing, the range goes back at once. -/
theorem blocksFetchStart_spec (hlife : Life ctx) (hlive : BlkLive ctx)
    (hrun : ctx.syncState = .blocks) (hinv : BlkInv (blkOpen ctx p) range none) :
    ∃ ctx' res, ctx.blocksFetchStart p = .ok (ctx', res) ∧ FetchStarted ctx ctx' p range res := by
  have hbooks : BlkBooks (blkOpen ctx p) none := hinv.books hrun
  unfold blocksFetchStart
  split
  · have hframe : Frame ctx (ctx.modifyPeer p (·.zombify)) := modifyPeer_frame fun _ => rfl
    refine ⟨_, none, rfl, .of_frame hframe, fun _ => ?_, fun _ _ h => nomatch h⟩
    exact (blkOpen_frame hframe p).symm ▸ hinv
  · have hroom : Roomy ctx.blk.unprocessed := hbooks.roomy
    have hdis : ∀ n ∈ ctx.blk.unprocessed, n ∉ ctx.blk.borrowed := fun _ hn => hbooks.disjoint hn
    obtain ⟨hfetch, -⟩ | ⟨iv, hsub, hbottom, hfetch⟩ :=
      BlocksFetchSync.unprocFetch_spec nFetchBodiesRequest hroom hdis
    · rw [hfetch]
      exact ⟨ctx, none, rfl, .refl ctx, fun _ => hinv, fun _ _ h => nomatch h⟩
    · rw [hfetch]
      have hmin := hroom _ (hsub _ iv.minPt_mem)
      have hmax := hroom _ (hsub _ iv.maxPt_mem)
      have hlen : len64 iv = iv.len := u64_of_lt (len_lt hmin.1 hmax.2)
      dsimp only
      rw [hlen]
      cases getHeaders_spec hlife.keyed hmin.1 iv.len with
      | inl hnone =>
        rw [hnone]
        let lent : BeaconCtx := { ctx with
          blk := lend ctx.blk iv
          subState := { ctx.subState with cancelRequest := true } }
        let back : BlocksFetchSync := { ctx.blk with
          borrowed := (ctx.blk.borrowed.merge iv).reduce iv
          unprocessed := (ctx.blk.unprocessed.reduce iv).merge iv }
        have hbor : ∀ n ∈ iv, n ∈ (lend ctx.blk iv).borrowed := fun n hn =>
          mem_merge.mpr (.inl hn)
        have hunp : ∀ n ∈ iv, n ∉ (lend ctx.blk iv).unprocessed := fun n hn hu =>
          (mem_reduce.mp hu).2 hn
        have hcommit : (lend ctx.blk iv).unprocCommit iv iv = .ok back := unprocCommit_spec hbor hunp
        have hfinish : lent.blocksFetchFinish iv none = .ok ({ lent with blk := back }, none) := by
          have hgo : ¬ lent.blkSessionStopped = true := fun h => hlive.stopped_iff.mp h hrun
          unfold blocksFetchFinish
          rw [if_neg hgo]
          rw [hcommit]
        refine ⟨{ lent with blk := back }, none, ?_, ⟨rfl, rfl, rfl⟩, fun _ => ?_,
          fun _ _ h => nomatch h⟩
        · rw [show blocksFetchFinish _ iv none = _ from hfinish]
        · apply hinv.setBooks
          intro _
          apply hbooks.same
          · intro n
            have hin : n ∈ iv → n ∈ (blkOpen ctx p).unprocessed := hsub n
            rw [mem_merge, mem_reduce]
            by_cases hn : n ∈ iv
            · exact iff_of_true (.inl hn) (hin hn)
            · simp only [hn, false_or, not_false_eq_true, and_true]
              exact Iff.rfl
          · intro n
            have hout : n ∈ iv → n ∉ (blkOpen ctx p).borrowed := fun hn => hdis n (hsub n hn)
            rw [mem_reduce, mem_merge]
            by_cases hn : n ∈ iv
            · exact iff_of_false (fun h => h.2 hn) (hout hn)
            · simp only [hn, false_or, not_false_eq_true, and_true]
              exact Iff.rfl
      | inr hsome =>
        obtain ⟨headers, hget, hcount, hfrom⟩ := hsome
        rw [hget]
        refine ⟨{ ctx with blk := lend ctx.blk iv }, some (iv, headers), rfl, ⟨rfl, rfl, rfl⟩,
          nofun, ?_⟩
        intro iv' headers' heq
        obtain ⟨rfl, rfl⟩ := Prod.mk.inj (Option.some.inj heq)
        refine ⟨rfl, hsub, ?_, hcount, hfrom⟩
        unfold BlocksFetchSync.unprocAvailBottom
        rw [hbottom]
        rfl

theorem length_requestHashes [BlockHash] {headers : List Header} (h : headers ≠ []) :
    (requestHashes headers).length = headers.length := by
  have hpos := List.length_pos_iff.mpr h
  unfold requestHashes
  rw [List.length_append, List.length_map, List.length_tail, List.length_singleton]
  omega

theorem awaitBodies_spec [BlockHash] {headers : List Header} {direct : Bool}
    (hj : jobRange (ctx.buddy p).job = none) (hinv : BlkInv (blkOpen ctx p) range none)
    (hrun : ctx.syncState = .blocks) (hsub : ∀ n ∈ iv, n ∈ ctx.blk.unprocessed)
    (hlen : headers.length = iv.len) (hfrom : HeadersFrom headers iv.minPt)
    (hdirect : direct = true → iv.minPt = ctx.subState.topNum + 1) (importedOK : Bool) :
    BlkTurn ctx
      ({ ctx with blk := lend ctx.blk iv }.awaitBodies p iv headers direct importedOK) range := by
  have hne : headers ≠ [] := by
    have hpos := iv.len_pos
    intro hnil
    rw [hnil, List.length_nil] at hlen
    omega
  let job : BodiesJob := {
    iv := iv, direct := direct, importedOK := importedOK
    blockHashes := requestHashes headers, headers := headers }
  have hkeeps : BlkKeeps ctx { ctx with blk := lend ctx.blk iv } := ⟨rfl, rfl, rfl⟩
  refine ⟨hkeeps.trans (.setJob hj), ?_⟩
  show BlkInv (blkView ({ ctx with blk := lend ctx.blk iv }.setJob p (.bodies job))) range none
  rw [blkView_setJob_open]
  apply hinv.setJob ⟨ctx.blk.unprocessed.reduce iv, ctx.blk.borrowed.merge iv, ctx.blk.staged⟩
    (blkOpen_not_importing ctx p) (by simp [blkJob])
  · exact ⟨hlen, length_requestHashes hne, hfrom⟩
  · intro _
    have hbooks : BlkBooks (blkOpen ctx p) none := hinv.books hrun
    apply hbooks.lend (blkOpen_idle ctx p) hsub rfl
    intro iv' h
    obtain ⟨hd, heq⟩ := Option.ite_none_right_eq_some.mp
      (show (if direct = true then some iv else none) = some iv' from h)
    cases heq
    exact hdirect hd

theorem blocksCollectQueued_spec [BlockHash] (hlife : Life ctx) (hlive : BlkLive ctx)
    (hrun : ctx.syncState = .blocks) (hj : jobRange (ctx.buddy p).job = none)
    (hinv : BlkInv (blkOpen ctx p) range none) (importedOK : Bool) :
    ∃ ctx', ctx.blocksCollectQueued p importedOK = .ok ctx' ∧ BlkTurn ctx ctx' range := by
  unfold blocksCollectQueued
  split
  · let booked : BeaconCtx := { ctx with blk := ctx.blk.reserve }
    have hreserve : BlkKeeps ctx booked := ⟨rfl, rfl, rfl⟩
    have hj' : jobRange (booked.buddy p).job = none := hj
    have hinv' : BlkInv (blkOpen booked p) range none := hinv
    obtain ⟨ctx₁, res, hstart, hstarted⟩ :=
      blocksFetchStart_spec (hreserve.life hlife) (hlive.of_keeps hreserve) hrun hinv'
    dsimp only
    rw [show blocksFetchStart { ctx with blk := ctx.blk.reserve } p = .ok (ctx₁, res)
      from hstart]
    cases res with
    | none =>
      have hunreserve : BlkKeeps ctx₁ { ctx₁ with blk := ctx₁.blk.unreserve } := ⟨rfl, rfl, rfl⟩
      have hkeeps := hreserve.trans (hstarted.keeps.trans hunreserve)
      exact ⟨_, rfl, .of_keeps hkeeps
        (.done ((hkeeps.jobRange p).trans hj) (hstarted.none rfl) importedOK 0)⟩
    | some res =>
      obtain ⟨iv, headers⟩ := res
      obtain ⟨hctx, hsub, -, hlen, hfrom⟩ := hstarted.some iv headers rfl
      have hturn : BlkTurn booked (ctx₁.awaitBodies p iv headers false importedOK) range := by
        rw [hctx]
        exact awaitBodies_spec hj' hinv' hrun hsub hlen hfrom (by simp) importedOK
      exact ⟨_, rfl, .of_keeps hreserve hturn⟩
  · exact ⟨_, rfl, .done hj hinv importedOK 0⟩

theorem blocksCollectDirect_spec [BlockHash] (hlife : Life ctx) (hlive : BlkLive ctx)
    (hrun : ctx.syncState = .blocks) (hj : jobRange (ctx.buddy p).job = none)
    (hinv : BlkInv (blkOpen ctx p) range none)
    (hnext : ∀ n ∈ ctx.blk.unprocessed, ctx.blk.unprocAvailBottom = ctx.subState.topNum + 1)
    (importedOK : Bool) :
    ∃ ctx', ctx.blocksCollectDirect p importedOK = .ok ctx' ∧ BlkTurn ctx ctx' range := by
  obtain ⟨ctx₁, res, hstart, hstarted⟩ := blocksFetchStart_spec (p := p) hlife hlive hrun hinv
  unfold blocksCollectDirect
  rw [hstart]
  cases res with
  | none =>
    exact ⟨_, rfl, .of_keeps hstarted.keeps
      (.done ((hstarted.keeps.jobRange p).trans hj) (hstarted.none rfl) importedOK 0)⟩
  | some res =>
    obtain ⟨iv, headers⟩ := res
    obtain ⟨rfl, hsub, hbottom, hlen, hfrom⟩ := hstarted.some iv headers rfl
    have hmin : iv.minPt = ctx.subState.topNum + 1 :=
      hbottom.symm.trans (hnext iv.minPt (hsub _ iv.minPt_mem))
    exact ⟨_, rfl, awaitBodies_spec hj hinv hrun hsub hlen hfrom (fun _ => hmin) importedOK⟩

theorem blocksCollectLoop_spec [BlockHash] (hlife : Life ctx) (hlive : BlkLive ctx)
    (hrun : ctx.syncState = .blocks) (hj : jobRange (ctx.buddy p).job = none)
    (hinv : BlkInv (blkOpen ctx p) range none) (importedOK : Bool) :
    ∃ ctx', ctx.blocksCollectLoop p importedOK = .ok ctx' ∧ BlkTurn ctx ctx' range := by
  have hbooks : BlkBooks (blkOpen ctx p) none := hinv.books hrun
  have htop : ctx.subState.topNum ≤ ctx.subState.headNum := hbooks.top_le
  have hhead : ctx.subState.headNum + 1 < 2 ^ 64 := hbooks.head_lt
  -- the bottom is one below the least unprocessed number
  have hmem : ∀ n ∈ ctx.blk.unprocessed, ctx.subState.topNum < ctx.blk.unprocAvailBottom ∧
      u64 (ctx.blk.unprocAvailBottom + (2 ^ 64 - 1)) + 1 = ctx.blk.unprocAvailBottom := by
    intro n hn
    have hin : ctx.blk.unprocAvailBottom ∈ ctx.blk.unprocessed :=
      (BlocksFetchSync.unprocAvailBottom_spec hn).1
    have hrange : ctx.subState.topNum < ctx.blk.unprocAvailBottom ∧
        ctx.blk.unprocAvailBottom ≤ ctx.subState.headNum := hbooks.of_unprocessed hin
    refine ⟨hrange.1, ?_⟩
    unfold u64
    omega
  have hle : ctx.subState.topNum ≤ u64 (ctx.blk.unprocAvailBottom + (2 ^ 64 - 1)) := by
    by_cases hex : ∃ n, n ∈ ctx.blk.unprocessed
    · obtain ⟨n, hn⟩ := hex
      have hpair := hmem n hn
      omega
    · rw [BlocksFetchSync.unprocAvailBottom_none fun n hn => hex ⟨n, hn⟩]
      unfold u64
      omega
  unfold blocksCollectLoop
  dsimp only
  split
  · exact blocksCollectQueued_spec hlife hlive hrun hj hinv importedOK
  · next hnot =>
    rw [if_neg (not_lt.mpr hle)]
    apply blocksCollectDirect_spec hlife hlive hrun hj hinv
    intro n hn
    have hpair := hmem n hn
    omega

/-! ## Serialising the queue -/

theorem blocksImportStart_spec {item : BlocksForImport} {bn : Nat} (hne : item.blocks ≠ [])
    (hnum : Numbered item.blocks 0 bn) (origin : ImportOrigin) :
    ctx.blocksImportStart item origin =
      .ok (ctx.importSkip { item := item, n := 0, minPt := bn, origin := origin }
        item.blocks.length) := by
  have hpos := List.length_pos_iff.mpr hne
  have hidx : item.blocks.length - 1 < item.blocks.length := by omega
  have hlast : (item.blocks.getLastD {}).header.number = bn + (item.blocks.length - 1) := by
    rw [List.getLastD_eq_getLast?, List.getLast?_eq_getElem?, List.getElem?_eq_getElem hidx]
    exact hnum _ _ (Nat.zero_le _) (List.getElem?_eq_getElem hidx)
  unfold blocksImportStart
  rw [hnum.head hne, hlast]
  have hlen : (PtRange.new bn (bn + (item.blocks.length - 1))).len = item.blocks.length := by
    unfold PtRange.len PtRange.new
    dsimp only
    omega
  exact if_pos (congrArg u64 hlen)

theorem importStart_spec {item : BlocksForImport} (hj : jobRange (ctx.buddy p).job = none)
    (hne : item.blocks ≠ []) (hnum : Numbered item.blocks 0 iv.minPt)
    (hlen : iv.minPt + item.blocks.length = iv.maxPt + 1) (hrun : ctx.syncState = .blocks)
    (hmin : iv.minPt = ctx.subState.topNum + 1) (hinv : BlkInv (blkOpen ctx p) range (some iv))
    (origin : ImportOrigin) :
    ∃ ctx' job handed, ctx.blocksImportStart item origin = .ok (ctx', job, handed) ∧
      Skipped ctx ctx' p range job handed := by
  let job : ImportJob := { item := item, n := 0, minPt := iv.minPt, origin := origin }
  have hpos : job.n < job.item.blocks.length := List.length_pos_iff.mpr hne
  have hwf : ImportWf job ctx.subState.topNum :=
    ⟨hnum, fun i hi => absurd hi (Nat.not_lt_zero i), hmin, Nat.zero_le _⟩
  have hrest : importRest job = some iv := by
    obtain ⟨rv, hrv, hlow, hhigh⟩ := importRest_of_lt hpos
    have hlow' : rv.minPt = iv.minPt := hlow
    have hhigh' : rv.maxPt + 1 = iv.minPt + item.blocks.length := hhigh
    rw [hrv]
    congr 1
    cases rv
    cases iv
    simp only [PtRange.mk.injEq]
    dsimp only at hlow' hhigh' hlen
    omega
  have hquiet : ∀ q, ¬ Importing (blkOpen ctx p) q := by
    apply (hinv.books hrun).quiet hmin
    intro q j hq
    have hj : JobWf (blkOpen ctx p).topNum (.importing j) := hq ▸ hinv.jobs q
    have hnext := hj.1.next
    have hlt := hj.2
    omega
  have hinv' : BlkInv (blkOpen ctx p) range (importRest job) := hrest ▸ hinv
  have hcount : job.n + item.blocks.length = job.item.blocks.length := Nat.zero_add _
  obtain ⟨ctx', job', handed, heq, hskip⟩ := importSkip_spec hj hcount hwf hinv' hquiet
  exact ⟨ctx', job', handed, (blocksImportStart_spec hne hnum origin).trans (congrArg _ heq), hskip⟩

theorem blocksUnstageLoop_spec (fuel : Nat) (hj : jobRange (ctx.buddy p).job = none)
    (hinv : BlkInv (blkOpen ctx p) range none) :
    ∃ ctx', ctx.blocksUnstageLoop p fuel = .ok ctx' ∧ BlkTurn ctx ctx' range := by
  induction fuel generalizing ctx with
  | zero => exact ⟨_, rfl, .idle hj hinv⟩
  | succ fuel ih =>
    unfold blocksUnstageLoop
    split
    next hrun =>
      have hbooks : BlkBooks (blkOpen ctx p) none := hinv.books hrun
      cases hbottom : ctx.blk.stagedBottom with
      | none => exact ⟨_, rfl, .idle hj hinv⟩
      | some e =>
        obtain ⟨key, item⟩ := e
        obtain ⟨hlook, -⟩ := stagedBottom_some hbottom
        obtain ⟨hne, hnum⟩ := hbooks.staged key item hlook
        have hpos := List.length_pos_iff.mpr hne
        have hrange : ctx.subState.topNum < key ∧ key ≤ ctx.subState.headNum := by
          apply hbooks.of_staged hlook
          unfold BlkSpan
          rw [hnum.head hne]
          omega
        have hhead : ctx.subState.headNum + 1 < 2 ^ 64 := hbooks.head_lt
        dsimp only
        rw [hnum.head hne, u64_of_lt (show ctx.subState.topNum + 1 < 2 ^ 64 by omega)]
        split
        · exact ⟨_, rfl, .idle hj hinv⟩
        next hnext =>
          let iv : PtRange := ⟨key, key + item.blocks.length - 1, by omega⟩
          have hlen : iv.minPt + item.blocks.length = iv.maxPt + 1 := by
            show key + item.blocks.length = key + item.blocks.length - 1 + 1
            omega
          let taken : BeaconCtx := { ctx with blk := ctx.blk.stagedQueueDelete key }
          have htaken : BlkKeeps ctx taken := ⟨rfl, rfl, rfl⟩
          have hinv₁ : BlkInv (blkOpen taken p) range (some iv) :=
            hinv.setBooks ⟨ctx.blk.unprocessed, ctx.blk.borrowed, ctx.blk.staged.erase key⟩
              fun _ => hbooks.unstage iv hlook hlen
          have hmin : iv.minPt = taken.subState.topNum + 1 := by
            show key = ctx.subState.topNum + 1
            omega
          have htj : jobRange (taken.buddy p).job = none := hj
          obtain ⟨ctx₁, job, handed, heq, hskip⟩ :=
            importStart_spec htj hne hnum hlen hrun hmin hinv₁ .unstage
          rw [show blocksImportStart { ctx with blk := ctx.blk.stagedQueueDelete key } item
            .unstage = .ok (ctx₁, job, handed) from heq]
          have hkeeps : BlkKeeps ctx ctx₁ := htaken.trans hskip.keeps
          have hj₁ : jobRange (ctx₁.buddy p).job = none := (hkeeps.jobRange p).trans hj
          cases handed with
          | true => exact ⟨_, rfl, hkeeps.trans (.setJob hj₁), hskip.await rfl⟩
          | false =>
            obtain ⟨hend, hinv₂, -⟩ := importEnd_spec false hskip.wf (hskip.done rfl)
            obtain ⟨ctx₂, hloop, hturn⟩ := ih ((hend.jobRange p).trans hj₁) hinv₂
            exact ⟨ctx₂, hloop, .of_keeps (hkeeps.trans hend) hturn⟩
    next => exact ⟨_, rfl, .idle hj hinv⟩

theorem blocksUnstage_spec (hj : (ctx.buddy p).job = .idle) (hinv : BlkInv (blkView ctx) range none) :
    ∃ ctx', ctx.blocksUnstage p = .ok ctx' ∧ BlkTurn ctx ctx' range := by
  have hopen : blkOpen ctx p = blkView ctx := blkOpen_of_idle (congrArg blkJob hj)
  unfold blocksUnstage
  split
  · exact ⟨ctx, rfl, .refl ctx, hinv⟩
  · exact blocksUnstageLoop_spec _ (congrArg jobRange hj) (hopen ▸ hinv)

end Nimbus.Spec.Beacon
