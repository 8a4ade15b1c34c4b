import Nimbus.Spec.BeaconBlocks

/-!
# Answers and verdicts in the block download

What a peer does when the bodies arrive, when the access lists arrive, and when the import of
a block is over. Each of the three goes on to the next `await` and keeps the invariant of the
session (`BlkTurn`).
-/

namespace Nimbus.Spec.Beacon

open Nimbus.Native.Beacon
open Nimbus.Native.Beacon.BeaconCtx
open Nimbus.Native.HeaderChainCache BeaconCtx

variable {ctx ctx' : BeaconCtx} {p : PeerId} {range iv : PtRange}

/-! ## After an import -/

section
variable [BlockHash] {job : ImportJob}

theorem blocksImported_spec (isError : Bool) (hlife : Life ctx)
    (hlive : BlkLive ctx) (hj : jobRange (ctx.buddy p).job = none)
    (hwf : ImportWf job ctx.subState.topNum)
    (hinv : BlkInv (blkOpen ctx p) range (importRest job)) :
    ∃ ctx', ctx.blocksImported p job isError = .ok ctx' ∧ BlkTurn ctx ctx' range := by
  obtain ⟨hkeeps, hinv', -⟩ := importEnd_spec isError hwf hinv
  have hj' := (hkeeps.jobRange p).trans hj
  unfold blocksImported
  cases job.origin with
  | collect importedOK =>
    dsimp only
    split
    · exact ⟨_, rfl, .of_keeps hkeeps (.done hj' hinv' _ 0)⟩
    · next hgo =>
      have hlive' := hlive.of_keeps hkeeps
      have hpool : ((ctx.blocksImportEnd p job isError).1.blocksImportRollBack job).poolMode =
          false := by
        simp only [Bool.or_eq_true, not_or, Bool.not_eq_true] at hgo
        exact hgo.2
      obtain ⟨ctx₁, hloop, hturn⟩ := blocksCollectLoop_spec (hkeeps.life hlife) hlive'
        (hlive'.mpr hpool) hj' hinv' (importedOK || decide (0 < _))
      exact ⟨ctx₁, hloop, .of_keeps hkeeps hturn⟩
  | unstage =>
    obtain ⟨ctx₁, hloop, hturn⟩ := blocksUnstageLoop_spec _ hj' hinv'
    exact ⟨ctx₁, hloop, .of_keeps hkeeps hturn⟩

/-- From a round of the import loop to the next `await`. -/
theorem blocksImportGo_spec {handed : Bool} (hlife : Life ctx)
    (hlive : BlkLive ctx) (hj : jobRange (ctx.buddy p).job = none)
    (hskip : Skipped ctx ctx' p range job handed) :
    ∃ ctx'', blocksImportGo p (ctx', job, handed) = .ok ctx'' ∧ BlkTurn ctx ctx'' range := by
  have hj' := (hskip.keeps.jobRange p).trans hj
  cases handed with
  | true => exact ⟨_, rfl, hskip.keeps.trans (.setJob hj'), hskip.await rfl⟩
  | false =>
    obtain ⟨ctx₁, hdone, hturn⟩ := blocksImported_spec false (hskip.keeps.life hlife)
      (hlive.of_keeps hskip.keeps) hj' hskip.wf (hskip.done rfl)
    exact ⟨ctx₁, hdone, .of_keeps hskip.keeps hturn⟩

theorem blocksImportResume_spec (hlife : Life ctx) (hlive : BlkLive ctx)
    (hjob : (ctx.buddy p).job = .importing job) (hinv : BlkInv (blkView ctx) range none)
    (verdict : Verdict) :
    ∃ ctx', ctx.blocksImportResume p job verdict = .ok ctx' ∧ BlkTurn ctx ctx' range := by
  have hp : (blkView ctx).job p = .importing job := congrArg blkJob hjob
  have hj : jobRange (ctx.buddy p).job = none := by rw [hjob]; rfl
  have hwf : JobWf ctx.subState.topNum (.importing job) := hp ▸ hinv.jobs p
  have hbn : job.nthBn = ctx.subState.topNum + 1 := hwf.1.nthBn hwf.2
  -- the import is over without success
  have hfailed : ∀ ctx', Frame (ctx.mark (.failed job.nthBn)) ctx' → ∀ isError,
      ∃ ctx'', ctx'.blocksImported p job isError = .ok ctx'' ∧ BlkTurn ctx ctx'' range := by
    intro ctx' hframe isError
    have hmark : BlkKeeps ctx (ctx.mark (.failed job.nthBn)) := ⟨rfl, rfl, rfl⟩
    have hkeeps := hmark.trans (.of_frame hframe)
    have hinv' : BlkInv (blkOpen ctx' p) range (importRest job) := by
      rw [blkOpen_frame hframe]
      exact hinv.failed hp
    have hwf' : ImportWf job ctx'.subState.topNum := by
      rw [hframe.topNum]
      exact hwf.1
    obtain ⟨ctx₁, hdone, hturn⟩ := blocksImported_spec isError (hkeeps.life hlife)
      (hlive.of_keeps hkeeps) ((hkeeps.jobRange p).trans hj) hwf' hinv'
    exact ⟨ctx₁, hdone, .of_keeps hkeeps hturn⟩
  have hproc : ∀ ctx', Frame (ctx.mark (.failed job.nthBn)) ctx' → Frame
      (ctx.mark (.failed job.nthBn)) (ctx'.registerProcFail job.nthBn nImportBlocksErrThreshold) :=
    fun ctx' h => h.trans (registerProcFail_frame _ _)
  have hself : Frame (ctx.mark (.failed job.nthBn)) (ctx.mark (.failed job.nthBn)) := .refl _
  have hban : Frame (ctx.mark (.failed job.nthBn)) ((ctx.mark (.failed job.nthBn)).modifySyncPeer p
      job.item.peerID (·.setApplyBlk (nProcBlocksErrThreshold + 1))) :=
    modifySyncPeer_frame fun _ => rfl
  unfold blocksImportResume
  cases verdict with
  | ok =>
    let next := (ctx.updateLastBlockImported job.nthBn).mark (.imported job.nthBn)
    have hkeeps : BlkKeeps ctx next := ⟨rfl, rfl, rfl⟩
    have hview : blkOpen next p = { blkView ctx with
        topNum := (blkView ctx).topNum + 1
        job := Function.update (blkView ctx).job p .idle
        marks := (blkView ctx).marks ++ [.imported job.nthBn] } := by
      show { blkOpen ctx p with
        topNum := job.nthBn
        marks := ctx.marks ++ [ImportMark.imported job.nthBn] } = _
      rw [hbn]
      rfl
    have hinv' : BlkInv (blkOpen next p) range (importRest job.next) := hview ▸ hinv.imported hp
    have hwf' : ImportWf job.next next.subState.topNum := by
      show ImportWf job.next job.nthBn
      rw [hbn]
      exact hwf.1.step hwf.2
    have hcount : job.next.n + (job.item.blocks.length - (job.n + 1)) =
        job.next.item.blocks.length := by
      have hlt := hwf.2
      rw [ImportWf.length_next]
      show job.n + 1 + _ = _
      omega
    have hquiet : ∀ q, ¬ Importing (blkOpen next p) q := hinv.quiet_others hp
    have hj' : jobRange (next.buddy p).job = none := hj
    obtain ⟨ctx₁, job₁, handed, heq, hskip⟩ := importSkip_spec hj' hcount hwf' hinv' hquiet
    obtain ⟨ctx₂, hgo, hturn⟩ :=
      blocksImportGo_spec (hkeeps.life hlife) (hlive.of_keeps hkeeps) hj' hskip
    refine ⟨ctx₂, ?_, .of_keeps hkeeps hturn⟩
    dsimp only
    rw [show importSkip _ job.next _ = (ctx₁, job₁, handed) from heq]
    exact hgo
  | cancelled => exact hfailed _ hself false
  | orphaned =>
    dsimp only
    split
    · exact hfailed _ hself false
    · exact hfailed _ (hproc _ hself) false
  | missingParent =>
    dsimp only
    split
    · exact hfailed _ hself false
    · exact hfailed _ (hproc _ hself) false
  | invalid =>
    dsimp only
    split
    · exact hfailed _ hself false
    · exact hfailed _ (hproc _ hban) true

end

/-! ## The end of a fetch -/

/-- What may come out of a fetch for the range `iv`. -/
structure ItemFor (item : BlocksForImport) (iv : PtRange) : Prop where
  ne_nil : item.blocks ≠ []
  numbered : Numbered item.blocks 0 iv.minPt
  len : item.blocks.length ≤ iv.len

/-- What the end of a fetch leaves: nothing, or a list of blocks in the hands of the peer. -/
structure BlkFetched (ctx ctx' : BeaconCtx) (p : PeerId) (range iv : PtRange)
    (rc res : Option BlocksForImport) : Prop where
  keeps : BlkKeeps ctx ctx'
  subState : ctx'.subState = ctx.subState
  none : res = none → BlkInv (blkOpen ctx' p) range none
  some : ∀ item, res = some item → rc = some item ∧ ctx.syncState = .blocks ∧
    ∃ hv : PtRange, hv.minPt = iv.minPt ∧ hv.minPt + item.blocks.length = hv.maxPt + 1 ∧
      BlkInv (blkOpen ctx' p) range (some hv)

theorem blocksFetchFinish_spec {rc : Option BlocksForImport} (hlive : BlkLive ctx)
    (hp : blkRange (ctx.buddy p).job = some iv) (hinv : BlkInv (blkView ctx) range none)
    (hrc : ∀ item, rc = some item → ItemFor item iv) :
    ∃ ctx' res, ctx.blocksFetchFinish iv rc = .ok (ctx', res) ∧
      BlkFetched ctx ctx' p range iv rc res := by
  have hview : blkRange ((blkView ctx).job p) = some iv := by
    show blkRange (blkJob (ctx.buddy p).job) = some iv
    cases hjob : (ctx.buddy p).job with
    | headers job =>
      rw [hjob] at hp
      cases hp
    | _ =>
      rw [hjob] at hp
      exact hp
  have hnot : ¬ Importing (blkView ctx) p := by
    rintro ⟨j, hj⟩
    rw [hj] at hview
    cases hview
  have hidle : ∀ j, Job.idle ≠ .importing j := by simp
  unfold blocksFetchFinish
  by_cases hs : ctx.blkSessionStopped = true
  · rw [if_pos hs]
    refine ⟨ctx, none, rfl, .refl ctx, rfl, fun _ => ?_, fun _ h => nomatch h⟩
    exact hinv.setJob (blkView ctx).toRangeBooks hnot hidle trivial
      fun hrun => absurd hrun (hlive.stopped_iff.mp hs)
  · have hrun : ctx.syncState = .blocks := by
      by_contra hne
      exact hs (hlive.stopped_iff.mpr hne)
    have hbooks : BlkBooks (blkView ctx) none := hinv.books hrun
    have htake := hbooks.take hview
    have hbor : ∀ n ∈ iv, n ∈ ctx.blk.borrowed := fun n hn => hbooks.fetch_borrowed hview hn
    have hunp : ∀ n ∈ iv, n ∉ ctx.blk.unprocessed := fun n hn hu => hbooks.disjoint hu (hbor n hn)
    rw [if_neg hs]
    cases rc with
    | none =>
      rw [unprocCommit_spec hbor hunp]
      refine ⟨_, none, rfl, ⟨rfl, rfl, rfl⟩, rfl, fun _ => ?_, fun _ h => nomatch h⟩
      exact hinv.setJob ⟨ctx.blk.unprocessed.merge iv, ctx.blk.borrowed.reduce iv, ctx.blk.staged⟩
        hnot hidle trivial fun _ => htake.giveAll
    | some item =>
      obtain ⟨hne, hnum, hlen⟩ := hrc item rfl
      have hpos := List.length_pos_iff.mpr hne
      have hmin := iv.min_le
      have hmax : iv.maxPt ≤ ctx.subState.headNum := (hbooks.of_borrowed (hbor _ iv.maxPt_mem)).2
      have hhead : ctx.subState.headNum + 1 < 2 ^ 64 := hbooks.head_lt
      unfold PtRange.len at hlen
      let hv : PtRange := ⟨iv.minPt, iv.minPt + item.blocks.length - 1, by omega⟩
      have hrest : u64 (iv.minPt + item.blocks.length) = iv.minPt + item.blocks.length :=
        u64_of_lt (by omega)
      have hunp' : ∀ n, iv.minPt + item.blocks.length ≤ n → n ≤ iv.maxPt →
          n ∉ ctx.blk.unprocessed := fun n hlo hhi => hunp n ⟨by omega, hhi⟩
      dsimp only
      rw [hrest, unprocCommitRest_spec hbor hunp']
      refine ⟨_, some item, rfl, ⟨rfl, rfl, rfl⟩, rfl, nofun, ?_⟩
      intro item' h
      obtain rfl := Option.some.inj h
      refine ⟨rfl, hrun, hv, rfl, ?_, ?_⟩
      · show iv.minPt + item.blocks.length = iv.minPt + item.blocks.length - 1 + 1
        omega
      · refine hinv.setJob ⟨mergeRest ctx.blk.unprocessed (iv.minPt + item.blocks.length) iv.maxPt,
          ctx.blk.borrowed.reduce iv, ctx.blk.staged⟩ hnot hidle trivial fun _ => ?_
        apply htake.give (some hv)
        · intro n rv hrv hn
          obtain rfl := Option.some.inj hrv
          exact ⟨hn.1, hn.2.trans (show iv.minPt + item.blocks.length - 1 ≤ iv.maxPt by omega)⟩
        · intro n
          simp only [mem_mergeRest, Option.some.injEq, forall_eq', PtRange.mem_def]
          have hor : (iv.minPt + item.blocks.length ≤ n ∧ n ≤ iv.maxPt) ↔
              (iv.minPt ≤ n ∧ n ≤ iv.maxPt) ∧
                ¬ (iv.minPt ≤ n ∧ n ≤ iv.minPt + item.blocks.length - 1) := by omega
          rw [hor]
          exact Iff.rfl

theorem blocksCollectFetched_spec [BlockHash] {rc : Option BlocksForImport} {direct : Bool}
    (hlife : Life ctx) (hlive : BlkLive ctx) (hj : jobRange (ctx.buddy p).job = none)
    (hp : blkRange (ctx.buddy p).job = some iv)
    (hdirect : direct = true → directRange ((blkView ctx).job p) = some iv)
    (hinv : BlkInv (blkView ctx) range none) (hrc : ∀ item, rc = some item → ItemFor item iv)
    (importedOK : Bool) :
    ∃ ctx', ctx.blocksCollectFetched p iv direct importedOK rc = .ok ctx' ∧
      BlkTurn ctx ctx' range := by
  obtain ⟨ctx₁, res, hfinish, hfetched⟩ := blocksFetchFinish_spec hlive hp hinv hrc
  have hj₁ := (hfetched.keeps.jobRange p).trans hj
  unfold blocksCollectFetched
  rw [hfinish]
  dsimp only
  cases res with
  | none =>
    have hunreserve : BlkKeeps ctx₁ { ctx₁ with blk := ctx₁.blk.unreserve } := ⟨rfl, rfl, rfl⟩
    have hinv₁ := hfetched.none rfl
    split
    · exact ⟨_, rfl, .of_keeps hfetched.keeps (.done hj₁ hinv₁ importedOK 0)⟩
    · exact ⟨_, rfl, .of_keeps (hfetched.keeps.trans hunreserve)
        (.done ((hunreserve.jobRange p).trans hj₁) hinv₁ importedOK 0)⟩
  | some item =>
    obtain ⟨hrc', hrun, hv, hmin, hlen, hinv₁⟩ := hfetched.some item rfl
    obtain ⟨hne, hnum, -⟩ := hrc item hrc'
    rw [← hmin] at hnum
    dsimp only
    split
    next hd =>
      have hnext : iv.minPt = ctx.subState.topNum + 1 := (hinv.books hrun).direct p iv (hdirect hd)
      let seen : BeaconCtx := { ctx₁ with seenData := true }
      have hseen : BlkKeeps ctx₁ seen := ⟨rfl, rfl, rfl⟩
      have hkeeps := hfetched.keeps.trans hseen
      have hjs : jobRange (seen.buddy p).job = none := hj₁
      have htop : hv.minPt = seen.subState.topNum + 1 := by
        rw [hmin, hnext, show seen.subState = ctx.subState from hfetched.subState]
      have hinv₂ : BlkInv (blkOpen seen p) range (some hv) := hinv₁
      obtain ⟨ctx₂, job, handed, heq, hskip⟩ := importStart_spec hjs hne hnum hlen
        (hkeeps.syncState.trans hrun) htop hinv₂ (.collect importedOK)
      obtain ⟨ctx₃, hgo, hturn⟩ :=
        blocksImportGo_spec (hkeeps.life hlife) (hlive.of_keeps hkeeps) hjs hskip
      refine ⟨ctx₃, ?_, .of_keeps hkeeps hturn⟩
      rw [show blocksImportStart { ctx₁ with seenData := true } item
        (.collect importedOK) = .ok (ctx₂, job, handed) from heq]
      exact hgo
    next =>
      have hbooks : BlkBooks (blkOpen ctx₁ p) (some hv) :=
        hinv₁.books (hfetched.keeps.syncState.trans hrun)
      obtain ⟨hnone, hstaged⟩ := hbooks.stage hne hnum hlen
      let staged : BlocksFetchSync := { ctx₁.blk.unreserve with
        staged := ctx₁.blk.staged.insert hv.minPt item }
      have hinsert : ctx₁.blk.unreserve.stagedQueueInsert hv.minPt item = .ok staged :=
        stagedQueueInsert_spec hnone
      have hstage : BlkKeeps ctx₁ { ctx₁ with blk := staged } := ⟨rfl, rfl, rfl⟩
      have hinv₂ : BlkInv (blkOpen { ctx₁ with blk := staged } p) range none :=
        hinv₁.setBooks ⟨ctx₁.blk.unprocessed, ctx₁.blk.borrowed, staged.staged⟩ fun _ => hstaged
      rw [hnum.head hne, hinsert]
      exact ⟨_, rfl, .of_keeps (hfetched.keeps.trans hstage)
        (.done ((hstage.jobRange p).trans hj₁) hinv₂ importedOK item.blocks.length)⟩

/-! ## After an answer -/

/-- What can be put together goes on from the first header without a gap. -/
theorem appendBodies_spec [HeaderFields] {headers : List Header} {bn : Nat}
    (hfrom : HeadersFrom headers bn) (bodies : List BlockBody) :
    Numbered (appendBodies headers bodies).1 0 bn ∧
      (appendBodies headers bodies).1.length ≤ headers.length := by
  induction headers generalizing bodies bn with
  | nil => exact ⟨fun i blk _ hi => (nomatch hi), le_refl 0⟩
  | cons header headers ih =>
    cases bodies with
    | nil => exact ⟨fun i blk _ hi => (nomatch hi), Nat.zero_le _⟩
    | cons body bodies =>
      have htail : HeadersFrom headers (bn + 1) := by
        intro i h hi
        have hnum := hfrom (i + 1) h hi
        omega
      obtain ⟨hnum, hlen⟩ := ih htail bodies
      unfold appendBodies
      split
      · constructor
        · intro i blk _ hi
          cases i with
          | zero =>
            cases hi
            exact hfrom 0 header rfl
          | succ i =>
            have hrest := hnum i blk (Nat.zero_le i) hi
            omega
        · exact Nat.succ_le_succ hlen
      · exact ⟨fun i blk _ hi => (nomatch hi), Nat.zero_le _⟩

theorem awaitBals_spec {job : BalsJob} (hj : jobRange (ctx.buddy p).job = none)
    (hp : blkRange ((blkView ctx).job p) = some job.iv)
    (hd : directRange (.bals job) = directRange ((blkView ctx).job p))
    (hwf : JobWf ctx.subState.topNum (.bals job)) (hinv : BlkInv (blkView ctx) range none) :
    BlkTurn ctx (ctx.setJob p (.bals job)) range := by
  have hnot : ¬ Importing (blkView ctx) p := by
    rintro ⟨j, h⟩
    rw [h] at hp
    cases hp
  have hjob : ∀ j, blkJob (.bals job) ≠ .importing j := by simp [blkJob]
  refine ⟨.setJob hj, ?_⟩
  rw [blkView_setJob]
  exact hinv.setJob (blkView ctx).toRangeBooks hnot hjob hwf fun hrun =>
    (hinv.books hrun).reJob hp.symm hd hnot hjob

section
variable [BlockHash] [HeaderFields]

theorem bodiesResume_spec {job : BodiesJob} (hlife : Life ctx) (hlive : BlkLive ctx)
    (hjob : (ctx.buddy p).job = .bodies job) (hinv : BlkInv (blkView ctx) range none)
    (rc : Except WireError (List BlockBody)) (elapsed : Nat) :
    ∃ ctx', ctx.bodiesResume p job rc elapsed = .ok ctx' ∧ BlkTurn ctx ctx' range := by
  have hview : (blkView ctx).job p = .bodies job := congrArg blkJob hjob
  have hwf : JobWf ctx.subState.topNum (.bodies job) := hview ▸ hinv.jobs p
  obtain ⟨hlen, hhashes, hfrom⟩ := hwf
  have hpos := job.iv.len_pos
  have hreq : job.blockHashes ≠ [] := by
    intro hnil
    rw [hnil, List.length_nil] at hhashes
    omega
  -- whatever is registered about the peer, the fetch comes to its end
  have hend : ∀ ctx', Frame ctx ctx' → ∀ rc, (∀ item, rc = some item → ItemFor item job.iv) →
      ∃ ctx'', ctx'.blocksCollectFetched p job.iv job.direct job.importedOK rc = .ok ctx'' ∧
        BlkTurn ctx ctx'' range := by
    intro ctx' hframe rc hrc
    have hkeeps : BlkKeeps ctx ctx' := .of_frame hframe
    have hjob' : (ctx'.buddy p).job = .bodies job := (hframe.job p).trans hjob
    have hj' : jobRange (ctx'.buddy p).job = none := by rw [hjob']; rfl
    have hp' : blkRange (ctx'.buddy p).job = some job.iv := by rw [hjob']; rfl
    have hdirect : job.direct = true → directRange ((blkView ctx').job p) = some job.iv := by
      intro hd
      rw [hframe.blkView_eq, hview]
      exact if_pos hd
    obtain ⟨ctx₁, hok, hturn⟩ := blocksCollectFetched_spec (hkeeps.life hlife)
      (hlive.of_keeps hkeeps) hj' hp' hdirect (hframe.blkView_eq.symm ▸ hinv) hrc job.importedOK
    exact ⟨ctx₁, hok, .of_keeps hkeeps hturn⟩
  have hnothing : ∀ item, (none : Option BlocksForImport) = some item → ItemFor item job.iv :=
    fun _ h => nomatch h
  obtain ⟨ctx₁, res, hfetch, hframe, -⟩ := fetchBodies_spec hreq rc elapsed
  unfold bodiesResume
  rw [hfetch]
  cases res with
  | none => exact hend ctx₁ hframe none hnothing
  | some bodies =>
    dsimp only
    split
    · exact hend ctx₁ hframe none hnothing
    · obtain ⟨hnum, hcount⟩ := appendBodies_spec hfrom bodies
      cases happend : appendBodies job.headers bodies with
      | mk blocks cut =>
        rw [happend] at hnum hcount
        dsimp only at hnum hcount ⊢
        generalize hcut : (if cut = true then ctx₁.fetchRegisterError p .bdy false false else ctx₁) =
          ctx₂
        have hframe₂ : Frame ctx ctx₂ := by
          rw [← hcut]
          split
          · exact hframe.trans (fetchRegisterError_frame _ _ _)
          · exact hframe
        cases blocks with
        | nil =>
          have happly : Frame ctx₂ (ctx₂.modifyPeer p fun buddy =>
              buddy.setApplyBlk (u8 (buddy.nErrors.apply.blk + 1))) := modifyPeer_frame fun _ => rfl
          exact hend _ (hframe₂.trans happly) none hnothing
        | cons first rest =>
          dsimp only
          split
          · have hkeeps : BlkKeeps ctx ctx₂ := .of_frame hframe₂
            have hview₂ : (blkView ctx₂).job p = .bodies job := by
              rw [hframe₂.blkView_eq]
              exact hview
            have hj₂ : jobRange (ctx₂.buddy p).job = none := by
              rw [hframe₂.job, hjob]
              rfl
            refine ⟨_, rfl, .of_keeps hkeeps (awaitBals_spec hj₂ ?_ ?_ ?_
              (hframe₂.blkView_eq.symm ▸ hinv))⟩
            · rw [hview₂]
              rfl
            · rw [hview₂]
              rfl
            · refine ⟨by simp, hnum, hlen ▸ hcount, ?_, ?_⟩
              · show ((job.blockHashes.take (first :: rest).length)).length = (first :: rest).length
                rw [List.length_take]
                omega
              · show 0 < ((job.blockHashes.take (first :: rest).length)).length
                rw [List.length_take, List.length_cons]
                omega
          · apply hend ctx₂ hframe₂
            intro item h
            obtain rfl := Option.some.inj h
            exact ⟨by simp [blocksWithBals], hnum, hlen ▸ hcount⟩

theorem balsResume_spec {job : BalsJob} (hlife : Life ctx) (hlive : BlkLive ctx)
    (hjob : (ctx.buddy p).job = .bals job) (hinv : BlkInv (blkView ctx) range none)
    (rc : Except WireError (List (List UInt8))) (elapsed : Nat) :
    ∃ ctx', ctx.balsResume p job rc elapsed = .ok ctx' ∧ BlkTurn ctx ctx' range := by
  have hview : (blkView ctx).job p = .bals job := congrArg blkJob hjob
  have hwf : JobWf ctx.subState.topNum (.bals job) := hview ▸ hinv.jobs p
  obtain ⟨hne, hnum, hlen, hhashes, hraws⟩ := hwf
  obtain ⟨ctx₁, res, hfetch, hframe⟩ := fetchBlockAccessListsSome_spec ctx p hraws rc elapsed
  have hkeeps : BlkKeeps ctx ctx₁ := .of_frame hframe
  have hinv₁ : BlkInv (blkView ctx₁) range none := hframe.blkView_eq.symm ▸ hinv
  have hjob₁ : (ctx₁.buddy p).job = .bals job := (hframe.job p).trans hjob
  have hview₁ : (blkView ctx₁).job p = .bals job := congrArg blkJob hjob₁
  have hj₁ : jobRange (ctx₁.buddy p).job = none := by rw [hjob₁]; rfl
  have hend : ∀ raws, ∃ ctx'', ctx₁.blocksCollectFetched p job.iv job.direct job.importedOK
      (some (blocksWithBals p job.blocks raws)) = .ok ctx'' ∧ BlkTurn ctx ctx'' range := by
    intro raws
    have hdirect : job.direct = true → directRange ((blkView ctx₁).job p) = some job.iv := by
      intro hd
      rw [hview₁]
      exact if_pos hd
    have hp : blkRange (ctx₁.buddy p).job = some job.iv := by rw [hjob₁]; rfl
    have hitem : ∀ item, some (blocksWithBals p job.blocks raws) = some item →
        ItemFor item job.iv := by
      intro item h
      obtain rfl := Option.some.inj h
      exact ⟨hne, hnum, hlen⟩
    obtain ⟨ctx₂, hok, hturn⟩ := blocksCollectFetched_spec (hkeeps.life hlife)
      (hlive.of_keeps hkeeps) hj₁ hp hdirect hinv₁ hitem job.importedOK
    exact ⟨ctx₂, hok, .of_keeps hkeeps hturn⟩
  unfold balsResume
  rw [hfetch]
  cases res with
  | none => exact hend []
  | some rsp =>
    dsimp only
    split
    next hmore =>
      refine ⟨_, rfl, .of_keeps hkeeps (awaitBals_spec hj₁ ?_ ?_ ?_ hinv₁)⟩
      · rw [hview₁]
        rfl
      · rw [hview₁]
        rfl
      · exact ⟨hne, hnum, hlen, hhashes, hmore⟩
    next => exact hend _

omit [HeaderFields] in
theorem blocksCollect_spec (hlife : Life ctx) (hlive : BlkLive ctx) (hrun : ctx.syncState = .blocks)
    (hj : (ctx.buddy p).job = .idle) (hinv : BlkInv (blkView ctx) range none) :
    ∃ ctx', ctx.blocksCollect p = .ok ctx' ∧ BlkTurn ctx ctx' range := by
  have hopen : blkOpen ctx p = blkView ctx := blkOpen_of_idle (congrArg blkJob hj)
  unfold blocksCollect
  split
  · exact ⟨ctx, rfl, .refl ctx, hinv⟩
  · exact blocksCollectLoop_spec hlife hlive hrun (congrArg jobRange hj) (hopen ▸ hinv) false

end

/-! ## The queue is empty in the end -/

theorem importSkip_staged (ctx : BeaconCtx) (job : ImportJob) (count : Nat) :
    (ctx.importSkip job count).1.blk.staged = ctx.blk.staged := by
  induction count generalizing ctx job with
  | zero => rfl
  | succ count ih =>
    unfold importSkip
    split
    · exact ih _ _
    · rfl

theorem importEnd_staged (ctx : BeaconCtx) (p : PeerId) (job : ImportJob) (isError : Bool) :
    ((ctx.blocksImportEnd p job isError).1.blocksImportRollBack job).blk.staged =
      ctx.blk.staged := by
  have hframe : Frame ctx (ctx.blocksImportEnd p job isError).1 := blocksImportEnd_frame job isError
  unfold blocksImportRollBack
  split
  · exact (unprocAppend_staged _ _ _).trans (by rw [hframe.blk])
  · rw [hframe.blk]

/-- More rounds than there are lists on the queue make no difference. -/
theorem blocksUnstageLoop_fuel {fuel : Nat} (h : ctx.blk.staged.len < fuel) :
    ctx.blocksUnstageLoop p (fuel + 1) = ctx.blocksUnstageLoop p fuel := by
  induction fuel generalizing ctx with
  | zero => omega
  | succ fuel ih =>
    rw [blocksUnstageLoop, blocksUnstageLoop.eq_def ctx p (fuel + 1)]
    split
    next =>
      cases hbottom : ctx.blk.stagedBottom with
      | none => rfl
      | some e =>
        dsimp only
        split
        · rfl
        · have hshort : Table.len (ctx.blk.staged.erase e.1) < fuel := by
            have hlen := Table.len_erase (stagedBottom_some hbottom).1
            omega
          cases hstart : blocksImportStart
              { ctx with blk := ctx.blk.stagedQueueDelete e.1 } e.2 .unstage with
          | error e => rfl
          | ok res =>
            obtain ⟨ctx₁, job, handed⟩ := res
            cases handed with
            | true => rfl
            | false =>
              apply ih
              rw [importEnd_staged]
              unfold blocksImportStart at hstart
              dsimp only at hstart
              split at hstart
              · have hskip := importSkip_staged { ctx with blk := ctx.blk.stagedQueueDelete e.1 }
                  { item := e.2, n := 0, minPt := (e.2.blocks.headD {}).header.number,
                    origin := .unstage } e.2.blocks.length
                rw [Except.ok.inj hstart] at hskip
                rw [show ctx₁.blk.staged = ctx.blk.staged.erase e.1 from hskip]
                exact hshort
              · cases hstart
    next => rfl

end Nimbus.Spec.Beacon
