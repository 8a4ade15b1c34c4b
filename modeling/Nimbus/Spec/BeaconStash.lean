import Nimbus.Spec.BeaconHeaders

/-!
# Headers on their way to the cache

What was fetched is put on the cache by the peer that fetched it, or goes to the staged queue
and is put on the cache from there. The cache may reject a list, and then its numbers are
unprocessed again. It may also end the session: the books are of no interest from there on,
but the peer that put the list on the cache is still at work and must not run into an
assertion.
-/

namespace Nimbus.Spec.Beacon

open Nimbus.Native.Beacon
open Nimbus.Native.Beacon.BeaconCtx
open Nimbus.Native.HeaderChainCache
open Nimbus.Spec.HeaderChainCache (ModeAfter)
open BeaconCtx

variable {ctx ctx' : BeaconCtx} {p : PeerId} {bottom : Nat} {rev : List Header}

/-! ## Putting a list on the cache -/

variable [BlockHash]

omit [BlockHash] in
theorem HdrKeeps.setCache {hc : HeaderChainRef} {res : Except HccError Unit} {lo hi : Nat}
    (hcoll : ctx.hdrCache.session.mode = .collecting) (h : PutOutcome ctx.hdrCache hc res lo hi)
    (hlo : 1 ≤ lo) : HdrKeeps ctx { ctx with hdrCache := hc } where
  blk := rfl
  asked := rfl
  life hl := by
    have hopen : ctx.hdrCache.session.mode ≠ .closed := by
      rw [hcoll]
      simp
    have hsession := hl.session hopen
    refine ⟨hl.pool, ?_, h.keyed hl.keyed, fun _ => ⟨?_, ?_, ?_⟩⟩
    · intro hclosed
      have hafter : ModeAfter .collecting .closed := hclosed ▸ h.mode
      unfold ModeAfter at hafter
      simp at hafter
    · rw [h.head]
      exact hsession.head_pos
    · rw [h.head]
      exact hsession.head_lt
    · cases h.ante with
      | inl heq => exact heq ▸ hsession.ante_pos
      | inr hlow => exact hlo.trans hlow.2

/-- What `headersStashOnDisk` leaves of the state `ctx`, for a list with the numbers `iv`. -/
structure Stashed (ctx ctx' : BeaconCtx) (num : Option Nat) (iv : PtRange) : Prop where
  keeps : HdrKeeps ctx ctx'
  hdr : ctx'.hdr = ctx.hdr
  fetch : (hdrView ctx').fetch = (hdrView ctx).fetch
  put : ∃ res, PutOutcome ctx.hdrCache ctx'.hdrCache res iv.minPt iv.maxPt ∧
    (num = none ↔ ∃ e, res = .error e)

theorem headersStashOnDisk_spec {iv : PtRange} (q : PeerId)
    (hcoll : ctx.hdrCache.session.mode = .collecting) (hr : ForRange rev iv.minPt iv.maxPt)
    (hlo : 1 ≤ iv.minPt) (hhi : iv.maxPt < ctx.hdrCache.session.ante.number) :
    ∃ ctx' num, ctx.headersStashOnDisk p rev q = (ctx', num) ∧ Stashed ctx ctx' num iv := by
  cases hput : ctx.hdrCache.put rev with
  | mk hc res =>
    have houtcome := put_spec hcoll hr hlo hhi hput
    have hset : HdrKeeps ctx { ctx with hdrCache := hc } := .setCache hcoll houtcome hlo
    have hframe : ∀ ctx' num, Frame { ctx with hdrCache := hc } ctx' →
        (num = none ↔ ∃ e, res = .error e) → Stashed ctx ctx' num iv := by
      intro ctx' num h hnum
      have hfetch := congrArg HdrView.fetch h.hdrView_eq
      refine ⟨hset.trans (.of_frame h), h.hdr, hfetch, res, ?_, hnum⟩
      rw [h.hdrCache]
      exact houtcome
    unfold headersStashOnDisk
    rw [hput]
    cases res with
    | error e =>
      have hban : Frame { ctx with hdrCache := hc } ({ ctx with hdrCache := hc }.modifySyncPeer p q
          (·.setApplyHdr (nStashHeadersErrThreshold + 1))) := modifySyncPeer_frame fun _ => rfl
      refine ⟨_, none, rfl, hframe _ none (hban.trans (registerProcFail_frame _ _)) ?_⟩
      exact iff_of_true rfl ⟨e, rfl⟩
    | ok done =>
      have hreset : Frame { ctx with hdrCache := hc } ({ ctx with hdrCache := hc }.modifySyncPeer p q
          (·.setApplyHdr 0)) := modifySyncPeer_frame fun _ => rfl
      refine ⟨_, _, rfl, hframe _ _ hreset (iff_of_false (by simp) ?_)⟩
      rintro ⟨e, he⟩
      cases he

theorem headersStashOnDisk_hdr {q : PeerId} {num : Option Nat}
    (h : ctx.headersStashOnDisk p rev q = (ctx', num)) : ctx'.hdr = ctx.hdr := by
  unfold headersStashOnDisk at h
  split at h
  · obtain ⟨rfl, -⟩ := Prod.mk.inj h
    exact (registerProcFail_frame _ _).hdr
  · obtain ⟨rfl, -⟩ := Prod.mk.inj h
    rfl

namespace Stashed

variable {num : Option Nat} {iv : PtRange}

omit [BlockHash]

theorem hdrView_eq (h : Stashed ctx ctx' num iv) : hdrView ctx' = { hdrView ctx with
    mode := ctx'.hdrCache.session.mode
    ante := ctx'.hdrCache.session.ante.number } := by
  have hfetch := h.fetch
  unfold hdrView at hfetch ⊢
  rw [h.hdr, h.keeps.syncState, h.keeps.poolMode]
  exact congrArg (HdrView.mk _ _ _ _ _ _) hfetch

theorem openView_eq (h : Stashed ctx ctx' num iv) (p : PeerId) : openView ctx' p =
    { openView ctx p with
      mode := ctx'.hdrCache.session.mode
      ante := ctx'.hdrCache.session.ante.number } := by
  unfold openView
  rw [h.hdrView_eq]

theorem mode (h : Stashed ctx ctx' num iv) (hcoll : ctx.hdrCache.session.mode = .collecting) :
    ModeAfter ctx.hdrCache.session.mode ctx'.hdrCache.session.mode := by
  obtain ⟨res, hput, -⟩ := h.put
  rw [hcoll]
  exact hput.mode

/-- While the session goes on, a rejected list changes nothing. -/
theorem rejected (h : Stashed ctx ctx' none iv)
    (hcoll' : ctx'.hdrCache.session.mode = .collecting) :
    ctx'.hdrCache.session.ante = ctx.hdrCache.session.ante := by
  obtain ⟨res, hput, hnum⟩ := h.put
  obtain ⟨e, rfl⟩ := hnum.mp rfl
  cases hput.collecting hcoll' with
  | inl herr => exact herr.2
  | inr hok => cases hok.1

/-- While the session goes on, a list that was stored is the next one below the cache. -/
theorem stored {n : Nat} (h : Stashed ctx ctx' (some n) iv)
    (hcoll' : ctx'.hdrCache.session.mode = .collecting) :
    iv.maxPt + 1 = ctx.hdrCache.session.ante.number ∧
      ctx'.hdrCache.session.ante.number = iv.minPt := by
  obtain ⟨res, hput, hnum⟩ := h.put
  cases hput.collecting hcoll' with
  | inl herr => cases hnum.mpr herr.1
  | inr hok => exact hok.2

/-- What the running peer may rely on after its list was put on the cache, whether or not the
session goes on. -/
theorem canFetch (h : Stashed ctx ctx' num iv) (hb : HdrBooks (openView ctx p) bottom (some iv)) :
    CanFetch (openView ctx' p) := by
  rw [h.openView_eq]
  refine ⟨hb.roomy, fun n hn => hb.disjoint hn, ?_⟩
  intro n hn
  have hlt := (hb.of_unprocessed hn).2
  obtain ⟨res, hput, -⟩ := h.put
  show n < ctx'.hdrCache.session.ante.number
  cases hput.ante with
  | inl heq =>
    rw [heq]
    exact hlt
  | inr hlow =>
    -- the list reached up to the lowest header, and `n` is not on it
    have hante : n < ctx.hdrCache.session.ante.number := hlt
    have hout : n ∉ iv := fun hin => (hb.hand_disjoint hin).1 hn
    rw [PtRange.mem_def] at hout
    omega

end Stashed

/-- A step of the header download, from the end of one `await` to the next. -/
structure HdrTurn (ctx ctx' : BeaconCtx) (bottom : Nat) : Prop where
  keeps : HdrKeeps ctx ctx'
  mode : ModeAfter ctx.hdrCache.session.mode ctx'.hdrCache.session.mode
  books : ctx'.hdrCache.session.mode = .collecting → HdrBooks (hdrView ctx') bottom none

section

omit [BlockHash]

theorem HdrTurn.of_keeps {ctx'' : BeaconCtx} (h : HdrKeeps ctx ctx')
    (hmode : ModeAfter ctx.hdrCache.session.mode ctx'.hdrCache.session.mode)
    (h' : HdrTurn ctx' ctx'' bottom) : HdrTurn ctx ctx'' bottom where
  keeps := h.trans h'.keeps
  mode := by
    cases h'.mode with
    | inl heq => exact heq ▸ hmode
    | inr hend => exact .inr hend
  books := h'.books

theorem HdrTurn.of_collected (h : Collected ctx ctx' p)
    (hb : ctx.hdrCache.session.mode = .collecting → HdrBooks (openView ctx p) bottom none) :
    HdrTurn ctx ctx' bottom where
  keeps := h.keeps
  mode := .inl (by rw [h.hdrCache])
  books hcoll := by
    rw [h.hdrCache] at hcoll
    exact h.books bottom (hb hcoll)

theorem HdrKeeps.append (ctx : BeaconCtx) (lo hi : Nat) :
    HdrKeeps ctx { ctx with hdr := ctx.hdr.unprocAppend lo hi } :=
  .setHdr ctx (unprocAppend_asked ctx.hdr lo hi)

end

/-- The list is put on the cache, or goes back to the unprocessed ones. -/
theorem headersCollectStash_spec {iv : PtRange}
    (hj : blkJob (ctx.buddy p).job = .idle) (hcoll : ctx.hdrCache.session.mode = .collecting)
    (hb : HdrBooks (openView ctx p) bottom (some iv)) (hr : ForRange rev iv.minPt iv.maxPt)
    (stashedOK : Bool) :
    ∃ ctx', ctx.headersCollectStash p stashedOK rev = .ok ctx' ∧ HdrTurn ctx ctx' bottom := by
  have hhand := hb.hand_range
  let seen : BeaconCtx := { ctx with seenData := true }
  have hseen : Frame ctx seen := ⟨rfl, rfl, rfl, rfl, rfl, rfl, rfl, rfl, fun _ => rfl⟩
  obtain ⟨ctx₁, num, heq, hst⟩ : ∃ ctx' num, seen.headersStashOnDisk p rev p = (ctx', num) ∧
      Stashed seen ctx' num iv := headersStashOnDisk_spec p hcoll hr hhand.1 hhand.2.2
  have hbseen : HdrBooks (openView seen p) bottom (some iv) := hb
  have hkeeps : HdrKeeps ctx ctx₁ := (HdrKeeps.of_frame hseen).trans hst.keeps
  have hmode : ModeAfter ctx.hdrCache.session.mode ctx₁.hdrCache.session.mode := hst.mode hcoll
  have hj₁ : blkJob (ctx₁.buddy p).job = .idle := (hkeeps.blkJob p).trans hj
  unfold headersCollectStash
  dsimp only
  rw [show headersStashOnDisk { ctx with seenData := true } p rev p = (ctx₁, num) from heq]
  cases num with
  | none =>
    have happend := HdrKeeps.append ctx₁ (rev.getLastD {}).number (rev.headD {}).number
    have hj₂ := (happend.blkJob p).trans hj₁
    refine ⟨_, rfl, .of_keeps (hkeeps.trans happend) hmode
      (.of_collected (.done _ p hj₂ stashedOK 0) ?_)⟩
    intro hcoll'
    have hview : openView ctx₁ p = openView ctx p := by
      rw [hst.openView_eq, hst.rejected hcoll', show ctx₁.hdrCache.session.mode = _ from hcoll',
        ← hcoll]
      rfl
    have hhdr : ctx₁.hdr = ctx.hdr := hst.hdr
    have hout : ∀ n, iv.minPt ≤ n → n ≤ iv.maxPt → n ∉ ctx₁.hdr.borrowed := by
      intro n hlo hhi
      rw [hhdr]
      exact (hb.hand_disjoint ⟨hlo, hhi⟩).2
    rw [hr.last, hr.first, unprocAppend_spec iv.min_le hout, PtRange.new_self, openView_setHdr,
      hview, hhdr]
    exact hb.giveAll
  | some nHdrs =>
    have hbooks : ctx₁.hdrCache.session.mode = .collecting →
        HdrBooks (openView ctx₁ p) bottom none := by
      intro hcoll'
      obtain ⟨htop, hante⟩ := hst.stored hcoll'
      rw [hst.openView_eq, hcoll', ← hcoll]
      exact hb.stash htop hante
    have hturn : ∀ stashedOK, HdrTurn ctx (ctx₁.headersCollectDone p stashedOK 0) bottom :=
      fun stashedOK => .of_keeps hkeeps hmode (.of_collected (.done ctx₁ p hj₁ stashedOK 0) hbooks)
    dsimp only
    split
    · exact ⟨_, rfl, hturn stashedOK⟩
    · split
      · exact ⟨_, rfl, hturn true⟩
      · -- the session may be over, but the peer goes on until it comes to an `await`
        have hopen : ctx₁.hdrCache.session.mode ≠ .closed := by
          intro h
          rw [hcoll, h] at hmode
          unfold ModeAfter at hmode
          simp at hmode
        have hpos : 1 ≤ ctx₁.hdrCache.session.ante.number := by
          have hlt : iv.maxPt < ctx.hdrCache.session.ante.number := hhand.2.2
          obtain ⟨res, hput, -⟩ := hst.put
          cases hput.ante with
          | inl hsame =>
            rw [hsame]
            show 1 ≤ ctx.hdrCache.session.ante.number
            omega
          | inr hlow => omega
        obtain ⟨ctx₂, hloop, hcollected⟩ :=
          headersCollectLoop_spec hj₁ (hst.canFetch hbseen) hopen hpos true
        exact ⟨ctx₂, hloop, .of_keeps hkeeps hmode (.of_collected hcollected hbooks)⟩

omit [BlockHash] in
theorem headersCollectStage_spec {iv : PtRange}
    (hj : blkJob (ctx.buddy p).job = .idle) (hb : HdrBooks (openView ctx p) bottom (some iv))
    (hr : ForRange rev iv.minPt iv.maxPt) (stashedOK : Bool) :
    ∃ ctx', ctx.headersCollectStage p stashedOK rev = .ok ctx' ∧ HdrTurn ctx ctx' bottom := by
  let item : HeaderChain := { revHdrs := rev, peerID := p }
  obtain ⟨hnone, hstaged⟩ : ctx.hdr.staged.lookup iv.maxPt = none ∧
      HdrBooks { openView ctx p with staged := ctx.hdr.staged.insert iv.maxPt item } bottom none :=
    hb.stage hr
  have hinsert : ctx.hdr.stagedQueueInsert iv.maxPt item =
      .ok { ctx.hdr with staged := ctx.hdr.staged.insert iv.maxPt item } :=
    stagedQueueInsert_spec hnone
  unfold headersCollectStage
  rw [hr.first, hinsert]
  have hkeeps : HdrKeeps ctx { ctx with hdr := { ctx.hdr with
      staged := ctx.hdr.staged.insert iv.maxPt item } } := .setHdr ctx rfl
  refine ⟨_, rfl, .of_keeps hkeeps (.inl rfl) (.of_collected ?_ fun _ => hstaged)⟩
  exact .done _ p ((hkeeps.blkJob p).trans hj) stashedOK rev.length

/-- From an answer to the next `await`. -/
theorem headersCollectResume_spec {job : HeadersJob} (hjob : (ctx.buddy p).job = .headers job)
    (hb : ctx.hdrCache.session.mode = .collecting → HdrBooks (hdrView ctx) bottom none)
    (rc : Except WireError (List Header)) (elapsed : Nat) :
    ∃ ctx', ctx.headersCollectResume p job rc elapsed = .ok ctx' ∧ HdrTurn ctx ctx' bottom := by
  have hp : jobRange (ctx.buddy p).job = some job.iv := by rw [hjob]; rfl
  have hjb : blkJob (ctx.buddy p).job = .idle := by rw [hjob]; rfl
  have hrunning : ¬ (hdrView ctx).Stopped → ctx.hdrCache.session.mode = .collecting := by
    intro hs
    by_contra hne
    exact hs (.inr (.inr hne))
  obtain ⟨ctx₁, res, hfinish, hfetched⟩ :=
    headersFetchFinish_spec hp (fun hs => hb (hrunning hs)) rc elapsed
  have hmode : ModeAfter ctx.hdrCache.session.mode ctx₁.hdrCache.session.mode := by
    rw [hfetched.hdrCache]
    exact .inl rfl
  have hj₁ : blkJob (ctx₁.buddy p).job = .idle := (hfetched.keeps.blkJob p).trans hjb
  -- the books without a list in the hands of the peer
  have hempty : res = none → ctx₁.hdrCache.session.mode = .collecting →
      HdrBooks (openView ctx₁ p) bottom none := by
    intro hnone hcoll
    rw [hfetched.hdrCache] at hcoll
    by_cases hs : (hdrView ctx).Stopped
    · unfold openView
      rw [(hfetched.stopped hs).2]
      exact (hb hcoll).forget hs _
    · exact hfetched.none hs hnone
  have hdone : res = none → ∀ hdr : HeaderFetchSync, hdr.unprocessed = ctx₁.hdr.unprocessed →
      hdr.borrowed = ctx₁.hdr.borrowed → hdr.staged = ctx₁.hdr.staged →
      hdr.asked = ctx₁.hdr.asked →
      HdrTurn ctx ({ ctx₁ with hdr := hdr }.headersCollectDone p job.stashedOK 0) bottom := by
    intro hnone hdr hu hbor hst hasked
    have hkeeps : HdrKeeps ctx₁ { ctx₁ with hdr := hdr } := .setHdr ctx₁ hasked
    refine .of_keeps (hfetched.keeps.trans hkeeps) hmode ?_
    refine .of_collected (.done _ p ((hkeeps.blkJob p).trans hj₁) job.stashedOK 0) ?_
    intro hcoll
    rw [openView_setHdr, hu, hbor, hst, hasked]
    exact hempty hnone hcoll
  unfold headersCollectResume
  rw [hfinish]
  cases res with
  | none =>
    dsimp only
    split
    · exact ⟨_, rfl, hdone rfl ctx₁.hdr rfl rfl rfl rfl⟩
    · exact ⟨_, rfl, hdone rfl ctx₁.hdr.unreserve rfl rfl rfl rfl⟩
  | some rev =>
    have hs : ¬ (hdrView ctx).Stopped := fun hs => nomatch (hfetched.stopped hs).1
    obtain ⟨hv, hr, hbooks⟩ := hfetched.some hs rev rfl
    dsimp only
    split
    · have hcoll : ctx₁.hdrCache.session.mode = .collecting := by
        rw [hfetched.hdrCache]
        exact hrunning hs
      obtain ⟨ctx₂, hstash, hturn⟩ := headersCollectStash_spec hj₁ hcoll hbooks hr job.stashedOK
      exact ⟨ctx₂, hstash, .of_keeps hfetched.keeps hmode hturn⟩
    · have hkeeps : HdrKeeps ctx₁ { ctx₁ with hdr := ctx₁.hdr.unreserve } := .setHdr ctx₁ rfl
      have hbooks' : HdrBooks (openView { ctx₁ with hdr := ctx₁.hdr.unreserve } p) bottom
          (some hv) := hbooks
      obtain ⟨ctx₂, hstage, hturn⟩ := headersCollectStage_spec
        ((hkeeps.blkJob p).trans hj₁) hbooks' hr job.stashedOK
      exact ⟨ctx₂, hstage, .of_keeps (hfetched.keeps.trans hkeeps) hmode hturn⟩

/-! ## Serialising the queue -/

omit [BlockHash] in
/-- There is no gap between the staged queue and the cache but one that will be fetched. -/
theorem le_unprocTotalTop_of_gap {q : HeaderFetchSync} {v : HdrView} {key : Nat}
    {item : HeaderChain} (hb : HdrBooks v bottom none) (hu : v.unprocessed = q.unprocessed)
    (hbor : v.borrowed = q.borrowed) (hlook : v.staged.lookup key = some item)
    (hmax : ∀ k item', v.staged.lookup k = some item' → k ≤ key) (hgap : key + 1 < v.ante) :
    v.ante ≤ u64 (q.unprocTotalTop + 1) := by
  have hkey : bottom ≤ key := by
    obtain ⟨lo, hr⟩ := hb.staged key item hlook
    have hlen := List.length_pos_iff.mpr hr.ne_nil
    have hcount := hr.len
    refine (hb.of_staged hlook ?_).1
    unfold HdrSpan
    rw [hr.last, hr.first]
    omega
  have hregion : v.ante - 1 ∈ {n | bottom ≤ n ∧ n < v.ante} := by
    show bottom ≤ v.ante - 1 ∧ v.ante - 1 < v.ante
    omega
  obtain ⟨place, hown⟩ := (hb.places.mem_iff _).mp hregion
  have hin : v.ante - 1 ∈ q.unprocessed ∨ v.ante - 1 ∈ q.borrowed := by
    cases place with
    | unprocessed => exact .inl (hu ▸ hown)
    | borrowed => exact .inr (hbor ▸ hown)
    | staged k =>
      obtain ⟨item', hk, -, htop⟩ := hown
      obtain ⟨lo, hr⟩ := hb.staged k item' hk
      have hle := hmax k item' hk
      rw [hr.first] at htop
      omega
    | held q => exact absurd hown id
    | hand => exact absurd hown RangeBooks.owns_no_hand
  have htop := HeaderFetchSync.le_unprocTotalTop hin
  have hlt : q.unprocTotalTop < v.ante := by
    by_cases hzero : q.unprocTotalTop = 0
    · omega
    · cases HeaderFetchSync.unprocTotalTop_mem hzero with
      | inl hmem => exact (hb.of_unprocessed (hu ▸ hmem)).2
      | inr hmem => exact (hb.of_borrowed (hbor ▸ hmem)).2
  have hante := hb.ante_lt
  rw [u64_of_lt (by omega)]
  omega

theorem headersUnstageLoop_spec (fuel : Nat)
    (hb : ctx.hdrCache.session.mode = .collecting → HdrBooks (hdrView ctx) bottom none) :
    ∃ ctx', ctx.headersUnstageLoop p fuel = .ok ctx' ∧ HdrTurn ctx ctx' bottom := by
  induction fuel generalizing ctx with
  | zero => exact ⟨ctx, rfl, .refl ctx, .inl rfl, hb⟩
  | succ fuel ih =>
    have hstay : HdrTurn ctx ctx bottom := ⟨.refl ctx, .inl rfl, hb⟩
    unfold headersUnstageLoop
    split
    next hcoll =>
      have hbooks := hb hcoll
      cases htop : ctx.hdr.stagedTop with
      | none => exact ⟨ctx, rfl, hstay⟩
      | some e =>
        obtain ⟨key, item⟩ := e
        obtain ⟨hlook, hmax⟩ := stagedTop_some htop
        obtain ⟨lo, hr⟩ := hbooks.staged key item hlook
        have hlen := List.length_pos_iff.mpr hr.ne_nil
        have hcount := hr.len
        let iv : PtRange := ⟨lo, key, by omega⟩
        have hunstage : HdrBooks { hdrView ctx with staged := ctx.hdr.staged.erase key } bottom
            (some iv) := hbooks.unstage iv hlook hr
        have hhand := hunstage.hand_range
        have hkey : key < ctx.hdrCache.session.ante.number := hhand.2.2
        have hlt := ctx.hdrCache.session.ante.number_lt
        have hante : ctx.antecedent.number = ctx.hdrCache.session.ante.number := by
          unfold antecedent
          rw [if_neg (by simp [hcoll])]
        dsimp only
        rw [hr.first, hr.last, hante, u64_of_lt (show key + 1 < 2 ^ 64 by omega)]
        split
        next hgap =>
          have hreach : ctx.hdrCache.session.ante.number ≤ u64 (ctx.hdr.unprocTotalTop + 1) :=
            le_unprocTotalTop_of_gap hbooks rfl rfl hlook hmax hgap
          exact ⟨ctx, if_pos hreach, hstay⟩
        next hclose =>
          let taken : BeaconCtx := { ctx with hdr := ctx.hdr.stagedQueueDelete key }
          have htaken : HdrKeeps ctx taken := .setHdr ctx rfl
          have hb₁ : HdrBooks (hdrView taken) bottom (some iv) := hunstage
          obtain ⟨ctx₁, num, heq, hst⟩ : ∃ ctx' num,
              taken.headersStashOnDisk p item.revHdrs item.peerID = (ctx', num) ∧
                Stashed taken ctx' num iv :=
            headersStashOnDisk_spec item.peerID hcoll hr hhand.1 hkey
          have hkeeps : HdrKeeps ctx ctx₁ := htaken.trans hst.keeps
          have hmode : ModeAfter ctx.hdrCache.session.mode ctx₁.hdrCache.session.mode :=
            hst.mode hcoll
          rw [show headersStashOnDisk { ctx with hdr := ctx.hdr.stagedQueueDelete key } p
            item.revHdrs item.peerID = (ctx₁, num) from heq]
          cases num with
          | none =>
            have happend := HdrKeeps.append ctx₁ lo key
            refine ⟨_, rfl, hkeeps.trans happend, hmode, ?_⟩
            intro hcoll'
            have hview : hdrView ctx₁ = hdrView taken := by
              rw [hst.hdrView_eq, hst.rejected hcoll',
                show ctx₁.hdrCache.session.mode = _ from hcoll', ← hcoll]
              rfl
            have hhdr : ctx₁.hdr = taken.hdr := hst.hdr
            have hout : ∀ n, lo ≤ n → n ≤ key → n ∉ ctx₁.hdr.borrowed := by
              intro n hlo hhi
              rw [hhdr]
              exact (hb₁.hand_disjoint ⟨hlo, hhi⟩).2
            have hself : PtRange.new lo key = iv := PtRange.new_self iv
            rw [unprocAppend_spec iv.min_le hout, hself]
            have hb₂ : HdrBooks (hdrView ctx₁) bottom (some iv) := hview ▸ hb₁
            exact hb₂.giveAll
          | some nHdrs =>
            have hb₂ : ctx₁.hdrCache.session.mode = .collecting →
                HdrBooks (hdrView ctx₁) bottom none := by
              intro hcoll'
              obtain ⟨htop', hante'⟩ := hst.stored hcoll'
              rw [hst.hdrView_eq, hcoll', ← hcoll]
              exact hb₁.stash htop' hante'
            obtain ⟨ctx₂, hloop, hturn⟩ := ih hb₂
            exact ⟨ctx₂, hloop, .of_keeps hkeeps hmode hturn⟩
    next => exact ⟨ctx, rfl, hstay⟩

theorem headersUnstage_spec
    (hb : ctx.hdrCache.session.mode = .collecting → HdrBooks (hdrView ctx) bottom none) :
    ∃ ctx', ctx.headersUnstage p = .ok ctx' ∧ HdrTurn ctx ctx' bottom := by
  unfold headersUnstage
  split
  · exact ⟨ctx, rfl, .refl ctx, .inl rfl, hb⟩
  · exact headersUnstageLoop_spec _ hb

/-- More rounds than there are lists on the queue make no difference. -/
theorem headersUnstageLoop_fuel {fuel : Nat} (h : ctx.hdr.staged.len < fuel) :
    ctx.headersUnstageLoop p (fuel + 1) = ctx.headersUnstageLoop p fuel := by
  induction fuel generalizing ctx with
  | zero => omega
  | succ fuel ih =>
    rw [headersUnstageLoop, headersUnstageLoop.eq_def ctx p (fuel + 1)]
    split
    next =>
      cases htop : ctx.hdr.stagedTop with
      | none => rfl
      | some e =>
        dsimp only
        split
        · rfl
        · have hshort : (ctx.hdr.stagedQueueDelete e.1).staged.len < fuel := by
            have hlook := (stagedTop_some htop).1
            have hlen := Table.len_erase hlook
            show Table.len (ctx.hdr.staged.erase e.1) < fuel
            omega
          cases hstash : headersStashOnDisk
              { ctx with hdr := ctx.hdr.stagedQueueDelete e.1 } p e.2.revHdrs e.2.peerID with
          | mk ctx₁ num =>
            cases num with
            | none => rfl
            | some nHdrs =>
              have hhdr := headersStashOnDisk_hdr hstash
              exact ih (hhdr ▸ hshort)
    next => rfl

end Nimbus.Spec.Beacon
