import Nimbus.Spec.BeaconLife

/-!
# Runs of the beacon syncer

Every event keeps the invariant of the syncer, hence it holds in every state of every run.
What the invariant says of the block numbers of a session is stated here in terms of the
descriptor: where each of them is, and in which order blocks are handed to the `FC` module.
-/

namespace Nimbus.Spec.Beacon

open Nimbus.Native.Beacon
open Nimbus.Native.Beacon.BeaconCtx
open Nimbus.Native.HeaderChainCache hiding Defect
open RangeBooks (Spot)
open BeaconCtx

variable {ctx ctx' : BeaconCtx} {p : PeerId} {range : PtRange}
  {bottom : Nat} {hand : Option PtRange}

/-! ## What a worker peer does -/

theorem job_of_isWaiting (h : ctx.isWaiting p = true) : (ctx.buddy p).job = .idle := by
  unfold isWaiting at h
  unfold buddy
  cases hlook : ctx.peers.lookup p with
  | none => rfl
  | some buddy =>
    rw [hlook] at h
    have hidle : buddy.isIdle = true := h
    unfold BeaconPeer.isIdle at hidle
    split at hidle
    next heq => exact heq
    next => cases hidle

theorem exists_of_unprocAvail {Item : Type} {q : FetchSync Item} (h : 0 < q.unprocAvail) :
    ∃ n, n ∈ q.unprocessed := by
  by_contra hno
  have hzero := IntervalSet.total_eq_zero_iff.mpr (not_exists.mp hno)
  unfold FetchSync.unprocAvail at h
  rw [hzero] at h
  exact absurd h (by decide)

namespace BeaconInv

section

variable (h : BeaconInv ctx)
include h

theorem of_hdrTurn (hact : HdrActive (hdrView ctx) range)
    (ht : HdrTurn ctx ctx' range.minPt) : BeaconInv ctx' where
  life := ht.keeps.life h.life
  hdr := by
    have hstate : ctx'.syncState = ctx.syncState := congrArg BlkView.syncState ht.keeps.blk
    have hpool : ctx'.poolMode = ctx.poolMode := congrArg BlkView.poolMode ht.keeps.blk
    refine .inr ⟨range, ht.keeps.asked.trans hact.asked, ?_, ht.books⟩
    show HdrState ctx'.syncState ctx'.poolMode
    rw [hstate, hpool]
    exact hact.state
  blk := ht.keeps.blk ▸ h.blk

theorem of_blkTurn (hact : BlkActive (blkView ctx) range)
    (ht : BlkTurn ctx ctx' range) : BeaconInv ctx' where
  life := ht.keeps.life h.life
  hdr := ht.keeps.hdr ▸ h.hdr
  blk := by
    refine .inr ⟨range, ht.keeps.asked.trans hact.asked, ?_, ht.inv⟩
    show BlkState ctx'.syncState ctx'.poolMode
    rw [ht.keeps.syncState, ht.keeps.poolMode]
    exact hact.state

theorem blkLive (hact : BlkActive (blkView ctx) range) : BlkLive ctx := by
  constructor
  · intro hs
    exact h.life.notPool (by simp [InPool, hs])
  · intro hpool
    cases hact.state with
    | inl hs => exact hs
    | inr hs => exact absurd (hpool.symm.trans hs.2) (by simp)

theorem hdrActive_of_job {job : HeadersJob}
    (hjob : (ctx.buddy p).job = .headers job) : ∃ range, HdrActive (hdrView ctx) range := by
  cases h.hdr with
  | inr hex => exact hex
  | inl hidle =>
    have hnone : jobRange (ctx.buddy p).job = none := hidle.fetch p
    rw [hjob] at hnone
    cases hnone

/-- Where bodies, access lists or an import are awaited there is a session. -/
theorem blkActive_of_job (hjob : blkJob (ctx.buddy p).job ≠ .idle) :
    ∃ range, BlkActive (blkView ctx) range := by
  cases h.blk with
  | inr hex => exact hex
  | inl hidle => exact absurd (hidle.job p) hjob

theorem headersCollect_spec (hwait : ctx.isWaiting p = true)
    (hok : ctx.headersCollectOk p = true) :
    ∃ ctx', ctx.headersCollect p = .ok ctx' ∧ BeaconInv ctx' := by
  have hjob := job_of_isWaiting hwait
  unfold headersCollectOk at hok
  simp only [Bool.and_eq_true, decide_eq_true_eq, Bool.not_eq_true'] at hok
  obtain ⟨⟨-, havail⟩, hrun⟩ := hok
  have hcoll : ctx.hdrCache.session.mode = .collecting := by
    by_contra hne
    have hstop := stopped_iff.mpr (.inr (.inr hne) : (hdrView ctx).Stopped)
    rw [hstop] at hrun
    cases hrun
  have hopen : ctx.hdrCache.session.mode ≠ .closed := by simp [hcoll]
  obtain ⟨n, hn⟩ := exists_of_unprocAvail havail
  cases h.hdr with
  | inl hidle => exact absurd hn (hidle.unprocessed n)
  | inr hex =>
    obtain ⟨range, hact⟩ := hex
    have hview : openView ctx p = hdrView ctx := openView_of_none (by rw [hjob]; rfl)
    have hbooks : HdrBooks (openView ctx p) range.minPt none := hview ▸ hact.books hcoll
    unfold headersCollect
    split
    · exact ⟨ctx, rfl, h⟩
    · obtain ⟨ctx', hloop, hdone⟩ := headersCollectLoop_spec (by rw [hjob]; rfl) hbooks.canFetch
        hopen (h.life.session hopen).ante_pos false
      refine ⟨ctx', hloop, h.of_hdrTurn hact ⟨hdone.keeps, ?_, fun _ => hdone.books _ hbooks⟩⟩
      rw [hdone.hdrCache]
      exact .inl rfl

end

theorem headersUnstage_spec [BlockHash] (h : BeaconInv ctx) :
    ∃ ctx', ctx.headersUnstage p = .ok ctx' ∧ BeaconInv ctx' := by
  cases h.hdr with
  | inl hidle =>
    have hzero : Table.len ctx.hdr.staged = 0 := Table.len_eq_zero_iff.mpr hidle.staged
    exact ⟨ctx, if_pos hzero, h⟩
  | inr hex =>
    obtain ⟨range, hact⟩ := hex
    obtain ⟨ctx', hok, hturn⟩ := Beacon.headersUnstage_spec (p := p) hact.books
    exact ⟨ctx', hok, h.of_hdrTurn hact hturn⟩

theorem headersResume_spec [BlockHash] (h : BeaconInv ctx) {job : HeadersJob}
    (hjob : (ctx.buddy p).job = .headers job) (rc : Except WireError (List Header)) (elapsed : Nat) :
    ∃ ctx', ctx.headersCollectResume p job rc elapsed = .ok ctx' ∧ BeaconInv ctx' := by
  obtain ⟨range, hact⟩ := h.hdrActive_of_job hjob
  obtain ⟨ctx', hok, hturn⟩ := headersCollectResume_spec hjob hact.books rc elapsed
  exact ⟨ctx', hok, h.of_hdrTurn hact hturn⟩

theorem blocksCollect_spec [BlockHash] (h : BeaconInv ctx) (hwait : ctx.isWaiting p = true)
    (hok : ctx.blocksCollectOk p = true) :
    ∃ ctx', ctx.blocksCollect p = .ok ctx' ∧ BeaconInv ctx' := by
  have hjob := job_of_isWaiting hwait
  unfold blocksCollectOk blkSessionStopped at hok
  simp only [Bool.and_eq_true, decide_eq_true_eq, Bool.not_eq_true', Bool.or_eq_false_iff,
    decide_eq_false_iff_not, not_not] at hok
  obtain ⟨⟨-, havail⟩, -, hrun⟩ := hok
  obtain ⟨n, hn⟩ := exists_of_unprocAvail havail
  cases h.blk with
  | inl hidle => exact absurd hn (hidle.unprocessed n)
  | inr hex =>
    obtain ⟨range, hact⟩ := hex
    obtain ⟨ctx', heq, hturn⟩ :=
      Beacon.blocksCollect_spec h.life (h.blkLive hact) hrun hjob hact.inv
    exact ⟨ctx', heq, h.of_blkTurn hact hturn⟩

theorem blocksUnstage_spec (h : BeaconInv ctx) (hwait : ctx.isWaiting p = true) :
    ∃ ctx', ctx.blocksUnstage p = .ok ctx' ∧ BeaconInv ctx' := by
  cases h.blk with
  | inl hidle =>
    have hzero : Table.len ctx.blk.staged = 0 := Table.len_eq_zero_iff.mpr hidle.staged
    exact ⟨ctx, if_pos hzero, h⟩
  | inr hex =>
    obtain ⟨range, hact⟩ := hex
    obtain ⟨ctx', hok, hturn⟩ := Beacon.blocksUnstage_spec (job_of_isWaiting hwait) hact.inv
    exact ⟨ctx', hok, h.of_blkTurn hact hturn⟩

end BeaconInv

/-! ## Peers come and go -/

theorem connect_frame (h : ctx.peers.lookup p = none) (supportsBal : Bool) :
    Frame ctx { ctx with
      peers := ctx.peers.insert p { supportsBal := supportsBal }
      lastSlowPeer := none } := by
  refine ⟨rfl, rfl, rfl, rfl, rfl, rfl, rfl, rfl, fun q => ?_⟩
  unfold buddy
  rw [Table.lookup_insert']
  split
  next heq =>
    rw [heq, h]
    rfl
  next => rfl

theorem disconnect_frame (ctx : BeaconCtx) (p : PeerId) :
    Frame ctx { ctx with peers := ctx.peers.modify p (·.stop) } := by
  have hstop : ∀ buddy : BeaconPeer, buddy.stop.job = buddy.job := fun _ => rfl
  exact modifyTable_frame hstop

theorem leave_frame (h : (ctx.buddy p).job = .idle) (peer : Option PeerId) :
    Frame ctx { ctx with peers := ctx.peers.erase p, lastSlowPeer := peer } := by
  refine ⟨rfl, rfl, rfl, rfl, rfl, rfl, rfl, rfl, fun q => ?_⟩
  by_cases heq : q = p
  · rw [heq, h]
    unfold buddy
    rw [Table.lookup_erase', if_pos rfl]
    rfl
  · unfold buddy
    rw [Table.lookup_erase', if_neg heq]

/-! ## Runs -/

section
variable [BlockHash] [HeaderFields]

theorem stepPeer_spec (h : BeaconInv ctx) (event : Event) :
    ∃ ctx', ctx.stepPeer event = .ok ctx' ∧ BeaconInv ctx' := by
  have hstay : ∃ ctx', Except.ok ctx = (.ok ctx' : Except Defect BeaconCtx) ∧ BeaconInv ctx' :=
    ⟨ctx, rfl, h⟩
  unfold stepPeer
  cases event with
  | headersCollect p =>
    dsimp only
    split
    next hok =>
      rw [Bool.and_eq_true] at hok
      exact h.headersCollect_spec hok.1 hok.2
    next => exact hstay
  | headersUnstage p =>
    dsimp only
    split
    · exact h.headersUnstage_spec
    · exact hstay
  | blocksCollect p =>
    dsimp only
    split
    next hok =>
      rw [Bool.and_eq_true] at hok
      exact h.blocksCollect_spec hok.1 hok.2
    next => exact hstay
  | blocksUnstage p =>
    dsimp only
    split
    next hwait => exact h.blocksUnstage_spec hwait
    next => exact hstay
  | headersReply p rc elapsed =>
    dsimp only
    split
    next job hjob => exact h.headersResume_spec hjob rc elapsed
    next => exact hstay
  | bodiesReply p rc elapsed =>
    dsimp only
    split
    next job hjob =>
      obtain ⟨range, hact⟩ := h.blkActive_of_job (p := p) (by rw [hjob]; simp [blkJob])
      obtain ⟨ctx', hok, hturn⟩ :=
        bodiesResume_spec h.life (h.blkLive hact) hjob hact.inv rc elapsed
      exact ⟨ctx', hok, h.of_blkTurn hact hturn⟩
    next => exact hstay
  | balsReply p rc elapsed =>
    dsimp only
    split
    next job hjob =>
      obtain ⟨range, hact⟩ := h.blkActive_of_job (p := p) (by rw [hjob]; simp [blkJob])
      obtain ⟨ctx', hok, hturn⟩ :=
        balsResume_spec h.life (h.blkLive hact) hjob hact.inv rc elapsed
      exact ⟨ctx', hok, h.of_blkTurn hact hturn⟩
    next => exact hstay
  | importReply p verdict =>
    dsimp only
    split
    next job hjob =>
      obtain ⟨range, hact⟩ := h.blkActive_of_job (p := p) (by rw [hjob]; simp [blkJob])
      obtain ⟨ctx', hok, hturn⟩ :=
        blocksImportResume_spec h.life (h.blkLive hact) hjob hact.inv verdict
      exact ⟨ctx', hok, h.of_blkTurn hact hturn⟩
    next => exact hstay
  | _ => exact hstay

theorem step_spec (h : BeaconInv ctx) (event : Event) : Good (ctx.step event) := by
  have hlife := h.life
  have hpeer : Good (ctx.stepPeer event) := by
    obtain ⟨ctx', hok, hinv⟩ := stepPeer_spec h event
    rw [hok]
    exact hinv
  unfold BeaconCtx.step
  cases event with
  | headUpdate hdr f => exact headUpdateFromCL_spec h hdr f
  | resolveFinHash f =>
    have hsame : (ctx.hdrCache.resolveFinHash f).kvt = ctx.hdrCache.kvt ∧
        (ctx.hdrCache.resolveFinHash f).session = ctx.hdrCache.session :=
      resolveFinHash_same ctx.hdrCache f
    let resolved : BeaconCtx := { ctx with hdrCache := ctx.hdrCache.resolveFinHash f }
    have hview : hdrView resolved = hdrView ctx := by
      unfold hdrView resolved
      rw [hsame.2]
      rfl
    have hlife' : Life resolved := by
      refine ⟨hlife.pool, ?_, ?_, ?_⟩
      · rw [hsame.2]
        exact hlife.closed
      · rw [hsame.1]
        exact hlife.keyed
      · rw [hsame.2]
        exact hlife.session
    exact h.of_views hlife' hview rfl
  | forkChoice chain =>
    exact h.of_views ⟨hlife.pool, hlife.closed, hlife.keyed, hlife.session⟩ rfl rfl
  | headersTarget target =>
    exact h.of_views ⟨hlife.pool, hlife.closed, hlife.keyed, hlife.session⟩ rfl rfl
  | daemon =>
    dsimp only
    split
    · exact updateBeaconState_spec h
    · exact h
  | runPool =>
    dsimp only
    split
    next hok =>
      rw [Bool.and_eq_true] at hok
      exact runPool_spec h hok.1 hok.2
    next => exact h
  | terminate => exact h.of_views ⟨hlife.pool, hlife.closed, hlife.keyed, hlife.session⟩ rfl rfl
  | singleRun baseHeader => exact singleRun_spec h baseHeader
  | singleReset => exact singleReset_spec h
  | restart chain minInitBuddies standByMode => exact setup_spec chain hlife.keyed minInitBuddies standByMode
  | connect p supportsBal =>
    dsimp only
    split
    next hnew => exact h.frame (connect_frame hnew.1 supportsBal)
    next => exact h
  | disconnect p => exact h.frame (disconnect_frame ctx p)
  | leave p =>
    dsimp only
    split
    next hok =>
      rw [Bool.and_eq_true] at hok
      exact h.frame (leave_frame (job_of_isWaiting hok.1) _)
    next => exact h
  | _ => exact hpeer

theorem run_spec (h : BeaconInv ctx) (events : List Event) : Good (ctx.run events) := by
  induction events generalizing ctx with
  | nil => exact h
  | cons event events ih =>
    have hstep := step_spec h event
    show Good ((ctx.step event).bind fun ctx' => ctx'.run events)
    cases heq : ctx.step event with
    | error d =>
      rw [heq] at hstep
      exact hstep
    | ok ctx' =>
      rw [heq] at hstep
      exact ih hstep

end

/-- A run from the start on a new database. -/
def boot [BlockHash] [HeaderFields] (chain : ForkedChain) (minInitBuddies : Int) (standByMode : Bool)
    (events : List Event) : Except Defect BeaconCtx :=
  match setup chain {} minInitBuddies standByMode with
  | .error d => .error d
  | .ok ctx => ctx.run events

theorem boot_spec [BlockHash] [HeaderFields] (chain : ForkedChain) (minInitBuddies : Int)
    (standByMode : Bool) (events : List Event) : Good (boot chain minInitBuddies standByMode events) := by
  have hempty : Keyed {} := fun n r hlook => nomatch hlook
  have hsetup := setup_spec chain hempty minInitBuddies standByMode
  unfold boot
  cases heq : setup chain {} minInitBuddies standByMode with
  | error d =>
    rw [heq] at hsetup
    exact hsetup
  | ok ctx =>
    rw [heq] at hsetup
    exact run_spec hsetup events

/-! ## Where the numbers of a header session are -/

/-- What is where in a header session. When a fetch is over and its peer goes on with the
headers it has got, `turn` holds that peer and the headers. -/
def hdrAt (ctx : BeaconCtx) (turn : Option (PeerId × List Header)) : Spot PeerId → Nat → Prop
  | .unprocessed, n => n ∈ ctx.hdr.unprocessed
  | .fetching p, n =>
    (∀ rev, turn ≠ some (p, rev)) ∧ ∃ job, (ctx.buddy p).job = .headers job ∧ n ∈ job.iv
  | .held p, n =>
    ∃ rev, turn = some (p, rev) ∧ rev ≠ [] ∧
      (rev.getLastD {}).number ≤ n ∧ n ≤ (rev.headD {}).number
  | .staged key, n => ∃ item, ctx.hdr.staged.lookup key = some item ∧ HdrSpan item n

/-- The books of a header session add up. -/
structure HdrAccounts (ctx : BeaconCtx) (bottom : Nat) (turn : Option (PeerId × List Header)) :
    Prop where
  /-- every number that is missing on the cache is in one place -/
  located : Allotted {n | bottom ≤ n ∧ n < ctx.antecedent.number} (hdrAt ctx turn)
  /-- a number is borrowed for as long as its fetch is running -/
  borrowed : ∀ n, n ∈ ctx.hdr.borrowed ↔ ∃ p, hdrAt ctx turn (.fetching p) n
  disjoint : ∀ n ∈ ctx.hdr.unprocessed, n ∉ ctx.hdr.borrowed
  below : ∀ n, n ∈ ctx.hdr.unprocessed ∨ n ∈ ctx.hdr.borrowed → n < ctx.antecedent.number
  quiet : (∀ p n, ¬ hdrAt ctx turn (.fetching p) n) → ∀ n, n ∉ ctx.hdr.borrowed

theorem jobRange_eq_some {job : Job} {iv : PtRange} :
    jobRange job = some iv ↔ ∃ j, job = .headers j ∧ j.iv = iv := by
  cases job <;> simp [jobRange]

/-- The hands of the running peer, seen as one of the places. -/
theorem HdrBooks.located {v : HdrView}
    (h : HdrBooks v bottom hand) (hrun : ¬ v.Stopped) (p : PeerId) :
    Allotted {n | bottom ≤ n ∧ n < v.ante}
      (v.toRangeBooks.At HdrSpan v.fetch fun q n => q = p ∧ ∃ iv, hand = some iv ∧ n ∈ iv) := by
  cases hand with
  | none =>
    have hnone : (fun (q : PeerId) (n : Nat) => q = p ∧ ∃ iv, (none : Option PtRange) = some iv ∧
        n ∈ iv) = noHold := by
      funext q n
      simp [noHold]
    rw [hnone]
    exact RangeBooks.Balanced.located h.places (h.running hrun)
  | some iv =>
    apply RangeBooks.Balanced.located _ (h.running hrun)
    apply RangeBooks.Balanced.hold (p := p) h.places
    · exact fun n => id
    · intro n
      simp
    · intro q hq n
      simp [hq, noHold]

theorem HdrBooks.accounts {v : HdrView}
    {turn : Option (PeerId × List Header)} (h : HdrBooks v bottom hand) (hrun : ¬ v.Stopped)
    (hv : v.toRangeBooks = (hdrView ctx).toRangeBooks) (hante : v.ante = ctx.antecedent.number)
    (hfetch : ∀ q n, RangeBooks.FetchOwns v.fetch q n ↔ hdrAt ctx turn (.fetching q) n)
    (hheld : ∀ q n, (q = p ∧ ∃ iv, hand = some iv ∧ n ∈ iv) ↔ hdrAt ctx turn (.held q) n) :
    HdrAccounts ctx bottom turn := by
  have hspots : Allotted {n | bottom ≤ n ∧ n < ctx.antecedent.number} (hdrAt ctx turn) := by
    rw [← hante]
    apply (h.located hrun p).congr
    intro spot n
    cases spot with
    | unprocessed => rw [hv]; exact Iff.rfl
    | fetching q => exact (hfetch q n).symm
    | held q => exact (hheld q n).symm
    | staged key => rw [hv]; exact Iff.rfl
  have hborrowed : ∀ n, n ∈ ctx.hdr.borrowed ↔ ∃ p, hdrAt ctx turn (.fetching p) n := by
    intro n
    have hlent := (h.running hrun).mem_iff n
    rw [hv] at hlent
    exact hlent.trans (exists_congr fun q => hfetch q n)
  refine ⟨hspots, hborrowed, ?_, ?_, ?_⟩
  · intro n hn
    have hdisjoint := h.disjoint (n := n)
    rw [hv] at hdisjoint
    exact hdisjoint hn
  · rintro n (hn | hn)
    · have hspot : hdrAt ctx turn .unprocessed n := hn
      exact (hspots.mem hspot).2
    · obtain ⟨q, hq⟩ := (hborrowed n).mp hn
      exact (hspots.mem hq).2
  · intro hnone n hn
    obtain ⟨q, hq⟩ := (hborrowed n).mp hn
    exact hnone q n hq

/-- No assertion about header numbers fails, and the books add up at every `await`, and also
when a fetch is over and its peer is about to stash or to stage what it has got. -/
def HeadersAccounted : Except Defect BeaconCtx → Prop
  | .error d => ∃ e, d = .hdrCache e
  | .ok ctx => ∀ range, ctx.hdr.asked = some range → ctx.hdrSessionStopped = false →
    HdrAccounts ctx range.minPt none ∧
      ∀ p job rc elapsed, (ctx.buddy p).job = .headers job →
        ∃ ctx' res, ctx.headersFetchFinish p job.iv rc elapsed = .ok (ctx', res) ∧
          HdrAccounts ctx' range.minPt (some (p, res.getD []))

theorem antecedent_of_collecting (h : ctx.hdrCache.session.mode = .collecting) :
    ctx.hdrCache.session.ante.number = ctx.antecedent.number := by
  unfold antecedent
  rw [if_neg (by simp [h])]

theorem HdrBooks.accounts_await (h : HdrBooks (hdrView ctx) bottom none)
    (hrun : ¬ (hdrView ctx).Stopped) (hcoll : ctx.hdrCache.session.mode = .collecting) :
    HdrAccounts ctx bottom none := by
  apply h.accounts (p := ⟨0⟩) hrun rfl (antecedent_of_collecting hcoll)
  · intro q n
    show (∃ iv, jobRange (ctx.buddy q).job = some iv ∧ n ∈ iv) ↔ _
    simp [hdrAt, jobRange_eq_some]
  · intro q n
    simp [hdrAt]

/-- The accounts after a fetch of `p`, which holds the headers `rev`. -/
theorem HdrBooks.accounts_turn {rev : List Header}
    (h : HdrBooks (openView ctx p) bottom hand) (hrun : ¬ (openView ctx p).Stopped)
    (hcoll : ctx.hdrCache.session.mode = .collecting)
    (hheld : ∀ n, (∃ iv, hand = some iv ∧ n ∈ iv) ↔
      rev ≠ [] ∧ (rev.getLastD {}).number ≤ n ∧ n ≤ (rev.headD {}).number) :
    HdrAccounts ctx bottom (some (p, rev)) := by
  apply h.accounts (p := p) hrun rfl (antecedent_of_collecting hcoll)
  · intro q n
    show (∃ iv, Function.update (fun q => jobRange (ctx.buddy q).job) p none q = some iv ∧ n ∈ iv) ↔ _
    by_cases hq : q = p
    · subst hq
      simp [hdrAt]
    · rw [Function.update_of_ne hq]
      simp [hdrAt, jobRange_eq_some, Ne.symm hq]
  · intro q n
    rw [hheld]
    by_cases hq : q = p
    · subst hq
      simp [hdrAt]
    · simp [hdrAt, hq, Ne.symm hq]

theorem Good.headersAccounted {res : Except Defect BeaconCtx} (h : Good res) :
    HeadersAccounted res := by
  cases res with
  | error d => exact h
  | ok ctx =>
    have hinv : BeaconInv ctx := h
    intro range hasked hopen
    have hact : HdrActive (hdrView ctx) range := by
      cases hinv.hdr with
      | inl hidle => exact absurd (hidle.asked.symm.trans hasked) (by simp)
      | inr hex =>
        obtain ⟨range', hact⟩ := hex
        cases hact.asked.symm.trans hasked
        exact hact
    have hrun : ¬ (hdrView ctx).Stopped := by
      rw [← stopped_iff, hopen]
      simp
    have hcoll : ctx.hdrCache.session.mode = .collecting := by
      by_contra hne
      exact hrun (.inr (.inr hne))
    have hbooks := hact.books hcoll
    refine ⟨hbooks.accounts_await hrun hcoll, fun p job rc elapsed hjob => ?_⟩
    obtain ⟨ctx', res, hok, hfetched⟩ := headersFetchFinish_spec (p := p)
      (jobRange_eq_some.mpr ⟨job, hjob, rfl⟩) (fun _ => hbooks) rc elapsed
    refine ⟨ctx', res, hok, ?_⟩
    have hcoll' : ctx'.hdrCache.session.mode = .collecting := by
      rw [hfetched.hdrCache]
      exact hcoll
    have hrun' : ¬ (openView ctx' p).Stopped := by
      have hstate : ctx'.syncState = ctx.syncState := congrArg BlkView.syncState hfetched.keeps.blk
      have hpool : ctx'.poolMode = ctx.poolMode := congrArg BlkView.poolMode hfetched.keeps.blk
      show ¬ (ctx'.poolMode = true ∨ ctx'.syncState ≠ .headers ∨
        ctx'.hdrCache.session.mode ≠ .collecting)
      rw [hstate, hpool, hfetched.hdrCache]
      exact hrun
    cases res with
    | none =>
      apply (hfetched.none hrun rfl).accounts_turn hrun' hcoll'
      intro n
      simp
    | some rev =>
      obtain ⟨hv, hfor, hb⟩ := hfetched.some hrun rev rfl
      apply hb.accounts_turn hrun' hcoll'
      intro n
      rw [Option.getD_some, hfor.first, hfor.last]
      simp [hfor.ne_nil, PtRange.mem_def]

/-- In every run, every number from the bottom of a header session up to the lowest header on
the cache is in one place. -/
theorem header_numbers_accounted [BlockHash] [HeaderFields] (chain : ForkedChain)
    (minInitBuddies : Int) (standByMode : Bool) (events : List Event) :
    HeadersAccounted (boot chain minInitBuddies standByMode events) :=
  (boot_spec chain minInitBuddies standByMode events).headersAccounted

/-! ## Where the numbers of a block session are -/

/-- What is where in a block session. -/
def blkAt (ctx : BeaconCtx) : Spot PeerId → Nat → Prop
  | .unprocessed, n => n ∈ ctx.blk.unprocessed
  | .fetching p, n => ∃ iv, blkRange (ctx.buddy p).job = some iv ∧ n ∈ iv
  | .held p, n => ∃ job, (ctx.buddy p).job = .importing job ∧ job.nthBn ≤ n ∧ n ≤ job.lastBn
  | .staged key, n => ∃ item, ctx.blk.staged.lookup key = some item ∧ BlkSpan item n

/-- The books of a block session add up. -/
structure BlkAccounts (ctx : BeaconCtx) (head : Nat) : Prop where
  /-- every number that is not imported yet is in one place -/
  located : Allotted {n | ctx.subState.topNum < n ∧ n ≤ head} (blkAt ctx)
  /-- a number is borrowed for as long as its fetch is running -/
  borrowed : ∀ n, n ∈ ctx.blk.borrowed ↔ ∃ p, blkAt ctx (.fetching p) n
  disjoint : ∀ n ∈ ctx.blk.unprocessed, n ∉ ctx.blk.borrowed

/-- The blocks of a session went to the `FC` module one after the other, starting with
`bottom`, and the last one of them is in flight if a peer waits for it. -/
def ImportsInOrder (ctx : BeaconCtx) (bottom : Nat) : Prop :=
  ∃ waiting, follows (bottom - 1) ctx.marks = some (ctx.subState.topNum, waiting) ∧
    ∀ bn, waiting = some bn ↔ ∃ p job, (ctx.buddy p).job = .importing job ∧ job.nthBn = bn

/-- No assertion about block numbers fails, there is one import at a time, the imports are in
order, and the books add up at every `await`. -/
def BlocksAccounted : Except Defect BeaconCtx → Prop
  | .error d => ∃ e, d = .hdrCache e
  | .ok ctx =>
    (∀ p q job job', (ctx.buddy p).job = .importing job → (ctx.buddy q).job = .importing job' →
      p = q) ∧
    ∀ range, ctx.blk.asked = some range → ImportsInOrder ctx range.minPt ∧
      (ctx.blkSessionStopped = false → BlkAccounts ctx range.maxPt)

theorem blkJob_importing {job : Job} {j : ImportJob} :
    blkJob job = .importing j ↔ job = .importing j := by
  cases job <;> simp [blkJob]

theorem blkRange_blkJob (job : Job) : blkRange (blkJob job) = blkRange job := by
  cases job <;> rfl

theorem BlkInv.importsInOrder (h : BlkInv (blkView ctx) range none) :
    ImportsInOrder ctx range.minPt := by
  refine ⟨_, h.order, fun bn => ?_⟩
  have hnth : ∀ p job, (ctx.buddy p).job = .importing job → job.nthBn = ctx.subState.topNum + 1 := by
    intro p job hjob
    have hp : (blkView ctx).job p = .importing job := blkJob_importing.mpr hjob
    have hwf : JobWf ctx.subState.topNum (.importing job) := hp ▸ h.jobs p
    exact hwf.1.nthBn hwf.2
  constructor
  · intro hbn
    by_cases hex : ∃ p, Importing (blkView ctx) p
    · obtain ⟨p, job, hp⟩ := hex
      have hjob : (ctx.buddy p).job = .importing job := blkJob_importing.mp hp
      rw [inFlight_of_importing ⟨job, hp⟩] at hbn
      exact ⟨p, job, hjob, (hnth p job hjob).trans (Option.some.inj hbn)⟩
    · rw [inFlight_of_quiet (not_exists.mp hex)] at hbn
      cases hbn
  · rintro ⟨p, job, hjob, rfl⟩
    rw [inFlight_of_importing ⟨job, blkJob_importing.mpr hjob⟩, hnth p job hjob]
    rfl

theorem BlkInv.accounts (h : BlkInv (blkView ctx) range none) (hrun : ctx.syncState = .blocks) :
    BlkAccounts ctx range.maxPt := by
  have hbooks := h.books hrun
  have hspots : Allotted {n | ctx.subState.topNum < n ∧ n ≤ range.maxPt} (blkAt ctx) := by
    rw [h.head]
    apply (RangeBooks.Balanced.located hbooks.places hbooks.running).congr
    intro spot n
    cases spot with
    | unprocessed => exact Iff.rfl
    | staged key => exact Iff.rfl
    | fetching p =>
      show _ ↔ ∃ iv, blkRange (blkJob (ctx.buddy p).job) = some iv ∧ n ∈ iv
      rw [blkRange_blkJob]
      exact Iff.rfl
    | held p =>
      show (∃ job, (ctx.buddy p).job = .importing job ∧ job.nthBn ≤ n ∧ n ≤ job.lastBn) ↔
        ∃ job, blkJob (ctx.buddy p).job = .importing job ∧ ctx.subState.topNum < n ∧
          n < job.minPt + job.item.blocks.length
      apply exists_congr
      intro job
      rw [blkJob_importing]
      apply and_congr_right
      intro hjob
      have hp : (blkView ctx).job p = .importing job := blkJob_importing.mpr hjob
      have hwf : JobWf ctx.subState.topNum (.importing job) := hp ▸ h.jobs p
      have hnth := hwf.1.nthBn hwf.2
      have hlast := hwf.1.lastBn hwf.2
      omega
  refine ⟨hspots, fun n => ?_, fun n hn => hbooks.disjoint hn⟩
  apply (hbooks.running.mem_iff n).trans
  apply exists_congr
  intro p
  show (∃ iv, blkRange (blkJob (ctx.buddy p).job) = some iv ∧ n ∈ iv) ↔ _
  rw [blkRange_blkJob]
  exact Iff.rfl

theorem Good.blocksAccounted {res : Except Defect BeaconCtx} (h : Good res) :
    BlocksAccounted res := by
  cases res with
  | error d => exact h
  | ok ctx =>
    have hinv : BeaconInv ctx := h
    constructor
    · intro p q job job' hp hq
      have hp' : (blkView ctx).job p = .importing job := blkJob_importing.mpr hp
      have hq' : (blkView ctx).job q = .importing job' := blkJob_importing.mpr hq
      cases hinv.blk with
      | inl hidle => exact absurd ((hidle.job p).symm.trans hp') (by simp)
      | inr hex =>
        obtain ⟨range, hact⟩ := hex
        exact hact.inv.alone p q ⟨job, hp'⟩ ⟨job', hq'⟩
    · intro range hasked
      have hact : BlkActive (blkView ctx) range := by
        cases hinv.blk with
        | inl hidle => exact absurd (hidle.asked.symm.trans hasked) (by simp)
        | inr hex =>
          obtain ⟨range', hact⟩ := hex
          cases hact.asked.symm.trans hasked
          exact hact
      refine ⟨hact.inv.importsInOrder, fun hopen => hact.inv.accounts ?_⟩
      by_contra hne
      rw [((hinv.blkLive hact).stopped_iff).mpr hne] at hopen
      cases hopen

/-- In every run, every number above the last imported block up to the head of a block session
is in one place, and the blocks are imported one at a time and in order. -/
theorem block_numbers_accounted [BlockHash] [HeaderFields] (chain : ForkedChain)
    (minInitBuddies : Int) (standByMode : Bool) (events : List Event) :
    BlocksAccounted (boot chain minInitBuddies standByMode events) :=
  (boot_spec chain minInitBuddies standByMode events).blocksAccounted

end Nimbus.Spec.Beacon
