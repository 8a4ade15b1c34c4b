import Nimbus.Spec.BeaconBodies
import Nimbus.Spec.BeaconStash

/-!
# The state machine of the beacon syncer

The books are set up when a session starts and cleared when it is over. A session is over
once the scheduler has brought all peers to a halt. In between the state machine is in one of
the states of the session. `BeaconInv` ties the two together, and everything that the state
machine, the client and the scheduler do keeps it.
-/

namespace Nimbus.Spec.Beacon

open Nimbus.Native.Beacon
open Nimbus.Native.Beacon.BeaconCtx
open Nimbus.Native.HeaderChainCache hiding Defect
open Nimbus.Native.Aristo (Hash32)
open BeaconCtx IntervalSet

variable {ctx ctx' : BeaconCtx} {p : PeerId} {range : PtRange}

/-! ## Sessions -/

/-- No header session. -/
structure HdrIdle (v : HdrView) : Prop where
  asked : v.asked = none
  unprocessed : ∀ n, n ∉ v.unprocessed
  borrowed : ∀ n, n ∉ v.borrowed
  staged : ∀ key, v.staged.lookup key = none
  fetch : ∀ p, v.fetch p = none

/-- The states of a header session. -/
def HdrState (state : BeaconState) (poolMode : Bool) : Prop :=
  state = .headers ∨ (state = .headersCancel ∨ state = .headersFinish) ∧ poolMode = true

/-- A header session for `range`. -/
structure HdrActive (v : HdrView) (range : PtRange) : Prop where
  asked : v.asked = some range
  state : HdrState v.syncState v.poolMode
  books : v.mode = .collecting → HdrBooks v range.minPt none

/-- No block session. -/
structure BlkIdle (v : BlkView) : Prop where
  asked : v.asked = none
  unprocessed : ∀ n, n ∉ v.unprocessed
  borrowed : ∀ n, n ∉ v.borrowed
  staged : ∀ key, v.staged.lookup key = none
  job : ∀ p, v.job p = .idle

/-- The states of a block session. -/
def BlkState (state : BeaconState) (poolMode : Bool) : Prop :=
  state = .blocks ∨ (state = .blocksCancel ∨ state = .blocksFinish) ∧ poolMode = true

/-- A block session for `range`. -/
structure BlkActive (v : BlkView) (range : PtRange) : Prop where
  asked : v.asked = some range
  state : BlkState v.syncState v.poolMode
  inv : BlkInv v range none

/-- The invariant of the syncer. -/
structure BeaconInv (ctx : BeaconCtx) : Prop where
  life : Life ctx
  hdr : HdrIdle (hdrView ctx) ∨ ∃ range, HdrActive (hdrView ctx) range
  blk : BlkIdle (blkView ctx) ∨ ∃ range, BlkActive (blkView ctx) range

/-- What a step may come to: the invariant holds, or the header cache has failed. -/
def Good : Except Defect BeaconCtx → Prop
  | .ok ctx => BeaconInv ctx
  | .error d => ∃ e, d = .hdrCache e

namespace BeaconInv

theorem of_views (h : BeaconInv ctx) (hl : Life ctx') (hh : hdrView ctx' = hdrView ctx)
    (hb : blkView ctx' = blkView ctx) : BeaconInv ctx' :=
  ⟨hl, hh ▸ h.hdr, hb ▸ h.blk⟩

theorem frame (h : BeaconInv ctx) (hf : Frame ctx ctx') : BeaconInv ctx' :=
  h.of_views (hf.life h.life) hf.hdrView_eq hf.blkView_eq

theorem hdrIdle (h : BeaconInv ctx) (hs : ¬ HdrState ctx.syncState ctx.poolMode) :
    HdrIdle (hdrView ctx) := by
  cases h.hdr with
  | inl hidle => exact hidle
  | inr hex =>
    obtain ⟨range, hact⟩ := hex
    exact absurd hact.state hs

theorem blkIdle (h : BeaconInv ctx) (hs : ¬ BlkState ctx.syncState ctx.poolMode) :
    BlkIdle (blkView ctx) := by
  cases h.blk with
  | inl hidle => exact hidle
  | inr hex =>
    obtain ⟨range, hact⟩ := hex
    exact absurd hact.state hs

end BeaconInv

theorem Life.notPool (h : Life ctx) (hs : ¬ InPool ctx.syncState) : ctx.poolMode = false := by
  by_contra hne
  exact hs (h.pool (by simpa using hne))

/-- Between two sessions. -/
structure Rest (ctx : BeaconCtx) : Prop where
  pool : ctx.poolMode = false
  keyed : Keyed ctx.hdrCache.kvt
  session : ctx.hdrCache.session.mode ≠ .closed → SessionWf ctx.hdrCache.session
  hdr : HdrIdle (hdrView ctx)
  blk : BlkIdle (blkView ctx)

namespace Rest

theorem of_inv (h : BeaconInv ctx) (hpool : ctx.poolMode = false) (hh : ctx.syncState ≠ .headers)
    (hb : ctx.syncState ≠ .blocks) : Rest ctx := by
  have hpool' : ctx.poolMode ≠ true := by simp [hpool]
  refine ⟨hpool, h.life.keyed, h.life.session, h.hdrIdle ?_, h.blkIdle ?_⟩
  · rintro (hs | hs)
    · exact hh hs
    · exact hpool' hs.2
  · rintro (hs | hs)
    · exact hb hs
    · exact hpool' hs.2

/-- Without a session of the cache, there is none of the syncer. -/
theorem of_closed (h : BeaconInv ctx) (hclosed : ctx.hdrCache.session.mode = .closed) :
    Rest ctx := by
  have hstate := h.life.closed hclosed
  have hpool : ctx.poolMode = false := by
    apply h.life.notPool
    unfold InPool
    cases hstate with
    | inl hs => simp [hs]
    | inr hs => simp [hs]
  apply of_inv h hpool
  · rintro hs
    simp [hs] at hstate
  · rintro hs
    simp [hs] at hstate

theorem inv (h : Rest ctx)
    (hclosed : ctx.hdrCache.session.mode = .closed → ctx.syncState = .idle ∨ ctx.syncState = .linger) :
    BeaconInv ctx where
  life := ⟨fun hp => absurd hp (by simp [h.pool]), hclosed, h.keyed, h.session⟩
  hdr := .inl h.hdr
  blk := .inl h.blk

theorem congr (h : Rest ctx) (hpool : ctx'.poolMode = ctx.poolMode)
    (hcache : ctx'.hdrCache = ctx.hdrCache) (hhdr : ctx'.hdr = ctx.hdr)
    (hblk : ctx'.blk = ctx.blk) (hpeers : ctx'.peers = ctx.peers) : Rest ctx' := by
  have hjob : ∀ q, ctx'.buddy q = ctx.buddy q := by
    intro q
    unfold buddy
    rw [hpeers]
  have hidle := h.hdr
  have hidle' := h.blk
  refine ⟨hpool.trans h.pool, ?_, ?_, ⟨?_, ?_, ?_, ?_, ?_⟩, ⟨?_, ?_, ?_, ?_, ?_⟩⟩
  · rw [hcache]; exact h.keyed
  · rw [hcache]; exact h.session
  · show ctx'.hdr.asked = none
    rw [hhdr]; exact hidle.asked
  · show ∀ n, n ∉ ctx'.hdr.unprocessed
    rw [hhdr]; exact hidle.unprocessed
  · show ∀ n, n ∉ ctx'.hdr.borrowed
    rw [hhdr]; exact hidle.borrowed
  · show ∀ key, ctx'.hdr.staged.lookup key = none
    rw [hhdr]; exact hidle.staged
  · intro q
    show jobRange (ctx'.buddy q).job = none
    rw [hjob]; exact hidle.fetch q
  · show ctx'.blk.asked = none
    rw [hblk]; exact hidle'.asked
  · show ∀ n, n ∉ ctx'.blk.unprocessed
    rw [hblk]; exact hidle'.unprocessed
  · show ∀ n, n ∉ ctx'.blk.borrowed
    rw [hblk]; exact hidle'.borrowed
  · show ∀ key, ctx'.blk.staged.lookup key = none
    rw [hblk]; exact hidle'.staged
  · intro q
    show blkJob (ctx'.buddy q).job = .idle
    rw [hjob]; exact hidle'.job q

end Rest

/-! ## Clearing the cache -/

theorem clearHdrCache_spec (h : Rest ctx) : (∃ e, ctx.clearHdrCache = .error (.hdrCache e)) ∨
    ∃ hc, ctx.clearHdrCache = .ok { ctx with hdrCache := hc } ∧
      hc.session = {} ∧ Rest { ctx with hdrCache := hc } := by
  unfold clearHdrCache
  cases hclear : ctx.hdrCache.clear with
  | error e => exact .inl ⟨e, rfl⟩
  | ok hc =>
    obtain ⟨hkeyed, hsession⟩ := h.keyed.clear hclear
    refine .inr ⟨hc, rfl, hsession, h.pool, hkeyed, ?_, ?_, h.blk⟩
    · intro hopen
      rw [hsession] at hopen
      exact absurd rfl hopen
    · exact ⟨h.hdr.asked, h.hdr.unprocessed, h.hdr.borrowed, h.hdr.staged, h.hdr.fetch⟩

/-! ## A header session starts -/

/-- The cache has just opened a session, and the syncer has none. -/
structure Opened (ctx : BeaconCtx) : Prop where
  rest : Rest ctx
  mode : ctx.hdrCache.session.mode = .collecting
  state : ctx.syncState = .idle ∨ ctx.syncState = .linger
  ante : ctx.hdrCache.session.ante = ctx.hdrCache.session.head

theorem Opened.clear (h : Opened ctx) : Good ctx.clearHdrCache := by
  obtain ⟨e, he⟩ | ⟨hc, hok, -, hrest⟩ := clearHdrCache_spec h.rest
  · rw [he]
    exact ⟨e, rfl⟩
  · rw [hok]
    exact hrest.inv fun _ => h.state

theorem activate_spec (h : Opened ctx) {b : Nat} (hb : b + 1 < 2 ^ 64) :
    Good (ctx.activate b ctx.hdrCache.session.head.number) := by
  unfold activate
  rw [u64_of_lt hb]
  split
  next hlt =>
    have hle : b + 1 ≤ ctx.hdrCache.session.head.number - 1 := by omega
    let range := PtRange.new (b + 1) (ctx.hdrCache.session.head.number - 1)
    have hset : ctx.hdr.unprocSet (b + 1) (ctx.hdrCache.session.head.number - 1) =
        { ctx.hdr with
          unprocessed := clear.merge range
          borrowed := .clear
          asked := some range } := by
      exact if_pos hle
    have hrest := h.rest
    rw [hset]
    refine ⟨⟨?_, ?_, hrest.keyed, hrest.session⟩, .inr ⟨range, rfl, .inl rfl, fun _ => ?_⟩, .inl ?_⟩
    · intro hpool
      exact absurd (hrest.pool.symm.trans hpool) (by simp)
    · intro hclosed
      exact absurd (h.mode.symm.trans hclosed) (by simp)
    · have hmem : ∀ n, n ∈ clear.merge range ↔
          b + 1 ≤ n ∧ n ≤ ctx.hdrCache.session.head.number - 1 := by
        intro n
        rw [mem_merge, PtRange.mem_new hle, mem_clear, or_false]
      refine .start (Nat.succ_pos b) ctx.hdrCache.session.ante.number_lt ?_ (fun n hn => mem_clear.mp hn)
        hrest.hdr.staged hrest.hdr.fetch
      intro n
      show n ∈ clear.merge range ↔ b + 1 ≤ n ∧ n < ctx.hdrCache.session.ante.number
      rw [hmem, h.ante]
      omega
    · exact ⟨hrest.blk.asked, hrest.blk.unprocessed, hrest.blk.borrowed, hrest.blk.staged,
        hrest.blk.job⟩
  next => exact h.clear

section
variable [BlockHash]

theorem updateBlindStop_opened (h : Opened ctx) (stop : Header) :
    Opened { ctx with hdrCache := ctx.hdrCache.updateBlindStop stop } ∧
      (ctx.hdrCache.updateBlindStop stop).session.head = ctx.hdrCache.session.head := by
  have hrest := h.rest
  unfold HeaderChainRef.updateBlindStop
  split
  · refine ⟨⟨⟨hrest.pool, hrest.keyed, fun hopen => ?_, ?_, hrest.blk⟩, h.mode, h.state, h.ante⟩, rfl⟩
    · have hwf := hrest.session hopen
      exact ⟨hwf.head_pos, hwf.head_lt, hwf.ante_pos⟩
    · exact hrest.hdr
  · exact ⟨h, rfl⟩

theorem updateActivateSyncer_spec (h : Opened ctx) : Good ctx.updateActivateSyncer := by
  have hhead : ∀ ctx : BeaconCtx, ctx.hdrCache.session.mode = .collecting →
      ctx.head.number = ctx.hdrCache.session.head.number := by
    intro ctx hmode
    unfold BeaconCtx.head
    rw [if_neg (by simp [hmode])]
  unfold updateActivateSyncer
  split
  · exact h.rest.inv fun _ => h.state
  · split
    · split
      next =>
        rw [hhead ctx h.mode]
        exact activate_spec h ctx.hdrCache.chain.base_lt
      next stopBase _ =>
        dsimp only
        split
        · obtain ⟨hopened, -⟩ := updateBlindStop_opened h stopBase.1
          rw [hhead _ hopened.mode]
          exact activate_spec hopened stopBase.2
        · have hrest : Rest { ctx with
              subState := { ctx.subState with cancelRequest := true }
              daemon := true } := h.rest.congr rfl rfl rfl rfl rfl
          exact hrest.inv fun _ => h.state
    · exact h.clear

theorem headUpdateFromCL_spec (h : BeaconInv ctx) (hdr : ChainHeader) (f : Hash32) :
    Good (ctx.headUpdateFromCL hdr f) := by
  have hkeep : ∀ ctx : BeaconCtx, BeaconInv ctx →
      BeaconInv { ctx with consHead := hdr, finHash := f } := by
    intro ctx h
    exact h.of_views ⟨h.life.pool, h.life.closed, h.life.keyed, h.life.session⟩ rfl rfl
  unfold headUpdateFromCL
  split
  · exact h
  next hf =>
    split
    next hstart =>
      have hrest := Rest.of_closed h hstart.2
      have hopens : f ≠ zeroHash32 ∧ ctx.hdrCache.chain.baseNumber + 1 < hdr.1.number ∧
          ctx.hdrCache.session.mode = .closed := ⟨hf, hstart⟩
      let hc := ctx.hdrCache.headUpdateFromCL hdr.1 f
      have hsession : hc.session.mode = .collecting ∧ hc.session.ante = hdr.1 ∧
          hc.session.head = hdr.1 ∧ hc.kvt = ctx.hdrCache.kvt.putHeader hdr.1 := by
        unfold hc HeaderChainRef.headUpdateFromCL
        rw [if_pos hopens]
        dsimp only
        split
        · exact ⟨rfl, rfl, rfl, rfl⟩
        · exact ⟨rfl, rfl, rfl, rfl⟩
      obtain ⟨hmode, hante, hhead, hkvt⟩ := hsession
      have hpos : 1 ≤ hdr.1.number := by omega
      have hopened : Opened { ctx with hdrCache := hc } := by
        refine ⟨⟨hrest.pool, ?_, fun _ => ⟨?_, ?_, ?_⟩, ?_, hrest.blk⟩, hmode,
          h.life.closed hstart.2, hante.trans hhead.symm⟩
        · rw [hkvt]
          exact hrest.keyed.putHeader hpos
        · rw [hhead]
          exact hpos
        · rw [hhead]
          exact hdr.2
        · rw [hante]
          exact hpos
        · exact ⟨hrest.hdr.asked, hrest.hdr.unprocessed, hrest.hdr.borrowed, hrest.hdr.staged,
            hrest.hdr.fetch⟩
      have hgood := updateActivateSyncer_spec hopened
      cases hact : updateActivateSyncer { ctx with hdrCache := hc } with
      | error d =>
        rw [hact] at hgood
        exact hgood
      | ok ctx' =>
        rw [hact] at hgood
        exact hkeep ctx' hgood
    next => exact hkeep ctx h

end

/-! ## Laps of the daemon -/

theorem updateSuspendSyncer_spec (h : Rest ctx)
    (hstate : ctx.syncState = .idle ∨ ctx.syncState = .linger) : Good ctx.updateSuspendSyncer := by
  unfold updateSuspendSyncer
  obtain ⟨e, he⟩ | ⟨hc, hok, -, hrest⟩ := clearHdrCache_spec h
  · rw [he]
    exact ⟨e, rfl⟩
  · rw [hok]
    have hrest' : Rest { ctx with
        hdrCache := hc
        failedPeers := ∅
        seenData := false
        subState := { ctx.subState with cancelRequest := false }
        daemon := false } := hrest.congr rfl rfl rfl rfl rfl
    exact hrest'.inv fun _ => hstate

theorem Rest.enterState (h : Rest ctx) {state : BeaconState}
    (hstate : state = .idle ∨ state = .linger) : Good (ctx.enterState state) := by
  have hrest : Rest { ctx with syncState := state } := h.congr rfl rfl rfl rfl rfl
  cases hstate with
  | inl hidle =>
    subst hidle
    exact updateSuspendSyncer_spec hrest (.inl rfl)
  | inr hlinger =>
    subst hlinger
    exact hrest.inv fun _ => .inr rfl

theorem Keyed.getHeaderByHash {db : KvtDb} (hk : Keyed db) {hash : Hash32} {h : Header}
    (hget : db.getHeaderByHash hash = .ok (some h)) : 1 ≤ h.number := by
  unfold KvtDb.getHeaderByHash at hget
  split at hget
  · cases hget
  · next bn _ =>
    unfold KvtDb.getHeader at hget
    split at hget
    · cases hget
    · next h' hlook =>
      cases hget
      have hr : h.number = bn ∧ 1 ≤ bn := hk bn (.header h) hlook
      omega
    · cases hget

/-- Finding the number of the finalised block changes neither the headers nor the session. -/
theorem resolveFinHash_same (hc : HeaderChainRef) (f : Hash32) :
    (hc.resolveFinHash f).kvt = hc.kvt ∧ (hc.resolveFinHash f).session = hc.session := by
  unfold HeaderChainRef.resolveFinHash
  dsimp only
  split
  · exact ⟨rfl, rfl⟩
  · exact ⟨rfl, rfl⟩

theorem commit_spec {hc hc' : HeaderChainRef} {res : Except HccError Unit} (hk : Keyed hc.kvt)
    (hwf : SessionWf hc.session) (hopen : hc.session.mode ≠ .closed)
    (h : hc.commit = .ok (hc', res)) :
    Keyed hc'.kvt ∧ SessionWf hc'.session ∧ hc'.session.mode ≠ .closed := by
  -- the chain is locked at the header `ante`, or it is an orphan
  have hset : ∀ (hc₁ : HeaderChainRef) (mode : HeaderChainMode), Keyed hc₁.kvt →
      SessionWf hc₁.session → mode ≠ .closed → ∀ res', .ok (hc₁.setMode mode, res') =
        (.ok (hc', res) : Except Native.HeaderChainCache.Defect _) →
      Keyed hc'.kvt ∧ SessionWf hc'.session ∧ hc'.session.mode ≠ .closed := by
    intro hc₁ mode hk hwf hne res' heq
    obtain ⟨rfl, -⟩ := Prod.mk.inj (Except.ok.inj heq)
    exact ⟨hk, ⟨hwf.head_pos, hwf.head_lt, hwf.ante_pos⟩, hne⟩
  unfold HeaderChainRef.commit at h
  split at h
  · obtain ⟨rfl, -⟩ := Prod.mk.inj (Except.ok.inj h)
    exact ⟨hk, hwf, hopen⟩
  · split at h
    · split at h
      · exact hset hc .locked hk hwf (by simp) _ h
      · exact hset hc .orphan hk hwf (by simp) _ h
    · split at h
      · exact hset hc .locked hk hwf (by simp) _ h
      · generalize hres : (if hc.chain.pendingFCU ≠ zeroHash32 then
          hc.resolveFinHash hc.chain.pendingFCU else hc) = hc₁ at h
        have hsame : hc₁.kvt = hc.kvt ∧ hc₁.session = hc.session := by
          rw [← hres]
          split
          · exact resolveFinHash_same hc _
          · exact ⟨rfl, rfl⟩
        rw [← hsame.1] at hk
        rw [← hsame.2] at hwf
        dsimp only at h
        split at h
        · split at h
          · refine hset { hc₁ with session := { hc₁.session with ante := hc₁.session.head } } .locked
              hk ⟨hwf.head_pos, hwf.head_lt, hwf.head_pos⟩ (by simp) _ h
          · cases hget : hc₁.kvt.getHeaderByHash hc₁.chain.latestFinalized.hash with
            | error e =>
              rw [hget] at h
              cases h
            | ok found =>
              rw [hget] at h
              cases found with
              | none => cases h
              | some hdr =>
                exact hset { hc₁ with session := { hc₁.session with ante := hdr } } .locked hk
                  ⟨hwf.head_pos, hwf.head_lt, hk.getHeaderByHash hget⟩ (by simp) _ h
        · exact hset hc₁ .orphan hk hwf (by simp) _ h

theorem setupProcessingBlocks_spec (h : Rest ctx) (hopen : ctx.hdrCache.session.mode ≠ .closed) :
    BeaconInv { ctx.setupProcessingBlocks with syncState := .blocks } := by
  have hwf := h.session hopen
  have hpos := hwf.ante_pos
  have hlt := hwf.head_lt
  have halt := ctx.hdrCache.session.ante.number_lt
  have hante : ctx.antecedent.number = ctx.hdrCache.session.ante.number := by
    unfold antecedent
    rw [if_neg hopen]
  have hhead : ctx.head.number = ctx.hdrCache.session.head.number := by
    unfold BeaconCtx.head
    rw [if_neg hopen]
  have htop : u64 (ctx.antecedent.number + (2 ^ 64 - 1)) = ctx.hdrCache.session.ante.number - 1 := by
    unfold u64
    omega
  have hmin : u64 (ctx.hdrCache.session.ante.number - 1 + 1) = ctx.hdrCache.session.ante.number := by
    rw [u64_of_lt (by omega)]
    omega
  unfold setupProcessingBlocks
  dsimp only
  rw [htop, hmin, hhead]
  refine ⟨⟨?_, ?_, h.keyed, h.session⟩, .inl ?_, ?_⟩
  · intro hpool
    exact absurd (h.pool.symm.trans hpool) (by simp)
  · exact fun hclosed => absurd hclosed hopen
  · exact ⟨h.hdr.asked, h.hdr.unprocessed, h.hdr.borrowed, h.hdr.staged, h.hdr.fetch⟩
  · unfold FetchSync.unprocSet
    split
    next hle =>
      let range := PtRange.new ctx.hdrCache.session.ante.number ctx.hdrCache.session.head.number
      have hmax : range.maxPt = ctx.hdrCache.session.head.number := max_eq_right hle
      refine .inr ⟨range, rfl, .inl rfl, .start hpos hmax hlt ?_ rfl h.blk.job ?_ ?_ h.blk.staged⟩
      · show ctx.hdrCache.session.ante.number - 1 + 1 = ctx.hdrCache.session.ante.number
        omega
      · intro n
        show n ∈ clear.merge range ↔ n ∈ range
        rw [mem_merge, mem_clear, or_false]
      · exact fun n hn => mem_clear.mp hn
    next =>
      exact .inl ⟨rfl, fun n hn => mem_clear.mp hn, fun n hn => mem_clear.mp hn,
        h.blk.staged, h.blk.job⟩

/-- Entering the state before the end of a header session. -/
theorem HdrBooks.stop {v : HdrView} {bottom : Nat} (h : HdrBooks v bottom none)
    {state : BeaconState} : HdrBooks { v with syncState := state, poolMode := true } bottom none :=
  ⟨h.bottom_pos, h.ante_lt, h.places, fun hrun => absurd (.inl rfl) hrun, h.staged⟩

theorem headersNext_spec (h : BeaconInv ctx) (hs : ctx.syncState = .headers) {state : BeaconState}
    (hstate : state = .headersCancel ∨ state = .headersFinish) :
    BeaconInv { ctx with syncState := state, poolMode := true } where
  life := by
    refine ⟨fun _ => ?_, ?_, h.life.keyed, h.life.session⟩
    · cases hstate with
      | inl heq => exact .inl heq
      | inr heq => exact .inr (.inl heq)
    · intro hclosed
      have hrest := h.life.closed hclosed
      rw [hs] at hrest
      simp at hrest
  hdr := by
    cases h.hdr with
    | inl hidle =>
      exact .inl ⟨hidle.asked, hidle.unprocessed, hidle.borrowed, hidle.staged, hidle.fetch⟩
    | inr hex =>
      obtain ⟨range, hact⟩ := hex
      exact .inr ⟨range, hact.asked, .inr ⟨hstate, rfl⟩, fun hcoll => (hact.books hcoll).stop⟩
  blk := by
    have hidle : BlkIdle (blkView ctx) := h.blkIdle (by simp [BlkState, hs])
    exact .inl ⟨hidle.asked, hidle.unprocessed, hidle.borrowed, hidle.staged, hidle.job⟩

theorem blocksNext_spec (h : BeaconInv ctx)
    (hs : ctx.syncState = .blocks ∨ ctx.syncState = .blocksCancel ∨ ctx.syncState = .blocksFinish)
    {state : BeaconState} (hstate : state = .blocksCancel ∨ state = .blocksFinish) :
    BeaconInv { ctx with syncState := state, poolMode := true } where
  life := by
    refine ⟨fun _ => .inr (.inr hstate), ?_, h.life.keyed, h.life.session⟩
    intro hclosed
    have hrest := h.life.closed hclosed
    obtain heq | heq | heq := hs <;> simp [heq] at hrest
  hdr := by
    have hidle : HdrIdle (hdrView ctx) := by
      apply h.hdrIdle
      obtain heq | heq | heq := hs <;> simp [HdrState, heq]
    exact .inl ⟨hidle.asked, hidle.unprocessed, hidle.borrowed, hidle.staged, hidle.fetch⟩
  blk := by
    cases h.blk with
    | inl hidle =>
      exact .inl ⟨hidle.asked, hidle.unprocessed, hidle.borrowed, hidle.staged, hidle.job⟩
    | inr hex =>
      obtain ⟨range, hact⟩ := hex
      have hinv := hact.inv
      refine .inr ⟨range, hact.asked, .inr ⟨hstate, rfl⟩, hinv.pos, hinv.head, hinv.jobs, hinv.alone,
        hinv.order, ?_⟩
      -- the books are of no interest from here on
      intro hrun
      have heq : state = .blocks := hrun
      rw [heq] at hstate
      simp at hstate

theorem Rest.settle {next : BeaconCtx} (h : Rest next) {state : BeaconState}
    (hstay : ctx.syncState = state → BeaconInv next)
    (hstate : ctx.syncState ≠ state → state = .idle ∨ state = .linger) :
    Good (if ctx.syncState = state then .ok next else next.enterState state) := by
  split
  next heq => exact hstay heq
  next hne => exact h.enterState (hstate hne)

section

variable (h : BeaconInv ctx)
include h

theorem idle_spec (hs : ctx.syncState = .idle) :
    Good (if ctx.syncState = ctx.idleNext then .ok ctx else ctx.enterState ctx.idleNext) := by
  have hpool := h.life.notPool (by simp [InPool, hs])
  have hrest : Rest ctx := .of_inv h hpool (by simp [hs]) (by simp [hs])
  unfold idleNext
  split
  · exact hrest.settle (fun _ => h) fun _ => .inr rfl
  · split
    next hcoll =>
      rw [hs]
      have hrest' : Rest { ctx with syncState := .headers } := hrest.congr rfl rfl rfl rfl rfl
      exact hrest'.inv fun hclosed => absurd (hcoll.symm.trans hclosed) (by simp)
    next => exact h

theorem headersState_spec (hs : ctx.syncState = .headers) :
    Good (if ctx.syncState = ctx.headersNext then .ok ctx else ctx.enterState ctx.headersNext) := by
  have hcancel : Good (if ctx.syncState = .headersCancel then .ok ctx
      else ctx.enterState .headersCancel) := by
    rw [hs]
    exact headersNext_spec h hs (.inl rfl)
  unfold headersNext
  split
  · exact hcancel
  · split
    · exact hcancel
    · split
      · exact h
      · split
        · rw [hs]
          exact headersNext_spec h hs (.inr rfl)
        · exact hcancel

theorem blocksState_spec (hs : ctx.syncState = .blocks) :
    Good (if ctx.syncState = ctx.blocksNext then .ok ctx else ctx.enterState ctx.blocksNext) := by
  have hcancel : Good (if ctx.syncState = .blocksCancel then .ok ctx
      else ctx.enterState .blocksCancel) := by
    rw [hs]
    exact blocksNext_spec h (.inl hs) (.inl rfl)
  unfold blocksNext
  split
  · exact hcancel
  · split
    · exact hcancel
    · split
      · rw [hs]
        exact blocksNext_spec h (.inl hs) (.inr rfl)
      · exact h

theorem headersCancel_spec (hs : ctx.syncState = .headersCancel) :
    Good (if ctx.syncState = ctx.headersCancelNext then .ok ctx
      else ctx.enterState ctx.headersCancelNext) := by
  unfold headersCancelNext
  split
  · exact h
  next hpool =>
    have hrest : Rest ctx := .of_inv h (by simpa using hpool) (by simp [hs]) (by simp [hs])
    split
    · exact hrest.settle (fun _ => h) fun _ => .inr rfl
    · exact hrest.settle (fun _ => h) fun _ => .inl rfl

theorem blocksCancel_spec (hs : ctx.syncState = .blocksCancel ∨ ctx.syncState = .blocksFinish) :
    Good (if ctx.syncState = ctx.blocksCancelNext then .ok ctx
      else ctx.enterState ctx.blocksCancelNext) := by
  unfold blocksCancelNext
  split
  next hpool =>
    split
    · exact h
    · exact blocksNext_spec h (.inr hs) (.inl rfl)
  next hpool =>
    have hrest : Rest ctx := by
      apply Rest.of_inv h (by simpa using hpool)
      · cases hs with
        | inl heq => simp [heq]
        | inr heq => simp [heq]
      · cases hs with
        | inl heq => simp [heq]
        | inr heq => simp [heq]
    exact hrest.settle (fun _ => h) fun _ => .inl rfl

theorem headersFinish_spec (hs : ctx.syncState = .headersFinish) :
    (∃ e, ctx.headersFinishNext = .error (.hdrCache e)) ∨
      ∃ next state, ctx.headersFinishNext = .ok (next, state) ∧
        Good (if ctx.syncState = state then .ok next else next.enterState state) := by
  unfold headersFinishNext
  split
  · refine .inr ⟨ctx, .headersFinish, rfl, ?_⟩
    rw [hs]
    exact h
  next hpool =>
    have hrest : Rest ctx := .of_inv h (by simpa using hpool) (by simp [hs]) (by simp [hs])
    split
    next hready =>
      have hopen : ctx.hdrCache.session.mode ≠ .closed := by simp [hready]
      have hcommitted : ∀ hc res, ctx.hdrCache.commit = .ok (hc, res) →
          Rest { ctx with hdrCache := hc } ∧ hc.session.mode ≠ .closed := by
        intro hc res hcommit
        obtain ⟨hkeyed, hwf, hopen'⟩ := commit_spec hrest.keyed (hrest.session hopen) hopen hcommit
        refine ⟨⟨hrest.pool, hkeyed, fun _ => hwf, ?_, hrest.blk⟩, hopen'⟩
        exact ⟨hrest.hdr.asked, hrest.hdr.unprocessed, hrest.hdr.borrowed, hrest.hdr.staged,
          hrest.hdr.fetch⟩
      split
      next e _ => exact .inl ⟨e, rfl⟩
      next hc _ hcommit =>
        refine .inr ⟨_, _, rfl, ?_⟩
        exact (hcommitted _ _ hcommit).1.settle (by simp [hs]) fun _ => .inl rfl
      next hc hcommit =>
        obtain ⟨hrest', hopen'⟩ := hcommitted _ _ hcommit
        dsimp only
        split
        · refine .inr ⟨_, _, rfl, ?_⟩
          exact hrest'.settle (by simp [hs]) fun _ => .inr rfl
        · refine .inr ⟨_, _, rfl, ?_⟩
          rw [if_neg (by simp [hs])]
          exact setupProcessingBlocks_spec hrest' hopen'
    next =>
      refine .inr ⟨_, _, rfl, ?_⟩
      exact hrest.settle (by simp [hs]) fun _ => .inl rfl

theorem linger_spec (hs : ctx.syncState = .linger) :
    Good (if ctx.syncState = ctx.lingerNext.2 then .ok ctx.lingerNext.1
      else ctx.lingerNext.1.enterState ctx.lingerNext.2) := by
  have hpool := h.life.notPool (by simp [InPool, hs])
  have hrest : Rest ctx := .of_inv h hpool (by simp [hs]) (by simp [hs])
  have hnext : Rest ctx.lingerNext.1 ∧ ctx.lingerNext.1.syncState = ctx.syncState := by
    unfold lingerNext
    split
    · exact ⟨hrest.congr rfl rfl rfl rfl rfl, rfl⟩
    · exact ⟨hrest, rfl⟩
  refine hnext.1.settle (fun _ => hnext.1.inv fun _ => .inr (hnext.2.trans hs)) fun _ => ?_
  unfold lingerNext
  dsimp only
  generalize (if ctx.hdrCache.session.mode = .orphan then _ else ctx : BeaconCtx) = ctx₁
  split
  · exact .inl rfl
  · exact .inr rfl

theorem updateBeaconState_spec : Good ctx.updateBeaconState := by
  unfold updateBeaconState nextState
  cases hs : ctx.syncState with
  | idle => simpa only [hs] using idle_spec h hs
  | headers => simpa only [hs] using headersState_spec h hs
  | headersCancel => simpa only [hs] using headersCancel_spec h hs
  | headersFinish =>
    obtain ⟨e, he⟩ | ⟨next, state, hok, hgood⟩ := headersFinish_spec h hs
    · rw [he]
      exact ⟨e, rfl⟩
    · rw [hok]
      rw [hs] at hgood
      exact hgood
  | linger => simpa only [hs] using linger_spec h hs
  | blocks => simpa only [hs] using blocksState_spec h hs
  | blocksCancel => simpa only [hs] using blocksCancel_spec h (.inl hs)
  | blocksFinish => simpa only [hs] using blocksCancel_spec h (.inr hs)

end

/-! ## The end of a session -/

theorem job_of_allIdle (h : ctx.allIdle = true) (p : PeerId) : (ctx.buddy p).job = .idle := by
  unfold buddy
  cases hlook : ctx.peers.lookup p with
  | none => rfl
  | some buddy =>
    have hmem : Sigma.mk p buddy ∈ ctx.peers.entries := List.of_mem_dlookup hlook
    have hidle : buddy.isIdle = true := List.all_eq_true.mp h _ hmem
    unfold BeaconPeer.isIdle at hidle
    split at hidle
    next heq => exact heq
    next => cases hidle

/-- The scheduler has brought all peers to a halt, and the books are cleared. -/
theorem runPool_spec (h : BeaconInv ctx) (hpool : ctx.poolMode = true) (hall : ctx.allIdle = true) :
    BeaconInv ctx.runPool := by
  have hjob := job_of_allIdle hall
  have hclear : ∀ n, n ∉ clear := fun n hn => mem_clear.mp hn
  have hfetch : ∀ p, jobRange (ctx.buddy p).job = none := by
    intro p
    rw [hjob p]
    rfl
  have hblkJob : ∀ p, blkJob (ctx.buddy p).job = .idle := by
    intro p
    rw [hjob p]
    rfl
  unfold runPool headersStagedReorg blocksStagedReorg
  by_cases hhdr : ctx.syncState = .headersCancel ∨ ctx.syncState = .headersFinish
  · have hidle : BlkIdle (blkView ctx) := by
      apply h.blkIdle
      cases hhdr with
      | inl hs => simp [BlkState, hs]
      | inr hs => simp [BlkState, hs]
    rw [if_pos hhdr, if_neg]
    · have hrest : Rest { ctx with
          poolMode := false
          hdr := ctx.hdr.unprocClear.stagedQueueClear
          subState := {} } := by
        refine ⟨rfl, h.life.keyed, h.life.session, ?_, ?_⟩
        · exact ⟨rfl, hclear, hclear, fun key => rfl, hfetch⟩
        · exact ⟨hidle.asked, hidle.unprocessed, hidle.borrowed, hidle.staged, hidle.job⟩
      exact hrest.inv h.life.closed
    · cases hhdr with
      | inl hs => simp [hs]
      | inr hs => simp [hs]
  · have hblk : ctx.syncState = .blocksCancel ∨ ctx.syncState = .blocksFinish := by
      obtain hs | hs | hs | hs := h.life.pool hpool
      · exact absurd (.inl hs) hhdr
      · exact absurd (.inr hs) hhdr
      · exact .inl hs
      · exact .inr hs
    have hidle : HdrIdle (hdrView ctx) := by
      apply h.hdrIdle
      cases hblk with
      | inl hs => simp [HdrState, hs]
      | inr hs => simp [HdrState, hs]
    rw [if_neg hhdr, if_pos hblk]
    have hrest : Rest { ctx with
        poolMode := false
        blk := ctx.blk.unprocClear.stagedQueueClear
        subState := {} } := by
      refine ⟨rfl, h.life.keyed, h.life.session, ?_, ?_⟩
      · exact ⟨hidle.asked, hidle.unprocessed, hidle.borrowed, hidle.staged, hidle.fetch⟩
      · exact ⟨rfl, hclear, hclear, fun key => rfl, hblkJob⟩
    exact hrest.inv h.life.closed

/-! ## Single runs and new processes -/

theorem singleRun_spec [BlockHash] (h : BeaconInv ctx) (baseHeader : ChainHeader) :
    Good (ctx.singleRun baseHeader) := by
  unfold singleRun
  split
  next hs =>
    have hpool := h.life.notPool (by simp [InPool, hs])
    have hrest : Rest ctx := .of_inv h hpool (by simp [hs]) (by simp [hs])
    obtain ⟨e, he⟩ | ⟨hc, hok, -, hrest'⟩ := clearHdrCache_spec hrest
    · rw [he]
      exact ⟨e, rfl⟩
    · rw [hok]
      have hrest'' : Rest { ctx with
          hdrCache := hc, standByMode := false, stopBase := some baseHeader } :=
        hrest'.congr rfl rfl rfl rfl rfl
      exact headUpdateFromCL_spec (hrest''.inv fun _ => .inl hs) _ _
  next => exact h

theorem singleReset_spec (h : BeaconInv ctx) : BeaconInv ctx.singleReset := by
  have hlife := h.life
  unfold singleReset
  split
  · split <;> exact h.of_views ⟨hlife.pool, hlife.closed, hlife.keyed, hlife.session⟩ rfl rfl
  · exact h

theorem setup_spec (chain : ForkedChain) {kvt : KvtDb} (hk : Keyed kvt) (minInitBuddies : Int)
    (standByMode : Bool) : Good (setup chain kvt minInitBuddies standByMode) := by
  unfold setup
  cases hinit : HeaderChainRef.init chain kvt with
  | error e => exact ⟨e, rfl⟩
  | ok hc =>
    obtain ⟨hkeyed, hsession⟩ := hk.init hinit
    have hclear : ∀ n, n ∉ clear := fun n hn => mem_clear.mp hn
    have hrest : Rest {
        hdrCache := hc, minInitBuddies := minInitBuddies, standByMode := standByMode } := by
      refine ⟨rfl, hkeyed, ?_, ?_, ?_⟩
      · intro hopen
        exact absurd (congrArg HccSession.mode hsession) hopen
      · exact ⟨rfl, hclear, hclear, fun key => rfl, fun p => rfl⟩
      · exact ⟨rfl, hclear, hclear, fun key => rfl, fun p => rfl⟩
    exact hrest.inv fun _ => .inl rfl

end Nimbus.Spec.Beacon
