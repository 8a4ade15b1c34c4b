import Nimbus.Spec.HeaderChainCache

/-!
# Ending a header chain session

`commit` locks a session in one of four ways: onto the stop header of a blind session, onto
the parent of the antecedent in the `FC` module, or, when that parent is lost, with the
finalised header or the session head as the new antecedent. The runs here are arbitrary, so
the table may hold headers of a session that was cleared too early, and the `FC` module may
have moved its base and its finalised block anywhere. What holds all the same is that the
headers of a collecting or ready session are linked from the antecedent to the head
(`Sound`).
-/

namespace Nimbus.Spec.HeaderChainCache

open Nimbus.Native.HeaderChainCache
open Nimbus.Native.HeaderChainCache.HeaderChainRef (HccCmd)
open Nimbus.Native.Aristo (Hash32)
open HeaderChainRef

variable {hc hc' : HeaderChainRef}

/-! ## What `commit` does -/

/-- The number of a block that the cache or the `FC` module has heard of. -/
def numberOf (hc : HeaderChainRef) (f : Hash32) : Option Nat :=
  ((hc.chain.quarantine f).map (·.number)).or
    ((hc.kvt.getNumber f).or ((hc.chain.headerByHash f).map (·.number)))

/-- The last finalised block, counting in the pending one when its number is known. -/
def lastFinalised (hc : HeaderChainRef) : FcuHashAndNumber :=
  if hc.chain.pendingFCU = zeroHash32 then hc.chain.latestFinalized
  else
    match numberOf hc hc.chain.pendingFCU with
    | none => hc.chain.latestFinalized
    | some number =>
      if hc.chain.latestFinalized.number < number then ⟨hc.chain.pendingFCU, number⟩
      else hc.chain.latestFinalized

/-- The descriptor with the pending finalised block resolved. -/
def resolved (hc : HeaderChainRef) : HeaderChainRef :=
  if hc.chain.pendingFCU ≠ zeroHash32 then hc.resolveFinHash hc.chain.pendingFCU else hc

/-- The session is locked with `h` as its antecedent. -/
def lockAt (hc : HeaderChainRef) (h : Header) : HeaderChainRef :=
  { hc with session := { hc.session with ante := h } }.setMode .locked

theorem resolved_kept (hc : HeaderChainRef) : Kept hc (resolved hc) := by
  unfold resolved
  split
  · exact (Kept.resolveFinHash hc _).1
  · exact .refl hc

/-- Resolving the pending block changes nothing on the `FC` module but the finalised block. -/
theorem resolved_chain (hc : HeaderChainRef) :
    (resolved hc).chain.hashToBlock = hc.chain.hashToBlock ∧
      (resolved hc).chain.baseNumber = hc.chain.baseNumber ∧
      (resolved hc).chain.latestFinalized = lastFinalised hc := by
  unfold resolved lastFinalised
  by_cases hpending : hc.chain.pendingFCU = zeroHash32
  · rw [if_neg (not_not.mpr hpending), if_pos hpending]
    exact ⟨rfl, rfl, rfl⟩
  rw [if_pos hpending, if_neg hpending]
  unfold resolveFinHash
  rw [← numberOf]
  cases numberOf hc hc.chain.pendingFCU with
  | none => exact ⟨rfl, rfl, rfl⟩
  | some number =>
    dsimp only [ForkedChain.tryUpdatePendingFCU]
    split <;> exact ⟨rfl, rfl, rfl⟩

section

variable (hready : hc.session.mode = .ready)
include hready

/-- When the parent of the antecedent was lost, the finalised block decides. -/
theorem commit_lost (hnone : hc.session.stopNum = none)
    (hlost : hc.chain.hashToBlock hc.session.ante.parentHash = false) :
    hc.commit =
      if hc.chain.baseNumber < (lastFinalised hc).number then
        if hc.session.head.number ≤ (lastFinalised hc).number then
          .ok (lockAt (resolved hc) hc.session.head, .ok ())
        else
          match hc.kvt.getHeaderByHash (lastFinalised hc).hash with
          | .error e => .error e
          | .ok none => .error .validHeader
          | .ok (some h) => .ok (lockAt (resolved hc) h, .ok ())
      else .ok ((resolved hc).setMode .orphan, .error .parentLost) := by
  obtain ⟨_, hbase, hfin⟩ := resolved_chain hc
  have hk := resolved_kept hc
  rw [← hbase, ← hfin, ← hk.head, ← hk.kvt]
  unfold commit
  rw [if_neg (not_not.mpr hready), hnone, hlost]
  rfl

/-- A blind session is locked when it ends right above its stop header. -/
theorem commit_blind {stop : Nat} (hstop : hc.session.stopNum = some stop) :
    hc.commit =
      if hc.session.ante.number = u64 (1 + stop) ∧
          hc.session.ante.parentHash = hc.session.stopHash then
        .ok (hc.setMode .locked, .ok ())
      else .ok (hc.setMode .orphan, .error (.blindStop hc.session.ante.number stop)) := by
  unfold commit
  rw [if_neg (not_not.mpr hready), hstop]

theorem commit_benign (hnone : hc.session.stopNum = none)
    (hparent : hc.chain.hashToBlock hc.session.ante.parentHash = true) :
    hc.commit = .ok (hc.setMode .locked, .ok ()) := by
  unfold commit
  rw [if_neg (not_not.mpr hready), hnone, hparent]
  rfl

end

theorem commit_wrongState (hne : hc.session.mode ≠ .ready) :
    hc.commit = .ok (hc, .error (.wrongState hc.session.mode .ready)) := by
  unfold commit
  rw [if_pos hne]

theorem commit_mode (hready : hc.session.mode = .ready)
    {res : HeaderChainRef × Except HccError Unit} (h : hc.commit = .ok res) :
    res.1.session.mode = .locked ∨ res.1.session.mode = .orphan := by
  cases hstop : hc.session.stopNum with
  | some stop =>
    rw [commit_blind hready hstop] at h
    split at h
    · cases h; exact .inl rfl
    · cases h; exact .inr rfl
  | none =>
    cases hparent : hc.chain.hashToBlock hc.session.ante.parentHash with
    | true =>
      rw [commit_benign hready hstop hparent] at h
      cases h; exact .inl rfl
    | false =>
      rw [commit_lost hready hstop hparent] at h
      split at h
      · split at h
        · cases h; exact .inl rfl
        · split at h
          · cases h
          · cases h
          · cases h; exact .inl rfl
      · cases h; exact .inr rfl

section
variable [BlockHash]

/-! ## Linked headers -/

/-- The table has the headers from `ante` to `head`, linked by parent hashes. -/
structure Linked (beacon : Table Nat BeaconRecord) (head ante : Header) : Prop where
  le : ante.number ≤ head.number
  bottom : beacon.lookup ante.number = some (.header ante)
  top : beacon.lookup head.number = some (.header head)
  stored : ∀ n, ante.number ≤ n → n ≤ head.number →
    ∃ h, beacon.lookup n = some (.header h) ∧ h.number = n
  link : ∀ n h h', ante.number ≤ n → n < head.number →
    beacon.lookup n = some (.header h) → beacon.lookup (n + 1) = some (.header h') →
    h'.parentHash = computeBlockHash h

namespace Linked

variable {beacon : Table Nat BeaconRecord} {head ante : Header}

theorem single (htop : beacon.lookup head.number = some (.header head)) :
    Linked beacon head head where
  le := Nat.le_refl _
  bottom := htop
  top := htop
  stored n hlo hhi := by
    have hn : n = head.number := by omega
    exact ⟨head, by rw [hn, htop], hn.symm⟩
  link n _ _ hlo hhi := by omega

theorem putHeader (hl : Linked beacon head ante) {h : Header}
    (hnum : h.number + 1 = ante.number) (hhash : ante.parentHash = computeBlockHash h) :
    Linked (beacon.insert h.number (.header h)) head h where
  le := by have := hl.le; omega
  bottom := AList.lookup_insert _
  top := by
    have hle := hl.le
    rw [Table.lookup_insert', if_neg (by omega)]
    exact hl.top
  stored n hlo hhi := by
    by_cases hn : n = h.number
    · exact ⟨h, by rw [hn, AList.lookup_insert], hn.symm⟩
    · rw [Table.lookup_insert', if_neg hn]
      exact hl.stored n (by omega) hhi
  link n a b hlo hhi ha hb := by
    rw [Table.lookup_insert', if_neg (by omega)] at hb
    by_cases hn : n = h.number
    · -- the new link, from the old antecedent to its parent
      rw [hn, AList.lookup_insert] at ha
      cases ha
      rw [hn, hnum, hl.bottom] at hb
      cases hb
      exact hhash
    · rw [Table.lookup_insert', if_neg hn] at ha
      exact hl.link n a b (by omega) hhi ha hb

theorem putInfo (hl : Linked beacon head ante) (hpos : 0 < ante.number) (state : HccDbInfo) :
    Linked (beacon.insert HccDbInfoKey (.info state)) head ante := by
  have hsame : ∀ n, ante.number ≤ n →
      (beacon.insert HccDbInfoKey (.info state)).lookup n = beacon.lookup n := by
    intro n hn
    rw [Table.lookup_insert', if_neg (by simp only [HccDbInfoKey]; omega)]
  exact {
    le := hl.le
    bottom := by rw [hsame _ (Nat.le_refl _)]; exact hl.bottom
    top := by rw [hsame _ hl.le]; exact hl.top
    stored := fun n hlo hhi => by rw [hsame n hlo]; exact hl.stored n hlo hhi
    link := fun n a b hlo hhi ha hb => by
      rw [hsame n hlo] at ha
      rw [hsame (n + 1) (by omega)] at hb
      exact hl.link n a b hlo hhi ha hb }

theorem putHeaders {db : KvtDb} {headers : List Header} (hl : Linked db.beacon head ante)
    (hpos : 0 < ante.number) (hd : Descends (ante.number - 1) ante.parentHash headers) :
    Linked (headers.foldl KvtDb.putHeader db).beacon head (headers.getLastD ante) ∧
      0 < (headers.getLastD ante).number ∧
      (headers.getLastD ante).number = ante.number - headers.length := by
  induction headers generalizing db ante with
  | nil => exact ⟨hl, hpos, rfl⟩
  | cons h rest ih =>
    obtain ⟨hnum, hpos', hhash, hrest⟩ := hd
    have hl' : Linked (db.putHeader h).beacon head h := hl.putHeader (by omega) hhash
    rw [← hnum] at hrest
    obtain ⟨hlinked, hlast, hlen⟩ := ih hl' (by omega) hrest
    rw [List.getLastD_cons, List.length_cons]
    exact ⟨hlinked, hlast, by omega⟩

end Linked

/-! ## Every reachable state -/

/-- The headers of a session that is not over yet. -/
structure Live (hc : HeaderChainRef) : Prop where
  pos : 0 < hc.session.ante.number
  linked : Linked hc.kvt.beacon hc.session.head hc.session.ante
  blind : hc.session.mode = .collecting → ∀ stop, hc.session.stopNum = some stop →
    stop + 1 < hc.session.ante.number ∨ hc.session.ante.number ≤ stop

def Sound (hc : HeaderChainRef) : Prop :=
  hc.session.mode = .collecting ∨ hc.session.mode = .ready → Live hc

theorem Live.kept (hl : Live hc) (hk : Kept hc hc')
    (hmode : hc'.session.mode = .collecting → hc.session.mode = .collecting) : Live hc' where
  pos := by rw [hk.ante]; exact hl.pos
  linked := by rw [hk.kvt, hk.head, hk.ante]; exact hl.linked
  blind hm := by rw [hk.ante, hk.stopNum]; exact hl.blind (hmode hm)

theorem Live.new {db : KvtDb} {h : Header} (hpos : 0 < h.number) {chain : ForkedChain}
    {session : HccSession} (hante : session.ante = h) (hhead : session.head = h)
    (hstop : session.stopNum = none) : Live ⟨chain, session, db.putHeader h⟩ where
  pos := by rw [hante]; exact hpos
  linked := by
    rw [hante, hhead]
    exact Linked.single (AList.lookup_insert _)
  blind _ stop hs := by
    rw [hstop] at hs
    cases hs

theorem sound_of_mode {mode : HeaderChainMode} (hmode : hc.session.mode = mode)
    (hne : mode ≠ .collecting ∧ mode ≠ .ready) : Sound hc := by
  intro hlive
  rw [hmode] at hlive
  exact absurd hlive (not_or.mpr hne)

omit [BlockHash] in
theorem closed_not_live : HeaderChainMode.closed ≠ .collecting ∧ HeaderChainMode.closed ≠ .ready := by
  decide

theorem headUpdateFromCL_sound (hs : Sound hc) (h : Header) (f : Hash32) :
    Sound (hc.headUpdateFromCL h f) := by
  unfold headUpdateFromCL
  split
  · next hcond =>
    intro _
    dsimp only
    split
    · exact Live.new (by omega) rfl rfl rfl
    · exact Live.new (by omega) rfl rfl rfl
  · exact hs

theorem Live.store (hl : Live hc) {hc₁ : HeaderChainRef} {headers : List Header}
    (hk : Kept hc hc₁) (hd : Descends (hc.session.ante.number - 1) hc.session.ante.parentHash
      headers)
    (hblind : hc₁.session.mode = .collecting → ∀ stop, hc.session.stopNum = some stop →
      stop + headers.length < hc.session.ante.number - 1) : Live (hc₁.store headers) := by
  obtain ⟨hlinked, hpos, hlen⟩ := hl.linked.putHeaders hl.pos hd
  rw [← hk.kvt, ← hk.head, ← hk.ante] at hlinked
  rw [← hk.ante] at hpos hlen
  exact {
    pos := hpos
    linked := hlinked.putInfo hpos _
    blind := fun hmode stop hs => by
      left
      have hlt := hblind hmode stop (hk.stopNum ▸ hs)
      rw [← hk.ante] at hlt
      show stop + 1 < (headers.getLastD hc₁.session.ante).number
      omega }

theorem put_sound (hs : Sound hc) (rev : List Header) : Sound (hc.put rev).1 := by
  by_cases hlive : hc.session.mode = .collecting ∨ hc.session.mode = .ready
  · have hl := hs hlive
    intro _
    have hput := put_cases hl.blind rev
    generalize (hc.put rev).1 = hc' at hput
    cases hput with
    | kept hk hm => exact hl.kept hk hm.collecting
    | stored _ hk hm hd hblind => exact hl.store hk hd hblind
  · -- without a session to go on with nothing happens
    have hsame : (hc.put rev).1 = hc := by
      rw [not_or] at hlive
      unfold HeaderChainRef.put
      split
      · rfl
      · rw [if_pos hlive.1]
    rw [hsame]
    exact hs

theorem commit_sound (hs : Sound hc) {res : HeaderChainRef × Except HccError Unit}
    (h : hc.commit = .ok res) : Sound res.1 := by
  by_cases hready : hc.session.mode = .ready
  · obtain hmode | hmode := commit_mode hready h
    · exact sound_of_mode hmode (by decide)
    · exact sound_of_mode hmode (by decide)
  · rw [commit_wrongState hready] at h
    cases h
    exact hs

omit [BlockHash] in
theorem persistClear_session (h : hc.persistClear = .ok hc') : hc'.session = hc.session := by
  unfold persistClear at h
  split at h
  · cases h; rfl
  · split at h
    · cases h
    · cases h; rfl

theorem step_sound (hs : Sound hc) {cmd : HccCmd} (h : hc.step cmd = .ok hc') : Sound hc' := by
  cases cmd with
  | headUpdate hd f =>
    cases h
    exact headUpdateFromCL_sound hs hd f
  | put rev =>
    cases h
    exact put_sound hs rev
  | commit =>
    obtain ⟨res, hres, h⟩ := except_bind_ok.mp h
    cases h
    exact commit_sound hs hres
  | clear =>
    have hsession := persistClear_session h
    exact sound_of_mode (congrArg HccSession.mode hsession) closed_not_live
  | restart chain =>
    have hsession := persistClear_session h
    exact sound_of_mode (congrArg HccSession.mode hsession) closed_not_live
  | updateBlindStop stop =>
    cases h
    unfold updateBlindStop
    split
    · next hlt =>
      intro hlive
      have hl := hs hlive
      refine { pos := hl.pos, linked := hl.linked, blind := fun _ stop' hstop' => ?_ }
      cases hstop'
      have hante := hc.session.ante.number_lt
      show stop.number + 1 < hc.session.ante.number ∨ hc.session.ante.number ≤ stop.number
      unfold u64 at hlt
      omega
    · exact hs
  | clearBlindStop =>
    cases h
    intro hlive
    have hl := hs hlive
    exact { pos := hl.pos, linked := hl.linked, blind := fun _ stop hstop => by cases hstop }
  | resolveFinHash f =>
    cases h
    obtain ⟨hk, hm⟩ := Kept.resolveFinHash hc f
    intro hlive
    rw [hm] at hlive
    exact (hs hlive).kept hk fun h => hm ▸ h
  | forkChoice chain =>
    cases h
    intro hlive
    exact { hs hlive with }

/-- In every run the headers of a live session stay linked, whatever the `FC` module does
and whatever earlier sessions left in the table. -/
theorem run_sound {cmds : List HccCmd} (hs : Sound hc) (h : hc.run cmds = .ok hc') : Sound hc' := by
  induction cmds generalizing hc with
  | nil =>
    cases h
    exact hs
  | cons cmd cmds ih =>
    obtain ⟨hc₁, hstep, h⟩ := except_bind_ok.mp h
    exact ih (step_sound hs hstep) h

theorem start_sound (chain : ForkedChain) : Sound (start chain) :=
  sound_of_mode rfl closed_not_live

/-! ## When `commit` does its work -/

/-- What a locked session is for: its headers are linked and can be imported on top of a
known block. -/
def Importable (hc : HeaderChainRef) : Prop :=
  hc.chain.hashToBlock hc.session.ante.parentHash = true ∧
    Linked hc.kvt.beacon hc.session.head hc.session.ante

/-- `commit` returns, and locks an importable chain if it locks one. -/
def CommitSafe (hc : HeaderChainRef) : Prop :=
  ∃ hc' res, hc.commit = .ok (hc', res) ∧
    (hc.session.mode ≠ .locked → hc'.session.mode = .locked → Importable hc')

/-- The finalised block can stand in for the antecedent: it is as high as the head, the
parent of which is known, or it is on the cached header chain, and its own parent is known. -/
inductive FinalisedFits (hc : HeaderChainRef) : Prop where
  | head : hc.session.head.number ≤ (lastFinalised hc).number →
      hc.chain.hashToBlock hc.session.head.parentHash = true → FinalisedFits hc
  | cached {h : Header} : (lastFinalised hc).number < hc.session.head.number →
      hc.kvt.getHeaderByHash (lastFinalised hc).hash = .ok (some h) →
      Linked hc.kvt.beacon hc.session.head h →
      hc.chain.hashToBlock h.parentHash = true → FinalisedFits hc

/-- The states from which `commit` is safe. Nothing is asked of a session that is not ready
or the antecedent of which has its parent on the `FC` module. Otherwise a blind session must
not end at its stop header, and a finalised block above the base must fit. -/
def CommitFits (hc : HeaderChainRef) : Prop :=
  hc.session.mode = .ready → hc.chain.hashToBlock hc.session.ante.parentHash = false →
    (∀ stop, hc.session.stopNum = some stop → hc.session.ante.number = u64 (1 + stop) →
      hc.session.ante.parentHash ≠ hc.session.stopHash) ∧
    (hc.session.stopNum = none → hc.chain.baseNumber < (lastFinalised hc).number →
      FinalisedFits hc)

/-- A session locked at `h`. -/
theorem importable_lockAt {h : Header} :
    Importable (lockAt (resolved hc) h) ↔
      hc.chain.hashToBlock h.parentHash = true ∧ Linked hc.kvt.beacon hc.session.head h := by
  have hk := resolved_kept hc
  have hchain := (resolved_chain hc).1
  rw [← hk.kvt, ← hk.head, ← hchain]
  rfl

theorem commitSafe_of_ok {hc' : HeaderChainRef} {res : Except HccError Unit}
    (heq : hc.commit = .ok (hc', res)) (hlocked : hc'.session.mode = .locked)
    (hopen : hc.session.mode = .ready) : CommitSafe hc ↔ Importable hc' := by
  constructor
  · intro ⟨hc₁, res₁, heq₁, h⟩
    rw [heq] at heq₁
    cases heq₁
    exact h (by rw [hopen]; decide) hlocked
  · intro h
    exact ⟨hc', res, heq, fun _ _ => h⟩

theorem commitSafe_of_orphan {hc' : HeaderChainRef} {res : Except HccError Unit}
    (heq : hc.commit = .ok (hc', res)) (hmode : hc'.session.mode = .orphan) : CommitSafe hc := by
  refine ⟨hc', res, heq, fun _ hlocked => ?_⟩
  rw [hmode] at hlocked
  cases hlocked

theorem commitSafe_blind (hready : hc.session.mode = .ready) {stop : Nat}
    (hstop : hc.session.stopNum = some stop)
    (hlost : hc.chain.hashToBlock hc.session.ante.parentHash = false) :
    CommitSafe hc ↔ (hc.session.ante.number = u64 (1 + stop) →
      hc.session.ante.parentHash ≠ hc.session.stopHash) := by
  have heq := commit_blind hready hstop
  by_cases hends : hc.session.ante.number = u64 (1 + stop) ∧
      hc.session.ante.parentHash = hc.session.stopHash
  · rw [if_pos hends] at heq
    rw [commitSafe_of_ok heq rfl hready]
    constructor
    · intro ⟨hparent, _⟩
      have hparent : hc.chain.hashToBlock hc.session.ante.parentHash = true := hparent
      rw [hlost] at hparent
      cases hparent
    · intro hne
      exact absurd hends.2 (hne hends.1)
  · rw [if_neg hends] at heq
    constructor
    · intro _ hnum hhash
      exact hends ⟨hnum, hhash⟩
    · intro _
      exact commitSafe_of_orphan heq rfl

theorem commitSafe_lost (hl : Live hc) (hready : hc.session.mode = .ready)
    (hnone : hc.session.stopNum = none)
    (hlost : hc.chain.hashToBlock hc.session.ante.parentHash = false) :
    CommitSafe hc ↔
      (hc.chain.baseNumber < (lastFinalised hc).number → FinalisedFits hc) := by
  have heq := commit_lost hready hnone hlost
  by_cases hbase : hc.chain.baseNumber < (lastFinalised hc).number
  · rw [if_pos hbase] at heq
    rw [imp_iff_right hbase]
    by_cases hhead : hc.session.head.number ≤ (lastFinalised hc).number
    · -- the head becomes the antecedent
      rw [if_pos hhead] at heq
      rw [commitSafe_of_ok heq rfl hready, importable_lockAt]
      constructor
      · intro ⟨hparent, _⟩
        exact .head hhead hparent
      · intro hfits
        cases hfits with
        | head _ hparent => exact ⟨hparent, Linked.single hl.linked.top⟩
        | cached hlt => omega
    · -- the finalised header does, if it is there
      rw [if_neg hhead] at heq
      cases hg : hc.kvt.getHeaderByHash (lastFinalised hc).hash with
      | error e =>
        rw [hg] at heq
        constructor
        · intro ⟨hc', res, heq', _⟩
          rw [heq] at heq'
          cases heq'
        · intro hfits
          cases hfits with
          | head hle => omega
          | cached _ hg' =>
            rw [hg] at hg'
            cases hg'
      | ok found =>
        rw [hg] at heq
        cases found with
        | none =>
          constructor
          · intro ⟨hc', res, heq', _⟩
            rw [heq] at heq'
            cases heq'
          · intro hfits
            cases hfits with
            | head hle => omega
            | cached _ hg' =>
              rw [hg] at hg'
              cases hg'
        | some h =>
          rw [commitSafe_of_ok heq rfl hready, importable_lockAt]
          constructor
          · intro ⟨hparent, hlinked⟩
            exact .cached (by omega) hg hlinked hparent
          · intro hfits
            cases hfits with
            | head hle => omega
            | cached _ hg' hlinked hparent =>
              rw [hg] at hg'
              cases hg'
              exact ⟨hparent, hlinked⟩
  · rw [if_neg hbase] at heq
    constructor
    · intro _ hlt
      exact absurd hlt hbase
    · intro _
      exact commitSafe_of_orphan heq rfl

/-- In every state that a run reaches, `commit` is safe if and only if the state fits. -/
theorem commit_safe_iff (chain : ForkedChain) (cmds : List HccCmd)
    (hrun : (start chain).run cmds = .ok hc) : CommitSafe hc ↔ CommitFits hc := by
  have hsound := run_sound (start_sound chain) hrun
  by_cases hready : hc.session.mode = .ready
  · have hl := hsound (.inr hready)
    cases hparent : hc.chain.hashToBlock hc.session.ante.parentHash with
    | true =>
      have hfits : CommitFits hc := by
        intro _ hlost
        rw [hparent] at hlost
        cases hlost
      rw [iff_true_right hfits]
      cases hstop : hc.session.stopNum with
      | none =>
        have heq := commit_benign hready hstop hparent
        rw [commitSafe_of_ok heq rfl hready]
        exact ⟨hparent, hl.linked⟩
      | some stop =>
        have heq := commit_blind hready hstop
        split at heq
        · rw [commitSafe_of_ok heq rfl hready]
          exact ⟨hparent, hl.linked⟩
        · exact commitSafe_of_orphan heq rfl
    | false =>
      cases hstop : hc.session.stopNum with
      | none =>
        rw [commitSafe_lost hl hready hstop hparent]
        simp [CommitFits, hready, hparent, hstop]
      | some stop =>
        rw [commitSafe_blind hready hstop hparent]
        simp [CommitFits, hready, hparent, hstop]
  · -- any other mode is an error result
    have hfits : CommitFits hc := fun h => absurd h hready
    rw [iff_true_right hfits]
    exact ⟨hc, _, commit_wrongState hready, fun hne hlocked => absurd hlocked hne⟩

end

/-! ## A finalised block on another branch -/

section Sample

/-- A hash that tells headers apart by number. -/
local instance : BlockHash :=
  ⟨fun h => Vector.ofFn fun i => if i = 0 then UInt8.ofNat h.number else 1⟩

/-- The `FC` module knows the parent of header 89. -/
def knownParentChain : ForkedChain :=
  { sampleChain with hashToBlock := fun hash => hash = (sampleHeader 89).parentHash }

/-- The base moved along another branch, on which block 85 is finalised. -/
def otherBranchChain : ForkedChain :=
  { sampleChain with
    baseNumber := 80
    base_lt := by decide
    latestFinalized := ⟨Vector.replicate 32 5, 85⟩ }

/-- Header 89 links up to the `FC` module, then its parent is lost. -/
def lostParentCmds : List HccCmd :=
  [.forkChoice knownParentChain, .headUpdate (sampleHeader 90) sampleHash,
    .put [sampleHeader 89], .forkChoice otherBranchChain]

/-- The parent is still there when the session is committed. -/
theorem commit_known_parent : ∃ hc, (start sampleChain).run (lostParentCmds.take 3) = .ok hc ∧
      hc.session.mode = .ready ∧ CommitSafe hc := by
  refine ⟨_, rfl, by decide +kernel, ?_⟩
  refine (commit_safe_iff sampleChain (lostParentCmds.take 3) rfl).mpr ?_
  intro _ hlost
  exact absurd hlost (by decide +kernel)

/-- The finalised block lies between the base and the head, but the cache does not have its
header: `expect "valid header"` fails. -/
theorem commit_without_finalised :
    ∃ hc, (start sampleChain).run lostParentCmds = .ok hc ∧ hc.session.mode = .ready ∧
      hc.commit = .error .validHeader ∧ ¬ CommitSafe hc := by
  have hcommit : ∀ hc : HeaderChainRef, hc.commit = .error .validHeader → ¬ CommitSafe hc := by
    intro hc heq ⟨hc', res, hok, _⟩
    rw [heq] at hok
    cases hok
  refine ⟨_, rfl, by decide +kernel, by rfl, hcommit _ (by rfl)⟩

end Sample

end Nimbus.Spec.HeaderChainCache
