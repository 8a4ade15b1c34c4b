import Nimbus.Spec.ChainLookups
import Nimbus.Spec.ProxyBlocks

/-!
# Requests for verified blocks over whole runs

Anchors move while requests wait for backends. A request resolves its tag against the anchors
of one moment. It ends with an ancestor of the anchor that it picks, if it finds only labels that
are fresh for this anchor. A label that an older anchor has left, which has been reorganised out
since, is taken for a fresh one.
-/

namespace Nimbus.Spec.VerifiedProxy

open Nimbus.Native.VerifiedProxy
open Nimbus.Native.VerifiedProxy.BlockConfig
open Nimbus.Native.ForkedChain (Hash32 Header)
open Nimbus.Spec.ForkedChain
open Request

variable {keccak : Hashes} {lc : LightClient keccak} {engine : BlockConfig keccak}
  {seen : HeaderStore keccak → Prop} {anchors : AnchorHashes} {trust : HeaderTrust}
  {hash : Hash32} {hd : Header}

/-! ## Anchors of a request -/

def anchorHash (anchors : AnchorHashes) : HeaderTrust → Option Hash32
  | .none => none
  | .optimistic => anchors.latest
  | .safe => anchors.safe
  | .finalized => anchors.finalized

variable (lc) in
/-- The light client has named the anchors of the snapshot. -/
structure SnapshotOk (anchors : AnchorHashes) : Prop where
  anchor : ∀ trust hash, anchorHash anchors trust = some hash →
    ∃ a ∈ lc.anchors trust, keccak.computeBlockHash a = hash
  earliest : ∀ hash, anchors.earliest = some hash →
    ∃ a ∈ lc.anchors .finalized, keccak.computeBlockHash a = hash

theorem StoreOk.currentAnchors {store : HeaderStore keccak} (h : StoreOk lc store)
    (hget : currentAnchors store = .ok anchors) : SnapshotOk lc anchors := by
  unfold BlockConfig.currentAnchors at hget
  split at hget
  · cases hget
  · cases hget
    constructor
    · intro trust hash hanchor
      cases trust with
      | none => exact nomatch hanchor
      | optimistic => exact h.anchor .optimistic hash hanchor
      | safe => exact h.anchor .safe hash hanchor
      | finalized => exact h.anchor .finalized hash hanchor
    · exact h.earliest

theorem covered_of_anchor (h : ∃ a ∈ lc.anchors trust, keccak.computeBlockHash a = hash)
    (hhash : keccak.computeBlockHash hd = hash) : Covered lc trust hd := by
  obtain ⟨a, ha, hah⟩ := h
  rw [lc.injective (hhash.trans hah.symm)]
  exact ⟨trust, a, Nat.le_refl _, ha, Relation.ReflTransGen.refl⟩

section

variable (hs : SnapshotOk lc anchors)
include hs

theorem SnapshotOk.aliasAnchor {name : String}
    (h : aliasAnchor anchors name = some (some hash, trust)) :
    ∃ a ∈ lc.anchors trust, keccak.computeBlockHash a = hash := by
  unfold BlockConfig.aliasAnchor at h
  split at h
  · obtain ⟨hhash, rfl⟩ := Prod.mk.inj (Option.some.inj h)
    exact hs.anchor .optimistic hash hhash
  · obtain ⟨hhash, rfl⟩ := Prod.mk.inj (Option.some.inj h)
    exact hs.anchor .safe hash hhash
  · obtain ⟨hhash, rfl⟩ := Prod.mk.inj (Option.some.inj h)
    exact hs.anchor .finalized hash hhash
  · obtain ⟨hhash, rfl⟩ := Prod.mk.inj (Option.some.inj h)
    exact hs.earliest hash hhash
  · cases h

variable (lc) in
/-- The anchor of the snapshot that a request picks for a number. -/
structure Picked (anchors : AnchorHashes) (number : Nat) (picked : Header × HeaderTrust) :
    Prop where
  trust : picked.2 ≠ .none
  anchor : picked.1 ∈ lc.anchors picked.2
  hash : anchorHash anchors picked.2 = some (keccak.computeBlockHash picked.1)
  number : number ≤ picked.1.number

theorem anchorHeader_meets (hhash : anchorHash anchors trust = some hash) :
    Request.Meets (contract lc) seen
      (fun hd => hd ∈ lc.anchors trust ∧
        anchorHash anchors trust = some (keccak.computeBlockHash hd))
      (engine.getTrustedHeader hash trust) := by
  have hanchor := hs.anchor trust hash hhash
  apply Request.Meets.mono (getTrustedHeader_meets fun _ _ => covered_of_anchor hanchor)
  intro hd hhd
  obtain ⟨a, ha, hah⟩ := hanchor
  rw [lc.injective (hhd.trans hah.symm), hah]
  exact ⟨ha, hhash⟩

theorem pickLatest_meets (number : Nat) :
    Request.Meets (contract lc) seen (Picked lc anchors number) (engine.pickLatest anchors number) := by
  unfold pickLatest
  split
  · exact fail_meets _ _
  · next latestHash hlatest =>
    have hhash : anchorHash anchors .optimistic = some latestHash := hlatest
    apply Request.Meets.bind (anchorHeader_meets hs hhash)
    rintro anchor ⟨hanchor, hhash⟩
    split
    · exact fail_meets _ _
    · next hle => exact ⟨fun h => (nomatch h), hanchor, hhash, Nat.le_of_not_lt hle⟩

theorem pickSafe_meets (number : Nat) :
    Request.Meets (contract lc) seen (Picked lc anchors number) (engine.pickSafe anchors number) := by
  unfold pickSafe
  split
  · exact pickLatest_meets hs number
  · next safeHash hsafe =>
    have hhash : anchorHash anchors .safe = some safeHash := hsafe
    apply Request.Meets.bind (anchorHeader_meets hs hhash)
    rintro anchor ⟨hanchor, hhash⟩
    split
    · next hle => exact ⟨fun h => (nomatch h), hanchor, hhash, hle⟩
    · exact pickLatest_meets hs number

theorem pickAnchor_meets (number : Nat) :
    Request.Meets (contract lc) seen (Picked lc anchors number) (engine.pickAnchor anchors number) := by
  unfold pickAnchor
  split
  · exact pickSafe_meets hs number
  · next finalizedHash hfinal =>
    have hhash : anchorHash anchors .finalized = some finalizedHash := hfinal
    apply Request.Meets.bind (anchorHeader_meets hs hhash)
    rintro anchor ⟨hanchor, hhash⟩
    split
    · next hle => exact ⟨fun h => (nomatch h), hanchor, hhash, hle⟩
    · exact pickSafe_meets hs number

end

/-! ## Requests -/

/-- The block is an anchor of the snapshot, or an ancestor of one. -/
def OnAnchor (keccak : Hashes) (anchors : AnchorHashes) (hd : Header) : Prop :=
  ∃ trust anchor, anchorHash anchors trust = some (keccak.computeBlockHash anchor) ∧
    Lineage keccak.toCommonRef anchor hd

/-- What a request with a tag ends with, where blocks that shall be canonical meet `onChain`. -/
def Answers (keccak : Hashes) (onChain : Header → Prop) (anchors : AnchorHashes) :
    BlockTag → Header → Prop
  | .bidAlias name, hd => ∃ trust,
      aliasAnchor anchors name = some (some (keccak.computeBlockHash hd), trust)
  | .bidHash hash false, hd => keccak.computeBlockHash hd = hash
  | .bidHash hash true, hd => keccak.computeBlockHash hd = hash ∧ onChain hd
  | .bidNumber number, hd => hd.number = number ∧ onChain hd

variable {onChain : Header → Prop}

theorem Answers.imp {onChain' : Header → Prop} {tag : BlockTag}
    (h : Answers keccak onChain anchors tag hd) (himp : ∀ hd, onChain hd → onChain' hd) :
    Answers keccak onChain' anchors tag hd := by
  cases tag with
  | bidAlias name => exact h
  | bidNumber number => exact ⟨h.1, himp hd h.2⟩
  | bidHash hash requireCanonical =>
    cases requireCanonical with
    | false => exact h
    | true => exact ⟨h.1, himp hd h.2⟩

/-- The block is one that the tag asks for. -/
def Asked (keccak : Hashes) : BlockTag → Header → Prop
  | .bidAlias _, _ => False
  | .bidHash hash _, hd => keccak.computeBlockHash hd = hash
  | .bidNumber number, hd => hd.number = number

variable (lc) in
/-- The functions that get a header or a block, which has the header `header a`. -/
structure GettersOk {α : Type} (seen : HeaderStore keccak → Prop) (getters : Getters keccak α)
    (header : α → Header) : Prop where
  trusted : ∀ hash trust,
    (trust ≠ .none → ∀ hd, keccak.computeBlockHash hd = hash → Covered lc trust hd) →
    Request.Meets (contract lc) seen (fun a => keccak.computeBlockHash (header a) = hash)
      (getters.trusted hash trust)
  byHash : ∀ anchor trust hash asked good, Descent lc seen trust anchor asked good →
    (∀ hd, keccak.computeBlockHash hd = hash → asked hd ∧ hd.number ≤ anchor.number) →
    Request.Meets (contract lc) seen
      (fun a => keccak.computeBlockHash (header a) = hash ∧ good (header a))
      (getters.byHash anchor trust hash)
  byNumber : ∀ anchor trust number asked good, Descent lc seen trust anchor asked good →
    (∀ hd : Header, hd.number = number → asked hd ∧ hd.number ≤ anchor.number) →
    Request.Meets (contract lc) seen (fun a => (header a).number = number ∧ good (header a))
      (getters.byNumber anchor trust number)

theorem headerGetters_ok (engine : BlockConfig keccak) :
    GettersOk lc seen engine.headerGetters id where
  trusted _ _ hcov := getTrustedHeader_meets hcov
  byHash _ _ _ _ _ d hasked := getHeader_meets d hasked
  byNumber _ _ _ _ _ d hasked := getNumberHeader_meets d hasked

theorem blockGetters_ok (engine : BlockConfig keccak) (fullTransactions : Bool) :
    GettersOk lc seen (engine.blockGetters fullTransactions) convHeader where
  trusted _ _ hcov := getTrustedBlock_meets hcov
  byHash _ _ _ _ _ d hasked := getBlock_meets d hasked
  byNumber _ _ _ _ _ d hasked := getNumberBlock_meets d hasked

theorem getVerified_meets {α : Type} {getters : Getters keccak α} {header : α → Header}
    (hg : GettersOk lc seen getters header) (hs : SnapshotOk lc anchors) (tag : BlockTag)
    (hdescent : ∀ number picked, Picked lc anchors number picked →
      ∃ good, Descent lc seen picked.2 picked.1 (Asked keccak tag) good ∧
        ∀ hd, good hd → onChain hd) :
    Request.Meets (contract lc) seen (fun a => Answers keccak onChain anchors tag (header a))
      (engine.getVerified getters anchors tag) := by
  unfold getVerified
  split
  · split
    · exact fail_meets _ _
    · exact fail_meets _ _
    · next hash trust halias =>
      have hanchor := hs.aliasAnchor halias
      apply Request.Meets.mono (hg.trusted hash trust fun _ _ => covered_of_anchor hanchor)
      rintro a rfl
      exact ⟨trust, halias⟩
  · next hash => exact hg.trusted hash .none fun hne => absurd rfl hne
  · next hash =>
    apply Request.Meets.bind (getTrustedHeader_meets fun hne => absurd rfl hne)
    intro hd hhd
    apply Request.Meets.bind (pickAnchor_meets hs hd.number)
    intro picked hpicked
    obtain ⟨good, d, hgood⟩ := hdescent hd.number picked hpicked
    have hasked : ∀ hd', keccak.computeBlockHash hd' = hash →
        Asked keccak (.bidHash hash true) hd' ∧ hd'.number ≤ picked.1.number := by
      intro hd' hhash
      rw [lc.injective (hhash.trans hhd.symm)]
      exact ⟨hhd, hpicked.number⟩
    apply Request.Meets.mono (hg.byHash picked.1 picked.2 hash _ _ d hasked)
    rintro a ⟨hhash, ha⟩
    exact ⟨hhash, hgood _ ha⟩
  · next number =>
    apply Request.Meets.bind (pickAnchor_meets hs number)
    intro picked hpicked
    obtain ⟨good, d, hgood⟩ := hdescent number picked hpicked
    split
    · next hnum =>
      apply Request.Meets.mono (hg.trusted (keccak.computeBlockHash picked.1) picked.2 fun _ hd hhash => by
        rw [lc.injective hhash]
        exact d.covered _ d.start)
      intro a hhash
      rw [lc.injective hhash]
      exact ⟨hnum.symm, hgood _ d.start⟩
    · have hasked : ∀ hd : Header, hd.number = number →
          Asked keccak (.bidNumber number) hd ∧ hd.number ≤ picked.1.number := by
        rintro hd rfl
        exact ⟨rfl, hpicked.number⟩
      apply Request.Meets.mono (hg.byNumber picked.1 picked.2 number _ _ d hasked)
      rintro a ⟨hnum, ha⟩
      exact ⟨hnum, hgood _ ha⟩

/-! ## Runs -/

/-- A request for a header, or for a block with or without full transactions. -/
structure BlockRequest where
  tag : BlockTag
  snapshot : Option AnchorHashes := none
  block : Option Bool := none

inductive Verified where
  | header (header : Header)
  | block (blk : BlockObject)
  deriving DecidableEq

def Verified.toHeader : Verified → Header
  | .header hd => hd
  | .block blk => convHeader blk

def verify (engine : BlockConfig keccak) (request : BlockRequest) (anchors : AnchorHashes) :
    EngineM keccak Verified :=
  match request.block with
  | none => do
    let header ← engine.getVerifiedHeader request.tag (some anchors)
    return .header header
  | some fullTransactions => do
    let blk ← engine.getVerifiedBlock request.tag fullTransactions (some anchors)
    return .block blk

/-- A request runs at once up to its snapshot, which is the one of the caller, or of now. -/
def startRequest (engine : BlockConfig keccak) (request : BlockRequest)
    (store : HeaderStore keccak) : (BlockTag × Option AnchorHashes) × EngineM keccak Verified :=
  match request.snapshot.elim (currentAnchors store) .ok with
  | .ok anchors => ((request.tag, some anchors), verify engine request anchors)
  | .error e => ((request.tag, none), .fail e)

/-- The light client names an anchor. -/
def nameAnchor (anchor : Hash32 × HeaderTrust) (store : HeaderStore keccak) : HeaderStore keccak :=
  store.putHash anchor.1 anchor.2

abbrev ProxyPool (keccak : Hashes) :=
  Pool (HeaderStore keccak) BlockQuery BlockAnswer Failure Verified
    (BlockTag × Option AnchorHashes)

abbrev ProxyEvent := PoolEvent (Hash32 × HeaderTrust) BlockRequest BlockAnswer

def runProxy (engine : BlockConfig keccak) : List ProxyEvent → Except Unit (ProxyPool keccak) :=
  Pool.run nameAnchor (startRequest engine) { world := HeaderStore.new keccak }

variable (lc) in
/-- The anchors are blocks of the light client, also those of a snapshot that a caller has taken
before, and proofs of slots are sound. -/
def ProxyStepOk (p : ProxyPool keccak) : ProxyEvent → Prop
  | .outside anchor => ∃ a ∈ lc.anchors anchor.2, keccak.computeBlockHash a = anchor.1
  | .start request => ∀ anchors, request.snapshot = some anchors → SnapshotOk lc anchors
  | .turn _ => True
  | .answer i answer => ∀ l query k, p.running[i]? = some (l, .call query k) →
      AnswerOk lc query answer

variable (lc) in
/-- The labels that the request meets are fresh for the latest and the safe anchor of its
snapshot: a block that it asks for, or that is finalized, is an ancestor of the anchor if it is
found with the trust of the anchor and is not above it. -/
def FreshFor (label : BlockTag × Option AnchorHashes) (store : HeaderStore keccak) : Prop :=
  ∀ anchors trust, ∀ anchor ∈ lc.anchors trust, label.2 = some anchors →
    anchorHash anchors trust = some (keccak.computeBlockHash anchor) →
    trust = .optimistic ∨ trust = .safe →
    Fresh trust anchor (Asked keccak label.1) (Lineage keccak.toCommonRef anchor) store

variable (lc) in
def FreshTurn (p : ProxyPool keccak) : ProxyEvent → Prop
  | .turn i => ∀ l f k, p.running[i]? = some (l, .access f k) → FreshFor lc l p.world
  | _ => True

/-- What a request with the label ends with. -/
def Promised (keccak : Hashes) (onChain : AnchorHashes → Header → Prop) (label : BlockTag × Option AnchorHashes)
    (v : Verified) : Prop :=
  ∃ anchors, label.2 = some anchors ∧
    Answers keccak (onChain anchors) anchors label.1 v.toHeader

/-- The states that requests see let each of them go down from the anchor that it picks. -/
def Descends (lc : LightClient keccak)
    (seen : BlockTag × Option AnchorHashes → HeaderStore keccak → Prop)
    (onChain : AnchorHashes → Header → Prop) : Prop :=
  ∀ tag anchors number picked, Picked lc anchors number picked →
    ∃ good, Descent lc (seen (tag, some anchors)) picked.2 picked.1 (Asked keccak tag) good ∧
      ∀ hd, good hd → onChain anchors hd

theorem descends_always (lc : LightClient keccak) :
    Descends lc (fun _ _ => True) fun _ _ => True := by
  intro tag anchors number picked hpicked
  have hcov : Covered lc picked.2 picked.1 :=
    ⟨picked.2, picked.1, Nat.le_refl _, hpicked.anchor, Relation.ReflTransGen.refl⟩
  exact ⟨_, descent_covered hpicked.trust hcov, fun _ _ => trivial⟩

theorem descends_fresh (hno : NoReorg lc .finalized) :
    Descends lc (FreshFor lc) (OnAnchor keccak) := by
  intro tag anchors number picked hpicked
  refine ⟨_, descent_lineage hpicked.anchor ?_, fun hd hline =>
    ⟨picked.2, picked.1, hpicked.hash, hline⟩⟩
  intro store hstore hseen
  cases htrust : picked.2 with
  | none => exact absurd htrust hpicked.trust
  | optimistic =>
    rw [← htrust]
    exact hseen anchors picked.2 picked.1 hpicked.anchor rfl hpicked.hash (.inl htrust)
  | safe =>
    rw [← htrust]
    exact hseen anchors picked.2 picked.1 hpicked.anchor rfl hpicked.hash (.inr htrust)
  | finalized =>
    have hanchor := hpicked.anchor
    rw [htrust] at hanchor
    exact hstore.fresh nofun hno hanchor

theorem verify_meets {request : BlockRequest} (hs : SnapshotOk lc anchors)
    (hdescent : ∀ number picked, Picked lc anchors number picked →
      ∃ good, Descent lc seen picked.2 picked.1 (Asked keccak request.tag) good ∧
        ∀ hd, good hd → onChain hd) :
    Request.Meets (contract lc) seen (fun v => Answers keccak onChain anchors request.tag v.toHeader)
      (verify engine request anchors) := by
  unfold verify
  split
  · apply Request.Meets.bind (getVerified_meets (headerGetters_ok engine) hs request.tag hdescent)
    exact fun _ hanswer => Request.Meets.pure hanswer
  · apply Request.Meets.bind (getVerified_meets (blockGetters_ok engine _) hs request.tag hdescent)
    exact fun _ hanswer => Request.Meets.pure hanswer

variable {seen : BlockTag × Option AnchorHashes → HeaderStore keccak → Prop}
variable {onChain : AnchorHashes → Header → Prop}

theorem startRequest_meets (hdescends : Descends lc seen onChain)
    {request : BlockRequest} {store : HeaderStore keccak} (hstore : StoreOk lc store)
    (hsnapshot : ∀ anchors, request.snapshot = some anchors → SnapshotOk lc anchors) :
    Request.Meets (contract lc) (seen (startRequest engine request store).1)
      (Promised keccak onChain (startRequest engine request store).1)
      (startRequest engine request store).2 := by
  unfold startRequest
  cases hrequest : request.snapshot with
  | some anchors =>
    apply Request.Meets.mono (verify_meets (hsnapshot anchors hrequest) (hdescends request.tag anchors))
    exact fun _ hanswer => ⟨anchors, rfl, hanswer⟩
  | none =>
    cases hcurrent : currentAnchors store with
    | ok anchors =>
      apply Request.Meets.mono
        (verify_meets (hstore.currentAnchors hcurrent) (hdescends request.tag anchors))
      exact fun _ hanswer => ⟨anchors, rfl, hanswer⟩
    | error e =>
      unfold BlockConfig.currentAnchors at hcurrent
      split at hcurrent
      · cases hcurrent
        exact fail_meets _ _
      · cases hcurrent

theorem ProxyStepOk.eventOk (hdescends : Descends lc seen onChain)
    {p : ProxyPool keccak} {ev : ProxyEvent} (h : ProxyStepOk lc p ev)
    (hseen : ∀ i l f k, ev = .turn i → p.running[i]? = some (l, .access f k) → seen l p.world) :
    Pool.EventOk nameAnchor (startRequest engine) (contract lc) seen (Promised keccak onChain) p ev := by
  cases ev with
  | outside anchor => exact fun hstore => hstore.putHash h
  | start request => exact fun hstore => startRequest_meets hdescends hstore h
  | turn i => exact fun l f k hget _ => hseen i l f k rfl hget
  | answer i answer => exact h

theorem storeOk_new : StoreOk lc (HeaderStore.new keccak) where
  label _ _ h := nomatch h
  numbered _ h := absurd rfl h
  anchor trust _ h := by cases trust <;> cases h
  earliest _ h := nomatch h

theorem pool_start : Pool.Ok (contract lc) seen (Promised keccak onChain)
      ({ world := HeaderStore.new keccak } : ProxyPool keccak) :=
  ⟨storeOk_new, fun _ _ h => absurd h List.not_mem_nil, fun _ _ h => absurd h List.not_mem_nil⟩

/-- Every step of the run meets `P`. -/
abbrev ProxyStepsOk (engine : BlockConfig keccak)
    (P : ProxyPool keccak → ProxyEvent → Prop) (events : List ProxyEvent) : Prop :=
  StepRun.StepsOk (Pool.step nameAnchor (startRequest engine)) P
    { world := HeaderStore.new keccak } events

theorem noReorg_mono {trust' : HeaderTrust} (h : NoReorg lc trust)
    (hle : trust.toNat ≤ trust'.toNat) : NoReorg lc trust' :=
  fun t t' a a' ht ht' => h t t' a a' (Nat.le_trans hle ht) (Nat.le_trans hle ht')

theorem stepsOk_freshTurn {events : List ProxyEvent} (hno : NoReorg lc .optimistic)
    (hok : ProxyStepsOk engine (ProxyStepOk lc) events) :
    ProxyStepsOk engine (FreshTurn lc) events := by
  apply StepRun.StepsOk.of_invariant
    (Pool.Ok (contract lc) (fun _ _ => True) (Promised keccak fun _ _ => True)) ?_ ?_ pool_start hok
  · exact fun p ev p' hp hev hstep =>
      hp.step (hev.eventOk (descends_always lc) fun _ _ _ _ _ _ => trivial) hstep
  · intro p ev hp _
    cases ev with
    | turn i =>
      intro l f k _ anchors trust anchor hanchor _ _ htrust
      have hne : trust ≠ .none := by
        rcases htrust with rfl | rfl
        · exact nofun
        · exact nofun
      apply hp.inv.fresh hne (noReorg_mono hno _) hanchor
      rcases htrust with rfl | rfl
      · exact Nat.le_refl _
      · exact Nat.le_succ _
    | outside _ => trivial
    | start _ => trivial
    | answer _ _ => trivial

/-- In every run, whatever backends answer and however the steps of requests and new anchors
are ordered, no request runs for ever. A request for a number or for a canonical hash ends with a
block of that number or hash. It is an anchor of the snapshot or an ancestor of one, if the labels
that requests have met are fresh. -/
theorem run_verified (lc : LightClient keccak) (engine : BlockConfig keccak)
    (events : List ProxyEvent) (hno : NoReorg lc .finalized)
    (hok : ProxyStepsOk engine (ProxyStepOk lc) events)
    (p : ProxyPool keccak) (hrun : runProxy engine events = .ok p) (tag : BlockTag)
    (anchors : Option AnchorHashes) (r : Except Failure Verified)
    (hr : ((tag, anchors), r) ∈ p.finished) :
    r ≠ .error .endless ∧ ∀ v, r = .ok v →
      ∃ snapshot, anchors = some snapshot ∧
        Answers keccak
          (fun hd => ProxyStepsOk engine (FreshTurn lc) events → OnAnchor keccak snapshot hd)
          snapshot tag v.toHeader := by
  have hends := (Pool.run_ends pool_start (hok.imp fun _ _ h =>
    h.eventOk (descends_always lc) fun _ _ _ _ _ _ => trivial) hrun).finished _ _ hr
  constructor
  · rintro rfl
    exact hends rfl
  · rintro v rfl
    by_cases hfresh : ProxyStepsOk engine (FreshTurn lc) events
    · have hboth := hok.and hfresh
      have hends := (Pool.run_ends pool_start (hboth.imp fun _ _ h =>
        h.1.eventOk (descends_fresh hno) fun _ _ _ _ hev hget => by
          have hturn := h.2
          rw [hev] at hturn
          exact hturn _ _ _ hget) hrun).finished _ _ hr
      obtain ⟨snapshot, hsnapshot, hanswer⟩ := hends
      exact ⟨snapshot, hsnapshot, hanswer.imp fun _ honChain _ => honChain⟩
    · obtain ⟨snapshot, hsnapshot, hanswer⟩ := hends
      exact ⟨snapshot, hsnapshot, hanswer.imp fun _ _ h => absurd h hfresh⟩

/-! ## A reorganisation

Block 1 is the latest anchor, then a block 2 on another block 1. -/

private def forkHashes : Hashes :=
  { pairCom with transactionsRoot := fun _ => 0, withdrawalsRoot := fun _ => 0,
                 receiptsRoot := fun _ => 0 }

private def oldLatest : Header := sampleHeader pairDb.baseHash 1 1

private def newParent : Header := sampleHeader pairDb.baseHash 1 2

private def newLatest : Header := sampleHeader (pairCom.computeBlockHash newParent) 2 0

private theorem lineage_newLatest {a : Header} (h : Lineage pairCom newLatest a) :
    a = newLatest ∨ a = newParent ∨ a = pairDb.baseHeader := by
  rcases Relation.ReflTransGen.cases_head h with heq | ⟨p, hp, hrest⟩
  · exact .inl heq.symm
  · have heq : p = newParent := pairCom_injective hp.1.symm
    rw [heq] at hrest
    exact .inr (lineage_child rfl hrest)

/-- A light client with these anchors; of the history contract nothing is known. -/
private def forkClient (latest : Set Header) (hlatest : latest ⊆ {oldLatest, newLatest}) :
    LightClient forkHashes where
  anchors
    | .optimistic => latest
    | _ => ∅
  history _ _ := 0
  injective := pairCom_injective
  parent := by
    intro trust a ha hd p hline hp
    have hlatest : a = oldLatest ∨ a = newLatest := by
      cases trust with
      | optimistic => exact hlatest ha
      | none => exact absurd ha (Set.notMem_empty a)
      | safe => exact absurd ha (Set.notMem_empty a)
      | finalized => exact absurd ha (Set.notMem_empty a)
    have hbase : ∀ p, pairDb.baseHeader.parentHash ≠ pairCom.computeBlockHash p :=
      fun p => (pairCom.hash_ne_zero p).symm
    have hchild : ∀ tag, (sampleHeader pairDb.baseHash 1 tag).parentHash =
        pairCom.computeBlockHash p → 1 = p.number + 1 := by
      intro tag hp
      have heq : p = pairDb.baseHeader := pairCom_injective hp.symm
      rw [heq]
      rfl
    rcases hlatest with rfl | rfl
    · rcases lineage_child rfl hline with rfl | rfl
      · exact hchild 1 hp
      · exact absurd hp (hbase p)
    · rcases lineage_newLatest hline with rfl | rfl | rfl
      · have heq : p = newParent := pairCom_injective hp.symm
        rw [heq]
        rfl
      · exact hchild 2 hp
      · exact absurd hp (hbase p)
  history_slot _ _ _ _ _ _ _ _ := Or.inl rfl

private def forkEngine : BlockConfig forkHashes where
  eip2935ForkTime := none
  maxWindowJumps := 0
  maxBlockWalk := 10
  parallelBlockDownloads := 1
  archive := false
  evicted _ _ := none

private def blockAnswer (hd : Header) : BlockAnswer :=
  .ok (.block ⟨hd, forkHashes.computeBlockHash hd, [], none⟩)

/-- The latest block is asked for by its number. -/
private def latestRun : List ProxyEvent :=
  [.outside (forkHashes.computeBlockHash oldLatest, .optimistic),
   .start { tag := .bidNumber 1 }, .turn 0, .answer 0 (blockAnswer oldLatest), .turn 0,
   .turn 0, .turn 0, .turn 0]

/-- Then the anchor moves, and the old block is asked for by its hash, as a canonical one. -/
private def reorgRun : List ProxyEvent :=
  latestRun ++
  [.outside (forkHashes.computeBlockHash newLatest, .optimistic),
   .start { tag := .bidHash (forkHashes.computeBlockHash oldLatest) true },
   .turn 0, .turn 0, .turn 0, .answer 0 (blockAnswer newLatest), .turn 0, .turn 0, .turn 0]

variable {lc : LightClient forkHashes}

private theorem blockAnswer_ok (query : BlockQuery) (hd : Header) :
    AnswerOk lc query (blockAnswer hd) where
  ends h := nomatch h
  storage _ _ _ _ _ h := nomatch h

private theorem latestRun_ok
    (hlatest : oldLatest ∈ lc.anchors .optimistic) :
    ∀ ev ∈ latestRun, ∀ p, ProxyStepOk lc p ev := by
  intro ev hev p
  simp only [latestRun, List.mem_cons, List.not_mem_nil, or_false] at hev
  rcases hev with rfl | rfl | rfl | rfl | rfl | rfl | rfl | rfl
  · exact ⟨oldLatest, hlatest, rfl⟩
  · exact fun _ h => nomatch h
  · trivial
  · exact fun _ query _ _ => blockAnswer_ok query oldLatest
  all_goals trivial

private theorem reorgRun_ok
    (hold : oldLatest ∈ lc.anchors .optimistic) (hnew : newLatest ∈ lc.anchors .optimistic) :
    ∀ ev ∈ reorgRun, ∀ p, ProxyStepOk lc p ev := by
  intro ev hev p
  rcases List.mem_append.mp hev with hev | hev
  · exact latestRun_ok hold ev hev p
  · simp only [List.mem_cons, List.not_mem_nil, or_false] at hev
    rcases hev with rfl | rfl | rfl | rfl | rfl | rfl | rfl | rfl | rfl
    · exact ⟨newLatest, hnew, rfl⟩
    · exact fun _ h => nomatch h
    · trivial
    · trivial
    · trivial
    · exact fun _ query _ _ => blockAnswer_ok query newLatest
    all_goals trivial

private def latestSnapshot (hd : Header) : AnchorHashes where
  latest := some (forkHashes.computeBlockHash hd)
  safe := none
  finalized := none
  earliest := none

private theorem finished_of_run (events : List ProxyEvent)
    (finished : List ((BlockTag × Option AnchorHashes) × Except Failure Verified))
    (h : (runProxy forkEngine events).toOption.map (·.finished) = some finished) :
    ∃ p, runProxy forkEngine events = .ok p ∧ p.finished = finished := by
  cases hrun : runProxy forkEngine events with
  | error e =>
    rw [hrun] at h
    cases h
  | ok p =>
    rw [hrun] at h
    exact ⟨p, rfl, Option.some.inj h⟩

theorem run_verified_latestRun : ∃ p snapshot, runProxy forkEngine latestRun = .ok p ∧
    ((.bidNumber 1, some snapshot), .ok (.header oldLatest)) ∈ p.finished ∧
    OnAnchor forkHashes snapshot oldLatest := by
  have hsub : ({oldLatest} : Set Header) ⊆ {oldLatest, newLatest} :=
    Set.singleton_subset_iff.mpr (Set.mem_insert _ _)
  have hno : NoReorg (forkClient {oldLatest} hsub) .optimistic := by
    have honly : ∀ t, ∀ a ∈ (forkClient {oldLatest} hsub).anchors t, a = oldLatest := by
      intro t a ha
      cases t with
      | optimistic => exact ha
      | none => exact absurd ha (Set.notMem_empty a)
      | safe => exact absurd ha (Set.notMem_empty a)
      | finalized => exact absurd ha (Set.notMem_empty a)
    intro t t' a a' _ _ ha ha'
    rw [honly t a ha, honly t' a' ha']
    exact .inl Relation.ReflTransGen.refl
  obtain ⟨p, hrun, hfinished⟩ := finished_of_run latestRun
    [((.bidNumber 1, some (latestSnapshot oldLatest)), .ok (.header oldLatest))]
    (by decide +kernel)
  have hmem : ((.bidNumber 1, some (latestSnapshot oldLatest)), .ok (.header oldLatest)) ∈
      p.finished := by
    rw [hfinished]
    exact List.mem_singleton.mpr rfl
  have hok : ProxyStepsOk forkEngine (ProxyStepOk (forkClient {oldLatest} hsub)) latestRun :=
    StepRun.stepsOk_of_forall (latestRun_ok rfl)
  have hverified := run_verified (forkClient {oldLatest} hsub) forkEngine latestRun
    (noReorg_mono hno (by decide)) hok p hrun _ _ _ hmem
  obtain ⟨snapshot, hsnapshot, hnum, honChain⟩ := hverified.2 _ rfl
  rw [← Option.some.inj hsnapshot] at honChain
  exact ⟨p, _, hrun, hmem, honChain (stepsOk_freshTurn hno hok)⟩

/-- The old block is returned as a canonical one. -/
theorem getVerifiedHeader_reorged : ¬ ∀ (keccak : Hashes) (lc : LightClient keccak)
    (engine : BlockConfig keccak) (events : List ProxyEvent), NoReorg lc .finalized →
    ProxyStepsOk engine (ProxyStepOk lc) events →
    ∀ (p : ProxyPool keccak), runProxy engine events = .ok p →
    ∀ (tag : BlockTag) (anchors : Option AnchorHashes) (v : Verified),
      ((tag, anchors), .ok v) ∈ p.finished →
      ∃ snapshot, anchors = some snapshot ∧
        Answers keccak (OnAnchor keccak snapshot) snapshot tag v.toHeader := by
  intro hall
  have hno : NoReorg (forkClient {oldLatest, newLatest} (Set.Subset.refl _)) .finalized := by
    intro t t' a a' ht _ ha
    cases t with
    | optimistic => exact absurd ht (by decide)
    | none => exact absurd ha (Set.notMem_empty a)
    | safe => exact absurd ha (Set.notMem_empty a)
    | finalized => exact absurd ha (Set.notMem_empty a)
  have hok : ProxyStepsOk forkEngine
      (ProxyStepOk (forkClient {oldLatest, newLatest} (Set.Subset.refl _))) reorgRun :=
    StepRun.stepsOk_of_forall (reorgRun_ok (.inl rfl) (.inr rfl))
  obtain ⟨p, hrun, hfinished⟩ := finished_of_run reorgRun
    [((.bidNumber 1, some (latestSnapshot oldLatest)), .ok (.header oldLatest)),
      ((.bidHash (forkHashes.computeBlockHash oldLatest) true, some (latestSnapshot newLatest)),
        .ok (.header oldLatest))]
    (by decide +kernel)
  obtain ⟨snapshot, hsnapshot, -, trust, anchor, hanchor, hline⟩ := hall forkHashes _ forkEngine
    reorgRun hno hok p hrun (.bidHash (forkHashes.computeBlockHash oldLatest) true)
    (some (latestSnapshot newLatest)) (.header oldLatest) (by
      rw [hfinished]
      exact .tail _ (List.mem_singleton.mpr rfl))
  rw [← Option.some.inj hsnapshot] at hanchor
  have heq : anchor = newLatest := by
    cases trust with
    | optimistic => exact pairCom_injective (Option.some.inj hanchor).symm
    | none => exact nomatch hanchor
    | safe => exact nomatch hanchor
    | finalized => exact nomatch hanchor
  rw [heq] at hline
  have hancestor : oldLatest = newLatest ∨ oldLatest = newParent ∨
      oldLatest = pairDb.baseHeader := lineage_newLatest hline
  exact absurd hancestor (by decide)

end Nimbus.Spec.VerifiedProxy
