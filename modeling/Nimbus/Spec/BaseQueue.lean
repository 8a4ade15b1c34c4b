import Nimbus.Spec.ChainLineage
import Nimbus.Spec.ForkedChainSetHead
import Mathlib.Data.List.Chain

/-!
# The queue of bases to come

A fork choice, or an import that lags behind the finalized block, asks for a new base. The way
from the last queued base up to it is cut into steps of at most `persistBatchSize` blocks, and
the ends of these steps are queued. A queued handler takes one of them at a time and persists
the blocks up to it.
-/

namespace Nimbus.Spec.ForkedChain

open Nimbus.Native.ForkedChain
open ParentTree ForkedChainRef

/-! ## The steps up to a base -/

/-- From `m` to `n` it is a step of at most `size`. -/
def StepUp (size m n : Nat) : Prop := m < n ∧ n ≤ m + size

/-- The base that is queued last. -/
def lastQueued (c : ForkedChainRef) : BlockRef := c.baseQueue.getLast?.getD c.base

section

variable {c c' : ForkedChainRef} {added : List BlockRef} {c'' : ForkedChainRef} {finalized : Bool}

/-- The walk down from `it` records a block whenever it has come down by a whole step from the
block recorded before, the one with the number `last`. -/
theorem baseSteps_ladder (hl : Linked c) {prevNumber : Nat} (hsize : 0 < c.persistBatchSize)
    (hprev : c.number c.base ≤ prevNumber) {fuel it last : Nat} {steps : List BlockRef}
    (hit : InTree c it) (hfuel : it < fuel) (hlast : prevNumber < last)
    (hlow : last - min last c.persistBatchSize ≤ c.number it) (hhigh : c.number it ≤ last)
    (hrun : c.baseSteps prevNumber fuel (last - min last c.persistBatchSize) (some it)
      = .ok steps) :
    (last :: steps.map c.number ++ [prevNumber]).IsChain
      fun n m => StepUp c.persistBatchSize m n := by
  induction fuel generalizing it last steps with
  | zero => omega
  | succ fuel ih =>
    simp only [baseSteps] at hrun
    by_cases hgt : c.number it > prevNumber
    · have hne : it ≠ c.base := by
        intro heq
        rw [heq] at hgt
        omega
      obtain ⟨p, hp, hpt, hnum, _⟩ := hl.link hit hne
      have hlt := hl.parent_lt it p hp
      rw [if_pos hgt, hp] at hrun
      by_cases heq : c.number it = last - min last c.persistBatchSize
      · -- a step ends here
        rw [if_pos heq] at hrun
        obtain ⟨rest, hrest, hsteps⟩ := except_bind_ok.mp hrun
        cases hsteps
        rw [← heq] at hrest
        have hchain := ih hpt (by omega) hgt (by omega) (by omega) hrest
        refine List.IsChain.cons_cons ?_ hchain
        unfold StepUp
        omega
      · rw [if_neg heq] at hrun
        exact ih hpt (by omega) hlast (by omega) (by omega) hrun
    · rw [if_neg hgt] at hrun
      cases hrun
      refine List.IsChain.cons_cons ?_ (List.isChain_singleton _)
      unfold StepUp
      omega

/-- The targets that a request for `base` adds behind `prev`. -/
structure Ladder (c : ForkedChainRef) (prev base : BlockRef) (added : List BlockRef) : Prop where
  /-- they end at the requested base -/
  last : added.getLast? = some base
  /-- they go up from `prev`, in steps of at most the batch size -/
  steps : (c.number prev :: added.map c.number).IsChain (StepUp c.persistBatchSize)
  /-- all on the lineage of the requested base -/
  lineage : ∀ b ∈ added, Anc c.parent base b

theorem lastQueued_mem (c : ForkedChainRef) : lastQueued c ∈ c.base :: c.baseQueue := by
  unfold lastQueued
  cases h : c.baseQueue.getLast? with
  | none => exact List.mem_cons_self
  | some b => exact .tail _ (List.mem_of_getLast? h)

/-- A base is in the tree, and so are those in the queue. -/
theorem Inv.queued_or_base (hi : Inv c) {b : BlockRef} (hb : b ∈ c.base :: c.baseQueue) :
    InTree c b ∧ Finalized c b := by
  rcases List.mem_cons.mp hb with rfl | hb
  · exact ⟨hi.linked.base_mem, hi.finality.base⟩
  · exact hi.queued b hb

theorem queueUpdateBase_ladder (hi : Inv c) (hsize : 0 < c.persistBatchSize) {base : BlockRef}
    (hb : InTree c base) (hrun : c.queueUpdateBase base = .ok c') :
    (c.number base ≤ c.number (lastQueued c) ∧ c' = c) ∨
    (c.number (lastQueued c) < c.number base ∧ ∃ added, Ladder c (lastQueued c) base added ∧
      c' = { c with
        baseQueue := c.baseQueue ++ added, queue := c.queue ++ [.processUpdateBase] }) := by
  have hl := hi.linked
  change (if c.number (lastQueued c) ≥ c.number base then _ else _) = _ at hrun
  by_cases hle : c.number (lastQueued c) ≥ c.number base
  · rw [if_pos hle] at hrun
    cases hrun
    exact .inl ⟨hle, rfl⟩
  · rw [if_neg hle] at hrun
    obtain ⟨steps, hsteps, hdone⟩ := except_bind_ok.mp hrun
    cases hdone
    have hprev : c.number c.base ≤ c.number (lastQueued c) :=
      hl.number_base_le (hi.queued_or_base (lastQueued_mem c)).1
    have hchain := baseSteps_ladder hl hsize hprev hb (Nat.lt_succ_self base) (by omega)
      (Nat.sub_le ..) (Nat.le_refl _) hsteps
    obtain ⟨steps', hsteps', hmem, _⟩ := baseSteps_spec hl hprev
      (c.number base - min (c.number base) c.persistBatchSize) hb (Nat.lt_succ_self base)
    have hsame : Except.ok steps' = (Except.ok steps : Except Defect _) :=
      hsteps'.symm.trans hsteps
    cases hsame
    refine .inr ⟨by omega, (base :: steps).reverse, ⟨?_, ?_, fun b hb => ?_⟩, rfl⟩
    · rw [List.getLast?_reverse]
      rfl
    · rw [← List.isChain_reverse, List.reverse_cons, ← List.map_reverse, List.reverse_reverse]
      exact hchain
    · rcases List.mem_cons.mp (List.mem_reverse.mp hb) with rfl | hb
      · exact Anc.refl _
      · exact (hmem b hb).1

/-! ## Requests -/

/-- `added` is put behind the queue, and nothing else about the base changes. -/
structure Adds (c c' : ForkedChainRef) (added : List BlockRef) : Prop where
  base : c'.base = c.base
  queue : c'.baseQueue = c.baseQueue ++ added
  baseDistance : c'.baseDistance = c.baseDistance
  persistBatchSize : c'.persistBatchSize = c.persistBatchSize

/-- What a request adds that has the finalized number and the number of the head. -/
structure Answers (c c' : ForkedChainRef) (finalizedNumber headNumber : Nat)
    (added : List BlockRef) : Prop where
  known : newBaseNumber c finalizedNumber headNumber ≤ c.number (lastQueued c) → added = []
  ladder : c.number (lastQueued c) < newBaseNumber c finalizedNumber headNumber →
    ∃ base, c'.number base = newBaseNumber c finalizedNumber headNumber ∧
      Anc c'.parent base (lastQueued c) ∧ Ladder c' (lastQueued c) base added

/-- Neither `fcuHead` nor the processing queue matters here. -/
theorem Adds.congr (ha : Adds c c' added)
    (h : c'' = { c' with fcuHead := c''.fcuHead, queue := c''.queue }) : Adds c c'' added := by
  rw [h]
  exact ⟨ha.base, ha.queue, ha.baseDistance, ha.persistBatchSize⟩

theorem Answers.congr {f n : Nat} (ha : Answers c c' f n added)
    (h : c'' = { c' with fcuHead := c''.fcuHead, queue := c''.queue }) :
    Answers c c'' f n added := by
  rw [h]
  refine ⟨ha.known, fun hlt => ?_⟩
  obtain ⟨base, hnum, hanc, hladder⟩ := ha.ladder hlt
  exact ⟨base, hnum, hanc, hladder.last, hladder.steps, hladder.lineage⟩

/-- A requested base that is above the current one is not above the finalized number, and keeps
its distance to the head. -/
theorem newBaseNumber_bounds {f h : Nat} (hlt : c.number c.base < newBaseNumber c f h) :
    newBaseNumber c f h ≤ f ∧ newBaseNumber c f h + c.baseDistance ≤ h := by
  simp only [newBaseNumber] at hlt ⊢
  split at hlt
  · omega
  · next hmoves =>
    rw [if_neg hmoves]
    omega

theorem FinalizedAt.newBaseNumber {fin : Nat} (h : FinalizedAt c c' fin) (hl' : Linked c')
    (f n : Nat) : newBaseNumber c' f n = newBaseNumber c f n := by
  have hbase : c'.base = c.base := congrArg (·.base) h.rest
  have hnum : c'.number c'.base = c.number c.base := by
    rw [h.number hl'.base_mem, hbase]
  unfold ForkedChain.newBaseNumber
  rw [hnum, h.rest]

/-- Finalizing a block and asking for a base on its lineage. -/
theorem finalize_answers (hi : Inv c) (hsize : 0 < c.persistBatchSize) {fin head base : BlockRef}
    {c₁ : ForkedChainRef} {f h : Nat} (hfin : InTree c fin) (htop : TopFinalized c fin)
    (hhead : InTree c head) (hanc : Anc c.parent head fin) (hb : Anc c.parent fin base)
    (hnum : c.number base = newBaseNumber c f h) (hfinal : c.updateFinalized fin head = .ok c₁)
    (hrun : c₁.queueUpdateBase base = .ok c') :
    ∃ added, Adds c c' added ∧ Answers c c' f h added := by
  have hl := hi.linked
  obtain ⟨c₁', hfinal', hl₁, hf₁, hh₁, hat⟩ :=
    updateFinalized_spec hl hi.finality hi.heads hfin htop hhead hanc
  rw [hfinal] at hfinal'
  cases hfinal'
  have hi₁ := hat.inv hi hfin htop hl₁ hf₁ hh₁
  have hbase : c₁.base = c.base := congrArg (·.base) hat.rest
  have hqueue : c₁.baseQueue = c.baseQueue := congrArg (·.baseQueue) hat.rest
  have hdistance : c₁.baseDistance = c.baseDistance := congrArg (·.baseDistance) hat.rest
  have hbatch : c₁.persistBatchSize = c.persistBatchSize :=
    congrArg (·.persistBatchSize) hat.rest
  have hlastq : lastQueued c₁ = lastQueued c := by
    unfold lastQueued
    rw [hqueue, hbase]
  -- the last queued base is finalized, so it stays
  obtain ⟨hlast, hlastfin⟩ := hi.queued_or_base (lastQueued_mem c)
  have hlast₁ : InTree c₁ (lastQueued c) := hat.kept hi hfin htop hlast hlastfin
  have hb₁ : InTree c₁ base := hat.inTree.mpr ⟨hl.inTree_anc hfin hb, .inr hb⟩
  have hnum₁ : c₁.number base = newBaseNumber c f h := by rw [hat.number hb₁, hnum]
  have hnumlast : c₁.number (lastQueued c) = c.number (lastQueued c) := hat.number hlast₁
  rw [← hbatch] at hsize
  rcases queueUpdateBase_ladder hi₁ hsize hb₁ hrun with ⟨hle, rfl⟩ | ⟨hlt, added, hladder, hc'⟩
  · rw [hlastq] at hle
    refine ⟨[], ⟨hbase, ?_, hdistance, hbatch⟩, fun _ => rfl, fun hlt => ?_⟩
    · rw [hqueue, List.append_nil]
    · omega
  · rw [hlastq] at hlt
    refine ⟨added, ⟨?_, ?_, ?_, ?_⟩, fun hle => ?_, fun _ => ⟨base, ?_, ?_, ?_⟩⟩
    · rw [hc']
      exact hbase
    · rw [hc', ← hqueue]
    · rw [hc']
      exact hdistance
    · rw [hc']
      exact hbatch
    · omega
    · rw [hc']
      exact hnum₁
    · -- `fin` is above both, and `base` is the higher one
      have hfinlast : Anc c.parent fin (lastQueued c) := by
        rcases htop with h1 | htop
        · rcases hi.heads.comparable_of_single hl h1 hfin hlast with h | h
          · exact h
          · have hle := hl.number_le hlast h
            have hle' := hl.number_le hfin hb
            omega
        · exact htop _ hlast hlastfin
      have hbl : Anc c.parent base (lastQueued c) :=
        hl.anc_of_number_le hfin hb hfinlast (by omega)
      rw [hc']
      exact (hat.anc_iff hl₁ hb₁).mpr hbl
    · rw [hlastq] at hladder
      rw [hc']
      exact ⟨hladder.last, hladder.steps, hladder.lineage⟩

theorem Adds.of_same (hbase : c'.base = c.base) (hqueue : c'.baseQueue = c.baseQueue)
    (hdistance : c'.baseDistance = c.baseDistance)
    (hbatch : c'.persistBatchSize = c.persistBatchSize) : Adds c c' [] :=
  ⟨hbase, by rw [hqueue, List.append_nil], hdistance, hbatch⟩

section

variable (hi : Inv c) (hsize : 0 < c.persistBatchSize)
include hi hsize

theorem forwardBase_answers
    (hok : c.autoForward = true → OnTop c c.latest) (hrun : c.forwardBase = .ok c') :
    (c.autoForward = false ∧ Adds c c' []) ∨ (c.autoForward = true ∧ ∃ added, Adds c c' added ∧
      Answers c c' c.latestFinalized.number (c.number c.latest) added) := by
  have hl := hi.linked
  unfold forwardBase at hrun
  by_cases harm : c.autoForward = true
  · right
    rw [if_pos harm] at hrun
    have hlat := hi.heads.inTree hi.heads.latest_mem
    obtain ⟨base, hbase, hbanc, hbnum⟩ :=
      calculateNewBase_spec hl hlat c.latestFinalized.number
    obtain ⟨hfanc, hfb, hmax, _⟩ := finalizedFrontier_spec hl hi.finality hlat hbanc
    have hfrt := hl.inTree_anc hlat hfanc
    have htop : TopFinalized c (c.finalizedFrontier base) :=
      .inr fun x hx hxfin => hmax x (hok harm x hx hxfin) hxfin
    obtain ⟨base', hbase', hrun⟩ := except_bind_ok.mp hrun
    rw [hbase] at hbase'
    cases hbase'
    obtain ⟨c₁, hfinal, hrun⟩ := except_bind_ok.mp hrun
    obtain ⟨c₂, hqueue, hrun⟩ := except_bind_ok.mp hrun
    obtain ⟨added, hadds, hanswers⟩ :=
      finalize_answers hi hsize hfrt htop hlat hfanc hfb hbnum hfinal hqueue
    refine ⟨harm, added, ?_⟩
    -- moving `fcuHead` up to the base does not touch the queue
    split at hrun
    · cases hrun
      exact ⟨hadds.congr rfl, hanswers.congr rfl⟩
    · cases hrun
      exact ⟨hadds, hanswers⟩
  · rw [if_neg harm] at hrun
    cases hrun
    exact .inl ⟨Bool.eq_false_iff.mpr harm, Adds.of_same rfl rfl rfl rfl⟩

/-- The tail of `forkChoice`, once head and finalized block are known. -/
theorem forkChoiceTail_answers
    {head fin : BlockRef} {r : Except ChainError Unit} (hhead : InTree c head)
    (hfin : InTree c fin) (hanc : Anc c.parent head fin) (htop : TopFinalized c fin) (hrun : (do
      let c ← c.updateFinalized fin head
      let base ← c.calculateNewBase (c.number fin) head
      if c.number base ≤ c.number c.base then return (c, .ok ())
      if c.number fin > c.number head then .error .finalizedAboveHead
      else if c.number base > c.number fin then .error .baseAboveFinalized
      else
        let c ← c.queueUpdateBase base
        return (c, .ok ())) = (.ok (c', r) : Except Defect _)) :
    ∃ added, Adds c c' added ∧ Answers c c' (c.number fin) (c.number head) added := by
  have hl := hi.linked
  obtain ⟨c₁, hfinal, hrun⟩ := except_bind_ok.mp hrun
  obtain ⟨base, hcalc, hrun⟩ := except_bind_ok.mp hrun
  obtain ⟨c₁', hfinal', hl₁, hf₁, hh₁, hat⟩ :=
    updateFinalized_spec hl hi.finality hi.heads hfin htop hhead hanc
  rw [hfinal] at hfinal'
  cases hfinal'
  have hhead₁ : InTree c₁ head := hat.inTree.mpr ⟨hhead, .inl hanc⟩
  have hfin₁ : InTree c₁ fin := hat.inTree.mpr ⟨hfin, .inl (Anc.refl _)⟩
  have hanc₁ : Anc c₁.parent head fin := (hat.anc_iff hl₁ hhead₁).mpr hanc
  have hbase : c₁.base = c.base := congrArg (·.base) hat.rest
  have hnumbase : c₁.number c₁.base = c.number c.base := by rw [hat.number hl₁.base_mem, hbase]
  obtain ⟨base', hcalc', hbanc, hbnum⟩ := calculateNewBase_spec hl₁ hhead₁ (c₁.number fin)
  rw [hcalc] at hcalc'
  cases hcalc'
  rw [hat.newBaseNumber hl₁, hat.number hfin₁, hat.number hhead₁] at hbnum
  by_cases hstay : c₁.number base ≤ c₁.number c₁.base
  · rw [if_pos hstay] at hrun
    cases hrun
    refine ⟨[], Adds.of_same hbase ?_ ?_ ?_, fun _ => rfl, fun hlt => ?_⟩
    · exact congrArg (·.baseQueue) hat.rest
    · exact congrArg (·.baseDistance) hat.rest
    · exact congrArg (·.persistBatchSize) hat.rest
    · -- the queue never ends below the base
      have hle := hl.number_base_le (hi.queued_or_base (lastQueued_mem c)).1
      omega
  · rw [if_neg hstay] at hrun
    split at hrun
    · cases hrun
    · split at hrun
      · cases hrun
      · next hbfin =>
        obtain ⟨c₂, hqueue, hdone⟩ := except_bind_ok.mp hrun
        cases hdone
        have hfb₁ : Anc c₁.parent fin base :=
          hl₁.anc_of_number_le hhead₁ hanc₁ hbanc (Nat.not_lt.mp hbfin)
        have hb₁ : InTree c₁ base := hl₁.inTree_anc hfin₁ hfb₁
        have hfb : Anc c.parent fin base := (hat.anc_iff hl₁ hfin₁).mp hfb₁
        rw [hat.number hb₁] at hbnum
        exact finalize_answers hi hsize hfin htop hhead hanc hfb hbnum hfinal hqueue

theorem forkChoice_answers {headHash finalizedHash safeHash : Hash32} {r : Except ChainError Unit}
    (hok : ∀ head fin, finalizedHash ≠ zeroHash32 → c.findHeadPos headHash = .ok head →
      c.findFinalizedPos finalizedHash head = .ok fin → TopFinalized c fin)
    (hrun : c.forkChoice headHash finalizedHash safeHash = .ok (c', r)) :
    ∃ added, Adds c c' added ∧
      (added = [] ∨ ∃ head fin, finalizedHash ≠ zeroHash32 ∧ c.findHeadPos headHash = .ok head ∧
        c.findFinalizedPos finalizedHash head = .ok fin) ∧
      ∀ head fin, finalizedHash ≠ zeroHash32 → c.findHeadPos headHash = .ok head →
        c.findFinalizedPos finalizedHash head = .ok fin →
        Answers c c' (c.number fin) (c.number head) added := by
  obtain ⟨p, s, hreq⟩ := requested_eq c finalizedHash safeHash
  rw [forkChoice_eq hreq] at hrun
  generalize hc₀ : ({ c with pendingFCU := p, fcuSafe := s } : ForkedChainRef) = c₀ at hrun
  have hhead₀ : c₀.findHeadPos headHash = c.findHeadPos headHash := by
    rw [← hc₀]
    rfl
  have hnone {c₁ : ForkedChainRef} {f : FcuHashAndNumber}
      (hc₁ : c₁ = { c with pendingFCU := p, fcuSafe := s, fcuHead := f }) : Adds c c₁ [] := by
    rw [hc₁]
    exact Adds.of_same rfl rfl rfl rfl
  have hsame : c₀ = { c with pendingFCU := p, fcuSafe := s, fcuHead := c.fcuHead } := hc₀.symm
  split at hrun
  · next hdone =>
    cases hrun
    exact ⟨[], hnone hsame, .inl rfl, fun _ _ hz => absurd hdone.2 hz⟩
  · cases hpos : c₀.findHeadPos headHash with
    | error e =>
      rw [hpos] at hrun
      cases hrun
      refine ⟨[], hnone hsame, .inl rfl, fun head _ _ hhead => ?_⟩
      rw [← hhead₀, hpos] at hhead
      cases hhead
    | ok head =>
      rw [hpos] at hrun
      dsimp only at hrun
      have hpos' : c.findHeadPos headHash = .ok head := hhead₀ ▸ hpos
      have hhead := findHeadPos_spec hi.linked hpos'
      obtain ⟨f, hfcu⟩ : ∃ f, c₀.updateHead head =
          { c with pendingFCU := p, fcuSafe := s, fcuHead := f } := by
        rw [← hc₀]
        exact ⟨_, rfl⟩
      have hfinal₀ : (c₀.updateHead head).findFinalizedPos finalizedHash head =
          c.findFinalizedPos finalizedHash head := by
        rw [hfcu]
        rfl
      generalize c₀.updateHead head = c₁ at hrun hfcu hfinal₀
      split at hrun
      · next hz =>
        cases hrun
        exact ⟨[], hnone hfcu, .inl rfl, fun _ _ hnz => absurd hz hnz⟩
      · next hz =>
        cases hfpos : c₁.findFinalizedPos finalizedHash head with
        | error e =>
          rw [hfpos] at hrun
          cases hrun
          refine ⟨[], hnone hfcu, .inl rfl, fun head' fin _ hhead' hfin => ?_⟩
          rw [hpos'] at hhead'
          cases hhead'
          rw [← hfinal₀, hfpos] at hfin
          cases hfin
        | ok fin =>
          rw [hfpos] at hrun
          have hfpos' : c.findFinalizedPos finalizedHash head = .ok fin := hfinal₀ ▸ hfpos
          obtain ⟨hfin, _, hanc⟩ := findFinalizedPos_spec hi hhead hfpos'
          have htop := hok head fin hz hpos' hfpos'
          subst hfcu
          obtain ⟨added, hadds, hanswers⟩ := forkChoiceTail_answers
            (c := { c with pendingFCU := p, fcuSafe := s, fcuHead := f }) (hi.congr rfl) hsize
            hhead hfin hanc htop hrun
          refine ⟨added, ⟨hadds.base, hadds.queue, hadds.baseDistance, hadds.persistBatchSize⟩,
            .inr ⟨head, fin, hz, hpos', hfpos'⟩, fun head' fin' _ hhead' hfin' => ?_⟩
          rw [hpos'] at hhead'
          cases hhead'
          rw [hfpos'] at hfin'
          cases hfin'
          exact ⟨hanswers.known, hanswers.ladder⟩

theorem validateBlock_answers {env : Env}
    {parent : BlockRef} {blk : Block} {finalized : Bool} {r : Except ChainError BlockRef}
    (hp : InTree c parent) (hph : blk.header.parentHash = c.hash parent)
    (hok : Attachable c env parent blk finalized → Armed c blk → OnTop c parent)
    (hrun : c.validateBlock env parent blk finalized = .ok (c', r)) :
    ∃ added, Adds c c' added ∧
      (added = [] ∨ (Attachable c env parent blk finalized ∧ Armed c blk)) ∧
      (Attachable c env parent blk finalized → Armed c blk → Answers c c'
        (resolvePending c blk).latestFinalized.number blk.header.number added) := by
  cases hknown : c.hashToBlock (c.com.computeBlockHash blk.header) with
  | some existing =>
    simp only [validateBlock, hknown] at hrun
    cases hrun
    refine ⟨[], Adds.of_same rfl rfl rfl rfl, .inl rfl, fun hatt => ?_⟩
    rw [hatt.1] at hknown
    cases hknown
  | none =>
    obtain ⟨h, l, hres⟩ := resolvePending_eq c blk
    have hblk : (resolvePending c blk).blocks = c.blocks := by rw [hres]
    have harmed : Armed c blk ↔ (resolvePending c blk).autoForward = true := Iff.rfl
    generalize hc₁ : resolvePending c blk = c₁ at hres hblk harmed
    have hi₁ : Inv c₁ := by
      rw [hres]
      exact hi.congr rfl
    have hp₁ : InTree c₁ parent := by
      rw [hres]
      exact hp
    have hcom : c₁.com = c.com := by rw [hres]
    obtain ⟨pf, hpf, hbegin⟩ := txFrameBegin_eq hi₁.linked hp₁
    rw [validateBlock_of_new hc₁ hknown hbegin, hblk] at hrun
    by_cases hpass : processBlock env (c.blocks parent).header blk finalized = true
    · have hatt : Attachable c env parent blk finalized := ⟨hknown, hpass⟩
      have hnum := number_of_processBlock hi.linked hp hph hpass
      obtain ⟨c₂, happend, hi₂, hat⟩ := append_opened hi₁ blk hp₁
        (by rw [hres]; exact hknown) (by rw [hres]; exact hph) (by rw [hres]; exact hnum) hpf
      rw [if_pos hpass, ← hcom, happend] at hrun
      obtain ⟨c₃, hforward, hdone⟩ := except_bind_ok.mp hrun
      cases hdone
      have hlo := (hi₁.opened pf).linked
      have harm : c₂.autoForward = c₁.autoForward := hat.autoForward hlo
      have hsize₂ : 0 < c₂.persistBatchSize := by
        rw [hat.rest, hres]
        exact hsize
      -- the base and its queue are those of `c`
      have hbase : c₂.base = c.base := by rw [hat.rest, opened, hres]
      have hqueue : c₂.baseQueue = c.baseQueue := by rw [hat.rest, opened, hres]
      have hdistance : c₂.baseDistance = c.baseDistance := by rw [hat.rest, opened, hres]
      have hbatch : c₂.persistBatchSize = c.persistBatchSize := by rw [hat.rest, opened, hres]
      have hlast : lastQueued c₂ = lastQueued c := by
        unfold lastQueued
        rw [hqueue, hbase]
      have hadds {added : List BlockRef} (h : Adds c₂ c' added) : Adds c c' added :=
        ⟨h.base.trans hbase, h.queue.trans (by rw [hqueue]), h.baseDistance.trans hdistance,
          h.persistBatchSize.trans hbatch⟩
      have hon : c₂.autoForward = true → OnTop c₂ c₂.latest := by
        intro hgo
        have hontop : OnTop c₁ parent := by
          rw [hres]
          exact hok hatt (harmed.mpr (harm ▸ hgo))
        rw [hat.latest]
        exact hat.onTop hlo hp₁ hontop
      rcases forwardBase_answers hi₂ hsize₂ hon hforward with ⟨hno, h⟩ | ⟨hgo, added, h, hanswers⟩
      · refine ⟨[], hadds h, .inl rfl, fun _ harmed' => ?_⟩
        rw [harm, harmed.mp harmed'] at hno
        cases hno
      · refine ⟨added, hadds h, .inr ⟨hatt, harmed.mpr (harm ▸ hgo)⟩, fun _ _ => ?_⟩
        have hfinal : c₂.latestFinalized = c₁.latestFinalized := by
          rw [hat.rest]
          rfl
        have hnumlat : c₂.number c₂.latest = blk.header.number := by
          rw [hat.latest, hnum, hat.number_eq]
          rw [hres]
          rfl
        have hnew (f n : Nat) : newBaseNumber c₂ f n = newBaseNumber c f n := by
          rw [hat.newBaseNumber hlo, hres]
          rfl
        have hlasttree : InTree (opened c₁ pf) (lastQueued c) := by
          have htree := (hi.queued_or_base (lastQueued_mem c)).1
          rw [hres]
          exact htree
        have hnumlast : c₂.number (lastQueued c) = c.number (lastQueued c) := by
          rw [hat.number_of hlasttree, hres]
          rfl
        rw [hfinal, hnumlat] at hanswers
        constructor
        · intro hle
          refine hanswers.known ?_
          rw [hnew, hlast, hnumlast]
          exact hle
        · intro hlt
          have hlt₂ : c₂.number (lastQueued c₂) <
              newBaseNumber c₂ c₁.latestFinalized.number blk.header.number := by
            rw [hnew, hlast, hnumlast]
            exact hlt
          obtain ⟨base, hbnum, hanc, hladder⟩ := hanswers.ladder hlt₂
          rw [hlast] at hanc hladder
          exact ⟨base, by rw [hbnum, hnew], hanc, hladder⟩
    · rw [if_neg hpass] at hrun
      cases hrun
      refine ⟨[], ?_, .inl rfl, fun hatt => absurd hatt.2 hpass⟩
      rw [hres]
      exact Adds.of_same rfl rfl rfl rfl

end

/-! ## Steps -/

/-- The step asks for a base, for this finalized number and this number of the head. -/
inductive Requests (c : ForkedChainRef) (env : Env) : Event → Nat → Nat → Prop
  | forkChoice {headHash finalizedHash safeHash : Hash32} {head fin : BlockRef}
    (hz : finalizedHash ≠ zeroHash32) (hhead : c.findHeadPos headHash = .ok head)
    (hfin : c.findFinalizedPos finalizedHash head = .ok fin) :
    Requests c env (.forkChoice headHash finalizedHash safeHash) (c.number fin) (c.number head)
  | forward {e : Event} {parent : BlockRef} {blk : Block} (hatt : Attaches c env e parent blk)
    (harm : Armed c blk) :
    Requests c env e (resolvePending c blk).latestFinalized.number blk.header.number

/-- What a step adds that does not run the queue. -/
def StepAdds (c c' : ForkedChainRef) (env : Env) (e : Event) : Prop :=
  ∃ added, Adds c c' added ∧ (added = [] ∨ ∃ f h, Requests c env e f h) ∧
    ∀ f h, Requests c env e f h → Answers c c' f h added

/-- A step that attaches no block, and is no fork choice, asks for nothing. -/
theorem StepAdds.of_none {env : Env} {e : Event} (h : Adds c c' [])
    (hfork : ∀ headHash finalizedHash safeHash,
      e ≠ .forkChoice headHash finalizedHash safeHash)
    (hatt : ∀ parent blk, ¬ Attaches c env e parent blk) : StepAdds c c' env e := by
  refine ⟨[], h, .inl rfl, fun f n hreq => ?_⟩
  cases hreq with
  | forkChoice => exact absurd rfl (hfork _ _ _)
  | forward ha => exact absurd ha (hatt _ _)

theorem StepAdds.of_attempt {env : Env} {e : Event} {parent : BlockRef} {blk : Block}
    (hattempt : attempt c e = some (parent, blk, finalized)) (h : Adds c c' added)
    (hsome : added = [] ∨ (Attachable c env parent blk finalized ∧ Armed c blk))
    (hanswers : Attachable c env parent blk finalized → Armed c blk → Answers c c'
      (resolvePending c blk).latestFinalized.number blk.header.number added) :
    StepAdds c c' env e := by
  refine ⟨added, h, hsome.imp_right fun ⟨hatt, harm⟩ =>
    ⟨_, _, .forward ⟨finalized, hattempt, hatt⟩ harm⟩, fun f n hreq => ?_⟩
  cases hreq with
  | forkChoice => exact nomatch hattempt
  | forward ha harm =>
    obtain ⟨finalized', hattempt', hatt⟩ := ha
    rw [hattempt] at hattempt'
    cases hattempt'
    exact hanswers hatt harm

theorem importBlock_adds (hi : Inv c) (hsize : 0 < c.persistBatchSize) {env : Env} {blk : Block}
    {r : Except ImportErrorKind ImportOutcome}
    (hok : ∀ parent b, Attaches c env (.importBlock blk finalized) parent b → Armed c b →
      OnTop c parent) (hrun : c.importBlock env blk finalized = .ok (c', r)) :
    StepAdds c c' env (.importBlock blk finalized) := by
  have hfork : ∀ headHash finalizedHash safeHash, Event.importBlock blk finalized ≠
      .forkChoice headHash finalizedHash safeHash := fun _ _ _ h => by cases h
  unfold importBlock at hrun
  by_cases hknown : (c.hashToBlock (c.com.computeBlockHash blk.header)).isSome = true
  · rw [if_pos hknown] at hrun
    cases hrun
    refine StepAdds.of_none (Adds.of_same rfl rfl rfl rfl) hfork ?_
    rintro parent b ⟨_, hattempt, hnew, _⟩
    simp only [attempt, Option.map_eq_some_iff] at hattempt
    obtain ⟨_, _, heq⟩ := hattempt
    cases heq
    rw [hnew] at hknown
    cases hknown
  · rw [if_neg hknown] at hrun
    cases hparent : c.hashToBlock blk.header.parentHash with
    | some parent =>
      rw [hparent] at hrun
      have hattempt : attempt c (.importBlock blk finalized) = some (parent, blk,
          finalized || blk.header.number ≤ c.latestFinalized.number) := by
        simp [attempt, hparent]
      obtain ⟨⟨c₁, r₁⟩, hvalidate, hrun⟩ := except_bind_ok.mp hrun
      obtain ⟨added, hadds, hsome, hanswers⟩ := validateBlock_answers hi hsize
        (hi.linked.inTree_of_lookup hparent) (hi.linked.key hparent).symm
        (fun hatt => hok parent blk ⟨_, hattempt, hatt⟩) hvalidate
      -- the next orphan is put into the processing queue
      have hlast : c' = { c₁ with fcuHead := c'.fcuHead, queue := c'.queue } := by
        cases r₁ with
        | error e =>
          cases hrun
          rfl
        | ok newParent =>
          cases hrun
          split <;> rfl
      exact StepAdds.of_attempt hattempt (hadds.congr hlast) hsome
        fun hatt harm => (hanswers hatt harm).congr hlast
    | none =>
      rw [hparent] at hrun
      have hno : ∀ parent b, ¬ Attaches c env (.importBlock blk finalized) parent b := by
        rintro parent b ⟨_, hattempt, _⟩
        simp only [attempt, hparent] at hattempt
        cases hattempt
      dsimp only at hrun
      split at hrun
      · split at hrun
        · cases hrun
          exact StepAdds.of_none (Adds.of_same rfl rfl rfl rfl) hfork hno
        · cases hrun
          exact StepAdds.of_none (Adds.of_same rfl rfl rfl rfl) hfork hno
      · cases hrun
        exact StepAdds.of_none (Adds.of_same rfl rfl rfl rfl) hfork hno

theorem processOrphan_adds (hi : Inv c) (hsize : 0 < c.persistBatchSize) {env : Env} {i : Nat}
    {parent : BlockRef}
    (hitem : c.queue[i]? = some (.processOrphan parent finalized)) {q : List QueueItem}
    (hok : ∀ p b, Attaches c env (.handle i) p b → Armed c b → OnTop c p)
    (hrun : processOrphan { c with queue := q } env parent finalized = .ok c') :
    StepAdds c c' env (.handle i) := by
  have hfork : ∀ headHash finalizedHash safeHash, Event.handle i ≠
      .forkChoice headHash finalizedHash safeHash := fun _ _ _ h => by cases h
  by_cases hgone : c.txFrame parent = none
  · change (if c.txFrame parent = none then _ else _) = _ at hrun
    rw [if_pos hgone] at hrun
    cases hrun
    refine StepAdds.of_none (Adds.of_same rfl rfl rfl rfl) hfork ?_
    rintro p b ⟨_, hattempt, _⟩
    simp only [attempt, hitem, if_pos hgone] at hattempt
    cases hattempt
  · have hp : InTree c parent := hi.linked.inTree_of_txFrame hgone
    change (if c.txFrame parent = none then _ else _) = _ at hrun
    rw [if_neg hgone] at hrun
    cases hfind : c.orphans.find? (·.1 == c.hash parent) with
    | none =>
      have hpop : popOrphan { c with queue := q }
          (ForkedChainRef.hash { c with queue := q } parent) = none := by
        change (c.orphans.find? (·.1 == c.hash parent)).map _ = none
        rw [hfind, Option.map_none]
      rw [hpop] at hrun
      cases hrun
      refine StepAdds.of_none (Adds.of_same rfl rfl rfl rfl) hfork ?_
      rintro p b ⟨_, hattempt, _⟩
      simp only [attempt, hitem, if_neg hgone, popOrphan, hfind] at hattempt
      cases hattempt
    | some found =>
      generalize hrest : c.orphans.filter (·.1 != c.hash parent) = rest
      have hpop : popOrphan { c with queue := q }
          (ForkedChainRef.hash { c with queue := q } parent)
          = some ({ c with queue := q, orphans := rest }, found.2) := by
        change (c.orphans.find? (·.1 == c.hash parent)).map _ = _
        rw [hfind, ← hrest]
        rfl
      have hattempt : attempt c (.handle i) = some (parent, found.2, finalized) := by
        simp only [attempt, hitem, if_neg hgone, popOrphan, hfind, Option.map_some]
      have hkey : found.1 = c.hash parent := by simpa using List.find?_some hfind
      have hph : found.2.header.parentHash = c.hash parent := by
        rw [← hkey]
        exact (hi.orphan found (List.mem_of_find?_eq_some hfind)).symm
      have hs₁ : Sound c { c with orphans := rest } True True :=
        (Sound.refl hi).orphans fun o ho => by
          rw [← hrest] at ho
          exact hi.orphan o (List.mem_of_mem_filter ho)
      have hi₁ : Inv { c with queue := q, orphans := rest } := hs₁.inv.congr rfl
      have hresolved := resolvePending_orphans (c := c) q rest found.2
      have harmed : Armed { c with queue := q, orphans := rest } found.2 ↔ Armed c found.2 := by
        unfold Armed
        rw [hresolved]
        exact Iff.rfl
      rw [hpop] at hrun
      obtain ⟨⟨c₁, r⟩, hvalidate, hrun⟩ := except_bind_ok.mp hrun
      obtain ⟨added, hadds, hsome, hanswers⟩ := validateBlock_answers hi₁ hsize hp hph
        (fun hatt harm => hok parent found.2 ⟨finalized, hattempt, hatt⟩ (harmed.mp harm)) hvalidate
      have hlast : c' = { c₁ with fcuHead := c'.fcuHead, queue := c'.queue } := by
        cases r with
        | error e =>
          cases hrun
          rfl
        | ok newParent =>
          cases hrun
          rfl
      have hadds' : Adds c c₁ added :=
        ⟨hadds.base, hadds.queue, hadds.baseDistance, hadds.persistBatchSize⟩
      refine StepAdds.of_attempt hattempt (hadds'.congr hlast)
        (hsome.imp_right (And.imp_right harmed.mp)) fun hatt harm => ?_
      have hans := hanswers hatt (harmed.mpr harm)
      rw [hresolved] at hans
      have hans' : Answers c c₁ (resolvePending c found.2).latestFinalized.number
          found.2.header.number added := ⟨hans.known, hans.ladder⟩
      exact hans'.congr hlast

theorem Adds.trans (h : Adds c c' []) (h' : Adds c' c'' []) : Adds c c'' [] :=
  Adds.of_same (h'.base.trans h.base)
    (by rw [h'.queue, h.queue, List.append_nil, List.append_nil])
    (h'.baseDistance.trans h.baseDistance) (h'.persistBatchSize.trans h.persistBatchSize)

theorem removeBlocks_adds {L : List BlockRef} (h : removeBlocks c L = .ok c') : Adds c c' [] := by
  induction L generalizing c with
  | nil =>
    cases h
    exact Adds.of_same rfl rfl rfl rfl
  | cons b L ih =>
    obtain ⟨c₁, hremove, h⟩ := except_bind_ok.mp h
    unfold removeBlockFromCache at hremove
    cases hf : c.txFrame b with
    | none =>
      rw [hf] at hremove
      cases hremove
    | some f =>
      rw [hf] at hremove
      have hfirst : Adds c c₁ [] := by
        cases hremove
        exact Adds.of_same rfl rfl rfl rfl
      exact hfirst.trans (ih h)

theorem setHead_adds {headHash : Hash32} {r : Except ChainError Unit}
    (hrun : c.setHead headHash = .ok (c', r)) : Adds c c' [] := by
  simp only [setHead] at hrun
  split at hrun
  · cases hrun
    exact Adds.of_same rfl rfl rfl rfl
  · split at hrun
    · cases hrun
      exact Adds.of_same rfl rfl rfl rfl
    · obtain ⟨c₁, hdiscard, hrun⟩ := except_bind_ok.mp hrun
      rw [discardBranches_eq_removeBlocks] at hdiscard
      refine (removeBlocks_adds hdiscard).trans ?_
      cases hrun
      split
      · exact Adds.of_same rfl rfl rfl rfl
      · exact Adds.of_same rfl rfl rfl rfl

theorem updateBase_queue {env : Env} {base : BlockRef} (hsize : 0 < c.persistBatchSize)
    (h : c.updateBase env base = .ok c') : c'.baseQueue = c.baseQueue ∧
      c'.baseDistance = c.baseDistance ∧ 0 < c'.persistBatchSize := by
  unfold updateBase at h
  split at h
  · cases h
    exact ⟨rfl, rfl, hsize⟩
  · split at h
    · cases h
    · split at h
      · cases h
      · split at h
        · cases h
        · obtain ⟨c₁, hremove, h⟩ := except_bind_ok.mp h
          have hrest := removeBlocks_adds hremove
          have hqueue : c₁.baseQueue = c.baseQueue := by
            rw [hrest.queue, List.append_nil]
            rfl
          have hbatch : 0 < c₁.persistBatchSize := by
            rw [hrest.persistBatchSize]
            exact hsize
          cases h
          unfold adjustBatchSize
          split
          · split
            · exact ⟨hqueue, hrest.baseDistance, by show 0 < min _ _; omega⟩
            · split
              · exact ⟨hqueue, hrest.baseDistance, by show 0 < max _ _; omega⟩
              · exact ⟨hqueue, hrest.baseDistance, hbatch⟩
          · exact ⟨hqueue, hrest.baseDistance, hbatch⟩

theorem processUpdateBase_queue {env : Env} (hsize : 0 < c.persistBatchSize)
    (h : c.processUpdateBase env = .ok c') : c'.baseQueue = c.baseQueue.tail ∧
      c'.baseDistance = c.baseDistance ∧ 0 < c'.persistBatchSize := by
  have hdone : ∀ c₁ : ForkedChainRef, (if c₁.baseQueue = [] then pure c₁
      else pure { c₁ with queue := c₁.queue ++ [.processUpdateBase] } :
        Except Defect ForkedChainRef) = .ok c' →
      c'.baseQueue = c₁.baseQueue ∧ c'.baseDistance = c₁.baseDistance ∧
        c'.persistBatchSize = c₁.persistBatchSize := by
    intro c₁ hc₁
    split at hc₁
    · cases hc₁
      exact ⟨rfl, rfl, rfl⟩
    · cases hc₁
      exact ⟨rfl, rfl, rfl⟩
  unfold processUpdateBase at h
  cases hq : c.baseQueue with
  | nil =>
    rw [hq] at h
    obtain ⟨hqueue, hdistance, hbatch⟩ := hdone c h
    rw [hqueue, hdistance, hbatch]
    exact ⟨hq, rfl, hsize⟩
  | cons base rest =>
    rw [hq] at h
    obtain ⟨c₁, hbase, h⟩ := except_bind_ok.mp h
    obtain ⟨hqueue, hdistance, hbatch⟩ := hdone c₁ h
    rw [hqueue, hdistance, hbatch]
    exact updateBase_queue (c := { c with baseQueue := rest }) hsize hbase

/-- A step adds to the queue, unless it takes a base from it. -/
theorem step_adds (hi : Inv c) (hsize : 0 < c.persistBatchSize) {env : Env} {e : Event}
    (hok : InvStepOk c env e) (hno : ¬ TakesBase c e) (h : step c env e = .ok c') :
    StepAdds c c' env e := by
  cases e with
  | importBlock blk finalized =>
    obtain ⟨⟨c₁, r⟩, hrun, rfl⟩ := except_map_ok.mp h
    exact importBlock_adds hi hsize hok.attach hrun
  | forkChoice headHash finalizedHash safeHash =>
    obtain ⟨⟨c₁, r⟩, hrun, rfl⟩ := except_map_ok.mp h
    obtain ⟨added, hadds, hsome, hanswers⟩ := forkChoice_answers hi hsize
      (fun head fin => hok.forkChoice headHash finalizedHash safeHash head fin rfl) hrun
    refine ⟨added, hadds, hsome.imp_right ?_, fun f n hreq => ?_⟩
    · rintro ⟨head, fin, hz, hhead, hfin⟩
      exact ⟨_, _, .forkChoice hz hhead hfin⟩
    · cases hreq with
      | forkChoice hz hhead hfin => exact hanswers _ _ hz hhead hfin
      | forward ha =>
        obtain ⟨_, hattempt, _⟩ := ha
        cases hattempt
  | setHead headHash =>
    obtain ⟨⟨c₁, r⟩, hrun, rfl⟩ := except_map_ok.mp h
    refine StepAdds.of_none (setHead_adds hrun) (fun _ _ _ h => by cases h) ?_
    rintro parent blk ⟨_, hattempt, _⟩
    cases hattempt
  | handle i =>
    have hrun : c.handleQueueItem env i = .ok c' := h
    unfold handleQueueItem at hrun
    cases hitem : c.queue[i]? with
    | none =>
      rw [hitem] at hrun
      cases hrun
      refine StepAdds.of_none (Adds.of_same rfl rfl rfl rfl) (fun _ _ _ h => by cases h) ?_
      rintro parent blk ⟨_, hattempt, _⟩
      simp only [attempt, hitem] at hattempt
      cases hattempt
    | some item =>
      rw [hitem] at hrun
      cases item with
      | processUpdateBase => exact absurd ⟨i, rfl, hitem⟩ hno
      | processOrphan parent finalized =>
        exact processOrphan_adds hi hsize hitem hok.attach hrun

end

/-! ## The lineage of the queue -/

section

variable {c c' : ForkedChainRef} {env : Env} {e : Event}

section

variable (hi' : Inv c') (hi : Inv c) (h : step c env e = .ok c')
include hi' hi h

/-- A block that is left in the tree was there before, unless the step has made it. -/
theorem step_live {x : BlockRef} (hx : InTree c' x) (hold : x < c.nextBlock) :
    InTree c x ∧ (c'.blocks x).header = (c.blocks x).header := by
  obtain ⟨f, hf, _⟩ := hi'.linked.live hx
  have hlive : c.txFrame x = some f ∧ (c'.blocks x).header = (c.blocks x).header := by
    rcases step_trace h with ⟨hthin, _⟩ | ⟨_, _, _, _, hgrow⟩ | ⟨_, _, _, _, _, hre⟩
    · exact hthin.live hf
    · rcases hgrow.live hf with hb | ⟨hnew, _⟩
      · exact hb
      · exact absurd hnew (Nat.ne_of_lt hold)
    · exact hre.live hf
  refine ⟨hi.linked.inTree_of_txFrame ?_, hlive.2⟩
  rw [hlive.1]
  exact Option.some_ne_none f

theorem step_number {x : BlockRef}
    (hx : InTree c x) (hx' : InTree c' x) : c'.number x = c.number x :=
  congrArg Header.number (step_live hi' hi h hx' (hi.linked.lt_next hx)).2

/-- The way from one block to another does not change while both are in the tree: the parents
along it are determined by the hashes in the headers. -/
theorem step_anc {b a : BlockRef}
    (hanc : Anc c.parent b a) (hb : InTree c b) (hb' : InTree c' b) (ha' : InTree c' a) :
    Anc c'.parent b a := by
  have hl := hi.linked
  have hl' := hi'.linked
  induction hanc using Relation.ReflTransGen.head_induction_on with
  | refl => exact Anc.refl _
  | @head b p hp hrest ih =>
    have hpt := hl.inTree_parent hb hp
    have hat := hl.inTree_anc hpt hrest
    have hnum := hl.number_parent hb hp
    have hle := hl.number_le hpt hrest
    have hlebase := hl'.number_base_le ha'
    rw [step_number hi' hi h hat ha'] at hlebase
    have hne : b ≠ c'.base := by
      intro heq
      have hnumb := step_number hi' hi h hb hb'
      rw [← heq] at hlebase
      omega
    obtain ⟨p', hp', hpt', _, hph', _⟩ := hl'.link hb' hne
    have hlt : p' < c.nextBlock := Nat.lt_trans (hl'.parent_lt b p' hp') (hl.lt_next hb)
    obtain ⟨hpt₁, hheader⟩ := step_live hi' hi h hpt' hlt
    have hsame : c.hash p = c.hash p' := by
      have hbase : b ≠ c.base := by
        intro heq
        rw [heq, hl.base_parent] at hp
        cases hp
      obtain ⟨q, hq, _, _, hph, _⟩ := hl.link hb hbase
      rw [hp] at hq
      cases hq
      rw [← hph, ← (step_live hi' hi h hb' (hl.lt_next hb)).2, hph', hl'.hash_eq hpt',
        hl.hash_eq hpt₁, hheader, step_com h]
    obtain rfl := hpt.hash_inj hpt₁ hsame
    exact Anc.head hp' (ih hpt hpt')

end

/-- Blocks of one lineage, from low to high. -/
def Ascending (c : ForkedChainRef) (l : List BlockRef) : Prop :=
  l.Pairwise fun a b => c.number a < c.number b ∧ Anc c.parent b a

theorem Ascending.step {l : List BlockRef} (ha : Ascending c l) (hi' : Inv c') (hi : Inv c)
    (h : Native.ForkedChain.step c env e = .ok c') (hl : ∀ x ∈ l, InTree c x)
    (hl' : ∀ x ∈ l, InTree c' x) : Ascending c' l := by
  refine List.Pairwise.imp_of_mem (fun {a b} hma hmb hab => ?_) ha
  rw [step_number hi' hi h (hl a hma) (hl' a hma), step_number hi' hi h (hl b hmb) (hl' b hmb)]
  exact ⟨hab.1, step_anc hi' hi h hab.2 (hl b hmb) (hl' b hmb) (hl' a hma)⟩

/-- The queue goes up from the base on one lineage. -/
structure QueueOk (c : ForkedChainRef) : Prop where
  size : 0 < c.persistBatchSize
  ascending : Ascending c (c.base :: c.baseQueue)

theorem Ascending.lastQueued {d : ForkedChainRef} (ha : Ascending d (c.base :: c.baseQueue))
    {x : BlockRef} (hx : x ∈ c.base :: c.baseQueue) :
    x = ForkedChain.lastQueued c ∨ (d.number x < d.number (ForkedChain.lastQueued c) ∧
      Anc d.parent (ForkedChain.lastQueued c) x) := by
  unfold ForkedChain.lastQueued
  rcases List.eq_nil_or_concat c.baseQueue with hq | ⟨init, last, hq⟩
  · rw [hq] at hx ⊢
    exact .inl (List.mem_singleton.mp hx)
  · rw [hq, List.concat_eq_append] at hx ha ⊢
    rw [List.getLast?_concat]
    rw [← List.cons_append] at hx ha
    rcases List.mem_append.mp hx with hx | hx
    · exact .inr ((List.pairwise_append.mp ha).2.2 x hx last (List.mem_singleton_self last))
    · exact .inl (List.mem_singleton.mp hx)

theorem Ascending.append {d : ForkedChainRef} {base : BlockRef} {added : List BlockRef}
    (ha : Ascending d (c.base :: c.baseQueue)) (hd : Linked d) (hbase : InTree d base)
    (hanc : Anc d.parent base (ForkedChain.lastQueued c))
    (hladder : Ladder d (ForkedChain.lastQueued c) base added) :
    Ascending d (c.base :: (c.baseQueue ++ added)) := by
  have hup : (d.number (ForkedChain.lastQueued c) :: added.map d.number).Pairwise (· < ·) :=
    List.isChain_iff_pairwise.mp (hladder.steps.imp fun _ _ h => h.1)
  obtain ⟨hlast, hadded⟩ := List.pairwise_cons.mp hup
  rw [List.pairwise_map] at hadded
  refine List.pairwise_append.mpr ⟨ha, ?_, fun x hx y hy => ?_⟩
  · refine List.Pairwise.imp_of_mem (fun {a b} hma hmb hab => ⟨hab, ?_⟩) hadded
    exact hd.anc_of_number_le hbase (hladder.lineage b hmb) (hladder.lineage a hma)
      (Nat.le_of_lt hab)
  · have hlt := hlast (d.number y) (List.mem_map_of_mem hy)
    have hyl : Anc d.parent y (ForkedChain.lastQueued c) :=
      hd.anc_of_number_le hbase (hladder.lineage y hy) hanc (Nat.le_of_lt hlt)
    rcases ha.lastQueued hx with rfl | ⟨hxlt, hlx⟩
    · exact ⟨hlt, hyl⟩
    · exact ⟨Nat.lt_trans hxlt hlt, hyl.trans hlx⟩

end

/-! ## What is persisted -/

/-- The blocks that `writeCanonicalMappings` writes, from `base` down. -/
def freshBlocks (c : ForkedChainRef) (base : BlockRef) : List BlockRef :=
  (c.ancestors (some base)).takeWhile fun b => !c.sameBlock b c.base

/-- The headers of the blocks that the step persists, in order. -/
def persisted (c : ForkedChainRef) : Event → List Header
  | .handle i =>
    match c.queue[i]?, c.baseQueue with
    | some .processUpdateBase, base :: _ =>
      if c.number base = c.number c.base then []
      else (freshBlocks c base).reverse.map fun b => (c.blocks b).header
    | _, _ => []
  | _ => []

/-- All that a run persists. -/
def persistedLog : ForkedChainRef → List (Env × Event) → List Header
  | _, [] => []
  | c, (env, e) :: events =>
    persisted c e ++ match step c env e with
      | .ok c' => persistedLog c' events
      | .error _ => []

/-- Somewhere in the run a base is asked for with these numbers. -/
def RequestsIn : ForkedChainRef → List (Env × Event) → Nat → Nat → Prop
  | _, [], _, _ => False
  | c, (env, e) :: events, finalizedNumber, headNumber =>
    Requests c env e finalizedNumber headNumber ∨
      ∃ c', step c env e = .ok c' ∧ RequestsIn c' events finalizedNumber headNumber

section

variable {c c' : ForkedChainRef} {env : Env} {e : Event}

/-- Each header is the child of the one before. -/
def Linear (com : CommonRef) (l : List Header) : Prop :=
  l.IsChain fun parent hd => ParentOf com hd parent

/-- Down from `it` to the base each block is followed by its parent. -/
theorem linear_fresh (hl : Linked c) {fuel it : Nat} (hit : InTree c it) (hfuel : it < fuel) :
    ((((chain c.parent fuel (some it)).takeWhile fun b => !c.sameBlock b c.base).map
      fun b => (c.blocks b).header) ++ [(c.blocks c.base).header]).IsChain (ParentOf c.com) ∧
    ((((chain c.parent fuel (some it)).takeWhile fun b => !c.sameBlock b c.base).map
      fun b => (c.blocks b).header) ++ [(c.blocks c.base).header]).head? =
        some (c.blocks it).header := by
  induction fuel generalizing it with
  | zero => omega
  | succ fuel ih =>
    simp only [chain, List.takeWhile_cons]
    by_cases hbase : it = c.base
    · have hstop : (!c.sameBlock it c.base) = false := by
        rw [Bool.not_eq_false', (hit.sameBlock_iff hl.base_mem).mpr hbase]
      rw [hstop, hbase]
      exact ⟨List.isChain_singleton _, rfl⟩
    · have hgo : (!c.sameBlock it c.base) = true := by
        rw [Bool.not_eq_true', Bool.eq_false_iff]
        exact fun h => hbase ((hit.sameBlock_iff hl.base_mem).mp h)
      obtain ⟨p, hp, hpt, hnum, hph, _⟩ := hl.link hit hbase
      have hlt := hl.parent_lt it p hp
      obtain ⟨hchain, hhead⟩ := ih hpt (by omega)
      rw [hgo, hp]
      refine ⟨hchain.cons fun y hy => ?_, rfl⟩
      rw [hhead] at hy
      cases hy
      exact ⟨hph.trans (hl.hash_eq hpt), hnum⟩

theorem linear_persisted (hl : Linked c) {base : BlockRef} (hb : InTree c base) :
    Linear c.com ((c.blocks c.base).header ::
      (freshBlocks c base).reverse.map fun b => (c.blocks b).header) ∧
    ((c.blocks c.base).header ::
      (freshBlocks c base).reverse.map fun b => (c.blocks b).header).getLast? =
        some (c.blocks base).header := by
  obtain ⟨hchain, hhead⟩ := linear_fresh hl hb (hl.lt_next hb)
  have hreverse : (c.blocks c.base).header ::
      ((freshBlocks c base).reverse.map fun b => (c.blocks b).header) =
      (((freshBlocks c base).map fun b => (c.blocks b).header) ++
        [(c.blocks c.base).header]).reverse := by
    rw [List.reverse_append, List.map_reverse]
    rfl
  rw [hreverse]
  constructor
  · unfold Linear
    rw [List.isChain_reverse]
    exact hchain
  · rw [List.getLast?_reverse]
    exact hhead

/-- What one step does to the base and its queue. -/
structure BaseStep (c c' : ForkedChainRef) (env : Env) (e : Event) : Prop where
  /-- the base never moves backwards -/
  base_le : c.number c.base ≤ c'.number c'.base
  /-- a base update takes the next base off the queue and makes it the base -/
  takes : TakesBase c e → c'.baseQueue = c.baseQueue.tail ∧
    ∀ b ∈ c.baseQueue.head?, c'.base = b
  /-- every other step leaves the base where it is, and may add to the queue -/
  adds : ¬ TakesBase c e → StepAdds c c' env e
  /-- the blocks that are persisted lead from the old base to the new one -/
  linear : Linear c.com ((c.blocks c.base).header :: persisted c e)
  last : ((c.blocks c.base).header :: persisted c e).getLast? = some (c'.blocks c'.base).header
  /-- they, and no others, are entered in the number lookups on disk -/
  lookup : ∀ hd ∈ persisted c e, c'.canonical hd.number = some (c.com.computeBlockHash hd)
  lookup_of_not : ∀ n, (∀ hd ∈ persisted c e, hd.number ≠ n) → c'.canonical n = c.canonical n

theorem persisted_takes (hq : QueueOk c) (htakes : TakesBase c e) :
    persisted c e = match c.baseQueue with
      | [] => []
      | base :: _ => (freshBlocks c base).reverse.map fun b => (c.blocks b).header := by
  obtain ⟨i, rfl, hitem⟩ := htakes
  simp only [persisted, hitem]
  cases hb : c.baseQueue with
  | nil => rfl
  | cons base rest =>
    have hup := hq.ascending
    unfold Ascending at hup
    rw [hb, List.pairwise_cons] at hup
    have hlt := (hup.1 base List.mem_cons_self).1
    exact if_neg (Nat.ne_of_gt hlt)

theorem persisted_of_not (hno : ¬ TakesBase c e) : persisted c e = [] := by
  cases e with
  | handle i =>
    simp only [persisted]
    split
    · next hitem _ => exact absurd ⟨i, rfl, hitem⟩ hno
    · rfl
  | _ => rfl

theorem takes_queue (hsize : 0 < c.persistBatchSize) (htakes : TakesBase c e)
    (h : step c env e = .ok c') : c'.baseQueue = c.baseQueue.tail ∧
      c'.baseDistance = c.baseDistance ∧ 0 < c'.persistBatchSize := by
  obtain ⟨i, rfl, hitem⟩ := htakes
  have hrun : c.handleQueueItem env i = .ok c' := h
  unfold handleQueueItem at hrun
  rw [hitem] at hrun
  exact processUpdateBase_queue (c := { c with queue := c.queue.eraseIdx i }) hsize hrun

theorem takes_base (hq : QueueOk c) (htakes : TakesBase c e) (h : step c env e = .ok c') :
    (c.baseQueue = [] ∧ c'.base = c.base ∧ c'.canonical = c.canonical) ∨
    ∃ base rest, c.baseQueue = base :: rest ∧ c'.base = base ∧
      c'.canonical = (c.writeCanonicalMappings base).canonical := by
  have hup := hq.ascending
  unfold Ascending at hup
  rcases step_trace h with ⟨hthin, hnum⟩ | ⟨hno, _⟩ | ⟨_, base, rest, hb, _, hre⟩
  · cases hb : c.baseQueue with
    | nil => exact .inl ⟨rfl, hthin.base, hthin.canonical⟩
    | cons base rest =>
      -- the next base is above the current one
      rw [hb, List.pairwise_cons] at hup
      have hlt := (hup.1 base List.mem_cons_self).1
      have heq := hnum htakes base rest hb
      omega
  · exact absurd htakes hno
  · exact .inr ⟨base, rest, hb, hre.base, hre.canonical⟩

theorem not_takes_canonical (hno : ¬ TakesBase c e) (h : step c env e = .ok c') :
    c'.canonical = c.canonical := by
  rcases step_trace h with ⟨hthin, _⟩ | ⟨_, _, _, _, hgrow⟩ | ⟨htakes, _⟩
  · exact hthin.canonical
  · exact hgrow.canonical
  · exact absurd htakes hno

theorem QueueOk.step (hq : QueueOk c) (hi : Inv c) (hok : InvStepOk c env e)
    (h : Native.ForkedChain.step c env e = .ok c') : QueueOk c' := by
  have hi' := hok.inv hi h
  have hmem {x : BlockRef} (hx : x ∈ c.base :: c.baseQueue) : InTree c x :=
    (hi.queued_or_base hx).1
  have hmem' {x : BlockRef} (hx : x ∈ c'.base :: c'.baseQueue) : InTree c' x :=
    (hi'.queued_or_base hx).1
  by_cases htakes : TakesBase c e
  · obtain ⟨hqueue, _, hsize⟩ := takes_queue hq.size htakes h
    refine ⟨hsize, ?_⟩
    rcases takes_base hq htakes h with ⟨hnil, hbase, _⟩ | ⟨base, rest, hb, hbase, _⟩
    · rw [hqueue, hnil]
      exact List.pairwise_singleton _ _
    · have hsub : c'.base :: c'.baseQueue = base :: rest := by
        rw [hqueue, hbase, hb, List.tail_cons]
      have hup := hq.ascending
      unfold Ascending at hup
      rw [hb, List.pairwise_cons] at hup
      rw [hsub]
      refine Ascending.step hup.2 hi' hi h (fun x hx => hmem ?_) fun x hx => hmem' (hsub ▸ hx)
      rw [hb]
      exact .tail _ hx
  · obtain ⟨added, hadds, hsome, hanswers⟩ := step_adds hi hq.size hok htakes h
    refine ⟨by rw [hadds.persistBatchSize]; exact hq.size, ?_⟩
    have hsub : c'.base :: c'.baseQueue = c.base :: (c.baseQueue ++ added) := by
      rw [hadds.base, hadds.queue]
    have hold : Ascending c' (c.base :: c.baseQueue) :=
      hq.ascending.step hi' hi h (fun x hx => hmem hx) fun x hx => hmem' (by
        rw [hsub]
        exact List.mem_append_left _ hx)
    rw [hsub]
    rcases hsome with rfl | ⟨f, n, hreq⟩
    · rw [List.append_nil]
      exact hold
    · have hans := hanswers f n hreq
      rcases Nat.lt_or_ge (c.number (lastQueued c)) (newBaseNumber c f n) with hlt | hle
      · obtain ⟨base, _, hanc, hladder⟩ := hans.ladder hlt
        refine hold.append hi'.linked ?_ hanc hladder
        refine hmem' ?_
        rw [hsub, ← List.cons_append]
        exact List.mem_append_right _ (List.mem_of_getLast? hladder.last)
      · rw [hans.known hle, List.append_nil]
        exact hold

theorem baseStep (hi : Inv c) (hq : QueueOk c) (hok : InvStepOk c env e)
    (h : step c env e = .ok c') : BaseStep c c' env e := by
  have hi' := hok.inv hi h
  have hl := hi.linked
  by_cases htakes : TakesBase c e
  · have hpersisted := persisted_takes hq htakes
    obtain ⟨hqueue, _⟩ := takes_queue hq.size htakes h
    rcases takes_base hq htakes h with ⟨hnil, hbase, hcan⟩ | ⟨base, rest, hb, hbase, hcan⟩
    · rw [hnil] at hpersisted
      have hbt : InTree c' c.base := hbase ▸ hi'.linked.base_mem
      refine ⟨?_, fun _ => ⟨hqueue, ?_⟩, fun hno => absurd htakes hno, ?_, ?_, ?_, ?_⟩
      · rw [hbase, step_number hi' hi h hl.base_mem hbt]
      · rw [hnil]
        exact fun _ h => nomatch h
      · rw [hpersisted]
        exact List.isChain_singleton _
      · rw [hpersisted, hbase, (step_live hi' hi h hbt (hl.lt_next hl.base_mem)).2]
        rfl
      · rw [hpersisted]
        exact fun _ h => nomatch h
      · exact fun n _ => by rw [hcan]
    · rw [hb] at hpersisted
      have hbt : InTree c base := (hi.queued base (hb ▸ List.mem_cons_self)).1
      have hbt' : InTree c' base := hbase ▸ hi'.linked.base_mem
      obtain ⟨hlinear, hlast⟩ := linear_persisted hl hbt
      refine ⟨?_, fun _ => ⟨hqueue, ?_⟩, fun hno => absurd htakes hno, ?_, ?_, ?_, ?_⟩
      · rw [hbase, step_number hi' hi h hbt hbt']
        exact hl.number_base_le hbt
      · rw [hb]
        rintro b hmem
        cases hmem
        exact hbase
      · rw [hpersisted]
        exact hlinear
      · rw [hpersisted, hbase, (step_live hi' hi h hbt' (hl.lt_next hbt)).2]
        exact hlast
      · intro hd hhd
        rw [hpersisted] at hhd
        obtain ⟨b, hbmem, rfl⟩ := List.mem_map.mp hhd
        have hanc := (hl.mem_ancestors hbt).mp
          (List.takeWhile_subset _ (List.mem_reverse.mp hbmem))
        rw [hcan, ← hl.hash_eq (hl.inTree_anc hbt hanc)]
        exact writeCanonicalMappings_spec hi hbt hanc
      · intro n hn
        rw [hcan]
        refine foldl_lookup_of_not_mem c.number c.hash fun x hx => ?_
        refine hn (c.blocks x).header ?_
        rw [hpersisted]
        exact List.mem_map_of_mem (List.mem_reverse.mpr hx)
  · have hadds := step_adds hi hq.size hok htakes h
    have hpersisted := persisted_of_not htakes
    obtain ⟨_, hbase, _⟩ := id hadds
    have hbt : InTree c' c.base := hbase.base ▸ hi'.linked.base_mem
    refine ⟨?_, fun h => absurd h htakes, fun _ => hadds, ?_, ?_, ?_, ?_⟩
    · rw [hbase.base, step_number hi' hi h hl.base_mem hbt]
    · rw [hpersisted]
      exact List.isChain_singleton _
    · rw [hpersisted, hbase.base, (step_live hi' hi h hbt (hl.lt_next hl.base_mem)).2]
      rfl
    · rw [hpersisted]
      exact fun _ h => nomatch h
    · exact fun n _ => by rw [not_takes_canonical htakes h]

/-- A base, or a queued one, is there already or keeps the bounds of the request. -/
theorem step_bounded (hi : Inv c) (hq : QueueOk c) (hok : InvStepOk c env e)
    (h : step c env e = .ok c') {b : BlockRef} (hb : b ∈ c'.base :: c'.baseQueue) :
    (b ∈ c.base :: c.baseQueue ∧ c'.number b = c.number b) ∨
    ∃ f n, Requests c env e f n ∧ c'.number b ≤ f ∧ c'.number b + c.baseDistance ≤ n := by
  have hi' := hok.inv hi h
  have hbt' := (hi'.queued_or_base hb).1
  have hold (hmem : b ∈ c.base :: c.baseQueue) :
      b ∈ c.base :: c.baseQueue ∧ c'.number b = c.number b :=
    ⟨hmem, step_number hi' hi h (hi.queued_or_base hmem).1 hbt'⟩
  by_cases htakes : TakesBase c e
  · left
    obtain ⟨hqueue, _⟩ := takes_queue hq.size htakes h
    refine hold ?_
    rw [hqueue] at hb
    rcases takes_base hq htakes h with ⟨hnil, hbase, _⟩ | ⟨base, rest, hbq, hbase, _⟩
    · rw [hbase, hnil] at hb
      rw [hnil]
      exact hb
    · rw [hbase, hbq] at hb
      rw [hbq]
      exact .tail _ hb
  · obtain ⟨added, hadds, hsome, hanswers⟩ := step_adds hi hq.size hok htakes h
    rw [hadds.base, hadds.queue, ← List.cons_append] at hb
    rcases List.mem_append.mp hb with hb | hb
    · exact .inl (hold hb)
    · right
      obtain ⟨f, n, hreq⟩ := hsome.resolve_left (List.ne_nil_of_mem hb)
      have hans := hanswers f n hreq
      have hlt : c.number (lastQueued c) < newBaseNumber c f n := by
        by_contra hge
        rw [hans.known (Nat.not_lt.mp hge)] at hb
        cases hb
      obtain ⟨base, hnum, _, hladder⟩ := hans.ladder hlt
      have hbase := hi.linked.number_base_le (hi.queued_or_base (lastQueued_mem c)).1
      obtain ⟨hf, hn⟩ := newBaseNumber_bounds (Nat.lt_of_le_of_lt hbase hlt)
      -- nothing on the ladder is above its end
      have hbaset : InTree c' base := by
        refine (hi'.queued base ?_).1
        rw [hadds.queue]
        exact List.mem_append_right _ (List.mem_of_getLast? hladder.last)
      have hle := hi'.linked.number_le hbaset (hladder.lineage b hb)
      exact ⟨f, n, hreq, by omega, by omega⟩

/-- Each base in the queue is a step above the one before it, of a size in `sizes`. -/
def Gaps (sizes : Nat → Prop) (c : ForkedChainRef) : Prop :=
  ((c.base :: c.baseQueue).map c.number).IsChain fun m n => ∃ size, sizes size ∧ StepUp size m n

theorem step_gaps {sizes : Nat → Prop} (hi : Inv c) (hq : QueueOk c) (hok : InvStepOk c env e)
    (h : step c env e = .ok c') (hg : Gaps sizes c) :
    Gaps (fun n => sizes n ∨ n = c.persistBatchSize) c' := by
  have hi' := hok.inv hi h
  have hwide {l : List Nat} (hl : l.IsChain fun m n => ∃ size, sizes size ∧ StepUp size m n) :
      l.IsChain fun m n => ∃ size, (sizes size ∨ size = c.persistBatchSize) ∧ StepUp size m n :=
    hl.imp fun _ _ ⟨size, hs, hup⟩ => ⟨size, .inl hs, hup⟩
  -- the numbers are the same after the step
  have hsame {l : List BlockRef} (hl : ∀ x ∈ l, x ∈ c.base :: c.baseQueue)
      (hl' : ∀ x ∈ l, x ∈ c'.base :: c'.baseQueue) : l.map c'.number = l.map c.number :=
    List.map_congr_left fun x hx => step_number hi' hi h (hi.queued_or_base (hl x hx)).1
      (hi'.queued_or_base (hl' x hx)).1
  unfold Gaps at hg ⊢
  by_cases htakes : TakesBase c e
  · obtain ⟨hqueue, _⟩ := takes_queue hq.size htakes h
    have hsub : c'.base :: c'.baseQueue <:+ c.base :: c.baseQueue := by
      rcases takes_base hq htakes h with ⟨hnil, hbase, _⟩ | ⟨base, rest, hb, hbase, _⟩
      · rw [hqueue, hbase, hnil]
        exact List.suffix_refl _
      · rw [hqueue, hbase, hb]
        exact List.suffix_cons _ _
    rw [hsame (fun x hx => hsub.subset hx) fun x hx => hx]
    exact hwide (hg.suffix (hsub.map c.number))
  · obtain ⟨added, hadds, hsome, hanswers⟩ := step_adds hi hq.size hok htakes h
    have hsub : c'.base :: c'.baseQueue = (c.base :: c.baseQueue) ++ added := by
      rw [hadds.base, hadds.queue, List.cons_append]
    have hnumbers : (c.base :: c.baseQueue).map c'.number = (c.base :: c.baseQueue).map c.number :=
      hsame (fun x hx => hx) fun x hx => by
        rw [hsub]
        exact List.mem_append_left _ hx
    rw [hsub, List.map_append, hnumbers]
    rcases hsome with rfl | ⟨f, n, hreq⟩
    · rw [List.map_nil, List.append_nil]
      exact hwide hg
    · have hans := hanswers f n hreq
      rcases Nat.lt_or_ge (c.number (lastQueued c)) (newBaseNumber c f n) with hlt | hle
      · -- the ladder starts at the last one in the queue
        obtain ⟨base, _, _, hladder⟩ := hans.ladder hlt
        have hsteps := hladder.steps
        rw [hadds.persistBatchSize] at hsteps
        have hlast : ((c.base :: c.baseQueue).map c.number).getLast? =
            some (c'.number (lastQueued c)) := by
          rw [← hnumbers, List.getLast?_map, List.getLast?_cons]
          rfl
        obtain ⟨front, hfront⟩ := List.getLast?_eq_some_iff.mp hlast
        rw [hfront] at hg ⊢
        exact List.IsChain.append_overlap (hwide hg)
          (hsteps.imp fun _ _ hup => ⟨_, .inr rfl, hup⟩) (List.cons_ne_nil _ _)
      · rw [hans.known hle, List.map_nil, List.append_nil]
        exact hwide hg

end

/-! ## Runs -/

/-- The batch sizes in a run. -/
def SizesIn : ForkedChainRef → List (Env × Event) → Nat → Prop
  | _, [], _ => False
  | c, (env, e) :: events, size =>
    size = c.persistBatchSize ∨ ∃ c', step c env e = .ok c' ∧ SizesIn c' events size

/-- What holds of the base and its queue after a run from `c₀` to `c`. -/
structure QueueRun (c₀ : ForkedChainRef) (events : List (Env × Event)) (c : ForkedChainRef) :
    Prop where
  /-- the queue goes up from the base on one lineage of finalized blocks -/
  ascending : Ascending c (c.base :: c.baseQueue)
  finalized : ∀ b ∈ c.base :: c.baseQueue, InTree c b ∧ Finalized c b
  /-- no gap in it is larger than the batch size that it was queued with -/
  gaps : Gaps (SizesIn c₀ events) c
  /-- each block up to the base was persisted once, in order -/
  linear : Linear c₀.com ((c₀.blocks c₀.base).header :: persistedLog c₀ events)
  last : ((c₀.blocks c₀.base).header :: persistedLog c₀ events).getLast? =
    some (c.blocks c.base).header
  /-- nothing is above the finalized number, or too close to the head, of its request -/
  bounded : ∀ b ∈ c.base :: c.baseQueue, c.number b = c₀.number c₀.base ∨
    ∃ f h, RequestsIn c₀ events f h ∧ c.number b ≤ f ∧ c.number b + c₀.baseDistance ≤ h

section

variable {c c' : ForkedChainRef}

theorem step_baseDistance {env : Env} {e : Event} (hi : Inv c) (hq : QueueOk c)
    (hok : InvStepOk c env e) (h : step c env e = .ok c') : c'.baseDistance = c.baseDistance := by
  by_cases htakes : TakesBase c e
  · exact (takes_queue hq.size htakes h).2.1
  · obtain ⟨_, hadds, _⟩ := step_adds hi hq.size hok htakes h
    exact hadds.baseDistance

theorem run_cons_eq_ok {env : Env} {e : Event} {events : List (Env × Event)} :
    run c ((env, e) :: events) = .ok c' ↔
      ∃ c₁, step c env e = .ok c₁ ∧ run c₁ events = .ok c' := except_bind_ok

variable {events : List (Env × Event)}

theorem run_queueOk (hi : Inv c) (hq : QueueOk c)
    (hok : RunOk InvStepOk c events) (hrun : run c events = .ok c') : Inv c' ∧ QueueOk c' := by
  induction events generalizing c with
  | nil =>
    cases hrun
    exact ⟨hi, hq⟩
  | cons x events ih =>
    obtain ⟨c₁, hstep, hrun⟩ := run_cons_eq_ok.mp hrun
    exact ih (hok.1.inv hi hstep) (hq.step hi hok.1 hstep) (hok.2 c₁ hstep) hrun

theorem run_linear (hi : Inv c) (hq : QueueOk c)
    (hok : RunOk InvStepOk c events) (hrun : run c events = .ok c') :
    Linear c.com ((c.blocks c.base).header :: persistedLog c events) ∧
      ((c.blocks c.base).header :: persistedLog c events).getLast? =
        some (c'.blocks c'.base).header := by
  induction events generalizing c with
  | nil =>
    cases hrun
    exact ⟨List.isChain_singleton _, rfl⟩
  | cons x events ih =>
    obtain ⟨env, e⟩ := x
    obtain ⟨c₁, hstep, hrun⟩ := run_cons_eq_ok.mp hrun
    obtain ⟨hlinear, hlast⟩ := ih (hok.1.inv hi hstep) (hq.step hi hok.1 hstep)
      (hok.2 c₁ hstep) hrun
    have hbase := baseStep hi hq hok.1 hstep
    have hfirst := hbase.linear
    have hend := hbase.last
    rw [step_com hstep] at hlinear
    simp only [persistedLog, hstep]
    generalize persisted c e = xs at hfirst hend
    generalize persistedLog c₁ events = ys at hlinear hlast
    rw [← List.cons_append]
    generalize (c.blocks c.base).header :: xs = front at hfirst hend
    -- the two parts share the header of the base between them
    obtain ⟨init, rfl⟩ := List.getLast?_eq_some_iff.mp hend
    constructor
    · exact List.IsChain.append_overlap hfirst hlinear (List.cons_ne_nil _ _)
    · rw [List.append_assoc, List.getLast?_append, List.singleton_append, hlast]
      rfl

theorem run_gaps {sizes : Nat → Prop} (hi : Inv c) (hq : QueueOk c)
    (hok : RunOk InvStepOk c events) (hrun : run c events = .ok c') (hg : Gaps sizes c) :
    Gaps (fun n => sizes n ∨ SizesIn c events n) c' := by
  induction events generalizing c sizes with
  | nil =>
    cases hrun
    exact hg.imp fun _ _ ⟨size, hs, hup⟩ => ⟨size, .inl hs, hup⟩
  | cons x events ih =>
    obtain ⟨c₁, hstep, hrun⟩ := run_cons_eq_ok.mp hrun
    have hrest := ih (hok.1.inv hi hstep) (hq.step hi hok.1 hstep) (hok.2 c₁ hstep) hrun
      (step_gaps hi hq hok.1 hstep hg)
    refine hrest.imp fun _ _ ⟨size, hs, hup⟩ => ⟨size, ?_, hup⟩
    rcases hs with (hs | hs) | hs
    · exact .inl hs
    · exact .inr (.inl hs)
    · exact .inr (.inr ⟨c₁, hstep, hs⟩)

theorem run_bounded {S : Nat → Prop} (hi : Inv c) (hq : QueueOk c)
    (hok : RunOk InvStepOk c events) (hrun : run c events = .ok c')
    (hS : ∀ b ∈ c.base :: c.baseQueue, S (c.number b)) :
    ∀ b ∈ c'.base :: c'.baseQueue, S (c'.number b) ∨
      ∃ f h, RequestsIn c events f h ∧ c'.number b ≤ f ∧ c'.number b + c.baseDistance ≤ h := by
  induction events generalizing c S with
  | nil =>
    cases hrun
    exact fun b hb => .inl (hS b hb)
  | cons x events ih =>
    obtain ⟨env, e⟩ := x
    obtain ⟨c₁, hstep, hrun⟩ := run_cons_eq_ok.mp hrun
    have hdistance := step_baseDistance hi hq hok.1 hstep
    have hS₁ : ∀ b ∈ c₁.base :: c₁.baseQueue, S (c₁.number b) ∨ ∃ f h,
        Requests c env e f h ∧ c₁.number b ≤ f ∧ c₁.number b + c.baseDistance ≤ h := by
      intro b hb
      rcases step_bounded hi hq hok.1 hstep hb with ⟨hmem, hnum⟩ | hreq
      · rw [hnum]
        exact .inl (hS b hmem)
      · exact .inr hreq
    intro b hb
    have hrest := ih (S := fun n => S n ∨ ∃ f h,
      Requests c env e f h ∧ n ≤ f ∧ n + c.baseDistance ≤ h) (hok.1.inv hi hstep)
      (hq.step hi hok.1 hstep) (hok.2 c₁ hstep) hrun hS₁ b hb
    rw [hdistance] at hrest
    rcases hrest with (hold | ⟨f, h, hreq, hbounds⟩) | ⟨f, h, hreq, hbounds⟩
    · exact .inl hold
    · exact .inr ⟨f, h, .inl hreq, hbounds⟩
    · exact .inr ⟨f, h, .inr ⟨c₁, hstep, hreq⟩, hbounds⟩

end

theorem queueOk_init (com : CommonRef) (db : SavedState com) (baseDistance : Nat)
    (persistBatchSize : { size : Nat // size > 0 }) (dynamicBatchSize : Bool) :
    QueueOk (ForkedChainRef.init com db baseDistance persistBatchSize dynamicBatchSize) :=
  ⟨persistBatchSize.2, List.pairwise_singleton _ _⟩

theorem Linear.descends {com : CommonRef} {hd : Header} {l : List Header}
    (h : Linear com (hd :: l)) : ∀ x ∈ l, Lineage com x hd ∧ hd.number < x.number := by
  induction l generalizing hd with
  | nil => exact nofun
  | cons y l ih =>
    obtain ⟨hy, hrest⟩ := List.isChain_cons_cons.mp h
    have hnumber := hy.2
    intro x hx
    rcases List.mem_cons.mp hx with rfl | hx
    · exact ⟨.single hy, by omega⟩
    · obtain ⟨hlineage, hlt⟩ := ih hrest x hx
      exact ⟨hlineage.tail hy, by omega⟩

section

variable {c c' : ForkedChainRef} {events : List (Env × Event)}

/-- A step persists only blocks above the base, and the new base descends from the old one. -/
theorem BaseStep.history {env : Env} {e : Event} (h : BaseStep c c' env e) :
    Lineage c.com (c'.blocks c'.base).header (c.blocks c.base).header ∧
      ∀ n ≤ c.number c.base, c'.canonical n = c.canonical n := by
  have hdescends := h.linear.descends
  constructor
  · rcases List.mem_cons.mp (List.mem_of_getLast? h.last) with heq | hmem
    · rw [heq]
      exact .refl
    · exact (hdescends _ hmem).1
  · intro n hn
    apply h.lookup_of_not
    intro hd hmem
    have hlt : c.number c.base < hd.number := (hdescends hd hmem).2
    omega

theorem history_of_run (hi : Inv c) (hq : QueueOk c) (hok : RunOk InvStepOk c events)
    (hrun : run c events = .ok c') :
    Lineage c.com (c'.blocks c'.base).header (c.blocks c.base).header ∧
      ∀ n ≤ c.number c.base, c'.canonical n = c.canonical n := by
  induction events generalizing c with
  | nil =>
    cases hrun
    exact ⟨.refl, fun _ _ => rfl⟩
  | cons x events ih =>
    obtain ⟨c₁, hstep, hrun⟩ := run_cons_eq_ok.mp hrun
    have hbase := baseStep hi hq hok.1 hstep
    obtain ⟨hlineage, hlookup⟩ := hbase.history
    obtain ⟨hlineage', hlookup'⟩ := ih (hok.1.inv hi hstep) (hq.step hi hok.1 hstep)
      (hok.2 c₁ hstep) hrun
    rw [step_com hstep] at hlineage'
    refine ⟨hlineage'.trans hlineage, fun n hn => ?_⟩
    rw [hlookup' n (hn.trans hbase.base_le), hlookup n hn]

end

/-- After `lateImport` the late block gets descendants, and a fork choice makes the last of them
the head. It names the finalized block 5 of their own branch. -/
def strayBase : List (Env × Event) :=
  lateImport ++ [sampleImport 3 1 1, sampleImport 4 1 1, sampleImport 5 1 1, sampleImport 6 1 1,
    (sampleEnv, .forkChoice 62 52 0)]

end Nimbus.Spec.ForkedChain
