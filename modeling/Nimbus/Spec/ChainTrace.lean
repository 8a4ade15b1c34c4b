import Nimbus.Spec.ChainMoves

/-!
# What a step does to the base, the number lookups and the frames

A step drops or marks blocks, attaches one block on the frame that it opens, or moves the base
to a block of the tree. This holds in every run.
-/

namespace Nimbus.Spec.ForkedChain

open Nimbus.Native.ForkedChain ForkedChainRef Function

variable {c c' c'' : ForkedChainRef}

/-- Blocks leave the tree or are marked. -/
structure Thins (c c' : ForkedChainRef) : Prop where
  com : c'.com = c.com
  base : c'.base = c.base
  baseTxFrame : c'.baseTxFrame = c.baseTxFrame
  canonical : c'.canonical = c.canonical
  live : ∀ {b f}, c'.txFrame b = some f →
    c.txFrame b = some f ∧ (c'.blocks b).header = (c.blocks b).header

/-- A block comes in, on the frame that is opened for it. -/
structure Grows (c c' : ForkedChainRef) (blk : Block) : Prop where
  com : c'.com = c.com
  base : c'.base = c.base
  baseTxFrame : c'.baseTxFrame = c.baseTxFrame
  canonical : c'.canonical = c.canonical
  live : ∀ {b f}, c'.txFrame b = some f →
    (c.txFrame b = some f ∧ (c'.blocks b).header = (c.blocks b).header) ∨
    (b = c.nextBlock ∧ f = c.nextFrame ∧ (c'.blocks b).header = blk.header)

/-- The base moves to the block `it`, and blocks leave the tree. -/
structure Rebases (c c' : ForkedChainRef) (it : BlockRef) : Prop where
  com : c'.com = c.com
  base : c'.base = it
  frame : c.txFrame it = some c'.baseTxFrame
  canonical : c'.canonical = (c.writeCanonicalMappings it).canonical
  live : ∀ {b f}, c'.txFrame b = some f →
    c.txFrame b = some f ∧ (c'.blocks b).header = (c.blocks b).header

/-! ## Thinning -/

namespace Thins

theorem refl (c : ForkedChainRef) : Thins c c := ⟨rfl, rfl, rfl, rfl, fun h => ⟨h, rfl⟩⟩

theorem trans (h : Thins c c') (h' : Thins c' c'') : Thins c c'' where
  com := h'.com.trans h.com
  base := h'.base.trans h.base
  baseTxFrame := h'.baseTxFrame.trans h.baseTxFrame
  canonical := h'.canonical.trans h.canonical
  live hb := by
    obtain ⟨hb', heq'⟩ := h'.live hb
    obtain ⟨hb'', heq⟩ := h.live hb'
    exact ⟨hb'', heq'.trans heq⟩

theorem of_blocks (com : c'.com = c.com) (base : c'.base = c.base)
    (baseTxFrame : c'.baseTxFrame = c.baseTxFrame) (canonical : c'.canonical = c.canonical)
    (blocks : c'.blocks = c.blocks) : Thins c c' where
  com := com
  base := base
  baseTxFrame := baseTxFrame
  canonical := canonical
  live hb := by
    unfold txFrame at hb ⊢
    rw [blocks] at hb ⊢
    exact ⟨hb, rfl⟩

theorem finalize (c : ForkedChainRef) (it : BlockRef) : Thins c (c.finalize it) where
  com := rfl
  base := rfl
  baseTxFrame := rfl
  canonical := rfl
  live := by
    intro b f hb
    rw [← marked_nil c, finalize_marked, marked_txFrame] at hb
    constructor
    · exact hb
    · rw [← marked_nil c, finalize_marked, marked_header, marked_nil]

theorem removeBlockFromCache {b : BlockRef} (h : c.removeBlockFromCache b = .ok c') :
    Thins c c' := by
  unfold ForkedChainRef.removeBlockFromCache at h
  split at h
  · cases h
  · cases h
    constructor
    · rfl
    · rfl
    · rfl
    · rfl
    · intro x f hx
      by_cases hxb : x = b
      · -- the removed block has no frame any more
        subst hxb
        simp only [ForkedChainRef.txFrame, ForkedChainRef.modifyBlock, update_self] at hx
        cases hx
      · simp only [ForkedChainRef.txFrame, ForkedChainRef.modifyBlock,
          update_of_ne hxb] at hx ⊢
        exact ⟨hx, rfl⟩

end Thins

section Handlers

theorem Quiets.thins {debug : Prop} {s s' : ChainNode} (h : Quiets debug s s') :
    Thins s.chain s'.chain := by
  induction h with
  | refl => exact Thins.refl _
  | tail _ hquiet ih =>
    apply ih.trans
    cases hquiet with
    | queue hc => exact Thins.of_blocks hc.com hc.base hc.baseTxFrame hc.canonical hc.blocks
    | finalize hp => exact Thins.finalize _ _
    | prune hnf hc => exact Thins.removeBlockFromCache hc
    | discard hd hc => exact Thins.removeBlockFromCache hc

/-- The store is not looked at by what thins the tree. -/
def anyDb : BlockDb := ⟨fun _ => {}, fun _ => true, fun _ => true, zeroHash32⟩

theorem forwardBase_thins (h : c.forwardBase = .ok c') : Thins c c' := by
  obtain ⟨s', hrun, rfl⟩ := except_map_ok.mp ((forwardBase_chain ⟨c, anyDb⟩).trans h)
  exact (forwardBase_quiet hrun : Quiets False _ _).thins

theorem resolvePending_thins (c : ForkedChainRef) (blk : Block) :
    Thins c (resolvePending c blk) := by
  obtain ⟨p, l, heq⟩ := resolvePending_eq c blk
  rw [heq]
  exact Thins.of_blocks rfl rfl rfl rfl rfl

theorem forkChoice_thins {headHash finalizedHash safeHash : Hash32} {r : Except ChainError Unit}
    (h : c.forkChoice headHash finalizedHash safeHash = .ok (c', r)) : Thins c c' := by
  obtain ⟨r', hrun, heq⟩ := except_map_ok.mp ((forkChoice_chain ⟨c, anyDb⟩ _ _ _).trans h)
  cases heq
  exact (forkChoice_quiet hrun : Quiets False _ _).thins

theorem setHead_thins {headHash : Hash32} {r : Except ChainError Unit}
    (h : c.setHead headHash = .ok (c', r)) : Thins c c' :=
  (setHead_quiet h : Quiets True ⟨c, anyDb⟩ ⟨c', anyDb⟩).thins

end Handlers

/-! ## Growing -/

section Grow

variable {blk : Block}

theorem Thins.grows (h : Thins c c') (hblock : c'.nextBlock = c.nextBlock)
    (hnext : c'.nextFrame = c.nextFrame) (h' : Grows c' c'' blk) : Grows c c'' blk where
  com := h'.com.trans h.com
  base := h'.base.trans h.base
  baseTxFrame := h'.baseTxFrame.trans h.baseTxFrame
  canonical := h'.canonical.trans h.canonical
  live hb := by
    rcases h'.live hb with ⟨hb', heq'⟩ | ⟨hnew, hf, heq⟩
    · obtain ⟨hb'', heq⟩ := h.live hb'
      exact .inl ⟨hb'', heq'.trans heq⟩
    · exact .inr ⟨hnew.trans hblock, hf.trans hnext, heq⟩

theorem Grows.thins (h : Grows c c' blk) (h' : Thins c' c'') : Grows c c'' blk where
  com := h'.com.trans h.com
  base := h'.base.trans h.base
  baseTxFrame := h'.baseTxFrame.trans h.baseTxFrame
  canonical := h'.canonical.trans h.canonical
  live hb := by
    obtain ⟨hb', heq'⟩ := h'.live hb
    rw [heq']
    exact h.live hb'

theorem appendBlock_grows {c₁ : ForkedChainRef}
    (h : c₁ = { c with frames := c₁.frames, nextFrame := c₁.nextFrame }) (parent : BlockRef)
    (blk : Block) (hash : Hash32) : Grows c (c₁.appendBlock parent blk hash c.nextFrame).1 blk := by
  have hblocks : c₁.blocks = c.blocks := by rw [h]
  have hblock : c₁.nextBlock = c.nextBlock := by rw [h]
  constructor
  · show c₁.com = c.com
    rw [h]
  · show c₁.base = c.base
    rw [h]
  · show c₁.baseTxFrame = c.baseTxFrame
    rw [h]
  · show c₁.canonical = c.canonical
    rw [h]
  · intro b f hb
    unfold txFrame at hb ⊢
    by_cases hnew : b = c₁.nextBlock
    · subst hnew
      rw [appendBlock_blocks_new] at hb ⊢
      cases hb
      exact .inr ⟨hblock, rfl, rfl⟩
    · rw [appendBlock_blocks hnew, hblocks] at hb ⊢
      exact .inl ⟨hb, rfl⟩

theorem txFrameBegin_eq_ok {parent : Option Nat} {f : Nat}
    (h : c.txFrameBegin parent = .ok (c', f)) :
    f = c.nextFrame ∧ c' = { c with frames := c'.frames, nextFrame := c'.nextFrame } := by
  unfold txFrameBegin at h
  split at h
  · cases h
  · split at h
    · cases h
    · cases h
      exact ⟨rfl, rfl⟩

variable {finalized : Bool} {env : Env}

/-- A block that is known, or fails, leaves the tree as it is; any other comes in. -/
theorem validateBlock_trace {parent : BlockRef}
    {r : Except ChainError BlockRef} (h : c.validateBlock env parent blk finalized = .ok (c', r)) :
    Thins c c' ∨ (Attachable c env parent blk finalized ∧ Grows c c' blk) := by
  simp only [validateBlock] at h
  cases hnew : c.hashToBlock (c.com.computeBlockHash blk.header) with
  | some existingBlock =>
    rw [hnew] at h
    cases h
    exact .inl (Thins.refl _)
  | none =>
    rw [hnew] at h
    change (resolvePending c blk).txFrameBegin ((resolvePending c blk).txFrame parent)
      >>= _ = _ at h
    have hthin := resolvePending_thins c blk
    obtain ⟨p, l, hresolved⟩ := resolvePending_eq c blk
    have hblock : (resolvePending c blk).nextBlock = c.nextBlock := by rw [hresolved]
    have hnext : (resolvePending c blk).nextFrame = c.nextFrame := by rw [hresolved]
    have hblocks : (resolvePending c blk).blocks = c.blocks := by rw [hresolved]
    generalize resolvePending c blk = c₀ at h hthin hblock hnext hblocks
    clear hresolved
    simp only [bind, Except.bind] at h
    split at h
    · cases h
    · next r' hbegin =>
      obtain ⟨c₁, f⟩ := r'
      obtain ⟨hf, hc₁⟩ := txFrameBegin_eq_ok hbegin
      have hblocks₁ : c₁.blocks = c₀.blocks := by rw [hc₁]
      simp only [hblocks₁, hblocks] at h
      split at h
      · next hpass =>
        right
        refine ⟨⟨hnew, hpass⟩, ?_⟩
        split at h
        · cases h
        · next c₂ hforward =>
          cases h
          apply hthin.grows hblock hnext
          apply Grows.thins _ (forwardBase_thins hforward)
          rw [hf]
          exact appendBlock_grows hc₁ parent blk _
      · cases h
        left
        apply hthin.trans
        rw [hc₁]
        exact Thins.of_blocks rfl rfl rfl rfl rfl

theorem processOrphan_trace {parent : BlockRef}
    (h : c.processOrphan env parent finalized = .ok c') :
    Thins c c' ∨ ∃ c₁ orphan, c.txFrame parent ≠ none ∧
      c.popOrphan (c.hash parent) = some (c₁, orphan) ∧
      Attachable c env parent orphan finalized ∧ Grows c c' orphan := by
  simp only [processOrphan, bind, Except.bind, pure, Except.pure] at h
  split at h
  · cases h
    exact .inl (Thins.refl _)
  · next hframe =>
    split at h
    · cases h
      exact .inl (Thins.refl _)
    · next c₁ orphan hpop =>
      have hc₁ : ∃ orphans, c₁ = { c with orphans := orphans } := by
        obtain ⟨found, -, heq⟩ := Option.map_eq_some_iff.mp hpop
        cases heq
        exact ⟨_, rfl⟩
      obtain ⟨orphans, hc₁⟩ := hc₁
      have hthin : Thins c c₁ := by
        rw [hc₁]
        exact Thins.of_blocks rfl rfl rfl rfl rfl
      have hblock : c₁.nextBlock = c.nextBlock := by rw [hc₁]
      have hnext : c₁.nextFrame = c.nextFrame := by rw [hc₁]
      split at h
      · cases h
      · next r hvalidate =>
        obtain ⟨c₂, result⟩ := r
        have hqueue : Thins c₂ c' := by
          cases result with
          | error e =>
            cases h
            exact Thins.refl _
          | ok newParent =>
            cases h
            exact Thins.of_blocks rfl rfl rfl rfl rfl
        rcases validateBlock_trace hvalidate with hsmall | ⟨hattach, hgrow⟩
        · exact .inl ((hthin.trans hsmall).trans hqueue)
        · refine .inr ⟨c₁, orphan, hframe, hpop, ?_, (hthin.grows hblock hnext hgrow).thins hqueue⟩
          rw [hc₁] at hattach
          exact hattach

theorem importBlock_trace {r : Except ImportErrorKind ImportOutcome}
    (h : c.importBlock env blk finalized = .ok (c', r)) :
    Thins c c' ∨ ∃ parent, c.hashToBlock blk.header.parentHash = some parent ∧
      Attachable c env parent blk (finalized || blk.header.number ≤ c.latestFinalized.number) ∧
      Grows c c' blk := by
  simp only [importBlock, bind, Except.bind, pure, Except.pure] at h
  split at h
  · cases h
    exact .inl (Thins.refl _)
  · split at h
    · next parent hparent =>
      split at h
      · cases h
      · next r' hvalidate =>
        obtain ⟨c₁, result⟩ := r'
        have hqueue : Thins c₁ c' := by
          cases result with
          | error e =>
            cases h
            exact Thins.refl _
          | ok newParent =>
            cases h
            split
            · exact Thins.of_blocks rfl rfl rfl rfl rfl
            · exact Thins.refl _
        rcases validateBlock_trace hvalidate with hsmall | ⟨hattach, hgrow⟩
        · exact .inl (hsmall.trans hqueue)
        · exact .inr ⟨parent, hparent, hattach, hgrow.thins hqueue⟩
    · split at h
      · split at h
        · cases h
          exact .inl (Thins.refl _)
        · cases h
          exact .inl (Thins.refl _)
      · cases h
        exact .inl (Thins.of_blocks rfl rfl rfl rfl rfl)

end Grow

/-! ## Moving the base -/

section Rebase

variable {env : Env}

theorem removeBlocks_thins {L : List BlockRef} (h : removeBlocks c L = .ok c') : Thins c c' := by
  induction L generalizing c with
  | nil =>
    cases h
    exact Thins.refl _
  | cons b L ih =>
    simp only [removeBlocks, bind, Except.bind] at h
    split at h
    · cases h
    · next c₁ hc => exact (Thins.removeBlockFromCache hc).trans (ih h)

theorem Rebases.thins {it : BlockRef} (h : Rebases c c' it) (h' : Thins c' c'') :
    Rebases c c'' it where
  com := h'.com.trans h.com
  base := h'.base.trans h.base
  frame := by
    rw [h'.baseTxFrame]
    exact h.frame
  canonical := h'.canonical.trans h.canonical
  live hb := by
    obtain ⟨hb', heq'⟩ := h'.live hb
    obtain ⟨hb'', heq⟩ := h.live hb'
    exact ⟨hb'', heq'.trans heq⟩

theorem modifyParent_thins (c : ForkedChainRef) (it : BlockRef) :
    Thins c (c.modifyBlock it fun o => { o with parent := none }) where
  com := rfl
  base := rfl
  baseTxFrame := rfl
  canonical := rfl
  live := by
    intro b f hb
    unfold txFrame modifyBlock at hb
    unfold txFrame modifyBlock
    by_cases hbit : b = it
    · subst hbit
      simp only [update_self] at hb ⊢
      exact ⟨hb, trivial⟩
    · simp only [update_of_ne hbit] at hb ⊢
      exact ⟨hb, trivial⟩

theorem updateBase_trace {it : BlockRef} (h : c.updateBase env it = .ok c') :
    (c' = c ∧ c.number it = c.number c.base) ∨
    (c.number it ≠ c.number c.base ∧ Rebases c c' it) := by
  unfold updateBase at h
  split at h
  · next hsame =>
    cases h
    exact .inl ⟨rfl, hsame⟩
  · next hmoves =>
    right
    constructor
    · exact hmoves
    · cases hframe : c.txFrame it with
      | none =>
        rw [hframe] at h
        cases h
      | some frame =>
        simp only [hframe, bind, Except.bind, pure, Except.pure] at h
        split at h
        · cases h
        · split at h
          · cases h
          · split at h
            · cases h
            · next c₂ hremove =>
              cases h
              have hrest := removeBlocks_thins hremove
              obtain ⟨size, hsize⟩ := adjustBatchSize_eq
                (({ c₂ with base := it }.modifyBlock it fun o => { o with parent := none }).finalize
                  it) env.runTime
              rw [hsize]
              have hlast : Thins { c₂ with base := it } _ :=
                ((modifyParent_thins { c₂ with base := it } it).trans
                  (Thins.finalize _ it)).trans (Thins.of_blocks rfl rfl rfl rfl rfl)
              constructor
              · exact hlast.com.trans hrest.com
              · exact hlast.base
              · rw [hrest.baseTxFrame]
                exact hframe
              · exact hlast.canonical.trans hrest.canonical
              · intro b f hb
                obtain ⟨hb₁, heq₁⟩ := hlast.live hb
                obtain ⟨hb₂, heq₂⟩ := hrest.live hb₁
                exact ⟨hb₂, heq₁.trans heq₂⟩

/-- A queued base update takes the first base from the queue. -/
theorem processUpdateBase_trace (h : c.processUpdateBase env = .ok c') :
    (Thins c c' ∧ ∀ it rest, c.baseQueue = it :: rest → c.number it = c.number c.base) ∨
    ∃ it rest, c.baseQueue = it :: rest ∧ c.number it ≠ c.number c.base ∧ Rebases c c' it := by
  simp only [processUpdateBase, bind, Except.bind, pure, Except.pure] at h
  have hdone : ∀ c₁ : ForkedChainRef,
      (if c₁.baseQueue = [] then .ok c₁
        else .ok { c₁ with queue := c₁.queue ++ [.processUpdateBase] } :
          Except Defect ForkedChainRef) = .ok c' → Thins c₁ c' := by
    intro c₁ hc₁
    split at hc₁
    · cases hc₁
      exact Thins.refl _
    · cases hc₁
      exact Thins.of_blocks rfl rfl rfl rfl rfl
  cases hq : c.baseQueue with
  | nil =>
    simp only [hq, if_true] at h
    cases h
    exact .inl ⟨Thins.refl _, fun _ _ hnil => by cases hnil⟩
  | cons it rest =>
    simp only [hq] at h
    split at h
    · cases h
    · next c₁ hbase =>
      have hafter := hdone c₁ h
      rcases updateBase_trace hbase with ⟨heq, hnum⟩ | ⟨hne, hm⟩
      · left
        constructor
        · rw [heq] at hafter
          have hpop : Thins c { c with baseQueue := rest } := Thins.of_blocks rfl rfl rfl rfl rfl
          exact hpop.trans hafter
        · intro it' rest' heq'
          cases heq'
          exact hnum
      · right
        have hm' : Rebases c c₁ it := ⟨hm.com, hm.base, hm.frame, hm.canonical, hm.live⟩
        exact ⟨it, rest, rfl, hne, hm'.thins hafter⟩

end Rebase

/-! ## Steps -/

/-- A step drops or marks blocks, attaches one, or moves the base to the next one queued. -/
theorem step_trace {env : Env} {e : Event} (h : step c env e = .ok c') :
    (Thins c c' ∧ (RunsBaseUpdate c e → ∀ it rest, c.baseQueue = it :: rest →
      c.number it = c.number c.base)) ∨
    (¬ RunsBaseUpdate c e ∧ ∃ parent blk, Attaches c env e parent blk ∧ Grows c c' blk) ∨
    (RunsBaseUpdate c e ∧ ∃ it rest, c.baseQueue = it :: rest ∧ c.number it ≠ c.number c.base ∧
      Rebases c c' it) := by
  cases e with
  | importBlock blk finalized =>
    have hno : ¬ RunsBaseUpdate c (.importBlock blk finalized) := by
      rintro ⟨i, heq, -⟩
      cases heq
    obtain ⟨⟨c₁, r⟩, hrun, h⟩ := except_bind_ok.mp h
    cases h
    rcases importBlock_trace hrun with hthin | ⟨parent, hparent, hattach, hgrow⟩
    · exact .inl ⟨hthin, fun hruns => absurd hruns hno⟩
    · refine .inr (.inl ⟨hno, parent, blk, ⟨_, ?_, hattach⟩, hgrow⟩)
      simp only [attempt, hparent, Option.map_some]
  | forkChoice headHash finalizedHash safeHash =>
    have hno : ¬ RunsBaseUpdate c (.forkChoice headHash finalizedHash safeHash) := by
      rintro ⟨i, heq, -⟩
      cases heq
    obtain ⟨⟨c₁, r⟩, hrun, h⟩ := except_bind_ok.mp h
    cases h
    exact .inl ⟨forkChoice_thins hrun, fun hruns => absurd hruns hno⟩
  | setHead headHash =>
    have hno : ¬ RunsBaseUpdate c (.setHead headHash) := by
      rintro ⟨i, heq, -⟩
      cases heq
    obtain ⟨⟨c₁, r⟩, hrun, h⟩ := except_bind_ok.mp h
    cases h
    exact .inl ⟨setHead_thins hrun, fun hruns => absurd hruns hno⟩
  | handle i =>
    change c.handleQueueItem env i = _ at h
    unfold handleQueueItem at h
    cases hitem : c.queue[i]? with
    | none =>
      rw [hitem] at h
      cases h
      refine .inl ⟨Thins.refl _, ?_⟩
      rintro ⟨j, heq, hj⟩
      cases heq
      rw [hitem] at hj
      cases hj
    | some item =>
      rw [hitem] at h
      generalize hc₁ : ({ c with queue := c.queue.eraseIdx i } : ForkedChainRef) = c₁ at h
      have hpop : Thins c c₁ := by
        rw [← hc₁]
        exact Thins.of_blocks rfl rfl rfl rfl rfl
      have hblock : c₁.nextBlock = c.nextBlock := by rw [← hc₁]
      have hnext : c₁.nextFrame = c.nextFrame := by rw [← hc₁]
      cases item with
      | processUpdateBase =>
        have hruns : RunsBaseUpdate c (.handle i) := ⟨i, rfl, hitem⟩
        rcases processUpdateBase_trace h with ⟨hthin, hnum⟩ | ⟨it, rest, hq, hne, hm⟩
        · refine .inl ⟨hpop.trans hthin, fun _ it rest hq => ?_⟩
          have hnum' := hnum it rest
          rw [← hc₁] at hnum'
          exact hnum' hq
        · refine .inr (.inr ⟨hruns, it, rest, ?_⟩)
          rw [← hc₁] at hq hne hm
          exact ⟨hq, hne, hm.com, hm.base, hm.frame, hm.canonical, hm.live⟩
      | processOrphan parent finalized =>
        have hno : ¬ RunsBaseUpdate c (.handle i) := by
          rintro ⟨j, heq, hj⟩
          cases heq
          rw [hitem] at hj
          cases hj
        rcases processOrphan_trace h with hthin | ⟨c₂, orphan, hframe, hfound, hattach, hgrow⟩
        · exact .inl ⟨hpop.trans hthin, fun hruns => absurd hruns hno⟩
        · right
          left
          refine ⟨hno, parent, orphan, ⟨finalized, ?_, ?_⟩, hpop.grows hblock hnext hgrow⟩
          · rw [← hc₁] at hframe hfound
            have hframe' : ¬ c.txFrame parent = none := hframe
            obtain ⟨found, hfind, heq⟩ := Option.map_eq_some_iff.mp hfound
            cases heq
            have hfind' : c.orphans.find? (·.1 == c.hash parent) = some found := hfind
            simp only [attempt, hitem, if_neg hframe', popOrphan, hfind',
              Option.map_some]
          · rw [← hc₁] at hattach
            exact hattach

theorem step_com {env : Env} {e : Event} (h : step c env e = .ok c') : c'.com = c.com := by
  rcases step_trace h with ⟨hthin, -⟩ | ⟨-, _, _, -, hgrow⟩ | ⟨-, _, _, -, -, hre⟩
  · exact hthin.com
  · exact hgrow.com
  · exact hre.com

end Nimbus.Spec.ForkedChain
