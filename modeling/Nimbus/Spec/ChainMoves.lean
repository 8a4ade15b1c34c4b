import Nimbus.ForStd.ExecM
import Nimbus.Spec.ChainDb
import Nimbus.Spec.ForkedChainHead
import Nimbus.Spec.ForkedChainWired

/-!
# What a step does to the block tree and its store

Every step of a `ChainNode` is a sequence of a few moves, or one move of the base. This
holds in every run: nothing is assumed here about which blocks a fork choice names.
-/

namespace Nimbus.Spec.ForkedChain

open Nimbus.Native.ForkedChain
open ParentTree ForkedChainRef

variable {n₀ : Nat} {c c' : ForkedChainRef} {db : BlockDb}

/-! ## Moves -/

/-- One write to the tree and the store. `debug` allows the blocks that `setHead` drops
without touching their payloads. -/
inductive Move (debug : Prop) : ChainNode → ChainNode → Prop
  | relabel {s : ChainNode} {c' : ForkedChainRef} (h : SameTree s.chain c') :
    Move debug s ⟨c', s.db⟩
  | finalize {s : ChainNode} {it next : BlockRef} (hp : s.chain.parent it = some next) :
    Move debug s ⟨s.chain.finalize it, s.db.finalizeBlockData (s.chain.blocks it).header⟩
  | prune {s : ChainNode} {it : BlockRef} {c' : ForkedChainRef}
    (hnf : s.chain.notFinalized it = true) (h : s.chain.removeBlockFromCache it = .ok c') :
    Move debug s ⟨c', s.db.deleteBlockData (s.chain.blocks it).header (s.chain.hash it)⟩
  | discard {s : ChainNode} {it : BlockRef} {c' : ForkedChainRef} (hd : debug)
    (h : s.chain.removeBlockFromCache it = .ok c') : Move debug s ⟨c', s.db⟩
  | attach {s : ChainNode} {env : Env} {parent f : Nat} {blk : Block} {finalized : Bool}
    (hp : InTree s.chain parent) (hph : blk.header.parentHash = s.chain.hash parent)
    (hnew : s.chain.hashToBlock (s.chain.com.computeBlockHash blk.header) = none)
    (hpass : processBlock env (s.chain.blocks parent).header blk finalized = true)
    (hstore : (s.db.storeBlock blk (s.chain.com.computeBlockHash blk.header)).2 = true) :
    Move debug s
      ⟨(s.chain.appendBlock parent blk (s.chain.com.computeBlockHash blk.header) f).1,
        (s.db.storeBlock blk (s.chain.com.computeBlockHash blk.header)).1⟩
  | reject {s : ChainNode} {parent : Nat} {blk : Block} (hp : InTree s.chain parent)
    (hph : blk.header.parentHash = s.chain.hash parent)
    (hnew : s.chain.hashToBlock (s.chain.com.computeBlockHash blk.header) = none)
    (hstore : (s.db.storeBlock blk (s.chain.com.computeBlockHash blk.header)).2 = false) :
    Move debug s ⟨s.chain, (s.db.storeBlock blk (s.chain.com.computeBlockHash blk.header)).1⟩

abbrev Moves (debug : Prop) : ChainNode → ChainNode → Prop := Relation.ReflTransGen (Move debug)

theorem Moves.relabel {debug : Prop} {s s' : ChainNode} {c'' : ForkedChainRef}
    (h : Moves debug s s') (hc : SameTree s'.chain c'') : Moves debug s ⟨c'', s'.db⟩ :=
  h.tail (.relabel hc)

variable {debug : Prop} {s s' : ChainNode}

/-- The tree stays as it is, with its base and its frames. Requests and queues may change. -/
structure SameFrames (c c' : ForkedChainRef) : Prop where
  com : c'.com = c.com
  base : c'.base = c.base
  baseTxFrame : c'.baseTxFrame = c.baseTxFrame
  canonical : c'.canonical = c.canonical
  blocks : c'.blocks = c.blocks
  nextBlock : c'.nextBlock = c.nextBlock
  hashToBlock : c'.hashToBlock = c.hashToBlock
  orphans : c'.orphans = c.orphans

theorem SameFrames.sameTree (h : SameFrames c c') : SameTree c c' :=
  ⟨h.com, h.blocks, h.nextBlock, h.hashToBlock, fun _ ho => .inl (h.orphans ▸ ho)⟩

/-- The moves that attach no block. -/
inductive Quiet (debug : Prop) : ChainNode → ChainNode → Prop
  | queue {s : ChainNode} {c' : ForkedChainRef} (h : SameFrames s.chain c') :
    Quiet debug s ⟨c', s.db⟩
  | finalize {s : ChainNode} {it next : BlockRef} (hp : s.chain.parent it = some next) :
    Quiet debug s ⟨s.chain.finalize it, s.db.finalizeBlockData (s.chain.blocks it).header⟩
  | prune {s : ChainNode} {it : BlockRef} {c' : ForkedChainRef}
    (hnf : s.chain.notFinalized it = true) (h : s.chain.removeBlockFromCache it = .ok c') :
    Quiet debug s ⟨c', s.db.deleteBlockData (s.chain.blocks it).header (s.chain.hash it)⟩
  | discard {s : ChainNode} {it : BlockRef} {c' : ForkedChainRef} (hd : debug)
    (h : s.chain.removeBlockFromCache it = .ok c') : Quiet debug s ⟨c', s.db⟩

abbrev Quiets (debug : Prop) : ChainNode → ChainNode → Prop := Relation.ReflTransGen (Quiet debug)

theorem Quiets.queue {c'' : ForkedChainRef} (h : Quiets debug s s')
    (hc : SameFrames s'.chain c'') : Quiets debug s ⟨c'', s'.db⟩ :=
  h.tail (.queue hc)

theorem Quiets.moves (h : Quiets debug s s') : Moves debug s s' := by
  refine Relation.ReflTransGen.mono (fun s s' hquiet => ?_) s s' h
  cases hquiet with
  | queue hc => exact .relabel hc.sameTree
  | finalize hp => exact .finalize hp
  | prune hnf hc => exact .prune hnf hc
  | discard hd hc => exact .discard hd hc

section Handlers

variable {finalized : Bool}

theorem finalizeLoop_quiet {fuel it : Nat} (h : ChainNode.finalizeLoop fuel s it = .ok s') :
    Quiets debug s s' := by
  induction fuel generalizing s it with
  | zero =>
    cases h
    exact .refl
  | succ fuel ih =>
    simp only [ChainNode.finalizeLoop] at h
    split at h
    · cases hp : s.chain.parent it with
      | none =>
        rw [hp] at h
        cases h
      | some next =>
        rw [hp] at h
        exact (ih h).head (.finalize hp)
    · cases h
      exact .refl

theorem removeBranch_quiet {fuel it : Nat} (h : ChainNode.removeBranch fuel s it = .ok s') :
    Quiets debug s s' := by
  induction fuel generalizing s it with
  | zero =>
    cases h
    exact .refl
  | succ fuel ih =>
    simp only [ChainNode.removeBranch] at h
    split at h
    · next hnf =>
      split at h
      · cases h
        exact .refl
      · cases hc : s.chain.removeBlockFromCache it with
        | error d =>
          rw [hc] at h
          cases h
        | ok c' =>
          rw [hc] at h
          cases hp : s.chain.parent it with
          | none =>
            rw [hp] at h
            cases h
          | some next =>
            rw [hp] at h
            exact (ih h).head (.prune hnf hc)
    · cases h
      exact .refl

theorem pruneHeads_quiet {fin fuel i : Nat} {latest latest' : Bool}
    (h : ChainNode.pruneHeads fin fuel i s latest = .ok (s', latest')) : Quiets debug s s' := by
  induction fuel generalizing i s latest with
  | zero =>
    cases h
    exact .refl
  | succ fuel ih =>
    simp only [ChainNode.pruneHeads] at h
    split at h
    · cases h
      exact .refl
    · next head _ =>
      split at h
      · exact ih h
      · cases hrun : ChainNode.removeBranch s.chain.nextBlock s head with
        | error d =>
          rw [hrun] at h
          cases h
        | ok s₁ =>
          rw [hrun] at h
          have hfirst : Quiets debug s s₁ := removeBranch_quiet hrun
          have hnext : Quiets debug s
              ⟨{ s₁.chain with heads := seqDel s₁.chain.heads i }, s₁.db⟩ :=
            hfirst.queue ⟨rfl, rfl, rfl, rfl, rfl, rfl, rfl, rfl⟩
          exact hnext.trans (ih h)

theorem updateFinalized_quiet {fin fcuHead : Nat}
    (h : s.updateFinalized fin fcuHead = .ok s') : Quiets debug s s' := by
  simp only [ChainNode.updateFinalized, bind, Except.bind, pure, Except.pure] at h
  cases hrun : ChainNode.finalizeLoop s.chain.nextBlock s fin with
  | error d =>
    rw [hrun] at h
    cases h
  | ok s₁ =>
    rw [hrun] at h
    have hfirst : Quiets debug s s₁ := finalizeLoop_quiet hrun
    simp only at h
    split at h
    · cases h
      exact hfirst
    · cases hrun' : ChainNode.pruneHeads fin s₁.chain.heads.length 0 s₁ false with
      | error d =>
        rw [hrun'] at h
        cases h
      | ok r =>
        obtain ⟨s₂, updateLatest⟩ := r
        rw [hrun'] at h
        have hprune : Quiets debug s s₂ := hfirst.trans (pruneHeads_quiet hrun')
        simp only at h
        split at h
        · split at h
          · cases h
          · cases h
            exact hprune.queue ⟨rfl, rfl, rfl, rfl, rfl, rfl, rfl, rfl⟩
        · cases h
          exact hprune

theorem queueUpdateBase_sameFrames {base : Nat} (h : c.queueUpdateBase base = .ok c') :
    SameFrames c c' := by
  simp only [queueUpdateBase, bind, Except.bind, pure, Except.pure] at h
  split at h
  · cases h
    exact ⟨rfl, rfl, rfl, rfl, rfl, rfl, rfl, rfl⟩
  · split at h
    · cases h
    · cases h
      exact ⟨rfl, rfl, rfl, rfl, rfl, rfl, rfl, rfl⟩

theorem forwardBase_quiet (h : s.forwardBase = .ok s') : Quiets debug s s' := by
  simp only [ChainNode.forwardBase, bind, Except.bind, pure, Except.pure] at h
  split at h
  · split at h
    · cases h
    · next base _ =>
      split at h
      · cases h
      · next s₁ hrun =>
        have hfirst : Quiets debug s s₁ := updateFinalized_quiet hrun
        split at h
        · cases h
        · next c₁ hqueue =>
          have hmoved := hfirst.queue (queueUpdateBase_sameFrames hqueue)
          split at h
          · cases h
            exact hmoved.queue ⟨rfl, rfl, rfl, rfl, rfl, rfl, rfl, rfl⟩
          · cases h
            exact hmoved
  · cases h
    exact .refl

theorem txFrameBegin_sameTree {parent : Option Nat} {f : Nat}
    (h : c.txFrameBegin parent = .ok (c', f)) : parent ≠ none ∧ SameTree c c' := by
  cases parent with
  | none => cases h
  | some g =>
    simp only [txFrameBegin] at h
    split at h
    · cases h
    · cases h
      exact ⟨Option.some_ne_none g, rfl, rfl, rfl, rfl, fun _ ho => .inl ho⟩

theorem resolvePending_sameTree (c : ForkedChainRef) (blk : Block) :
    SameTree c (resolvePending c blk) := by
  obtain ⟨p, l, heq⟩ := resolvePending_eq c blk
  rw [heq]
  exact ⟨rfl, rfl, rfl, rfl, fun _ ho => .inl ho⟩

theorem validateBlock_moves {env : Env} {parent : Nat} {blk : Block}
    {r : Except ChainError BlockRef} (hp : InTree s.chain parent)
    (hph : blk.header.parentHash = s.chain.hash parent)
    (h : s.validateBlock env parent blk finalized = .ok (s', r)) : Moves debug s s' := by
  simp only [ChainNode.validateBlock] at h
  cases hnew : s.chain.hashToBlock (s.chain.com.computeBlockHash blk.header) with
  | some existingBlock =>
    rw [hnew] at h
    cases h
    exact .refl
  | none =>
    rw [hnew] at h
    change (resolvePending s.chain blk).txFrameBegin ((resolvePending s.chain blk).txFrame parent)
      >>= _ = _ at h
    have hres := resolvePending_sameTree s.chain blk
    cases hbegin : (resolvePending s.chain blk).txFrameBegin
        ((resolvePending s.chain blk).txFrame parent) with
    | error d =>
      rw [hbegin] at h
      cases h
    | ok r' =>
      obtain ⟨c₁, f⟩ := r'
      rw [hbegin] at h
      have hsame := hres.trans (txFrameBegin_sameTree hbegin).2
      have hopen : Moves debug s ⟨c₁, s.db⟩ := Moves.relabel .refl hsame
      have hp₁ : InTree c₁ parent := hsame.inTree_iff.mpr hp
      have hph₁ : blk.header.parentHash = c₁.hash parent := by
        rw [hsame.hash, hph]
      have hnew₁ : c₁.hashToBlock (c₁.com.computeBlockHash blk.header) = none := by
        rw [hsame.hashToBlock, hsame.com, hnew]
      simp only [bind, Except.bind, pure, Except.pure, ChainNode.processBlock] at h
      rw [← hsame.com] at h
      by_cases hpass : processBlock env (c₁.blocks parent).header blk finalized
      · simp only [if_pos hpass] at h
        cases hstore : (s.db.storeBlock blk (c₁.com.computeBlockHash blk.header)).2 with
        | true =>
          simp only [hstore, if_true] at h
          split at h
          · cases h
          · next s₂ hfwd =>
            cases h
            have hatt : Move debug ⟨c₁, s.db⟩ _ :=
              .attach (f := f) hp₁ hph₁ hnew₁ hpass hstore
            exact (hopen.tail hatt).trans (forwardBase_quiet hfwd).moves
        | false =>
          simp only [hstore, Bool.false_eq_true, if_false] at h
          cases h
          have hrej : Move debug ⟨c₁, s.db⟩ _ := .reject hp₁ hph₁ hnew₁ hstore
          have hboth : Moves debug s _ := hopen.tail hrej
          exact hboth.relabel ⟨rfl, rfl, rfl, rfl, fun _ ho => .inl ho⟩
      · simp only [if_neg hpass, Bool.false_eq_true, if_false] at h
        cases h
        exact hopen.relabel ⟨rfl, rfl, rfl, rfl, fun _ ho => .inl ho⟩

theorem processOrphan_moves {env : Env} {parent : Nat}
    (hw : Wired n₀ s.chain) (h : s.processOrphan env parent finalized = .ok s') :
    Moves debug s s' := by
  simp only [ChainNode.processOrphan, popOrphan] at h
  split at h
  · cases h
    exact .refl
  · next hframe =>
    have hp : InTree s.chain parent := hw.live.mpr hframe
    cases hfind : s.chain.orphans.find? (·.1 == s.chain.hash parent) with
    | none =>
      rw [hfind] at h
      cases h
      exact .refl
    | some found =>
      rw [hfind] at h
      simp only [Option.map_some, bind, Except.bind, pure, Except.pure] at h
      -- the orphan is filed under the hash of its parent
      have hkey : found.1 = s.chain.hash parent := by simpa using List.find?_some hfind
      have hph : found.2.header.parentHash = s.chain.hash parent := by
        rw [← hkey]
        exact (hw.orphan found (List.mem_of_find?_eq_some hfind)).symm
      generalize hc : { s.chain with
        orphans := s.chain.orphans.filter (·.1 != s.chain.hash parent) } = c₁ at h
      have hsame : SameTree s.chain c₁ := by
        rw [← hc]
        exact ⟨rfl, rfl, rfl, rfl, fun o ho => .inl (List.mem_of_mem_filter ho)⟩
      have hpop : Moves debug s ⟨c₁, s.db⟩ := Moves.relabel .refl hsame
      have hp₁ : InTree c₁ parent := hsame.inTree_iff.mpr hp
      have hph₁ : found.2.header.parentHash = c₁.hash parent := by rw [hsame.hash, hph]
      split at h
      · cases h
      · next r hval =>
        obtain ⟨s₁, result⟩ := r
        have hmoved := hpop.trans (validateBlock_moves (s := ⟨c₁, s.db⟩) hp₁ hph₁ hval)
        cases result with
        | error e =>
          cases h
          exact hmoved
        | ok newParent =>
          cases h
          exact Moves.relabel hmoved ⟨rfl, rfl, rfl, rfl, fun _ ho => .inl ho⟩

theorem addOrphan_sameTree (c : ForkedChainRef) (blk : Block) : SameTree c (c.addOrphan blk) := by
  refine ⟨rfl, rfl, rfl, rfl, fun o ho => ?_⟩
  have hmem := List.mem_of_mem_take ho
  rcases List.mem_cons.mp hmem with rfl | hmem
  · exact .inr rfl
  · exact .inl (List.mem_of_mem_filter hmem)

theorem importBlock_moves {env : Env} {blk : Block}
    {r : Except ImportErrorKind ImportOutcome} (hw : Wired n₀ s.chain)
    (h : s.importBlock env blk finalized = .ok (s', r)) : Moves debug s s' := by
  simp only [ChainNode.importBlock] at h
  split at h
  · cases h
    exact .refl
  · cases hparent : s.chain.hashToBlock blk.header.parentHash with
    | some parent =>
      rw [hparent] at h
      simp only [bind, Except.bind, pure, Except.pure] at h
      have hph := (hw.key hparent).symm
      have hp : InTree s.chain parent := by
        unfold InTree
        rw [← hph]
        exact hparent
      split at h
      · cases h
      · next r' hval =>
        obtain ⟨s₁, result⟩ := r'
        have hmoved : Moves debug s s₁ := validateBlock_moves hp hph hval
        cases result with
        | error e =>
          cases h
          exact hmoved
        | ok newParent =>
          cases h
          refine hmoved.relabel ?_
          split
          · exact ⟨rfl, rfl, rfl, rfl, fun _ ho => .inl ho⟩
          · exact SameTree.refl _
    | none =>
      rw [hparent] at h
      simp only at h
      split at h
      · split at h
        · cases h
          exact .refl
        · cases h
          exact .refl
      · cases h
        exact Moves.relabel .refl (addOrphan_sameTree s.chain blk)

theorem forkChoice_quiet {headHash finalizedHash safeHash : Hash32} {r : Except ChainError Unit}
    (h : s.forkChoice headHash finalizedHash safeHash = .ok (s', r)) : Quiets debug s s' := by
  unfold ChainNode.forkChoice at h
  extract_lets c c₁ c₂ at h
  have hsame : SameFrames s.chain c₂ := by
    obtain ⟨p, f, heq⟩ := requested_eq s.chain finalizedHash safeHash
    have hc₂ : c₂ = requested s.chain finalizedHash safeHash := rfl
    rw [hc₂, heq]
    exact ⟨rfl, rfl, rfl, rfl, rfl, rfl, rfl, rfl⟩
  clear_value c₂
  have hasked : Quiets debug s ⟨c₂, s.db⟩ := Quiets.queue .refl hsame
  split at h
  · cases h
    exact hasked
  · split at h
    · cases h
      exact hasked
    · next head _ =>
      have hhead : Quiets debug s ⟨c₂.updateHead head, s.db⟩ :=
        hasked.queue ⟨rfl, rfl, rfl, rfl, rfl, rfl, rfl, rfl⟩
      simp only at h
      split at h
      · cases h
        exact hhead
      · split at h
        · cases h
          exact hhead
        · next finalized _ =>
          simp only [bind, Except.bind, pure, Except.pure] at h
          split at h
          · cases h
          · next s₁ hfin =>
            have hmoved : Quiets debug s s₁ := hhead.trans (updateFinalized_quiet hfin)
            split at h
            · cases h
            · next base _ =>
              split at h
              · cases h
                exact hmoved
              · split at h
                · cases h
                · split at h
                  · cases h
                  · split at h
                    · cases h
                    · next c₃ hqueue =>
                      cases h
                      exact hmoved.queue (queueUpdateBase_sameFrames hqueue)

end Handlers

/-! ## `setHead` -/

theorem discardBranch_quiet {keep : List Hash32} {fuel : Nat} {it : Option Nat}
    (h : discardBranch keep fuel c it = .ok c') : Quiets True ⟨c, db⟩ ⟨c', db⟩ := by
  induction fuel generalizing c it with
  | zero =>
    cases h
    exact .refl
  | succ fuel ih =>
    cases it with
    | none =>
      cases h
      exact .refl
    | some it =>
      simp only [discardBranch] at h
      split at h
      · cases h
        exact .refl
      · cases hc : c.removeBlockFromCache it with
        | error d =>
          rw [hc] at h
          cases h
        | ok c₁ =>
          rw [hc] at h
          exact (ih h).head (.discard (s := ⟨c, db⟩) trivial hc)

theorem discardBranches_quiet {keep : List Hash32} {heads : List Nat}
    (h : discardBranches keep c heads = .ok c') : Quiets True ⟨c, db⟩ ⟨c', db⟩ := by
  induction heads generalizing c with
  | nil =>
    cases h
    exact .refl
  | cons head heads ih =>
    obtain ⟨c₁, hc, h⟩ := except_bind_ok.mp h
    exact (discardBranch_quiet hc).trans (ih h)

theorem setHead_quiet {headHash : Hash32} {r : Except ChainError Unit}
    (h : c.setHead headHash = .ok (c', r)) : Quiets True ⟨c, db⟩ ⟨c', db⟩ := by
  simp only [setHead] at h
  split at h
  · cases h
    exact .refl
  · next head _ =>
    split at h
    · cases h
      exact .refl
    · simp only [bind, Except.bind, pure, Except.pure] at h
      split at h
      · cases h
      · next c₁ hdiscard =>
        cases h
        refine Quiets.queue (discardBranches_quiet hdiscard) ?_
        split
        · exact ⟨rfl, rfl, rfl, rfl, rfl, rfl, rfl, rfl⟩
        · exact ⟨rfl, rfl, rfl, rfl, rfl, rfl, rfl, rfl⟩

/-! ## `updateBase` -/

/-- A list of different blocks can only be removed when each has a frame. -/
theorem removeBlocks_live {L : List Nat} (hnd : L.Nodup)
    (h : removeBlocks c L = .ok c') : ∀ x ∈ L, c.txFrame x ≠ none := by
  induction L generalizing c with
  | nil => simp
  | cons b L ih =>
    obtain ⟨hbL, hnd⟩ := List.nodup_cons.mp hnd
    simp only [removeBlocks] at h
    cases hf : c.txFrame b with
    | none =>
      simp only [removeBlockFromCache, hf] at h
      cases h
    | some f =>
      obtain ⟨c₁, hc, h⟩ := except_bind_ok.mp h
      have hrest := ih hnd h
      intro x hx
      rcases List.mem_cons.mp hx with rfl | hx
      · rw [hf]
        exact Option.some_ne_none f
      · have hne : x ≠ b := fun heq => hbL (heq ▸ hx)
        have hframe : c₁.txFrame x = c.txFrame x := by
          simp only [removeBlockFromCache, hf, Except.ok.injEq] at hc
          rw [← hc]
          simp only [txFrame, modifyBlock,
            disposeFrame, Function.update_of_ne hne]
        rw [← hframe]
        exact hrest x hx

/-- The base moves to the block `base` of the tree, and the blocks `R` leave it. -/
structure MovesBase (c c' : ForkedChainRef) (base : Nat) (R : List Nat) : Prop where
  base_mem : InTree c base
  inTree : ∀ x ∈ R, InTree c x
  mem_iff : ∀ x, x ∈ R ↔ ∃ p, c.parent base = some p ∧ Anc c.parent p x
  rest : ∃ frame, SameTree (rebased c base frame R) c'

theorem updateBase_moves {env : Env} {base : Nat} (hw : Wired n₀ c)
    (h : c.updateBase env base = .ok c') : c' = c ∨ ∃ R, MovesBase c c' base R := by
  unfold updateBase at h
  split at h
  · cases h
    exact .inl rfl
  · right
    cases hframe : c.txFrame base with
    | none =>
      rw [hframe] at h
      cases h
    | some frame =>
      rw [hframe] at h
      simp only at h
      split at h
      · cases h
      · split at h
        · cases h
        · generalize hc₁ : ({ (c.writeCanonicalMappings base).persistFrame frame with
            baseTxFrame := frame } : ForkedChainRef) = c₁ at h
          have hsame : SameTree c c₁ := by
            rw [← hc₁]
            exact ⟨rfl, rfl, rfl, rfl, fun _ ho => .inl ho⟩
          have hanc : c₁.ancestors (c₁.parent base) = c.ancestors (c.parent base) := by
            rw [← hc₁]
            rfl
          rw [hanc] at h
          have hw₁ := hw.sameTree hsame
          have hnd : (c.ancestors (c.parent base)).Nodup := nodup_chain hw.parent_lt _ _
          simp only [bind, Except.bind, pure, Except.pure] at h
          split at h
          · cases h
          · next c₂ hremove =>
            have hlive := removeBlocks_live hnd hremove
            have hin₁ : ∀ x ∈ c.ancestors (c.parent base), InTree c₁ x := fun x hx =>
              hw₁.live.mpr (hlive x hx)
            have hrun := removeBlocks_pruned (R := []) (H := c₁.heads) hw₁.key hnd (by simp)
              fun x hx => ⟨hin₁ x hx, Option.ne_none_iff_exists'.mp (hlive x hx)⟩
            rw [pruned_nil, List.append_nil, hremove] at hrun
            have hbase : InTree c base := hw.live.mpr (by
              rw [hframe]
              exact Option.some_ne_none frame)
            refine ⟨(c.ancestors (c.parent base)).reverse, hbase, fun x hx =>
              hsame.inTree_iff.mp (hin₁ x (List.mem_reverse.mp hx)), fun x => ?_, frame, ?_⟩
            · rw [List.mem_reverse]
              cases hp : c.parent base with
              | none => simp [ancestors]
              | some p =>
                have hlt : p < c.nextBlock := Nat.lt_trans (hw.parent_lt base p hp)
                  (hw.lt_next hbase)
                simp only [ancestors, Option.some.injEq, exists_eq_left']
                exact mem_chain_iff hw.parent_lt hlt
            · obtain ⟨size, hsize⟩ := adjustBatchSize_eq
                (rebased c base frame (c.ancestors (c.parent base)).reverse) env.runTime
              have heq : c' = (rebased c base frame
                  (c.ancestors (c.parent base)).reverse).adjustBatchSize env.runTime := by
                rw [Except.ok.inj hrun, ← hc₁] at h
                exact (Except.ok.inj h).symm
              rw [heq, hsize]
              exact ⟨rfl, rfl, rfl, rfl, fun _ ho => .inl ho⟩

theorem SameTree.rebased (h : SameTree c c') (base frame : Nat) (R : List Nat) :
    SameTree (rebased c base frame R) (rebased c' base frame R) where
  com := h.com
  blocks := by
    simp only [Spec.ForkedChain.rebased, Spec.ForkedChain.pruned, finalize,
      modifyBlock, persistFrame,
      writeCanonicalMappings, ForkedChainRef.hash, h.blocks]
  nextBlock := h.nextBlock
  hashToBlock := by
    simp only [Spec.ForkedChain.rebased, Spec.ForkedChain.pruned, finalize,
      modifyBlock, persistFrame,
      writeCanonicalMappings, h.hashToBlock]
  orphan := h.orphan

theorem MovesBase.of_sameTree {c₁ : ForkedChainRef} {base : Nat} {R : List Nat}
    (hm : MovesBase c₁ c' base R) (h : SameTree c c₁) : MovesBase c c' base R where
  base_mem := h.inTree_iff.mp hm.base_mem
  inTree x hx := h.inTree_iff.mp (hm.inTree x hx)
  mem_iff x := by
    rw [← h.parent]
    exact hm.mem_iff x
  rest := by
    obtain ⟨frame, hrest⟩ := hm.rest
    exact ⟨frame, (h.rebased base frame R).trans hrest⟩

theorem processUpdateBase_moves {env : Env} (hw : Wired n₀ c)
    (h : c.processUpdateBase env = .ok c') : SameTree c c' ∨ ∃ base R, MovesBase c c' base R := by
  simp only [processUpdateBase, bind, Except.bind, pure, Except.pure] at h
  have hdone : ∀ c₁ : ForkedChainRef,
      (if c₁.baseQueue = [] then .ok c₁
        else .ok { c₁ with queue := c₁.queue ++ [.processUpdateBase] } :
          Except Defect ForkedChainRef) = .ok c' →
      SameTree c₁ c' := by
    intro c₁ hc₁
    split at hc₁
    · cases hc₁
      exact SameTree.refl _
    · cases hc₁
      exact ⟨rfl, rfl, rfl, rfl, fun _ ho => .inl ho⟩
  cases hq : c.baseQueue with
  | nil =>
    simp only [hq, if_true] at h
    cases h
    exact .inl (SameTree.refl _)
  | cons base rest =>
    rw [hq] at h
    simp only at h
    have hpop : SameTree c { c with baseQueue := rest } :=
      ⟨rfl, rfl, rfl, rfl, fun _ ho => .inl ho⟩
    split at h
    · cases h
    · next c₁ hbase =>
      have hafter := hdone c₁ h
      rcases updateBase_moves (hw.sameTree hpop) hbase with heq | ⟨R, hm⟩
      · rw [heq] at hafter
        exact .inl (hpop.trans hafter)
      · have hm' := hm.of_sameTree hpop
        obtain ⟨frame, hrest⟩ := hm'.rest
        exact .inr ⟨base, R, hm'.base_mem, hm'.inTree, hm'.mem_iff, frame,
          hrest.trans hafter⟩

/-- The step runs a queued base update. -/
def RunsBaseUpdate (c : ForkedChainRef) (e : Event) : Prop :=
  ∃ i, e = .handle i ∧ c.queue[i]? = some .processUpdateBase

/-- A sequence of moves, or a base update that moves the base. -/
def Moved (s s' : ChainNode) (e : Event) : Prop :=
  (Moves (∃ headHash, e = .setHead headHash) s s' ∧
    (RunsBaseUpdate s.chain e → SameTree s.chain s'.chain)) ∨
  (RunsBaseUpdate s.chain e ∧ s'.db = s.db ∧
    ∃ base R, MovesBase s.chain s'.chain base R)

theorem step_moves {s s' : ChainNode} {env : Env} {e : Event} (hw : Wired n₀ s.chain)
    (h : s.step env e = .ok s') : Moved s s' e := by
  have hno : ∀ {e : Event}, (∀ i, e ≠ .handle i) → ¬ RunsBaseUpdate s.chain e := by
    rintro e hne ⟨i, heq, -⟩
    exact hne i heq
  cases e with
  | importBlock blk finalized =>
    obtain ⟨r, hrun, h⟩ := except_bind_ok.mp h
    cases h
    exact .inl ⟨importBlock_moves hw hrun, fun hr => absurd hr (hno (by simp))⟩
  | forkChoice headHash finalizedHash safeHash =>
    obtain ⟨r, hrun, h⟩ := except_bind_ok.mp h
    cases h
    exact .inl ⟨(forkChoice_quiet hrun).moves, fun hr => absurd hr (hno (by simp))⟩
  | setHead headHash =>
    obtain ⟨r, hrun, h⟩ := except_bind_ok.mp h
    cases h
    have hd : (∃ h, Event.setHead headHash = .setHead h) = True := by simp
    unfold Moved
    rw [hd]
    exact .inl ⟨(setHead_quiet hrun).moves, fun hr => absurd hr (hno (by simp))⟩
  | handle i =>
    simp only [ChainNode.step, ChainNode.handleQueueItem] at h
    cases hitem : s.chain.queue[i]? with
    | none =>
      rw [hitem] at h
      cases h
      exact .inl ⟨.refl, fun _ => SameTree.refl _⟩
    | some item =>
      rw [hitem] at h
      have hsame : SameTree s.chain { s.chain with queue := s.chain.queue.eraseIdx i } :=
        ⟨rfl, rfl, rfl, rfl, fun _ ho => .inl ho⟩
      cases item with
      | processUpdateBase =>
        simp only [bind, Except.bind, pure, Except.pure] at h
        split at h
        · cases h
        · next c₁ hrun =>
          cases h
          rcases processUpdateBase_moves (hw.sameTree hsame) hrun with hrest | ⟨base, R, hm⟩
          · exact .inl ⟨Moves.relabel .refl (hsame.trans hrest), fun _ => hsame.trans hrest⟩
          · exact .inr ⟨⟨i, rfl, hitem⟩, rfl, base, R, hm.of_sameTree hsame⟩
      | processOrphan parent finalized =>
        have hmoved : Moves (∃ h, Event.handle i = .setHead h)
            ⟨{ s.chain with queue := s.chain.queue.eraseIdx i }, s.db⟩ s' :=
          processOrphan_moves (hw.sameTree hsame) h
        refine .inl ⟨(Moves.relabel .refl hsame).trans hmoved, ?_⟩
        rintro ⟨j, heq, hj⟩
        cases heq
        rw [hitem] at hj
        cases hj

/-! ## The tree after a move of the base -/

section After

variable {base : Nat} {R : List Nat}

section

variable (hm : MovesBase c c' base R) {x : Nat}
include hm

theorem MovesBase.base_not_mem (hw : Wired n₀ c) : base ∉ R := by
  intro h
  obtain ⟨p, hp, hanc⟩ := (hm.mem_iff base).mp h
  exact Nat.lt_irrefl _ (Nat.lt_of_le_of_lt (Anc.le hw.parent_lt hanc) (hw.parent_lt base p hp))

theorem MovesBase.com : c'.com = c.com := by
  obtain ⟨frame, hrest⟩ := hm.rest
  exact hrest.com

theorem MovesBase.inTree_iff (hw : Wired n₀ c) : InTree c' x ↔ InTree c x ∧ x ∉ R := by
  obtain ⟨frame, hrest⟩ := hm.rest
  rw [hrest.inTree_iff, inTree_rebased_iff (hm.base_not_mem hw)]

theorem MovesBase.hashToBlock (h : Hash32) :
    c'.hashToBlock h = (c.hashToBlock h).filter (· ∉ R) := by
  obtain ⟨frame, hrest⟩ := hm.rest
  rw [hrest.hashToBlock]
  rfl

theorem MovesBase.hash (hw : Wired n₀ c) (x : Nat) : c'.hash x = c.hash x := by
  obtain ⟨frame, hrest⟩ := hm.rest
  rw [hrest.hash, rebased_hash (hm.base_not_mem hw)]

theorem MovesBase.header (hw : Wired n₀ c) (hx : x ∉ R) :
    (c'.blocks x).header = (c.blocks x).header := by
  obtain ⟨frame, hrest⟩ := hm.rest
  rw [hrest.blocks, rebased_header (hm.base_not_mem hw) hx]

theorem MovesBase.parent_base (hw : Wired n₀ c) : c'.parent base = none := by
  obtain ⟨frame, hrest⟩ := hm.rest
  rw [hrest.parent, rebased_parent_base (hm.base_not_mem hw)]

theorem MovesBase.parent (hx : x ≠ base) : c'.parent x = if x ∈ R then none else c.parent x := by
  obtain ⟨frame, hrest⟩ := hm.rest
  rw [hrest.parent, rebased_parent hx]

theorem MovesBase.finalized (hw : Wired n₀ c) (hx : Finalized c x) : Finalized c' x := by
  obtain ⟨frame, hrest⟩ := hm.rest
  unfold Finalized
  rw [hrest.blocks]
  exact (finalized_rebased_iff (hm.base_not_mem hw)).mpr (.inr hx)

end

theorem Wired.movesBase (hw : Wired n₀ c) (hm : MovesBase c c' base R) : Wired n₀ c' := by
  have hmem := fun {x} => hm.inTree_iff hw (x := x)
  have hframe : ∀ x, c'.txFrame x = if x ∈ R then none else c.txFrame x := by
    intro x
    obtain ⟨frame, hrest⟩ := hm.rest
    rw [hrest.txFrame, rebased_txFrame (hm.base_not_mem hw)]
  have hparent : ∀ {x p}, c'.parent x = some p → x ∉ R ∧ c.parent x = some p := by
    intro x p hp
    by_cases hx : x = base
    · rw [hx, hm.parent_base hw] at hp
      cases hp
    · rw [hm.parent hx] at hp
      split at hp
      · cases hp
      · next hxR => exact ⟨hxR, hp⟩
  constructor
  · intro h b hb
    rw [hm.hashToBlock, Option.filter_eq_some_iff] at hb
    rw [hm.hash hw, hw.key hb.1]
  · intro b
    rw [hmem, hframe]
    by_cases hb : b ∈ R
    · simp [hb]
    · simp [hb, hw.live]
  · intro b hb
    obtain ⟨frame, hrest⟩ := hm.rest
    rw [hrest.nextBlock]
    exact hw.lt_next (hmem.mp hb).1
  · intro b hb
    by_cases hx : b = base
    · rw [hx]
      exact hm.parent_base hw
    · rw [hm.parent hx]
      split
      · rfl
      · next hbR => exact hw.gone fun hb' => hb (hmem.mpr ⟨hb', hbR⟩)
  · intro b hb
    obtain ⟨hb', hbR⟩ := hmem.mp hb
    rw [hm.hash hw, hm.header hw hbR, hm.com]
    exact hw.hash_eq hb'
  · intro b p hp
    exact hw.parent_lt b p (hparent hp).2
  · intro b p hp
    obtain ⟨hbR, hp'⟩ := hparent hp
    rw [hm.header hw hbR, hm.hash hw]
    exact hw.parentHash hp'
  · intro b hb
    obtain ⟨hb', hbR⟩ := hmem.mp hb
    have hge := hw.number_ge hb'
    unfold ForkedChainRef.number at hge ⊢
    rw [hm.header hw hbR]
    exact hge
  · obtain ⟨frame, hrest⟩ := hm.rest
    intro o ho
    rcases hrest.orphan o ho with hmem' | heq
    · exact hw.orphan o hmem'
    · exact heq

end After

end Nimbus.Spec.ForkedChain
