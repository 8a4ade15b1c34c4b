import Nimbus.Native.ChainDb
import Nimbus.Spec.ForkedChainImport

/-!
# The block tree with its store

The handlers of `ChainNode` move the block tree exactly as those of `ForkedChainRef` do, as
long as the header and the score of every block of the tree are in the store.
-/

namespace Nimbus.Spec.ForkedChain

open Nimbus.Native.ForkedChain ForkedChainRef Function

/-! ## Forgetting the store -/

theorem finalizeLoop_chain (fuel : Nat) (s : ChainNode) (it : BlockRef) :
    (·.chain) <$> ChainNode.finalizeLoop fuel s it =
      finalizeLoop fuel s.chain it := by
  induction fuel generalizing s it with
  | zero => rfl
  | succ fuel ih =>
    simp only [ChainNode.finalizeLoop, finalizeLoop]
    split
    · cases hp : s.chain.parent it with
      | none => rfl
      | some next => exact ih _ _
    · rfl

theorem removeBranch_chain (fuel : Nat) (s : ChainNode) (it : BlockRef) :
    (·.chain) <$> ChainNode.removeBranch fuel s it =
      removeBranch fuel s.chain it := by
  induction fuel generalizing s it with
  | zero => rfl
  | succ fuel ih =>
    simp only [ChainNode.removeBranch, removeBranch]
    split
    · split
      · rfl
      · cases s.chain.removeBlockFromCache it with
        | error d => rfl
        | ok c =>
          cases hp : s.chain.parent it with
          | none => rfl
          | some next => exact ih _ _
    · rfl

theorem pruneHeads_chain (fin : BlockRef) (fuel i : Nat) (s : ChainNode) (latest : Bool) :
    (fun r => (r.1.chain, r.2)) <$> ChainNode.pruneHeads fin fuel i s latest =
      pruneHeads fin fuel i s.chain latest := by
  induction fuel generalizing i s latest with
  | zero => rfl
  | succ fuel ih =>
    simp only [ChainNode.pruneHeads, pruneHeads]
    cases hhead : s.chain.heads[i]? with
    | none => rfl
    | some head =>
      simp only
      split
      · exact ih _ _ _
      · have hbranch := removeBranch_chain s.chain.nextBlock s head
        cases hrun : ChainNode.removeBranch s.chain.nextBlock s head with
        | error d =>
          rw [hrun] at hbranch
          rw [← hbranch]
          rfl
        | ok s₁ =>
          rw [hrun] at hbranch
          rw [← hbranch]
          exact ih _ _ _

variable (s : ChainNode)

theorem updateFinalized_chain (finalized fcuHead : BlockRef) :
    (·.chain) <$> s.updateFinalized finalized fcuHead =
      s.chain.updateFinalized finalized fcuHead := by
  simp only [ChainNode.updateFinalized, updateFinalized]
  have hloop := finalizeLoop_chain s.chain.nextBlock s finalized
  cases hrun : ChainNode.finalizeLoop s.chain.nextBlock s finalized with
  | error d =>
    rw [hrun] at hloop
    rw [← hloop]
    rfl
  | ok s₁ =>
    rw [hrun] at hloop
    rw [← hloop]
    simp only [Functor.map, Except.map, bind, Except.bind, pure, Except.pure]
    by_cases hone : s₁.chain.heads.length = 1
    · simp only [if_pos hone]
    · have hprune := pruneHeads_chain finalized s₁.chain.heads.length 0 s₁ false
      simp only [if_neg hone]
      cases hrun' : ChainNode.pruneHeads finalized s₁.chain.heads.length 0 s₁ false with
      | error d =>
        rw [hrun'] at hprune
        rw [← hprune]
        rfl
      | ok r =>
        obtain ⟨s₂, updateLatest⟩ := r
        rw [hrun'] at hprune
        rw [← hprune]
        cases updateLatest with
        | false => rfl
        | true =>
          simp only [Functor.map, Except.map, if_true]
          cases s₂.chain.candidate fcuHead <;> rfl

theorem forwardBase_chain : (·.chain) <$> s.forwardBase = s.chain.forwardBase := by
  simp only [ChainNode.forwardBase, forwardBase]
  split
  · cases s.chain.calculateNewBase s.chain.latestFinalized.number s.chain.latest with
    | error d => rfl
    | ok base =>
      have hfin := updateFinalized_chain s (s.chain.finalizedFrontier base) s.chain.latest
      simp only [bind, Except.bind]
      cases hrun : s.updateFinalized (s.chain.finalizedFrontier base) s.chain.latest with
      | error d =>
        rw [hrun] at hfin
        rw [← hfin]
        rfl
      | ok s₁ =>
        rw [hrun] at hfin
        rw [← hfin]
        simp only [Functor.map, Except.map]
        cases s₁.chain.queueUpdateBase base with
        | error d => rfl
        | ok c =>
          by_cases hback : c.number c.base > s.chain.number s.chain.base ∧
              c.fcuHead.number < c.number c.base
          · simp only [if_pos hback]
            rfl
          · simp only [if_neg hback]
            rfl
  · rfl

theorem forkChoice_chain (headHash finalizedHash safeHash : Hash32) :
    (fun r => (r.1.chain, r.2)) <$> s.forkChoice headHash finalizedHash safeHash =
      s.chain.forkChoice headHash finalizedHash safeHash := by
  unfold ChainNode.forkChoice forkChoice
  extract_lets c c₁ c₂ d₁ d₂
  have hd : d₂ = c₂ := rfl
  rw [hd]
  clear_value c₂
  by_cases hsame : headHash = c₂.hash c₂.latest ∧ finalizedHash = zeroHash32
  · simp only [if_pos hsame]
    rfl
  simp only [if_neg hsame]
  cases c₂.findHeadPos headHash with
  | error e => rfl
  | ok head =>
    by_cases hzero : finalizedHash = zeroHash32
    · simp only [if_pos hzero]
      rfl
    simp only [if_neg hzero]
    cases (c₂.updateHead head).findFinalizedPos finalizedHash head with
    | error e => rfl
    | ok finalized =>
      have hfin := updateFinalized_chain ⟨c₂.updateHead head, s.db⟩ finalized head
      simp only [bind, Except.bind] at hfin ⊢
      cases hrun : ChainNode.updateFinalized ⟨c₂.updateHead head, s.db⟩ finalized head with
      | error d =>
        rw [hrun] at hfin
        rw [← hfin]
        rfl
      | ok s₁ =>
        rw [hrun] at hfin
        rw [← hfin]
        simp only [Functor.map, Except.map]
        cases s₁.chain.calculateNewBase (s₁.chain.number finalized) head with
        | error d => rfl
        | ok base =>
          by_cases hle : s₁.chain.number base ≤ s₁.chain.number s₁.chain.base
          · simp only [if_pos hle]
            rfl
          simp only [if_neg hle]
          by_cases habove : s₁.chain.number finalized > s₁.chain.number head
          · simp only [if_pos habove]
          simp only [if_neg habove]
          by_cases hbase : s₁.chain.number base > s₁.chain.number finalized
          · simp only [if_pos hbase]
          simp only [if_neg hbase]
          cases s₁.chain.queueUpdateBase base <;> rfl

/-- The store has the header and the score of a block. -/
def Recorded (db : BlockDb) (hash : Hash32) : Prop :=
  db.header hash = true ∧ db.score hash = true

theorem persistHeader_of_recorded {db : BlockDb} {header : Header} (hash : Hash32)
    (h : Recorded db header.parentHash) :
    db.persistHeader hash header =
      ({ db with
        header := update db.header hash true
        score := update db.score hash true }, true) := by
  simp [BlockDb.persistHeader, h.1, h.2]

theorem forBodies_header (g : BodyEntry → BodyEntry) (db : BlockDb) (header : Header) :
    (db.forBodies g header).header = db.header ∧ (db.forBodies g header).score = db.score ∧
      (db.forBodies g header).startOfHistory = db.startOfHistory := by
  unfold BlockDb.forBodies
  induction bodyData header generalizing db with
  | nil => exact ⟨rfl, rfl, rfl⟩
  | cons key keys ih => exact ih (db.modifyBody g key)

theorem storeBlock_of_recorded {db : BlockDb} {blk : Block} (hash : Hash32)
    (h : Recorded db blk.header.parentHash) :
    db.storeBlock blk hash =
      (BlockDb.writeBaggage { db.writeBlockOwnershipData blk.header hash with
        header := update db.header hash true
        score := update db.score hash true } blk.header, true) := by
  obtain ⟨hheader, hscore, _⟩ := forBodies_header (BodyEntry.retain hash) db blk.header
  have hrec : Recorded (db.writeBlockOwnershipData blk.header hash) blk.header.parentHash := by
    unfold Recorded BlockDb.writeBlockOwnershipData
    rw [hheader, hscore]
    exact h
  unfold BlockDb.storeBlock
  simp only [persistHeader_of_recorded hash hrec]
  unfold BlockDb.writeBlockOwnershipData
  rw [hheader, hscore]

theorem validateBlock_chain (env : Env) (parent : BlockRef) (blk : Block)
    (finalized : Bool) (hrec : Recorded s.db blk.header.parentHash) :
    (fun r => (r.1.chain, r.2)) <$> s.validateBlock env parent blk finalized =
      s.chain.validateBlock env parent blk finalized := by
  simp only [ChainNode.validateBlock, validateBlock]
  cases s.chain.hashToBlock (s.chain.com.computeBlockHash blk.header) with
  | some existingBlock => rfl
  | none =>
    generalize (if s.chain.com.computeBlockHash blk.header = s.chain.pendingFCU then _
      else _ : ForkedChainRef) = c₁
    cases c₁.txFrameBegin (c₁.txFrame parent) with
    | error d => rfl
    | ok r =>
      obtain ⟨c, txFrame⟩ := r
      simp only [bind, Except.bind, ChainNode.processBlock, storeBlock_of_recorded _ hrec]
      by_cases hpass : processBlock env (c.blocks parent).header blk finalized
      · simp only [if_pos hpass]
        generalize hs : (⟨_, _⟩ : ChainNode) = s'
        have hfwd := forwardBase_chain s'
        have hc : s'.chain = (c.appendBlock parent blk (s.chain.com.computeBlockHash blk.header)
            txFrame).1 := by
          rw [← hs]
        rw [← hc]
        cases hrun : s'.forwardBase with
        | error d =>
          rw [hrun] at hfwd
          rw [← hfwd]
          rfl
        | ok s₁ =>
          rw [hrun] at hfwd
          rw [← hfwd]
          rfl
      · simp only [if_neg hpass]
        rfl

theorem processOrphan_chain (env : Env) (parent : BlockRef) (finalized : Bool)
    (hrec : s.chain.txFrame parent ≠ none → ∀ found,
      s.chain.orphans.find? (·.1 == s.chain.hash parent) = some found →
        Recorded s.db found.2.header.parentHash) :
    (·.chain) <$> s.processOrphan env parent finalized =
      s.chain.processOrphan env parent finalized := by
  simp only [ChainNode.processOrphan, processOrphan]
  by_cases hgone : s.chain.txFrame parent = none
  · simp only [if_pos hgone]
    rfl
  · simp only [if_neg hgone, popOrphan]
    cases hfind : s.chain.orphans.find? (·.1 == s.chain.hash parent) with
    | none => rfl
    | some found =>
      simp only [Option.map_some, bind, Except.bind]
      generalize hc : { s.chain with
        orphans := s.chain.orphans.filter (·.1 != s.chain.hash parent) } = c
      have hval := validateBlock_chain ⟨c, s.db⟩ env parent found.2 finalized
        (hrec hgone found hfind)
      cases hrun : ChainNode.validateBlock ⟨c, s.db⟩ env parent found.2 finalized with
      | error d =>
        rw [hrun] at hval
        rw [← hval]
        rfl
      | ok r =>
        obtain ⟨s₁, result⟩ := r
        rw [hrun] at hval
        rw [← hval]
        cases result <;> rfl

theorem importBlock_chain (env : Env) (blk : Block) (finalized : Bool)
    (hrec : ∀ parent, s.chain.hashToBlock blk.header.parentHash = some parent →
      Recorded s.db blk.header.parentHash) :
    (fun r => (r.1.chain, r.2)) <$> s.importBlock env blk finalized =
      s.chain.importBlock env blk finalized := by
  simp only [ChainNode.importBlock, importBlock]
  split
  · rfl
  · cases hparent : s.chain.hashToBlock blk.header.parentHash with
    | some parent =>
      have hval := validateBlock_chain s env parent blk
        (finalized || blk.header.number ≤ s.chain.latestFinalized.number) (hrec parent hparent)
      simp only [bind, Except.bind] at hval ⊢
      cases hrun : s.validateBlock env parent blk
          (finalized || blk.header.number ≤ s.chain.latestFinalized.number) with
      | error d =>
        rw [hrun] at hval
        rw [← hval]
        rfl
      | ok r =>
        obtain ⟨s₁, result⟩ := r
        rw [hrun] at hval
        rw [← hval]
        cases result <;> rfl
    | none =>
      simp only
      split
      · split <;> rfl
      · rfl

/-- The chain part of a step is the step of the chain part, where the parent of the block
that is about to be attached is in the store. -/
theorem step_chain (env : Env) (e : Event)
    (hrec : ∀ parent blk finalized, attempt s.chain e = some (parent, blk, finalized) →
      Recorded s.db blk.header.parentHash) :
    (·.chain) <$> s.step env e = step s.chain env e := by
  cases e with
  | importBlock blk finalized =>
    have himp := importBlock_chain s env blk finalized fun parent hparent =>
      hrec parent blk (finalized || blk.header.number ≤ s.chain.latestFinalized.number)
        (by simp only [attempt, hparent, Option.map_some])
    simp only [ChainNode.step, step]
    rw [← himp]
    cases s.importBlock env blk finalized <;> rfl
  | forkChoice headHash finalizedHash safeHash =>
    simp only [ChainNode.step, step]
    rw [← forkChoice_chain s headHash finalizedHash safeHash]
    cases s.forkChoice headHash finalizedHash safeHash <;> rfl
  | setHead headHash =>
    simp only [ChainNode.step, step]
    cases s.chain.setHead headHash <;> rfl
  | handle i =>
    simp only [ChainNode.step, step, ChainNode.handleQueueItem, handleQueueItem]
    cases hitem : s.chain.queue[i]? with
    | none => rfl
    | some item =>
      cases item with
      | processUpdateBase =>
        cases processUpdateBase _ env <;> rfl
      | processOrphan parent finalized =>
        refine processOrphan_chain _ env parent finalized fun hgone found hfind => ?_
        refine hrec parent found.2 finalized ?_
        have hgone' : ¬ s.chain.txFrame parent = none := hgone
        have hfind' : s.chain.orphans.find? (·.1 == s.chain.hash parent) = some found := hfind
        simp only [attempt, hitem, if_neg hgone', popOrphan, hfind',
          Option.map_some]

end Nimbus.Spec.ForkedChain
