import Nimbus.Spec.ForkedChainRuns

/-!
# What `setHead` leaves

`setHead` walks down from every head and removes the blocks off the lineage of the new head.
Branches that share a part meet it with the frame already gone, so each block is removed once.
The blocks that it removes, in their order, can be written down beside the loops.
-/

namespace Nimbus.Spec.ForkedChain

open Nimbus.Native.ForkedChain
open ParentTree ForkedChainRef

/-! ## The removed blocks -/

/-- The blocks that `discardBranch` removes, in this order. -/
def branchRemovals (keep : List Hash32) : Nat → ForkedChainRef → Option BlockRef → List BlockRef
  | 0, _, _ => []
  | _ + 1, _, none => []
  | fuel + 1, c, some it =>
    if c.hash it ∈ keep ∨ c.txFrame it = none then []
    else it :: match c.removeBlockFromCache it with
      | .ok c' => branchRemovals keep fuel c' (c.parent it)
      | .error _ => []

/-- The blocks that `discardBranches` removes, in this order. -/
def removals (keep : List Hash32) : ForkedChainRef → List BlockRef → List BlockRef
  | _, [] => []
  | c, branchHead :: heads =>
    branchRemovals keep c.nextBlock c (some branchHead) ++
      match discardBranch keep c.nextBlock c (some branchHead) with
      | .ok c' => removals keep c' heads
      | .error _ => []

section

variable {c c' : ForkedChainRef} {keep : List Hash32}

theorem removeBlocks_append {xs ys : List BlockRef} :
    removeBlocks c (xs ++ ys) = (do
      let c ← removeBlocks c xs
      removeBlocks c ys) := by
  induction xs generalizing c with
  | nil => rfl
  | cons x xs ih =>
    show (c.removeBlockFromCache x >>= _) = (c.removeBlockFromCache x >>= _) >>= _
    rw [bind_assoc]
    congr 1
    funext c₁
    exact ih

theorem discardBranch_eq_removeBlocks {fuel : Nat} {it : Option BlockRef} :
    discardBranch keep fuel c it =
      removeBlocks c (branchRemovals keep fuel c it) := by
  induction fuel generalizing c it with
  | zero => rfl
  | succ fuel ih =>
    cases it with
    | none => rfl
    | some it =>
      unfold discardBranch branchRemovals
      by_cases hstop : c.hash it ∈ keep ∨ c.txFrame it = none
      · rw [if_pos hstop, if_pos hstop]
        rfl
      · rw [if_neg hstop, if_neg hstop]
        show (c.removeBlockFromCache it >>= _) = (c.removeBlockFromCache it >>= _)
        cases c.removeBlockFromCache it with
        | error e => rfl
        | ok c₁ => exact ih

/-- The loops over the branches remove these blocks, one after the other, and nothing else. -/
theorem discardBranches_eq_removeBlocks {heads : List BlockRef} :
    discardBranches keep c heads =
      removeBlocks c (removals keep c heads) := by
  induction heads generalizing c with
  | nil => rfl
  | cons branchHead heads ih =>
    unfold discardBranches removals
    rw [removeBlocks_append, ← discardBranch_eq_removeBlocks]
    cases discardBranch keep c.nextBlock c (some branchHead) with
    | error e => rfl
    | ok c₁ => exact ih

/-- Blocks can only be removed one after the other when they are different blocks of the
tree. -/
theorem removeBlocks_inv (hl : Linked c) {R H L : List Nat}
    (h : removeBlocks (pruned c R H) L = .ok c') :
    L.Nodup ∧ (∀ x ∈ L, InTree c x ∧ x ∉ R) ∧ c' = pruned c (L.reverse ++ R) H := by
  induction L generalizing R with
  | nil =>
    cases h
    exact ⟨List.nodup_nil, by simp, rfl⟩
  | cons b L ih =>
    simp only [removeBlocks] at h
    by_cases hgone : (pruned c R H).txFrame b = none
    · -- the nil frame of a removed block
      simp only [removeBlockFromCache, hgone] at h
      cases h
    · rw [pruned_txFrame] at hgone
      have hbR : b ∉ R := fun hb => hgone (if_pos hb)
      rw [if_neg hbR] at hgone
      have hb := hl.inTree_of_txFrame hgone
      obtain ⟨f, hf, _⟩ := hl.live hb
      rw [removeBlockFromCache_pruned hl.key hb hf hbR] at h
      obtain ⟨hnd, hmem, hc'⟩ := ih h
      refine ⟨List.nodup_cons.mpr ⟨fun hbL => ?_, hnd⟩, fun x hx => ?_, ?_⟩
      · exact (hmem b hbL).2 List.mem_cons_self
      · rcases List.mem_cons.mp hx with rfl | hx
        · exact ⟨hb, hbR⟩
        · exact ⟨(hmem x hx).1, fun hxR => (hmem x hx).2 (.tail _ hxR)⟩
      · rw [hc', List.reverse_cons, List.append_assoc]
        rfl

end

/-! ## The new head -/

/-- The hashes of the lineage of `head`. -/
def lineageHashes (c : ForkedChainRef) (head : BlockRef) : List Hash32 :=
  (c.ancestors (some head)).map c.hash

/-- `c'` is `c` cut down to the lineage of `head`. -/
structure HeadSet (c c' : ForkedChainRef) (head : BlockRef) : Prop where
  survivors : ∀ b, InTree c' b ↔ b ∈ c.ancestors (some head)
  unchanged : ∀ b, InTree c' b → c'.blocks b = c.blocks b
  base : c'.base = c.base ∧ InTree c' c'.base
  heads : c'.heads = [head]
  latest : c'.latest = head
  fcuHead : c'.fcuHead = { hash := c.hash head, number := c.number head }
  finalized : ∀ b, InTree c b → Finalized c b → InTree c' b ∧ Finalized c' b
  /-- the blocks that are missing were removed once, and nothing else was -/
  nodup : (removals (lineageHashes c head) c c.heads).Nodup
  removed : ∀ b, b ∈ removals (lineageHashes c head) c c.heads ↔ InTree c b ∧ ¬ InTree c' b
  /-- each of them had a live frame of its own, which is disposed -/
  disposed : ∀ b ∈ removals (lineageHashes c head) c c.heads, ∃ f, c.txFrame b = some f ∧
    (c.frames f).disposed = false ∧ (c'.frames f).disposed = true ∧
    ∀ b' ∈ removals (lineageHashes c head) c c.heads, c.txFrame b' = some f → b' = b
  frames : ∀ f, (∀ b ∈ removals (lineageHashes c head) c c.heads, c.txFrame b ≠ some f) →
    c'.frames f = c.frames f

section

variable {c : ForkedChainRef} {head : BlockRef}

/-- Cutting the tree down to the lineage of `head` block by block. -/
theorem headSet_pruned (hi : Inv c) (hhead : InTree c head) (hon : OnTop c head)
    {L : List BlockRef} (hL : removals (lineageHashes c head) c c.heads = L) (hnd : L.Nodup)
    (hmem : ∀ b, b ∈ L ↔ InTree c b ∧ ¬ Anc c.parent head b) (s : FcuHashAndNumber) :
    HeadSet c { updateHead { pruned c L.reverse [head] with latest := head } head
      with fcuSafe := s } head := by
  have hl := hi.linked
  generalize hc' : ({ updateHead { pruned c L.reverse [head] with latest := head }
    head with fcuSafe := s } : ForkedChainRef) = c'
  have hblocks : c'.blocks = (pruned c L.reverse [head]).blocks := by
    rw [← hc']
    rfl
  have hframes : c'.frames = (pruned c L.reverse [head]).frames := by
    rw [← hc']
    rfl
  have htree (b : BlockRef) : InTree c' b ↔ InTree c b ∧ b ∉ L := by
    rw [← List.mem_reverse, ← inTree_pruned_iff (H := [head]), ← hc']
    rfl
  have hanc (b : BlockRef) : InTree c' b ↔ Anc c.parent head b := by
    rw [htree, hmem]
    constructor
    · rintro ⟨hb, hno⟩
      by_contra hnot
      exact hno ⟨hb, hnot⟩
    · intro h
      exact ⟨hl.inTree_anc hhead h, fun hno => hno.2 h⟩
  refine ⟨fun b => ?_, fun b hb => ?_, ⟨?_, ?_⟩, ?_, ?_, ?_, fun b hb hfin => ⟨?_, ?_⟩, ?_,
    fun b => ?_, fun b hb => ?_, fun f hf => ?_⟩
  · rw [hanc, hl.mem_ancestors hhead]
  · rw [hblocks, pruned_blocks_of_not_mem]
    exact fun h => ((htree b).mp hb).2 (List.mem_reverse.mp h)
  · rw [← hc']
    rfl
  · have hbase : c'.base = c.base := by
      rw [← hc']
      rfl
    rw [hbase]
    exact (hanc _).mpr (hl.anc_base hhead)
  · rw [← hc']
    rfl
  · rw [← hc']
    rfl
  · have hheadL : head ∉ L.reverse := by
      rw [List.mem_reverse, hmem]
      exact fun h => h.2 (Anc.refl _)
    rw [← hc', ← pruned_number_of_not_mem (H := [head]) hheadL,
      ← pruned_hash (R := L.reverse) (H := [head])]
    rfl
  · exact (hanc b).mpr (hon b hb hfin)
  · unfold Finalized
    rw [hblocks]
    exact finalized_pruned_iff.mpr hfin
  · rw [hL]
    exact hnd
  · rw [hL, hanc, hmem]
  · rw [hL] at hb ⊢
    obtain ⟨hbt, _⟩ := (hmem b).mp hb
    obtain ⟨f, hf, _, hlive⟩ := hl.live hbt
    refine ⟨f, hf, hlive, ?_, fun b' hb' hf' => hl.frame_inj ((hmem b').mp hb').1 hbt hf' hf⟩
    have hex : ∃ x ∈ L.reverse, c.txFrame x = some f := ⟨b, List.mem_reverse.mpr hb, hf⟩
    rw [hframes]
    simp only [pruned, if_pos hex]
  · rw [hL] at hf
    have hno : ¬ ∃ x ∈ L.reverse, c.txFrame x = some f := by
      rintro ⟨x, hx, hxf⟩
      exact hf x (List.mem_reverse.mp hx) hxf
    rw [hframes]
    simp only [pruned, if_neg hno]

/-- With an error nothing has changed. Without one the tree is cut down to the lineage of the
new head. -/
theorem setHead_exact (hi : Inv c) (headHash : Hash32) :
    ∃ c' r, c.setHead headHash = .ok (c', r) ∧ (∀ e, r = .error e → c' = c) ∧
      (r = .ok () → ∃ head, c.hashToBlock headHash = some head ∧ HeadSet c c' head) := by
  have hl := hi.linked
  unfold setHead
  cases hpos : c.findHeadPos headHash with
  | error e => exact ⟨c, _, rfl, fun _ _ => rfl, nofun⟩
  | ok head =>
    have hhead := findHeadPos_spec hl hpos
    have hlookup : c.hashToBlock headHash = some head := by
      unfold findHeadPos at hpos
      cases hb : c.hashToBlock headHash with
      | none =>
        rw [hb] at hpos
        cases hpos
      | some b =>
        rw [hb] at hpos
        cases hpos
        rfl
    have hkeep : Keeps c head (lineageHashes c head) := keeps_ancestors hl hhead
    have hhashes : (c.ancestors (some head)).map c.hash = lineageHashes c head := rfl
    dsimp only
    rw [hhashes]
    cases hdis : c.discardedFinalized (lineageHashes c head) with
    | some it => exact ⟨c, _, rfl, fun _ _ => rfl, nofun⟩
    | none =>
      have hon := onTop_of_discardedFinalized hi hkeep hdis
      obtain ⟨R, hrun, hR, _, hall⟩ := discardBranches_spec (R := []) (H := c.heads) hl hhead hkeep
        (fun h hh => hi.heads.inTree hh) ⟨by simp, by simp⟩
      -- the same blocks, in the order of their removal
      rw [pruned_nil] at hrun
      generalize hL : removals (lineageHashes c head) c c.heads = L
      have hremove : removeBlocks (pruned c [] c.heads) L =
          .ok (pruned c R c.heads) := by
        rw [pruned_nil, ← hL, ← discardBranches_eq_removeBlocks, hrun]
      obtain ⟨hnd, hLt, hsame⟩ := removeBlocks_inv hl hremove
      rw [List.append_nil] at hsame
      have hmem (b : BlockRef) : b ∈ L ↔ InTree c b ∧ ¬ Anc c.parent head b := by
        have hpruned : InTree c b ∧ b ∉ R ↔ InTree c b ∧ b ∉ L.reverse := by
          rw [← inTree_pruned_iff (H := c.heads), hsame, inTree_pruned_iff]
        rw [List.mem_reverse] at hpruned
        constructor
        · intro hb
          have hbt := (hLt b hb).1
          refine ⟨hbt, (hR.mem_iff hi hall hbt).mp ?_⟩
          by_contra hbR
          exact (hpruned.mp ⟨hbt, hbR⟩).2 hb
        · rintro ⟨hbt, hno⟩
          by_contra hbL
          exact (hpruned.mpr ⟨hbt, hbL⟩).2 ((hR.mem_iff hi hall hbt).mpr hno)
      have hset := headSet_pruned hi hhead hon hL hnd hmem
      rw [hrun, hsame]
      change ∃ c' r, (pure (if c.fcuSafe.number > (pruned c L.reverse [head]).number head then _
        else updateHead { pruned c L.reverse [head] with latest := head } head, _) :
          Except Defect _) = _ ∧ _
      by_cases hsafe : c.fcuSafe.number > (pruned c L.reverse [head]).number head
      · rw [if_pos hsafe]
        exact ⟨_, _, rfl, (fun _ h => nomatch h), fun _ => ⟨head, hlookup, hset _⟩⟩
      · rw [if_neg hsafe]
        exact ⟨_, _, rfl, (fun _ h => nomatch h), fun _ => ⟨head, hlookup, hset c.fcuSafe⟩⟩

end

/-! ## Runs -/

/-- In every state that a run of such steps reaches, `setHead` changes nothing or leaves
exactly the lineage of the requested block. -/
theorem run_setHead (com : CommonRef) (db : SavedState com) (baseDistance : Nat)
    (persistBatchSize : { size : Nat // size > 0 }) (dynamicBatchSize : Bool)
    (events : List (Env × Event)) (hok : RunOk InvStepOk
      (ForkedChainRef.init com db baseDistance persistBatchSize dynamicBatchSize) events)
    (c : ForkedChainRef)
    (hrun : run (ForkedChainRef.init com db baseDistance persistBatchSize dynamicBatchSize)
      events = .ok c) (headHash : Hash32) :
    ∃ c' r, c.setHead headHash = .ok (c', r) ∧ (∀ e, r = .error e → c' = c) ∧
      (r = .ok () → ∃ head, c.hashToBlock headHash = some head ∧ HeadSet c c' head) :=
  setHead_exact (run_inv hok hrun) headHash

theorem importFirst_runOk : RunOk InvStepOk sampleInit [sampleImport 1 0 0] := by
  refine ⟨⟨?_, ?_, ?_⟩, fun _ _ => trivial⟩
  · intro _ _ _ _ _ h
    cases h
  · intro parent blk hatt harm
    obtain ⟨rfl, rfl⟩ := attempt_importFirst hatt
    exact absurd harm (by unfold Armed; decide)
  · rintro ⟨i, h, _⟩
    cases h

/-- Back to the genesis block. -/
theorem run_setHead_importFirst : ∃ c, run sampleInit [sampleImport 1 0 0] = .ok c ∧
    ∃ c' r, c.setHead 1 = .ok (c', r) ∧ (∀ e, r = .error e → c' = c) ∧
      (r = .ok () → ∃ head, c.hashToBlock 1 = some head ∧ HeadSet c c' head) := by
  obtain ⟨c, hrun, -⟩ := exists_ok (r := run sampleInit [sampleImport 1 0 0])
    (P := fun _ => True) (by decide +kernel)
  exact ⟨c, hrun, run_setHead sampleCom sampleDb 3 ⟨1, Nat.zero_lt_one⟩ false
    [sampleImport 1 0 0] importFirst_runOk c hrun 1⟩

/-- Block 2 is finalized, and a second child of block 1 becomes the head of a fork choice that
names block 1 as finalized. -/
def uncovered : List (Env × Event) :=
  [sampleImport 1 0 0, sampleImport 2 0 0, sampleImport 3 0 0, (sampleEnv, .forkChoice 31 21 0),
    sampleImport 2 1 0, (sampleEnv, .forkChoice 22 11 0)]

/-- No head is above the finalized block any more, so `setHead` does not see it. It succeeds and
leaves the block in the tree. -/
theorem uncovered_survives : ¬ ∀ (com : CommonRef) (db : SavedState com) (baseDistance : Nat)
      (persistBatchSize : { size : Nat // size > 0 }) (dynamicBatchSize : Bool)
      (events : List (Env × Event)) (c : ForkedChainRef),
      run (ForkedChainRef.init com db baseDistance persistBatchSize dynamicBatchSize) events
        = .ok c → ∀ headHash c' r, c.setHead headHash = .ok (c', r) →
      (∀ e, r = .error e → c' = c) ∧
      (r = .ok () → ∃ head, c.hashToBlock headHash = some head ∧ HeadSet c c' head) := by
  intro hall
  obtain ⟨c, hrun, hend⟩ := exists_ok (r := run sampleInit uncovered)
    (P := fun c => (c.setHead 22).toOption.any (fun r => decide (r.2 = .ok () ∧ InTree r.1 2 ∧
      2 ∉ c.ancestors (c.hashToBlock 22))) = true) (by decide +kernel)
  obtain ⟨r, hset, hr, hin, hout⟩ := exists_ok hend
  have hclaim := hall sampleCom sampleDb 3 ⟨1, Nat.zero_lt_one⟩ false uncovered c hrun 22
  obtain ⟨head, hlookup, hhead⟩ := (hclaim r.1 r.2 hset).2 hr
  rw [hlookup] at hout
  exact hout ((hhead.survivors 2).mp hin)

end Nimbus.Spec.ForkedChain
