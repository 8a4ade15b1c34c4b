import Nimbus.ForStd.ExecM
import Nimbus.ForStd.StepRun
import Nimbus.Spec.ForkedChainHead

/-!
# Runs of `ForkedChainRef`

Any sequence of imports, fork choices, `setHead` calls and queued handlers, the latter in
any order. Three things can break the tree: a fork choice that names a block below one that
is finalized already while there are branches, an import that attaches a block below the
finalized ones, and a queued base that a block was attached below in the meantime. The
conditions on a step exclude these, and nothing else.
-/

namespace Nimbus.Spec.ForkedChain

open Nimbus.Native.ForkedChain
open ParentTree Function

/-! ## Steps -/

/-- With more than one branch, the finalized block that a fork choice resolves to is not
below, nor beside, a block that is finalized already. -/
def ForkChoiceOk (c : ForkedChainRef) (e : Event) : Prop :=
  ∀ headHash finalizedHash safeHash head fin,
    e = .forkChoice headHash finalizedHash safeHash → finalizedHash ≠ zeroHash32 →
    c.findHeadPos headHash = .ok head → c.findFinalizedPos finalizedHash head = .ok fin →
    TopFinalized c fin

/-- The step takes the next base from the queue. -/
def TakesBase (c : ForkedChainRef) (e : Event) : Prop :=
  ∃ i, e = .handle i ∧ c.queue[i]? = some .processUpdateBase

section

variable {c : ForkedChainRef}

/-- One step, under the conditions that keep the tree together. -/
theorem step_spec (hi : Inv c) (env : Env) (e : Event) (hfork : ForkChoiceOk c e)
    (hattach : ∀ parent blk, Attaches c env e parent blk → Armed c blk → OnTop c parent)
    (hbase : TakesBase c e → BaseStepOk c) :
    step c env e = .error .stateRootMismatch ∨
    ∃ c', step c env e = .ok c' ∧ Sound c c'
      (∀ parent blk, Attaches c env e parent blk → OnTop c parent)
      ((∀ parent blk, Attaches c env e parent blk → Armed c blk → FcuHeadSafe c parent blk) ∧
        (TakesBase c e → BaseStepBelowFcu c)) := by
  cases e with
  | importBlock blk finalized =>
    right
    obtain ⟨c', r, hrun, hs⟩ := importBlock_spec hi env blk finalized hattach
    refine ⟨c', ?_, hs.imp id And.left⟩
    change (·.1) <$> c.importBlock env blk finalized = _
    rw [hrun]
    rfl
  | forkChoice headHash finalizedHash safeHash =>
    right
    obtain ⟨c', r, hrun, hs⟩ := forkChoice_spec hi headHash finalizedHash safeHash
      fun head fin => hfork headHash finalizedHash safeHash head fin rfl
    refine ⟨c', ?_, hs.imp (fun _ => trivial) fun _ => trivial⟩
    change (·.1) <$> c.forkChoice headHash finalizedHash safeHash = _
    rw [hrun]
    rfl
  | setHead headHash =>
    right
    obtain ⟨c', r, hrun, hs⟩ := setHead_spec hi headHash
    refine ⟨c', ?_, hs.imp (fun _ => trivial) fun _ => trivial⟩
    change (·.1) <$> c.setHead headHash = _
    rw [hrun]
    rfl
  | handle i =>
    change c.handleQueueItem env i = _ ∨ ∃ c', c.handleQueueItem env i = _ ∧ _
    unfold ForkedChainRef.handleQueueItem
    cases hitem : c.queue[i]? with
    | none => exact .inr ⟨c, rfl, Sound.refl hi⟩
    | some item =>
      cases item with
      | processUpdateBase =>
        have htakes : TakesBase c (.handle i) := ⟨i, rfl, hitem⟩
        have hi' : Inv { c with queue := c.queue.eraseIdx i } := hi.congr rfl
        rcases processUpdateBase_spec hi' env (hbase htakes) with herr | ⟨c', hrun, hs⟩
        · exact .inl herr
        · refine .inr ⟨c', hrun, ?_⟩
          exact ⟨hs.inv, ⟨hs.settled.base_le, hs.settled.canonical, hs.settled.kept⟩,
            fun _ => hs.guarded trivial, fun h => hs.fcuHead (h.2 htakes)⟩
      | processOrphan parent finalized =>
        right
        obtain ⟨c', hrun, hs⟩ := processOrphan_spec hi env hitem (c.queue.eraseIdx i) hattach
        exact ⟨c', hrun, hs.imp id And.left⟩

end

/-- The step prunes no branch that it must keep, and the base does not move past one. -/
structure InvStepOk (c : ForkedChainRef) (env : Env) (e : Event) : Prop where
  forkChoice : ForkChoiceOk c e
  attach : ∀ parent blk, Attaches c env e parent blk → Armed c blk → OnTop c parent
  base : TakesBase c e → BaseStepOk c

variable {c : ForkedChainRef}

theorem InvStepOk.inv {c' : ForkedChainRef} {env : Env} {e : Event} (hok : InvStepOk c env e)
    (hi : Inv c) (h : step c env e = .ok c') : Inv c' := by
  rcases step_spec hi env e hok.forkChoice hok.attach hok.base with herr | ⟨c₁, hrun, hs⟩
  · rw [h] at herr
    cases herr
  · rw [h] at hrun
    cases hrun
    exact hs.inv

/-! ## The start -/

/-- A node starts with the block of the saved state as the whole tree. -/
theorem inv_init (com : CommonRef) (db : SavedState com) (baseDistance : Nat)
    (persistBatchSize : { size : Nat // size > 0 }) (dynamicBatchSize : Bool) :
    Inv (ForkedChainRef.init com db baseDistance persistBatchSize dynamicBatchSize) ∧
      FcuHeadInTree (ForkedChainRef.init com db baseDistance persistBatchSize dynamicBatchSize) ∧
      Guarded (ForkedChainRef.init com db baseDistance persistBatchSize dynamicBatchSize) := by
  generalize hc : ForkedChainRef.init com db baseDistance persistBatchSize dynamicBatchSize = c
  have hblocks : c.blocks = update (fun _ => {}) 0
      { header := db.baseHeader, txFrame := some 0, hash := db.baseHash, isFinalized := true } := by
    rw [← hc]
    rfl
  have hzero : c.blocks 0 =
      { header := db.baseHeader, txFrame := some 0, hash := db.baseHash, isFinalized := true } := by
    rw [hblocks, update_self]
  have hother : ∀ {b}, b ≠ 0 → c.blocks b = {} := by
    intro b hb
    rw [hblocks, update_of_ne hb]
  have hlookup : c.hashToBlock = update (fun _ => none) db.baseHash (some 0) := by
    rw [← hc]
    rfl
  have hsome : ∀ {h b}, c.hashToBlock h = some b → h = db.baseHash ∧ b = 0 := by
    intro h b hb
    rw [hlookup] at hb
    by_cases hh : h = db.baseHash
    · rw [hh, update_self] at hb
      exact ⟨hh, (Option.some.inj hb).symm⟩
    · rw [update_of_ne hh] at hb
      cases hb
  have hmem : ∀ {b}, InTree c b ↔ b = 0 := by
    intro b
    refine ⟨fun h => (hsome h).2, ?_⟩
    rintro rfl
    simp only [InTree, ForkedChainRef.hash, hzero, hlookup, update_self]
  have hparent : ∀ b, c.parent b = none := by
    intro b
    by_cases hb : b = 0
    · simp only [ForkedChainRef.parent, hb, hzero]
    · simp only [ForkedChainRef.parent, hother hb]
  have hbase : c.base = 0 := by rw [← hc]; rfl
  have hheads : c.heads = [0] := by rw [← hc]; rfl
  have hcom : c.com = com := by rw [← hc]; rfl
  have htx : c.txFrame 0 = some 0 := by simp only [ForkedChainRef.txFrame, hzero]
  have hfinal : Finalized c 0 := by simp only [Finalized, hzero]
  refine ⟨⟨⟨?_, ?_, ?_, ?_, ?_, ?_, ?_, ?_, ?_, ?_, ?_⟩, ⟨?_, ?_⟩, ⟨?_, ?_, ?_⟩,
    ?_, ?_, ?_, ?_⟩, ?_, ?_⟩
  · intro b hb
    rw [hmem.mp hb, ← hc]
    exact Nat.zero_lt_one
  · intro h b hb
    obtain ⟨rfl, rfl⟩ := hsome hb
    simp only [ForkedChainRef.hash, hzero]
  · intro b hb
    obtain rfl := hmem.mp hb
    simp only [ForkedChainRef.hash, hzero, hcom]
    rfl
  · intro i p hp
    rw [hparent] at hp
    cases hp
  · rw [hbase]
    exact hmem.mpr rfl
  · exact hparent _
  · rw [← hc]
    rfl
  · intro b hb hne
    exact absurd ((hmem.mp hb).trans hbase.symm) hne
  · intro b hb
    obtain rfl := hmem.mp hb
    refine ⟨0, htx, ?_, ?_⟩
    · rw [← hc]
      exact Nat.zero_lt_one
    · rw [← hc]
      rfl
  · intro b b' f hb hb' _ _
    rw [hmem.mp hb, hmem.mp hb']
  · intro b hb
    have hne : b ≠ 0 := fun h => hb (hmem.mpr h)
    simp only [ForkedChainRef.txFrame, hother hne]
  · rw [hbase]
    exact hfinal
  · intro b p _ _ hp
    rw [hparent] at hp
    cases hp
  · intro b
    rw [hheads, List.mem_singleton, hmem]
    refine ⟨fun h => ⟨h, fun d _ hd => ?_⟩, And.left⟩
    rw [hparent] at hd
    cases hd
  · rw [hheads]
    exact List.nodup_singleton 0
  · rw [← hc]
    exact List.mem_singleton_self 0
  · rw [← hc]
    exact fun b hb => by cases hb
  · rw [← hc]
    exact List.Pairwise.nil
  · rw [← hc]
    exact fun b hb => by cases hb
  · have hcan : c.canonical = db.canonical := by rw [← hc]; rfl
    simp only [hbase, hcan, ForkedChainRef.number, ForkedChainRef.hash, hzero]
    exact db.canonical_base
  · have hfcu : c.fcuHead = { hash := db.baseHash, number := db.baseHeader.number } := by
      rw [← hc]
      rfl
    refine ⟨0, hmem.mpr rfl, ?_, ?_⟩
    · rw [hfcu]
      simp only [ForkedChainRef.hash, hzero]
    · rw [hfcu]
      simp only [ForkedChainRef.number, hzero]
  · intro h hh x hx _
    rw [hheads, List.mem_singleton] at hh
    rw [hh, hmem.mp hx]

/-! ## Runs -/

/-- Every step of the run meets the condition `P` in the state it starts from. -/
def RunOk (P : ForkedChainRef → Env → Event → Prop) :
    ForkedChainRef → List (Env × Event) → Prop
  | _, [] => True
  | c, (env, e) :: events => P c env e ∧ ∀ c', step c env e = .ok c' → RunOk P c' events

variable {P : ForkedChainRef → Env → Event → Prop}

theorem RunOk.append_left
    {xs ys : List (Env × Event)} (h : RunOk P c (xs ++ ys)) : RunOk P c xs := by
  induction xs generalizing c with
  | nil => trivial
  | cons x xs ih => exact ⟨h.1, fun c' hc' => ih (h.2 c' hc')⟩

theorem RunOk.append_right {c' : ForkedChainRef}
    {xs ys : List (Env × Event)} (h : RunOk P c (xs ++ ys)) (hrun : run c xs = .ok c') :
    RunOk P c' ys := by
  induction xs generalizing c with
  | nil =>
    cases hrun
    exact h
  | cons x xs ih =>
    obtain ⟨c₁, hstep, hrun⟩ := except_bind_ok.mp hrun
    exact ih (h.2 c₁ hstep) hrun

/-- A property that each step keeps, or else stops at the sanity check, holds at the end of
every run. -/
theorem run_induction {I : ForkedChainRef → Prop} (hstep : ∀ c env e, I c → P c env e →
      step c env e = .error .stateRootMismatch ∨ ∃ c', step c env e = .ok c' ∧ I c')
    {events : List (Env × Event)} (hc : I c) (hok : RunOk P c events) :
    run c events = .error .stateRootMismatch ∨ ∃ c', run c events = .ok c' ∧ I c' := by
  induction events generalizing c with
  | nil => exact .inr ⟨c, rfl, hc⟩
  | cons x events ih =>
    obtain ⟨env, e⟩ := x
    change step c env e >>= (fun c => run c events) = _ ∨
      ∃ c', step c env e >>= (fun c => run c events) = _ ∧ _
    rcases hstep c env e hc hok.1 with herr | ⟨c₁, hrun, hc₁⟩
    · left
      rw [herr]
      rfl
    · rw [hrun]
      exact ih hc₁ (hok.2 c₁ hrun)

theorem run_inv {com : CommonRef} {db : SavedState com} {baseDistance : Nat}
    {persistBatchSize : { size : Nat // size > 0 }} {dynamicBatchSize : Bool}
    {events : List (Env × Event)} (hok : RunOk InvStepOk
      (ForkedChainRef.init com db baseDistance persistBatchSize dynamicBatchSize) events)
    (hrun : run (ForkedChainRef.init com db baseDistance persistBatchSize dynamicBatchSize)
      events = .ok c) : Inv c := by
  have hstep : ∀ c env e, Inv c → InvStepOk c env e →
      step c env e = .error .stateRootMismatch ∨ ∃ c', step c env e = .ok c' ∧ Inv c' := by
    intro c env e hi hok
    rcases step_spec hi env e hok.forkChoice hok.attach hok.base with herr | ⟨c', hc', hs⟩
    · exact .inl herr
    · exact .inr ⟨c', hc', hs.inv⟩
  rcases run_induction hstep (inv_init com db baseDistance persistBatchSize dynamicBatchSize).1
    hok with herr | ⟨c', hc', hi⟩
  · rw [hrun] at herr
    cases herr
  · rw [hrun] at hc'
    cases hc'
    exact hi

/-! ## The tree invariant -/

/-- The tree invariant: every stored block reaches the base through stored blocks with live
frames that are built on each other, `heads` are the childless blocks, and `latest` and
`fcuHead` are where they belong. -/
structure TreeInvariant (c : ForkedChainRef) : Prop where
  reaches : ∀ h b, c.hashToBlock h = some b → c.hash b = h ∧ Anc c.parent b c.base ∧
    ∀ a, Anc c.parent b a → InTree c a ∧ ∃ f, c.txFrame a = some f ∧
      (c.frames f).disposed = false ∧
      ∀ p, c.parent a = some p → ∃ g, c.txFrame p = some g ∧ (c.frames f).parent = some g
  heads_nodup : c.heads.Nodup
  heads_iff : ∀ b, b ∈ c.heads ↔ InTree c b ∧ ∀ d, InTree c d → c.parent d ≠ some b
  latest_mem : c.latest ∈ c.heads
  fcuHead : ∃ b, c.hashToBlock c.fcuHead.hash = some b ∧ c.number b = c.fcuHead.number

theorem Inv.treeInvariant (hi : Inv c) (hfcu : FcuHeadInTree c) :
    TreeInvariant c where
  reaches h b hb := by
    have hl := hi.linked
    have hbt := hl.inTree_of_lookup hb
    refine ⟨hl.key hb, hl.anc_base hbt, fun a hanc => ?_⟩
    have hat := hl.inTree_anc hbt hanc
    obtain ⟨f, hf, _, hlive⟩ := hl.live hat
    refine ⟨hat, f, hf, hlive, fun p hp => ?_⟩
    have hne : a ≠ c.base := by
      rintro rfl
      rw [hl.base_parent] at hp
      cases hp
    obtain ⟨q, hq, _, _, _, f', g, hf', hg, hfg⟩ := hl.link hat hne
    rw [hp] at hq
    cases hq
    rw [hf] at hf'
    cases hf'
    exact ⟨g, hg, hfg⟩
  heads_nodup := hi.heads.nodup
  heads_iff _ := hi.heads.mem_iff
  latest_mem := hi.heads.latest_mem
  fcuHead := by
    obtain ⟨b, hb, hhash, hnum⟩ := hfcu
    exact ⟨b, hhash ▸ hb, hnum⟩

/-- The step neither prunes a branch it must keep nor moves the base past one. -/
structure TreeStepOk (c : ForkedChainRef) (env : Env) (e : Event) : Prop where
  forkChoice : ForkChoiceOk c e
  attach : ∀ parent blk, Attaches c env e parent blk → Armed c blk →
    OnTop c parent ∧ FcuHeadSafe c parent blk
  base : TakesBase c e → BaseStepOk c ∧ BaseStepBelowFcu c

/-- In every run of such steps the tree invariant holds, and the only thing that stops the
process is the sanity check of a state root. -/
theorem run_treeInvariant (com : CommonRef) (db : SavedState com) (baseDistance : Nat)
    (persistBatchSize : { size : Nat // size > 0 }) (dynamicBatchSize : Bool)
    (events : List (Env × Event)) (hok : RunOk TreeStepOk
      (ForkedChainRef.init com db baseDistance persistBatchSize dynamicBatchSize) events) :
    match run (ForkedChainRef.init com db baseDistance persistBatchSize dynamicBatchSize)
        events with
    | .ok c => TreeInvariant c
    | .error d => d = .stateRootMismatch := by
  obtain ⟨hi, hfcu, _⟩ := inv_init com db baseDistance persistBatchSize dynamicBatchSize
  have hstep : ∀ c env e, (Inv c ∧ FcuHeadInTree c) → TreeStepOk c env e →
      step c env e = .error .stateRootMismatch ∨
      ∃ c', step c env e = .ok c' ∧ (Inv c' ∧ FcuHeadInTree c') := by
    rintro c env e ⟨hi, hfcu⟩ hok
    rcases step_spec hi env e hok.forkChoice
      (fun parent blk hatt harm => (hok.attach parent blk hatt harm).1)
      (fun h => (hok.base h).1) with herr | ⟨c', hrun, hs⟩
    · exact .inl herr
    · refine .inr ⟨c', hrun, hs.inv, hs.fcuHead ⟨?_, ?_⟩ hfcu⟩
      · exact fun parent blk hatt harm => (hok.attach parent blk hatt harm).2
      · exact fun h => (hok.base h).2
  rcases run_induction hstep ⟨hi, hfcu⟩ hok with herr | ⟨c, hrun, hinv, hf⟩
  · rw [herr]
  · rw [hrun]
    exact hinv.treeInvariant hf

/-! A node for the runs below: every block executes, with the state root 0, and a hash
tells blocks apart by number and state root. -/

def sampleCom : CommonRef where
  computeBlockHash header := header.number * 10 + header.stateRoot + 1
  hash_ne_zero _ := Nat.succ_ne_zero _

/-- A block without a body. -/
def sampleHeader (parentHash number stateRoot : Nat) : Header where
  parentHash := parentHash
  number := number
  stateRoot := stateRoot
  txRoot := EMPTY_ROOT_HASH
  receiptsRoot := EMPTY_ROOT_HASH
  ommersHash := EMPTY_UNCLE_HASH
  withdrawalsRoot := none

def sampleDb : SavedState sampleCom where
  baseHeader := sampleHeader zeroHash32 0 0
  canonical n := if n = 0 then some 1 else none
  canonical_base := rfl

def sampleEnv : Env where
  execute _ _ _ := true
  frameRoot _ := 0
  runTime := 300

def sampleInit : ForkedChainRef :=
  ForkedChainRef.init sampleCom sampleDb 3 ⟨1, Nat.zero_lt_one⟩ false

/-- Import of the block `n` with the given tag on top of the one with `parentTag`. -/
def sampleImport (n tag parentTag : Nat) : Env × Event :=
  (sampleEnv, .importBlock ⟨sampleHeader ((n - 1) * 10 + parentTag + 1) n tag⟩ false)

/-- The first block is imported and finalized. -/
def finalizeFirst : List (Env × Event) :=
  [sampleImport 1 0 0, (sampleEnv, .forkChoice 11 11 0)]

theorem attempt_importFirst {parent : BlockRef} {blk : Block}
    (h : Attaches sampleInit sampleEnv (sampleImport 1 0 0).2 parent blk) :
    parent = 0 ∧ blk = ⟨sampleHeader 1 1 0⟩ := by
  obtain ⟨finalized, hatt, _⟩ := h
  cases hatt
  exact ⟨rfl, rfl⟩

theorem finalizeFirst_heads
    (h : step sampleInit sampleEnv (sampleImport 1 0 0).2 = .ok c) : c.heads.length = 1 := by
  obtain ⟨c', hstep, hlen⟩ := exists_ok (r := step sampleInit sampleEnv (sampleImport 1 0 0).2)
    (P := fun c => c.heads.length = 1) (by decide +kernel)
  obtain rfl := Except.ok.inj (h.symm.trans hstep)
  exact hlen

theorem run_treeInvariant_finalizeFirst :
    match run sampleInit finalizeFirst with
    | .ok c => TreeInvariant c
    | .error d => d = .stateRootMismatch := by
  refine run_treeInvariant sampleCom sampleDb 3 ⟨1, Nat.zero_lt_one⟩ false finalizeFirst
    ⟨⟨?_, ?_, ?_⟩, fun c hc => ⟨⟨?_, ?_, ?_⟩, fun _ _ => trivial⟩⟩
  · intro _ _ _ _ _ h
    cases h
  · intro parent blk hatt harm
    obtain ⟨rfl, rfl⟩ := attempt_importFirst hatt
    exact absurd harm (by unfold Armed; decide)
  · rintro ⟨i, h, _⟩
    cases h
  · intro _ _ _ _ _ _ _ _ _
    exact .inl (finalizeFirst_heads hc)
  · rintro parent blk ⟨_, hatt, _⟩
    cases hatt
  · rintro ⟨i, h, _⟩
    cases h

/-- Block 5 is finalized, and while the bases 1 and 2 are queued a second child of block 1
arrives. -/
def lateImport : List (Env × Event) :=
  [sampleImport 1 0 0, sampleImport 2 0 0, sampleImport 3 0 0, sampleImport 4 0 0,
    sampleImport 5 0 0, (sampleEnv, .forkChoice 51 51 0), sampleImport 2 1 0,
    (sampleEnv, .handle 0), (sampleEnv, .handle 0)]

/-- The late block stays in the tree when the base moves past its parent, which is gone. -/
theorem lateImport_dangles : ¬ ∀ (com : CommonRef) (db : SavedState com) (baseDistance : Nat)
      (persistBatchSize : { size : Nat // size > 0 }) (dynamicBatchSize : Bool)
      (events : List (Env × Event)),
      match run (ForkedChainRef.init com db baseDistance persistBatchSize dynamicBatchSize)
          events with
      | .ok c => TreeInvariant c
      | .error d => d = .stateRootMismatch := by
  intro hall
  have hclaim := hall sampleCom sampleDb 3 ⟨1, Nat.zero_lt_one⟩ false lateImport
  obtain ⟨c, hrun, hin, hparent, hout⟩ := exists_ok (r := run sampleInit lateImport)
    (P := fun c => InTree c 6 ∧ c.parent 6 = some 1 ∧ ¬ InTree c 1) (by decide +kernel)
  have hrun' : run (ForkedChainRef.init sampleCom sampleDb 3 ⟨1, Nat.zero_lt_one⟩ false)
      lateImport = .ok c := hrun
  rw [hrun'] at hclaim
  obtain ⟨_, _, hreach⟩ := hclaim.reaches _ _ hin
  exact hout (hreach 1 (Anc.parent hparent)).1

/-! ## Finality -/

/-- The step finalizes and attaches nothing below, or beside, a finalized block. -/
structure FinalityStepOk (c : ForkedChainRef) (env : Env) (e : Event) : Prop where
  forkChoice : ForkChoiceOk c e
  attach : ∀ parent blk, Attaches c env e parent blk → OnTop c parent

/-- The finalized block `x` of `c` is still in the tree of `c'`, below every head, or the
base has moved past it and the number lookup on disk leads to it. -/
def Kept (c c' : ForkedChainRef) (x : BlockRef) : Prop :=
  (InTree c' x ∧ Finalized c' x ∧ c'.hash x = c.hash x ∧ c'.number x = c.number x ∧
    ∀ h ∈ c'.heads, Anc c'.parent h x) ∨
  (c.number x < c'.number c'.base ∧ c'.canonical (c.number x) = some (c.hash x))

theorem FinalityStepOk.step {env : Env} {e : Event}
    (hok : FinalityStepOk c env e) (hi : Inv c) (hg : Guarded c) :
    step c env e = .error .stateRootMismatch ∨
    ∃ c', Nimbus.Native.ForkedChain.step c env e = .ok c' ∧ Inv c' ∧ Guarded c' ∧
      Settled c c' := by
  rcases step_spec hi env e hok.forkChoice (fun parent blk hatt _ => hok.attach parent blk hatt)
    (fun _ => hg.baseStepOk hi) with herr | ⟨c', hrun, hs⟩
  · exact .inl herr
  · exact .inr ⟨c', hrun, hs.inv, hs.guarded hok.attach hg, hs.settled⟩

/-- Once a block is finalized, neither it nor an ancestor of it above the base leaves the
tree, every later head is on top of it, and pruning never runs out of heads. -/
theorem run_finalized (com : CommonRef) (db : SavedState com) (baseDistance : Nat)
    (persistBatchSize : { size : Nat // size > 0 }) (dynamicBatchSize : Bool)
    (before after : List (Env × Event)) (hok : RunOk FinalityStepOk
      (ForkedChainRef.init com db baseDistance persistBatchSize dynamicBatchSize)
      (before ++ after))
    (c : ForkedChainRef)
    (hc : run (ForkedChainRef.init com db baseDistance persistBatchSize dynamicBatchSize)
      before = .ok c)
    (x : BlockRef) (hx : InTree c x) (hfin : Finalized c x) :
    match run c after with
    | .ok c' => (∀ y, Anc c.parent x y → Kept c c' y) ∧ c'.heads ≠ []
    | .error d => d = .stateRootMismatch := by
  obtain ⟨hi, _, hg⟩ := inv_init com db baseDistance persistBatchSize dynamicBatchSize
  have hbefore : ∀ c env e, (Inv c ∧ Guarded c) → FinalityStepOk c env e →
      step c env e = .error .stateRootMismatch ∨
      ∃ c', step c env e = .ok c' ∧ (Inv c' ∧ Guarded c') := by
    rintro c env e ⟨hi, hg⟩ hok
    rcases hok.step hi hg with herr | ⟨c', hrun, hi', hg', _⟩
    · exact .inl herr
    · exact .inr ⟨c', hrun, hi', hg'⟩
  obtain ⟨hic, hgc⟩ : Inv c ∧ Guarded c := by
    rcases run_induction hbefore ⟨hi, hg⟩ hok.append_left with herr | ⟨c₁, hrun, h₁⟩
    · rw [hc] at herr
      cases herr
    · rw [hc] at hrun
      cases hrun
      exact h₁
  have hafter : ∀ d env e, (Inv d ∧ Guarded d ∧ Settled c d) → FinalityStepOk d env e →
      step d env e = .error .stateRootMismatch ∨
      ∃ d', step d env e = .ok d' ∧ (Inv d' ∧ Guarded d' ∧ Settled c d') := by
    rintro d env e ⟨hi, hg, hs⟩ hok
    rcases hok.step hi hg with herr | ⟨d', hrun, hi', hg', hs'⟩
    · exact .inl herr
    · exact .inr ⟨d', hrun, hi', hg', hs.trans hs'⟩
  rcases run_induction hafter ⟨hic, hgc, Settled.refl c⟩ (hok.append_right hc) with
    herr | ⟨c', hrun, hi', hg', hs'⟩
  · rw [herr]
  · rw [hrun]
    refine ⟨fun y hxy => ?_, List.ne_nil_of_mem hi'.heads.latest_mem⟩
    have hy := hic.linked.inTree_anc hx hxy
    have hyfin := hic.finality.anc hic.linked hx hfin hxy
    rcases hs'.kept y hy hyfin with ⟨hyt, hyfin', hhash, hnum⟩ | hpast
    · exact .inl ⟨hyt, hyfin', hhash, hnum, fun h hh => hg' h hh y hyt hyfin'⟩
    · exact .inr hpast

theorem finalizeFirst_runOk :
    RunOk FinalityStepOk sampleInit (finalizeFirst ++ [(sampleEnv, .setHead 11)]) := by
  refine ⟨⟨?_, ?_⟩, fun c hc => ⟨⟨?_, ?_⟩, fun c' _ => ⟨⟨?_, ?_⟩, fun _ _ => trivial⟩⟩⟩
  · intro _ _ _ _ _ h
    cases h
  · intro parent blk hatt
    obtain ⟨rfl, rfl⟩ := attempt_importFirst hatt
    obtain ⟨_, _, hg⟩ := inv_init sampleCom sampleDb 3 ⟨1, Nat.zero_lt_one⟩ false
    exact hg 0 List.mem_cons_self
  · intro _ _ _ _ _ _ _ _ _
    exact .inl (finalizeFirst_heads hc)
  · rintro parent blk ⟨_, hatt, _⟩
    cases hatt
  · intro _ _ _ _ _ h
    cases h
  · rintro parent blk ⟨_, hatt, _⟩
    cases hatt

theorem run_finalized_finalizeFirst :
    ∃ c, run sampleInit finalizeFirst = .ok c ∧ InTree c 1 ∧ Finalized c 1 ∧
      match run c [(sampleEnv, .setHead 11)] with
      | .ok c' => (∀ y, Anc c.parent 1 y → Kept c c' y) ∧ c'.heads ≠ []
      | .error d => d = .stateRootMismatch := by
  obtain ⟨c, hrun, hin, hfin⟩ := exists_ok (r := run sampleInit finalizeFirst)
    (P := fun c => InTree c 1 ∧ Finalized c 1) (by decide +kernel)
  exact ⟨c, hrun, hin, hfin, run_finalized sampleCom sampleDb 3 ⟨1, Nat.zero_lt_one⟩ false
    finalizeFirst [(sampleEnv, .setHead 11)] finalizeFirst_runOk c hrun 1 hin hfin⟩

/-- Block 3 is finalized below two branches; then a fork choice names block 1. -/
def olderFinalized : List (Env × Event) :=
  [sampleImport 1 0 0, sampleImport 2 0 0, sampleImport 3 0 0, sampleImport 4 0 0,
    sampleImport 4 1 0, (sampleEnv, .forkChoice 41 31 0)]

/-- The older hash prunes all heads, since each of them meets block 3 before block 1. -/
theorem olderFinalized_noCandidate :
    ¬ ∀ (com : CommonRef) (db : SavedState com) (baseDistance : Nat)
      (persistBatchSize : { size : Nat // size > 0 }) (dynamicBatchSize : Bool)
      (before after : List (Env × Event)) (c : ForkedChainRef),
      run (ForkedChainRef.init com db baseDistance persistBatchSize dynamicBatchSize) before
        = .ok c → ∀ x, InTree c x → Finalized c x →
      match run c after with
      | .ok c' => (∀ y, Anc c.parent x y → Kept c c' y) ∧ c'.heads ≠ []
      | .error d => d = .stateRootMismatch := by
  intro hall
  obtain ⟨c, hrun, hin, hfin, hstop⟩ := exists_ok (r := run sampleInit olderFinalized)
    (P := fun c => InTree c 3 ∧ Finalized c 3 ∧
      (run c [(sampleEnv, .forkChoice 41 11 0)]).map (fun _ => ()) = .error .noCandidate)
    (by decide +kernel)
  have hclaim := hall sampleCom sampleDb 3 ⟨1, Nat.zero_lt_one⟩ false olderFinalized
    [(sampleEnv, .forkChoice 41 11 0)] c hrun 3 hin hfin
  cases hnext : run c [(sampleEnv, .forkChoice 41 11 0)] with
  | ok c' =>
    rw [hnext] at hstop
    cases hstop
  | error d =>
    rw [hnext] at hstop hclaim
    rw [hclaim] at hstop
    cases hstop

end Nimbus.Spec.ForkedChain
