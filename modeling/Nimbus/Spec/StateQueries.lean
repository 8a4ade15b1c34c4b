import Nimbus.Native.StateQueries
import Nimbus.Spec.ChainLineage

/-!
# The state that a request is answered on

A block has one state: the one that it leaves on top of the state of its parent. In every run
the frame of a block holds that state, and a request that looks the frame up for a block at the
base or above it finds the right one. For any other block it gets the frame of the base.
-/

namespace Nimbus.Spec.ForkedChain

open Nimbus.Native.ForkedChain
open ParentTree LookupNode StateNode

/-! ## Post-states -/

variable {W : Type} {exec : StateMachine W} {com : CommonRef} {base₀ : Header} {w₀ : W}

/-- The state that a block leaves, from the saved state `w₀` of the block `base₀` upwards. -/
inductive PostState (exec : StateMachine W) (com : CommonRef) (base₀ : Header) (w₀ : W) :
    Header → W → Prop where
  | saved : PostState exec com base₀ w₀ base₀ w₀
  | block {parent : Header} {w : W} {blk : Block} {finalized : Bool}
      (before : PostState exec com base₀ w₀ parent w) (link : ParentOf com blk.header parent)
      (valid : exec.valid w parent blk finalized = true) :
      PostState exec com base₀ w₀ blk.header (exec.after w blk)

variable {hd : Header}

theorem PostState.number_le {w : W} (h : PostState exec com base₀ w₀ hd w) :
    base₀.number ≤ hd.number := by
  induction h with
  | saved => exact Nat.le_refl _
  | block _ link _ ih =>
    have hnum := link.2
    omega

theorem PostState.unique (hinj : Function.Injective com.computeBlockHash)
    {w w' : W} (h : PostState exec com base₀ w₀ hd w) (h' : PostState exec com base₀ w₀ hd w') :
    w = w' := by
  induction h generalizing w' with
  | saved =>
    cases h' with
    | saved => rfl
    | block before link _ =>
      have hnum := link.2
      have hle := before.number_le
      omega
  | @block parent w blk finalized before link _ ih =>
    generalize hhd : blk.header = hd at h'
    cases h' with
    | saved =>
      have hnum := link.2
      have hle := before.number_le
      rw [hhd] at hnum
      omega
    | @block parent' w'' blk' finalized' before' link' _ =>
      have hblk : blk = blk' := by
        cases blk
        cases blk'
        rw [Block.mk.injEq]
        exact hhd
      subst hblk
      have hparent : parent = parent' := hinj (link.1.symm.trans link'.1)
      subst hparent
      rw [ih before']

/-! ## Steps -/

/-- Every frame of the tree holds the post-state of its block. -/
def Framed (exec : StateMachine W) (base₀ : Header) (w₀ : W) (s : StateNode W) : Prop :=
  ∀ b f, s.chain.txFrame b = some f →
    PostState exec s.chain.com base₀ w₀ (s.chain.blocks b).header (s.states f)

section

variable {n₀ : Nat} {P : Set Header} {s s' : StateNode W} {env : Env} {e : Event}

theorem StateNode_step_eq (h : StateNode.step exec s env e = .ok s') :
    s.node.step (s.env exec env e) e = .ok s'.node ∧ s'.contents = s.contents ∧
      s'.states = s.statesAfter exec e := by
  unfold StateNode.step LookupNode.step at h
  cases hnode : s.node.step (s.env exec env e) e with
  | error d =>
    rw [hnode] at h
    cases h
  | ok node =>
    rw [hnode] at h
    cases h
    exact ⟨rfl, rfl, rfl⟩

theorem statesAfter_of_lt {f : CoreDbTxRef} (hf : f < s.chain.nextFrame) :
    s.statesAfter exec e f = s.states f := by
  unfold statesAfter
  cases s.executed e with
  | none => rfl
  | some x => exact Function.update_of_ne (Nat.ne_of_lt hf) _ _

/-- What passes `processBlock` has been executed. -/
theorem execute_of_processBlock {parentHeader : Header} {blk : Block} {finalized : Bool}
    (h : ForkedChainRef.processBlock env parentHeader blk finalized = true) :
    env.execute parentHeader blk finalized = true := by
  unfold ForkedChainRef.processBlock at h
  split at h
  · exact h
  · split at h
    · cases h
    · exact h

theorem Framed.step (hfr : Framed exec base₀ w₀ s) (hi : Inv s.chain) (hw : Wired n₀ s.chain)
    (hchain : Native.ForkedChain.step s.chain (s.env exec env e) e = .ok s'.chain)
    (hstates : s'.states = s.statesAfter exec e) : Framed exec base₀ w₀ s' := by
  have hl := hi.linked
  -- a frame that was there holds what it held
  have hold : ∀ {b f}, s.chain.txFrame b = some f → f < s.chain.nextFrame := by
    intro b f hb
    have hbt := hl.inTree_of_txFrame (b := b) (by rw [hb]; exact Option.some_ne_none f)
    obtain ⟨f', hf', hlt, -⟩ := hl.live hbt
    rw [hb] at hf'
    cases hf'
    exact hlt
  intro b f hb
  rw [hstates]
  rcases step_trace hchain with ⟨hthin, -⟩ | ⟨-, parent, blk, hatt, hgrow⟩ |
    ⟨-, it, rest, -, -, hre⟩
  · obtain ⟨hb₀, heq⟩ := hthin.live hb
    rw [heq, hthin.com, statesAfter_of_lt (hold hb₀)]
    exact hfr b f hb₀
  · rw [hgrow.com]
    rcases hgrow.live hb with ⟨hb₀, heq⟩ | ⟨-, rfl, heq⟩
    · rw [heq, statesAfter_of_lt (hold hb₀)]
      exact hfr b f hb₀
    · -- the new block has been executed on the state of its parent
      obtain ⟨finalized, hattempt, -, hpass⟩ := hatt
      obtain ⟨hpt, hph⟩ := hw.attempt_parent hattempt
      obtain ⟨g, hg, -⟩ := hl.live hpt
      have hexecuted : s.executed e = some (parent, blk, finalized) := hattempt
      have hbefore : s.stateBefore e = s.states g := by
        unfold stateBefore
        rw [hexecuted]
        simp only [hg, Option.getD_some]
      have hafter : s.statesAfter exec e s.chain.nextFrame = exec.after (s.states g) blk := by
        unfold statesAfter
        rw [hexecuted, ← hbefore]
        exact Function.update_self _ _ _
      have hvalid : exec.valid (s.states g) (s.chain.blocks parent).header blk finalized = true := by
        rw [← hbefore]
        exact execute_of_processBlock hpass
      have hlink : ParentOf s.chain.com blk.header (s.chain.blocks parent).header :=
        ⟨hph.trans (hl.hash_eq hpt), number_of_processBlock hl hpt hph hpass⟩
      rw [heq, hafter]
      exact (hfr parent g hg).block hlink hvalid
  · obtain ⟨hb₀, heq⟩ := hre.live hb
    rw [heq, hre.com, statesAfter_of_lt (hold hb₀)]
    exact hfr b f hb₀

end

/-! ## Runs -/

/-- What holds of the node in every run: the chain is in shape, the header records are those
that the hashes are of, and the frames hold the states. -/
structure Answering (exec : StateMachine W) (com : CommonRef) (base₀ : Header) (w₀ : W)
    (contents : Contents) (s : StateNode W) : Prop where
  com : s.chain.com = com
  contents : s.contents = contents
  anchored : ∃ P, Anchored base₀.number P s.node
  framed : Framed exec base₀ w₀ s

section

variable {contents : Contents} {s s' : StateNode W} {env : Env} {e : Event}

/-- The step keeps the tree in shape, with the answers of the state machine. -/
def StateStepOk (exec : StateMachine W) (s : StateNode W) (x : Env × Event) : Prop :=
  InvStepOk s.chain (s.env exec x.1 x.2) x.2

theorem Answering.step (ha : Answering exec com base₀ w₀ contents s)
    (hok : StateStepOk exec s (env, e)) (h : StateNode.step exec s env e = .ok s') :
    Answering exec com base₀ w₀ contents s' := by
  obtain ⟨hnode, hcontents, hstates⟩ := StateNode_step_eq h
  obtain ⟨P, hanchored⟩ := ha.anchored
  have hchain := hanchored.backed.step_chain_ok hnode
  constructor
  · exact (step_com hchain).trans ha.com
  · exact hcontents.trans ha.contents
  · exact ⟨_, hanchored.step hok hnode⟩
  · exact ha.framed.step hanchored.inv hanchored.backed.wired hchain hstates

theorem Answering.linked (ha : Answering exec com base₀ w₀ contents s) : Linked s.chain := by
  obtain ⟨P, hanchored⟩ := ha.anchored
  exact hanchored.inv.linked

theorem answering_init {db : SavedState com} (saved : SavedBlocks com db)
    (txKeys : Hash32 → Option TransactionKey) (accessLists : Hash32 → Option BlockAccessList)
    (baseDistance : Nat) (persistBatchSize : { size : Nat // size > 0 })
    (dynamicBatchSize : Bool) (hinj : Function.Injective com.computeBlockHash)
    (hcanonical : CanonicalBelow com db.canonical db.baseHeader) :
    Answering exec com db.baseHeader w₀ contents
      (StateNode.init (LookupNode.init saved contents txKeys accessLists baseDistance
        persistBatchSize dynamicBatchSize) w₀) where
  com := rfl
  contents := rfl
  anchored := by
    refine ⟨∅, (inv_init com db baseDistance persistBatchSize dynamicBatchSize).1,
      backed_init saved baseDistance persistBatchSize dynamicBatchSize hinj, ?_⟩
    exact hcanonical
  framed := by
    obtain ⟨hzero, hrest⟩ := init_blocks saved baseDistance persistBatchSize dynamicBatchSize
    intro b f hb
    have hb' : ((ChainNode.init saved baseDistance persistBatchSize
        dynamicBatchSize).chain.blocks b).txFrame = some f := hb
    by_cases hb0 : b = 0
    · subst hb0
      exact PostState.saved
    · rw [hrest b hb0] at hb'
      cases hb'

end

/-! ## The block of a tag -/

section

variable {contents : Contents} {s : StateNode W} {tag : LookupNode.BlockTag}

/-- A tag that leads to a block at the base or above it leads to a block of the tree. -/
theorem Answering.inTree_of_tag (ha : Answering exec com base₀ w₀ contents s)
    (hlaw : ∀ hd, contents.header (com.computeBlockHash hd) = hd)
    (htag : s.headerFromTag tag = some hd)
    (hle : s.chain.number s.chain.base ≤ hd.number) :
    ∃ b, InTree s.chain b ∧ (s.chain.blocks b).header = hd := by
  obtain ⟨P, hanchored⟩ := ha.anchored
  have hi : Inv s.chain := hanchored.inv
  have hl := hi.linked
  have hlatest := hi.heads.inTree hi.heads.latest_mem
  -- a record on disk that a number below the base leads to has that number
  have hrecord : ∀ {n h}, n < s.chain.number s.chain.base → s.chain.canonical n = some h →
      (s.contents.header h).number = n := by
    intro n h hn hcan
    obtain ⟨a, hash, hnum, -⟩ := hanchored.canonical n hn h hcan
    rw [ha.contents, ← hash, show s.node.chain.com = com from ha.com, hlaw]
    exact hnum
  have hnumber : ∀ {n}, s.headerByNumber n = some hd →
      ∃ b, InTree s.chain b ∧ (s.chain.blocks b).header = hd := by
    intro n h
    unfold headerByNumber at h
    split at h
    · cases h
    · split at h
      · next hlt =>
        simp only [getBlockHeaderByNumber, getBlockHash,
          getBlockHeader, Option.bind_eq_bind, Option.bind_eq_some_iff] at h
        obtain ⟨hash, hcan, h⟩ := h
        split at h
        · cases h
          have hnum := hrecord hlt hcan
          omega
        · cases h
      · obtain ⟨b, hb, heq⟩ := Option.map_eq_some_iff.mp h
        have hanc := (hl.mem_ancestors hlatest).mp (List.mem_of_find?_eq_some hb)
        exact ⟨b, hl.inTree_anc hlatest hanc, heq⟩
  cases tag with
  | latest => exact ⟨_, hlatest, Option.some.inj htag⟩
  | pending => exact ⟨_, hlatest, Option.some.inj htag⟩
  | finalized =>
    rw [← Option.some.inj htag]
    unfold finalizedHeader
    split
    · next b hb => exact ⟨b, hl.inTree_of_lookup hb, rfl⟩
    · exact ⟨_, hl.base_mem, rfl⟩
  | safe =>
    rw [← Option.some.inj htag]
    unfold safeHeader
    split
    · next b hb => exact ⟨b, hl.inTree_of_lookup hb, rfl⟩
    · exact ⟨_, hl.base_mem, rfl⟩
  | earliest => exact hnumber htag
  | unsupported => cases htag
  | number n => exact hnumber htag
  | hash h =>
    simp only [headerFromTag, headerByHash] at htag
    cases hb : s.chain.hashToBlock h with
    | some b =>
      rw [hb] at htag
      exact ⟨b, hl.inTree_of_lookup hb, Option.some.inj htag⟩
    | none =>
      -- the block on disk would be the base, which is in the tree
      rw [hb] at htag
      simp only [persistedHeaderByHash, Option.bind_eq_bind,
        Option.bind_eq_some_iff] at htag
      obtain ⟨header, -, htag⟩ := htag
      split at htag
      · cases htag
      · next hguard =>
        cases htag
        simp only [not_or, Nat.not_lt, not_not] at hguard
        have hnum : hd.number = s.chain.number s.chain.base := Nat.le_antisymm hguard.1 hle
        have hbase := hguard.2
        unfold getBlockHash at hbase
        rw [hnum, show s.chain.canonical _ = _ from hi.saved, Option.getD_some] at hbase
        have hmem : s.chain.hashToBlock (s.chain.hash s.chain.base) = some s.chain.base := hl.base_mem
        rw [hbase, hb] at hmem
        cases hmem

theorem Answering.postState_of_tag (ha : Answering exec com base₀ w₀ contents s)
    (hlaw : ∀ hd, contents.header (com.computeBlockHash hd) = hd)
    (htag : s.headerFromTag tag = some hd)
    (hle : s.chain.number s.chain.base ≤ hd.number) :
    ∃ f, s.txFrameOf hd = some f ∧ PostState exec com base₀ w₀ hd (s.states f) := by
  obtain ⟨b, hb, rfl⟩ := ha.inTree_of_tag hlaw htag hle
  have hl := ha.linked
  obtain ⟨f, hf, -⟩ := hl.live hb
  have hframed := ha.framed b f hf
  rw [ha.com] at hframed
  refine ⟨f, ?_, hframed⟩
  unfold txFrameOf txFrame
  rw [← hl.hash_eq hb]
  split
  · next heq =>
    have hbase := hb.hash_inj hl.base_mem heq
    rw [hbase] at hf
    exact hl.base_frame.symm.trans hf
  · have hlookup : s.chain.hashToBlock (s.chain.hash b) = some b := hb
    rw [hlookup]
    exact hf

/-! ## Requests -/

/-- If there is an answer, it is what `compute` makes of the header of the tag and of the
post-state of that block. -/
def AnsweredAt {α : Type} (exec : StateMachine W) (com : CommonRef) (base₀ : Header) (w₀ : W)
    (s : StateNode W) (tag : LookupNode.BlockTag) (answer : Option α)
    (compute : Header → W → Option α) : Prop :=
  ∀ r, answer = some r → ∃ hd w, s.headerFromTag tag = some hd ∧
    PostState exec com base₀ w₀ hd w ∧ compute hd w = some r

/-- The block of the tag is not below the base. -/
def AtBaseOrAbove (s : StateNode W) (tag : LookupNode.BlockTag) : Prop :=
  ∀ hd, s.headerFromTag tag = some hd → s.chain.number s.chain.base ≤ hd.number

section

variable (ha : Answering exec com base₀ w₀ contents s)
include ha

section

variable (hlaw : ∀ hd, contents.header (com.computeBlockHash hd) = hd)
include hlaw

/-- A request that looks up the frame of a block at the base or above it. -/
theorem Answering.answeredAt
    {α : Type} {answer : Option α} {compute : Header → W → Option α}
    (h : ∀ r, answer = some r → ∃ hd f, s.headerFromTag tag = some hd ∧
      s.chain.number s.chain.base ≤ hd.number ∧ s.txFrameOf hd = some f ∧
      compute hd (s.states f) = some r) :
    AnsweredAt exec com base₀ w₀ s tag answer compute := by
  intro r hr
  obtain ⟨hd, f, htag, hle, hf, hcompute⟩ := h r hr
  obtain ⟨f', hf', hpost⟩ := ha.postState_of_tag hlaw htag hle
  rw [hf] at hf'
  cases hf'
  exact ⟨hd, s.states f, htag, hpost, hcompute⟩

theorem Answering.readAt (tag : LookupNode.BlockTag) {α : Type} (read : W → Option α) :
    AnsweredAt exec com base₀ w₀ s tag (s.readAt tag read) fun _ w => read w := by
  apply ha.answeredAt hlaw
  intro r hr
  simp only [StateNode.readAt, StateNode.frameFromTag, Option.bind_eq_bind,
    Option.bind_eq_some_iff] at hr
  obtain ⟨f, ⟨hd, htag, hf⟩, hread⟩ := hr
  split at hf
  · cases hf
  · next hlt => exact ⟨hd, f, htag, Nat.le_of_not_lt hlt, hf, hread⟩

/-- A block below the base has no frame left, and gets the one of the base. -/
theorem Answering.txFrameOf_below (hlt : hd.number < s.chain.number s.chain.base) :
    s.txFrameOf hd = some s.chain.baseTxFrame := by
  have hl := ha.linked
  unfold txFrameOf txFrame
  split
  · rfl
  · cases hb : s.chain.hashToBlock (s.chain.com.computeBlockHash hd) with
    | none => rfl
    | some b =>
      -- a block of the tree with this hash is this block, which is too low
      have hbt := hl.inTree_of_lookup hb
      have hash := (hl.hash_eq hbt).symm.trans (hl.key hb)
      rw [ha.com] at hash
      have heq : (s.chain.blocks b).header = hd := by
        rw [← hlaw (s.chain.blocks b).header, hash, hlaw]
      have hge := hl.number_base_le hbt
      unfold ForkedChainRef.number at hge hlt
      rw [heq] at hge
      omega

end

theorem Answering.postState_base :
    PostState exec com base₀ w₀ (s.header s.chain.base) (s.states s.chain.baseTxFrame) := by
  have hframed := ha.framed s.chain.base _ ha.linked.base_frame
  rw [ha.com] at hframed
  exact hframed

variable (exec com base₀ w₀) in
/-- The answers of the node: each one is computed on the post-state of the block that the tag
leads to. `eth_call` and `eth_createAccessList` do not look at the height of the block, and
answer from the post-state of the base where it is lower. -/
structure StateAnswers (view : StateView W) (s : StateNode W) : Prop where
  balance : ∀ data tag, AnsweredAt exec com base₀ w₀ s tag (s.eth_getBalance view data tag)
    fun _ w => some (accountOf view w data).balance
  storageAt : ∀ data slot tag,
    AnsweredAt exec com base₀ w₀ s tag (s.eth_getStorageAt view data slot tag)
      fun _ w => some ((view.fetchSlot w data slot).getD 0)
  transactionCount : ∀ getPendingNonce data tag, tag ≠ .pending →
    AnsweredAt exec com base₀ w₀ s tag (s.eth_getTransactionCount view getPendingNonce data tag)
      fun _ w => some (accountOf view w data).nonce
  code : ∀ data tag, AnsweredAt exec com base₀ w₀ s tag (s.eth_getCode view data tag)
    fun _ w => some (codeOf view w data)
  proof : ∀ data slots tag, AnsweredAt exec com base₀ w₀ s tag (s.eth_getProof view data slots tag)
    fun _ w => getProof view w data slots
  estimateGas : ∀ args tag, AnsweredAt exec com base₀ w₀ s tag (s.eth_estimateGas view args tag)
    fun hd w => view.estimateGas w hd args
  call : ∀ args tag, AtBaseOrAbove s tag →
    AnsweredAt exec com base₀ w₀ s tag (s.eth_call view args tag)
      fun hd w => view.callEvm w hd args
  accessList : ∀ args tag, AtBaseOrAbove s tag →
    AnsweredAt exec com base₀ w₀ s tag (s.eth_createAccessList view args tag)
      fun hd w => (s.getBlockHeader hd.parentHash).bind
        fun parent => view.accessListLoop w parent hd args
  below : ∀ tag hd, s.headerFromTag tag = some hd → hd.number < s.chain.number s.chain.base →
    ∃ w, PostState exec com base₀ w₀ (s.header s.chain.base) w ∧
      (∀ args, s.eth_call view args tag = view.callEvm w hd args) ∧
      ∀ args, s.eth_createAccessList view args tag = (s.getBlockHeader hd.parentHash).bind
        fun parent => view.accessListLoop w parent hd args

theorem Answering.stateAnswers
    (hlaw : ∀ hd, contents.header (com.computeBlockHash hd) = hd) (view : StateView W) :
    StateAnswers exec com base₀ w₀ view s where
  balance _ tag := ha.readAt hlaw tag _
  storageAt _ _ tag := ha.readAt hlaw tag _
  transactionCount getPendingNonce data tag htag := by
    unfold eth_getTransactionCount
    rw [if_neg htag]
    exact ha.readAt hlaw tag _
  code _ tag := ha.readAt hlaw tag _
  proof _ _ tag := ha.readAt hlaw tag _
  estimateGas args tag := by
    apply ha.answeredAt hlaw
    intro r hr
    simp only [eth_estimateGas, Option.bind_eq_bind, Option.bind_eq_some_iff] at hr
    obtain ⟨hd, htag, hr⟩ := hr
    split at hr
    · cases hr
    · next hlt =>
      obtain ⟨f, hf, hcompute⟩ := Option.bind_eq_some_iff.mp hr
      exact ⟨hd, f, htag, Nat.le_of_not_lt hlt, hf, hcompute⟩
  call args tag habove := by
    apply ha.answeredAt hlaw
    intro r hr
    simp only [eth_call, Option.bind_eq_bind, Option.bind_eq_some_iff] at hr
    obtain ⟨hd, htag, f, hf, hcompute⟩ := hr
    exact ⟨hd, f, htag, habove hd htag, hf, hcompute⟩
  accessList args tag habove := by
    apply ha.answeredAt hlaw
    intro r hr
    simp only [eth_createAccessList, createAccessList, Option.bind_eq_bind,
      Option.bind_eq_some_iff] at hr
    obtain ⟨hd, htag, f, hf, parent, hparent, hcompute⟩ := hr
    refine ⟨hd, f, htag, habove hd htag, hf, ?_⟩
    rw [hparent]
    exact hcompute
  below tag hd htag hlt := by
    have hf := ha.txFrameOf_below hlaw hlt
    refine ⟨_, ha.postState_base, fun args => ?_, fun args => ?_⟩
    · unfold eth_call
      rw [htag]
      simp only [Option.bind_eq_bind, Option.bind_some, hf]
    · unfold eth_createAccessList createAccessList
      rw [htag]
      simp only [Option.bind_eq_bind, Option.bind_some, hf]

end

end

theorem answering_run {contents : Contents} {s s' : StateNode W} {events : List (Env × Event)}
    (ha : Answering exec com base₀ w₀ contents s)
    (hok : StepRun.StepsOk (fun s (env, e) => StateNode.step exec s env e) (StateStepOk exec) s
      events)
    (hrun : StateNode.run exec s events = .ok s') :
    Answering exec com base₀ w₀ contents s' :=
  StepRun.invariant _ (fun _ _ _ ha hok hstep => ha.step hok hstep) ha hok hrun

/-- In every run that keeps the tree in shape, whatever is imported, pruned or persisted in
whatever order. -/
theorem run_stateQueries (exec : StateMachine W) (view : StateView W) {db : SavedState com}
    (saved : SavedBlocks com db) (contents : Contents)
    (hlaw : ∀ hd, contents.header (com.computeBlockHash hd) = hd)
    (hcanonical : CanonicalBelow com db.canonical db.baseHeader)
    (txKeys : Hash32 → Option TransactionKey) (accessLists : Hash32 → Option BlockAccessList)
    (baseDistance : Nat) (persistBatchSize : { size : Nat // size > 0 })
    (dynamicBatchSize : Bool) (state : W) (events : List (Env × Event)) :
    let start := StateNode.init (LookupNode.init saved contents txKeys accessLists baseDistance
      persistBatchSize dynamicBatchSize) state
    StepRun.StepsOk (fun s (env, e) => StateNode.step exec s env e) (StateStepOk exec) start
      events →
    ∀ s, start.run exec events = .ok s →
      StateAnswers exec com db.baseHeader state view s := by
  intro start hok s hrun
  have hinj : Function.Injective com.computeBlockHash :=
    Function.LeftInverse.injective hlaw
  have hstart : Answering exec com db.baseHeader state contents start :=
    answering_init saved txKeys accessLists baseDistance persistBatchSize dynamicBatchSize hinj
      hcanonical
  exact (answering_run hstart hok hrun).stateAnswers hlaw view

/-! A state machine that numbers the states, and a view that shows the number. -/

def numberStates : StateMachine Nat where
  valid _ _ _ _ := true
  after _ blk := blk.header.number

def showState : StateView Nat where
  fetchAccount _ _ := none
  fetchStorageRoot _ _ := none
  fetchSlot _ _ _ := none
  getCodeByHash _ _ := none
  proof _ _ := none
  slotProofs _ _ _ := none
  callEvm w _ _ := some [UInt8.ofNat w]
  estimateGas w _ _ := some w
  accessListLoop w _ _ _ := some ([], w)

noncomputable def pairStart : StateNode Nat :=
  StateNode.init (LookupNode.init pairSaved pairContents (fun _ => none) (fun _ => none) 1
    ⟨1, Nat.zero_lt_one⟩ false) 0

def firstHeader : Header := sampleHeader pairDb.baseHash 1 0

def secondHeader : Header := sampleHeader (pairCom.computeBlockHash firstHeader) 2 0

theorem pairStart_importOk : StepRun.StepsOk (fun s (env, e) => StateNode.step numberStates s env e)
      (StateStepOk numberStates) pairStart [(sampleEnv, .importBlock ⟨firstHeader⟩ false)] := by
  refine ⟨⟨?_, ?_, ?_⟩, fun _ _ => trivial⟩
  · intro _ _ _ _ _ h
    cases h
  · intro parent blk hatt harm
    -- nothing has been finalized yet
    obtain ⟨finalized, hattempt, -⟩ := hatt
    cases hattempt
    cases harm
  · intro ⟨i, h, _⟩
    cases h

theorem run_stateQueries_firstImport :
    ∃ s, pairStart.run numberStates [(sampleEnv, .importBlock ⟨firstHeader⟩ false)] = .ok s ∧
      StateAnswers numberStates pairCom pairDb.baseHeader 0 showState s := by
  have hclaim := run_stateQueries numberStates showState pairSaved pairContents
    pairContents_header pairDb_canonicalBelow (fun _ => none) (fun _ => none) 1
    ⟨1, Nat.zero_lt_one⟩ false 0 [(sampleEnv, .importBlock ⟨firstHeader⟩ false)]
    pairStart_importOk
  obtain ⟨s, hrun, -⟩ := exists_ok (r := pairStart.run numberStates
    [(sampleEnv, .importBlock ⟨firstHeader⟩ false)]) (P := fun _ => True) (by decide +kernel)
  exact ⟨s, hrun, hclaim s hrun⟩

/-- Two blocks come in, and the base moves to the first of them. -/
def passBase : List (Env × Event) :=
  [(sampleEnv, .importBlock ⟨firstHeader⟩ false),
    (sampleEnv, .importBlock ⟨secondHeader⟩ false),
    (sampleEnv, .forkChoice (pairCom.computeBlockHash secondHeader)
      (pairCom.computeBlockHash secondHeader) 0),
    (sampleEnv, .handle 0)]

theorem run_contents {contents : Contents} {s s' : StateNode W} {events : List (Env × Event)}
    (hs : s.contents = contents) (hrun : StateNode.run exec s events = .ok s') :
    s'.contents = contents := by
  have hstep : ∀ (s : StateNode W) (x : Env × Event) (s' : StateNode W), s.contents = contents →
      True → StateNode.step exec s x.1 x.2 = .ok s' → s'.contents = contents :=
    fun _ _ _ hs _ hstep => (StateNode_step_eq hstep).2.1.trans hs
  exact StepRun.invariant (·.contents = contents) hstep hs StepRun.stepsOk_true hrun

/-- A call at block 0 is then answered from the state of block 1. -/
theorem eth_call_belowBase :
    ¬ ∀ (W : Type) (exec : StateMachine W) (view : StateView W) (com : CommonRef)
      (db : SavedState com) (saved : SavedBlocks com db) (contents : Contents)
      (txKeys : Hash32 → Option TransactionKey) (accessLists : Hash32 → Option BlockAccessList)
      (baseDistance : Nat) (persistBatchSize : { size : Nat // size > 0 })
      (dynamicBatchSize : Bool) (state : W) (events : List (Env × Event)) (s : StateNode W),
      (∀ hd, contents.header (com.computeBlockHash hd) = hd) →
      CanonicalBelow com db.canonical db.baseHeader →
      (StateNode.init (LookupNode.init saved contents txKeys accessLists baseDistance
        persistBatchSize dynamicBatchSize) state).run exec events = .ok s →
      ∀ args tag, AnsweredAt exec com db.baseHeader state s tag (s.eth_call view args tag)
        fun hd w => view.callEvm w hd args := by
  intro hall
  obtain ⟨s, hrun, hbase, hlatest, hcan, hrecord, hhash, hout, hstate⟩ := exists_ok
    (r := pairStart.run numberStates passBase)
    (P := fun s => s.chain.number s.chain.base = 1 ∧ s.chain.number s.chain.latest = 2 ∧
      s.chain.canonical 0 = some pairDb.baseHash ∧ s.db.header pairDb.baseHash = true ∧
      s.chain.com.computeBlockHash pairDb.baseHeader = pairDb.baseHash ∧
      s.chain.hashToBlock pairDb.baseHash = none ∧ s.states s.chain.baseTxFrame = 1)
    (by decide +kernel)
  have hcontents : s.contents = pairContents := run_contents rfl hrun
  have htag : s.headerFromTag (.number 0) = some pairDb.baseHeader := by
    simp only [headerFromTag, headerByNumber, hlatest, hbase]
    simp only [getBlockHeaderByNumber, getBlockHash, hcan,
      Option.bind_eq_bind, Option.bind_some, getBlockHeader, hrecord, hcontents]
    exact congrArg some (pairContents_header _)
  have hframe : s.txFrameOf pairDb.baseHeader = some s.chain.baseTxFrame := by
    unfold txFrameOf txFrame
    rw [hhash, hout, ite_self]
  have hcall : s.eth_call showState [] (.number 0) = some [1] := by
    unfold eth_call
    simp only [htag, Option.bind_eq_bind, Option.bind_some, hframe, hstate]
    rfl
  obtain ⟨hd, w, htag', hpost, hcompute⟩ := hall Nat numberStates showState pairCom pairDb
    pairSaved pairContents (fun _ => none) (fun _ => none) 1 ⟨1, Nat.zero_lt_one⟩ false 0 passBase
    s pairContents_header pairDb_canonicalBelow hrun [] (.number 0) [1] hcall
  rw [htag] at htag'
  cases htag'
  -- the post-state of block 0 is the saved state, which is 0
  have hzero : w = 0 := hpost.unique pairCom_injective PostState.saved
  subst hzero
  exact absurd hcompute (by decide)

end Nimbus.Spec.ForkedChain
