import Nimbus.Spec.ChainPayloads
import Nimbus.Spec.ForkedChainRuns
import Mathlib.Data.Nat.Pairing

/-!
# The payloads over whole runs

No run loses a payload that is still needed, and a run without `setHead` leaves no payload
behind that nothing needs.
-/

namespace Nimbus.Spec.ForkedChain

open Nimbus.Native.ForkedChain
open ParentTree

/-! ## One step -/

/-- The blocks that a base update takes out of the tree, on their way to the database. -/
def leaving (s s' : ChainNode) (e : Event) : Set Header :=
  {hd | RunsBaseUpdate s.chain e ∧
    ∃ b, InTree s.chain b ∧ ¬ InTree s'.chain b ∧ (s.chain.blocks b).header = hd}

section Step

variable {n₀ : Nat} {saved : BlockDb} {P Q : Set Header} {s s' : ChainNode} {env : Env}
  {e : Event}

theorem leaving_of_sameTree (h : RunsBaseUpdate s.chain e → SameTree s.chain s'.chain) :
    leaving s s' e = ∅ := by
  rw [Set.eq_empty_iff_forall_notMem]
  rintro hd ⟨hruns, b, hb, hout, -⟩
  exact hout ((h hruns).inTree_iff.mpr hb)

theorem leaving_of_movesBase (hw : Wired n₀ s.chain) (hruns : RunsBaseUpdate s.chain e)
    {base : Nat} {R : List Nat} (hm : MovesBase s.chain s'.chain base R) :
    leaving s s' e = headersOf s.chain R := by
  ext hd
  constructor
  · rintro ⟨-, b, hb, hout, heq⟩
    have hbR : b ∈ R := by
      by_contra hbR
      exact hout ((hm.inTree_iff hw).mpr ⟨hb, hbR⟩)
    exact ⟨b, hbR, heq⟩
  · rintro ⟨b, hbR, heq⟩
    exact ⟨hruns, b, hm.inTree b hbR, fun h => ((hm.inTree_iff hw).mp h).2 hbR, heq⟩

theorem Backed.moved (hk : Backed n₀ P s) (hm : Moved s s' e) :
    Backed n₀ (P ∪ leaving s s' e) s' := by
  rcases hm with ⟨hmoves, hsame⟩ | ⟨hruns, hdb, base, R, hm⟩
  · rw [leaving_of_sameTree hsame, Set.union_empty]
    exact hk.moves hmoves
  · rw [leaving_of_movesBase hk.wired hruns hm]
    have hk' := hk.movesBase hm
    rw [← hdb] at hk'
    exact hk'

theorem Backed.step (hk : Backed n₀ P s) (h : s.step env e = .ok s') :
    Backed n₀ (P ∪ leaving s s' e) s' :=
  hk.moved (step_moves hk.wired h)

theorem Exact.moved (hx : Exact saved Q s) (hk : Backed n₀ P s) (hm : Moved s s' e)
    (hno : ∀ headHash, e ≠ .setHead headHash) : Exact saved (Q ∪ leaving s s' e) s' := by
  rcases hm with ⟨hmoves, hsame⟩ | ⟨hruns, hdb, base, R, hm⟩
  · rw [leaving_of_sameTree hsame, Set.union_empty]
    have hd : (∃ headHash, e = .setHead headHash) = False := by
      simp only [eq_iff_iff, iff_false, not_exists]
      exact hno
    rw [hd] at hmoves
    exact hx.moves hk hmoves
  · rw [leaving_of_movesBase hk.wired hruns hm]
    have hx' := hx.movesBase hk hm
    rw [← hdb] at hx'
    exact hx'

theorem Exact.step (hx : Exact saved P s) (hk : Backed n₀ P s) (h : s.step env e = .ok s')
    (hno : ∀ headHash, e ≠ .setHead headHash) : Exact saved (P ∪ leaving s s' e) s' :=
  hx.moved hk (step_moves hk.wired h) hno

/-- A finalized block stays, or a base update takes it out of the tree. -/
theorem finalized_move (hw : Wired n₀ s.chain) (hm : Move False s s') {b : Nat}
    (hb : InTree s.chain b) (hfin : Finalized s.chain b) :
    InTree s'.chain b ∧ Finalized s'.chain b ∧
      (s'.chain.blocks b).header = (s.chain.blocks b).header := by
  cases hm with
  | @relabel c' h =>
    refine ⟨h.inTree_iff.mpr hb, ?_, ?_⟩
    · show (c'.blocks b).isFinalized = true
      rw [h.blocks]
      exact hfin
    · rw [h.blocks]
  | @finalize it next hp =>
    have heq : s.chain.finalize it = marked s.chain [it] := by
      rw [← finalize_marked, marked_nil]
    rw [heq]
    exact ⟨inTree_marked_iff.mpr hb, finalized_marked_iff.mpr (.inl hfin), marked_header b⟩
  | @prune it c' hnf h =>
    obtain ⟨-, rfl⟩ := hw.removeBlockFromCache h
    have hbR : b ∉ [it] := by
      intro hmem
      rw [← List.mem_singleton.mp hmem] at hnf
      exact notFinalized_iff.mp hnf hfin
    refine ⟨inTree_pruned_iff.mpr ⟨hb, hbR⟩, finalized_pruned_iff.mpr hfin, ?_⟩
    rw [pruned_blocks_of_not_mem hbR]
  | discard hd _ => exact hd.elim
  | @attach env parent f blk finalized hp hph hnew hpass hstore =>
    have hblk : (s.chain.appendBlock parent blk (s.chain.com.computeBlockHash blk.header)
        f).1.blocks b = s.chain.blocks b := appendBlock_blocks (Nat.ne_of_lt (hw.lt_next hb))
    refine ⟨(appendBlock_inTree hw hnew).mpr (.inr hb), ?_, ?_⟩
    · show ((s.chain.appendBlock _ _ _ _).1.blocks b).isFinalized = true
      rw [hblk]
      exact hfin
    · rw [hblk]
  | reject hp hph hnew hstore => exact ⟨hb, hfin, rfl⟩

theorem finalized_moves (hk : Backed n₀ P s) (hm : Moves False s s') {b : Nat}
    (hb : InTree s.chain b) (hfin : Finalized s.chain b) :
    InTree s'.chain b ∧ Finalized s'.chain b ∧
      (s'.chain.blocks b).header = (s.chain.blocks b).header := by
  induction hm with
  | refl => exact ⟨hb, hfin, rfl⟩
  | tail hfirst hlast ih =>
    obtain ⟨hb₁, hfin₁, heq₁⟩ := ih
    obtain ⟨hb₂, hfin₂, heq₂⟩ := finalized_move (hk.moves hfirst).wired hlast hb₁ hfin₁
    exact ⟨hb₂, hfin₂, heq₂.trans heq₁⟩

theorem finalized_step (hk : Backed n₀ P s) (h : s.step env e = .ok s')
    (hno : ∀ headHash, e ≠ .setHead headHash) {b : Nat} (hb : InTree s.chain b)
    (hfin : Finalized s.chain b) :
    (InTree s'.chain b ∧ Finalized s'.chain b ∧
      (s'.chain.blocks b).header = (s.chain.blocks b).header) ∨
    (s.chain.blocks b).header ∈ leaving s s' e := by
  rcases step_moves hk.wired h with ⟨hmoves, -⟩ | ⟨hruns, hdb, base, R, hm⟩
  · have hd : (∃ headHash, e = .setHead headHash) = False := by
      simp only [eq_iff_iff, iff_false, not_exists]
      exact hno
    rw [hd] at hmoves
    exact .inl (finalized_moves hk hmoves hb hfin)
  · by_cases hbR : b ∈ R
    · right
      rw [leaving_of_movesBase hk.wired hruns hm]
      exact ⟨b, hbR, rfl⟩
    · exact .inl ⟨(hm.inTree_iff hk.wired).mpr ⟨hb, hbR⟩, hm.finalized hk.wired hfin,
        hm.header hk.wired hbR⟩

theorem Wired.attempt_parent {c : ForkedChainRef} (hw : Wired n₀ c) {parent : BlockRef}
    {blk : Block} {finalized : Bool} (h : attempt c e = some (parent, blk, finalized)) :
    InTree c parent ∧ blk.header.parentHash = c.hash parent := by
  cases e with
  | importBlock blk' finalized' =>
    simp only [attempt, Option.map_eq_some_iff] at h
    obtain ⟨p, hp, heq⟩ := h
    cases heq
    have hhash := hw.key hp
    refine ⟨?_, hhash.symm⟩
    unfold InTree
    rw [hhash]
    exact hp
  | forkChoice _ _ _ => cases h
  | setHead _ => cases h
  | handle i =>
    simp only [attempt] at h
    split at h
    · split at h
      · cases h
      · next hframe =>
        simp only [ForkedChainRef.popOrphan, Option.map_map, Option.map_eq_some_iff] at h
        obtain ⟨found, hfind, heq⟩ := h
        cases heq
        -- the orphan is filed under the hash of its parent
        have hkey : found.1 = c.hash parent := by simpa using List.find?_some hfind
        have hph := hw.orphan found (List.mem_of_find?_eq_some hfind)
        exact ⟨hw.live.mpr hframe, hph.symm.trans hkey⟩
    · cases h

/-- The parent of a block that a step is about to attach is in the store. -/
theorem Backed.recorded_attempt (hk : Backed n₀ P s) {parent : BlockRef} {blk : Block}
    {finalized : Bool} (h : attempt s.chain e = some (parent, blk, finalized)) :
    Recorded s.db blk.header.parentHash := by
  obtain ⟨hparent, hph⟩ := hk.wired.attempt_parent h
  rw [hph]
  exact hk.recorded hparent

end Step

/-! ## Runs -/

/-- The blocks that the base updates of a run take out of the tree. -/
def persistedBlocks : ChainNode → List (Env × Event) → Set Header
  | _, [] => ∅
  | s, (env, e) :: events => {hd | ∃ s', s.step env e = .ok s' ∧
      (hd ∈ leaving s s' e ∨ hd ∈ persistedBlocks s' events)}

/-- The blocks that are finalized at some point of a run. -/
def finalizedBlocks (s : ChainNode) (events : List (Env × Event)) : Set Header :=
  {hd | ∃ done rest s₁ b, events = done ++ rest ∧ s.run done = .ok s₁ ∧
    InTree s₁.chain b ∧ Finalized s₁.chain b ∧ (s₁.chain.blocks b).header = hd}

section Run

variable {n₀ : Nat} {saved : BlockDb} {P : Set Header} {s s' : ChainNode} {env : Env} {e : Event}
  {events : List (Env × Event)}

theorem run_cons_ok (h : s.run ((env, e) :: events) = .ok s') :
    ∃ s₁, s.step env e = .ok s₁ ∧ s₁.run events = .ok s' := by
  simp only [ChainNode.run] at h
  cases hstep : s.step env e with
  | error d =>
    rw [hstep] at h
    cases h
  | ok s₁ =>
    rw [hstep] at h
    exact ⟨s₁, rfl, h⟩

theorem persistedBlocks_cons {s₁ : ChainNode} (h : s.step env e = .ok s₁) :
    persistedBlocks s ((env, e) :: events) = leaving s s₁ e ∪ persistedBlocks s₁ events := by
  ext hd
  constructor
  · rintro ⟨s₂, hs₂, hhd⟩
    rw [h] at hs₂
    cases hs₂
    exact hhd
  · exact fun hhd => ⟨s₁, h, hhd⟩

theorem Backed.run (hk : Backed n₀ P s) (h : s.run events = .ok s') :
    Backed n₀ (P ∪ persistedBlocks s events) s' := by
  induction events generalizing s P with
  | nil =>
    cases h
    have hnil : ∀ s, persistedBlocks s [] = ∅ := fun _ => rfl
    rw [hnil, Set.union_empty]
    exact hk
  | cons x events ih =>
    obtain ⟨s₁, hstep, hrest⟩ := run_cons_ok h
    rw [persistedBlocks_cons hstep, ← Set.union_assoc]
    exact ih (hk.step hstep) hrest

theorem Exact.run (hx : Exact saved P s) (hk : Backed n₀ P s) (h : s.run events = .ok s')
    (hno : ∀ x ∈ events, ∀ headHash, x.2 ≠ .setHead headHash) :
    Exact saved (P ∪ persistedBlocks s events) s' := by
  induction events generalizing s P with
  | nil =>
    cases h
    have hnil : ∀ s, persistedBlocks s [] = ∅ := fun _ => rfl
    rw [hnil, Set.union_empty]
    exact hx
  | cons x events ih =>
    obtain ⟨s₁, hstep, hrest⟩ := run_cons_ok h
    rw [persistedBlocks_cons hstep, ← Set.union_assoc]
    exact ih (hx.step hk hstep (hno _ List.mem_cons_self)) (hk.step hstep) hrest
      fun y hy => hno y (.tail _ hy)

theorem finalized_run (hk : Backed n₀ P s) (h : s.run events = .ok s')
    (hno : ∀ x ∈ events, ∀ headHash, x.2 ≠ .setHead headHash) {b : Nat}
    (hb : InTree s.chain b) (hfin : Finalized s.chain b) :
    (InTree s'.chain b ∧ (s'.chain.blocks b).header = (s.chain.blocks b).header) ∨
    (s.chain.blocks b).header ∈ persistedBlocks s events := by
  induction events generalizing s P with
  | nil =>
    cases h
    exact .inl ⟨hb, rfl⟩
  | cons x events ih =>
    obtain ⟨s₁, hstep, hrest⟩ := run_cons_ok h
    rw [persistedBlocks_cons hstep]
    rcases finalized_step hk hstep (hno _ List.mem_cons_self) hb hfin with
      ⟨hb₁, hfin₁, heq₁⟩ | hleft
    · rcases ih (hk.step hstep) hrest (fun y hy => hno y (.tail _ hy)) hb₁ hfin₁
        with ⟨hb₂, heq₂⟩ | hleft
      · exact .inl ⟨hb₂, heq₂.trans heq₁⟩
      · rw [heq₁] at hleft
        exact .inr (.inr hleft)
    · exact .inr (.inl hleft)

theorem run_append_ok {done rest : List (Env × Event)} {s₁ : ChainNode}
    (h : s.run (done ++ rest) = .ok s') (hdone : s.run done = .ok s₁) : s₁.run rest = .ok s' := by
  induction done generalizing s with
  | nil =>
    cases hdone
    exact h
  | cons x done ih =>
    obtain ⟨s₂, hstep, hrest⟩ := run_cons_ok h
    obtain ⟨s₃, hstep', hdone'⟩ := run_cons_ok hdone
    rw [hstep] at hstep'
    cases hstep'
    exact ih hrest hdone'

end Run

/-! ## From the start of the node -/

section Init

variable {com : CommonRef} {db : SavedState com}

section

variable (saved : SavedBlocks com db) (baseDistance : Nat) (persistBatchSize : { size : Nat // size > 0 })
include persistBatchSize

theorem init_blocks (dynamicBatchSize : Bool) :
    (ChainNode.init saved baseDistance persistBatchSize dynamicBatchSize).chain.blocks 0 =
      { header := db.baseHeader, txFrame := some 0, hash := db.baseHash, isFinalized := true } ∧
    ∀ b, b ≠ 0 →
      (ChainNode.init saved baseDistance persistBatchSize dynamicBatchSize).chain.blocks b = {} := by
  simp only [ChainNode.init, ForkedChainRef.init]
  constructor
  · rw [Function.update_self]
  · intro b hb
    rw [Function.update_of_ne hb]

theorem init_hashToBlock (dynamicBatchSize : Bool) (h : Hash32) :
    (ChainNode.init saved baseDistance persistBatchSize dynamicBatchSize).chain.hashToBlock h =
      if h = db.baseHash then some 0 else none := by
  simp only [ChainNode.init, ForkedChainRef.init, Function.update_apply]

theorem init_inTree (dynamicBatchSize : Bool) {b : Nat} :
    InTree (ChainNode.init saved baseDistance persistBatchSize dynamicBatchSize).chain b ↔
      b = 0 := by
  obtain ⟨hzero, hrest⟩ := init_blocks saved baseDistance persistBatchSize dynamicBatchSize
  have hlookup := init_hashToBlock saved baseDistance persistBatchSize dynamicBatchSize
  generalize hs : ChainNode.init saved baseDistance persistBatchSize dynamicBatchSize = s at *
  unfold InTree
  rw [hlookup]
  by_cases hb : b = 0
  · subst hb
    simp [ForkedChainRef.hash, hzero]
  · have hne : (zeroHash32 : Hash32) ≠ db.baseHash := Ne.symm (com.hash_ne_zero _)
    simp [ForkedChainRef.hash, hrest b hb, hne, hb]

theorem wired_init (dynamicBatchSize : Bool) :
    Wired db.baseHeader.number
      (ChainNode.init saved baseDistance persistBatchSize dynamicBatchSize).chain := by
  have hmem := fun {b} =>
    init_inTree saved baseDistance persistBatchSize dynamicBatchSize (b := b)
  obtain ⟨hzero, hrest⟩ := init_blocks saved baseDistance persistBatchSize dynamicBatchSize
  have hlookup := init_hashToBlock saved baseDistance persistBatchSize dynamicBatchSize
  generalize hs : ChainNode.init saved baseDistance persistBatchSize dynamicBatchSize = s at *
  have hparent : ∀ b, s.chain.parent b = none := by
    intro b
    unfold ForkedChainRef.parent
    by_cases hb : b = 0
    · rw [hb, hzero]
    · rw [hrest b hb]
  constructor
  · intro h b hb
    rw [hlookup] at hb
    split at hb
    · next heq =>
      cases hb
      unfold ForkedChainRef.hash
      rw [hzero]
      exact heq.symm
    · cases hb
  · intro b
    rw [hmem]
    unfold ForkedChainRef.txFrame
    by_cases hb : b = 0
    · rw [hb, hzero]
      simp
    · rw [hrest b hb]
      simp [hb]
  · intro b hb
    rw [hmem.mp hb, ← hs]
    exact Nat.zero_lt_one
  · exact fun _ => hparent _
  · intro b hb
    rw [hmem.mp hb]
    rw [← hs]
    rfl
  · intro b p hp
    rw [hparent b] at hp
    cases hp
  · intro b p hp
    rw [hparent b] at hp
    cases hp
  · intro b hb
    rw [hmem.mp hb]
    unfold ForkedChainRef.number
    rw [hzero]
  · intro o ho
    rw [← hs] at ho
    cases ho

/-- The blocks of the history count as blocks that the base has passed. -/
theorem backed_init_history (dynamicBatchSize : Bool)
    (hinj : Function.Injective com.computeBlockHash) {H : Set Header}
    (hbelow : ∀ hd ∈ H, hd.number < db.baseHeader.number)
    (hstored : ∀ hd ∈ H, Stored saved.blocks (com.computeBlockHash hd) hd) :
    Backed db.baseHeader.number H
      (ChainNode.init saved baseDistance persistBatchSize dynamicBatchSize) := by
  have hmem := fun {b} =>
    init_inTree saved baseDistance persistBatchSize dynamicBatchSize (b := b)
  refine
    { inj := hinj
      wired := wired_init saved baseDistance persistBatchSize dynamicBatchSize
      stored := ?_
      recorded := ?_
      persisted := hstored
      gone := ?_
      below := fun hd hhd => .inl (Nat.le_of_lt (hbelow hd hhd))
      root := ?_ }
  · intro b hb
    rw [hmem.mp hb]
    exact saved.bodies_base
  · intro b hb
    rw [hmem.mp hb]
    exact ⟨saved.header_base, saved.score_base⟩
  · intro hd hhd
    rw [init_hashToBlock, if_neg]
    intro heq
    have hbase : hd = db.baseHeader := hinj heq
    have hlt := hbelow hd hhd
    rw [hbase] at hlt
    exact Nat.lt_irrefl _ hlt
  · intro b hb _
    rw [hmem.mp hb]
    exact .inl (Nat.le_refl _)

theorem backed_init (dynamicBatchSize : Bool) (hinj : Function.Injective com.computeBlockHash) :
    Backed db.baseHeader.number ∅
      (ChainNode.init saved baseDistance persistBatchSize dynamicBatchSize) :=
  backed_init_history saved baseDistance persistBatchSize dynamicBatchSize hinj
    (fun _ h => h.elim) fun _ h => h.elim

theorem exact_init (dynamicBatchSize : Bool) :
    Exact saved.blocks ∅
      (ChainNode.init saved baseDistance persistBatchSize dynamicBatchSize) where
  nodup key hsaved := by
    show (saved.blocks.bodies key).owners.Nodup
    rw [hsaved]
    exact List.nodup_nil
  owner key hash hmem := .inl (.inl (List.ne_nil_of_mem hmem))
  unowned key hs _ := .inl (.inr (.inl hs))

end

/-- The payloads that `header` asks for are there. -/
def BodiesStored (db : BlockDb) (header : Header) : Prop :=
  ∀ key ∈ bodyData header, (db.bodies key).stored = true

/-- In every run, whatever is imported, finalized, pruned or persisted in whatever order:
the payloads of the blocks of the tree, and of those that base updates have taken out of
it, are in the store. When `setHead` is not called, so are the payloads of every block that
was finalized on the way, and a payload that no such block asks for is gone, unless the
store had it, or an owner record for it, from the start. -/
theorem run_payloads (saved : SavedBlocks com db) (baseDistance : Nat)
    (persistBatchSize : { size : Nat // size > 0 }) (dynamicBatchSize : Bool)
    (hinj : Function.Injective com.computeBlockHash) (events : List (Env × Event)) :
    let start := ChainNode.init saved baseDistance persistBatchSize dynamicBatchSize
    match start.run events with
    | .error _ => True
    | .ok s =>
      (∀ b, InTree s.chain b → BodiesStored s.db (s.chain.blocks b).header) ∧
      (∀ hd ∈ persistedBlocks start events, BodiesStored s.db hd) ∧
      ((∀ x ∈ events, ∀ headHash, x.2 ≠ .setHead headHash) →
        (∀ hd ∈ finalizedBlocks start events, BodiesStored s.db hd) ∧
        ∀ key, (s.db.bodies key).stored = true →
          (∃ b, InTree s.chain b ∧ key ∈ bodyData (s.chain.blocks b).header) ∨
          (∃ hd ∈ persistedBlocks start events, key ∈ bodyData hd) ∨
          (saved.blocks.bodies key).stored = true ∨ (saved.blocks.bodies key).owners ≠ []) := by
  intro start
  have hbacked := backed_init saved baseDistance persistBatchSize dynamicBatchSize hinj
  cases hrun : start.run events with
  | error d => trivial
  | ok s =>
    have hend := hbacked.run hrun
    rw [Set.empty_union] at hend
    have htree : ∀ b, InTree s.chain b → BodiesStored s.db (s.chain.blocks b).header :=
      fun b hb key hk => (hend.stored hb key hk).1
    have hpersisted : ∀ hd ∈ persistedBlocks start events, BodiesStored s.db hd :=
      fun hd hhd key hk => (hend.persisted hd hhd key hk).1
    refine ⟨htree, hpersisted, fun hno => ⟨?_, fun key hs => ?_⟩⟩
    · rintro hd ⟨done, rest, s₁, b, heq, hdone, hb, hfin, rfl⟩
      subst heq
      have hmid := hbacked.run hdone
      have hrest := run_append_ok hrun hdone
      rcases finalized_run hmid hrest (fun x hx => hno x (List.mem_append_right _ hx)) hb hfin with
        ⟨hb', heq⟩ | hleft
      · rw [← heq]
        exact htree b hb'
      · have hend' := hmid.run hrest
        exact fun key hk => (hend'.persisted _ (.inr hleft) key hk).1
    · have hexact := (exact_init saved baseDistance persistBatchSize dynamicBatchSize).run
        hbacked hrun hno
      rw [Set.empty_union] at hexact
      rcases hexact.needed hs with (hown | hsaved | hleft) | hin
      · exact .inr (.inr (.inr hown))
      · exact .inr (.inr (.inl hsaved))
      · exact .inr (.inl hleft)
      · exact .inl hin

end Init

/-! Two children of the base with the same transactions, one of which is finalized. -/

/-- A hash without collisions. -/
def pairCom : CommonRef where
  computeBlockHash header :=
    Nat.pair header.parentHash (Nat.pair header.number (Nat.pair header.stateRoot
      (Nat.pair header.txRoot (Nat.pair header.receiptsRoot (Nat.pair header.ommersHash
        (Nat.pair (header.withdrawalsRoot.elim 0 (· + 1))
          (Nat.pair header.logsBloom (Nat.pair header.timestamp
            (header.blockAccessListHash.elim 0 (· + 1)))))))))) + 1
  hash_ne_zero _ := Nat.succ_ne_zero _

theorem pairCom_injective : Function.Injective pairCom.computeBlockHash := by
  rintro ⟨p, n, st, tx, rc, om, wd, bl, ti, al⟩ ⟨p', n', st', tx', rc', om', wd', bl', ti', al'⟩ h
  simp only [pairCom, Nat.add_right_cancel_iff, Nat.pair_eq_pair] at h
  obtain ⟨rfl, rfl, rfl, rfl, rfl, rfl, hwd, rfl, rfl, hal⟩ := h
  have hwd' : wd = wd' := by
    cases wd <;> cases wd' <;> simp_all
  have hal' : al = al' := by
    cases al <;> cases al' <;> simp_all
  rw [hwd', hal']

def pairDb : SavedState pairCom where
  baseHeader := sampleHeader zeroHash32 0 0
  canonical _ := some (pairCom.computeBlockHash (sampleHeader zeroHash32 0 0))
  canonical_base := rfl

def pairSaved : SavedBlocks pairCom pairDb where
  blocks := { bodies := fun _ => {}, header := fun _ => true, score := fun _ => true,
              startOfHistory := zeroHash32 }
  header_base := rfl
  score_base := rfl
  bodies_base _ hk := nomatch hk

def siblingHeader (stateRoot : Nat) : Header :=
  { sampleHeader pairDb.baseHash 1 stateRoot with txRoot := 7 }

def finalizeSibling : List (Env × Event) :=
  [(sampleEnv, .importBlock ⟨siblingHeader 1⟩ false),
    (sampleEnv, .importBlock ⟨siblingHeader 2⟩ false),
    (sampleEnv, .forkChoice (pairCom.computeBlockHash (siblingHeader 1))
      (pairCom.computeBlockHash (siblingHeader 1)) 0)]

theorem run_payloads_finalizeSibling :
    ∃ s, (ChainNode.init pairSaved 3 ⟨1, Nat.zero_lt_one⟩ false).run finalizeSibling = .ok s ∧
      ∀ b, InTree s.chain b → BodiesStored s.db (s.chain.blocks b).header := by
  have hclaim := run_payloads pairSaved 3 ⟨1, Nat.zero_lt_one⟩ false pairCom_injective
    finalizeSibling
  obtain ⟨s, hrun, -⟩ := exists_ok (r := (ChainNode.init pairSaved 3 ⟨1, Nat.zero_lt_one⟩ false).run
    finalizeSibling) (P := fun _ => True) (by decide +kernel)
  simp only [hrun] at hclaim
  exact ⟨s, hrun, hclaim.1⟩

end Nimbus.Spec.ForkedChain
