import Nimbus.Spec.ForkedChainFinalize

/-!
# Moving the base

A fork choice, or an import far behind the finalized block, queues a series of blocks that
are to become the base one after the other (`queueUpdateBase`); each `processUpdateBase`
persists the next one and drops what lies below it (`updateBase`). Imports and fork choices
land in between, so what the queue holds is part of the state invariant `Inv`.
-/

namespace Nimbus.Spec.ForkedChain

open Nimbus.Native.ForkedChain
open ParentTree ForkedChainRef Function

/-- The state invariant of `ForkedChainRef` between two steps. -/
structure Inv (c : ForkedChainRef) : Prop where
  linked : Linked c
  finality : Finality c
  heads : Heads c
  /-- the bases to come are finalized blocks of the tree, in order -/
  queued : ∀ b ∈ c.baseQueue, InTree c b ∧ Finalized c b
  sorted : c.baseQueue.Pairwise fun a b => c.number a ≤ c.number b
  orphan : ∀ o ∈ c.orphans, o.1 = o.2.header.parentHash
  saved : c.canonical (c.number c.base) = some (c.hash c.base)

/-- `fcuHead` designates a block of the tree. -/
def FcuHeadInTree (c : ForkedChainRef) : Prop :=
  ∃ b, InTree c b ∧ c.hash b = c.fcuHead.hash ∧ c.number b = c.fcuHead.number

/-- Every head is on top of every finalized block. -/
def Guarded (c : ForkedChainRef) : Prop :=
  ∀ h ∈ c.heads, ∀ x, InTree c x → Finalized c x → Anc c.parent h x

/-- What a step keeps of the finalized blocks: they stay in the tree, or the base has moved
past them and the number lookup on disk leads to them. -/
structure Settled (c c' : ForkedChainRef) : Prop where
  base_le : c.number c.base ≤ c'.number c'.base
  canonical : ∀ n, n < c.number c.base → c'.canonical n = c.canonical n
  kept : ∀ x, InTree c x → Finalized c x →
    (InTree c' x ∧ Finalized c' x ∧ c'.hash x = c.hash x ∧ c'.number x = c.number x) ∨
    (c.number x < c'.number c'.base ∧ c'.canonical (c.number x) = some (c.hash x))

theorem Settled.refl (c : ForkedChainRef) : Settled c c where
  base_le := Nat.le_refl _
  canonical _ _ := rfl
  kept _ hx hfin := .inl ⟨hx, hfin, rfl, rfl⟩

variable {c : ForkedChainRef}

theorem Settled.trans {a b : ForkedChainRef} (hab : Settled a b) (hbc : Settled b c) :
    Settled a c where
  base_le := Nat.le_trans hab.base_le hbc.base_le
  canonical n hn := by
    rw [hbc.canonical n (Nat.lt_of_lt_of_le hn hab.base_le), hab.canonical n hn]
  kept x hx hfin := by
    rcases hab.kept x hx hfin with ⟨hxb, hfinb, hhash, hnum⟩ | ⟨hlt, hcan⟩
    · rcases hbc.kept x hxb hfinb with ⟨hxc, hfinc, hhash', hnum'⟩ | ⟨hlt, hcan⟩
      · exact .inl ⟨hxc, hfinc, hhash'.trans hhash, hnum'.trans hnum⟩
      · rw [hnum] at hlt hcan
        rw [hhash] at hcan
        exact .inr ⟨hlt, hcan⟩
    · refine .inr ⟨Nat.lt_of_lt_of_le hlt hbc.base_le, ?_⟩
      rw [hbc.canonical _ hlt, hcan]

variable {c' : ForkedChainRef}

/-- Changes to the bookkeeping around the tree keep the invariant. -/
theorem Inv.congr (hi : Inv c) (h : c' = { c with
      pendingFCU := c'.pendingFCU, latestFinalized := c'.latestFinalized
      persistBatchSize := c'.persistBatchSize, fcuHead := c'.fcuHead, fcuSafe := c'.fcuSafe
      queue := c'.queue }) : Inv c' := by
  rw [h]
  exact ⟨hi.linked.congr rfl, hi.finality.congr rfl,
    ⟨hi.heads.mem_iff, hi.heads.nodup, hi.heads.latest_mem⟩,
    hi.queued, hi.sorted, hi.orphan, hi.saved⟩

theorem Settled.congr {d : ForkedChainRef} (hs : Settled d c) (h : c' = { c with
      pendingFCU := c'.pendingFCU, latestFinalized := c'.latestFinalized
      persistBatchSize := c'.persistBatchSize, fcuHead := c'.fcuHead, fcuSafe := c'.fcuSafe
      queue := c'.queue }) : Settled d c' := by
  rw [h]
  exact ⟨hs.base_le, hs.canonical, hs.kept⟩

/-- A handler that leads from `c` to `c'` does what it should: heads stay on top of the
finalized blocks under the condition `p`, and `fcuHead` stays in the tree under `q`. -/
structure Sound (c c' : ForkedChainRef) (p q : Prop) : Prop where
  inv : Inv c'
  settled : Settled c c'
  guarded : p → Guarded c → Guarded c'
  fcuHead : q → FcuHeadInTree c → FcuHeadInTree c'

theorem Sound.refl (hi : Inv c) {p q : Prop} : Sound c c p q :=
  ⟨hi, Settled.refl c, fun _ => id, fun _ => id⟩

theorem Sound.imp {p p' q q' : Prop} (h : Sound c c' p q)
    (hp : p' → p) (hq : q' → q) : Sound c c' p' q' :=
  ⟨h.inv, h.settled, fun hp' => h.guarded (hp hp'), fun hq' => h.fcuHead (hq hq')⟩

theorem Sound.trans {a b : ForkedChainRef} {p q : Prop} (h : Sound a b p q)
    (h' : Sound b c p q) : Sound a c p q :=
  ⟨h'.inv, h.settled.trans h'.settled, fun hp hg => h'.guarded hp (h.guarded hp hg),
    fun hq hf => h'.fcuHead hq (h.fcuHead hq hf)⟩

/-- Bookkeeping around the tree that leaves `fcuHead` alone. -/
theorem Sound.congr {d : ForkedChainRef} {p q : Prop} (hs : Sound d c p q) (h : c' = { c with
      pendingFCU := c'.pendingFCU, latestFinalized := c'.latestFinalized
      persistBatchSize := c'.persistBatchSize, fcuSafe := c'.fcuSafe
      queue := c'.queue }) : Sound d c' p q := by
  rw [h]
  exact ⟨hs.inv.congr rfl, hs.settled.congr rfl, hs.guarded, hs.fcuHead⟩

section

variable {c : ForkedChainRef}

/-! ## Finalization keeps the invariant -/

/-- Every finalized block is on the lineage of `fin`, unless there is only one branch. -/
def TopFinalized (c : ForkedChainRef) (fin : BlockRef) : Prop :=
  c.heads.length = 1 ∨ ∀ x, InTree c x → Finalized c x → Anc c.parent fin x

variable {c' : ForkedChainRef} {x : Nat}

theorem FinalizedAt.number {fin : Nat} (h : FinalizedAt c c' fin)
    (hx : InTree c' x) : c'.number x = c.number x := by
  show (c'.blocks x).header.number = (c.blocks x).header.number
  rw [h.header hx]

theorem FinalizedAt.anc_iff {fin a : Nat} (h : FinalizedAt c c' fin)
    (hl' : Linked c') (hx : InTree c' x) : Anc c'.parent x a ↔ Anc c.parent x a := by
  constructor
  · intro hanc
    refine hanc.congr (P := fun y => InTree c' y) (fun i p hi hp => hl'.inTree_parent hi hp) ?_ hx
    intro i p hi hp
    rw [← h.parent hi, hp]
  · intro hanc
    refine hanc.congr (P := fun y => InTree c' y) ?_ ?_ hx
    · intro i p hi hp
      rw [← h.parent hi] at hp
      exact hl'.inTree_parent hi hp
    · intro i p hi hp
      rw [h.parent hi, hp]

section

variable {fin : Nat} (h : FinalizedAt c c' fin) (hi : Inv c) (hfin : InTree c fin)
  (htop : TopFinalized c fin)
include h hi hfin htop

theorem FinalizedAt.kept (hx : InTree c x) (hxfin : Finalized c x) : InTree c' x := by
  refine h.inTree.mpr ⟨hx, ?_⟩
  rcases htop with h1 | htop
  · exact hi.heads.comparable_of_single hi.linked h1 hx hfin
  · exact .inr (htop x hx hxfin)

theorem FinalizedAt.inv (hl' : Linked c') (hf' : Finality c') (hh' : Heads c') : Inv c' := by
  have hbase : c'.base = c.base := congrArg (·.base) h.rest
  have hqueue : c'.baseQueue = c.baseQueue := congrArg (·.baseQueue) h.rest
  have horphans : c'.orphans = c.orphans := congrArg (·.orphans) h.rest
  have hcan : c'.canonical = c.canonical := congrArg (·.canonical) h.rest
  have hstay : ∀ b ∈ c.baseQueue, InTree c' b := fun b hb =>
    h.kept hi hfin htop (hi.queued b hb).1 (hi.queued b hb).2
  exact {
    linked := hl'
    finality := hf'
    heads := hh'
    queued := by
      rw [hqueue]
      exact fun b hb => ⟨hstay b hb, h.finalized.mpr (.inl (hi.queued b hb).2)⟩
    sorted := by
      rw [hqueue]
      refine hi.sorted.imp_of_mem fun {a b} ha hb hle => ?_
      rw [h.number (hstay a ha), h.number (hstay b hb)]
      exact hle
    orphan := by
      rw [horphans]
      exact hi.orphan
    saved := by
      rw [h.number hl'.base_mem, h.hash, hcan, hbase]
      exact hi.saved }

theorem FinalizedAt.settled (hl' : Linked c') : Settled c c' where
  base_le := by
    have hbase : c'.base = c.base := congrArg (·.base) h.rest
    exact Nat.le_of_eq (by rw [h.number hl'.base_mem, hbase])
  canonical n _ := by
    have hcan : c'.canonical = c.canonical := congrArg (·.canonical) h.rest
    rw [hcan]
  kept x hx hxfin := by
    have hx' := h.kept hi hfin htop hx hxfin
    exact .inl ⟨hx', h.finalized.mpr (.inl hxfin), by rw [h.hash], h.number hx'⟩

end

/-! ## `calculateNewBase` -/

/-- The number the base moves to for a head with number `n`. -/
def newBaseNumber (c : ForkedChainRef) (finalizedNumber n : Nat) : Nat :=
  let target := min finalizedNumber (max n c.baseDistance - c.baseDistance)
  if target ≤ c.number c.base ∨ target - c.number c.base < c.persistBatchSize then
    c.number c.base
  else target

theorem newBaseNumber_le (c : ForkedChainRef) (fin n : Nat) :
    newBaseNumber c fin n ≤ max fin (c.number c.base) := by
  simp only [newBaseNumber]
  split <;> omega

theorem calculateNewBase_spec (hl : Linked c) {head : Nat} (hh : InTree c head) (fin : Nat) :
    ∃ b, c.calculateNewBase fin head = .ok b ∧ Anc c.parent head b ∧
      c.number b = newBaseNumber c fin (c.number head) := by
  simp only [calculateNewBase, newBaseNumber]
  generalize htgt : min fin (max (c.number head) c.baseDistance - c.baseDistance) = target
  by_cases h1 : target ≤ c.number c.base
  · rw [if_pos h1, if_pos (.inl h1)]
    exact ⟨c.base, rfl, hl.anc_base hh, rfl⟩
  · by_cases h2 : target - c.number c.base < c.persistBatchSize
    · rw [if_neg h1, if_pos h2, if_pos (.inr h2)]
      exact ⟨c.base, rfl, hl.anc_base hh, rfl⟩
    · rw [if_neg h1, if_neg h2, if_neg (by omega)]
      obtain ⟨a, hanc, hnum⟩ := hl.exists_anc_number (n := target) hh (by omega) (by omega)
      cases hfind : (c.ancestors (some head)).find? (c.number · == target) with
      | none =>
        have hno := List.find?_eq_none.mp hfind a ((hl.mem_ancestors hh).mpr hanc)
        simp [hnum] at hno
      | some b =>
        have hbt := List.find?_some hfind
        have hbmem := List.mem_of_find?_eq_some hfind
        exact ⟨b, rfl, (hl.mem_ancestors hh).mp hbmem, by simpa using hbt⟩

/-! ## `queueUpdateBase` -/

/-- The steps are on the lineage of `it`, above the previous base and from high to low. -/
theorem baseSteps_spec (hl : Linked c) {prevNumber : Nat} (hprev : c.number c.base ≤ prevNumber)
    (number : Nat) {fuel it : Nat} (hit : InTree c it) (hfuel : it < fuel) :
    ∃ steps, c.baseSteps prevNumber fuel number (some it) = .ok steps ∧
      (∀ x ∈ steps, Anc c.parent it x ∧ prevNumber < c.number x) ∧
      steps.Pairwise fun a b => c.number b ≤ c.number a := by
  induction fuel generalizing number it with
  | zero => omega
  | succ fuel ih =>
    simp only [baseSteps]
    by_cases hgt : c.number it > prevNumber
    · have hne : it ≠ c.base := by
        rintro rfl
        omega
      obtain ⟨p, hp, hpt, _⟩ := hl.link hit hne
      have hlt := hl.parent_lt it p hp
      rw [if_pos hgt, hp]
      by_cases heq : c.number it = number
      · obtain ⟨steps, hrun, hmem, hsorted⟩ :=
          ih (number - min number c.persistBatchSize) hpt (by omega)
        rw [if_pos heq, hrun]
        refine ⟨it :: steps, rfl, ?_, ?_⟩
        · intro x hx
          rcases List.mem_cons.mp hx with rfl | hx
          · exact ⟨Anc.refl _, hgt⟩
          · exact ⟨Anc.head hp (hmem x hx).1, (hmem x hx).2⟩
        · refine List.pairwise_cons.mpr ⟨fun x hx => ?_, hsorted⟩
          exact hl.number_le hit (Anc.head hp (hmem x hx).1)
      · obtain ⟨steps, hrun, hmem, hsorted⟩ := ih number hpt (by omega)
        rw [if_neg heq, hrun]
        exact ⟨steps, rfl, fun x hx => ⟨Anc.head hp (hmem x hx).1, (hmem x hx).2⟩, hsorted⟩
    · rw [if_neg hgt]
      exact ⟨[], rfl, by simp, List.Pairwise.nil⟩

theorem number_le_getLast {xs : List Nat} {d : Nat}
    (h : xs.Pairwise fun a b => c.number a ≤ c.number b) (hx : x ∈ xs) :
    c.number x ≤ c.number (xs.getLast?.getD d) := by
  rcases List.eq_nil_or_concat xs with rfl | ⟨ys, y, rfl⟩
  · simp at hx
  · rw [List.concat_eq_append] at h hx ⊢
    rw [List.getLast?_concat, Option.getD_some]
    rcases List.mem_append.mp hx with hx | hx
    · exact (List.pairwise_append.mp h).2.2 x hx y (List.mem_singleton_self y)
    · exact Nat.le_of_eq (by rw [List.mem_singleton.mp hx])

variable {base : Nat}

theorem queueUpdateBase_spec (hi : Inv c) (hb : InTree c base)
    (hfin : Finalized c base) :
    ∃ c', c.queueUpdateBase base = .ok c' ∧ Inv c' ∧
      c' = { c with baseQueue := c'.baseQueue, queue := c'.queue } := by
  have hl := hi.linked
  unfold queueUpdateBase
  generalize hprevq : c.baseQueue.getLast?.getD c.base = prev
  have hprev : c.number c.base ≤ c.number prev := by
    cases hlast : c.baseQueue.getLast? with
    | none =>
      rw [hlast] at hprevq
      exact Nat.le_of_eq (by rw [← hprevq]; rfl)
    | some x =>
      rw [hlast] at hprevq
      rw [← hprevq]
      exact hl.number_base_le (hi.queued x (List.mem_of_getLast? hlast)).1
  by_cases hle : c.number prev ≥ c.number base
  · refine ⟨c, ?_, hi, rfl⟩
    simp only [if_pos hle]
    rfl
  · obtain ⟨steps, hrun, hmem, hsorted⟩ := baseSteps_spec hl hprev
      (c.number base - min (c.number base) c.persistBatchSize) hb (Nat.lt_succ_self base)
    have hall : ∀ x ∈ base :: steps, Anc c.parent base x ∧ c.number prev < c.number x := by
      intro x hx
      rcases List.mem_cons.mp hx with rfl | hx
      · exact ⟨Anc.refl _, by omega⟩
      · exact hmem x hx
    refine ⟨{ c with
      baseQueue := c.baseQueue ++ (base :: steps).reverse
      queue := c.queue ++ [.processUpdateBase] }, ?_, ?_, rfl⟩
    · simp only [if_neg hle]
      rw [hrun]
      rfl
    · refine ⟨hl.congr rfl, hi.finality.congr rfl,
        ⟨hi.heads.mem_iff, hi.heads.nodup, hi.heads.latest_mem⟩, ?_, ?_, hi.orphan, hi.saved⟩
      · intro x hx
        rcases List.mem_append.mp hx with hx | hx
        · exact hi.queued x hx
        · have hanc := (hall x (List.mem_reverse.mp hx)).1
          exact ⟨hl.inTree_anc hb hanc, hi.finality.anc hl hb hfin hanc⟩
      · refine List.pairwise_append.mpr ⟨hi.sorted, ?_, ?_⟩
        · rw [List.pairwise_reverse]
          exact List.pairwise_cons.mpr ⟨fun x hx => hl.number_le hb (hmem x hx).1, hsorted⟩
        · intro a ha b hbq
          have hlast := number_le_getLast (d := c.base) hi.sorted ha
          rw [hprevq] at hlast
          exact Nat.le_trans hlast (Nat.le_of_lt (hall b (List.mem_reverse.mp hbq)).2)

/-! ## `updateBase` -/

theorem removeBlocks_pruned (hkey : ∀ {h x}, c.hashToBlock h = some x → c.hash x = h)
    {H : List Nat} {L R : List Nat} (hnd : L.Nodup) (hR : ∀ x ∈ L, x ∉ R)
    (hL : ∀ x ∈ L, InTree c x ∧ ∃ f, c.txFrame x = some f) :
    removeBlocks (pruned c R H) L = .ok (pruned c (L.reverse ++ R) H) := by
  induction L generalizing R with
  | nil => rfl
  | cons b L ih =>
    obtain ⟨hbL, hnd⟩ := List.nodup_cons.mp hnd
    obtain ⟨hb, f, hf⟩ := hL b List.mem_cons_self
    have hbR : b ∉ R := hR b List.mem_cons_self
    have hrest := ih (R := b :: R) hnd (fun x hx hmem => by
      rcases List.mem_cons.mp hmem with rfl | hmem
      · exact hbL hx
      · exact hR x (.tail _ hx) hmem)
      (fun x hx => hL x (.tail _ hx))
    simp only [removeBlocks]
    rw [removeBlockFromCache_pruned hkey hb hf hbR]
    show removeBlocks (pruned c (b :: R) H) L = _
    rw [hrest, List.reverse_cons, List.append_assoc]
    rfl

/-- The state `updateBase` ends in, but for the batch size: the blocks `R` below `base` are
gone, and `base` with its frame is the new bottom. -/
def rebased (c : ForkedChainRef) (base frame : Nat) (R : List Nat) : ForkedChainRef :=
  let c₁ := { (c.writeCanonicalMappings base).persistFrame frame with baseTxFrame := frame }
  let c₂ := { pruned c₁ R c.heads with base := base }
  (c₂.modifyBlock base fun o => { o with parent := none }).finalize base

section Rebased

variable {base frame : Nat} {R : List Nat}

theorem rebased_blocks_base (hR : base ∉ R) :
    (rebased c base frame R).blocks base
      = { c.blocks base with parent := none, isFinalized := true } := by
  simp [rebased, finalize, modifyBlock, pruned, hR,
    persistFrame, writeCanonicalMappings]

theorem rebased_blocks (hx : x ≠ base) :
    (rebased c base frame R).blocks x = (pruned c R c.heads).blocks x := by
  simp only [rebased, finalize, modifyBlock,
    update_of_ne hx]
  rfl

theorem rebased_hash (hR : base ∉ R) (x : Nat) : (rebased c base frame R).hash x = c.hash x := by
  by_cases hx : x = base
  · subst hx
    simp only [ForkedChainRef.hash, rebased_blocks_base hR]
  · have := pruned_hash (c := c) (R := R) (H := c.heads) x
    simpa only [ForkedChainRef.hash, rebased_blocks hx] using this

@[simp] theorem inTree_rebased_iff (hR : base ∉ R) :
    InTree (rebased c base frame R) x ↔ InTree c x ∧ x ∉ R := by
  have hlookup : (rebased c base frame R).hashToBlock = (pruned c R c.heads).hashToBlock := rfl
  rw [InTree, rebased_hash hR, hlookup, pruned_hashToBlock_eq_some]
  rfl

theorem rebased_header (hbR : base ∉ R) (hx : x ∉ R) :
    ((rebased c base frame R).blocks x).header = (c.blocks x).header := by
  by_cases hb : x = base
  · subst hb
    rw [rebased_blocks_base hbR]
  · rw [rebased_blocks hb, pruned_blocks_of_not_mem hx]

theorem rebased_txFrame (hbR : base ∉ R) :
    (rebased c base frame R).txFrame x = if x ∈ R then none else c.txFrame x := by
  by_cases hb : x = base
  · subst hb
    rw [if_neg hbR]
    simp only [txFrame, rebased_blocks_base hbR]
  · have := pruned_txFrame (c := c) (R := R) (H := c.heads) x
    simpa only [txFrame, rebased_blocks hb] using this

theorem rebased_parent (hx : x ≠ base) :
    (rebased c base frame R).parent x = if x ∈ R then none else c.parent x := by
  have := pruned_parent (c := c) (R := R) (H := c.heads) x
  simpa only [ForkedChainRef.parent, rebased_blocks hx] using this

theorem rebased_parent_base (hR : base ∉ R) : (rebased c base frame R).parent base = none := by
  simp only [ForkedChainRef.parent, rebased_blocks_base hR]

theorem finalized_rebased_iff (hR : base ∉ R) :
    Finalized (rebased c base frame R) x ↔ x = base ∨ Finalized c x := by
  by_cases hx : x = base
  · subst hx
    simp [Finalized, rebased_blocks_base hR]
  · have := finalized_pruned_iff (c := c) (R := R) (H := c.heads) (b := x)
    simp only [hx, false_or]
    simpa only [Finalized, rebased_blocks hx] using this

theorem rebased_frames {f : Nat} (hf : f ≠ frame) :
    (rebased c base frame R).frames f = (pruned c R c.heads).frames f := by
  show (if ∃ b ∈ R, c.txFrame b = some f then
      { update c.frames frame _ f with disposed := true }
    else update c.frames frame _ f) = _
  rw [update_of_ne hf]
  rfl

theorem rebased_frames_disposed {f : Nat} (hno : ∀ b ∈ R, c.txFrame b ≠ some f) :
    ((rebased c base frame R).frames f).disposed = (c.frames f).disposed := by
  have hne : ¬ ∃ b ∈ R, c.txFrame b = some f := by
    rintro ⟨b, hb, hbf⟩
    exact hno b hb hbf
  show (if ∃ b ∈ R, c.txFrame b = some f then
      { update c.frames frame _ f with disposed := true }
    else update c.frames frame _ f).disposed = _
  rw [if_neg hne]
  by_cases hf : f = frame
  · subst hf
    rw [update_self]
    rfl
  · rw [update_of_ne hf]

/-- Every branch lies above `base`, and `R` are the blocks below it. -/
structure Below (c : ForkedChainRef) (base : Nat) (R : List Nat) : Prop where
  mem : InTree c base
  branches : ∀ h ∈ c.heads, Anc c.parent h base
  inTree : ∀ x ∈ R, InTree c x
  removed : ∀ x, InTree c x → (x ∈ R ↔ ¬ Anc c.parent x base)

theorem Below.base_not_mem (hb : Below c base R) : base ∉ R := fun h =>
  (hb.removed base hb.mem).mp h (Anc.refl _)

/-- A block that stays is `base` or keeps its parent. -/
theorem Below.parent_not_mem (hb : Below c base R) (hl : Linked c) {p : Nat}
    (hx : InTree c x) (hxR : x ∉ R) (hne : x ≠ base) (hp : c.parent x = some p) : p ∉ R := by
  intro hpR
  have hpt := hl.inTree_parent hx hp
  have hanc : Anc c.parent x base := by
    by_contra hno
    exact hxR ((hb.removed x hx).mpr hno)
  exact (hb.removed p hpt).mp hpR (hanc.of_ne hne hp)

theorem Linked.rebased (hl : Linked c) (hb : Below c base R) (hframe : c.txFrame base = some frame) :
    Linked (rebased c base frame R) := by
  have hbR := hb.base_not_mem
  have hmem : ∀ {x}, InTree (ForkedChain.rebased c base frame R) x →
      InTree c x ∧ x ∉ R := fun hx => (inTree_rebased_iff hbR).mp hx
  have htx : ∀ {x}, x ∉ R →
      (ForkedChain.rebased c base frame R).txFrame x = c.txFrame x := by
    intro x hx
    rw [rebased_txFrame hbR, if_neg hx]
  exact {
    lt_next := fun hx => hl.lt_next (hmem hx).1
    key := by
      intro h x hx
      have hx' : (ForkedChain.pruned c R c.heads).hashToBlock h = some x := hx
      rw [rebased_hash hbR]
      exact hl.key (pruned_hashToBlock_eq_some.mp hx').1
    hash_eq := by
      intro x hx
      rw [rebased_hash hbR, rebased_header hbR (hmem hx).2]
      exact hl.hash_eq (hmem hx).1
    parent_lt := by
      intro i p hp
      by_cases hi : i = base
      · subst hi
        rw [rebased_parent_base hbR] at hp
        cases hp
      · rw [rebased_parent hi] at hp
        split at hp
        · cases hp
        · exact hl.parent_lt i p hp
    base_mem := (inTree_rebased_iff hbR).mpr ⟨hb.mem, hbR⟩
    base_parent := rebased_parent_base hbR
    base_frame := by
      show (ForkedChain.rebased c base frame R).txFrame base = some frame
      rw [htx hbR, hframe]
    link := by
      intro x hx hne
      change x ≠ base at hne
      obtain ⟨hx, hxR⟩ := hmem hx
      have hxb : x ≠ c.base := by
        rintro rfl
        have hanc : Anc c.parent c.base base := by
          by_contra hno
          exact hxR ((hb.removed _ hx).mpr hno)
        exact hne (hanc.eq_of_root hl.base_parent)
      obtain ⟨p, hp, hpt, hn, hph, f, g, hf, hg, hfg⟩ := hl.link hx hxb
      have hpR := hb.parent_not_mem hl hx hxR hne hp
      have hff : f ≠ frame := by
        intro heq
        rw [heq] at hf
        exact hne (hl.frame_inj hx hb.mem hf hframe)
      refine ⟨p, ?_, (inTree_rebased_iff hbR).mpr ⟨hpt, hpR⟩, ?_, ?_, f, g, ?_, ?_, ?_⟩
      · rw [rebased_parent hne, if_neg hxR, hp]
      · simp only [ForkedChainRef.number, rebased_header hbR hxR, rebased_header hbR hpR]
        exact hn
      · rw [rebased_header hbR hxR, rebased_hash hbR, hph]
      · rw [htx hxR, hf]
      · rw [htx hpR, hg]
      · rw [rebased_frames hff, pruned_frames_parent, hfg]
    live := by
      intro x hx
      obtain ⟨hx, hxR⟩ := hmem hx
      obtain ⟨f, hf, hlt, hdis⟩ := hl.live hx
      refine ⟨f, by rw [htx hxR, hf], hlt, ?_⟩
      rw [rebased_frames_disposed, hdis]
      intro b hbm hbf
      exact hxR (hl.frame_inj (hb.inTree b hbm) hx hbf hf ▸ hbm)
    frame_inj := by
      intro x y f hx hy hfx hfy
      rw [htx (hmem hx).2] at hfx
      rw [htx (hmem hy).2] at hfy
      exact hl.frame_inj (hmem hx).1 (hmem hy).1 hfx hfy
    gone := by
      intro x hx
      rw [rebased_txFrame hbR]
      split
      · rfl
      · next hxR => exact hl.gone fun h => hx ((inTree_rebased_iff hbR).mpr ⟨h, hxR⟩) }

theorem Finality.rebased (hf : Finality c) (hbR : base ∉ R) :
    Finality (rebased c base frame R) where
  base := (finalized_rebased_iff hbR).mpr (.inl rfl)
  down {x p} hx hfin hp := by
    have hne : x ≠ base := by
      rintro rfl
      rw [rebased_parent_base hbR] at hp
      cases hp
    obtain ⟨hx, hxR⟩ := (inTree_rebased_iff hbR).mp hx
    rw [rebased_parent hne, if_neg hxR] at hp
    have hfin' := ((finalized_rebased_iff hbR).mp hfin).resolve_left hne
    exact (finalized_rebased_iff hbR).mpr (.inr (hf.down hx hfin' hp))

theorem Heads.rebased (hh : Heads c) (hl : Linked c) (hb : Below c base R) :
    Heads (rebased c base frame R) where
  mem_iff {x} := by
    have hbR := hb.base_not_mem
    rw [inTree_rebased_iff hbR]
    constructor
    · intro hx
      obtain ⟨hxt, hchild⟩ := hh.mem_iff.mp hx
      refine ⟨⟨hxt, fun hxR => (hb.removed x hxt).mp hxR (hb.branches x hx)⟩, fun d hd hdx => ?_⟩
      obtain ⟨hdt, hdR⟩ := (inTree_rebased_iff hbR).mp hd
      have hne : d ≠ base := by
        rintro rfl
        rw [rebased_parent_base hbR] at hdx
        cases hdx
      rw [rebased_parent hne, if_neg hdR] at hdx
      exact hchild d hdt hdx
    · rintro ⟨⟨hxt, hxR⟩, hchild⟩
      refine hh.mem_iff.mpr ⟨hxt, fun d hd hdx => ?_⟩
      have hxanc : Anc c.parent x base := by
        by_contra hno
        exact hxR ((hb.removed x hxt).mpr hno)
      have hdR : d ∉ R := fun h => (hb.removed d hd).mp h (Anc.head hdx hxanc)
      have hne : d ≠ base := by
        rintro rfl
        have h1 := hl.parent_lt d x hdx
        have h2 := hxanc.le hl.parent_lt
        omega
      refine hchild d ((inTree_rebased_iff hbR).mpr ⟨hd, hdR⟩) ?_
      rw [rebased_parent hne, if_neg hdR, hdx]
  nodup := hh.nodup
  latest_mem := hh.latest_mem

/-- An ancestor that stays is one in the tree on the new base. -/
theorem anc_rebased (hl : Linked c) (hb : Below c base R) {a : Nat} (hx : InTree c x)
    (hxR : x ∉ R) (haR : a ∉ R) (h : Anc c.parent x a) :
    Anc (rebased c base frame R).parent x a := by
  have ha := hl.inTree_anc hx h
  have haanc : Anc c.parent a base := by
    by_contra hno
    exact haR ((hb.removed a ha).mpr hno)
  induction h using Relation.ReflTransGen.head_induction_on with
  | refl => exact Anc.refl _
  | @head i p hp hpa ih =>
    have hne : i ≠ base := by
      rintro rfl
      have h1 := hl.parent_lt i p hp
      have h2 : a ≤ p := Anc.le hl.parent_lt hpa
      have h3 := haanc.le hl.parent_lt
      omega
    refine Anc.head ?_ (ih (hl.inTree_parent hx hp) (hb.parent_not_mem hl hx hxR hne hp))
    rw [rebased_parent hne, if_neg hxR, hp]

end Rebased

/-! ### The number lookups on disk -/

theorem foldl_lookup_of_not_mem (num hash : Nat → Nat) {l : List Nat}
    {canonical : Nat → Option Nat} {n : Nat} (h : ∀ x ∈ l, num x ≠ n) :
    l.foldl (fun m b => update m (num b) (some (hash b))) canonical n = canonical n := by
  induction l generalizing canonical with
  | nil => rfl
  | cons b l ih =>
    rw [List.foldl_cons, ih fun x hx => h x (.tail _ hx)]
    exact update_of_ne (h b List.mem_cons_self).symm _ _

theorem foldl_lookup (num hash : Nat → Nat) {l : List Nat} {canonical : Nat → Option Nat}
    (hx : x ∈ l) (hinj : ∀ y ∈ l, num y = num x → y = x) :
    l.foldl (fun m b => update m (num b) (some (hash b))) canonical (num x)
      = some (hash x) := by
  induction l generalizing canonical with
  | nil => simp at hx
  | cons b l ih =>
    rw [List.foldl_cons]
    by_cases hmem : x ∈ l
    · exact ih hmem fun y hy => hinj y (.tail _ hy)
    · have hxb : x = b := (List.mem_cons.mp hx).resolve_right hmem
      rw [foldl_lookup_of_not_mem, hxb, update_self]
      intro y hy hn
      exact hmem (hinj y (.tail _ hy) hn ▸ hy)

/-- The walk that writes the lookups visits every ancestor above the old base. -/
theorem mem_takeWhile_chain (hl : Linked c) {fuel it : Nat} (hit : InTree c it)
    (hx : x ∈ chain c.parent fuel (some it)) (hne : x ≠ c.base) :
    x ∈ (chain c.parent fuel (some it)).takeWhile fun b => !c.sameBlock b c.base := by
  induction fuel generalizing it with
  | zero => simp [chain] at hx
  | succ fuel ih =>
    simp only [chain, List.mem_cons] at hx ⊢
    by_cases hbase : it = c.base
    · rcases hx with rfl | hx
      · exact absurd hbase hne
      · rw [hbase, hl.base_parent] at hx
        simp at hx
    · have hkeep : (!c.sameBlock it c.base) = true := by
        rw [Bool.not_eq_true', Bool.eq_false_iff]
        exact fun h => hbase ((hit.sameBlock_iff hl.base_mem).mp h)
      rw [List.takeWhile_cons, if_pos hkeep, List.mem_cons]
      rcases hx with rfl | hx
      · exact .inl rfl
      · obtain ⟨p, hp, hpt, _⟩ := hl.link hit hbase
        rw [hp] at hx ⊢
        exact .inr (ih hpt hx)

theorem writeCanonicalMappings_of_le (hi : Inv c) {n : Nat} (hb : InTree c base)
    (hn : n ≤ c.number c.base) : (c.writeCanonicalMappings base).canonical n = c.canonical n := by
  have hl := hi.linked
  refine foldl_lookup_of_not_mem c.number c.hash fun x hx hxn => ?_
  have hsame := List.all_eq_true.mp List.all_takeWhile x hx
  have hanc := (hl.mem_ancestors hb).mp (List.takeWhile_subset _ hx)
  have hxt := hl.inTree_anc hb hanc
  rw [Bool.not_eq_true', Bool.eq_false_iff] at hsame
  exact hsame ((hxt.sameBlock_iff hl.base_mem).mpr (hl.eq_base_of_number hxt (hxn ▸ hn)))

/-- Every block between the old base and the new one can be found by its number. -/
theorem writeCanonicalMappings_spec (hi : Inv c) (hb : InTree c base)
    (hx : Anc c.parent base x) :
    (c.writeCanonicalMappings base).canonical (c.number x) = some (c.hash x) := by
  have hl := hi.linked
  by_cases hne : x = c.base
  · subst hne
    rw [writeCanonicalMappings_of_le hi hb (Nat.le_refl _), hi.saved]
  · refine foldl_lookup c.number c.hash
      (mem_takeWhile_chain hl hb ((hl.mem_ancestors hb).mpr hx) hne) fun y hy hyn => ?_
    have hyanc := (hl.mem_ancestors hb).mp (List.takeWhile_subset _ hy)
    have h := hl.anc_of_number_le hb hyanc hx (Nat.le_of_eq hyn.symm)
    exact hl.eq_of_number (hl.inTree_anc hb hyanc) h (Nat.le_of_eq hyn)

/-! ### The step -/

theorem adjustBatchSize_eq (c : ForkedChainRef) (runTime : Nat) :
    ∃ size, c.adjustBatchSize runTime = { c with persistBatchSize := size } := by
  unfold adjustBatchSize
  split
  · split
    · exact ⟨_, rfl⟩
    · split
      · exact ⟨_, rfl⟩
      · exact ⟨_, rfl⟩
  · exact ⟨_, rfl⟩

/-- The blocks that `updateBase` removes. -/
theorem below_of_branches (hi : Inv c) (hb : InTree c base)
    (hall : ∀ h ∈ c.heads, Anc c.parent h base) :
    Below c base (c.ancestors (c.parent base)).reverse := by
  have hl := hi.linked
  have hmem : ∀ x, x ∈ (c.ancestors (c.parent base)).reverse ↔
      ∃ p, c.parent base = some p ∧ Anc c.parent p x := by
    intro x
    cases hp : c.parent base with
    | none => simp [ancestors]
    | some p => simp [hl.mem_ancestors (hl.inTree_parent hb hp)]
  refine ⟨hb, hall, fun x hx => ?_, fun x hx => ?_⟩
  · obtain ⟨p, hp, hpx⟩ := (hmem x).mp hx
    exact hl.inTree_anc (hl.inTree_parent hb hp) hpx
  · rw [hmem]
    constructor
    · rintro ⟨p, hp, hpx⟩ hno
      have h1 := hl.parent_lt base p hp
      have h2 := hpx.le hl.parent_lt
      have h3 := hno.le hl.parent_lt
      omega
    · intro hno
      obtain ⟨h, hh, hhx⟩ := hi.heads.exists_above hl hx
      rcases hhx.total (hall h hh) with hxb | hbx
      · exact absurd hxb hno
      · rcases hbx.cases_parent with rfl | hstep
        · exact absurd (Anc.refl _) hno
        · exact hstep

theorem updateBase_eq (hi : Inv c) {env : Env} {frame : Nat} (hb : InTree c base)
    (hframe : c.txFrame base = some frame) (hne : c.number base ≠ c.number c.base)
    (hroot : env.frameRoot frame = (c.blocks base).header.stateRoot)
    (hlive : (c.frames frame).disposed = false) :
    c.updateBase env base = .ok ((rebased c base frame
      (c.ancestors (c.parent base)).reverse).adjustBatchSize env.runTime) := by
  have hl := hi.linked
  unfold updateBase
  rw [if_neg hne, hframe]
  simp only [hroot, ne_eq, not_true_eq_false, if_false, hlive, Bool.false_eq_true]
  generalize hc₁ : ({ (c.writeCanonicalMappings base).persistFrame frame with
    baseTxFrame := frame } : ForkedChainRef) = c₁
  have hanc : c₁.ancestors (c₁.parent base) = c.ancestors (c.parent base) := by
    rw [← hc₁]
    rfl
  have hL : ∀ x ∈ c.ancestors (c.parent base), InTree c₁ x ∧ ∃ f, c₁.txFrame x = some f := by
    intro x hx
    have hxt : InTree c x := by
      cases hp : c.parent base with
      | none =>
        rw [hp] at hx
        simp [ancestors] at hx
      | some p =>
        rw [hp] at hx
        have hpt := hl.inTree_parent hb hp
        exact hl.inTree_anc hpt ((hl.mem_ancestors hpt).mp hx)
    obtain ⟨f, hf, _⟩ := hl.live hxt
    rw [← hc₁]
    exact ⟨hxt, f, hf⟩
  have hkey : ∀ {h x}, c₁.hashToBlock h = some x → c₁.hash x = h := by
    rw [← hc₁]
    exact hl.key
  have hnd : (c.ancestors (c.parent base)).Nodup := nodup_chain hl.parent_lt _ _
  have hrun := removeBlocks_pruned (R := []) (H := c₁.heads) hkey hnd (by simp) hL
  rw [pruned_nil, List.append_nil] at hrun
  rw [hanc, hrun, ← hc₁]
  rfl

/-- One step of the base. When every branch lies above the new base, only the sanity check
of its state root can stop the process. -/
theorem updateBase_spec (hi : Inv c) (env : Env) (hb : InTree c base)
    (hfin : Finalized c base) (hqueue : ∀ x ∈ c.baseQueue, c.number base ≤ c.number x)
    (hall : c.number base ≠ c.number c.base → ∀ h ∈ c.heads, Anc c.parent h base) :
    c.updateBase env base = .error .stateRootMismatch ∨
    ∃ c', c.updateBase env base = .ok c' ∧ Sound c c' True
      (c.number base ≠ c.number c.base → c.number base ≤ c.fcuHead.number) := by
  have hl := hi.linked
  by_cases hne : c.number base = c.number c.base
  · right
    refine ⟨c, ?_, Sound.refl hi⟩
    unfold updateBase
    rw [if_pos hne]
  · obtain ⟨frame, hframe, _, hlive⟩ := hl.live hb
    by_cases hroot : env.frameRoot frame = (c.blocks base).header.stateRoot
    · right
      have hbelow := below_of_branches hi hb (hall hne)
      generalize hR : (c.ancestors (c.parent base)).reverse = R at hbelow
      have hrun := updateBase_eq hi hb hframe hne hroot hlive
      rw [hR] at hrun
      have hbR := hbelow.base_not_mem
      have hmem : ∀ {x}, InTree (rebased c base frame R) x ↔ InTree c x ∧ x ∉ R :=
        inTree_rebased_iff hbR
      have hnum : ∀ {x}, x ∉ R → (rebased c base frame R).number x = c.number x := by
        intro x hx
        simp only [ForkedChainRef.number, rebased_header hbR hx]
      -- a block with at least the number of `base` stays
      have hhigh : ∀ {x}, InTree c x → c.number base ≤ c.number x → x ∉ R := by
        intro x hx hle hxR
        obtain ⟨h, hh, hhx⟩ := hi.heads.exists_above hl hx
        have hhb := hbelow.branches h hh
        exact (hbelow.removed x hx).mp hxR
          (hl.anc_of_number_le (hi.heads.inTree hh) hhx hhb hle)
      have hcan : ∀ n, (rebased c base frame R).canonical n
          = (c.writeCanonicalMappings base).canonical n := fun _ => rfl
      have hinv : Inv (rebased c base frame R) := {
        linked := hl.rebased hbelow hframe
        finality := hi.finality.rebased hbR
        heads := hi.heads.rebased hl hbelow
        queued := fun x hx => by
          obtain ⟨hxt, hxfin⟩ := hi.queued x hx
          exact ⟨hmem.mpr ⟨hxt, hhigh hxt (hqueue x hx)⟩,
            (finalized_rebased_iff hbR).mpr (.inr hxfin)⟩
        sorted := by
          refine hi.sorted.imp_of_mem fun {a b} ha hb' hle => ?_
          rw [hnum (hhigh (hi.queued a ha).1 (hqueue a ha)),
            hnum (hhigh (hi.queued b hb').1 (hqueue b hb'))]
          exact hle
        orphan := hi.orphan
        saved := by
          show (rebased c base frame R).canonical ((rebased c base frame R).number base)
            = some ((rebased c base frame R).hash base)
          rw [hnum hbR, hcan, rebased_hash hbR,
            writeCanonicalMappings_spec hi hb (Anc.refl _)] }
      have hsettled : Settled c (rebased c base frame R) := {
        base_le := by
          show c.number c.base ≤ (rebased c base frame R).number base
          rw [hnum hbR]
          exact hl.number_base_le hb
        canonical := fun n hn => by
          rw [hcan, writeCanonicalMappings_of_le hi hb (Nat.le_of_lt hn)]
        kept := fun x hx hxfin => by
          by_cases hxR : x ∈ R
          · -- the base has moved past `x`
            right
            have hlt : c.number x < c.number base := by
              by_contra hge
              exact hhigh hx (by omega) hxR
            refine ⟨?_, ?_⟩
            · show c.number x < (rebased c base frame R).number base
              rw [hnum hbR]
              exact hlt
            · obtain ⟨h, hh, hhx⟩ := hi.heads.exists_above hl hx
              have hanc := hl.anc_of_number_le (hi.heads.inTree hh) (hbelow.branches h hh) hhx
                (Nat.le_of_lt hlt)
              rw [hcan, writeCanonicalMappings_spec hi hb hanc]
          · exact .inl ⟨hmem.mpr ⟨hx, hxR⟩, (finalized_rebased_iff hbR).mpr (.inr hxfin),
              rebased_hash hbR x, hnum hxR⟩ }
      have hguard : Guarded c → Guarded (rebased c base frame R) := by
        intro hg h hh x hx hxfin
        obtain ⟨hx, hxR⟩ := hmem.mp hx
        have hh' : h ∈ c.heads := hh
        have hht := hi.heads.inTree hh'
        have hhR : h ∉ R := fun hm => (hbelow.removed h hht).mp hm (hbelow.branches h hh')
        refine anc_rebased hl hbelow hht hhR hxR ?_
        rcases (finalized_rebased_iff hbR).mp hxfin with rfl | hxfin
        · exact hbelow.branches h hh'
        · exact hg h hh' x hx hxfin
      have hfcu : c.number base ≤ c.fcuHead.number → FcuHeadInTree c →
          FcuHeadInTree (rebased c base frame R) := by
        rintro hle ⟨f, hf, hhash, hfnum⟩
        have hfR := hhigh hf (by omega)
        exact ⟨f, hmem.mpr ⟨hf, hfR⟩, (rebased_hash hbR f).trans hhash,
          (hnum hfR).trans hfnum⟩
      obtain ⟨size, hsize⟩ := adjustBatchSize_eq (rebased c base frame R) env.runTime
      rw [hsize] at hrun
      exact ⟨_, hrun, hinv.congr rfl, hsettled.congr rfl, fun _ => hguard,
        fun hle hf => hfcu (hle hne) hf⟩
    · left
      unfold updateBase
      rw [if_neg hne, hframe]
      simp only [ne_eq, hroot, not_false_eq_true, if_true]

/-! ## `processUpdateBase` -/

/-- The next base of the queue: every branch lies above it. -/
def BaseStepOk (c : ForkedChainRef) : Prop :=
  ∀ b ∈ c.baseQueue.head?, c.number b ≠ c.number c.base →
    ∀ h ∈ c.heads, Anc c.parent h b

/-- The next base of the queue is not above `fcuHead`. -/
def BaseStepBelowFcu (c : ForkedChainRef) : Prop :=
  ∀ b ∈ c.baseQueue.head?, c.number b ≠ c.number c.base → c.number b ≤ c.fcuHead.number

/-- Queued bases are finalized, so guarded heads are above them. -/
theorem Guarded.baseStepOk (hg : Guarded c) (hi : Inv c) : BaseStepOk c := by
  intro b hb _ h hh
  have hmem : b ∈ c.baseQueue := List.mem_of_mem_head? hb
  exact hg h hh b (hi.queued b hmem).1 (hi.queued b hmem).2

theorem processUpdateBase_spec (hi : Inv c) (env : Env) (hok : BaseStepOk c) :
    c.processUpdateBase env = .error .stateRootMismatch ∨
    ∃ c', c.processUpdateBase env = .ok c' ∧ Sound c c' True (BaseStepBelowFcu c) := by
  -- queueing the next round touches the queue only
  have hnext : ∀ c₁ : ForkedChainRef, Sound c c₁ True (BaseStepBelowFcu c) →
      ∃ c', (if c₁.baseQueue = [] then (Except.ok c₁ : Except Defect ForkedChainRef)
        else .ok { c₁ with queue := c₁.queue ++ [.processUpdateBase] }) = .ok c' ∧
        Sound c c' True (BaseStepBelowFcu c) := by
    intro c₁ hs₁
    by_cases hempty : c₁.baseQueue = []
    · exact ⟨c₁, if_pos hempty, hs₁⟩
    · exact ⟨_, if_neg hempty, hs₁.congr rfl⟩
  unfold processUpdateBase
  cases hq : c.baseQueue with
  | nil => exact .inr (hnext c (Sound.refl hi))
  | cons base rest =>
    obtain ⟨hb, hfin⟩ := hi.queued base (hq ▸ List.mem_cons_self)
    have hsorted := hi.sorted
    rw [hq, List.pairwise_cons] at hsorted
    have hi' : Inv { c with baseQueue := rest } :=
      ⟨hi.linked.congr rfl, hi.finality.congr rfl,
        ⟨hi.heads.mem_iff, hi.heads.nodup, hi.heads.latest_mem⟩,
        fun x hx => hi.queued x (hq ▸ .tail _ hx), hsorted.2, hi.orphan, hi.saved⟩
    have hall : c.number base ≠ c.number c.base → ∀ h ∈ c.heads, Anc c.parent h base :=
      hok base (by simp [hq])
    have hfcu : BaseStepBelowFcu c → c.number base ≠ c.number c.base →
        c.number base ≤ c.fcuHead.number := fun h => h base (by simp [hq])
    show updateBase { c with baseQueue := rest } env base >>= _ = _ ∨
      ∃ c', updateBase { c with baseQueue := rest } env base >>= _ = _ ∧ _
    rcases updateBase_spec hi' env hb hfin hsorted.1 hall with herr | ⟨c₁, hrun, hs₁⟩
    · left
      rw [herr]
      rfl
    · right
      obtain ⟨c', hc', hs⟩ := hnext c₁
        ⟨hs₁.inv, ⟨hs₁.settled.base_le, hs₁.settled.canonical, hs₁.settled.kept⟩,
          hs₁.guarded, fun h => hs₁.fcuHead (hfcu h)⟩
      refine ⟨c', ?_, hs⟩
      rw [hrun]
      exact hc'

end

end Nimbus.Spec.ForkedChain
