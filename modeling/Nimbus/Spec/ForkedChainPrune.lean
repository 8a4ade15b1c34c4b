import Nimbus.Spec.ForkedChainTree

/-!
# Removing blocks from the tree

`updateFinalized`, `setHead` and `updateBase` all remove blocks one at a time through
`removeBlockFromCache` and change the list of heads on the way. `pruned c R H` is the state
such a loop has reached when the blocks `R` are gone and `H` are the heads, whatever the
order of the removals was, and `marked c F` the state after the blocks `F` were finalized.
-/

namespace Nimbus.Spec.ForkedChain

open Nimbus.Native.ForkedChain
open ParentTree ForkedChainRef Function

/-- `c` without the blocks `R`, and with the heads `H`. -/
def pruned (c : ForkedChainRef) (R H : List Nat) : ForkedChainRef :=
  { c with
    blocks := fun b =>
      if b ∈ R then { hash := c.hash b, isFinalized := (c.blocks b).isFinalized }
      else c.blocks b
    hashToBlock := fun h => (c.hashToBlock h).filter (· ∉ R)
    frames := fun f =>
      if ∃ b ∈ R, c.txFrame b = some f then { c.frames f with disposed := true }
      else c.frames f
    heads := H }

/-- `c` with the blocks `F` finalized. -/
def marked (c : ForkedChainRef) (F : List Nat) : ForkedChainRef :=
  { c with blocks := fun b =>
      if b ∈ F then { c.blocks b with isFinalized := true } else c.blocks b }

/-! ## Removed blocks -/

section Pruned

variable {c : ForkedChainRef} {R H : List Nat}

theorem pruned_nil (c : ForkedChainRef) : pruned c [] c.heads = c := by
  have hlookup : (fun h => (c.hashToBlock h).filter fun _ => true) = c.hashToBlock := by
    funext h
    cases c.hashToBlock h <;> simp
  simp only [pruned, List.not_mem_nil, if_false, false_and, exists_false, not_false_eq_true,
    decide_true, hlookup]

@[simp] theorem pruned_hash (b : Nat) : (pruned c R H).hash b = c.hash b := by
  simp only [ForkedChainRef.hash, pruned]
  split <;> rfl

variable {b : Nat}

theorem pruned_blocks_of_not_mem (hb : b ∉ R) : (pruned c R H).blocks b = c.blocks b := by
  simp only [pruned, if_neg hb]

@[simp] theorem finalized_pruned_iff : Finalized (pruned c R H) b ↔ Finalized c b := by
  simp only [Finalized, pruned]
  split <;> rfl

@[simp] theorem pruned_notFinalized (b : Nat) :
    (pruned c R H).notFinalized b = c.notFinalized b := by
  simp only [notFinalized, pruned]
  split <;> rfl

theorem pruned_txFrame (b : Nat) :
    (pruned c R H).txFrame b = if b ∈ R then none else c.txFrame b := by
  simp only [txFrame, pruned]
  split <;> rfl

theorem pruned_parent (b : Nat) : (pruned c R H).parent b = if b ∈ R then none else c.parent b := by
  simp only [ForkedChainRef.parent, pruned]
  split <;> rfl

theorem pruned_number_of_not_mem (hb : b ∉ R) : (pruned c R H).number b = c.number b := by
  simp only [ForkedChainRef.number, pruned_blocks_of_not_mem hb]

@[simp] theorem pruned_sameBlock (a b : Nat) : (pruned c R H).sameBlock a b = c.sameBlock a b := by
  simp only [sameBlock, pruned_hash]

theorem pruned_hashToBlock_eq_some {h : Hash32} :
    (pruned c R H).hashToBlock h = some b ↔ c.hashToBlock h = some b ∧ b ∉ R := by
  simp [pruned, Option.filter_eq_some_iff]

@[simp] theorem inTree_pruned_iff : InTree (pruned c R H) b ↔ InTree c b ∧ b ∉ R := by
  simp only [InTree, pruned_hash, pruned_hashToBlock_eq_some]

theorem removeBlockFromCache_pruned
    (hkey : ∀ {h x}, c.hashToBlock h = some x → c.hash x = h) {f : Nat}
    (hb : InTree c b) (hf : c.txFrame b = some f) (hR : b ∉ R) :
    (pruned c R H).removeBlockFromCache b = .ok (pruned c (b :: R) H) := by
  have hfR : (pruned c R H).txFrame b = some f := by rw [pruned_txFrame, if_neg hR, hf]
  have hlookup : update (pruned c R H).hashToBlock (c.hash b) none
      = (pruned c (b :: R) H).hashToBlock := by
    funext h
    by_cases hh : h = c.hash b
    · subst hh
      have hb' : c.hashToBlock (c.hash b) = some b := hb
      simp [pruned, hb', Option.filter]
    · rw [update_of_ne hh]
      cases hx : c.hashToBlock h with
      | none => simp [pruned, hx]
      | some x =>
        have hne : x ≠ b := by
          rintro rfl
          exact hh (hkey hx).symm
        simp [pruned, hx, Option.filter, hne]
  have hframes : update (pruned c R H).frames f
      { (pruned c R H).frames f with disposed := true } = (pruned c (b :: R) H).frames := by
    funext g
    by_cases hg : g = f
    · subst hg
      simp only [update_self, pruned, List.mem_cons, exists_eq_or_imp, hf, true_or,
        if_true]
      split <;> rfl
    · have hne : c.txFrame b ≠ some g := by
        rw [hf]
        exact fun h => hg (Option.some.inj h).symm
      rw [update_of_ne hg]
      simp only [pruned, List.mem_cons, exists_eq_or_imp, hne, false_or]
  have hblocks : update (pruned c R H).blocks b
      { hash := c.hash b, isFinalized := (c.blocks b).isFinalized }
      = (pruned c (b :: R) H).blocks := by
    funext x
    by_cases hx : x = b
    · subst hx
      simp [pruned]
    · simp [pruned, hx]
  simp only [removeBlockFromCache, hfR, disposeFrame,
    modifyBlock, pruned_hash, hlookup]
  rw [hframes]
  have hb' : (pruned c R H).blocks b = c.blocks b := pruned_blocks_of_not_mem hR
  rw [hb']
  rw [show (c.blocks b).hash = c.hash b from rfl, hblocks]
  rfl

/-- A block that stays keeps its frame, which no removed block shares. -/
theorem pruned_frames (hl : Linked c) (hR : ∀ x ∈ R, InTree c x) {f : Nat}
    (hb : InTree c b) (hbR : b ∉ R) (hf : c.txFrame b = some f) :
    (pruned c R H).frames f = c.frames f := by
  have hno : ¬ ∃ x ∈ R, c.txFrame x = some f := by
    rintro ⟨x, hx, hxf⟩
    have hxb := hl.frame_inj (hR x hx) hb hxf hf
    exact hbR (hxb ▸ hx)
  simp only [pruned, if_neg hno]

theorem pruned_frames_parent (f : Nat) :
    ((pruned c R H).frames f).parent = (c.frames f).parent := by
  simp only [pruned]
  split <;> rfl

/-- Cutting off a set of blocks with everything above them leaves a tree. -/
theorem Linked.pruned (hl : Linked c) (hR : ∀ x ∈ R, InTree c x) (hbase : c.base ∉ R)
    (hup : ∀ b p, InTree c b → c.parent b = some p → p ∈ R → b ∈ R) : Linked (pruned c R H) where
  lt_next hb := hl.lt_next (inTree_pruned_iff.mp hb).1
  key hb := by
    rw [pruned_hash]
    exact hl.key (pruned_hashToBlock_eq_some.mp hb).1
  hash_eq hb := by
    obtain ⟨hb, hbR⟩ := inTree_pruned_iff.mp hb
    rw [pruned_hash, pruned_blocks_of_not_mem hbR]
    exact hl.hash_eq hb
  parent_lt i p hp := by
    rw [pruned_parent] at hp
    split at hp
    · cases hp
    · exact hl.parent_lt i p hp
  base_mem := inTree_pruned_iff.mpr ⟨hl.base_mem, hbase⟩
  base_parent := by
    show (ForkedChain.pruned c R H).parent c.base = none
    rw [pruned_parent, if_neg hbase, hl.base_parent]
  base_frame := by
    show (ForkedChain.pruned c R H).txFrame c.base = some c.baseTxFrame
    rw [pruned_txFrame, if_neg hbase, hl.base_frame]
  link {b} hb hne := by
    obtain ⟨hb, hbR⟩ := inTree_pruned_iff.mp hb
    obtain ⟨p, hp, hpt, hn, hph, f, g, hf, hg, hfg⟩ := hl.link hb hne
    have hpR : p ∉ R := fun h => hbR (hup b p hb hp h)
    refine ⟨p, ?_, inTree_pruned_iff.mpr ⟨hpt, hpR⟩, ?_, ?_, f, g, ?_, ?_, ?_⟩
    · rw [pruned_parent, if_neg hbR, hp]
    · rw [pruned_number_of_not_mem hbR, pruned_number_of_not_mem hpR, hn]
    · rw [pruned_blocks_of_not_mem hbR, pruned_hash, hph]
    · rw [pruned_txFrame, if_neg hbR, hf]
    · rw [pruned_txFrame, if_neg hpR, hg]
    · rw [pruned_frames_parent, hfg]
  live {b} hb := by
    obtain ⟨hb, hbR⟩ := inTree_pruned_iff.mp hb
    obtain ⟨f, hf, hlt, hdis⟩ := hl.live hb
    refine ⟨f, ?_, hlt, ?_⟩
    · rw [pruned_txFrame, if_neg hbR, hf]
    · rw [pruned_frames hl hR hb hbR hf, hdis]
  frame_inj {b b' f} hb hb' hf hf' := by
    obtain ⟨hb, hbR⟩ := inTree_pruned_iff.mp hb
    obtain ⟨hb', hbR'⟩ := inTree_pruned_iff.mp hb'
    rw [pruned_txFrame, if_neg hbR] at hf
    rw [pruned_txFrame, if_neg hbR'] at hf'
    exact hl.frame_inj hb hb' hf hf'
  gone {b} hb := by
    rw [pruned_txFrame]
    split
    · rfl
    · next hbR => exact hl.gone fun h => hb (inTree_pruned_iff.mpr ⟨h, hbR⟩)

theorem Finality.pruned (hf : Finality c) : Finality (pruned c R H) where
  base := finalized_pruned_iff.mpr hf.base
  down {b p} hb hfin hp := by
    obtain ⟨hb, hbR⟩ := inTree_pruned_iff.mp hb
    rw [pruned_parent, if_neg hbR] at hp
    exact finalized_pruned_iff.mpr (hf.down hb (finalized_pruned_iff.mp hfin) hp)

theorem anc_pruned_iff (hl : Linked c)
    (hup : ∀ b p, InTree c b → c.parent b = some p → p ∈ R → b ∈ R) {a : Nat}
    (hb : InTree c b) (hbR : b ∉ R) :
    Anc (ForkedChain.pruned c R H).parent b a ↔ Anc c.parent b a := by
  constructor
  · apply Anc.mono
    intro i p hp
    rw [pruned_parent] at hp
    split at hp
    · cases hp
    · exact hp
  · intro h
    refine h.congr (P := fun x => InTree c x ∧ x ∉ R) ?_ ?_ ⟨hb, hbR⟩
    · rintro i p ⟨hi, hiR⟩ hp
      exact ⟨hl.inTree_parent hi hp, fun hpR => hiR (hup i p hi hp hpR)⟩
    · rintro i p ⟨_, hiR⟩ hp
      rw [pruned_parent, if_neg hiR, hp]

end Pruned

/-! ## Finalized blocks -/

section Marked

variable {c : ForkedChainRef} {F : List Nat}

theorem marked_nil (c : ForkedChainRef) : marked c [] = c := by
  simp only [marked, List.not_mem_nil, if_false]

theorem finalized_marked_iff {b : Nat} : Finalized (marked c F) b ↔ Finalized c b ∨ b ∈ F := by
  simp only [Finalized, marked]
  split <;> simp [*]

@[simp] theorem marked_header (b : Nat) : ((marked c F).blocks b).header = (c.blocks b).header := by
  simp only [marked]
  split <;> rfl

@[simp] theorem marked_hash : (marked c F).hash = c.hash := by
  funext b
  simp only [ForkedChainRef.hash, marked]
  split <;> rfl

@[simp] theorem marked_number : (marked c F).number = c.number := by
  funext b
  simp only [ForkedChainRef.number, marked_header]

@[simp] theorem marked_parent : (marked c F).parent = c.parent := by
  funext b
  simp only [ForkedChainRef.parent, marked]
  split <;> rfl

@[simp] theorem marked_txFrame : (marked c F).txFrame = c.txFrame := by
  funext b
  simp only [txFrame, marked]
  split <;> rfl

@[simp] theorem inTree_marked_iff {b : Nat} : InTree (marked c F) b ↔ InTree c b := by
  simp only [InTree, marked_hash]
  rfl

theorem finalize_marked (b : Nat) : (marked c F).finalize b = marked c (b :: F) := by
  have hblocks : update (marked c F).blocks b
      { (marked c F).blocks b with isFinalized := true } = (marked c (b :: F)).blocks := by
    funext x
    by_cases hx : x = b
    · subst hx
      simp only [update_self, marked, List.mem_cons_self, if_true]
      split <;> rfl
    · simp [marked, hx]
  simp only [finalize, modifyBlock]
  rw [hblocks]
  rfl

theorem Linked.marked (hl : Linked c) : Linked (marked c F) where
  lt_next hb := hl.lt_next (inTree_marked_iff.mp hb)
  key hb := by
    rw [marked_hash]
    exact hl.key hb
  hash_eq hb := by
    rw [marked_hash, marked_header]
    exact hl.hash_eq (inTree_marked_iff.mp hb)
  parent_lt := by
    rw [marked_parent]
    exact hl.parent_lt
  base_mem := inTree_marked_iff.mpr hl.base_mem
  base_parent := by
    rw [marked_parent]
    exact hl.base_parent
  base_frame := by
    rw [marked_txFrame]
    exact hl.base_frame
  link {b} hb hne := by
    obtain ⟨p, hp, hpt, hrest⟩ := hl.link (inTree_marked_iff.mp hb) hne
    refine ⟨p, ?_, inTree_marked_iff.mpr hpt, ?_⟩
    · rw [marked_parent, hp]
    · rw [marked_number, marked_header, marked_hash, marked_txFrame]
      exact hrest
  live hb := by
    rw [marked_txFrame]
    exact hl.live (inTree_marked_iff.mp hb)
  frame_inj hb hb' := by
    rw [marked_txFrame]
    exact hl.frame_inj (inTree_marked_iff.mp hb) (inTree_marked_iff.mp hb')
  gone hb := by
    rw [marked_txFrame]
    exact hl.gone fun h => hb (inTree_marked_iff.mpr h)

theorem Heads.marked (hh : Heads c) : Heads (marked c F) where
  mem_iff := by
    simp only [marked_parent, inTree_marked_iff]
    exact hh.mem_iff
  nodup := hh.nodup
  latest_mem := hh.latest_mem

/-- The marking loop of `updateFinalized` marks the blocks from `it` down to the first one
that is finalized already. -/
theorem finalizeLoop_eq (hl : Linked c) (hf : Finality c) {fuel it : Nat}
    (hit : InTree c it) (hfuel : it < fuel) (hF : ∀ x ∈ F, it < x) :
    ∃ F', finalizeLoop fuel (marked c F) it = .ok (marked c F') ∧
      ∀ x, Finalized (marked c F') x ↔
        Finalized (marked c F) x ∨ (Anc c.parent it x ∧ ¬ Finalized c x) := by
  induction fuel generalizing it F with
  | zero => omega
  | succ fuel ih =>
    have hitF : it ∉ F := fun h => Nat.lt_irrefl _ (hF it h)
    by_cases hfin : Finalized c it
    · -- everything below `it` is finalized
      refine ⟨F, ?_, fun x => ⟨.inl, ?_⟩⟩
      · have hnf : (marked c F).notFinalized it = false :=
          notFinalized_eq_false_iff.mpr (finalized_marked_iff.mpr (.inl hfin))
        simp only [finalizeLoop, hnf, Bool.false_eq_true, if_false]
      · rintro (h | ⟨hanc, hnot⟩)
        · exact h
        · exact absurd (hf.anc hl hit hfin hanc) hnot
    · obtain ⟨p, hp, hpt, _⟩ := hf.parent_of_not hl hit hfin
      have hlt := hl.parent_lt it p hp
      have hnf : (marked c F).notFinalized it = true :=
        notFinalized_iff.mpr fun h => (finalized_marked_iff.mp h).elim hfin hitF
      obtain ⟨F', hF', hiff⟩ := ih (F := it :: F) hpt (by omega) (by
        intro x hx
        rcases List.mem_cons.mp hx with rfl | hx
        · exact hlt
        · exact Nat.lt_trans hlt (hF x hx))
      refine ⟨F', ?_, fun x => ?_⟩
      · simp only [finalizeLoop, hnf, if_true, marked_parent, hp,
          finalize_marked, hF']
      · rw [hiff, finalized_marked_iff, finalized_marked_iff, List.mem_cons]
        constructor
        · rintro ((h | rfl | h) | ⟨h, hnot⟩)
          · exact .inl (.inl h)
          · exact .inr ⟨Anc.refl _, hfin⟩
          · exact .inl (.inr h)
          · exact .inr ⟨Anc.head hp h, hnot⟩
        · rintro ((h | h) | ⟨h, hnot⟩)
          · exact .inl (.inl h)
          · exact .inl (.inr (.inr h))
          · rcases h.cases_parent with rfl | ⟨q, hq, hqx⟩
            · exact .inl (.inr (.inl rfl))
            · rw [hp] at hq
              cases hq
              exact .inr ⟨hqx, hnot⟩

theorem finalizeLoop_spec (hl : Linked c) (hf : Finality c) {fin : Nat} (hfin : InTree c fin) :
    ∃ F, finalizeLoop c.nextBlock c fin = .ok (marked c F) ∧
      Finality (marked c F) ∧
      ∀ x, Finalized (marked c F) x ↔ Finalized c x ∨ Anc c.parent fin x := by
  obtain ⟨F, hF, hiff⟩ :=
    finalizeLoop_eq (F := []) hl hf hfin (hl.lt_next hfin) (by simp)
  rw [marked_nil] at hF hiff
  have hiff' : ∀ x, Finalized (ForkedChain.marked c F) x ↔
      Finalized c x ∨ Anc c.parent fin x := by
    intro x
    rw [hiff]
    by_cases hx : Finalized c x <;> simp [hx]
  refine ⟨F, hF, ⟨(hiff' _).mpr (.inl hf.base), ?_⟩, hiff'⟩
  intro b p hb hbfin hp
  rw [marked_parent] at hp
  rcases (hiff' b).mp hbfin with h | h
  · exact (hiff' p).mpr (.inl (hf.down (inTree_marked_iff.mp hb) h hp))
  · exact (hiff' p).mpr (.inr (h.tail hp))

end Marked

end Nimbus.Spec.ForkedChain
