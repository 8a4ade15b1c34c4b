import Nimbus.Spec.ForkedChainImport

/-!
# The links of the block tree that no step breaks

`Inv` describes the tree along the runs in which every fork choice is well formed. In any
other run the tree may lose that shape, but the links between a block, its hash and its
parent stay: this is `Wired`, which asks nothing of the events.
-/

namespace Nimbus.Spec.ForkedChain

open Nimbus.Native.ForkedChain
open ParentTree ForkedChainRef Function

/-- The blocks with a frame are the ones that `hashToBlock` leads to, each under the hash
of its header, with the number `n₀` or a higher one, and linked to the block of its parent
hash. -/
structure Wired (n₀ : Nat) (c : ForkedChainRef) : Prop where
  key : ∀ {h b}, c.hashToBlock h = some b → c.hash b = h
  live : ∀ {b}, InTree c b ↔ c.txFrame b ≠ none
  lt_next : ∀ {b}, InTree c b → b < c.nextBlock
  gone : ∀ {b}, ¬ InTree c b → c.parent b = none
  hash_eq : ∀ {b}, InTree c b → c.hash b = c.com.computeBlockHash (c.blocks b).header
  parent_lt : Decreasing c.parent
  parentHash : ∀ {b p}, c.parent b = some p → (c.blocks b).header.parentHash = c.hash p
  number_ge : ∀ {b}, InTree c b → n₀ ≤ c.number b
  orphan : ∀ o ∈ c.orphans, o.1 = o.2.header.parentHash

/-- The same blocks under the same hashes, and no orphans but those of `c` or ones filed
under their parent hash. -/
structure SameTree (c c' : ForkedChainRef) : Prop where
  com : c'.com = c.com
  blocks : c'.blocks = c.blocks
  nextBlock : c'.nextBlock = c.nextBlock
  hashToBlock : c'.hashToBlock = c.hashToBlock
  orphan : ∀ o ∈ c'.orphans, o ∈ c.orphans ∨ o.1 = o.2.header.parentHash

theorem SameTree.refl (c : ForkedChainRef) : SameTree c c :=
  ⟨rfl, rfl, rfl, rfl, fun _ h => .inl h⟩

theorem SameTree.trans {a b c : ForkedChainRef} (hab : SameTree a b) (hbc : SameTree b c) :
    SameTree a c where
  com := hbc.com.trans hab.com
  blocks := hbc.blocks.trans hab.blocks
  nextBlock := hbc.nextBlock.trans hab.nextBlock
  hashToBlock := hbc.hashToBlock.trans hab.hashToBlock
  orphan o ho := by
    rcases hbc.orphan o ho with h | h
    · exact hab.orphan o h
    · exact .inr h

variable {n₀ : Nat} {c c' : ForkedChainRef}

namespace SameTree

variable (h : SameTree c c')
include h

theorem hash (b : Nat) : c'.hash b = c.hash b := by
  simp only [ForkedChainRef.hash, h.blocks]

theorem parent : c'.parent = c.parent := by
  funext b
  simp only [ForkedChainRef.parent, h.blocks]

theorem txFrame (b : Nat) : c'.txFrame b = c.txFrame b := by
  simp only [ForkedChainRef.txFrame, h.blocks]

theorem number (b : Nat) : c'.number b = c.number b := by
  simp only [ForkedChainRef.number, h.blocks]

theorem inTree_iff {b : Nat} : InTree c' b ↔ InTree c b := by
  simp only [InTree, h.hash, h.hashToBlock]

end SameTree

section

variable (hw : Wired n₀ c)
include hw

theorem Wired.sameTree (h : SameTree c c') : Wired n₀ c' where
  key hb := by
    rw [h.hashToBlock] at hb
    rw [h.hash, hw.key hb]
  live := by
    intro b
    rw [h.inTree_iff, h.txFrame]
    exact hw.live
  lt_next hb := by
    rw [h.nextBlock]
    exact hw.lt_next (h.inTree_iff.mp hb)
  gone hb := by
    rw [h.parent]
    exact hw.gone fun hb' => hb (h.inTree_iff.mpr hb')
  hash_eq hb := by
    rw [h.hash, h.com, h.blocks]
    exact hw.hash_eq (h.inTree_iff.mp hb)
  parent_lt := by
    rw [h.parent]
    exact hw.parent_lt
  parentHash hp := by
    rw [h.parent] at hp
    rw [h.blocks, h.hash]
    exact hw.parentHash hp
  number_ge hb := by
    rw [h.number]
    exact hw.number_ge (h.inTree_iff.mp hb)
  orphan o ho := by
    rcases h.orphan o ho with hmem | heq
    · exact hw.orphan o hmem
    · exact heq

theorem Wired.inTree_of_parent {b p : Nat} (hp : c.parent b = some p) : InTree c b := by
  by_contra hb
  rw [hw.gone hb] at hp
  cases hp

theorem Wired.finalize (it : Nat) : Wired n₀ (c.finalize it) := by
  rw [← marked_nil c, finalize_marked]
  have hheader : ∀ b, ((marked c [it]).blocks b).header = (c.blocks b).header := marked_header
  exact
    { key := by
        intro h b hb
        rw [marked_hash]
        exact hw.key hb
      live := by
        intro b
        rw [inTree_marked_iff, marked_txFrame]
        exact hw.live
      lt_next := fun hb => hw.lt_next (inTree_marked_iff.mp hb)
      gone := by
        intro b hb
        rw [marked_parent]
        exact hw.gone fun hb' => hb (inTree_marked_iff.mpr hb')
      hash_eq := by
        intro b hb
        rw [marked_hash, hheader]
        exact hw.hash_eq (inTree_marked_iff.mp hb)
      parent_lt := by
        rw [marked_parent]
        exact hw.parent_lt
      parentHash := by
        intro b p hp
        rw [marked_parent] at hp
        rw [hheader, marked_hash]
        exact hw.parentHash hp
      number_ge := by
        intro b hb
        rw [marked_number]
        exact hw.number_ge (inTree_marked_iff.mp hb)
      orphan := hw.orphan }

theorem Wired.prune {R H : List Nat} : Wired n₀ (pruned c R H) where
  key hb := by
    rw [pruned_hash]
    exact hw.key (pruned_hashToBlock_eq_some.mp hb).1
  live := by
    intro b
    rw [pruned_txFrame]
    by_cases hb : b ∈ R
    · simp [hb]
    · simp [hb, hw.live]
  lt_next hb := hw.lt_next (inTree_pruned_iff.mp hb).1
  gone := by
    intro b hb
    rw [pruned_parent]
    by_cases hbR : b ∈ R
    · rw [if_pos hbR]
    · rw [if_neg hbR]
      exact hw.gone fun hb' => hb (inTree_pruned_iff.mpr ⟨hb', hbR⟩)
  hash_eq := by
    intro b hb
    obtain ⟨hb', hbR⟩ := inTree_pruned_iff.mp hb
    rw [pruned_hash, pruned_blocks_of_not_mem hbR]
    exact hw.hash_eq hb'
  parent_lt := by
    intro b p hp
    rw [pruned_parent] at hp
    split at hp
    · cases hp
    · exact hw.parent_lt b p hp
  parentHash := by
    intro b p hp
    rw [pruned_parent] at hp
    split at hp
    · cases hp
    · next hbR =>
      rw [pruned_blocks_of_not_mem hbR, pruned_hash]
      exact hw.parentHash hp
  number_ge := by
    intro b hb
    obtain ⟨hb', hbR⟩ := inTree_pruned_iff.mp hb
    rw [pruned_number_of_not_mem hbR]
    exact hw.number_ge hb'
  orphan := hw.orphan

theorem Wired.removeBlockFromCache {b : Nat}
    (h : c.removeBlockFromCache b = .ok c') : InTree c b ∧ c' = pruned c [b] c.heads := by
  cases hf : c.txFrame b with
  | none =>
    simp only [ForkedChainRef.removeBlockFromCache, hf] at h
    cases h
  | some f =>
    have hb : InTree c b := hw.live.mpr (by rw [hf]; exact Option.some_ne_none f)
    have hone := removeBlockFromCache_pruned (R := []) (H := c.heads) hw.key hb hf (by simp)
    rw [pruned_nil] at hone
    rw [hone] at h
    exact ⟨hb, (Except.ok.inj h).symm⟩

theorem Wired.number_of_processBlock {env : Env} {parent : Nat} {blk : Block}
    {finalized : Bool} (hp : InTree c parent) (hph : blk.header.parentHash = c.hash parent)
    (hpass : processBlock env (c.blocks parent).header blk finalized = true) :
    blk.header.number = c.number parent + 1 := by
  refine number_of_pass ?_ hpass
  rw [hph, hw.hash_eq hp]
  exact c.com.hash_ne_zero _

end

/-! ## The new block -/

section Append

variable {parent f : Nat} {blk : Block} {hash : Hash32}

theorem appendBlock_blocks {x : Nat} (hx : x ≠ c.nextBlock) :
    (c.appendBlock parent blk hash f).1.blocks x = c.blocks x := by
  simp only [appendBlock, update_of_ne hx]

theorem appendBlock_blocks_new : (c.appendBlock parent blk hash f).1.blocks c.nextBlock =
      { header := blk.header, txFrame := some f, hash := hash, parent := some parent,
        isFinalized := false } := by
  simp only [appendBlock, update_self]

theorem appendBlock_inTree (hw : Wired n₀ c) (hnew : c.hashToBlock hash = none) {x : Nat} :
    InTree (c.appendBlock parent blk hash f).1 x ↔ x = c.nextBlock ∨ InTree c x := by
  by_cases hx : x = c.nextBlock
  · subst hx
    simp only [InTree, ForkedChainRef.hash, appendBlock_blocks_new, true_or, iff_true]
    simp only [appendBlock, update_self]
  · simp only [InTree, ForkedChainRef.hash, appendBlock_blocks hx, hx, false_or]
    by_cases hh : (c.blocks x).hash = hash
    · -- no block had the new hash
      simp only [appendBlock, hh, update_self, hnew]
      simp [Ne.symm hx]
    · simp only [appendBlock, update_of_ne hh]

theorem Wired.append (hw : Wired n₀ c) (hp : InTree c parent)
    (hph : blk.header.parentHash = c.hash parent) (hnum : blk.header.number = c.number parent + 1)
    (hnew : c.hashToBlock (c.com.computeBlockHash blk.header) = none) :
    Wired n₀ (c.appendBlock parent blk (c.com.computeBlockHash blk.header) f).1 := by
  generalize hhash : c.com.computeBlockHash blk.header = hash at hnew
  have hmem : ∀ x, InTree (c.appendBlock parent blk hash f).1 x ↔
      x = c.nextBlock ∨ InTree c x := fun x => appendBlock_inTree hw hnew
  have hlt := hw.lt_next hp
  constructor
  · intro h b hb
    simp only [appendBlock, update_apply] at hb
    split at hb
    · next hh =>
      cases hb
      simp only [ForkedChainRef.hash, appendBlock_blocks_new]
      exact hh.symm
    · have hkey := hw.key hb
      have hb' : InTree c b := by
        unfold InTree
        rw [hkey]
        exact hb
      have hne : b ≠ c.nextBlock := Nat.ne_of_lt (hw.lt_next hb')
      simp only [ForkedChainRef.hash, appendBlock_blocks hne]
      exact hkey
  · intro b
    rw [hmem]
    by_cases hb : b = c.nextBlock
    · subst hb
      simp [txFrame, appendBlock_blocks_new]
    · simp only [hb, false_or, txFrame, appendBlock_blocks hb]
      exact hw.live
  · intro b hb
    rcases (hmem b).mp hb with rfl | hb
    · exact Nat.lt_succ_self _
    · exact Nat.lt_succ_of_lt (hw.lt_next hb)
  · intro b hb
    have hb' := fun h => hb ((hmem b).mpr h)
    have hne : b ≠ c.nextBlock := fun h => hb' (.inl h)
    simp only [ForkedChainRef.parent, appendBlock_blocks hne]
    exact hw.gone fun h => hb' (.inr h)
  · intro b hb
    rcases (hmem b).mp hb with rfl | hb
    · simp only [ForkedChainRef.hash, appendBlock_blocks_new]
      exact hhash.symm
    · have hne : b ≠ c.nextBlock := Nat.ne_of_lt (hw.lt_next hb)
      simp only [ForkedChainRef.hash, appendBlock_blocks hne]
      exact hw.hash_eq hb
  · intro b p hbp
    by_cases hb : b = c.nextBlock
    · subst hb
      simp only [ForkedChainRef.parent, appendBlock_blocks_new, Option.some.injEq] at hbp
      subst hbp
      exact hlt
    · simp only [ForkedChainRef.parent, appendBlock_blocks hb] at hbp
      exact hw.parent_lt b p hbp
  · intro b p hbp
    by_cases hb : b = c.nextBlock
    · subst hb
      simp only [ForkedChainRef.parent, appendBlock_blocks_new, Option.some.injEq] at hbp
      subst hbp
      simp only [appendBlock_blocks_new, ForkedChainRef.hash,
        appendBlock_blocks (Nat.ne_of_lt hlt)]
      exact hph
    · simp only [ForkedChainRef.parent, appendBlock_blocks hb] at hbp
      have hne : p ≠ c.nextBlock := Nat.ne_of_lt
        (Nat.lt_trans (hw.parent_lt b p hbp) (hw.lt_next (hw.inTree_of_parent hbp)))
      simp only [ForkedChainRef.hash, appendBlock_blocks hb, appendBlock_blocks hne]
      exact hw.parentHash hbp
  · intro b hb
    rcases (hmem b).mp hb with rfl | hb
    · simp only [ForkedChainRef.number, appendBlock_blocks_new]
      have hge := hw.number_ge hp
      omega
    · have hne : b ≠ c.nextBlock := Nat.ne_of_lt (hw.lt_next hb)
      simp only [ForkedChainRef.number, appendBlock_blocks hne]
      exact hw.number_ge hb
  · exact hw.orphan

end Append

end Nimbus.Spec.ForkedChain
