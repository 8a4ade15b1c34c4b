import Nimbus.Native.ForkedChain

/-!
# The block tree of `ForkedChainRef`

`hashToBlock` and the parent references together describe a tree rooted at the base.
This file states what that means (`Linked`), what the finalized markers and the list of
heads have to do with it (`Finality`, `Heads`), and the order facts about ancestors that
every operation relies on.
-/

namespace Nimbus.Spec.ForkedChain

open Nimbus.Native.ForkedChain
open ParentTree

/-- The block object `b` is the one `hashToBlock` holds for its hash. -/
def InTree (c : ForkedChainRef) (b : Nat) : Prop :=
  c.hashToBlock (c.hash b) = some b

instance (c : ForkedChainRef) (b : Nat) : Decidable (InTree c b) :=
  inferInstanceAs (Decidable (_ = _))

def Finalized (c : ForkedChainRef) (b : Nat) : Prop :=
  (c.blocks b).isFinalized = true

instance (c : ForkedChainRef) (b : Nat) : Decidable (Finalized c b) :=
  inferInstanceAs (Decidable (_ = _))

variable {b : Nat} {c : ForkedChainRef}

theorem notFinalized_eq_false_iff : c.notFinalized b = false ↔ Finalized c b := by
  simp [ForkedChainRef.notFinalized, Finalized]

theorem notFinalized_iff : c.notFinalized b = true ↔ ¬ Finalized c b := by
  simp [ForkedChainRef.notFinalized, Finalized]

/-- Blocks and frames form one tree: every block but the base is linked to a parent of
the tree with the number below its own, and its live frame is built on the frame of the
parent. -/
structure Linked (c : ForkedChainRef) : Prop where
  lt_next : ∀ {b}, InTree c b → b < c.nextBlock
  key : ∀ {h b}, c.hashToBlock h = some b → c.hash b = h
  hash_eq : ∀ {b}, InTree c b → c.hash b = c.com.computeBlockHash (c.blocks b).header
  parent_lt : Decreasing c.parent
  base_mem : InTree c c.base
  base_parent : c.parent c.base = none
  base_frame : c.txFrame c.base = some c.baseTxFrame
  link : ∀ {b}, InTree c b → b ≠ c.base → ∃ p, c.parent b = some p ∧ InTree c p ∧
    c.number b = c.number p + 1 ∧ (c.blocks b).header.parentHash = c.hash p ∧
    ∃ f g, c.txFrame b = some f ∧ c.txFrame p = some g ∧ (c.frames f).parent = some g
  live : ∀ {b}, InTree c b →
    ∃ f, c.txFrame b = some f ∧ f < c.nextFrame ∧ (c.frames f).disposed = false
  frame_inj : ∀ {b b' f}, InTree c b → InTree c b' →
    c.txFrame b = some f → c.txFrame b' = some f → b = b'
  gone : ∀ {b}, ¬ InTree c b → c.txFrame b = none

/-- The finalized blocks of the tree are closed under parents, and the base is one. -/
structure Finality (c : ForkedChainRef) : Prop where
  base : Finalized c c.base
  down : ∀ {b p}, InTree c b → Finalized c b → c.parent b = some p → Finalized c p

/-- `heads` lists the childless blocks of the tree, each once, and `latest` is one. -/
structure Heads (c : ForkedChainRef) : Prop where
  mem_iff : ∀ {b}, b ∈ c.heads ↔ InTree c b ∧ ∀ d, InTree c d → c.parent d ≠ some b
  nodup : c.heads.Nodup
  latest_mem : c.latest ∈ c.heads

/-- Being a tree is about the heaps, the lookup table and the base only. -/
theorem Linked.congr {c' : ForkedChainRef} (hl : Linked c) (h : c' = { c' with
      com := c.com, blocks := c.blocks, nextBlock := c.nextBlock, frames := c.frames
      nextFrame := c.nextFrame, hashToBlock := c.hashToBlock, base := c.base
      baseTxFrame := c.baseTxFrame }) : Linked c' := by
  rw [h]
  exact ⟨hl.lt_next, hl.key, hl.hash_eq, hl.parent_lt, hl.base_mem, hl.base_parent,
    hl.base_frame, hl.link, hl.live, hl.frame_inj, hl.gone⟩

theorem Finality.congr {c' : ForkedChainRef} (hf : Finality c) (h : c' = { c' with
      blocks := c.blocks, hashToBlock := c.hashToBlock, base := c.base }) : Finality c' := by
  rw [h]
  exact ⟨hf.base, hf.down⟩

/-! ## Lineages -/

section Lineage

variable {c : ForkedChainRef} {a : Nat}

theorem InTree.hash_inj (ha : InTree c a) (hb : InTree c b) (h : c.hash a = c.hash b) : a = b := by
  unfold InTree at ha hb
  rw [h, hb] at ha
  exact (Option.some.inj ha).symm

theorem InTree.sameBlock_iff (ha : InTree c a) (hb : InTree c b) :
    c.sameBlock a b = true ↔ a = b := by
  simp only [ForkedChainRef.sameBlock, beq_iff_eq]
  exact ⟨ha.hash_inj hb, fun h => by rw [h]⟩

section

variable (hl : Linked c)
include hl

theorem Linked.inTree_of_lookup {h : Hash32} (hb : c.hashToBlock h = some b) : InTree c b := by
  unfold InTree
  rw [hl.key hb, hb]

theorem Linked.inTree_of_txFrame (hb : c.txFrame b ≠ none) : InTree c b := by
  by_contra h
  exact hb (hl.gone h)

theorem Linked.inTree_parent {p : Nat} (hb : InTree c b)
    (hp : c.parent b = some p) : InTree c p := by
  have hne : b ≠ c.base := by
    rintro rfl
    rw [hl.base_parent] at hp
    cases hp
  obtain ⟨q, hq, hqt, _⟩ := hl.link hb hne
  rw [hp] at hq
  cases hq
  exact hqt

theorem Linked.number_parent {p : Nat} (hb : InTree c b)
    (hp : c.parent b = some p) : c.number b = c.number p + 1 := by
  have hne : b ≠ c.base := by
    rintro rfl
    rw [hl.base_parent] at hp
    cases hp
  obtain ⟨q, hq, _, hn, _⟩ := hl.link hb hne
  rw [hp] at hq
  cases hq
  exact hn

section

variable (hb : InTree c b)
include hb

theorem Linked.inTree_anc (h : Anc c.parent b a) : InTree c a :=
  h.of_step (fun _ _ hi hp => hl.inTree_parent hi hp) hb

theorem Linked.anc_base : Anc c.parent b c.base := by
  induction b using Nat.strongRecOn with
  | ind b ih =>
    by_cases hbase : b = c.base
    · rw [hbase]
    · obtain ⟨p, hp, hpt, _⟩ := hl.link hb hbase
      exact Anc.head hp (ih p (hl.parent_lt _ _ hp) hpt)

theorem Linked.number_le (h : Anc c.parent b a) : c.number a ≤ c.number b := by
  induction h with
  | refl => exact Nat.le_refl _
  | tail hba hp ih =>
    have := hl.number_parent (hl.inTree_anc hb hba) hp
    omega

theorem Linked.eq_of_number (h : Anc c.parent b a) (hn : c.number b ≤ c.number a) : b = a := by
  rcases h.cases_parent with rfl | ⟨p, hp, hpa⟩
  · rfl
  · have h1 := hl.number_parent hb hp
    have h2 := hl.number_le (hl.inTree_parent hb hp) hpa
    omega

theorem Linked.number_base_le : c.number c.base ≤ c.number b :=
  hl.number_le hb (hl.anc_base hb)

theorem Linked.eq_base_of_number (hn : c.number b ≤ c.number c.base) : b = c.base :=
  hl.eq_of_number hb (hl.anc_base hb) hn

end

/-- Of two ancestors of one block, the one with the smaller number is an ancestor of the
other. -/
theorem Linked.anc_of_number_le {x y : Nat} (hb : InTree c b)
    (hx : Anc c.parent b x) (hy : Anc c.parent b y) (hn : c.number y ≤ c.number x) :
    Anc c.parent x y := by
  rcases hx.total hy with h | h
  · exact h
  · rw [hl.eq_of_number (hl.inTree_anc hb hy) h hn]

/-- The numbers between the base and a block are all taken on the block's lineage. -/
theorem Linked.exists_anc_number {n : Nat}
    (hb : InTree c b) (hlo : c.number c.base ≤ n) (hhi : n ≤ c.number b) :
    ∃ a, Anc c.parent b a ∧ c.number a = n := by
  induction b using Nat.strongRecOn with
  | ind b ih =>
    by_cases heq : c.number b = n
    · exact ⟨b, Anc.refl _, heq⟩
    · have hne : b ≠ c.base := by
        rintro rfl
        omega
      obtain ⟨p, hp, hpt, hn, _⟩ := hl.link hb hne
      obtain ⟨a, hpa, ha⟩ := ih p (hl.parent_lt _ _ hp) hpt (by omega)
      exact ⟨a, Anc.head hp hpa, ha⟩

theorem Linked.mem_ancestors (hb : InTree c b) : a ∈ c.ancestors (some b) ↔ Anc c.parent b a :=
  mem_chain_iff hl.parent_lt (hl.lt_next hb)

end

theorem Finality.anc (hf : Finality c) (hl : Linked c) (hb : InTree c b)
    (hfin : Finalized c b) (h : Anc c.parent b a) : Finalized c a := by
  have := h.of_step (P := fun x => InTree c x ∧ Finalized c x)
    (fun i p hi hp => ⟨hl.inTree_parent hi.1 hp, hf.down hi.1 hi.2 hp⟩) ⟨hb, hfin⟩
  exact this.2

theorem Finality.parent_of_not (hf : Finality c) (hl : Linked c)
    (hb : InTree c b) (hnf : ¬ Finalized c b) :
    ∃ p, c.parent b = some p ∧ InTree c p ∧ c.number b = c.number p + 1 := by
  have hne : b ≠ c.base := fun h => hnf (h ▸ hf.base)
  obtain ⟨p, hp, hpt, hn, _⟩ := hl.link hb hne
  exact ⟨p, hp, hpt, hn⟩

/-! ## Heads -/

theorem Heads.inTree (hh : Heads c) (hb : b ∈ c.heads) : InTree c b :=
  (hh.mem_iff.mp hb).1

theorem Heads.eq_of_anc (hh : Heads c) (hl : Linked c) {h : Nat}
    (hmem : h ∈ c.heads) (hb : InTree c b) (hanc : Anc c.parent b h) : b = h := by
  induction hanc using Relation.ReflTransGen.head_induction_on with
  | refl => rfl
  | head hp hrest ih =>
    have := ih (hl.inTree_parent hb hp)
    subst this
    exact absurd hp ((hh.mem_iff.mp hmem).2 _ hb)

theorem Heads.exists_above (hh : Heads c) (hl : Linked c)
    (hb : InTree c b) : ∃ h ∈ c.heads, Anc c.parent h b := by
  generalize hk : c.nextBlock - b = k
  induction k using Nat.strongRecOn generalizing b with
  | ind k ih =>
    by_cases hleaf : b ∈ c.heads
    · exact ⟨b, hleaf, Anc.refl _⟩
    · have hchild : ∃ d, InTree c d ∧ c.parent d = some b := by
        by_contra hno
        push Not at hno
        exact hleaf (hh.mem_iff.mpr ⟨hb, fun d hd => hno d hd⟩)
      obtain ⟨d, hd, hdb⟩ := hchild
      have hlt := hl.parent_lt _ _ hdb
      have hdn := hl.lt_next hd
      obtain ⟨h, hmem, hanc⟩ := ih (c.nextBlock - d) (by omega) hd rfl
      exact ⟨h, hmem, hanc.tail hdb⟩

/-- With a single head every block of the tree is one of its ancestors. -/
theorem Heads.anc_of_single (hh : Heads c) (hl : Linked c) (h1 : c.heads.length = 1)
    {h : Nat} (hmem : h ∈ c.heads) (hb : InTree c b) : Anc c.parent h b := by
  obtain ⟨x, hx⟩ := List.length_eq_one_iff.mp h1
  obtain ⟨h', hmem', hanc⟩ := hh.exists_above hl hb
  rw [hx, List.mem_singleton] at hmem hmem'
  rw [hmem, ← hmem']
  exact hanc

end Lineage

end Nimbus.Spec.ForkedChain
