import Nimbus.Native.ChainLookups
import Nimbus.Spec.ChainRuns
import Nimbus.Spec.ChainTrace

/-!
# The lineage of a block below the base

The tree holds the ancestors of a block down to the base. Below the base they are the blocks
that the number lookups on disk lead to. A base update writes the lookups of the blocks that
it passes, so the two parts always fit together.
-/

namespace Nimbus.Spec.ForkedChain

open Nimbus.Native.ForkedChain
open ParentTree

/-! ## Lineages of headers -/

/-- The header is followed by its parent. -/
def ParentOf (com : CommonRef) (hd parent : Header) : Prop :=
  hd.parentHash = com.computeBlockHash parent ∧ hd.number = parent.number + 1

def Lineage (com : CommonRef) : Header → Header → Prop := Relation.ReflTransGen (ParentOf com)

section

variable {com : CommonRef} {hd a a' : Header}

theorem Lineage.number_le (h : Lineage com hd a) : a.number ≤ hd.number := by
  induction h with
  | refl => exact Nat.le_refl _
  | tail _ hlast ih =>
    have hnum := hlast.2
    omega

end

/-- The number lookups below a block lead to ancestors of it, if they lead anywhere. -/
def CanonicalBelow (com : CommonRef) (canonical : Nat → Option Hash32) (base : Header) : Prop :=
  ∀ n < base.number, ∀ h, canonical n = some h →
    ∃ a, com.computeBlockHash a = h ∧ a.number = n ∧ Lineage com base a

section

variable {c c' : ForkedChainRef} {env : Env} {e : Event}

theorem Linked.parentOf (hl : Linked c) {b p : Nat} (hb : InTree c b) (hp : c.parent b = some p) :
    ParentOf c.com (c.blocks b).header (c.blocks p).header := by
  have hne : b ≠ c.base := by
    intro heq
    rw [heq, hl.base_parent] at hp
    cases hp
  obtain ⟨q, hq, hqt, hnum, hph, -⟩ := hl.link hb hne
  rw [hp] at hq
  cases hq
  exact ⟨hph.trans (hl.hash_eq hqt), hnum⟩

theorem Linked.lineage (hl : Linked c) {b a : Nat} (hb : InTree c b) (h : Anc c.parent b a) :
    Lineage c.com (c.blocks b).header (c.blocks a).header := by
  induction h with
  | refl => exact Relation.ReflTransGen.refl
  | tail hanc hp ih => exact ih.tail (hl.parentOf (hl.inTree_anc hb hanc) hp)

theorem Thins.base_header (h : Thins c c') (hl : Linked c') :
    (c'.blocks c'.base).header = (c.blocks c.base).header := by
  rw [(h.live hl.base_frame).2, h.base]

theorem Grows.base_header {blk : Block} (h : Grows c c' blk) (hl : Linked c) (hl' : Linked c') :
    (c'.blocks c'.base).header = (c.blocks c.base).header := by
  rcases h.live hl'.base_frame with ⟨-, heq⟩ | ⟨-, hf, -⟩
  · rw [heq, h.base]
  · -- the frame of the base is older than the one that was opened
    obtain ⟨f, hf', hlt, -⟩ := hl.live hl.base_mem
    rw [hl.base_frame] at hf'
    cases hf'
    rw [h.baseTxFrame] at hf
    exact absurd hf (Nat.ne_of_lt hlt)

theorem Rebases.base_header {it : BlockRef} (h : Rebases c c' it) (hl' : Linked c') :
    (c'.blocks c'.base).header = (c.blocks it).header := by
  rw [(h.live hl'.base_frame).2, h.base]

/-- The lookups that a base update writes lead to the ancestors of the new base, and so do
those below. -/
theorem canonicalBelow_writeCanonicalMappings (hi : Inv c) {it : BlockRef} (hit : InTree c it)
    (hc : CanonicalBelow c.com c.canonical (c.blocks c.base).header) :
    CanonicalBelow c.com (c.writeCanonicalMappings it).canonical (c.blocks it).header := by
  have hl := hi.linked
  intro n hn h hcan
  by_cases hle : c.number c.base ≤ n
  · obtain ⟨a, hanc, hnum⟩ := hl.exists_anc_number hit hle (Nat.le_of_lt hn)
    have hat := hl.inTree_anc hit hanc
    have hw := writeCanonicalMappings_spec hi hit hanc
    rw [hnum, hcan] at hw
    cases hw
    exact ⟨(c.blocks a).header, (hl.hash_eq hat).symm, hnum, hl.lineage hit hanc⟩
  · have hlt : n < c.number c.base := by omega
    rw [writeCanonicalMappings_of_le hi hit (Nat.le_of_lt hlt)] at hcan
    obtain ⟨a, hash, hnum, hline⟩ := hc n hlt h hcan
    exact ⟨a, hash, hnum, (hl.lineage hit (hl.anc_base hit)).trans hline⟩

theorem canonicalBelow_step (hi : Inv c) (hi' : Inv c')
    (hc : CanonicalBelow c.com c.canonical (c.blocks c.base).header) (h : step c env e = .ok c') :
    CanonicalBelow c'.com c'.canonical (c'.blocks c'.base).header := by
  rcases step_trace h with ⟨hthin, -⟩ | ⟨-, parent, blk, -, hgrow⟩ | ⟨-, it, rest, hq, -, hre⟩
  · rw [hthin.base_header hi'.linked, hthin.com, hthin.canonical]
    exact hc
  · rw [hgrow.base_header hi.linked hi'.linked, hgrow.com, hgrow.canonical]
    exact hc
  · rw [hre.base_header hi'.linked, hre.com, hre.canonical]
    have hmem : it ∈ c.baseQueue := by
      rw [hq]
      exact List.mem_cons_self
    exact canonicalBelow_writeCanonicalMappings hi (hi.queued it hmem).1 hc

/-- Every block of the tree has the property. -/
def Vetted (Q : Header → Prop) (c : ForkedChainRef) : Prop :=
  ∀ b, InTree c b → Q (c.blocks b).header

theorem Vetted.step {Q : Header → Prop} (hv : Vetted Q c) (hi : Inv c) (hi' : Inv c')
    (hattach : ∀ parent blk, Attaches c env e parent blk → Q blk.header)
    (h : step c env e = .ok c') : Vetted Q c' := by
  have hold : ∀ {b f}, c.txFrame b = some f → (c'.blocks b).header = (c.blocks b).header →
      Q (c'.blocks b).header := by
    intro b f hf heq
    rw [heq]
    apply hv b
    apply hi.linked.inTree_of_txFrame
    rw [hf]
    exact Option.some_ne_none f
  intro b hb
  obtain ⟨f, hf, -⟩ := hi'.linked.live hb
  rcases step_trace h with ⟨hthin, -⟩ | ⟨-, parent, blk, hatt, hgrow⟩ | ⟨-, it, rest, -, -, hre⟩
  · obtain ⟨hf₀, heq⟩ := hthin.live hf
    exact hold hf₀ heq
  · rcases hgrow.live hf with ⟨hf₀, heq⟩ | ⟨-, -, heq⟩
    · exact hold hf₀ heq
    · rw [heq]
      exact hattach parent blk hatt
  · obtain ⟨hf₀, heq⟩ := hre.live hf
    exact hold hf₀ heq

/-- The block that the node starts on stays in the tree only as the base. -/
def FirstIsBase (c : ForkedChainRef) : Prop := InTree c 0 → c.base = 0

theorem FirstIsBase.step (hf : FirstIsBase c) (hi : Inv c) (hi' : Inv c')
    (h : step c env e = .ok c') : FirstIsBase c' := by
  have hl := hi.linked
  have hl' := hi'.linked
  have hold : ∀ {f}, c.txFrame 0 = some f → c.base = 0 := by
    intro f hf₀
    apply hf
    apply hl.inTree_of_txFrame
    rw [hf₀]
    exact Option.some_ne_none f
  intro h0
  obtain ⟨f, hf', -⟩ := hl'.live h0
  rcases step_trace h with ⟨hthin, -⟩ | ⟨-, parent, blk, -, hgrow⟩ | ⟨-, it, rest, hq, hne, hre⟩
  · rw [hthin.base]
    exact hold (hthin.live hf').1
  · rw [hgrow.base]
    rcases hgrow.live hf' with ⟨hf₀, -⟩ | ⟨hnew, -⟩
    · exact hold hf₀
    · have hlt := hl.lt_next hl.base_mem
      exact absurd hnew (Nat.ne_of_lt (Nat.zero_lt_of_lt hlt))
  · -- the new base is above the old one, so the first block is gone
    obtain ⟨hf₀, heq⟩ := hre.live hf'
    have hbase := hold hf₀
    have hit : InTree c it := by
      apply (hi.queued it _).1
      rw [hq]
      exact List.mem_cons_self
    have hle := hl.number_base_le hit
    have hge := hl'.number_base_le h0
    have hnum := congrArg Header.number (hre.base_header hl')
    unfold ForkedChainRef.number at hge hle hne
    rw [heq] at hge
    rw [hbase] at hle hne
    omega

end

/-! ## Steps that keep the lineage -/

/-- What every step of a run keeps that meets the conditions. -/
structure Anchored (n₀ : Nat) (P : Set Header) (s : ChainNode) : Prop where
  inv : Inv s.chain
  backed : Backed n₀ P s
  canonical : CanonicalBelow s.chain.com s.chain.canonical
    (s.chain.blocks s.chain.base).header

section

variable {n₀ : Nat} {P : Set Header} {s s' : ChainNode} {env : Env} {e : Event}

theorem Backed.step_chain_ok (hk : Backed n₀ P s) (h : s.step env e = .ok s') :
    Native.ForkedChain.step s.chain env e = .ok s'.chain := by
  have hchain := step_chain s env e fun _ _ _ => hk.recorded_attempt
  rw [h] at hchain
  exact hchain.symm

theorem Anchored.step (ha : Anchored n₀ P s) (hok : InvStepOk s.chain env e)
    (h : s.step env e = .ok s') : Anchored n₀ (P ∪ leaving s s' e) s' := by
  have hchain := ha.backed.step_chain_ok h
  have hinv := hok.inv ha.inv hchain
  exact ⟨hinv, ha.backed.step h, canonicalBelow_step ha.inv hinv ha.canonical hchain⟩

end

/-! The records of a store under `pairCom`: a hash leads back to its header. -/

theorem emptyRoot_iff (root : Hash32) {α : Type} (x : α) :
    (if root = EMPTY_ROOT_HASH then [] else [x]) = [] ↔ root = EMPTY_ROOT_HASH := by
  by_cases h : root = EMPTY_ROOT_HASH
  · rw [if_pos h]
    exact iff_of_true rfl h
  · rw [if_neg h]
    exact iff_of_false (List.cons_ne_nil _ _) h

noncomputable def pairContents : Contents where
  header := Function.invFun pairCom.computeBlockHash
  transactions root := if root = EMPTY_ROOT_HASH then [] else [⟨root⟩]
  receipts root := if root = EMPTY_ROOT_HASH then [] else [{ logs := [] }]
  uncles _ := []
  withdrawals _ := []
  transactions_nil root := emptyRoot_iff root _
  receipts_nil root := emptyRoot_iff root _
  uncles_empty := rfl
  withdrawals_empty := rfl

theorem pairContents_header (hd : Header) :
    pairContents.header (pairCom.computeBlockHash hd) = hd :=
  Function.leftInverse_invFun pairCom_injective hd

theorem pairDb_canonicalBelow : CanonicalBelow pairCom pairDb.canonical pairDb.baseHeader :=
  fun _ hn => absurd hn (Nat.not_lt_zero _)

end Nimbus.Spec.ForkedChain
