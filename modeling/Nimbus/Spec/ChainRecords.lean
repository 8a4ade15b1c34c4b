import Nimbus.Spec.ChainLineage

/-!
# The records of the canonical chain

Header records are written when a block comes in and deleted when it is pruned. The ones of
the blocks that the base has passed stay, with their payloads.
-/

namespace Nimbus.Spec.ForkedChain

open Nimbus.Native.ForkedChain
open ParentTree Function

variable {n₀ : Nat} {P : Set Header} {s s' : ChainNode} {env : Env} {e : Event}

/-! ## Header records -/

variable {debug : Prop}

/-- A move leaves the header records alone, deletes the one of a block of the tree, or writes
the one of a block. -/
theorem Move.header (hk : Backed n₀ P s) (hm : Move debug s s') :
    s'.db.header = s.db.header ∨
    (∃ it, InTree s.chain it ∧
      s'.db.header = update s.db.header (s.chain.hash it) false) ∨
    ∃ hd, s'.db.header = update s.db.header (s.chain.com.computeBlockHash hd) true := by
  have hrecorded : ∀ {parent : BlockRef} {blk : Block}, InTree s.chain parent →
      blk.header.parentHash = s.chain.hash parent → Recorded s.db blk.header.parentHash := by
    intro parent blk hp hph
    rw [hph]
    exact hk.recorded hp
  cases hm with
  | relabel h => exact .inl rfl
  | @finalize it next hp =>
    left
    exact (forBodies_header BodyEntry.pin s.db _).1
  | @prune it c' hnf h =>
    right
    left
    refine ⟨it, (hk.wired.removeBlockFromCache h).1, ?_⟩
    unfold BlockDb.deleteBlockData BlockDb.releaseBlockOwnershipData
    dsimp only
    rw [(forBodies_header (BodyEntry.release _) s.db _).1]
  | discard hd h => exact .inl rfl
  | @attach env parent f blk finalized hp hph hnew hpass hstore =>
    right
    right
    refine ⟨blk.header, ?_⟩
    rw [storeBlock_of_recorded _ (hrecorded hp hph)]
    exact (forBodies_header BodyEntry.write _ _).1
  | @reject parent blk hp hph hnew hstore =>
    rw [storeBlock_accepts (hrecorded hp hph)] at hstore
    cases hstore

theorem Move.com (hk : Backed n₀ P s) (hm : Move debug s s') :
    s'.chain.com = s.chain.com := by
  cases hm with
  | relabel h => exact h.com
  | finalize hp => rfl
  | prune hnf h =>
    obtain ⟨-, rfl⟩ := hk.wired.removeBlockFromCache h
    rfl
  | discard hd h =>
    obtain ⟨-, rfl⟩ := hk.wired.removeBlockFromCache h
    rfl
  | attach hp hph hnew hpass hstore => rfl
  | reject hp hph hnew hstore => rfl

/-- The header records: those of the blocks `P` are there, and none is under the zero hash. -/
structure Headed (P : Set Header) (s : ChainNode) : Prop where
  header : ∀ hd ∈ P, s.db.header (s.chain.com.computeBlockHash hd) = true
  zero : s.db.header zeroHash32 = false

theorem Headed.move (hh : Headed P s) (hk : Backed n₀ P s)
    (hm : Move debug s s') : Headed P s' := by
  have hcom := hm.com hk
  rcases hm.header hk with heq | ⟨it, hit, heq⟩ | ⟨hd', heq⟩
  · constructor
    · rw [hcom, heq]
      exact hh.header
    · rw [heq]
      exact hh.zero
  · have hlookup : s.chain.hashToBlock (s.chain.hash it) = some it := hit
    constructor
    · intro hd hhd
      have hne : s.chain.com.computeBlockHash hd ≠ s.chain.hash it := by
        intro hhash
        -- a block that the base has passed is not in the tree
        have hgone := hk.gone hd hhd
        rw [hhash, hlookup] at hgone
        cases hgone
      rw [hcom, heq, update_of_ne hne]
      exact hh.header hd hhd
    · rw [heq, update_apply]
      split
      · rfl
      · exact hh.zero
  · constructor
    · intro hd hhd
      rw [hcom, heq, update_apply]
      split
      · rfl
      · exact hh.header hd hhd
    · rw [heq, update_of_ne (Ne.symm (s.chain.com.hash_ne_zero hd'))]
      exact hh.zero

theorem Headed.moves (hh : Headed P s) (hk : Backed n₀ P s)
    (hm : Moves debug s s') : Headed P s' := by
  induction hm with
  | refl => exact hh
  | tail hfirst hlast ih => exact ih.move (hk.moves hfirst) hlast

theorem Headed.moved (hh : Headed P s) (hk : Backed n₀ P s) (hm : Moved s s' e) :
    Headed (P ∪ leaving s s' e) s' := by
  rcases hm with ⟨hmoves, hsame⟩ | ⟨hruns, hdb, base, R, hm⟩
  · rw [leaving_of_sameTree hsame, Set.union_empty]
    exact hh.moves hk hmoves
  · rw [leaving_of_movesBase hk.wired hruns hm]
    constructor
    · rw [hdb, hm.com]
      rintro hd (hhd | ⟨b, hbR, rfl⟩)
      · exact hh.header hd hhd
      · have hb := hm.inTree b hbR
        rw [← hk.wired.hash_eq hb]
        exact (hk.recorded hb).1
    · rw [hdb]
      exact hh.zero

theorem Headed.step (hh : Headed P s) (hk : Backed n₀ P s) (h : s.step env e = .ok s') :
    Headed (P ∪ leaving s s' e) s' :=
  hh.moved hk (step_moves hk.wired h)

/-! ## The canonical chain -/

/-- What the number lookups below the base lead to is on disk. -/
structure Archived (n₀ : Nat) (P : Set Header) (s : ChainNode) : Prop where
  anchored : Anchored n₀ P s
  headed : Headed P s
  passed : ∀ n < s.chain.number s.chain.base, ∀ h, s.chain.canonical n = some h →
    ∃ hd ∈ P, s.chain.com.computeBlockHash hd = h

theorem canonical_step_of_le {c c' : ForkedChainRef} (hi : Inv c) (h : step c env e = .ok c')
    {n : Nat} (hn : n ≤ c.number c.base) : c'.canonical n = c.canonical n := by
  rcases step_trace h with ⟨hthin, -⟩ | ⟨-, parent, blk, -, hgrow⟩ | ⟨-, it, rest, hq, -, hre⟩
  · rw [hthin.canonical]
  · rw [hgrow.canonical]
  · rw [hre.canonical]
    apply writeCanonicalMappings_of_le hi _ hn
    apply (hi.queued it _).1
    rw [hq]
    exact List.mem_cons_self

/-- The block leaves the tree as the base moves past it. -/
def Passes (c c' : ForkedChainRef) (e : Event) (a : BlockRef) : Prop :=
  RunsBaseUpdate c e ∧ ¬ InTree c' a ∧ ∃ it rest, c.baseQueue = it :: rest ∧ Anc c.parent it a

/-- A number lookup up to the base is an older one, that of the base, or that of a block which
the base has just passed. -/
theorem canonical_step {c c' : ForkedChainRef} (hi : Inv c) (hi' : Inv c')
    (h : step c env e = .ok c') {n : Nat} {hash : Hash32} (hn : n ≤ c'.number c'.base)
    (hcan : c'.canonical n = some hash) :
    (n < c.number c.base ∧ c.canonical n = some hash) ∨
    ∃ a, InTree c a ∧ c.number a = n ∧ c.hash a = hash ∧
      ((c'.blocks c'.base).header = (c.blocks a).header ∨ Passes c c' e a) := by
  have hl := hi.linked
  have hl' := hi'.linked
  by_cases hlt : n < c.number c.base
  · rw [canonical_step_of_le hi h (Nat.le_of_lt hlt)] at hcan
    exact .inl ⟨hlt, hcan⟩
  right
  -- a base that stays is the one the number leads to
  have hstay : (c'.blocks c'.base).header = (c.blocks c.base).header →
      c'.canonical = c.canonical → ∃ a, InTree c a ∧ c.number a = n ∧ c.hash a = hash ∧
        ((c'.blocks c'.base).header = (c.blocks a).header ∨ Passes c c' e a) := by
    intro hheader hsame
    have hnum : c'.number c'.base = c.number c.base := congrArg Header.number hheader
    have heq : n = c.number c.base := by omega
    rw [hsame, heq, hi.saved] at hcan
    exact ⟨c.base, hl.base_mem, heq.symm, Option.some.inj hcan, .inl hheader⟩
  rcases step_trace h with ⟨hthin, -⟩ | ⟨-, parent, blk, -, hgrow⟩ | ⟨hruns, it, rest, hq, -, hre⟩
  · exact hstay (hthin.base_header hl') hthin.canonical
  · exact hstay (hgrow.base_header hl hl') hgrow.canonical
  · have hit : InTree c it := by
      apply (hi.queued it _).1
      rw [hq]
      exact List.mem_cons_self
    have hheader := hre.base_header hl'
    have hnum : c'.number c'.base = c.number it := congrArg Header.number hheader
    have hle : n ≤ c.number it := hnum ▸ hn
    obtain ⟨a, hanc, hnum_a⟩ := hl.exists_anc_number hit (Nat.le_of_not_lt hlt) hle
    have hat := hl.inTree_anc hit hanc
    have hw := writeCanonicalMappings_spec hi hit hanc
    rw [hnum_a, ← hre.canonical, hcan] at hw
    refine ⟨a, hat, hnum_a, (Option.some.inj hw).symm, ?_⟩
    by_cases heq : n = c.number it
    · have hsame : it = a := hl.eq_of_number hit hanc (by omega)
      rw [← hsame]
      exact .inl hheader
    · refine .inr ⟨hruns, fun hat' => ?_, it, rest, hq, hanc⟩
      -- the blocks of the tree are not below the new base
      obtain ⟨f, hf, -⟩ := hl'.live hat'
      have hge := hl'.number_base_le hat'
      have hsame : c'.number a = c.number a := congrArg Header.number (hre.live hf).2
      omega

theorem Archived.moved (ha : Archived n₀ P s) (hm : Moved s s' e) (hi' : Inv s'.chain)
    (hchain : Native.ForkedChain.step s.chain env e = .ok s'.chain) :
    Archived n₀ (P ∪ leaving s s' e) s' := by
  have hi := ha.anchored.inv
  have hl := hi.linked
  refine ⟨⟨hi', ha.anchored.backed.moved hm,
    canonicalBelow_step hi hi' ha.anchored.canonical hchain⟩,
    ha.headed.moved ha.anchored.backed hm, ?_⟩
  intro n hn hash hcan
  rw [step_com hchain]
  rcases canonical_step hi hi' hchain (Nat.le_of_lt hn) hcan with
    ⟨hlt, hcan'⟩ | ⟨a, hat, hnum, hash_a, hbase | ⟨hruns, hout, -⟩⟩
  · obtain ⟨hd, hhd, heq⟩ := ha.passed n hlt hash hcan'
    exact ⟨hd, .inl hhd, heq⟩
  · have heq : s'.chain.number s'.chain.base = s.chain.number a := congrArg Header.number hbase
    omega
  · exact ⟨(s.chain.blocks a).header, .inr ⟨hruns, a, hat, hout, rfl⟩,
      (hl.hash_eq hat).symm.trans hash_a⟩

theorem Archived.step (ha : Archived n₀ P s) (hok : InvStepOk s.chain env e)
    (h : s.step env e = .ok s') : Archived n₀ (P ∪ leaving s s' e) s' :=
  have hchain := ha.anchored.backed.step_chain_ok h
  ha.moved (step_moves ha.anchored.backed.wired h) (hok.inv ha.anchored.inv hchain) hchain

end Nimbus.Spec.ForkedChain
