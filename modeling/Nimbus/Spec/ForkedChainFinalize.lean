import Nimbus.Spec.ForkedChainPrune
import Mathlib.Data.List.Nodup
import Mathlib.Data.List.Perm.Basic

/-!
# Finalizing a block

`updateFinalized` marks the lineage of a block `fin` and then removes every branch that
does not lead to it. The loop over the heads deletes from the list while it runs and stops
each walk at blocks that an earlier branch has taken, so its invariant `Pruning` is about
the set of removed blocks only.
-/

namespace Nimbus.Spec.ForkedChain

open Nimbus.Native.ForkedChain
open ParentTree ForkedChainRef

/-! ## `seq.del` -/

theorem seqDel_perm {α : Type} {xs : List α} {i : Nat} (hi : i < xs.length) :
    (seqDel xs i).Perm (xs.eraseIdx i) := by
  rcases List.eq_nil_or_concat xs with rfl | ⟨ys, x, rfl⟩
  · simp at hi
  · simp only [List.concat_eq_append] at hi ⊢
    have hlast : (ys ++ [x]).getLast? = some x := by simp
    simp only [seqDel, hlast]
    by_cases hlt : i < ys.length
    · rw [List.set_append_left _ _ hlt, List.dropLast_concat, List.eraseIdx_append_of_lt_length hlt]
      exact (List.set_perm_cons_eraseIdx hlt x).trans (List.perm_append_singleton x _).symm
    · have heq : i = ys.length := by
        simp only [List.length_append, List.length_singleton] at hi
        omega
      subst heq
      rw [List.eraseIdx_append_of_length_le (Nat.le_refl _)]
      simp

theorem seqDel_take {α : Type} {xs : List α} {i : Nat} (hi : i < xs.length) :
    (seqDel xs i).take i = xs.take i := by
  rcases List.eq_nil_or_concat xs with rfl | ⟨ys, x, rfl⟩
  · simp at hi
  · simp only [List.concat_eq_append] at hi ⊢
    have hlast : (ys ++ [x]).getLast? = some x := by simp
    have hle : i ≤ ys.length := by
      simp only [List.length_append, List.length_singleton] at hi
      omega
    simp only [seqDel, hlast]
    rw [List.dropLast_eq_take, List.take_take, List.length_set, List.length_append,
      List.length_singleton, Nat.add_sub_cancel, Nat.min_eq_left hle,
      List.take_set_of_le (Nat.le_refl _)]

theorem mem_seqDel_iff {xs : List Nat} {i x : Nat} (hnd : xs.Nodup) (hi : i < xs.length) :
    x ∈ seqDel xs i ↔ x ∈ xs ∧ x ≠ xs[i] := by
  rw [(seqDel_perm hi).mem_iff]
  rw [← hnd.erase_getElem i hi, hnd.mem_erase_iff]
  exact And.comm

/-! ## One branch -/

section

variable {c : ForkedChainRef} {fin : Nat}

/-- `R` is a set of blocks that the pruning for `fin` may have removed after whole
branches: none of them leads to `fin`, and below each one everything is gone down to the
finalized blocks. -/
structure Pruning (c : ForkedChainRef) (fin : Nat) (R : List Nat) : Prop where
  doomed : ∀ x ∈ R, InTree c x ∧ ¬ Finalized c x ∧ ¬ Anc c.parent x fin
  closed : ∀ x p, x ∈ R → c.parent x = some p → ¬ Finalized c p → p ∈ R

theorem Pruning.nil : Pruning c fin [] where
  doomed := by simp
  closed := by simp

/-- A removed block takes everything unfinalized below it along. -/
theorem Pruning.anc {R : List Nat} (hR : Pruning c fin R) (hl : Linked c) (hf : Finality c)
    {x y : Nat} (hx : x ∈ R) (h : Anc c.parent x y) (hy : ¬ Finalized c y) : y ∈ R := by
  induction h with
  | refl => exact hx
  | @tail a b hxa hab ih =>
    have ha : InTree c a := hl.inTree_anc (hR.doomed x hx).1 hxa
    exact hR.closed a b (ih fun hfin => hy (hf.down ha hfin hab)) hab hy

section

variable (hl : Linked c) (hf : Finality c)
include hl hf

/-- Removing the branch of `it` down to the finalized blocks, or down to what is gone. -/
theorem removeBranch_spec {H : List Nat} {fuel it : Nat}
    {R : List Nat} (hit : InTree c it) (hfuel : it < fuel)
    (hanc : ¬ Finalized c it → ¬ Anc c.parent it fin)
    (hdoomed : ∀ x ∈ R, InTree c x ∧ ¬ Finalized c x ∧ ¬ Anc c.parent x fin)
    (hclosed : ∀ x p, x ∈ R → c.parent x = some p → ¬ Finalized c p → p ∈ R ∨ p = it) :
    ∃ R', removeBranch fuel (pruned c R H) it = .ok (pruned c R' H) ∧
      Pruning c fin R' ∧ R ⊆ R' ∧ (¬ Finalized c it → it ∈ R') := by
  induction fuel generalizing it R with
  | zero => omega
  | succ fuel ih =>
    simp only [removeBranch, pruned_notFinalized]
    by_cases hfin : Finalized c it
    · -- the walk is over; `it` itself stays
      rw [notFinalized_eq_false_iff.mpr hfin]
      refine ⟨R, rfl, ⟨hdoomed, fun x p hx hp hnp => ?_⟩, List.Subset.refl _, absurd hfin⟩
      rcases hclosed x p hx hp hnp with h | rfl
      · exact h
      · exact absurd hfin hnp
    · rw [notFinalized_iff.mpr hfin]
      by_cases hgone : it ∈ R
      · have hnone : (pruned c R H).txFrame it = none := by rw [pruned_txFrame, if_pos hgone]
        rw [if_pos hnone]
        refine ⟨R, rfl, ⟨hdoomed, fun x p hx hp hnp => ?_⟩, List.Subset.refl _, fun _ => hgone⟩
        rcases hclosed x p hx hp hnp with h | rfl
        · exact h
        · exact hgone
      · obtain ⟨f, hframe, _⟩ := hl.live hit
        have hsome : (pruned c R H).txFrame it ≠ none := by
          rw [pruned_txFrame, if_neg hgone, hframe]
          exact nofun
        obtain ⟨p, hp, hpt, _⟩ := hf.parent_of_not hl hit hfin
        have hlt := hl.parent_lt it p hp
        obtain ⟨R', hrun, hpr, hsub, _⟩ := ih (R := it :: R) hpt (by omega)
          (fun _ h => hanc hfin (Anc.head hp h))
          (by
            intro x hx
            rcases List.mem_cons.mp hx with rfl | hx
            · exact ⟨hit, hfin, hanc hfin⟩
            · exact hdoomed x hx)
          (by
            intro x q hx hq hnq
            rcases List.mem_cons.mp hx with rfl | hx
            · rw [hp] at hq
              cases hq
              exact .inr rfl
            · rcases hclosed x q hx hq hnq with h | rfl
              · exact .inl (.tail _ h)
              · exact .inl List.mem_cons_self)
        refine ⟨R', ?_, hpr, fun x hx => hsub (.tail _ hx),
          fun _ => hsub List.mem_cons_self⟩
        rw [if_neg hsome, removeBlockFromCache_pruned hl.key hit hframe hgone, pruned_parent,
          if_neg hgone, hp]
        exact hrun

/-- The walk of `reachable` is not disturbed by what has been removed so far: it tells
whether the head leads to `fin`. -/
theorem reachableLoop_pruned {R H : List Nat}
    (hR : Pruning c fin R) (hfin : InTree c fin) (hmark : Finalized c fin)
    (htop : ∀ x, InTree c x → Finalized c x → Anc c.parent fin x) {fuel it : Nat}
    (hit : InTree c it) (hfuel : it < fuel) :
    (pruned c R H).reachableLoop fin fuel (some it) = true ↔ Anc c.parent it fin := by
  induction fuel generalizing it with
  | zero => omega
  | succ fuel ih =>
    simp only [reachableLoop, pruned_notFinalized, pruned_sameBlock]
    by_cases hitfin : Finalized c it
    · rw [notFinalized_eq_false_iff.mpr hitfin, if_neg Bool.false_ne_true,
        hit.sameBlock_iff hfin]
      constructor
      · rintro rfl
        exact Anc.refl _
      · intro h
        exact h.antisymm hl.parent_lt (htop it hit hitfin)
    · rw [notFinalized_iff.mpr hitfin, if_pos rfl, pruned_parent]
      obtain ⟨p, hp, hpt, _⟩ := hf.parent_of_not hl hit hitfin
      have hlt := hl.parent_lt it p hp
      have hne : it ≠ fin := by
        rintro rfl
        exact hitfin hmark
      by_cases hgone : it ∈ R
      · rw [if_pos hgone]
        have hno : ¬ Anc c.parent it fin := (hR.doomed it hgone).2.2
        constructor
        · intro h
          cases fuel <;> simp [reachableLoop] at h
        · exact fun h => absurd h hno
      · rw [if_neg hgone, hp, ih hpt (by omega)]
        exact ⟨Anc.head hp, fun h => h.of_ne hne hp⟩

/-! ## All heads -/

/-- The loop invariant of the pruning at index `i`, with the heads `H` left. -/
structure PruningAt (c : ForkedChainRef) (fin : Nat) (R H : List Nat) (i : Nat) : Prop
    extends Pruning c fin R where
  nodup : H.Nodup
  sub : ∀ h ∈ H, h ∈ c.heads
  kept : ∀ h ∈ H.take i, Anc c.parent h fin
  split : ∀ h ∈ c.heads, h ∈ H ∨ h ∈ R

theorem pruneHeads_spec (hh : Heads c) (hfin : InTree c fin) (hmark : Finalized c fin)
    (htop : ∀ x, InTree c x → Finalized c x → Anc c.parent fin x)
    (fuel : Nat) {i : Nat} {R H : List Nat} {flag : Bool} (hinv : PruningAt c fin R H i)
    (hfuel : H.length ≤ i + fuel) (hflag : flag = true ↔ c.latest ∉ H) :
    ∃ R' H' flag', pruneHeads fin fuel i (pruned c R H) flag
        = .ok (pruned c R' H', flag') ∧
      PruningAt c fin R' H' H'.length ∧ (flag' = true ↔ c.latest ∉ H') := by
  induction fuel generalizing i R H flag with
  | zero =>
    refine ⟨R, H, flag, rfl, { hinv with kept := fun h hmem => hinv.kept h ?_ }, hflag⟩
    rw [List.take_of_length_le (by omega)]
    rwa [List.take_length] at hmem
  | succ fuel ih =>
    simp only [pruneHeads]
    have hheads : (pruned c R H).heads = H := rfl
    rw [hheads]
    cases hi : H[i]? with
    | none =>
      have hlen := List.getElem?_eq_none_iff.mp hi
      refine ⟨R, H, flag, rfl, { hinv with kept := fun h hmem => hinv.kept h ?_ }, hflag⟩
      rw [List.take_of_length_le hlen]
      rwa [List.take_length] at hmem
    | some head =>
      obtain ⟨hlt, hget⟩ := List.getElem?_eq_some_iff.mp hi
      have hmem : head ∈ H := hget ▸ List.getElem_mem hlt
      have hhead : InTree c head := hh.inTree (hinv.sub head hmem)
      have hreach : (pruned c R H).reachable head fin = true ↔ Anc c.parent head fin :=
        reachableLoop_pruned hl hf hinv.toPruning hfin hmark htop hhead (hl.lt_next hhead)
      by_cases hanc : Anc c.parent head fin
      · simp only [hreach.mpr hanc, if_true]
        refine ih { hinv with kept := fun h hm => ?_ } (by omega) hflag
        rw [List.take_add_one, hi, Option.toList_some, List.mem_append,
          List.mem_singleton] at hm
        rcases hm with hm | rfl
        · exact hinv.kept h hm
        · exact hanc
      · have hfalse : (pruned c R H).reachable head fin = false := by
          rw [Bool.eq_false_iff]
          exact fun h => hanc (hreach.mp h)
        simp only [hfalse, Bool.false_eq_true, if_false]
        -- a finalized head would be `fin` itself
        have hnfin : ¬ Finalized c head := fun h => by
          have hfh := htop head hhead h
          have heq := hh.eq_of_anc hl (hinv.sub head hmem) hfin hfh
          exact hanc (heq ▸ Anc.refl _)
        obtain ⟨R', hrun, hpr, hsub, hin⟩ := removeBranch_spec (H := H) hl hf hhead
          (hl.lt_next hhead) (fun _ => hanc) hinv.doomed
          (fun x p hx hp hnp => .inl (hinv.closed x p hx hp hnp))
        have hdel : ∀ x, x ∈ seqDel H i ↔ x ∈ H ∧ x ≠ head := by
          intro x
          rw [mem_seqDel_iff hinv.nodup hlt, hget]
        have hrun' : removeBranch (pruned c R H).nextBlock (pruned c R H) head
            = .ok (pruned c R' H) := hrun
        rw [hrun']
        have hlast : (pruned c R' H).sameBlock head (pruned c R' H).latest = true ↔
            head = c.latest := by
          rw [pruned_sameBlock]
          exact hhead.sameBlock_iff (hh.inTree hh.latest_mem)
        refine ih (R := R') (H := seqDel H i) ?_ ?_ ?_
        · refine { hpr with
            nodup := ?_
            sub := fun h hm => hinv.sub h ((hdel h).mp hm).1
            kept := fun h hm => hinv.kept h ?_
            split := fun h hm => ?_ }
          · exact (seqDel_perm hlt).nodup_iff.mpr (hinv.nodup.eraseIdx i)
          · rwa [seqDel_take hlt] at hm
          · rcases hinv.split h hm with hH | hR
            · by_cases heq : h = head
              · exact .inr (heq ▸ hin hnfin)
              · exact .inl ((hdel h).mpr ⟨hH, heq⟩)
            · exact .inr (hsub hR)
        · rw [(seqDel_perm hlt).length_eq, List.length_eraseIdx_of_lt hlt]
          omega
        · rw [Bool.or_eq_true, hflag, hlast, hdel]
          constructor
          · rintro (h | rfl)
            · exact fun hc => h hc.1
            · exact fun hc => hc.2 rfl
          · intro h
            by_cases hmemH : c.latest ∈ H
            · right
              by_contra hne
              exact h ⟨hmemH, fun he => hne he.symm⟩
            · exact .inl hmemH

end

section

variable {R H : List Nat} (hinv : PruningAt c fin R H H.length)
include hinv

/-- After the loop the blocks left are those on or above the lineage of `fin`. -/
theorem PruningAt.mem_iff
    (hl : Linked c) (hf : Finality c) (hh : Heads c) (hmark : Finalized c fin) (hfin : InTree c fin)
    (htop : ∀ x, InTree c x → Finalized c x → Anc c.parent fin x) {x : Nat}
    (hx : InTree c x) : x ∉ R ↔ Anc c.parent x fin ∨ Anc c.parent fin x := by
  constructor
  · intro hxR
    obtain ⟨h, hmem, hanc⟩ := hh.exists_above hl hx
    rcases hinv.split h hmem with hH | hR
    · have hhfin := hinv.kept h (by rwa [List.take_length])
      exact hanc.total hhfin
    · by_cases hxfin : Finalized c x
      · exact .inr (htop x hx hxfin)
      · exact absurd (hinv.toPruning.anc hl hf hR hanc hxfin) hxR
  · rintro (h | h) hxR
    · exact (hinv.doomed x hxR).2.2 h
    · exact (hinv.doomed x hxR).2.1 (hf.anc hl hfin hmark h)

theorem PruningAt.mem_heads_iff {h : Nat} : h ∈ H ↔ h ∈ c.heads ∧ Anc c.parent h fin := by
  constructor
  · exact fun hm => ⟨hinv.sub h hm, hinv.kept h (by rwa [List.take_length])⟩
  · rintro ⟨hm, hanc⟩
    rcases hinv.split h hm with hH | hR
    · exact hH
    · exact absurd hanc (hinv.doomed h hR).2.2

theorem PruningAt.up
    (hl : Linked c) (hf : Finality c) (hh : Heads c) (hmark : Finalized c fin) (hfin : InTree c fin)
    (htop : ∀ x, InTree c x → Finalized c x → Anc c.parent fin x) (b p : Nat)
    (hb : InTree c b) (hp : c.parent b = some p) (hpR : p ∈ R) : b ∈ R := by
  by_contra hbR
  have hno : ¬ (Anc c.parent p fin ∨ Anc c.parent fin p) := fun h =>
    (hinv.mem_iff hl hf hh hmark hfin htop (hl.inTree_parent hb hp)).mpr h hpR
  rcases (hinv.mem_iff hl hf hh hmark hfin htop hb).mp hbR with h | h
  · rcases h.cases_parent with rfl | ⟨q, hq, hqfin⟩
    · exact hno (.inr (Anc.parent hp))
    · rw [hp] at hq
      cases hq
      exact hno (.inl hqfin)
  · exact hno (.inr (h.tail hp))

theorem PruningAt.exists_child
    (hl : Linked c) (hf : Finality c) (hh : Heads c) (hmark : Finalized c fin) (hfin : InTree c fin)
    (htop : ∀ x, InTree c x → Finalized c x → Anc c.parent fin x) {b : Nat}
    (hb : InTree c b) (hbR : b ∉ R) (hno : b ∉ c.heads) :
    ∃ d, InTree c d ∧ d ∉ R ∧ c.parent d = some b := by
  have hstay : ∀ d, InTree c d → Anc c.parent d fin ∨ Anc c.parent fin d → d ∉ R :=
    fun d hd => (hinv.mem_iff hl hf hh hmark hfin htop hd).mpr
  have hchild : ∃ d, InTree c d ∧ c.parent d = some b := by
    by_contra hc
    push Not at hc
    exact hno (hh.mem_iff.mpr ⟨hb, hc⟩)
  rcases (hinv.mem_iff hl hf hh hmark hfin htop hb).mp hbR with h | h
  · obtain ⟨d, hd, hdb⟩ := hchild
    exact ⟨d, hd, hstay d hd (.inl (Anc.head hdb h)), hdb⟩
  · by_cases heq : fin = b
    · obtain ⟨d, hd, hdb⟩ := hchild
      exact ⟨d, hd, hstay d hd (.inl (heq ▸ Anc.parent hdb)), hdb⟩
    · obtain ⟨d, hfd, hdb⟩ := h.cases_child heq
      have hd := hl.inTree_anc hfin hfd
      exact ⟨d, hd, hstay d hd (.inr hfd), hdb⟩

end

/-! ## The new `latest` -/

theorem leadsTo_of_anc (hl : Linked c) {fuel h f : Nat} (hh : InTree c h) (hfuel : h < fuel)
    (hanc : Anc c.parent h f) : c.leadsTo f (chain c.parent fuel (some h)) = true := by
  induction fuel generalizing h with
  | zero => omega
  | succ fuel ih =>
    simp only [chain, leadsTo]
    by_cases hsame : c.sameBlock h f = true
    · rw [if_pos hsame]
    · rw [if_neg hsame, if_neg (Nat.not_lt.mpr (hl.number_le hh hanc))]
      rcases hanc.cases_parent with rfl | ⟨p, hp, hpf⟩
      · exact absurd ((hh.sameBlock_iff hh).mpr rfl) hsame
      · have hlt := hl.parent_lt h p hp
        rw [hp]
        exact ih (hl.inTree_parent hh hp) (by omega) hpf

/-- Some head above `f` is found, when there is one. -/
theorem candidate_spec (hl : Linked c) {f h : Nat} (hmem : h ∈ c.heads) (hh : InTree c h)
    (hanc : Anc c.parent h f) : ∃ b ∈ c.heads, c.candidate f = some b := by
  -- a step keeps the candidate or takes the head, and takes a head above `f` if it has none
  have hfold : ∀ (step : Option Nat → Nat → Option Nat),
      (∀ acc x, step acc x = acc ∨ step acc x = some x) →
      (∀ acc, (step acc h).isSome) → (∀ acc x, acc.isSome → (step acc x).isSome) →
      ∀ (l : List Nat) (acc : Option Nat), (∀ b, acc = some b → b ∈ c.heads) →
      (∀ b ∈ l, b ∈ c.heads) → acc.isSome = true ∨ h ∈ l →
      ∃ b ∈ c.heads, l.foldl step acc = some b := by
    intro step hone htake hkeep l
    induction l with
    | nil =>
      intro acc hacc _ hsome
      rcases hsome with hsome | hsome
      · obtain ⟨b, hb⟩ := Option.isSome_iff_exists.mp hsome
        exact ⟨b, hacc b hb, hb⟩
      · simp at hsome
    | cons x l ih =>
      intro acc hacc hl' hsome
      have hx : x ∈ c.heads := hl' x List.mem_cons_self
      apply ih
      · intro b hb
        rcases hone acc x with hstep | hstep
        · exact hacc b (hstep ▸ hb)
        · rw [hstep] at hb
          exact Option.some.inj hb ▸ hx
      · exact fun b hb => hl' b (.tail _ hb)
      · rcases hsome with hsome | hsome
        · exact .inl (hkeep acc x hsome)
        · rcases List.mem_cons.mp hsome with rfl | hsome
          · exact .inl (htake acc)
          · exact .inr hsome
  have hlead : c.leadsTo f (c.ancestors (some h)) = true :=
    leadsTo_of_anc hl hh (hl.lt_next hh) hanc
  refine hfold _ (fun acc x => ?_) (fun acc => ?_) (fun acc x hacc => ?_) c.heads none
    (fun _ h => by cases h) (fun _ h => h) (.inr hmem)
  · cases acc with
    | none =>
      split
      · exact .inr rfl
      · exact .inl rfl
    | some best =>
      dsimp only
      split
      · split
        · exact .inr rfl
        · exact .inl rfl
      · exact .inl rfl
  · rw [if_pos hlead]
    cases acc with
    | none => rfl
    | some best =>
      dsimp only
      split <;> rfl
  · cases acc with
    | none => cases hacc
    | some best =>
      dsimp only
      split
      · split <;> rfl
      · rfl

/-! ## `updateFinalized` -/

/-- What finalizing `fin` turns `c` into: the blocks left are those on or above the lineage
of `fin`, and the whole lineage is finalized. -/
structure FinalizedAt (c c' : ForkedChainRef) (fin : Nat) : Prop where
  rest : c' = { c with
    blocks := c'.blocks, frames := c'.frames, hashToBlock := c'.hashToBlock
    heads := c'.heads, latest := c'.latest }
  inTree : ∀ {x}, InTree c' x ↔ InTree c x ∧ (Anc c.parent x fin ∨ Anc c.parent fin x)
  finalized : ∀ {x}, Finalized c' x ↔ Finalized c x ∨ Anc c.parent fin x
  heads : ∀ {x}, x ∈ c'.heads ↔ x ∈ c.heads ∧ Anc c.parent x fin
  latest : Anc c.parent c.latest fin → c'.latest = c.latest
  hash : c'.hash = c.hash
  header : ∀ {x}, InTree c' x → (c'.blocks x).header = (c.blocks x).header
  parent : ∀ {x}, InTree c' x → c'.parent x = c.parent x

/-- With one head every block is on or above every lineage. -/
theorem Heads.comparable_of_single (hh : Heads c) (hl : Linked c) (h1 : c.heads.length = 1)
    {x y : Nat} (hx : InTree c x) (hy : InTree c y) : Anc c.parent x y ∨ Anc c.parent y x := by
  have hhead := hh.latest_mem
  exact (hh.anc_of_single hl h1 hhead hx).total (hh.anc_of_single hl h1 hhead hy)

theorem updateFinalized_spec (hl : Linked c) (hf : Finality c) (hh : Heads c) (hfin : InTree c fin)
    (hcond : c.heads.length = 1 ∨ ∀ x, InTree c x → Finalized c x → Anc c.parent fin x)
    {fcuHead : Nat} (hfcu : InTree c fcuHead) (hanc : Anc c.parent fcuHead fin) :
    ∃ c', c.updateFinalized fin fcuHead = .ok c' ∧ Linked c' ∧ Finality c' ∧ Heads c' ∧
      FinalizedAt c c' fin := by
  obtain ⟨F, hF, hf1, hfinalized⟩ := finalizeLoop_spec hl hf hfin
  have hl1 : Linked (marked c F) := hl.marked
  have hh1 : Heads (marked c F) := hh.marked
  have hfin1 : InTree (marked c F) fin := inTree_marked_iff.mpr hfin
  have hmark : Finalized (marked c F) fin := (hfinalized fin).mpr (.inr (Anc.refl _))
  unfold updateFinalized
  rw [hF]
  have hlen : (marked c F).heads.length = c.heads.length := rfl
  by_cases h1 : c.heads.length = 1
  · -- one head: nothing to prune
    refine ⟨marked c F, ?_, hl1, hf1, hh1, ?_⟩
    · show (if (marked c F).heads.length = 1 then _ else _) = _
      rw [hlen, if_pos h1]
      rfl
    · exact {
        rest := rfl
        inTree := by
          intro x
          rw [inTree_marked_iff]
          exact ⟨fun hx => ⟨hx, hh.comparable_of_single hl h1 hx hfin⟩, fun hx => hx.1⟩
        finalized := hfinalized _
        heads := fun {x} => ⟨fun hx => ⟨hx, hh.anc_of_single hl h1 hx hfin⟩, fun hx => hx.1⟩
        latest := fun _ => rfl
        hash := marked_hash
        header := fun _ => marked_header _
        parent := fun _ => by rw [marked_parent] }
  · have htop : ∀ x, InTree (marked c F) x → Finalized (marked c F) x →
        Anc (marked c F).parent fin x := by
      intro x hx hxfin
      rw [marked_parent]
      rcases (hfinalized x).mp hxfin with h | h
      · exact (hcond.resolve_left h1) x (inTree_marked_iff.mp hx) h
      · exact h
    have hstart : PruningAt (marked c F) fin [] (marked c F).heads 0 := {
      Pruning.nil with
      nodup := hh1.nodup
      sub := fun _ h => h
      kept := by simp
      split := fun _ h => .inl h }
    have hlatest1 : (false = true) ↔ (marked c F).latest ∉ (marked c F).heads :=
      ⟨fun h => absurd h Bool.false_ne_true, fun h => absurd hh1.latest_mem h⟩
    obtain ⟨R, H, flag, hrun, hinv, hflag⟩ := pruneHeads_spec hl1 hf1 hh1
      hfin1 hmark htop (marked c F).heads.length hstart (by omega) hlatest1
    rw [pruned_nil] at hrun
    have hup := hinv.up hl1 hf1 hh1 hmark hfin1 htop
    have hbase : (marked c F).base ∉ R := fun h => (hinv.doomed _ h).2.1 hf1.base
    have hl2 : Linked (pruned (marked c F) R H) :=
      hl1.pruned (fun x hx => (hinv.doomed x hx).1) hbase hup
    have hf2 : Finality (pruned (marked c F) R H) := hf1.pruned
    have hmem : ∀ {x}, InTree (marked c F) x →
        (x ∉ R ↔ Anc (marked c F).parent x fin ∨ Anc (marked c F).parent fin x) :=
      fun hx => hinv.mem_iff hl1 hf1 hh1 hmark hfin1 htop hx
    have hheads : ∀ {b}, b ∈ H ↔ InTree (pruned (marked c F) R H) b ∧
        ∀ d, InTree (pruned (marked c F) R H) d →
          (pruned (marked c F) R H).parent d ≠ some b := by
      intro b
      rw [inTree_pruned_iff]
      constructor
      · intro hb
        obtain ⟨hbh, hbanc⟩ := hinv.mem_heads_iff.mp hb
        obtain ⟨hbt, hchild⟩ := hh1.mem_iff.mp hbh
        refine ⟨⟨hbt, (hmem hbt).mpr (.inl hbanc)⟩, fun d hd => ?_⟩
        obtain ⟨hdt, hdR⟩ := inTree_pruned_iff.mp hd
        rw [pruned_parent, if_neg hdR]
        exact hchild d hdt
      · rintro ⟨⟨hbt, hbR⟩, hchild⟩
        by_cases hbh : b ∈ (marked c F).heads
        · exact (hinv.split b hbh).resolve_right hbR
        · obtain ⟨d, hdt, hdR, hdb⟩ :=
            hinv.exists_child hl1 hf1 hh1 hmark hfin1 htop hbt hbR hbh
          refine absurd ?_ (hchild d (inTree_pruned_iff.mpr ⟨hdt, hdR⟩))
          rw [pruned_parent, if_neg hdR, hdb]
    -- the pruned state, whatever `latest` becomes
    have hshape : ∀ l, (Anc c.parent c.latest fin → l = c.latest) →
        FinalizedAt c { pruned (marked c F) R H with latest := l } fin := by
      intro l hlat
      have hmem' : ∀ {x}, InTree (pruned (marked c F) R H) x ↔
          InTree c x ∧ (Anc c.parent x fin ∨ Anc c.parent fin x) := by
        intro x
        rw [inTree_pruned_iff, inTree_marked_iff]
        refine and_congr_right fun hx => ?_
        rw [hmem (inTree_marked_iff.mpr hx), marked_parent]
      have hmemR : ∀ {x}, InTree (pruned (marked c F) R H) x → InTree (marked c F) x ∧ x ∉ R :=
        inTree_pruned_iff.mp
      exact {
        rest := rfl
        inTree := hmem'
        finalized := by
          intro x
          show Finalized (pruned (marked c F) R H) x ↔ _
          rw [finalized_pruned_iff, hfinalized]
        heads := by
          intro x
          show x ∈ H ↔ _
          rw [hinv.mem_heads_iff, marked_parent]
          rfl
        latest := hlat
        hash := by
          show (pruned (marked c F) R H).hash = c.hash
          funext x
          rw [pruned_hash, marked_hash]
        header := by
          intro x hx
          have hxR : x ∉ R := (hmemR hx).2
          rw [pruned_blocks_of_not_mem hxR, marked_header]
        parent := by
          intro x hx
          have hxR : x ∉ R := (hmemR hx).2
          show (pruned (marked c F) R H).parent x = c.parent x
          rw [pruned_parent, if_neg hxR, marked_parent] }
    have hnext : ∀ l ∈ H, Linked { pruned (marked c F) R H with latest := l } ∧
        Finality { pruned (marked c F) R H with latest := l } ∧
        Heads { pruned (marked c F) R H with latest := l } :=
      fun l hmemH => ⟨hl2.congr rfl, hf2.congr rfl, ⟨hheads, hinv.nodup, hmemH⟩⟩
    have hprune : pruneHeads fin (marked c F).heads.length 0 (marked c F) false
        = .ok (pruned (marked c F) R H, flag) := hrun
    show ∃ c', (if (marked c F).heads.length = 1 then _ else _) = _ ∧ _
    rw [hlen, if_neg h1, ← hlen, hprune]
    cases hfl : flag with
    | false =>
      have hin : c.latest ∈ H := by
        by_contra hno
        have hx := hflag.mpr hno
        rw [hfl] at hx
        cases hx
      obtain ⟨ha, hb, hc⟩ := hnext c.latest hin
      exact ⟨_, rfl, ha, hb, hc, hshape c.latest fun _ => rfl⟩
    | true =>
      have hout : c.latest ∉ H := hflag.mp hfl
      -- a head above `fcuHead` stays, since `fcuHead` leads to `fin`
      obtain ⟨h, hhmem, hhanc⟩ := hh.exists_above hl hfcu
      have hH : h ∈ H := hinv.mem_heads_iff.mpr
        ⟨hhmem, by rw [marked_parent]; exact hhanc.trans hanc⟩
      obtain ⟨hht, hhR⟩ := inTree_pruned_iff.mp (hheads.mp hH).1
      have hhanc2 : Anc (pruned (marked c F) R H).parent h fcuHead := by
        rw [anc_pruned_iff hl1 hup hht hhR, marked_parent]
        exact hhanc
      obtain ⟨b, hbH, hcand⟩ := candidate_spec hl2 (c := pruned (marked c F) R H) hH
        (hheads.mp hH).1 hhanc2
      obtain ⟨ha, hb, hc⟩ := hnext b hbH
      refine ⟨{ pruned (marked c F) R H with latest := b }, ?_, ha, hb, hc, hshape b ?_⟩
      · simp only [bind, Except.bind, if_true]
        rw [hcand]
        rfl
      · intro hlat
        refine absurd (hinv.mem_heads_iff.mpr ⟨hh.latest_mem, ?_⟩) hout
        rw [marked_parent]
        exact hlat

end

end Nimbus.Spec.ForkedChain
