import Mathlib.Data.List.Chain
import Nimbus.Native.GasLimit

/-!
# Gas limits that are accepted, and arrive

The gas limit that a node computes for a block is within the bounds that validation sets, and
block by block it comes to what is asked for.
-/

namespace Nimbus.Spec.GasLimit

open Native.GasLimit

/-- The gas limits that a chain may have: the sum of two of them does not wrap around. -/
def InRange (limit : UInt64) : Prop := 5000 ≤ limit.toNat ∧ limit.toNat < 0x8000000000000000

theorem clamp_toNat (d : UInt64) :
    (if d < GAS_LIMIT_MINIMUM then GAS_LIMIT_MINIMUM else d).toNat = max d.toNat 5000 := by
  split
  · next h =>
    have h : d.toNat < 5000 := h
    exact (Nat.max_eq_right h.le).symm
  · next h =>
    have h : ¬ d.toNat < 5000 := h
    exact (Nat.max_eq_left (Nat.le_of_not_lt h)).symm

/-- The limit moves by less than one part in 1024, and not past what is asked for. -/
theorem calcGasLimit1559_toNat {parent : UInt64} (desired : UInt64) (h : InRange parent) :
    (calcGasLimit1559 parent desired).toNat =
      if parent.toNat < max desired.toNat 5000 then
        min (parent.toNat + (parent.toNat / 1024 - 1)) (max desired.toNat 5000)
      else max (parent.toNat - (parent.toNat / 1024 - 1)) (max desired.toNat 5000) := by
  obtain ⟨hmin, hmax⟩ := h
  have hclamp := clamp_toNat desired
  have hdelta : (parent / GAS_LIMIT_ADJUSTMENT_FACTOR - 1).toNat = parent.toNat / 1024 - 1 := by
    apply UInt64.toNat_sub_of_le
    show 1 ≤ parent.toNat / 1024
    omega
  unfold calcGasLimit1559
  dsimp only
  generalize (if desired < _ then GAS_LIMIT_MINIMUM else desired) = goal at hclamp ⊢
  generalize parent / GAS_LIMIT_ADJUSTMENT_FACTOR - 1 = delta at hdelta ⊢
  have hadd : (parent + delta).toNat = parent.toNat + delta.toNat := by
    rw [UInt64.toNat_add, Nat.mod_eq_of_lt (by omega)]
  have hsub : (parent - delta).toNat = parent.toNat - delta.toNat := by
    apply UInt64.toNat_sub_of_le
    show delta.toNat ≤ parent.toNat
    omega
  simp only [gt_iff_lt, UInt64.lt_iff_toNat_lt, hadd, hsub]
  split_ifs <;> omega

theorem validateGasLimit_ok {gasLimit limit : UInt64} (hmin : 5000 ≤ gasLimit.toNat)
    (hlow : limit.toNat < gasLimit.toNat + limit.toNat / 1024)
    (hhigh : gasLimit.toNat < limit.toNat + limit.toNat / 1024) :
    validateGasLimit gasLimit limit = .ok () := by
  have hupper : (limit / GAS_LIMIT_ADJUSTMENT_FACTOR).toNat = limit.toNat / 1024 := rfl
  have hdiff : (if limit > gasLimit then limit - gasLimit else gasLimit - limit).toNat
      < limit.toNat / 1024 := by
    split
    · next h =>
      have h : gasLimit.toNat < limit.toNat := h
      rw [UInt64.toNat_sub_of_le _ _ h.le]
      omega
    · next h =>
      have h : limit.toNat ≤ gasLimit.toNat := Nat.le_of_not_lt h
      rw [UInt64.toNat_sub_of_le _ _ h]
      omega
  unfold validateGasLimit
  dsimp only
  have hmin : ¬ gasLimit < GAS_LIMIT_MINIMUM := Nat.not_lt_of_le hmin
  have hdiff : ¬ _ ≥ limit / GAS_LIMIT_ADJUSTMENT_FACTOR := Nat.not_le_of_lt hdiff
  rw [if_neg hdiff, if_neg hmin]

/-- One block: the limit stays in range, and is accepted. -/
theorem calcGasLimit1559_valid {parent desired : UInt64} (h : InRange parent)
    (hdesired : desired ≤ GAS_LIMIT_MAXIMUM) :
    InRange (calcGasLimit1559 parent desired) ∧
      validateGasLimit (calcGasLimit1559 parent desired) parent = .ok () := by
  have hcalc := calcGasLimit1559_toNat desired h
  obtain ⟨hmin, hmax⟩ := h
  have hdesired : desired.toNat ≤ 0x7fffffffffffffff := hdesired
  generalize calcGasLimit1559 parent desired = limit at hcalc ⊢
  unfold InRange
  split at hcalc
  · exact ⟨by omega, validateGasLimit_ok (by omega) (by omega) (by omega)⟩
  · exact ⟨by omega, validateGasLimit_ok (by omega) (by omega) (by omega)⟩

theorem setGasLimit_le (val : UInt64) : setGasLimit val ≤ GAS_LIMIT_MAXIMUM := by
  unfold setGasLimit
  split
  · decide
  · split
    · exact UInt64.le_refl _
    · next h => exact UInt64.not_lt.mp h

/-- Whatever is asked for, block by block, the blocks that a node builds on each other have gas
limits that its own validation accepts. -/
theorem gasLimits_valid (val parent : UInt64) (targets : List (Option UInt64))
    (h : InRange parent) (htargets : ∀ t, some t ∈ targets → t ≤ GAS_LIMIT_MAXIMUM) :
    (parent :: gasLimits (setGasLimit val) parent targets).IsChain fun limit gasLimit =>
      InRange gasLimit ∧ validateGasLimit gasLimit limit = .ok () := by
  induction targets generalizing parent with
  | nil => exact .singleton _
  | cons target targets ih =>
    have hdesired : target.getD (setGasLimit val) ≤ GAS_LIMIT_MAXIMUM := by
      cases target with
      | none => exact setGasLimit_le val
      | some target => exact htargets target List.mem_cons_self
    have hvalid := calcGasLimit1559_valid h hdesired
    exact .cons_cons hvalid (ih _ hvalid.1 fun t ht => htargets t (List.mem_cons_of_mem _ ht))

theorem gasLimits_valid_twoBlocks :
    (30000000 :: gasLimits (setGasLimit 36000000) 30000000 [some 0, none]).IsChain
      fun limit gasLimit => InRange gasLimit ∧ validateGasLimit gasLimit limit = .ok () :=
  gasLimits_valid 36000000 30000000 [some 0, none] ⟨by decide, by decide⟩
    (fun | _, .head _ => by decide)

/-- The distance to what is asked for is gone after as many blocks, at the latest. -/
theorem calcGasLimit1559_arrives (parent desired : UInt64) (blocks : Nat) (h : InRange parent)
    (hdesired : desired ≤ GAS_LIMIT_MAXIMUM)
    (hblocks : max parent.toNat (max desired.toNat 5000)
      ≤ min parent.toNat (max desired.toNat 5000) + 3 * blocks) :
    ((fun limit => calcGasLimit1559 limit desired)^[blocks] parent).toNat
      = max desired.toNat 5000 := by
  induction blocks generalizing parent with
  | zero =>
    show parent.toNat = _
    omega
  | succ blocks ih =>
    have hcalc := calcGasLimit1559_toNat desired h
    have hmin := h.1
    apply ih _ (calcGasLimit1559_valid h hdesired).1
    rw [hcalc]
    split <;> omega

theorem calcGasLimit1559_arrives_up :
    ((fun limit => calcGasLimit1559 limit 5010)^[4] 5000).toNat = max 5010 5000 :=
  calcGasLimit1559_arrives 5000 5010 4 (by unfold InRange; decide) (by decide) (by decide)

end Nimbus.Spec.GasLimit
