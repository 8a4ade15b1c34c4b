import Mathlib.Algebra.BigOperators.Intervals
import Mathlib.Algebra.Order.BigOperators.Group.Finset

/-!
# Rounded terms of the exponential series

The terms of `factor * denominator * e ^ (numerator / denominator)`, each computed from the one
before and rounded down. From some term on they are all zero, so that their sum is computed by a
loop that ends at the first zero.
-/

namespace Nimbus

open Finset

section

variable (factor numerator denominator : Nat)

def taylor : Nat → Nat
  | 0 => factor * denominator
  | i + 1 => taylor i * numerator / (denominator * (i + 1))

theorem taylor_zero : taylor factor numerator denominator 0 = factor * denominator := rfl

theorem taylor_succ (i : Nat) : taylor factor numerator denominator (i + 1) =
    taylor factor numerator denominator i * numerator / (denominator * (i + 1)) := rfl

variable {factor numerator denominator}

theorem taylor_mono {numerator' : Nat} (h : numerator ≤ numerator') (i : Nat) :
    taylor factor numerator denominator i ≤ taylor factor numerator' denominator i := by
  induction i with
  | zero => exact Nat.le_refl _
  | succ i ih => exact Nat.div_le_div_right (Nat.mul_le_mul ih h)

theorem taylor_stays_zero {k : Nat} (h : taylor factor numerator denominator k = 0) {i : Nat}
    (hi : k ≤ i) : taylor factor numerator denominator i = 0 := by
  induction hi with
  | refl => exact h
  | step _ ih => rw [taylor_succ, ih, Nat.zero_mul, Nat.zero_div]

/-- From twice the numerator on, a term is at most half of the one before. -/
theorem taylor_halves (hd : 0 < denominator) (m : Nat) :
    taylor factor numerator denominator (2 * numerator + m) * 2 ^ m ≤
      taylor factor numerator denominator (2 * numerator) := by
  induction m with
  | zero => simp
  | succ m ih =>
    have hstep : taylor factor numerator denominator (2 * numerator + (m + 1)) * 2 ≤
        taylor factor numerator denominator (2 * numerator + m) := by
      have hdiv := Nat.div_mul_le_self
        (taylor factor numerator denominator (2 * numerator + m) * numerator)
        (denominator * (2 * numerator + m + 1))
      have hlarge : 2 * numerator + 1 ≤ denominator * (2 * numerator + m + 1) :=
        Nat.le_trans (by omega) (Nat.le_mul_of_pos_left _ hd)
      rw [← Nat.add_assoc, taylor_succ]
      generalize taylor factor numerator denominator (2 * numerator + m) = a at hdiv ⊢
      generalize a * numerator / (denominator * (2 * numerator + m + 1)) = q at hdiv ⊢
      -- `q * (2 * numerator + 1) ≤ a * numerator`, so `2 * q ≤ a` or `numerator = 0`
      have hq : q * (2 * numerator + 1) ≤ a * numerator :=
        Nat.le_trans (Nat.mul_le_mul_left q hlarge) hdiv
      by_contra hlt
      have hmore : (a + 1) * numerator ≤ q * 2 * numerator := Nat.mul_le_mul_right _ (by omega)
      rw [Nat.mul_add, ← Nat.mul_assoc] at hq
      rw [Nat.add_mul] at hmore
      omega
    calc taylor factor numerator denominator (2 * numerator + (m + 1)) * 2 ^ (m + 1)
        = taylor factor numerator denominator (2 * numerator + (m + 1)) * 2 * 2 ^ m := by
          rw [Nat.pow_succ, Nat.mul_comm (2 ^ m) 2, Nat.mul_assoc]
      _ ≤ taylor factor numerator denominator (2 * numerator + m) * 2 ^ m :=
          Nat.mul_le_mul_right _ hstep
      _ ≤ _ := ih

theorem taylor_eq_zero_of_lt (hd : 0 < denominator) {m : Nat}
    (hm : taylor factor numerator denominator (2 * numerator) < 2 ^ m) :
    taylor factor numerator denominator (2 * numerator + m) = 0 := by
  have hhalves : taylor factor numerator denominator (2 * numerator + m) * 2 ^ m ≤ _ :=
    taylor_halves hd m
  by_contra h0
  have hle := Nat.le_mul_of_pos_left (2 ^ m) (Nat.pos_of_ne_zero h0)
  omega

theorem exists_taylor_eq_zero (factor numerator denominator : Nat) :
    ∃ n, taylor factor numerator denominator n = 0 := by
  by_cases hd : denominator = 0
  · exact ⟨0, by rw [taylor_zero, hd, Nat.mul_zero]⟩
  · exact ⟨_, taylor_eq_zero_of_lt (Nat.pos_of_ne_zero hd) Nat.lt_two_pow_self⟩

end

/-- The number of terms before the first zero. -/
def taylorLength (factor numerator denominator : Nat) : Nat :=
  Nat.find (exists_taylor_eq_zero factor numerator denominator)

/-- The sum of the terms before the first zero, so of all terms. -/
def taylorSum (factor numerator denominator : Nat) : Nat :=
  ∑ i ∈ range (taylorLength factor numerator denominator), taylor factor numerator denominator i

section

variable {factor numerator denominator : Nat}

theorem taylor_length : taylor factor numerator denominator
    (taylorLength factor numerator denominator) = 0 :=
  Nat.find_spec (exists_taylor_eq_zero factor numerator denominator)

theorem taylor_pos_of_lt_length {i : Nat} (hi : i < taylorLength factor numerator denominator) :
    0 < taylor factor numerator denominator i :=
  Nat.pos_of_ne_zero (Nat.find_min (exists_taylor_eq_zero factor numerator denominator) hi)

theorem taylorSum_eq {n : Nat} (h : taylor factor numerator denominator n = 0) :
    ∑ i ∈ range n, taylor factor numerator denominator i =
      taylorSum factor numerator denominator := by
  have hle : taylorLength factor numerator denominator ≤ n := Nat.find_min' _ h
  symm
  apply sum_subset (range_subset_range.mpr hle)
  intro i _ hi
  exact taylor_stays_zero taylor_length (Nat.not_lt.mp fun hlt => hi (mem_range.mpr hlt))

/-- A part of the sum is at most the sum. -/
theorem sum_taylor_le (n : Nat) : ∑ i ∈ range n, taylor factor numerator denominator i ≤
    taylorSum factor numerator denominator := by
  have hzero : taylor factor numerator denominator
      (n + taylorLength factor numerator denominator) = 0 :=
    taylor_stays_zero taylor_length (Nat.le_add_left _ n)
  rw [← taylorSum_eq hzero]
  exact sum_le_sum_of_subset (range_subset_range.mpr (Nat.le_add_right _ _))

theorem sum_add_taylor_le (i : Nat) : ∑ j ∈ range i, taylor factor numerator denominator j +
    taylor factor numerator denominator i ≤ taylorSum factor numerator denominator := by
  rw [← sum_range_succ]
  exact sum_taylor_le (i + 1)

theorem taylorSum_mono {numerator' : Nat} (h : numerator ≤ numerator') :
    taylorSum factor numerator denominator ≤ taylorSum factor numerator' denominator :=
  Nat.le_trans (sum_le_sum fun i _ => taylor_mono h i) (sum_taylor_le _)

theorem taylorLength_le (hd : 0 < denominator) {m : Nat}
    (hm : taylor factor numerator denominator (2 * numerator) < 2 ^ m) :
    taylorLength factor numerator denominator ≤ 2 * numerator + m :=
  Nat.find_min' _ (taylor_eq_zero_of_lt hd hm)

end

end Nimbus
