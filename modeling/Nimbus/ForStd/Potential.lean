import Mathlib.Algebra.Order.BigOperators.Group.Finset
import Mathlib.Data.Fintype.BigOperators

/-!
# Potentials of a pair of maps

A map changes at one key at a time while a second map remembers what it started from. The
potential of a weight is the sum, over the keys, of the weight of the old and the current value.
-/

namespace Nimbus

open Finset

variable {K V : Type} [Fintype K]

/-- The weights of the pairs of values, summed over all keys. -/
def potential (weight : V → V → ℕ) (original current : K → V) : ℕ :=
  ∑ k, weight (original k) (current k)

variable (weight : V → V → ℕ) (original current : K → V)

theorem weight_le_potential (k : K) :
    weight (original k) (current k) ≤ potential weight original current :=
  single_le_sum (f := fun k => weight (original k) (current k)) (fun _ _ => Nat.zero_le _)
    (mem_univ k)

/-- A map that is as it started has potential zero, if unchanged values weigh nothing. -/
theorem potential_self {weight : V → V → ℕ} (h : ∀ v, weight v v = 0) : potential weight original original = 0 := by
  exact sum_eq_zero fun k _ => h (original k)

/-- A change of one key changes the potential by the weights of that key. -/
theorem potential_of_eq_off [DecidableEq K] {current' : K → V} (k : K)
    (h : ∀ k', k' ≠ k → current' k' = current k') :
    potential weight original current' + weight (original k) (current k) =
      potential weight original current + weight (original k) (current' k) := by
  unfold potential
  rw [← add_sum_erase _ _ (mem_univ k), ← add_sum_erase univ _ (mem_univ k)]
  have hrest : ∑ x ∈ univ.erase k, weight (original x) (current' x) =
      ∑ x ∈ univ.erase k, weight (original x) (current x) := by
    apply sum_congr rfl
    intro k' hk'
    rw [h k' (ne_of_mem_erase hk')]
  omega

/-- Where both maps are reset to values that weigh nothing, the potential does not grow. -/
theorem potential_mono {weight : V → V → ℕ} {original current original' current' : K → V}
    (h : ∀ k, weight (original' k) (current' k) ≤ weight (original k) (current k)) :
    potential weight original' current' ≤ potential weight original current :=
  sum_le_sum fun k _ => h k

end Nimbus
