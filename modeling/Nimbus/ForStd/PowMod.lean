import Mathlib.Data.Int.ModEq
import Mathlib.Data.Nat.Size
import Mathlib.Tactic.Ring
import Mathlib.Tactic.LinearCombination

/-!
# Powers modulo a number

The facts that algorithms for modular powers rest on: the loop over the bits of the exponent,
what the exponent may be reduced by when the modulus is a power of two, how an inverse modulo
a power of two is lifted, and how residues for coprime moduli are put together.
-/

namespace Nimbus

/-- The indices below `n`, the highest one first. -/
def countdown (n : Nat) : List Nat := (List.range n).reverse

theorem countdown_succ (n : Nat) : countdown (n + 1) = n :: countdown n := by
  unfold countdown
  rw [List.range_succ, List.reverse_append]
  rfl

/-- If each iteration succeeds and goes from the invariant for `i + 1` to that for `i`, the
loop succeeds and ends with the invariant for zero. -/
theorem foldlM_countdown {σ : Type*} {step : σ → Nat → Option σ} {I : Nat → σ → Prop} {n : Nat}
    (hstep : ∀ i < n, ∀ s, I (i + 1) s → ∃ s', step s i = some s' ∧ I i s') {s : σ} (hs : I n s) :
    ∃ s', (countdown n).foldlM step s = some s' ∧ I 0 s' := by
  induction n generalizing s with
  | zero => exact ⟨s, rfl, hs⟩
  | succ n ih =>
    obtain ⟨s₁, hs₁, hI⟩ := hstep n (Nat.lt_succ_self n) s hs
    obtain ⟨s', hs', hI'⟩ := ih (fun i hi => hstep i (Nat.lt_succ_of_lt hi)) hI
    refine ⟨s', ?_, hI'⟩
    rw [countdown_succ, List.foldlM_cons, hs₁]
    exact hs'

/-! ## The bits of an exponent -/

theorem shiftRight_eq_double (e i : Nat) : e >>> i = 2 * (e >>> (i + 1)) + (e.testBit i).toNat := by
  rw [Nat.shiftRight_succ, Nat.testBit_eq_decide_div_mod_eq, ← Nat.shiftRight_eq_div_pow]
  obtain hbit | hbit := Nat.mod_two_eq_zero_or_one (e >>> i)
  · simp only [hbit]
    simp
    omega
  · simp only [hbit]
    simp
    omega

/-- The power squared, and times the base if the bit is set. -/
theorem pow_shiftRight {M : Type*} [Monoid M] (b : M) (e i : Nat) :
    b ^ (e >>> i) =
      b ^ (e >>> (i + 1)) * b ^ (e >>> (i + 1)) * if e.testBit i then b else 1 := by
  rw [shiftRight_eq_double e i, pow_add, two_mul, pow_add]
  cases e.testBit i with
  | false => simp
  | true => simp

theorem shiftRight_size (e : Nat) : e >>> e.size = 0 := by
  rw [Nat.shiftRight_eq_div_pow]
  exact Nat.div_eq_of_lt e.lt_size_self

theorem shiftRight_size_sub_one {e : Nat} (he : e ≠ 0) : e >>> (e.size - 1) = 1 := by
  have hpos : 0 < e.size := Nat.size_pos.mpr (Nat.pos_of_ne_zero he)
  have hlow : 2 ^ (e.size - 1) ≤ e := Nat.lt_size.mp (by omega)
  have hhigh : e < 2 ^ (e.size - 1) * 2 := by
    rw [← Nat.pow_succ, Nat.succ_eq_add_one, Nat.sub_add_cancel hpos]
    exact e.lt_size_self
  rw [Nat.shiftRight_eq_div_pow]
  exact Nat.div_eq_of_lt_le (by omega) (by omega)

/-! ## Powers of two as moduli -/

theorem pow_mod_modEq {b n m : Nat} (h : b ^ n ≡ 1 [MOD m]) (e : Nat) :
    b ^ (e % n) ≡ b ^ e [MOD m] := by
  have hsplit : b ^ e = (b ^ n) ^ (e / n) * b ^ (e % n) := by
    rw [← pow_mul, ← pow_add, Nat.div_add_mod]
  have hone := (h.pow (e / n)).mul_right (b ^ (e % n))
  rw [one_pow, one_mul, ← hsplit] at hone
  exact hone.symm

/-- A square is closer to one by a factor of two. -/
theorem sq_modEq_one {x n : Nat} (hn : 0 < n) (h : x ≡ 1 [MOD 2 ^ n]) :
    x ^ 2 ≡ 1 [MOD 2 ^ (n + 1)] := by
  rw [← Int.natCast_modEq_iff, Int.modEq_iff_dvd] at h ⊢
  obtain ⟨c, hc⟩ := h
  obtain ⟨n, rfl⟩ : ∃ m, n = m + 1 := ⟨n - 1, by omega⟩
  push_cast at hc ⊢
  refine ⟨c - 2 ^ n * c ^ 2, ?_⟩
  have hx : (x : ℤ) = 1 - 2 ^ (n + 1) * c := by linear_combination -hc
  rw [hx]
  ring

theorem odd_pow_two_pow {b : Nat} (hb : Odd b) (k : Nat) : b ^ 2 ^ (k + 1) ≡ 1 [MOD 2 ^ (k + 3)] := by
  induction k with
  | zero =>
    -- odd squares modulo eight
    obtain ⟨c, rfl⟩ := hb
    obtain ⟨d, hd⟩ : Even (c * (c + 1)) := Nat.even_mul_succ_self c
    have hsq : (2 * c + 1) ^ 2 = 1 + 8 * d := by
      calc (2 * c + 1) ^ 2 = 4 * (c * (c + 1)) + 1 := by ring
        _ = 1 + 8 * d := by rw [hd]; ring
    show (2 * c + 1) ^ 2 ≡ 1 [MOD 8]
    exact Nat.ModEq.symm ((Nat.modEq_iff_dvd' (by omega)).mpr ⟨d, by omega⟩)
  | succ k ih =>
    have hsq := sq_modEq_one (by omega) ih
    rwa [← pow_mul] at hsq

theorem two_pow_dvd_pow {b k e : Nat} (hb : Even b) (h : k ≤ e) : 2 ^ k ∣ b ^ e :=
  (pow_dvd_pow 2 h).trans (pow_dvd_pow_of_dvd hb.two_dvd e)

/-! ## Inverses and residues -/

/-- A round of Newton's iteration: the inverse is good for the square of the modulus. -/
theorem lift_inverse {q x m m' : ℤ} (h : q * x ≡ 1 [ZMOD m]) (hm : m' ∣ m * m) :
    q * (x * (2 - q * x)) ≡ 1 [ZMOD m'] := by
  obtain ⟨c, hc⟩ := h.dvd
  obtain ⟨d, hd⟩ := hm
  apply (Int.modEq_iff_dvd).mpr
  refine ⟨d * c ^ 2, ?_⟩
  have hx : q * x = 1 - m * c := by linear_combination -hc
  calc 1 - q * (x * (2 - q * x)) = (1 - q * x) ^ 2 := by ring
    _ = m * m * c ^ 2 := by rw [hx]; ring
    _ = m' * (d * c ^ 2) := by rw [hd]; ring

/-- The residues for two coprime moduli give the one for their product. -/
theorem garner {q m inv : Nat} (a : Nat) (hq : 0 < q) (hm : 0 < m) (hcoprime : q.Coprime m)
    (hinv : q * inv ≡ 1 [MOD m]) :
    a % q + q * (inv * (((a % m : Nat) - (a % q : Nat) : ℤ) % m).toNat % m) = a % (q * m) := by
  generalize hd : (((a % m : Nat) - (a % q : Nat) : ℤ) % m).toNat = d
  generalize ht : inv * d % m = t
  have hlt : a % q + q * t < q * m := by
    have hlow := Nat.mod_lt a hq
    have htlt : t < m := ht ▸ Nat.mod_lt _ hm
    calc a % q + q * t < q + q * t := Nat.add_lt_add_right hlow _
      _ = q * (t + 1) := by ring
      _ ≤ q * m := Nat.mul_le_mul_left q htlt
  have hmodq : a % q + q * t ≡ a [MOD q] := by
    have hzero : q * t ≡ 0 [MOD q] := (Nat.modEq_zero_iff_dvd).mpr ⟨t, rfl⟩
    exact (Nat.mod_modEq a q).add hzero
  have hmodm : a % q + q * t ≡ a [MOD m] := by
    have hdmod : (d : ℤ) ≡ (a : ℤ) - (a % q : Nat) [ZMOD m] := by
      rw [← hd, Int.toNat_of_nonneg (Int.emod_nonneg _ (by omega))]
      refine (Int.mod_modEq _ _).trans (Int.ModEq.sub ?_ rfl)
      exact Int.natCast_modEq_iff.mpr (Nat.mod_modEq a m)
    have htmod : (t : ℤ) ≡ inv * d [ZMOD m] := by
      rw [← ht]
      exact_mod_cast Int.natCast_modEq_iff.mpr (Nat.mod_modEq (inv * d) m)
    have hinv' : (q : ℤ) * inv ≡ 1 [ZMOD m] := by
      exact_mod_cast Int.natCast_modEq_iff.mpr hinv
    rw [← Int.natCast_modEq_iff]
    push_cast
    calc ((a : ℤ) % q + q * t) ≡ (a : ℤ) % q + q * (inv * d) [ZMOD m] :=
          Int.ModEq.rfl.add (htmod.mul_left q)
      _ = (a : ℤ) % q + q * inv * d := by ring
      _ ≡ (a : ℤ) % q + 1 * d [ZMOD m] := Int.ModEq.rfl.add (hinv'.mul_right d)
      _ ≡ (a : ℤ) % q + 1 * (a - (a : ℤ) % q) [ZMOD m] :=
          Int.ModEq.rfl.add ((by exact_mod_cast hdmod : (d : ℤ) ≡ a - (a : ℤ) % q [ZMOD m]).mul_left 1)
      _ = (a : ℤ) := by ring
  have hboth := (Nat.modEq_and_modEq_iff_modEq_mul hcoprime).mp ⟨hmodq, hmodm⟩
  exact (Nat.mod_eq_of_lt hlt).symm.trans hboth

end Nimbus
