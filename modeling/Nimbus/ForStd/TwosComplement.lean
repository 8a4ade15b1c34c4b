import Mathlib.Tactic.NormNum

/-!
# Words in two's complement

Generic lemmas about words of any width, read as numbers with a sign: division by the absolute
values, and the masks that reach up to one bit.
-/

namespace Int

theorem tdiv_eq_sign_mul (a b : Int) :
    a.tdiv b = a.sign * b.sign * (a.natAbs / b.natAbs : Nat) := by
  have h := Int.sign_mul_natAbs (a.tdiv b)
  rw [Int.sign_tdiv, Int.natAbs_tdiv] at h
  rw [← h]
  split
  · rename_i hlt
    rw [Nat.div_eq_of_lt hlt]
    simp
  · rfl

theorem tmod_eq_sign_mul (a b : Int) : a.tmod b = a.sign * (a.natAbs % b.natAbs : Nat) := by
  have h := Int.sign_mul_natAbs (a.tmod b)
  rw [Int.sign_tmod, Int.natAbs_tmod] at h
  rw [← h]
  split
  · rename_i hdvd
    rw [Nat.mod_eq_zero_of_dvd (Int.natAbs_dvd_natAbs.mpr hdvd)]
    simp
  · rfl

end Int

namespace BitVec

variable {w : Nat}

/-- `sdiv` strips the signs, divides and puts a sign back. -/
theorem sdiv_eq_strip (a b : BitVec w) :
    a.sdiv b = (let q := (if a.msb then -a else a) / (if b.msb then -b else b)
      if a.msb ^^ b.msb then -q else q) := by
  rw [BitVec.sdiv_eq]
  cases a.msb <;> cases b.msb <;> simp

/-- `srem` strips the signs and puts that of the dividend back. -/
theorem srem_eq_strip (a b : BitVec w) :
    a.srem b = (let r := (if a.msb then -a else a) % (if b.msb then -b else b)
      if a.msb then -r else r) := by
  rw [BitVec.srem_eq]
  cases a.msb <;> cases b.msb <;> simp

/-- The mask below bit `t`. -/
theorem getLsbD_one_shiftLeft_sub_one {t : Nat} (ht : t < w) (j : Nat) :
    ((1#w <<< t) - 1#w).getLsbD j = decide (j < t) := by
  have hpow : 2 ^ t < 2 ^ w := Nat.pow_lt_pow_right (by decide) ht
  have hpos : 1 ≤ 2 ^ t := Nat.one_le_two_pow
  have hone : (1#w).toNat = 1 := by simp [Nat.mod_eq_of_lt (by omega : 1 < 2 ^ w)]
  have hshift : (1#w <<< t).toNat = 2 ^ t := by
    rw [BitVec.toNat_shiftLeft, hone, Nat.shiftLeft_eq, Nat.one_mul, Nat.mod_eq_of_lt hpow]
  have hmask : ((1#w <<< t) - 1#w) = BitVec.ofNat w (2 ^ t - 1) := by
    apply BitVec.eq_of_toNat_eq
    rw [BitVec.toNat_sub_of_le, hshift, hone, BitVec.toNat_ofNat, Nat.mod_eq_of_lt (by omega)]
    rw [BitVec.le_def, hshift, hone]
    exact hpos
  rw [hmask, BitVec.getLsbD_ofNat]
  by_cases hj : j < t
  · simp [hj]; omega
  · simp [hj]

theorem and_one_shiftLeft_ne_zero {t : Nat} (ht : t < w) (x : BitVec w) :
    x &&& (1#w <<< t) ≠ 0#w ↔ x.getLsbD t := by
  rw [← BitVec.twoPow_eq, BitVec.and_twoPow]
  split
  · rename_i h
    simp only [h, iff_true]
    intro h0
    have hbit := congrArg (BitVec.getLsbD · t) h0
    simp [ht] at hbit
  · rename_i h
    simp [h]

/-- Shifting out all bits of a number leaves its sign. -/
theorem toInt_sign_eq_div {n : Nat} (x : BitVec w) (hw : 0 < w) (hn : w ≤ n) :
    (if x.msb then -1#w else 0#w).toInt = x.toInt / 2 ^ n := by
  have hpow : (2 : Int) ^ w ≤ 2 ^ n := by exact_mod_cast Nat.pow_le_pow_right (by decide) hn
  have hlt : (x.toNat : Int) < 2 ^ w := by exact_mod_cast x.isLt
  have hx := BitVec.toInt_eq_msb_cond x
  cases hm : x.msb with
  | false =>
    have hnat : x.toInt = x.toNat := by rw [hx, hm]; rfl
    rw [Int.ediv_eq_zero_of_lt (by omega) (by omega)]
    simp
  | true =>
    have hnat : x.toInt = x.toNat - 2 ^ w := by rw [hx, hm]; simp
    have hdiv : x.toInt / 2 ^ n = -1 := by
      rw [Int.ediv_eq_iff_of_pos (by omega)]
      omega
    rw [hdiv, if_pos rfl, BitVec.neg_one_eq_allOnes, BitVec.toInt_allOnes, if_pos hw]

end BitVec
