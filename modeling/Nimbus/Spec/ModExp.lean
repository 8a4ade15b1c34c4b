import Mathlib.NumberTheory.Padics.PadicVal.Basic
import Nimbus.ForStd.Bytes
import Nimbus.Native.ModExp

/-!
# The value of a modular exponentiation

The functions of the library are taken to compute what their arithmetic specification says.
Only Montgomery's exponentiation may refuse a modulus, and then the standard algorithm takes
its place. For an even modulus the result is put together from the residues for an odd number
and for a power of two.
-/

namespace Nimbus.Spec.ModExp

open Nimbus.Native.ModExp
open BoringSSL

/-- The number with the given bytes, the highest one first. -/
def fromBytesBE (bytes : List UInt8) : Nat := fromBytesLE bytes.reverse

/-- A number in `len` bytes, the highest one first. -/
def toBytesBE (len x : Nat) : List UInt8 := (toBytesLE len x).reverse

/-- `x` succeeds, with a number whose value is `n`. -/
def Gives [BoringSSL] (val : BIGNUM → Nat) (x : Option BIGNUM) (n : Nat) : Prop :=
  ∃ r, x = some r ∧ val r = n

/-- The arithmetic specification of the library. -/
class Arithmetic [BoringSSL] where
  val : BIGNUM → Nat
  bin2bn : ∀ bytes, Gives val (BN_bin2bn bytes) (fromBytesBE bytes)
  bn2bin_padded : ∀ len a, val a < 256 ^ len →
    BN_bn2bin_padded len a = some (toBytesBE len (val a))
  zero : val BN_zero = 0
  one : Gives val BN_one 1
  copy : ∀ a, Gives val (BN_copy a) (val a)
  is_zero : ∀ a, BN_is_zero a = true ↔ val a = 0
  is_one : ∀ a, BN_is_one a = true ↔ val a = 1
  is_odd : ∀ a, BN_is_odd a = true ↔ Odd (val a)
  num_bits : ∀ a, BN_num_bits a = (val a).size
  is_bit_set : ∀ a i, BN_is_bit_set a i = (val a).testBit i
  count_low_zero_bits : ∀ a, val a ≠ 0 → ∃ q, Odd q ∧ val a = q * 2 ^ BN_count_low_zero_bits a
  ucmp : ∀ a b, BN_ucmp a b = compare (val a) (val b)
  cmp_word : ∀ a w, BN_cmp_word a w = compare (val a) w
  set_bit : ∀ a i, Gives val (BN_set_bit a i) (val a ||| 2 ^ i)
  mask_bits : ∀ a i, Gives val (BN_mask_bits a i) (val a % 2 ^ i)
  rshift : ∀ a i, Gives val (BN_rshift a i) (val a >>> i)
  add : ∀ a b, Gives val (BN_add a b) (val a + val b)
  add_word : ∀ a w, Gives val (BN_add_word a w) (val a + w)
  sub : ∀ a b, val b ≤ val a → Gives val (BN_sub a b) (val a - val b)
  mul : ∀ a b, Gives val (BN_mul a b) (val a * val b)
  sqr : ∀ a, Gives val (BN_sqr a) (val a * val a)
  nnmod : ∀ a m, val m ≠ 0 → Gives val (BN_nnmod a m) (val a % val m)
  mod_sub : ∀ a b m, val m ≠ 0 →
    Gives val (BN_mod_sub a b m) (((val a : ℤ) - val b) % val m).toNat
  mod_mul : ∀ a b m, val m ≠ 0 → Gives val (BN_mod_mul a b m) (val a * val b % val m)
  mod_sqr : ∀ a m, val m ≠ 0 → Gives val (BN_mod_sqr a m) (val a * val a % val m)
  mod_exp : ∀ a e m, val m ≠ 0 → Gives val (BN_mod_exp a e m) (val a ^ val e % val m)
  /-- the modulus may be refused before -/
  mod_exp_mont : ∀ a e m mont r, Odd (val m) → BN_MONT_CTX_new_for_modulus m = some mont →
    val a < val m → BN_mod_exp_mont a e m mont = some r → val r = val a ^ val e % val m

section
variable [BoringSSL] [Arithmetic]

open Arithmetic

variable {x : Option BIGNUM} {f : BIGNUM → Option BIGNUM} {n n' : Nat}

theorem Gives.some {r : BIGNUM} (h : val r = n) : Gives val (some r) n := ⟨r, rfl, h⟩

theorem Gives.andThen (h : Gives val x n) (hf : ∀ r, val r = n → Gives val (f r) n') :
    Gives val (x >>= f) n' := by
  obtain ⟨r, rfl, hr⟩ := h
  exact hf r hr

theorem Gives.of_eq (h : Gives val x n) (heq : n = n') : Gives val x n' := heq ▸ h

variable {base exp modulo res q baseRed x2 : BIGNUM} {i k bits : Nat}

/-! ## Square and multiply -/

theorem squareAndMultiply_spec {a : Nat} (hm : val modulo ≠ 0) (hbase : val base = a % val modulo)
    (hres : val res = a ^ (val exp >>> (i + 1)) % val modulo) :
    Gives val (squareAndMultiply base exp modulo res i) (a ^ (val exp >>> i) % val modulo) := by
  refine (mod_sqr res modulo hm).andThen fun r hr => ?_
  rw [hres, ← Nat.mul_mod] at hr
  rw [is_bit_set, pow_shiftRight a]
  cases (val exp).testBit i with
  | true =>
    apply (mod_mul r base modulo hm).of_eq
    rw [hr, hbase, if_pos rfl, Nat.mul_mod_mod, Nat.mod_mul_mod]
  | false =>
    apply Gives.some
    rw [hr, if_neg Bool.false_ne_true, Nat.mul_one]

theorem modExpSquareAndMultiply_spec (hm : 1 < val modulo) :
    Gives val (modExpSquareAndMultiply base exp modulo) (val base ^ val exp % val modulo) := by
  have hne : val modulo ≠ 0 := by omega
  refine (nnmod base modulo hne).andThen fun a ha => ?_
  simp only [num_bits, Nat.size_eq_zero]
  split
  next hzero =>
    apply one.of_eq
    rw [hzero, Nat.pow_zero, Nat.mod_eq_of_lt hm]
  next hexp =>
    refine (copy a).andThen fun r hr => ?_
    have hstart : val r = val base ^ (val exp >>> ((val exp).size - 1)) % val modulo := by
      rw [hr, ha, shiftRight_size_sub_one hexp, Nat.pow_one]
    exact foldlM_countdown (I := fun i r => val r = val base ^ (val exp >>> i) % val modulo)
      (fun i _ r hr => squareAndMultiply_spec hne ha hr) hstart

theorem reduceBase_spec (hm : 0 < val modulo) :
    Gives val (reduceBase base modulo) (val base % val modulo) := by
  unfold reduceBase
  simp only [ucmp, compare_lt_iff_lt]
  split
  next hlt => exact Gives.some (Nat.mod_eq_of_lt hlt).symm
  next => exact nnmod base modulo hm.ne'

theorem modExpOdd_spec (hodd : Odd (val modulo)) (hm : 1 < val modulo) :
    Gives val (modExpOdd base exp modulo) (val base ^ val exp % val modulo) := by
  unfold modExpOdd
  split
  · exact modExpSquareAndMultiply_spec hm
  next mont hmont =>
    refine (reduceBase_spec (by omega)).andThen fun a ha => ?_
    have hpow : val a ^ val exp % val modulo = val base ^ val exp % val modulo := by
      rw [ha, ← Nat.pow_mod]
    have hlt : val a < val modulo := ha ▸ Nat.mod_lt _ (by omega)
    cases hexp : BN_mod_exp_mont a exp modulo mont with
    | some r =>
      apply Gives.some
      rw [mod_exp_mont a exp modulo mont r hodd hmont hlt hexp, hpow]
    | none => exact (modExpSquareAndMultiply_spec hm).of_eq hpow

/-! ## Powers of two -/

theorem squareAndMask_spec (hres : val x2 = val baseRed ^ (val exp >>> (i + 1)) % 2 ^ k) :
    Gives val (squareAndMask baseRed exp k x2 i) (val baseRed ^ (val exp >>> i) % 2 ^ k) := by
  refine (sqr x2).andThen fun r hr => (mask_bits r k).andThen fun r' hr' => ?_
  have hsq : val r' = val baseRed ^ (val exp >>> (i + 1)) * val baseRed ^ (val exp >>> (i + 1)) %
      2 ^ k := by
    rw [hr', hr, hres, ← Nat.mul_mod]
  rw [is_bit_set, pow_shiftRight (val baseRed)]
  cases (val exp).testBit i with
  | true =>
    refine (mul r' baseRed).andThen fun s hs => (mask_bits s k).of_eq ?_
    rw [hs, hsq, if_pos rfl, Nat.mod_mul_mod]
  | false =>
    apply Gives.some
    rw [hsq, if_neg Bool.false_ne_true, Nat.mul_one]

theorem maskedExp_spec (hk : 0 < k) :
    Gives val (maskedExp baseRed exp k) (val baseRed ^ val exp % 2 ^ k) := by
  refine one.andThen fun r hr => ?_
  have hstart : val r = val baseRed ^ (val exp >>> BN_num_bits exp) % 2 ^ k := by
    rw [hr, num_bits, shiftRight_size, Nat.pow_zero, Nat.mod_eq_of_lt (Nat.one_lt_two_pow hk.ne')]
  exact foldlM_countdown (I := fun i r => val r = val baseRed ^ (val exp >>> i) % 2 ^ k)
    (fun i _ r hr => squareAndMask_spec hr) hstart

omit [BoringSSL] [Arithmetic] in
/-- The order of the group of odd numbers modulo `2 ^ k`. -/
theorem odd_pow_ordBits {b : Nat} (hb : Odd b) (hk : 0 < k) : b ^ 2 ^ ordBits k ≡ 1 [MOD 2 ^ k] := by
  unfold ordBits
  by_cases hone : k ≤ 1
  · have hk1 : k = 1 := by omega
    rw [hk1]
    exact (Nat.pow_one b).symm ▸ Nat.odd_iff.mp hb
  · rw [if_neg hone]
    by_cases htwo : k = 2
    · rw [htwo]
      exact (odd_pow_two_pow hb 0).of_dvd (by decide)
    · rw [if_neg htwo]
      have hpow := odd_pow_two_pow hb (k - 3)
      rwa [show k - 3 + 1 = k - 2 by omega, show k - 3 + 3 = k by omega] at hpow

theorem modExpPow2_spec (hk : 0 < k) (hexp : val exp ≠ 0) :
    Gives val (modExpPow2 base exp k) (val base ^ val exp % 2 ^ k) := by
  refine (copy base).andThen fun a ha => (mask_bits a k).andThen fun b hb => ?_
  have hpow : val b ^ val exp % 2 ^ k = val base ^ val exp % 2 ^ k := by
    rw [hb, ha, ← Nat.pow_mod]
  rw [← hpow]
  by_cases hzero : val b = 0
  · rw [if_pos ((is_zero b).mpr hzero)]
    apply Gives.some
    rw [zero, hzero, Nat.zero_pow (Nat.pos_of_ne_zero hexp), Nat.zero_mod]
  · rw [if_neg fun h => hzero ((is_zero b).mp h)]
    by_cases hodd : Odd (val b)
    · rw [if_pos ((is_odd b).mpr hodd)]
      refine (copy exp).andThen fun e he => (mask_bits e (ordBits k)).andThen fun e' he' => ?_
      apply (maskedExp_spec hk).of_eq
      rw [he', he]
      exact pow_mod_modEq (odd_pow_ordBits hodd hk) (val exp)
    · rw [if_neg fun h => hodd ((is_odd b).mp h)]
      split
      next hge =>
        have hle : k ≤ val exp := by
          rw [cmp_word, ne_eq, compare_lt_iff_lt] at hge
          omega
        apply Gives.some
        rw [zero]
        exact (Nat.mod_eq_zero_of_dvd (two_pow_dvd_pow (Nat.not_odd_iff_even.mp hodd) hle)).symm
      next => exact maskedExp_spec hk

/-! ## The inverse -/

/-- A round at least keeps the inverse, and at most doubles the bits it is good for. -/
theorem liftInverse_spec {bits' : Nat} (hinv : val q * val res ≡ 1 [MOD 2 ^ bits])
    (hle : bits' ≤ bits * 2) (hpos : 0 < bits') :
    ∃ r, liftInverse q res bits' = some r ∧ val q * val r ≡ 1 [MOD 2 ^ bits'] := by
  unfold liftInverse
  obtain ⟨u₀, hu₀, hval₀⟩ := copy q
  obtain ⟨u₁, hu₁, hval₁⟩ := mask_bits u₀ bits'
  obtain ⟨u₂, hu₂, hval₂⟩ := mul u₁ res
  obtain ⟨u, hu, hval⟩ := mask_bits u₂ bits'
  simp only [hu₀, hu₁, hu₂, hu, bind, Option.bind_some]
  have hprod : val u = val q * val res % 2 ^ bits' := by
    rw [hval, hval₂, hval₁, hval₀, Nat.mod_mul_mod]
  by_cases hone : val u = 1
  · rw [if_pos ((is_one u).mpr hone)]
    refine ⟨res, rfl, ?_⟩
    show val q * val res % 2 ^ bits' = 1 % 2 ^ bits'
    rw [← hprod, hone, Nat.mod_eq_of_lt (Nat.one_lt_two_pow hpos.ne')]
  · rw [if_neg fun h => hone ((is_one u).mp h)]
    obtain ⟨f₀, hf₀, hvalf₀⟩ := set_bit BN_zero bits'
    obtain ⟨f₁, hf₁, hvalf₁⟩ := add_word f₀ 2
    rw [zero, Nat.zero_or] at hvalf₀
    obtain ⟨f, hf, hvalf⟩ := sub f₁ u (by omega)
    obtain ⟨r₀, hr₀, hvalr₀⟩ := mul res f
    obtain ⟨r, hr, hvalr⟩ := mask_bits r₀ bits'
    simp only [hf₀, hf₁, hf, hr₀, Option.bind_some]
    refine ⟨r, hr, ?_⟩
    -- `f` is `2 - q * res`
    have hfmod : (val f : ℤ) ≡ 2 - val q * val res [ZMOD (2 ^ bits' : Nat)] := by
      have hfval : (val f : ℤ) = 2 ^ bits' + 2 - val u := by
        rw [hvalf, hvalf₁, hvalf₀]
        push_cast [show val u ≤ 2 ^ bits' + 2 by omega]
        ring
      have humod : (val u : ℤ) ≡ val q * val res [ZMOD (2 ^ bits' : Nat)] := by
        rw [hprod]
        exact_mod_cast Int.natCast_modEq_iff.mpr (Nat.mod_modEq (val q * val res) (2 ^ bits'))
      rw [hfval, show (2 : ℤ) ^ bits' + 2 - val u = (2 - val u) + (2 ^ bits' : Nat) by push_cast; ring]
      exact (Int.add_modEq_right).trans (Int.ModEq.rfl.sub humod)
    have hlift : (val q : ℤ) * (val res * (2 - val q * val res)) ≡ 1 [ZMOD (2 ^ bits' : Nat)] := by
      have hinv' : (val q : ℤ) * val res ≡ 1 [ZMOD (2 ^ bits : Nat)] := by
        exact_mod_cast Int.natCast_modEq_iff.mpr hinv
      apply lift_inverse hinv'
      rw [← Nat.cast_mul, ← Nat.pow_add, Int.natCast_dvd_natCast]
      exact pow_dvd_pow 2 (by omega)
    have hres : (val r : ℤ) ≡ val res * val f [ZMOD (2 ^ bits' : Nat)] := by
      rw [hvalr, hvalr₀]
      exact_mod_cast Int.natCast_modEq_iff.mpr (Nat.mod_modEq (val res * val f) (2 ^ bits'))
    push_cast
    have hstep := (hres.trans (hfmod.mul_left (val res))).mul_left (val q)
    exact_mod_cast hstep.trans hlift

theorem invModPow2From_spec (hbits : 0 < bits) (hinv : val q * val res ≡ 1 [MOD 2 ^ bits]) :
    ∃ r, invModPow2From q k res bits hbits = some r ∧ val q * val r ≡ 1 [MOD 2 ^ k] := by
  induction hn : k - bits using Nat.strong_induction_on generalizing bits res with
  | _ n ih =>
    unfold invModPow2From
    split
    next hlt =>
      obtain ⟨r, hr, hinv'⟩ := liftInverse_spec hinv (Nat.min_le_left (bits * 2) k) (by omega)
      simp only [hr, bind, Option.bind_some]
      exact ih (k - min (bits * 2) k) (by omega) (by omega) hinv' rfl
    next hge => exact ⟨res, rfl, hinv.of_dvd (pow_dvd_pow 2 (by omega))⟩

theorem invModPow2_spec (hq : Odd (val q)) (k : Nat) :
    ∃ r, invModPow2 q k = some r ∧ val q * val r ≡ 1 [MOD 2 ^ k] := by
  obtain ⟨r, hr, hval⟩ := one
  unfold invModPow2
  simp only [hr, bind, Option.bind_some]
  apply invModPow2From_spec
  rw [hval, Nat.mul_one]
  exact Nat.odd_iff.mp hq

/-! ## Even moduli -/

theorem modExpRest_spec (hodd : Odd (val q)) :
    Gives val (modExpRest base exp q) (val base ^ val exp % val q) := by
  unfold modExpRest
  by_cases hone : val q = 1
  · rw [if_pos ((is_one q).mpr hone)]
    apply Gives.some
    rw [zero, hone, Nat.mod_one]
  · rw [if_neg fun h => hone ((is_one q).mp h)]
    have hpos := Nat.odd_iff.mp hodd
    exact modExpOdd_spec hodd (by omega)

theorem modExpEven_spec (hexp : val exp ≠ 0) (heven : Even (val modulo)) (hm : val modulo ≠ 0) :
    Gives val (modExpEven base exp modulo) (val base ^ val exp % val modulo) := by
  obtain ⟨qval, hqval, hsplit⟩ := count_low_zero_bits modulo hm
  generalize hk : BN_count_low_zero_bits modulo = k at hsplit
  have hkpos : 0 < k := by
    by_contra hzero
    rw [Nat.eq_zero_of_not_pos hzero, Nat.pow_zero, Nat.mul_one] at hsplit
    exact Nat.not_even_iff_odd.mpr (hsplit ▸ hqval) heven
  unfold modExpEven
  rw [hk]
  refine (rshift modulo k).andThen fun q hq => (set_bit BN_zero k).andThen fun twoK htwoK => ?_
  have hq' : val q = qval := by
    rw [hq, hsplit, Nat.shiftRight_eq_div_pow, Nat.mul_div_cancel _ (Nat.two_pow_pos k)]
  rw [zero, Nat.zero_or] at htwoK
  rw [← hq'] at hqval hsplit
  have htwoKne : val twoK ≠ 0 := htwoK ▸ (Nat.two_pow_pos k).ne'
  refine (modExpPow2_spec hkpos hexp).andThen fun x2 hx2 =>
    (modExpRest_spec hqval).andThen fun x1 hx1 => ?_
  obtain ⟨t, ht, hinv⟩ := invModPow2_spec hqval k
  rw [ht]
  refine (mod_sub x2 x1 twoK htwoKne).andThen fun d hd =>
    (mod_mul t d twoK htwoKne).andThen fun t' ht' => (mul q t').andThen fun p hp =>
      (add x1 p).of_eq ?_
  have hqpos : 0 < val q := by
    have hone := Nat.odd_iff.mp hqval
    omega
  have hcoprime : (val q).Coprime (2 ^ k) := (Nat.coprime_two_right.mpr hqval).pow_right k
  rw [hp, ht', hd, htwoK, hx1, hx2, hsplit]
  exact garner _ hqpos (Nat.two_pow_pos k) hcoprime hinv

/-! ## The precompile -/

/-- The power modulo `m`, which is zero when `m` is. -/
def powMod (b e m : Nat) : Nat := if m = 0 then 0 else b ^ e % m

theorem modExpValue_spec :
    Gives val (modExpValue base exp modulo) (powMod (val base) (val exp) (val modulo)) := by
  unfold modExpValue powMod
  simp only [is_zero, is_one, is_odd, num_bits]
  by_cases hzero : val modulo = 0
  · rw [if_pos (.inl hzero), if_pos hzero]
    exact Gives.some zero
  · by_cases hone : val modulo = 1
    · rw [hone, Nat.mod_one]
      exact Gives.some zero
    · rw [if_neg (by omega)]
      split
      next hexp =>
        apply one.of_eq
        rw [hexp, Nat.pow_zero, Nat.mod_eq_of_lt (by omega)]
      next hexp =>
        split
        next hodd => exact modExpOdd_spec hodd (by omega)
        next heven =>
          split
          · exact mod_exp base exp modulo hzero
          · exact modExpEven_spec hexp (Nat.not_odd_iff_even.mp heven) hzero

theorem importBytes_spec (bytes : List UInt8) :
    Gives val (importBytes bytes) (fromBytesBE bytes) := by
  unfold importBytes
  split
  next hnil =>
    apply Gives.some
    rw [hnil, zero]
    rfl
  next => exact bin2bn bytes

omit [BoringSSL] [Arithmetic] in
theorem powMod_lt (b e : Nat) (m : List UInt8) : powMod b e (fromBytesBE m) < 256 ^ m.length := by
  have hlt : fromBytesBE m < 256 ^ m.length := by
    have hbound := fromBytesLE_lt m.reverse
    rwa [List.length_reverse] at hbound
  unfold powMod
  split
  · exact Nat.pow_pos (by decide)
  next hne => exact (Nat.mod_lt _ (Nat.pos_of_ne_zero hne)).trans hlt

end

theorem exists_odd_mul {a : Nat} (h : a ≠ 0) : ∃ q, Odd q ∧ a = q * 2 ^ padicValNat 2 a := by
  obtain ⟨q, hq⟩ : 2 ^ padicValNat 2 a ∣ a := pow_padicValNat_dvd
  refine ⟨q, ?_, hq.trans (Nat.mul_comm _ _)⟩
  -- another factor would have been counted
  by_contra heven
  obtain ⟨c, rfl⟩ := (Nat.not_odd_iff_even.mp heven).two_dvd
  have hmore : 2 ^ (padicValNat 2 a + 1) ∣ a := by
    exact ⟨c, hq.trans (Nat.mul_assoc _ _ _).symm⟩
  exact pow_succ_padicValNat_not_dvd h hmore

@[reducible] def natLibrary : BoringSSL where
  BIGNUM := Nat
  BN_MONT_CTX := Unit
  BN_bin2bn bytes := some (fromBytesBE bytes)
  BN_bn2bin_padded len a := if a < 256 ^ len then some (toBytesBE len a) else none
  BN_zero := 0
  BN_one := some 1
  BN_copy a := some a
  BN_is_zero a := a == 0
  BN_is_one a := a == 1
  BN_is_odd a := a % 2 == 1
  BN_num_bits a := a.size
  BN_is_bit_set a i := a.testBit i
  BN_count_low_zero_bits a := padicValNat 2 a
  BN_ucmp a b := compare a b
  BN_cmp_word a w := compare a w
  BN_set_bit a i := some (a ||| 2 ^ i)
  BN_mask_bits a i := some (a % 2 ^ i)
  BN_rshift a i := some (a >>> i)
  BN_add a b := some (a + b)
  BN_add_word a w := some (a + w)
  BN_sub a b := some (a - b)
  BN_mul a b := some (a * b)
  BN_sqr a := some (a * a)
  BN_nnmod a m := if m = 0 then none else some (a % m)
  BN_mod_sub a b m := if m = 0 then none else some (((a : ℤ) - b) % m).toNat
  BN_mod_mul a b m := if m = 0 then none else some (a * b % m)
  BN_mod_sqr a m := if m = 0 then none else some (a * a % m)
  BN_mod_exp a e m := if m = 0 then none else some (a ^ e % m)
  BN_MONT_CTX_new_for_modulus m := if m % 2 = 1 then some () else none
  BN_mod_exp_mont a e m _ := some (a ^ e % m)

@[reducible] def natArithmetic : @Arithmetic natLibrary :=
  letI := natLibrary
  { val := id
    bin2bn := fun _ => ⟨_, rfl, rfl⟩
    bn2bin_padded := fun _ _ h => if_pos h
    zero := rfl
    one := ⟨_, rfl, rfl⟩
    copy := fun _ => ⟨_, rfl, rfl⟩
    is_zero := fun _ => beq_iff_eq
    is_one := fun _ => beq_iff_eq
    is_odd := fun _ => beq_iff_eq.trans Nat.odd_iff.symm
    num_bits := fun _ => rfl
    is_bit_set := fun _ _ => rfl
    count_low_zero_bits := fun _ h => exists_odd_mul h
    ucmp := fun _ _ => rfl
    cmp_word := fun _ _ => rfl
    set_bit := fun _ _ => ⟨_, rfl, rfl⟩
    mask_bits := fun _ _ => ⟨_, rfl, rfl⟩
    rshift := fun _ _ => ⟨_, rfl, rfl⟩
    add := fun _ _ => ⟨_, rfl, rfl⟩
    add_word := fun _ _ => ⟨_, rfl, rfl⟩
    sub := fun _ _ _ => ⟨_, rfl, rfl⟩
    mul := fun _ _ => ⟨_, rfl, rfl⟩
    sqr := fun _ => ⟨_, rfl, rfl⟩
    nnmod := fun _ _ h => ⟨_, if_neg h, rfl⟩
    mod_sub := fun _ _ _ h => ⟨_, if_neg h, rfl⟩
    mod_mul := fun _ _ _ h => ⟨_, if_neg h, rfl⟩
    mod_sqr := fun _ _ h => ⟨_, if_neg h, rfl⟩
    mod_exp := fun _ _ _ h => ⟨_, if_neg h, rfl⟩
    mod_exp_mont := fun _ _ _ _ _ _ _ _ h => (Option.some.inj h).symm }

end Nimbus.Spec.ModExp
