import Nimbus.Native.Precompiles
import Nimbus.Spec.ModExp

/-!
# The price of a modular exponentiation

The specifications give the price as a formula over numbers of any size. Words wrap and lengths
are cut to an `int32` where it is computed, but a call with such a length is refused afterwards.
What remains is the head of the exponent: it is not read when the lengths of base and exponent
together reach the highest `int32`, and then the call is too cheap unless the bits of the head
do not change the price.
-/

namespace Nimbus.Spec.ModExpGas

open Native Native.Evm Native.Evm.Precompiles
open Aristo (UInt256)
open Nimbus.Native.ModExp (BoringSSL)
open EVMFork

/-! ### The price of the specifications -/

/-- The number in `len` bytes of the data, with zeros for those that are missing. -/
def number (data : List UInt8) (first len : Nat) : Nat :=
  ModExp.fromBytesBE ((List.range len).map fun i => data.getD (first + i) 0)

def baseLength (data : List UInt8) : Nat := number data 0 32
def expLength (data : List UInt8) : Nat := number data 32 32
def modLength (data : List UInt8) : Nat := number data 64 32

/-- The first 32 bytes of the exponent, or all of it. -/
def head (data : List UInt8) : Nat :=
  number data (96 + baseLength data) (min (expLength data) 32)

/-- EIP-198, EIP-2565 and EIP-7883. -/
def complexity (fork : EVMFork) (x : Nat) : Nat :=
  if FkOsaka ≤ fork then if x ≤ 32 then 16 else 2 * ((x + 7) / 8) ^ 2
  else if FkBerlin ≤ fork then ((x + 7) / 8) ^ 2
  else if x ≤ 64 then x ^ 2
  else if x ≤ 1024 then x ^ 2 / 4 + 96 * x - 3072
  else x ^ 2 / 16 + 480 * x - 199680

def divisor (fork : EVMFork) : Nat :=
  if FkOsaka ≤ fork then 1 else if FkBerlin ≤ fork then 3 else 20

def minimum (fork : EVMFork) : Nat :=
  if FkOsaka ≤ fork then 500 else if FkBerlin ≤ fork then 200 else 0

/-- The iterations for an exponent of `e` bytes whose head is `h`. -/
def iterations (fork : EVMFork) (e h : Nat) : Nat :=
  max (if e ≤ 32 then Nat.log2 h
    else (if FkOsaka ≤ fork then 16 else 8) * (e - 32) + Nat.log2 h) 1

def priceFor (fork : EVMFork) (b e m h : Nat) : Nat :=
  max (minimum fork) (complexity fork (max b m) * iterations fork e h / divisor fork)

def price (fork : EVMFork) (data : List UInt8) : Nat :=
  priceFor fork (baseLength data) (expLength data) (modLength data) (head data)

/-! ### Parts of the data -/

theorem map_range_getD (x : List UInt8) (first n : Nat) :
    (List.range n).map (fun i => x.getD (first + i) 0) =
      (x.drop first).take n ++ List.replicate (n - (x.length - first)) 0 := by
  apply List.ext_getElem
  · simp
    omega
  · intro i hi _
    simp only [List.getElem_map, List.getElem_range, List.getD_eq_getElem?_getD,
      List.getElem_append, List.length_take, List.length_drop, List.getElem_replicate]
    split
    · rename_i hlt
      rw [List.getElem_take, List.getElem_drop, List.getElem?_eq_getElem (by omega)]
      rfl
    · rename_i hge
      simp only [List.length_map, List.length_range] at hi
      rw [List.getElem?_eq_none (by omega)]
      rfl

theorem fromBytesBE_toNat {bytes : List UInt8} (h : bytes.length ≤ 32) :
    (Precompiles.fromBytesBE bytes).toNat = ModExp.fromBytesBE bytes := by
  have hlt := fromBytesLE_lt bytes.reverse
  have hle : 256 ^ bytes.reverse.length ≤ 256 ^ 32 :=
    Nat.pow_le_pow_right (by decide) (by rw [List.length_reverse]; exact h)
  unfold Precompiles.fromBytesBE
  rw [BitVec.toNat_ofNat, Nat.mod_eq_of_lt (by omega)]
  rfl

theorem fromBytesBE_replicate (n : Nat) : ModExp.fromBytesBE (List.replicate n 0) = 0 := by
  unfold ModExp.fromBytesBE
  rw [List.reverse_replicate]
  induction n with
  | zero => rfl
  | succ n ih =>
    rw [List.replicate_succ]
    show (0 : UInt8).toNat + 256 * fromBytesLE (List.replicate n 0) = 0
    rw [ih]
    rfl

variable {data : List UInt8}

theorem number_beyond {first : Nat} (h : data.length ≤ first) (len : Nat) :
    number data first len = 0 := by
  unfold number
  rw [map_range_getD, List.drop_eq_nil_of_le h, List.take_nil, List.nil_append]
  exact fromBytesBE_replicate _

theorem rangeToPaddedInt_eq (x : List UInt8) (first len : Nat) :
    (rangeToPaddedInt x first ((first : Int) + len - 1) (min len 32)).toNat =
      number x first (min len 32) := by
  unfold rangeToPaddedInt
  dsimp only
  rw [max_eq_right (by omega)]
  split
  · rename_i hempty
    have hcases : len = 0 ∨ x.length ≤ first := by omega
    obtain rfl | hle := hcases
    · rfl
    · rw [number_beyond hle]
      rfl
  · rename_i hlo
    have hlo : first < x.length ∧ 0 < len := by omega
    have hpart : ((x.drop first).take (min len 32)).length =
        min (min len 32) (x.length - first) := by simp
    -- the bytes up to the end of the data, and zeros up to 32
    have hcopied : copied x first (min (min ((x.length : Int) - 1) (first + len - 1))
        (first + 32 - 1)) 32 = (x.drop first).take (min len 32) ++
          List.replicate (32 - min (min len 32) (x.length - first)) 0 := by
      have htake : (x.drop first).take (min (min ((x.length : Int) - 1) (first + len - 1))
          (first + 32 - 1) - first + 1).toNat = (x.drop first).take (min len 32) := by
        rw [List.take_eq_take_iff, List.length_drop]
        omega
      unfold copied
      dsimp only
      rw [Int.toNat_natCast, htake, hpart]
    rw [hcopied, fromBytesBE_toNat]
    · unfold number
      rw [map_range_getD, List.take_append, hpart, List.take_take, Nat.min_self,
        List.take_replicate]
      congr 3
      omega
    · simp

/-! ### Words -/

theorem toNat_maxWord (x y : UInt256) : (maxWord x y).toNat = max x.toNat y.toNat := by
  unfold maxWord
  simp only [BitVec.lt_def]
  split <;> omega

theorem square_lt {n k : Nat} (h : n < 2 ^ k) : n * n < 2 ^ (2 * k) := by
  rw [Nat.two_mul, Nat.pow_add]
  exact Nat.mul_lt_mul'' h h

section

variable {x : UInt256} (hx : x.toNat < 2 ^ 31)

include hx

theorem toNat_square : (x * x).toNat = x.toNat ^ 2 ∧ x.toNat ^ 2 < 2 ^ 62 := by
  have hlt := square_lt hx
  rw [Nat.pow_two]
  exact ⟨BitVec.toNat_mul_of_lt (by omega), by omega⟩

theorem mulComplexity_toNat : (mulComplexity x).toNat < 2 ^ 62 ∧ (mulComplexity x).toNat =
    if x.toNat ≤ 64 then x.toNat ^ 2
    else if x.toNat ≤ 1024 then x.toNat ^ 2 / 4 + 96 * x.toNat - 3072
    else x.toNat ^ 2 / 16 + 480 * x.toNat - 199680 := by
  obtain ⟨hsquare, hlt⟩ := toNat_square hx
  have h96 : (96 * x).toNat = 96 * x.toNat := BitVec.toNat_mul_of_lt (by show 96 * _ < _; omega)
  have h480 : (480 * x).toNat = 480 * x.toNat :=
    BitVec.toNat_mul_of_lt (by show 480 * _ < _; omega)
  have h4 : (x * x / 4).toNat = x.toNat ^ 2 / 4 := by rw [BitVec.toNat_udiv, hsquare]; rfl
  have h16 : (x * x / 16).toNat = x.toNat ^ 2 / 16 := by rw [BitVec.toNat_udiv, hsquare]; rfl
  unfold mulComplexity
  simp only [BitVec.le_def, show (64 : UInt256).toNat = 64 from rfl,
    show (1024 : UInt256).toNat = 1024 from rfl]
  split
  · rw [hsquare]
    exact ⟨hlt, rfl⟩
  · have hpos : 64 * 64 ≤ x.toNat ^ 2 := by
      rw [Nat.pow_two]
      exact Nat.mul_le_mul (by omega) (by omega)
    split
    · have hsum : (x * x / 4 + 96 * x).toNat = x.toNat ^ 2 / 4 + 96 * x.toNat := by
        rw [BitVec.toNat_add_of_lt (by omega), h4, h96]
      rw [BitVec.toNat_sub_of_le (by rw [BitVec.le_def, hsum]; show 3072 ≤ _; omega), hsum,
        show (3072 : UInt256).toNat = 3072 from rfl]
      omega
    · have hsum : (x * x / 16 + 480 * x).toNat = x.toNat ^ 2 / 16 + 480 * x.toNat := by
        rw [BitVec.toNat_add_of_lt (by omega), h16, h480]
      rw [BitVec.toNat_sub_of_le (by rw [BitVec.le_def, hsum]; show 199680 ≤ _; omega), hsum,
        show (199680 : UInt256).toNat = 199680 from rfl]
      omega

theorem mulComplexityEIP2565_toNat : (mulComplexityEIP2565 x).toNat < 2 ^ 62 ∧
    (mulComplexityEIP2565 x).toNat = ((x.toNat + 7) / 8) ^ 2 := by
  have hwords : ((x + 7) >>> 3).toNat = (x.toNat + 7) / 8 := by
    rw [BitVec.toNat_ushiftRight, BitVec.toNat_add_of_lt (by show _ + 7 < _; omega),
      Nat.shiftRight_eq_div_pow]
    rfl
  have hlt : ((x + 7) >>> 3).toNat < 2 ^ 31 := by omega
  obtain ⟨hsquare, hbound⟩ := toNat_square hlt
  unfold mulComplexityEIP2565
  dsimp only
  rw [hsquare, hwords]
  exact ⟨by rw [← hwords]; exact hbound, rfl⟩

end

theorem log2_lt (x : UInt256) : log2 x < 256 := by
  unfold log2
  by_cases h0 : x.toNat = 0
  · rw [h0]
    decide
  · exact (Nat.log2_lt h0).mpr x.isLt

variable {e : UInt256}

theorem adjExpLen_toNat (he : e.toNat < 2 ^ 31) (h : UInt256) :
    (adjExpLen e h).toNat =
      if e.toNat ≤ 32 then Nat.log2 h.toNat else 8 * (e.toNat - 32) + Nat.log2 h.toNat := by
  have hlog : (BitVec.ofNat 256 (log2 h)).toNat = Nat.log2 h.toNat := by
    have := log2_lt h
    rw [BitVec.toNat_ofNat, Nat.mod_eq_of_lt (a := log2 h) (by omega)]
    rfl
  have hlt := log2_lt h
  have hlt' : Nat.log2 h.toNat < 256 := hlt
  unfold adjExpLen
  simp only [BitVec.le_def, show (32 : UInt256).toNat = 32 from rfl]
  split
  · split
    · rename_i h0
      rw [h0]
      rfl
    · exact hlog
  · rename_i hgt
    have hsub : (e - 32).toNat = e.toNat - 32 :=
      BitVec.toNat_sub_of_le (by rw [BitVec.le_def]; show 32 ≤ _; omega)
    have hshift : ((e - 32) <<< 3).toNat = 8 * (e.toNat - 32) := by
      rw [BitVec.toNat_shiftLeft, hsub, Nat.shiftLeft_eq]
      omega
    split
    · rw [BitVec.toNat_add_of_lt (by omega), hshift, hlog]
    · rename_i h0
      rw [hshift, not_not.mp h0]
      rfl

/-! ### The price as it is computed -/

variable {b : UInt256} {m : UInt256}

theorem gasCalc_toNat {comp : UInt256 → UInt256} {d adj : UInt256}
    (hcomp : (comp (maxWord m b)).toNat < 2 ^ 62) (hadj : adj.toNat < 2 ^ 35) :
    (gasCalc comp d b m adj).toNat =
      (comp (maxWord m b)).toNat * max adj.toNat 1 / d.toNat := by
  have hmax : (maxWord adj 1).toNat = max adj.toNat 1 := toNat_maxWord adj 1
  have hmul : (comp (maxWord m b)).toNat * (maxWord adj 1).toNat < 2 ^ 62 * 2 ^ 35 :=
    Nat.mul_lt_mul'' hcomp (by omega)
  unfold gasCalc
  rw [BitVec.toNat_udiv, BitVec.toNat_mul_of_lt (Nat.lt_trans hmul (by decide)), hmax]

theorem gasCalc_zero {comp : UInt256 → UInt256} (hcomp : comp 0 = 0) (d adj : UInt256) :
    gasCalc comp d 0 0 adj = 0 := by
  have hmax : maxWord 0 0 = 0 := by decide
  unfold gasCalc
  rw [hmax, hcomp]
  apply BitVec.eq_of_toNat_eq
  rw [BitVec.toNat_udiv, BitVec.toNat_mul]
  show (0 * _ % _) / _ = 0
  rw [Nat.zero_mul, Nat.zero_mod, Nat.zero_div]

/-- The lengths of a call that may be accepted. -/
def Fits (b e m : Nat) : Prop := b = 0 ∧ m = 0 ∨ b < 2 ^ 31 ∧ e < 2 ^ 31 ∧ m < 2 ^ 31

section

variable {fork : EVMFork} (hfork : ¬ FkOsaka ≤ fork)

include hfork

theorem complexity_zero : complexity fork 0 = 0 := by
  unfold complexity
  rw [if_neg hfork]
  split <;> rfl

/-- No product wraps, and with an empty base and modulus the product is zero. -/
theorem gasFee_toNat (h : UInt256) (hfits : Fits b.toNat e.toNat m.toNat) :
    (if FkBerlin ≤ fork then
        gasCalc mulComplexityEIP2565 GasQuadDivisorEIP2565 b m (adjExpLen e h)
      else gasCalc mulComplexity GasQuadDivisor b m (adjExpLen e h)).toNat =
      complexity fork (max b.toNat m.toNat) * iterations fork e.toNat h.toNat / divisor fork := by
  obtain ⟨hb, hm⟩ | ⟨hb, he, hm⟩ := hfits
  · have hb0 : b = 0 := BitVec.eq_of_toNat_eq hb
    have hm0 : m = 0 := BitVec.eq_of_toNat_eq hm
    rw [hb, hm, Nat.max_self, complexity_zero hfork, Nat.zero_mul, Nat.zero_div, hb0, hm0]
    split
    · rw [gasCalc_zero rfl]
      rfl
    · rw [gasCalc_zero rfl]
      rfl
  · have hmax : (maxWord m b).toNat = max b.toNat m.toNat := by rw [toNat_maxWord, Nat.max_comm]
    have hx : (maxWord m b).toNat < 2 ^ 31 := by omega
    have hadj := adjExpLen_toNat he h
    have hlog : Nat.log2 h.toNat < 256 := log2_lt h
    have hadjlt : (adjExpLen e h).toNat < 2 ^ 35 := by
      rw [hadj]
      split <;> omega
    have hiter : iterations fork e.toNat h.toNat = max (adjExpLen e h).toNat 1 := by
      unfold iterations
      rw [hadj, if_neg hfork]
    rw [hiter]
    unfold complexity divisor
    rw [if_neg hfork, if_neg hfork]
    split
    · obtain ⟨hlt, heq⟩ := mulComplexityEIP2565_toNat hx
      rw [gasCalc_toNat hlt hadjlt, heq, hmax]
      rfl
    · obtain ⟨hlt, heq⟩ := mulComplexity_toNat hx
      rw [gasCalc_toNat hlt hadjlt, heq, hmax]
      rfl

theorem modExpFee_eq (data : List UInt8)
    (hfits : Fits b.toNat e.toNat m.toNat) : modExpFee data b e m fork =
      (let gasFee := complexity fork (max b.toNat m.toNat) *
        iterations fork e.toNat (expHead data b e).toNat / divisor fork
      if gasFee > highGasInt then .error .OutOfGas else .ok (max (minimum fork) gasFee)) := by
  unfold modExpFee
  simp only [gasFee_toNat hfork (expHead data b e) hfits]
  split
  · rfl
  · rename_i hle
    generalize complexity fork (max b.toNat m.toNat) * iterations fork e.toNat
      (expHead data b e).toNat / divisor fork = gasFee at hle ⊢
    have hlt : gasFee < 2 ^ 64 := Nat.lt_succ_of_le (Nat.not_lt.mp hle)
    rw [Nat.mod_eq_of_lt hlt]
    unfold minimum minPrice
    rw [if_neg hfork]
    by_cases hberlin : FkBerlin ≤ fork
    · rw [if_pos hberlin]
      simp only [hberlin, true_and]
      split
      · rename_i hsmall
        rw [Nat.max_eq_left (Nat.le_of_lt hsmall)]
      · rename_i hlarge
        rw [Nat.max_eq_right (Nat.not_lt.mp hlarge)]
    · simp only [hberlin, false_and, if_false, Nat.zero_max]

end

/-! ### The call -/

/-- The call is not refused. An assertion may end it after it has been charged for. -/
def Accepted [BoringSSL] (fork : EVMFork) (c c' : Precompiles.Computation) : Prop :=
  Precompiles.modExp fork c = .ok () c' ∨ Precompiles.modExp fork c = .error .defect c'

/-- The gas consumed is `amount`. -/
def Consumed (amount : Nat) (c c' : Precompiles.Computation) : Prop :=
  c'.gasMeter.executionGasUsed = c.gasMeter.executionGasUsed + amount ∧
    c'.gasMeter.executionGasLeft + amount = c.gasMeter.executionGasLeft

theorem consumeGas_cases (amount : Nat) (c : Precompiles.Computation) :
    c.gasMeter.executionGasLeft < amount ∧
      Precompiles.consumeGas amount c = .error (.err .OutOfGas) c ∨
    ∃ c', Precompiles.consumeGas amount c = .ok () c' ∧ Consumed amount c c' := by
  by_cases h : amount > c.gasMeter.executionGasLeft
  · left
    refine ⟨h, ?_⟩
    show (if _ then throw _ else set _ : PrcM Unit) c = _
    rw [if_pos h]
    rfl
  · right
    refine ⟨{ c with gasMeter := { c.gasMeter with
      executionGasUsed := c.gasMeter.executionGasUsed + amount
      executionGasLeft := c.gasMeter.executionGasLeft - amount } }, ?_, rfl,
      Nat.sub_add_cancel (Nat.not_lt.mp h)⟩
    show (if _ then throw _ else set _ : PrcM Unit) c = _
    rw [if_neg h]
    rfl

theorem safeInt_eq (x : UInt256) : safeInt x = min x.toNat highInt32 := by
  unfold safeInt highInt32
  split <;> omega

/-- What sets the output uses no gas, and refuses lengths that do not fit. -/
theorem setOutput_cases [BoringSSL] (data : List UInt8) (b e m : UInt256)
    (c : Precompiles.Computation) :
    ¬ Fits b.toNat e.toNat m.toNat ∧ setOutput data b e m c = .error (.err .PrcInvalidParam) c ∨
    Fits b.toNat e.toNat m.toNat ∧ ∃ c', c'.gasMeter = c.gasMeter ∧
      (setOutput data b e m c = .ok () c' ∨ setOutput data b e m c = .error .defect c') := by
  have hb := safeInt_eq b
  have hm := safeInt_eq m
  have hhigh : highInt32 = 2 ^ 31 - 1 := rfl
  unfold setOutput
  by_cases hzero : safeInt b = 0 ∧ safeInt m = 0
  · right
    rw [if_pos hzero]
    exact ⟨.inl ⟨by omega, by omega⟩, { c with output := [] }, rfl, .inl rfl⟩
  · rw [if_neg hzero]
    by_cases hlong : b.toNat > highInt32 ∨ e.toNat > highInt32 ∨ m.toNat > highInt32
    · left
      rw [if_pos hlong]
      refine ⟨fun hfits => ?_, rfl⟩
      obtain hempty | hsmall := hfits <;> omega
    · right
      rw [if_neg hlong]
      refine ⟨.inr ⟨by omega, by omega, by omega⟩, ?_⟩
      generalize Native.ModExp.modExpInto (rangeToPadded data 96 (safeInt b))
        (rangeToPadded data (96 + safeInt b) (safeInt e))
        (rangeToPadded data (96 + safeInt b + safeInt e) (safeInt m)) (safeInt m) = output
      cases output with
      | none => exact ⟨c, rfl, .inr rfl⟩
      | some output => exact ⟨{ c with output }, rfl, .inl rfl⟩

theorem rangeToPaddedU256_toNat (data : List UInt8) (first : Nat) :
    (rangeToPaddedU256 data first (first + 31)).toNat = number data first 32 := by
  have hlast : (first : Int) + 31 = first + (32 : Nat) - 1 := by omega
  unfold rangeToPaddedU256
  rw [hlast]
  exact rangeToPaddedInt_eq data first 32

theorem lengths_toNat (data : List UInt8) :
    (rangeToPaddedU256 data 0 31).toNat = baseLength data ∧
      (rangeToPaddedU256 data 32 63).toNat = expLength data ∧
      (rangeToPaddedU256 data 64 95).toNat = modLength data :=
  ⟨rangeToPaddedU256_toNat data 0, rangeToPaddedU256_toNat data 32,
    rangeToPaddedU256_toNat data 64⟩

/-- The head that is used in the price. -/
def headRead (data : List UInt8) : Nat :=
  if baseLength data + expLength data < highInt32 then head data else 0

theorem expHead_toNat (hb : b.toNat = baseLength data)
    (he : e.toNat = expLength data) (hlt : b.toNat < 2 ^ 31 ∧ e.toNat < 2 ^ 31) :
    (expHead data b e).toNat = headRead data := by
  have hsafe (x : UInt256) (hx : x.toNat < 2 ^ 31) : safeInt x = x.toNat := by
    unfold safeInt
    rw [if_neg (by omega)]
  unfold expHead headRead
  rw [hsafe b hlt.1, hsafe e hlt.2, hb, he]
  dsimp only
  by_cases hsum : baseLength data + expLength data < highInt32
  · rw [if_pos hsum]
    split
    · have hlast : (95 : Int) + baseLength data + expLength data =
          ((96 + baseLength data : Nat) : Int) + expLength data - 1 := by omega
      rw [hlast]
      exact rangeToPaddedInt_eq data (96 + baseLength data) (expLength data)
    · rename_i hdata
      have hend : data.length ≤ baseLength data := Nat.not_lt.mp fun h => hdata ⟨hsum, h⟩
      exact (number_beyond (by omega) _).symm
  · rw [if_neg hsum, if_neg fun h => hsum h.1]
    rfl

theorem modExpFeeOsaka_eq {fork : EVMFork} (hfork : FkOsaka ≤ fork) (data : List UInt8) :
    modExpFeeOsaka data (baseLength data) (expLength data) (modLength data) = price fork data := by
  have hhead : (if baseLength data < data.length then
      rangeToPaddedInt data (96 + baseLength data) (95 + baseLength data + expLength data)
        (min (expLength data) 32) else 0).toNat = head data := by
    split
    · have hlast : (95 : Int) + baseLength data + expLength data =
          ((96 + baseLength data : Nat) : Int) + expLength data - 1 := by omega
      rw [hlast]
      exact rangeToPaddedInt_eq data (96 + baseLength data) (expLength data)
    · exact (number_beyond (by omega) _).symm
  unfold modExpFeeOsaka
  generalize (if baseLength data < data.length then
      rangeToPaddedInt data (96 + baseLength data) (95 + baseLength data + expLength data)
        (min (expLength data) 32) else 0) = first32 at hhead ⊢
  have hlog : (if first32 = 0 then 0 else log2 first32) = Nat.log2 (head data) := by
    rw [← hhead]
    split
    · rename_i h0
      rw [h0]
      rfl
    · rfl
  have hlong : (if first32 ≠ 0 then (expLength data - 32) * 16 + log2 first32
      else (expLength data - 32) * 16) = 16 * (expLength data - 32) + Nat.log2 (head data) := by
    rw [← hlog, Nat.mul_comm]
    by_cases h0 : first32 = 0
    · rw [if_neg (not_not.mpr h0), if_pos h0, Nat.add_zero]
    · rw [if_pos h0, if_neg h0]
  have hcomplexity : mulComplexityEIP7883 (max (modLength data) (baseLength data)) =
      complexity fork (max (baseLength data) (modLength data)) := by
    unfold mulComplexityEIP7883 complexity
    rw [if_pos hfork, Nat.max_comm]
    split
    · rw [if_neg (by omega), Nat.pow_two, Nat.mul_comm]
    · rw [if_pos (by omega)]
  dsimp only
  rw [hlog, hlong, hcomplexity]
  unfold price priceFor minimum iterations divisor minPriceOsaka
  rw [if_pos hfork, if_pos hfork, if_pos hfork, Nat.div_one]

section

variable [BoringSSL] {fork : EVMFork} {c c' : Precompiles.Computation}

theorem modExp_run (fork : EVMFork) (c : Precompiles.Computation) :
    Precompiles.modExp fork c = EStateM.bind
      (chargeModExp c.msgData (rangeToPaddedU256 c.msgData 0 31)
        (rangeToPaddedU256 c.msgData 32 63) (rangeToPaddedU256 c.msgData 64 95) fork)
      (fun _ => setOutput c.msgData (rangeToPaddedU256 c.msgData 0 31)
        (rangeToPaddedU256 c.msgData 32 63) (rangeToPaddedU256 c.msgData 64 95)) c := rfl

theorem accepted_of_charge {amount : Nat} {c₁ : Precompiles.Computation}
    (hcharge : chargeModExp c.msgData (rangeToPaddedU256 c.msgData 0 31)
      (rangeToPaddedU256 c.msgData 32 63) (rangeToPaddedU256 c.msgData 64 95) fork c = .ok () c₁)
    (hconsumed : Consumed amount c c₁) :
    (∀ c', Accepted fork c c' →
      Fits (baseLength c.msgData) (expLength c.msgData) (modLength c.msgData) ∧
        Consumed amount c c') ∧
    (Fits (baseLength c.msgData) (expLength c.msgData) (modLength c.msgData) →
      ∃ c', Accepted fork c c') := by
  obtain ⟨hb, he, hm⟩ := lengths_toNat c.msgData
  have hrun : Precompiles.modExp fork c = setOutput c.msgData (rangeToPaddedU256 c.msgData 0 31)
      (rangeToPaddedU256 c.msgData 32 63) (rangeToPaddedU256 c.msgData 64 95) c₁ := by
    rw [modExp_run]
    simp only [EStateM.bind, hcharge]
  have hout := setOutput_cases c.msgData (rangeToPaddedU256 c.msgData 0 31)
    (rangeToPaddedU256 c.msgData 32 63) (rangeToPaddedU256 c.msgData 64 95) c₁
  rw [hb, he, hm, ← hrun] at hout
  obtain ⟨hno, hfail⟩ | ⟨hfits, c₂, hgas, hdone⟩ := hout
  · refine ⟨fun c' h => ?_, fun hfits => absurd hfits hno⟩
    unfold Accepted at h
    rw [hfail] at h
    obtain h | h := h <;> cases h
  · refine ⟨fun c' h => ⟨hfits, ?_⟩, fun _ => ⟨c₂, hdone⟩⟩
    have hsame : c' = c₂ := by
      unfold Accepted at h
      obtain h | h := h <;> obtain hd | hd := hdone <;> rw [hd] at h <;> cases h <;> rfl
    rw [hsame]
    unfold Consumed
    rw [hgas]
    exact hconsumed

theorem not_accepted_of_charge (code : Precompiles.EvmErrorCode) (c₁ : Precompiles.Computation)
    (hcharge : chargeModExp c.msgData (rangeToPaddedU256 c.msgData 0 31)
      (rangeToPaddedU256 c.msgData 32 63) (rangeToPaddedU256 c.msgData 64 95) fork c =
        .error (.err code) c₁) : ¬ Accepted fork c c' := by
  have hrun : Precompiles.modExp fork c = .error (.err code) c₁ := by
    rw [modExp_run]
    simp only [EStateM.bind, hcharge]
  unfold Accepted
  rw [hrun]
  intro h
  obtain h | h := h <;> cases h

theorem accepted_osaka (hfork : FkOsaka ≤ fork) (h : Accepted fork c c') :
    Consumed (price fork c.msgData) c c' := by
  obtain ⟨hb, he, hm⟩ := lengths_toNat c.msgData
  have hsafe (x : UInt256) (hx : ¬ safeInt x > 1024) : safeInt x = x.toNat := by
    rw [safeInt_eq] at hx ⊢
    unfold highInt32 at hx ⊢
    omega
  by_cases hlong : safeInt (rangeToPaddedU256 c.msgData 0 31) > 1024 ∨
      safeInt (rangeToPaddedU256 c.msgData 32 63) > 1024 ∨
      safeInt (rangeToPaddedU256 c.msgData 64 95) > 1024
  · refine absurd h (not_accepted_of_charge .PrcInvalidParam c ?_)
    unfold chargeModExp
    rw [if_pos hfork, if_pos hlong]
    rfl
  · have hcharge : chargeModExp c.msgData (rangeToPaddedU256 c.msgData 0 31)
        (rangeToPaddedU256 c.msgData 32 63) (rangeToPaddedU256 c.msgData 64 95) fork =
          Precompiles.consumeGas (price fork c.msgData) := by
      unfold chargeModExp
      rw [if_pos hfork]
      dsimp only
      simp only [not_or] at hlong
      rw [if_neg (by simp only [not_or]; exact hlong), hsafe _ hlong.1, hsafe _ hlong.2.1,
        hsafe _ hlong.2.2, hb, he, hm, modExpFeeOsaka_eq hfork]
    obtain ⟨-, hfail⟩ | ⟨c₁, hok, hconsumed⟩ := consumeGas_cases (price fork c.msgData) c
    · rw [← hcharge] at hfail
      exact absurd h (not_accepted_of_charge _ _ hfail)
    · rw [← hcharge] at hok
      exact ((accepted_of_charge hok hconsumed).1 c' h).2

section

variable (hfork : ¬ FkOsaka ≤ fork)
include hfork

omit [BoringSSL] in
theorem modExpFee_headRead
    (hfits : Fits (baseLength data) (expLength data) (modLength data))
    (hb : b.toNat = baseLength data) (he : e.toNat = expLength data)
    (hm : m.toNat = modLength data) : modExpFee data b e m fork =
      (let gasFee := complexity fork (max (baseLength data) (modLength data)) *
        iterations fork (expLength data) (headRead data) / divisor fork
      if gasFee > highGasInt then .error .OutOfGas else .ok (max (minimum fork) gasFee)) := by
  rw [modExpFee_eq hfork data (by rw [hb, he, hm]; exact hfits), hb, he, hm]
  obtain ⟨hb0, hm0⟩ | ⟨hbl, hel, -⟩ := hfits
  · rw [hb0, hm0, Nat.max_self, complexity_zero hfork, Nat.zero_mul, Nat.zero_mul]
  · rw [expHead_toNat hb he ⟨by omega, by omega⟩]

theorem accepted_early (h : Accepted fork c c')
    (hfits : Fits (baseLength c.msgData) (expLength c.msgData) (modLength c.msgData)) :
    Consumed (priceFor fork (baseLength c.msgData) (expLength c.msgData) (modLength c.msgData)
      (headRead c.msgData)) c c' := by
  obtain ⟨hb, he, hm⟩ := lengths_toNat c.msgData
  have hfee := modExpFee_headRead hfork hfits hb he hm
  dsimp only at hfee
  split at hfee
  · refine absurd h (not_accepted_of_charge .OutOfGas c ?_)
    unfold chargeModExp
    rw [if_neg hfork, hfee]
    rfl
  · obtain ⟨-, hfail⟩ | ⟨c₁, hok, hconsumed⟩ := consumeGas_cases (priceFor fork
      (baseLength c.msgData) (expLength c.msgData) (modLength c.msgData)
      (headRead c.msgData)) c
    · refine absurd h (not_accepted_of_charge .OutOfGas c ?_)
      unfold chargeModExp
      rw [if_neg hfork, hfee]
      exact hfail
    · refine ((@accepted_of_charge _ fork _ _ _ ?_ hconsumed).1 c' h).2
      unfold chargeModExp
      rw [if_neg hfork, hfee]
      exact hok

/-- Before Osaka, a call whose lengths fit is accepted once there is enough gas. -/
theorem exists_accepted
    (hfits : Fits (baseLength c.msgData) (expLength c.msgData) (modLength c.msgData))
    (hleft : c.gasMeter.executionGasLeft ≤ highGasInt)
    (hgas : priceFor fork (baseLength c.msgData) (expLength c.msgData) (modLength c.msgData)
      (headRead c.msgData) ≤ c.gasMeter.executionGasLeft) : ∃ c', Accepted fork c c' := by
  obtain ⟨hb, he, hm⟩ := lengths_toNat c.msgData
  have hfee := modExpFee_headRead hfork hfits hb he hm
  have hle : complexity fork (max (baseLength c.msgData) (modLength c.msgData)) *
      iterations fork (expLength c.msgData) (headRead c.msgData) / divisor fork ≤ highGasInt :=
    Nat.le_trans (Nat.le_max_right _ _) (Nat.le_trans hgas hleft)
  dsimp only at hfee
  rw [if_neg (Nat.not_lt.mpr hle)] at hfee
  obtain ⟨hmore, -⟩ | ⟨c₁, hok, hconsumed⟩ := consumeGas_cases (priceFor fork
    (baseLength c.msgData) (expLength c.msgData) (modLength c.msgData) (headRead c.msgData)) c
  · omega
  · refine (@accepted_of_charge _ fork _ _ _ ?_ hconsumed).2 hfits
    unfold chargeModExp
    rw [if_neg hfork, hfee]
    exact hok

theorem Accepted.fits (h : Accepted fork c c') :
    Fits (baseLength c.msgData) (expLength c.msgData) (modLength c.msgData) := by
  cases hfee : modExpFee c.msgData (rangeToPaddedU256 c.msgData 0 31)
      (rangeToPaddedU256 c.msgData 32 63) (rangeToPaddedU256 c.msgData 64 95) fork with
  | error code =>
    refine absurd h (not_accepted_of_charge code c ?_)
    unfold chargeModExp
    rw [if_neg hfork, hfee]
    rfl
  | ok fee =>
    have hcharge : chargeModExp c.msgData (rangeToPaddedU256 c.msgData 0 31)
        (rangeToPaddedU256 c.msgData 32 63) (rangeToPaddedU256 c.msgData 64 95) fork =
          Precompiles.consumeGas fee := by
      unfold chargeModExp
      rw [if_neg hfork, hfee]
    obtain ⟨-, hfail⟩ | ⟨c₁, hok, hconsumed⟩ := consumeGas_cases fee c
    · rw [← hcharge] at hfail
      exact absurd h (not_accepted_of_charge _ _ hfail)
    · rw [← hcharge] at hok
      exact ((accepted_of_charge hok hconsumed).1 c' h).1

end

end

/-! ### When the price is right -/

/-- A call that is accepted consumes the price of the specification, whatever gas it has. -/
def Priced [BoringSSL] (fork : EVMFork) (data : List UInt8) : Prop :=
  ∀ c c' : Precompiles.Computation, c.msgData = data → c.gasMeter.executionGasLeft ≤ highGasInt →
    Accepted fork c c' → Consumed (price fork data) c c'

/-- The head of the exponent is read, or is not needed: the call is refused for its lengths or
for a price that no gas can pay, or rounding drops what the bits of the head would add. -/
def HeadCounts (fork : EVMFork) (data : List UInt8) : Prop :=
  FkOsaka ≤ fork ∨ baseLength data + expLength data < highInt32 ∨
  2 ^ 31 ≤ max (baseLength data) (max (expLength data) (modLength data)) ∨
  (let c := complexity fork (max (baseLength data) (modLength data))
   let n₀ := iterations fork (expLength data) 0
   let n := iterations fork (expLength data) (head data)
   highGasInt < c * n₀ / divisor fork ∨
    c * n₀ % divisor fork + c * (n - n₀) < divisor fork)

theorem iterations_mono (fork : EVMFork) (e h : Nat) :
    iterations fork e 0 ≤ iterations fork e h := by
  unfold iterations
  rw [Nat.log2_zero]
  split <;> omega

theorem divisor_pos (fork : EVMFork) : 0 < divisor fork := by
  unfold divisor
  split
  · decide
  · split <;> decide

theorem div_add_eq_iff {a k d : Nat} (hd : 0 < d) : (a + k) / d = a / d ↔ a % d + k < d := by
  have hsplit : (a + k) / d = a / d + (a % d + k) / d := by
    conv_lhs => rw [← Nat.div_add_mod a d]
    rw [Nat.add_assoc, Nat.mul_add_div hd]
  rw [hsplit, Nat.add_eq_left, Nat.div_eq_zero_iff_lt hd]

theorem quotient_eq_iff (fork : EVMFork) (c e h : Nat) :
    c * iterations fork e h / divisor fork = c * iterations fork e 0 / divisor fork ↔
      c * iterations fork e 0 % divisor fork + c * (iterations fork e h - iterations fork e 0) <
        divisor fork := by
  have hsum : c * iterations fork e h = c * iterations fork e 0 +
      c * (iterations fork e h - iterations fork e 0) := by
    rw [← Nat.mul_add, Nat.add_sub_cancel' (iterations_mono fork e h)]
  rw [hsum, div_add_eq_iff (divisor_pos fork)]

/-- With lengths at the highest `int32` the price is above the minimum. -/
theorem minimum_le {fork : EVMFork} (hfork : ¬ FkOsaka ≤ fork) {b e m : Nat}
    (hlong : highInt32 ≤ b + e) (hpos : 0 < complexity fork (max b m)) :
    minimum fork ≤ complexity fork (max b m) * iterations fork e 0 / divisor fork := by
  unfold minimum
  rw [if_neg hfork]
  split
  · rename_i hberlin
    have hd : divisor fork = 3 := by
      unfold divisor
      rw [if_neg hfork, if_pos hberlin]
    have hiter : 0 < iterations fork e 0 := Nat.lt_of_lt_of_le Nat.one_pos (Nat.le_max_right _ _)
    unfold highInt32 at hlong
    rw [hd, Nat.le_div_iff_mul_le (by decide)]
    -- one of the two lengths is long
    by_cases hb : 2 ^ 20 ≤ b
    · have hwords : 200 * 3 ≤ (max b m + 7) / 8 := by omega
      have hcomplexity : 200 * 3 ≤ complexity fork (max b m) := by
        unfold complexity
        rw [if_neg hfork, if_pos hberlin, Nat.pow_two]
        exact Nat.le_trans hwords (Nat.le_mul_of_pos_left _ (by omega))
      exact Nat.le_trans hcomplexity (Nat.le_mul_of_pos_right _ hiter)
    · have hlarge : 200 * 3 ≤ iterations fork e 0 := by
        unfold iterations
        rw [if_neg (by omega), if_neg hfork]
        omega
      exact Nat.le_trans hlarge (Nat.le_mul_of_pos_left _ hpos)
  · exact Nat.zero_le _

section

variable [BoringSSL] {fork : EVMFork} {data : List UInt8}

theorem HeadCounts.priced (h : HeadCounts fork data) : Priced fork data := by
  rintro c c' rfl hleft haccepted
  by_cases hfork : FkOsaka ≤ fork
  · exact accepted_osaka hfork haccepted
  · have hfits := haccepted.fits hfork
    have hconsumed := accepted_early hfork haccepted hfits
    have hsame : priceFor fork (baseLength c.msgData) (expLength c.msgData)
        (modLength c.msgData) (headRead c.msgData) = price fork c.msgData := by
      by_cases hsum : baseLength c.msgData + expLength c.msgData < highInt32
      · unfold headRead
        rw [if_pos hsum]
        rfl
      · have hread : headRead c.msgData = 0 := if_neg hsum
        rw [hread] at hconsumed ⊢
        obtain hzero | ⟨hb, he, hm⟩ := hfits
        · unfold price priceFor
          rw [hzero.1, hzero.2, Nat.max_self, complexity_zero hfork, Nat.zero_mul, Nat.zero_mul]
        · obtain hosaka | hlt | hlong | hhigh | hround := h
          · exact absurd hosaka hfork
          · exact absurd hlt hsum
          · omega
          · -- no gas pays for the call
            have hle := hconsumed.2
            have hmax := Nat.le_max_right (minimum fork)
              (complexity fork (max (baseLength c.msgData) (modLength c.msgData)) *
                iterations fork (expLength c.msgData) 0 / divisor fork)
            unfold priceFor at hle
            omega
          · unfold price priceFor
            rw [(quotient_eq_iff fork _ _ _).mpr hround]
    rw [← hsame]
    exact hconsumed

/-- Otherwise a call with as much gas as there can be is too cheap. -/
theorem not_priced (h : ¬ HeadCounts fork data) : ¬ Priced fork data := by
  intro hpriced
  unfold HeadCounts at h
  simp only [not_or, Nat.not_lt, Nat.not_le] at h
  obtain ⟨hfork, hsum, hlong, hhigh, hround⟩ := h
  have hfork : ¬ FkOsaka ≤ fork := hfork
  have hfits : Fits (baseLength data) (expLength data) (modLength data) :=
    .inr ⟨by omega, by omega, by omega⟩
  have hread : headRead data = 0 := if_neg (Nat.not_lt.mpr hsum)
  have hpos : 0 < complexity fork (max (baseLength data) (modLength data)) := by
    apply Nat.pos_of_ne_zero
    intro h0
    rw [h0, Nat.zero_mul, Nat.zero_mul, Nat.zero_mod] at hround
    exact absurd (divisor_pos fork) (Nat.not_lt.mpr hround)
  have hmin := minimum_le hfork hsum hpos
  have hfee : priceFor fork (baseLength data) (expLength data) (modLength data) 0 =
      complexity fork (max (baseLength data) (modLength data)) *
        iterations fork (expLength data) 0 / divisor fork := Nat.max_eq_right hmin
  let c : Precompiles.Computation := { msgData := data, gasMeter := GasMeter.init highGasInt 0 }
  have hgas : priceFor fork (baseLength c.msgData) (expLength c.msgData) (modLength c.msgData)
      (headRead c.msgData) ≤ c.gasMeter.executionGasLeft := by
    show priceFor fork _ _ _ (headRead data) ≤ highGasInt
    rw [hread, hfee]
    exact hhigh
  obtain ⟨c', haccepted⟩ := @exists_accepted _ _ c hfork hfits (Nat.le_refl _) hgas
  have hcode := (accepted_early hfork haccepted hfits).1
  have hspec := (hpriced c c' rfl (Nat.le_refl _) haccepted).1
  have heq : priceFor fork (baseLength data) (expLength data) (modLength data) 0 =
      price fork data := by
    rw [← hread]
    exact Nat.add_left_cancel (hcode.symm.trans hspec)
  have hquot : complexity fork (max (baseLength data) (modLength data)) *
        iterations fork (expLength data) (head data) / divisor fork =
      complexity fork (max (baseLength data) (modLength data)) *
        iterations fork (expLength data) 0 / divisor fork := by
    have hmono := @Nat.div_le_div_right _ _ (divisor fork) (Nat.mul_le_mul_left
      (complexity fork (max (baseLength data) (modLength data)))
      (iterations_mono fork (expLength data) (head data)))
    have hle : complexity fork (max (baseLength data) (modLength data)) *
        iterations fork (expLength data) (head data) / divisor fork ≤ price fork data :=
      Nat.le_max_right _ _
    rw [← heq, hfee] at hle
    exact Nat.le_antisymm hle hmono
  exact absurd ((quotient_eq_iff fork _ _ _).mp hquot) (Nat.not_lt.mpr hround)

end

/-- The gas consumed is the price of the specification exactly when the head of the exponent is
read where it matters. -/
theorem priced_iff [BoringSSL] (fork : EVMFork) (data : List UInt8) :
    Priced fork data ↔ HeadCounts fork data :=
  ⟨fun hpriced => Classical.not_not.mp fun h => not_priced h hpriced, HeadCounts.priced⟩

instance (fork : EVMFork) (data : List UInt8) : Decidable (HeadCounts fork data) :=
  inferInstanceAs (Decidable (_ ∨ _ ∨ _ ∨ _ ∨ _))

/-- No base, an exponent of `high(int32)` bytes of which the first is there, and a modulus of
one byte. -/
def longExponent : List UInt8 :=
  List.replicate 32 0 ++ (List.replicate 28 0 ++ [0x7f, 0xff, 0xff, 0xff]) ++
    (List.replicate 31 0 ++ [1]) ++ [0xff]

/-- The call costs 858993446 instead of 858993458. -/
theorem not_priced_longExponent : ¬ @Priced ModExp.natLibrary FkByzantium longExponent :=
  @not_priced ModExp.natLibrary _ _ (by decide +kernel)

example : price FkByzantium longExponent = 858993458 ∧
    priceFor FkByzantium 0 highInt32 1 0 = 858993446 := by decide +kernel

end Nimbus.Spec.ModExpGas
