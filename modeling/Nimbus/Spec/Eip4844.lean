import Nimbus.ForStd.TaylorTerms
import Nimbus.Native.Eip4844

/-!
# The range of the price of blob gas

`fakeExponential` adds up the rounded terms of a series in 256-bit words. As long as the terms
times the numerator and their sum fit, nothing wraps and the loop ends. Nothing in a header is
checked against this range: the excess of blob gas grows with every header of a chain by at most
what its parent uses above the target, so a chain stays in the range while the sum of these does.
-/

namespace Nimbus.Spec.BlobGas

open Native Native.BlobGas
open Native.BlobGas.HardFork
open Aristo (UInt256)
open Packer (Header)
open ExecM (Ends)
open ExecM

/-! ### The integers of EIP-4844 -/

/-- `fake_exponential` -/
def fakeExp (factor numerator denominator : Nat) : Nat :=
  taylorSum factor numerator denominator / denominator

/-- The result fits 256 bits together with the intermediate products. -/
structure InRange (factor numerator denominator : Nat) : Prop where
  sum : taylorSum factor numerator denominator < 2 ^ 256
  product : ∀ i, taylor factor numerator denominator i * numerator < 2 ^ 256

theorem InRange.mono {factor numerator numerator' denominator : Nat}
    (h : InRange factor numerator' denominator) (hle : numerator ≤ numerator') :
    InRange factor numerator denominator where
  sum := Nat.lt_of_le_of_lt (taylorSum_mono hle) h.sum
  product i := Nat.lt_of_le_of_lt (Nat.mul_le_mul (taylor_mono hle i) hle) (h.product i)

/-! ### The loop -/

def word (n : Nat) : UInt256 := BitVec.ofNat 256 n

theorem word_toNat {n : Nat} (h : n < 2 ^ 256) : (word n).toNat = n := by
  unfold word
  rw [BitVec.toNat_ofNat, Nat.mod_eq_of_lt h]

theorem word_eq (x : UInt256) : word x.toNat = x :=
  BitVec.eq_of_toNat_eq (word_toNat x.isLt)

/-- The operations of turn `i`, from 0, do not wrap. -/
structure TurnFits (factor numerator denominator i : Nat) : Prop where
  output : ∑ j ∈ Finset.range i, taylor factor numerator denominator j +
    taylor factor numerator denominator i < 2 ^ 256
  product : taylor factor numerator denominator i * numerator < 2 ^ 256
  divisor : denominator * (i + 1) < 2 ^ 256
  counter : (i + 1) + 1 < 2 ^ 256

section

variable {factor numerator denominator : Nat} (hd : 0 < denominator)
  (hrange : InRange factor numerator denominator)

include hrange in
theorem taylor_lt (i : Nat) : taylor factor numerator denominator i < 2 ^ 256 :=
  Nat.lt_of_le_of_lt (Nat.le_trans (Nat.le_add_left _ _) (sum_add_taylor_le i)) hrange.sum

include hd hrange in
theorem length_le : taylorLength factor numerator denominator ≤ 2 * numerator + 256 :=
  taylorLength_le hd (taylor_lt hrange _)

variable (hn : numerator < 2 ^ 64) (hd64 : denominator < 2 ^ 64)

include hd hrange hn hd64 in
theorem turnFits {i : Nat} (hi : i < taylorLength factor numerator denominator) :
    TurnFits factor numerator denominator i := by
  have hlength := length_le hd hrange
  have hmul : denominator * (i + 1) < 2 ^ 64 * 2 ^ 66 := Nat.mul_lt_mul'' hd64 (by omega)
  exact {
    output := Nat.lt_of_le_of_lt (sum_add_taylor_le i) hrange.sum
    product := hrange.product i
    divisor := Nat.lt_trans hmul (by decide)
    counter := by omega }

theorem divWord_word {x y : Nat} (hx : x < 2 ^ 256) (hy : y < 2 ^ 256) (hpos : 0 < y) :
    divWord (word x) (word y) = pure (word (x / y)) := by
  have hne : word y ≠ 0 := by
    intro h
    have := congrArg BitVec.toNat h
    rw [word_toNat hy] at this
    exact absurd this (Nat.ne_of_gt hpos)
  have hdiv : word x / word y = word (x / y) := by
    apply BitVec.eq_of_toNat_eq
    rw [BitVec.toNat_udiv, word_toNat hx, word_toNat hy,
      word_toNat (Nat.lt_of_le_of_lt (Nat.div_le_self x y) hx)]
  unfold divWord
  rw [if_neg hne, hdiv]

theorem loop_turn (hd : 0 < denominator) {i : Nat} (hfits : TurnFits factor numerator denominator i)
    (hpos : 0 < taylor factor numerator denominator i) (fuel : Nat) :
    fakeExponentialLoop (word numerator) (word denominator) (fuel + 1) (word (i + 1))
        (word (∑ j ∈ Finset.range i, taylor factor numerator denominator j))
        (word (taylor factor numerator denominator i)) =
      fakeExponentialLoop (word numerator) (word denominator) fuel (word (i + 1 + 1))
        (word (∑ j ∈ Finset.range (i + 1), taylor factor numerator denominator j))
        (word (taylor factor numerator denominator (i + 1))) := by
  obtain ⟨houtput, hproduct, hdivisor, hcounter⟩ := hfits
  have hgt : word (taylor factor numerator denominator i) > 0 := by
    show (0 : Nat) < BitVec.toNat _
    rw [word_toNat (by omega)]
    exact hpos
  have hword {x y : Nat} : word x * word y = word (x * y) := (BitVec.ofNat_mul ..).symm
  have hadd {x y : Nat} : word x + word y = word (x + y) := (BitVec.ofNat_add ..).symm
  have hone : word (i + 1) + 1 = word (i + 1 + 1) := hadd
  rw [fakeExponentialLoop, if_pos hgt, hword, hword,
    divWord_word hproduct hdivisor (Nat.mul_pos hd (Nat.succ_pos i)), hadd, hone,
    Finset.sum_range_succ]
  rfl

include hd hrange hn hd64 in
theorem loop_run (fuel k : Nat) (hk : k ≤ taylorLength factor numerator denominator) :
    fakeExponentialLoop (word numerator) (word denominator) (fuel + k) 1 0
        (word factor * word denominator) =
      fakeExponentialLoop (word numerator) (word denominator) fuel (word (k + 1))
        (word (∑ j ∈ Finset.range k, taylor factor numerator denominator j))
        (word (taylor factor numerator denominator k)) := by
  induction k generalizing fuel with
  | zero =>
    have hstart : word factor * word denominator = word (factor * denominator) :=
      (BitVec.ofNat_mul ..).symm
    rw [hstart]
    rfl
  | succ k ih =>
    have hturn : fuel + (k + 1) = fuel + 1 + k := by omega
    rw [hturn, ih (fuel + 1) (Nat.le_of_succ_le hk)]
    exact loop_turn hd (turnFits hd hrange hn hd64 hk) (taylor_pos_of_lt_length hk) fuel

include hd hrange hn hd64 in
theorem fakeExponential_word {fuel : Nat}
    (hfuel : taylorLength factor numerator denominator < fuel) :
    fakeExponential fuel (word factor) (word numerator) (word denominator) =
      pure (word (fakeExp factor numerator denominator)) := by
  obtain ⟨rest, rfl⟩ : ∃ rest, fuel = rest + 1 + taylorLength factor numerator denominator :=
    ⟨fuel - taylorLength factor numerator denominator - 1, by omega⟩
  have hzero : ¬ word 0 > 0 := by decide
  unfold fakeExponential
  rw [loop_run hd hrange hn hd64 (rest + 1) _ (Nat.le_refl _), taylor_length]
  exact divWord_word hrange.sum (by omega) hd

end

/-! ### The excess for the next header -/

def excess (header : Header) : Nat := (header.excessBlobGas.getD 0).toNat
def used (header : Header) : Nat := (header.blobGasUsed.getD 0).toNat
def baseFee (header : Header) : Nat := (header.baseFeePerGas.getD 0).toNat

section

variable (com : CommonRef) (fork : HardFork)

def target : Nat := (getTargetBlobsPerBlock com fork).toNat
def maximum : Nat := (getMaxBlobsPerBlock com fork).toNat
def fraction : Nat := (getBlobBaseFeeUpdateFraction com fork).toNat

/-- The price of blob gas for an excess. -/
def blobFee (excess : Nat) : Nat := fakeExp 1 excess (fraction com fork)

/-- `calc_excess_blob_gas`, with the reserve price of EIP-7918. -/
def eipExcess (parent : Header) : Nat :=
  if excess parent + used parent < target com fork * 2 ^ 17 then 0
  else if Osaka ≤ fork ∧
      2 ^ 13 * baseFee parent > 2 ^ 17 * blobFee com fork (excess parent) then
    excess parent + used parent * (maximum com fork - target com fork) / maximum com fork
  else excess parent + used parent - target com fork * 2 ^ 17

/-- The numbers fit with which the excess is computed. -/
structure ExcessFits (parent : Header) : Prop where
  target_le : target com fork ≤ maximum com fork
  target : target com fork * 2 ^ 17 < 2 ^ 64
  sum : excess parent + used parent < 2 ^ 64
  product : used parent * (maximum com fork - BlobGas.target com fork) < 2 ^ 64
  max_pos : Osaka ≤ fork → 0 < maximum com fork
  baseFee : Osaka ≤ fork → 2 ^ 13 * baseFee parent < 2 ^ 256
  price : Osaka ≤ fork → InRange 1 (excess parent) (fraction com fork) ∧
    2 ^ 17 * blobFee com fork (excess parent) < 2 ^ 256

end

theorem ofNat_toNat_of_lt {n : Nat} (h : n < 2 ^ 64) : (UInt64.ofNat n).toNat = n :=
  (UInt64.toNat_ofNat_of_lt' h)

section

variable {com : CommonRef} {fork : HardFork}

theorem fraction_pos (hfork : Cancun ≤ fork) : 0 < fraction com fork := by
  unfold fraction getBlobBaseFeeUpdateFraction
  rw [if_neg (not_not.mpr hfork)]
  exact (com.blobSchedule fork).fraction_pos

theorem cancun_le (h : Osaka ≤ fork) : Cancun ≤ fork := Nat.le_trans (by decide) h

theorem getBlobBaseFee_spec (hfork : Cancun ≤ fork) {e : UInt64}
    (hrange : InRange 1 e.toNat (fraction com fork)) {fuel : Nat}
    (hfuel : taylorLength 1 e.toNat (fraction com fork) < fuel) :
    getBlobBaseFee com fork fuel e = pure (word (blobFee com fork e.toNat)) := by
  unfold getBlobBaseFee
  rw [if_pos hfork]
  exact fakeExponential_word (fraction_pos hfork) hrange e.toNat_lt
    (getBlobBaseFeeUpdateFraction com fork).toNat_lt hfuel

theorem reserveExcess_spec {e u : UInt64} (hmax : 0 < maximum com fork)
    (hle : target com fork ≤ maximum com fork) (hsum : e.toNat + u.toNat < 2 ^ 64)
    (hproduct : u.toNat * (maximum com fork - target com fork) < 2 ^ 64) :
    e.toNat + u.toNat * (maximum com fork - target com fork) / maximum com fork < 2 ^ 64 ∧
    reserveExcess com fork e u = pure (UInt64.ofNat
      (e.toNat + u.toNat * (maximum com fork - target com fork) / maximum com fork)) := by
  have hshare : u.toNat * (maximum com fork - target com fork) / maximum com fork ≤ u.toNat :=
    Nat.div_le_of_le_mul (by rw [Nat.mul_comm]; exact Nat.mul_le_mul_right _ (Nat.sub_le _ _))
  have hlt : e.toNat + u.toNat * (maximum com fork - target com fork) / maximum com fork <
      2 ^ 64 := by omega
  refine ⟨hlt, ?_⟩
  have hne : getMaxBlobsPerBlock com fork ≠ 0 := by
    intro h
    unfold maximum at hmax
    rw [h] at hmax
    exact Nat.lt_irrefl 0 hmax
  unfold reserveExcess
  rw [if_neg hne]
  congr 1
  apply UInt64.toNat_inj.mp
  have hdiff : (getMaxBlobsPerBlock com fork - getTargetBlobsPerBlock com fork).toNat =
      maximum com fork - target com fork := UInt64.toNat_sub_of_le _ _ hle
  rw [ofNat_toNat_of_lt hlt, UInt64.toNat_add, UInt64.toNat_div, UInt64.toNat_mul, hdiff,
    Nat.mod_eq_of_lt hproduct]
  exact Nat.mod_eq_of_lt hlt

theorem calcExcessBlobGas_spec {parent : Header} (hfits : ExcessFits com fork parent) {fuel : Nat}
    (hfuel : taylorLength 1 (excess parent) (fraction com fork) < fuel) :
    eipExcess com fork parent < 2 ^ 64 ∧
    calcExcessBlobGas com fork fuel parent = pure (UInt64.ofNat (eipExcess com fork parent)) := by
  obtain ⟨hle, htarget, hsum, hproduct, hmax, hbaseFee, hprice⟩ := hfits
  have htargetGas : (getTargetBlobsPerBlock com fork * GAS_PER_BLOB).toNat =
      target com fork * 2 ^ 17 := by
    exact Nat.mod_eq_of_lt htarget
  have hsumGas : (parent.excessBlobGas.getD 0 + parent.blobGasUsed.getD 0).toNat =
      excess parent + used parent := by
    exact Nat.mod_eq_of_lt hsum
  have hless : parent.excessBlobGas.getD 0 + parent.blobGasUsed.getD 0 <
      getTargetBlobsPerBlock com fork * GAS_PER_BLOB ↔
        excess parent + used parent < target com fork * 2 ^ 17 := by
    rw [UInt64.lt_iff_toNat_lt, htargetGas, hsumGas]
  have hrest : ¬ excess parent + used parent < target com fork * 2 ^ 17 →
      parent.excessBlobGas.getD 0 + parent.blobGasUsed.getD 0 -
          getTargetBlobsPerBlock com fork * GAS_PER_BLOB =
        UInt64.ofNat (excess parent + used parent - target com fork * 2 ^ 17) := by
    intro hge
    apply UInt64.toNat_inj.mp
    rw [ofNat_toNat_of_lt (by omega), UInt64.toNat_sub_of_le _ _ (by
      rw [UInt64.le_iff_toNat_le]; omega), htargetGas, hsumGas]
  unfold calcExcessBlobGas eipExcess
  simp only [hless]
  by_cases hlow : excess parent + used parent < target com fork * 2 ^ 17
  · rw [if_pos hlow, if_pos hlow]
    exact ⟨by decide, rfl⟩
  · rw [if_neg hlow, if_neg hlow]
    by_cases hfork : Osaka ≤ fork
    · obtain ⟨hrange, hfee⟩ := hprice hfork
      have hcompare : u256 BLOB_BASE_COST * parent.baseFeePerGas.getD 0 >
          u256 GAS_PER_BLOB * word (blobFee com fork (excess parent)) ↔
          Osaka ≤ fork ∧ 2 ^ 13 * baseFee parent > 2 ^ 17 * blobFee com fork (excess parent) := by
        have hcost : (u256 BLOB_BASE_COST * parent.baseFeePerGas.getD 0).toNat =
            2 ^ 13 * baseFee parent := by
          exact Nat.mod_eq_of_lt (hbaseFee hfork)
        have hgas : (u256 GAS_PER_BLOB * word (blobFee com fork (excess parent))).toNat =
            2 ^ 17 * blobFee com fork (excess parent) := by
          rw [BitVec.toNat_mul, word_toNat (by omega)]
          exact Nat.mod_eq_of_lt hfee
        rw [gt_iff_lt, BitVec.lt_def, hcost, hgas]
        exact ⟨fun h => ⟨hfork, h⟩, fun h => h.2⟩
      obtain ⟨hlt, hreserve⟩ := reserveExcess_spec (hmax hfork) hle hsum hproduct
      have hblobFee : getBlobBaseFee com fork fuel (parent.excessBlobGas.getD 0) =
          pure (word (blobFee com fork (excess parent))) :=
        getBlobBaseFee_spec (cancun_le hfork) hrange hfuel
      rw [if_pos hfork, hblobFee, pure_bind]
      by_cases hreserved : Osaka ≤ fork ∧
          2 ^ 13 * baseFee parent > 2 ^ 17 * blobFee com fork (excess parent)
      · rw [if_pos (hcompare.mpr hreserved), if_pos hreserved]
        exact ⟨hlt, hreserve⟩
      · rw [if_neg (fun h => hreserved (hcompare.mp h)), if_neg hreserved, hrest hlow]
        exact ⟨by omega, rfl⟩
    · rw [if_neg hfork, if_neg (fun h => hfork h.1), hrest hlow]
      exact ⟨by omega, rfl⟩

end

/-! ### Chains of headers -/

/-- The schedule of every fork has a target up to its maximum, whose blob gas is a `uint64`. -/
def ScheduleFits (com : CommonRef) : Prop :=
  ∀ fork, target com fork ≤ maximum com fork ∧ maximum com fork * 2 ^ 17 < 2 ^ 64

/-- What a header with `used` blob gas can add to the excess of the next one. -/
def growth (com : CommonRef) (fork : HardFork) (used : Nat) : Nat :=
  max (used - target com fork * 2 ^ 17)
    (if Osaka ≤ fork then used * (maximum com fork - target com fork) / maximum com fork else 0)

/-- `validateEip4844Header` accepts the header with some transactions. -/
def Accepted (com : CommonRef) (parent header : Header) : Prop :=
  ∃ fuel txs, Ends (validateEip4844Header com fuel header parent txs) (.ok (.ok ()))

/-- What the headers of a chain can add up to. -/
def grown (com : CommonRef) : Header → List Header → Nat
  | _, [] => 0
  | parent, header :: headers =>
    growth com (com.toHardFork header) (used parent) + grown com header headers

section

variable {com : CommonRef} (hschedule : ScheduleFits com)

include hschedule in
theorem calcExcess_le {fork : HardFork} {fuel : Nat} {parent : Header} {e : UInt64}
    (h : Ends (calcExcessBlobGas com fork fuel parent) (.ok e)) :
    e.toNat ≤ excess parent + growth com fork (used parent) := by
  obtain ⟨hle, hfits⟩ := hschedule fork
  have htargetGas : (getTargetBlobsPerBlock com fork * GAS_PER_BLOB).toNat =
      target com fork * 2 ^ 17 := by
    exact Nat.mod_eq_of_lt (Nat.lt_of_le_of_lt (Nat.mul_le_mul_right _ hle) hfits)
  have hsumle : (parent.excessBlobGas.getD 0 + parent.blobGasUsed.getD 0).toNat ≤
      excess parent + used parent := by
    exact Nat.mod_le _ _
  -- above the target, the target is taken off
  have hrest (hge : ¬ parent.excessBlobGas.getD 0 + parent.blobGasUsed.getD 0 <
        getTargetBlobsPerBlock com fork * GAS_PER_BLOB)
      (he : e = parent.excessBlobGas.getD 0 + parent.blobGasUsed.getD 0 -
        getTargetBlobsPerBlock com fork * GAS_PER_BLOB) :
      e.toNat ≤ excess parent + growth com fork (used parent) := by
    rw [he, UInt64.toNat_sub_of_le _ _ (UInt64.not_lt.mp hge)]
    unfold growth
    omega
  unfold calcExcessBlobGas at h
  dsimp only at h
  split at h
  · have he : e = 0 := by simpa using ends_pure.mp h
    rw [he]
    exact Nat.zero_le _
  · rename_i hge
    split at h
    · rename_i hfork
      obtain ⟨r, -, hnext⟩ := ends_bind.mp h
      cases r with
      | error defect => exact nomatch (ends_throw.mp hnext)
      | ok blobBaseFee =>
        rw [next_ok] at hnext
        split at hnext
        · unfold reserveExcess at hnext
          dsimp only at hnext
          split at hnext
          · exact nomatch (ends_throw.mp hnext)
          · have he := (Except.ok.inj (ends_pure.mp hnext))
            have hdiff : (getMaxBlobsPerBlock com fork - getTargetBlobsPerBlock com fork).toNat =
                maximum com fork - target com fork := UInt64.toNat_sub_of_le _ _ hle
            have hmax := Nat.le_max_right (used parent - target com fork * 2 ^ 17)
              (if Osaka ≤ fork then
                used parent * (maximum com fork - target com fork) / maximum com fork else 0)
            have hshare : (parent.blobGasUsed.getD 0 * (getMaxBlobsPerBlock com fork -
                getTargetBlobsPerBlock com fork) / getMaxBlobsPerBlock com fork).toNat ≤
                used parent * (maximum com fork - target com fork) / maximum com fork := by
              rw [UInt64.toNat_div, UInt64.toNat_mul, hdiff]
              exact Nat.div_le_div_right (Nat.mod_le _ _)
            rw [if_pos hfork] at hmax
            rw [he]
            refine Nat.le_trans (Nat.mod_le _ _) (Nat.add_le_add_left ?_ _)
            unfold growth
            rw [if_pos hfork]
            exact Nat.le_trans hshare hmax
        · exact hrest hge (Except.ok.inj (ends_pure.mp hnext))
    · exact hrest hge (Except.ok.inj (ends_pure.mp h))

/-- The excess of an accepted header is computed from its parent. -/
theorem Accepted.excess {parent header : Header} (h : Accepted com parent header) :
    excess header = 0 ∨ ∃ fuel e, header.excessBlobGas = some e ∧
      Ends (calcExcessBlobGas com (com.toHardFork header) fuel parent) (.ok e) := by
  obtain ⟨fuel, txs, h⟩ := h
  unfold validateEip4844Header at h
  split at h
  · split at h
    · exact nomatch (ends_pure.mp h)
    · split at h
      · exact nomatch (ends_pure.mp h)
      · rename_i hnone
        left
        unfold BlobGas.excess
        rw [Option.not_isSome_iff_eq_none.mp hnone]
        rfl
  · split at h
    · exact nomatch (ends_pure.mp h)
    · exact nomatch (ends_pure.mp h)
    · rename_i headerBlobGasUsed headerExcessBlobGas _ hexcess
      obtain ⟨r, hcalc, hnext⟩ := ends_bind.mp h
      cases r with
      | error defect => exact nomatch (ends_throw.mp hnext)
      | ok e =>
        rw [next_ok] at hnext
        dsimp only at hnext
        split at hnext
        · exact nomatch (ends_pure.mp hnext)
        · split at hnext
          · exact nomatch (ends_pure.mp hnext)
          · split at hnext
            · exact nomatch (ends_pure.mp hnext)
            · rename_i heq
              right
              refine ⟨fuel, e, ?_, hcalc⟩
              rw [hexcess, not_not.mp heq]

include hschedule in
theorem excess_step {parent header : Header} (h : Accepted com parent header) :
    excess header ≤ excess parent + growth com (com.toHardFork header) (used parent) := by
  obtain hzero | ⟨fuel, e, he, hcalc⟩ := h.excess
  · rw [hzero]
    exact Nat.zero_le _
  · have hle := calcExcess_le hschedule hcalc
    unfold excess
    rw [he]
    exact hle

include hschedule in
theorem chain_excess_le (parent : Header) (headers : List Header)
    (h : List.IsChain (Accepted com) (parent :: headers)) :
    excess (headers.getLastD parent) ≤ excess parent + grown com parent headers := by
  induction headers generalizing parent with
  | nil => exact Nat.le_refl _
  | cons header headers ih =>
    obtain ⟨haccepted, hrest⟩ := List.isChain_cons_cons.mp h
    have hstep := excess_step hschedule haccepted
    have hlast := ih header hrest
    rw [List.getLastD_cons, grown]
    omega

end

/-- The numbers of a header and of the schedule fit, when the excess is up to `bound`. -/
structure HeaderFits (com : CommonRef) (fork : HardFork) (bound : Nat) (header : Header) :
    Prop where
  sum : bound + used header < 2 ^ 64
  product : used header * (maximum com fork - target com fork) < 2 ^ 64
  max_pos : Osaka ≤ fork → 0 < maximum com fork
  baseFee : Osaka ≤ fork → 2 ^ 13 * baseFee header < 2 ^ 256
  price : Osaka ≤ fork → InRange 1 bound (fraction com fork) ∧
    2 ^ 17 * blobFee com fork bound < 2 ^ 256

theorem HeaderFits.excessFits {com : CommonRef} {fork : HardFork} {bound : Nat} {header : Header}
    (hschedule : ScheduleFits com) (h : HeaderFits com fork bound header)
    (hle : excess header ≤ bound) : ExcessFits com fork header where
  target_le := (hschedule fork).1
  target := Nat.lt_of_le_of_lt (Nat.mul_le_mul_right _ (hschedule fork).1) (hschedule fork).2
  sum := Nat.lt_of_le_of_lt (Nat.add_le_add_right hle _) h.sum
  product := h.product
  max_pos := h.max_pos
  baseFee := h.baseFee
  price hfork := by
    obtain ⟨hrange, hfee⟩ := h.price hfork
    have hmono : blobFee com fork (excess header) ≤ blobFee com fork bound :=
      Nat.div_le_div_right (taylorSum_mono hle)
    exact ⟨hrange.mono hle, Nat.lt_of_le_of_lt (Nat.mul_le_mul_left _ hmono) hfee⟩

/-- In the range of EIP-4844, the price of blob gas is the integer of the EIP, its loop ends
after as many turns as there are terms, and none of its operations wraps. The excess along a
chain of accepted headers is up to what their parents can have added; while this is in the
range, so is the excess, and the excess for a next header is that of the EIP. -/
theorem blobGas_inRange : (∀ (factor : UInt256) (excess fraction : UInt64), 0 < fraction.toNat →
      InRange factor.toNat excess.toNat fraction.toNat →
      (∀ fuel > taylorLength factor.toNat excess.toNat fraction.toNat,
        fakeExponential fuel factor (u256 excess) (u256 fraction) =
          pure (word (fakeExp factor.toNat excess.toNat fraction.toNat))) ∧
      ∀ i < taylorLength factor.toNat excess.toNat fraction.toNat,
        TurnFits factor.toNat excess.toNat fraction.toNat i ∧
        ∀ fuel, fakeExponentialLoop (u256 excess) (u256 fraction) (fuel + i) 1 0
            (factor * u256 fraction) =
          fakeExponentialLoop (u256 excess) (u256 fraction) fuel (word (i + 1))
            (word (∑ j ∈ Finset.range i, taylor factor.toNat excess.toNat fraction.toNat j))
            (word (taylor factor.toNat excess.toNat fraction.toNat i))) ∧
    ∀ com parent headers, ScheduleFits com → excess parent = 0 →
      List.IsChain (Accepted com) (parent :: headers) →
      let header := headers.getLastD parent
      let bound := grown com parent headers
      excess header ≤ bound ∧ ∀ fork,
        (InRange 1 bound (fraction com fork) → InRange 1 (excess header) (fraction com fork)) ∧
        (HeaderFits com fork bound header → ExcessFits com fork header ∧
          eipExcess com fork header < 2 ^ 64 ∧
          ∀ fuel > taylorLength 1 (excess header) (fraction com fork),
            calcExcessBlobGas com fork fuel header =
              pure (UInt64.ofNat (eipExcess com fork header))) := by
  constructor
  · intro factor excess fraction hpos hrange
    have hword := word_eq factor
    have hend (fuel : Nat) (hfuel : taylorLength factor.toNat excess.toNat fraction.toNat < fuel) :=
      fakeExponential_word hpos hrange excess.toNat_lt fraction.toNat_lt hfuel
    have hrun := loop_run hpos hrange excess.toNat_lt fraction.toNat_lt
    rw [hword] at hend hrun
    refine ⟨hend, fun i hi => ⟨?_, ?_⟩⟩
    · exact turnFits hpos hrange excess.toNat_lt fraction.toNat_lt hi
    · exact fun fuel => hrun fuel i (Nat.le_of_lt hi)
  · intro com parent headers hschedule hzero hchain
    have hle := chain_excess_le hschedule parent headers hchain
    rw [hzero, Nat.zero_add] at hle
    refine ⟨hle, fun fork => ⟨fun hrange => hrange.mono hle, fun hfits => ?_⟩⟩
    have hexcess := hfits.excessFits hschedule hle
    exact ⟨hexcess, (calcExcessBlobGas_spec hexcess (Nat.lt_succ_self _)).1,
      fun fuel hfuel => (calcExcessBlobGas_spec hexcess hfuel).2⟩

/-! ### A chain that leaves the range -/

/-- The schedule of Cancun for every header. -/
def cancunRules : CommonRef where
  cancunTime := some 0
  toHardFork _ := Cancun
  blobSchedule _ := { target := 3, max := 6, baseFeeUpdateFraction := 3338477 }

/-- The `n`-th block after a block without excess, when all blocks are full of blobs. -/
def fullBlock (n : Nat) : Header where
  number := UInt64.ofNat n
  gasLimit := 30000000
  gasUsed := 21000
  timestamp := UInt64.ofNat (12 * n)
  extraData := []
  blobGasUsed := some (6 * 2 ^ 17)
  excessBlobGas := some (UInt64.ofNat (3 * 2 ^ 17 * n))

def blobTx : Executor.Transaction where
  txType := .TxEip4844
  nonce := 0
  gasLimit := 21000
  recipient := some (Vector.replicate 20 0)
  versionedHashes := List.replicate 6 (Vector.replicate 32 1)
  blobs_of_type := fun _ => rfl

def fullBlocks : Nat → Nat → List Header
  | _, 0 => []
  | n, len + 1 => fullBlock (n + 1) :: fullBlocks (n + 1) len

theorem fullBlock_accepted {n : Nat} (hn : n < 2 ^ 40) :
    Accepted cancunRules (fullBlock n) (fullBlock (n + 1)) := by
  have hexcess : excess (fullBlock n) = 3 * 2 ^ 17 * n := ofNat_toNat_of_lt (by omega)
  have hused : used (fullBlock n) = 6 * 2 ^ 17 := rfl
  have htarget : target cancunRules Cancun = 3 := rfl
  have hmax : maximum cancunRules Cancun = 6 := rfl
  have hosaka : ¬ Osaka ≤ Cancun := by decide
  have hfits : ExcessFits cancunRules Cancun (fullBlock n) := {
    target_le := by decide
    target := by decide
    sum := by rw [hexcess]; omega
    product := by rw [hused]; decide
    max_pos := fun h => absurd h hosaka
    baseFee := fun h => absurd h hosaka
    price := fun h => absurd h hosaka }
  have hnext : eipExcess cancunRules Cancun (fullBlock n) = 3 * 2 ^ 17 * (n + 1) := by
    unfold eipExcess
    rw [htarget, if_neg (by omega), if_neg (fun h => hosaka h.1)]
    omega
  have hcalc := (calcExcessBlobGas_spec hfits (Nat.lt_succ_self _)).2
  rw [hnext] at hcalc
  refine ⟨(taylorLength 1 (excess (fullBlock n)) (fraction cancunRules Cancun)).succ,
    [blobTx], ?_⟩
  have hused' : ¬ blobGasUsedBy [blobTx] > getMaxBlobGasPerBlock cancunRules Cancun := by
    decide +kernel
  have hsame : ¬ (6 * 2 ^ 17 : UInt64) ≠ blobGasUsedBy [blobTx] := by decide +kernel
  have hexcess' : ¬ UInt64.ofNat (3 * 2 ^ 17 * (n + 1)) ≠ UInt64.ofNat (3 * 2 ^ 17 * (n + 1)) :=
    fun h => h rfl
  show Ends (calcExcessBlobGas cancunRules Cancun _ (fullBlock n) >>= fun e =>
    if blobGasUsedBy [blobTx] > getMaxBlobGasPerBlock cancunRules Cancun then _
    else if (6 * 2 ^ 17 : UInt64) ≠ blobGasUsedBy [blobTx] then _
    else if UInt64.ofNat (3 * 2 ^ 17 * (n + 1)) ≠ e then _ else _) _
  rw [hcalc, pure_bind, if_neg hexcess']
  exact ends_pure.mpr rfl

theorem fullBlocks_chain {n len : Nat} (h : n + len < 2 ^ 40) :
    List.IsChain (Accepted cancunRules) (fullBlock n :: fullBlocks n len) := by
  induction len generalizing n with
  | zero => exact List.isChain_singleton _
  | succ len ih =>
    exact List.isChain_cons_cons.mpr ⟨fullBlock_accepted (by omega), ih (by omega)⟩

/-- After 2000 full blocks of Cancun, the excess is outside of the range. -/
theorem fullBlocks_leave_range : excess (fullBlock 0) = 0 ∧
      List.IsChain (Accepted cancunRules) (fullBlock 0 :: fullBlocks 0 2000) ∧
      ¬ InRange 1 (excess ((fullBlocks 0 2000).getLastD (fullBlock 0)))
        (fraction cancunRules Cancun) := by
  refine ⟨rfl, fullBlocks_chain (by decide), fun hrange => ?_⟩
  have hproduct := hrange.product 70
  exact absurd hproduct (by decide +kernel)

end Nimbus.Spec.BlobGas
