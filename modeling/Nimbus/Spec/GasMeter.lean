import Nimbus.ForStd.Meets
import Nimbus.ForStd.Potential
import Nimbus.Native.RunComputation

/-!
# The operations of the gas meter

What each operation of the gas meter does when the sums it forms stay in range: one rule for
each, in the form in which a handler that calls it is verified.
-/

namespace Nimbus.Spec.Evm

open Native Native.Evm
open EVMFork

section
variable {s : Machine} {R : Fault → Machine → Prop}

theorem getGasMeter_meets {Q : GasMeter → Machine → Prop} (h : Q s.gasMeter s) :
    Meets getGasMeter s Q R := h

theorem setGasMeter_meets {gasMeter : GasMeter} {Q : Unit → Machine → Prop}
    (h : Q () { s with gasMeter := gasMeter }) : Meets (setGasMeter gasMeter) s Q R := h

theorem add_meets {a b : Nat} {Q : Nat → Machine → Prop} (hle : a + b ≤ GasInt.high)
    (h : Q (a + b) s) : Meets (add a b) s Q R := by
  unfold add
  rw [if_pos hle]
  exact h

theorem sub_meets {a b : Nat} {Q : Nat → Machine → Prop} (hle : b ≤ a)
    (h : Q (a - b) s) : Meets (sub a b) s Q R := by
  unfold sub
  rw [if_pos hle]
  exact h

theorem doAssert_meets {p : Bool} {Q : Unit → Machine → Prop} (hp : p = true) (h : Q () s) :
    Meets (doAssert p) s Q R := by
  unfold doAssert
  rw [if_pos hp]
  exact h

variable {Q : Unit → Machine → Prop} {amount : Nat}

theorem onlyIf_meets {p : Prop} [Decidable p] {x : EvmM Unit} (h : p → Meets x s Q R)
    (hnot : ¬ p → Q () s) : Meets (onlyIf p x) s Q R := by
  unfold onlyIf
  split
  · rename_i hp
    exact h hp
  · rename_i hp
    exact hnot hp

theorem consumeGas_meets
    (hle : s.gasMeter.executionGasLeft + s.gasMeter.executionGasUsed ≤ GasInt.high) (hR : R .evm s)
    (hQ : amount ≤ s.gasMeter.executionGasLeft → Q () { s with gasMeter := { s.gasMeter with
      executionGasUsed := s.gasMeter.executionGasUsed + amount
      executionGasLeft := s.gasMeter.executionGasLeft - amount } }) :
    Meets (consumeGas amount) s Q R := by
  apply Meets.bind
  apply getGasMeter_meets
  split
  · exact Meets.throw hR
  · apply Meets.bind
    apply add_meets (by omega)
    apply Meets.bind
    apply sub_meets (by omega)
    apply setGasMeter_meets
    exact hQ (by omega)

theorem returnGas_meets (hle : s.gasMeter.executionGasLeft + amount ≤ GasInt.high)
    (hQ : Q () { s with gasMeter := { s.gasMeter with
      executionGasLeft := s.gasMeter.executionGasLeft + amount } }) :
    Meets (returnGas amount) s Q R := by
  apply Meets.bind
  apply getGasMeter_meets
  apply Meets.bind
  apply add_meets hle
  exact setGasMeter_meets hQ

theorem refundGas_meets {amount : Int} (hQ : Q () { s with gasMeter := { s.gasMeter with
      refundCounter := s.gasMeter.refundCounter + amount } }) :
    Meets (refundGas amount) s Q R := hQ

/-- State gas comes from the reservoir first, and spills into execution gas. -/
theorem chargeStateGas_meets
    (hle : s.gasMeter.stateGasLeft + s.gasMeter.executionGasLeft ≤ GasInt.high)
    (hspill : s.gasMeter.executionGasLeft + s.gasMeter.stateGasSpilled ≤ GasInt.high)
    (hR : R .evm s) (hQ : ∀ spill, amount ≤ s.gasMeter.stateGasLeft + spill →
      spill ≤ s.gasMeter.executionGasLeft → spill ≤ amount →
      Q () { s with gasMeter := { s.gasMeter with
        stateGasLeft := s.gasMeter.stateGasLeft - (amount - spill)
        executionGasLeft := s.gasMeter.executionGasLeft - spill
        stateGasSpilled := s.gasMeter.stateGasSpilled + spill
        stateGasUsed := s.gasMeter.stateGasUsed + amount } }) :
    Meets (chargeStateGas amount) s Q R := by
  apply Meets.bind
  apply getGasMeter_meets
  split
  · rename_i henough
    apply Meets.bind
    apply sub_meets henough
    exact setGasMeter_meets (hQ 0 (by omega) (by omega) (by omega))
  · apply Meets.bind
    apply add_meets hle
    split
    · have hrest := hQ (amount - s.gasMeter.stateGasLeft) (by omega) (by omega) (by omega)
      apply Meets.bind
      apply sub_meets (by omega)
      apply Meets.bind
      apply sub_meets (by omega)
      apply Meets.bind
      apply add_meets (by omega)
      apply setGasMeter_meets
      rw [show s.gasMeter.stateGasLeft - (amount - (amount - s.gasMeter.stateGasLeft)) = 0 by omega]
        at hrest
      exact hrest
    · exact Meets.throw hR

theorem returnStateGas_meets (hle : s.gasMeter.stateGasLeft + amount ≤ GasInt.high)
    (hQ : Q () { s with gasMeter := { s.gasMeter with
      stateGasLeft := s.gasMeter.stateGasLeft + amount } }) :
    Meets (returnStateGas amount) s Q R := by
  apply Meets.bind
  apply getGasMeter_meets
  apply Meets.bind
  apply add_meets hle
  exact setGasMeter_meets hQ

theorem escrowSubcallExecutionGas_meets (hle : amount ≤ s.gasMeter.executionGasUsed)
    (hQ : Q () { s with gasMeter := { s.gasMeter with
      executionGasUsed := s.gasMeter.executionGasUsed - amount } }) :
    Meets (escrowSubcallExecutionGas amount) s Q R := by
  apply Meets.bind
  apply getGasMeter_meets
  apply Meets.bind
  apply sub_meets hle
  exact setGasMeter_meets hQ

theorem appendExecutionGasUsed_meets (hle : s.gasMeter.executionGasUsed + amount ≤ GasInt.high)
    (hQ : Q () { s with gasMeter := { s.gasMeter with
      executionGasUsed := s.gasMeter.executionGasUsed + amount } }) :
    Meets (appendExecutionGasUsed amount) s Q R := by
  apply Meets.bind
  apply getGasMeter_meets
  apply Meets.bind
  apply add_meets hle
  exact setGasMeter_meets hQ

theorem appendStateGasUsed_meets {amount : Int}
    (hQ : Q () { s with gasMeter := { s.gasMeter with
      stateGasUsed := s.gasMeter.stateGasUsed + amount } }) :
    Meets (appendStateGasUsed amount) s Q R := hQ

theorem checkStateGas_meets {cost : Nat}
    (hle : s.gasMeter.stateGasLeft + s.gasMeter.executionGasLeft ≤ GasInt.high)
    (hcost : cost ≤ s.gasMeter.executionGasLeft) (hR : R .evm s) (hQ : Q () s) :
    Meets (checkStateGas cost amount) s Q R := by
  apply Meets.bind
  apply getGasMeter_meets
  apply Meets.bind
  apply add_meets hle
  apply Meets.bind
  apply sub_meets (by omega)
  split
  · exact Meets.throw hR
  · exact Meets.pure hQ

theorem checkGas_meets (hR : R .evm s) (hQ : Q () s) : Meets (checkGas amount) s Q R := by
  apply Meets.bind
  apply getGasMeter_meets
  split
  · exact Meets.throw hR
  · exact Meets.pure hQ

theorem refillFrameStateGas_meets {reservoir : Nat}
    (hle : s.gasMeter.executionGasLeft + s.gasMeter.stateGasSpilled ≤ GasInt.high)
    (hQ : Q () { s with gasMeter := { s.gasMeter with
      executionGasLeft := s.gasMeter.executionGasLeft + s.gasMeter.stateGasSpilled
      stateGasLeft := reservoir
      stateGasSpilled := 0 } }) :
    Meets (refillFrameStateGas reservoir) s Q R := by
  apply Meets.bind
  apply getGasMeter_meets
  apply Meets.bind
  apply add_meets hle
  exact setGasMeter_meets hQ

theorem creditStateGasRefund_meets
    (hspill : s.gasMeter.executionGasLeft + s.gasMeter.stateGasSpilled ≤ GasInt.high)
    (hle : s.gasMeter.stateGasLeft + amount ≤ GasInt.high)
    (hQ : ∀ repaid, repaid ≤ amount → repaid ≤ s.gasMeter.stateGasSpilled →
      Q () { s with gasMeter := { s.gasMeter with
        executionGasLeft := s.gasMeter.executionGasLeft + repaid
        stateGasSpilled := s.gasMeter.stateGasSpilled - repaid
        stateGasLeft := s.gasMeter.stateGasLeft + (amount - repaid)
        stateGasUsed := s.gasMeter.stateGasUsed - amount } }) :
    Meets (creditStateGasRefund amount) s Q R := by
  apply Meets.bind
  apply getGasMeter_meets
  apply Meets.bind
  apply add_meets (by omega)
  apply Meets.bind
  apply sub_meets (by omega)
  apply Meets.bind
  apply sub_meets (by omega)
  apply Meets.bind
  apply add_meets (by omega)
  exact setGasMeter_meets (hQ _ (by omega) (by omega))

/-- After a repayment, either the reservoir or the spill is gone. -/
theorem repayStateGasSpill_meets
    (hle : s.gasMeter.executionGasLeft + s.gasMeter.stateGasSpilled ≤ GasInt.high)
    (hQ : ∀ repaid, repaid ≤ s.gasMeter.stateGasLeft → repaid ≤ s.gasMeter.stateGasSpilled →
      Q () { s with gasMeter := { s.gasMeter with
        executionGasLeft := s.gasMeter.executionGasLeft + repaid
        stateGasLeft := s.gasMeter.stateGasLeft - repaid
        stateGasSpilled := s.gasMeter.stateGasSpilled - repaid } }) :
    Meets repayStateGasSpill s Q R := by
  apply Meets.bind
  apply getGasMeter_meets
  apply Meets.bind
  apply add_meets (by omega)
  apply Meets.bind
  apply sub_meets (by omega)
  apply Meets.bind
  apply sub_meets (by omega)
  apply Meets.bind
  apply setGasMeter_meets
  apply doAssert_meets
  · simp only [Bool.or_eq_true, beq_iff_eq]
    omega
  · exact hQ _ (by omega) (by omega)

end

end Nimbus.Spec.Evm
