import Nimbus.Spec.GasStorage

/-!
# Gas across the frames of a call tree

A frame that starts a child is suspended: the gas and the reservoir it hands over, and the state
gas it would be credited if the child failed, still count in its budget. The child runs on a
budget of its own, and what comes back from it fits into the budget of the caller whatever its
outcome.
-/

namespace Nimbus.Spec.Evm

open Native Native.Evm
open Aristo (UInt256)
open EVMFork

section
variable {fork : EVMFork} {b : Budget} {s : Machine} {α : Type}

/-! ### One frame -/

theorem attempt_meets {x : EvmM α} (h : Stays fork b x s) (R : Fault → Machine → Prop) :
    Meets (attempt x) s (fun _ => Within fork b) R := by
  unfold Stays Meets at h
  unfold attempt Meets
  cases hx : x s with
  | ok a s' =>
    simp only [hx] at h ⊢
    exact h
  | error e s' =>
    simp only [hx] at h ⊢
    obtain ⟨rfl, hwithin⟩ := h
    exact hwithin

variable {code : EvmM Ending}

theorem executeOpcodes_meets (h : Stays fork b code s)
    (R : Fault → Machine → Prop) : Meets (executeOpcodes code) s (fun _ => Within fork b) R := by
  unfold Stays Meets at h
  unfold executeOpcodes Meets
  cases hx : code s with
  | ok ending s' =>
    simp only [hx] at h ⊢
    cases ending with
    | success output => exact h
    | revert => exact h
  | error e s' =>
    simp only [hx] at h ⊢
    obtain ⟨rfl, hwithin⟩ := h
    exact hwithin

section

variable (h : Within fork b s)
include h

theorem writeContract_meets (output : List UInt8)
    (R : Fault → Machine → Prop) :
    Meets (writeContract fork output) s (fun _ => Within fork b) R := by
  unfold writeContract
  dsimp only
  split
  · exact h
  split
  · exact h
  split
  · split
    · exact h
    · apply (attempt_meets (consumeGas_stays h _) R).andThen
      · intro hashed s₁ h₁
        split
        · exact h₁
        · apply (attempt_meets (chargeStateGas_stays h₁ _) R).andThen
          · intro deposited s₂ h₂
            split
            · exact h₂
            · exact h₂
          · exact fun _ _ hfail => hfail
      · exact fun _ _ hfail => hfail
  · apply (attempt_meets (consumeGas_stays h _) R).andThen
    · intro paid s₁ h₁
      split
      · exact h₁
      split
      · exact h₁
      · exact h₁
    · exact fun _ _ hfail => hfail

theorem afterExec_meets (msg : Message) (res : Except Error (List UInt8))
    (R : Fault → Machine → Prop) : Meets (afterExec fork msg res) s (fun _ => Within fork b) R := by
  unfold afterExec
  cases res with
  | error e => exact h
  | ok output =>
    dsimp only
    split
    · exact writeContract_meets h output R
    · exact h

theorem beforeExec_meets (msg : Message) (R : Fault → Machine → Prop) :
    Meets (beforeExec msg) s (fun _ => Within fork b) R := by
  apply onlyIf_meets
  · intro _
    apply Meets.modify
    have hcreated : created (s.storage.clearStorage msg.currentTarget) ≤ created s.storage :=
      slotPotential_clearStorage (by decide) s.storage msg.currentTarget
    have hcleared : cleared (s.storage.clearStorage msg.currentTarget) ≤ cleared s.storage :=
      slotPotential_clearStorage (by decide) s.storage msg.currentTarget
    constructor
    · exact h.execution
    · have htotal := h.total
      have hmul := Nat.mul_le_mul_left (slotStateGas fork) hcreated
      dsimp only
      omega
    · have hrefund := h.refund
      have hmul : (clearRefund fork * cleared (s.storage.clearStorage msg.currentTarget) : Int)
          ≤ clearRefund fork * cleared s.storage := by
        exact_mod_cast Nat.mul_le_mul_left (clearRefund fork) hcleared
      dsimp only
      omega
    · exact h.ended
  · exact fun _ => h

/-- How a frame that was started in `s` on the budget `b` leaves `s'`. -/
structure FrameEnds (fork : EVMFork) (b : Budget) (reservoir : Nat) (s : Machine)
    (c : Computation) (s' : Machine) : Prop where
  gasMeter : s'.gasMeter = s.gasMeter
  ended : ∀ c ∈ s'.ended, Conserves c
  used : c.gasMeter.executionGasLeft + c.gasMeter.executionGasUsed + c.gasMeter.stateGasSpilled
    ≤ b.gas
  refund : b.refund ≤ c.gasMeter.refundCounter
  success : c.error = none → Within fork b { s' with gasMeter := c.gasMeter }
  failure : c.error ≠ none → s'.storage = s.storage ∧ c.gasMeter.stateGasLeft = reservoir
    ∧ c.gasMeter.stateGasSpilled = 0

theorem Within.refund_le : b.refund ≤ s.gasMeter.refundCounter := by
  have hrefund := h.refund
  have hpos : (0 : Int) ≤ clearRefund fork * cleared s.storage :=
    Int.mul_nonneg (Int.natCast_nonneg _) (Int.natCast_nonneg _)
  omega

end

variable {msg : Message}

theorem frameEnds_meets {error : Option Error} (hgas : b.gas ≤ msg.gas)
    {s₁ : Machine} (hused : s₁.gasMeter.executionGasLeft + s₁.gasMeter.executionGasUsed
      + s₁.gasMeter.stateGasSpilled ≤ b.gas)
    (hrefund : b.refund ≤ s₁.gasMeter.refundCounter) (hended : ∀ c ∈ s₁.ended, Conserves c)
    (hsuccess : error = none → Within fork b s₁) (hfailure : error ≠ none → s₁.storage = s.storage
      ∧ s₁.gasMeter.stateGasLeft = msg.stateGasReservoir ∧ s₁.gasMeter.stateGasSpilled = 0)
    (R : Fault → Machine → Prop) :
    Meets (do
        let gasMeter ← getGasMeter
        let _ ← sub msg.gas gasMeter.executionGasLeft
        let c : Computation := ⟨msg, gasMeter, error⟩
        modify fun s' => { s' with gasMeter := s.gasMeter, ended := c :: s'.ended }
        return c) s₁
      (fun c s' => c.msg = msg ∧ Conserves c
        ∧ FrameEnds fork b msg.stateGasReservoir s c s') R := by
  have hconserves : Conserves ⟨msg, s₁.gasMeter, error⟩ := by
    constructor
    · dsimp only; omega
    · intro hsome
      exact (hfailure (Option.isSome_iff_ne_none.mp hsome)).2.1
  have hall : ∀ c ∈ (⟨msg, s₁.gasMeter, error⟩ : Computation) :: s₁.ended, Conserves c := by
    intro c hmem
    cases List.mem_cons.mp hmem with
    | inl heq => rw [heq]; exact hconserves
    | inr hmem => exact hended c hmem
  apply Meets.bind
  apply getGasMeter_meets
  apply Meets.bind
  apply sub_meets (by omega)
  apply Meets.bind
  apply Meets.modify
  apply Meets.pure
  refine ⟨rfl, hconserves, ⟨rfl, hall, hused, hrefund, ?_, hfailure⟩⟩
  intro hnone
  have hwithin := hsuccess hnone
  exact ⟨hwithin.execution, hwithin.total, hwithin.refund, hall⟩

/-- Whatever its outcome, a frame ends within its budget, and hands back its reservoir if it
fails. -/
theorem execCallOrCreate_meets {gasMeter : GasMeter}
    (hgas : b.gas ≤ msg.gas) (h : Within fork b { s with gasMeter := gasMeter })
    (hcode : ∀ s', Within fork b s' → Stays fork b code s') (R : Fault → Machine → Prop) :
    Meets (execCallOrCreate fork msg gasMeter code) s
      (fun c s' => c.msg = msg ∧ Conserves c
        ∧ FrameEnds fork b msg.stateGasReservoir s c s') R := by
  apply Meets.bind
  apply Meets.get
  apply Meets.bind
  apply setGasMeter_meets
  apply (beforeExec_meets h msg R).andThen _ fun _ _ hfail => hfail
  intro _ s₁ h₁
  apply (executeOpcodes_meets (hcode s₁ h₁) R).andThen _ fun _ _ hfail => hfail
  intro res s₂ h₂
  apply (afterExec_meets h₂ msg res R).andThen _ fun _ _ hfail => hfail
  intro error s₃ h₃
  have hexec := h₃.execution
  have hhigh := b.gas_le
  apply Meets.bind
  apply onlyIf_meets
  · -- the savepoint is rolled back
    intro hsome
    have hne := Option.isSome_iff_ne_none.mp hsome
    apply Meets.bind
    apply refillFrameStateGas_meets (by omega)
    apply Meets.modify
    apply frameEnds_meets hgas
    · dsimp only; omega
    · exact h₃.refund_le
    · exact h₃.ended
    · exact fun hnone => absurd hnone hne
    · exact fun _ => ⟨rfl, rfl, rfl⟩
  · intro hnone
    apply frameEnds_meets hgas hexec h₃.refund_le h₃.ended
    · exact fun _ => h₃
    · intro hne
      exact absurd (Option.isSome_iff_ne_none.mpr hne) hnone

/-! ### A suspended caller -/

/-- The caller has handed over `gas` and `reservoir`, and may still be credited `credit`. -/
structure Suspended (fork : EVMFork) (b : Budget) (gas reservoir credit : Nat) (s : Machine) :
    Prop where
  execution : s.gasMeter.executionGasLeft + s.gasMeter.executionGasUsed
    + s.gasMeter.stateGasSpilled + gas ≤ b.gas
  total : s.gasMeter.executionGasLeft + s.gasMeter.stateGasLeft + gas + reservoir + credit
    + slotStateGas fork * created s.storage ≤ b.total
  refund : b.refund + clearRefund fork * cleared s.storage ≤ s.gasMeter.refundCounter
  ended : ∀ c ∈ s.ended, Conserves c

variable {gas reservoir credit : Nat}

/-- What the child may use. -/
noncomputable def Suspended.child (h : Suspended fork b gas reservoir credit s) : Budget where
  gas := gas
  total := gas + reservoir + slotStateGas fork * created s.storage
  refund := -(clearRefund fork * cleared s.storage)
  gas_le := by
    have hexec := h.execution
    have hhigh := b.gas_le
    omega
  total_le := by
    have htotal := h.total
    have htop := b.total_le
    omega

theorem Suspended.init (h : Suspended fork b gas reservoir credit s) :
    Within fork h.child { s with gasMeter := GasMeter.init gas reservoir } := by
  constructor
  · show gas + 0 + 0 ≤ gas
    omega
  · exact Nat.le_refl _
  · show -(clearRefund fork * cleared s.storage : Int) + clearRefund fork * cleared s.storage ≤ 0
    omega
  · exact h.ended

/-- The reservoir that a child is given is taken from the caller. -/
theorem Suspended.handOver (h : Suspended fork b gas 0 credit s) :
    Suspended fork b gas s.gasMeter.stateGasLeft credit
      { s with gasMeter := { s.gasMeter with stateGasLeft := 0 } } := by
  have htotal := h.total
  constructor
  · exact h.execution
  · dsimp only; omega
  · exact h.refund
  · exact h.ended

variable {c : Computation} {s' : Machine}

section

variable (h : Suspended fork b gas reservoir credit s)
include h

section

variable (hc : FrameEnds fork h.child reservoir s c s')
include hc

variable {Q : Unit → Machine → Prop} {R : Fault → Machine → Prop}

theorem returnChildGas_success (hsuccess : c.error = none)
    (hQ : Q () { s' with gasMeter := { s.gasMeter with
      executionGasLeft := s.gasMeter.executionGasLeft + c.gasMeter.executionGasLeft
      executionGasUsed := s.gasMeter.executionGasUsed + c.gasMeter.executionGasUsed } }) :
    Meets (returnChildGas c) s' Q R := by
  have hexec := h.execution
  have hhigh := b.gas_le
  have hchild := (hc.success hsuccess).execution
  have hgas : h.child.gas = gas := rfl
  unfold returnChildGas Computation.shouldBurnGas
  rw [hsuccess]
  apply Meets.bind
  apply returnGas_meets
  · rw [hc.gasMeter]
    dsimp only at hchild
    omega
  · apply appendExecutionGasUsed_meets
    · rw [hc.gasMeter]
      dsimp only at hchild ⊢
      omega
    · rw [hc.gasMeter]
      exact hQ

theorem mergeStateGas_meets (hsuccess : c.error = none) {m : Machine}
    (hmeter : m.gasMeter = { s.gasMeter with
      executionGasLeft := s.gasMeter.executionGasLeft + c.gasMeter.executionGasLeft
      executionGasUsed := s.gasMeter.executionGasUsed + c.gasMeter.executionGasUsed })
    (hQ : ∀ gasMeter : GasMeter,
      gasMeter.executionGasLeft + gasMeter.executionGasUsed + gasMeter.stateGasSpilled ≤ b.gas →
      gasMeter.executionGasLeft + gasMeter.stateGasLeft
        ≤ s.gasMeter.executionGasLeft + c.gasMeter.executionGasLeft
          + s.gasMeter.stateGasLeft + c.gasMeter.stateGasLeft →
      gasMeter.refundCounter = s.gasMeter.refundCounter →
      Q () { m with gasMeter := gasMeter }) :
    Meets (mergeStateGas c) m Q R := by
  have hexec := h.execution
  have htotal := h.total
  have hhigh := b.gas_le
  have htop := b.total_le
  have hchild := (hc.success hsuccess).execution
  have hchildTotal := (hc.success hsuccess).total
  have hgas : h.child.gas = gas := rfl
  have hchildBudget : h.child.total = gas + reservoir + slotStateGas fork * created s.storage := rfl
  dsimp only at hchild hchildTotal
  apply Meets.bind
  apply returnStateGas_meets
  · rw [hmeter]
    dsimp only
    omega
  apply Meets.bind
  apply appendStateGasUsed_meets
  apply Meets.bind
  apply getGasMeter_meets
  rw [hmeter]
  apply Meets.bind
  apply add_meets
  · dsimp only
    omega
  apply Meets.bind
  apply setGasMeter_meets
  apply repayStateGasSpill_meets
  · dsimp only
    omega
  · intro repaid hleft hspilled
    dsimp only at hleft hspilled ⊢
    apply hQ
    · dsimp only; omega
    · dsimp only; omega
    · rfl

/-- A child that has failed gives its execution gas back, or has burned it. -/
theorem returnChildGas_failure
    (hQ : ∀ returned used, returned + used ≤ gas → Q () { s' with gasMeter := { s.gasMeter with
      executionGasLeft := s.gasMeter.executionGasLeft + returned
      executionGasUsed := s.gasMeter.executionGasUsed + used } }) :
    Meets (returnChildGas c) s' Q R := by
  have hexec := h.execution
  have hhigh := b.gas_le
  have hused := hc.used
  have hgas : h.child.gas = gas := rfl
  unfold returnChildGas
  split
  · apply Meets.bind
    apply add_meets (by omega)
    apply appendExecutionGasUsed_meets
    · rw [hc.gasMeter]
      omega
    · rw [hc.gasMeter]
      exact hQ 0 _ (by omega)
  · apply Meets.bind
    apply returnGas_meets
    · rw [hc.gasMeter]
      omega
    · apply appendExecutionGasUsed_meets
      · rw [hc.gasMeter]
        dsimp only
        omega
      · rw [hc.gasMeter]
        exact hQ _ _ (by omega)

/-- What comes back from a child fits into the budget of the caller. -/
theorem mergeChild_meets {newAccountCharged : Bool}
    (hcredit : newAccountCharged → credit = CREATE_ACCOUNT_STATE_GAS) (R : Fault → Machine → Prop) :
    Meets (mergeChild fork c newAccountCharged) s' (fun _ => Within fork b) R := by
  have hexec := h.execution
  have htotal := h.total
  have hrefund := h.refund
  have hhigh := b.gas_le
  have htop := b.total_le
  have hgas : h.child.gas = gas := rfl
  have hchildBudget : h.child.total = gas + reservoir + slotStateGas fork * created s.storage := rfl
  have hchildRefund : h.child.refund = -(clearRefund fork * cleared s.storage) := rfl
  by_cases hsuccess : c.error = none
  · have hchild := (hc.success hsuccess).execution
    have hchildTotal := (hc.success hsuccess).total
    have hmergedRefund := (hc.success hsuccess).refund
    dsimp only at hchild hchildTotal hmergedRefund
    apply Meets.bind
    apply returnChildGas_success h hc hsuccess
    have hisSuccess : c.isSuccess = true := by
      unfold Computation.isSuccess
      rw [hsuccess]
      rfl
    rw [if_pos hisSuccess]
    apply Meets.bind
    apply onlyIf_meets
    · intro _
      apply mergeStateGas_meets h hc hsuccess rfl
      intro gasMeter hmeterExec hmeterTotal hmeterRefund
      apply refundGas_meets
      constructor
      · exact hmeterExec
      · dsimp only; omega
      · dsimp only; omega
      · exact hc.ended
    · intro _
      apply refundGas_meets
      constructor
      · dsimp only; omega
      · dsimp only; omega
      · dsimp only; omega
      · exact hc.ended
  · obtain ⟨hstorage, hstateGas, hspilled⟩ := hc.failure hsuccess
    have hisSuccess : ¬ c.isSuccess = true := by
      unfold Computation.isSuccess
      rw [Option.isNone_iff_eq_none]
      exact hsuccess
    apply Meets.bind
    apply returnChildGas_failure h hc
    intro returned used hgasBack
    have hstorageTotal : created s'.storage = created s.storage := by rw [hstorage]
    rw [if_neg hisSuccess]
    split
    · apply Meets.bind
      apply returnStateGas_meets
      · dsimp only; omega
      apply onlyIf_meets
      · intro hcharged
        have hamount := hcredit hcharged
        apply creditStateGasRefund_meets
        · dsimp only; omega
        · dsimp only; omega
        · intro repaid hle hspilled
          dsimp only at hspilled
          constructor
          · dsimp only; omega
          · dsimp only; rw [hstorageTotal]; omega
          · dsimp only; rw [hstorage]; exact hrefund
          · exact hc.ended
      · intro _
        constructor
        · dsimp only; omega
        · dsimp only; rw [hstorageTotal]; omega
        · dsimp only; rw [hstorage]; exact hrefund
        · exact hc.ended
    · apply Meets.pure
      constructor
      · dsimp only; omega
      · dsimp only; rw [hstorageTotal]; omega
      · dsimp only; rw [hstorage]; exact hrefund
      · exact hc.ended

end

theorem runChild_meets (hgas : msg.gas = gas) (hreservoir : msg.stateGasReservoir = reservoir)
    {newAccountCharged : Bool} (hcredit : newAccountCharged → credit = CREATE_ACCOUNT_STATE_GAS)
    (hcode : ∀ b s, Within fork b s → Stays fork b code s) (R : Fault → Machine → Prop) :
    Meets (do
        let c ← execCallOrCreate fork msg (GasMeter.init msg.gas msg.stateGasReservoir) code
        mergeChild fork c newAccountCharged) s (fun _ => Within fork b) R := by
  have hframe : Meets (execCallOrCreate fork msg
      (GasMeter.init msg.gas msg.stateGasReservoir) code) s
      (fun c s' => c.msg = msg ∧ Conserves c
        ∧ FrameEnds fork h.child msg.stateGasReservoir s c s') R := by
    apply execCallOrCreate_meets
    · rw [hgas]
      exact Nat.le_refl _
    · rw [hgas, hreservoir]
      exact h.init
    · exact hcode h.child
  apply hframe.andThen
  · intro c s' hc
    rw [hreservoir] at hc
    exact mergeChild_meets h hc.2.2 hcredit R
  · exact fun _ _ hfail => hfail

end

theorem failedChild_meets (h : Suspended fork b gas 0 credit s)
    (hgas : msg.gas = gas) (hreservoir : msg.stateGasReservoir = 0) (burnsGas : Bool)
    {newAccountCharged : Bool} (hcredit : newAccountCharged → credit = CREATE_ACCOUNT_STATE_GAS)
    (R : Fault → Machine → Prop) :
    Meets (do
        let c ← failedChild msg burnsGas
        mergeChild fork c newAccountCharged) s (fun _ => Within fork b) R := by
  apply Meets.bind
  apply Meets.bind
  apply Meets.modify
  apply Meets.pure
  have hconserves : Conserves
      ⟨msg, GasMeter.init msg.gas msg.stateGasReservoir, some ⟨burnsGas⟩⟩ :=
    ⟨Nat.le_refl _, fun _ => rfl⟩
  apply mergeChild_meets h _ hcredit
  constructor
  · rfl
  · intro c hmem
    cases List.mem_cons.mp hmem with
    | inl heq => rw [heq]; exact hconserves
    | inr hmem => exact h.ended c hmem
  · show msg.gas + 0 + 0 ≤ gas
    omega
  · show -(clearRefund fork * cleared s.storage : Int) ≤ 0
    have hpos : (0 : Int) ≤ clearRefund fork * cleared s.storage :=
      Int.mul_nonneg (Int.natCast_nonneg _) (Int.natCast_nonneg _)
    omega
  · exact nofun
  · exact fun _ => ⟨rfl, hreservoir, rfl⟩

/-! ### Calls -/

theorem cleanMemRef_le (x : UInt256) : cleanMemRef x ≤ cleanMemRefBound := by
  unfold cleanMemRef
  split <;> omega

theorem safeInt_le (x : UInt256) : safeInt x ≤ 2 ^ 31 - 1 := by
  unfold safeInt
  split <;> omega

theorem gasMemoryExpansion_le (fork : EVMFork) (currentMemSize : Nat) {memOffset memLength : Nat}
    (hoffset : memOffset ≤ 2 ^ 31 - 1) (hlength : memLength ≤ 2 ^ 31 - 1) :
    gasMemoryExpansion fork currentMemSize memOffset memLength ≤ 2 ^ 48 := by
  have hmemory : (gasFees fork).GasMemory = 3 := by
    cases fork <;> rfl
  have hwords : wordCount (memOffset + memLength) ≤ 2 ^ 27 := by
    unfold wordCount
    omega
  have hsquare := Nat.pow_le_pow_left hwords 2
  unfold gasMemoryExpansion
  dsimp only
  split
  · omega
  · rw [hmemory]
    omega

theorem memRange_le (p : LocalParams) : p.memRange.1 ≤ 2 ^ 31 - 1 ∧ p.memRange.2 ≤ 2 ^ 31 - 1 := by
  have hbound : cleanMemRefBound ≤ 2 ^ 31 - 1 := by decide
  have hinPos := cleanMemRef_le p.memInPos
  have hinLen := cleanMemRef_le p.memInLen
  have houtPos := cleanMemRef_le p.memOutPos
  have houtLen := cleanMemRef_le p.memOutLen
  unfold LocalParams.memRange
  dsimp only
  split
  · exact ⟨Nat.le_trans hinPos hbound, Nat.le_trans hinLen hbound⟩
  · exact ⟨Nat.le_trans houtPos hbound, Nat.le_trans houtLen hbound⟩

/-- The stipend of a call, which the charge for the value covers. -/
def stipend (fork : EVMFork) (p : LocalParams) : Nat :=
  if p.paysValue then (gasFees (forkToSchedule fork)).GasCallStipend else 0

theorem callFees_le (fork : EVMFork) :
    (gasFees (forkToSchedule fork)).GasCallStipend ≤ (gasFees (forkToSchedule fork)).GasCallValue
    ∧ (gasFees (forkToSchedule fork)).GasCallValue ≤ 2 ^ 20
    ∧ (gasFees (forkToSchedule fork)).GasCall ≤ 2 ^ 20
    ∧ (gasFees (forkToSchedule fork)).GasNewAccount ≤ 2 ^ 20 := by
  cases fork <;> decide

theorem gasCallEIP2929_le (fork : EVMFork) (isCold : Bool) :
    gasCallEIP2929 fork isCold ≤ 2 ^ 20 := by
  unfold gasCallEIP2929
  split_ifs <;> decide

theorem gasCallDelegate_le (fork : EVMFork) (delegateIsCold : Option Bool) :
    gasCallDelegate fork delegateIsCold ≤ 2 ^ 20 := by
  unfold gasCallDelegate
  cases delegateIsCold with
  | none => split_ifs <;> decide
  | some isCold => cases isCold <;> dsimp only <;> split_ifs <;> decide

theorem gasCall1_meets (h : Within fork b s) (p : LocalParams) {Q : Nat → Machine → Prop}
    (hQ : ∀ gasCost1, stipend fork p ≤ gasCost1 → gasCost1 ≤ 2 ^ 50 →
      gasCost1 ≤ s.gasMeter.executionGasLeft → Q gasCost1 s) :
    Meets (gasCall1 fork p s.gasMeter.executionGasLeft) s Q
      fun e s' => e = .evm ∧ Within fork b s' := by
  have hhigh : 2 ^ 50 ≤ GasInt.high := by decide
  have hmemory := gasMemoryExpansion_le (forkToSchedule fork) p.currentMemSize (memRange_le p).1
    (memRange_le p).2
  obtain ⟨hstipend, hvalue, hcall, hnew⟩ := callFees_le fork
  have hcold := gasCallEIP2929_le fork p.isCold
  have hvalueCost : stipend fork p
        ≤ (if p.paysValue then (gasFees (forkToSchedule fork)).GasCallValue else 0)
      ∧ (if p.paysValue then (gasFees (forkToSchedule fork)).GasCallValue else 0) ≤ 2 ^ 20 := by
    unfold stipend
    split <;> omega
  unfold gasCall1
  dsimp only
  generalize (if p.paysValue then (gasFees (forkToSchedule fork)).GasCallValue else 0) = valueCost
    at hvalueCost ⊢
  apply Meets.bind
  apply add_meets (by omega)
  apply Meets.bind
  apply add_meets (by omega)
  apply Meets.bind
  apply add_meets (by omega)
  split
  · exact Meets.throw ⟨rfl, h⟩
  · apply Meets.pure
    apply hQ
    · omega
    · omega
    · omega

theorem newAccountCost_le (fork : EVMFork) (p : LocalParams) : newAccountCost fork p ≤ 2 ^ 20 := by
  unfold newAccountCost
  split
  · exact (callFees_le fork).2.2.2
  · exact Nat.zero_le _

section

variable (h : Within fork b s)
include h

theorem gasCap_meets (p : LocalParams) {gasLeft : Nat}
    {Q : Nat → Machine → Prop} (hQ : ∀ cap, Q cap s) :
    Meets (gasCap fork p gasLeft) s Q fun e s' => e = .evm ∧ Within fork b s' := by
  unfold gasCap
  dsimp only
  split
  · split
    · exact Meets.pure (hQ _)
    · exact Meets.pure (hQ _)
  · split
    · exact Meets.throw ⟨rfl, h⟩
    · exact Meets.pure (hQ _)

theorem gasCall2_meets (p : LocalParams) {gasCost1 gasLeft : Nat}
    (hstipend : stipend fork p ≤ gasCost1) (hcost : gasCost1 ≤ 2 ^ 50)
    {Q : Nat × Nat → Machine → Prop}
    (hQ : ∀ gasCost childGasLimit, childGasLimit ≤ gasCost → Q (gasCost, childGasLimit) s) :
    Meets (gasCall2 fork p gasCost1 gasLeft) s Q fun e s' => e = .evm ∧ Within fork b s' := by
  have hhigh : 2 ^ 52 ≤ GasInt.high := by decide
  have hdelegate := gasCallDelegate_le fork p.delegateIsCold
  have hnew := newAccountCost_le fork p
  apply Meets.bind
  apply add_meets (by omega)
  split
  · exact Meets.throw ⟨rfl, h⟩
  apply Meets.bind
  apply add_meets (by omega)
  split
  · exact Meets.throw ⟨rfl, h⟩
  apply Meets.bind
  apply sub_meets (by omega)
  apply Meets.bind
  apply gasCap_meets h
  intro cap
  split
  · exact Meets.throw ⟨rfl, h⟩
  · unfold stipend at hstipend
    apply Meets.bind
    apply add_meets (by omega)
    apply Meets.pure
    apply hQ
    omega

theorem Within.suspended : Suspended fork b 0 0 0 s := by
  have hexec := h.execution
  have htotal := h.total
  constructor
  · omega
  · omega
  · exact h.refund
  · exact h.ended

/-- The charge for a new account stays available for the credit. -/
theorem chargeStateGas_suspended (amount : Nat) {Q : Unit → Machine → Prop}
    (hQ : ∀ s', Suspended fork b 0 0 amount s' → Q () s') :
    Meets (chargeStateGas amount) s Q fun e s' => e = .evm ∧ Within fork b s' := by
  have hexec := h.execution
  have htotal := h.total
  have hhigh := b.gas_le
  have htop := b.total_le
  apply chargeStateGas_meets (by omega) (by omega) ⟨rfl, h⟩
  intro spill hamount hspill hle
  apply hQ
  constructor
  · dsimp only; omega
  · dsimp only; omega
  · exact h.refund
  · exact h.ended

theorem onlyIf_suspended (charged : Bool) {x : EvmM Unit}
    {Q : Unit → Machine → Prop} {R : Fault → Machine → Prop}
    (hx : (∀ s', Suspended fork b 0 0 CREATE_ACCOUNT_STATE_GAS s' → Q () s') → Meets x s Q R)
    (hQ : ∀ s', Suspended fork b 0 0 (if charged then CREATE_ACCOUNT_STATE_GAS else 0) s' →
      Q () s') :
    Meets (onlyIf charged x) s Q R := by
  apply onlyIf_meets
  · intro hcharged
    rw [if_pos hcharged] at hQ
    exact hx hQ
  · intro hnot
    rw [if_neg hnot] at hQ
    exact hQ s h.suspended

end

theorem Suspended.within (h : Suspended fork b gas reservoir credit s) : Within fork b s := by
  have hexec := h.execution
  have htotal := h.total
  constructor
  · omega
  · omega
  · exact h.refund
  · exact h.ended

/-- The gas of the child is taken out of what the call costs. -/
theorem escrow_meets (h : Suspended fork b 0 0 credit s) {gasCost childGasLimit : Nat}
    (hle : childGasLimit ≤ gasCost) {x : EvmM Unit}
    (hx : ∀ s', Suspended fork b childGasLimit 0 credit s' → Stays fork b x s') :
    Stays fork b (do
        consumeGas gasCost
        escrowSubcallExecutionGas childGasLimit
        x) s := by
  have hexec := h.execution
  have htotal := h.total
  apply Meets.bind
  apply h.within.consumeGas
  intro henough _
  apply Meets.bind
  apply escrowSubcallExecutionGas_meets
  · dsimp only; omega
  apply hx
  constructor
  · dsimp only; omega
  · dsimp only; omega
  · exact h.refund
  · exact h.ended

theorem rejectCall_meets (h : Suspended fork b gas 0 credit s) {newAccountCharged : Bool}
    (hcredit : newAccountCharged → credit = CREATE_ACCOUNT_STATE_GAS) :
    Stays fork b (do
        returnGas gas
        onlyIf newAccountCharged (creditStateGasRefund CREATE_ACCOUNT_STATE_GAS)) s := by
  have hexec := h.execution
  have htotal := h.total
  have hhigh := b.gas_le
  have htop := b.total_le
  apply Meets.bind
  apply returnGas_meets (by omega)
  apply onlyIf_meets
  · intro hcharged
    have hamount := hcredit hcharged
    apply creditStateGasRefund_meets
    · dsimp only; omega
    · dsimp only; omega
    · intro repaid hle hspilled
      dsimp only at hspilled
      constructor
      · dsimp only; omega
      · dsimp only; omega
      · exact h.refund
      · exact h.ended
  · intro _
    constructor
    · dsimp only; omega
    · dsimp only; omega
    · exact h.refund
    · exact h.ended

variable {child : Message → EvmM Ending}

theorem callOp_stays (h : Within fork b s) (msg : Message) (p : LocalParams)
    (hchild : ∀ msg b s, Within fork b s → Stays fork b (child msg) s) :
    Stays fork b (callOp fork msg p child) s := by
  have htotal := h.total
  have htop := b.total_le
  apply Meets.bind
  apply getGasMeter_meets
  apply Meets.bind
  apply gasCall1_meets h
  intro gasCost1 hstipend hbound hleft
  apply Meets.bind
  apply onlyIf_suspended h
  · intro hQ
    apply Meets.bind
    apply checkStateGas_meets (by omega) hleft ⟨rfl, h⟩
    exact chargeStateGas_suspended h _ hQ
  intro s₁ h₁
  apply Meets.bind
  apply getGasMeter_meets
  apply Meets.bind
  apply gasCall2_meets h₁.within p hstipend hbound
  intro gasCost childGasLimit hle
  apply escrow_meets h₁ hle
  intro s₂ h₂
  have hcredit : p.newAccountCharged fork →
      (if p.newAccountCharged fork then CREATE_ACCOUNT_STATE_GAS else 0)
        = CREATE_ACCOUNT_STATE_GAS := fun hcharged => if_pos hcharged
  split
  · exact rejectCall_meets h₂ hcredit
  · apply Meets.bind
    apply getGasMeter_meets
    apply Meets.bind
    apply setGasMeter_meets
    apply runChild_meets h₂.handOver rfl rfl hcredit
    exact hchild _

/-! ### Creations -/

theorem createFees_le (fork : EVMFork) :
    (gasFees (forkToSchedule fork)).GasCreate ≤ 2 ^ 20
    ∧ (gasFees (forkToSchedule fork)).GasInitcodeWord ≤ 2
    ∧ (gasFees (forkToSchedule fork)).GasSha3Word = 6 := by
  cases fork <;> decide

theorem createGas_le (fork : EVMFork) (p : CreateParams) :
    gasCreate (forkToSchedule fork) p.currentMemSize (safeInt p.memPos) (safeInt p.memLen)
        + (if p.create2 then gasCreate2 (forkToSchedule fork) (safeInt p.memLen) else 0)
      ≤ GasInt.high := by
  have hhigh : 2 ^ 52 ≤ GasInt.high := by decide
  obtain ⟨hcreate, hinit, hsha⟩ := createFees_le fork
  have hlength := safeInt_le p.memLen
  have hmemory := gasMemoryExpansion_le (forkToSchedule fork) p.currentMemSize
    (safeInt_le p.memPos) hlength
  have hwords : wordCount (safeInt p.memLen) ≤ 2 ^ 27 := by
    unfold wordCount
    omega
  have hcost := Nat.mul_le_mul hinit hwords
  unfold gasCreate gasCreate2
  rw [hsha]
  split <;> omega

theorem execSubCreate_stays (h : Within fork b s) (msg : Message) (p : CreateParams)
    (hchild : ∀ msg b s, Within fork b s → Stays fork b (child msg) s) :
    Stays fork b (execSubCreate fork msg p child) s := by
  unfold execSubCreate
  split
  · -- the nonce overflows: the child has not been given anything
    apply failedChild_meets h.suspended
    · rfl
    · rfl
    · exact nofun
  · generalize (decide (FkAmsterdam ≤ fork) && p.isNewAccount) = newAccountCharged
    have hcredit : newAccountCharged →
        (if newAccountCharged then CREATE_ACCOUNT_STATE_GAS else 0) = CREATE_ACCOUNT_STATE_GAS :=
      fun hcharged => if_pos hcharged
    apply Meets.bind
    apply onlyIf_suspended h
    · intro hQ
      exact chargeStateGas_suspended h _ hQ
    intro s₁ h₁
    have hexec := h₁.execution
    have htotal := h₁.total
    have hkept : (if FkTangerine ≤ fork then s₁.gasMeter.executionGasLeft / 64 else 0)
        ≤ s₁.gasMeter.executionGasLeft := by
      split <;> omega
    generalize hdef : s₁.gasMeter.executionGasLeft
      - (if FkTangerine ≤ fork then s₁.gasMeter.executionGasLeft / 64 else 0) = createMsgGas
    apply Meets.bind
    apply getGasMeter_meets
    apply Meets.bind
    apply sub_meets hkept
    rw [hdef]
    apply Meets.bind
    apply sub_meets (by omega)
    apply Meets.bind
    apply setGasMeter_meets
    have h₂ : Suspended fork b createMsgGas 0
        (if newAccountCharged then CREATE_ACCOUNT_STATE_GAS else 0)
        { s₁ with gasMeter := { s₁.gasMeter with
          executionGasLeft := s₁.gasMeter.executionGasLeft - createMsgGas } } := by
      constructor
      · dsimp only; omega
      · dsimp only; omega
      · exact h₁.refund
      · exact h₁.ended
    split
    · apply failedChild_meets h₂
      · rfl
      · rfl
      · exact hcredit
    · apply Meets.bind
      apply getGasMeter_meets
      apply Meets.bind
      apply setGasMeter_meets
      apply runChild_meets h₂.handOver rfl rfl hcredit
      exact hchild _

theorem createOp_stays (h : Within fork b s) (msg : Message) (p : CreateParams)
    (hchild : ∀ msg b s, Within fork b s → Stays fork b (child msg) s) :
    Stays fork b (createOp fork msg p child) s := by
  apply Meets.bind
  apply add_meets (createGas_le fork p)
  apply (consumeGas_stays h _).bind
  intro _ s₁ h₁
  split
  · exact Meets.throw ⟨rfl, h₁⟩
  split
  · exact Meets.pure h₁
  · exact execSubCreate_stays h₁ msg p hchild

/-! ### The opcodes of a frame -/

/-- Whatever opcodes a frame and its children execute, the frame stays within its budget. -/
theorem Prog.exec_stays (prog : Prog) (msg : Message) (h : Within fork b s) :
    Stays fork b (prog.exec fork msg) s := by
  induction prog generalizing msg b s with
  | success output => exact Meets.pure h
  | revert => exact Meets.pure h
  | halt => exact Meets.throw ⟨rfl, h⟩
  | opcode gasCost rest ih =>
    apply (consumeGas_stays h gasCost).bind
    intro _ s₁ h₁
    exact ih msg h₁
  | newAccount rest ih =>
    have hcharge : Stays fork b
        (onlyIf (FkAmsterdam ≤ fork) (chargeStateGas CREATE_ACCOUNT_STATE_GAS)) s :=
      onlyIf_meets (fun _ => chargeStateGas_stays h _) fun _ => h
    apply hcharge.bind
    intro _ s₁ h₁
    exact ih msg h₁
  | sstore slot value isCold rest ih =>
    apply (sstoreOp_stays h msg slot value isCold).bind
    intro _ s₁ h₁
    exact ih msg h₁
  | call params child rest ihChild ih =>
    apply (callOp_stays h msg params fun msg b s h => ihChild msg h).bind
    intro _ s₁ h₁
    exact ih msg h₁
  | create params child rest ihChild ih =>
    apply (createOp_stays h msg params fun msg b s h => ihChild msg h).bind
    intro _ s₁ h₁
    exact ih msg h₁

end

end Nimbus.Spec.Evm
