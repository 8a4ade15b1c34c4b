import Nimbus.Spec.GasMeter

/-!
# What a frame may do with its gas

A frame runs on a budget. Its execution gas, left, used or spilled into state gas, never adds up
to more than it was given. Together with the state gas it adds up to no more than the budget,
when every slot that was created in the transaction counts with the state gas it was charged
for. The refund counter never falls behind the refunds of the slots that are cleared.

`SSTORE` is where the storage matters; here it is shown to keep the budget.
-/

namespace Nimbus.Spec.Evm

open Native Native.Evm
open Aristo (UInt256)
open EVMFork

instance finiteUInt8 : Finite UInt8 := Finite.of_injective UInt8.toFin fun _ _ h => UInt8.toFin_inj.mp h

instance : Finite Address :=
  Finite.of_injective (fun address : Address => fun i : Fin 20 => address.get i)
    (fun _ _ h => Vector.ext fun i hi => congrFun h ⟨i, hi⟩)

instance : Finite UInt256 := Finite.of_injective BitVec.toFin fun _ _ h => BitVec.eq_of_toFin_eq h

abbrev Slot := Address × UInt256

noncomputable instance : Fintype Slot := Fintype.ofFinite Slot

/-- The transaction has created the slot. -/
def createdWeight (original current : UInt256) : ℕ := if original = 0 ∧ current ≠ 0 then 1 else 0

/-- The transaction has cleared the slot. -/
def clearedWeight (original current : UInt256) : ℕ := if original ≠ 0 ∧ current = 0 then 1 else 0

variable (weight : UInt256 → UInt256 → ℕ) (storage : Storage)

noncomputable def slotPotential : ℕ :=
  potential weight (fun k : Slot => storage.committed k.1 k.2) fun k => storage.current k.1 k.2

/-- The number of slots that the transaction has created. -/
noncomputable def created : ℕ := slotPotential createdWeight storage

/-- The number of slots that the transaction has cleared. -/
noncomputable def cleared : ℕ := slotPotential clearedWeight storage

theorem slotPotential_persisted {weight : UInt256 → UInt256 → ℕ} (h : ∀ v, weight v v = 0)
    (committed : Address → UInt256 → UInt256) :
    slotPotential weight (Storage.persisted committed) = 0 :=
  potential_self _ h

theorem created_persisted (committed : Address → UInt256 → UInt256) :
    created (Storage.persisted committed) = 0 :=
  slotPotential_persisted (fun v => by unfold createdWeight; rw [if_neg]; tauto) committed

theorem cleared_persisted (committed : Address → UInt256 → UInt256) :
    cleared (Storage.persisted committed) = 0 :=
  slotPotential_persisted (fun v => by unfold clearedWeight; rw [if_neg]; tauto) committed

theorem weight_le_slotPotential (address : Address) (slot : UInt256) :
    weight (storage.committed address slot) (storage.current address slot) ≤
      slotPotential weight storage :=
  weight_le_potential weight (fun k : Slot => storage.committed k.1 k.2)
    (fun k => storage.current k.1 k.2) (address, slot)

theorem slotPotential_setStorage (address : Address) (slot value : UInt256) :
    slotPotential weight (storage.setStorage address slot value)
        + weight (storage.committed address slot) (storage.current address slot) =
      slotPotential weight storage + weight (storage.committed address slot) value := by
  have hoff : ∀ k : Slot, k ≠ (address, slot) →
      (storage.setStorage address slot value).current k.1 k.2 = storage.current k.1 k.2 := by
    intro k hne
    show (if k.1 = address ∧ k.2 = slot then value else storage.current k.1 k.2) = _
    rw [if_neg]
    intro heq
    exact hne (Prod.ext heq.1 heq.2)
  have h := potential_of_eq_off weight (fun k : Slot => storage.committed k.1 k.2)
    (fun k => storage.current k.1 k.2) (address, slot) hoff
  have hvalue : (storage.setStorage address slot value).current address slot = value :=
    if_pos ⟨rfl, rfl⟩
  rw [hvalue] at h
  exact h

theorem slotPotential_clearStorage {weight : UInt256 → UInt256 → ℕ} (h : weight 0 0 = 0)
    (storage : Storage) (address : Address) :
    slotPotential weight (storage.clearStorage address) ≤ slotPotential weight storage := by
  apply potential_mono
  intro k
  show weight (if k.1 = address then 0 else _) (if k.1 = address then 0 else _) ≤ _
  split
  · rw [h]
    exact Nat.zero_le _
  · exact Nat.le_refl _

/-! ### The budget of a frame -/

/-- The state gas a created slot was charged for. -/
def slotStateGas (fork : EVMFork) : Nat := if FkAmsterdam ≤ fork then STATE_GAS_STORAGE_SET else 0

def clearRefund (fork : EVMFork) : Nat := (gasFees (forkToSchedule fork)).RefundsClear

/-- The frame hands back at most the gas it was given, and on failure the state gas reservoir. -/
structure Conserves (c : Computation) : Prop where
  gas : c.gasMeter.executionGasLeft ≤ c.msg.gas
  reservoir : c.error.isSome → c.gasMeter.stateGasLeft = c.msg.stateGasReservoir

structure Budget where
  gas : Nat
  total : Nat
  refund : Int
  gas_le : gas ≤ GasInt.high
  total_le : total ≤ GasInt.high

structure Within (fork : EVMFork) (b : Budget) (s : Machine) : Prop where
  execution : s.gasMeter.executionGasLeft + s.gasMeter.executionGasUsed
    + s.gasMeter.stateGasSpilled ≤ b.gas
  total : s.gasMeter.executionGasLeft + s.gasMeter.stateGasLeft
    + slotStateGas fork * created s.storage ≤ b.total
  refund : b.refund + clearRefund fork * cleared s.storage ≤ s.gasMeter.refundCounter
  ended : ∀ c ∈ s.ended, Conserves c

/-- The frame goes on within its budget, or fails within it, without a defect. -/
def Stays (fork : EVMFork) (b : Budget) (x : EvmM α) (s : Machine) : Prop :=
  Meets x s (fun _ => Within fork b) fun e s' => e = .evm ∧ Within fork b s'

/-! ### Storage writes -/

theorem forkToSchedule_of_le {fork : EVMFork} (h : FkAmsterdam ≤ fork) :
    forkToSchedule fork = FkAmsterdam := by
  revert h
  cases fork <;> decide

theorem forkToSchedule_lt {fork : EVMFork} (h : ¬ FkAmsterdam ≤ fork) :
    ¬ FkAmsterdam ≤ forkToSchedule fork := by
  revert h
  cases fork <;> decide

theorem sload_le (fork : EVMFork) :
    (if FkBerlin ≤ fork then WARM_ACCESS else (gasFees fork).GasSload) ≤ (gasFees fork).GasSset
    ∧ (if FkBerlin ≤ fork then WARM_ACCESS else (gasFees fork).GasSload) ≤
      (if FkBerlin ≤ fork then 5000 - COLD_STORAGE_ACCESS_2929 else (gasFees fork).GasSreset) := by
  cases fork <;> decide

/-- What `SSTORE` charges and credits in state gas pays for the slots it creates. -/
theorem gasSstore_stateGas (fork : EVMFork) (original current value : UInt256) :
    let res := gasSstore (forkToSchedule fork) value ⟨current, original⟩
    res.creditStateGas + slotStateGas fork * createdWeight original value ≤
      slotStateGas fork * createdWeight original current + res.stateGas
    ∧ res.creditStateGas ≤ slotStateGas fork * createdWeight original current
    ∧ (res.creditStateGas = 0 ∨ res.stateGas = 0) := by
  by_cases hfork : FkAmsterdam ≤ fork
  · have hnet : ¬ (FkAmsterdam < FkConstantinople ∨ FkAmsterdam = FkPetersburg) := by decide
    have hlast : FkAmsterdam ≤ FkAmsterdam := by decide
    rw [forkToSchedule_of_le hfork]
    simp only [gasSstore, createdWeight, slotStateGas, if_pos hfork, if_neg hnet, hlast, and_true]
    by_cases ho : original = 0
    · by_cases hc : current = 0 <;> by_cases hv : value = 0 <;> grind
    · simp only [ho, false_and, and_false, if_false, Nat.mul_zero]
      split_ifs <;> simp
  · simp only [gasSstore, slotStateGas, if_neg hfork, forkToSchedule_lt hfork, and_false, if_false]
    split_ifs <;> simp

/-- What `SSTORE` refunds covers the slots it clears. -/
theorem gasSstore_gasRefund (fork : EVMFork) (original current value : UInt256) :
    clearRefund fork * clearedWeight original value ≤
      (clearRefund fork * clearedWeight original current : Int)
        + (gasSstore (forkToSchedule fork) value ⟨current, original⟩).gasRefund := by
  obtain ⟨hset, hreset⟩ := sload_le (forkToSchedule fork)
  simp only [gasSstore, clearedWeight, clearRefund]
  generalize (if FkBerlin ≤ forkToSchedule fork then WARM_ACCESS
    else (gasFees (forkToSchedule fork)).GasSload) = sload at *
  generalize (if FkBerlin ≤ forkToSchedule fork then 5000 - COLD_STORAGE_ACCESS_2929
    else (gasFees (forkToSchedule fork)).GasSreset) = reset at *
  generalize (gasFees (forkToSchedule fork)).RefundsClear = clear at *
  generalize (gasFees (forkToSchedule fork)).GasSset = sset at *
  generalize (0 : UInt256) = zero
  by_cases hnet : forkToSchedule fork < FkConstantinople ∨ forkToSchedule fork = FkPetersburg
  · simp only [if_pos hnet]
    by_cases hc : current = zero <;> by_cases hv : value = zero <;> by_cases ho : original = zero
      <;> simp [hc, hv, ho]
  · simp only [if_neg hnet]
    by_cases hnoop : current = value
    · simp [hnoop]
    · simp only [if_neg hnoop]
      by_cases hclean : original = current
      · subst hclean
        by_cases ho : original = zero <;> by_cases hv : value = zero
          <;> by_cases hfork : FkAmsterdam ≤ forkToSchedule fork <;> simp [ho, hv, hfork]
      · -- a dirty slot: the clear refund follows the slot, and a reset only adds to it
        simp only [if_neg hclean]
        by_cases ho : original = zero
        · split_ifs <;> omega
        · by_cases hc : current = zero <;> by_cases hv : value = zero <;> simp [ho, hc, hv]
            <;> split_ifs <;> omega

theorem gasSstore_gasCost_le (fork : EVMFork) (original current value : UInt256) :
    (gasSstore (forkToSchedule fork) value ⟨current, original⟩).gasCost ≤ 20000 := by
  have hset : (gasFees (forkToSchedule fork)).GasSset ≤ 20000
      ∧ (gasFees (forkToSchedule fork)).GasSload ≤ 20000
      ∧ (gasFees (forkToSchedule fork)).GasSreset ≤ 20000 := by
    cases fork <;> decide
  unfold gasSstore WARM_ACCESS COLD_STORAGE_ACCESS_2929 STORAGE_WRITE_8038
  dsimp only
  split_ifs <;> dsimp only <;> omega

section
variable {fork : EVMFork} {b : Budget} {s : Machine} {α : Type} {coldAccess : Nat} {s₀ : Machine}

section

variable (h : Within fork b s)
include h

theorem Within.consumeGas (amount : Nat) {Q : Unit → Machine → Prop}
    (hQ : amount ≤ s.gasMeter.executionGasLeft → Within fork b { s with gasMeter :=
        { s.gasMeter with
          executionGasUsed := s.gasMeter.executionGasUsed + amount
          executionGasLeft := s.gasMeter.executionGasLeft - amount } } →
      Q () { s with gasMeter := { s.gasMeter with
        executionGasUsed := s.gasMeter.executionGasUsed + amount
        executionGasLeft := s.gasMeter.executionGasLeft - amount } }) :
    Meets (consumeGas amount) s Q fun e s' => e = .evm ∧ Within fork b s' := by
  have hexec := h.execution
  have htotal := h.total
  have hhigh := b.gas_le
  apply consumeGas_meets (by omega) ⟨rfl, h⟩
  intro hle
  apply hQ hle
  constructor
  · dsimp only; omega
  · dsimp only; omega
  · exact h.refund
  · exact h.ended

theorem consumeGas_stays (amount : Nat) : Stays fork b (consumeGas amount) s :=
  h.consumeGas amount fun _ h' => h'

theorem chargeStateGas_stays (amount : Nat) : Stays fork b (chargeStateGas amount) s := by
  have hexec := h.execution
  have htotal := h.total
  have hhigh := b.gas_le
  have htop := b.total_le
  apply chargeStateGas_meets (by omega) (by omega) ⟨rfl, h⟩
  intro spill hamount hspill hle
  constructor
  · dsimp only; omega
  · dsimp only; omega
  · exact h.refund
  · exact h.ended

/-- `s` differs from `s₀` in the gas that is left, and holds `credit` of it more than `s₀` and
`charge` less. -/
structure Settled (b : Budget) (s₀ : Machine) (credit charge : Nat) (s : Machine) : Prop where
  execution : s.gasMeter.executionGasLeft + s.gasMeter.executionGasUsed
    + s.gasMeter.stateGasSpilled ≤ b.gas
  total : s.gasMeter.executionGasLeft + s.gasMeter.stateGasLeft + charge
    ≤ s₀.gasMeter.executionGasLeft + s₀.gasMeter.stateGasLeft + credit
  refundCounter : s.gasMeter.refundCounter = s₀.gasMeter.refundCounter
  storage : s.storage = s₀.storage
  ended : s.ended = s₀.ended

theorem Within.settled : Settled b s 0 0 s :=
  ⟨h.execution, Nat.le_refl _, rfl, rfl, rfl⟩

end

/-- The refund and the write of an `SSTORE`, after its state gas is settled. -/
theorem Settled.setStorage {msg : Message} {slot value : UInt256} {refund : Int}
    {credit charge : Nat} (h : Settled b s₀ credit charge s) (h₀ : Within fork b s₀)
    (hstate : credit + slotStateGas fork
        * createdWeight (s₀.storage.committed msg.currentTarget slot) value ≤
      slotStateGas fork * createdWeight (s₀.storage.committed msg.currentTarget slot)
        (s₀.storage.current msg.currentTarget slot) + charge)
    (hrefund : clearRefund fork
        * clearedWeight (s₀.storage.committed msg.currentTarget slot) value ≤
      (clearRefund fork * clearedWeight (s₀.storage.committed msg.currentTarget slot)
        (s₀.storage.current msg.currentTarget slot) : Int) + refund) :
    Stays fork b (do
        refundGas refund
        modify fun s => { s with storage := s.storage.setStorage msg.currentTarget slot value })
      s := by
  apply Meets.bind
  apply refundGas_meets
  apply Meets.modify
  have hcreated := slotPotential_setStorage createdWeight s₀.storage msg.currentTarget slot value
  have hcleared := slotPotential_setStorage clearedWeight s₀.storage msg.currentTarget slot value
  constructor
  · exact h.execution
  · show _ + slotStateGas fork * slotPotential createdWeight (s.storage.setStorage _ _ _) ≤ _
    rw [h.storage]
    have hmul := congrArg (slotStateGas fork * ·) hcreated
    simp only [Nat.mul_add] at hmul
    have hbefore := h₀.total
    have htotal := h.total
    unfold created at hbefore
    dsimp only
    omega
  · show b.refund + clearRefund fork * (slotPotential clearedWeight (s.storage.setStorage _ _ _))
      ≤ s.gasMeter.refundCounter + refund
    rw [h.storage, h.refundCounter]
    have hmul : (clearRefund fork * (slotPotential clearedWeight
          (s₀.storage.setStorage msg.currentTarget slot value)) : Int)
        + clearRefund fork * clearedWeight (s₀.storage.committed msg.currentTarget slot)
          (s₀.storage.current msg.currentTarget slot) =
        clearRefund fork * slotPotential clearedWeight s₀.storage
        + clearRefund fork * clearedWeight (s₀.storage.committed msg.currentTarget slot) value := by
      rw [← Int.mul_add, ← Int.mul_add]
      exact_mod_cast congrArg (fun n : ℕ => (clearRefund fork : Int) * n) hcleared
    have hbefore := h₀.refund
    unfold cleared at hbefore
    omega
  · rw [h.ended]
    exact h₀.ended

theorem gasSstore_original {fork : EVMFork} (hnet : fork < FkConstantinople ∨ fork = FkPetersburg)
    (original current value : UInt256) :
    gasSstore (forkToSchedule fork) value ⟨current, 0⟩ =
      gasSstore (forkToSchedule fork) value ⟨current, original⟩ := by
  have hsched : forkToSchedule fork < FkConstantinople ∨ forkToSchedule fork = FkPetersburg := by
    revert hnet
    cases fork <;> decide
  unfold gasSstore
  rw [if_pos hsched, if_pos hsched]

theorem sstoreImpl_stays (hnet : fork < FkConstantinople ∨ fork = FkPetersburg)
    (h : Within fork b s) (msg : Message) (slot value : UInt256) :
    Stays fork b (sstoreImpl fork msg slot value) s := by
  apply Meets.bind
  apply Meets.get
  apply Meets.bind
  apply h.consumeGas
  intro _ h₁
  have hslot : slotStateGas fork = 0 := by
    revert hnet
    cases fork <;> decide
  apply h₁.settled.setStorage h₁
  · simp [hslot]
  · -- without net gas metering the committed value is not looked at
    rw [gasSstore_original hnet (s.storage.committed msg.currentTarget slot)]
    exact gasSstore_gasRefund fork _ _ value

theorem gasSstore_add_le (fork : EVMFork) (original current value : UInt256)
    (hcold : coldAccess ≤ 2100) :
    (gasSstore (forkToSchedule fork) value ⟨current, original⟩).gasCost + coldAccess
      ≤ GasInt.high := by
  have hcost := gasSstore_gasCost_le fork original current value
  have hhigh : 30000 ≤ GasInt.high := by decide
  omega

theorem sstoreNetGasMeteringImpl_stays (hfork : ¬ FkAmsterdam ≤ fork) (h : Within fork b s)
    (msg : Message) (slot value : UInt256) (hcold : coldAccess ≤ 2100) :
    Stays fork b (sstoreNetGasMeteringImpl fork msg slot value coldAccess) s := by
  apply Meets.bind
  apply Meets.get
  apply Meets.bind
  apply add_meets (gasSstore_add_le fork _ _ value hcold)
  apply Meets.bind
  apply h.consumeGas
  intro _ h₁
  have hslot : slotStateGas fork = 0 := if_neg hfork
  apply h₁.settled.setStorage h₁
  · simp [hslot]
  · exact gasSstore_gasRefund fork _ _ value

theorem Settled.within (h : Settled b s₀ 0 0 s) (h₀ : Within fork b s₀) : Within fork b s := by
  have htotal := h.total
  have hbefore := h₀.total
  constructor
  · exact h.execution
  · rw [h.storage]
    omega
  · rw [h.storage, h.refundCounter]
    exact h₀.refund
  · rw [h.ended]
    exact h₀.ended

theorem Settled.credit {amount : Nat} (h : Settled b s₀ 0 0 s)
    (hle : s₀.gasMeter.executionGasLeft + s₀.gasMeter.stateGasLeft + amount ≤ b.total)
    (R : Fault → Machine → Prop) :
    Meets (onlyIf (amount > 0) (creditStateGasRefund amount)) s
      (fun _ => Settled b s₀ amount 0) R := by
  have hexec := h.execution
  have htotal := h.total
  have hhigh := b.gas_le
  have htop := b.total_le
  apply onlyIf_meets
  · intro _
    apply creditStateGasRefund_meets (by omega) (by omega)
    intro repaid hamount hspilled
    constructor
    · dsimp only; omega
    · dsimp only; omega
    · exact h.refundCounter
    · exact h.storage
    · exact h.ended
  · intro hzero
    have hamount : amount = 0 := by omega
    rw [hamount]
    exact h

/-- A charge that follows a credit always goes through: no `SSTORE` does both. -/
theorem Settled.charge {credit amount : Nat} (h : Settled b s₀ credit 0 s)
    (h₀ : Within fork b s₀) (hone : credit = 0 ∨ amount = 0) :
    Meets (onlyIf (amount > 0) (chargeStateGas amount)) s
      (fun _ => Settled b s₀ credit amount) fun e s' => e = .evm ∧ Within fork b s' := by
  apply onlyIf_meets
  · intro hpos
    have hcredit : credit = 0 := by omega
    rw [hcredit] at h ⊢
    have hexec := h.execution
    have htotal := h.total
    have hbefore := h₀.total
    have hhigh := b.gas_le
    have htop := b.total_le
    apply chargeStateGas_meets (by omega) (by omega) ⟨rfl, h.within h₀⟩
    intro spill hamount hspill hle
    constructor
    · dsimp only; omega
    · dsimp only; omega
    · exact h.refundCounter
    · exact h.storage
    · exact h.ended
  · intro hzero
    have hamount : amount = 0 := by omega
    rw [hamount]
    exact h

theorem sstore8038Impl_stays (h : Within fork b s) (msg : Message) (slot value : UInt256)
    (hcold : coldAccess ≤ 2100) :
    Stays fork b (sstore8038Impl fork msg slot value coldAccess) s := by
  apply Meets.bind
  apply Meets.get
  apply Meets.bind
  apply add_meets (gasSstore_add_le fork _ _ value hcold)
  apply Meets.bind
  apply h.consumeGas
  intro _ h₁
  obtain ⟨hstate, hcredit, hone⟩ := gasSstore_stateGas fork
    (s.storage.getCommittedStorage msg.currentTarget slot)
    (s.storage.getStorage msg.currentTarget slot) value
  have hrefund := gasSstore_gasRefund fork (s.storage.getCommittedStorage msg.currentTarget slot)
    (s.storage.getStorage msg.currentTarget slot) value
  generalize gasSstore (forkToSchedule fork) value _ = res at *
  -- the slot itself holds what is credited for it
  have hslot : slotStateGas fork * createdWeight (s.storage.committed msg.currentTarget slot)
      (s.storage.current msg.currentTarget slot) ≤ slotStateGas fork * created s.storage :=
    Nat.mul_le_mul_left _ (weight_le_slotPotential createdWeight s.storage _ _)
  have htotal := h₁.total
  apply (h₁.settled.credit _ _).andThen
  · intro _ s₂ h₂
    apply (h₂.charge h₁ hone).andThen
    · intro _ s₃ h₃
      exact h₃.setStorage h₁ hstate hrefund
    · intro e s' hfail
      exact hfail
  · intro e s' hfail
    exact hfail
  · dsimp only at htotal ⊢
    unfold Storage.getCommittedStorage Storage.getStorage at hcredit
    omega

theorem checkGas_stays (h : Within fork b s) (amount : Nat) : Stays fork b (checkGas amount) s :=
  checkGas_meets ⟨rfl, h⟩ h

theorem Stays.bind {β : Type} {x : EvmM α} {f : α → EvmM β} (h : Stays fork b x s)
    (hf : ∀ a s', Within fork b s' → Stays fork b (f a) s') : Stays fork b (x >>= f) s :=
  h.andThen hf fun _ _ hfail => hfail

theorem sstoreOp_stays (h : Within fork b s) (msg : Message) (slot value : UInt256)
    (isCold : Bool) : Stays fork b (sstoreOp fork msg slot value isCold) s := by
  unfold sstoreOp
  have hcold : (if isCold then COLD_STORAGE_ACCESS_2929 else 0) ≤ 2100 := by
    cases isCold <;> decide
  have hcold' : (if isCold then COLD_STORAGE_ACCESS_8038 else WARM_ACCESS) ≤ 2100 := by
    cases isCold <;> decide
  split
  · rename_i hnet
    exact sstoreImpl_stays hnet h msg slot value
  split
  · rename_i hfork
    exact sstoreNetGasMeteringImpl_stays (by rw [hfork]; decide) h msg slot value (Nat.zero_le _)
  split
  · rename_i hfork
    apply (checkGas_stays h _).bind
    intro _ s₁ h₁
    apply sstoreNetGasMeteringImpl_stays _ h₁ msg slot value (Nat.zero_le _)
    revert hfork
    cases fork <;> decide
  split
  · rename_i hfork
    apply (checkGas_stays h _).bind
    intro _ s₁ h₁
    exact sstoreNetGasMeteringImpl_stays (Nat.not_le.mpr hfork) h₁ msg slot value hcold
  · apply (checkGas_stays h _).bind
    intro _ s₁ h₁
    exact sstore8038Impl_stays h₁ msg slot value hcold'

end

end Nimbus.Spec.Evm
