import Nimbus.Spec.GasConservation

/-!
# The gas that a transaction adds to its block

A run adds at most the gas limit of its transaction to each counter of the block. From Amsterdam
on it adds at most `TX_MAX_GAS_LIMIT` to the execution gas, which is what the capacity check of
the block reserves.
-/

namespace Nimbus.Spec.Evm

open Native Native.Evm
open Aristo (UInt256)
open EVMFork

variable {fork : EVMFork} {s s' : Machine} {c : Computation} {params : CallParams fork}

theorem sub_ok {a b r : Nat} (h : sub a b s = .ok r s') : b ≤ a ∧ r = a - b ∧ s' = s := by
  unfold sub at h
  split at h
  · next hle =>
    cases h
    exact ⟨hle, rfl, rfl⟩
  · cases h

theorem setupEVM_ok {msg : Message} (h : setupEVM fork params s = .ok msg s') :
    msg.depth = 0 ∧
      msg.gas + msg.stateGasReservoir + params.intrinsic.execution = params.tx.gasLimit ∧
      (FkAmsterdam ≤ fork → msg.gas + params.intrinsic.execution ≤ TX_MAX_GAS_LIMIT) ∧
      s' = s := by
  have hsplit : Meets (setupEVM fork params) s (fun msg _ => msg.depth = 0 ∧
      msg.gas + msg.stateGasReservoir + params.intrinsic.execution = params.tx.gasLimit)
      fun _ _ => False :=
    setupEVM_meets params fun msg hdepth hgas => ⟨hdepth, hgas⟩
  obtain ⟨hdepth, hgas⟩ := hsplit.of_ok h
  refine ⟨hdepth, hgas, ?_⟩
  obtain ⟨executionGas, s₁, htop, h⟩ := bind_ok.mp h
  obtain ⟨stateGasReservoir, s₂, hsub, hreturn⟩ := bind_ok.mp h
  obtain ⟨-, -, rfl⟩ := sub_ok hsub
  cases hreturn
  unfold topFrameGas at htop
  split at htop
  · obtain ⟨executionGasBudget, s₃, hbudget, hmin⟩ := bind_ok.mp htop
    obtain ⟨hle, rfl, rfl⟩ := sub_ok hbudget
    cases hmin
    refine ⟨fun _ => ?_, rfl⟩
    dsimp only
    omega
  · next hfork =>
    cases htop
    exact ⟨fun hamsterdam => absurd hamsterdam hfork, rfl⟩

theorem execTopFrame_msg {prepared : Prepared} {code : Message → EvmM Ending}
    (h : execTopFrame fork prepared code s = .ok c s') : c.msg = prepared.msg := by
  obtain ⟨gasMeter, s₁, hmeter, h⟩ := bind_ok.mp h
  cases herror : prepared.error with
  | none =>
    rw [herror] at h
    obtain ⟨caller, s₂, hget, h⟩ := bind_ok.mp h
    obtain ⟨_, s₃, hset, h⟩ := bind_ok.mp h
    obtain ⟨_, s₄, hbefore, h⟩ := bind_ok.mp h
    obtain ⟨res, s₅, hrun, h⟩ := bind_ok.mp h
    obtain ⟨error', s₆, hafter, h⟩ := bind_ok.mp h
    obtain ⟨_, s₇, hend, h⟩ := bind_ok.mp h
    obtain ⟨gasMeter', s₈, hmeter', h⟩ := bind_ok.mp h
    obtain ⟨used, s₉, hsub, h⟩ := bind_ok.mp h
    cases h
    rfl
  | some error =>
    rw [herror] at h
    cases h
    rfl

theorem burnGas_ok {gasMeter : GasMeter} (h : burnGas c s = .ok gasMeter s') :
    gasMeter.stateGasLeft = c.gasMeter.stateGasLeft ∧
      gasMeter.stateGasSpilled = c.gasMeter.stateGasSpilled := by
  unfold burnGas at h
  split at h
  · obtain ⟨used, s₁, hadd, h⟩ := bind_ok.mp h
    cases h
    exact ⟨rfl, rfl⟩
  · cases h
    exact ⟨rfl, rfl⟩

/-- What a run adds to the counters of the block. -/
structure BlockCharge (fork : EVMFork) (gasLimit : Nat) (gasUsed : GasUsed) : Prop where
  txGasUsed : gasUsed.txGasUsed ≤ gasLimit
  blockExecutionGas : gasUsed.blockExecutionGasUsed ≤ gasLimit
  blockStateGas : gasUsed.blockStateGasUsed ≤ gasLimit
  executionCap : FkAmsterdam ≤ fork → gasUsed.blockExecutionGasUsed ≤ TX_MAX_GAS_LIMIT

/-- `reservoir` is the state gas that the gas limit has been split into, all of which is left or
counted as state gas. -/
theorem calculateAndPossiblyRefundGas_block {vmState : VmState}
    {gasUsed : GasUsed} {reservoir : Nat} (hstate : (reservoir : Int) ≤ c.gasMeter.stateGasLeft
      + (vmState.authStateGasUsed + c.gasMeter.frameStateGasUsed c.msg.stateGasReservoir))
    (hcap : FkAmsterdam ≤ fork → params.tx.gasLimit ≤ TX_MAX_GAS_LIMIT + reservoir)
    (h : calculateAndPossiblyRefundGas fork params vmState c s = .ok gasUsed s') :
    BlockCharge fork params.tx.gasLimit gasUsed := by
  have hmin := params.valid.minGasLimit
  obtain ⟨gasMeter, s₁, hburn, h⟩ := bind_ok.mp h
  obtain ⟨hleft, hspilled⟩ := burnGas_ok hburn
  obtain ⟨unspent, s₂, hsub₁, h⟩ := bind_ok.mp h
  obtain ⟨gasUsedBeforeRefund, s₃, hsub₂, h⟩ := bind_ok.mp h
  obtain ⟨refund, s₄, hrefund, h⟩ := bind_ok.mp h
  obtain ⟨gasUsedAfterRefund, s₅, hsub₃, h⟩ := bind_ok.mp h
  obtain ⟨executionPart, s₆, hsub₄, h⟩ := bind_ok.mp h
  obtain ⟨rest, s₇, hsub₅, h⟩ := bind_ok.mp h
  cases h
  obtain ⟨-, hunspent, -⟩ := sub_ok hsub₁
  obtain ⟨-, hbefore, -⟩ := sub_ok hsub₂
  have hafter : gasUsedAfterRefund ≤ gasUsedBeforeRefund := by
    rw [(sub_ok hsub₃).2.1]
    exact Nat.sub_le _ _
  obtain ⟨hexecution, hpart, -⟩ := sub_ok hsub₄
  obtain ⟨htx, -, -⟩ := sub_ok hsub₅
  unfold GasMeter.frameStateGasUsed at hstate hexecution hpart
  constructor
  · exact htx
  · dsimp only
    split <;> omega
  · dsimp only
    unfold GasMeter.frameStateGasUsed
    omega
  · intro hamsterdam
    have hfloor := (params.valid.amsterdam hamsterdam).1
    have hlimit := hcap hamsterdam
    rw [if_pos hamsterdam] at hpart
    dsimp only
    rw [if_pos hamsterdam]
    omega

theorem runComputation_block {selfDestructLen : Nat} {prog : Prog}
    {committed : Address → UInt256 → UInt256} {r : Computation × GasUsed}
    (h : runComputation fork params selfDestructLen (prog.exec fork)
      { storage := Storage.persisted committed } = .ok r s') :
    BlockCharge fork params.tx.gasLimit r.2 := by
  have hlimit := params.gasLimit_le
  obtain ⟨msg, s₁, hsetup, h⟩ := bind_ok.mp h
  obtain ⟨hdepth, hgas, hcap, rfl⟩ := setupEVM_ok hsetup
  obtain ⟨_, s₂, hset, h⟩ := bind_ok.mp h
  cases hset
  obtain ⟨prepared, s₃, hprepare, h⟩ := bind_ok.mp h
  have hready := (preExecComputation_meets params.tx (by omega) hdepth rfl
    fun _ _ => False).of_ok hprepare
  obtain ⟨spill, -, hauth, -⟩ := hready.charged
  obtain ⟨c, s₄, hframe, h⟩ := bind_ok.mp h
  have hmsg := execTopFrame_msg hframe
  obtain ⟨gasUsed, s₅, hcalculate, h⟩ := bind_ok.mp h
  cases h
  have hpost : (postExecComputation fork selfDestructLen c).msg = prepared.msg := by
    unfold postExecComputation
    split <;> exact hmsg
  have hstate : (msg.stateGasReservoir : Int) ≤
      (postExecComputation fork selfDestructLen c).gasMeter.stateGasLeft
        + (prepared.authStateGasUsed
          + (postExecComputation fork selfDestructLen c).gasMeter.frameStateGasUsed
            (postExecComputation fork selfDestructLen c).msg.stateGasReservoir) := by
    unfold GasMeter.frameStateGasUsed
    rw [hpost]
    omega
  apply calculateAndPossiblyRefundGas_block hstate _ hcalculate
  intro hamsterdam
  have hle := hcap hamsterdam
  omega

end Nimbus.Spec.Evm
