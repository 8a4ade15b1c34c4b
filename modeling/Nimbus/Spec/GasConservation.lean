import Nimbus.Spec.CallTree

/-!
# Gas conservation

The run of a transaction, from its gas limit to the gas it is charged for. Before the top frame
is executed, state gas may be charged for the authorizations and for new accounts; afterwards the
gas used is computed from what the frame leaves. No subtraction on the way underflows, and the
gas used lies where it should.
-/

namespace Nimbus.Spec.Evm

open Native Native.Evm
open Aristo (UInt256)
open EVMFork

section
variable {fork : EVMFork} {s s₀ : Machine}
  {R : Fault → Machine → Prop} {c : Computation} {msg : Message}

/-! ### Before the top frame is executed -/

/-- `s` has been reached from `s₀` by charges only. -/
structure Charged (gas reservoir : Nat) (s₀ s : Machine) : Prop where
  execution : s.gasMeter.executionGasLeft + s.gasMeter.executionGasUsed
    + s.gasMeter.stateGasSpilled ≤ gas
  reservoir : s.gasMeter.stateGasLeft ≤ reservoir
  refundCounter : s.gasMeter.refundCounter = s₀.gasMeter.refundCounter
  storage : s.storage = s₀.storage
  ended : s.ended = s₀.ended

/-- `x` charges gas, or fails for lack of it. -/
def Charges (gas reservoir : Nat) (s₀ : Machine) (x : EvmM Unit) (s : Machine) : Prop :=
  Meets x s (fun _ => Charged gas reservoir s₀)
    fun e s' => e = .evm ∧ Charged gas reservoir s₀ s'

variable {gas reservoir : Nat}

section

variable (h : Charged gas reservoir s₀ s)
include h

theorem consumeGas_charges (hhigh : gas ≤ GasInt.high)
    (amount : Nat) : Charges gas reservoir s₀ (consumeGas amount) s := by
  have hexec := h.execution
  apply consumeGas_meets (by omega) ⟨rfl, h⟩
  intro hle
  constructor
  · dsimp only; omega
  · exact h.reservoir
  · exact h.refundCounter
  · exact h.storage
  · exact h.ended

theorem chargeStateGas_charges (hhigh : gas + reservoir ≤ GasInt.high) (amount : Nat) :
    Charges gas reservoir s₀ (chargeStateGas amount) s := by
  have hexec := h.execution
  have hleft := h.reservoir
  apply chargeStateGas_meets (by omega) (by omega) ⟨rfl, h⟩
  intro spill hamount hspill hle
  constructor
  · dsimp only; omega
  · dsimp only; omega
  · exact h.refundCounter
  · exact h.storage
  · exact h.ended

theorem onlyIf_charges {p : Prop} [Decidable p]
    {x : EvmM Unit} (hx : Charges gas reservoir s₀ x s) : Charges gas reservoir s₀ (onlyIf p x) s :=
  onlyIf_meets (fun _ => hx) fun _ => h

end

theorem Charges.bind {x y : EvmM Unit} (h : Charges gas reservoir s₀ x s)
    (hy : ∀ s', Charged gas reservoir s₀ s' → Charges gas reservoir s₀ y s') :
    Charges gas reservoir s₀ (do x; y) s :=
  h.andThen (fun _ => hy) fun _ _ hfail => hfail

theorem chargeAuthorization_charges (h : Charged gas reservoir s₀ s)
    (hhigh : gas + reservoir ≤ GasInt.high) (auth : Authorization) :
    Charges gas reservoir s₀ (chargeAuthorization auth) s := by
  apply (onlyIf_charges h (chargeStateGas_charges h hhigh _)).bind
  intro s₁ h₁
  apply (onlyIf_charges h₁ (consumeGas_charges h₁ (by omega) _)).bind
  intro s₂ h₂
  exact onlyIf_charges h₂ (chargeStateGas_charges h₂ hhigh _)

theorem setDelegation8037_charges (hhigh : gas + reservoir ≤ GasInt.high)
    (authorizationList : List Authorization) (h : Charged gas reservoir s₀ s) :
    Charges gas reservoir s₀ (setDelegation8037 authorizationList) s := by
  induction authorizationList generalizing s with
  | nil => exact h
  | cons auth rest ih =>
    apply (chargeAuthorization_charges h hhigh auth).bind
    intro s₁ h₁
    exact ih h₁

section

variable (h : Charged gas reservoir s₀ s)
include h

theorem prepareDispatch_charges (hhigh : gas + reservoir ≤ GasInt.high) (tx : Transaction) :
    Charges gas reservoir s₀ (prepareDispatch tx) s := by
  apply (onlyIf_charges h (chargeStateGas_charges h hhigh _)).bind
  intro s₁ h₁
  cases tx.delegateIsCold with
  | none => exact h₁
  | some isCold => exact onlyIf_charges h₁ (consumeGas_charges h₁ (by omega) _)

/-- How the top frame stands before it is executed: `spill` is what the authorizations have
taken of its execution gas for state gas. -/
structure Ready (gas reservoir : Nat) (s₀ : Machine) (prepared : Prepared) (s : Machine) :
    Prop where
  msg_gas : prepared.msg.gas = gas
  msg_depth : prepared.msg.depth = 0
  msg_reservoir : prepared.msg.stateGasReservoir ≤ reservoir
  charged : ∃ spill ≤ gas,
    prepared.authStateGasUsed = reservoir - prepared.msg.stateGasReservoir + spill
    ∧ Charged (gas - spill) prepared.msg.stateGasReservoir s₀ s
  failed : prepared.error ≠ none →
    s.gasMeter.stateGasLeft = prepared.msg.stateGasReservoir ∧ s.gasMeter.stateGasSpilled = 0

theorem authAndDelegation_meets (hhigh : gas + reservoir ≤ GasInt.high) (tx : Transaction) :
    Meets (authAndDelegation tx reservoir) s
      (fun r s' => r.2 ≤ reservoir ∧ ∃ spill ≤ gas, r.1 = reservoir - r.2 + spill
        ∧ Charged (gas - spill) r.2 s₀ s')
      fun e s' => e = .evm ∧ Charged gas reservoir s₀ s' := by
  apply (setDelegation8037_charges hhigh tx.authorizationList h).andThen _ fun _ _ hfail => hfail
  intro _ s₁ h₁
  have hexec := h₁.execution
  have hleft := h₁.reservoir
  apply Meets.bind
  apply getGasMeter_meets
  apply Meets.bind
  apply setGasMeter_meets
  have h₂ : Charged (gas - s₁.gasMeter.stateGasSpilled) s₁.gasMeter.stateGasLeft s₀
      { s₁ with gasMeter := { s₁.gasMeter with stateGasSpilled := 0 } } := by
    constructor
    · dsimp only; omega
    · exact Nat.le_refl _
    · exact h₁.refundCounter
    · exact h₁.storage
    · exact h₁.ended
  apply (prepareDispatch_charges h₂ (by omega) tx).andThen
  · intro _ s₃ h₃
    apply Meets.pure
    exact ⟨hleft, _, by omega, rfl, h₃⟩
  · intro e s₃ hfail
    obtain ⟨rfl, h₃⟩ := hfail
    have hexec₃ := h₃.execution
    have hleft₃ := h₃.reservoir
    exact ⟨rfl, by omega, by omega, h₃.refundCounter, h₃.storage, h₃.ended⟩

/-- A refill puts the spill back, and the reservoir where it was. -/
theorem Charged.refill (hhigh : gas ≤ GasInt.high)
    {stateGasReservoir : Nat} (hle : stateGasReservoir ≤ reservoir) {Q : Unit → Machine → Prop}
    (hQ : ∀ s', Charged gas reservoir s₀ s' → s'.gasMeter.stateGasLeft = stateGasReservoir →
      s'.gasMeter.stateGasSpilled = 0 → Q () s') :
    Meets (refillFrameStateGas stateGasReservoir) s Q R := by
  have hexec := h.execution
  apply refillFrameStateGas_meets (by omega)
  apply hQ
  · constructor
    · dsimp only; omega
    · exact hle
    · exact h.refundCounter
    · exact h.storage
    · exact h.ended
  · rfl
  · rfl

end

theorem topFrameAuthAndDelegation_meets (h : Charged gas reservoir s s)
    (hhigh : gas + reservoir ≤ GasInt.high) (tx : Transaction)
    (hgas : msg.gas = gas) (hdepth : msg.depth = 0) (hreservoir : msg.stateGasReservoir = reservoir)
    (R : Fault → Machine → Prop) :
    Meets (topFrameAuthAndDelegation tx msg) s (Ready gas reservoir s) R := by
  apply Meets.bind
  apply Meets.get
  apply Meets.bind
  have hauth := authAndDelegation_meets h hhigh tx
  unfold Meets at hauth
  unfold attempt Meets
  rw [hreservoir]
  cases hx : authAndDelegation tx reservoir s with
  | ok r s' =>
    simp only [hx] at hauth ⊢
    obtain ⟨hle, hspill⟩ := hauth
    exact ⟨hgas, hdepth, hle, hspill, fun hnone => absurd rfl hnone⟩
  | error e s' =>
    simp only [hx] at hauth ⊢
    obtain ⟨rfl, hfail⟩ := hauth
    apply Meets.bind
    apply Meets.modify
    have hrolled : Charged gas reservoir s { s' with storage := s.storage } :=
      ⟨hfail.execution, hfail.reservoir, hfail.refundCounter, rfl, hfail.ended⟩
    apply Meets.bind
    apply hrolled.refill (by omega) (Nat.le_refl _)
    intro s₁ h₁ hleft hspilled
    apply Meets.pure
    refine ⟨hgas, hdepth, Nat.le_of_eq hreservoir, ⟨0, Nat.zero_le _, ?_, ?_⟩, ?_⟩
    · show (0 : Int) = reservoir - msg.stateGasReservoir + 0
      omega
    · rw [hreservoir]
      exact h₁
    · intro _
      exact ⟨hleft.trans hreservoir.symm, hspilled⟩

theorem Charged.ready (h : Charged gas reservoir s s) (hgas : msg.gas = gas)
    (hdepth : msg.depth = 0) (hreservoir : msg.stateGasReservoir = reservoir)
    {error : Option Error} (hleft : s.gasMeter.stateGasLeft = reservoir)
    (hspilled : s.gasMeter.stateGasSpilled = 0) : Ready gas reservoir s ⟨msg, error, 0⟩ s := by
  refine ⟨hgas, hdepth, Nat.le_of_eq hreservoir, ⟨0, Nat.zero_le _, ?_, ?_⟩, ?_⟩
  · show (0 : Int) = reservoir - msg.stateGasReservoir + 0
    omega
  · rw [hreservoir]
    exact h
  · intro _
    exact ⟨hleft.trans hreservoir.symm, hspilled⟩

theorem preExecComputation_meets (tx : Transaction)
    (hhigh : msg.gas + msg.stateGasReservoir ≤ GasInt.high) (hdepth : msg.depth = 0)
    (hmeter : s.gasMeter = GasMeter.init msg.gas msg.stateGasReservoir)
    (R : Fault → Machine → Prop) :
    Meets (preExecComputation fork tx msg) s (Ready msg.gas msg.stateGasReservoir s) R := by
  have hcharged : Charged msg.gas msg.stateGasReservoir s s := by
    constructor
    · rw [hmeter]
      exact Nat.le_refl _
    · rw [hmeter]
      exact Nat.le_refl _
    · rfl
    · rfl
    · rfl
  have hstart (error : Option Error) :
      Ready msg.gas msg.stateGasReservoir s ⟨msg, error, 0⟩ s := by
    apply hcharged.ready rfl hdepth rfl
    · rw [hmeter]
      rfl
    · rw [hmeter]
      rfl
  have htop : Meets (prepareTopFrame fork tx msg) s (Ready msg.gas msg.stateGasReservoir s) R := by
    unfold prepareTopFrame
    split
    · exact Meets.pure (hstart _)
    split
    · exact topFrameAuthAndDelegation_meets hcharged hhigh tx rfl hdepth rfl R
    · exact Meets.pure (hstart _)
  apply htop.andThen _ fun _ _ hfail => hfail
  intro prepared s₁ h₁
  split
  · -- the address is taken
    obtain ⟨spill, hle, hauth, hcharged₁⟩ := h₁.charged
    apply Meets.bind
    apply hcharged₁.refill (by omega) (Nat.le_refl _)
    intro s₂ h₂ hleft hspilled
    exact ⟨h₁.msg_gas, h₁.msg_depth, h₁.msg_reservoir, ⟨spill, hle, hauth, h₂⟩,
      fun _ => ⟨hleft, hspilled⟩⟩
  · exact h₁

/-! ### The top frame -/

/-- What the top frame leaves. -/
structure TopEnds (gas reservoir : Nat) (authStateGasUsed : Int) (c : Computation) : Prop where
  depth : c.msg.depth = 0
  refund : 0 ≤ c.gasMeter.refundCounter
  left : c.gasMeter.executionGasLeft + c.gasMeter.stateGasLeft ≤ gas + reservoir
  used : c.gasMeter.executionGasLeft + c.gasMeter.executionGasUsed ≤ gas
  /-- the execution gas that is left, and all state gas, come from what was given -/
  state : c.gasMeter.executionGasLeft + c.gasMeter.stateGasLeft
    + (authStateGasUsed + c.gasMeter.frameStateGasUsed c.msg.stateGasReservoir) ≤ gas + reservoir

theorem execTopFrame_meets {prepared : Prepared}
    {committed : Address → UInt256 → UInt256} (hhigh : gas + reservoir ≤ GasInt.high)
    (h : Ready gas reservoir s₀ prepared s) (hstorage : s₀.storage = Storage.persisted committed)
    (hcounter : s₀.gasMeter.refundCounter = 0) (hended : s₀.ended = [])
    {code : Message → EvmM Ending} (hcode : ∀ msg b s, Within fork b s → Stays fork b (code msg) s)
    (R : Fault → Machine → Prop) :
    Meets (execTopFrame fork prepared code) s
      (fun c s' => TopEnds gas reservoir prepared.authStateGasUsed c
        ∧ ∀ c ∈ s'.ended, Conserves c) R := by
  obtain ⟨spill, hle, hauth, hcharged⟩ := h.charged
  have hexec := hcharged.execution
  have hleft := hcharged.reservoir
  have hreservoir := h.msg_reservoir
  apply Meets.bind
  apply getGasMeter_meets
  cases herror : prepared.error with
  | some error =>
    obtain ⟨hstate, hspilled⟩ := h.failed (by rw [herror]; exact nofun)
    apply Meets.pure
    refine ⟨⟨h.msg_depth, ?_, ?_, ?_, ?_⟩, ?_⟩
    · rw [hcharged.refundCounter, hcounter]
    · dsimp only; omega
    · dsimp only; omega
    · unfold GasMeter.frameStateGasUsed
      dsimp only
      omega
    · rw [hcharged.ended, hended]
      exact fun _ hmem => nomatch hmem
  | none =>
    let b : Budget := ⟨gas - spill, gas + reservoir, 0, by omega, hhigh⟩
    have hwithin : Within fork b { s with gasMeter := s.gasMeter } := by
      constructor
      · exact hexec
      · show _ + slotStateGas fork * created s.storage ≤ gas + reservoir
        rw [hcharged.storage, hstorage, created_persisted]
        omega
      · show (0 : Int) + clearRefund fork * cleared s.storage ≤ s.gasMeter.refundCounter
        rw [hcharged.storage, hstorage, cleared_persisted, hcharged.refundCounter]
        omega
      · rw [hcharged.ended, hended]
        exact fun _ hmem => nomatch hmem
    have hgas : b.gas ≤ prepared.msg.gas := by
      rw [h.msg_gas]
      exact Nat.sub_le _ _
    apply (execCallOrCreate_meets hgas hwithin (hcode prepared.msg b) R).mono
    · intro c s' hc
      obtain ⟨hmsg, _, hends⟩ := hc
      have hused := hends.used
      have hbgas : b.gas = gas - spill := rfl
      have hbtotal : b.total = gas + reservoir := rfl
      refine ⟨⟨by rw [hmsg]; exact h.msg_depth, hends.refund, ?_, by omega, ?_⟩, hends.ended⟩
      · by_cases hsuccess : c.error = none
        · have htotal := (hends.success hsuccess).total
          dsimp only at htotal
          omega
        · have hstate := (hends.failure hsuccess).2.1
          omega
      · unfold GasMeter.frameStateGasUsed
        rw [hmsg]
        omega
    · exact fun _ _ hfail => hfail

/-! ### After the execution -/

theorem postExecComputation_topEnds {auth : Int} (h : TopEnds gas reservoir auth c)
    (fork : EVMFork) (selfDestructLen : Nat) :
    TopEnds gas reservoir auth (postExecComputation fork selfDestructLen c) := by
  unfold postExecComputation
  split
  · have hrefund := h.refund
    have hpos : (0 : Int) ≤ (gasFees fork).RefundSelfDestruct * selfDestructLen :=
      Int.mul_nonneg (Int.natCast_nonneg _) (Int.natCast_nonneg _)
    exact ⟨h.depth, by dsimp only; omega, h.left, h.used, h.state⟩
  · exact h

/-- The gas used by a transaction. -/
structure Charge (fork : EVMFork) (params : CallParams fork) (gasUsed : GasUsed) : Prop where
  /-- gas used before refund covers the intrinsic gas, and the gas limit covers it -/
  beforeRefund : params.intrinsic.execution ≤ gasUsed.gasUsedBeforeRefund
    ∧ gasUsed.gasUsedBeforeRefund ≤ params.tx.gasLimit
  refund : gasUsed.gasRefund ≤ gasUsed.gasUsedBeforeRefund / MaxRefundQuotient fork
  blockStateGas : gasUsed.blockStateGasUsed ≤ gasUsed.gasUsedBeforeRefund
  /-- the refund is the only way below the intrinsic gas -/
  txGasUsed : gasUsed.gasUsedBeforeRefund - gasUsed.gasRefund ≤ gasUsed.txGasUsed
    ∧ gasUsed.txGasUsed ≤ params.tx.gasLimit
  floor : FkPrague ≤ fork → params.intrinsic.floorDataGas ≤ gasUsed.txGasUsed
  blockExecutionGas : FkAmsterdam ≤ fork →
    gasUsed.gasUsedBeforeRefund - gasUsed.blockStateGasUsed ≤ gasUsed.blockExecutionGasUsed

theorem getGasRefund_meets {vmState : VmState} (hdepth : c.msg.depth = 0)
    (hrefund : 0 ≤ c.gasMeter.refundCounter) (hvm : 0 ≤ vmState.refundCounter)
    {Q : Nat → Machine → Prop} (hQ : ∀ refund, Q refund s) :
    Meets (getGasRefund vmState c) s Q R := by
  apply Meets.bind
  apply doAssert_meets
  · simp [hdepth, hrefund]
  · have hsum : 0 ≤ (if c.isSuccess then vmState.refundCounter + c.gasMeter.refundCounter
        else vmState.refundCounter) := by
      split <;> omega
    rw [if_pos hsum]
    exact Meets.pure (hQ _)

theorem burnGas_meets (hused : c.gasMeter.executionGasLeft
      + c.gasMeter.executionGasUsed ≤ GasInt.high) {Q : GasMeter → Machine → Prop}
    (hQ : ∀ gasMeter : GasMeter, gasMeter.executionGasLeft ≤ c.gasMeter.executionGasLeft →
      gasMeter.stateGasLeft = c.gasMeter.stateGasLeft →
      gasMeter.stateGasSpilled = c.gasMeter.stateGasSpilled → Q gasMeter s) :
    Meets (burnGas c) s Q R := by
  unfold burnGas
  split
  · apply Meets.bind
    apply add_meets (by omega)
    apply Meets.pure
    exact hQ _ (Nat.zero_le _) rfl rfl
  · exact Meets.pure (hQ _ (Nat.le_refl _) rfl rfl)

theorem calculateAndPossiblyRefundGas_meets {params : CallParams fork} {vmState : VmState}
    (hvm : 0 ≤ vmState.refundCounter) (h : TopEnds gas reservoir vmState.authStateGasUsed c)
    (hgas : gas + reservoir + params.intrinsic.execution = params.tx.gasLimit)
    (R : Fault → Machine → Prop) :
    Meets (calculateAndPossiblyRefundGas fork params vmState c) s
      (fun gasUsed s' => Charge fork params gasUsed ∧ s' = s) R := by
  have hlimit := params.gasLimit_le
  have hmin := params.valid.minGasLimit
  have hleft := h.left
  have hused := h.used
  have hstate := h.state
  unfold GasMeter.frameStateGasUsed at hstate
  apply Meets.bind
  apply burnGas_meets (by omega)
  intro gasMeter hexecution hstateLeft hspilled
  apply Meets.bind
  apply sub_meets (by omega)
  apply Meets.bind
  apply sub_meets (by omega)
  apply Meets.bind
  apply getGasRefund_meets h.depth h.refund hvm
  intro refund
  generalize hbefore : params.tx.gasLimit - gasMeter.executionGasLeft - gasMeter.stateGasLeft
    = gasUsedBeforeRefund
  have hquotient := Nat.div_le_self gasUsedBeforeRefund (MaxRefundQuotient fork)
  have hrefund := Nat.min_le_left (gasUsedBeforeRefund / MaxRefundQuotient fork) refund
  generalize min (gasUsedBeforeRefund / MaxRefundQuotient fork) refund = gasRefund at hrefund ⊢
  apply Meets.bind
  apply sub_meets (by omega)
  have hblock : (if FkAmsterdam ≤ fork then (max 0 (vmState.authStateGasUsed
      + gasMeter.frameStateGasUsed c.msg.stateGasReservoir)).toNat else 0)
      ≤ gasUsedBeforeRefund := by
    unfold GasMeter.frameStateGasUsed
    split <;> omega
  apply Meets.bind
  apply sub_meets hblock
  apply Meets.bind
  apply sub_meets
  · split <;> omega
  apply Meets.pure
  refine ⟨⟨⟨?_, ?_⟩, hrefund, hblock, ⟨?_, ?_⟩, ?_, ?_⟩, rfl⟩
  · dsimp only; omega
  · dsimp only; omega
  · dsimp only
    split <;> omega
  · dsimp only
    split <;> omega
  · intro hprague
    rw [if_pos hprague]
    exact Nat.le_max_right _ _
  · intro hamsterdam
    rw [if_pos hamsterdam]
    exact Nat.le_max_left _ _

theorem setDelegation_nonneg (tx : Transaction) : 0 ≤ setDelegation tx := by
  apply List.sum_nonneg
  intro refund hmem
  obtain ⟨auth, _, rfl⟩ := List.mem_map.mp hmem
  split <;> decide

theorem setupEVM_meets (params : CallParams fork) {Q : Message → Machine → Prop}
    (hQ : ∀ msg : Message, msg.depth = 0 →
      msg.gas + msg.stateGasReservoir + params.intrinsic.execution = params.tx.gasLimit →
      Q msg s) :
    Meets (setupEVM fork params) s Q R := by
  have hmin := params.valid.minGasLimit
  have hle : ¬ params.tx.gasLimit < params.intrinsic.execution := by omega
  unfold setupEVM topFrameGas
  apply Meets.bind
  split
  · rename_i hfork
    have hmax := (params.valid.amsterdam hfork).1
    apply Meets.bind
    apply sub_meets (by omega)
    apply Meets.pure
    apply Meets.bind
    apply sub_meets (by omega)
    apply Meets.pure
    apply hQ
    · rfl
    · dsimp only; omega
  · apply Meets.pure
    apply Meets.bind
    apply sub_meets (Nat.le_refl _)
    apply Meets.pure
    apply hQ
    · rfl
    · dsimp only; omega

theorem runComputation_meets (params : CallParams fork) (selfDestructLen : Nat) (prog : Prog)
    (committed : Address → UInt256 → UInt256) :
    Meets (runComputation fork params selfDestructLen (prog.exec fork))
      { storage := Storage.persisted committed }
      (fun r s' => (∀ c ∈ s'.ended, Conserves c)
        ∧ (∃ gas reservoir auth, gas + reservoir + params.intrinsic.execution = params.tx.gasLimit
          ∧ TopEnds gas reservoir auth r.1)
        ∧ Charge fork params r.2)
      fun _ _ => False := by
  have hlimit := params.gasLimit_le
  apply Meets.bind
  apply setupEVM_meets
  intro msg hdepth hgas
  apply Meets.bind
  apply setGasMeter_meets
  apply (preExecComputation_meets params.tx (by omega) hdepth rfl _).andThen _
    fun _ _ hfail => hfail
  intro prepared s₁ hready
  apply (execTopFrame_meets (by omega) hready rfl rfl rfl
    (fun msg b s h => Prog.exec_stays prog msg h) _).andThen _ fun _ _ hfail => hfail
  intro c s₂ htop
  obtain ⟨htop, hended⟩ := htop
  have hpost := postExecComputation_topEnds htop fork selfDestructLen
  have hrefund : 0 ≤ (if fork < FkAmsterdam then setDelegation params.tx else 0) := by
    split
    · exact setDelegation_nonneg params.tx
    · exact Int.le_refl _
  apply (calculateAndPossiblyRefundGas_meets hrefund hpost (by omega) _).andThen
  · intro gasUsed s₃ hcharge
    obtain ⟨hcharge, rfl⟩ := hcharge
    apply Meets.pure
    exact ⟨hended, ⟨_, _, _, by omega, hpost⟩, hcharge⟩
  · exact fun _ _ hfail => hfail

theorem runComputation_conserves (params : CallParams fork) (selfDestructLen : Nat) (prog : Prog)
    (committed : Address → UInt256 → UInt256) :
    Meets (runComputation fork params selfDestructLen (prog.exec fork))
      { storage := Storage.persisted committed }
      (fun r s' => (∀ c ∈ s'.ended, Conserves c)
        ∧ r.1.gasMeter.executionGasLeft + r.1.gasMeter.stateGasLeft
            + params.intrinsic.execution ≤ params.tx.gasLimit
        ∧ Charge fork params r.2)
      fun _ _ => False := by
  apply (runComputation_meets params selfDestructLen prog committed).mono
  · intro r s' hr
    obtain ⟨hended, ⟨gas, reservoir, auth, hgas, htop⟩, hcharge⟩ := hr
    have hleft := htop.left
    exact ⟨hended, by omega, hcharge⟩
  · exact fun _ _ hfail => hfail

/-! ### System calls -/

theorem systemCall_meets (params : SysCallParams) (prog : Prog)
    (committed : Address → UInt256 → UInt256) :
    Meets (systemCall fork params (prog.exec fork)) { storage := Storage.persisted committed }
      (fun c s' => (∀ c ∈ s'.ended, Conserves c)
        ∧ 0 ≤ c.gasMeter.refundCounter
        ∧ c.gasMeter.executionGasLeft + c.gasMeter.stateGasLeft ≤
          params.gasLimit + (if FkAmsterdam ≤ fork then SYSTEM_STATE_GAS_RESERVOIR else 0))
      fun _ _ => False := by
  unfold systemCall
  generalize hreservoir : (if FkAmsterdam ≤ fork then SYSTEM_STATE_GAS_RESERVOIR else 0) = reservoir
  have hhigh : params.gasLimit + reservoir ≤ GasInt.high := by
    rw [← hreservoir]
    unfold SysCallParams.gasLimit
    split <;> decide
  split
  · exact Meets.pure ⟨fun _ hmem => (nomatch hmem), Int.le_refl _, Nat.le_refl _⟩
  · let b : Budget := ⟨params.gasLimit, params.gasLimit + reservoir, 0, by omega, hhigh⟩
    have hwithin : Within fork b
        { gasMeter := GasMeter.init params.gasLimit reservoir
          storage := Storage.persisted committed } := by
      constructor
      · exact Nat.le_refl _
      · rw [created_persisted]
        exact Nat.le_refl _
      · show (0 : Int) + clearRefund fork * cleared (Storage.persisted committed) ≤ 0
        rw [cleared_persisted]
        omega
      · exact fun _ hmem => nomatch hmem
    apply (execCallOrCreate_meets (Nat.le_refl _) hwithin
      (fun s h => Prog.exec_stays prog _ h) _).mono
    · intro c s' hc
      obtain ⟨hmsg, _, hends⟩ := hc
      have hused := hends.used
      have hgas : b.gas = params.gasLimit := rfl
      have htop : b.total = params.gasLimit + reservoir := rfl
      refine ⟨hends.ended, hends.refund, ?_⟩
      by_cases hsuccess : c.error = none
      · have htotal := (hends.success hsuccess).total
        dsimp only at htotal
        omega
      · have hstate := (hends.failure hsuccess).2.1
        dsimp only at hstate
        omega
    · exact fun _ _ hfail => hfail

theorem systemCall_conserves (params : SysCallParams) (prog : Prog)
    (committed : Address → UInt256 → UInt256) :
    Meets (systemCall fork params (prog.exec fork)) { storage := Storage.persisted committed }
      (fun c s' => (∀ c ∈ s'.ended, Conserves c)
        ∧ c.gasMeter.executionGasLeft + c.gasMeter.stateGasLeft ≤
          params.gasLimit + (if FkAmsterdam ≤ fork then SYSTEM_STATE_GAS_RESERVOIR else 0))
      fun _ _ => False := by
  apply (systemCall_meets params prog committed).mono
  · exact fun _ _ hc => ⟨hc.1, hc.2.2⟩
  · exact fun _ _ hfail => hfail

end

/-- Whatever a transaction or a system call executes, no counter leaves its range, every frame
hands back no more than it was given, and the gas that is charged is in its bounds. -/
theorem gas_conserved (fork : EVMFork) (prog : Prog) (committed : Address → UInt256 → UInt256) :
    (∀ (params : CallParams fork) (selfDestructLen : Nat),
      Meets (runComputation fork params selfDestructLen (prog.exec fork))
        { storage := Storage.persisted committed }
        (fun r s' => (∀ c ∈ s'.ended, Conserves c)
          ∧ r.1.gasMeter.executionGasLeft + r.1.gasMeter.stateGasLeft
              + params.intrinsic.execution ≤ params.tx.gasLimit
          ∧ Charge fork params r.2)
        fun _ _ => False)
    ∧ ∀ params : SysCallParams,
      Meets (systemCall fork params (prog.exec fork)) { storage := Storage.persisted committed }
        (fun c s' => (∀ c ∈ s'.ended, Conserves c)
          ∧ c.gasMeter.executionGasLeft + c.gasMeter.stateGasLeft ≤
            params.gasLimit + (if FkAmsterdam ≤ fork then SYSTEM_STATE_GAS_RESERVOIR else 0))
        fun _ _ => False :=
  ⟨fun params selfDestructLen => runComputation_conserves params selfDestructLen prog committed,
    fun params => systemCall_conserves params prog committed⟩

/-- A transaction whose access list names the only slot it clears. -/
def clearingTx : CallParams FkLondon where
  tx := { gasLimit := 100000, currentTarget := Vector.replicate 20 7 }
  intrinsic := ⟨25300, 21000⟩
  gasLimit_le := by decide
  valid := ⟨by decide, by decide, by decide⟩

/-- The refund brings the gas used below the intrinsic gas; and a system call that spends nothing
has more gas left than its gas limit. -/
theorem refund_below_intrinsic : ¬ Meets (runComputation FkLondon clearingTx 0
        (Prog.exec FkLondon (.opcode 3 (.opcode 3 (.sstore 1 0 false (.success []))))))
      { storage := Storage.persisted fun _ _ => 1 }
      (fun r _ => clearingTx.intrinsic.execution ≤ r.2.txGasUsed) (fun _ _ => True)
    ∧ ¬ Meets (systemCall FkAmsterdam ⟨Vector.replicate 20 7, false⟩
        (Prog.exec FkAmsterdam (.success [])))
      { storage := Storage.persisted fun _ _ => 0 }
      (fun c _ => c.gasMeter.executionGasLeft + c.gasMeter.stateGasLeft ≤ 30000000)
      (fun _ _ => True) := by
  decide

/-- Whatever a transaction or a system call executes, its top frame ends with a refund counter
that is not negative, and the assertion about it holds. -/
theorem refundCounter_nonneg (fork : EVMFork) (prog : Prog)
    (committed : Address → UInt256 → UInt256) :
    (∀ (params : CallParams fork) (selfDestructLen : Nat),
      Meets (runComputation fork params selfDestructLen (prog.exec fork))
        { storage := Storage.persisted committed }
        (fun r _ => r.1.msg.depth = 0 ∧ 0 ≤ r.1.gasMeter.refundCounter) fun _ _ => False)
    ∧ ∀ params : SysCallParams,
      Meets (systemCall fork params (prog.exec fork)) { storage := Storage.persisted committed }
        (fun c _ => 0 ≤ c.gasMeter.refundCounter) fun _ _ => False := by
  constructor
  · intro params selfDestructLen
    apply (runComputation_meets params selfDestructLen prog committed).mono
    · intro r s' hr
      obtain ⟨_, ⟨_, _, _, _, htop⟩, _⟩ := hr
      exact ⟨htop.depth, htop.refund⟩
    · exact fun _ _ hfail => hfail
  · intro params
    apply (systemCall_meets params prog committed).mono
    · exact fun _ _ hc => hc.2.1
    · exact fun _ _ hfail => hfail

end Nimbus.Spec.Evm
