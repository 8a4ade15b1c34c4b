import Nimbus.ForStd.ExecM
import Nimbus.Native.TxPacker
import Nimbus.Spec.BlockGas

/-!
# Transactions in their block

The counters of a block stay within its gas limit. What the capacity check reserves is an upper
bound of what the run adds, so a transaction that has been executed is never rejected, and a
transaction that is rejected has not been executed.
-/

namespace Nimbus.Spec.Executor

open Native Native.Executor
open Aristo (Defect)
open BalTracker (Tracker)
open Native.Evm (EVMFork IntrinsicGas GasUsed TX_MAX_GAS_LIMIT)
open Native.Evm.EVMFork
open Native.Packer (blockGasUsed)
open Spec.Evm (BlockCharge)

variable {ctx : BlockContext} {gas : BlockGas} {tx : Transaction} {gasUsed : GasUsed}

/-! ### The gas limit of the block -/

variable {error : TxError}

theorem failIf_ok {p : Prop} [Decidable p] {u : Unit}
    (h : failIf p error = .ok u) : ¬ p := by
  unfold failIf at h
  split at h
  · cases h
  · assumption

theorem gasSub_of_le {a b : Nat} (h : b ≤ a) : gasSub a b = a - b := if_pos h

theorem gasAdd_of_lt {a b : Nat} (h : a + b < 2 ^ 64) : gasAdd a b = a + b := Nat.mod_eq_of_lt h

/-- There is room for all that the transaction may add to the counters. -/
def Fits (ctx : BlockContext) (gas : BlockGas) (tx : Transaction) : Prop :=
  if FkAmsterdam ≤ ctx.fork then
    gas.blockExecutionGasUsed + min TX_MAX_GAS_LIMIT tx.gasLimit.toNat ≤ ctx.gasLimit.toNat
      ∧ gas.blockStateGasUsed + tx.gasLimit.toNat ≤ ctx.gasLimit.toNat
  else gas.cumulativeGasUsed + tx.gasLimit.toNat ≤ ctx.gasLimit.toNat

theorem checkBlockGasCapacity_fits (hlimit : blockGasUsed ctx.fork gas ≤ ctx.gasLimit.toNat)
    (h : checkBlockGasCapacity ctx gas tx = .ok ()) : Fits ctx gas tx := by
  unfold blockGasUsed at hlimit
  unfold checkBlockGasCapacity at h
  unfold Fits
  by_cases hfork : FkAmsterdam ≤ ctx.fork
  · simp only [if_pos hfork] at hlimit h ⊢
    obtain ⟨_, hexecution, h⟩ := except_bind_ok.mp h
    obtain ⟨_, hstate, -⟩ := except_bind_ok.mp h
    have hexecution := failIf_ok hexecution
    have hstate := failIf_ok hstate
    rw [gasSub_of_le (by omega)] at hexecution hstate
    omega
  · simp only [if_neg hfork] at hlimit h ⊢
    obtain ⟨_, hgas, -⟩ := except_bind_ok.mp h
    have hgas := failIf_ok hgas
    rw [gasSub_of_le hlimit] at hgas
    omega

/-- The sums of the counters do not wrap around, and stay within the limit. -/
theorem blockGasUsed_count_le (hfits : Fits ctx gas tx)
    (hcharge : BlockCharge ctx.fork tx.gasLimit.toNat gasUsed) :
    blockGasUsed ctx.fork (gas.count tx gasUsed) ≤ ctx.gasLimit.toNat := by
  have hlt := ctx.gasLimit.toNat_lt
  have htx := hcharge.txGasUsed
  have hexecution := hcharge.blockExecutionGas
  have hstate := hcharge.blockStateGas
  unfold Fits at hfits
  unfold blockGasUsed BlockGas.count
  by_cases hfork : FkAmsterdam ≤ ctx.fork
  · have hcap := hcharge.executionCap hfork
    simp only [if_pos hfork] at hfits ⊢
    rw [gasAdd_of_lt (by omega), gasAdd_of_lt (by omega)]
    omega
  · simp only [if_neg hfork] at hfits ⊢
    rw [gasAdd_of_lt (by omega)]
    omega

theorem blockGasLimitReached_eq (ctx : BlockContext) (gas : BlockGas) (tx : Transaction)
    (gasUsed : GasUsed) :
    blockGasLimitReached ctx gas gasUsed
      = decide (ctx.gasLimit.toNat < blockGasUsed ctx.fork (gas.count tx gasUsed)) := by
  unfold blockGasLimitReached blockGasUsed BlockGas.count
  split <;> rfl

/-- A transaction that fits is not rejected once it has been executed. -/
theorem blockGasLimitReached_eq_false (hfits : Fits ctx gas tx)
    (hcharge : BlockCharge ctx.fork tx.gasLimit.toNat gasUsed) :
    blockGasLimitReached ctx gas gasUsed = false := by
  have hle := blockGasUsed_count_le hfits hcharge
  rw [blockGasLimitReached_eq ctx gas tx]
  exact decide_eq_false (by omega)

/-! ### One transaction -/

section
variable [Keccak] {sender : Address} {intrinsic : IntrinsicGas} {run : EvmRun} {persist : Bool}
  {s s' : VmState} {res : Except TxError TxResult}

theorem commitOrRollback_accepted {tracker : Option Tracker} {m : Interpreter.Machine}
    (hreached : blockGasLimitReached ctx s.gas gasUsed = false)
    (h : commitOrRollbackDependingOnGasUsed ctx tx s gasUsed tracker m = .ok (res, s')) :
    ∃ value, res = .ok value ∧ s'.gas = s.gas.count tx gasUsed := by
  obtain ⟨tracker', -, h⟩ := except_bind_ok.mp h
  rw [hreached] at h
  cases h
  exact ⟨_, rfl, rfl⟩

/-- A transaction is rejected before anything is done, or it is executed and counted. -/
theorem processTransaction_cases (hlimit : blockGasUsed ctx.fork s.gas ≤ ctx.gasLimit.toNat)
    (h : processTransaction ctx tx sender intrinsic run persist s = .ok (res, s')) :
    (∃ error, res = .error error ∧ s' = s) ∨
      ∃ value gasUsed, res = .ok value ∧ Fits ctx s.gas tx
        ∧ BlockCharge ctx.fork tx.gasLimit.toNat gasUsed ∧ s'.gas = s.gas.count tx gasUsed := by
  unfold processTransaction at h
  cases hvalid : validateForInclusion ctx s.gas s.ledger tx sender (run.gasTransaction tx)
      intrinsic with
  | error error =>
    simp only [hvalid] at h
    cases h
    exact .inl ⟨error, rfl, rfl⟩
  | ok u =>
    obtain ⟨_, hcapacity, -⟩ := except_bind_ok.mp hvalid
    have hfits := checkBlockGasCapacity_fits hlimit hcapacity
    simp only [hvalid] at h
    split at h
    · split at h
      · cases h
      · next c gasUsed _ hrun =>
        have hcharge := Evm.runComputation_block hrun
        obtain ⟨m, -, h⟩ := except_bind_ok.mp h
        obtain ⟨⟨res', s₁⟩, hcommit, h⟩ := except_bind_ok.mp h
        obtain ⟨value, hres, hgas⟩ :=
          commitOrRollback_accepted (blockGasLimitReached_eq_false hfits hcharge) hcommit
        cases h
        refine .inr ⟨value, gasUsed, hres, hfits, hcharge, ?_⟩
        rw [← hgas]
        split <;> rfl
    · cases h

/-! ### The runs of a block -/

/-- The states of a block: the counters begin at zero, and only transactions add to them. -/
inductive BlockState (ctx : BlockContext) : VmState → Prop where
  | start {s : VmState} (hgas : s.gas = {}) : BlockState ctx s
  | transaction {s s' : VmState} {tx : Transaction} {sender : Address}
      {intrinsic : IntrinsicGas} {run : EvmRun} {persist : Bool}
      {res : Except TxError TxResult} (h : BlockState ctx s)
      (hstep : processTransaction ctx tx sender intrinsic run persist s = .ok (res, s')) :
      BlockState ctx s'
  /-- system calls, withdrawals, and the steps of the tracker -/
  | other {s s' : VmState} (h : BlockState ctx s) (hgas : s'.gas = s.gas) : BlockState ctx s'

theorem BlockState.gas_le (h : BlockState ctx s) :
    blockGasUsed ctx.fork s.gas ≤ ctx.gasLimit.toNat := by
  induction h with
  | start hgas =>
    rw [hgas]
    unfold blockGasUsed
    split <;> exact Nat.zero_le _
  | transaction h hstep ih =>
    rcases processTransaction_cases ih hstep with
      ⟨error, -, rfl⟩ | ⟨value, gasUsed, -, hfits, hcharge, hgas⟩
    · exact ih
    · rw [hgas]
      exact blockGasUsed_count_le hfits hcharge
  | other h hgas ih =>
    rw [hgas]
    exact ih

theorem processTransaction_error (hs : BlockState ctx s)
    (h : processTransaction ctx tx sender intrinsic run persist s = .ok (.error error, s')) :
    s' = s := by
  rcases processTransaction_cases hs.gas_le h with
    ⟨error', -, heq⟩ | ⟨value, gasUsed, hres, -⟩
  · exact heq
  · cases hres

theorem processTransaction_accepted {value : TxResult} (hs : BlockState ctx s)
    (h : processTransaction ctx tx sender intrinsic run persist s = .ok (.ok value, s')) :
    ∃ gasUsed, Fits ctx s.gas tx ∧ BlockCharge ctx.fork tx.gasLimit.toNat gasUsed
      ∧ s'.gas = s.gas.count tx gasUsed := by
  rcases processTransaction_cases hs.gas_le h with
    ⟨error, hres, -⟩ | ⟨_, gasUsed, -, hcounted⟩
  · cases hres
  · exact ⟨gasUsed, hcounted⟩

theorem setBlockAccessIndex_state {n : Nat} (h : BlockState ctx s) :
    BlockState ctx (s.setBlockAccessIndex n) := h.other rfl

omit [Keccak] in
theorem ensureIndexCount_idem (builder : BalTracker.BlockAccessListBuilder) (n : Nat) :
    (builder.ensureIndexCount n).ensureIndexCount n = builder.ensureIndexCount n := by
  have hlen : n - (builder.ensureIndexCount n).perIndex.length = 0 := by
    show n - (builder.perIndex ++ List.replicate _ _).length = 0
    rw [List.length_append, List.length_replicate]
    omega
  show BalTracker.BlockAccessListBuilder.mk (_ ++ List.replicate (n - _) _) = _
  rw [hlen, List.replicate_zero, List.append_nil]

omit [Keccak] in
/-- An index that is set twice, as after a rejected transaction, is set once. -/
theorem setBlockAccessIndex_idem (s : VmState) (n : Nat) :
    (s.setBlockAccessIndex n).setBlockAccessIndex n = s.setBlockAccessIndex n := by
  unfold VmState.setBlockAccessIndex
  cases s.balTracker with
  | none => rfl
  | some tracker =>
    unfold Tracker.setBlockAccessIndex
    simp only [Option.map_some, ensureIndexCount_idem]
    rfl

/-- The loop that starts in the middle, and the index after it. -/
def execFrom (ctx : BlockContext) (txList includedTx : List Attempt) (s : VmState) :
    Except Defect (List Attempt × VmState) := do
  let (includedTx, s) ← execTransactions ctx txList includedTx s
  return (includedTx, s.setBlockAccessIndex (includedTx.length + 1))

theorem execFrom_setBlockAccessIndex (txList includedTx : List Attempt) (s : VmState) :
    execFrom ctx txList includedTx (s.setBlockAccessIndex (includedTx.length + 1))
      = execFrom ctx txList includedTx s := by
  cases txList with
  | nil =>
    show Except.ok (_, VmState.setBlockAccessIndex _ _) = Except.ok _
    rw [setBlockAccessIndex_idem]
  | cons a txList =>
    unfold execFrom execTransactions
    rw [setBlockAccessIndex_idem]

variable {includedTx : List Attempt} {txList : List Attempt}

theorem execFrom_rejected {a : Attempt}
    (h : processTransaction ctx a.tx a.sender a.intrinsic a.run true
      (s.setBlockAccessIndex (includedTx.length + 1)) = .ok (.error error, s')) :
    execFrom ctx (a :: txList) includedTx s = execFrom ctx txList includedTx s' := by
  unfold execFrom
  rw [execTransactions, h]
  rfl

theorem execFrom_accepted {a : Attempt} {value : TxResult}
    (h : processTransaction ctx a.tx a.sender a.intrinsic a.run true
      (s.setBlockAccessIndex (includedTx.length + 1)) = .ok (.ok value, s')) :
    execFrom ctx (a :: txList) includedTx s = execFrom ctx txList (includedTx ++ [a]) s' := by
  unfold execFrom
  rw [execTransactions, h]
  rfl

theorem execFrom_included {included : List Attempt} (hs : BlockState ctx s)
    (h : execFrom ctx txList includedTx s = .ok (included, s')) :
    ∃ kept, included = includedTx ++ kept
      ∧ execFrom ctx kept includedTx s = .ok (included, s') := by
  induction txList generalizing includedTx s with
  | nil =>
    obtain ⟨_, hloop, hend⟩ := except_bind_ok.mp h
    cases hloop
    cases hend
    exact ⟨[], (List.append_nil _).symm, rfl⟩
  | cons a txList ih =>
    have hindex := setBlockAccessIndex_state (n := includedTx.length + 1) hs
    obtain ⟨_, hloop, -⟩ := except_bind_ok.mp h
    obtain ⟨⟨res, s₁⟩, hstep, -⟩ := except_bind_ok.mp hloop
    cases res with
    | error error =>
      -- nothing has happened but for the index, which the next transaction sets again
      rw [execFrom_rejected hstep, processTransaction_error hindex hstep] at h
      obtain ⟨kept, hkept, hrun⟩ := ih hindex h
      rw [execFrom_setBlockAccessIndex] at hrun
      exact ⟨kept, hkept, hrun⟩
    | ok value =>
      rw [execFrom_accepted hstep] at h
      obtain ⟨kept, hkept, hrun⟩ := ih (hindex.transaction hstep) h
      rw [List.append_assoc] at hkept
      exact ⟨a :: kept, hkept, (execFrom_accepted hstep).trans hrun⟩

/-- A rejected transaction leaves no trace: the state is what it was, and a block is the one that
its included transactions make without the others. -/
theorem rejected_leaves_no_trace (hs : BlockState ctx s) :
    (∀ {tx sender intrinsic run persist error s'},
      processTransaction ctx tx sender intrinsic run persist s = .ok (.error error, s') →
        s' = s) ∧
    ∀ {txList includedTx s'}, exec ctx txList s = .ok (includedTx, s') →
      exec ctx includedTx s = .ok (includedTx, s') := by
  constructor
  · exact processTransaction_error hs
  · intro txList includedTx s' h
    have hfrom : execFrom ctx txList [] s = .ok (includedTx, s') := h
    obtain ⟨kept, hkept, hrun⟩ := execFrom_included hs hfrom
    rw [hkept] at hrun ⊢
    exact hrun

/-! ### The gas of a block -/

/-- The counters that the gas limit of the block is about have grown by what was charged. -/
def AddsUp (fork : EVMFork) (gas gas' : BlockGas) (charges : List GasUsed) : Prop :=
  if FkAmsterdam ≤ fork then
    gas'.blockExecutionGasUsed
        = gas.blockExecutionGasUsed + (charges.map (·.blockExecutionGasUsed)).sum
      ∧ gas'.blockStateGasUsed = gas.blockStateGasUsed + (charges.map (·.blockStateGasUsed)).sum
  else gas'.cumulativeGasUsed = gas.cumulativeGasUsed + (charges.map (·.txGasUsed)).sum

omit [Keccak] in
/-- What fits does not wrap around. -/
theorem AddsUp.cons {gas' : BlockGas} {charges : List GasUsed} (hfits : Fits ctx gas tx)
    (hcharge : BlockCharge ctx.fork tx.gasLimit.toNat gasUsed)
    (h : AddsUp ctx.fork (gas.count tx gasUsed) gas' charges) :
    AddsUp ctx.fork gas gas' (gasUsed :: charges) := by
  have hlt := ctx.gasLimit.toNat_lt
  have htx := hcharge.txGasUsed
  have hexecution := hcharge.blockExecutionGas
  have hstate := hcharge.blockStateGas
  unfold AddsUp BlockGas.count at h
  unfold Fits at hfits
  unfold AddsUp
  simp only [List.map_cons, List.sum_cons]
  by_cases hfork : FkAmsterdam ≤ ctx.fork
  · have hcap := hcharge.executionCap hfork
    simp only [if_pos hfork] at h hfits ⊢
    rw [gasAdd_of_lt (by omega), gasAdd_of_lt (by omega)] at h
    omega
  · simp only [if_neg hfork] at h hfits ⊢
    rw [gasAdd_of_lt (by omega)] at h
    omega

theorem execTransactions_addsUp {included : List Attempt} (hs : BlockState ctx s)
    (h : execTransactions ctx txList includedTx s = .ok (included, s')) :
    BlockState ctx s' ∧ ∃ kept charges, included = includedTx ++ kept ∧ kept.Sublist txList ∧
      List.Forall₂ (fun a => BlockCharge ctx.fork a.tx.gasLimit.toNat) kept charges ∧
      AddsUp ctx.fork s.gas s'.gas charges := by
  induction txList generalizing includedTx s with
  | nil =>
    cases h
    exact ⟨hs, [], [], (List.append_nil _).symm, .slnil, .nil, by simp [AddsUp]⟩
  | cons a txList ih =>
    have hindex := setBlockAccessIndex_state (n := includedTx.length + 1) hs
    obtain ⟨⟨res, s₁⟩, hstep, h⟩ := except_bind_ok.mp h
    cases res with
    | error error =>
      obtain ⟨hs', kept, charges, heq, hsub, hcharges, hsum⟩ := ih (hindex.transaction hstep) h
      rw [processTransaction_error hindex hstep] at hsum
      exact ⟨hs', kept, charges, heq, hsub.cons a, hcharges, hsum⟩
    | ok value =>
      obtain ⟨gasUsed, hfits, hcharge, hgas⟩ := processTransaction_accepted hindex hstep
      obtain ⟨hs', kept, charges, heq, hsub, hcharges, hsum⟩ := ih (hindex.transaction hstep) h
      rw [hgas] at hsum
      rw [List.append_assoc] at heq
      exact ⟨hs', a :: kept, gasUsed :: charges, heq, hsub.cons_cons a, .cons hcharge hcharges,
        hsum.cons hfits hcharge⟩

end

/-- A hash for runs that do not hash. -/
@[reducible]
def zeroKeccak : Keccak := ⟨fun _ => Vector.replicate 32 0⟩

def emptyState : VmState where
  ledger :=
    { balance := fun _ => 0
      nonce := fun _ => 0
      code := fun _ => []
      storage := fun _ _ => 0 }

def smallBlock : BlockContext where
  fork := FkFrontier
  gasLimit := 30000
  baseFeePerGas := 0
  coinbase := Vector.replicate 20 7

/-- A call of an account without code. -/
def plainCall : Attempt where
  tx :=
    { txType := .TxLegacy
      nonce := 0
      gasLimit := 25000
      recipient := some (Vector.replicate 20 1) }
  sender := Vector.replicate 20 2
  intrinsic := ⟨21000, 0⟩
  run :=
    { prog := .success []
      gasProg := .success []
      gasTx := { gasLimit := 25000, currentTarget := Vector.replicate 20 1 } }

/-- The second call finds too little gas left. -/
theorem rejected_leaves_no_trace_second : ∃ s',
    @exec zeroKeccak smallBlock [plainCall, plainCall] emptyState = .ok ([plainCall], s')
      ∧ @exec zeroKeccak smallBlock [plainCall] emptyState = .ok ([plainCall], s') :=
  let _ : Keccak := zeroKeccak
  have hrun : exec smallBlock [plainCall, plainCall] emptyState = .ok (_, _) := rfl
  ⟨_, hrun, (rejected_leaves_no_trace (.start rfl)).2 hrun⟩

end Nimbus.Spec.Executor
