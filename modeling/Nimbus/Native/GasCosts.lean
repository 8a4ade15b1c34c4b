import Nimbus.Native.CoreDb

/-!
# Gas costs

Model of the storage, call and create parts of
`execution_chain/evm/interpreter/gas_costs.nim`, with `common/evmforks.nim` and
`core/eip8037.nim`. An operand that a handler of `gas_costs.nim` gets from a callback (is the
account cold, is it new) is an argument here.
-/

namespace Nimbus.Native.Evm

open Aristo (UInt256)

inductive EVMFork where
  | FkFrontier
  | FkHomestead
  | FkTangerine
  | FkSpurious
  | FkByzantium
  | FkConstantinople
  | FkPetersburg
  | FkIstanbul
  | FkBerlin
  | FkLondon
  | FkParis
  | FkShanghai
  | FkCancun
  | FkPrague
  | FkOsaka
  | FkAmsterdam
  | FkBogota
  deriving DecidableEq

open EVMFork

instance : LE EVMFork := ⟨fun a b => a.ctorIdx ≤ b.ctorIdx⟩

instance : LT EVMFork := ⟨fun a b => a.ctorIdx < b.ctorIdx⟩

instance (a b : EVMFork) : Decidable (a ≤ b) := inferInstanceAs (Decidable (a.ctorIdx ≤ b.ctorIdx))

instance (a b : EVMFork) : Decidable (a < b) := inferInstanceAs (Decidable (a.ctorIdx < b.ctorIdx))

/-- `high(Nat)`. A `GasInt` is a `Nat` here. -/
def GasInt.high : Nat := 2 ^ 64 - 1

/-! ### Fee schedule -/

/-- The entries of a fee schedule that calls, creations and storage writes are charged by. -/
structure GasFeeSchedule where
  GasSload : Nat := 50
  GasSset : Nat := 20000
  GasSreset : Nat := 5000
  RefundsClear : Nat := 15000
  RefundSelfDestruct : Nat := 24000
  GasCreate : Nat := 32000
  GasCodeDeposit : Nat := 200
  GasCall : Nat := 40
  GasCallValue : Nat := 9000
  GasCallStipend : Nat := 2300
  GasNewAccount : Nat := 25000
  GasMemory : Nat := 3
  GasSha3Word : Nat := 6
  GasInitcodeWord : Nat := 0

def COLD_ACCOUNT_ACCESS_8038 : Nat := 3000
def COLD_STORAGE_ACCESS_8038 : Nat := 2100
def ACCOUNT_WRITE_8038 : Nat := 9000
def STORAGE_WRITE_8038 : Nat := 10000
def COLD_STORAGE_ACCESS_2929 : Nat := 2100
def COLD_ACCOUNT_ACCESS_2929 : Nat := 2600
def WARM_ACCESS : Nat := 100
def ACCESS_LIST_STORAGE_KEY_COST_2930 : Nat := 1900

def STATE_BYTES_PER_NEW_ACCOUNT : Nat := 120
def STATE_BYTES_PER_AUTH_BASE : Nat := 23
def STATE_BYTES_PER_STORAGE_SET : Nat := 64
def COST_PER_STATE_BYTE : Nat := 1530
def CREATE_ACCOUNT_STATE_GAS : Nat := COST_PER_STATE_BYTE * STATE_BYTES_PER_NEW_ACCOUNT
def STATE_GAS_STORAGE_SET : Nat := COST_PER_STATE_BYTE * STATE_BYTES_PER_STORAGE_SET
def AUTH_BASE_STATE_GAS : Nat := STATE_BYTES_PER_AUTH_BASE * COST_PER_STATE_BYTE
def SYSTEM_MAX_SSTORES_PER_CALL : Nat := 16
def SYSTEM_STATE_GAS_RESERVOIR : Nat :=
  STATE_BYTES_PER_STORAGE_SET * COST_PER_STATE_BYTE * SYSTEM_MAX_SSTORES_PER_CALL

def BaseGasFees : GasFeeSchedule := {}
def TangerineGasFees : GasFeeSchedule := { BaseGasFees with GasSload := 200, GasCall := 700 }
def IstanbulGasFees : GasFeeSchedule := { TangerineGasFees with GasSload := 800 }
def BerlinGasFees : GasFeeSchedule := { IstanbulGasFees with GasSload := 0, GasCall := WARM_ACCESS }
def LondonGasFees : GasFeeSchedule :=
  { BerlinGasFees with
    RefundsClear := 5000 - COLD_STORAGE_ACCESS_2929 + ACCESS_LIST_STORAGE_KEY_COST_2930 }
def ShanghaiGasFees : GasFeeSchedule := { LondonGasFees with GasInitcodeWord := 2 }
def AmsterdamGasFees : GasFeeSchedule :=
  { ShanghaiGasFees with
    GasCreate := ACCOUNT_WRITE_8038 + COLD_ACCOUNT_ACCESS_8038
    RefundsClear := 11616
    GasCallValue := ACCOUNT_WRITE_8038 + ShanghaiGasFees.GasCallStipend }

variable (fork : EVMFork)

/-- `gasFees`. The schedules of Homestead and of the forks from Spurious Dragon to Petersburg
differ from the ones before them in entries that are not used here. -/
def gasFees : GasFeeSchedule :=
  if fork < FkTangerine then BaseGasFees
  else if fork < FkIstanbul then TangerineGasFees
  else if fork < FkBerlin then IstanbulGasFees
  else if fork < FkLondon then BerlinGasFees
  else if fork < FkShanghai then LondonGasFees
  else if fork < FkAmsterdam then ShanghaiGasFees
  else AmsterdamGasFees

/-- The fork whose gas cost table a fork uses. -/
def forkToSchedule : EVMFork :=
  if fork < FkHomestead then FkFrontier
  else if fork < FkTangerine then FkHomestead
  else if fork < FkSpurious then FkTangerine
  else if fork = FkConstantinople then FkConstantinople
  else if fork < FkIstanbul then FkSpurious
  else if fork < FkBerlin then FkIstanbul
  else if fork < FkLondon then FkBerlin
  else if fork < FkShanghai then FkLondon
  else if fork < FkAmsterdam then FkShanghai
  else FkAmsterdam

/-! ### Gas costs -/

/-- `high(int32) shr 2`, above which `cleanMemRef` cuts a memory operand off. -/
def cleanMemRefBound : Nat := 2 ^ 29 - 1

def cleanMemRef (x : UInt256) : Nat :=
  if x.toNat > cleanMemRefBound then cleanMemRefBound else x.toNat

def safeInt (x : UInt256) : Nat := if x.toNat > 2 ^ 31 - 1 then 2 ^ 31 - 1 else x.toNat

def wordCount (length : Nat) : Nat := (length + 31) / 32

def calcMemSize (offset length : Nat) : Nat := if length = 0 then 0 else offset + length

def gasMemoryExpansion (currentMemSize memOffset memLength : Nat) : Nat :=
  let prevWords := wordCount currentMemSize
  let newWords := wordCount (memOffset + memLength)
  if memLength = 0 ∨ newWords ≤ prevWords then 0
  else
    let prevCost := prevWords * (gasFees fork).GasMemory + prevWords ^ 2 / 512
    let newCost := newWords * (gasFees fork).GasMemory + newWords ^ 2 / 512
    newCost - prevCost

def gasCreate (fork : EVMFork) (currentMemSize memOffset memLength : Nat) : Nat :=
  (gasFees fork).GasCreate + (gasFees fork).GasInitcodeWord * wordCount memLength
    + gasMemoryExpansion fork currentMemSize memOffset memLength

/-- `gasCreate` for the deposit of `memLength` bytes of code. -/
def gasCodeDeposit (memLength : Nat) : Nat :=
  (gasFees fork).GasCodeDeposit * memLength

def gasCreate2 (memLength : Nat) : Nat :=
  (gasFees fork).GasSha3Word * wordCount memLength

structure GasParamsSs where
  currentValue : UInt256
  originalValue : UInt256

structure SStoreGasResult where
  gasCost : Nat := 0
  gasRefund : Int := 0
  stateGas : Nat := 0
  creditStateGas : Nat := 0

/-- `fork` is a fork that has a cost table of its own. -/
def gasSstore (value : UInt256) (params : GasParamsSs) : SStoreGasResult :=
  let fees := gasFees fork
  let sloadGas := if FkBerlin ≤ fork then WARM_ACCESS else fees.GasSload
  let sstoreResetGas :=
    if FkBerlin ≤ fork then 5000 - COLD_STORAGE_ACCESS_2929 else fees.GasSreset
  let initRefund : Int := fees.GasSset - sloadGas
  let cleanRefund : Int := sstoreResetGas - sloadGas
  let clearRefund : Int := fees.RefundsClear
  if fork < FkConstantinople ∨ fork = FkPetersburg then
    { gasCost := if value ≠ 0 ∧ params.currentValue = 0 then fees.GasSset else sstoreResetGas
      gasRefund := if value = 0 ∧ params.currentValue ≠ 0 then clearRefund else 0 }
  else if params.currentValue = value then
    { gasCost := if fork < FkAmsterdam then sloadGas else 0 }
  else if params.originalValue = params.currentValue then
    if FkAmsterdam ≤ fork then
      if params.originalValue = 0 then
        { gasCost := STORAGE_WRITE_8038, stateGas := STATE_GAS_STORAGE_SET }
      else
        { gasCost := STORAGE_WRITE_8038, gasRefund := if value = 0 then clearRefund else 0 }
    else if params.originalValue = 0 then
      { gasCost := fees.GasSset }
    else
      { gasCost := sstoreResetGas, gasRefund := if value = 0 then clearRefund else 0 }
  else
    -- the slot is dirty
    let recreated := if params.originalValue ≠ 0 ∧ params.currentValue = 0 then clearRefund else 0
    let deleted := if params.originalValue ≠ 0 ∧ value = 0 then clearRefund else 0
    let reset := params.originalValue = value
    let resetRefund : Int :=
      if ¬ reset then 0
      else if FkAmsterdam ≤ fork then STORAGE_WRITE_8038
      else if params.originalValue = 0 then initRefund
      else cleanRefund
    { gasCost := if fork < FkAmsterdam then sloadGas else 0
      gasRefund := deleted - recreated + resetRefund
      creditStateGas :=
        if reset ∧ params.originalValue = 0 ∧ FkAmsterdam ≤ fork then STATE_GAS_STORAGE_SET
        else 0 }

def all_but_one_64th (gas : Nat) : Nat := gas - gas / 64

end Nimbus.Native.Evm
