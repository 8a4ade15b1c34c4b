import Nimbus.ForStd.ExecM
import Nimbus.Native.TxPacker
import Mathlib.Data.UInt

/-!
# Blob gas

Model of the part of `core/eip4844.nim` and `core/eip7691.nim` about the price of blob gas and
about its fields in headers. `fuel` is the number of turns after which a loop stops short.
-/

namespace Nimbus.Native.BlobGas

open Aristo (UInt256)
open Executor (Transaction)
open Packer (Header)

/-- `HardFork`, in the order of the source. -/
inductive HardFork where
  | Frontier
  | Homestead
  | DAOFork
  | Tangerine
  | Spurious
  | Byzantium
  | Constantinople
  | Petersburg
  | Istanbul
  | MuirGlacier
  | Berlin
  | London
  | ArrowGlacier
  | GrayGlacier
  | MergeFork
  | Shanghai
  | Cancun
  | Prague
  | Osaka
  | Bpo1
  | Bpo2
  | Bpo3
  | Bpo4
  | Bpo5
  | Amsterdam
  | Bogota

open HardFork

instance : LE HardFork := ⟨fun a b => a.ctorIdx ≤ b.ctorIdx⟩

instance (a b : HardFork) : Decidable (a ≤ b) :=
  inferInstanceAs (Decidable (a.ctorIdx ≤ b.ctorIdx))

/-- `configureBlobSchedule` replaces an update fraction of zero. -/
structure BlobSchedule where
  target : UInt64
  max : UInt64
  baseFeeUpdateFraction : UInt64
  fraction_pos : 0 < baseFeeUpdateFraction.toNat := by decide

/-- `toHardFork` finds the fork of a header in the table of transitions. The schedules are
initialized for the forks of headers. -/
structure CommonRef where
  cancunTime : Option UInt64
  toHardFork : Header → HardFork
  blobSchedule : HardFork → BlobSchedule

inductive Defect where
  | divByZero

abbrev Exec (α : Type) := ExecM Defect α

def GAS_PER_BLOB : UInt64 := 2 ^ 17
def MIN_BLOB_GASPRICE : UInt64 := 1
def BLOB_BASE_COST : UInt64 := 2 ^ 13

def u256 (x : UInt64) : UInt256 := BitVec.ofNat 256 x.toNat

/-- `x div y` -/
def divWord (x y : UInt256) : Exec UInt256 := if y = 0 then throw .divByZero else pure (x / y)

/-! ## The price -/

/-- The loop of `fakeExponential`. -/
def fakeExponentialLoop (numerator denominator : UInt256) :
    Nat → (i output numeratorAccum : UInt256) → Exec UInt256
  | 0, _, _, _ => ExecM.diverge
  | fuel + 1, i, output, numeratorAccum =>
    if numeratorAccum > 0 then do
      let output := output + numeratorAccum
      let numeratorAccum ← divWord (numeratorAccum * numerator) (denominator * i)
      fakeExponentialLoop numerator denominator fuel (i + 1) output numeratorAccum
    else pure output

def fakeExponential (fuel : Nat) (factor numerator denominator : UInt256) : Exec UInt256 := do
  let output ← fakeExponentialLoop numerator denominator fuel 1 0 (factor * denominator)
  divWord output denominator

section

variable (com : CommonRef) (fork : HardFork)

def getMaxBlobsPerBlock : UInt64 :=
  if ¬ Cancun ≤ fork then 0 else (com.blobSchedule fork).max

def getTargetBlobsPerBlock : UInt64 :=
  if ¬ Cancun ≤ fork then 0 else (com.blobSchedule fork).target

def getBlobBaseFeeUpdateFraction : UInt64 :=
  if ¬ Cancun ≤ fork then 0 else (com.blobSchedule fork).baseFeeUpdateFraction

def getMaxBlobGasPerBlock : UInt64 := getMaxBlobsPerBlock com fork * GAS_PER_BLOB

def getBlobBaseFee (fuel : Nat) (excessBlobGas : UInt64) : Exec UInt256 :=
  if Cancun ≤ fork then
    fakeExponential fuel (u256 MIN_BLOB_GASPRICE) (u256 excessBlobGas)
      (u256 (getBlobBaseFeeUpdateFraction com fork))
  else pure 0

/-! ## Headers -/

/-- What is added to the excess where the price of blob gas is low, EIP-7918. -/
def reserveExcess (excessBlobGas blobGasUsed : UInt64) : Exec UInt64 :=
  let maxBlobsPerBlock := getMaxBlobsPerBlock com fork
  if maxBlobsPerBlock = 0 then throw .divByZero
  else pure (excessBlobGas +
    blobGasUsed * (maxBlobsPerBlock - getTargetBlobsPerBlock com fork) / maxBlobsPerBlock)

def calcExcessBlobGas (fuel : Nat) (parent : Header) : Exec UInt64 :=
  let excessBlobGas := parent.excessBlobGas.getD 0
  let blobGasUsed := parent.blobGasUsed.getD 0
  let targetBlobGasPerBlock := getTargetBlobsPerBlock com fork * GAS_PER_BLOB
  if excessBlobGas + blobGasUsed < targetBlobGasPerBlock then pure 0
  else if Osaka ≤ fork then do
    let blobBaseFee ← getBlobBaseFee com fork fuel excessBlobGas
    if u256 BLOB_BASE_COST * parent.baseFeePerGas.getD 0 > u256 GAS_PER_BLOB * blobBaseFee then
      reserveExcess com fork excessBlobGas blobGasUsed
    else pure (excessBlobGas + blobGasUsed - targetBlobGasPerBlock)
  else pure (excessBlobGas + blobGasUsed - targetBlobGasPerBlock)

end

/-- `blobGasUsed` -/
def blobGasUsedBy (txs : List Transaction) : UInt64 :=
  txs.foldl (fun result tx => result + UInt64.ofNat tx.getTotalBlobGas) 0

def isCancunOrLater (com : CommonRef) (t : UInt64) : Bool :=
  match com.cancunTime with
  | none => false
  | some cancunTime => t ≥ cancunTime

def validateEip4844Header (com : CommonRef) (fuel : Nat) (header parentHeader : Header)
    (txs : List Transaction) : Exec (Except String Unit) :=
  if ¬ isCancunOrLater com header.timestamp then
    if header.blobGasUsed.isSome then
      pure (.error "unexpected EIP-4844 blobGasUsed in block header")
    else if header.excessBlobGas.isSome then
      pure (.error "unexpected EIP-4844 excessBlobGas in block header")
    else pure (.ok ())
  else
    match header.blobGasUsed, header.excessBlobGas with
    | none, _ => pure (.error "expect EIP-4844 blobGasUsed in block header")
    | some _, none => pure (.error "expect EIP-4844 excessBlobGas in block header")
    | some headerBlobGasUsed, some headerExcessBlobGas => do
      let fork := com.toHardFork header
      let blobGasUsed := blobGasUsedBy txs
      let excessBlobGas ← calcExcessBlobGas com fork fuel parentHeader
      let maxBlobGasPerBlock := getMaxBlobGasPerBlock com fork
      if blobGasUsed > maxBlobGasPerBlock then
        pure (.error ("blobGasUsed " ++ toString blobGasUsed ++
          " exceeds maximum allowance " ++ toString maxBlobGasPerBlock))
      else if headerBlobGasUsed ≠ blobGasUsed then
        pure (.error ("calculated blobGas: " ++ toString blobGasUsed ++
          " not equal header.blobGasUsed: " ++ toString headerBlobGasUsed))
      else if headerExcessBlobGas ≠ excessBlobGas then
        pure (.error ("calculated excessBlobGas: " ++ toString excessBlobGas ++
          " not equal header.excessBlobGas: " ++ toString headerExcessBlobGas))
      else pure (.ok ())

end Nimbus.Native.BlobGas
