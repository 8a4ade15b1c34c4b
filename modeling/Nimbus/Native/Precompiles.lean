import Nimbus.ForStd.Bytes
import Nimbus.Native.GasMeter
import Nimbus.Native.ModExp

/-!
# The precompile of modular exponentiation

Model of `modExp` in `evm/precompiles.nim` and of the parts of `utils/utils_numeric.nim` it uses.
An `int` is an integer, a `UInt256` a word whose operations wrap. The power itself is that of
`Native.ModExp`; an assertion that fails there ends the program.
-/

namespace Nimbus.Native.Evm.Precompiles

open Aristo (UInt256)
open EVMFork
open ModExp (BoringSSL modExpInto)

/-- `EvmErrorCode`, as far as `modExp` goes. -/
inductive EvmErrorCode where
  | OutOfGas
  | PrcInvalidParam

/-- How a call ends that returns no output. -/
inductive Failure where
  | err (code : EvmErrorCode)
  | defect

structure Computation where
  msgData : List UInt8
  gasMeter : GasMeter
  output : List UInt8 := []

abbrev PrcM := EStateM Failure Computation

def consumeGas (amount : Nat) : PrcM Unit := do
  let c ← get
  if amount > c.gasMeter.executionGasLeft then throw (.err .OutOfGas)
  else
    set { c with gasMeter := { c.gasMeter with
      executionGasUsed := c.gasMeter.executionGasUsed + amount
      executionGasLeft := c.gasMeter.executionGasLeft - amount } }

/-! ## Parts of the data -/

def fromBytesBE (bytes : List UInt8) : UInt256 := BitVec.ofNat 256 (fromBytesLE bytes.reverse)

/-- `x.toOpenArray(lo, hi)`, copied to the start of `size` zeros. -/
def copied (x : List UInt8) (lo hi : Int) (size : Nat) : List UInt8 :=
  let part := (x.drop lo.toNat).take (hi - lo + 1).toNat
  part ++ List.replicate (size - part.length) 0

/-- `rangeToPadded[UInt256]` -/
def rangeToPaddedInt (x : List UInt8) (first last : Int) (size : Nat) : UInt256 :=
  let lo := max 0 first
  let hi := min (min ((x.length : Int) - 1) last) (lo + 32 - 1)
  if ¬ lo ≤ hi then 0
  else fromBytesBE ((copied x lo hi 32).take size)

def rangeToPaddedU256 (x : List UInt8) (first last : Int) : UInt256 :=
  rangeToPaddedInt x first last 32

def rangeToPadded (x : List UInt8) (first : Int) (size : Nat) : List UInt8 :=
  let last := first + size - 1
  let lo := max 0 first
  let hi := min (min ((x.length : Int) - 1) last) (lo + size - 1)
  if ¬ lo ≤ hi then List.replicate size 0
  else copied x lo hi size

/-! ## The price -/

def log2 (value : UInt256) : Nat := Nat.log2 value.toNat

def mulComplexity (x : UInt256) : UInt256 :=
  if x ≤ 64 then x * x
  else if x ≤ 1024 then x * x / 4 + 96 * x - 3072
  else x * x / 16 + 480 * x - 199680

def mulComplexityEIP2565 (x : UInt256) : UInt256 :=
  let result := (x + 7) >>> 3
  result * result

def GasQuadDivisor : UInt256 := 20
def GasQuadDivisorEIP2565 : UInt256 := 3

/-- `high(int32)` -/
def highInt32 : Nat := 2 ^ 31 - 1

/-- `high(GasInt)` -/
def highGasInt : Nat := 2 ^ 64 - 1

variable (data : List UInt8)

/-- The head of the exponent, unless the lengths are too long for an `int32`. -/
def expHead (baseLen expLen : UInt256) : UInt256 :=
  let baseL := safeInt baseLen
  let expL := safeInt expLen
  if baseL + expL < highInt32 ∧ baseL < data.length then
    rangeToPaddedInt data (96 + baseL) (95 + baseL + expL) (min expL 32)
  else 0

/-- `adjExpLen` of `modExpFee`. -/
def adjExpLen (expLen first32 : UInt256) : UInt256 :=
  if expLen ≤ 32 then
    if first32 = 0 then 0 else BitVec.ofNat 256 (log2 first32)
  else if first32 ≠ 0 then (expLen - 32) <<< 3 + BitVec.ofNat 256 (log2 first32)
  else (expLen - 32) <<< 3

/-- `max` of words -/
def maxWord (x y : UInt256) : UInt256 := if y < x then x else y

def gasCalc (comp : UInt256 → UInt256) (divisor baseLen modLen adjExpLen : UInt256) : UInt256 :=
  comp (maxWord modLen baseLen) * maxWord adjExpLen 1 / divisor

def minPrice : Nat := 200

def modExpFee (baseLen expLen modLen : UInt256) (fork : EVMFork) : Except EvmErrorCode Nat :=
  let adj := adjExpLen expLen (expHead data baseLen expLen)
  let gasFee :=
    if FkBerlin ≤ fork then gasCalc mulComplexityEIP2565 GasQuadDivisorEIP2565 baseLen modLen adj
    else gasCalc mulComplexity GasQuadDivisor baseLen modLen adj
  if gasFee.toNat > highGasInt then .error .OutOfGas
  else
    let res := gasFee.toNat % 2 ^ 64
    if FkBerlin ≤ fork ∧ res < minPrice then .ok minPrice else .ok res

def mulComplexityEIP7883 (maxLen : Nat) : Nat :=
  if maxLen > 32 then
    let result := (maxLen + 7) / 8
    result * result * 2
  else 16

def minPriceOsaka : Nat := 500

def modExpFeeOsaka (baseLen expLen modLen : Nat) : Nat :=
  let first32 :=
    if baseLen < data.length then
      rangeToPaddedInt data (96 + baseLen) (95 + baseLen + expLen) (min expLen 32)
    else 0
  let adj :=
    if expLen ≤ 32 then if first32 = 0 then 0 else log2 first32
    else if first32 ≠ 0 then (expLen - 32) * 16 + log2 first32
    else (expLen - 32) * 16
  max minPriceOsaka (mulComplexityEIP7883 (max modLen baseLen) * max adj 1)

/-! ## The call -/

/-- The part of `modExp` that charges for the call. -/
def chargeModExp (baseL expL modL : UInt256) (fork : EVMFork) : PrcM Unit :=
  if FkOsaka ≤ fork then
    let baseLen := safeInt baseL
    let expLen := safeInt expL
    let modLen := safeInt modL
    if baseLen > 1024 ∨ expLen > 1024 ∨ modLen > 1024 then throw (.err .PrcInvalidParam)
    else consumeGas (modExpFeeOsaka data baseLen expLen modLen)
  else
    match modExpFee data baseL expL modL fork with
    | .error code => throw (.err code)
    | .ok gasFee => consumeGas gasFee

variable [BoringSSL]

/-- The part of `modExp` that sets the output. -/
def setOutput (baseL expL modL : UInt256) : PrcM Unit :=
  let baseLen := safeInt baseL
  let expLen := safeInt expL
  let modLen := safeInt modL
  if baseLen = 0 ∧ modLen = 0 then modify fun c => { c with output := [] }
  else if baseL.toNat > highInt32 ∨ expL.toNat > highInt32 ∨ modL.toNat > highInt32 then
    throw (.err .PrcInvalidParam)
  else
    match modExpInto (rangeToPadded data 96 baseLen) (rangeToPadded data (96 + baseLen) expLen)
        (rangeToPadded data (96 + baseLen + expLen) modLen) modLen with
    | none => throw .defect
    | some output => modify fun c => { c with output }

def modExp (fork : EVMFork) : PrcM Unit := do
  let data := (← get).msgData
  let baseL := rangeToPaddedU256 data 0 31
  let expL := rangeToPaddedU256 data 32 63
  let modL := rangeToPaddedU256 data 64 95
  chargeModExp data baseL expL modL fork
  setOutput data baseL expL modL

end Nimbus.Native.Evm.Precompiles
