/-!
# The gas limit of the next block

Model of `calcGasLimit1559` of `core/pow/header.nim`, `validateGasLimit` of `core/gaslimit.nim`,
`getGasLimit` of `core/tx_pool/tx_desc.nim` and the setter of `gasLimit` of `common/common.nim`. A
`GasInt` wraps around.
-/

namespace Nimbus.Native.GasLimit

def GAS_LIMIT_ADJUSTMENT_FACTOR : UInt64 := 1024
def GAS_LIMIT_MINIMUM : UInt64 := 5000
def GAS_LIMIT_MAXIMUM : UInt64 := 0x7fffffffffffffff

def calcGasLimit1559 (parentGasLimit desiredLimit : UInt64) : UInt64 :=
  let delta := parentGasLimit / GAS_LIMIT_ADJUSTMENT_FACTOR - 1
  let desiredLimit :=
    if desiredLimit < GAS_LIMIT_MINIMUM then GAS_LIMIT_MINIMUM else desiredLimit
  if parentGasLimit < desiredLimit then
    let limit := parentGasLimit + delta
    if limit > desiredLimit then desiredLimit else limit
  else if parentGasLimit > desiredLimit then
    let limit := parentGasLimit - delta
    if limit < desiredLimit then desiredLimit else limit
  else parentGasLimit

/-- `gasLimit` is the one of the header. -/
def validateGasLimit (gasLimit limit : UInt64) : Except String Unit :=
  let diff := if limit > gasLimit then limit - gasLimit else gasLimit - limit
  let upperLimit := limit / GAS_LIMIT_ADJUSTMENT_FACTOR
  let bound := upperLimit - 1
  if diff ≥ upperLimit then
    .error s!"invalid gas limit: have {gasLimit}, want {limit} +-= {bound}"
  else if gasLimit < GAS_LIMIT_MINIMUM then .error "invalid gas limit below 5000"
  else .ok ()

/-- The gas limit that the node is set to. -/
def setGasLimit (val : UInt64) : UInt64 :=
  if val < GAS_LIMIT_MINIMUM then GAS_LIMIT_MINIMUM
  else if val > GAS_LIMIT_MAXIMUM then GAS_LIMIT_MAXIMUM
  else val

def getGasLimit (comGasLimit parentGasLimit : UInt64) (targetGasLimit : Option UInt64) : UInt64 :=
  calcGasLimit1559 parentGasLimit (targetGasLimit.getD comGasLimit)

/-- The gas limits of blocks that are built on each other, by what is asked for each of them. -/
def gasLimits (comGasLimit : UInt64) : UInt64 → List (Option UInt64) → List UInt64
  | _, [] => []
  | parentGasLimit, targetGasLimit :: rest =>
    let gasLimit := getGasLimit comGasLimit parentGasLimit targetGasLimit
    gasLimit :: gasLimits comGasLimit gasLimit rest

end Nimbus.Native.GasLimit
