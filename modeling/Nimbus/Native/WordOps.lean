import Nimbus.Native.GasMeter

/-!
# Word arithmetic

Model of the handlers of `evm/interpreter/op_handlers/oph_arithmetic.nim` that divide, shift and
extend, and of the parts of `evm/stack.nim` and `utils/utils_numeric.nim` that they use.

The elements of the stack are in memory that is never cleared. The handlers work in place: they
are given references to elements, and the element that the result goes to is also the second
operand. What they compute with are the operations of 256-bit words; `addmod`, `mulmod` and
`pow` are those of the library of big integers.
-/

namespace Nimbus.Native.Evm.WordOps

open Aristo (UInt256)
open EVMFork

/-- `EvmErrorCode`, as far as these handlers go. -/
inductive EvmErrorCode where
  | StackInsufficient
  | OutOfGas

structure EvmStack where
  values : Nat → UInt256
  len : Nat

/-- The elements on the stack, the top one first. -/
def EvmStack.items (stack : EvmStack) : List UInt256 :=
  (List.range stack.len).reverse.map stack.values

structure VmCpt where
  stack : EvmStack
  gasMeter : GasMeter

/-- A handler that fails leaves behind what it has done so far. -/
abbrev CptM := EStateM EvmErrorCode VmCpt

/-! ## Elements -/

/-- A reference to an element of the stack, `stack[i].data`. -/
abbrev Ref := Nat

def load (i : Ref) : CptM UInt256 := do return (← get).stack.values i

def store (i : Ref) (value : UInt256) : CptM Unit :=
  modify fun c => { c with stack := { c.stack with values := Function.update c.stack.values i value } }

def setLen (len : Nat) : CptM Unit := modify fun c => { c with stack := { c.stack with len := len } }

def binaryOp (binOp : UInt256 → UInt256 → UInt256) : CptM Unit := do
  let len := (← get).stack.len
  if len ≥ 2 then
    let l1 := len - 1
    let l2 := len - 2
    store l2 (binOp (← load l1) (← load l2))
    setLen l1
  else throw .StackInsufficient

def binaryWithTop (binOp : (top lhs rhs : Ref) → CptM Unit) : CptM Unit := do
  let len := (← get).stack.len
  if len ≥ 2 then
    let l1 := len - 1
    let l2 := len - 2
    binOp l2 l1 l2
    setLen l1
  else throw .StackInsufficient

def lsCheck (expected : Nat) : CptM Unit := do
  if (← get).stack.len < expected then throw .StackInsufficient else pure ()

/-- The `i`-th element from the top. -/
def lsPeekInt (i : Nat) : CptM UInt256 := do load ((← get).stack.len - i)

def lsShrink (x : Nat) : CptM Unit := do setLen ((← get).stack.len - x)

def lsTop (value : UInt256) : CptM Unit := do store ((← get).stack.len - 1) value

/-! ## Words -/

def INT_256_MAX_AS_UINT256 : UInt256 := BitVec.allOnes 256 >>> 1

/-- `extractSign`: the element loses its sign, which is returned. -/
def extractSign (v : Ref) : CptM Bool := do
  let sign := decide (INT_256_MAX_AS_UINT256 < (← load v))
  if sign then
    store v (~~~(← load v))
    store v ((← load v) + 1)
  return sign

/-- `setSign`, by `flipSign`. -/
def setSign (v : Ref) (sign : Bool) : CptM Unit := do
  if sign then
    store v (~~~(← load v))
    store v ((← load v) + 1)

/-- `x.truncate(int)`, for words that fit. -/
def truncate (x : UInt256) : Nat := x.toNat % 2 ^ 64

def addmod (lhs rhs modulus : UInt256) : UInt256 :=
  BitVec.ofNat 256 ((lhs.toNat + rhs.toNat) % modulus.toNat)

def mulmod (lhs rhs modulus : UInt256) : UInt256 :=
  BitVec.ofNat 256 (lhs.toNat * rhs.toNat % modulus.toNat)

/-- By squaring, with products that wrap. -/
def powBy (base : UInt256) (exponent : Nat) : UInt256 :=
  if exponent = 0 then 1
  else
    let root := powBy base (exponent / 2)
    if exponent % 2 = 0 then root * root else root * root * base

def pow (base exponent : UInt256) : UInt256 := powBy base exponent.toNat

/-- `func slt` -/
def slt (x y : UInt256) : Bool :=
  let x_neg := x.msb
  let y_neg := y.msb
  if x_neg ^^ y_neg then x_neg else decide (x < y)

/-- `.uint.u256` -/
def ofBool (b : Bool) : UInt256 := if b then 1 else 0

/-! ## Gas -/

/-- The entry `GasExpByte` of the fee schedules. -/
def GasExpByte (fork : EVMFork) : Nat := if fork < FkSpurious then 10 else 50

def GasExp : Nat := 10

def log256 (value : UInt256) : Nat := Nat.log2 value.toNat / 8

def gasExp (fork : EVMFork) (value : UInt256) : Nat :=
  if value = 0 then GasExp else GasExp + GasExpByte fork * (1 + log256 value)

def consumeGas (amount : Nat) : CptM Unit := do
  let c ← get
  if amount > c.gasMeter.executionGasLeft then throw .OutOfGas
  else
    set { c with gasMeter := { c.gasMeter with
      executionGasUsed := c.gasMeter.executionGasUsed + amount
      executionGasLeft := c.gasMeter.executionGasLeft - amount } }

/-! ## Handlers -/

def div256 (top lhs rhs : Ref) : CptM Unit := do
  -- the divisor is where the result goes, so a zero stays
  if (← load rhs) ≠ 0 then store top ((← load lhs) / (← load rhs))

def sdiv256 (top lhs rhs : Ref) : CptM Unit := do
  if (← load rhs) ≠ 0 then
    let signA ← extractSign lhs
    let signB ← extractSign rhs
    store top ((← load lhs) / (← load rhs))
    setSign top (signA ^^ signB)

def mod256 (top lhs rhs : Ref) : CptM Unit := do
  if (← load rhs) = 0 then store top 0
  else store top ((← load lhs) % (← load rhs))

def smod256 (top lhs rhs : Ref) : CptM Unit := do
  if (← load rhs) ≠ 0 then
    let _ ← extractSign rhs
    let sign ← extractSign lhs
    store top ((← load lhs) % (← load rhs))
    setSign top sign

def exp256 (fork : EVMFork) (top base exponent : Ref) : CptM Unit := do
  consumeGas (gasExp fork (← load exponent))
  if (← load base) ≠ 0 then store top (pow (← load base) (← load exponent))
  else if (← load exponent) = 0 then store top 1
  else store top 0

def se256 (top bits value : Ref) : CptM Unit := do
  if (← load bits) ≤ 31 then
    let testBit := truncate (← load bits) * 8 + 7
    let bitPos := (1 : UInt256) <<< testBit
    let mask := bitPos - 1
    if (← load value) &&& bitPos ≠ 0 then store top ((← load value) ||| ~~~mask)
    else store top ((← load value) &&& mask)
  else store top (← load value)

def byte256 (top position value : Ref) : CptM Unit := do
  if (← load position) ≥ 32 then store top 0
  else
    let pos := truncate (← load position)
    -- the bytes of a word, the lowest one first
    store top (((← load value) >>> (8 * (31 - pos))) &&& 0xff)

def shl256 (top lhs num : Ref) : CptM Unit := do
  let shiftLen := safeInt (← load lhs)
  if shiftLen ≥ 256 then store top 0
  else store top ((← load num) <<< shiftLen)

def shr256 (top lhs num : Ref) : CptM Unit := do
  let shiftLen := safeInt (← load lhs)
  if shiftLen ≥ 256 then store top 0
  else store top ((← load num) >>> shiftLen)

def sar256 (top lhs num256 : Ref) : CptM Unit := do
  let shiftLen := safeInt (← load lhs)
  let num ← load num256
  if shiftLen ≥ 256 then
    if num.msb then store top (-1) else store top 0
  else store top (num.sshiftRight shiftLen)

/-- What `addmodOp` and `mulmodOp` have in common. -/
def modularOp (op : UInt256 → UInt256 → UInt256 → UInt256) : CptM Unit := do
  lsCheck 3
  let lhs ← lsPeekInt 1
  let rhs ← lsPeekInt 2
  let modulus ← lsPeekInt 3
  let value := if modulus = 0 then 0 else op lhs rhs modulus
  lsShrink 2
  lsTop value

def addmodOp : CptM Unit := modularOp addmod
def mulmodOp : CptM Unit := modularOp mulmod
def divideOp : CptM Unit := binaryWithTop div256
def sdivOp : CptM Unit := binaryWithTop sdiv256
def moduloOp : CptM Unit := binaryWithTop mod256
def smodOp : CptM Unit := binaryWithTop smod256
def expOp (fork : EVMFork) : CptM Unit := binaryWithTop (exp256 fork)
def signExtendOp : CptM Unit := binaryWithTop se256
def sltOp : CptM Unit := binaryOp fun lhs rhs => ofBool (slt lhs rhs)
/-- The arguments are swapped. -/
def sgtOp : CptM Unit := binaryOp fun lhs rhs => ofBool (slt rhs lhs)
def byteOp : CptM Unit := binaryWithTop byte256
def shlOp : CptM Unit := binaryWithTop shl256
def shrOp : CptM Unit := binaryWithTop shr256
def sarOp : CptM Unit := binaryWithTop sar256

inductive WordOp where
  | Div | Sdiv | Mod | Smod | Addmod | Mulmod | Exp | SignExtend | Slt | Sgt | Byte | Shl | Shr | Sar

def exec (fork : EVMFork) : WordOp → CptM Unit
  | .Div => divideOp
  | .Sdiv => sdivOp
  | .Mod => moduloOp
  | .Smod => smodOp
  | .Addmod => addmodOp
  | .Mulmod => mulmodOp
  | .Exp => expOp fork
  | .SignExtend => signExtendOp
  | .Slt => sltOp
  | .Sgt => sgtOp
  | .Byte => byteOp
  | .Shl => shlOp
  | .Shr => shrOp
  | .Sar => sarOp

end Nimbus.Native.Evm.WordOps
