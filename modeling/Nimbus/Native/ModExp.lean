import Nimbus.ForStd.PowMod

/-!
# Modular exponentiation

Model of `evm/modexp.nim`. The numbers and what computes with them are those of the library
that is linked, which is a parameter. A function that reports whether it succeeded, or that
returns a pointer, has `none` for its failure. An assertion that fails ends the program, which
is `none` as well. The scratch space that is asked for is left out.
-/

namespace Nimbus.Native.ModExp

/-- The functions of the library, on numbers that are not negative. A comparison has the sign
of the `int` that it returns. -/
class BoringSSL where
  BIGNUM : Type
  BN_MONT_CTX : Type
  BN_bin2bn : List UInt8 → Option BIGNUM
  BN_bn2bin_padded : Nat → BIGNUM → Option (List UInt8)
  BN_zero : BIGNUM
  BN_one : Option BIGNUM
  BN_copy : BIGNUM → Option BIGNUM
  BN_is_zero : BIGNUM → Bool
  BN_is_one : BIGNUM → Bool
  BN_is_odd : BIGNUM → Bool
  BN_num_bits : BIGNUM → Nat
  BN_is_bit_set : BIGNUM → Nat → Bool
  BN_count_low_zero_bits : BIGNUM → Nat
  BN_ucmp : BIGNUM → BIGNUM → Ordering
  BN_cmp_word : BIGNUM → Nat → Ordering
  BN_set_bit : BIGNUM → Nat → Option BIGNUM
  BN_mask_bits : BIGNUM → Nat → Option BIGNUM
  BN_rshift : BIGNUM → Nat → Option BIGNUM
  BN_add : BIGNUM → BIGNUM → Option BIGNUM
  BN_add_word : BIGNUM → Nat → Option BIGNUM
  BN_sub : BIGNUM → BIGNUM → Option BIGNUM
  BN_mul : BIGNUM → BIGNUM → Option BIGNUM
  BN_sqr : BIGNUM → Option BIGNUM
  BN_nnmod : BIGNUM → BIGNUM → Option BIGNUM
  BN_mod_sub : BIGNUM → BIGNUM → BIGNUM → Option BIGNUM
  BN_mod_mul : BIGNUM → BIGNUM → BIGNUM → Option BIGNUM
  BN_mod_sqr : BIGNUM → BIGNUM → Option BIGNUM
  BN_mod_exp : BIGNUM → BIGNUM → BIGNUM → Option BIGNUM
  BN_MONT_CTX_new_for_modulus : BIGNUM → Option BN_MONT_CTX
  BN_mod_exp_mont : BIGNUM → BIGNUM → BIGNUM → BN_MONT_CTX → Option BIGNUM

variable [BoringSSL]

open BoringSSL

/-- An iteration of `modExpSquareAndMultiply`. -/
def squareAndMultiply (base exp modulo res : BIGNUM) (i : Nat) : Option BIGNUM := do
  let res ← BN_mod_sqr res modulo
  if BN_is_bit_set exp i then BN_mod_mul res base modulo else some res

variable (base exp modulo : BIGNUM)

/-- `modExpSquareAndMultiply` -/
def modExpSquareAndMultiply : Option BIGNUM := do
  let base ← BN_nnmod base modulo
  let bits := BN_num_bits exp
  if bits = 0 then BN_one
  else
    let res ← BN_copy base
    -- `countdown(bits - 2, 0)`
    (countdown (bits - 1)).foldlM (squareAndMultiply base exp modulo) res

/-- A round of `invModPow2`: `res` is the inverse of `q` modulo `2 ^ bits` afterwards. -/
def liftInverse (q res : BIGNUM) (bits : Nat) : Option BIGNUM := do
  let u ← BN_copy q
  let u ← BN_mask_bits u bits
  let u ← BN_mul u res
  let u ← BN_mask_bits u bits
  -- converged
  if BN_is_one u then some res
  else
    let f ← BN_set_bit BN_zero bits
    let f ← BN_add_word f 2
    let f ← BN_sub f u
    let res ← BN_mul res f
    BN_mask_bits res bits

/-- The loop of `invModPow2`. -/
def invModPow2From (q : BIGNUM) (k : Nat) (res : BIGNUM) (bits : Nat) (hbits : 0 < bits) :
    Option BIGNUM :=
  if _ : bits < k then do
    let res ← liftInverse q res (min (bits * 2) k)
    invModPow2From q k res (min (bits * 2) k) (by omega)
  else some res
termination_by k - bits

/-- `invModPow2` -/
def invModPow2 (q : BIGNUM) (k : Nat) : Option BIGNUM := do
  let res ← BN_one
  invModPow2From q k res 1 Nat.one_pos

/-- The base of `modExpOdd`, which has to be less than the modulus. -/
def reduceBase (base modulo : BIGNUM) : Option BIGNUM :=
  if BN_ucmp base modulo = .lt then some base else BN_nnmod base modulo

/-- `modExpOdd` -/
def modExpOdd : Option BIGNUM :=
  match BN_MONT_CTX_new_for_modulus modulo with
  -- the modulus is too large
  | none => modExpSquareAndMultiply base exp modulo
  | some mont => do
    let base ← reduceBase base modulo
    match BN_mod_exp_mont base exp modulo mont with
    | some res => some res
    | none => modExpSquareAndMultiply base exp modulo

/-- An iteration of the loop of `modExpEven`, where a bit mask is the reduction modulo
`2 ^ k`. -/
def squareAndMask (baseRed exp : BIGNUM) (k : Nat) (x2 : BIGNUM) (i : Nat) : Option BIGNUM := do
  let x2 ← BN_sqr x2
  let x2 ← BN_mask_bits x2 k
  if BN_is_bit_set exp i then do
    let x2 ← BN_mul x2 baseRed
    BN_mask_bits x2 k
  else some x2

def maskedExp (baseRed eEff : BIGNUM) (k : Nat) : Option BIGNUM := do
  let x2 ← BN_one
  (countdown (BN_num_bits eEff)).foldlM (squareAndMask baseRed eEff k) x2

def ordBits (k : Nat) : Nat := if k ≤ 1 then 0 else if k = 2 then 1 else k - 2

/-- `x2` of `modExpEven`: the power modulo `2 ^ k`. -/
def modExpPow2 (base exp : BIGNUM) (k : Nat) : Option BIGNUM := do
  let baseRed ← BN_copy base
  let baseRed ← BN_mask_bits baseRed k
  if BN_is_zero baseRed then some BN_zero
  else if BN_is_odd baseRed then do
    let eRed ← BN_copy exp
    let eRed ← BN_mask_bits eRed (ordBits k)
    maskedExp baseRed eRed k
  -- `k` factors of two
  else if BN_cmp_word exp k ≠ .lt then some BN_zero
  else maskedExp baseRed exp k

/-- `x1` of `modExpEven`: the power modulo `q`. A power of two has no other part. -/
def modExpRest (base exp q : BIGNUM) : Option BIGNUM :=
  if BN_is_one q then some BN_zero else modExpOdd base exp q

/-- `modExpEven` -/
def modExpEven : Option BIGNUM := do
  let k := BN_count_low_zero_bits modulo
  let q ← BN_rshift modulo k
  let twoK ← BN_set_bit BN_zero k
  let x2 ← modExpPow2 base exp k
  let x1 ← modExpRest base exp q
  -- Garner's recombination
  let t ← invModPow2 q k
  let x2 ← BN_mod_sub x2 x1 twoK
  let t ← BN_mod_mul t x2 twoK
  let t ← BN_mul q t
  BN_add x1 t

def evenExpBitsCutoff : Nat := 8

/-- What `modExpInto` computes before it writes the output. -/
def modExpValue : Option BIGNUM :=
  if BN_is_zero modulo ∨ BN_is_one modulo then some BN_zero
  else if BN_is_zero exp then BN_one
  else if BN_is_odd modulo then modExpOdd base exp modulo
  else if BN_num_bits exp ≤ evenExpBitsCutoff then BN_mod_exp base exp modulo
  else modExpEven base exp modulo

/-- A byte string is imported, unless it is empty. -/
def importBytes (bytes : List UInt8) : Option BIGNUM :=
  if bytes = [] then some BN_zero else BN_bin2bn bytes

/-- `modExpInto`, for an output of `len` bytes. -/
def modExpInto (b e m : List UInt8) (len : Nat) : Option (List UInt8) :=
  if len = 0 then some []
  else do
    let base ← importBytes b
    let exp ← importBytes e
    let modulo ← BN_bin2bn m
    let res ← modExpValue base exp modulo
    BN_bn2bin_padded len res

/-- `modExp` -/
def modExp (b e m : List UInt8) : Option (List UInt8) :=
  if m.length = 0 then some [] else modExpInto b e m m.length

end Nimbus.Native.ModExp
