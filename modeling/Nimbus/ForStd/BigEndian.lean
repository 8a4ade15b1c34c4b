import Nimbus.ForStd.Bytes

/-!
# Big-endian numbers

Numbers in a fixed number of bytes, the highest one first, and the same numbers without their
leading zeros, of which at least one byte is left.
-/

namespace Nimbus.BigEndian

/-- The `n` low bytes of a number, the highest one first. -/
def toBytes (n x : Nat) : List UInt8 := (toBytesLE n x).reverse

variable (bytes : List UInt8)

def ofBytes : Nat := bytes.foldl (fun x b => 256 * x + b.toNat) 0

@[simp] theorem toBytes_length (n x : Nat) : (toBytes n x).length = n := by
  rw [toBytes, List.length_reverse, toBytesLE_length]

theorem ofBytes_eq : ofBytes bytes = fromBytesLE bytes.reverse := by
  unfold ofBytes fromBytesLE
  rw [List.foldr_reverse]
  simp only [Nat.add_comm]

theorem ofBytes_toBytes (n x : Nat) : ofBytes (toBytes n x) = x % 256 ^ n := by
  rw [ofBytes_eq, toBytes, List.reverse_reverse, fromBytesLE_toBytesLE]

theorem ofBytes_toBytes_of_lt {n x : Nat} (h : x < 256 ^ n) : ofBytes (toBytes n x) = x := by
  rw [ofBytes_toBytes, Nat.mod_eq_of_lt h]

theorem toBytes_ofBytes : toBytes bytes.length (ofBytes bytes) = bytes := by
  have hrev := toBytesLE_fromBytesLE bytes.reverse
  rw [List.length_reverse] at hrev
  rw [ofBytes_eq, toBytes, hrev, List.reverse_reverse]

theorem ofBytes_lt : ofBytes bytes < 256 ^ bytes.length := by
  have hlt := fromBytesLE_lt bytes.reverse
  rwa [List.length_reverse, ← ofBytes_eq] at hlt

theorem foldl_bytes (a : Nat) (bytes : List UInt8) :
    bytes.foldl (fun x b => 256 * x + b.toNat) a = a * 256 ^ bytes.length + ofBytes bytes := by
  induction bytes generalizing a with
  | nil => simp [ofBytes]
  | cons b bytes ih =>
    have hrest := ih b.toNat
    rw [ofBytes, List.foldl_cons, List.foldl_cons, Nat.zero_add, hrest, ih,
      List.length_cons, Nat.pow_succ, Nat.add_mul, ← Nat.add_assoc]
    congr 2
    rw [Nat.mul_comm 256 a, Nat.mul_assoc, Nat.mul_comm 256]

theorem ofBytes_append (xs ys : List UInt8) :
    ofBytes (xs ++ ys) = ofBytes xs * 256 ^ ys.length + ofBytes ys := by
  rw [← foldl_bytes, ofBytes, List.foldl_append]
  rfl

theorem ofBytes_zero_cons : ofBytes (0 :: bytes) = ofBytes bytes := by
  have h := ofBytes_append [0] bytes
  rw [show ofBytes [0] = 0 from rfl, Nat.zero_mul, Nat.zero_add] at h
  exact h

/-- The bytes from the first one that is not zero. The last byte stays in any case. -/
def trim : List UInt8 → List UInt8
  | [] => []
  | [b] => [b]
  | b :: c :: bytes => if b = 0 then trim (c :: bytes) else b :: c :: bytes

theorem ofBytes_trim : ofBytes (trim bytes) = ofBytes bytes := by
  induction bytes using trim.induct with
  | case1 => rfl
  | case2 b => rfl
  | case3 c bytes ih =>
    rw [trim, if_pos rfl, ih, ofBytes_zero_cons]
  | case4 b c bytes hne => rw [trim, if_neg hne]

theorem trim_length_le : (trim bytes).length ≤ bytes.length := by
  induction bytes using trim.induct with
  | case1 => exact Nat.le_refl _
  | case2 b => exact Nat.le_refl _
  | case3 c bytes ih =>
    exact Nat.le_succ_of_le ih
  | case4 b c bytes hne => exact Nat.le_of_eq (by rw [trim, if_neg hne])

theorem trim_length_pos {bytes : List UInt8} (h : bytes ≠ []) : 0 < (trim bytes).length := by
  induction bytes using trim.induct with
  | case1 => exact absurd rfl h
  | case2 b => exact Nat.one_pos
  | case3 c bytes ih =>
    exact ih (List.cons_ne_nil _ _)
  | case4 b c bytes hne =>
    rw [trim, if_neg hne]
    exact Nat.succ_pos _

end Nimbus.BigEndian
