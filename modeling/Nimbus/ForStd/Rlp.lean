import Mathlib.Data.Nat.Digits.Lemmas

/-!
# Recursive length prefix

The serialisation of nested lists of byte strings by length prefixes, and the lengths of what it
yields: what a prefix takes, and how the length of a list depends on the lengths of its items.
-/

namespace Nimbus

inductive Rlp where
  | str (bytes : List UInt8)
  | list (items : List Rlp)

namespace Rlp

/-- The bytes of a number without leading zeros, the highest one first. -/
def bigEndian (n : Nat) : List UInt8 := ((Nat.digits 256 n).map UInt8.ofNat).reverse

def byteCount (n : Nat) : Nat := (Nat.digits 256 n).length

def lengthPrefix (short len : Nat) : List UInt8 :=
  if len ≤ 55 then [UInt8.ofNat (short + len)]
  else UInt8.ofNat (short + 55 + byteCount len) :: bigEndian len

def encodeStr (bytes : List UInt8) : List UInt8 :=
  match bytes with
  | [b] => if b.toNat < 128 then [b] else lengthPrefix 128 1 ++ [b]
  | bytes => lengthPrefix 128 bytes.length ++ bytes

mutual
def encode : Rlp → List UInt8
  | .str bytes => encodeStr bytes
  | .list items =>
    lengthPrefix 192 (encodeItems items).length ++ encodeItems items

def encodeItems : List Rlp → List UInt8
  | [] => []
  | x :: xs => encode x ++ encodeItems xs
end

/-- A number. -/
def nat (n : Nat) : Rlp := .str (bigEndian n)

/-! ### Lengths -/

/-- What a length prefix takes. -/
def prefixLen (len : Nat) : Nat := if len ≤ 55 then 1 else 1 + byteCount len

/-- The length of a list with a payload of `len` bytes. -/
def listLen (len : Nat) : Nat := prefixLen len + len

def natLen (n : Nat) : Nat := if n < 128 then 1 else 1 + byteCount n

/-- The length of the payload of a list. -/
def payloadLen (items : List Rlp) : Nat := (encodeItems items).length

@[simp] theorem bigEndian_length (n : Nat) : (bigEndian n).length = byteCount n := by
  unfold bigEndian byteCount
  rw [List.length_reverse, List.length_map]

@[simp] theorem lengthPrefix_length (short len : Nat) :
    (lengthPrefix short len).length = prefixLen len := by
  unfold lengthPrefix prefixLen
  split
  · rfl
  · rw [List.length_cons, bigEndian_length, Nat.add_comm]

variable {n : Nat} {m : Nat}

theorem byteCount_mono (h : m ≤ n) : byteCount m ≤ byteCount n :=
  Nat.le_length_digits_le 256 m n h

theorem prefixLen_mono (h : m ≤ n) : prefixLen m ≤ prefixLen n := by
  have hcount := byteCount_mono h
  unfold prefixLen
  split <;> split <;> omega

theorem listLen_lt (h : m < n) : listLen m < listLen n := by
  have hprefix := prefixLen_mono h.le
  unfold listLen
  omega

theorem listLen_le : listLen m ≤ listLen n ↔ m ≤ n := by
  constructor
  · intro h
    by_contra hlt
    have hlen := listLen_lt (Nat.lt_of_not_le hlt)
    omega
  · intro h
    have hprefix := prefixLen_mono h
    unfold listLen
    omega

/-- Two lists that have grown take no more together only if neither has grown. -/
theorem listLen_add_le {a b : Nat} (ha : a ≤ m) (hb : b ≤ n) :
    listLen m + listLen n ≤ listLen a + listLen b ↔ m ≤ a ∧ n ≤ b := by
  have hla := listLen_le.mpr ha
  have hlb := listLen_le.mpr hb
  constructor
  · intro h
    exact ⟨listLen_le.mp (by omega), listLen_le.mp (by omega)⟩
  · intro ⟨hma, hnb⟩
    exact Nat.add_le_add (listLen_le.mpr hma) (listLen_le.mpr hnb)

theorem natLen_mono (h : m ≤ n) : natLen m ≤ natLen n := by
  have hcount := byteCount_mono h
  unfold natLen
  split <;> split <;> omega

theorem byteCount_le {k : Nat} (h : n < 256 ^ k) : byteCount n ≤ k :=
  (Nat.digits_length_le_iff (by decide) n).mpr h

@[simp] theorem encode_list_length (items : List Rlp) :
    (encode (.list items)).length = listLen (payloadLen items) := by
  unfold encode
  rw [List.length_append, lengthPrefix_length]
  rfl

theorem encode_str_length {bytes : List UInt8} (h : bytes.length ≠ 1) :
    (encode (.str bytes)).length = prefixLen bytes.length + bytes.length := by
  unfold encode encodeStr
  match bytes, h with
  | [], _ => rfl
  | [b], h => exact absurd rfl h
  | b :: c :: bytes, _ =>
    rw [List.length_append, lengthPrefix_length]

@[simp] theorem payloadLen_nil : payloadLen [] = 0 := rfl

@[simp] theorem payloadLen_cons (x : Rlp) (xs : List Rlp) :
    payloadLen (x :: xs) = (encode x).length + payloadLen xs := by
  unfold payloadLen
  rw [encodeItems, List.length_append]

@[simp] theorem payloadLen_append (xs ys : List Rlp) :
    payloadLen (xs ++ ys) = payloadLen xs + payloadLen ys := by
  induction xs with
  | nil => simp
  | cons x xs ih =>
    rw [List.cons_append, payloadLen_cons, payloadLen_cons]
    omega

/-- A number of one digit is encoded as a string of one byte. -/
theorem bigEndian_of_lt (hzero : n ≠ 0) (hlt : n < 256) :
    ∃ b : UInt8, bigEndian n = [b] ∧ b.toNat = n := by
  refine ⟨UInt8.ofNat n, ?_, ?_⟩
  · unfold bigEndian
    rw [Nat.digits_of_lt 256 n hzero hlt]
    rfl
  · rw [UInt8.toNat_ofNat']
    omega

theorem encode_nat_length (h : n < 256 ^ 32) : (encode (nat n)).length = natLen n := by
  have hcount := byteCount_le h
  unfold nat natLen
  by_cases hone : byteCount n = 1
  · have hzero : n ≠ 0 := by
      rintro rfl
      exact absurd hone (by decide)
    have hlt : n < 256 := by
      have hpow := (Nat.digits_length_le_iff (b := 256) (k := 1) (by decide) n).mp hone.le
      omega
    obtain ⟨b, hbytes, hb⟩ := bigEndian_of_lt hzero hlt
    rw [hbytes, hone]
    unfold encode encodeStr
    dsimp only
    rw [hb]
    split
    · rfl
    · rfl
  · rw [encode_str_length (by rw [bigEndian_length]; exact hone), bigEndian_length]
    unfold prefixLen
    rw [if_pos (by omega)]
    by_cases hsmall : n < 128
    · -- a small number without a digit
      have hle : byteCount n ≤ 1 := byteCount_le (by omega)
      rw [if_pos hsmall]
      omega
    · rw [if_neg hsmall]

end Rlp

end Nimbus
