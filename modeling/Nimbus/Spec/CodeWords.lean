import Nimbus.ForStd.Swar
import Nimbus.Native.CodeBytes

/-!
# Eight bytes of code at a time

What the operations on a word say about its bytes. Whether there is a push does not depend on
the byte order of the machine, and the jump destinations are those of the word with its first
byte lowest.
-/

namespace Nimbus.Spec.CodeBytes

open Nimbus.Native.CodeBytes
open Swar (word)

/-! ## Words -/

variable {bytes : List UInt8}

theorem fromBytesLE_eq_word (bytes : List UInt8) :
    fromBytesLE bytes = word 8 (bytes.map UInt8.toNat) := by
  induction bytes with
  | nil => rfl
  | cons byte bytes ih =>
    rw [List.map_cons, Swar.word_cons, ← ih]
    rfl

theorem word_const (h : bytes.length = 8) (d : Nat) :
    word 8 (bytes.map fun _ => d) = d * 0x0101010101010101 := by
  rw [List.map_const', h]
  simp only [List.replicate, Swar.word_cons]
  simp
  omega

theorem toNat_lt_lane (bytes : List UInt8) : ∀ b ∈ bytes, b.toNat < 2 ^ 8 := fun b _ => b.toNat_lt

/-- The word of eight bytes, lowest byte first. -/
def wordLE (bytes : List UInt8) : BitVec 64 := BitVec.ofNat 64 (fromBytesLE bytes)

theorem wordLE_toNat (h : bytes.length = 8) :
    (wordLE bytes).toNat = word 8 (bytes.map UInt8.toNat) := by
  have hlt : fromBytesLE bytes < 2 ^ 64 := by simpa [h] using fromBytesLE_lt bytes
  unfold wordLE
  rw [BitVec.toNat_ofNat, Nat.mod_eq_of_lt hlt, fromBytesLE_eq_word]

/-- Whatever the byte order, the lowest byte is the first one in the end. -/
theorem fromLE_copyMem (cpuEndian : Endianness) (h : bytes.length = 8) :
    fromLE cpuEndian (copyMem cpuEndian bytes) = wordLE bytes := by
  cases cpuEndian with
  | littleEndian => rfl
  | bigEndian =>
    have hlen : bytes.reverse.length = 8 := by rw [List.length_reverse, h]
    have hlt : fromBytesLE bytes.reverse < 2 ^ 64 := by
      simpa [h] using fromBytesLE_lt bytes.reverse
    have hback : toBytesLE 8 (fromBytesLE bytes.reverse) = bytes.reverse := by
      rw [← hlen]
      exact toBytesLE_fromBytesLE _
    unfold fromLE copyMem swapBytes wordLE
    rw [BitVec.toNat_ofNat, Nat.mod_eq_of_lt hlt, hback, List.reverse_reverse]

theorem copyMem_eq (cpuEndian : Endianness) (bytes : List UInt8) :
    copyMem cpuEndian bytes = wordLE bytes ∨ copyMem cpuEndian bytes = wordLE bytes.reverse := by
  cases cpuEndian with
  | littleEndian => exact .inl rfl
  | bigEndian => exact .inr rfl

/-! ## Pushes in a word -/

theorem push_lane (b : UInt8) : b.toNat &&& 0xe0 ^^^ 0x60 = 0 ↔ isPushOpcode b = true := by
  have hall : ∀ n < 256, n &&& 0xe0 ^^^ 0x60 = 0 ↔ 0x60 ≤ n ∧ n < 0x80 := by
    decide +kernel
  rw [hall b.toNat b.toNat_lt, isPushOpcode_iff]

theorem hasPushOpcode_wordLE (h : bytes.length = 8) :
    hasPushOpcode (wordLE bytes) = true ↔ ∃ b ∈ bytes, isPushOpcode b = true := by
  have hv : (wordLE bytes &&& 0xe0e0e0e0e0e0e0e0#64 ^^^ 0x6060606060606060#64).toNat =
      word 8 (bytes.map fun b => b.toNat &&& 0xe0 ^^^ 0x60) := by
    have htop : (0xe0e0e0e0e0e0e0e0#64).toNat = word 8 (bytes.map fun _ => 0xe0) := by
      rw [word_const h]
      rfl
    have hpush : (0x6060606060606060#64).toNat = word 8 (bytes.map fun _ => 0x60) := by
      rw [word_const h]
      rfl
    rw [BitVec.toNat_xor, BitVec.toNat_and, wordLE_toNat h, htop, hpush,
      Swar.word_and (toNat_lt_lane bytes) (fun _ _ => by decide),
      Swar.word_xor (fun b _ => Nat.and_le_left.trans_lt b.toNat_lt) (fun _ _ => by decide)]
  have hlanes : ∀ d ∈ bytes.map fun b => b.toNat &&& 0xe0 ^^^ 0x60, d < 2 ^ 8 := by
    intro d hd
    obtain ⟨b, -, rfl⟩ := List.mem_map.mp hd
    exact Nat.xor_lt_two_pow (Nat.and_le_left.trans_lt b.toNat_lt) (by decide)
  have htest := Swar.zeroTest_ne_zero (by decide) hlanes
  rw [List.length_map, h] at htest
  unfold hasPushOpcode
  rw [bne_iff_ne, ne_eq, ← BitVec.toNat_inj, BitVec.toNat_and, BitVec.toNat_and, BitVec.toNat_sub,
    BitVec.toNat_not, hv]
  generalize word 8 (bytes.map fun b => b.toNat &&& 0xe0 ^^^ 0x60) = v at htest
  have hsub : 2 ^ 64 - (0x0101010101010101#64).toNat + v = v + 2 ^ (8 * 8) - 0x0101010101010101 := by
    show 2 ^ 64 - 0x0101010101010101 + v = v + 2 ^ 64 - 0x0101010101010101
    omega
  rw [hsub]
  refine htest.trans ?_
  rw [List.mem_map]
  constructor
  · rintro ⟨b, hb, hzero⟩
    exact ⟨b, hb, (push_lane b).mp hzero⟩
  · rintro ⟨b, hb, hpush⟩
    exact ⟨b, hb, (push_lane b).mpr hpush⟩

theorem hasPushOpcode_iff (cpuEndian : Endianness) (h : bytes.length = 8) :
    hasPushOpcode (copyMem cpuEndian bytes) = true ↔ ∃ b ∈ bytes, isPushOpcode b = true := by
  obtain heq | heq := copyMem_eq cpuEndian bytes
  · rw [heq, hasPushOpcode_wordLE h]
  · rw [heq, hasPushOpcode_wordLE (by rw [List.length_reverse, h])]
    simp

/-! ## Jump destinations in a word -/

theorem jumpdest_lane (b : UInt8) :
    (2 ^ 8 - 1 - (((b.toNat ^^^ 0x5b) &&& 0x7f) + 0x7f ||| (b.toNat ^^^ 0x5b))) &&& 0x80 =
      128 * (decide (b = JumpDest)).toNat := by
  have hall : ∀ n < 256, (2 ^ 8 - 1 - (((n ^^^ 0x5b) &&& 0x7f) + 0x7f ||| (n ^^^ 0x5b))) &&& 0x80 =
      128 * (decide (n = 0x5b)).toNat := by
    decide +kernel
  have hsame : b = JumpDest ↔ b.toNat = 0x5b := UInt8.toNat_inj.symm
  rw [hall b.toNat b.toNat_lt]
  simp only [hsame]

theorem gather_bits (c0 c1 c2 c3 c4 c5 c6 c7 : Bool) (k : Fin 8) :
    ((word 8 ([c0, c1, c2, c3, c4, c5, c6, c7].map Bool.toNat) * 0x0102040810204080 % 2 ^ 64) >>> 56 %
      2 ^ 8).testBit k = [c0, c1, c2, c3, c4, c5, c6, c7].getD k false := by
  revert c0 c1 c2 c3 c4 c5 c6 c7 k
  decide +kernel

theorem gather_testBit {bits : List Bool} (h : bits.length = 8) {k : Nat} (hk : k < 8) :
    ((word 8 (bits.map Bool.toNat) * 0x0102040810204080 % 2 ^ 64) >>> 56 % 2 ^ 8).testBit k =
      bits.getD k false := by
  match bits, h with
  | [c0, c1, c2, c3, c4, c5, c6, c7], _ => exact gather_bits c0 c1 c2 c3 c4 c5 c6 c7 ⟨k, hk⟩

theorem jumpdestBits_testBit (h : bytes.length = 8) {k : Nat} (hk : k < 8) :
    (jumpdestBits (wordLE bytes)).toNat.testBit k = decide (bytes[k]? = some JumpDest) := by
  let v : UInt8 → Nat := fun b => b.toNat ^^^ 0x5b
  have hvlt : ∀ b ∈ bytes, v b < 2 ^ 8 := fun b _ => Nat.xor_lt_two_pow b.toNat_lt (by decide)
  have hlow : ∀ b ∈ bytes, (v b &&& 0x7f) < 2 ^ 7 := fun b _ =>
    Nat.and_le_right.trans_lt (by decide)
  have hv : (wordLE bytes ^^^ 0x5b5b5b5b5b5b5b5b#64).toNat = word 8 (bytes.map v) := by
    have hconst : (0x5b5b5b5b5b5b5b5b#64).toNat = word 8 (bytes.map fun _ => 0x5b) := by
      rw [word_const h]
      rfl
    rw [BitVec.toNat_xor, wordLE_toNat h, hconst,
      Swar.word_xor (toNat_lt_lane bytes) (fun _ _ => by decide)]
  have hseven : (0x7f7f7f7f7f7f7f7f#64).toNat = word 8 (bytes.map fun _ => 0x7f) := by
    rw [word_const h]
    rfl
  have hhigh : (0x8080808080808080#64).toNat = word 8 (bytes.map fun _ => 0x80) := by
    rw [word_const h]
    rfl
  -- no lane of the sum overflows
  have hsumLt : ∀ b ∈ bytes, (v b &&& 0x7f) + 0x7f < 2 ^ 8 := fun b hb => by
    have hlt := hlow b hb
    omega
  have hsum : ((wordLE bytes ^^^ 0x5b5b5b5b5b5b5b5b#64) &&& 0x7f7f7f7f7f7f7f7f#64).toNat +
      (0x7f7f7f7f7f7f7f7f#64).toNat = word 8 (bytes.map fun b => (v b &&& 0x7f) + 0x7f) := by
    rw [BitVec.toNat_and, hv, hseven, Swar.word_and hvlt (fun _ _ => by decide), Swar.word_add]
  have hfits : word 8 (bytes.map fun b => (v b &&& 0x7f) + 0x7f) < 2 ^ 64 := by
    have hlanes : ∀ d ∈ bytes.map fun b => (v b &&& 0x7f) + 0x7f, d < 2 ^ 8 := by
      intro d hd
      obtain ⟨b, hb, rfl⟩ := List.mem_map.mp hd
      exact hsumLt b hb
    have hlt := Swar.word_lt hlanes
    rwa [List.length_map, h] at hlt
  have horLt : ∀ b ∈ bytes, ((v b &&& 0x7f) + 0x7f ||| v b) < 2 ^ 8 := fun b hb =>
    Nat.or_lt_two_pow (hsumLt b hb) (hvlt b hb)
  have hzero : (~~~(((wordLE bytes ^^^ 0x5b5b5b5b5b5b5b5b#64) &&& 0x7f7f7f7f7f7f7f7f#64) +
      0x7f7f7f7f7f7f7f7f#64 ||| (wordLE bytes ^^^ 0x5b5b5b5b5b5b5b5b#64)) &&&
        0x8080808080808080#64).toNat =
      128 * word 8 (bytes.map fun b => (decide (b = JumpDest)).toNat) := by
    have hcompl := Swar.word_compl horLt
    rw [h] at hcompl
    rw [BitVec.toNat_and, BitVec.toNat_not, BitVec.toNat_or, BitVec.toNat_add, hsum,
      Nat.mod_eq_of_lt hfits, hv, Swar.word_or hsumLt hvlt, hcompl, hhigh, Swar.word_and (fun b _ => by omega) (fun _ _ => by decide), ← Swar.word_mul]
    congr 1
    apply List.map_congr_left
    exact fun b _ => jumpdest_lane b
  unfold jumpdestBits
  have hgather : (0x0102040810204080#64).toNat = 0x0102040810204080 := rfl
  rw [UInt8.toNat_ofBitVec, BitVec.toNat_setWidth, BitVec.toNat_ushiftRight, BitVec.toNat_mul,
    BitVec.toNat_ushiftRight, hzero, Nat.shiftRight_eq_div_pow _ 7,
    Nat.mul_div_cancel_left _ (by decide)]
  have hbits := gather_testBit ((List.length_map (fun b => decide (b = JumpDest))).trans h) hk
  rw [List.map_map] at hbits
  have hlt : k < bytes.length := by omega
  refine hbits.trans ?_
  simp [List.getD_eq_getElem?_getD, List.getElem?_eq_getElem hlt]

end Nimbus.Spec.CodeBytes
