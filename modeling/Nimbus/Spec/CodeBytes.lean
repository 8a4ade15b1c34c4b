import Nimbus.Spec.CodeWords

/-!
# Jump destinations of the plain scan

The plain scan goes from opcode to opcode and skips what a push carries. A position is a valid
jump destination if the scan comes to it and a `JumpDest` is there. The bitmap says the same:
a word without a push consists of opcodes, and its byte of the bitmap is overwritten before
any other bit of it is set.
-/

namespace Nimbus.Spec.CodeBytes

open Nimbus.Native.CodeBytes

/-! ## The plain scan -/

/-- How many bytes after the opcode are its data. -/
def pushData (op : UInt8) : Nat :=
  if 0x60 ≤ op.toNat ∧ op.toNat ≤ 0x7f then op.toNat - 0x5f else 0

/-- The positions of opcodes. -/
inductive Scanned (bytes : List UInt8) : Nat → Prop where
  | start : Scanned bytes 0
  | next {i : Nat} {op : UInt8} (h : Scanned bytes i) (hop : bytes[i]? = some op) :
      Scanned bytes (i + 1 + pushData op)

/-- A `JumpDest` that is not push data. -/
structure IsJumpdest (bytes : List UInt8) (i : Nat) : Prop where
  scanned : Scanned bytes i
  opcode : bytes[i]? = some JumpDest

theorem IsJumpdest.lt {bytes : List UInt8} {i : Nat} (h : IsJumpdest bytes i) : i < bytes.length :=
  (List.getElem?_eq_some_iff.mp h.opcode).1

variable {bytes : List UInt8} {i j : Nat} {op : UInt8}

theorem pushData_eq_zero (h : ¬ isPushOpcode op = true) : pushData op = 0 := by
  rw [isPushOpcode_iff] at h
  unfold pushData
  split
  · omega
  · rfl

theorem pushData_eq (h : isPushOpcode op = true) : 1 + pushData op = op.toNat - 94 := by
  rw [isPushOpcode_iff] at h
  unfold pushData
  split
  · omega
  · omega

theorem Scanned.skips (hi : Scanned bytes i) (hop : bytes[i]? = some op) (hj : Scanned bytes j) :
    j ≤ i ∨ i + 1 + pushData op ≤ j := by
  -- the last step of the scan to `j` starts before it, and then the two change places
  induction hn : i + j using Nat.strong_induction_on generalizing i j op with
  | _ n ih =>
    cases hj with
    | start => exact .inl (Nat.zero_le i)
    | @next k opk hk hopk =>
      obtain hle | hge := ih (i + k) (by omega) hi hop hk rfl
      · obtain hlt | rfl := Nat.lt_or_eq_of_le hle
        · obtain hback | hahead := ih (k + i) (by omega) hk hopk hi rfl
          · omega
          · exact .inl hahead
        · rw [hop] at hopk
          cases hopk
          exact .inr (Nat.le_refl _)
      · exact .inr (by omega)

theorem Scanned.plain (hi : Scanned bytes i) {n : Nat} (hn : i + n ≤ bytes.length)
    (hplain : ∀ b ∈ (bytes.drop i).take n, ¬ isPushOpcode b = true) : ∀ k ≤ n, Scanned bytes (i + k) := by
  intro k hk
  induction k with
  | zero => exact hi
  | succ k ih =>
    have hlt : i + k < bytes.length := by omega
    have hop : bytes[i + k]? = some bytes[i + k] := List.getElem?_eq_getElem hlt
    have hmem : bytes[i + k] ∈ (bytes.drop i).take n := by
      apply List.mem_of_getElem? (i := k)
      rw [List.getElem?_take_of_lt (by omega), List.getElem?_drop, hop]
    have hnext := Scanned.next (ih (by omega)) hop
    rwa [pushData_eq_zero (hplain _ hmem)] at hnext

/-! ## The bitmap -/

/-- The bit of a position. -/
def bitAt (bitmap : List UInt8) (pos : Nat) : Bool :=
  bitmap.getD (bitpos pos).1 0 &&& (bitpos pos).2 != 0

theorem bitAt_eq (bitmap : List UInt8) (pos : Nat) :
    bitAt bitmap pos = (bitmap.getD (pos / 8) 0).toNat.testBit (pos % 8) := by
  have hall : ∀ n < 256, ∀ k < 8, (UInt8.ofNat n &&& 1 <<< UInt8.ofNat k != 0) = n.testBit k := by
    decide +kernel
  have hshift : pos >>> 3 = pos / 8 := Nat.shiftRight_eq_div_pow pos 3
  have hand : pos &&& 0x07 = pos % 8 := Nat.and_two_pow_sub_one_eq_mod pos 3
  unfold bitAt bitpos
  rw [hshift, hand]
  have hbyte := hall _ (bitmap.getD (pos / 8) 0).toNat_lt (pos % 8) (Nat.mod_lt _ (by decide))
  rwa [UInt8.ofNat_toNat] at hbyte

variable {bitmap : List UInt8}

theorem bitAt_markJumpdest (h : i < 8 * bitmap.length) (j : Nat) :
    bitAt (markJumpdest bitmap op i) j = (bitAt bitmap j || decide (op = JumpDest ∧ j = i)) := by
  have hbit : ∀ k < 8, ∀ l < 8,
      (1 <<< UInt8.ofNat k : UInt8).toNat.testBit l = decide (l = k) := by
    decide +kernel
  unfold markJumpdest
  by_cases hop : op = JumpDest
  · have hshift : i >>> 3 = i / 8 := Nat.shiftRight_eq_div_pow i 3
    have hand : i &&& 0x07 = i % 8 := Nat.and_two_pow_sub_one_eq_mod i 3
    rw [if_pos hop]
    unfold bitpos
    rw [hshift, hand, bitAt_eq, bitAt_eq, List.getD_eq_getElem?_getD, List.getD_eq_getElem?_getD]
    have hlt : i / 8 < bitmap.length := by omega
    by_cases hsame : i / 8 = j / 8
    · rw [← hsame, List.getElem?_modify_eq, List.getElem?_eq_getElem hlt]
      have hpos : j % 8 = i % 8 ↔ op = JumpDest ∧ j = i := by
        rw [and_iff_right hop]
        omega
      show (bitmap[i / 8] ||| 1 <<< UInt8.ofNat (i % 8)).toNat.testBit (j % 8) = _
      rw [UInt8.toNat_or, Nat.testBit_or, hbit (i % 8) (Nat.mod_lt _ (by decide)) (j % 8)
        (Nat.mod_lt _ (by decide))]
      simp only [hpos, Option.getD_some]
    · have hne : ¬ (op = JumpDest ∧ j = i) := by
        rintro ⟨-, rfl⟩
        exact hsame rfl
      rw [List.getElem?_modify_ne _ _ hsame, decide_eq_false hne, Bool.or_false]
  · rw [if_neg hop, decide_eq_false fun h => hop h.1, Bool.or_false]

theorem bitAt_set (h : i < 8 * bitmap.length) (byte : UInt8) (j : Nat) :
    bitAt (bitmap.set (i >>> 3) byte) j =
      if j / 8 = i / 8 then byte.toNat.testBit (j % 8) else bitAt bitmap j := by
  have hshift : i >>> 3 = i / 8 := Nat.shiftRight_eq_div_pow i 3
  have hlt : i / 8 < bitmap.length := by omega
  rw [hshift, bitAt_eq, bitAt_eq, List.getD_eq_getElem?_getD, List.getElem?_set]
  by_cases hsame : j / 8 = i / 8
  · rw [if_pos hsame.symm, if_pos hlt, if_pos hsame]
    rfl
  · rw [if_neg (Ne.symm hsame), if_neg hsame, List.getD_eq_getElem?_getD]

/-! ## The walk -/

/-- The walk is at the opcode `i`, and the bitmap is right as far as that. -/
structure Marked (bytes bitmap : List UInt8) (i : Nat) : Prop where
  scanned : Scanned bytes i
  length : bitmap.length = (bytes.length + 7) / 8
  bits : ∀ j, bitAt bitmap j = true ↔ j < i ∧ IsJumpdest bytes j

namespace Marked

variable {bitmap : List UInt8}

theorem lt_bits (h : Marked bytes bitmap i) (hi : i < bytes.length) : i < 8 * bitmap.length := by
  rw [h.length]
  omega

theorem next (h : Marked bytes bitmap i) (hi : i < bytes.length) :
    Marked bytes (markJumpdest bitmap bytes[i] i) (i + 1 + pushData bytes[i]) where
  scanned := .next h.scanned (List.getElem?_eq_getElem hi)
  length := by
    unfold markJumpdest
    split
    · exact (List.length_modify ..).trans h.length
    · exact h.length
  bits j := by
    have hop : bytes[i]? = some bytes[i] := List.getElem?_eq_getElem hi
    rw [bitAt_markJumpdest (h.lt_bits hi), Bool.or_eq_true, decide_eq_true_eq, h.bits]
    constructor
    · rintro (⟨hlt, hdest⟩ | ⟨hdest, rfl⟩)
      · exact ⟨by omega, hdest⟩
      · exact ⟨by omega, h.scanned, hdest ▸ hop⟩
    · rintro ⟨hlt, hdest⟩
      obtain hle | hge := h.scanned.skips hop hdest.scanned
      · obtain hlt | rfl := Nat.lt_or_eq_of_le hle
        · exact .inl ⟨hlt, hdest⟩
        · exact .inr ⟨Option.some.inj (hop.symm.trans hdest.opcode), rfl⟩
      · omega

theorem word (h : Marked bytes bitmap i) (cpuEndian : Endianness) (haligned : i % 8 = 0)
    (hi : i + 8 ≤ bytes.length)
    (hplain : ¬ hasPushOpcode (copyMem cpuEndian ((bytes.drop i).take 8)) = true) :
    Marked bytes (bitmap.set (i >>> 3)
      (jumpdestBits (fromLE cpuEndian (copyMem cpuEndian ((bytes.drop i).take 8))))) (i + 8) := by
  have hlen : ((bytes.drop i).take 8).length = 8 := by
    rw [List.length_take, List.length_drop]
    omega
  rw [hasPushOpcode_iff cpuEndian hlen] at hplain
  have hscan := h.scanned.plain hi fun b hb hpush => hplain ⟨b, hb, hpush⟩
  refine ⟨hscan 8 (Nat.le_refl 8), (List.length_set ..).trans h.length, fun j => ?_⟩
  rw [bitAt_set (h.lt_bits (by omega)), fromLE_copyMem cpuEndian hlen]
  split
  next hsame =>
    -- a position in the word
    have hlow : i ≤ j := by omega
    have hhigh : j < i + 8 := by omega
    have hj : j % 8 = j - i := by omega
    have hread : ((bytes.drop i).take 8)[j - i]? = bytes[j]? := by
      rw [List.getElem?_take_of_lt (by omega), List.getElem?_drop, Nat.add_sub_cancel' hlow]
    rw [jumpdestBits_testBit hlen (Nat.mod_lt _ (by decide)), decide_eq_true_eq, hj, hread]
    constructor
    · intro hdest
      have hscanned := hscan (j - i) (by omega)
      rw [Nat.add_sub_cancel' hlow] at hscanned
      exact ⟨hhigh, hscanned, hdest⟩
    · exact fun hdest => hdest.2.opcode
  next hother =>
    rw [h.bits]
    constructor
    · exact fun hdest => ⟨by omega, hdest.2⟩
    · exact fun hdest => ⟨by omega, hdest.2⟩

end Marked

variable (cpuEndian : Endianness)

theorem markPushFreeWords_spec
    (h : Marked bytes bitmap i) (haligned : i % 8 = 0 ∨ i = bytes.length) :
    Marked bytes (markPushFreeWords cpuEndian bytes bitmap i).1
      (markPushFreeWords cpuEndian bytes bitmap i).2 := by
  fun_induction markPushFreeWords cpuEndian bytes bitmap i with
  | case1 bitmap i hi word hpush => exact h
  | case2 bitmap i hi word hplain bitmap' rest ih =>
    have haligned' : i % 8 = 0 := by omega
    exact ih (h.word cpuEndian haligned' hi hplain) (.inl (by omega))
  | case3 bitmap i hi => exact h

theorem Marked.next_plain (h : Marked bytes bitmap i) (hi : i < bytes.length)
    (hop : ¬ isPushOpcode bytes[i] = true) :
    Marked bytes (markJumpdest bitmap bytes[i] i) (i + 1) := by
  have hnext := h.next hi
  rwa [pushData_eq_zero hop] at hnext

theorem Marked.next_push (h : Marked bytes bitmap i) (hi : i < bytes.length)
    (hop : isPushOpcode bytes[i] = true) : Marked bytes bitmap (i + (bytes[i].toNat - 94)) := by
  have hdest : ¬ bytes[i] = JumpDest := by
    intro hdest
    rw [hdest] at hop
    revert hop
    decide
  have hsame : markJumpdest bitmap bytes[i] i = bitmap := if_neg hdest
  have hnext := h.next hi
  rwa [Nat.add_assoc, pushData_eq hop, hsame] at hnext

/-- The bitmap that a part of the walk leaves, and where the walk has come to. -/
def Goes (bytes : List UInt8) {i : Nat} (found : List UInt8 × Option (PushFrom bytes i)) : Prop :=
  match found.2 with
  | none => ∃ j, bytes.length ≤ j ∧ Marked bytes found.1 j
  | some push => Marked bytes found.1 push.pos

theorem Goes.of_le {found : List UInt8 × Option (PushFrom bytes j)} (h : Goes bytes found)
    (hle : i ≤ j) : Goes bytes (found.1, found.2.map (.of_le hle)) := by
  obtain ⟨bitmap, push⟩ := found
  cases push with
  | none => exact h
  | some push => exact h

theorem toPush_spec {stop : Nat}
    (h : Marked bytes bitmap i) (hi : i < bytes.length) (hstop : stop ≤ bytes.length)
    (haligned : stop % 8 = 0 ∨ stop = bytes.length) (hlater : i < stop) :
    Goes bytes (toPush cpuEndian bytes bitmap i stop hi hstop) := by
  fun_induction toPush cpuEndian bytes bitmap i stop hi hstop with
  | case1 bitmap i stop hi hstop hop => exact h
  | case2 bitmap i stop hi hstop hop marked hnext words hle hword rest ih =>
    have hi' : stop = i + 1 := by omega
    have hwords := markPushFreeWords_spec cpuEndian (h.next_plain hi hop) (hi' ▸ haligned)
    exact (ih hwords (.inr rfl) hword).of_le (Nat.le_of_lt hle)
  | case3 bitmap i stop hi hstop hop marked hnext words hle hword =>
    have hi' : stop = i + 1 := by omega
    have hwords := markPushFreeWords_spec cpuEndian (h.next_plain hi hop) (hi' ▸ haligned)
    exact ⟨words.2, Nat.le_of_not_lt hword, hwords⟩
  | case4 bitmap i stop hi hstop hop marked hnext rest ih =>
    exact (ih (h.next_plain hi hop) haligned (by omega)).of_le (Nat.le_succ i)

theorem walk_spec (h : Marked bytes bitmap i) :
    ∃ j, bytes.length ≤ j ∧ Marked bytes (walk cpuEndian bytes bitmap i) j := by
  have hfound : ∀ bitmap i (hi : i < bytes.length), Marked bytes bitmap i → Goes bytes
      (toPush cpuEndian bytes bitmap i (min ((i + 31) / 8 * 8) bytes.length) hi
        (Nat.min_le_right _ _)) := by
    intro bitmap i hi h
    apply toPush_spec cpuEndian h hi
    · obtain hmin | hmin := Nat.le_total ((i + 31) / 8 * 8) bytes.length
      · rw [Nat.min_eq_left hmin]
        exact .inl (Nat.mul_mod_left _ _)
      · exact .inr (Nat.min_eq_right hmin)
    · omega
  fun_induction walk cpuEndian bytes bitmap i with
  | case1 bitmap i hi stop found hnone =>
    have hgoes := hfound bitmap i hi h
    unfold Goes at hgoes
    rw [show (toPush cpuEndian bytes bitmap i _ hi _).2 = none from hnone] at hgoes
    exact hgoes
  | case2 bitmap i hi stop found push hpush hlt op ih =>
    have hgoes := hfound bitmap i hi h
    unfold Goes at hgoes
    rw [show (toPush cpuEndian bytes bitmap i _ hi _).2 = some push from hpush] at hgoes
    exact ih (hgoes.next_push hlt push.isPush)
  | case3 bitmap i hi => exact ⟨i, Nat.le_of_not_lt hi, h⟩

/-- The bitmap has the bits of the positions that are jump destinations for the plain scan. -/
theorem jumpdestBitmap_spec (bytes : List UInt8) (i : Nat) :
    bitAt (jumpdestBitmap cpuEndian bytes) i = true ↔ IsJumpdest bytes i := by
  have hstart : Marked bytes (List.replicate ((bytes.length + 7) / 8) 0) 0 := by
    refine ⟨.start, List.length_replicate, fun j => ?_⟩
    have hzero : (List.replicate ((bytes.length + 7) / 8) (0 : UInt8)).getD (j / 8) 0 = 0 := by
      rw [List.getD_eq_getElem?_getD, List.getElem?_replicate]
      split
      · rfl
      · rfl
    rw [bitAt_eq]
    simp
  obtain ⟨j, hj, hmarked⟩ := walk_spec cpuEndian hstart
  unfold jumpdestBitmap
  rw [hmarked.bits]
  exact ⟨fun h => h.2, fun h => ⟨h.lt.trans_le hj, h⟩⟩

/-- Whether or not the bitmap is there already, and the code stays as it is. -/
theorem isValidJumpdest_spec {cpuEndian : Endianness} (c : CodeBytesRef cpuEndian)
    (position : BitVec 64) :
    ((isValidJumpdest c position).2 = true ↔
      0 ≤ position.toInt ∧ IsJumpdest c.bytes position.toInt.toNat) ∧
    (isValidJumpdest c position).1.bytes = c.bytes := by
  have hlen := c.len_lt
  have hint := BitVec.toInt_eq_toNat_cond position
  unfold isValidJumpdest
  split
  next hout =>
    refine ⟨iff_of_false Bool.false_ne_true ?_, rfl⟩
    rintro ⟨hpos, hdest⟩
    have hlt := hdest.lt
    split at hint
    · omega
    · omega
  next hin =>
    have hpos : position.toInt = position.toNat := by
      rw [hint, if_pos (by omega)]
    have hbit := jumpdestBitmap_spec cpuEndian c.bytes position.toNat
    rw [hpos, Int.toNat_natCast, and_iff_right (Int.natCast_nonneg _), ← hbit]
    split
    · exact ⟨Iff.rfl, rfl⟩
    next hsome =>
      -- the bitmap is there, and it is the right one
      have hmap : c.jumpdests = jumpdestBitmap cpuEndian c.bytes := by
        obtain hnil | hmap := c.jumpdests_eq
        · exact absurd (congrArg List.length hnil) hsome
        · exact hmap
      rw [← hmap]
      exact ⟨Iff.rfl, rfl⟩

/-- The bitmap and `isValidJumpdest` agree with the plain scan, for every code, in either byte
order and at every position. -/
theorem jumpdests_scanned :
    (∀ bytes i, bitAt (jumpdestBitmap cpuEndian bytes) i = true ↔ IsJumpdest bytes i) ∧
      ∀ (c : CodeBytesRef cpuEndian) (position : BitVec 64),
        (isValidJumpdest c position).2 = true ↔
          0 ≤ position.toInt ∧ IsJumpdest c.bytes position.toInt.toNat :=
  ⟨jumpdestBitmap_spec cpuEndian, fun c position => (isValidJumpdest_spec c position).1⟩

end Nimbus.Spec.CodeBytes
