import Nimbus.ForStd.Bytes

/-!
# Valid jump destinations

Model of `evm/code_bytes.nim`. The bitmap of a code has a bit for each of its bytes. The walk
goes from opcode to opcode at first, and eight bytes at a time where a word holds no push.
A word is read in the byte order of the machine, which is a parameter.

Bounds are not checked there. That each byte is read within the code is part of the types here.
-/

namespace Nimbus.Native.CodeBytes

def JumpDest : UInt8 := 0x5b

/-- `bitpos` -/
def bitpos (pos : Nat) : Nat × UInt8 := (pos >>> 3, 1 <<< UInt8.ofNat (pos &&& 0x07))

/-- `isPushOpcode` -/
def isPushOpcode (b : UInt8) : Bool := b &&& 0xe0 == 0x60

theorem isPushOpcode_iff (b : UInt8) : isPushOpcode b = true ↔ 0x60 ≤ b.toNat ∧ b.toNat < 0x80 := by
  have hall : ∀ n < 256, isPushOpcode (UInt8.ofNat n) = true ↔ 0x60 ≤ n ∧ n < 0x80 := by
    decide +kernel
  have hb := hall b.toNat b.toNat_lt
  rwa [UInt8.ofNat_toNat] at hb

/-! ## Words -/

inductive Endianness where
  | littleEndian
  | bigEndian

def swapBytes (x : BitVec 64) : BitVec 64 := BitVec.ofNat 64 (fromBytesLE (toBytesLE 8 x.toNat).reverse)

/-- A word that is copied from eight bytes of memory. -/
def copyMem (cpuEndian : Endianness) (bytes : List UInt8) : BitVec 64 :=
  match cpuEndian with
  | .littleEndian => BitVec.ofNat 64 (fromBytesLE bytes)
  | .bigEndian => BitVec.ofNat 64 (fromBytesLE bytes.reverse)

def fromLE (cpuEndian : Endianness) (x : BitVec 64) : BitVec 64 :=
  match cpuEndian with
  | .littleEndian => x
  | .bigEndian => swapBytes x

/-- `hasPushOpcode` -/
def hasPushOpcode (word : BitVec 64) : Bool :=
  let topThreeBits := 0xe0e0e0e0e0e0e0e0#64
  let pushBits := 0x6060606060606060#64
  let lowBitOfEach := 0x0101010101010101#64
  let highBitOfEach := 0x8080808080808080#64
  let v := word &&& topThreeBits ^^^ pushBits
  ((v - lowBitOfEach) &&& ~~~v &&& highBitOfEach) != 0#64

/-- `jumpdestBits` -/
def jumpdestBits (word : BitVec 64) : UInt8 :=
  let jumpdestBytes := 0x5b5b5b5b5b5b5b5b#64
  let lowSevenBits := 0x7f7f7f7f7f7f7f7f#64
  let highBitOfEach := 0x8080808080808080#64
  let gather := 0x0102040810204080#64
  let v := word ^^^ jumpdestBytes
  let zeroBytes := ~~~(((v &&& lowSevenBits) + lowSevenBits) ||| v) &&& highBitOfEach
  UInt8.ofBitVec ((((zeroBytes >>> 7) * gather) >>> 56).setWidth 8)

/-! ## The bitmap -/

/-- `markPushFreeWords`, with the position where the walk resumes. -/
def markPushFreeWords (cpuEndian : Endianness) (bytes bitmap : List UInt8) (start : Nat) :
    List UInt8 × { i : Nat // start ≤ i } :=
  if start + 8 ≤ bytes.length then
    let word := copyMem cpuEndian ((bytes.drop start).take 8)
    if hasPushOpcode word then (bitmap, ⟨start, Nat.le_refl start⟩)
    else
      let bitmap := bitmap.set (start >>> 3) (jumpdestBits (fromLE cpuEndian word))
      let rest := markPushFreeWords cpuEndian bytes bitmap (start + 8)
      (rest.1, ⟨rest.2, Nat.le_trans (Nat.le_add_right start 8) rest.2.property⟩)
  else (bitmap, ⟨start, Nat.le_refl start⟩)
termination_by bytes.length - start

/-- Marks the position `i` if the opcode there is `JumpDest`. -/
def markJumpdest (bitmap : List UInt8) (op : UInt8) (i : Nat) : List UInt8 :=
  if op = JumpDest then
    let (bpos, bbit) := bitpos i
    bitmap.modify bpos (· ||| bbit)
  else bitmap

/-- A push in the code, not before `i`. -/
structure PushFrom (bytes : List UInt8) (i : Nat) where
  pos : Nat
  le : i ≤ pos
  lt : pos < bytes.length
  isPush : isPushOpcode bytes[pos] = true

def PushFrom.of_le {bytes : List UInt8} {i j : Nat} (h : i ≤ j) (push : PushFrom bytes j) :
    PushFrom bytes i :=
  { push with le := Nat.le_trans h push.le }

/-- The inner loop of `jumpdestBitmap`, from the opcode at `i` to the next push, if there is
one. -/
def toPush (cpuEndian : Endianness) (bytes bitmap : List UInt8) (i stop : Nat)
    (hi : i < bytes.length) (hstop : stop ≤ bytes.length) : List UInt8 × Option (PushFrom bytes i) :=
  if hop : isPushOpcode bytes[i] = true then (bitmap, some ⟨i, Nat.le_refl i, hi, hop⟩)
  else
    let marked := markJumpdest bitmap bytes[i] i
    if hnext : stop ≤ i + 1 then
      -- goes on a word at a time
      let words := markPushFreeWords cpuEndian bytes marked (i + 1)
      have hle : i < words.2 := words.2.property
      if hword : words.2 < bytes.length then
        let rest := toPush cpuEndian bytes words.1 words.2 bytes.length hword (Nat.le_refl _)
        (rest.1, rest.2.map (.of_le (Nat.le_of_lt hle)))
      else (words.1, none)
    else
      let rest := toPush cpuEndian bytes marked (i + 1) stop (by omega) hstop
      (rest.1, rest.2.map (.of_le (Nat.le_succ i)))
termination_by bytes.length - i
decreasing_by
  · exact Nat.sub_lt_sub_left hi hle
  · exact Nat.sub_lt_sub_left hi (Nat.lt_succ_self i)

/-- The outer loop of `jumpdestBitmap`. -/
def walk (cpuEndian : Endianness) (bytes bitmap : List UInt8) (i : Nat) : List UInt8 :=
  if hi : i < bytes.length then
    -- `(i + 31) and not 7`
    let stop := min ((i + 31) / 8 * 8) bytes.length
    let found := toPush cpuEndian bytes bitmap i stop hi (Nat.min_le_right _ _)
    match found.2 with
    | none => found.1
    | some push =>
      have hlt := push.lt
      let op := bytes[push.pos]
      walk cpuEndian bytes found.1 (push.pos + (op.toNat - 94))
  else bitmap
termination_by bytes.length - i
decreasing_by
  have hop := ((isPushOpcode_iff _).mp push.isPush).1
  have hle := push.le
  omega

/-- `jumpdestBitmap` -/
def jumpdestBitmap (cpuEndian : Endianness) (bytes : List UInt8) : List UInt8 :=
  walk cpuEndian bytes (List.replicate ((bytes.length + 7) / 8) 0) 0

/-! ## Code -/

/-- A code buffer. The valid jump destinations are supplied at creation or computed on the
first jump. -/
structure CodeBytesRef (cpuEndian : Endianness) where
  bytes : List UInt8
  jumpdests : List UInt8 := []
  /-- `len` is an `int` -/
  len_lt : bytes.length < 2 ^ 63
  jumpdests_eq : jumpdests = [] ∨ jumpdests = jumpdestBitmap cpuEndian bytes := by simp

/-- `isValidJumpdest`, with the bitmap from then on. An `int` has 64 bits. -/
def isValidJumpdest {cpuEndian : Endianness} (c : CodeBytesRef cpuEndian) (position : BitVec 64) :
    CodeBytesRef cpuEndian × Bool :=
  if c.bytes.length ≤ position.toNat then (c, false)
  else
    let c :=
      if c.jumpdests.length = 0 then
        { c with jumpdests := jumpdestBitmap cpuEndian c.bytes, jumpdests_eq := .inr rfl }
      else c
    let (bpos, bbit) := bitpos position.toNat
    (c, c.jumpdests.getD bpos 0 &&& bbit != 0)

end Nimbus.Native.CodeBytes
