import Nimbus.Spec.BlobBytes

/-!
# Vertices are read back from their records

A record of a branch is an optional key, the first child, the bitmap, the path and a last byte; a
record of a leaf is its fields, the path and a last byte. The lengths of the fields of an account
leaf share two bytes behind them, and the byte behind these says which fields there are.
-/

namespace Nimbus.Spec.Blobify

open Native Native.Aristo BigEndian

/-- What the code relies on of the paths: they are read back, and take half a byte for each
nibble and up to a byte for the kind and the parity. -/
structure LawfulHexPrefix [HexPrefix] : Prop where
  read : ∀ pfx isLeaf, pfx.length ≤ 64 → fromHexPrefix (toHexPrefix pfx isLeaf) = (isLeaf, pfx)
  length : ∀ pfx isLeaf, pfx.length ≤ 64 → (toHexPrefix pfx isLeaf).length = pfx.length / 2 + 1
  /-- no bytes are the empty path -/
  empty : (fromHexPrefix []).2 = []

/-! ## The last byte -/

/-- The kind and the length of the path do not disturb each other. -/
theorem lastByte_spec : ∀ bits < 4, ∀ n < 64,
    (UInt8.ofNat bits <<< 6 ||| UInt8.ofNat n) >>> 6 = UInt8.ofNat bits ∧
      ((UInt8.ofNat bits <<< 6 ||| UInt8.ofNat n) &&& 0b00111111).toNat = n := by
  decide +kernel

/-! ## The mask and the lengths of an account leaf -/

section

/-- The bytes of a field that may be left out. -/
def opt (present : Bool) (bytes : List UInt8) : List UInt8 := if present then bytes else []

def maskOf (nonce balance stoID stoHint codeHash : Bool) : UInt8 :=
  (if nonce then 0x01 else 0) ||| (if balance then 0x02 else 0) ||| (if stoID then 0x04 else 0) |||
    (if stoHint then 0x10 else 0) ||| (if codeHash then 0x08 else 0)

theorem maskOf_spec (nonce balance stoID stoHint codeHash : Bool) :
    let mask := maskOf nonce balance stoID stoHint codeHash
    ¬ mask &&& 0x20 > 0 ∧ mask &&& 0xe0 = 0 ∧ (mask &&& 0x01 > 0 ↔ nonce) ∧
      (mask &&& 0x02 > 0 ↔ balance) ∧ (mask &&& 0x04 > 0 ↔ stoID) ∧
      (mask &&& 0x10 > 0 ↔ stoHint) ∧ (mask &&& 0x08 > 0 ↔ codeHash) := by
  revert nonce balance stoID stoHint codeHash
  decide

/-- One less than the lengths of the nonce, the balance and the storage identifier. -/
def lensOf (nonce balance stoID : Nat) : Nat := nonce + balance * 2 ^ 3 + stoID * 2 ^ 8

theorem lensOf_spec {nonce balance stoID : Nat} (hn : nonce < 8) (hb : balance < 32)
    (hs : stoID < 8) : let lens := lensOf nonce balance stoID
    lens < 256 ^ 2 ∧ lens &&& 0b111 = nonce ∧ lens >>> 3 &&& 0b11111 = balance ∧
      lens >>> 8 &&& 0b111 = stoID := by
  have hand (x : Nat) : x &&& 0b111 = x % 2 ^ 3 := Nat.and_two_pow_sub_one_eq_mod x 3
  have hand' (x : Nat) : x &&& 0b11111 = x % 2 ^ 5 := Nat.and_two_pow_sub_one_eq_mod x 5
  simp only [hand, hand', Nat.shiftRight_eq_div_pow, lensOf]
  omega

end

/-! ## Loading the fields of an account leaf -/

theorem opt_length (present : Bool) (bytes : List UInt8) :
    (opt present bytes).length = if present then bytes.length else 0 := by
  cases present <;> rfl

section
variable {data : List UInt8} {pos : Nat}

/-- A field is loaded where there is one, and has its default otherwise. -/
theorem ifSet_run {α : Type} {mask bit : UInt8} {present : Bool} (hbit : mask &&& bit > 0 ↔ present)
    {load : Load α} {default v : α} {bytes : List UInt8} (h : SliceAt data pos (opt present bytes))
    (hload : present → SliceAt data pos bytes → load.run pos = .ok (v, pos + bytes.length))
    (hdefault : ¬ present → default = v) :
    (ifSet mask bit load default).run pos = .ok (v, pos + (opt present bytes).length) := by
  unfold ifSet
  cases present with
  | true => rw [if_pos (hbit.mpr rfl), hload rfl h, opt, if_pos rfl]
  | false =>
    rw [if_neg fun hset => Bool.noConfusion (hbit.mp hset), hdefault Bool.false_ne_true]
    rfl

theorem loadStoHint_run {hint : Fin (STATIC_VID_LEVELS + 2)}
    (h : SliceAt data pos [UInt8.ofNat hint]) :
    (loadStoHint data).run pos = .ok (hint, pos + 1) := by
  have hle := h.le_length
  rw [List.length_singleton] at hle
  have hlt : hint.val < 10 := hint.isLt
  have hsize : UInt8.size = 256 := rfl
  have hnat : (UInt8.ofNat hint).toNat = hint := UInt8.toNat_ofNat_of_lt' (by omega)
  show loadStoHint data pos = _
  unfold loadStoHint
  rw [if_neg (by omega), byteAt_slice h rfl, except_ok_bind,
    dif_pos (show (UInt8.ofNat hint).toNat < STATIC_VID_LEVELS + 2 by rw [hnat]; exact hint.isLt)]
  exact congrArg Except.ok (Prod.ext (Fin.ext hnat) rfl)

theorem loadCodeHash_run {codeHash : Hash32} (h : SliceAt data pos codeHash.toList) :
    (loadCodeHash data).run pos = .ok (codeHash, pos) := by
  have hle := h.le_length
  have hlen : codeHash.toList.length = 32 := Vector.length_toList
  show loadCodeHash data pos = _
  unfold loadCodeHash
  rw [if_neg (by omega), toOpenArray_slice h rfl (by omega)]
  refine congrArg Except.ok (Prod.ext ?_ rfl)
  ext i hi
  simp [List.getD_eq_getElem?_getD]

theorem load_bind {α β : Type} {m : Load α} {f : α → Load β} {a : α} {p : Nat}
    (h : m.run pos = .ok (a, p)) : (m >>= f).run pos = (f a).run p := by
  rw [StateT.run_bind, h]
  rfl

end

section
variable [Keccak]

section
variable (pyl : AccLeaf)

def nonceBytes : List UInt8 := blobifyNumber 8 pyl.account.nonce.toNat

def balanceBytes : List UInt8 := blobifyNumber 32 pyl.account.balance.toNat

def stoIDBytes : List UInt8 := blobifyNumber 8 pyl.stoID.vid

def hasNonce : Bool := 0 < pyl.account.nonce

def hasBalance : Bool := 0 < pyl.account.balance

def hasStoHint : Bool := 0 < pyl.stoHint

def hasCode : Bool := pyl.account.codeHash ≠ EMPTY_CODE_HASH

def fieldBytes : List UInt8 :=
  opt (hasNonce pyl) (nonceBytes pyl) ++ (opt (hasBalance pyl) (balanceBytes pyl) ++
    (opt pyl.stoID.isValid (stoIDBytes pyl) ++
      (opt (hasStoHint pyl) [UInt8.ofNat pyl.stoHint] ++
        opt (hasCode pyl) pyl.account.codeHash.toList)))

/-- One less than the length of a field that there is. -/
def lenOf (present : Bool) (bytes : List UInt8) : Nat := if present then bytes.length - 1 else 0

def leafLens : Nat :=
  lensOf (lenOf (hasNonce pyl) (nonceBytes pyl)) (lenOf (hasBalance pyl) (balanceBytes pyl))
    (lenOf pyl.stoID.isValid (stoIDBytes pyl))

def leafMask : UInt8 :=
  maskOf (hasNonce pyl) (hasBalance pyl) pyl.stoID.isValid (hasStoHint pyl) (hasCode pyl)

omit [Keccak] in
theorem put_fields (nonce balance stoID stoHint codeHash : Bool) (N B S H C : List UInt8) :
    ((((AccFields.put {} nonce 0x01 (some 0) N).put balance 0x02 (some 3) B).put
      stoID 0x04 (some 8) S).put stoHint 0x10 none H).put codeHash 0x08 none C =
      { lens := lensOf (lenOf nonce N) (lenOf balance B) (lenOf stoID S)
        mask := maskOf nonce balance stoID stoHint codeHash
        data := opt nonce N ++ (opt balance B ++ (opt stoID S ++ (opt stoHint H ++
          opt codeHash C))) } := by
  cases nonce <;> cases balance <;> cases stoID <;> cases stoHint <;> cases codeHash <;>
    simp [AccFields.put, opt, lenOf, lensOf, maskOf, Nat.shiftLeft_eq]

/-- The record of an account leaf: its fields, their lengths and which ones there are. -/
theorem accLeaf_blobifyTo_eq :
    pyl.blobifyTo = fieldBytes pyl ++ (toBytes 2 (leafLens pyl) ++ [leafMask pyl]) := by
  have hfields := put_fields (hasNonce pyl) (hasBalance pyl) pyl.stoID.isValid (hasStoHint pyl)
    (hasCode pyl) (nonceBytes pyl) (balanceBytes pyl) (stoIDBytes pyl)
    [UInt8.ofNat pyl.stoHint] pyl.account.codeHash.toList
  rw [← List.append_assoc]
  exact congrArg (fun f : AccFields => f.data ++ toBytes 2 f.lens ++ [f.mask]) hfields

/-- A leaf as it is read back: the identifier of a deleted storage trie is not written. -/
def storedLeaf (pyl : AccLeaf) : AccLeaf :=
  { pyl with stoID := if pyl.stoID.isValid then pyl.stoID else {} }

omit [Keccak] in
theorem leafLens_spec : let lens := leafLens pyl
    lens < 256 ^ 2 ∧ lens &&& 0b111 = lenOf (hasNonce pyl) (nonceBytes pyl) ∧
      lens >>> 3 &&& 0b11111 = lenOf (hasBalance pyl) (balanceBytes pyl) ∧
      lens >>> 8 &&& 0b111 = lenOf pyl.stoID.isValid (stoIDBytes pyl) := by
  have hn : (nonceBytes pyl).length ≤ 8 := blobifyNumber_length_le
  have hb : (balanceBytes pyl).length ≤ 32 := blobifyNumber_length_le
  have hs : (stoIDBytes pyl).length ≤ 8 := blobifyNumber_length_le
  refine lensOf_spec ?_ ?_ ?_ <;> unfold lenOf <;> split <;> omega

/-- The code hash comes last, and the position is not moved behind it. -/
theorem loadCode_run {data : List UInt8} {pos : Nat}
    (h : SliceAt data pos (opt (hasCode pyl) pyl.account.codeHash.toList)) :
    (ifSet (leafMask pyl) 0x08 (loadCodeHash data) EMPTY_CODE_HASH).run pos =
      .ok (pyl.account.codeHash, pos) := by
  obtain ⟨-, -, -, -, -, -, hmask⟩ := maskOf_spec (hasNonce pyl) (hasBalance pyl)
    pyl.stoID.isValid (hasStoHint pyl) (hasCode pyl)
  unfold ifSet
  by_cases hcode : hasCode pyl = true
  · rw [hcode] at h
    rw [leafMask, if_pos (hmask.mpr hcode)]
    exact loadCodeHash_run h
  · have heq : pyl.account.codeHash = EMPTY_CODE_HASH :=
      Decidable.of_not_not fun hne => hcode (decide_eq_true hne)
    rw [leafMask, if_neg fun hset => hcode (hmask.mp hset), heq]
    rfl

theorem loadAccount_run (hvid : pyl.stoID.vid < 2 ^ 64) {data : List UInt8}
    (h : SliceAt data 0 (fieldBytes pyl)) :
    ∃ q, (loadAccount data (leafMask pyl) (leafLens pyl) pyl.pfx).run 0 =
      .ok (.AccLeaf (storedLeaf pyl), q) := by
  obtain ⟨-, -, hmaskN, hmaskB, hmaskS, hmaskH, -⟩ := maskOf_spec (hasNonce pyl)
    (hasBalance pyl) pyl.stoID.isValid (hasStoHint pyl) (hasCode pyl)
  obtain ⟨-, hlenN, hlenB, hlenS⟩ := leafLens_spec pyl
  have hlen {bytes : List UInt8} (hpos : 0 < bytes.length) :
      ((lenOf true bytes : Nat) : Int) + 1 = bytes.length := by
    rw [lenOf, if_pos rfl]
    omega
  have hnonce : (ifSet (leafMask pyl) 0x01
      (load64 data (↑(leafLens pyl &&& 0b111) + 1)) 0).run 0 =
        .ok (pyl.account.nonce.toNat, _) :=
    ifSet_run hmaskN h.left
      (fun hp hslice => load64_run pyl.account.nonce.toNat_lt hslice (by
        rw [hlenN, hp]
        exact hlen (blobifyNumber_length_pos (by decide))))
      (fun hnone => by
        have hzero : ¬ 0 < pyl.account.nonce := fun hpos => hnone (decide_eq_true hpos)
        have hnat : ¬ 0 < pyl.account.nonce.toNat := fun hpos =>
          hzero (UInt64.lt_iff_toNat_lt.mpr hpos)
        omega)
  have hbalance : (ifSet (leafMask pyl) 0x02
      (load256 data (↑(leafLens pyl >>> 3 &&& 0b11111) + 1)) 0).run _ =
        .ok (pyl.account.balance, _) :=
    ifSet_run hmaskB h.right.left
      (fun hp hslice => load256_run pyl.account.balance hslice (by
        rw [hlenB, hp]
        exact hlen (blobifyNumber_length_pos (by decide))))
      (fun hnone => by
        have hzero : ¬ 0 < pyl.account.balance := fun hpos => hnone (decide_eq_true hpos)
        bv_omega)
  have hstoID : (ifSet (leafMask pyl) 0x04 (StorageID.mk true <$>
      load64 data (↑(leafLens pyl >>> 8 &&& 0b111) + 1)) {}).run _ =
        .ok ((storedLeaf pyl).stoID, _) :=
    ifSet_run hmaskS h.right.right.left
      (fun hp hslice => by
        have hload := load64_run hvid hslice
          (show (↑(leafLens pyl >>> 8 &&& 0b111) + 1 : Int) = _ by
            rw [hlenS, hp]
            exact hlen (blobifyNumber_length_pos (by decide)))
        rw [StateT.run_map, hload, storedLeaf, if_pos hp, ← hp]
        rfl)
      (fun hnone => by rw [storedLeaf, if_neg hnone])
  have hstoHint : (ifSet (leafMask pyl) 0x10 (loadStoHint data) 0).run _ =
      .ok (pyl.stoHint, _) :=
    ifSet_run hmaskH h.right.right.right.left
      (fun hp hslice => loadStoHint_run hslice)
      (fun hnone => by
        have hzero : ¬ 0 < pyl.stoHint := fun hpos => hnone (decide_eq_true hpos)
        have hval : ¬ 0 < pyl.stoHint.val := hzero
        exact Fin.ext (show 0 = pyl.stoHint.val by omega))
  have hcodeHash := loadCode_run pyl h.right.right.right.right
  unfold loadAccount
  rw [load_bind hnonce, load_bind hbalance, load_bind hstoID, load_bind hstoHint,
    load_bind hcodeHash, UInt64.ofNat_toNat]
  exact ⟨_, rfl⟩

end

/-! ## Records of leaves -/

theorem deblobifyLeaf_acc (pyl : AccLeaf) (hvid : pyl.stoID.vid < 2 ^ 64) :
    deblobifyLeaf pyl.blobifyTo pyl.pfx = .ok (.AccLeaf (storedLeaf pyl)) := by
  obtain ⟨hsto, hacc, -⟩ := maskOf_spec (hasNonce pyl) (hasBalance pyl) pyl.stoID.isValid
    (hasStoHint pyl) (hasCode pyl)
  have hlens := (leafLens_spec pyl).1
  rw [accLeaf_blobifyTo_eq]
  generalize hdata : fieldBytes pyl ++ (toBytes 2 (leafLens pyl) ++ [leafMask pyl]) = data
  have hlen : data.length = (fieldBytes pyl).length + 3 := by
    rw [← hdata, List.length_append, List.length_append, toBytes_length, List.length_singleton]
  have hslice : SliceAt data 0 (fieldBytes pyl ++ (toBytes 2 (leafLens pyl) ++ [leafMask pyl])) :=
    ⟨[], [], by simp [hdata], rfl⟩
  have hlensSlice := hslice.right.left
  have hmaskSlice := hslice.right.right
  rw [toBytes_length] at hmaskSlice
  have hload := loadAccount_run pyl hvid hslice.left
  obtain ⟨q, hload⟩ := hload
  unfold deblobifyLeaf
  rw [if_neg (by omega), byteAt_slice hmaskSlice (by omega), except_ok_bind, leafMask,
    if_neg hsto, if_pos hacc, toOpenArray_slice hlensSlice (by omega)
    (by rw [toBytes_length]; omega), except_ok_bind, ofBytes_toBytes_of_lt hlens, ← leafMask,
    hload]
  rfl

theorem deblobifyLeaf_sto (pyl : StoLeaf) :
    deblobifyLeaf pyl.blobifyTo pyl.pfx = .ok (.StoLeaf pyl) := by
  unfold StoLeaf.blobifyTo
  generalize hdata : blobifyNumber 32 pyl.stoData.toNat ++ [0x20] = data
  have hlen : data.length = (blobifyNumber 32 pyl.stoData.toNat).length + 1 := by
    rw [← hdata, List.length_append, List.length_singleton]
  have hslice : SliceAt data 0 (blobifyNumber 32 pyl.stoData.toNat ++ [0x20]) :=
    ⟨[], [], by simp [hdata], rfl⟩
  have hopen : toOpenArray data 0 (data.length - 2) = .ok (blobifyNumber 32 pyl.stoData.toNat) :=
    toOpenArray_slice hslice.left rfl (by omega)
  unfold deblobifyLeaf
  rw [if_neg (by omega), byteAt_slice hslice.right (by omega), except_ok_bind,
    hopen, except_ok_bind, deblobify256_number]
  rfl

end

/-- A record of a leaf, with the length of its path in the last byte. -/
def leafRecord (body path : List UInt8) : List UInt8 :=
  body ++ (path ++ [UInt8.ofNat 1 <<< 6 ||| UInt8.ofNat path.length])

section
variable {body path : List UInt8} {pfx : NibblesBuf} {isLeaf : Bool}

theorem deblobify_leafRecord [HexPrefix] [Keccak] (hbody : 2 ≤ body.length)
    (hpath : path.length < 64) (hread : fromHexPrefix path = (isLeaf, pfx)) :
    Vertex.deblobify (leafRecord body path) = deblobifyLeaf body pfx := by
  obtain ⟨hbits, hcount⟩ := lastByte_spec 1 (by decide) path.length hpath
  unfold leafRecord
  generalize hlast : UInt8.ofNat 1 <<< 6 ||| UInt8.ofNat path.length = last at hbits hcount ⊢
  generalize hrecord : body ++ (path ++ [last]) = record
  have hlen : record.length = body.length + path.length + 1 := by
    rw [← hrecord]
    simp only [List.length_append, List.length_singleton]
    omega
  have hslice : SliceAt record 0 (body ++ (path ++ [last])) := ⟨[], [], by simp [hrecord], rfl⟩
  have hbody' : toOpenArray record (0 : Nat) (record.length - path.length - 1 - 1) = .ok body :=
    toOpenArray_slice hslice.left rfl (by omega)
  unfold Vertex.deblobify
  rw [if_neg (by omega), byteAt_slice hslice.right.right (by omega), except_ok_bind]
  dsimp only
  rw [hbits, hcount, if_neg (show ¬ UInt8.ofNat 1 &&& 0b10 > 0 by decide), if_neg (by omega),
    toOpenArray_slice hslice.right.left (by omega) (by omega), except_ok_bind, hread,
    hbody']
  rfl

theorem type_leafRecord {front : List UInt8} {mask : UInt8} (hfront : 1 ≤ front.length)
    (hpath : path.length < 64) : VertexType.deblobify (leafRecord (front ++ [mask]) path) =
      .ok (if mask &&& 0x20 > 0 then .StoLeaf else .AccLeaf) := by
  obtain ⟨hbits, hcount⟩ := lastByte_spec 1 (by decide) path.length hpath
  unfold leafRecord
  generalize hlast : UInt8.ofNat 1 <<< 6 ||| UInt8.ofNat path.length = last at hbits hcount ⊢
  generalize hrecord : front ++ [mask] ++ (path ++ [last]) = record
  have hlen : record.length = front.length + path.length + 2 := by
    rw [← hrecord]
    simp only [List.length_append, List.length_singleton]
    omega
  have hslice : SliceAt record 0 (front ++ [mask] ++ (path ++ [last])) :=
    ⟨[], [], by simp [← hrecord], rfl⟩
  have hend := hslice.right.right
  rw [List.length_append, List.length_singleton] at hend
  unfold VertexType.deblobify
  rw [if_neg (by omega), byteAt_slice hend (by omega), except_ok_bind]
  rw [hbits, if_pos (show UInt8.ofNat 1 &&& 0b01 > 0 by decide),
    byteAt_slice hslice.left.right (by omega)]
  rfl

theorem key_leafRecord (hpath : path.length < 64) :
    HashKey.deblobify (leafRecord body path) = .ok none := by
  obtain ⟨hbits, -⟩ := lastByte_spec 1 (by decide) path.length hpath
  unfold leafRecord
  generalize UInt8.ofNat 1 <<< 6 ||| UInt8.ofNat path.length = last at hbits ⊢
  generalize hrecord : body ++ (path ++ [last]) = record
  have hlen : record.length = body.length + path.length + 1 := by
    rw [← hrecord]
    simp only [List.length_append, List.length_singleton]
    omega
  have hslice : SliceAt record 0 (body ++ (path ++ [last])) := ⟨[], [], by simp [hrecord], rfl⟩
  unfold HashKey.deblobify
  split
  · rw [byteAt_slice hslice.right.right (by omega), except_ok_bind, hbits]
    rfl
  · rfl

end

/-! ## Records of branches -/

/-- A record of a branch, with the key bit and the length of its path in the last byte. -/
def branchRecord (key : HashKey) (startVid : Nat) (used : BitVec 16) (path : List UInt8) :
    List UInt8 :=
  (branchKey key).1 ++ (blobifyNumber 8 startVid ++ (toBytes 2 used.toNat ++
    (path ++ [(branchKey key).2 <<< 6 ||| UInt8.ofNat path.length])))

/-- Whether a branch record holds the key. -/
def keeps (key : HashKey) : Bool := key.isValid ∧ key.len = 32

theorem branchKey_spec (key : HashKey) :
    (branchKey key).1.length = (if keeps key then 32 else 0) ∧
      (branchKey key).2 = UInt8.ofNat (if keeps key then 2 else 0) := by
  unfold branchKey keeps
  by_cases h : key.isValid ∧ key.len = 32
  · simp only [if_pos h, decide_eq_true h, if_true]
    exact ⟨h.2, rfl⟩
  · simp only [if_neg h, decide_eq_false h]
    exact ⟨rfl, rfl⟩

section
variable {key : HashKey} {startVid : Nat} {used : BitVec 16} {path : List UInt8}

theorem branchRecord_length : (branchRecord key startVid used path).length =
    (branchKey key).1.length + (blobifyNumber 8 startVid).length + path.length + 3 := by
  simp only [branchRecord, List.length_append, toBytes_length, List.length_singleton]
  omega

theorem branch_lastByte (hpath : path.length < 64) :
    ((branchKey key).2 <<< 6 ||| UInt8.ofNat path.length) >>> 6 =
        UInt8.ofNat (if keeps key then 2 else 0) ∧
      (((branchKey key).2 <<< 6 ||| UInt8.ofNat path.length) &&& 0b00111111).toNat =
        path.length := by
  rw [(branchKey_spec key).2]
  exact lastByte_spec _ (by split <;> decide) _ hpath

theorem branchRecord_slices (key : HashKey) (startVid : Nat) (used : BitVec 16)
    (path : List UInt8) :
    let record := branchRecord key startVid used path
    let pos := (branchKey key).1.length
    let vidLen := (blobifyNumber 8 startVid).length
    SliceAt record 0 (branchKey key).1 ∧ SliceAt record pos (blobifyNumber 8 startVid) ∧
      SliceAt record (pos + vidLen) (toBytes 2 used.toNat) ∧
      SliceAt record (pos + vidLen + 2) path ∧
      SliceAt record (pos + vidLen + 2 + path.length)
        [(branchKey key).2 <<< 6 ||| UInt8.ofNat path.length] := by
  have hslice : SliceAt (branchRecord key startVid used path) 0
      ((branchKey key).1 ++ (blobifyNumber 8 startVid ++ (toBytes 2 used.toNat ++
        (path ++ [(branchKey key).2 <<< 6 ||| UInt8.ofNat path.length])))) :=
    ⟨[], [], by simp [branchRecord], rfl⟩
  have hpath := hslice.right.right.right
  have hvid := hslice.right
  have hused := hslice.right.right
  rw [Nat.zero_add] at hpath hvid hused
  exact ⟨hslice.left, hvid.left, hused.left, hpath.left, hpath.right⟩

theorem deblobify_branchRecord [HexPrefix] [Keccak] (hvid : startVid < 2 ^ 64)
    (hpath : path.length < 64) : Vertex.deblobify (branchRecord key startVid used path) =
      .ok (if (fromHexPrefix path).2.length > 0 then .ExtBranch (fromHexPrefix path).2 startVid used
        else .Branch startVid used) := by
  obtain ⟨hbits, hcount⟩ := @branch_lastByte key path hpath
  obtain ⟨-, hstart, hused, hpathSlice, hlast⟩ := branchRecord_slices key startVid used path
  have hkey := (branchKey_spec key).1
  have hlen := @branchRecord_length key startVid used path
  generalize branchRecord key startVid used path = record at *
  generalize (branchKey key).2 <<< 6 ||| UInt8.ofNat path.length = last at *
  have hleaf : ¬ UInt8.ofNat (if keeps key then 2 else 0) &&& 0b01 > 0 := by split <;> decide
  have hset : UInt8.ofNat (if keeps key then 2 else 0) &&& 0b10 > 0 ↔ keeps key = true := by
    cases keeps key <;> decide
  have hltUsed : used.toNat < 256 ^ 2 := used.isLt
  unfold Vertex.deblobify
  rw [if_neg (by omega), byteAt_slice hlast (by omega), except_ok_bind]
  dsimp only
  rw [hbits, if_congr hset rfl rfl, ← hkey, if_neg (by omega),
    toOpenArray_slice hpathSlice (by omega) (by omega), except_ok_bind, if_neg hleaf]
  unfold deblobifyBranch
  dsimp only
  rw [load64_run hvid hstart (by omega), except_ok_bind,
    toOpenArray_slice hused rfl (by rw [toBytes_length]; omega), except_ok_bind,
    ofBytes_toBytes_of_lt hltUsed, BitVec.ofNat_toNat]
  split <;> rfl

theorem type_branchRecord (hpath : path.length < 64) :
    VertexType.deblobify (branchRecord key startVid used path) =
      .ok (if path.length > 0 then .ExtBranch else .Branch) := by
  obtain ⟨hbits, hcount⟩ := @branch_lastByte key path hpath
  obtain ⟨-, -, -, -, hlast⟩ := branchRecord_slices key startVid used path
  have hpos : 0 < (blobifyNumber 8 startVid).length := blobifyNumber_length_pos (by decide)
  have hlen := @branchRecord_length key startVid used path
  have hleaf : ¬ UInt8.ofNat (if keeps key then 2 else 0) &&& 0b01 > 0 := by split <;> decide
  unfold VertexType.deblobify
  rw [if_neg (by omega), byteAt_slice hlast (by omega), except_ok_bind]
  rw [hbits, hcount, if_neg hleaf, if_congr Int.natCast_pos rfl rfl]
  rfl

theorem key_branchRecord (hpath : path.length < 64) :
    HashKey.deblobify (branchRecord key startVid used path) =
      .ok (if keeps key then some key else none) := by
  obtain ⟨hbits, -⟩ := @branch_lastByte key path hpath
  obtain ⟨hkeySlice, -, -, -, hlast⟩ := branchRecord_slices key startVid used path
  have hkey := (branchKey_spec key).1
  have hlen := @branchRecord_length key startVid used path
  unfold HashKey.deblobify
  by_cases h : keeps key = true
  · have hdata : (branchKey key).1 = key.data := by
      unfold branchKey
      rw [if_pos (of_decide_eq_true h)]
    have hopen : toOpenArray (branchRecord key startVid used path) 0 31 = .ok key.data := by
      rw [← hdata]
      rw [if_pos h] at hkey
      exact toOpenArray_slice hkeySlice rfl (by omega)
    rw [if_pos h] at hkey hbits ⊢
    rw [if_pos (by omega), byteAt_slice hlast (by omega), except_ok_bind, hbits,
      hopen]
    rw [hdata] at hkey
    show Except.ok (HashKey.fromBytes key.data) = _
    unfold HashKey.fromBytes
    rw [dif_pos key.len_le, if_pos (.inl hkey)]
  · rw [if_neg h] at hbits ⊢
    split
    · rw [byteAt_slice hlast (by omega), except_ok_bind, hbits]
      rfl
    · rfl

end

/-! ## What is to come back -/

/-- What a vertex of a trie satisfies: its path is at most a key long, and its identifiers are
those of the code. The vertices that stand for a part of the trie only are never written. -/
def Fits : Vertex → Prop
  | .AccLeaf leaf => leaf.pfx.length ≤ 64 ∧ leaf.stoID.vid < 2 ^ 64
  | .StoLeaf leaf => leaf.pfx.length ≤ 64
  | .Branch startVid _ => startVid < 2 ^ 64
  | .ExtBranch pfx startVid _ => pfx.length ≤ 64 ∧ startVid < 2 ^ 64
  | .BoundaryNode _ => False

/-- A vertex with its storage identifier only if that is valid. -/
def stored : Vertex → Vertex
  | .AccLeaf leaf => .AccLeaf (storedLeaf leaf)
  | vtx => vtx

/-- The key that is kept with a vertex. -/
def storedKey (vtx : Vertex) (key : HashKey) : Option HashKey :=
  if vtx.isBranch ∧ keeps key then some key else none

/-! ## The lengths of records -/

theorem leafRecord_length {body path : List UInt8} :
    (leafRecord body path).length = body.length + path.length + 1 := by
  simp only [leafRecord, List.length_append, List.length_singleton]
  omega

theorem branchRecord_length_le {key : HashKey} {startVid : Nat} {used : BitVec 16}
    {path : List UInt8} (hpath : path.length ≤ 33) :
    (branchRecord key startVid used path).length ≤ MAX_VERTEX_BLOB_SIZE := by
  have hlen := @branchRecord_length key startVid used path
  have hvid : (blobifyNumber 8 startVid).length ≤ 8 := blobifyNumber_length_le
  have hkey := (branchKey_spec key).1
  have hmax : MAX_VERTEX_BLOB_SIZE = 118 := rfl
  split at hkey <;> omega

/-- The longest record is that of an account leaf with all its fields. -/
theorem fieldBytes_length_le [Keccak] (pyl : AccLeaf) : (fieldBytes pyl).length ≤ 81 := by
  have hn : (nonceBytes pyl).length ≤ 8 := blobifyNumber_length_le
  have hb : (balanceBytes pyl).length ≤ 32 := blobifyNumber_length_le
  have hs : (stoIDBytes pyl).length ≤ 8 := blobifyNumber_length_le
  have hc : pyl.account.codeHash.toList.length = 32 := Vector.length_toList
  have hopt (present : Bool) (bytes : List UInt8) :
      (opt present bytes).length ≤ bytes.length := by
    rw [opt_length]
    split <;> omega
  have hN := hopt (hasNonce pyl) (nonceBytes pyl)
  have hB := hopt (hasBalance pyl) (balanceBytes pyl)
  have hS := hopt pyl.stoID.isValid (stoIDBytes pyl)
  have hH := hopt (hasStoHint pyl) [UInt8.ofNat pyl.stoHint]
  have hC := hopt (hasCode pyl) pyl.account.codeHash.toList
  rw [List.length_singleton] at hH
  simp only [fieldBytes, List.length_append]
  omega

/-! ## Reading back -/

section
variable [HexPrefix]

/-- The bytes of a vertex give back the vertex, its key and its type, and are not too many. -/
structure RoundTrip [Keccak] (vtx : Vertex) (key : HashKey) (blob : List UInt8) : Prop where
  vertex : Vertex.deblobify blob = .ok (stored vtx)
  key : HashKey.deblobify blob = .ok (storedKey vtx key)
  type : VertexType.deblobify blob = .ok vtx.vType
  length : blob.length ≤ MAX_VERTEX_BLOB_SIZE

/-- An extension in front of a branch that has no nibbles. -/
def emptyExtension : Vertex → Bool
  | .ExtBranch [] _ _ => true
  | _ => false

theorem toHexPrefix_length (lawful : LawfulHexPrefix) {pfx : NibblesBuf} (isLeaf : Bool)
    (h : pfx.length ≤ 64) : 0 < (toHexPrefix pfx isLeaf).length ∧
      (toHexPrefix pfx isLeaf).length ≤ 33 := by
  have hlen := lawful.length pfx isLeaf h
  omega

variable [Keccak]

theorem blobifyTo_branch (key : HashKey) (startVid : Nat) (used : BitVec 16) :
    Vertex.blobifyTo (.Branch startVid used) key =
      .ok (branchRecord key startVid used []) := by
  have hor : (branchKey key).2 <<< 6 ||| UInt8.ofNat 0 = (branchKey key).2 <<< 6 :=
    UInt8.or_zero
  simp only [Vertex.blobifyTo, branchRecord, List.append_assoc, List.length_nil, hor,
    List.nil_append]

theorem blobifyTo_extBranch (key : HashKey) (pfx : NibblesBuf) (startVid : Nat)
    (used : BitVec 16) : Vertex.blobifyTo (.ExtBranch pfx startVid used) key =
      .ok (branchRecord key startVid used (toHexPrefix pfx false)) := by
  simp only [Vertex.blobifyTo, branchRecord, writePfx, List.append_assoc]

theorem roundTrip_accLeaf (lawful : LawfulHexPrefix) {leaf : AccLeaf} (key : HashKey)
    (hpfx : leaf.pfx.length ≤ 64) (hvid : leaf.stoID.vid < 2 ^ 64) :
    RoundTrip (.AccLeaf leaf) key (leafRecord leaf.blobifyTo (toHexPrefix leaf.pfx true)) := by
  have hpath := toHexPrefix_length lawful true hpfx
  have hfields := fieldBytes_length_le leaf
  have heq := accLeaf_blobifyTo_eq leaf
  have hmask := (maskOf_spec (hasNonce leaf) (hasBalance leaf) leaf.stoID.isValid
    (hasStoHint leaf) (hasCode leaf)).1
  have hlen : leaf.blobifyTo.length = (fieldBytes leaf).length + 3 := by
    rw [heq, List.length_append, List.length_append, toBytes_length, List.length_singleton]
  have hread := lawful.read leaf.pfx true hpfx
  refine ⟨?_, ?_, ?_, ?_⟩
  · rw [deblobify_leafRecord (by omega) (by omega) hread]
    exact deblobifyLeaf_acc leaf hvid
  · exact key_leafRecord (by omega)
  · rw [heq, ← List.append_assoc, type_leafRecord ?_ (by omega), leafMask, if_neg hmask]
    · rfl
    · rw [List.length_append, toBytes_length]
      omega
  · have hmax : MAX_VERTEX_BLOB_SIZE = 118 := rfl
    rw [leafRecord_length]
    omega

theorem roundTrip_stoLeaf (lawful : LawfulHexPrefix) {leaf : StoLeaf} (key : HashKey)
    (hpfx : leaf.pfx.length ≤ 64) :
    RoundTrip (.StoLeaf leaf) key (leafRecord leaf.blobifyTo (toHexPrefix leaf.pfx true)) := by
  have hpath := toHexPrefix_length lawful true hpfx
  have hpos : 0 < (blobifyNumber 32 leaf.stoData.toNat).length :=
    blobifyNumber_length_pos (by decide)
  have hle : (blobifyNumber 32 leaf.stoData.toNat).length ≤ 32 := blobifyNumber_length_le
  have hlen : leaf.blobifyTo.length = (blobifyNumber 32 leaf.stoData.toNat).length + 1 := by
    rw [StoLeaf.blobifyTo, List.length_append, List.length_singleton]
  have hread := lawful.read leaf.pfx true hpfx
  refine ⟨?_, ?_, ?_, ?_⟩
  · rw [deblobify_leafRecord (by omega) (by omega) hread]
    exact deblobifyLeaf_sto leaf
  · exact key_leafRecord (by omega)
  · rw [StoLeaf.blobifyTo, type_leafRecord (by omega) (by omega)]
    rfl
  · have hmax : MAX_VERTEX_BLOB_SIZE = 118 := rfl
    rw [leafRecord_length]
    omega

theorem roundTrip_branch (lawful : LawfulHexPrefix) {startVid : Nat} (used : BitVec 16)
    (key : HashKey) (hvid : startVid < 2 ^ 64) :
    RoundTrip (.Branch startVid used) key (branchRecord key startVid used []) := by
  have hnil : ([] : List UInt8).length < 64 := by decide
  refine ⟨?_, ?_, type_branchRecord hnil, branchRecord_length_le (by decide)⟩
  · rw [deblobify_branchRecord hvid hnil, lawful.empty]
    rfl
  · rw [key_branchRecord hnil]
    simp [storedKey, Vertex.isBranch]

/-- Of an extension the path is read back, and with no nibbles in it there is none. -/
theorem deblobify_extBranch (lawful : LawfulHexPrefix) {pfx : NibblesBuf} {startVid : Nat}
    (used : BitVec 16) (key : HashKey) (hpfx : pfx.length ≤ 64) (hvid : startVid < 2 ^ 64) :
    Vertex.deblobify (branchRecord key startVid used (toHexPrefix pfx false)) =
      .ok (if pfx.length > 0 then .ExtBranch pfx startVid used else .Branch startVid used) := by
  have hpath := toHexPrefix_length lawful false hpfx
  rw [deblobify_branchRecord hvid (by omega), lawful.read pfx false hpfx]

theorem roundTrip_extBranch (lawful : LawfulHexPrefix) {pfx : NibblesBuf} {startVid : Nat}
    (used : BitVec 16) (key : HashKey) (hpfx : pfx.length ≤ 64) (hne : pfx ≠ [])
    (hvid : startVid < 2 ^ 64) : RoundTrip (.ExtBranch pfx startVid used) key
      (branchRecord key startVid used (toHexPrefix pfx false)) := by
  have hpath := toHexPrefix_length lawful false hpfx
  refine ⟨?_, ?_, ?_, branchRecord_length_le hpath.2⟩
  · rw [deblobify_extBranch lawful used key hpfx hvid, if_pos (List.length_pos_of_ne_nil hne)]
    rfl
  · rw [key_branchRecord (by omega)]
    simp [storedKey, Vertex.isBranch]
  · rw [type_branchRecord (by omega), if_pos hpath.1]
    rfl

end

/-- A vertex is written, and what is written is read back as the vertex, its key and its type,
unless the vertex is an extension without nibbles, which nothing in the bytes tells from a
branch. -/
theorem vertexBlobs_iff [HexPrefix] [Keccak] (lawful : LawfulHexPrefix) (vtx : Vertex)
    (key : HashKey) (hfits : Fits vtx) :
    ∃ blob, vtx.blobifyTo key = .ok blob ∧
      (RoundTrip vtx key blob ↔ emptyExtension vtx = false) := by
  cases vtx with
  | AccLeaf leaf =>
    exact ⟨_, rfl, iff_of_true (roundTrip_accLeaf lawful key hfits.1 hfits.2) rfl⟩
  | StoLeaf leaf => exact ⟨_, rfl, iff_of_true (roundTrip_stoLeaf lawful key hfits) rfl⟩
  | Branch startVid used =>
    exact ⟨_, blobifyTo_branch key startVid used,
      iff_of_true (roundTrip_branch lawful used key hfits) rfl⟩
  | ExtBranch pfx startVid used =>
    refine ⟨_, blobifyTo_extBranch key pfx startVid used, ?_⟩
    cases pfx with
    | nil =>
      refine iff_of_false (fun h => ?_) Bool.noConfusion
      have hread := h.vertex
      rw [deblobify_extBranch lawful used key hfits.1 hfits.2] at hread
      exact Vertex.noConfusion (Except.ok.inj hread)
    | cons nibble pfx =>
      exact iff_of_true
        (roundTrip_extBranch lawful used key hfits.1 (List.cons_ne_nil _ _) hfits.2) rfl
  | BoundaryNode node => exact hfits.elim

/-! ## The encoding of paths

Two nibbles to a byte, behind a nibble for the kind and the parity. -/

def packNibbles : List (Fin 16) → List UInt8
  | [] => []
  | [_] => []
  | a :: b :: nibbles => UInt8.ofNat (16 * a.val + b.val) :: packNibbles nibbles

def unpackNibbles (bytes : List UInt8) : List (Fin 16) :=
  bytes.flatMap fun byte =>
    [⟨byte.toNat / 16, by have := byte.toNat_lt; omega⟩, ⟨byte.toNat % 16, by omega⟩]

@[reducible] def hexPrefix : HexPrefix where
  toHexPrefix pfx isLeaf :=
    if pfx.length % 2 = 0 then packNibbles ((if isLeaf then 2 else 0) :: 0 :: pfx)
    else packNibbles ((if isLeaf then 3 else 1) :: pfx)
  fromHexPrefix bytes :=
    match unpackNibbles bytes with
    | [] => (false, [])
    | flags :: nibbles =>
      (flags.val / 2 % 2 = 1, if flags.val % 2 = 1 then nibbles else nibbles.drop 1)

theorem unpackNibbles_packNibbles {nibbles : List (Fin 16)} (h : nibbles.length % 2 = 0) :
    unpackNibbles (packNibbles nibbles) = nibbles := by
  induction nibbles using packNibbles.induct with
  | case1 => rfl
  | case2 a =>
    simp only [List.length_singleton] at h
    omega
  | case3 a b nibbles ih =>
    have hbyte : (UInt8.ofNat (16 * a.val + b.val)).toNat = 16 * a.val + b.val :=
      UInt8.toNat_ofNat_of_lt' (by have hsize : UInt8.size = 256 := rfl; omega)
    have htail := ih (by simp only [List.length_cons] at h; omega)
    have hhigh : (⟨(UInt8.ofNat (16 * a.val + b.val)).toNat / 16, by omega⟩ : Fin 16) = a :=
      Fin.ext (show (UInt8.ofNat (16 * a.val + b.val)).toNat / 16 = a.val by omega)
    have hlow : (⟨(UInt8.ofNat (16 * a.val + b.val)).toNat % 16, by omega⟩ : Fin 16) = b :=
      Fin.ext (show (UInt8.ofNat (16 * a.val + b.val)).toNat % 16 = b.val by omega)
    rw [packNibbles, unpackNibbles, List.flatMap_cons, hhigh, hlow]
    exact congrArg (fun tail => a :: b :: tail) htail

theorem packNibbles_length {nibbles : List (Fin 16)} :
    (packNibbles nibbles).length = nibbles.length / 2 := by
  induction nibbles using packNibbles.induct with
  | case1 => rfl
  | case2 a => simp [packNibbles]
  | case3 a b nibbles ih =>
    simp only [packNibbles, List.length_cons, ih]
    omega

theorem hexPrefix_read (pfx : NibblesBuf) (isLeaf : Bool) :
    hexPrefix.fromHexPrefix (hexPrefix.toHexPrefix pfx isLeaf) = (isLeaf, pfx) := by
  unfold hexPrefix
  dsimp only
  by_cases heven : pfx.length % 2 = 0
  · rw [if_pos heven, unpackNibbles_packNibbles (by simp only [List.length_cons]; omega)]
    cases isLeaf <;> rfl
  · rw [if_neg heven, unpackNibbles_packNibbles (by simp only [List.length_cons]; omega)]
    cases isLeaf <;> rfl

theorem hexPrefix_length (pfx : NibblesBuf) (isLeaf : Bool) :
    (hexPrefix.toHexPrefix pfx isLeaf).length = pfx.length / 2 + 1 := by
  unfold hexPrefix
  dsimp only
  split <;> rw [packNibbles_length] <;> simp only [List.length_cons] <;> omega

theorem hexPrefix_lawful : @LawfulHexPrefix hexPrefix :=
  @LawfulHexPrefix.mk hexPrefix (fun pfx isLeaf _ => hexPrefix_read pfx isLeaf)
    (fun pfx isLeaf _ => hexPrefix_length pfx isLeaf) rfl

@[reducible] def zeroHash : Keccak := ⟨fun _ => Vector.replicate 32 0⟩

/-- An account with a nonce, a balance and a code, and a deleted storage trie. -/
def someAccount : Vertex :=
  .AccLeaf ⟨[1, 2, 3], ⟨300, 70000, Vector.replicate 32 1⟩, ⟨false, 5⟩, 2⟩

theorem someAccount_roundTrips :
    ∃ blob, @Vertex.blobifyTo hexPrefix zeroHash someAccount ⟨[], by decide⟩ = .ok blob ∧
      (@RoundTrip hexPrefix zeroHash someAccount ⟨[], by decide⟩ blob ↔
        emptyExtension someAccount = false) :=
  @vertexBlobs_iff hexPrefix zeroHash hexPrefix_lawful someAccount ⟨[], by decide⟩
    ⟨by decide, by decide⟩

/-- An extension without nibbles. -/
def emptyExt : Vertex := .ExtBranch [] 1 3

/-- An extension without nibbles is read back as a branch, and its type is that of an
extension. -/
theorem emptyExt_lost : let _ : HexPrefix := hexPrefix
    let _ : Keccak := zeroHash
    Fits emptyExt ∧ ∃ blob, emptyExt.blobifyTo ⟨[], by decide⟩ = .ok blob ∧
      Vertex.deblobify blob = .ok (.Branch 1 3) ∧ VertexType.deblobify blob = .ok .ExtBranch ∧
      ¬ RoundTrip emptyExt ⟨[], by decide⟩ blob := by
  intro _ _
  have hread : Vertex.deblobify [1, 0, 3, 0, 1] = .ok (.Branch 1 3) := by decide +kernel
  refine ⟨⟨by decide, by decide⟩, [1, 0, 3, 0, 1], by decide +kernel, hread, by decide +kernel,
    fun h => ?_⟩
  have hback := h.vertex
  exact Vertex.noConfusion (Except.ok.inj hback)

end Nimbus.Spec.Blobify
