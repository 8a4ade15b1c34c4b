import Nimbus.Native.Aristo.Blobify

/-!
# What comes of decoding database records

Numbers are written without leading zeros, in one byte at least, and the decoders read them back.
A slice that stands at a position of a record is what an open array of that range holds.

A decoder of the database gets bytes that nobody has checked. What comes of them follows from a
few lengths and bits: a value of some type, an error, or a defect.
-/

namespace Nimbus.Spec.Blobify

open Native.Aristo BigEndian

/-! ## Numbers -/

theorem significantBytesBE_le {val : List UInt8} (h : val ≠ []) :
    significantBytesBE val ≤ val.length := by
  induction val with
  | nil => exact absurd rfl h
  | cons b val ih =>
    rw [significantBytesBE]
    split
    · exact Nat.le_refl _
    · cases val with
      | nil => exact Nat.le_refl _
      | cons c val => exact Nat.le_succ_of_le (ih (List.cons_ne_nil _ _))

theorem drop_significant (val : List UInt8) :
    val.drop (val.length - significantBytesBE val) = trim val := by
  induction val using trim.induct with
  | case1 => rfl
  | case2 b =>
    have hone : significantBytesBE [b] = 1 := by
      rw [significantBytesBE]
      split <;> rfl
    rw [hone]
    rfl
  | case3 c val ih =>
    have hle := significantBytesBE_le (List.cons_ne_nil c val)
    rw [trim, if_pos rfl, ← ih, significantBytesBE, if_neg (not_not_intro rfl), List.length_cons,
      Nat.succ_sub hle, List.drop_succ_cons]
  | case4 b c val hne =>
    rw [trim, if_neg hne, significantBytesBE, if_pos hne, List.length_cons, Nat.sub_self,
      List.drop_zero]

theorem blobifyNumber_eq (size v : Nat) : blobifyNumber size v = trim (toBytes size v) :=
  drop_significant _

section
variable {size v : Nat}

theorem ofBytes_blobifyNumber (h : v < 256 ^ size) : ofBytes (blobifyNumber size v) = v := by
  rw [blobifyNumber_eq, ofBytes_trim, ofBytes_toBytes_of_lt h]

theorem blobifyNumber_length_le : (blobifyNumber size v).length ≤ size := by
  have h := trim_length_le (toBytes size v)
  rwa [toBytes_length, ← blobifyNumber_eq] at h

theorem blobifyNumber_length_pos (h : 0 < size) : 0 < (blobifyNumber size v).length := by
  rw [blobifyNumber_eq]
  refine trim_length_pos fun hnil => ?_
  have hlen := toBytes_length size v
  rw [hnil, List.length_nil] at hlen
  omega

end

theorem ofBytes_cons (b : UInt8) (bytes : List UInt8) :
    ofBytes (b :: bytes) = b.toNat * 256 ^ bytes.length + ofBytes bytes := by
  have h := ofBytes_append [b] bytes
  rwa [show ofBytes [b] = b.toNat by simp [ofBytes]] at h

theorem loop_eq (data : List UInt8) (a : Nat) :
    (List.range data.length).foldl
      (fun tmp i => tmp + (data.getD i 0).toNat * 2 ^ (8 * (data.length - 1 - i))) a =
        a + ofBytes data := by
  induction data generalizing a with
  | nil => rfl
  | cons b data ih =>
    have hstep (i : Nat) : data.length - 1 - i = data.length - (i + 1) := by omega
    rw [List.length_cons, List.range_succ_eq_map, List.foldl_cons, List.foldl_map, ofBytes_cons,
      ← Nat.add_assoc, ← ih]
    simp only [List.getD_cons_succ, List.getD_cons_zero, Nat.succ_eq_add_one, hstep,
      Nat.add_sub_cancel, Nat.sub_zero, Nat.pow_mul]

theorem deblobify64_eq (data : List UInt8) : deblobify64 data =
    if data.length < 1 ∨ data.length > 8 then .error (.err .Deblob64LenUnsupported)
    else .ok (ofBytes data) := by
  unfold deblobify64
  split
  · rfl
  · dsimp only
    congr 1
    calc _ = (List.range data.length).foldl
          (fun tmp i => tmp + (data.getD i 0).toNat * 2 ^ (8 * (data.length - 1 - i))) 0 := by
          refine List.foldl_ext _ _ _ fun tmp i hi => ?_
          rw [show 7 - (i + (8 - data.length)) = data.length - 1 - i by omega]
      _ = ofBytes data := by rw [loop_eq, Nat.zero_add]

theorem deblobify64_number {v : Nat} (h : v < 2 ^ 64) :
    deblobify64 (blobifyNumber 8 v) = .ok v := by
  have hle : (blobifyNumber 8 v).length ≤ 8 := blobifyNumber_length_le
  have hpos : 0 < (blobifyNumber 8 v).length := blobifyNumber_length_pos (by decide)
  rw [deblobify64_eq, if_neg (by omega), ofBytes_blobifyNumber (by omega)]

theorem deblobify256_number (v : UInt256) : deblobify256 (blobifyNumber 32 v.toNat) = .ok v := by
  have hle : (blobifyNumber 32 v.toNat).length ≤ 32 := blobifyNumber_length_le
  have hpos : 0 < (blobifyNumber 32 v.toNat).length := blobifyNumber_length_pos (by decide)
  have hlt : v.toNat < 256 ^ 32 := v.isLt
  unfold deblobify256
  rw [if_neg (by omega), ofBytes_blobifyNumber hlt, BitVec.ofNat_toNat, BitVec.setWidth_eq]

/-! ## Slices -/

theorem except_ok_bind {ε α β : Type} (a : α) (f : α → Except ε β) :
    ((.ok a : Except ε α) >>= f) = f a := rfl

section
variable {data part : List UInt8} {pos : Nat}

theorem toOpenArray_slice (h : SliceAt data pos part) {first last : Int} (hfirst : first = pos)
    (hlast : last = pos + part.length - 1) : toOpenArray data first last = .ok part := by
  have hle := h.le_length
  have htake := h.take
  unfold toOpenArray
  by_cases hempty : part.length = 0
  · rw [if_pos (by omega), List.length_eq_zero_iff.mp hempty]
  · rw [if_neg (by omega), if_neg (by omega), if_neg (by omega), show first.toNat = pos by omega,
      show (last + 1 - first).toNat = part.length by omega, htake]

theorem byteAt_slice {b : UInt8} (h : SliceAt data pos [b]) {i : Int} (hi : i = pos) :
    byteAt data i = .ok b := by
  have hle := h.le_length
  rw [List.length_singleton] at hle
  obtain ⟨after, hdrop⟩ := h.drop
  unfold byteAt
  rw [if_pos (by omega), show i.toNat = pos by omega, List.getD_eq_getElem?_getD,
    ← List.head?_drop, hdrop]
  rfl

theorem load64_run {v : Nat} (hv : v < 2 ^ 64) (h : SliceAt data pos (blobifyNumber 8 v))
    {len : Int} (hlen : len = (blobifyNumber 8 v).length) :
    (load64 data len).run pos = .ok (v, pos + (blobifyNumber 8 v).length) := by
  have hle := h.le_length
  show (load64 data len) pos = _
  unfold load64
  rw [if_neg (by omega), toOpenArray_slice h rfl (by omega)]
  rw [except_ok_bind, deblobify64_number hv, show ((pos : Int) + len).toNat = pos + (blobifyNumber 8 v).length by
    omega]
  rfl

theorem load256_run (v : UInt256) (h : SliceAt data pos (blobifyNumber 32 v.toNat))
    {len : Int} (hlen : len = (blobifyNumber 32 v.toNat).length) :
    (load256 data len).run pos = .ok (v, pos + (blobifyNumber 32 v.toNat).length) := by
  have hle := h.le_length
  show (load256 data len) pos = _
  unfold load256
  rw [if_neg (by omega), toOpenArray_slice h rfl (by omega)]
  rw [except_ok_bind, deblobify256_number, show ((pos : Int) + len).toNat =
    pos + (blobifyNumber 32 v.toNat).length by omega]
  rfl

end

end Nimbus.Spec.Blobify

/-! ## Any bytes -/

namespace Nimbus.Spec.Blobify

open Native Native.Aristo BigEndian

/-- No defect comes of it. -/
def Total {α : Type} (d : Deblob α) : Prop := ∀ defect, d ≠ .error (.defect defect)

/-! ## Bytes of an open array -/

section
variable {data : List UInt8} {first last : Int}

theorem toOpenArray_ok (hfirst : 0 ≤ first) (hle : first ≤ last + 1) (hlast : last < data.length) :
    ∃ bytes, toOpenArray data first last = .ok bytes ∧ bytes.length = (last + 1 - first).toNat := by
  unfold toOpenArray
  by_cases hempty : last + 1 = first
  · rw [if_pos hempty, hempty, Int.sub_self]
    exact ⟨[], rfl, rfl⟩
  · rw [if_neg hempty, if_neg (by omega), if_neg (by omega)]
    refine ⟨_, rfl, ?_⟩
    rw [List.length_take, List.length_drop]
    omega

theorem byteAt_ok {i : Nat} (hi : i < data.length) {j : Int} (hj : j = i) :
    byteAt data j = .ok (data.getD i 0) := by
  unfold byteAt
  rw [if_pos (by omega), hj]
  rfl

theorem deblobify64_ok (hpos : 1 ≤ data.length) (hle : data.length ≤ 8) :
    ∃ v, deblobify64 data = .ok v := by
  unfold deblobify64
  rw [if_neg (by omega)]
  exact ⟨_, rfl⟩

theorem deblobify64_err (h : data.length < 1 ∨ data.length > 8) :
    deblobify64 data = .error (.err .Deblob64LenUnsupported) := if_pos h

theorem deblobify256_ok (hpos : 1 ≤ data.length) (hle : data.length ≤ 32) :
    ∃ v, deblobify256 data = .ok v := by
  unfold deblobify256
  rw [if_neg (by omega)]
  exact ⟨_, rfl⟩

theorem deblobify256_err (h : data.length < 1 ∨ data.length > 32) :
    deblobify256 data = .error (.err .Deblob256LenUnsupported) := if_pos h

end

/-! ## Rooted vertex identifiers -/

/-- The length of a root in front, the root, and at most one more number. -/
def RVidForm (data : List UInt8) : Prop :=
  1 ≤ (data.getD 0 0).toNat ∧ (data.getD 0 0).toNat ≤ 8 ∧
    (data.getD 0 0).toNat + 1 ≤ data.length ∧ data.length ≤ (data.getD 0 0).toNat + 9

/-- The bytes of an identifier are decoded, no bytes at all are a defect, and other bytes are an
error. -/
theorem rvid_outcome (data : List UInt8) :
    (RVidForm data ∧ ∃ rvid, RootedVertexID.deblobify data = .ok rvid) ∨
      (data = [] ∧ ∃ defect, RootedVertexID.deblobify data = .error (.defect defect)) ∨
      (¬ RVidForm data ∧ data ≠ [] ∧
        ∃ error, RootedVertexID.deblobify data = .error (.err error)) := by
  cases data with
  | nil => exact .inr (.inl ⟨rfl, _, rfl⟩)
  | cons rlen rest =>
    have hhead : (rlen :: rest).getD 0 0 = rlen := rfl
    generalize hdata : rlen :: rest = data at *
    have hlen : data.length = rest.length + 1 := by rw [← hdata, List.length_cons]
    have hne : data ≠ [] := by rw [← hdata]; exact List.cons_ne_nil _ _
    unfold RVidForm
    have hbyte : byteAt data 0 = .ok rlen := hhead ▸ @byteAt_ok data 0 (by omega) 0 rfl
    rw [hhead]
    unfold RootedVertexID.deblobify
    rw [hbyte, except_ok_bind]
    by_cases hshort : data.length < 2
    · rw [if_pos hshort]
      exact .inr (.inr ⟨by omega, hne, _, rfl⟩)
    rw [if_neg hshort]
    by_cases hroot : data.length < rlen.toNat + 1
    · rw [if_pos hroot]
      exact .inr (.inr ⟨by omega, hne, _, rfl⟩)
    rw [if_neg hroot]
    obtain ⟨root, hopen, hrootLen⟩ := @toOpenArray_ok data 1 rlen.toNat (by omega) (by omega)
      (by omega)
    rw [hopen, except_ok_bind]
    by_cases hrlen : root.length < 1 ∨ root.length > 8
    · rw [deblobify64_err hrlen]
      exact .inr (.inr ⟨by omega, hne, _, rfl⟩)
    obtain ⟨rootId, hrootId⟩ := @deblobify64_ok root (by omega) (by omega)
    rw [hrootId, except_ok_bind]
    by_cases hvid : data.length > rlen.toNat + 1
    · rw [if_pos hvid]
      obtain ⟨vid, hopenVid, hvidLen⟩ := @toOpenArray_ok data (rlen.toNat + 1) (data.length - 1)
        (by omega) (by omega) (by omega)
      rw [hopenVid, except_ok_bind]
      by_cases hlong : vid.length < 1 ∨ vid.length > 8
      · rw [deblobify64_err hlong]
        exact .inr (.inr ⟨by omega, hne, _, rfl⟩)
      · obtain ⟨vidId, hvidId⟩ := @deblobify64_ok vid (by omega) (by omega)
        rw [hvidId]
        exact .inl ⟨by omega, _, rfl⟩
    · rw [if_neg hvid]
      exact .inl ⟨by omega, _, rfl⟩

/-! ## Keys -/

theorem key_ok (record : List UInt8) : ∃ key, HashKey.deblobify record = .ok key := by
  unfold HashKey.deblobify
  by_cases hlen : record.length > 33
  · rw [if_pos hlen, @byteAt_ok record (record.length - 1) (by omega) _ (by omega), except_ok_bind]
    split
    · obtain ⟨bytes, hopen, -⟩ := @toOpenArray_ok record 0 31 (by omega) (by omega) (by omega)
      rw [hopen]
      exact ⟨_, rfl⟩
    · exact ⟨none, rfl⟩
  · rw [if_neg hlen]
    exact ⟨none, rfl⟩

/-! ## Fields of an account leaf -/

/-- A loader moves by `n` where the data allow it, to a value of a kind, and is an error
otherwise. -/
structure Moves {α : Type} (m : Load α) (kind : α → Prop) (pos n : Nat) (fits : Prop) : Prop where
  ok : fits → ∃ v, kind v ∧ m.run pos = .ok (v, pos + n)
  err : ¬ fits → ∃ error, m.run pos = .error (.err error)

namespace Moves

variable {α β : Type} {pos n n' : Nat} {P P' : Prop}

theorem pure {kind : α → Prop} {v : α} (h : kind v) : Moves (pure v) kind pos 0 True where
  ok _ := ⟨v, h, rfl⟩
  err hnot := absurd trivial hnot

theorem bind {m : Load α} {f : α → Load β} {kind : β → Prop}
    (hm : Moves m (fun _ => True) pos n P) (hf : ∀ v, Moves (f v) kind (pos + n) n' P') :
    Moves (m >>= f) kind pos (n + n') (P ∧ P') where
  ok := by
    rintro ⟨hP, hP'⟩
    obtain ⟨v, -, hv⟩ := hm.ok hP
    obtain ⟨w, hkind, hw⟩ := (hf v).ok hP'
    refine ⟨w, hkind, ?_⟩
    rw [StateT.run_bind, hv, except_ok_bind, hw, Nat.add_assoc]
  err hnot := by
    by_cases hP : P
    · obtain ⟨v, -, hv⟩ := hm.ok hP
      obtain ⟨error, herr⟩ := (hf v).err fun hP' => hnot ⟨hP, hP'⟩
      exact ⟨error, by rw [StateT.run_bind, hv, except_ok_bind, herr]⟩
    · obtain ⟨error, herr⟩ := hm.err hP
      exact ⟨error, by rw [StateT.run_bind, herr]; rfl⟩

theorem congr {m : Load α} {kind : α → Prop} (h : Moves m kind pos n P) (hiff : P ↔ P') :
    Moves m kind pos n P' :=
  ⟨fun hP' => h.ok (hiff.mpr hP'), fun hnot => h.err fun hP => hnot (hiff.mp hP)⟩

theorem map {m : Load α} (f : α → β) (hm : Moves m (fun _ => True) pos n P) :
    Moves (f <$> m) (fun _ => True) pos n P where
  ok hP := by
    obtain ⟨v, -, hv⟩ := hm.ok hP
    exact ⟨f v, trivial, by rw [StateT.run_map, hv]; rfl⟩
  err hnot := by
    obtain ⟨error, herr⟩ := hm.err hnot
    exact ⟨error, by rw [StateT.run_map, herr]; rfl⟩

theorem ifSet (mask bit : UInt8) {load : Load α} (default : α)
    (h : Moves load (fun _ => True) pos n P) :
    Moves (ifSet mask bit load default) (fun _ => True) pos (if mask &&& bit > 0 then n else 0)
      (mask &&& bit > 0 → P) := by
  unfold Aristo.ifSet
  by_cases hset : mask &&& bit > 0
  · rw [if_pos hset, if_pos hset]
    exact ⟨fun hP => h.ok (hP hset), fun hnot => h.err fun hP => hnot fun _ => hP⟩
  · rw [if_neg hset, if_neg hset]
    exact ⟨fun _ => ⟨default, trivial, rfl⟩, fun hnot => absurd (fun h => absurd h hset) hnot⟩

end Moves

section
variable {data : List UInt8} {pos : Nat}

theorem load64_moves {n : Nat} (hpos : 1 ≤ n) (hle : n ≤ 8) {len : Int} (hlen : len = n) :
    Moves (load64 data len) (fun _ => True) pos n (pos + n ≤ data.length) where
  ok hfits := by
    obtain ⟨bytes, hopen, hbytes⟩ := @toOpenArray_ok data pos (pos + len - 1) (by omega) (by omega)
      (by omega)
    obtain ⟨v, hv⟩ := @deblobify64_ok bytes (by omega) (by omega)
    refine ⟨v, trivial, ?_⟩
    show load64 data len pos = _
    unfold load64
    rw [if_neg (by omega), hopen, except_ok_bind, hv, show ((pos : Int) + len).toNat = pos + n by
      omega]
    rfl
  err hnot := by
    refine ⟨.Deblob256LenUnsupported, ?_⟩
    show load64 data len pos = _
    unfold load64
    rw [if_pos (by omega)]
    rfl

theorem load256_moves {n : Nat} (hpos : 1 ≤ n) (hle : n ≤ 32) {len : Int} (hlen : len = n) :
    Moves (load256 data len) (fun _ => True) pos n (pos + n ≤ data.length) where
  ok hfits := by
    obtain ⟨bytes, hopen, hbytes⟩ := @toOpenArray_ok data pos (pos + len - 1) (by omega) (by omega)
      (by omega)
    obtain ⟨v, hv⟩ := @deblobify256_ok bytes (by omega) (by omega)
    refine ⟨v, trivial, ?_⟩
    show load256 data len pos = _
    unfold load256
    rw [if_neg (by omega), hopen, except_ok_bind, hv, show ((pos : Int) + len).toNat = pos + n by
      omega]
    rfl
  err hnot := by
    refine ⟨.Deblob256LenUnsupported, ?_⟩
    show load256 data len pos = _
    unfold load256
    rw [if_pos (by omega)]
    rfl

theorem loadStoHint_moves : Moves (loadStoHint data) (fun _ => True) pos 1
    (pos + 1 ≤ data.length ∧ (data.getD pos 0).toNat < STATIC_VID_LEVELS + 2) where
  ok := by
    rintro ⟨hfits, hhint⟩
    refine ⟨⟨_, hhint⟩, trivial, ?_⟩
    show loadStoHint data pos = _
    unfold loadStoHint
    rw [if_neg (by omega), @byteAt_ok data pos (by omega) _ rfl, except_ok_bind, dif_pos hhint]
    rfl
  err hnot := by
    show ∃ error, loadStoHint data pos = .error (.err error)
    unfold loadStoHint
    by_cases hfits : data.length < pos + 1
    · rw [if_pos hfits]
      exact ⟨_, rfl⟩
    · rw [if_neg hfits, @byteAt_ok data pos (by omega) _ rfl, except_ok_bind,
        dif_neg fun hhint => hnot ⟨by omega, hhint⟩]
      exact ⟨_, rfl⟩

theorem loadCodeHash_moves :
    Moves (loadCodeHash data) (fun _ => True) pos 0 (pos + 32 ≤ data.length) where
  ok hfits := by
    obtain ⟨bytes, hopen, -⟩ := @toOpenArray_ok data pos (pos + 31) (by omega) (by omega)
      (by omega)
    refine ⟨Vector.ofFn fun i => bytes.getD i 0, trivial, ?_⟩
    show loadCodeHash data pos = _
    unfold loadCodeHash
    rw [if_neg (by omega), hopen]
    rfl
  err hnot := by
    refine ⟨.DeblobCodeLenUnsupported, ?_⟩
    show loadCodeHash data pos = _
    unfold loadCodeHash
    rw [if_pos (by omega)]
    rfl

end

/-! ## Bodies of leaves -/

/-- What a field takes. -/
def fieldLen (mask bit : UInt8) (len : Nat) : Nat := if mask &&& bit > 0 then len else 0

/-- Where the storage hint stands, behind the numbers. -/
def stoHintPos (mask : UInt8) (lens : Nat) : Nat :=
  fieldLen mask 0x01 ((lens &&& 0b111) + 1) + fieldLen mask 0x02 ((lens >>> 3 &&& 0b11111) + 1) +
    fieldLen mask 0x04 ((lens >>> 8 &&& 0b111) + 1)

/-- The fields of an account have their place, and the hint is one of a static level. -/
def AccForm (body : List UInt8) (mask : UInt8) (lens : Nat) : Prop :=
  stoHintPos mask lens + fieldLen mask 0x10 1 + fieldLen mask 0x08 32 ≤ body.length ∧
    (mask &&& 0x10 > 0 → (body.getD (stoHintPos mask lens) 0).toNat < STATIC_VID_LEVELS + 2)

instance {body : List UInt8} {mask : UInt8} {lens : Nat} : Decidable (AccForm body mask lens) :=
  inferInstanceAs (Decidable (_ ∧ _))

/-- What comes of a record of a vertex. -/
inductive Outcome where
  | branch
  | accLeaf
  | stoLeaf
  | rejected
  | defect
  deriving DecidableEq

/-- A decoded vertex, an error or a defect is what was to come. -/
def Outcome.Of : Outcome → Deblob Vertex → Prop
  | .branch, d => ∃ vtx, d = .ok vtx ∧ vtx.isBranch
  | .accLeaf, d => ∃ leaf, d = .ok (.AccLeaf leaf)
  | .stoLeaf, d => ∃ leaf, d = .ok (.StoLeaf leaf)
  | .rejected, d => ∃ error, d = .error (.err error)
  | .defect, d => ∃ defect, d = .error (.defect defect)

/-- The last byte of a body says which fields there are. -/
def leafMask? (body : List UInt8) : UInt8 := body.getD (body.length - 1) 0

/-- What comes of a body of a leaf. The two bytes with the lengths of an account are read before
it is known that there are two. -/
def leafOutcome (body : List UInt8) : Outcome :=
  if leafMask? body &&& 0x20 > 0 then
    if 2 ≤ body.length ∧ body.length ≤ 33 then .stoLeaf else .rejected
  else if leafMask? body &&& 0xe0 = 0 then
    if body.length < 3 then .defect
    else if AccForm body (leafMask? body) (ofBytes ((body.drop (body.length - 3)).take 2)) then
      .accLeaf
    else .rejected
  else .rejected

/-- What comes of a record: the key, the body, the path, and a byte with the length of the path and
the kind. The bitmap of a branch is read behind the first child, and takes two bytes of the body;
their place is not looked at before the length of the first child is what is left. -/
def vertexOutcome (record : List UInt8) : Outcome :=
  let last := record.getD (record.length - 1) 0
  let psLen := (last &&& 0b00111111).toNat
  let keyLen := if last >>> 6 &&& 0b10 > 0 then 32 else 0
  let body := (record.drop keyLen).take (record.length - 1 - psLen - keyLen)
  if record.length < 3 ∨ record.length < keyLen + 1 + psLen + 1 then .rejected
  else if last >>> 6 &&& 0b01 > 0 then leafOutcome body
  else if body.length = 1 then .defect
  else if 3 ≤ body.length ∧ body.length ≤ 10 then .branch
  else .rejected

variable {o : Outcome}

theorem Outcome.Of.not_defect {vtx : Vertex} (h : o.Of (.ok vtx)) : o ≠ .defect := by
  rintro rfl
  obtain ⟨_, h⟩ := h
  cases h

theorem Outcome.Of.rejected {error : DeblobError} (h : o.Of (.error (.err error))) :
    o = .rejected := by
  cases o with
  | rejected => rfl
  | branch => exact nomatch h
  | accLeaf => exact nomatch h
  | stoLeaf => exact nomatch h
  | defect => exact nomatch h

theorem Outcome.Of.defect {defect : BlobDefect}
    (h : o.Of (.error (.defect defect))) : o = .defect := by
  cases o with
  | defect => rfl
  | branch => exact nomatch h
  | accLeaf => exact nomatch h
  | stoLeaf => exact nomatch h
  | rejected => exact nomatch h

theorem Outcome.Of.total_iff {d : Deblob Vertex} (h : o.Of d) :
    Total d ↔ o ≠ .defect := by
  cases d with
  | ok vtx => exact iff_of_true (fun _ h => (nomatch h)) h.not_defect
  | error s =>
    cases s with
    | err error => exact iff_of_true (fun _ h => (nomatch h)) (h.rejected ▸ Outcome.noConfusion)
    | defect defect => exact iff_of_false (fun htotal => htotal defect rfl) (· h.defect)

section
variable [Keccak] {body : List UInt8} {mask : UInt8} {lens : Nat} {pfx : NibblesBuf}

theorem loadAccount_moves : ∃ n, Moves (loadAccount body mask lens pfx)
    (fun vtx => ∃ leaf, vtx = .AccLeaf leaf) 0 n (AccForm body mask lens) := by
  have hnonce : lens &&& 0b111 ≤ 7 := Nat.and_le_right
  have hbalance : lens >>> 3 &&& 0b11111 ≤ 31 := Nat.and_le_right
  have hstoID : lens >>> 8 &&& 0b111 ≤ 7 := Nat.and_le_right
  have hload64 (pos n : Nat) (hn : n ≤ 7) :
      Moves (load64 body (↑n + 1)) (fun _ => True) pos (n + 1) (pos + (n + 1) ≤ body.length) :=
    load64_moves (by omega) (by omega) (by push_cast; rfl)
  have hload256 (pos n : Nat) (hn : n ≤ 31) :
      Moves (load256 body (↑n + 1)) (fun _ => True) pos (n + 1) (pos + (n + 1) ≤ body.length) :=
    load256_moves (by omega) (by omega) (by push_cast; rfl)
  have hfields := ((hload64 0 _ hnonce).ifSet mask 0x01 0).bind fun nonce =>
    ((hload256 _ _ hbalance).ifSet mask 0x02 0).bind fun balance =>
      (((hload64 _ _ hstoID).map (StorageID.mk true)).ifSet mask 0x04 {}).bind fun stoID =>
        ((@loadStoHint_moves body _).ifSet mask 0x10 0).bind fun stoHint =>
          ((@loadCodeHash_moves body _).ifSet mask 0x08 EMPTY_CODE_HASH).bind fun codeHash =>
            @Moves.pure Vertex _ (fun vtx => ∃ leaf, vtx = .AccLeaf leaf) _
              ⟨⟨pfx, { nonce := UInt64.ofNat nonce, balance, codeHash }, stoID, stoHint⟩, rfl⟩
  refine ⟨_, hfields.congr ?_⟩
  -- Each field ends within the body just if the last one of them does.
  unfold AccForm stoHintPos fieldLen
  by_cases h1 : mask &&& 0x01 > 0 <;> by_cases h2 : mask &&& 0x02 > 0 <;>
    by_cases h3 : mask &&& 0x04 > 0 <;> by_cases h4 : mask &&& 0x10 > 0 <;>
    by_cases h5 : mask &&& 0x08 > 0 <;>
    simp only [h1, h2, h3, h4, h5, if_true, if_false, Nat.zero_add, Nat.add_zero, true_implies,
      false_implies, and_true, true_and, Nat.zero_le] <;> omega

theorem leaf_outcome (hpos : 1 ≤ body.length) : (leafOutcome body).Of (deblobifyLeaf body pfx) := by
  have hmask : byteAt body (body.length - 1) = .ok (leafMask? body) :=
    @byteAt_ok body (body.length - 1) (by omega) _ (by omega)
  unfold deblobifyLeaf leafOutcome
  rw [if_neg (show ¬ body.length = 0 by omega), hmask, except_ok_bind]
  by_cases hsto : leafMask? body &&& 0x20 > 0
  · rw [if_pos hsto, if_pos hsto]
    obtain ⟨val, hopen, hval⟩ := @toOpenArray_ok body 0 (body.length - 2) (by omega) (by omega)
      (by omega)
    rw [hopen, except_ok_bind]
    by_cases hlen : 2 ≤ body.length ∧ body.length ≤ 33
    · obtain ⟨v, hv⟩ := @deblobify256_ok val (by omega) (by omega)
      rw [if_pos hlen, hv]
      exact ⟨_, rfl⟩
    · rw [if_neg hlen, deblobify256_err (by omega)]
      exact ⟨_, rfl⟩
  rw [if_neg hsto, if_neg hsto]
  by_cases hacc : leafMask? body &&& 0xe0 = 0
  · rw [if_pos hacc, if_pos hacc]
    by_cases hshort : body.length < 3
    · rw [if_pos hshort]
      refine ⟨.indexOutOfBounds, ?_⟩
      unfold toOpenArray
      rw [if_neg (by omega), if_pos (by omega)]
      rfl
    rw [if_neg hshort]
    have hlens : toOpenArray body (body.length - 3) (body.length - 2) =
        .ok ((body.drop (body.length - 3)).take 2) := by
      unfold toOpenArray
      rw [if_neg (by omega), if_neg (by omega), if_neg (by omega),
        show ((body.length : Int) - 3).toNat = body.length - 3 by omega,
        show ((body.length : Int) - 2 + 1 - (body.length - 3)).toNat = 2 by omega]
    rw [hlens, except_ok_bind]
    obtain ⟨n, hmoves⟩ := @loadAccount_moves _ body (leafMask? body)
      (ofBytes ((body.drop (body.length - 3)).take 2)) pfx
    by_cases hform : AccForm body (leafMask? body) (ofBytes ((body.drop (body.length - 3)).take 2))
    · obtain ⟨_, ⟨leaf, rfl⟩, hrun⟩ := hmoves.ok hform
      rw [if_pos hform, hrun]
      exact ⟨leaf, rfl⟩
    · obtain ⟨error, hrun⟩ := hmoves.err hform
      rw [if_neg hform, hrun]
      exact ⟨error, rfl⟩
  · rw [if_neg hacc, if_neg hacc]
    exact ⟨_, rfl⟩

omit [Keccak] in
/-- What comes of the rest of a branch record, from its first child to its path. -/
theorem branch_outcome {record : List UInt8} {start psLen : Nat}
    (hlen : start + 1 + psLen + 1 ≤ record.length) {n : Nat}
    (hn : n = record.length - 1 - psLen - start) :
    (if n = 1 then Outcome.defect else if 3 ≤ n ∧ n ≤ 10 then .branch else .rejected).Of
      (deblobifyBranch record start (record.length - psLen - 1) pfx) := by
  show Outcome.Of _ (load64 record _ start >>= _)
  unfold load64
  rw [if_neg (show ¬ (record.length : Int) < start + (record.length - psLen - 1 - start - 2) by
    omega)]
  by_cases hone : n = 1
  · rw [if_pos hone]
    unfold toOpenArray
    rw [if_neg (by omega)]
    split
    · exact ⟨_, rfl⟩
    · rw [if_pos (by omega)]
      exact ⟨_, rfl⟩
  rw [if_neg hone]
  obtain ⟨vid, hopen, hvid⟩ := @toOpenArray_ok record start
    (start + (record.length - psLen - 1 - start - 2) - 1) (by omega) (by omega) (by omega)
  rw [hopen, except_ok_bind]
  by_cases hform : 3 ≤ n ∧ n ≤ 10
  · obtain ⟨v, hv⟩ := @deblobify64_ok vid (by omega) (by omega)
    rw [if_pos hform, hv]
    obtain ⟨used, hused, -⟩ := @toOpenArray_ok record
      ((start : Int) + (record.length - psLen - 1 - start - 2)).toNat
      (((start : Int) + (record.length - psLen - 1 - start - 2)).toNat + 1) (by omega) (by omega)
      (by omega)
    show Outcome.Of .branch (toOpenArray record _ _ >>= _)
    rw [hused]
    split
    · exact ⟨_, rfl, rfl⟩
    · exact ⟨_, rfl, rfl⟩
  · rw [if_neg hform, deblobify64_err (by omega)]
    exact ⟨_, rfl⟩

theorem vertex_outcome [HexPrefix] (record : List UInt8) :
    (vertexOutcome record).Of (Vertex.deblobify record) := by
  unfold vertexOutcome Vertex.deblobify
  dsimp only
  by_cases hshort : record.length < 3
  · rw [if_pos (.inl hshort), if_pos hshort]
    exact ⟨_, rfl⟩
  rw [if_neg hshort, @byteAt_ok record (record.length - 1) (by omega) _ (by omega),
    except_ok_bind]
  generalize record.getD (record.length - 1) 0 = last
  generalize (last &&& 0b00111111).toNat = psLen
  generalize hkey : (if last >>> 6 &&& 0b10 > 0 then 32 else 0 : Nat) = keyLen
  by_cases hlen : record.length < keyLen + 1 + psLen + 1
  · rw [if_pos (.inr hlen), if_pos (by omega)]
    exact ⟨_, rfl⟩
  rw [if_neg (show ¬ (record.length < 3 ∨ record.length < keyLen + 1 + psLen + 1) by omega),
    if_neg (show ¬ ((psLen : Int) > record.length - 2 ∨ (keyLen : Int) >
      record.length - 2 - psLen) by omega)]
  obtain ⟨path, hpath, -⟩ := @toOpenArray_ok record (record.length - psLen - 1)
    (record.length - 2) (by omega) (by omega) (by omega)
  rw [hpath, except_ok_bind]
  have hbody : ((record.drop keyLen).take (record.length - 1 - psLen - keyLen)).length =
      record.length - 1 - psLen - keyLen := by
    rw [List.length_take, List.length_drop]
    omega
  by_cases hleaf : last >>> 6 &&& 0b01 > 0
  · have hopen : toOpenArray record keyLen (record.length - psLen - 1 - 1) =
        .ok ((record.drop keyLen).take (record.length - 1 - psLen - keyLen)) := by
      unfold toOpenArray
      rw [if_neg (by omega), if_neg (by omega), if_neg (by omega), Int.toNat_natCast,
        show ((record.length : Int) - psLen - 1 - 1 + 1 - keyLen).toNat =
          record.length - 1 - psLen - keyLen by omega]
    rw [if_pos hleaf, if_pos hleaf, hopen]
    exact leaf_outcome (by omega)
  · rw [if_neg hleaf, if_neg hleaf, hbody]
    exact branch_outcome (by omega) rfl

end

end Nimbus.Spec.Blobify
