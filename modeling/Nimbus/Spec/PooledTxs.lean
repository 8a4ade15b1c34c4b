import Nimbus.Native.PooledTxs

/-!
# Pooled transactions are read back

Every reader takes off the front what was written and nothing else, with one exception: an
element of a list of transactions that is a byte string is read by a reader of its own, and what
this reader leaves is dropped. So a list is written back as it was read exactly when no element
has bytes behind its transaction.
-/

namespace Nimbus.Spec.PooledTxs

open Native Native.PooledTxs
open Native.PooledTxs.EthRlp
open Executor (TxType)
open WrapperVersion
open ByteReader RlpItem

/-- What the packages are documented to do. The codec of payloads is a bijection on its image,
and reads what was written wherever it stands. -/
class LawfulEthRlp [EthRlp] : Prop where
  item_iff : ReadsItems item
  readTxType_eq : ∀ {bytes ty rest}, readTxType.run bytes = .ok (ty, rest) →
    bytes = typeByte ty :: rest
  readTxType_typed : ∀ {ty : TxType} rest, ty ≠ .TxLegacy →
    readTxType.run (typeByte ty :: rest) = .ok (ty, rest)
  readTxLegacy_exact : Exact readTxLegacy (fun tx => txType tx = .TxLegacy) appendTxPayload
  readTxPayload_exact : ∀ ty, Exact (readTxPayload ty)
    (fun tx => ty ≠ .TxLegacy ∧ txType tx = ty) appendTxPayload
  /-- A payload is a list. That of a blob transaction has 14 elements. -/
  payload_list : ∀ tx, ∃ fields : List RlpItem, (∀ x ∈ fields, x.payload.length < 256 ^ 8) ∧
    (fields.flatMap encode).length < 256 ^ 8 ∧
    appendTxPayload tx = encode ⟨true, fields.flatMap encode⟩ ∧
    (txType tx = .TxEip4844 → fields.length = 14)

variable [EthRlp] [LawfulEthRlp] {n : Nat} {txs : List PooledTransaction} {xs : List RlpItem}

/-! ### The reader -/

variable {bytes : List UInt8}

omit [EthRlp] [LawfulEthRlp] in
theorem get_bind {α : Type} {f : List UInt8 → ReadM α} :
    (get >>= f).run bytes = (f bytes).run bytes := rfl

/-- The test of `isList`. -/
def startsList : List UInt8 → Bool
  | [] => false
  | b :: _ => decide (192 ≤ b.toNat)

omit [EthRlp] [LawfulEthRlp] in
theorem isList_bind {α : Type} {f : Bool → ReadM α} :
    (isList >>= f).run bytes = (f (startsList bytes)).run bytes := by
  cases bytes <;> rfl

omit [EthRlp] [LawfulEthRlp] in
theorem startsList_encode {x : RlpItem} (hx : x.payload.length < 256 ^ 8) (rest : List UInt8) :
    startsList (x.encode ++ rest) = x.isList := by
  obtain ⟨b, more, hb, hlist⟩ := encode_head hx
  rw [hb]
  cases h : x.isList with
  | true => exact decide_eq_true (hlist.mpr h)
  | false => exact decide_eq_false fun hle => Bool.false_ne_true (h.symm.trans (hlist.mp hle))

theorem readBytes_exact : Exact readBytes (fun bytes => bytes.length < 256 ^ 8) appendBytes := by
  intro bytes string rest
  unfold readBytes
  rw [get_bind]
  have hitem := LawfulEthRlp.item_iff bytes
  cases h : item bytes with
  | error e =>
    refine ⟨fun h' => absurd h' throw_run, fun ⟨hlt, hbytes⟩ => ?_⟩
    rw [(hitem ⟨false, string⟩ rest).mpr ⟨hlt, hbytes⟩] at h
    cases h
  | ok r =>
    obtain ⟨⟨list, payload⟩, rest'⟩ := r
    obtain ⟨hlt, hbytes⟩ := (hitem _ _).mp h
    cases list with
    | true =>
      refine ⟨fun h' => absurd h' throw_run, fun ⟨hlt', hbytes'⟩ => ?_⟩
      obtain ⟨hsame, -⟩ := encode_inj hlt hlt' (hbytes.symm.trans hbytes')
      cases hsame
    | false =>
      constructor
      · intro h'
        cases h'
        exact ⟨hlt, hbytes⟩
      · intro ⟨hlt', hbytes'⟩
        obtain ⟨hsame, rfl⟩ := encode_inj hlt hlt' (hbytes.symm.trans hbytes')
        cases hsame
        rfl

variable {bytes rest : List UInt8}

theorem readUint_one : readUint.run bytes = .ok (1, rest) ↔ bytes = appendUint 1 ++ rest := by
  have hone : Rlp.bigEndian 1 = [1] := by decide +kernel
  unfold readUint appendUint
  rw [bind_run, hone]
  constructor
  · rintro ⟨digits, mid, hread, h⟩
    obtain ⟨-, hbytes⟩ := (readBytes_exact _ _ _).mp hread
    split at h
    · exact absurd h throw_run
    · rename_i hhead
      split at h
      · exact absurd h throw_run
      · obtain ⟨hval, rfl⟩ := pure_run.mp h
        have hdigits := Rlp.bigEndian_ofBigEndian hhead
        rw [← hval, hone] at hdigits
        rw [hbytes, ← hdigits]
  · intro hbytes
    refine ⟨[1], rest, (readBytes_exact _ _ _).mpr ⟨by show 1 < _; decide, hbytes⟩, ?_⟩
    exact pure_run.mpr ⟨by decide +kernel, rfl⟩

theorem readArray_exact (hn : n < 256 ^ 8) :
    Exact (readArray n) (fun _ => True) (fun array => appendBytes array.val) := by
  intro bytes array rest
  unfold readArray
  rw [bind_run]
  constructor
  · rintro ⟨payload, mid, hread, h⟩
    obtain ⟨-, hbytes⟩ := (readBytes_exact _ _ _).mp hread
    split at h
    · obtain ⟨rfl, rfl⟩ := pure_run.mp h
      exact ⟨trivial, hbytes⟩
    · exact absurd h throw_run
  · rintro ⟨-, hbytes⟩
    have harray : array.val.length < 256 ^ 8 := by
      rw [array.property]
      exact hn
    refine ⟨array.val, rest, (readBytes_exact _ _ _).mpr ⟨harray, hbytes⟩, ?_⟩
    rw [dif_pos array.property]
    exact pure_run.mpr ⟨rfl, rfl⟩

/-! ### Lists -/

/-- The elements of a list, one after the other. -/
abbrev flat (xs : List RlpItem) : List UInt8 := xs.flatMap encode

/-- Every element fits the prefix of its length. -/
def Small (xs : List RlpItem) : Prop := ∀ x ∈ xs, x.payload.length < 256 ^ 8

section

omit [EthRlp] [LawfulEthRlp]

theorem length_payload_le (x : RlpItem) : x.payload.length ≤ x.encode.length := by
  obtain ⟨isList, payload⟩ := x
  cases isList with
  | true =>
    rw [encode_list, List.length_append]
    exact Nat.le_add_left _ _
  | false =>
    show payload.length ≤ (Rlp.encodeStr payload).length
    by_cases hsmall : ∃ c, payload = [c] ∧ c.toNat < 128
    · obtain ⟨c, rfl, hc⟩ := hsmall
      have hone : Rlp.encodeStr [c] = [c] := if_pos hc
      rw [hone]
    · rw [encodeStr_of_not_small fun c hc hlt => hsmall ⟨c, hc, hlt⟩, List.length_append]
      exact Nat.le_add_left _ _

theorem small_of_flat (h : (flat xs).length < 256 ^ 8) : Small xs := by
  intro x hx
  have hle : x.encode.length ≤ (flat xs).length := by
    obtain ⟨before, after, rfl⟩ := List.append_of_mem hx
    rw [flat, List.flatMap_append, List.flatMap_cons, List.length_append, List.length_append]
    omega
  exact Nat.lt_of_le_of_lt (Nat.le_trans (length_payload_le x) hle) h

/-- As many elements of the same bytes are the same elements. -/
theorem flat_inj {xs ys : List RlpItem} {r s : List UInt8} (hlength : xs.length = ys.length)
    (hxs : Small xs) (hys : Small ys) (h : flat xs ++ r = flat ys ++ s) : xs = ys ∧ r = s := by
  induction xs generalizing ys with
  | nil =>
    obtain rfl : ys = [] := List.length_eq_zero_iff.mp hlength.symm
    exact ⟨rfl, h⟩
  | cons x xs ih =>
    cases ys with
    | nil => exact nomatch hlength
    | cons y ys =>
      rw [flat, flat, List.flatMap_cons, List.flatMap_cons, List.append_assoc,
        List.append_assoc] at h
      obtain ⟨rfl, hrest⟩ := encode_inj (hxs x (List.mem_cons_self ..))
        (hys y (List.mem_cons_self ..)) h
      obtain ⟨rfl, rfl⟩ := ih (Nat.succ.inj hlength)
        (fun z hz => hxs z (.tail _ hz))
        (fun z hz => hys z (.tail _ hz)) hrest
      exact ⟨rfl, rfl⟩

theorem flat_inj_of_eq {xs ys : List RlpItem} (hxs : Small xs) (hys : Small ys)
    (h : flat xs = flat ys) : xs = ys := by
  induction xs generalizing ys with
  | nil =>
    cases ys with
    | nil => rfl
    | cons y ys =>
      exact absurd (List.append_eq_nil_iff.mp h.symm).1 (encode_ne_nil y)
  | cons x xs ih =>
    cases ys with
    | nil =>
      exact absurd (List.append_eq_nil_iff.mp h).1 (encode_ne_nil x)
    | cons y ys =>
      obtain ⟨rfl, hrest⟩ := encode_inj (hxs x (List.mem_cons_self ..))
        (hys y (List.mem_cons_self ..)) h
      rw [ih (fun z hz => hxs z (.tail _ hz))
        (fun z hz => hys z (.tail _ hz)) hrest]

end

theorem readArrays_exact (hn : n < 256 ^ 8) : Exact (readArrays n)
    (fun arrays => (arrays.map fun array => appendBytes array.val).flatten.length < 256 ^ 8)
    appendArrays := by
  intro bytes arrays rest
  have hbody (x : RlpItem) (array : FixedBytes n) (tail : List UInt8)
      (hx : x.payload.length < 256 ^ 8) :
      (∃ left, (readArray n).run (x.encode ++ tail) = .ok (array, left)) ↔
        x = ⟨false, array.val⟩ := by
    constructor
    · rintro ⟨left, h⟩
      obtain ⟨-, hbytes⟩ := (readArray_exact hn _ _ _).mp h
      exact (encode_inj hx (by rw [array.property]; exact hn) hbytes).1
    · rintro rfl
      exact ⟨tail, (readArray_exact hn _ _ _).mpr ⟨trivial, rfl⟩⟩
  unfold readArrays
  rw [forItems_iff LawfulEthRlp.item_iff hbody]
  have hflat (arrays : List (FixedBytes n)) :
      (arrays.map fun array => appendBytes array.val).flatten =
        flat (arrays.map fun array => ⟨false, array.val⟩) := by
    rw [flat, List.flatMap_map]
    rfl
  have hforall {xs : List RlpItem} : List.Forall₂ (fun x (array : FixedBytes n) =>
      x = ⟨false, array.val⟩) xs arrays ↔ xs = arrays.map fun array => ⟨false, array.val⟩ := by
    have hmap := List.forall₂_map_right_iff (R := Eq) (l := xs) (u := arrays)
      (f := fun array => (⟨false, array.val⟩ : RlpItem))
    rw [List.forall₂_eq_eq_eq] at hmap
    exact hmap.symm
  constructor
  · rintro ⟨xs, hxs, hlt, hbytes, hread⟩
    obtain rfl := hforall.mp hread
    dsimp only
    unfold appendArrays appendList
    rw [hflat]
    exact ⟨hlt, hbytes⟩
  · rintro ⟨hlt, hbytes⟩
    rw [hflat] at hlt
    refine ⟨_, small_of_flat hlt, hlt, ?_, hforall.mpr rfl⟩
    unfold appendArrays appendList at hbytes
    rw [hflat] at hbytes
    exact hbytes

variable {after rest : List UInt8}

theorem tryEnterList_run {u : Unit}
    (hlt : (flat xs).length < 256 ^ 8) (hbytes : bytes = encode ⟨true, flat xs⟩ ++ rest) :
    tryEnterList.run bytes = .ok (u, after) ↔ after = flat xs ++ rest := by
  unfold tryEnterList
  rw [get_bind, (LawfulEthRlp.item_iff _ ⟨true, flat xs⟩ rest).mpr ⟨hlt, hbytes⟩]
  constructor
  · intro h
    cases h
    rfl
  · rintro rfl
    rfl

theorem listLen_run :
    listLen.run bytes = .ok (n, after) ↔ after = bytes ∧ ∃ xs rest, (flat xs).length < 256 ^ 8 ∧
      bytes = encode ⟨true, flat xs⟩ ++ rest ∧ xs.length = n := by
  have hbody (x : RlpItem) (u : Unit) (tail : List UInt8) (_ : x.payload.length < 256 ^ 8) :
      (∃ left, (pure () : ReadM Unit).run (x.encode ++ tail) = .ok (u, left)) ↔ True :=
    ⟨fun _ => trivial, fun _ => ⟨_, rfl⟩⟩
  have hitems (units : List Unit) (rest : List UInt8) :
      (forItems item noList (pure ())).run bytes = .ok (units, rest) ↔ _ :=
    forItems_iff LawfulEthRlp.item_iff hbody
  unfold listLen
  rw [get_bind]
  cases h : (forItems item noList (pure ())).run bytes with
  | error e =>
    refine ⟨fun h' => absurd h' throw_run, ?_⟩
    rintro ⟨-, xs, rest, hlt, hbytes, -⟩
    rw [(hitems (xs.map fun _ => ()) rest).mpr ⟨xs, small_of_flat hlt, hlt, hbytes, by
      rw [List.forall₂_map_right_iff]
      exact List.forall₂_same.mpr fun _ _ => trivial⟩] at h
    cases h
  | ok r =>
    obtain ⟨units, rest⟩ := r
    obtain ⟨xs, -, hlt, hbytes, hforall⟩ := (hitems units rest).mp h
    have hlength := hforall.length_eq
    rw [pure_run]
    constructor
    · rintro ⟨rfl, rfl⟩
      exact ⟨rfl, xs, rest, hlt, hbytes, hlength⟩
    · rintro ⟨rfl, ys, rest', hlt', hbytes', rfl⟩
      obtain ⟨hsame, -⟩ := encode_inj hlt hlt' (hbytes.symm.trans hbytes')
      cases flat_inj_of_eq (small_of_flat hlt) (small_of_flat hlt') (RlpItem.mk.inj hsame).2
      exact ⟨hlength, rfl⟩

/-! ### The bundle -/

variable (bundle : BlobsBundle)

/-- The elements that a bundle is written with. -/
def bundleItems : List RlpItem :=
  let arrays {n : Nat} (as : List (FixedBytes n)) : RlpItem :=
    ⟨true, (as.map fun array => appendBytes array.val).flatten⟩
  (if bundle.wrapperVersion = WrapperVersionEIP7594 then [⟨false, Rlp.bigEndian 1⟩] else []) ++
    [arrays bundle.blobs, arrays bundle.commitments, arrays bundle.proofs]

omit [EthRlp] [LawfulEthRlp] in
theorem flat_bundleItems : flat (bundleItems bundle) = (appendBundle bundle).flatten := by
  unfold bundleItems appendBundle
  split <;> rfl

/-- The number of elements of a transaction with a bundle. -/
def fieldsOf : Nat :=
  match bundle.wrapperVersion with
  | WrapperVersionEIP4844 => 4
  | WrapperVersionEIP7594 => 5

omit [EthRlp] [LawfulEthRlp] in
theorem length_bundleItems : (bundleItems bundle).length + 1 = fieldsOf bundle := by
  unfold bundleItems fieldsOf
  cases bundle.wrapperVersion <;> rfl

theorem readWrapperVersion_run (hn : n = 4 ∨ n = 5)
    {version : WrapperVersion} : (readWrapperVersion n).run bytes = .ok (version, rest) ↔
      n = 4 ∧ version = WrapperVersionEIP4844 ∧ bytes = rest ∨
      n = 5 ∧ version = WrapperVersionEIP7594 ∧ bytes = appendUint 1 ++ rest := by
  unfold readWrapperVersion
  obtain rfl | rfl := hn
  · rw [if_pos rfl, pure_run]
    constructor
    · rintro ⟨rfl, rfl⟩
      exact .inl ⟨rfl, rfl, rfl⟩
    · rintro (⟨-, rfl, rfl⟩ | ⟨h, -⟩)
      · exact ⟨rfl, rfl⟩
      · cases h
  · rw [if_neg (by decide), bind_run]
    constructor
    · rintro ⟨val, mid, hread, h⟩
      split at h
      · exact absurd h throw_run
      · rename_i hval
        obtain rfl := not_not.mp hval
        obtain ⟨rfl, rfl⟩ := pure_run.mp h
        exact .inr ⟨rfl, rfl, readUint_one.mp hread⟩
    · rintro (⟨h, -⟩ | ⟨-, rfl, hbytes⟩)
      · cases h
      · exact ⟨1, rest, readUint_one.mpr hbytes, pure_run.mpr ⟨rfl, rfl⟩⟩

omit [EthRlp] [LawfulEthRlp] in
theorem small_bundleItems {bundle : BlobsBundle} : Small (bundleItems bundle) ↔
    (bundle.blobs.map fun array => appendBytes array.val).flatten.length < 256 ^ 8 ∧
    (bundle.commitments.map fun array => appendBytes array.val).flatten.length < 256 ^ 8 ∧
    (bundle.proofs.map fun array => appendBytes array.val).flatten.length < 256 ^ 8 := by
  have hone : (Rlp.bigEndian 1).length < 256 ^ 8 := by decide +kernel
  unfold Small bundleItems
  cases bundle.wrapperVersion
  · simp
  · simp only [reduceIte, List.cons_append, List.nil_append, List.forall_mem_cons, hone, true_and,
      List.not_mem_nil, false_imp_iff, implies_true, and_true]

/-- A bundle is read from its elements, when there are as many as its version has. -/
theorem readBundle_run (hn : n = 4 ∨ n = 5)
    {bundle : BlobsBundle} : (readBundle n).run bytes = .ok (bundle, rest) ↔
      fieldsOf bundle = n ∧ Small (bundleItems bundle) ∧
        bytes = flat (bundleItems bundle) ++ rest := by
  have hblobs := readArrays_exact (n := 131072) (by decide)
  have hproofs := readArrays_exact (n := 48) (by decide)
  have hversion : fieldsOf bundle = n ↔
      n = 4 ∧ bundle.wrapperVersion = WrapperVersionEIP4844 ∨
      n = 5 ∧ bundle.wrapperVersion = WrapperVersionEIP7594 := by
    unfold fieldsOf
    cases bundle.wrapperVersion <;> simp [eq_comm]
  have hbytes : flat (bundleItems bundle) ++ rest =
      (if bundle.wrapperVersion = WrapperVersionEIP7594 then appendUint 1 else []) ++
        (appendArrays bundle.blobs ++ (appendArrays bundle.commitments ++
          (appendArrays bundle.proofs ++ rest))) := by
    rw [flat_bundleItems]
    unfold appendBundle
    split <;> simp
  rw [hversion, small_bundleItems, hbytes]
  unfold readBundle
  rw [bind_run]
  constructor
  · rintro ⟨version, mid, hread, h⟩
    obtain ⟨blobs, mid₁, h₁, h⟩ := bind_run.mp h
    obtain ⟨commitments, mid₂, h₂, h⟩ := bind_run.mp h
    obtain ⟨proofs, mid₃, h₃, h⟩ := bind_run.mp h
    obtain ⟨rfl, rfl⟩ := pure_run.mp h
    obtain ⟨hlt₁, rfl⟩ := (hblobs _ _ _).mp h₁
    obtain ⟨hlt₂, rfl⟩ := (hproofs _ _ _).mp h₂
    obtain ⟨hlt₃, rfl⟩ := (hproofs _ _ _).mp h₃
    obtain ⟨rfl, rfl, rfl⟩ | ⟨rfl, rfl, rfl⟩ := (readWrapperVersion_run hn).mp hread
    · exact ⟨.inl ⟨rfl, rfl⟩, ⟨hlt₁, hlt₂, hlt₃⟩, rfl⟩
    · exact ⟨.inr ⟨rfl, rfl⟩, ⟨hlt₁, hlt₂, hlt₃⟩, rfl⟩
  · rintro ⟨hfields, ⟨hlt₁, hlt₂, hlt₃⟩, rfl⟩
    refine ⟨bundle.wrapperVersion, _, (readWrapperVersion_run hn).mpr ?_,
      bind_run.mpr ⟨_, _, (hblobs _ _ _).mpr ⟨hlt₁, rfl⟩,
        bind_run.mpr ⟨_, _, (hproofs _ _ _).mpr ⟨hlt₂, rfl⟩,
          bind_run.mpr ⟨_, _, (hproofs _ _ _).mpr ⟨hlt₃, rfl⟩, pure_run.mpr ⟨rfl, rfl⟩⟩⟩⟩⟩
    obtain ⟨rfl, hv⟩ | ⟨rfl, hv⟩ := hfields
    · left
      rw [hv]
      exact ⟨rfl, rfl, rfl⟩
    · right
      rw [hv]
      exact ⟨rfl, rfl, rfl⟩

/-! ### A single transaction -/

/-- A transaction as it is read: only a blob transaction has a bundle, and what is written fits
the prefixes of lengths. -/
structure Good (tx : PooledTransaction) : Prop where
  blobs : tx.blobsBundle ≠ none → txType tx.tx = .TxEip4844
  fits : ∀ bundle, tx.blobsBundle = some bundle →
    (appendTxPayload tx.tx :: appendBundle bundle).flatten.length < 256 ^ 8

theorem numFields_run {ty : TxType} : (numFields ty).run bytes = .ok (n, after) ↔ after = bytes ∧
      (ty ≠ .TxEip4844 ∧ n = 1 ∨ ty = .TxEip4844 ∧ ∃ xs rest, (flat xs).length < 256 ^ 8 ∧
        bytes = encode ⟨true, flat xs⟩ ++ rest ∧ xs.length = n) := by
  unfold numFields
  by_cases hty : ty = .TxEip4844
  · rw [if_pos hty, listLen_run]
    constructor
    · rintro ⟨rfl, h⟩
      exact ⟨rfl, .inr ⟨hty, h⟩⟩
    · rintro ⟨rfl, ⟨hne, -⟩ | ⟨-, h⟩⟩
      · exact absurd hty hne
      · exact ⟨rfl, h⟩
  · rw [if_neg hty, pure_run]
    constructor
    · rintro ⟨rfl, rfl⟩
      exact ⟨rfl, .inl ⟨hty, rfl⟩⟩
    · rintro ⟨rfl, ⟨-, rfl⟩ | ⟨h, -⟩⟩
      · exact ⟨rfl, rfl⟩
      · exact absurd h hty

/-- A payload as an element, with the number of its own elements. -/
theorem exists_payload (tx : Transaction) : ∃ fields : List RlpItem,
    (flat fields).length < 256 ^ 8 ∧
    appendTxPayload tx = encode ⟨true, flat fields⟩ ∧
    (txType tx = .TxEip4844 → fields.length = 14) := by
  obtain ⟨fields, -, hlt, hpayload, hfields⟩ := LawfulEthRlp.payload_list tx
  exact ⟨fields, hlt, hpayload, hfields⟩

variable {tx : PooledTransaction}

/-- A typed transaction is read from what it is written as, and from nothing else. -/
theorem readTxTyped_iff : readTxTyped.run bytes = .ok (tx, rest) ↔
      txType tx.tx ≠ .TxLegacy ∧ Good tx ∧ bytes = append tx ++ rest := by
  obtain ⟨payload, bundle?⟩ := tx
  obtain ⟨fields, hlt, hpayload, hfields⟩ := exists_payload payload
  -- the elements of the list with a bundle
  have hitems (bundle : BlobsBundle) : flat (⟨true, flat fields⟩ :: bundleItems bundle) =
      (appendTxPayload payload :: appendBundle bundle).flatten := by
    rw [flat, List.flatMap_cons, ← hpayload]
    exact congrArg _ (flat_bundleItems bundle)
  have hfirst (bundle : BlobsBundle) : appendTxPayload payload ++
      (flat (bundleItems bundle) ++ rest) =
        flat (⟨true, flat fields⟩ :: bundleItems bundle) ++ rest := by
    rw [hpayload, ← List.append_assoc]
    rfl
  unfold readTxTyped append
  rw [bind_run]
  constructor
  · rintro ⟨ty, mid, htype, hrest⟩
    rw [LawfulEthRlp.readTxType_eq htype]
    obtain ⟨n, mid₁, hnum, h⟩ := bind_run.mp hrest
    obtain ⟨rfl, hcases⟩ := numFields_run.mp hnum
    clear htype hrest
    split at h
    · rename_i hn
      obtain ⟨hne, hone⟩ | ⟨rfl, xs, rest', hxs, hmid, hcount⟩ := hcases
      · omega
      · obtain ⟨_, mid₂, henter, h⟩ := bind_run.mp h
        obtain ⟨tx', mid₃, hread, h⟩ := bind_run.mp h
        obtain ⟨bundle, mid₄, hbundle, h⟩ := bind_run.mp h
        obtain ⟨hsame, rfl⟩ := pure_run.mp h
        cases hsame
        rw [tryEnterList_run hxs hmid] at henter
        obtain ⟨⟨hne, htx⟩, hmid₂⟩ := (LawfulEthRlp.readTxPayload_exact _ _ _ _).mp hread
        obtain ⟨hversion, hsmall, rfl⟩ := (readBundle_run hn).mp hbundle
        have hflat : flat xs ++ rest' =
            flat (⟨true, flat fields⟩ :: bundleItems bundle) ++ rest := by
          rw [← henter, hmid₂, hfirst]
        have hall : Small (⟨true, flat fields⟩ :: bundleItems bundle) :=
          List.forall_mem_cons.mpr ⟨hlt, hsmall⟩
        obtain ⟨rfl, rfl⟩ := flat_inj (by
          rw [hcount, List.length_cons, length_bundleItems, hversion]) (small_of_flat hxs) hall hflat
        rw [hitems] at hxs hmid
        refine ⟨htx.symm ▸ hne, ⟨fun _ => htx, fun bundle' h' => ?_⟩, ?_⟩
        · cases h'
          exact hxs
        · rw [htx, hmid]
          rfl
    · obtain ⟨tx', mid₂, hread, h⟩ := bind_run.mp h
      obtain ⟨hsame, rfl⟩ := pure_run.mp h
      cases hsame
      obtain ⟨⟨hne, htx⟩, hmid⟩ := (LawfulEthRlp.readTxPayload_exact _ _ _ _).mp hread
      refine ⟨htx.symm ▸ hne, ⟨fun h' => absurd rfl h', fun _ h' => nomatch h'⟩, ?_⟩
      rw [if_pos (htx.symm ▸ hne), htx, hmid]
      rfl
  · rintro ⟨hne, hgood, hbytes⟩
    rw [hbytes, if_pos hne]
    refine ⟨txType payload, _, LawfulEthRlp.readTxType_typed _ hne, bind_run.mpr ?_⟩
    cases bundle? with
    | none =>
      have hread := (LawfulEthRlp.readTxPayload_exact (txType payload) _ payload rest).mpr
        ⟨⟨hne, rfl⟩, rfl⟩
      by_cases hty : txType payload = .TxEip4844
      · refine ⟨14, _, numFields_run.mpr ⟨rfl, .inr ⟨hty, fields, rest, hlt, ?_, hfields hty⟩⟩, ?_⟩
        · show appendTxPayload payload ++ rest = _
          rw [hpayload]
        · rw [if_neg (by decide), bind_run]
          exact ⟨payload, rest, hread, pure_run.mpr ⟨rfl, rfl⟩⟩
      · refine ⟨1, _, numFields_run.mpr ⟨rfl, .inl ⟨hty, rfl⟩⟩, ?_⟩
        rw [if_neg (by decide), bind_run]
        exact ⟨payload, rest, hread, pure_run.mpr ⟨rfl, rfl⟩⟩
    | some bundle =>
      have hty := hgood.blobs nofun
      have hfits := hgood.fits bundle rfl
      rw [← hitems bundle] at hfits
      have hlist : appendList (appendTxPayload payload :: appendBundle bundle) ++ rest =
          encode ⟨true, flat (⟨true, flat fields⟩ :: bundleItems bundle)⟩ ++ rest := by
        rw [hitems]
        rfl
      have hn : fieldsOf bundle = 4 ∨ fieldsOf bundle = 5 := by
        unfold fieldsOf
        cases bundle.wrapperVersion
        · exact .inl rfl
        · exact .inr rfl
      refine ⟨fieldsOf bundle, _, numFields_run.mpr ⟨rfl, .inr ⟨hty,
        ⟨true, flat fields⟩ :: bundleItems bundle, rest, hfits, hlist, ?_⟩⟩, ?_⟩
      · rw [List.length_cons, length_bundleItems]
      · rw [if_pos hn, bind_run]
        refine ⟨(), _, (tryEnterList_run hfits hlist).mpr rfl, bind_run.mpr
          ⟨payload, flat (bundleItems bundle) ++ rest, ?_, bind_run.mpr
            ⟨bundle, rest, (readBundle_run hn).mpr ⟨rfl, ?_, rfl⟩, pure_run.mpr ⟨rfl, rfl⟩⟩⟩⟩
        · exact (LawfulEthRlp.readTxPayload_exact _ _ _ _).mpr
            ⟨⟨hne, rfl⟩, (hfirst bundle).symm⟩
        · exact fun x hx => small_of_flat hfits x (.tail _ hx)

theorem readLegacy_iff :
    readLegacy.run bytes = .ok (tx, rest) ↔ txType tx.tx = .TxLegacy ∧ tx.blobsBundle = none ∧
      bytes = appendTxPayload tx.tx ++ rest := by
  unfold readLegacy
  rw [bind_run]
  constructor
  · rintro ⟨payload, mid, hread, h⟩
    obtain ⟨rfl, rfl⟩ := pure_run.mp h
    obtain ⟨hty, hbytes⟩ := (LawfulEthRlp.readTxLegacy_exact _ _ _).mp hread
    exact ⟨hty, rfl, hbytes⟩
  · obtain ⟨payload, bundle?⟩ := tx
    rintro ⟨hty, rfl, hbytes⟩
    exact ⟨payload, rest, (LawfulEthRlp.readTxLegacy_exact _ _ _).mpr ⟨hty, hbytes⟩,
      pure_run.mpr ⟨rfl, rfl⟩⟩

omit [LawfulEthRlp] in
theorem append_legacy (hgood : Good tx)
    (hty : txType tx.tx = .TxLegacy) : tx.blobsBundle = none ∧ append tx = appendTxPayload tx.tx := by
  have hnone : tx.blobsBundle = none := by
    by_contra hsome
    exact nomatch hty.symm.trans (hgood.blobs hsome)
  refine ⟨hnone, ?_⟩
  unfold append
  rw [if_neg (not_not.mpr hty), hnone]
  rfl

omit [LawfulEthRlp] in
theorem append_typed (hty : txType tx.tx ≠ .TxLegacy) :
    ∃ more, append tx = typeByte (txType tx.tx) :: more := by
  unfold append
  rw [if_pos hty]
  exact ⟨_, rfl⟩

omit [EthRlp] [LawfulEthRlp] in
theorem typeByte_lt (ty : TxType) : ¬ 192 ≤ (typeByte ty).toNat := by
  cases ty <;> decide

/-- A transaction is read from what it is written as, and from nothing else. -/
theorem read_iff :
    (PooledTxs.read).run bytes = .ok (tx, rest) ↔ Good tx ∧ bytes = append tx ++ rest := by
  unfold PooledTxs.read
  rw [isList_bind]
  by_cases hty : txType tx.tx = .TxLegacy
  · obtain ⟨fields, hlt, hpayload, -⟩ := exists_payload tx.tx
    constructor
    · intro h
      split at h
      · obtain ⟨-, hnone, hbytes⟩ := readLegacy_iff.mp h
        have hgood : Good tx := ⟨fun h' => absurd hnone h', fun bundle h' => by
          rw [hnone] at h'
          exact nomatch h'⟩
        exact ⟨hgood, by rw [(append_legacy hgood hty).2]; exact hbytes⟩
      · exact absurd hty (readTxTyped_iff.mp h).1
    · rintro ⟨hgood, hbytes⟩
      obtain ⟨hnone, happend⟩ := append_legacy hgood hty
      rw [happend] at hbytes
      have hstart : startsList bytes = true := by
        rw [hbytes, hpayload]
        exact startsList_encode hlt rest
      rw [hstart]
      exact readLegacy_iff.mpr ⟨hty, hnone, hbytes⟩
  · constructor
    · intro h
      split at h
      · exact absurd (readLegacy_iff.mp h).1 hty
      · exact (readTxTyped_iff.mp h).2
    · rintro ⟨hgood, hbytes⟩
      obtain ⟨more, happend⟩ := append_typed hty
      have hstart : startsList bytes = false := by
        rw [hbytes, happend]
        exact decide_eq_false (typeByte_lt _)
      rw [hstart]
      exact readTxTyped_iff.mpr ⟨hty, hgood, hbytes⟩

variable {tx : PooledTransaction}

theorem decodePooledTx_iff : decodePooledTx bytes = .ok tx ↔ Good tx ∧ bytes = append tx := by
  unfold decodePooledTx
  rw [except_bind_ok]
  constructor
  · rintro ⟨⟨tx', rest⟩, hread, h⟩
    dsimp only at h
    split at h
    · cases h
    · rename_i hrest
      obtain rfl := not_not.mp hrest
      cases h
      rw [read_iff, List.append_nil] at hread
      exact hread
  · rintro ⟨hgood, hbytes⟩
    exact ⟨(tx, []), read_iff.mpr ⟨hgood, by rw [List.append_nil]; exact hbytes⟩, rfl⟩

/-! ### Lists of transactions -/

/-- What is read at an element of a list. What is behind the transaction in a byte string is
dropped. -/
def Reads (x : RlpItem) (tx : PooledTransaction) : Prop :=
  if x.isList then
    txType tx.tx = .TxLegacy ∧ tx.blobsBundle = none ∧ x.encode = appendTxPayload tx.tx
  else ∃ left, readTxTyped.run x.payload = .ok (tx, left)

theorem readElement_run {x : RlpItem} {tail : List UInt8}
    (hx : x.payload.length < 256 ^ 8) :
    (∃ left, readElement.run (x.encode ++ tail) = .ok (tx, left)) ↔ Reads x tx := by
  unfold readElement Reads
  rw [isList_bind, startsList_encode hx]
  obtain ⟨isList, payload⟩ := x
  cases isList with
  | true =>
    obtain ⟨fields, hlt, hpayload, -⟩ := exists_payload tx.tx
    constructor
    · rintro ⟨left, h⟩
      obtain ⟨hty, hnone, hbytes⟩ := readLegacy_iff.mp h
      rw [hpayload] at hbytes
      obtain ⟨hsame, -⟩ := encode_inj hx hlt hbytes
      exact ⟨hty, hnone, by rw [hpayload, hsame]⟩
    · rintro ⟨hty, hnone, hbytes⟩
      exact ⟨tail, readLegacy_iff.mpr ⟨hty, hnone, by rw [hbytes]⟩⟩
  | false =>
    rw [if_neg Bool.false_ne_true]
    have hbytes : readBytes.run (encode ⟨false, payload⟩ ++ tail) = .ok (payload, tail) :=
      (readBytes_exact _ _ _).mpr ⟨hx, rfl⟩
    have hrun : (readBytes >>= readTypedFrom).run (encode ⟨false, payload⟩ ++ tail) =
        (readTypedFrom payload).run tail := by
      rw [StateT.run_bind, hbytes]
      rfl
    rw [hrun]
    unfold readTypedFrom
    cases h : readTxTyped.run payload with
    | error e => exact ⟨fun ⟨_, h'⟩ => absurd h' throw_run, fun ⟨_, h'⟩ => nomatch h'⟩
    | ok r =>
      obtain ⟨tx', left'⟩ := r
      constructor
      · rintro ⟨left, h'⟩
        obtain ⟨rfl, -⟩ := pure_run.mp h'
        exact ⟨left', rfl⟩
      · rintro ⟨left, h'⟩
        cases h'
        exact ⟨tail, pure_run.mpr ⟨rfl, rfl⟩⟩

theorem readTxs_iff :
    readTxs.run bytes = .ok (txs, rest) ↔ ∃ xs : List RlpItem, (flat xs).length < 256 ^ 8 ∧
      bytes = encode ⟨true, flat xs⟩ ++ rest ∧ List.Forall₂ Reads xs txs := by
  have hitems : (forItems item noList readElement).run bytes = .ok (txs, rest) ↔ _ :=
    forItems_iff LawfulEthRlp.item_iff fun _ _ _ hx => readElement_run hx
  unfold readTxs
  rw [isList_bind]
  constructor
  · intro h
    split at h
    · obtain ⟨xs, -, hlt, hbytes, hforall⟩ := hitems.mp h
      exact ⟨xs, hlt, hbytes, hforall⟩
    · exact absurd h throw_run
  · rintro ⟨xs, hlt, hbytes, hforall⟩
    have hstart : startsList bytes = true := by
      rw [hbytes]
      exact startsList_encode hlt rest
    rw [hstart]
    exact hitems.mpr ⟨xs, small_of_flat hlt, hlt, hbytes, hforall⟩

/-- The bytes of a transaction in a list. -/
def element (tx : PooledTransaction) : List UInt8 :=
  if txType tx.tx = .TxLegacy then append tx else appendBytes (append tx)

/-- What a transaction is written as in a list, as an element that it is read from. -/
theorem exists_element (hgood : Good tx) : ∃ x : RlpItem, x.encode = element tx ∧ Reads x tx := by
  unfold element Reads
  by_cases hty : txType tx.tx = .TxLegacy
  · obtain ⟨fields, -, hpayload, -⟩ := exists_payload tx.tx
    obtain ⟨hnone, happend⟩ := append_legacy hgood hty
    refine ⟨⟨true, flat fields⟩, ?_, ?_⟩
    · rw [if_pos hty, happend, hpayload]
    · exact ⟨hty, hnone, hpayload.symm⟩
  · refine ⟨⟨false, append tx⟩, ?_, ?_⟩
    · rw [if_neg hty]
      rfl
    · exact ⟨[], readTxTyped_iff.mpr ⟨hty, hgood, (List.append_nil _).symm⟩⟩

theorem exists_elements (hgood : ∀ tx ∈ txs, Good tx) :
    ∃ xs : List RlpItem, flat xs = (txs.map element).flatten ∧ List.Forall₂ Reads xs txs := by
  induction txs with
  | nil => exact ⟨[], rfl, .nil⟩
  | cons tx txs ih =>
    obtain ⟨x, hx, hreads⟩ := exists_element (hgood tx (List.mem_cons_self ..))
    obtain ⟨xs, hxs, hforall⟩ := ih fun tx' htx' => hgood tx' (.tail _ htx')
    refine ⟨x :: xs, ?_, .cons hreads hforall⟩
    rw [flat, List.flatMap_cons, hx, List.map_cons, List.flatten_cons, ← hxs]

/-- A byte string in a list ends with its transaction. -/
def Ends (x : RlpItem) : Prop := x.isList = false → ∀ tx left, Good tx →
  txType tx.tx ≠ .TxLegacy → x.payload = append tx ++ left → left = []

/-- What is read at an element is written as this element, if the element ends with it. -/
theorem written_eq_iff {x : RlpItem} (hreads : Reads x tx)
    (hx : x.payload.length < 256 ^ 8) :
    ∃ y : RlpItem, y.encode = element tx ∧ y.payload.length < 256 ^ 8 ∧ (y = x ↔ Ends x) := by
  obtain ⟨isList, payload⟩ := x
  unfold element
  cases isList with
  | true =>
    obtain ⟨hty, hnone, hencode⟩ := hreads
    have hgood : Good tx := ⟨fun h => absurd hnone h, fun bundle h => by
      rw [hnone] at h
      exact nomatch h⟩
    refine ⟨⟨true, payload⟩, ?_, hx, iff_of_true rfl nofun⟩
    rw [if_pos hty, (append_legacy hgood hty).2, hencode]
  | false =>
    obtain ⟨left, hread⟩ := hreads
    obtain ⟨hty, hgood, hpayload⟩ := readTxTyped_iff.mp hread
    dsimp only at hread hpayload hx
    refine ⟨⟨false, append tx⟩, ?_, ?_, ?_⟩
    · rw [if_neg hty]
      rfl
    · rw [hpayload, List.length_append] at hx
      show (append tx).length < _
      omega
    · constructor
      · intro hsame _ tx' left' hgood' hty' hpayload'
        obtain rfl : append tx = payload := congrArg RlpItem.payload hsame
        -- the bytes determine what is read from them
        have hread' := readTxTyped_iff.mpr ⟨hty', hgood', hpayload'⟩
        rw [readTxTyped_iff.mpr ⟨hty, hgood, (List.append_nil _).symm⟩] at hread'
        cases hread'
        rfl
      · intro hends
        obtain rfl := hends rfl tx left hgood hty hpayload
        rw [hpayload, List.append_nil]

theorem written_all_iff (hforall : List.Forall₂ Reads xs txs) (hxs : Small xs) :
    ∃ ys : List RlpItem, flat ys = (txs.map element).flatten ∧ Small ys ∧
      (ys = xs ↔ ∀ x ∈ xs, Ends x) := by
  induction hforall with
  | nil => exact ⟨[], rfl, by simp [Small], by simp⟩
  | @cons x tx xs txs hreads _ ih =>
    obtain ⟨y, hy, hsmall, hends⟩ := written_eq_iff hreads (hxs x (List.mem_cons_self ..))
    obtain ⟨ys, hys, hsmalls, hall⟩ := ih fun x' hx' => hxs x' (.tail _ hx')
    refine ⟨y :: ys, ?_, List.forall_mem_cons.mpr ⟨hsmall, hsmalls⟩, ?_⟩
    · rw [flat, List.flatMap_cons, hy, List.map_cons, List.flatten_cons, ← hys]
    · rw [List.cons.injEq, hends, hall, List.forall_mem_cons]

omit [EthRlp] [LawfulEthRlp] in
/-- Lists of the same bytes have the same payload, however long it is. -/
theorem list_payload_inj {payload payload' : List UInt8}
    (h : encode ⟨true, payload⟩ = encode ⟨true, payload'⟩) : payload = payload' := by
  have hlisted (bytes : List UInt8) :
      (encode ⟨true, bytes⟩).length = Rlp.listLen bytes.length := by
    rw [encode_list, List.length_append, Rlp.lengthPrefix_length]
    rfl
  have hlisten : Rlp.listLen payload.length = Rlp.listLen payload'.length := by
    rw [← hlisted, ← hlisted, h]
  have hlength := Nat.le_antisymm (Rlp.listLen_le.mp hlisten.le) (Rlp.listLen_le.mp hlisten.ge)
  rw [encode_list, hlength] at h
  exact List.append_cancel_left h

/-- No byte string in the list has bytes behind its transaction. -/
def NoTrailing (bytes : List UInt8) : Prop :=
  ∀ xs rest, (flat xs).length < 256 ^ 8 →
    bytes = encode ⟨true, flat xs⟩ ++ rest → ∀ x ∈ xs, Ends x

/-- What is read from a list is written as this list, if nothing in it was dropped. -/
theorem rewritten_iff (hread : readTxs.run bytes = .ok (txs, rest)) :
    appendTxs txs ++ rest = bytes ↔ NoTrailing bytes := by
  obtain ⟨xs, hlt, hbytes, hforall⟩ := readTxs_iff.mp hread
  obtain ⟨ys, hys, hsmall, hends⟩ := written_all_iff hforall (small_of_flat hlt)
  have hwritten : appendTxs txs = encode ⟨true, flat ys⟩ := by
    rw [hys]
    rfl
  rw [hwritten, hbytes, List.append_left_inj]
  constructor
  · intro hsame xs' rest' hlt' hbytes'
    obtain ⟨hlist, -⟩ := encode_inj hlt hlt' hbytes'
    have hsame' : flat xs = flat xs' := congrArg payload hlist
    obtain rfl := flat_inj_of_eq (small_of_flat hlt) (small_of_flat hlt') hsame'
    exact hends.mp (flat_inj_of_eq hsmall (small_of_flat hlt) (list_payload_inj hsame))
  · intro hnone
    rw [hends.mpr (hnone xs rest hlt rfl)]

/-! ### The codec -/

/-- A transaction is read back from what it is written as, alone and in a list. What is read as a
single transaction is written back as it was, so nothing may be behind it. In a list this holds
exactly when no byte string has anything behind its transaction. -/
theorem pooledTx_codec : (∀ tx, Good tx → decodePooledTx (append tx) = .ok tx) ∧
    (∀ txs rest, (∀ tx ∈ txs, Good tx) → (txs.map element).flatten.length < 256 ^ 8 →
      readTxs.run (appendTxs txs ++ rest) = .ok (txs, rest)) ∧
    (∀ bytes tx, decodePooledTx bytes = .ok tx → append tx = bytes) ∧
    (∀ tx extra, Good tx → extra ≠ [] → ¬ ∃ tx', decodePooledTx (append tx ++ extra) = .ok tx') ∧
    ∀ bytes txs rest, readTxs.run bytes = .ok (txs, rest) →
      (appendTxs txs ++ rest = bytes ↔ NoTrailing bytes) := by
  refine ⟨fun tx hgood => decodePooledTx_iff.mpr ⟨hgood, rfl⟩, ?_,
    fun bytes tx h => (decodePooledTx_iff.mp h).2.symm, ?_,
    fun bytes txs rest => rewritten_iff⟩
  · intro txs rest hgood hlt
    obtain ⟨xs, hxs, hforall⟩ := exists_elements hgood
    rw [← hxs] at hlt
    refine readTxs_iff.mpr ⟨xs, hlt, ?_, hforall⟩
    rw [hxs]
    rfl
  · rintro tx extra hgood hextra ⟨tx', h⟩
    obtain ⟨hgood', hbytes⟩ := decodePooledTx_iff.mp h
    -- both ways to read the bytes are the same
    have hread : (PooledTxs.read).run (append tx ++ extra) = .ok (tx, extra) :=
      read_iff.mpr ⟨hgood, rfl⟩
    rw [read_iff.mpr ⟨hgood', by rw [hbytes, List.append_nil]⟩] at hread
    cases hread
    exact hextra rfl

/-! ### A codec of payloads -/

/-- The number of fields of a transaction. -/
def fieldCount : TxType → Nat
  | .TxLegacy => 9
  | .TxEip2930 => 11
  | .TxEip1559 => 12
  | .TxEip4844 => 14
  | .TxEip7702 => 13

/-- A transaction as its fields, without a look at what they are. -/
structure RawTx where
  ty : TxType
  fields : List RlpItem
  count : fields.length = fieldCount ty
  fits : (flat fields).length < 256 ^ 8

def rawItem (bytes : List UInt8) : Except RlpError (RlpItem × List UInt8) :=
  match readItem bytes with
  | some r => .ok r
  | none => .error (.MalformedRlpError "")

def readRaw (ty : TxType) : ReadM RawTx := do
  let fields ← forItems rawItem noList (fun bytes => rawItem bytes)
  if h : fields.length = fieldCount ty ∧ (flat fields).length < 256 ^ 8 then
    return ⟨ty, fields, h.1, h.2⟩
  else throw (.MalformedRlpError "")

def readRawType : ReadM TxType := do
  match ← get with
  | [] => throw (.MalformedRlpError "")
  | b :: rest =>
    match [TxType.TxEip2930, .TxEip1559, .TxEip4844, .TxEip7702].find? (typeByte · = b) with
    | some ty =>
      set rest
      return ty
    | none => throw (.UnsupportedRlpError "")

/-- Payloads as lists of fields. -/
@[reducible] def rawRlp : EthRlp where
  item := rawItem
  Transaction := RawTx
  txType := RawTx.ty
  appendTxPayload tx := encode ⟨true, flat tx.fields⟩
  readTxType := readRawType
  readTxLegacy := readRaw .TxLegacy
  readTxPayload ty := if ty = .TxLegacy then throw (.UnsupportedRlpError "") else readRaw ty

section

omit [EthRlp] [LawfulEthRlp]

theorem readsItems_rawItem : ReadsItems rawItem := by
  intro bytes x rest
  rw [← readItem_iff]
  unfold rawItem
  cases h : readItem bytes with
  | none => exact iff_of_false nofun nofun
  | some r => rw [Except.ok.injEq, Option.some.injEq]

theorem readRaw_exact (ty : TxType) : Exact (readRaw ty) (fun tx => tx.ty = ty)
    (fun tx => encode ⟨true, flat tx.fields⟩) := by
  intro bytes tx rest
  have hfields {fields : List RlpItem} {mid : List UInt8} :
      (forItems rawItem noList rawItem).run bytes = .ok (fields, mid) ↔
        (flat fields).length < 256 ^ 8 ∧ bytes = encode ⟨true, flat fields⟩ ++ mid := by
    have helement : ∀ x y tail, x.payload.length < 256 ^ 8 →
        ((∃ left, rawItem (x.encode ++ tail) = .ok (y, left)) ↔ x = y) := by
      intro x y tail hx
      rw [(readsItems_rawItem _ _ _).mpr ⟨hx, rfl⟩]
      constructor
      · rintro ⟨left, h⟩
        cases h
        rfl
      · rintro rfl
        exact ⟨tail, rfl⟩
    rw [forItems_iff readsItems_rawItem helement]
    constructor
    · rintro ⟨xs, -, hlt, hbytes, hforall⟩
      rw [List.forall₂_eq_eq_eq] at hforall
      obtain rfl := hforall
      exact ⟨hlt, hbytes⟩
    · rintro ⟨hlt, hbytes⟩
      exact ⟨fields, small_of_flat hlt, hlt, hbytes, by rw [List.forall₂_eq_eq_eq]⟩
  unfold readRaw
  rw [bind_run]
  constructor
  · rintro ⟨fields, mid, hread, h⟩
    obtain ⟨hlt, hbytes⟩ := hfields.mp hread
    split at h
    · obtain ⟨rfl, rfl⟩ := pure_run.mp h
      exact ⟨rfl, hbytes⟩
    · exact absurd h throw_run
  · obtain ⟨ty', fields, hcount, hlt⟩ := tx
    rintro ⟨rfl, hbytes⟩
    refine ⟨fields, rest, hfields.mpr ⟨hlt, hbytes⟩, ?_⟩
    rw [dif_pos ⟨hcount, hlt⟩]
    exact pure_run.mpr ⟨rfl, rfl⟩

theorem lawful_rawRlp : @LawfulEthRlp rawRlp := by
  let _ := rawRlp
  constructor
  · exact readsItems_rawItem
  · intro bytes ty rest h
    have h' : readRawType.run bytes = .ok (ty, rest) := h
    cases bytes with
    | nil => exact nomatch h'
    | cons b bytes =>
      unfold readRawType at h'
      rw [get_bind] at h'
      dsimp only at h'
      split at h'
      · rename_i ty' hfind
        cases h'
        have hb := List.find?_some hfind
        rw [decide_eq_true_eq] at hb
        rw [hb]
      · exact absurd h' throw_run
  · intro ty rest hne
    cases ty with
    | TxLegacy => exact absurd rfl hne
    | TxEip2930 => rfl
    | TxEip1559 => rfl
    | TxEip4844 => rfl
    | TxEip7702 => rfl
  · exact readRaw_exact .TxLegacy
  · intro ty bytes tx rest
    show (if ty = .TxLegacy then throw _ else readRaw ty : ReadM RawTx).run bytes = _ ↔ _
    by_cases hty : ty = .TxLegacy
    · rw [if_pos hty]
      exact iff_of_false throw_run fun h => h.1.1 hty
    · rw [if_neg hty, readRaw_exact ty]
      exact ⟨fun ⟨h, hbytes⟩ => ⟨⟨hty, h⟩, hbytes⟩, fun ⟨⟨_, h⟩, hbytes⟩ => ⟨h, hbytes⟩⟩
  · intro tx
    refine ⟨tx.fields, small_of_flat tx.fits, tx.fits, rfl, fun hty => ?_⟩
    have hty' : tx.ty = .TxEip4844 := hty
    rw [tx.count, hty']
    rfl

end

/-- A transaction with twelve empty fields. -/
def emptyFields : RawTx where
  ty := .TxEip1559
  fields := List.replicate 12 ⟨false, []⟩
  count := rfl
  fits := by decide +kernel

/-- As a list element, with a byte behind it. -/
def trailing : List UInt8 :=
  let _ := rawRlp
  appendList [appendBytes (append ⟨emptyFields, none⟩ ++ [0])]

section

omit [EthRlp] [LawfulEthRlp]

theorem good_emptyFields : @Good rawRlp (@PooledTransaction.mk rawRlp emptyFields none) :=
  let _ := rawRlp
  ⟨fun h => absurd rfl h, fun _ h => nomatch h⟩

theorem pooledTx_codec_emptyFields : let _ := rawRlp
    decodePooledTx (append ⟨emptyFields, none⟩) = .ok ⟨emptyFields, none⟩ ∧
      readTxs.run (appendTxs [⟨emptyFields, none⟩]) = .ok ([⟨emptyFields, none⟩], []) := by
  intro _
  have _ := lawful_rawRlp
  obtain ⟨hsingle, hlist, -⟩ := pooledTx_codec
  refine ⟨hsingle _ good_emptyFields, ?_⟩
  have hrun := hlist [⟨emptyFields, none⟩] [] (List.forall_mem_singleton.mpr good_emptyFields)
    (by decide +kernel)
  rwa [List.append_nil] at hrun

/-- The byte behind a transaction in a list is accepted, and lost. -/
theorem trailing_lost : let _ := rawRlp
    ∃ txs, readTxs.run trailing = .ok (txs, []) ∧ appendTxs txs ≠ trailing := by
  intro _
  have _ := lawful_rawRlp
  refine ⟨[⟨emptyFields, none⟩], readTxs_iff.mpr
    ⟨[⟨false, append ⟨emptyFields, none⟩ ++ [0]⟩], by decide +kernel, ?_, .cons ?_ .nil⟩, ?_⟩
  · decide +kernel
  · exact ⟨[0], readTxTyped_iff.mpr ⟨nofun, good_emptyFields, rfl⟩⟩
  · decide +kernel

end

end Nimbus.Spec.PooledTxs
