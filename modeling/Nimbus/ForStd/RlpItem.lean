import Nimbus.ForStd.Rlp

/-!
# Elements of an encoding

Reading the encoding one element at a time: an element is a byte string or the payload of a
list, whose elements are read when the list is entered. Only the shortest encoding of an element
is read, so that what is read determines the bytes.
-/

namespace Nimbus

namespace Rlp

/-- The number with the given bytes, the highest one first. -/
def ofBigEndian (bytes : List UInt8) : Nat := Nat.ofDigits 256 (bytes.reverse.map UInt8.toNat)

theorem ofBigEndian_bigEndian (n : Nat) : ofBigEndian (bigEndian n) = n := by
  have hbytes : (Nat.digits 256 n).map (UInt8.toNat ∘ UInt8.ofNat) = Nat.digits 256 n := by
    conv_rhs => rw [← List.map_id (Nat.digits 256 n)]
    apply List.map_congr_left
    intro d hd
    have hlt := Nat.digits_lt_base (by decide : 1 < 256) hd
    exact UInt8.toNat_ofNat_of_lt' hlt
  unfold ofBigEndian bigEndian
  rw [List.reverse_reverse, List.map_map, hbytes, Nat.ofDigits_digits]

theorem bigEndian_ofBigEndian {bytes : List UInt8} (h : bytes.head? ≠ some 0) :
    bigEndian (ofBigEndian bytes) = bytes := by
  have hdigits : Nat.digits 256 (ofBigEndian bytes) = bytes.reverse.map UInt8.toNat := by
    apply Nat.digits_ofDigits 256 (by decide)
    · intro d hd
      obtain ⟨b, -, rfl⟩ := List.mem_map.mp hd
      exact b.toNat_lt
    · intro hne
      rw [List.getLast_map, List.getLast_reverse]
      intro h0
      apply h
      have hbytes : bytes ≠ [] := by simpa using hne
      rw [List.head?_eq_some_head hbytes]
      exact congrArg some (UInt8.toNat_inj.mp h0)
  unfold bigEndian
  rw [hdigits, List.map_map]
  have hid : UInt8.ofNat ∘ UInt8.toNat = id := funext fun b => UInt8.ofNat_toNat
  rw [hid, List.map_id, List.reverse_reverse]

theorem bigEndian_head (n : Nat) : (bigEndian n).head? ≠ some 0 := by
  intro h
  unfold bigEndian at h
  rw [List.head?_reverse, List.getLast?_map] at h
  obtain ⟨d, hlast, hd⟩ := Option.map_eq_some_iff.mp h
  have hne : Nat.digits 256 n ≠ [] := by
    rintro h0
    rw [h0] at hlast
    cases hlast
  rw [List.getLast?_eq_some_getLast hne] at hlast
  have hlt : d < 256 := Nat.digits_lt_base (by decide)
    (Option.some.inj hlast ▸ List.getLast_mem hne)
  have hzero : d = 0 := by
    have hnat := congrArg UInt8.toNat hd
    rwa [UInt8.toNat_ofNat_of_lt' hlt] at hnat
  have hn : n ≠ 0 := by
    rintro rfl
    exact hne rfl
  exact Nat.getLast_digit_ne_zero 256 hn ((Option.some.inj hlast).trans hzero)

/-! ### Prefixes -/

/-- The length for the first byte `short + offset` of a prefix. -/
def readLength (offset : Nat) (bytes : List UInt8) : Option (Nat × List UInt8) :=
  if offset ≤ 55 then some (offset, bytes)
  else
    let digits := bytes.take (offset - 55)
    if digits.length = offset - 55 ∧ digits.head? ≠ some 0 ∧ 55 < ofBigEndian digits then
      some (ofBigEndian digits, bytes.drop (offset - 55))
    else none

/-- A length is read from its prefix. -/
theorem readLength_iff {short offset : Nat} {bytes rest : List UInt8} {len : Nat}
    (hshort : short ≤ 192) (hoffset : offset < 64) :
    readLength offset bytes = some (len, rest) ↔ len < 256 ^ 8 ∧
      UInt8.ofNat (short + offset) :: bytes = lengthPrefix short len ++ rest := by
  have hbyte {m n : Nat} (hm : m < 256) (hn : n < 256) (h : UInt8.ofNat m = UInt8.ofNat n) :
      m = n := by
    have hnat := congrArg UInt8.toNat h
    rwa [UInt8.toNat_ofNat_of_lt' hm, UInt8.toNat_ofNat_of_lt' hn] at hnat
  unfold readLength
  constructor
  · intro h
    split at h
    · rename_i hle
      cases h
      refine ⟨by omega, ?_⟩
      unfold lengthPrefix
      rw [if_pos hle]
      rfl
    · dsimp only at h
      split at h
      · rename_i hdigits
        obtain ⟨hlength, hhead, hlong⟩ := hdigits
        cases h
        have hbig := bigEndian_ofBigEndian hhead
        have hcount : byteCount (ofBigEndian (bytes.take (offset - 55))) = offset - 55 := by
          rw [← bigEndian_length, hbig, hlength]
        constructor
        · exact (Nat.digits_length_le_iff (by decide) _).mp (by
            show byteCount _ ≤ 8
            omega)
        · unfold lengthPrefix
          rw [if_neg (by omega), hcount, hbig, show short + 55 + (offset - 55) = short + offset by
            omega, List.cons_append, List.take_append_drop]
      · cases h
  · rintro ⟨hlt, h⟩
    have hcount := byteCount_le hlt
    unfold lengthPrefix at h
    split at h
    · rename_i hle
      injection h with hb hrest
      obtain rfl : offset = len := by
        have := hbyte (by omega) (by omega) hb
        omega
      rw [if_pos hle, hrest]
      rfl
    · injection h with hb hrest
      have hrest : bytes = bigEndian len ++ rest := hrest
      have hoff : offset = 55 + byteCount len := by
        have := hbyte (by omega) (by omega) hb
        omega
      have hpos : 0 < byteCount len := by
        apply List.length_pos_iff.mpr
        exact Nat.digits_ne_nil_iff_ne_zero.mpr (by omega)
      have hdiff : offset - 55 = (bigEndian len).length := by
        rw [bigEndian_length]
        omega
      rw [if_neg (by omega), hrest, hdiff, List.take_left, List.drop_left]
      dsimp only
      rw [ofBigEndian_bigEndian, if_pos ⟨rfl, bigEndian_head len, by omega⟩]

end Rlp

/-! ### Elements -/

/-- A byte string, or the payload of a list. -/
structure RlpItem where
  isList : Bool
  payload : List UInt8

namespace RlpItem

open Rlp

def encode (item : RlpItem) : List UInt8 :=
  if item.isList then lengthPrefix 192 item.payload.length ++ item.payload
  else encodeStr item.payload

/-- The payload behind a prefix of which the first byte is `short + offset`. -/
def readPayload (isList : Bool) (offset : Nat) (bytes : List UInt8) :
    Option (RlpItem × List UInt8) := do
  let (len, bytes) ← readLength offset bytes
  if len ≤ bytes.length then some (⟨isList, bytes.take len⟩, bytes.drop len) else none

/-- A byte string behind its prefix; a small byte has none. -/
def readString (offset : Nat) (bytes : List UInt8) : Option (RlpItem × List UInt8) := do
  let (item, rest) ← readPayload false offset bytes
  match item.payload with
  | [c] => if c.toNat < 128 then none else some (item, rest)
  | _ => some (item, rest)

end RlpItem

/-- The element at the beginning, and what is behind it. -/
def readItem : List UInt8 → Option (RlpItem × List UInt8)
  | [] => none
  | b :: bytes =>
    if b.toNat < 128 then some (⟨false, [b]⟩, bytes)
    else if b.toNat < 192 then RlpItem.readString (b.toNat - 128) bytes
    else RlpItem.readPayload true (b.toNat - 192) bytes

theorem readItem_cons (b : UInt8) (bytes : List UInt8) : readItem (b :: bytes) =
    if b.toNat < 128 then some (⟨false, [b]⟩, bytes)
    else if b.toNat < 192 then RlpItem.readString (b.toNat - 128) bytes
    else RlpItem.readPayload true (b.toNat - 192) bytes := rfl

namespace RlpItem

open Rlp

theorem readPayload_iff {short offset : Nat} {isList : Bool} {bytes rest : List UInt8}
    {item : RlpItem} (hshort : short ≤ 192) (hoffset : offset < 64) :
    readPayload isList offset bytes = some (item, rest) ↔ item.isList = isList ∧
      item.payload.length < 256 ^ 8 ∧ UInt8.ofNat (short + offset) :: bytes =
        lengthPrefix short item.payload.length ++ (item.payload ++ rest) := by
  constructor
  · intro h
    obtain ⟨⟨len, more⟩, hlen, hpayload⟩ := Option.bind_eq_some_iff.mp h
    obtain ⟨hlt, hbytes⟩ := (readLength_iff hshort hoffset).mp hlen
    dsimp only at hpayload
    split at hpayload
    · rename_i hle
      cases hpayload
      have hlength : (more.take len).length = len := List.length_take_of_le hle
      refine ⟨rfl, by rw [hlength]; exact hlt, ?_⟩
      rw [hlength, List.take_append_drop, hbytes]
    · cases hpayload
  · rintro ⟨rfl, hlt, hbytes⟩
    have hlen := (readLength_iff hshort hoffset).mpr ⟨hlt, hbytes⟩
    refine Option.bind_eq_some_iff.mpr ⟨_, hlen, ?_⟩
    dsimp only
    rw [if_pos (by rw [List.length_append]; omega), List.take_left, List.drop_left]

theorem encodeStr_of_not_small {bytes : List UInt8} (h : ∀ c, bytes = [c] → ¬ c.toNat < 128) :
    encodeStr bytes = lengthPrefix 128 bytes.length ++ bytes := by
  match bytes, h with
  | [], _ => rfl
  | [c], h => exact if_neg (h c rfl)
  | _ :: _ :: _, _ => rfl

theorem readString_iff {offset : Nat} {bytes rest : List UInt8} {item : RlpItem}
    (hoffset : offset < 64) : readString offset bytes = some (item, rest) ↔
      (∀ c, item.payload = [c] → ¬ c.toNat < 128) ∧ item.isList = false ∧
      item.payload.length < 256 ^ 8 ∧ UInt8.ofNat (128 + offset) :: bytes =
        lengthPrefix 128 item.payload.length ++ (item.payload ++ rest) := by
  have hread (item : RlpItem) (rest : List UInt8) :=
    @readPayload_iff 128 offset false bytes rest item (by decide) hoffset
  constructor
  · intro h
    obtain ⟨⟨item', rest'⟩, hpayload, hmatch⟩ := Option.bind_eq_some_iff.mp h
    dsimp only at hmatch
    split at hmatch
    · rename_i c hc
      split at hmatch
      · cases hmatch
      · rename_i hge
        cases hmatch
        refine ⟨fun c' hc' => ?_, (hread _ _).mp hpayload⟩
        rw [hc] at hc'
        cases hc'
        exact hge
    · rename_i hne
      cases hmatch
      exact ⟨fun c hc => absurd hc (hne c), (hread _ _).mp hpayload⟩
  · intro ⟨hlarge, hbytes⟩
    refine Option.bind_eq_some_iff.mpr ⟨_, (hread _ _).mpr hbytes, ?_⟩
    dsimp only
    split
    · rename_i c hc
      rw [if_neg (hlarge c hc)]
    · rfl

theorem lengthPrefix_head {len : Nat} (short : Nat) (hlen : len < 256 ^ 8) :
    ∃ offset < 64, ∃ more, lengthPrefix short len = UInt8.ofNat (short + offset) :: more := by
  have hcount := byteCount_le hlen
  unfold lengthPrefix
  split
  · exact ⟨len, by omega, [], rfl⟩
  · exact ⟨55 + byteCount len, by omega, bigEndian len, by rw [Nat.add_assoc]⟩

theorem encode_list (payload : List UInt8) : encode ⟨true, payload⟩ =
    lengthPrefix 192 payload.length ++ payload := rfl

theorem encode_string (payload : List UInt8) : encode ⟨false, payload⟩ = encodeStr payload := rfl

end RlpItem

open RlpItem Rlp in
theorem readItem_iff {bytes rest : List UInt8} {item : RlpItem} :
    readItem bytes = some (item, rest) ↔
      item.payload.length < 256 ^ 8 ∧ bytes = item.encode ++ rest := by
  constructor
  · intro h
    match bytes, h with
    | b :: bytes, h =>
      have hb := b.toNat_lt
      have hfirst {short : Nat} (hge : short ≤ b.toNat) :
          UInt8.ofNat (short + (b.toNat - short)) = b := by
        rw [Nat.add_sub_cancel' hge, UInt8.ofNat_toNat]
      obtain ⟨isList, payload⟩ := item
      rw [readItem_cons] at h
      by_cases hsmall : b.toNat < 128
      · rw [if_pos hsmall] at h
        cases h
        refine ⟨by show 1 < _; decide, ?_⟩
        have hone : encodeStr [b] = [b] := if_pos hsmall
        rw [encode_string, hone]
        rfl
      · rw [if_neg hsmall] at h
        by_cases hstring : b.toNat < 192
        · rw [if_pos hstring, readString_iff (by omega), hfirst (by omega)] at h
          obtain ⟨hlarge, rfl, hlt, hbytes⟩ := h
          refine ⟨hlt, ?_⟩
          rw [hbytes, encode_string, encodeStr_of_not_small hlarge, List.append_assoc]
        · rw [if_neg hstring, readPayload_iff (Nat.le_refl 192) (by omega), hfirst (by omega)] at h
          obtain ⟨rfl, hlt, hbytes⟩ := h
          refine ⟨hlt, ?_⟩
          rw [hbytes, encode_list, List.append_assoc]
  · rintro ⟨hlt, rfl⟩
    obtain ⟨isList, payload⟩ := item
    have hnat {n : Nat} (hn : n < 256) : (UInt8.ofNat n).toNat = n := UInt8.toNat_ofNat_of_lt' hn
    cases isList with
    | true =>
      obtain ⟨offset, hoffset, more, hprefix⟩ := lengthPrefix_head 192 hlt
      have hbytes : encode ⟨true, payload⟩ ++ rest =
          UInt8.ofNat (192 + offset) :: (more ++ (payload ++ rest)) := by
        rw [encode_list, hprefix, List.append_assoc]
        rfl
      rw [hbytes, readItem_cons, hnat (by omega), if_neg (by omega), if_neg (by omega),
        Nat.add_sub_cancel_left, readPayload_iff (Nat.le_refl 192) hoffset, hprefix]
      exact ⟨rfl, hlt, rfl⟩
    | false =>
      by_cases hsmall : ∃ c, payload = [c] ∧ c.toNat < 128
      · obtain ⟨c, rfl, hc⟩ := hsmall
        have hbytes : encode ⟨false, [c]⟩ = [c] := if_pos hc
        rw [hbytes]
        exact if_pos hc
      · have hlarge : ∀ c, payload = [c] → ¬ c.toNat < 128 := fun c hc hlt' =>
          hsmall ⟨c, hc, hlt'⟩
        obtain ⟨offset, hoffset, more, hprefix⟩ := lengthPrefix_head 128 hlt
        have hbytes : encode ⟨false, payload⟩ ++ rest =
            UInt8.ofNat (128 + offset) :: (more ++ (payload ++ rest)) := by
          rw [encode_string, encodeStr_of_not_small hlarge, hprefix, List.append_assoc]
          rfl
        rw [hbytes, readItem_cons, hnat (by omega), if_neg (by omega), if_pos (by omega),
          Nat.add_sub_cancel_left, readString_iff hoffset, hprefix]
        exact ⟨hlarge, rfl, hlt, rfl⟩

theorem RlpItem.encode_ne_nil (x : RlpItem) : x.encode ≠ [] := by
  obtain ⟨isList, payload⟩ := x
  have hprefix (short : Nat) : Rlp.lengthPrefix short payload.length ≠ [] := by
    unfold Rlp.lengthPrefix
    split <;> exact List.cons_ne_nil _ _
  cases isList with
  | true =>
    exact fun h => hprefix 192 (List.append_eq_nil_iff.mp h).1
  | false =>
    rw [encode_string]
    by_cases hsmall : ∃ c, payload = [c] ∧ c.toNat < 128
    · obtain ⟨c, rfl, hc⟩ := hsmall
      have hone : Rlp.encodeStr [c] = [c] := if_pos hc
      rw [hone]
      exact List.cons_ne_nil _ _
    · rw [encodeStr_of_not_small fun c hc hlt => hsmall ⟨c, hc, hlt⟩]
      exact fun h => hprefix 128 (List.append_eq_nil_iff.mp h).1

/-- The first byte tells a list from a byte string. -/
theorem RlpItem.encode_head {x : RlpItem} (hx : x.payload.length < 256 ^ 8) :
    ∃ b more, x.encode = b :: more ∧ (192 ≤ b.toNat ↔ x.isList = true) := by
  obtain ⟨isList, payload⟩ := x
  have hnat {n : Nat} (hn : n < 256) : (UInt8.ofNat n).toNat = n := UInt8.toNat_ofNat_of_lt' hn
  cases isList with
  | true =>
    obtain ⟨offset, hoffset, more, hprefix⟩ := lengthPrefix_head 192 hx
    refine ⟨_, more ++ payload, by rw [encode_list, hprefix]; rfl, ?_⟩
    rw [hnat (by omega)]
    exact iff_of_true (Nat.le_add_right _ _) rfl
  | false =>
    rw [encode_string]
    by_cases hsmall : ∃ c, payload = [c] ∧ c.toNat < 128
    · obtain ⟨c, rfl, hc⟩ := hsmall
      have hone : Rlp.encodeStr [c] = [c] := if_pos hc
      exact ⟨c, [], hone, iff_of_false (by omega) Bool.false_ne_true⟩
    · obtain ⟨offset, hoffset, more, hprefix⟩ := lengthPrefix_head 128 hx
      rw [encodeStr_of_not_small fun c hc hlt => hsmall ⟨c, hc, hlt⟩, hprefix]
      refine ⟨_, more ++ payload, rfl, ?_⟩
      rw [hnat (by omega)]
      exact iff_of_false (by omega) Bool.false_ne_true

/-- The encoding of an element determines where it ends. -/
theorem RlpItem.encode_inj {x y : RlpItem} {xs ys : List UInt8}
    (hx : x.payload.length < 256 ^ 8) (hy : y.payload.length < 256 ^ 8)
    (h : x.encode ++ xs = y.encode ++ ys) : x = y ∧ xs = ys := by
  have hread := readItem_iff.mpr ⟨hx, h.symm⟩
  rw [readItem_iff.mpr ⟨hy, rfl⟩] at hread
  cases hread
  exact ⟨rfl, rfl⟩

end Nimbus
