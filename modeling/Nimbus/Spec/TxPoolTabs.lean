import Nimbus.Native.TxPool

/-!
# The tables of the transaction pool

A transaction is pooled if it is found under its hash. `Wf` says that the tables by hash and
by sender and nonce hold the same transactions, and that the entries of the blob table lead
to pooled ones. Taking a transaction out (`Removed`) and putting one in (`Inserted`) keep
this. What happens to the blobs is left to the library on key indices.
-/

namespace Nimbus.Spec.TxPool

open Nimbus.Native.TxPool
open Nimbus.Native.Aristo (Hash32)
open KeyIndex (Live Complete Dropped)

/-- The blob hashes of a transaction. -/
abbrev hashes (item : TxItem) : List Hash32 := item.tx.versionedHashes

/-- The transactions of the pool. -/
def Pooled (tabs : TxTabs) : Set TxItem := {item | tabs.idTab.lookup item.id = some item}

/-- What is filed under a sender and a nonce. -/
def slot (tabs : TxTabs) (a : Address) (nonce : Nat) : Option TxItem :=
  (tabs.senderTab.lookup a).bind (·.lookup nonce)

/-- The tables fit together. -/
structure Wf (tabs : TxTabs) : Prop where
  id : ∀ id item, tabs.idTab.lookup id = some item → item.id = id
  filed : ∀ item ∈ Pooled tabs, slot tabs item.sender item.nonce = some item
  own : ∀ a nonce item, slot tabs a nonce = some item →
    item.sender = a ∧ item.nonce = nonce ∧ item ∈ Pooled tabs
  live : Live hashes (·.item) (·.blobIndex) (Pooled tabs) tabs.blobTab
  size : Table.len tabs.idTab ≤ MAX_POOL_SIZE
  senderSize : ∀ a sn, tabs.senderTab.lookup a = some sn → Table.len sn ≤ TxTabs.MAX_TXS_PER_ACCOUNT

theorem Wf.empty : Wf {} where
  id id item hlook := by
    cases hlook
  filed item hitem := by
    have hlook : AList.lookup item.id (∅ : Table Hash32 TxItem) = some item := hitem
    cases hlook
  own a nonce item hslot := by
    cases hslot
  live := Live.empty
  size := Nat.zero_le _
  senderSize a sn hlook := by
    cases hlook

variable {tabs tabs' : TxTabs} {item current : TxItem}

theorem Wf.pooled_of_lookup (h : Wf tabs) {id : Hash32} (hlook : tabs.idTab.lookup id = some item) :
    item ∈ Pooled tabs := by
  have hid := h.id id item hlook
  show tabs.idTab.lookup item.id = some item
  rw [hid]
  exact hlook

theorem Wf.eq_of_slot (h : Wf tabs) {x y : TxItem} (hx : x ∈ Pooled tabs) (hy : y ∈ Pooled tabs)
    (hsender : x.sender = y.sender) (hnonce : x.nonce = y.nonce) : x = y := by
  have hfx := h.filed x hx
  have hfy := h.filed y hy
  rw [hsender, hnonce, hfy] at hfx
  exact (Option.some.inj hfx).symm

theorem eq_of_id (tabs : TxTabs) {x y : TxItem} (hx : x ∈ Pooled tabs) (hy : y ∈ Pooled tabs) (hid : x.id = y.id) :
    x = y := by
  have hx' : tabs.idTab.lookup x.id = some x := hx
  have hy' : tabs.idTab.lookup y.id = some y := hy
  rw [hid, hy'] at hx'
  exact (Option.some.inj hx').symm

/-! ## Taking a transaction out -/

/-- `item` has left the tables. -/
structure Removed (tabs tabs' : TxTabs) (item : TxItem) : Prop where
  idTab : tabs'.idTab = tabs.idTab.erase item.id
  blobTab : tabs'.blobTab = removeLookup tabs.blobTab item
  slot : ∀ a nonce, slot tabs' a nonce =
    if a = item.sender ∧ nonce = item.nonce then none else Spec.TxPool.slot tabs a nonce
  senderSize : ∀ a sn', tabs'.senderTab.lookup a = some sn' →
    ∃ sn, tabs.senderTab.lookup a = some sn ∧ Table.len sn' ≤ Table.len sn

namespace Removed

theorem pooled (h : Removed tabs tabs' item) (hitem : item ∈ Pooled tabs) (x : TxItem) :
    x ∈ Pooled tabs' ↔ x ∈ Pooled tabs ∧ x ≠ item := by
  show tabs'.idTab.lookup x.id = some x ↔ tabs.idTab.lookup x.id = some x ∧ x ≠ item
  rw [h.idTab, Table.lookup_erase']
  by_cases hid : x.id = item.id
  · rw [if_pos hid]
    constructor
    · intro hnone
      cases hnone
    · rintro ⟨hx, hne⟩
      exact absurd (eq_of_id tabs hx hitem hid) hne
  · rw [if_neg hid]
    constructor
    · intro hx
      refine ⟨hx, ?_⟩
      rintro rfl
      exact hid rfl
    · exact fun hx => hx.1

theorem wf (h : Removed tabs tabs' item) (hw : Wf tabs) (hitem : item ∈ Pooled tabs) : Wf tabs' where
  id id x hlook := by
    rw [h.idTab, Table.lookup_erase'] at hlook
    split at hlook
    · cases hlook
    · exact hw.id id x hlook
  filed x hx := by
    obtain ⟨hx', hne⟩ := (h.pooled hitem x).mp hx
    rw [h.slot, if_neg]
    · exact hw.filed x hx'
    · rintro ⟨hsender, hnonce⟩
      exact hne (hw.eq_of_slot hx' hitem hsender hnonce)
  own a nonce x hslot := by
    rw [h.slot] at hslot
    split at hslot
    next => cases hslot
    next hne =>
      obtain ⟨hsender, hnonce, hx⟩ := hw.own a nonce x hslot
      refine ⟨hsender, hnonce, (h.pooled hitem x).mpr ⟨hx, ?_⟩⟩
      rintro rfl
      exact hne ⟨hsender.symm, hnonce.symm⟩
  live := by
    rw [h.blobTab]
    apply hw.live.drop
    intro x hx hne
    exact (h.pooled hitem x).mpr ⟨hx, hne⟩
  size := by
    rw [h.idTab]
    exact (Table.len_erase_le _ _).trans hw.size
  senderSize a sn' hlook := by
    obtain ⟨sn, hsn, hle⟩ := h.senderSize a sn' hlook
    exact hle.trans (hw.senderSize a sn hsn)

theorem dropped (h : Removed tabs tabs' item) (hitem : item ∈ Pooled tabs) :
    Dropped hashes (Pooled tabs) (Pooled tabs') tabs.blobTab tabs'.blobTab := by
  rw [h.blobTab]
  exact Dropped.one (h.pooled hitem) hitem

end Removed

/-- Some transactions have left the tables. -/
structure Shrunk (tabs tabs' : TxTabs) : Prop where
  wf : Wf tabs'
  dropped : Dropped hashes (Pooled tabs) (Pooled tabs') tabs.blobTab tabs'.blobTab

namespace Shrunk

theorem refl (h : Wf tabs) : Shrunk tabs tabs := ⟨h, .refl _ _⟩

theorem trans {tabs'' : TxTabs} (h : Shrunk tabs tabs') (h' : Shrunk tabs' tabs'') :
    Shrunk tabs tabs'' := ⟨h'.wf, h.dropped.trans h'.dropped⟩

theorem subset (h : Shrunk tabs tabs') {x : TxItem} (hx : x ∈ Pooled tabs') : x ∈ Pooled tabs :=
  h.dropped.subset x hx

end Shrunk

theorem Removed.shrunk (h : Removed tabs tabs' item) (hw : Wf tabs) (hitem : item ∈ Pooled tabs) :
    Shrunk tabs tabs' := ⟨h.wf hw hitem, h.dropped hitem⟩

/-! ## Putting a transaction in -/

/-- `item` has come in, in the place of `old` if there is one. -/
structure Inserted (tabs tabs' : TxTabs) (item : TxItem) (old : Option TxItem) : Prop where
  current : slot tabs item.sender item.nonce = old
  id : ∀ id, tabs'.idTab.lookup id = if id = item.id then some item
    else if ∃ x, old = some x ∧ x.id = id then none else tabs.idTab.lookup id
  blobTab : tabs'.blobTab =
    addLookup (old.elim tabs.blobTab fun x => removeLookup tabs.blobTab x) item
  slot : ∀ a nonce, slot tabs' a nonce =
    if a = item.sender ∧ nonce = item.nonce then some item else Spec.TxPool.slot tabs a nonce
  size : Table.len tabs'.idTab ≤ Table.len tabs.idTab + 1
  senderSize : ∀ a sn', tabs'.senderTab.lookup a = some sn' →
    Table.len sn' ≤ TxTabs.MAX_TXS_PER_ACCOUNT

namespace Inserted

variable {old : Option TxItem}

section

variable (h : Inserted tabs tabs' item old) (hw : Wf tabs) (hnew : tabs.idTab.lookup item.id = none)
include h hw hnew

theorem pooled (x : TxItem) : x ∈ Pooled tabs' ↔ x = item ∨ x ∈ Pooled tabs ∧ old ≠ some x := by
  show tabs'.idTab.lookup x.id = some x ↔ x = item ∨ tabs.idTab.lookup x.id = some x ∧ old ≠ some x
  rw [h.id]
  by_cases hid : x.id = item.id
  · rw [hid, hnew]
    simp [eq_comm]
  · have hne : x ≠ item := by
      rintro rfl
      exact hid rfl
    rw [if_neg hid, or_iff_right hne]
    split
    next hex =>
      obtain ⟨y, hy, hyid⟩ := hex
      simp only [reduceCtorEq, false_iff, not_and, not_not]
      intro hx
      have hyin := (hw.own _ _ y (h.current.trans hy)).2.2
      rw [hy, eq_of_id tabs hyin hx hyid]
    next hno =>
      constructor
      · intro hx
        refine ⟨hx, ?_⟩
        rintro rfl
        exact hno ⟨x, rfl, rfl⟩
      · exact fun hx => hx.1

theorem wf (hroom : Table.len tabs.idTab < MAX_POOL_SIZE) : Wf tabs' where
  id id x hlook := by
    rw [h.id] at hlook
    split at hlook
    next heq =>
      cases hlook
      exact heq.symm
    next =>
      split at hlook
      · cases hlook
      · exact hw.id id x hlook
  filed x hx := by
    rw [h.slot]
    obtain rfl | ⟨hx', hold⟩ := (h.pooled hw hnew x).mp hx
    · rw [if_pos ⟨rfl, rfl⟩]
    · rw [if_neg]
      · exact hw.filed x hx'
      · rintro ⟨hsender, hnonce⟩
        apply hold
        rw [← h.current, ← hsender, ← hnonce]
        exact hw.filed x hx'
  own a nonce x hslot := by
    rw [h.slot] at hslot
    split at hslot
    next heq =>
      obtain rfl := Option.some.inj hslot
      exact ⟨heq.1.symm, heq.2.symm, (h.pooled hw hnew item).mpr (.inl rfl)⟩
    next hne =>
      obtain ⟨hsender, hnonce, hx⟩ := hw.own a nonce x hslot
      refine ⟨hsender, hnonce, (h.pooled hw hnew x).mpr (.inr ⟨hx, ?_⟩)⟩
      rintro rfl
      obtain ⟨hs, hn, -⟩ := hw.own _ _ x h.current
      exact hne ⟨hsender.symm.trans hs, hnonce.symm.trans hn⟩
  live := by
    rw [h.blobTab]
    have hmid : Live hashes (·.item) (·.blobIndex) {x | x ∈ Pooled tabs ∧ old ≠ some x}
        (old.elim tabs.blobTab fun x => removeLookup tabs.blobTab x) := by
      cases old with
      | none => exact fun k e hlook => ⟨⟨(hw.live k e hlook).1, by simp⟩, (hw.live k e hlook).2⟩
      | some x =>
        apply hw.live.drop
        intro n hn hne
        exact ⟨hn, fun heq => hne (Option.some.inj heq).symm⟩
    apply hmid.add
    · exact fun _ => rfl
    · exact fun _ => rfl
    · exact (h.pooled hw hnew item).mpr (.inl rfl)
    · exact fun n hn => (h.pooled hw hnew n).mpr (.inr hn)
  size := by
    have hsize := h.size
    omega
  senderSize := h.senderSize

/-- The blobs of all transactions are found, if those of the one that was replaced do not
matter to any other one. -/
theorem complete (hc : Complete hashes (Pooled tabs) tabs.blobTab)
    (hshare : ∀ x, old = some x → ∀ y ∈ Pooled tabs, y ≠ x →
      ∀ v ∈ hashes x, v ∈ hashes y → v ∈ hashes item) :
    Complete hashes (Pooled tabs') tabs'.blobTab := by
  rw [h.blobTab]
  have hstay : ∀ y ∈ {x | x ∈ Pooled tabs ∧ old ≠ some x}, ∀ v ∈ hashes y, v ∈ hashes item ∨
      ∃ e, (old.elim tabs.blobTab fun x => removeLookup tabs.blobTab x).lookup v = some e := by
    rintro y ⟨hy, hne⟩ v hv
    cases old with
    | none => exact .inr (hc y hy v hv)
    | some x =>
      have hyx : y ≠ x := fun heq => hne (congrArg some heq.symm)
      by_cases hvx : v ∈ hashes x
      · exact .inl (hshare x rfl y hy hyx v hvx hv)
      · obtain ⟨e, he⟩ := hc y hy v hv
        refine .inr ⟨e, ?_⟩
        show (KeyIndex.eraseKeys tabs.blobTab (hashes x)).lookup v = some e
        rw [KeyIndex.lookup_eraseKeys, if_neg hvx]
        exact he
  exact Complete.add hstay (fun y hy => (h.pooled hw hnew y).mp hy) _

end

end Inserted

/-! ## The operations -/

theorem slot_erase (tabs : TxTabs) (sn : SenderNonceList) {a : Address} (nonce : Nat)
    (hsn : tabs.senderTab.lookup a = some sn)
    (hsame : ∀ b, b ≠ a → tabs'.senderTab.lookup b = tabs.senderTab.lookup b)
    (hnew : (tabs'.senderTab.lookup a).bind (·.lookup nonce) = (sn.erase item.nonce).lookup nonce)
    (b : Address) : slot tabs' b nonce =
      if b = a ∧ nonce = item.nonce then none else slot tabs b nonce := by
  unfold slot
  by_cases hb : b = a
  · subst hb
    rw [hnew, Table.lookup_erase', hsn]
    simp
  · rw [hsame b hb, if_neg fun h => hb h.1]

theorem removeFromSenderTab_spec (hslot : slot tabs item.sender item.nonce = some item) :
    Removed tabs
      { tabs.removeFromSenderTab item with
        idTab := tabs.idTab.erase item.id
        blobTab := removeLookup tabs.blobTab item } item := by
  cases hlook : tabs.senderTab.lookup item.sender with
  | none =>
    unfold slot at hslot
    rw [hlook] at hslot
    cases hslot
  | some sn =>
    have hle : Table.len (sn.erase item.nonce) ≤ Table.len sn := Table.len_erase_le sn item.nonce
    unfold TxTabs.removeFromSenderTab
    rw [hlook]
    dsimp only
    split
    next hzero =>
      -- the last one of its sender
      refine ⟨rfl, rfl, fun a nonce => ?_, fun a sn' hsn' => ?_⟩
      · apply slot_erase tabs sn nonce hlook
        · intro b hb
          rw [Table.lookup_erase', if_neg hb]
        · rw [Table.lookup_erase', if_pos rfl, Table.len_eq_zero_iff.mp hzero]
          rfl
      · rw [Table.lookup_erase'] at hsn'
        split at hsn'
        · cases hsn'
        · exact ⟨sn', hsn', le_refl _⟩
    next =>
      refine ⟨rfl, rfl, fun a nonce => ?_, fun a sn' hsn' => ?_⟩
      · apply slot_erase tabs sn nonce hlook
        · intro b hb
          rw [Table.lookup_insert', if_neg hb]
        · rw [Table.lookup_insert', if_pos rfl]
          rfl
      · rw [Table.lookup_insert'] at hsn'
        split at hsn'
        next ha =>
          cases hsn'
          exact ⟨sn, ha ▸ hlook, hle⟩
        next => exact ⟨sn', hsn', le_refl _⟩

theorem dropItem_spec (hslot : slot tabs item.sender item.nonce = some item) :
    Removed tabs (tabs.dropItem item.sender item) item := by
  cases hlook : tabs.senderTab.lookup item.sender with
  | none =>
    unfold slot at hslot
    rw [hlook] at hslot
    cases hslot
  | some sn =>
    refine ⟨rfl, rfl, fun a nonce => ?_, fun a sn' hsn' => ?_⟩
    · apply slot_erase tabs sn nonce hlook
      · intro b hb
        show (tabs.senderTab.modify item.sender _).lookup b = _
        rw [Table.lookup_modify, if_neg hb]
      · show ((tabs.senderTab.modify item.sender _).lookup item.sender).bind _ = _
        rw [Table.lookup_modify, if_pos rfl, hlook]
        rfl
    · have hmod : (tabs.senderTab.modify item.sender (·.erase item.nonce)).lookup a = some sn' := hsn'
      rw [Table.lookup_modify] at hmod
      split at hmod
      next ha =>
        rw [hlook] at hmod
        cases hmod
        exact ⟨sn, ha ▸ hlook, Table.len_erase_le sn item.nonce⟩
      next => exact ⟨sn', hmod, le_refl _⟩

theorem slot_insert {sn : SenderNonceList}
    (hnew : tabs'.senderTab = tabs.senderTab.insert item.sender (sn.insert item.nonce item))
    (hold : ∀ nonce, sn.lookup nonce = slot tabs item.sender nonce) (a : Address) (nonce : Nat) :
    slot tabs' a nonce =
      if a = item.sender ∧ nonce = item.nonce then some item else slot tabs a nonce := by
  unfold slot at hold ⊢
  rw [hnew, Table.lookup_insert']
  by_cases ha : a = item.sender
  · subst ha
    rw [if_pos rfl, Option.bind_some, Table.lookup_insert', hold]
    simp
  · rw [if_neg ha, if_neg fun h => ha h.1]

/-- What `addTx` does with an item that is let in. -/
def fileItem (tabs : TxTabs) (item : TxItem) : TxTabs :=
  { tabs with
    idTab := tabs.idTab.insert item.id item
    blobTab := addLookup tabs.blobTab item }

theorem insertToSenderTab_spec (hw : Wf tabs) (hnew : tabs.idTab.lookup item.id = none)
    (h : tabs.insertToSenderTab item = .ok tabs') :
    Inserted tabs (fileItem tabs' item) item (slot tabs item.sender item.nonce) := by
  have hnone : ∀ id, (tabs.idTab.insert item.id item).lookup id = if id = item.id then some item
      else if ∃ x, (none : Option TxItem) = some x ∧ x.id = id then none
      else tabs.idTab.lookup id := by
    intro id
    rw [Table.lookup_insert']
    simp
  have hlen : Table.len (tabs.idTab.insert item.id item) ≤ Table.len tabs.idTab + 1 :=
    (Table.len_insert_of_none hnew).le
  have hsizes : ∀ sn : SenderNonceList, Table.len sn ≤ TxTabs.MAX_TXS_PER_ACCOUNT →
      ∀ a sn', (tabs.senderTab.insert item.sender sn).lookup a = some sn' →
        Table.len sn' ≤ TxTabs.MAX_TXS_PER_ACCOUNT := by
    intro sn hsn a sn' hlook
    rw [Table.lookup_insert'] at hlook
    split at hlook
    · cases hlook
      exact hsn
    · exact hw.senderSize a sn' hlook
  unfold TxTabs.insertToSenderTab at h
  split at h
  next hsender =>
    cases h
    have hold : ∀ nonce, slot tabs item.sender nonce = none := by
      intro nonce
      unfold slot
      rw [hsender]
      rfl
    rw [hold]
    refine ⟨hold _, hnone, rfl, ?_, hlen, hsizes _ ?_⟩
    · have hempty : ∀ nonce, (∅ : SenderNonceList).lookup nonce = slot tabs item.sender nonce :=
        fun nonce => (AList.lookup_empty nonce).trans (hold nonce).symm
      exact slot_insert rfl hempty
    · show 1 ≤ 2048
      decide
  next sn hsender =>
    have hold : ∀ nonce, sn.lookup nonce = slot tabs item.sender nonce := by
      intro nonce
      unfold slot
      rw [hsender]
      rfl
    split at h
    next hcur =>
      split at h
      · cases h
      next hroom =>
        cases h
        rw [← hold, hcur]
        refine ⟨(hold _).symm.trans hcur, hnone, rfl, slot_insert rfl hold, hlen, hsizes _ ?_⟩
        rw [Table.len_insert_of_none hcur]
        omega
    next current hcur =>
      split at h
      · cases h
      · cases h
        rw [← hold, hcur]
        refine ⟨(hold _).symm.trans hcur, ?_, rfl, slot_insert rfl hold, ?_, hsizes _ ?_⟩
        · intro id
          show ((tabs.idTab.erase current.id).insert item.id item).lookup id = _
          rw [Table.lookup_insert', Table.lookup_erase']
          simp [eq_comm]
        · show Table.len ((tabs.idTab.erase current.id).insert item.id item) ≤ _
          have hnone' : (tabs.idTab.erase current.id).lookup item.id = none := by
            rw [Table.lookup_erase', hnew]
            split <;> rfl
          rw [Table.len_insert_of_none hnone']
          exact Nat.add_le_add_right (Table.len_erase_le _ _) 1
        · rw [Table.len_insert_of_some hcur]
          exact hw.senderSize _ sn hsender

end Nimbus.Spec.TxPool
