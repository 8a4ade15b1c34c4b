import Mathlib.Algebra.Order.BigOperators.Group.List
import Mathlib.Algebra.Order.Ring.Nat
import Nimbus.Spec.TxPoolTabs

/-!
# The walk by price

While a block is packed, transactions leave the pool for two reasons. The nonce of the
account has gone past theirs, or their blobs are wrapped in a way that is over since Osaka.
The walk itself comes to an end by the length of the lists it goes through.
-/

namespace Nimbus.Spec.TxPool

open Nimbus.Native.TxPool
open Nimbus.Native.Evm (EVMFork)
open TxPoolRef

variable {tabs tabs' tabs'' : TxTabs} {item : TxItem} {fork : EVMFork} {baseFee nonce : Nat}

/-- Wrapped as before Osaka, and Osaka is there. -/
def Outdated (fork : EVMFork) (item : TxItem) : Prop :=
  item.wrapperVersion = some .WrapperVersionEIP4844 ∧ .FkOsaka ≤ fork

/-- Some transactions have left the tables, for the reason `why`. -/
structure Left (why : TxItem → Prop) (tabs tabs' : TxTabs) : Prop where
  shrunk : Shrunk tabs tabs'
  why : ∀ x ∈ Pooled tabs, x ∉ Pooled tabs' → why x

namespace Left

variable {why why' : TxItem → Prop}

theorem refl (h : Wf tabs) : Left why tabs tabs := ⟨.refl h, fun _ hx hno => absurd hx hno⟩

theorem trans (h : Left why tabs tabs') (h' : Left why tabs' tabs'') : Left why tabs tabs'' where
  shrunk := h.shrunk.trans h'.shrunk
  why x hx hno := by
    by_cases hx' : x ∈ Pooled tabs'
    · exact h'.why x hx' hno
    · exact h.why x hx hx'

theorem mono (h : Left why tabs tabs') (himp : ∀ x, why x → why' x) : Left why' tabs tabs' :=
  ⟨h.shrunk, fun x hx hno => himp x (h.why x hx hno)⟩

theorem drop (hw : Wf tabs) {a : Address} {nonce : Nat}
    (hslot : slot tabs a nonce = some item) (hwhy : why item) : Left why tabs (tabs.dropItem a item) := by
  obtain ⟨rfl, rfl, hitem⟩ := hw.own a nonce item hslot
  have hrem := dropItem_spec hslot
  refine ⟨hrem.shrunk hw hitem, fun x hx hno => ?_⟩
  have hx' : x = item := by
    by_contra hne
    exact hno ((hrem.pooled hitem x).mpr ⟨hx, hne⟩)
  rw [hx']
  exact hwhy

end Left

/-! ## Heads of accounts -/

theorem validBlobItem_spec (fork : EVMFork) (hw : Wf tabs) {a : Address}
    (hslot : slot tabs a nonce = some item) :
    Left (Outdated fork) tabs (tabs.validBlobItem a item fork).1 := by
  unfold TxTabs.validBlobItem
  split
  · exact .refl hw
  · split
    · exact .refl hw
    · split
      next hver =>
        split
        next hfork => exact .drop hw hslot ⟨hver, hfork⟩
        next => exact .refl hw
      · split
        · exact .refl hw
        · exact .refl hw

theorem getHeadAndPushTo_spec (fork : EVMFork) (hw : Wf tabs) (a : Address)
    (byPrice : List TxItem) (nonce : Nat) :
    Left (Outdated fork) tabs (tabs.getHeadAndPushTo a byPrice nonce fork).1 := by
  unfold TxTabs.getHeadAndPushTo
  split
  · exact .refl hw
  next item hslot =>
    have hvalid := validBlobItem_spec fork hw hslot
    generalize tabs.validBlobItem a item fork = res at hvalid
    obtain ⟨tabs', valid⟩ := res
    cases valid with
    | true => exact hvalid
    | false => exact hvalid

theorem lt_none {sn : SenderNonceList} (h : sn.lt nonce = none) {n : Nat}
    (hn : n < nonce) : sn.lookup n = none := by
  by_contra hne
  obtain ⟨item, hitem⟩ := Option.ne_none_iff_exists'.mp hne
  have hmem : Sigma.mk n item ∈ sn.entries := AList.mem_lookup_iff.mp hitem
  have hkey : n ∈ (sn.entries.map (·.1)).filter (· < nonce) := by
    rw [List.mem_filter, List.mem_map]
    exact ⟨⟨_, hmem, rfl⟩, decide_eq_true hn⟩
  unfold SenderNonceList.lt at h
  cases hmax : ((sn.entries.map (·.1)).filter (· < nonce)).max? with
  | none =>
    rw [List.max?_eq_none_iff] at hmax
    rw [hmax] at hkey
    cases hkey
  | some top =>
    have htop := List.max?_mem hmax
    rw [List.mem_filter, List.mem_map] at htop
    obtain ⟨⟨⟨key, value⟩, hent, rfl⟩, -⟩ := htop
    rw [hmax, Option.bind_some, AList.mem_lookup_iff.mpr hent] at h
    cases h

theorem lt_some {sn : SenderNonceList} (h : sn.lt nonce = some item) :
    ∃ n, n < nonce ∧ sn.lookup n = some item := by
  obtain ⟨top, hmax, hlook⟩ := Option.bind_eq_some_iff.mp h
  have htop := List.max?_mem hmax
  rw [List.mem_filter] at htop
  exact ⟨top, of_decide_eq_true htop.2, hlook⟩

/-- The list of a sender. -/
def listOf (tabs : TxTabs) (a : Address) : SenderNonceList :=
  (tabs.senderTab.lookup a).getD ∅

theorem slot_eq (tabs : TxTabs) (a : Address) (nonce : Nat) :
    slot tabs a nonce = (listOf tabs a).lookup nonce := by
  unfold slot listOf
  cases tabs.senderTab.lookup a with
  | none => simp
  | some sn => rfl

theorem listOf_dropItem (tabs : TxTabs) (a b : Address) (item : TxItem) :
    listOf (tabs.dropItem a item) b =
      if b = a then (listOf tabs a).erase item.nonce else listOf tabs b := by
  show ((tabs.senderTab.modify a (·.erase item.nonce)).lookup b).getD ∅ = _
  rw [Table.lookup_modify]
  unfold listOf
  split
  · cases tabs.senderTab.lookup a with
    | none => rfl
    | some sn => rfl
  · rfl

theorem dropStale_spec (hw : Wf tabs) (a : Address) (nonce fuel : Nat)
    (hfuel : Table.len (listOf tabs a) ≤ fuel) :
    Left (fun x => x.sender = a ∧ x.nonce < nonce) tabs (TxTabs.dropStale a nonce fuel tabs) ∧
      ∀ y ∈ Pooled (TxTabs.dropStale a nonce fuel tabs), y.sender = a → nonce ≤ y.nonce := by
  -- once the list has no lower nonce, none of its sender's transactions is stale
  have hdone : ∀ {tabs : TxTabs}, Wf tabs → (∀ n, n < nonce → slot tabs a n = none) →
      ∀ y ∈ Pooled tabs, y.sender = a → nonce ≤ y.nonce := by
    intro tabs hw hnone y hy hsender
    by_contra hlt
    have hslot := hw.filed y hy
    rw [hsender, hnone _ (not_le.mp hlt)] at hslot
    cases hslot
  induction fuel generalizing tabs with
  | zero =>
    have hempty := Table.len_eq_zero_iff.mp (Nat.le_zero.mp hfuel)
    refine ⟨.refl hw, hdone hw fun n _ => ?_⟩
    rw [slot_eq]
    exact hempty n
  | succ fuel ih =>
    unfold TxTabs.dropStale
    split
    next hnone =>
      refine ⟨.refl hw, hdone hw fun n hn => ?_⟩
      unfold slot
      cases hlook : tabs.senderTab.lookup a with
      | none => rfl
      | some sn =>
        rw [hlook] at hnone
        exact lt_none hnone hn
    next item hlt =>
      obtain ⟨sn, hsn, hitem⟩ := Option.bind_eq_some_iff.mp hlt
      obtain ⟨n, hn, hlook⟩ := lt_some hitem
      have hslot : slot tabs a n = some item := by
        unfold slot
        rw [hsn]
        exact hlook
      obtain ⟨hsender, hnonce, -⟩ := hw.own a n item hslot
      have hleft : Left (fun x => x.sender = a ∧ x.nonce < nonce) tabs (tabs.dropItem a item) :=
        .drop hw hslot ⟨hsender, hnonce ▸ hn⟩
      have hlen : Table.len (listOf (tabs.dropItem a item) a) ≤ fuel := by
        rw [listOf_dropItem, if_pos rfl]
        rw [slot_eq, ← hnonce] at hslot
        have hlen := Table.len_erase hslot
        omega
      obtain ⟨hrest, hnone⟩ := ih hleft.shrunk.wf hlen
      exact ⟨hleft.trans hrest, hnone⟩

section
variable [TxVm]

/-- The nonce of the account has gone past that of the transaction. -/
def Stale (ledger : TxVm.Ledger) (item : TxItem) : Prop :=
  item.nonce < TxVm.getNonce ledger item.sender

theorem heads_spec (hw : Wf tabs) (ledger : TxVm.Ledger) (fork : EVMFork) :
    Left (fun x => Stale ledger x ∨ Outdated fork x) tabs (heads tabs ledger fork).1 ∧
      ∀ y ∈ Pooled (heads tabs ledger fork).1, ¬ Stale ledger y := by
  let visit : TxTabs × List TxItem → Address → TxTabs × List TxItem :=
    fun found a =>
      let nonce := TxVm.getNonce ledger a
      let fuel := Table.len ((found.1.senderTab.lookup a).getD ∅)
      (found.1.dropStale a nonce fuel).getHeadAndPushTo a found.2 nonce fork
  -- no stale transaction is left of the senders that were visited
  have hvisits : ∀ (keys : List Address) (tabs : TxTabs) (byPrice : List TxItem),
      Wf tabs → Left (fun x => Stale ledger x ∨ Outdated fork x) tabs
        (keys.foldl visit (tabs, byPrice)).1 ∧
      ∀ y ∈ Pooled (keys.foldl visit (tabs, byPrice)).1, y.sender ∈ keys → ¬ Stale ledger y := by
    intro keys
    induction keys with
    | nil => exact fun tabs byPrice hw => ⟨.refl hw, fun y _ hy => by cases hy⟩
    | cons a keys ih =>
      intro tabs byPrice hw
      obtain ⟨hstale, hnone⟩ := dropStale_spec hw a (TxVm.getNonce ledger a) _ (le_refl _)
      have hhead := getHeadAndPushTo_spec fork hstale.shrunk.wf a byPrice
        (TxVm.getNonce ledger a)
      have hvisit : Left (fun x => Stale ledger x ∨ Outdated fork x) tabs (visit (tabs, byPrice) a).1 := by
        refine (hstale.mono fun x hx => .inl ?_).trans (hhead.mono fun x => .inr)
        show x.nonce < TxVm.getNonce ledger x.sender
        rw [hx.1]
        exact hx.2
      obtain ⟨hrest, hrestNone⟩ := ih (visit (tabs, byPrice) a).1 (visit (tabs, byPrice) a).2
        hvisit.shrunk.wf
      refine ⟨hvisit.trans hrest, fun y hy hsender => ?_⟩
      obtain rfl | hsender := List.mem_cons.mp hsender
      · have hy' := hhead.shrunk.subset (hrest.shrunk.subset hy)
        exact not_lt.mpr (hnone y hy' rfl)
      · exact hrestNone y hy hsender
  obtain ⟨hleft, hnone⟩ := hvisits tabs.senderTab.keys tabs [] hw
  refine ⟨hleft, fun y hy => hnone y hy ?_⟩
  -- each sender of a transaction has a list
  have hfiled := hw.filed y (hleft.shrunk.subset hy)
  obtain ⟨sn, hsn, -⟩ := Option.bind_eq_some_iff.mp hfiled
  exact AList.mem_keys.mp (AList.lookup_isSome.mp (by rw [hsn]; rfl))

theorem packByPrice_spec (fork : EVMFork) (hw : Wf tabs) (baseFee : Nat) (fuel : Nat) (ledger : TxVm.Ledger)
    (byPrice : List TxItem) :
    Left (Outdated fork) tabs (packByPrice baseFee fork fuel tabs ledger byPrice).1 := by
  induction fuel generalizing tabs ledger byPrice with
  | zero => exact .refl hw
  | succ fuel ih =>
    unfold packByPrice
    split
    · exact .refl hw
    next best byPrice' _ =>
      split
      · exact .refl hw
      next ledger' _ =>
        dsimp only
        split
        · have hhead := getHeadAndPushTo_spec fork hw best.sender byPrice'
            (TxVm.getNonce ledger' best.sender)
          exact hhead.trans (ih hhead.shrunk.wf ledger' _)
        · exact ih hw ledger' byPrice'

end

/-! ## The walk comes to an end -/

/-- How many items of the sender `a` have a nonce above the given one. -/
def above (tabs : TxTabs) (a : Address) (nonce : Nat) : Nat :=
  ((listOf tabs a).entries.filter (nonce < ·.1)).length

/-- How many items the walk may still come to. -/
def height (tabs : TxTabs) (byPrice : List TxItem) : Nat :=
  (byPrice.map fun item => 1 + above tabs item.sender item.nonce).sum

/-- The lists of the senders have become shorter, if anything. -/
structure Lower (tabs tabs' : TxTabs) : Prop where
  above : ∀ a nonce, above tabs' a nonce ≤ Spec.TxPool.above tabs a nonce
  len : ∀ a, Table.len (listOf tabs' a) ≤ Table.len (listOf tabs a)

namespace Lower

theorem refl (tabs : TxTabs) : Lower tabs tabs := ⟨fun _ _ => le_refl _, fun _ => le_refl _⟩

theorem trans (h : Lower tabs tabs') (h' : Lower tabs' tabs'') : Lower tabs tabs'' :=
  ⟨fun a nonce => (h'.above a nonce).trans (h.above a nonce), fun a => (h'.len a).trans (h.len a)⟩

theorem dropItem (tabs : TxTabs) (a : Address) (item : TxItem) : Lower tabs (tabs.dropItem a item) where
  above b nonce := by
    unfold Spec.TxPool.above
    rw [listOf_dropItem]
    split
    next hb =>
      rw [hb]
      exact ((List.kerase_sublist item.nonce _).filter _).length_le
    next => exact le_refl _
  len b := by
    rw [listOf_dropItem]
    split
    next hb =>
      rw [hb]
      exact Table.len_erase_le _ _
    next => exact le_refl _

theorem height (h : Lower tabs tabs') (byPrice : List TxItem) :
    height tabs' byPrice ≤ Spec.TxPool.height tabs byPrice := by
  apply List.sum_le_sum
  intro item _
  exact Nat.add_le_add_left (h.above item.sender item.nonce) 1

theorem dropStale (a : Address) (nonce fuel : Nat) (tabs : TxTabs) :
    Lower tabs (TxTabs.dropStale a nonce fuel tabs) := by
  induction fuel generalizing tabs with
  | zero => exact .refl tabs
  | succ fuel ih =>
    unfold TxTabs.dropStale
    split
    · exact .refl tabs
    · exact (Lower.dropItem tabs a _).trans (ih _)

theorem validBlobItem (tabs : TxTabs) (a : Address) (item : TxItem) (fork : EVMFork) :
    Lower tabs (tabs.validBlobItem a item fork).1 := by
  unfold TxTabs.validBlobItem
  split
  · exact .refl tabs
  · split
    · exact .refl tabs
    · split
      · split
        · exact .dropItem tabs a item
        · exact .refl tabs
      · split
        · exact .refl tabs
        · exact .refl tabs

end Lower

theorem above_lt {a : Address} {nonce n : Nat} (hslot : slot tabs a n = some item) (hn : nonce < n) :
    above tabs a n + 1 ≤ above tabs a nonce := by
  rw [slot_eq] at hslot
  have hmem : Sigma.mk n item ∈ (listOf tabs a).entries := AList.mem_lookup_iff.mp hslot
  -- the item at `n` itself no longer counts
  have hmem' : Sigma.mk n item ∈ (listOf tabs a).entries.filter (nonce < ·.1) :=
    List.mem_filter.mpr ⟨hmem, decide_eq_true hn⟩
  have hsub : ((listOf tabs a).entries.filter (nonce < ·.1)).filter (n < ·.1) =
      (listOf tabs a).entries.filter (n < ·.1) := by
    rw [List.filter_filter]
    apply List.filter_congr
    intro e _
    have himp : n < e.1 → nonce < e.1 := hn.trans
    by_cases he : n < e.1
    · simp [he, himp he]
    · simp [he]
  show ((listOf tabs a).entries.filter (n < ·.1)).length + 1 ≤
    ((listOf tabs a).entries.filter (nonce < ·.1)).length
  rw [← hsub]
  exact List.length_filter_lt_length_iff_exists.mpr ⟨_, hmem', by simp⟩

theorem above_lt_len {a : Address} (hslot : slot tabs a nonce = some item) :
    above tabs a nonce < Table.len (listOf tabs a) := by
  rw [slot_eq] at hslot
  have hmem : Sigma.mk nonce item ∈ (listOf tabs a).entries := AList.mem_lookup_iff.mp hslot
  exact List.length_filter_lt_length_iff_exists.mpr ⟨_, hmem, by simp⟩

/-- What getting to the nonce `nonce` of the sender `a` adds. -/
theorem getHeadAndPushTo_height (fork : EVMFork) (hw : Wf tabs) (a : Address)
    (byPrice : List TxItem) (nonce : Nat) :
    Lower tabs (tabs.getHeadAndPushTo a byPrice nonce fork).1 ∧
      (height (tabs.getHeadAndPushTo a byPrice nonce fork).1
          (tabs.getHeadAndPushTo a byPrice nonce fork).2 ≤ height tabs byPrice ∨
        ∃ item, slot tabs a nonce = some item ∧
          height (tabs.getHeadAndPushTo a byPrice nonce fork).1
            (tabs.getHeadAndPushTo a byPrice nonce fork).2 ≤
              height tabs byPrice + (1 + above tabs a nonce)) := by
  unfold TxTabs.getHeadAndPushTo
  split
  · exact ⟨.refl tabs, .inl (le_refl _)⟩
  next item hslot =>
    have hlower := Lower.validBlobItem tabs a item fork
    obtain ⟨rfl, rfl, -⟩ := hw.own a nonce item hslot
    generalize tabs.validBlobItem item.sender item fork = res at hlower
    obtain ⟨tabs', valid⟩ := res
    dsimp only at hlower
    have hle := hlower.height byPrice
    cases valid with
    | false => exact ⟨hlower, .inl hle⟩
    | true =>
      refine ⟨hlower, .inr ⟨item, hslot, ?_⟩⟩
      have habove := hlower.above item.sender item.nonce
      show height tabs' (item :: byPrice) ≤ _
      unfold height at hle ⊢
      rw [List.map_cons, List.sum_cons]
      omega

theorem popBest_none {byPrice : List TxItem} (h : popBest baseFee byPrice = none) :
    byPrice = [] := by
  cases byPrice with
  | nil => rfl
  | cons item items =>
    unfold popBest at h
    split at h
    · cases h
    · split at h
      · cases h
      · cases h

theorem popBest_some {byPrice rest : List TxItem} {best : TxItem}
    (h : popBest baseFee byPrice = some (best, rest)) :
    byPrice.Perm (best :: rest) ∧ ∀ x ∈ byPrice, x.price baseFee ≤ best.price baseFee := by
  induction byPrice generalizing best rest with
  | nil => cases h
  | cons item items ih =>
    unfold popBest at h
    split at h
    next hnone =>
      cases h
      rw [popBest_none hnone]
      refine ⟨.refl _, fun x hx => ?_⟩
      rw [List.mem_singleton.mp hx]
    next best' rest' hsome =>
      obtain ⟨hperm, hmax⟩ := ih hsome
      split at h
      next hlt =>
        cases h
        refine ⟨(hperm.cons item).trans (List.Perm.swap best item rest'), fun x hx => ?_⟩
        obtain rfl | hx := List.mem_cons.mp hx
        · exact hlt.le
        · exact hmax x hx
      next hge =>
        cases h
        refine ⟨hperm.cons item, fun x hx => ?_⟩
        obtain rfl | hx := List.mem_cons.mp hx
        · exact le_refl _
        · exact (hmax x hx).trans (not_lt.mp hge)

theorem popBest_height {byPrice rest : List TxItem} {best : TxItem}
    (h : popBest baseFee byPrice = some (best, rest)) (tabs : TxTabs) :
    height tabs byPrice = 1 + above tabs best.sender best.nonce + height tabs rest := by
  unfold height
  rw [((popBest_some h).1.map _).sum_nat, List.map_cons, List.sum_cons]

variable [TxVm]

/-- The first pass leaves no more to do than there are items. -/
theorem heads_height (hw : Wf tabs) (ledger : TxVm.Ledger) (fork : EVMFork) :
    height (heads tabs ledger fork).1 (heads tabs ledger fork).2 ≤ tabs.total := by
  let visit : TxTabs × List TxItem → Address → TxTabs × List TxItem :=
    fun found a =>
      let nonce := TxVm.getNonce ledger a
      let fuel := Table.len ((found.1.senderTab.lookup a).getD ∅)
      (found.1.dropStale a nonce fuel).getHeadAndPushTo a found.2 nonce fork
  have hvisits : ∀ (keys : List Address) (tabs : TxTabs) (byPrice : List TxItem), Wf tabs →
      height (keys.foldl visit (tabs, byPrice)).1 (keys.foldl visit (tabs, byPrice)).2 ≤
        height tabs byPrice + (keys.map fun a => Table.len (listOf tabs a)).sum := by
    intro keys
    induction keys with
    | nil => exact fun tabs byPrice _ => le_refl _
    | cons a keys ih =>
      intro tabs byPrice hw
      let nonce := TxVm.getNonce ledger a
      let pruned := TxTabs.dropStale a nonce (Table.len (listOf tabs a)) tabs
      have hstale : Wf pruned := (dropStale_spec hw a nonce _ (le_refl _)).1.shrunk.wf
      have hlower : Lower tabs pruned := .dropStale a nonce _ tabs
      obtain ⟨hlower', hhead⟩ := getHeadAndPushTo_height fork hstale a byPrice nonce
      have hwf : Wf (visit (tabs, byPrice) a).1 := (getHeadAndPushTo_spec fork hstale a byPrice nonce).shrunk.wf
      have hvisit : height (visit (tabs, byPrice) a).1 (visit (tabs, byPrice) a).2 ≤
          height tabs byPrice + Table.len (listOf tabs a) := by
        have hle := hlower.height byPrice
        obtain hhead | ⟨item, hslot, hhead⟩ := hhead
        · exact hhead.trans (by omega)
        · -- the head itself and what is above it
          have hlen : 1 + above pruned a nonce ≤ Table.len (listOf tabs a) := by
            have hcount := hlower.len a
            have hhead := above_lt_len hslot
            omega
          exact hhead.trans (by omega)
      rw [List.foldl_cons, List.map_cons, List.sum_cons]
      have hrest := ih (visit (tabs, byPrice) a).1 (visit (tabs, byPrice) a).2 hwf
      have hsum : (keys.map fun b => Table.len (listOf (visit (tabs, byPrice) a).1 b)).sum ≤
          (keys.map fun b => Table.len (listOf tabs b)).sum := by
        apply List.sum_le_sum
        exact fun b _ => (hlower.trans hlower').len b
      have hrest' : height (keys.foldl visit (visit (tabs, byPrice) a)).1
          (keys.foldl visit (visit (tabs, byPrice) a)).2 ≤ _ := hrest
      omega
  have htotal : (tabs.senderTab.keys.map fun a => Table.len (listOf tabs a)).sum = tabs.total := by
    unfold AList.keys List.keys TxTabs.total
    rw [List.map_map]
    apply congrArg List.sum
    apply List.map_congr_left
    intro e he
    have hlook : tabs.senderTab.lookup e.1 = some e.2 := AList.mem_lookup_iff.mpr he
    show Table.len ((tabs.senderTab.lookup e.1).getD ∅) = Table.len e.2
    rw [hlook]
    rfl
  have hmain := hvisits tabs.senderTab.keys tabs [] hw
  rw [htotal] at hmain
  exact hmain.trans (by simp [height])

end Nimbus.Spec.TxPool
