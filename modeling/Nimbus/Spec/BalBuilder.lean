import Nimbus.Spec.BalAccountIds
import Nimbus.Spec.BalCollapse
import Nimbus.Spec.BalFacts
import Nimbus.Spec.BalSorting

/-!
# The built block access list

The list describes the inserted facts, whatever the order of the calls was, and only its size,
codes and hash can fail validation.
-/

namespace Nimbus.Spec.BalBuilder

open Nimbus.Native
open Nimbus.Native.BalBuilder
open CountingSort
open Aristo (UInt256)
open BalTracker

/-! ## The flat entries -/

section

variable {α β : Type} (entries : BalIndexData → List β) (accountOf : β → Nat)
  (mk : Nat → Nat → β → α)

/-- The address behind an account id of a log. -/
def addressAt (d : BalIndexData) (account : Nat) : Address :=
  (d.accounts[account]?).getD (Vector.replicate 20 0)

/-- The entries of all logs, each with the id of its address in `addresses`. -/
def flatOf (addresses : List Address) (logs : Nat → BalIndexData) (n : Nat) : List α :=
  blocks n fun i => (entries (logs i)).map fun w =>
    mk (addresses.idxOf (addressAt (logs i) (accountOf w))) i w

variable {entries accountOf mk}

theorem addressAt_mem {d : BalIndexData} {account : Nat} (h : account < d.accounts.length) :
    addressAt d account ∈ d.accounts := by
  unfold addressAt
  rw [List.getElem?_eq_getElem h]
  exact List.getElem_mem h

theorem mapM_idAt (mk : Nat → Nat → β → α) {d : BalIndexData} {addresses : List Address}
    {i : Nat} {l : List β} (hl : ∀ w ∈ l, accountOf w < d.accounts.length) :
    (l.mapM fun w => do
      return mk (← idAt (d.accounts.map (addresses.idxOf ·)) (accountOf w)) i w) =
      Except.ok (l.map fun w => mk (addresses.idxOf (addressAt d (accountOf w))) i w) := by
  induction l with
  | nil => rfl
  | cons w l ih =>
    have hw := hl w List.mem_cons_self
    have hid : idAt (d.accounts.map (addresses.idxOf ·)) (accountOf w) =
        .ok (addresses.idxOf (addressAt d (accountOf w))) := by
      unfold idAt addressAt
      rw [List.getElem?_map, List.getElem?_eq_getElem hw]
      rfl
    rw [List.mapM_cons, hid, ih fun x hx => hl x (.tail _ hx)]
    rfl

/-- More addresses behind the ones that are there do not change the ids. -/
theorem flatOf_pfx {addresses more : List Address} {logs : Nat → BalIndexData} {n : Nat}
    (h : addresses <+: more) (hlogs : ∀ i < n, (∀ w ∈ entries (logs i),
      accountOf w < (logs i).accounts.length) ∧ (logs i).accounts ⊆ addresses) :
    flatOf entries accountOf mk more logs n = flatOf entries accountOf mk addresses logs n := by
  obtain ⟨rest, rfl⟩ := h
  refine blocks_congr fun i hi => List.map_congr_left fun w hw => ?_
  obtain ⟨hbound, hsub⟩ := hlogs i hi
  rw [List.idxOf_append_of_mem (hsub (addressAt_mem (hbound w hw)))]

theorem group_flatOf {acct : α → Nat} (hacct : ∀ id i w, acct (mk id i w) = id)
    {addresses : List Address} {logs : Nat → BalIndexData} {n id : Nat} {a : Address}
    (hnodup : addresses.Nodup) (hid : addresses[id]? = some a)
    (hlogs : ∀ i < n, (∀ w ∈ entries (logs i), accountOf w < (logs i).accounts.length) ∧
      (logs i).accounts ⊆ addresses) :
    group acct (flatOf entries accountOf mk addresses logs n) id =
      blocks n fun i => ((entries (logs i)).filter fun w =>
        (logs i).accounts[accountOf w]? == some a).map (mk id i) := by
  unfold group flatOf blocks
  rw [List.filter_flatMap]
  refine List.flatMap_congr fun i hi => ?_
  obtain ⟨hbound, hsub⟩ := hlogs i (List.mem_range.mp hi)
  rw [List.filter_map]
  have hfilter : (entries (logs i)).filter ((fun e => decide (acct e = id)) ∘ fun w =>
      mk (addresses.idxOf (addressAt (logs i) (accountOf w))) i w) =
      (entries (logs i)).filter fun w => (logs i).accounts[accountOf w]? == some a := by
    refine List.filter_congr fun w hw => ?_
    have hlt := hbound w hw
    have hmem := hsub (addressAt_mem hlt)
    rw [Bool.eq_iff_iff, Function.comp_apply, hacct, decide_eq_true_eq, beq_iff_eq]
    have hat : (logs i).accounts[accountOf w]? = some (addressAt (logs i) (accountOf w)) := by
      unfold addressAt
      rw [List.getElem?_eq_getElem hlt, Option.getD_some]
    rw [hat, Option.some_inj]
    constructor
    · rintro rfl
      have hget := List.getElem?_idxOf hmem
      rw [hget] at hid
      exact Option.some.inj hid
    · rintro heq
      rw [heq]
      exact idxOf_of_getElem? hnodup hid
  rw [hfilter]
  refine List.map_congr_left fun w hw => ?_
  have hw' := beq_iff_eq.mp (List.mem_filter.mp hw).2
  unfold addressAt
  rw [hw', Option.getD_some, idxOf_of_getElem? hnodup hid]

end

/-! ## The first phase -/

section

variable [AddressHash]

/-- The flat entries of the logs below `n`. -/
structure FlatIs (logs : Nat → BalIndexData) (n : Nat) (flat : Flat) : Prop where
  ids : IdsOk flat.accounts
  mem : ∀ a, a ∈ flat.accounts.addresses ↔ ∃ i < n, a ∈ (logs i).accounts
  sFlat : flat.sFlat = flatOf (·.storageChanges) (·.account)
    (fun id i w => ⟨id, i, w.slot, w.value⟩) flat.accounts.addresses logs n
  rFlat : flat.rFlat = flatOf (·.storageReads) (·.account)
    (fun id _ r => ⟨id, r.slot⟩) flat.accounts.addresses logs n
  bFlat : flat.bFlat = flatOf (·.balanceChanges) (·.account)
    (fun id i b => ⟨id, i, b.balance⟩) flat.accounts.addresses logs n
  nFlat : flat.nFlat = flatOf (·.nonceChanges) (·.account)
    (fun id i n => ⟨id, i, n.nonce⟩) flat.accounts.addresses logs n
  cFlat : flat.cFlat = flatOf (·.codeChanges) (·.account)
    (fun id i c => ⟨id, i, c.code⟩) flat.accounts.addresses logs n

theorem FlatIs.sub {logs : Nat → BalIndexData} {n : Nat} {flat : Flat} (h : FlatIs logs n flat)
    {i : Nat} (hi : i < n) : (logs i).accounts ⊆ flat.accounts.addresses :=
  fun a ha => (h.mem a).mpr ⟨i, hi, ha⟩

theorem FlatIs.addIndex {logs : Nat → BalIndexData} {n : Nat} {flat : Flat}
    (h : FlatIs logs n flat) (hlogs : ∀ i, LogOk (logs i)) :
    ∃ flat', flat.addIndex n (logs n) = .ok flat' ∧ FlatIs logs (n + 1) flat' := by
  obtain ⟨ids, accounts, hids, hok, haddresses, hidxs⟩ := idsOf_spec h.ids (logs n).accounts
  subst hidxs
  have hn := hlogs n
  have hpfx : flat.accounts.addresses <+: accounts.addresses := by
    rw [haddresses]
    exact withAddresses_pfx
  have hrun : flat.addIndex n (logs n) = .ok ⟨accounts,
      flat.sFlat ++ (logs n).storageChanges.map (fun w =>
        ⟨accounts.addresses.idxOf (addressAt (logs n) w.account), n, w.slot, w.value⟩),
      flat.rFlat ++ (logs n).storageReads.map (fun r =>
        ⟨accounts.addresses.idxOf (addressAt (logs n) r.account), r.slot⟩),
      flat.bFlat ++ (logs n).balanceChanges.map (fun b =>
        ⟨accounts.addresses.idxOf (addressAt (logs n) b.account), n, b.balance⟩),
      flat.nFlat ++ (logs n).nonceChanges.map (fun x =>
        ⟨accounts.addresses.idxOf (addressAt (logs n) x.account), n, x.nonce⟩),
      flat.cFlat ++ (logs n).codeChanges.map (fun c =>
        ⟨accounts.addresses.idxOf (addressAt (logs n) c.account), n, c.code⟩)⟩ := by
    refine except_bind_ok.mpr ⟨_, hids, ?_⟩
    refine except_bind_ok.mpr ⟨_, mapM_idAt (fun id i w => FlatStorageChange.mk id i w.slot w.value)
      hn.storageChanges, ?_⟩
    refine except_bind_ok.mpr ⟨_, mapM_idAt (fun id _ r => FlatStorageRead.mk id r.slot) (i := n)
      hn.storageReads, ?_⟩
    refine except_bind_ok.mpr ⟨_, mapM_idAt (fun id i b => FlatChange.mk id i b.balance)
      hn.balanceChanges, ?_⟩
    refine except_bind_ok.mpr ⟨_, mapM_idAt (fun id i x => FlatChange.mk id i x.nonce)
      hn.nonceChanges, ?_⟩
    exact except_bind_ok.mpr ⟨_, mapM_idAt (fun id i c => FlatChange.mk id i c.code)
      hn.codeChanges, rfl⟩
  refine ⟨_, hrun, ?_⟩
  have hmore {β α : Type} {entries : BalIndexData → List β} {accountOf : β → Nat}
      {mk : Nat → Nat → β → α} (hb : ∀ i, ∀ w ∈ entries (logs i),
        accountOf w < (logs i).accounts.length) :
      flatOf entries accountOf mk flat.accounts.addresses logs n ++
        (entries (logs n)).map (fun w =>
          mk (accounts.addresses.idxOf (addressAt (logs n) (accountOf w))) n w) =
      flatOf entries accountOf mk accounts.addresses logs (n + 1) := by
    rw [← flatOf_pfx hpfx fun i hi => ⟨hb i, h.sub hi⟩]
    exact blocks_succ.symm
  refine ⟨hok, fun a => ?_, ?_, ?_, ?_, ?_, ?_⟩
  · rw [haddresses, mem_withAddresses, h.mem]
    constructor
    · rintro (⟨i, hi, ha⟩ | ha)
      · exact ⟨i, by omega, ha⟩
      · exact ⟨n, by omega, ha⟩
    · rintro ⟨i, hi, ha⟩
      rcases Nat.lt_succ_iff_lt_or_eq.mp hi with hlt | rfl
      · exact .inl ⟨i, hlt, ha⟩
      · exact .inr ha
  · rw [h.sFlat]
    exact hmore fun i => (hlogs i).storageChanges
  · rw [h.rFlat]
    exact hmore fun i => (hlogs i).storageReads
  · rw [h.bFlat]
    exact hmore fun i => (hlogs i).balanceChanges
  · rw [h.nFlat]
    exact hmore fun i => (hlogs i).nonceChanges
  · rw [h.cFlat]
    exact hmore fun i => (hlogs i).codeChanges

theorem addIndices_concat {flat : Flat} {i : Nat} {perIndex : List BalIndexData}
    {d : BalIndexData} : flat.addIndices i (perIndex ++ [d]) = (do
      let flat ← flat.addIndices i perIndex
      flat.addIndex (i + perIndex.length) d) := by
  induction perIndex generalizing flat i with
  | nil =>
    show (flat.addIndex i d >>= fun flat => .ok flat) = flat.addIndex (i + 0) d
    cases flat.addIndex i d <;> rfl
  | cons e perIndex ih =>
    rw [List.cons_append, Flat.addIndices, Flat.addIndices, bind_assoc, List.length_cons]
    congr 1
    funext flat
    rw [ih]
    simp only [Nat.add_assoc, Nat.add_comm 1]

theorem flat_spec (logs : Nat → BalIndexData) (hlogs : ∀ i, LogOk (logs i)) (expected n : Nat) :
    ∃ flat, Flat.addIndices { accounts := AccountIds.init expected } 0
      ((List.range n).map logs) = .ok flat ∧ FlatIs logs n flat := by
  induction n with
  | zero =>
    refine ⟨_, rfl, idsOk_init expected, fun a => ?_, rfl, rfl, rfl, rfl, rfl⟩
    exact ⟨nofun, fun ⟨i, hi, _⟩ => absurd hi (Nat.not_lt_zero i)⟩
  | succ n ih =>
    obtain ⟨flat, hrun, hflat⟩ := ih
    obtain ⟨flat', hstep, hflat'⟩ := hflat.addIndex hlogs
    refine ⟨flat', ?_, hflat'⟩
    rw [List.range_succ, List.map_append, List.map_singleton, addIndices_concat, hrun,
      List.length_map, List.length_range, Nat.zero_add]
    exact hstep

end

/-! ## One account -/

section

variable {α β V : Type} {n : Nat} {index : α → Nat} {valueOf : α → V}

theorem blocks_sorted {f : Nat → List α} (hf : ∀ i, ∀ x ∈ f i, index x = i) :
    (blocks n f).Pairwise fun x y => index x ≤ index y := by
  unfold blocks
  rw [List.pairwise_flatMap]
  refine ⟨fun i _ => List.pairwise_of_forall_mem_list fun x hx y hy => ?_, ?_⟩
  · rw [hf i x hx, hf i y hy]
  · refine List.pairwise_lt_range.imp fun {i j} hij x hx y hy => ?_
    rw [hf i x hx, hf j y hy]
    exact Nat.le_of_lt hij

theorem lastAt_blocks {f : Nat → List α} (hf : ∀ i, ∀ x ∈ f i, index x = i) (i : Nat) :
    lastAt index valueOf (blocks n f) i = if i < n then (f i).getLast?.map valueOf else none := by
  have hfilter : (blocks n f).filter (fun e => index e == i) = if i < n then f i else [] := by
    induction n with
    | zero => rfl
    | succ n ih =>
      rw [blocks_succ, List.filter_append, ih]
      by_cases hi : i = n
      · subst hi
        rw [if_neg (Nat.lt_irrefl i), if_pos (Nat.lt_succ_self i)]
        exact List.filter_eq_self.mpr fun x hx => by rw [hf i x hx]; exact beq_self_eq_true i
      · have hnil : (f n).filter (fun e => index e == i) = [] :=
          List.filter_eq_nil_iff.mpr fun x hx => by
            rw [hf n x hx, beq_iff_eq]
            exact Ne.symm hi
        rw [hnil, List.append_nil]
        by_cases hlt : i < n
        · rw [if_pos hlt, if_pos (by omega)]
        · rw [if_neg hlt, if_neg (by omega)]
  unfold lastAt
  rw [hfilter]
  split <;> rfl

/-- The entries of the account `a`, tagged with its id. -/
def entriesFor (entries : BalIndexData → List β) (accountOf : β → Nat) (mk : Nat → Nat → β → α)
    (calls : List Call) (n : Nat) (a : Address) (id : Nat) : List α :=
  blocks n fun i => ((entries (logOf (atIndex calls i))).filter fun w =>
    (logOf (atIndex calls i)).accounts[accountOf w]? == some a).map (mk id i)

variable (entries : BalIndexData → List β) (accountOf : β → Nat) {mk : Nat → Nat → β → α}
  (valOf : β → V) {pick : Add → Option (Nat × V)} {calls : List Call}

section

variable (hindex : ∀ id i w, index (mk id i w) = i)
include hindex

theorem entriesFor_index (a : Address) (id : Nat) :
    ∀ i, ∀ x ∈ ((entries (logOf (atIndex calls i))).filter fun w =>
      (logOf (atIndex calls i)).accounts[accountOf w]? == some a).map (mk id i), index x = i := by
  intro i x hx
  obtain ⟨w, _, rfl⟩ := List.mem_map.mp hx
  exact hindex id i w

theorem entriesFor_sorted (a : Address) (id : Nat) :
    (entriesFor entries accountOf mk calls n a id).Pairwise fun x y => index x ≤ index y :=
  blocks_sorted (entriesFor_index entries accountOf hindex a id)

theorem lastAt_entriesFor (hvalue : ∀ id i w, valueOf (mk id i w) = valOf w)
    (hpick : ∀ i, (atIndex calls i).filterMap pick =
      (entries (logOf (atIndex calls i))).map fun w => (accountOf w, valOf w))
    (hbeyond : ∀ i ≥ n, atIndex calls i = []) (a : Address) (id i : Nat) :
    lastAt index valueOf (entriesFor entries accountOf mk calls n a id) i =
      lastPicked pick calls a i := by
  have hlast : lastPicked pick calls a i = ((entries (logOf (atIndex calls i))).filter fun w =>
      (logOf (atIndex calls i)).accounts[accountOf w]? == some a).getLast?.map valOf := by
    unfold lastPicked
    rw [hpick, List.filter_map, List.getLast?_map, Option.map_map, logOf_accounts]
    rfl
  unfold entriesFor
  rw [lastAt_blocks (entriesFor_index entries accountOf hindex a id), hlast]
  by_cases hi : i < n
  · rw [if_pos hi, List.getLast?_map, Option.map_map]
    congr 1
    funext w
    exact hvalue id i w
  · -- nothing is inserted for the indices from `n` on
    have hnil : (entries (logOf (atIndex calls i))) = [] := by
      have hempty := hpick i
      rw [hbeyond i (by omega)] at hempty
      rw [hbeyond i (by omega)]
      exact (List.map_eq_nil_iff.mp hempty.symm)
    rw [if_neg hi, hnil]
    rfl

/-- Collapsing the entries of an account records the facts about it. -/
theorem recorded_entriesFor (hvalue : ∀ id i w, valueOf (mk id i w) = valOf w)
    (hpick : ∀ i, (atIndex calls i).filterMap pick =
      (entries (logOf (atIndex calls i))).map fun w => (accountOf w, valOf w))
    (hbeyond : ∀ i ≥ n, atIndex calls i = []) (a : Address) (id : Nat) :
    Recorded (collapseByIndex index valueOf (entriesFor entries accountOf mk calls n a id))
      (lastPicked pick calls a) := by
  obtain ⟨hsorted, hmem⟩ := collapseByIndex_spec index valueOf
    (entriesFor_sorted entries accountOf hindex a id)
  refine ⟨hsorted, fun change => ?_⟩
  rw [← lastAt_entriesFor entries accountOf valOf hindex hvalue hpick hbeyond a id]
  exact hmem change

end

end

section

variable {calls : List Call} {n : Nat} {a : Address} {id : Nat}

theorem fill_length {α : Type} [Inhabited α] (items : List α) :
    fill items.length items = .ok items := by
  rw [fill, if_pos (Nat.le_refl _), Nat.sub_self, List.replicate_zero, List.append_nil]

abbrev writesFor (calls : List Call) (n : Nat) (a : Address) (id : Nat) : List FlatStorageChange :=
  entriesFor (·.storageChanges) (·.account) (fun id i w => ⟨id, i, w.slot, w.value⟩) calls n a id

abbrev readsFor (calls : List Call) (n : Nat) (a : Address) (id : Nat) : List FlatStorageRead :=
  entriesFor (·.storageReads) (·.account) (fun id _ r => ⟨id, r.slot⟩) calls n a id

theorem lastAt_writesFor (id : Nat) (hbeyond : ∀ i ≥ n, atIndex calls i = [])
    (slot : UInt256) (i : Nat) :
    lastAt (·.index) (·.value) ((slotSorted (·.slot) (writesFor calls n a id)).filter
      fun e => e.slot = slot) i = (factsOf calls).written a slot i := by
  have hslot : (writesFor calls n a id).filter (fun e => e.slot = slot) =
      entriesFor (fun d => d.storageChanges.filter fun w => w.slot = slot) (·.account)
        (fun id i w => (⟨id, i, w.slot, w.value⟩ : FlatStorageChange)) calls n a id := by
    unfold writesFor entriesFor blocks
    rw [List.filter_flatMap]
    refine List.flatMap_congr fun j _ => ?_
    rw [List.filter_map, List.filter_filter, List.filter_filter]
    congr 1
    refine List.filter_congr fun w _ => ?_
    exact Bool.and_comm _ _
  rw [slotSorted_filter, hslot]
  refine lastAt_entriesFor (fun d => d.storageChanges.filter fun w => w.slot = slot)
    StorageWrite.account StorageWrite.value ?_ ?_ (fun i => ?_) hbeyond a id i
  · exact fun _ _ _ => rfl
  · exact fun _ _ _ => rfl
  · rw [logOf_storageChanges, List.filter_filterMap, List.map_filterMap]
    congr 1
    funext entry
    cases entry with
    | storageWrite account s newValue =>
      by_cases h : s = slot
      · simp [h]
      · simp [h]
    | _ => rfl

theorem written_iff (id : Nat) (hbeyond : ∀ i ≥ n, atIndex calls i = []) (slot : UInt256) :
    (∃ e ∈ slotSorted (·.slot) (writesFor calls n a id), e.slot = slot) ↔
      ∃ i, (factsOf calls).written a slot i ≠ none := by
  constructor
  · rintro ⟨e, he, rfl⟩
    refine ⟨e.index, ?_⟩
    rw [← lastAt_writesFor id hbeyond, ← Option.isSome_iff_ne_none, lastAt_isSome]
    exact ⟨e, List.mem_filter.mpr ⟨he, decide_eq_true rfl⟩, rfl⟩
  · rintro ⟨i, hi⟩
    rw [← lastAt_writesFor id hbeyond, ← Option.isSome_iff_ne_none, lastAt_isSome] at hi
    obtain ⟨e, he, _⟩ := hi
    obtain ⟨hmem, hslot⟩ := List.mem_filter.mp he
    exact ⟨e, hmem, of_decide_eq_true hslot⟩

theorem read_iff (hbeyond : ∀ i ≥ n, atIndex calls i = []) (slot : UInt256) :
    (∃ r ∈ slotSorted (·.slot) (readsFor calls n a id), r.slot = slot) ↔
      (factsOf calls).read a slot := by
  constructor
  · rintro ⟨r, hr, rfl⟩
    have hmem : r ∈ readsFor calls n a id := (slotSorted_perm _).mem_iff.mp hr
    obtain ⟨i, _, hi⟩ := List.mem_flatMap.mp hmem
    obtain ⟨w, hw, rfl⟩ := List.mem_map.mp hi
    obtain ⟨hread, haddress⟩ := List.mem_filter.mp hw
    dsimp only at hread haddress
    rw [logOf_storageReads] at hread
    obtain ⟨entry, hentry, hpick⟩ := List.mem_filterMap.mp hread
    cases entry with
    | storageRead account s =>
      cases hpick
      refine ⟨i, account, hentry, ?_⟩
      rw [← logOf_accounts]
      exact beq_iff_eq.mp haddress
    | _ => exact nomatch hpick
  · rintro ⟨i, account, hentry, haddress⟩
    have hi : i < n := by
      by_contra hge
      rw [hbeyond i (by omega)] at hentry
      cases hentry
    refine ⟨⟨id, slot⟩, (slotSorted_perm _).mem_iff.mpr ?_, rfl⟩
    refine List.mem_flatMap.mpr ⟨i, List.mem_range.mpr hi, ?_⟩
    refine List.mem_map.mpr ⟨⟨account, slot⟩, ?_, rfl⟩
    refine List.mem_filter.mpr ⟨?_, ?_⟩
    · dsimp only
      rw [logOf_storageReads]
      exact List.mem_filterMap.mpr ⟨_, hentry, rfl⟩
    · rw [logOf_accounts]
      exact beq_iff_eq.mpr haddress

theorem flatOf_acct_lt {α β : Type} {entries : BalIndexData → List β} {accountOf : β → Nat}
    {mk : Nat → Nat → β → α} {acct : α → Nat} (hacct : ∀ id i w, acct (mk id i w) = id)
    {addresses : List Address} {logs : Nat → BalIndexData}
    (hlogs : ∀ i < n, (∀ w ∈ entries (logs i), accountOf w < (logs i).accounts.length) ∧
      (logs i).accounts ⊆ addresses) :
    ∀ e ∈ flatOf entries accountOf mk addresses logs n, acct e < addresses.length := by
  intro e he
  obtain ⟨i, hi, he⟩ := List.mem_flatMap.mp he
  obtain ⟨w, hw, rfl⟩ := List.mem_map.mp he
  obtain ⟨hbound, hsub⟩ := hlogs i (List.mem_range.mp hi)
  rw [hacct]
  exact List.idxOf_lt_length_of_mem (hsub (addressAt_mem (hbound w hw)))

variable [AddressHash] {flat : Flat}

theorem entriesOf_flat {α β : Type} {entries : BalIndexData → List β} {accountOf : β → Nat}
    (mk : Nat → Nat → β → α) (acct : α → Nat) (hacct : ∀ id i w, acct (mk id i w) = id)
    (hflat : FlatIs (fun i => logOf (atIndex calls i)) n flat)
    (hbound : ∀ i, ∀ w ∈ entries (logOf (atIndex calls i)),
      accountOf w < (logOf (atIndex calls i)).accounts.length)
    (hid : flat.accounts.addresses[id]? = some a) :
    let l := flatOf entries accountOf mk flat.accounts.addresses
      (fun i => logOf (atIndex calls i)) n
    (∀ e ∈ l, acct e < flat.accounts.addresses.length) ∧
      group acct l id = entriesFor entries accountOf mk calls n a id :=
  ⟨flatOf_acct_lt hacct fun i hi => ⟨hbound i, hflat.sub hi⟩,
    group_flatOf hacct hflat.ids.table.nodup hid fun i hi => ⟨hbound i, hflat.sub hi⟩⟩

/-- The record of an account describes the facts about it. -/
theorem accountChanges_spec (hlogs : ∀ i, LogOk (logOf (atIndex calls i)))
    (hbeyond : ∀ i ≥ n, atIndex calls i = [])
    (hflat : FlatIs (fun i => logOf (atIndex calls i)) n flat)
    (hid : flat.accounts.addresses[id]? = some a) :
    let numAccounts := flat.accounts.addresses.length
    let s := groupByAccount (·.acct) flat.sFlat numAccounts
    let r := groupByAccount (·.acct) flat.rFlat numAccounts
    ∃ x, accountChanges (sortSlots (·.slot) numAccounts s.1 s.2, s.2)
      (sortSlots (·.slot) numAccounts r.1 r.2, r.2)
      (groupByAccount (·.acct) flat.bFlat numAccounts)
      (groupByAccount (·.acct) flat.nFlat numAccounts)
      (groupByAccount (·.acct) flat.cFlat numAccounts) a id = .ok x ∧
      x.address = a ∧ DescribesAccount (factsOf calls) x := by
  intro numAccounts s r
  have hlt : id < numAccounts := (List.getElem?_eq_some_iff.mp hid).1
  obtain ⟨hs, hsg⟩ := entriesOf_flat (fun id i w => ⟨id, i, w.slot, w.value⟩)
    FlatStorageChange.acct (fun _ _ _ => rfl) hflat (fun i => (hlogs i).storageChanges) hid
  obtain ⟨hr, hrg⟩ := entriesOf_flat (fun id _ r => ⟨id, r.slot⟩)
    FlatStorageRead.acct (fun _ _ _ => rfl) hflat (fun i => (hlogs i).storageReads) hid
  obtain ⟨hb, hbg⟩ := entriesOf_flat (fun id i b => ⟨id, i, b.balance⟩)
    FlatChange.acct (fun _ _ _ => rfl) hflat (fun i => (hlogs i).balanceChanges) hid
  obtain ⟨hn, hng⟩ := entriesOf_flat (fun id i x => ⟨id, i, x.nonce⟩)
    FlatChange.acct (fun _ _ _ => rfl) hflat (fun i => (hlogs i).nonceChanges) hid
  obtain ⟨hc, hcg⟩ := entriesOf_flat (fun id i c => ⟨id, i, c.code⟩)
    FlatChange.acct (fun _ _ _ => rfl) hflat (fun i => (hlogs i).codeChanges) hid
  rw [← hflat.sFlat] at hs hsg
  rw [← hflat.rFlat] at hr hrg
  rw [← hflat.bFlat] at hb hbg
  rw [← hflat.nFlat] at hn hng
  rw [← hflat.cFlat] at hc hcg
  have hwrites : entriesOf (sortSlots (·.slot) numAccounts s.1 s.2, s.2) id =
      slotSorted (·.slot) (writesFor calls n a id) := by
    rw [entriesOf_sortSlots hs hlt, hsg]
  have hreads : entriesOf (sortSlots (·.slot) numAccounts r.1 r.2, r.2) id =
      slotSorted (·.slot) (readsFor calls n a id) := by
    rw [entriesOf_sortSlots hr hlt, hrg]
  have hsorted := slotSorted_pairwise FlatStorageChange.slot (writesFor calls n a id)
  have hslots := slotChangesOf_spec hsorted
  have hread := storageReadsOf_spec
    (slotSorted_pairwise FlatStorageRead.slot (readsFor calls n a id)) hslots.sorted
  -- a slot has an entry just when it is written
  have hslot (slot : UInt256) : (∃ c ∈ slotChangesOf (slotSorted (·.slot) (writesFor calls n a id)),
      c.slot = slot) ↔ ∃ i, (factsOf calls).written a slot i ≠ none := by
    rw [← written_iff id hbeyond]
    constructor
    · rintro ⟨c, hc, rfl⟩
      exact ((hslots.mem c).mp hc).1
    · intro he
      refine ⟨⟨slot, collapseByIndex (·.index) (·.value) ((slotSorted (·.slot)
        (writesFor calls n a id)).filter fun e => e.slot = slot)⟩, ?_, rfl⟩
      exact (hslots.mem _).mpr ⟨he, rfl⟩
  refine ⟨⟨a, slotChangesOf (slotSorted (·.slot) (writesFor calls n a id)),
    storageReadsOf (slotSorted (·.slot) (readsFor calls n a id))
      (slotChangesOf (slotSorted (·.slot) (writesFor calls n a id))),
    collapseByIndex (·.index) (·.value) (group (·.acct) flat.bFlat id),
    collapseByIndex (·.index) (·.value) (group (·.acct) flat.nFlat id),
    collapseByIndex (·.index) (·.value) (group (·.acct) flat.cFlat id)⟩, ?_, rfl, ?_⟩
  · unfold accountChanges
    rw [hwrites, hreads, entriesOf_groupByAccount hb hlt, entriesOf_groupByAccount hn hlt,
      entriesOf_groupByAccount hc hlt]
    dsimp only
    rw [countSlots_eq]
    refine except_bind_ok.mpr ⟨_, fill_length _, except_bind_ok.mpr ⟨_, ?_, rfl⟩⟩
    rw [countDistinctIndices_eq FlatChange.value]
    exact fill_length _
  · refine ⟨hslots.sorted, hslot, fun c hc => ?_, hread.sorted, fun slot => ?_, ?_, ?_, ?_⟩
    · obtain ⟨_, hchanges⟩ := (hslots.mem c).mp hc
      have hcollapsed := collapseByIndex_spec FlatStorageChange.index
        FlatStorageChange.value (l := (slotSorted (·.slot) (writesFor calls n a id)).filter
          fun e => e.slot = c.slot) (by
          rw [slotSorted_filter]
          exact (entriesFor_sorted _ _ (fun _ _ _ => rfl) a id).filter _)
      rw [← hchanges] at hcollapsed
      refine ⟨hcollapsed.sorted, fun change => ?_⟩
      rw [hcollapsed.mem, lastAt_writesFor id hbeyond]
    · rw [hread.mem, read_iff hbeyond]
      refine and_congr_right fun _ => ?_
      constructor
      · intro hno i
        by_contra hi
        obtain ⟨c, hc, heq⟩ := (hslot slot).mpr ⟨i, hi⟩
        exact hno c hc heq
      · intro hno c hc heq
        obtain ⟨i, hi⟩ := (hslot slot).mp ⟨c, hc, heq⟩
        exact hi (hno i)
    · rw [hbg]
      refine recorded_entriesFor _ _ BalanceWrite.balance ?_ ?_ (fun i => ?_) hbeyond a id
      · exact fun _ _ _ => rfl
      · exact fun _ _ _ => rfl
      · rw [logOf_balanceChanges, List.map_filterMap]
        congr 1
        funext entry
        cases entry <;> rfl
    · rw [hng]
      refine recorded_entriesFor _ _ NonceWrite.nonce ?_ ?_ (fun i => ?_) hbeyond a id
      · exact fun _ _ _ => rfl
      · exact fun _ _ _ => rfl
      · rw [logOf_nonceChanges, List.map_filterMap]
        congr 1
        funext entry
        cases entry <;> rfl
    · rw [hcg]
      refine recorded_entriesFor _ _ CodeWrite.code ?_ ?_ (fun i => ?_) hbeyond a id
      · exact fun _ _ _ => rfl
      · exact fun _ _ _ => rfl
      · rw [logOf_codeChanges, List.map_filterMap]
        congr 1
        funext entry
        cases entry <;> rfl

end

/-! ## The whole list -/

theorem mapM_forall₂ {α β ε : Type} {f : α → Except ε β} {P : α → β → Prop} {l : List α}
    (h : ∀ x ∈ l, ∃ y, f x = .ok y ∧ P x y) : ∃ ys, l.mapM f = .ok ys ∧ List.Forall₂ P l ys := by
  induction l with
  | nil => exact ⟨[], rfl, List.Forall₂.nil⟩
  | cons x l ih =>
    obtain ⟨y, hy, hp⟩ := h x List.mem_cons_self
    obtain ⟨ys, hys, hps⟩ := ih fun z hz => h z (.tail _ hz)
    refine ⟨y :: ys, ?_, List.Forall₂.cons hp hps⟩
    rw [List.mapM_cons]
    exact except_bind_ok.mpr ⟨y, hy, except_bind_ok.mpr ⟨ys, hys, rfl⟩⟩

theorem forall₂_right {α β : Type} {P : β → Prop} {l : List α} {ys : List β}
    (h : List.Forall₂ (fun _ y => P y) l ys) : ∀ y ∈ ys, P y := by
  induction h with
  | nil => exact fun _ h => nomatch h
  | cons hy _ ih =>
    intro z hz
    rcases List.mem_cons.mp hz with rfl | hz
    · exact hy
    · exact ih z hz

/-- The ids in the order of their addresses. -/
structure Ordered (addresses : List Address) (order : List AccountOrder) : Prop where
  sorted : order.Pairwise fun x y => x.address.toList < y.address.toList
  id : ∀ o ∈ order, addresses[o.id]? = some o.address
  mem : ∀ a, (∃ o ∈ order, o.address = a) ↔ a ∈ addresses
  length : order.length = addresses.length

theorem order_spec {addresses : List Address} (h : addresses.Nodup) :
    Ordered addresses (sortByAddress (addresses.zipIdx.map fun (a, id) => ⟨a, id⟩)) := by
  obtain ⟨hperm, hsorted⟩ := sortByAddress_spec
    (addresses.zipIdx.map fun (x : Address × Nat) => ⟨x.1, x.2⟩)
  have hmap : (addresses.zipIdx.map fun (x : Address × Nat) =>
      (⟨x.1, x.2⟩ : AccountOrder)).map (·.address) = addresses := by
    rw [List.map_map]
    exact List.zipIdx_map_fst 0 addresses
  have haddr := hperm.map AccountOrder.address
  rw [hmap] at haddr
  refine ⟨?_, fun o ho => ?_, fun a => ?_, ?_⟩
  · have hne := List.pairwise_map.mp (haddr.nodup_iff.mpr h)
    exact (hsorted.and hne).imp fun hxy => Std.lt_of_le_of_ne hxy.1 fun heq =>
      hxy.2 (Vector.toList_inj.mp heq)
  · obtain ⟨⟨a, id⟩, hmem, rfl⟩ := List.mem_map.mp (hperm.mem_iff.mp ho)
    exact List.mem_zipIdx_iff_getElem?.mp hmem
  · rw [← haddr.mem_iff, List.mem_map]
  · rw [← haddr.length_eq, List.length_map]

section

variable [AddressHash] {calls : List Call} {builder : BlockAccessListBuilder}

theorem buildBlockAccessList_describes (h : run {} calls = .ok builder) :
    ∃ bal, buildBlockAccessList builder = .ok bal ∧ Describes (factsOf calls) bal := by
  obtain ⟨hperIndex, hbeyond, hlogs⟩ := run_logged h
  obtain ⟨flat, hflatten, hflat⟩ := flat_spec (fun i => logOf (atIndex calls i)) hlogs
    (builder.perIndex.map fun d => d.accounts.length).sum builder.perIndex.length
  rw [← hperIndex] at hflatten
  obtain ⟨hsorted, hid, hmem, hlength⟩ := order_spec hflat.ids.table.nodup
  obtain ⟨bal, hbal, hrecords⟩ := mapM_forall₂ fun o ho =>
    accountChanges_spec hlogs hbeyond hflat (hid o ho)
  -- the records come in the order of their addresses
  have haddress : (sortByAddress (flat.accounts.addresses.zipIdx.map
      fun (a, id) => ⟨a, id⟩)).map (·.address) = bal.map (·.address) := by
    rw [← List.forall₂_eq_eq_eq, List.forall₂_map_left_iff, List.forall₂_map_right_iff]
    exact hrecords.imp fun _ _ hx => hx.1.symm
  have hcount := congrArg List.length haddress
  rw [List.length_map, List.length_map, hlength] at hcount
  refine ⟨bal, ?_, ?_, fun a => ?_, fun x hx => ?_⟩
  · refine except_bind_ok.mpr ⟨flat, hflatten, except_bind_ok.mpr ⟨bal, hbal, ?_⟩⟩
    rw [hcount]
    exact fill_length bal
  · have hstrict : ((sortByAddress (flat.accounts.addresses.zipIdx.map
        fun (a, id) => ⟨a, id⟩)).map (·.address)).Pairwise fun a b => a.toList < b.toList :=
      List.pairwise_map.mpr hsorted
    rw [haddress, List.pairwise_map] at hstrict
    exact hstrict
  · have hexists : (∃ x ∈ bal, x.address = a) ↔ a ∈ flat.accounts.addresses := by
      rw [← hmem, ← List.mem_map, ← List.mem_map, haddress]
    rw [hexists, hflat.mem]
    constructor
    · rintro ⟨i, _, ha⟩
      rw [logOf_accounts] at ha
      obtain ⟨entry, hentry, hpick⟩ := List.mem_filterMap.mp ha
      cases entry with
      | account address =>
        cases hpick
        exact ⟨i, hentry⟩
      | _ => exact nomatch hpick
    · rintro ⟨i, hentry⟩
      refine ⟨i, ?_, ?_⟩
      · by_contra hge
        rw [hbeyond i (by omega)] at hentry
        cases hentry
      · rw [logOf_accounts]
        exact List.mem_filterMap.mpr ⟨_, hentry, rfl⟩
  · exact forall₂_right (hrecords.imp fun _ _ h => h.2) x hx

end

/-! ## Validation -/

theorem isSorted_of_pairwise {α : Type} {lt : α → α → Bool} {l : List α}
    (h : l.Pairwise fun x y => lt x y = true) : isSorted lt l = true := by
  induction l with
  | nil => rfl
  | cons x l ih =>
    obtain ⟨hx, hl⟩ := List.pairwise_cons.mp h
    cases l with
    | nil => rfl
    | cons y l =>
      rw [isSorted, hx y List.mem_cons_self, ih hl]
      rfl

theorem forM_ok {α : Type} {f : α → Except String Unit} {l : List α}
    (h : ∀ x ∈ l, f x = .ok ()) : l.forM f = .ok () := by
  induction l with
  | nil => rfl
  | cons x l ih =>
    show (f x >>= fun _ => l.forM f) = .ok ()
    rw [h x List.mem_cons_self]
    exact ih fun y hy => h y (.tail _ hy)

/-- The checks of `validate` that do not concern the structure of the list. -/
def contentChecks (computeBlockAccessListHash : BlockAccessList → Aristo.Hash32)
    (bal : BlockAccessList) (expectedHash : Aristo.Hash32) (blockGasLimit : Nat) :
    Except String Unit := do
  checkBalSize bal blockGasLimit
  bal.forM fun accountChanges =>
    accountChanges.codeChanges.forM fun codeChange => checkCodeChange codeChange.value
  if computeBlockAccessListHash bal ≠ expectedHash then
    throw "Computed block access list hash does not match the expected hash"

theorem Recorded.isSorted {V : Type} {changes : List (Change V)} {values : Nat → Option V}
    (h : Recorded changes values) : isSorted balIndexLt changes = true :=
  isSorted_of_pairwise (h.sorted.imp fun h => decide_eq_true h)

/-- Of the checks of an account only those of its codes are left. -/
theorem checkAccountChanges_describes {facts : Facts} {x : AccountChanges}
    (h : DescribesAccount facts x) : checkAccountChanges x =
      x.codeChanges.forM fun codeChange => checkCodeChange codeChange.value := by
  have hslots : isSorted slotChangesLt x.storageChanges = true :=
    isSorted_of_pairwise (h.slots_sorted.imp fun h => decide_eq_true h)
  have hchanges : x.storageChanges.forM checkSlotChanges = .ok () := by
    refine forM_ok fun c hc => ?_
    have hrecorded := h.written c hc
    obtain ⟨i, hi⟩ := (h.slots c.slot).mp ⟨c, hc, rfl⟩
    obtain ⟨v, hv⟩ := Option.ne_none_iff_exists'.mp hi
    have hmem := (hrecorded.mem ⟨i, v⟩).mpr hv
    unfold checkSlotChanges
    rw [if_neg (Nat.ne_of_gt (List.length_pos_of_mem hmem)), hrecorded.isSorted]
    rfl
  have hdisjoint : (x.storageReads.forM fun slot =>
      if slot ∈ x.storageChanges.map (·.slot) then
        Except.error "A slot should not be in both changes and reads"
      else .ok ()) = .ok () := by
    refine forM_ok fun slot hslot => if_neg fun hmem => ?_
    obtain ⟨c, hc, heq⟩ := List.mem_map.mp hmem
    obtain ⟨i, hi⟩ := (h.slots slot).mp ⟨c, hc, heq⟩
    exact hi (((h.reads slot).mp hslot).2 i)
  have hreads : isSorted storageKeyLt x.storageReads = true :=
    isSorted_of_pairwise (h.reads_sorted.imp fun h => decide_eq_true h)
  unfold checkAccountChanges
  rw [hslots, hreads, h.balances.isSorted, h.nonces.isSorted, h.codes.isSorted]
  show (x.storageChanges.forM checkSlotChanges >>= fun _ => (x.storageReads.forM fun slot =>
    if slot ∈ x.storageChanges.map (·.slot) then
      Except.error "A slot should not be in both changes and reads"
    else .ok ()) >>= fun _ =>
      x.codeChanges.forM fun codeChange => checkCodeChange codeChange.value) = _
  rw [hchanges, hdisjoint]
  rfl

theorem validate_describes {facts : Facts} {bal : BlockAccessList} (h : Describes facts bal)
    (computeBlockAccessListHash : BlockAccessList → Aristo.Hash32) (expectedHash : Aristo.Hash32)
    (blockGasLimit : Nat) :
    validate computeBlockAccessListHash bal expectedHash blockGasLimit =
      contentChecks computeBlockAccessListHash bal expectedHash blockGasLimit := by
  have hsorted : isSorted accChangesLt bal = true :=
    isSorted_of_pairwise (h.sorted.imp fun h => decide_eq_true h)
  have haccounts : bal.forM checkAccountChanges = bal.forM fun accountChanges =>
      accountChanges.codeChanges.forM fun codeChange => checkCodeChange codeChange.value := by
    have hall : ∀ x ∈ bal, checkAccountChanges x =
        x.codeChanges.forM fun codeChange => checkCodeChange codeChange.value :=
      fun x hx => checkAccountChanges_describes (h.accounts x hx)
    clear h hsorted
    induction bal with
    | nil => rfl
    | cons x bal ih =>
      show (checkAccountChanges x >>= fun _ => bal.forM checkAccountChanges) = _
      rw [hall x List.mem_cons_self, ih fun y hy => hall y (.tail _ hy)]
      rfl
  unfold validate contentChecks
  rw [hsorted, haccounts]
  rfl

/-- For any calls of the threads in any order, the builder makes the one list that describes
what they insert. Calls that insert the same make the same list, and of the checks of `validate`
only those of the size, the codes and the hash can fail. -/
theorem buildBlockAccessList_correct [AddressHash] (calls : List Call)
    (builder : BlockAccessListBuilder) (h : run {} calls = .ok builder) :
    ∃ bal, buildBlockAccessList builder = .ok bal ∧ Describes (factsOf calls) bal ∧
      (∀ calls' builder', run {} calls' = .ok builder' → factsOf calls' = factsOf calls →
        buildBlockAccessList builder' = .ok bal) ∧
      ∀ computeBlockAccessListHash expectedHash blockGasLimit,
        validate computeBlockAccessListHash bal expectedHash blockGasLimit =
          contentChecks computeBlockAccessListHash bal expectedHash blockGasLimit := by
  obtain ⟨bal, hbal, hdescribes⟩ := buildBlockAccessList_describes h
  refine ⟨bal, hbal, hdescribes, fun calls' builder' h' hfacts => ?_,
    validate_describes hdescribes⟩
  obtain ⟨bal', hbal', hdescribes'⟩ := buildBlockAccessList_describes h'
  rw [hfacts] at hdescribes'
  rw [hbal', hdescribes'.unique hdescribes]

/-- The last byte of the address. -/
@[reducible] def sampleHash : AddressHash := ⟨fun address => (address.get 19).toUInt64⟩

def sampleCalls : List Call :=
  [.ensureIndexCount 2, .add 1 (.account (Vector.replicate 20 7)), .add 1 (.storageWrite 0 5 1),
    .add 1 (.storageWrite 0 5 2)]

def sampleBuilder : BlockAccessListBuilder where
  perIndex := [{}, {
    accounts := [Vector.replicate 20 7]
    storageChanges := [⟨0, 5, 1⟩, ⟨0, 5, 2⟩] }]

/-- A slot that is written twice in one transaction. -/
theorem buildBlockAccessList_correct_twice :
    ∃ bal, @buildBlockAccessList sampleHash sampleBuilder = .ok bal ∧
      Describes (factsOf sampleCalls) bal ∧
      (∀ calls' builder', run {} calls' = .ok builder' → factsOf calls' = factsOf sampleCalls →
        @buildBlockAccessList sampleHash builder' = .ok bal) ∧
      ∀ computeBlockAccessListHash expectedHash blockGasLimit,
        validate computeBlockAccessListHash bal expectedHash blockGasLimit =
          contentChecks computeBlockAccessListHash bal expectedHash blockGasLimit :=
  @buildBlockAccessList_correct sampleHash sampleCalls sampleBuilder rfl

end Nimbus.Spec.BalBuilder
