import Nimbus.ForStd.ExecM
import Nimbus.Native.BalBuilder

/-!
# What is inserted into the block access list builder

The facts that the calls insert, whatever the order of calls for different indices: the touched
addresses, the slots that are read, and the last value for each index of each slot, balance,
nonce and code. A list describes the facts when it holds just these, in order, and there is only
one such list.
-/

namespace Nimbus.Spec.BalBuilder

open Nimbus.Native
open Nimbus.Native.BalBuilder
open Aristo (UInt256)
open BalTracker BalIndexData

/-! ## The facts -/

/-- What the thread of the index `i` inserts. -/
def atIndex (calls : List Call) (i : Nat) : List Add :=
  calls.filterMap fun
    | .add j entry => if j = i then some entry else none
    | .ensureIndexCount _ => none

/-- The addresses behind the account ids that one thread uses. -/
def accountsOf (adds : List Add) : List Address :=
  adds.filterMap fun
    | .account address => some address
    | _ => none

/-- The inserted facts. -/
@[ext] structure Facts where
  touched : Address → Prop
  read : Address → UInt256 → Prop
  /-- the last value that is written to a slot at an index -/
  written : Address → UInt256 → Nat → Option UInt256
  balance : Address → Nat → Option UInt256
  nonce : Address → Nat → Option AccountNonce
  code : Address → Nat → Option (List UInt8)

/-- The last value that `pick` finds at the index `i`, for the account `a`. -/
def lastPicked {V : Type} (pick : Add → Option (Nat × V)) (calls : List Call) (a : Address)
    (i : Nat) : Option V :=
  (((atIndex calls i).filterMap pick).filter fun x =>
    (accountsOf (atIndex calls i))[x.1]? == some a).getLast?.map (·.2)

def factsOf (calls : List Call) : Facts where
  touched a := ∃ i, .account a ∈ atIndex calls i
  read a slot := ∃ i id, .storageRead id slot ∈ atIndex calls i ∧
    (accountsOf (atIndex calls i))[id]? = some a
  written a slot i := lastPicked (fun
    | .storageWrite id s newValue => if s = slot then some (id, newValue) else none
    | _ => none) calls a i
  balance a i := lastPicked (fun
    | .balanceChange id postBalance => some (id, postBalance)
    | _ => none) calls a i
  nonce a i := lastPicked (fun
    | .nonceChange id newNonce => some (id, newNonce)
    | _ => none) calls a i
  code a i := lastPicked (fun
    | .codeChange id newCode => some (id, newCode)
    | _ => none) calls a i

/-! ## The logs -/

/-- The log of one index. -/
def logOf (adds : List Add) : BalIndexData := adds.foldl Add.log {}

variable {entry : Add}

theorem logOf_concat {adds : List Add} :
    logOf (adds ++ [entry]) = entry.log (logOf adds) := by
  rw [logOf, List.foldl_append]
  rfl

section

variable {adds : List Add}

/-- A field of the log holds what was added to it, in order. -/
theorem logOf_field {β : Type} {field : BalIndexData → List β} {pick : Add → Option β}
    (hempty : field {} = []) (hstep : ∀ d entry, field (Add.log d entry) =
      field d ++ (pick entry).toList) : field (logOf adds) = adds.filterMap pick := by
  induction adds using List.reverseRecOn with
  | nil => exact hempty
  | append_singleton adds entry ih =>
    rw [logOf_concat, hstep, ih]
    cases h : pick entry <;> simp [h]

theorem logOf_accounts : (logOf adds).accounts = accountsOf adds :=
  logOf_field rfl fun d entry => by cases entry <;> simp [Add.log, addAccount,
    addStorageWrite, addStorageRead, addBalanceChange,
    addNonceChange, addCodeChange]

theorem logOf_storageChanges : (logOf adds).storageChanges = adds.filterMap fun
    | .storageWrite id slot newValue => some ⟨id, slot, newValue⟩
    | _ => none :=
  logOf_field rfl fun d entry => by cases entry <;> simp [Add.log, addAccount,
    addStorageWrite, addStorageRead, addBalanceChange,
    addNonceChange, addCodeChange]

theorem logOf_storageReads : (logOf adds).storageReads = adds.filterMap fun
    | .storageRead id slot => some ⟨id, slot⟩
    | _ => none :=
  logOf_field rfl fun d entry => by cases entry <;> simp [Add.log, addAccount,
    addStorageWrite, addStorageRead, addBalanceChange,
    addNonceChange, addCodeChange]

theorem logOf_balanceChanges : (logOf adds).balanceChanges = adds.filterMap fun
    | .balanceChange id postBalance => some ⟨id, postBalance⟩
    | _ => none :=
  logOf_field rfl fun d entry => by cases entry <;> simp [Add.log, addAccount,
    addStorageWrite, addStorageRead, addBalanceChange,
    addNonceChange, addCodeChange]

theorem logOf_nonceChanges : (logOf adds).nonceChanges = adds.filterMap fun
    | .nonceChange id newNonce => some ⟨id, newNonce⟩
    | _ => none :=
  logOf_field rfl fun d entry => by cases entry <;> simp [Add.log, addAccount,
    addStorageWrite, addStorageRead, addBalanceChange,
    addNonceChange, addCodeChange]

theorem logOf_codeChanges : (logOf adds).codeChanges = adds.filterMap fun
    | .codeChange id newCode => some ⟨id, newCode⟩
    | _ => none :=
  logOf_field rfl fun d entry => by cases entry <;> simp [Add.log, addAccount,
    addStorageWrite, addStorageRead, addBalanceChange,
    addNonceChange, addCodeChange]

end

/-! ## The builder after the calls -/

/-- Every entry is for an account of the same log. -/
structure LogOk (d : BalIndexData) : Prop where
  storageChanges : ∀ w ∈ d.storageChanges, w.account < d.accounts.length
  storageReads : ∀ r ∈ d.storageReads, r.account < d.accounts.length
  balanceChanges : ∀ b ∈ d.balanceChanges, b.account < d.accounts.length
  nonceChanges : ∀ n ∈ d.nonceChanges, n.account < d.accounts.length
  codeChanges : ∀ c ∈ d.codeChanges, c.account < d.accounts.length

theorem logOk_empty : LogOk {} where
  storageChanges _ h := nomatch h
  storageReads _ h := nomatch h
  balanceChanges _ h := nomatch h
  nonceChanges _ h := nomatch h
  codeChanges _ h := nomatch h

theorem LogOk.log {d : BalIndexData} (h : LogOk d)
    (hchecked : ∀ account ∈ entry.checked, account < d.accounts.length) : LogOk (entry.log d) := by
  have hconcat {β : Type} {accountOf : β → Nat} {l : List β} {x : β}
      (hl : ∀ y ∈ l, accountOf y < d.accounts.length) (hx : accountOf x < d.accounts.length) :
      ∀ y ∈ l ++ [x], accountOf y < d.accounts.length := by
    intro y hy
    rcases List.mem_append.mp hy with hy | hy
    · exact hl y hy
    · rw [List.mem_singleton.mp hy]
      exact hx
  obtain ⟨hs, hr, hb, hn, hc⟩ := h
  cases entry with
  | account address =>
    have hmore {β : Type} {accountOf : β → Nat} {l : List β}
        (hl : ∀ y ∈ l, accountOf y < d.accounts.length) :
        ∀ y ∈ l, accountOf y < (d.accounts ++ [address]).length := fun y hy => by
      rw [List.length_append]
      exact Nat.lt_add_right _ (hl y hy)
    exact ⟨hmore hs, hmore hr, hmore hb, hmore hn, hmore hc⟩
  | storageWrite id slot newValue => exact ⟨hconcat hs (hchecked id rfl), hr, hb, hn, hc⟩
  | storageRead id slot => exact ⟨hs, hconcat hr (hchecked id rfl), hb, hn, hc⟩
  | balanceChange id postBalance => exact ⟨hs, hr, hconcat hb (hchecked id rfl), hn, hc⟩
  | nonceChange id newNonce => exact ⟨hs, hr, hb, hconcat hn (hchecked id rfl), hc⟩
  | codeChange id newCode => exact ⟨hs, hr, hb, hn, hconcat hc (hchecked id rfl)⟩

/-- The builder holds the log of each index, and there are no others. -/
structure Logged (calls : List Call) (builder : BlockAccessListBuilder) : Prop where
  perIndex : builder.perIndex =
    (List.range builder.perIndex.length).map fun i => logOf (atIndex calls i)
  beyond : ∀ i ≥ builder.perIndex.length, atIndex calls i = []
  ok : ∀ i, LogOk (logOf (atIndex calls i))

variable {calls : List Call}

theorem atIndex_concat {i j : Nat} :
    atIndex (calls ++ [.add j entry]) i =
      if j = i then atIndex calls i ++ [entry] else atIndex calls i := by
  rw [atIndex, List.filterMap_append, ← atIndex]
  by_cases h : j = i
  · simp [h]
  · simp [h]

theorem atIndex_concat_ensure {i n : Nat} :
    atIndex (calls ++ [.ensureIndexCount n]) i = atIndex calls i := by
  simp [atIndex]

variable {builder : BlockAccessListBuilder}

theorem Logged.ensureIndexCount
    (h : Logged calls builder) (n : Nat) :
    Logged (calls ++ [.ensureIndexCount n]) (builder.ensureIndexCount n) := by
  have hlen : (builder.ensureIndexCount n).perIndex.length =
      builder.perIndex.length + (n - builder.perIndex.length) := by
    simp [BlockAccessListBuilder.ensureIndexCount]
  refine ⟨?_, fun i hi => ?_, fun i => ?_⟩
  · rw [hlen]
    simp only [atIndex_concat_ensure]
    rw [List.range_add, List.map_append, ← h.perIndex, List.map_map]
    show builder.perIndex ++ _ = _
    congr 1
    refine (List.eq_replicate_iff.mpr ⟨by simp, fun d hd => ?_⟩).symm
    obtain ⟨k, _, rfl⟩ := List.mem_map.mp hd
    show logOf (atIndex calls (builder.perIndex.length + k)) = _
    rw [h.beyond _ (Nat.le_add_right _ _)]
    rfl
  · rw [atIndex_concat_ensure]
    exact h.beyond i (by omega)
  · rw [atIndex_concat_ensure]
    exact h.ok i

theorem Logged.add {builder' : BlockAccessListBuilder} {j : Nat}
    (h : Logged calls builder)
    (hadd : BalBuilder.add builder j entry = .ok builder') :
    Logged (calls ++ [.add j entry]) builder' := by
  unfold BalBuilder.add at hadd
  cases hd : builder.perIndex[j]? with
  | none =>
    rw [hd] at hadd
    cases hadd
  | some d =>
    rw [hd] at hadd
    dsimp only at hadd
    have hj : j < builder.perIndex.length := (List.getElem?_eq_some_iff.mp hd).1
    have hlog : d = logOf (atIndex calls j) := by
      rw [h.perIndex, List.getElem?_map, List.getElem?_range hj] at hd
      exact (Option.some.inj hd).symm
    by_cases hchecked : ∀ account ∈ entry.checked, account < d.accounts.length
    · rw [if_pos hchecked] at hadd
      cases hadd
      refine ⟨?_, fun i hi => ?_, fun i => ?_⟩
      · rw [List.length_set]
        apply List.ext_getElem?
        intro i
        by_cases hi : i < builder.perIndex.length
        · rw [List.getElem?_map, List.getElem?_range hi, List.getElem?_set, Option.map_some,
            atIndex_concat]
          by_cases hij : j = i
          · subst hij
            rw [if_pos rfl, if_pos hj, if_pos rfl, logOf_concat, hlog]
          · rw [if_neg hij, if_neg hij, h.perIndex, List.getElem?_map, List.getElem?_range hi]
            rfl
        · rw [List.getElem?_eq_none (by rw [List.length_set]; omega),
            List.getElem?_eq_none (by rw [List.length_map, List.length_range]; omega)]
      · rw [List.length_set] at hi
        rw [atIndex_concat, if_neg (by omega)]
        exact h.beyond i hi
      · rw [atIndex_concat]
        by_cases hij : j = i
        · subst hij
          rw [if_pos rfl, logOf_concat]
          exact (h.ok j).log (hlog ▸ hchecked)
        · rw [if_neg hij]
          exact h.ok i
    · rw [if_neg hchecked] at hadd
      cases hadd

theorem run_logged
    (h : run {} calls = .ok builder) : Logged calls builder := by
  induction calls using List.reverseRecOn generalizing builder with
  | nil =>
    cases h
    exact ⟨rfl, fun _ _ => rfl, fun _ => logOk_empty⟩
  | append_singleton calls call ih =>
    unfold run at h
    rw [List.foldlM_append] at h
    obtain ⟨before, hbefore, hcall⟩ := except_bind_ok.mp h
    have hcall : call.run before = .ok builder := by
      obtain ⟨after, hafter, hend⟩ := except_bind_ok.mp hcall
      cases hend
      exact hafter
    cases call with
    | ensureIndexCount n =>
      cases hcall
      exact (ih hbefore).ensureIndexCount n
    | add j entry => exact (ih hbefore).add hcall

/-! ## The list of the facts -/

/-- One change for each index that has a value, in index order. -/
structure Recorded {V : Type} (changes : List (Change V)) (values : Nat → Option V) : Prop where
  sorted : changes.Pairwise fun x y => x.blockAccessIndex < y.blockAccessIndex
  mem : ∀ change, change ∈ changes ↔ values change.blockAccessIndex = some change.value

/-- The record of one account. -/
structure DescribesAccount (facts : Facts) (x : AccountChanges) : Prop where
  slots_sorted : x.storageChanges.Pairwise fun c d => c.slot < d.slot
  /-- a slot has an entry if it is written at all -/
  slots : ∀ slot, (∃ c ∈ x.storageChanges, c.slot = slot) ↔
    ∃ i, facts.written x.address slot i ≠ none
  written : ∀ c ∈ x.storageChanges, Recorded c.changes (facts.written x.address c.slot)
  reads_sorted : x.storageReads.Pairwise (· < ·)
  /-- a slot that is also written is not listed as read -/
  reads : ∀ slot, slot ∈ x.storageReads ↔
    facts.read x.address slot ∧ ∀ i, facts.written x.address slot i = none
  balances : Recorded x.balanceChanges (facts.balance x.address)
  nonces : Recorded x.nonceChanges (facts.nonce x.address)
  codes : Recorded x.codeChanges (facts.code x.address)

/-- The list holds the facts and nothing else, the addresses in the order of their bytes. -/
structure Describes (facts : Facts) (bal : BlockAccessList) : Prop where
  sorted : bal.Pairwise fun x y => x.address.toList < y.address.toList
  touched : ∀ a, (∃ x ∈ bal, x.address = a) ↔ facts.touched a
  accounts : ∀ x ∈ bal, DescribesAccount facts x

/-- Two lists in strict order with the same elements are the same list. -/
theorem eq_of_sorted {α : Type} {lt : α → α → Prop} {xs ys : List α} (hx : xs.Pairwise lt)
    (hy : ys.Pairwise lt) (hirrefl : ∀ x, ¬ lt x x) (hasymm : ∀ x y, lt x y → ¬ lt y x)
    (h : ∀ x, x ∈ xs ↔ x ∈ ys) : xs = ys := by
  have hnodup {l : List α} (hl : l.Pairwise lt) : l.Nodup := by
    refine hl.imp fun {a b} hab heq => ?_
    rw [heq] at hab
    exact hirrefl b hab
  have hperm : xs.Perm ys := (List.perm_ext_iff_of_nodup (hnodup hx) (hnodup hy)).mpr h
  exact hperm.eq_of_pairwise (fun a b _ _ hab hba => absurd hba (hasymm a b hab)) hx hy

theorem Recorded.unique {V : Type} {xs ys : List (Change V)} {values : Nat → Option V}
    (hx : Recorded xs values) (hy : Recorded ys values) : xs = ys :=
  eq_of_sorted hx.sorted hy.sorted (fun _ => Nat.lt_irrefl _) (fun _ _ => Nat.lt_asymm)
    fun change => (hx.mem change).trans (hy.mem change).symm

theorem DescribesAccount.unique {facts : Facts} {x y : AccountChanges}
    (hx : DescribesAccount facts x) (hy : DescribesAccount facts y)
    (haddress : x.address = y.address) : x = y := by
  have hslots {x y : AccountChanges} (hx : DescribesAccount facts x)
      (hy : DescribesAccount facts y) (haddress : x.address = y.address) :
      ∀ c ∈ x.storageChanges, c ∈ y.storageChanges := by
    intro c hc
    have hsome := (hx.slots c.slot).mp ⟨c, hc, rfl⟩
    rw [haddress] at hsome
    obtain ⟨d, hd, hslot⟩ := (hy.slots c.slot).mpr hsome
    have hchanges := hy.written d hd
    rw [hslot, ← haddress] at hchanges
    have heq : c = d := by
      obtain ⟨slot, changes⟩ := c
      obtain ⟨slot', changes'⟩ := d
      dsimp only at hslot hchanges
      have hsame : changes = changes' := (hx.written _ hc).unique hchanges
      rw [hsame, hslot]
    rw [heq]
    exact hd
  have hstorage : x.storageChanges = y.storageChanges :=
    eq_of_sorted hx.slots_sorted hy.slots_sorted (fun _ => BitVec.lt_irrefl _)
      (fun _ _ => BitVec.lt_asymm) fun c => ⟨hslots hx hy haddress c, hslots hy hx haddress.symm c⟩
  have hreads : x.storageReads = y.storageReads := by
    refine eq_of_sorted hx.reads_sorted hy.reads_sorted (fun _ => BitVec.lt_irrefl _)
      (fun _ _ => BitVec.lt_asymm) fun slot => ?_
    rw [hx.reads, hy.reads, haddress]
  have hb := hy.balances
  have hn := hy.nonces
  have hc := hy.codes
  cases x
  cases y
  cases haddress
  cases hstorage
  cases hreads
  cases hx.balances.unique hb
  cases hx.nonces.unique hn
  cases hx.codes.unique hc
  rfl

theorem Describes.unique {facts : Facts} {bal bal' : BlockAccessList} (h : Describes facts bal)
    (h' : Describes facts bal') : bal = bal' := by
  have hmem {bal bal' : BlockAccessList} (h : Describes facts bal) (h' : Describes facts bal') :
      ∀ x ∈ bal, x ∈ bal' := by
    intro x hx
    obtain ⟨y, hy, haddress⟩ := (h'.touched x.address).mpr ((h.touched x.address).mp ⟨x, hx, rfl⟩)
    rw [(h.accounts x hx).unique (h'.accounts y hy) haddress.symm]
    exact hy
  exact eq_of_sorted h.sorted h'.sorted (fun _ => List.lt_irrefl _) (fun _ _ => List.lt_asymm)
    fun x => ⟨hmem h h' x, hmem h' h x⟩

end Nimbus.Spec.BalBuilder
