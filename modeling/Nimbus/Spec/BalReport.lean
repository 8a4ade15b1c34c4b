import Nimbus.Spec.BalFrames

/-!
# What the tracker hands to the builder

After the flags are normalized, the builder gets the report of the specification.
-/

namespace Nimbus.Spec.BalTracker

open Nimbus.Native Nimbus.Native.BalTracker Function
open Aristo (Hash32 UInt256 Defect)
open BalIndexData

variable [Keccak] {w0 : World} {m : Machine} {n : Naive} {c : Copy} {a : Address}

/-! ## The end of a transaction -/

theorem Rel.cleared (builder : BlockAccessListBuilder) (index : Nat) (world : World) :
    Rel { tracker := { builder := builder, currentBlockAccessIndex := index }
          world := world
          savePoints := [] }
      { now := { world := world }, builder := builder, currentBlockAccessIndex := index }
      world where
  wf := ⟨fun c _ => by cases c <;> rfl, fun c _ => by cases c <;> rfl, trivial,
    (fun _ hn => nomatch hn), List.Pairwise.nil⟩
  inRange r hr := nomatch hr
  world := rfl
  savePoints := rfl
  touched := rfl
  slots := rfl
  nodupAccounts := List.nodup_nil
  nodupSlots := List.nodup_nil
  owner e he := nomatch he
  tracks := by
    refine .cons ?_ .nil
    exact {
      storage := fun _ => rfl
      balance := fun _ => rfl
      nonce := fun _ => rfl
      code := fun _ _ => rfl
      destroyed := fun _ => rfl
      freshSlot := fun _ _ => rfl
      freshAccount := fun _ _ _ => rfl }
  preAccounts e he := nomatch he
  preSlots e he := nomatch he
  known val hval c hw := by
    rcases List.mem_cons.mp hval with rfl | hval
    · cases c <;> cases hw
    · cases hval
  origin c hc := nomatch hc
  idle _ := ⟨rfl, rfl, rfl, rfl⟩
  builder := rfl
  index := rfl

section

omit [Keccak]

theorem filter_map_map {A B C : Type} (l : List A) (f : A → B) (p : A → Bool) (q : B → Bool)
    (g : A → C) (g' : B → C) (hp : ∀ x ∈ l, p x = q (f x))
    (hg : ∀ x ∈ l, p x = true → g x = g' (f x)) :
    (l.filter p).map g = ((l.map f).filter q).map g' := by
  induction l with
  | nil => rfl
  | cons x l ih =>
    have hrest := ih (fun y hy => hp y (.tail _ hy))
      fun y hy => hg y (.tail _ hy)
    rw [List.map_cons, List.filter_cons, List.filter_cons, ← hp x List.mem_cons_self]
    split
    · next hpx => rw [List.map_cons, List.map_cons, hrest, hg x List.mem_cons_self hpx]
    · exact hrest

/-- What the accounts of a transaction add to the builder, where `id` numbers them. -/
theorem foldl_recordAccount (ledger : ReadOnlyLedger) (id : Address → Nat)
    (l : List AccountEntry) (d : BalIndexData)
    (hid : ∀ (i : Nat) e, l[i]? = some e → d.accounts.length + i = id e.address) :
    l.foldl (Tracker.recordAccount ledger) d = appendData d
      { accounts := l.map (·.address)
        balanceChanges := (l.filter (·.balanceWritten)).map fun e => ⟨id e.address, e.postBalance⟩
        nonceChanges := (l.filter (·.nonceWritten)).map fun e => ⟨id e.address, e.postNonce⟩
        codeChanges := (l.filter (·.codeWritten)).map fun e =>
          ⟨id e.address, ledger.getCode e.address⟩ } := by
  induction l generalizing d with
  | nil => simp [appendData]
  | cons e l ih =>
    have hlen : (Tracker.recordAccount ledger d e).accounts.length = d.accounts.length + 1 := by
      unfold Tracker.recordAccount
      simp only [apply_ite accounts, addAccount,
        addBalanceChange, addNonceChange, addCodeChange]
      simp
    have hids : ∀ (i : Nat) e', l[i]? = some e' →
        (Tracker.recordAccount ledger d e).accounts.length + i = id e'.address := by
      intro i e' he'
      rw [← hid (i + 1) e' he']
      omega
    have he : d.accounts.length = id e.address := hid 0 e rfl
    rw [List.foldl_cons, ih _ hids]
    unfold Tracker.recordAccount appendData
    rw [he]
    cases hb : e.balanceWritten <;> cases hn : e.nonceWritten <;> cases hc : e.codeWritten <;>
      simp [hb, hn, hc, addAccount, addBalanceChange,
        addNonceChange, addCodeChange]

theorem foldlM_recordSlot (first : Nat) (l : List StorageEntry) (d : BalIndexData)
    (hseen : ∀ e ∈ l, e.read = true ∨ e.written = true)
    (hid : ∀ e ∈ l, first + e.account < d.accounts.length) :
    l.foldlM (Tracker.recordSlot first) d = .ok (appendData d
      { storageChanges := (l.filter (·.written)).map fun e =>
          ⟨first + e.account, e.key.slot, e.post⟩
        storageReads := (l.filter (!·.written)).map fun e =>
          ⟨first + e.account, e.key.slot⟩ }) := by
  induction l generalizing d with
  | nil => simp [appendData, pure, Except.pure]
  | cons e l ih =>
    have hlt := hid e List.mem_cons_self
    have hstep : ∀ d', d'.accounts = d.accounts → l.foldlM (Tracker.recordSlot first) d' = _ :=
      fun d' hd' => ih d' (fun e' he' => hseen e' (.tail _ he'))
        (by rw [hd']; exact fun e' he' => hid e' (.tail _ he'))
    rw [List.foldlM_cons]
    cases hw : e.written with
    | true =>
      have hr : Tracker.recordSlot first d e =
          .ok (d.addStorageWrite (first + e.account) e.key.slot e.post) := by
        simp [Tracker.recordSlot, hw, hlt]
      rw [hr]
      show l.foldlM _ _ = _
      rw [hstep (d.addStorageWrite (first + e.account) e.key.slot e.post) rfl]
      simp [appendData, addStorageWrite, hw]
    | false =>
      have hread : e.read = true := by simpa [hw] using hseen e List.mem_cons_self
      have hr : Tracker.recordSlot first d e =
          .ok (d.addStorageRead (first + e.account) e.key.slot) := by
        simp [Tracker.recordSlot, hw, hread, hlt]
      rw [hr]
      show l.foldlM _ _ = _
      rw [hstep (d.addStorageRead (first + e.account) e.key.slot) rfl]
      simp [appendData, addStorageRead, hw]

theorem normalizeAccount_eq (ledger : ReadOnlyLedger) (e : AccountEntry) :
    Tracker.normalizeAccount ledger e = { e with
      balanceWritten := e.balanceWritten && e.preBalance != e.postBalance
      nonceWritten := !e.selfDestructed && e.nonceWritten && e.preNonce != e.postNonce
      codeWritten := !e.selfDestructed && e.codeWritten &&
        e.preCode != some (ledger.getCodeHash e.address) } := by
  have hdestroyed : ∀ e, Tracker.dropDestructed e = { e with
      nonceWritten := !e.selfDestructed && e.nonceWritten
      codeWritten := !e.selfDestructed && e.codeWritten } := by
    rintro ⟨a, bw, nw, cw, bk, nk, pb, qb, pn, qn, pc, sd, l₁, l₂, l₃⟩
    cases sd <;> rfl
  have hbalance : ∀ (e : AccountEntry) (c : Bool),
      (if e.balanceWritten && c then { e with balanceWritten := false } else e) =
        { e with balanceWritten := e.balanceWritten && !c } := by
    rintro ⟨a, bw, nw, cw, bk, nk, pb, qb, pn, qn, pc, sd, l₁, l₂, l₃⟩ c
    cases bw <;> cases c <;> rfl
  have hnonce : ∀ (e : AccountEntry) (c : Bool),
      (if e.nonceWritten && c then { e with nonceWritten := false } else e) =
        { e with nonceWritten := e.nonceWritten && !c } := by
    rintro ⟨a, bw, nw, cw, bk, nk, pb, qb, pn, qn, pc, sd, l₁, l₂, l₃⟩ c
    cases nw <;> cases c <;> rfl
  have hcode : ∀ (e : AccountEntry) (c : Bool),
      (if e.codeWritten && c then { e with codeWritten := false } else e) =
        { e with codeWritten := e.codeWritten && !c } := by
    rintro ⟨a, bw, nw, cw, bk, nk, pb, qb, pn, qn, pc, sd, l₁, l₂, l₃⟩ c
    cases cw <;> cases c <;> rfl
  rw [Tracker.normalizeAccount, hdestroyed, Tracker.dropBalance, hbalance, Tracker.dropNonce,
    hnonce, Tracker.dropCode, hcode]
  rfl

end

section

variable (h : Rel m n w0)
include h

theorem Rel.account_cell {e : AccountEntry} (he : e ∈ m.tracker.accounts)
    (kind : AccountKind) :
    cellVal m.tracker (.account kind (n.touched.idxOf e.address)) = accountVal e kind ∧
      ((accountVal e kind).written = true → accountKnown e kind = true) := by
  obtain ⟨i, hi⟩ := List.mem_iff_getElem?.mp he
  have hget : (addresses m.tracker)[i]? = some e.address := by simp [addresses, hi]
  obtain ⟨hlt, hval⟩ := List.getElem?_eq_some_iff.mp hget
  have hidx : n.touched.idxOf e.address = i := by
    rw [h.touched, ← hval]
    exact h.nodupAccounts.idxOf_getElem i hlt
  rw [hidx, cellVal_account hi]
  refine ⟨rfl, fun hw => ?_⟩
  rw [← cellVal_account hi] at hw
  have hk := h.known _ List.mem_cons_self _ hw
  simpa [preKnown, hi] using hk

theorem Rel.slot_cell {e : StorageEntry} (he : e ∈ m.tracker.storage) :
    cellVal m.tracker (.storage (n.slots.idxOf e.key)) = slotVal e ∧
      (e.written = true → e.preKnown = true) := by
  obtain ⟨i, hi⟩ := List.mem_iff_getElem?.mp he
  have hget : (slotKeys m.tracker)[i]? = some e.key := by simp [slotKeys, hi]
  obtain ⟨hlt, hval⟩ := List.getElem?_eq_some_iff.mp hget
  have hidx : n.slots.idxOf e.key = i := by
    rw [h.slots, ← hval]
    exact h.nodupSlots.idxOf_getElem i hlt
  rw [hidx, cellVal_storage hi]
  refine ⟨rfl, fun hw => ?_⟩
  have hw' : (cellVal m.tracker (.storage i)).written = true := by
    rw [cellVal_storage hi]
    exact hw
  have hk := h.known _ List.mem_cons_self _ hw'
  simpa [preKnown, hi] using hk

section

variable {e : AccountEntry} (he : e ∈ m.tracker.accounts)
include he

theorem Rel.balance_eq :
    (e.balanceWritten && e.preBalance != e.postBalance) = balanceChanged w0 n.now e.address ∧
      (e.balanceWritten = true → e.postBalance = n.now.world.balance e.address) := by
  obtain ⟨hcell, hknown⟩ := h.account_cell he .balance
  have hb := h.now.balance e.address
  rw [hcell] at hb
  unfold balanceChanged
  rw [hb]
  cases hw : e.balanceWritten with
  | false => simp [CellVal.get, accountVal, hw]
  | true =>
    have hp := (h.preAccounts e he).balance (hknown hw)
    simp [CellVal.get, accountVal, hw, hp]

theorem Rel.nonce_eq : (!e.selfDestructed && e.nonceWritten && e.preNonce != e.postNonce) =
        nonceChanged w0 n.now e.address ∧
      (e.nonceWritten = true → e.postNonce = n.now.world.nonce e.address) := by
  obtain ⟨hcell, hknown⟩ := h.account_cell he .nonce
  have hb := h.now.nonce e.address
  have hd := h.now.destroyed e.address
  rw [(h.account_cell he .selfDestruct).1] at hd
  rw [hcell] at hb
  unfold nonceChanged
  rw [hb, hd]
  cases hw : e.nonceWritten with
  | false => simp [CellVal.getNonce, accountVal, hw]
  | true =>
    have hp := (h.preAccounts e he).nonce (hknown hw)
    simp [CellVal.getNonce, accountVal, hw, hp]

theorem Rel.code_eq : (!e.selfDestructed && e.codeWritten &&
        e.preCode != some (m.world.readOnly.getCodeHash e.address)) =
      codeChanged w0 n.now e.address := by
  obtain ⟨hcell, hknown⟩ := h.account_cell he .code
  have hb := h.now.code e.address
  have hd := h.now.destroyed e.address
  rw [(h.account_cell he .selfDestruct).1] at hd
  rw [hcell] at hb
  unfold codeChanged
  rw [hd, h.world]
  cases hw : e.codeWritten with
  | false =>
    have hsame : n.now.world.code e.address = w0.code e.address := hb hw
    simp [accountVal, World.readOnly, hsame]
  | true =>
    obtain ⟨hash, hh⟩ := Option.isSome_iff_exists.mp (hknown hw)
    have hp := (h.preAccounts e he).code hash hh
    have hsome : ∀ x : Hash32, (some hash != some x) = (hash != x) := by
      intro x
      rw [Bool.eq_iff_iff]
      simp
    rw [hh, ← hp, Bool.and_true]
    rfl

end

theorem Rel.slot_eq {e : StorageEntry} (he : e ∈ m.tracker.storage) :
    (e.written && !(e.pre == e.post ||
        (m.tracker.accounts[e.account]?).any (·.selfDestructed))) =
      slotChanged w0 n.now e.key ∧
      (e.written = true → e.post = n.now.world.storage e.key.address e.key.slot) := by
  obtain ⟨hcell, hknown⟩ := h.slot_cell he
  have hb := h.now.storage e.key
  rw [hcell] at hb
  have hown := h.owner e he
  simp only [addresses, List.getElem?_map, Option.map_eq_some_iff] at hown
  obtain ⟨x, hx, hxa⟩ := hown
  have hd := h.now.destroyed e.key.address
  rw [← hxa, (h.account_cell (List.mem_of_getElem? hx) .selfDestruct).1, hxa] at hd
  unfold slotChanged
  rw [hb, hd, hx]
  cases hw : e.written with
  | false => simp [CellVal.get, slotVal, hw]
  | true =>
    have hp : e.pre = w0.storage e.key.address e.key.slot := h.preSlots e he (hknown hw)
    refine ⟨?_, fun _ => by simp [CellVal.get, slotVal, hw]⟩
    rw [← hp]
    simp [CellVal.get, slotVal, hw, accountVal, Bool.and_comm, bne]

theorem Rel.recorded (hseen : Seen m.tracker) (d : BalIndexData) :
    (m.tracker.normalizeChanges m.world.readOnly).storage.foldlM
        (Tracker.recordSlot d.accounts.length)
        ((m.tracker.normalizeChanges m.world.readOnly).accounts.foldl
          (Tracker.recordAccount m.world.readOnly) d) =
      .ok (appendData d (report w0 n.now n.touched n.slots d.accounts.length)) := by
  let ledger := m.world.readOnly
  let accounts' := m.tracker.accounts.map (Tracker.normalizeAccount ledger)
  let id : Address → Nat := fun a => d.accounts.length + n.touched.idxOf a
  -- the accounts are numbered by their positions
  have hid : ∀ (i : Nat) e, accounts'[i]? = some e → d.accounts.length + i = id e.address := by
    intro i e he
    simp only [accounts', List.getElem?_map, Option.map_eq_some_iff] at he
    obtain ⟨e₀, he₀, rfl⟩ := he
    rw [normalizeAccount_eq]
    have hget : (addresses m.tracker)[i]? = some e₀.address := by simp [addresses, he₀]
    obtain ⟨hlt, hval⟩ := List.getElem?_eq_some_iff.mp hget
    show _ = d.accounts.length + n.touched.idxOf e₀.address
    rw [h.touched, ← hval, h.nodupAccounts.idxOf_getElem i hlt]
  have haddr : accounts'.map (·.address) = n.touched := by
    rw [h.touched]
    simp only [accounts', List.map_map, addresses]
    apply List.map_congr_left
    intro e _
    simp [normalizeAccount_eq]
  have hacc := foldl_recordAccount ledger id accounts' d hid
  have hsel : ∀ e ∈ m.tracker.storage, Tracker.normalizeStorage accounts' e =
      { e with
        written := slotChanged w0 n.now e.key
        read := e.read || (e.written && !slotChanged w0 n.now e.key) } := by
    intro e he
    have hany : (accounts'[e.account]?).any (·.selfDestructed) =
        (m.tracker.accounts[e.account]?).any (·.selfDestructed) := by
      simp only [accounts', List.getElem?_map]
      cases m.tracker.accounts[e.account]? with
      | none => rfl
      | some x => simp [normalizeAccount_eq]
    unfold Tracker.normalizeStorage
    rw [hany, ← (h.slot_eq he).1]
    generalize (e.pre == e.post || (m.tracker.accounts[e.account]?).any (·.selfDestructed)) = b
    obtain ⟨k, a, r, w, pk, p, q, l⟩ := e
    cases w <;> cases b <;> cases r <;> rfl
  have hslots := foldlM_recordSlot d.accounts.length
    (m.tracker.storage.map (Tracker.normalizeStorage accounts'))
    (accounts'.foldl (Tracker.recordAccount ledger) d)
    (by
      intro e he
      obtain ⟨e₀, he₀, rfl⟩ := List.mem_map.mp he
      rw [hsel e₀ he₀]
      have hs := hseen e₀ he₀
      cases hw : e₀.written <;> cases hr : e₀.read <;> cases hc : slotChanged w0 n.now e₀.key <;>
        simp [hw, hr] at hs ⊢)
    (by
      intro e he
      obtain ⟨e₀, he₀, rfl⟩ := List.mem_map.mp he
      rw [hsel e₀ he₀, hacc]
      have ho := h.owner e₀ he₀
      rw [← h.touched, ← haddr] at ho
      obtain ⟨hlt, -⟩ := List.getElem?_eq_some_iff.mp ho
      simp only [appendData, List.length_append]
      omega)
  refine Eq.trans hslots ?_
  rw [hacc]
  unfold report
  have hbal := filter_map_map accounts' (·.address) (·.balanceWritten)
    (balanceChanged w0 n.now) (fun e => (⟨id e.address, e.postBalance⟩ : BalanceWrite))
    (fun a => ⟨id a, n.now.world.balance a⟩)
    (by
      intro e he
      obtain ⟨e₀, he₀, rfl⟩ := List.mem_map.mp he
      rw [normalizeAccount_eq]
      exact (h.balance_eq he₀).1)
    (by
      intro e he hw
      obtain ⟨e₀, he₀, rfl⟩ := List.mem_map.mp he
      rw [normalizeAccount_eq] at hw ⊢
      have hw' := (Bool.and_eq_true_iff.mp hw).1
      rw [(h.balance_eq he₀).2 hw'])
  have hnonce := filter_map_map accounts' (·.address) (·.nonceWritten)
    (nonceChanged w0 n.now) (fun e => (⟨id e.address, e.postNonce⟩ : NonceWrite))
    (fun a => ⟨id a, n.now.world.nonce a⟩)
    (by
      intro e he
      obtain ⟨e₀, he₀, rfl⟩ := List.mem_map.mp he
      rw [normalizeAccount_eq]
      exact (h.nonce_eq he₀).1)
    (by
      intro e he hw
      obtain ⟨e₀, he₀, rfl⟩ := List.mem_map.mp he
      rw [normalizeAccount_eq] at hw ⊢
      have hw' := (Bool.and_eq_true_iff.mp (Bool.and_eq_true_iff.mp hw).1).2
      rw [(h.nonce_eq he₀).2 hw'])
  have hcode := filter_map_map accounts' (·.address) (·.codeWritten)
    (codeChanged w0 n.now) (fun e => (⟨id e.address, ledger.getCode e.address⟩ : CodeWrite))
    (fun a => ⟨id a, n.now.world.code a⟩)
    (by
      intro e he
      obtain ⟨e₀, he₀, rfl⟩ := List.mem_map.mp he
      rw [normalizeAccount_eq]
      exact h.code_eq he₀)
    (by
      intro e _ _
      show CodeWrite.mk _ (m.world.code e.address) = _
      rw [h.world])
  -- the slots, by their keys
  have hown : ∀ e ∈ m.tracker.storage, d.accounts.length + e.account = id e.key.address := by
    intro e he
    obtain ⟨hlt, hval⟩ := List.getElem?_eq_some_iff.mp (h.owner e he)
    show _ = d.accounts.length + n.touched.idxOf e.key.address
    rw [h.touched, ← hval, h.nodupAccounts.idxOf_getElem _ hlt]
  have hwrites := filter_map_map (m.tracker.storage.map (Tracker.normalizeStorage accounts'))
    (·.key) (·.written) (slotChanged w0 n.now)
    (fun e => (⟨d.accounts.length + e.account, e.key.slot, e.post⟩ : StorageWrite))
    (fun k => ⟨id k.address, k.slot, n.now.world.storage k.address k.slot⟩)
    (by
      intro e he
      obtain ⟨e₀, he₀, rfl⟩ := List.mem_map.mp he
      rw [hsel e₀ he₀])
    (by
      intro e he hw
      obtain ⟨e₀, he₀, rfl⟩ := List.mem_map.mp he
      rw [hsel e₀ he₀] at hw ⊢
      have hw' : e₀.written = true := by
        have hc := (h.slot_eq he₀).1.trans hw
        exact (Bool.and_eq_true_iff.mp hc).1
      rw [hown e₀ he₀, (h.slot_eq he₀).2 hw'])
  have hreads := filter_map_map (m.tracker.storage.map (Tracker.normalizeStorage accounts'))
    (·.key) (!·.written) (!slotChanged w0 n.now ·)
    (fun e => (⟨d.accounts.length + e.account, e.key.slot⟩ : StorageReadEntry))
    (fun k => ⟨id k.address, k.slot⟩)
    (by
      intro e he
      obtain ⟨e₀, he₀, rfl⟩ := List.mem_map.mp he
      rw [hsel e₀ he₀])
    (by
      intro e he _
      obtain ⟨e₀, he₀, rfl⟩ := List.mem_map.mp he
      rw [hsel e₀ he₀, hown e₀ he₀])
  have hkeys : (m.tracker.storage.map (Tracker.normalizeStorage accounts')).map (·.key) =
      n.slots := by
    rw [h.slots, List.map_map]
    apply List.map_congr_left
    intro e he
    show (Tracker.normalizeStorage accounts' e).key = e.key
    rw [hsel e he]
  rw [hkeys] at hwrites hreads
  rw [hwrites, hreads, hbal, hnonce, hcode, haddr]
  simp [appendData, id]

end

end Nimbus.Spec.BalTracker
