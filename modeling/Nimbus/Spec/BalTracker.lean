import Nimbus.Spec.BalReport

/-!
# The block access list tracker against full copies of the state

The tracker keeps one journal with one record for each value and frame. It hands the same
data to the builder as the specification, which keeps a full copy for each frame.
-/

namespace Nimbus.Spec.BalTracker

open Nimbus.Native Nimbus.Native.BalTracker Function
open Aristo (Hash32 UInt256 Defect)
open Tracker

variable [Keccak] {w0 : World} {m : Machine} {n : Naive} {c : Copy} {a : Address}

/-! ## The calls of the tracker -/

def balanceChange (before v : UInt256) : Change .balance { written := true, value := v } where
  capture e :=
    if !e.preBalanceKnown then { e with preBalance := before, preBalanceKnown := true } else e
  setLast l e := { e with lastBalanceJournal := l }
  setVal e := { e with postBalance := v, balanceWritten := true }

def nonceChange (before v : AccountNonce) : Change .nonce { written := true, nonce := v } where
  capture e :=
    if !e.preNonceKnown then { e with preNonce := before, preNonceKnown := true } else e
  setLast l e := { e with lastNonceJournal := l }
  setVal e := { e with postNonce := v, nonceWritten := true }

def codeChange (ledger : ReadOnlyLedger) : Change .code { written := true } where
  capture e :=
    if e.preCode.isNone then { e with preCode := some (ledger.getCodeHash e.address) } else e
  setLast l e := { e with lastCodeJournal := l }
  setVal e := { e with codeWritten := true }

/-- A capture fills in what an entry does not know of the field, and nothing else. -/
structure Captures (kind : AccountKind) (capture : AccountEntry → AccountEntry) : Prop where
  skips : ∀ e, accountKnown e kind = true → capture e = e
  address : ∀ e, (capture e).address = e.address
  grows : ∀ e k, accountKnown e k = true → accountKnown (capture e) k = true
  fills : ∀ e, accountKnown (capture e) kind = true

omit [Keccak] in
theorem Captures.of_if {kind : AccountKind} {fill : AccountEntry → AccountEntry}
    (haddress : ∀ e, (fill e).address = e.address)
    (hgrows : ∀ e k, accountKnown e k = true → accountKnown (fill e) k = true)
    (hfills : ∀ e, accountKnown (fill e) kind = true) :
    Captures kind fun e => if !accountKnown e kind then fill e else e where
  skips e hk := by simp [hk]
  address e := by split <;> simp [haddress]
  grows e k hk := by split <;> simp [hgrows, hk]
  fills e := by
    split
    · exact hfills e
    · next hk => simpa using hk

theorem Rel.accountEntry (h : Rel m n w0) (hact : n.saved ≠ []) (a : Address) :
    ∃ t₁ e, m.tracker.accountEntry a = ((addresses t₁).idxOf a, t₁) ∧
      t₁.accounts[(addresses t₁).idxOf a]? = some e ∧ e.address = a ∧ a ∈ (n.touch a).touched ∧
      t₁.storage = m.tracker.storage ∧ Rel { m with tracker := t₁ } (n.touch a) w0 := by
  obtain ⟨last, hentry⟩ := accountEntry_spec h.nodupAccounts a
  let t₁ : Tracker := { m.tracker with accounts := withAccount m.tracker a, lastAccount := last }
  have hidx : (addresses t₁).idxOf a = (addresses m.tracker).idxOf a :=
    idxOf_withAccount m.tracker a
  have hmem : a ∈ addresses t₁ := mem_withAccount m.tracker a
  have hget : (addresses t₁)[(addresses t₁).idxOf a]? = some a :=
    List.getElem?_eq_some_iff.mpr ⟨List.idxOf_lt_length_of_mem hmem, List.getElem_idxOf _⟩
  rw [addresses, List.getElem?_map, Option.map_eq_some_iff] at hget
  obtain ⟨e, he, hea⟩ := hget
  have h₁ : Rel { m with tracker := t₁ } (n.touch a) w0 := h.touch hact a last
  exact ⟨t₁, e, by rw [hidx, hentry], he, hea, h₁.touched ▸ hmem, rfl, h₁⟩

/-- A tracked change next to the change of the state, for a field that is captured first. -/
theorem Rel.capture (h : Rel m n w0) (hact : n.saved ≠ []) {kind : AccountKind} {val : CellVal}
    (ch : Change kind val) (hc : Captures kind ch.capture)
    (htr : Tracked (.account kind ((addresses m.tracker).idxOf a))) {e : AccountEntry}
    (he : m.tracker.accounts[(addresses m.tracker).idxOf a]? = some e) {r : JournalEntry}
    (hr : recordOf { r with prevLast := accountLast e kind } =
      ⟨.account kind ((addresses m.tracker).idxOf a), accountVal e kind, accountLast e kind⟩)
    (hpre : (accountVal e kind).written = false → PreAccount w0 e → PreAccount w0 (ch.capture e))
    {c' : Copy} (htracks : Tracks n.touched n.slots w0
      (update (cellVal m.tracker) (.account kind (n.touched.idxOf a)) val) c') :
    (ch.apply ((addresses m.tracker).idxOf a) (accountLast e kind) r m.tracker).storage =
      m.tracker.storage ∧
    Rel { m with
      tracker := ch.apply ((addresses m.tracker).idxOf a) (accountLast e kind) r m.tracker
      world := c'.world } { n with now := c' } w0 := by
  obtain ⟨-, hknown⟩ := h.account_cell (List.mem_of_getElem? he) kind
  have hold := h.preAccounts e (List.mem_of_getElem? he)
  have hcap : PreAccount w0 (ch.capture e) := by
    cases hk : accountKnown e kind with
    | true =>
      rw [hc.skips e hk]
      exact hold
    | false =>
      refine hpre (Bool.eq_false_iff.mpr fun hw => ?_) hold
      rw [hknown hw] at hk
      cases hk
  exact h.change hact ch htr he hr (hc.address e) hcap (hc.grows e) (hc.fills e) htracks

theorem Rel.setWorld_self (h : Rel m n w0) {world : World} (hw : world = n.now.world) :
    Rel { m with world := world } (n.setWorld world) w0 := by
  have hm : { m with world := world } = m := by rw [hw, ← h.world]
  have hn : n.setWorld world = n := by
    rw [hw]
    rfl
  rw [hm, hn]
  exact h

section

omit [Keccak]

theorem captures_balance (before v : UInt256) :
    Captures .balance (balanceChange before v).capture :=
  .of_if (fun _ => rfl) (fun _ k hk => by cases k <;> first | rfl | exact hk) fun _ => rfl

theorem captures_nonce (before v : AccountNonce) : Captures .nonce (nonceChange before v).capture :=
  .of_if (fun _ => rfl) (fun _ k hk => by cases k <;> first | rfl | exact hk) fun _ => rfl

theorem captures_code (ledger : ReadOnlyLedger) : Captures .code (codeChange ledger).capture := by
  have hif : (codeChange ledger).capture = fun e => if !accountKnown e .code then
      { e with preCode := some (ledger.getCodeHash e.address) } else e := by
    funext e
    simp [codeChange, accountKnown]
  rw [hif]
  exact .of_if (fun _ => rfl) (fun _ k hk => by cases k <;> first | rfl | exact hk) fun _ => rfl

end

theorem Rel.trackBalance (h : Rel m n w0) (hact : n.saved ≠ []) (a : Address) (v : UInt256)
    (current : Option UInt256) (hcur : ∀ x ∈ current, x = m.world.balance a) :
    ∃ t', m.tracker.trackBalanceChange m.world.readOnly a v current = .ok t' ∧
      t'.storage = m.tracker.storage ∧
      Rel { m with tracker := t', world := m.world.setBalance a v }
        ((n.touch a).setWorld (n.now.world.setBalance a v)) w0 := by
  obtain ⟨t₁, e, hentry, he, hea, hmem, hstorage, h₁⟩ := h.accountEntry hact a
  have hcell := (h₁.account_cell (List.mem_of_getElem? he) .balance).1
  have hnow : n.now.world.balance a = _ := h₁.now.balance a
  rw [hea] at hcell
  rw [hcell] at hnow
  unfold trackBalanceChange
  rw [h.pending, hentry, if_neg (by simpa using hact)]
  simp only [he]
  split
  · next hsame =>
    -- the balance has this value already
    obtain ⟨hw, hv⟩ := Bool.and_eq_true_iff.mp hsame
    have hval : n.now.world.balance a = v := by
      rw [← beq_iff_eq.mp hv]
      simpa [CellVal.get, accountVal, hw] using hnow
    have hworld : n.now.world.setBalance a v = n.now.world := by
      simp only [World.setBalance, ← hval, update_eq_self]
    refine ⟨t₁, rfl, hstorage, ?_⟩
    rw [h.world]
    exact h₁.setWorld_self hworld
  · have hbefore : current.getD (m.world.readOnly.getBalance a) = m.world.balance a := by
      cases current with
      | none => rfl
      | some x => exact hcur x rfl
    let r : JournalEntry :=
      ⟨.jBalance, (addresses t₁).idxOf a, none, e.balanceWritten, e.postBalance, 0⟩
    let ch := balanceChange (current.getD (m.world.readOnly.getBalance a)) v
    refine ⟨ch.apply ((addresses t₁).idxOf a) e.lastBalanceJournal r t₁, rfl, ?_⟩
    rw [h.world, ← hstorage]
    refine h₁.capture hact ch (captures_balance _ v) trivial he (r := r) rfl
      (fun hunwritten hpre => ?_) (h₁.now.setBalance hmem v)
    show PreAccount w0 (if _ then _ else _)
    split
    · refine { hpre with balance := fun _ => ?_ }
      rw [hea, hbefore, h.world, hnow, CellVal.get, hunwritten]
      rfl
    · exact hpre

theorem Rel.trackNonce (h : Rel m n w0) (hact : n.saved ≠ []) (a : Address) (v : AccountNonce)
    (current : Option AccountNonce) (hcur : ∀ x ∈ current, x = m.world.nonce a) :
    ∃ t', m.tracker.trackNonceChange m.world.readOnly a v current = .ok t' ∧
      t'.storage = m.tracker.storage ∧
      Rel { m with tracker := t', world := m.world.setNonce a v }
        ((n.touch a).setWorld (n.now.world.setNonce a v)) w0 := by
  obtain ⟨t₁, e, hentry, he, hea, hmem, hstorage, h₁⟩ := h.accountEntry hact a
  have hcell := (h₁.account_cell (List.mem_of_getElem? he) .nonce).1
  have hnow : n.now.world.nonce a = _ := h₁.now.nonce a
  rw [hea] at hcell
  rw [hcell] at hnow
  unfold trackNonceChange
  rw [h.pending, hentry, if_neg (by simpa using hact)]
  simp only [he]
  split
  · next hsame =>
    -- the nonce has this value already
    obtain ⟨hw, hv⟩ := Bool.and_eq_true_iff.mp hsame
    have hval : n.now.world.nonce a = v := by
      rw [← beq_iff_eq.mp hv]
      simpa [CellVal.getNonce, accountVal, hw] using hnow
    have hworld : n.now.world.setNonce a v = n.now.world := by
      simp only [World.setNonce, ← hval, update_eq_self]
    refine ⟨t₁, rfl, hstorage, ?_⟩
    rw [h.world]
    exact h₁.setWorld_self hworld
  · have hbefore : current.getD (m.world.readOnly.getNonce a) = m.world.nonce a := by
      cases current with
      | none => rfl
      | some x => exact hcur x rfl
    let r : JournalEntry :=
      ⟨.jNonce, (addresses t₁).idxOf a, none, e.nonceWritten, 0, e.postNonce⟩
    let ch := nonceChange (current.getD (m.world.readOnly.getNonce a)) v
    refine ⟨ch.apply ((addresses t₁).idxOf a) e.lastNonceJournal r t₁, rfl, ?_⟩
    rw [h.world, ← hstorage]
    refine h₁.capture hact ch (captures_nonce _ v) trivial he (r := r) rfl
      (fun hunwritten hpre => ?_) (h₁.now.setNonce hmem v)
    show PreAccount w0 (if _ then _ else _)
    split
    · refine { hpre with nonce := fun _ => ?_ }
      rw [hea, hbefore, h.world, hnow, CellVal.getNonce, hunwritten]
      rfl
    · exact hpre

theorem Rel.trackCode (h : Rel m n w0) (hact : n.saved ≠ []) (a : Address) (code : List UInt8) :
    ∃ t', m.tracker.trackCodeChange m.world.readOnly a = .ok t' ∧
      t'.storage = m.tracker.storage ∧
      Rel { m with tracker := t', world := m.world.setCode a code }
        ((n.touch a).setWorld (n.now.world.setCode a code)) w0 := by
  obtain ⟨t₁, e, hentry, he, hea, hmem, hstorage, h₁⟩ := h.accountEntry hact a
  have hcell := (h₁.account_cell (List.mem_of_getElem? he) .code).1
  have hcode : (accountVal e .code).written = false → n.now.world.code a = w0.code a := by
    rw [← hcell, hea]
    exact h₁.now.code a
  unfold trackCodeChange
  rw [h.pending, hentry, if_neg (by simpa using hact)]
  simp only [he]
  let r : JournalEntry := ⟨.jCode, (addresses t₁).idxOf a, none, e.codeWritten, 0, 0⟩
  let ch := codeChange m.world.readOnly
  refine ⟨ch.apply ((addresses t₁).idxOf a) e.lastCodeJournal r t₁, rfl, ?_⟩
  have hw : m.world.setCode a code = n.now.world.setCode a code := by rw [h.world]
  rw [hw, ← hstorage]
  refine h₁.capture hact ch (captures_code _) trivial he (r := r) rfl
    (fun hunwritten hpre => ?_) (h₁.now.setCode hmem code)
  show PreAccount w0 (if _ then _ else _)
  split
  · refine { hpre with code := fun hash hh => ?_ }
    have hhash : keccak256 (m.world.code e.address) = hash := Option.some.inj hh
    rw [← hhash, hea, h.world, hcode hunwritten]
    rfl
  · exact hpre

theorem Rel.of_statics (h : Rel m n w0) {t' : Tracker} (hstat : SameStatics m.tracker t')
    (hj : journalOf t' = journalOf m.tracker) (hjournal : t'.journal = m.tracker.journal) :
    Rel { m with tracker := t' } n w0 := by
  have hvals : vals t' = vals m.tracker := by
    show (journalOf t').val :: (UndoJournal.copies (journalOf t')).saved = _
    rw [hj]
    rfl
  have haddr : addresses t' = addresses m.tracker := hstat.entries.addresses
  have hkeys : slotKeys t' = slotKeys m.tracker := hstat.entries.slotKeys
  exact {
    wf := hj ▸ h.wf
    inRange := fun r hr => hstat.inRange (h.inRange r (hjournal ▸ hr))
    world := h.world
    savePoints := h.savePoints
    touched := h.touched.trans haddr.symm
    slots := h.slots.trans hkeys.symm
    nodupAccounts := haddr.symm ▸ h.nodupAccounts
    nodupSlots := hkeys.symm ▸ h.nodupSlots
    owner := hstat.entries.owner h.owner
    tracks := by
      rw [hvals]
      exact h.tracks
    preAccounts := by
      intro e he
      obtain ⟨e₀, he₀, heq⟩ := hstat.exists_account he
      exact (h.preAccounts e₀ he₀).congr heq
    preSlots := by
      intro e he
      obtain ⟨e₀, he₀, hk, -, hp, hv⟩ := hstat.exists_slot he
      intro hknown
      rw [hv, hk]
      exact h.preSlots e₀ he₀ (hp ▸ hknown)
    known := by
      intro val hval c hw
      rw [hvals] at hval
      exact hstat.preKnown (h.known val hval c hw)
    origin := h.origin
    idle := by
      intro hs
      obtain ⟨ha, hst, hjn, hw⟩ := h.idle hs
      have hla := congrArg List.length hstat.accounts
      have hls := congrArg List.length hstat.slots
      rw [List.length_map, ha] at hla
      rw [List.length_map, hst] at hls
      exact ⟨List.eq_nil_of_length_eq_zero hla, List.eq_nil_of_length_eq_zero hls,
        hjournal.trans hjn, hw⟩
    builder := hstat.builder.trans h.builder
    index := hstat.index.trans h.index }

omit [Keccak] in
/-- An entry that was neither read nor written becomes one that was. -/
theorem seen_modify {t t' : Tracker} {i : Nat} {f : StorageEntry → StorageEntry}
    (hbut : ∀ j e, t.storage[j]? = some e → j ≠ i → e.read = true ∨ e.written = true)
    (hf : ∀ e, (f e).read = true ∨ (f e).written = true)
    (ht' : t'.storage = t.storage.modify i f) : Seen t' := by
  intro e he
  rw [ht'] at he
  rcases mem_modify he with ⟨j, hj, he⟩ | ⟨e', -, rfl⟩
  · exact hbut j e he hj
  · exact hf e'

theorem Rel.storageEntry (h : Rel m n w0) (hseen : Seen m.tracker) (hact : n.saved ≠ [])
    (key : SlotKey) :
    ∃ t₁ e, m.tracker.storageEntry key = ((slotKeys t₁).idxOf key, t₁) ∧
      t₁.storage[(slotKeys t₁).idxOf key]? = some e ∧ e.key = key ∧
      (∀ j e, t₁.storage[j]? = some e → j ≠ (slotKeys t₁).idxOf key →
        e.read = true ∨ e.written = true) ∧
      Rel { m with tracker := t₁ } (n.touchSlot key) w0 := by
  obtain ⟨lastA, lastS, hentry⟩ :=
    storageEntry_spec h.nodupAccounts h.nodupSlots h.owner key
  let account := (addresses m.tracker).idxOf key.address
  let t₁ : Tracker := { m.tracker with
    accounts := withAccount m.tracker key.address
    storage := withSlot m.tracker key account
    lastAccount := lastA
    lastStorage := lastS }
  have h₁ : Rel { m with tracker := t₁ } (n.touchSlot key) w0 := h.touchSlot hact key lastA lastS
  have hkeys : slotKeys t₁ = if key ∈ slotKeys m.tracker then slotKeys m.tracker
      else slotKeys m.tracker ++ [key] := by
    show (withSlot m.tracker key account).map (·.key) = _
    unfold withSlot
    by_cases hk : key ∈ slotKeys m.tracker
    · rw [if_pos hk, if_pos hk]
      rfl
    · rw [if_neg hk, if_neg hk, List.map_append]
      rfl
  have hidx : (slotKeys t₁).idxOf key = (slotKeys m.tracker).idxOf key := by
    rw [hkeys]
    split
    · rfl
    · next hk =>
      rw [List.idxOf_append_of_notMem hk, List.idxOf_eq_length hk]
      simp
  have hmem : key ∈ slotKeys t₁ := by
    rw [hkeys]
    split
    · next hk => exact hk
    · simp
  have hget : (slotKeys t₁)[(slotKeys t₁).idxOf key]? = some key :=
    List.getElem?_eq_some_iff.mpr ⟨List.idxOf_lt_length_of_mem hmem, List.getElem_idxOf _⟩
  rw [slotKeys, List.getElem?_map, Option.map_eq_some_iff] at hget
  obtain ⟨e, he, hek⟩ := hget
  refine ⟨t₁, e, by rw [hidx, hentry], he, hek, ?_, h₁⟩
  intro j e' he' hj
  by_cases hk : key ∈ slotKeys m.tracker
  · have hst : t₁.storage = m.tracker.storage := if_pos hk
    rw [hst] at he'
    exact hseen e' (List.mem_of_getElem? he')
  · have hst : t₁.storage = m.tracker.storage ++ [{ key := key, account := account }] := if_neg hk
    rw [hidx, List.idxOf_eq_length hk, slotKeys, List.length_map] at hj
    rw [hst] at he'
    obtain ⟨hlt, -⟩ := List.getElem?_eq_some_iff.mp he'
    rw [List.length_append, List.length_singleton] at hlt
    rw [List.getElem?_append_left (by omega)] at he'
    exact hseen e' (List.mem_of_getElem? he')

theorem Rel.trackStorageRead (h : Rel m n w0) (hseen : Seen m.tracker) (hact : n.saved ≠ [])
    (a : Address) (slot : UInt256) :
    ∃ t', m.tracker.trackStorageRead a slot = .ok t' ∧ Seen t' ∧
      Rel { m with tracker := t' } (n.touchSlot ⟨a, slot⟩) w0 := by
  obtain ⟨t₁, e, hentry, he, -, hbut, h₁⟩ := h.storageEntry hseen hact ⟨a, slot⟩
  unfold Tracker.trackStorageRead
  rw [h.pending, hentry, if_neg (by simpa using hact)]
  refine ⟨_, rfl, seen_modify hbut (fun _ => .inl rfl) rfl, h₁.of_statics ?_ ?_ rfl⟩
  · refine ⟨rfl, ?_, rfl, rfl, rfl⟩
    apply map_modify_eq
    intro e _
    rfl
  · exact journalOf_modifyStorage_self he rfl rfl

theorem Rel.trackStorageWrite (h : Rel m n w0) (hseen : Seen m.tracker) (hact : n.saved ≠ [])
    (a : Address) (slot v : UInt256) :
    ∃ t', m.tracker.trackStorageWrite m.world.readOnly a slot v = .ok t' ∧ Seen t' ∧
      Rel { m with tracker := t', world := m.world.setStorage a slot v }
        ((n.touchSlot ⟨a, slot⟩).setWorld (n.now.world.setStorage a slot v)) w0 := by
  obtain ⟨t₁, e, hentry, he, hkey, hbut, h₁⟩ := h.storageEntry hseen hact ⟨a, slot⟩
  unfold Tracker.trackStorageWrite
  rw [h.pending, hentry, if_neg (by simpa using hact)]
  simp only [he]
  split
  · next hsame =>
    -- the slot has this value already
    obtain ⟨hw, hv⟩ := Bool.and_eq_true_iff.mp hsame
    have hcell := (h₁.slot_cell (List.mem_of_getElem? he)).1
    have hst : n.now.world.storage a slot = _ := h₁.now.storage ⟨a, slot⟩
    rw [hkey] at hcell
    rw [hcell] at hst
    have hval : n.now.world.storage a slot = v := by
      rw [← beq_iff_eq.mp hv]
      simpa [CellVal.get, slotVal, hw] using hst
    have hworld : n.now.world.setStorage a slot v = n.now.world := by
      simp only [World.setStorage, ← hval, update_eq_self]
    refine ⟨t₁, rfl, ?_, ?_⟩
    · intro e' he'
      obtain ⟨j, hj⟩ := List.mem_iff_getElem?.mp he'
      by_cases hji : j = (slotKeys t₁).idxOf ⟨a, slot⟩
      · rw [hji, he] at hj
        cases hj
        exact .inr hw
      · exact hbut j e' hj hji
    · rw [h.world]
      exact h₁.setWorld_self hworld
  · have hrel := h₁.changeSlot hact he hkey v
    refine ⟨_, ?_, ?_, hrel⟩
    · rfl
    obtain ⟨f, journal, hch, hf, -⟩ := changeSlot_lists m.world.readOnly t₁
      ((slotKeys t₁).idxOf ⟨a, slot⟩) e v
    refine seen_modify hbut (fun x : StorageEntry => ?_) (congrArg Tracker.storage hch)
    obtain ⟨-, -, hw, -⟩ := hf x
    exact .inr hw

theorem Rel.trackSelfDestruct (h : Rel m n w0) (hact : n.saved ≠ []) (a : Address) :
    ∃ t', m.tracker.trackInTransactionSelfDestruct a = .ok t' ∧
      t'.storage = m.tracker.storage ∧
      Rel { m with tracker := t' }
        { n.touch a with now.destroyed := update n.now.destroyed a true } w0 := by
  obtain ⟨t₁, e, hentry, he, hea, hmem, hstorage, h₁⟩ := h.accountEntry hact a
  unfold trackInTransactionSelfDestruct
  rw [h.pending, hentry, if_neg (by simpa using hact)]
  simp only [he]
  split
  · next hdown =>
    exact ⟨_, rfl, hstorage, h₁.selfDestruct hact he hmem (by simpa using hdown)⟩
  · next hup =>
    -- the flag is up already
    have hd : n.now.destroyed a = true := by
      have hd := h₁.now.destroyed a
      have hcell := (h₁.account_cell (List.mem_of_getElem? he) .selfDestruct).1
      rw [hea] at hcell
      rw [hcell] at hd
      refine Eq.trans hd ?_
      simpa [accountVal] using hup
    refine ⟨t₁, rfl, hstorage, ?_⟩
    have hsame : update n.now.destroyed a true = n.now.destroyed := by
      rw [← hd, update_eq_self]
    rw [hsame]
    exact h₁

/-! ## Steps and runs -/

/-- The two states belong together. -/
def Related (m : Machine) (n : Naive) : Prop := Seen m.tracker ∧ ∃ w0, Rel m n w0

/-- Both calls fail in the same way, or both succeed with states that belong together. -/
def RelatedResults : Except Defect Machine → Except Defect Naive → Prop
  | .ok m, .ok n => Related m n
  | .error e, .error e' => e = e'
  | _, _ => False

theorem related_cleared (builder : BlockAccessListBuilder) (index : Nat) (world : World) :
    Related
      { tracker := { builder := builder, currentBlockAccessIndex := index }
        world := world
        savePoints := [] }
      { now := { world := world }, builder := builder, currentBlockAccessIndex := index } :=
  ⟨(fun _ he => nomatch he), world, Rel.cleared builder index world⟩

omit [Keccak] in
theorem seen_of_storage {t t' : Tracker} (h : Seen t) (hs : t'.storage = t.storage) : Seen t' :=
  fun e he => h e (hs ▸ he)

theorem related_inFrame {r : Except Defect Machine} {n' : Naive}
    (hidle : n.saved = [] → r = .error .assertion)
    (hact : n.saved ≠ [] → ∃ m', r = .ok m' ∧ Related m' n') : RelatedResults r (n.inFrame n') := by
  unfold Naive.inFrame
  cases hs : n.saved with
  | nil =>
    rw [hidle hs]
    rfl
  | cons c saved =>
    obtain ⟨m', hr, hrel⟩ := hact (by simp [hs])
    rw [hr]
    exact hrel

theorem Rel.not_pending (h : Rel m n w0) (hs : n.saved = []) :
    m.tracker.hasPendingCallFrame = false := by
  rw [h.pending, hs]
  rfl

theorem step_commit (h : Rel m n w0) (hseen : Seen m.tracker) :
    RelatedResults (m.step .commitCallFrame) (n.step .commitCallFrame) := by
  show RelatedResults ((m.tracker.commitCallFrame m.world.readOnly).bind _) _
  unfold commitCallFrame
  rw [h.pending]
  have hparent : m.tracker.hasParentCallFrame = decide (1 < n.saved.length) := by
    rw [← h.frames_length]
    rfl
  rw [hparent]
  simp only [Naive.step]
  match hs : n.saved with
  | [] => rfl
  | [c] =>
    have hw0 : c.world = w0 := h.origin c (by rw [hs]; rfl)
    have hsp : m.savePoints.tail = [] := by
      rw [h.savePoints, hs]
      rfl
    simp only [List.isEmpty_cons, Bool.not_false, Bool.not_true, Bool.false_eq_true, if_false,
      List.length_singleton, Nat.lt_irrefl, decide_false]
    unfold recordTransaction Naive.record
    have hnorm : (m.tracker.normalizeChanges m.world.readOnly).accounts.length =
        n.touched.length := by
      rw [h.touched]
      simp [normalizeChanges, addresses]
    have hbuilder : (m.tracker.normalizeChanges m.world.readOnly).builder = n.builder := h.builder
    have hindex : (m.tracker.normalizeChanges m.world.readOnly).currentBlockAccessIndex =
        n.currentBlockAccessIndex := h.index
    rw [hnorm, hbuilder, hindex]
    by_cases ht : n.touched = []
    · rw [if_pos ht, if_pos (by rw [ht]; rfl)]
      show Related ⟨(m.tracker.normalizeChanges m.world.readOnly).clearTransaction, m.world,
        m.savePoints.tail⟩ n.clear
      unfold clearTransaction
      rw [hbuilder, hindex, hsp, h.world]
      exact related_cleared n.builder n.currentBlockAccessIndex n.now.world
    · rw [if_neg ht, if_neg (by simpa using ht)]
      cases hd : n.builder.perIndex[n.currentBlockAccessIndex]? with
      | none => rfl
      | some d =>
        simp only
        rw [h.recorded hseen d, hw0]
        let builder : BlockAccessListBuilder := ⟨n.builder.perIndex.set n.currentBlockAccessIndex
          (appendData d (report w0 n.now n.touched n.slots d.accounts.length))⟩
        rw [hsp, h.world]
        exact related_cleared builder n.currentBlockAccessIndex n.now.world
  | c :: c' :: saved =>
    exact ⟨seen_of_storage hseen rfl, w0, h.commit hs⟩

theorem step_rollback (h : Rel m n w0) (hseen : Seen m.tracker) :
    RelatedResults (m.step .rollbackCallFrame) (n.step .rollbackCallFrame) := by
  show RelatedResults (m.tracker.rollbackCallFrame.bind _) _
  unfold rollbackCallFrame
  rw [h.pending]
  have hparent : m.tracker.hasParentCallFrame = decide (1 < n.saved.length) := by
    rw [← h.frames_length]
    rfl
  rw [hparent]
  simp only [Naive.step]
  match hs : n.saved with
  | [] => rfl
  | [c] =>
    rw [h.savePoints, hs]
    unfold clearTransaction
    rw [h.builder, h.index]
    exact related_cleared n.builder n.currentBlockAccessIndex c.world
  | c :: c' :: saved =>
    have hworld : m.savePoints.headD m.world = c.world := by
      rw [h.savePoints, hs]
      rfl
    have hframes : (m.tracker.undoJournal (m.tracker.frames.headD 0)).frames =
        m.tracker.frames := (undoRecords_statics _ _ _).frames
    rw [hworld, hframes]
    exact ⟨undoRecords_seen _ _ hseen, w0, h.rollback hs⟩

theorem related_bind {r : Except Defect Tracker} {t' : Tracker} {world : World} {n' : Naive}
    (hr : r = .ok t') (hrel : Related { m with tracker := t', world := world } n') :
    ∃ m', (r.bind fun t => .ok { m with tracker := t, world := world }) = .ok m' ∧
      Related m' n' := by
  subst hr
  exact ⟨_, rfl, hrel⟩

section

variable (h : Rel m n w0) (hseen : Seen m.tracker)
include h hseen

theorem step_addBalance (a : Address)
    (delta : UInt256) : RelatedResults (m.step (.addBalance a delta)) (n.step (.addBalance a delta)) := by
  apply related_inFrame
  · intro hs
    simp only [Machine.step, trackAddBalanceChange, trackAddressAccess,
      trackBalanceChange, h.not_pending hs]
    split <;> rfl
  · intro hact
    by_cases hd : delta = 0
    · -- an empty transfer only touches the account
      obtain ⟨t₁, e, hentry, -, -, -, hst, h₁⟩ := h.accountEntry hact a
      have htrack : m.tracker.trackAddBalanceChange m.world.readOnly a delta = .ok t₁ := by
        unfold trackAddBalanceChange trackAddressAccess
        rw [if_pos hd, h.pending, hentry, if_neg (by simpa using hact)]
      have hself : n.now.world.setBalance a (n.now.world.balance a + delta) = n.now.world := by
        simp [World.setBalance, hd]
      refine related_bind htrack ⟨seen_of_storage hseen hst, w0, ?_⟩
      rw [h.world]
      exact h₁.setWorld_self hself
    · obtain ⟨t', ht, hst, h'⟩ := h.trackBalance hact a (m.world.balance a + delta)
        (some (m.world.balance a)) (by simp)
      have htrack : m.tracker.trackAddBalanceChange m.world.readOnly a delta = .ok t' := by
        unfold trackAddBalanceChange
        rw [if_neg hd]
        exact ht
      refine related_bind htrack ⟨seen_of_storage hseen hst, w0, ?_⟩
      rw [h.world] at h' ⊢
      exact h'

theorem step_subBalance (a : Address)
    (delta : UInt256) : RelatedResults (m.step (.subBalance a delta)) (n.step (.subBalance a delta)) := by
  simp only [Naive.step]
  split
  · next hd =>
    -- an empty transfer leaves everything alone
    have hself : m.world.setBalance a (m.world.balance a - delta) = m.world := by
      simp [World.setBalance, hd]
    show RelatedResults ((m.tracker.trackSubBalanceChange m.world.readOnly a delta).bind
      fun t => .ok ⟨t, m.world.setBalance a (m.world.balance a - delta), m.savePoints⟩) _
    unfold trackSubBalanceChange
    rw [if_pos hd, hself]
    exact ⟨hseen, w0, h⟩
  · next hd =>
    apply related_inFrame
    · intro hs
      simp only [Machine.step, trackSubBalanceChange, if_neg hd,
        trackBalanceChange, h.not_pending hs]
      rfl
    · intro hact
      obtain ⟨t', ht, hst, h'⟩ := h.trackBalance hact a (m.world.balance a - delta)
        (some (m.world.balance a)) (by simp)
      have htrack : m.tracker.trackSubBalanceChange m.world.readOnly a delta = .ok t' := by
        unfold trackSubBalanceChange
        rw [if_neg hd]
        exact ht
      refine related_bind htrack ⟨seen_of_storage hseen hst, w0, ?_⟩
      rw [h.world] at h' ⊢
      exact h'

theorem step_incNonce (a : Address) :
    RelatedResults (m.step (.incNonce a)) (n.step (.incNonce a)) := by
  apply related_inFrame
  · intro hs
    simp only [Machine.step, trackIncNonceChange, trackNonceChange,
      h.not_pending hs]
    rfl
  · intro hact
    obtain ⟨t', ht, hst, h'⟩ := h.trackNonce hact a (m.world.nonce a + 1)
        (some (m.world.nonce a)) (by simp)
    have htrack : m.tracker.trackIncNonceChange m.world.readOnly a = .ok t' := ht
    refine related_bind htrack ⟨seen_of_storage hseen hst, w0, ?_⟩
    rw [h.world] at h' ⊢
    exact h'

end

theorem step_rel (h : Related m n) (cmd : Cmd) : RelatedResults (m.step cmd) (n.step cmd) := by
  obtain ⟨hseen, w0, h⟩ := h
  cases cmd with
  | setBlockAccessIndex i =>
    show Related ⟨m.tracker.setBlockAccessIndex i, m.world, []⟩
      { n.clear with
        builder := n.builder.ensureIndexCount (i + 1), currentBlockAccessIndex := i }
    rw [h.world, ← h.builder]
    exact related_cleared (m.tracker.builder.ensureIndexCount (i + 1)) i n.now.world
  | beginCallFrame => exact ⟨seen_of_storage hseen rfl, w0, h.begin⟩
  | commitCallFrame => exact step_commit h hseen
  | rollbackCallFrame => exact step_rollback h hseen
  | addressAccess a =>
    apply related_inFrame
    · intro hs
      simp only [Machine.step, trackAddressAccess, h.not_pending hs]
      rfl
    · intro hact
      obtain ⟨t₁, e, hentry, -, -, -, hst, h₁⟩ := h.accountEntry hact a
      have htrack : m.tracker.trackAddressAccess a = .ok t₁ := by
        unfold trackAddressAccess
        rw [h.pending, hentry, if_neg (by simpa using hact)]
      exact related_bind htrack ⟨seen_of_storage hseen hst, w0, h₁⟩
  | storageRead a slot =>
    apply related_inFrame
    · intro hs
      simp only [Machine.step, trackStorageRead, h.not_pending hs]
      rfl
    · intro hact
      obtain ⟨t', ht, hseen', h'⟩ := h.trackStorageRead hseen hact a slot
      exact related_bind ht ⟨hseen', w0, h'⟩
  | storageWrite a slot v =>
    apply related_inFrame
    · intro hs
      simp only [Machine.step, trackStorageWrite, h.not_pending hs]
      rfl
    · intro hact
      obtain ⟨t', ht, hseen', h'⟩ := h.trackStorageWrite hseen hact a slot v
      exact related_bind ht ⟨hseen', w0, h'⟩
  | setBalance a v =>
    apply related_inFrame
    · intro hs
      simp only [Machine.step, trackBalanceChange, h.not_pending hs]
      rfl
    · intro hact
      obtain ⟨t', ht, hst, h'⟩ := h.trackBalance hact a v none (by simp)
      exact related_bind ht ⟨seen_of_storage hseen hst, w0, h'⟩
  | addBalance a delta => exact step_addBalance h hseen a delta
  | subBalance a delta => exact step_subBalance h hseen a delta
  | setNonce a v =>
    apply related_inFrame
    · intro hs
      simp only [Machine.step, trackNonceChange, h.not_pending hs]
      rfl
    · intro hact
      obtain ⟨t', ht, hst, h'⟩ := h.trackNonce hact a v none (by simp)
      exact related_bind ht ⟨seen_of_storage hseen hst, w0, h'⟩
  | incNonce a => exact step_incNonce h hseen a
  | setCode a code =>
    apply related_inFrame
    · intro hs
      simp only [Machine.step, trackCodeChange, h.not_pending hs]
      rfl
    · intro hact
      obtain ⟨t', ht, hst, h'⟩ := h.trackCode hact a code
      exact related_bind ht ⟨seen_of_storage hseen hst, w0, h'⟩
  | selfDestruct a =>
    apply related_inFrame
    · intro hs
      simp only [Machine.step, trackInTransactionSelfDestruct, h.not_pending hs]
      rfl
    · intro hact
      obtain ⟨t', ht, hst, h'⟩ := h.trackSelfDestruct hact a
      exact related_bind ht ⟨seen_of_storage hseen hst, w0, h'⟩

theorem run_rel (h : Related m n) (cmds : List Cmd) : RelatedResults (m.run cmds) (n.run cmds) := by
  induction cmds generalizing m n with
  | nil => exact h
  | cons cmd cmds ih =>
    have hstep := step_rel h cmd
    unfold Machine.run Naive.run
    rw [List.foldlM_cons, List.foldlM_cons]
    cases hm : m.step cmd with
    | error e =>
      cases hn : n.step cmd with
      | error e' =>
        rw [hm, hn] at hstep
        exact hstep
      | ok n' =>
        rw [hm, hn] at hstep
        exact hstep.elim
    | ok m' =>
      cases hn : n.step cmd with
      | error e' =>
        rw [hm, hn] at hstep
        exact hstep.elim
      | ok n' =>
        rw [hm, hn] at hstep
        exact ih hstep

/-- Every run gives the builder what the specification with full copies gives it, and fails
where the specification fails. -/
theorem run_eq_naive (world : World) (cmds : List Cmd) :
    ((Machine.init world).run cmds).map (·.tracker.builder) =
      ((Naive.init world).run cmds).map (·.builder) := by
  have hrun := run_rel (related_cleared {} 0 world) cmds
  show (Machine.run ⟨{}, world, []⟩ cmds).map _ = (Naive.run { now := { world } } cmds).map _
  cases hm : Machine.run ⟨{}, world, []⟩ cmds with
  | error e =>
    cases hn : Naive.run { now := { world } } cmds with
    | error e' =>
      rw [hm, hn] at hrun
      exact congrArg Except.error hrun
    | ok n' =>
      rw [hm, hn] at hrun
      exact hrun.elim
  | ok m' =>
    cases hn : Naive.run { now := { world } } cmds with
    | error e' =>
      rw [hm, hn] at hrun
      exact hrun.elim
    | ok n' =>
      rw [hm, hn] at hrun
      obtain ⟨-, w0, h⟩ := hrun
      exact congrArg Except.ok h.builder

end Nimbus.Spec.BalTracker
