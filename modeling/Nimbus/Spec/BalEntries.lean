import Nimbus.Spec.BalNaive

/-!
# The tracker next to its specification

The relation between the two, and the calls that find or add an entry.
-/

namespace Nimbus.Spec.BalTracker

open Nimbus.Native Nimbus.Native.BalTracker Function
open Aristo (Hash32 UInt256 Defect)
open Tracker

/-! ## The relation between the tracker and the specification -/

/-- What an entry knows of the state before the transaction is right. -/
structure PreAccount [Keccak] (w0 : World) (e : AccountEntry) : Prop where
  balance : e.preBalanceKnown = true → e.preBalance = w0.balance e.address
  nonce : e.preNonceKnown = true → e.preNonce = w0.nonce e.address
  code : ∀ h, e.preCode = some h → h = w0.readOnly.getCodeHash e.address

def PreSlot (w0 : World) (e : StorageEntry) : Prop :=
  e.preKnown = true → e.pre = w0.storage e.key.address e.key.slot

def accountKnown (e : AccountEntry) : AccountKind → Bool
  | .balance => e.preBalanceKnown
  | .nonce => e.preNonceKnown
  | .code => e.preCode.isSome
  | .selfDestruct => true

variable (t : Tracker)

/-- Whether the entry of a cell knows the value before the transaction. -/
def preKnown : Cell → Bool
  | .storage i => (t.storage[i]?).elim false (·.preKnown)
  | .account kind i => (t.accounts[i]?).elim false (accountKnown · kind)

def addresses : List Address := t.accounts.map (·.address)

def slotKeys : List SlotKey := t.storage.map (·.key)

/-- The written values now and at the start of each open frame. -/
def vals (t : Tracker) : List (Cell → CellVal) :=
  cellVal t :: (UndoJournal.copies (journalOf t)).saved

/-- `w0` is the state before the transaction. -/
structure Rel [Keccak] (m : Machine) (n : Naive) (w0 : World) : Prop where
  wf : (journalOf m.tracker).Wf Tracked
  inRange : JournalInRange m.tracker
  world : m.world = n.now.world
  savePoints : m.savePoints = n.saved.map (·.world)
  touched : n.touched = addresses m.tracker
  slots : n.slots = slotKeys m.tracker
  nodupAccounts : (addresses m.tracker).Nodup
  nodupSlots : (slotKeys m.tracker).Nodup
  /-- a slot refers to the entry of its account -/
  owner : ∀ e ∈ m.tracker.storage, (addresses m.tracker)[e.account]? = some e.key.address
  tracks : List.Forall₂ (Tracks n.touched n.slots w0) (vals m.tracker) (n.now :: n.saved)
  preAccounts : ∀ e ∈ m.tracker.accounts, PreAccount w0 e
  preSlots : ∀ e ∈ m.tracker.storage, PreSlot w0 e
  /-- no value is written before the one that it replaces is known -/
  known : ∀ val ∈ vals m.tracker, ∀ c, (val c).written = true → preKnown m.tracker c = true
  origin : ∀ c ∈ n.saved.getLast?, c.world = w0
  idle : n.saved = [] →
    m.tracker.accounts = [] ∧ m.tracker.storage = [] ∧ m.tracker.journal = [] ∧ n.now.world = w0
  builder : m.tracker.builder = n.builder
  index : m.tracker.currentBlockAccessIndex = n.currentBlockAccessIndex

/-- Each slot of the list was read or is written. -/
def Seen : Prop := ∀ e ∈ t.storage, e.read = true ∨ e.written = true

/-! ## Finding entries -/

def withAccount (a : Address) : List AccountEntry :=
  if a ∈ addresses t then t.accounts else t.accounts ++ [{ address := a }]

def withSlot (key : SlotKey) (account : Nat) : List StorageEntry :=
  if key ∈ slotKeys t then t.storage else t.storage ++ [{ key := key, account := account }]

theorem findIdx_address (l : List AccountEntry) (a : Address) :
    l.findIdx (·.address = a) = (l.map (·.address)).idxOf a := by
  unfold List.idxOf
  rw [List.findIdx_map]
  congr 1
  funext e
  rw [Bool.eq_iff_iff, decide_eq_true_iff]
  exact beq_iff_eq.symm

theorem findIdx_key (l : List StorageEntry) (k : SlotKey) :
    l.findIdx (·.key = k) = (l.map (·.key)).idxOf k := by
  unfold List.idxOf
  rw [List.findIdx_map]
  congr 1

theorem accountEntry_spec {t : Tracker} (hnodup : (addresses t).Nodup) (a : Address) :
    ∃ last, t.accountEntry a =
      ((addresses t).idxOf a, { t with accounts := withAccount t a, lastAccount := last }) := by
  have hresolve : accountEntry.resolve t a =
      ((addresses t).idxOf a,
        { t with accounts := withAccount t a, lastAccount := some ((addresses t).idxOf a) }) := by
    unfold accountEntry.resolve withAccount
    rw [findIdx_address]
    have hmem : (t.accounts.map (·.address)).idxOf a < t.accounts.length ↔ a ∈ addresses t := by
      rw [← List.length_map (·.address), List.idxOf_lt_length_iff]
      rfl
    simp only [hmem]
    rfl
  unfold accountEntry
  split
  · next pos hlast =>
    split
    · next hpos =>
      rw [← List.getElem?_map] at hpos
      obtain ⟨hlt, hget⟩ := List.getElem?_eq_some_iff.mp hpos
      have hidx : (addresses t).idxOf a = pos := by
        rw [← hget]
        exact hnodup.idxOf_getElem pos hlt
      have hmem : a ∈ addresses t := List.mem_of_getElem? hpos
      refine ⟨t.lastAccount, ?_⟩
      rw [hidx, withAccount, if_pos hmem]
    · exact ⟨_, hresolve⟩
  · exact ⟨_, hresolve⟩

theorem mem_withAccount (a : Address) : a ∈ (withAccount t a).map (·.address) := by
  unfold withAccount
  split
  · next h => exact h
  · simp

/-- The position of an address does not move when an entry is added for it. -/
theorem idxOf_withAccount (a : Address) :
    ((withAccount t a).map (·.address)).idxOf a = (addresses t).idxOf a := by
  unfold withAccount
  split
  · rfl
  · next h =>
    have h' : a ∉ t.accounts.map (·.address) := h
    rw [List.map_append, List.idxOf_append_of_notMem h', addresses, List.idxOf_eq_length h']
    simp

theorem storageEntry_spec {t : Tracker} (hnodup : (addresses t).Nodup) (hkeys : (slotKeys t).Nodup)
    (howner : ∀ e ∈ t.storage, (addresses t)[e.account]? = some e.key.address) (key : SlotKey) :
    ∃ lastAccount lastStorage, t.storageEntry key =
      ((slotKeys t).idxOf key, { t with
        accounts := withAccount t key.address
        storage := withSlot t key ((addresses t).idxOf key.address)
        lastAccount := lastAccount
        lastStorage := lastStorage }) := by
  -- the account of a known slot is there already
  have hmem : key ∈ slotKeys t → withAccount t key.address = t.accounts := by
    intro hk
    obtain ⟨e, he, rfl⟩ := List.mem_map.mp hk
    exact if_pos (List.mem_of_getElem? (howner e he))
  have hresolve : ∃ lastAccount lastStorage, storageEntry.resolve t key =
      ((slotKeys t).idxOf key, { t with
        accounts := withAccount t key.address
        storage := withSlot t key ((addresses t).idxOf key.address)
        lastAccount := lastAccount
        lastStorage := lastStorage }) := by
    unfold storageEntry.resolve withSlot
    rw [findIdx_key]
    have hlt : (t.storage.map (·.key)).idxOf key < t.storage.length ↔ key ∈ slotKeys t := by
      rw [← List.length_map (·.key), List.idxOf_lt_length_iff]
      rfl
    simp only [hlt]
    split
    · next hk =>
      refine ⟨t.lastAccount, some ((slotKeys t).idxOf key), ?_⟩
      rw [hmem hk]
      rfl
    · obtain ⟨last, hacc⟩ := accountEntry_spec hnodup key.address
      exact ⟨last, some ((slotKeys t).idxOf key), by rw [hacc]; rfl⟩
  unfold storageEntry
  split
  · next pos hlast =>
    split
    · next hpos =>
      rw [← List.getElem?_map] at hpos
      obtain ⟨hlt, hget⟩ := List.getElem?_eq_some_iff.mp hpos
      have hidx : (slotKeys t).idxOf key = pos := by
        rw [← hget]
        exact hkeys.idxOf_getElem pos hlt
      have hk : key ∈ slotKeys t := List.mem_of_getElem? hpos
      refine ⟨t.lastAccount, t.lastStorage, ?_⟩
      rw [hidx, hmem hk, withSlot, if_pos hk]
    · exact hresolve
  · exact hresolve

/-- A fact about an entry stays true when the list grows. -/
theorem elim_append {E : Type} (l l' : List E) {g : E → Bool} {i : Nat}
    (h : (l[i]?).elim false g = true) : ((l ++ l')[i]?).elim false g = true := by
  cases he : l[i]? with
  | none =>
    rw [he] at h
    cases h
  | some e =>
    obtain ⟨hlt, -⟩ := List.getElem?_eq_some_iff.mp he
    rw [List.getElem?_append_left hlt, he]
    rw [he] at h
    exact h

/-! ## Calls that touch an entry -/

theorem vals_length : (vals t).length = t.frames.length + 1 := by
  simp [vals, UndoJournal.copies, journalOf]

variable [Keccak] {m : Machine} {n : Naive}

section

variable (h : Rel m n w0)
include h

theorem Rel.frames_length : m.tracker.frames.length = n.saved.length := by
  have hl := h.tracks.length_eq
  rw [vals_length] at hl
  exact Nat.succ.inj hl

theorem Rel.pending : m.tracker.hasPendingCallFrame = !n.saved.isEmpty := by
  unfold hasPendingCallFrame
  rw [h.frames_length]
  cases n.saved <;> rfl

theorem Rel.touch (hact : n.saved ≠ []) (a : Address) (last : Option Nat) : Rel { m with tracker :=
      { m.tracker with accounts := withAccount m.tracker a, lastAccount := last } }
      (n.touch a) w0 := by
  unfold withAccount Naive.touch
  by_cases ha : a ∈ addresses m.tracker
  · rw [if_pos ha, if_pos (h.touched ▸ ha)]
    exact ⟨h.wf, h.inRange, h.world, h.savePoints, h.touched, h.slots, h.nodupAccounts,
      h.nodupSlots, h.owner, h.tracks, h.preAccounts, h.preSlots, h.known, h.origin, h.idle,
      h.builder, h.index⟩
  · rw [if_neg ha, if_neg (h.touched ▸ ha)]
    let t' : Tracker := { m.tracker with
      accounts := m.tracker.accounts ++ [{ address := a }], lastAccount := last }
    have hj : journalOf t' = journalOf m.tracker := journalOf_addAccount m.tracker a last
    have haddr : addresses t' = addresses m.tracker ++ [a] := by simp [addresses, t']
    have hvals : vals t' = vals m.tracker := by
      show (journalOf t').val :: _ = _
      rw [hj]
      rfl
    exact {
      wf := hj ▸ h.wf
      inRange := fun r hr => (h.inRange r hr).mono (t := m.tracker) (by simp) (le_refl _)
      world := h.world
      savePoints := h.savePoints
      touched := by rw [haddr, ← h.touched]
      slots := h.slots
      nodupAccounts := by
        rw [haddr]
        exact List.nodup_append.mpr ⟨h.nodupAccounts, List.nodup_singleton a, by
          intro x hx y hy
          rw [List.mem_singleton.mp hy]
          exact fun he => ha (he ▸ hx)⟩
      nodupSlots := h.nodupSlots
      owner := by
        intro e he
        rw [haddr]
        have ho := h.owner e he
        obtain ⟨hlt, -⟩ := List.getElem?_eq_some_iff.mp ho
        exact (List.getElem?_append_left hlt).trans ho
      tracks := by
        rw [hvals]
        exact h.tracks.imp fun _ _ ht => ht.addAccount a
      preAccounts := by
        intro e he
        rcases List.mem_append.mp he with he | he
        · exact h.preAccounts e he
        · rw [List.mem_singleton.mp he]
          exact ⟨nofun, nofun, (fun _ hk => nomatch hk)⟩
      preSlots := h.preSlots
      known := by
        intro val hval c hw
        rw [hvals] at hval
        have hk := h.known val hval c hw
        cases c with
        | storage i => exact hk
        | account kind i => exact elim_append (m.tracker.accounts) [{ address := a }] hk
      origin := h.origin
      idle := fun hs => absurd hs hact
      builder := h.builder
      index := h.index }

theorem Rel.addSlot (hact : n.saved ≠ []) {key : SlotKey}
    (hkey : key.address ∈ addresses m.tracker) (last : Option Nat) : Rel { m with tracker :=
      { m.tracker with
        storage := withSlot m.tracker key ((addresses m.tracker).idxOf key.address)
        lastStorage := last } }
      { n with slots := if key ∈ n.slots then n.slots else n.slots ++ [key] } w0 := by
  unfold withSlot
  by_cases hk : key ∈ slotKeys m.tracker
  · rw [if_pos hk, if_pos (h.slots ▸ hk)]
    exact ⟨h.wf, h.inRange, h.world, h.savePoints, h.touched, h.slots, h.nodupAccounts,
      h.nodupSlots, h.owner, h.tracks, h.preAccounts, h.preSlots, h.known, h.origin, h.idle,
      h.builder, h.index⟩
  · rw [if_neg hk, if_neg (h.slots ▸ hk)]
    let account := (addresses m.tracker).idxOf key.address
    let t' : Tracker := { m.tracker with
      storage := m.tracker.storage ++ [{ key := key, account := account }], lastStorage := last }
    have hj : journalOf t' = journalOf m.tracker := journalOf_addSlot m.tracker key account last
    have hkeys : slotKeys t' = slotKeys m.tracker ++ [key] := by simp [slotKeys, t']
    have hvals : vals t' = vals m.tracker := by
      show (journalOf t').val :: _ = _
      rw [hj]
      rfl
    exact {
      wf := hj ▸ h.wf
      inRange := fun r hr => (h.inRange r hr).mono (t := m.tracker) (le_refl _) (by simp)
      world := h.world
      savePoints := h.savePoints
      touched := h.touched
      slots := by rw [hkeys, ← h.slots]
      nodupAccounts := h.nodupAccounts
      nodupSlots := by
        rw [hkeys]
        exact List.nodup_append.mpr ⟨h.nodupSlots, List.nodup_singleton key, by
          intro x hx y hy
          rw [List.mem_singleton.mp hy]
          exact fun he => hk (he ▸ hx)⟩
      owner := by
        intro e he
        rcases List.mem_append.mp he with he | he
        · exact h.owner e he
        · rw [List.mem_singleton.mp he]
          exact List.getElem?_eq_some_iff.mpr
            ⟨List.idxOf_lt_length_of_mem hkey, List.getElem_idxOf _⟩
      tracks := by
        rw [hvals]
        exact h.tracks.imp fun _ _ ht => ht.addSlot key
      preAccounts := h.preAccounts
      preSlots := by
        intro e he
        rcases List.mem_append.mp he with he | he
        · exact h.preSlots e he
        · rw [List.mem_singleton.mp he]
          exact nofun
      known := by
        intro val hval c hw
        rw [hvals] at hval
        have hp := h.known val hval c hw
        cases c with
        | account kind i => exact hp
        | storage i =>
          exact elim_append m.tracker.storage [{ key := key, account := account }] hp
      origin := h.origin
      idle := fun hs => absurd hs hact
      builder := h.builder
      index := h.index }

theorem Rel.touchSlot (hact : n.saved ≠ []) (key : SlotKey)
    (lastAccount lastStorage : Option Nat) : Rel { m with tracker :=
      { m.tracker with
        accounts := withAccount m.tracker key.address
        storage := withSlot m.tracker key ((addresses m.tracker).idxOf key.address)
        lastAccount := lastAccount
        lastStorage := lastStorage } } (n.touchSlot key) w0 := by
  have hs := (h.touch hact key.address lastAccount).addSlot hact
    (mem_withAccount m.tracker key.address) lastStorage
  have hidx : (addresses { m.tracker with
      accounts := withAccount m.tracker key.address, lastAccount := lastAccount }).idxOf
        key.address = (addresses m.tracker).idxOf key.address :=
    idxOf_withAccount m.tracker key.address
  rw [hidx] at hs
  exact hs

end

end Nimbus.Spec.BalTracker
