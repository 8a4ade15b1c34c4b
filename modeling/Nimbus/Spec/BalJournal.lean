import Nimbus.ForStd.UndoJournal
import Nimbus.Native.BalTracker

/-!
# The journal of the block access list tracker is an undo journal

The written values of the entries are the cells of an undo journal: one cell for each slot,
and four for each account. A cell of an entry that does not exist yet has the value that a
new entry has, so that adding an entry changes no cell.
-/

namespace Nimbus.Spec.BalTracker

open Nimbus.Native Nimbus.Native.BalTracker Function
open Aristo (Hash32 UInt256 Defect)
open Tracker UndoJournal

inductive AccountKind where
  | balance
  | nonce
  | code
  | selfDestruct
  deriving DecidableEq

inductive Cell where
  | storage (idx : Nat)
  | account (kind : AccountKind) (idx : Nat)
  deriving DecidableEq

structure CellVal where
  written : Bool := false
  value : UInt256 := 0
  nonce : AccountNonce := 0

/-- The written value of one field. -/
def accountVal (e : AccountEntry) : AccountKind → CellVal
  | .balance => { written := e.balanceWritten, value := e.postBalance }
  | .nonce => { written := e.nonceWritten, nonce := e.postNonce }
  | .code => { written := e.codeWritten }
  | .selfDestruct => { written := e.selfDestructed }

def accountLast (e : AccountEntry) : AccountKind → Option Nat
  | .balance => e.lastBalanceJournal
  | .nonce => e.lastNonceJournal
  | .code => e.lastCodeJournal
  | .selfDestruct => none

def slotVal (e : StorageEntry) : CellVal := { written := e.written, value := e.post }

def cellVal (t : Tracker) : Cell → CellVal
  | .storage i => (t.storage[i]?).elim {} slotVal
  | .account kind i => (t.accounts[i]?).elim {} (accountVal · kind)

def cellLast (t : Tracker) : Cell → Option Nat
  | .storage i => (t.storage[i]?).elim none (·.lastJournal)
  | .account kind i => (t.accounts[i]?).elim none (accountLast · kind)

def recordCell (r : JournalEntry) : Cell :=
  match r.kind with
  | .jStorageWrite => .storage r.idx
  | .jBalance => .account .balance r.idx
  | .jNonce => .account .nonce r.idx
  | .jCode => .account .code r.idx
  | .jSelfDestruct => .account .selfDestruct r.idx

/-- The fields of a record that its kind uses. -/
def recordOf (r : JournalEntry) : UndoJournal.Record Cell CellVal where
  key := recordCell r
  prev :=
    match r.kind with
    | .jStorageWrite | .jBalance => { written := r.prevWritten, value := r.prev }
    | .jNonce => { written := r.prevWritten, nonce := r.prevNonce }
    | .jCode => { written := r.prevWritten }
    | .jSelfDestruct => {}
  prevLast := match r.kind with
    | .jSelfDestruct => none
    | _ => r.prevLast

def journalOf (t : Tracker) : UndoJournal Cell CellVal where
  val := cellVal t
  last := cellLast t
  journal := t.journal.map recordOf
  marks := t.frames

/-- The cells with a position of their latest record. A self-destruct is recorded once, when
the flag goes up. -/
def Tracked : Cell → Prop
  | .account .selfDestruct _ => False
  | _ => True

/-- The entry of a cell exists. -/
def InRange (t : Tracker) : Cell → Prop
  | .storage i => i < t.storage.length
  | .account _ i => i < t.accounts.length

def JournalInRange (t : Tracker) : Prop := ∀ r ∈ t.journal, InRange t (recordCell r)

theorem InRange.mono {t t' : Tracker} {c : Cell} (ha : t.accounts.length ≤ t'.accounts.length)
    (hs : t.storage.length ≤ t'.storage.length) (h : InRange t c) : InRange t' c := by
  cases c with
  | storage i => exact Nat.lt_of_lt_of_le h hs
  | account kind i => exact Nat.lt_of_lt_of_le h ha

theorem map_modify_eq {E B : Type} {g : E → B} {f : E → E} {l : List E} {i : Nat}
    (hf : ∀ e, l[i]? = some e → g (f e) = g e) : (l.modify i f).map g = l.map g := by
  apply List.ext_getElem?
  intro j
  rw [List.getElem?_map, List.getElem?_map, List.getElem?_modify]
  cases hl : l[j]? with
  | none => rfl
  | some e =>
    show some (g (if i = j then f e else e)) = some (g e)
    split
    · next hij => rw [hf e (hij ▸ hl)]
    · rfl

variable {t : Tracker} {i : Nat} {f : AccountEntry → AccountEntry}

/-! ## Changes to one entry -/

theorem cellVal_modifyAccount (kind : AccountKind) {e : AccountEntry} (he : t.accounts[i]? = some e)
    (hf : ∀ k, k ≠ kind → accountVal (f e) k = accountVal e k) :
    cellVal (t.modifyAccount i f) =
      update (cellVal t) (.account kind i) (accountVal (f e) kind) := by
  funext c
  cases c with
  | storage j => rw [update_of_ne (by simp)]; rfl
  | account k j =>
    simp only [cellVal, modifyAccount, List.getElem?_modify]
    by_cases hj : i = j
    · subst hj
      by_cases hk : k = kind
      · subst hk
        simp [he]
      · rw [update_of_ne (by simp [hk])]
        simp [he, cellVal, hf k hk]
    · rw [update_of_ne (by simp [Ne.symm hj])]
      simp [hj, cellVal]

theorem cellLast_modifyAccount (kind : AccountKind) {e : AccountEntry}
    (he : t.accounts[i]? = some e) (hf : ∀ k, k ≠ kind → accountLast (f e) k = accountLast e k) :
    cellLast (t.modifyAccount i f) =
      update (cellLast t) (.account kind i) (accountLast (f e) kind) := by
  funext c
  cases c with
  | storage j => rw [update_of_ne (by simp)]; rfl
  | account k j =>
    simp only [cellLast, modifyAccount, List.getElem?_modify]
    by_cases hj : i = j
    · subst hj
      by_cases hk : k = kind
      · subst hk
        simp [he]
      · rw [update_of_ne (by simp [hk])]
        simp [he, cellLast, hf k hk]
    · rw [update_of_ne (by simp [Ne.symm hj])]
      simp [hj, cellLast]

variable {e : StorageEntry}

theorem cellVal_modifyStorage (he : t.storage[i]? = some e) (f : StorageEntry → StorageEntry) :
    cellVal (t.modifyStorage i f) = update (cellVal t) (.storage i) (slotVal (f e)) := by
  funext c
  cases c with
  | account k j => rw [update_of_ne (by simp)]; rfl
  | storage j =>
    simp only [cellVal, modifyStorage, List.getElem?_modify]
    by_cases hj : i = j
    · subst hj
      simp [he]
    · rw [update_of_ne (by simp [Ne.symm hj])]
      simp [hj, cellVal]

theorem cellLast_modifyStorage (he : t.storage[i]? = some e) (f : StorageEntry → StorageEntry) :
    cellLast (t.modifyStorage i f) = update (cellLast t) (.storage i) (f e).lastJournal := by
  funext c
  cases c with
  | account k j => rw [update_of_ne (by simp)]; rfl
  | storage j =>
    simp only [cellLast, modifyStorage, List.getElem?_modify]
    by_cases hj : i = j
    · subst hj
      simp [he]
    · rw [update_of_ne (by simp [Ne.symm hj])]
      simp [hj, cellLast]

theorem cellVal_account {e : AccountEntry} (he : t.accounts[i]? = some e) (kind : AccountKind) :
    cellVal t (.account kind i) = accountVal e kind := by
  simp [cellVal, he]

theorem cellLast_account {e : AccountEntry} (he : t.accounts[i]? = some e)
    (kind : AccountKind) : cellLast t (.account kind i) = accountLast e kind := by
  simp [cellLast, he]

theorem cellVal_storage (he : t.storage[i]? = some e) : cellVal t (.storage i) = slotVal e := by
  simp [cellVal, he]

theorem cellLast_storage (he : t.storage[i]? = some e) :
    cellLast t (.storage i) = e.lastJournal := by
  simp [cellLast, he]

/-! ## Tracked changes -/

/-- What an entry knows of the state before the transaction. -/
structure Before where
  address : Address
  preBalanceKnown : Bool
  preBalance : UInt256
  preNonceKnown : Bool
  preNonce : AccountNonce
  preCode : Option Hash32

def beforeOf (e : AccountEntry) : Before :=
  ⟨e.address, e.preBalanceKnown, e.preBalance, e.preNonceKnown, e.preNonce, e.preCode⟩

/-- A change to one field of an account entry: what is captured first, the record position
and the written value. -/
structure Change (kind : AccountKind) (val : CellVal) where
  capture : AccountEntry → AccountEntry
  setLast : Option Nat → AccountEntry → AccountEntry
  setVal : AccountEntry → AccountEntry
  before_setLast : ∀ l e, beforeOf (setLast l e) = beforeOf e := by intros; rfl
  before_setVal : ∀ e, beforeOf (setVal e) = beforeOf e := by intros; rfl
  val_capture : ∀ e k, accountVal (capture e) k = accountVal e k := by
    intro _ k; cases k <;> split <;> rfl
  last_capture : ∀ e k, accountLast (capture e) k = accountLast e k := by
    intro _ k; cases k <;> split <;> rfl
  val_setLast : ∀ l e k, accountVal (setLast l e) k = accountVal e k := by
    intro _ _ k; cases k <;> rfl
  last_setLast : ∀ l e, accountLast (setLast l e) kind = l := by intros; rfl
  last_setLast_ne : ∀ l e k, k ≠ kind → accountLast (setLast l e) k = accountLast e k := by
    intro _ _ k hk; cases k <;> first | rfl | exact absurd rfl hk
  last_setVal : ∀ e k, accountLast (setVal e) k = accountLast e k := by
    intro _ k; cases k <;> rfl
  val_setVal : ∀ e, accountVal (setVal e) kind = val := by intros; rfl
  val_setVal_ne : ∀ e k, k ≠ kind → accountVal (setVal e) k = accountVal e k := by
    intro _ k hk; cases k <;> first | rfl | exact absurd rfl hk

namespace Change

variable {kind : AccountKind} {val : CellVal} (ch : Change kind val)

/-- The change as the tracker makes it. -/
def apply (idx : Nat) (last : Option Nat) (r : JournalEntry) (t : Tracker) : Tracker :=
  ((t.modifyAccount idx ch.capture).recordOnce last
    (fun l t => t.modifyAccount idx (ch.setLast l)) r).modifyAccount idx ch.setVal

end Change

theorem apply_lists {kind : AccountKind} {val : CellVal} (ch : Change kind val) (idx : Nat)
    (last : Option Nat) (r : JournalEntry) (t : Tracker) :
    ∃ f journal, ch.apply idx last r t =
      { t with accounts := t.accounts.modify idx f, journal := journal } ∧
      (∀ e, beforeOf (f e) = beforeOf (ch.capture e)) ∧
      (journal = t.journal ∨ journal = { r with prevLast := last } :: t.journal) := by
  unfold Change.apply recordOnce
  split
  · refine ⟨ch.setVal ∘ ch.capture, t.journal, ?_, fun e => ch.before_setVal _, .inl rfl⟩
    simp [modifyAccount, List.modify_modify_eq]
  · refine ⟨ch.setVal ∘ ch.setLast (some t.journal.length) ∘ ch.capture,
      { r with prevLast := last } :: t.journal, ?_,
      fun e => (ch.before_setVal _).trans (ch.before_setLast _ _), .inr rfl⟩
    simp [modifyAccount, List.modify_modify_eq]

theorem any_eq_recorded (t : Tracker) (c : Cell) :
    (cellLast t c).any (t.frames.headD 0 ≤ ·) = (journalOf t).recorded c := by
  unfold recorded
  simp only [journalOf]
  cases cellLast t c <;> rfl

theorem getElem?_modifyAccount {e : AccountEntry} (he : t.accounts[i]? = some e)
    (f : AccountEntry → AccountEntry) : (t.modifyAccount i f).accounts[i]? = some (f e) := by
  simp [modifyAccount, he]

theorem getElem?_modifyStorage (he : t.storage[i]? = some e)
    (f : StorageEntry → StorageEntry) : (t.modifyStorage i f).storage[i]? = some (f e) := by
  simp [modifyStorage, he]

/-- A change that leaves the cells and positions of an entry alone is invisible. -/
theorem journalOf_modifyAccount {e : AccountEntry} (he : t.accounts[i]? = some e)
    (hval : ∀ k, accountVal (f e) k = accountVal e k)
    (hlast : ∀ k, accountLast (f e) k = accountLast e k) :
    journalOf (t.modifyAccount i f) = journalOf t := by
  have hv : cellVal (t.modifyAccount i f) = cellVal t := by
    rw [cellVal_modifyAccount .balance he fun k _ => hval k, hval,
      ← cellVal_account he, update_eq_self]
  have hl : cellLast (t.modifyAccount i f) = cellLast t := by
    rw [cellLast_modifyAccount .balance he fun k _ => hlast k, hlast,
      ← cellLast_account he, update_eq_self]
  show UndoJournal.mk _ _ _ _ = UndoJournal.mk _ _ _ _
  rw [hv, hl]
  rfl

theorem journalOf_setVal (kind : AccountKind) {e : AccountEntry} (he : t.accounts[i]? = some e)
    (hval : ∀ k, k ≠ kind → accountVal (f e) k = accountVal e k)
    (hlast : ∀ k, accountLast (f e) k = accountLast e k) :
    journalOf (t.modifyAccount i f) =
      (journalOf t).setVal (.account kind i) (accountVal (f e) kind) := by
  have hl : cellLast (t.modifyAccount i f) = cellLast t := by
    rw [cellLast_modifyAccount .balance he fun k _ => hlast k, hlast,
      ← cellLast_account he, update_eq_self]
  show UndoJournal.mk _ _ _ _ = UndoJournal.mk _ _ _ _
  rw [cellVal_modifyAccount kind he hval, hl]
  rfl

theorem journalOf_change {e : AccountEntry} (he : t.accounts[i]? = some e) {kind : AccountKind}
    {val : CellVal} (ch : Change kind val) {r : JournalEntry}
    (hr : recordOf { r with prevLast := accountLast e kind } =
      ⟨.account kind i, accountVal e kind, accountLast e kind⟩) :
    journalOf (ch.apply i (accountLast e kind) r t) =
      (journalOf t).write (.account kind i) val := by
  let t₁ := t.modifyAccount i ch.capture
  have he₁ : t₁.accounts[i]? = some (ch.capture e) := getElem?_modifyAccount he _
  have hj₁ : journalOf t₁ = journalOf t :=
    journalOf_modifyAccount he (ch.val_capture e) (ch.last_capture e)
  have hrec : (accountLast e kind).any (t.frames.headD 0 ≤ ·) =
      (journalOf t).recorded (.account kind i) := by
    rw [← any_eq_recorded, cellLast_account he]
  have hwrite : ∀ {t' : Tracker} {e' : AccountEntry}, t'.accounts[i]? = some e' →
      journalOf (t'.modifyAccount i ch.setVal) =
        (journalOf t').setVal (.account kind i) val := by
    intro t' e' he'
    rw [journalOf_setVal kind he' (ch.val_setVal_ne e') (ch.last_setVal e'), ch.val_setVal]
  unfold Change.apply recordOnce write
  show journalOf (modifyAccount (if (accountLast e kind).any (t.frames.headD 0 ≤ ·) then
    t₁ else _) i ch.setVal) = _
  rw [hrec]
  split
  · rw [hwrite he₁, hj₁]
  · -- the record holds what the cell has before the write
    let t₂ : Tracker := { t₁ with journal := { r with prevLast := accountLast e kind } :: t.journal }
    have he₂ : t₂.accounts[i]? = some (ch.capture e) := he₁
    have hj₂ : journalOf (t₂.modifyAccount i (ch.setLast (some t.journal.length))) =
        (journalOf t).record (.account kind i) true := by
      have hval : cellVal (t₂.modifyAccount i (ch.setLast (some t.journal.length))) =
          cellVal t := by
        rw [cellVal_modifyAccount kind he₂ fun k _ => ch.val_setLast _ _ k,
          ch.val_setLast, ← cellVal_account he₂, update_eq_self]
        exact congrArg UndoJournal.val hj₁
      have hlast : cellLast (t₂.modifyAccount i (ch.setLast (some t.journal.length))) =
          update (cellLast t) (.account kind i) (some t.journal.length) := by
        rw [cellLast_modifyAccount kind he₂ fun k hk => ch.last_setLast_ne _ _ k hk,
          ch.last_setLast]
        exact congrArg (update · _ _) (congrArg UndoJournal.last hj₁)
      have hcur : (journalOf t).current (.account kind i) =
          ⟨.account kind i, accountVal e kind, accountLast e kind⟩ := by
        simp [current, journalOf, cellVal_account he, cellLast_account he]
      show UndoJournal.mk _ _ _ _ = UndoJournal.mk _ _ _ _
      rw [hval, hlast, hcur, ← hr]
      simp [journalOf, t₂, t₁, modifyAccount]
    exact (hwrite (getElem?_modifyAccount he₂ _)).trans
      (congrArg (setVal · (Cell.account kind i) val) hj₂)

theorem journalOf_modifyStorage (he : t.storage[i]? = some e)
    {f : StorageEntry → StorageEntry} (hlast : (f e).lastJournal = e.lastJournal) :
    journalOf (t.modifyStorage i f) = (journalOf t).setVal (.storage i) (slotVal (f e)) := by
  have hl : cellLast (t.modifyStorage i f) = cellLast t := by
    rw [cellLast_modifyStorage he, hlast, ← cellLast_storage he, update_eq_self]
  show UndoJournal.mk _ _ _ _ = UndoJournal.mk _ _ _ _
  rw [cellVal_modifyStorage he, hl]
  rfl

theorem journalOf_modifyStorage_self (he : t.storage[i]? = some e)
    {f : StorageEntry → StorageEntry} (hval : slotVal (f e) = slotVal e)
    (hlast : (f e).lastJournal = e.lastJournal) :
    journalOf (t.modifyStorage i f) = journalOf t := by
  rw [journalOf_modifyStorage he hlast, hval, ← cellVal_storage he]
  exact congrArg (UndoJournal.mk · _ _ _) (update_eq_self _ _)

variable (ledger : ReadOnlyLedger)

/-- The entry of a slot once its value before the transaction is known. -/
def captured (e : StorageEntry) : StorageEntry :=
  if !e.preKnown then
    { e with pre := ledger.getStorage e.key.address e.key.slot, preKnown := true }
  else e

theorem slotVal_captured (e : StorageEntry) : slotVal (captured ledger e) = slotVal e := by
  unfold captured
  split <;> rfl

theorem lastJournal_captured (e : StorageEntry) :
    (captured ledger e).lastJournal = e.lastJournal := by
  unfold captured
  split <;> rfl

/-- The storage write of the tracker, where it is not one that the slot has already. -/
def changeSlot (t : Tracker) (idx : Nat) (e : StorageEntry) (newValue : UInt256) : Tracker :=
  ((t.capturePreStorage ledger idx).recordOnce e.lastJournal
    (fun l t => t.setLastJournal idx l)
    { kind := .jStorageWrite, idx, prevWritten := e.written, prev := e.post }).modifyStorage idx
      fun e => { e with post := newValue, written := true }

theorem journalOf_changeSlot (he : t.storage[i]? = some e) (ledger : ReadOnlyLedger) (v : UInt256) :
    journalOf (changeSlot ledger t i e v) =
      (journalOf t).write (.storage i) { written := true, value := v } := by
  let t₁ := t.capturePreStorage ledger i
  have he₁ : t₁.storage[i]? = some (captured ledger e) := getElem?_modifyStorage he _
  have hj₁ : journalOf t₁ = journalOf t :=
    journalOf_modifyStorage_self he (slotVal_captured ledger e) (lastJournal_captured ledger e)
  have hrec : e.lastJournal.any (t.frames.headD 0 ≤ ·) =
      (journalOf t).recorded (.storage i) := by
    rw [← any_eq_recorded, cellLast_storage he]
  have hwrite : ∀ {t' : Tracker} {e' : StorageEntry}, t'.storage[i]? = some e' →
      journalOf (t'.modifyStorage i fun e => { e with post := v, written := true }) =
        (journalOf t').setVal (.storage i) { written := true, value := v } :=
    fun he' => journalOf_modifyStorage he' rfl
  unfold changeSlot recordOnce write
  show journalOf (modifyStorage (if e.lastJournal.any (t.frames.headD 0 ≤ ·) then
    t₁ else _) i _) = _
  rw [hrec]
  split
  · rw [hwrite he₁, hj₁]
  · let r : JournalEntry := ⟨.jStorageWrite, i, e.lastJournal, e.written, e.post, 0⟩
    let t₂ : Tracker := { t₁ with journal := r :: t.journal }
    have he₂ : t₂.storage[i]? = some (captured ledger e) := he₁
    have hj₂ : journalOf (t₂.setLastJournal i (some t.journal.length)) =
        (journalOf t).record (.storage i) true := by
      have hval : cellVal (t₂.setLastJournal i (some t.journal.length)) = cellVal t := by
        unfold setLastJournal
        rw [cellVal_modifyStorage he₂]
        show update (cellVal t₂) (.storage i) (slotVal (captured ledger e)) = _
        rw [← cellVal_storage he₂, update_eq_self]
        exact congrArg UndoJournal.val hj₁
      have hlast : cellLast (t₂.setLastJournal i (some t.journal.length)) =
          update (cellLast t) (.storage i) (some t.journal.length) := by
        unfold setLastJournal
        rw [cellLast_modifyStorage he₂]
        exact congrArg (update · _ _) (congrArg UndoJournal.last hj₁)
      have hcur : (journalOf t).current (.storage i) =
          ⟨.storage i, slotVal e, e.lastJournal⟩ := by
        simp [current, journalOf, cellVal_storage he, cellLast_storage he]
      show UndoJournal.mk _ _ _ _ = UndoJournal.mk _ _ _ _
      rw [hval, hlast, hcur]
      simp [journalOf, t₂, t₁, r, setLastJournal, modifyStorage,
        capturePreStorage, recordOf, recordCell, slotVal]
    exact (hwrite (getElem?_modifyStorage he₂ _)).trans
      (congrArg (setVal · (Cell.storage i) _) hj₂)

theorem journalOf_selfDestruct {e : AccountEntry} (he : t.accounts[i]? = some e)
    (hdown : e.selfDestructed = false) :
    journalOf { t.modifyAccount i fun e => { e with selfDestructed := true } with
      journal := { kind := .jSelfDestruct, idx := i } :: t.journal } =
    ((journalOf t).record (.account .selfDestruct i) false).setVal
      (.account .selfDestruct i) { written := true } := by
  have hset : journalOf (t.modifyAccount i fun e => { e with selfDestructed := true }) =
      (journalOf t).setVal (.account .selfDestruct i) { written := true } :=
    journalOf_setVal .selfDestruct he
      (fun k hk => by cases k <;> first | rfl | exact absurd rfl hk) (fun k => by cases k <;> rfl)
  have hcur : (journalOf t).current (.account .selfDestruct i) =
      ⟨.account .selfDestruct i, {}, none⟩ := by
    simp [current, journalOf, cellVal_account he, cellLast_account he, accountVal,
      accountLast, hdown]
  have hrec : (journalOf t).record (.account .selfDestruct i) false =
      { journalOf t with
        journal := ⟨.account .selfDestruct i, {}, none⟩ :: t.journal.map recordOf } := by
    rw [← hcur]
    rfl
  rw [hrec]
  exact congrArg (fun j => UndoJournal.mk j.val j.last _ _) hset

/-! ## New entries -/

/-- An entry whose view is the default one can be appended unseen. -/
theorem elim_concat {E B : Type} (l : List E) (x : E) (d : B) (g : E → B) (hg : g x = d)
    (i : Nat) : ((l ++ [x])[i]?).elim d g = (l[i]?).elim d g := by
  rcases Nat.lt_trichotomy i l.length with h | h | h
  · rw [List.getElem?_append_left h]
  · subst h
    rw [List.getElem?_concat_length, List.getElem?_eq_none (Nat.le_refl _)]
    exact hg
  · rw [List.getElem?_eq_none (by simp; omega), List.getElem?_eq_none (by omega)]

theorem journalOf_addAccount (t : Tracker) (address : Address) (last : Option Nat) :
    journalOf { t with accounts := t.accounts ++ [{ address }], lastAccount := last } =
      journalOf t := by
  show UndoJournal.mk _ _ _ _ = UndoJournal.mk _ _ _ _
  congr 1
  · funext c
    cases c with
    | storage i => rfl
    | account kind i => exact elim_concat _ _ _ _ (by cases kind <;> rfl) i
  · funext c
    cases c with
    | storage i => rfl
    | account kind i => exact elim_concat _ _ _ _ (by cases kind <;> rfl) i

theorem journalOf_addSlot (t : Tracker) (key : SlotKey) (account : Nat) (last : Option Nat) :
    journalOf { t with storage := t.storage ++ [{ key, account }], lastStorage := last } =
      journalOf t := by
  show UndoJournal.mk _ _ _ _ = UndoJournal.mk _ _ _ _
  congr 1
  · funext c
    cases c with
    | account kind i => rfl
    | storage i => exact elim_concat t.storage { key, account } {} slotVal rfl i
  · funext c
    cases c with
    | account kind i => rfl
    | storage i => exact elim_concat t.storage { key, account } none (·.lastJournal) rfl i

/-! ## The replay -/

theorem journalOf_restoreAccount (kind : AccountKind) {e : AccountEntry}
    (he : t.accounts[i]? = some e) (hval : ∀ k, k ≠ kind → accountVal (f e) k = accountVal e k)
    (hlast : ∀ k, k ≠ kind → accountLast (f e) k = accountLast e k) (rest : List JournalEntry) :
    journalOf ({ t with journal := rest }.modifyAccount i f) =
      restore ⟨.account kind i, accountVal (f e) kind, accountLast (f e) kind⟩
        (rest.map recordOf) (journalOf t) := by
  let t' : Tracker := { t with journal := rest }
  have he' : t'.accounts[i]? = some e := he
  show UndoJournal.mk (cellVal (t'.modifyAccount i f)) (cellLast (t'.modifyAccount i f)) _ _ = _
  rw [cellVal_modifyAccount kind he' hval, cellLast_modifyAccount kind he' hlast]
  rfl

theorem journalOf_restoreSlot (he : t.storage[i]? = some e)
    (f : StorageEntry → StorageEntry) (rest : List JournalEntry) :
    journalOf ({ t with journal := rest }.modifyStorage i f) =
      restore ⟨.storage i, slotVal (f e), (f e).lastJournal⟩
        (rest.map recordOf) (journalOf t) := by
  let t' : Tracker := { t with journal := rest }
  have he' : t'.storage[i]? = some e := he
  show UndoJournal.mk (cellVal (t'.modifyStorage i f)) (cellLast (t'.modifyStorage i f)) _ _ = _
  rw [cellVal_modifyStorage he', cellLast_modifyStorage he']
  rfl

theorem journalOf_undoEntry {r : JournalEntry} (hr : InRange t (recordCell r))
    (rest : List JournalEntry) :
    journalOf ({ t with journal := rest }.undoEntry r) =
      restore (recordOf r) (rest.map recordOf) (journalOf t) := by
  obtain ⟨kind, i, prevLast, prevWritten, prev, prevNonce⟩ := r
  cases kind with
  | jStorageWrite =>
    have hi : i < t.storage.length := hr
    exact journalOf_restoreSlot (List.getElem?_eq_getElem hi) _ rest
  | jBalance =>
    have hi : i < t.accounts.length := hr
    refine journalOf_restoreAccount .balance (List.getElem?_eq_getElem hi) ?_ ?_ rest
    all_goals intro k hk; cases k <;> first | rfl | exact absurd rfl hk
  | jNonce =>
    have hi : i < t.accounts.length := hr
    refine journalOf_restoreAccount .nonce (List.getElem?_eq_getElem hi) ?_ ?_ rest
    all_goals intro k hk; cases k <;> first | rfl | exact absurd rfl hk
  | jCode =>
    have hi : i < t.accounts.length := hr
    refine journalOf_restoreAccount .code (List.getElem?_eq_getElem hi) ?_ ?_ rest
    all_goals intro k hk; cases k <;> first | rfl | exact absurd rfl hk
  | jSelfDestruct =>
    have hi : i < t.accounts.length := hr
    refine journalOf_restoreAccount .selfDestruct (List.getElem?_eq_getElem hi) ?_ ?_
      rest
    all_goals intro k hk; cases k <;> first | rfl | exact absurd rfl hk

/-- The replay of the tracker is the replay of its undo journal. -/
theorem journalOf_undoRecords (n : Nat) {l : List JournalEntry}
    (hl : ∀ r ∈ l, InRange t (recordCell r)) :
    journalOf (undoRecords n l t) =
      undo n (l.map recordOf) (journalOf t) := by
  induction l generalizing t with
  | nil => rfl
  | cons r rest ih =>
    simp only [undoRecords, List.map_cons, undo, List.length_map]
    split
    · have hr : InRange t (recordCell r) := hl r List.mem_cons_self
      rw [← journalOf_undoEntry hr rest]
      apply ih
      intro r' hr'
      have hin := hl r' (.tail _ hr')
      obtain ⟨kind, i, prevLast, prevWritten, prev, prevNonce⟩ := r
      cases kind <;> exact hin.mono (by simp [undoEntry, modifyAccount, modifyStorage])
        (by simp [undoEntry, modifyAccount, modifyStorage])
    · rfl

end Nimbus.Spec.BalTracker
