import Nimbus.Spec.BalChanges

/-!
# Call frames of the tracker

Frames other than that of the transaction are begun, committed and rolled back.
-/

namespace Nimbus.Spec.BalTracker

open Nimbus.Native Nimbus.Native.BalTracker Function
open Aristo (Hash32 UInt256 Defect)
open Tracker UndoJournal

variable [Keccak] {w0 : World} {m : Machine} {n : Naive} {c : Copy} {a : Address}

/-! ## Frames -/

theorem Rel.begin (h : Rel m n w0) :
    Rel { m with tracker := m.tracker.beginCallFrame, savePoints := m.world :: m.savePoints }
      { n with saved := n.now :: n.saved } w0 := by
  have hj : journalOf m.tracker.beginCallFrame = (journalOf m.tracker).begin := by
    show UndoJournal.mk _ _ _ (_ :: _) = UndoJournal.mk _ _ _ ((m.tracker.journal.map recordOf).length :: _)
    rw [List.length_map]
    rfl
  have hvals : vals m.tracker.beginCallFrame = cellVal m.tracker :: vals m.tracker := by
    show (copies (journalOf m.tracker.beginCallFrame)).cur ::
      (copies (journalOf m.tracker.beginCallFrame)).saved = _
    rw [hj, copies_begin]
    rfl
  exact {
    wf := hj ▸ h.wf.begin
    inRange := h.inRange
    world := h.world
    savePoints := by rw [h.savePoints, h.world]; rfl
    touched := h.touched
    slots := h.slots
    nodupAccounts := h.nodupAccounts
    nodupSlots := h.nodupSlots
    owner := h.owner
    tracks := by
      rw [hvals]
      exact .cons h.now h.tracks
    preAccounts := h.preAccounts
    preSlots := h.preSlots
    known := by
      intro val hval
      rw [hvals] at hval
      rcases List.mem_cons.mp hval with rfl | hval
      · exact h.known _ List.mem_cons_self
      · exact h.known val hval
    origin := by
      intro c hc
      cases hs : n.saved with
      | nil =>
        rw [hs] at hc
        cases hc
        exact (h.idle hs).2.2.2
      | cons c' saved =>
        exact h.origin c (hs ▸ hc)
    idle := nofun
    builder := h.builder
    index := h.index }

/-- Committing a frame that is not the transaction's own. -/
theorem Rel.commit (h : Rel m n w0) {c c' : Copy} {saved : List Copy}
    (hs : n.saved = c :: c' :: saved) :
    Rel { m with
      tracker := { m.tracker with frames := m.tracker.frames.tail }
      savePoints := m.savePoints.tail } { n with saved := c' :: saved } w0 := by
  have hvals : vals { m.tracker with frames := m.tracker.frames.tail } =
      cellVal m.tracker :: (copies (journalOf m.tracker)).saved.tail := by
    have hc := copies_commit (journalOf m.tracker)
    exact congrArg (fun x : UndoJournal.Copies Cell CellVal => x.cur :: x.saved) hc
  have ht := h.tracks
  rw [hs] at ht
  cases ht with
  | cons hnow ht =>
    generalize hsv : (copies (journalOf m.tracker)).saved = sv at ht
    cases ht with
    | @cons val _ vs _ _ ht =>
      exact {
        wf := h.wf.commit
        inRange := h.inRange
        world := h.world
        savePoints := by rw [h.savePoints, hs]; rfl
        touched := h.touched
        slots := h.slots
        nodupAccounts := h.nodupAccounts
        nodupSlots := h.nodupSlots
        owner := h.owner
        tracks := by
          rw [hvals, hsv]
          exact .cons hnow ht
        preAccounts := h.preAccounts
        preSlots := h.preSlots
        known := by
          intro val' hval
          rw [hvals, hsv] at hval
          apply h.known val'
          show val' ∈ cellVal m.tracker :: _
          rw [hsv]
          rcases List.mem_cons.mp hval with hval | hval
          · exact List.mem_cons.mpr (.inl hval)
          · exact .tail _ (.tail _ hval)
        origin := by
          have ho := h.origin
          rw [hs] at ho
          exact ho
        idle := nofun
        builder := h.builder
        index := h.index }

/-- What an entry has from before the transaction, and what it refers to, is the same. -/
structure SameStatics (t t' : Tracker) : Prop where
  accounts : t'.accounts.map beforeOf = t.accounts.map beforeOf
  slots : t'.storage.map (fun e => (e.key, e.account, e.preKnown, e.pre)) =
    t.storage.map fun e => (e.key, e.account, e.preKnown, e.pre)
  builder : t'.builder = t.builder
  index : t'.currentBlockAccessIndex = t.currentBlockAccessIndex
  frames : t'.frames = t.frames

namespace SameStatics

omit [Keccak]
variable {t t' t'' : Tracker}

theorem refl (t : Tracker) : SameStatics t t := ⟨rfl, rfl, rfl, rfl, rfl⟩

section

variable (h : SameStatics t t')
include h

theorem trans (h' : SameStatics t' t'') : SameStatics t t'' :=
  ⟨h'.accounts.trans h.accounts, h'.slots.trans h.slots, h'.builder.trans h.builder,
    h'.index.trans h.index, h'.frames.trans h.frames⟩

theorem entries : SameEntries t t' where
  addresses := by
    have ha := congrArg (List.map Before.address) h.accounts
    rw [List.map_map, List.map_map] at ha
    exact ha
  slots := by
    have hs := congrArg
      (List.map fun x : SlotKey × Nat × Bool × UInt256 => (x.1, x.2.1)) h.slots
    rw [List.map_map, List.map_map] at hs
    exact hs
  builder := h.builder
  index := h.index

theorem exists_account {e : AccountEntry} (he : e ∈ t'.accounts) :
    ∃ e₀ ∈ t.accounts, beforeOf e = beforeOf e₀ := by
  have hmem : beforeOf e ∈ t.accounts.map beforeOf := by
    rw [← h.accounts]
    exact List.mem_map_of_mem he
  obtain ⟨e₀, he₀, heq⟩ := List.mem_map.mp hmem
  exact ⟨e₀, he₀, heq.symm⟩

theorem exists_slot {e : StorageEntry} (he : e ∈ t'.storage) :
    ∃ e₀ ∈ t.storage, e.key = e₀.key ∧ e.account = e₀.account ∧ e.preKnown = e₀.preKnown ∧
      e.pre = e₀.pre := by
  have hmem : (e.key, e.account, e.preKnown, e.pre) ∈
      t.storage.map fun e => (e.key, e.account, e.preKnown, e.pre) := by
    rw [← h.slots]
    exact List.mem_map.mpr ⟨e, he, rfl⟩
  obtain ⟨e₀, he₀, heq⟩ := List.mem_map.mp hmem
  simp only [Prod.mk.injEq] at heq
  obtain ⟨hk, ha, hp, hv⟩ := heq
  exact ⟨e₀, he₀, hk.symm, ha.symm, hp.symm, hv.symm⟩

theorem inRange {c : Cell} (hc : InRange t c) : InRange t' c := by
  have ha := congrArg List.length h.accounts
  have hs := congrArg List.length h.slots
  rw [List.length_map, List.length_map] at ha hs
  exact hc.mono ha.ge hs.ge

theorem preKnown {c : Cell} (hc : BalTracker.preKnown t c = true) :
    BalTracker.preKnown t' c = true := by
  cases c with
  | storage i =>
    have hs := congrArg (fun l : List (SlotKey × Nat × Bool × UInt256) => l[i]?) h.slots
    simp only [List.getElem?_map] at hs
    unfold BalTracker.preKnown at hc ⊢
    cases he : t.storage[i]? with
    | none => simp [he] at hc
    | some e =>
      cases he' : t'.storage[i]? with
      | none => simp [he, he'] at hs
      | some e' =>
        simp only [he, he', Option.map_some, Option.some.injEq, Prod.mk.injEq] at hs
        simp only [he, he', Option.elim_some] at hc ⊢
        rw [hs.2.2.1, hc]
  | account kind i =>
    have hs := congrArg (fun l : List Before => l[i]?) h.accounts
    simp only [List.getElem?_map] at hs
    unfold BalTracker.preKnown at hc ⊢
    cases he : t.accounts[i]? with
    | none => simp [he] at hc
    | some e =>
      cases he' : t'.accounts[i]? with
      | none => simp [he, he'] at hs
      | some e' =>
        simp only [he, he', Option.map_some, Option.some.injEq] at hs
        simp only [he, he', Option.elim_some] at hc ⊢
        rw [accountKnown_congr hs, hc]

end

end SameStatics

section

omit [Keccak]

theorem undoEntry_statics (t : Tracker) (r : JournalEntry) (rest : List JournalEntry) :
    SameStatics t ({ t with journal := rest }.undoEntry r) := by
  unfold undoEntry
  split
  · refine ⟨rfl, ?_, rfl, rfl, rfl⟩
    apply map_modify_eq
    intro e _
    rfl
  all_goals
    refine ⟨?_, rfl, rfl, rfl, rfl⟩
    apply map_modify_eq
    intro e _
    rfl

theorem undoRecords_statics (len : Nat) (l : List JournalEntry) (t : Tracker) :
    SameStatics t (undoRecords len l t) := by
  induction l generalizing t with
  | nil => exact .refl t
  | cons r rest ih =>
    unfold undoRecords
    split
    · exact (undoEntry_statics t r rest).trans (ih _)
    · exact .refl t

theorem undoRecords_journal (len : Nat) (l : List JournalEntry) {t : Tracker}
    (ht : t.journal = l) : ∀ r ∈ (undoRecords len l t).journal, r ∈ l := by
  induction l generalizing t with
  | nil =>
    intro r hr
    rw [← ht]
    exact hr
  | cons r rest ih =>
    unfold undoRecords
    split
    · intro r' hr'
      refine .tail _ (ih ?_ r' hr')
      unfold undoEntry
      split <;> rfl
    · intro r' hr'
      rw [← ht]
      exact hr'

theorem undoRecords_seen (len : Nat) (l : List JournalEntry) {t : Tracker} (ht : Seen t) :
    Seen (undoRecords len l t) := by
  induction l generalizing t with
  | nil => exact ht
  | cons r rest ih =>
    unfold undoRecords
    split
    · apply ih
      unfold undoEntry
      split
      · intro e he
        rcases mem_modify he with ⟨_, -, he⟩ | ⟨e', -, rfl⟩
        · exact ht e (List.mem_of_getElem? he)
        · exact .inl rfl
      all_goals exact ht
    · exact ht

end

/-- Rolling a frame back that is not the transaction's own. -/
theorem Rel.rollback (h : Rel m n w0) {c c' : Copy} {saved : List Copy}
    (hs : n.saved = c :: c' :: saved) :
    Rel {
      tracker := { m.tracker.undoJournal (m.tracker.frames.headD 0) with
        frames := m.tracker.frames.tail }
      world := c.world
      savePoints := m.savePoints.tail } { n with now := c, saved := c' :: saved } w0 := by
  have ht := h.tracks
  rw [hs] at ht
  have hframes : ∃ p p' ms, m.tracker.frames = p :: p' :: ms := by
    have hl := h.frames_length
    rw [hs] at hl
    match m.tracker.frames, hl with
    | p :: p' :: ms, _ => exact ⟨p, p', ms, rfl⟩
  obtain ⟨p, p', ms, hmarks⟩ := hframes
  let t' := m.tracker.undoJournal p
  have hstat : SameStatics m.tracker t' := undoRecords_statics p m.tracker.journal m.tracker
  have hj : journalOf { t' with frames := p' :: ms } = (journalOf m.tracker).rollback := by
    have hu := journalOf_undoRecords p (t := m.tracker) h.inRange
    have hmk : (journalOf m.tracker).marks = p :: p' :: ms := hmarks
    unfold UndoJournal.rollback
    rw [hmk]
    show _ = { UndoJournal.undo p (m.tracker.journal.map recordOf) (journalOf m.tracker) with
      marks := p' :: ms }
    rw [← hu]
    rfl
  obtain ⟨hcopies, hwf⟩ := UndoJournal.copies_rollback h.wf hmarks
  have hsv : (UndoJournal.copies (journalOf m.tracker)).saved =
      (journalOf m.tracker).valAt p ::
        (p' :: ms).map (journalOf m.tracker).valAt := by
    have hmk : (journalOf m.tracker).marks = p :: p' :: ms := hmarks
    simp only [UndoJournal.copies, hmk, List.map_cons]
  have hvals : vals { t' with frames := p' :: ms } =
      (UndoJournal.copies (journalOf m.tracker)).saved := by
    show (UndoJournal.copies (journalOf { t' with frames := p' :: ms })).cur ::
      (UndoJournal.copies (journalOf { t' with frames := p' :: ms })).saved = _
    rw [hj, hcopies, hsv]
    rfl
  rw [hmarks]
  cases ht with
  | cons _ ht =>
    exact {
      wf := hj ▸ hwf
      inRange := fun r hr =>
        hstat.inRange (h.inRange r (undoRecords_journal p m.tracker.journal rfl r hr))
      world := rfl
      savePoints := by rw [h.savePoints, hs]; rfl
      touched := h.touched.trans hstat.entries.addresses.symm
      slots := h.slots.trans hstat.entries.slotKeys.symm
      nodupAccounts := by
        show (addresses t').Nodup
        rw [hstat.entries.addresses]
        exact h.nodupAccounts
      nodupSlots := by
        show (slotKeys t').Nodup
        rw [hstat.entries.slotKeys]
        exact h.nodupSlots
      owner := hstat.entries.owner h.owner
      tracks := by
        show List.Forall₂ _ (vals { t' with frames := p' :: ms }) _
        rw [hvals]
        exact ht
      preAccounts := by
        intro e he
        obtain ⟨e₀, he₀, heq⟩ := hstat.exists_account he
        exact (h.preAccounts e₀ he₀).congr heq
      preSlots := by
        intro e he
        obtain ⟨e₀, he₀, hk, -, hp, hv⟩ := hstat.exists_slot he
        intro hknown
        rw [hv, hk]
        exact h.preSlots e₀ he₀ (hp ▸ hknown)
      known := by
        intro val hval c hw
        have hval' : val ∈ vals { t' with frames := p' :: ms } := hval
        rw [hvals] at hval'
        exact hstat.preKnown (h.known val (.tail _ hval') c hw)
      origin := by
        have ho := h.origin
        rw [hs] at ho
        exact ho
      idle := fun hn => by cases hn
      builder := hstat.builder.trans h.builder
      index := hstat.index.trans h.index }

end Nimbus.Spec.BalTracker
