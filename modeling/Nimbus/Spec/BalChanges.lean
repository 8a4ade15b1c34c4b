import Nimbus.Spec.BalEntries

/-!
# Tracked changes

Changes to the fields and slots of an account, next to the changes of the state.
-/

namespace Nimbus.Spec.BalTracker

open Nimbus.Native Nimbus.Native.BalTracker Function
open Aristo (Hash32 UInt256 Defect)
open Tracker UndoJournal

variable [Keccak] {w0 : World} {m : Machine} {n : Naive} {c : Copy} {a : Address}

/-! ## Calls that change a cell -/

/-- The entries refer to the same accounts and slots. -/
structure SameEntries (t t' : Tracker) : Prop where
  addresses : addresses t' = addresses t
  slots : t'.storage.map (fun e => (e.key, e.account)) =
    t.storage.map fun e => (e.key, e.account)
  builder : t'.builder = t.builder
  index : t'.currentBlockAccessIndex = t.currentBlockAccessIndex

omit [Keccak] in
theorem SameEntries.slotKeys {t t' : Tracker} (h : SameEntries t t') :
    slotKeys t' = slotKeys t := by
  have hk := congrArg (List.map Prod.fst) h.slots
  rw [List.map_map, List.map_map] at hk
  exact hk

omit [Keccak] in
theorem SameEntries.owner {t t' : Tracker} (h : SameEntries t t')
    (howner : ∀ e ∈ t.storage, (BalTracker.addresses t)[e.account]? = some e.key.address) :
    ∀ e ∈ t'.storage, (BalTracker.addresses t')[e.account]? = some e.key.address := by
  intro e he
  have hmem : (e.key, e.account) ∈ t.storage.map fun e => (e.key, e.account) := by
    rw [← h.slots]
    exact List.mem_map.mpr ⟨e, he, rfl⟩
  obtain ⟨e', he', heq⟩ := List.mem_map.mp hmem
  injection heq with hkey hacc
  rw [h.addresses, ← hkey, ← hacc]
  exact howner e' he'

theorem Rel.write (h : Rel m n w0) (hact : n.saved ≠ []) (t' : Tracker) (c' : Copy) (k : Cell)
    (v : CellVal) (hwf : (journalOf t').Wf Tracked) (hin : JournalInRange t')
    (hcopies : copies (journalOf t') =
      { copies (journalOf m.tracker) with cur := update (cellVal m.tracker) k v })
    (hsame : SameEntries m.tracker t') (hpreA : ∀ e ∈ t'.accounts, PreAccount w0 e)
    (hpreS : ∀ e ∈ t'.storage, PreSlot w0 e) (hknown : preKnown t' k = true)
    (hmono : ∀ c, preKnown m.tracker c = true → preKnown t' c = true)
    (htracks : Tracks n.touched n.slots w0 (update (cellVal m.tracker) k v) c') :
    Rel { m with tracker := t', world := c'.world } { n with now := c' } w0 := by
  have hvals : vals t' = update (cellVal m.tracker) k v :: (vals m.tracker).tail := by
    show (copies (journalOf t')).cur :: (copies (journalOf t')).saved = _
    rw [hcopies]
    rfl
  exact {
    wf := hwf
    inRange := hin
    world := rfl
    savePoints := h.savePoints
    touched := by rw [hsame.addresses, ← h.touched]
    slots := by rw [hsame.slotKeys, ← h.slots]
    nodupAccounts := by
      rw [hsame.addresses]
      exact h.nodupAccounts
    nodupSlots := by
      rw [hsame.slotKeys]
      exact h.nodupSlots
    owner := hsame.owner h.owner
    tracks := by
      rw [hvals]
      have ht := h.tracks
      cases ht with
      | cons _ hsaved => exact .cons htracks hsaved
    preAccounts := hpreA
    preSlots := hpreS
    known := by
      intro val hval c hw
      rw [hvals] at hval
      rcases List.mem_cons.mp hval with rfl | hval
      · by_cases hc : c = k
        · rw [hc]
          exact hknown
        · rw [update_of_ne hc] at hw
          exact hmono c (h.known _ List.mem_cons_self c hw)
      · exact hmono c (h.known val (List.mem_of_mem_tail hval) c hw)
    origin := h.origin
    idle := fun hs => absurd hs hact
    builder := hsame.builder.trans h.builder
    index := hsame.index.trans h.index }

section

omit [Keccak]

theorem mem_modify {E : Type} {l : List E} {i : Nat} {f : E → E} {x : E}
    (hx : x ∈ l.modify i f) : (∃ j, j ≠ i ∧ l[j]? = some x) ∨ ∃ e, l[i]? = some e ∧ x = f e := by
  obtain ⟨j, hj⟩ := List.mem_iff_getElem?.mp hx
  rw [List.getElem?_modify] at hj
  cases hl : l[j]? with
  | none =>
    rw [hl] at hj
    cases hj
  | some e =>
    rw [hl] at hj
    have hxe : (if i = j then f e else e) = x := Option.some.inj hj
    split at hxe
    · next hij => exact .inr ⟨e, hij ▸ hl, hxe.symm⟩
    · next hij => exact .inl ⟨j, Ne.symm hij, hxe ▸ hl⟩

theorem elim_modify {E : Type} {l : List E} {i j : Nat} {f : E → E} {g : E → Bool}
    (hf : ∀ e, l[i]? = some e → g e = true → g (f e) = true)
    (h : (l[j]?).elim false g = true) : ((l.modify i f)[j]?).elim false g = true := by
  rw [List.getElem?_modify]
  cases hl : l[j]? with
  | none =>
    rw [hl] at h
    cases h
  | some e =>
    rw [hl] at h
    split
    · next hij => exact hf e (hij ▸ hl) h
    · exact h

theorem accountKnown_congr {e e' : AccountEntry} (h : beforeOf e = beforeOf e')
    (kind : AccountKind) : accountKnown e kind = accountKnown e' kind := by
  injection h with _ hb _ hn _ hc
  cases kind with
  | balance => exact hb
  | nonce => exact hn
  | code => exact congrArg Option.isSome hc
  | selfDestruct => rfl

end

theorem PreAccount.congr {e e' : AccountEntry} (h : beforeOf e = beforeOf e')
    (hp : PreAccount w0 e') : PreAccount w0 e := by
  injection h with ha hb hbv hn hnv hc
  exact {
    balance := by rw [hb, hbv, ha]; exact hp.balance
    nonce := by rw [hn, hnv, ha]; exact hp.nonce
    code := by rw [hc, ha]; exact hp.code }

omit [Keccak] in
theorem recordCell_prevLast (r : JournalEntry) (last : Option Nat) :
    recordCell { r with prevLast := last } = recordCell r := rfl

/-- A tracked change to an account, next to the change of the state. -/
theorem Rel.change (h : Rel m n w0) (hact : n.saved ≠ []) {kind : AccountKind} {val : CellVal}
    (ch : Change kind val) (htr : Tracked (.account kind ((addresses m.tracker).idxOf a)))
    {e : AccountEntry} (he : m.tracker.accounts[(addresses m.tracker).idxOf a]? = some e)
    {r : JournalEntry}
    (hr : recordOf { r with prevLast := accountLast e kind } =
      ⟨.account kind ((addresses m.tracker).idxOf a), accountVal e kind, accountLast e kind⟩)
    (haddr : (ch.capture e).address = e.address) (hcap : PreAccount w0 (ch.capture e))
    (hmono : ∀ k, accountKnown e k = true → accountKnown (ch.capture e) k = true)
    (hknown : accountKnown (ch.capture e) kind = true) {c' : Copy}
    (htracks : Tracks n.touched n.slots w0
      (update (cellVal m.tracker) (.account kind (n.touched.idxOf a)) val) c') :
    (ch.apply ((addresses m.tracker).idxOf a) (accountLast e kind) r m.tracker).storage =
      m.tracker.storage ∧
    Rel { m with
      tracker := ch.apply ((addresses m.tracker).idxOf a) (accountLast e kind) r m.tracker
      world := c'.world } { n with now := c' } w0 := by
  have hidx : n.touched.idxOf a = (addresses m.tracker).idxOf a := by rw [h.touched]
  rw [hidx] at htracks
  have hj := journalOf_change he ch hr
  have hcell : recordCell r = .account kind ((addresses m.tracker).idxOf a) :=
    congrArg UndoJournal.Record.key hr
  generalize (addresses m.tracker).idxOf a = i at *
  obtain ⟨f, journal, happly, hbefore, hjournal⟩ := apply_lists ch i (accountLast e kind) r m.tracker
  rw [happly] at hj ⊢
  have hfe : beforeOf (f e) = beforeOf (ch.capture e) := hbefore e
  have hmap : (m.tracker.accounts.modify i f).map (·.address) =
      m.tracker.accounts.map (·.address) := by
    apply map_modify_eq
    intro e' he'
    rw [he] at he'
    cases he'
    exact (congrArg Before.address hfe).trans haddr
  refine ⟨rfl, h.write hact _ c' (.account kind i) val ?_ ?_ ?_ ⟨hmap, rfl, rfl, rfl⟩ ?_ h.preSlots
    ?_ ?_ htracks⟩
  · rw [hj]
    exact h.wf.write htr val
  · -- the new record is in the range of the lists
    intro r' hr'
    refine InRange.mono (t := m.tracker) (List.length_modify _ _ _).ge (le_refl _) ?_
    have hr'' : r' ∈ journal := hr'
    rcases hjournal with hjl | hjl
    · rw [hjl] at hr''
      exact h.inRange r' hr''
    · rw [hjl] at hr''
      rcases List.mem_cons.mp hr'' with rfl | hr''
      · rw [recordCell_prevLast, hcell]
        exact (List.getElem?_eq_some_iff.mp he).1
      · exact h.inRange r' hr''
  · rw [hj, copies_write h.wf htr]
    rfl
  · intro x hx
    rcases mem_modify hx with ⟨_, -, hx⟩ | ⟨e', he', rfl⟩
    · exact h.preAccounts x (List.mem_of_getElem? hx)
    · rw [he] at he'
      cases he'
      exact hcap.congr hfe
  · show ((m.tracker.accounts.modify i f)[i]?).elim false (accountKnown · kind) = true
    rw [List.getElem?_modify, he]
    simp only [if_true, Option.map_eq_map, Option.map_some, Option.elim_some]
    rw [accountKnown_congr hfe]
    exact hknown
  · intro c hc
    cases c with
    | storage j => exact hc
    | account k j =>
      refine elim_modify (fun e' he' hk => ?_) hc
      rw [he] at he'
      cases he'
      rw [accountKnown_congr hfe]
      exact hmono k hk

theorem Rel.now (h : Rel m n w0) : Tracks n.touched n.slots w0 (cellVal m.tracker) n.now := by
  have ht := h.tracks
  cases ht with
  | cons hnow _ => exact hnow

omit [Keccak] in
theorem changeSlot_lists (ledger : ReadOnlyLedger) (t : Tracker) (i : Nat) (e : StorageEntry)
    (v : UInt256) :
    ∃ f journal, changeSlot ledger t i e v =
      { t with storage := t.storage.modify i f, journal := journal } ∧
      (∀ x, (f x).key = x.key ∧ (f x).account = x.account ∧ (f x).written = true ∧
        (f x).preKnown = true ∧ (f x).pre = (captured ledger x).pre) ∧
      ((journal = t.journal) ∨ ∃ r, recordCell r = .storage i ∧ journal = r :: t.journal) := by
  have hknown : ∀ x, (captured ledger x).preKnown = true := by
    intro x
    unfold captured
    split
    · rfl
    · next hk => simpa using hk
  have hkey : ∀ x, (captured ledger x).key = x.key ∧ (captured ledger x).account = x.account := by
    intro x
    unfold captured
    split <;> exact ⟨rfl, rfl⟩
  let post : StorageEntry → StorageEntry := fun e => { e with post := v, written := true }
  let last : StorageEntry → StorageEntry :=
    fun e => { e with lastJournal := some t.journal.length }
  unfold changeSlot recordOnce
  split
  · refine ⟨post ∘ captured ledger, t.journal, ?_,
      fun x => ⟨(hkey x).1, (hkey x).2, rfl, hknown x, rfl⟩, .inl rfl⟩
    simp only [modifyStorage, capturePreStorage, List.modify_modify_eq]
    rfl
  · let r : JournalEntry := ⟨.jStorageWrite, i, e.lastJournal, e.written, e.post, 0⟩
    refine ⟨post ∘ last ∘ captured ledger, r :: t.journal, ?_,
      fun x => ⟨(hkey x).1, (hkey x).2, rfl, hknown x, rfl⟩, .inr ⟨r, rfl, rfl⟩⟩
    simp only [modifyStorage, capturePreStorage, setLastJournal,
      List.modify_modify_eq]
    rfl

/-- A tracked storage write, next to the write to the state. -/
theorem Rel.changeSlot (h : Rel m n w0) (hact : n.saved ≠ []) {key : SlotKey} {e : StorageEntry}
    (he : m.tracker.storage[(BalTracker.slotKeys m.tracker).idxOf key]? = some e)
    (hkey : e.key = key) (v : UInt256) :
    Rel { m with
      tracker := changeSlot m.world.readOnly m.tracker
        ((BalTracker.slotKeys m.tracker).idxOf key) e v
      world := m.world.setStorage key.address key.slot v }
      (n.setWorld (n.now.world.setStorage key.address key.slot v)) w0 := by
  have hmem : key ∈ n.slots := by
    rw [h.slots, ← hkey]
    exact List.mem_map.mpr ⟨e, List.mem_of_getElem? he, rfl⟩
  have htracks := h.now.setStorage hmem v
  rw [h.slots] at htracks
  have hbefore : e.preKnown = false → m.world.storage key.address key.slot =
      w0.storage key.address key.slot := by
    intro hk
    rw [h.world, h.now.storage key, h.slots, CellVal.get, if_neg]
    intro hw
    have hp := h.known _ List.mem_cons_self _ hw
    simp [preKnown, he, hk] at hp
  have hj := journalOf_changeSlot he m.world.readOnly v
  obtain ⟨f, journal, hch, hf, hjournal⟩ := changeSlot_lists m.world.readOnly m.tracker
    ((BalTracker.slotKeys m.tracker).idxOf key) e v
  generalize (BalTracker.slotKeys m.tracker).idxOf key = i at *
  rw [hch] at hj ⊢
  rw [h.world]
  have hmap : (m.tracker.storage.modify i f).map (fun e => (e.key, e.account)) =
      m.tracker.storage.map fun e => (e.key, e.account) := by
    apply map_modify_eq
    intro x _
    rw [(hf x).1, (hf x).2.1]
  rw [← h.slots] at htracks
  let t' : Tracker := { m.tracker with
    storage := m.tracker.storage.modify i f, journal := journal }
  have htr : Tracked (.storage i) := trivial
  refine h.write hact t' _ (.storage i) { written := true, value := v }
    ?_ ?_ ?_ ⟨rfl, hmap, rfl, rfl⟩ h.preAccounts ?_ ?_ ?_ htracks
  · rw [hj]
    exact h.wf.write htr _
  · intro r hr
    refine InRange.mono (t := m.tracker) (le_refl _) (List.length_modify _ _ _).ge ?_
    have hr' : r ∈ journal := hr
    rcases hjournal with hjl | ⟨r', hcell, hjl⟩
    · rw [hjl] at hr'
      exact h.inRange r hr'
    · rw [hjl] at hr'
      rcases List.mem_cons.mp hr' with rfl | hr'
      · rw [hcell]
        exact (List.getElem?_eq_some_iff.mp he).1
      · exact h.inRange r hr'
  · rw [hj, copies_write h.wf htr]
    rfl
  · intro x hx
    rcases mem_modify hx with ⟨_, -, hx⟩ | ⟨e', he', rfl⟩
    · exact h.preSlots x (List.mem_of_getElem? hx)
    · rw [he] at he'
      cases he'
      intro _
      rw [(hf e).1, (hf e).2.2.2.2]
      unfold captured
      split
      · next hk =>
        rw [hkey]
        exact hbefore (by simpa using hk)
      · next hk => exact h.preSlots e (List.mem_of_getElem? he) (by simpa using hk)
  · show ((m.tracker.storage.modify i f)[i]?).elim false (·.preKnown) = true
    rw [List.getElem?_modify, he]
    simp [(hf e).2.2.2.1]
  · intro c hc
    cases c with
    | account k j => exact hc
    | storage j => exact elim_modify (fun e' _ _ => (hf e').2.2.2.1) hc

theorem Rel.selfDestruct (h : Rel m n w0) (hact : n.saved ≠ []) {e : AccountEntry}
    (he : m.tracker.accounts[(addresses m.tracker).idxOf a]? = some e) (ha : a ∈ n.touched)
    (hdown : e.selfDestructed = false) : Rel { m with tracker :=
      { m.tracker.modifyAccount ((addresses m.tracker).idxOf a)
          fun e => { e with selfDestructed := true } with
        journal := { kind := .jSelfDestruct, idx := (addresses m.tracker).idxOf a } ::
          m.tracker.journal } }
      { n with now.destroyed := update n.now.destroyed a true } w0 := by
  have htracks := h.now.selfDestruct ha
  rw [h.touched] at htracks
  have hj := journalOf_selfDestruct he hdown
  generalize (addresses m.tracker).idxOf a = i at *
  rw [← h.touched] at htracks
  have hmap : addresses (m.tracker.modifyAccount i fun e => { e with selfDestructed := true }) =
      addresses m.tracker := by
    apply map_modify_eq
    intro x _
    rfl
  have htr : false = true ↔ Tracked (.account .selfDestruct i) :=
    iff_of_false Bool.false_ne_true fun hf => hf
  have hw := h.write hact
    { m.tracker.modifyAccount i fun e => { e with selfDestructed := true } with
      journal := { kind := .jSelfDestruct, idx := i } :: m.tracker.journal }
    { n.now with destroyed := update n.now.destroyed a true }
    (.account .selfDestruct i) { written := true } ?_ ?_ ?_ ⟨hmap, rfl, rfl, rfl⟩ ?_ h.preSlots ?_ ?_ htracks
  · rw [← h.world] at hw
    exact hw
  · rw [hj]
    exact (h.wf.record htr).setVal _ _
  · intro r hr
    refine InRange.mono (t := m.tracker) (List.length_modify _ _ _).ge (le_refl _) ?_
    rcases List.mem_cons.mp hr with rfl | hr
    · exact (List.getElem?_eq_some_iff.mp he).1
    · exact h.inRange r hr
  · rw [hj, copies_record h.wf]
    rfl
  · intro x hx
    rcases mem_modify hx with ⟨_, -, hx⟩ | ⟨e', he', rfl⟩
    · exact h.preAccounts x (List.mem_of_getElem? hx)
    · refine PreAccount.congr ?_ (h.preAccounts e' (List.mem_of_getElem? he'))
      rfl
  · show ((m.tracker.accounts.modify i _)[i]?).elim false (accountKnown · .selfDestruct) = true
    rw [List.getElem?_modify, he]
    rfl
  · intro c hc
    cases c with
    | storage j => exact hc
    | account k j =>
      refine elim_modify (fun e' _ hk => ?_) hc
      cases k <;> exact hk

end Nimbus.Spec.BalTracker
