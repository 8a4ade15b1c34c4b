import Mathlib.Data.List.Basic

/-!
# Undo journals

A family of cells with a journal of undo records. A frame is the length of the journal when
it began; a write in a frame appends a record of the old value of its cell, unless the frame
has one already; ending a frame by a rollback replays the journal back to its mark. To know
whether a frame has a record, each cell remembers the position of its latest one.

The meaning of a journal is a stack of full copies of the cells, one for each open frame.
-/

universe u v

namespace UndoJournal

/-- The state of a cell before a change: its value and its latest record. -/
structure Record (K : Type u) (V : Type v) where
  key : K
  prev : V
  prevLast : Option Nat

end UndoJournal

structure UndoJournal (K : Type u) (V : Type v) where
  val : K → V
  /-- the position of the latest record of a cell -/
  last : K → Option Nat
  /-- the records, the newest first -/
  journal : List (UndoJournal.Record K V)
  /-- the journal length at the start of each open frame, the innermost first -/
  marks : List Nat

namespace UndoJournal

open Function

variable {K : Type u} {V : Type v} [DecidableEq K]

/-- The record of cell `k` with the value that it has now. -/
def current (j : UndoJournal K V) (k : K) : Record K V := ⟨k, j.val k, j.last k⟩

/-- Appends an undo record, and remembers its position when `track` is set. -/
def record (j : UndoJournal K V) (k : K) (track : Bool) : UndoJournal K V where
  val := j.val
  last := if track then update j.last k (some j.journal.length) else j.last
  journal := j.current k :: j.journal
  marks := j.marks

def setVal (j : UndoJournal K V) (k : K) (v : V) : UndoJournal K V :=
  { j with val := update j.val k v }

/-- Whether the latest record of the cell lies within the innermost frame. -/
def recorded (j : UndoJournal K V) (k : K) : Bool :=
  match j.last k with
  | none => false
  | some p => decide (j.marks.headD 0 ≤ p)

/-- Changes a cell, with one record a frame. -/
def write (j : UndoJournal K V) (k : K) (v : V) : UndoJournal K V :=
  if j.recorded k then j.setVal k v else (j.record k true).setVal k v

def «begin» (j : UndoJournal K V) : UndoJournal K V :=
  { j with marks := j.journal.length :: j.marks }

def commit (j : UndoJournal K V) : UndoJournal K V := { j with marks := j.marks.tail }

/-- Takes one record back. -/
def restore (r : Record K V) (rest : List (Record K V)) (j : UndoJournal K V) :
    UndoJournal K V where
  val := update j.val r.key r.prev
  last := update j.last r.key r.prevLast
  journal := rest
  marks := j.marks

/-- Replays the records, given as a list of their own, back to the length `n`. -/
def undo (n : Nat) : List (Record K V) → UndoJournal K V → UndoJournal K V
  | [], j => j
  | r :: rest, j => if n ≤ rest.length then undo n rest (restore r rest j) else j

def rollback (j : UndoJournal K V) : UndoJournal K V :=
  { undo (j.marks.headD 0) j.journal j with marks := j.marks.tail }

/-! ## What the journal stands for -/

/-- The value of a cell in the oldest of its records from position `n` on. -/
def before (n : Nat) : List (Record K V) → K → Option V
  | [], _ => none
  | r :: rest, k =>
    if n ≤ rest.length then (before n rest k).or (if r.key = k then some r.prev else none)
    else none

/-- The cells at the time when the journal had the length `n`. -/
def valAt (j : UndoJournal K V) (n : Nat) (k : K) : V := (before n j.journal k).getD (j.val k)

/-- The position of the latest record of a cell. -/
def newest (k : K) : List (Record K V) → Option Nat
  | [] => none
  | r :: rest => if r.key = k then some rest.length else newest k rest

/-- A stack of full copies. -/
structure Copies (K : Type u) (V : Type v) where
  cur : K → V
  saved : List (K → V)

def copies (j : UndoJournal K V) : Copies K V where
  cur := j.val
  saved := j.marks.map j.valAt

/-- Each record of a cell in `tracked` knows the one before it. -/
def Chained (tracked : K → Prop) : List (Record K V) → Prop
  | [] => True
  | r :: rest => (tracked r.key → r.prevLast = newest r.key rest) ∧
      (¬ tracked r.key → r.prevLast = none) ∧ Chained tracked rest

/-- The latest positions are right, and the marks go up. -/
structure Wf (tracked : K → Prop) (j : UndoJournal K V) : Prop where
  last : ∀ k, tracked k → j.last k = newest k j.journal
  untracked : ∀ k, ¬ tracked k → j.last k = none
  chained : Chained tracked j.journal
  marks_le : ∀ n ∈ j.marks, n ≤ j.journal.length
  marks_sorted : j.marks.Pairwise (· ≥ ·)

variable {tracked : K → Prop} {j : UndoJournal K V} {n : Nat} {k : K} {l : List (Record K V)}

theorem newest_lt {p : Nat} (h : newest k l = some p) : p < l.length := by
  induction l with
  | nil => cases h
  | cons r rest ih =>
    unfold newest at h
    split at h
    · cases h
      exact Nat.lt_succ_self _
    · exact Nat.lt_succ_of_lt (ih h)

/-- A cell with a record from position `n` on was saved since then. -/
theorem before_isSome {p : Nat} (h : newest k l = some p) (hn : n ≤ p) :
    (before n l k).isSome := by
  induction l with
  | nil => cases h
  | cons r rest ih =>
    have hlt := newest_lt h
    rw [List.length_cons] at hlt
    unfold newest at h
    unfold before
    rw [if_pos (by omega)]
    split at h
    · next hk =>
      rw [if_pos hk]
      cases before n rest k <;> rfl
    · simp [ih h]

theorem valAt_length (j : UndoJournal K V) : j.valAt j.journal.length = j.val := by
  funext k
  unfold valAt
  cases hj : j.journal with
  | nil => rfl
  | cons r rest =>
    unfold before
    rw [if_neg (by simp)]
    rfl

/-! ## Writes -/

theorem valAt_setVal (h : (before n j.journal k).isSome) (v : V) :
    (j.setVal k v).valAt n = j.valAt n := by
  funext k'
  unfold valAt
  by_cases hk : k' = k
  · obtain ⟨w, hw⟩ := Option.isSome_iff_exists.mp h
    subst hk
    simp [setVal, hw]
  · simp [setVal, update_of_ne hk]

theorem valAt_record (hn : n ≤ j.journal.length) (track : Bool) (v : V) :
    ((j.record k track).setVal k v).valAt n = j.valAt n := by
  funext k'
  simp only [valAt, setVal, record, before, if_pos hn, current]
  by_cases hk : k' = k
  · subst hk
    cases before n j.journal k' <;> simp
  · rw [if_neg (Ne.symm hk), Option.or_none, update_of_ne hk]

section

variable (hj : Wf tracked j)
include hj

/-- The marks of a journal all lie at or below the innermost one. -/
theorem Wf.le_head (hn : n ∈ j.marks) : n ≤ j.marks.headD 0 := by
  cases hm : j.marks with
  | nil =>
    rw [hm] at hn
    cases hn
  | cons m ms =>
    rw [hm] at hn
    have hs := hj.marks_sorted
    rw [hm] at hs
    rcases List.mem_cons.mp hn with rfl | hn
    · exact Nat.le_refl _
    · exact (List.pairwise_cons.mp hs).1 n hn

theorem copies_record (track : Bool) (v : V) :
    copies ((j.record k track).setVal k v) = { copies j with cur := update j.val k v } := by
  have hsaved : j.marks.map ((j.record k track).setVal k v).valAt = j.marks.map j.valAt :=
    List.map_congr_left fun n hn => valAt_record (hj.marks_le n hn) track v
  simp only [copies, ← hsaved]
  rfl

/-- A write changes the current cells and no copy. -/
theorem copies_write (hk : tracked k) (v : V) :
    copies (j.write k v) = { copies j with cur := update j.val k v } := by
  unfold write
  split
  · next hrec =>
    have hsaved : j.marks.map (j.setVal k v).valAt = j.marks.map j.valAt := by
      apply List.map_congr_left
      intro n hn
      unfold recorded at hrec
      split at hrec
      · cases hrec
      · next p hp =>
        rw [hj.last k hk] at hp
        exact valAt_setVal (before_isSome hp
          (Nat.le_trans (hj.le_head hn) (of_decide_eq_true hrec))) v
    simp only [copies, ← hsaved]
    rfl
  · exact copies_record hj true v

theorem Wf.setVal (k : K) (v : V) : Wf tracked (j.setVal k v) :=
  ⟨hj.last, hj.untracked, hj.chained, hj.marks_le, hj.marks_sorted⟩

theorem Wf.record {track : Bool} (ht : track = true ↔ tracked k) :
    Wf tracked (j.record k track) where
  last k' hk' := by
    simp only [UndoJournal.record, newest, current]
    by_cases hk : k' = k
    · subst hk
      rw [if_pos (ht.mpr hk'), update_self, if_pos rfl]
    · rw [if_neg (Ne.symm hk), ← hj.last k' hk']
      split
      · exact update_of_ne hk _ _
      · rfl
  untracked k' hk' := by
    simp only [UndoJournal.record]
    split
    · next htrack =>
      have hk : k' ≠ k := fun he => hk' (he ▸ ht.mp htrack)
      rw [update_of_ne hk]
      exact hj.untracked k' hk'
    · exact hj.untracked k' hk'
  chained := ⟨hj.last k, hj.untracked k, hj.chained⟩
  marks_le n hn := Nat.le_succ_of_le (hj.marks_le n hn)
  marks_sorted := hj.marks_sorted

theorem Wf.write (hk : tracked k) (v : V) : Wf tracked (j.write k v) := by
  unfold UndoJournal.write
  split
  · exact hj.setVal k v
  · exact (hj.record (iff_of_true rfl hk)).setVal k v

end

/-! ## Frames -/

theorem copies_begin (j : UndoJournal K V) :
    copies j.begin = { copies j with saved := j.val :: (copies j).saved } := by
  have h : j.valAt j.journal.length = j.val := valAt_length j
  exact congrArg (fun v => Copies.mk j.val (v :: j.marks.map j.valAt)) h

theorem Wf.begin (hj : Wf tracked j) : Wf tracked j.begin where
  last := hj.last
  untracked := hj.untracked
  chained := hj.chained
  marks_le n hn := by
    rcases List.mem_cons.mp hn with rfl | hn
    · exact Nat.le_refl _
    · exact hj.marks_le n hn
  marks_sorted := List.pairwise_cons.mpr ⟨fun n hn => hj.marks_le n hn, hj.marks_sorted⟩

theorem copies_commit (j : UndoJournal K V) :
    copies j.commit = { copies j with saved := (copies j).saved.tail } := by
  have h : j.marks.tail.map j.valAt = (j.marks.map j.valAt).tail := List.map_tail
  exact congrArg (Copies.mk j.val) h

theorem Wf.commit (hj : Wf tracked j) : Wf tracked j.commit where
  last := hj.last
  untracked := hj.untracked
  chained := hj.chained
  marks_le n hn := hj.marks_le n (List.mem_of_mem_tail hn)
  marks_sorted := hj.marks_sorted.tail

/-- A step of the replay goes back in time and changes no earlier state. -/
theorem valAt_restore {r : Record K V} {rest : List (Record K V)} (hr : j.journal = r :: rest)
    (hn : n ≤ rest.length) : (restore r rest j).valAt n = j.valAt n := by
  funext k
  simp only [valAt, restore, hr, before, if_pos hn]
  by_cases hk : r.key = k
  · subst hk
    cases before n rest r.key <;> simp
  · rw [if_neg hk, Option.or_none, update_of_ne (Ne.symm hk)]

theorem Wf.restore (hj : Wf tracked j) {r : Record K V} {rest : List (Record K V)}
    (hr : j.journal = r :: rest) (hmarks : ∀ n ∈ j.marks, n ≤ rest.length) :
    Wf tracked (restore r rest j) := by
  have hc := hj.chained
  rw [hr] at hc
  obtain ⟨htr, hun, hrest⟩ := hc
  exact {
    last := by
      intro k hk
      show update j.last r.key r.prevLast k = newest k rest
      by_cases he : k = r.key
      · subst he
        rw [update_self]
        exact htr hk
      · rw [update_of_ne he, hj.last k hk, hr, newest, if_neg (Ne.symm he)]
    untracked := by
      intro k hk
      show update j.last r.key r.prevLast k = none
      by_cases he : k = r.key
      · subst he
        rw [update_self]
        exact hun hk
      · rw [update_of_ne he]
        exact hj.untracked k hk
    chained := hrest
    marks_le := hmarks
    marks_sorted := hj.marks_sorted }

/-- The replay to `m` reaches the state at `m`, and keeps what is known of earlier ones. -/
theorem undo_spec {m : Nat} (hl : j.journal = l) (hj : Wf tracked j)
    (hm : m ≤ l.length) (hmarks : ∀ n ∈ j.marks, n ≤ m) :
    (undo m l j).val = j.valAt m ∧ (undo m l j).marks = j.marks ∧ Wf tracked (undo m l j) ∧
      ∀ n, n ≤ m → (undo m l j).valAt n = j.valAt n := by
  induction l generalizing j with
  | nil =>
    have hzero : m = j.journal.length := by
      rw [hl]
      exact Nat.le_zero.mp hm
    refine ⟨?_, rfl, hj, fun n _ => rfl⟩
    rw [hzero, valAt_length]
    rfl
  | cons r rest ih =>
    unfold undo
    split
    · next hle =>
      have hw : Wf tracked (restore r rest j) := hj.restore hl fun n hn => Nat.le_trans (hmarks n hn) hle
      obtain ⟨hval, hmk, hwf, hat⟩ := ih (j := restore r rest j) rfl hw hle hmarks
      refine ⟨?_, hmk, hwf, fun n hn => ?_⟩
      · rw [hval, valAt_restore hl hle]
      · rw [hat n hn, valAt_restore hl (Nat.le_trans hn hle)]
    · next hgt =>
      have hlen : m = j.journal.length := by
        rw [hl]
        rw [List.length_cons] at hm ⊢
        omega
      refine ⟨?_, rfl, hj, fun n _ => rfl⟩
      rw [hlen, valAt_length]

theorem copies_rollback (hj : Wf tracked j) {m : Nat} {ms : List Nat} (hm : j.marks = m :: ms) :
    copies j.rollback = { cur := j.valAt m, saved := (copies j).saved.tail } ∧
      Wf tracked j.rollback := by
  have hle : ∀ n ∈ j.marks, n ≤ m := by
    intro n hn
    have h := hj.le_head hn
    rw [hm] at h
    exact h
  obtain ⟨hval, hmk, hwf, hat⟩ :=
    undo_spec (m := m) rfl hj (hj.marks_le m (by rw [hm]; exact List.mem_cons_self)) hle
  have hroll : j.rollback = { undo m j.journal j with marks := ms } := by
    simp only [rollback, hm]
    rfl
  rw [hroll]
  constructor
  · have hsaved : ms.map (undo m j.journal j).valAt = ms.map j.valAt :=
      List.map_congr_left fun n hn => hat n (hle n (by rw [hm]; exact .tail _ hn))
    simp only [copies, hm, List.map_cons, List.tail_cons, ← hsaved, ← hval]
    rfl
  · refine ⟨hwf.last, hwf.untracked, hwf.chained, fun n hn => ?_, ?_⟩
    · refine hwf.marks_le n ?_
      rw [hmk, hm]
      exact .tail _ hn
    · have hs := hwf.marks_sorted
      rw [hmk, hm] at hs
      exact (List.pairwise_cons.mp hs).2

end UndoJournal
