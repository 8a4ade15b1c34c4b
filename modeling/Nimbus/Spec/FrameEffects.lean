import Nimbus.Native.FrameEffects
import Mathlib.Algebra.Ring.Int.Defs

/-!
# Transient storage, logs and refunds follow the call journal

The history of an execution is read backwards: what lies between the beginning of a frame and its
failure is left out (`surviving`). What is left of the history is a journal. `Tracks` says that a
computation and its callers hold what the journal holds.
-/

namespace Nimbus.Spec.FrameEffects

open Native FrameEffects
open Aristo (UInt256)
open Interpreter (Log)

/-! ### The journal -/

/-- The events of a history that are not part of a frame that has failed. `skip` is the number of
the frames, each a part of the next one, that the events before are a part of. -/
def surviving : Nat → List Event → List Event
  | _, [] => []
  | 0, .afterExec false :: h => surviving 1 h
  | 0, e :: h => e :: surviving 0 h
  | n + 1, .afterExec _ :: h => surviving (n + 2) h
  | n + 1, .beforeExec :: h => surviving n h
  | n + 1, _ :: h => surviving (n + 1) h

theorem surviving_cons {e : Event} {h : List Event} (he : e ≠ .afterExec false) :
    surviving 0 (e :: h) = e :: surviving 0 h := by
  rw [surviving]
  exact he

/-- What the latest of the stores has written to `key`. -/
def latest (key : Address × UInt256) : List Event → UInt256
  | [] => 0
  | .tstore key' value :: h => if key' = key then value else latest key h
  | _ :: h => latest key h

/-- The logs of a history, the last one first. -/
def logs : List Event → List Log
  | [] => []
  | .log entry :: h => entry :: logs h
  | _ :: h => logs h

def refunds : List Event → Int
  | [] => 0
  | .refund amount :: h => amount + refunds h
  | _ :: h => refunds h

/-- Every load has returned what the latest store has written that survives at the time. -/
def LoadsLatest (h : List Event) : Prop :=
  ∀ later key value earlier, h = later ++ .tload key value :: earlier →
    value = latest key (surviving 0 earlier)

/-! ### Tables -/

section Tables

variable {K V : Type} [DecidableEq K]

theorem lookup_mergeAndReset (merge : V → V → V) (tgt src : Table K V) (k : K) :
    (mergeAndReset merge tgt src).lookup k =
      match tgt.lookup k, src.lookup k with
      | some tv, some sv => some (merge tv sv)
      | some tv, none => some tv
      | none, sv => sv := by
  unfold mergeAndReset
  split
  · next hlen =>
    rw [Table.len_eq_zero_iff.mp hlen k]
  · rw [Table.lookup_putAll]
    cases tgt.lookup k <;> cases src.lookup k <;> rfl

end Tables

variable {ts other : TransientStorage} {address address' : Address} {slot slot' value : UInt256}

/-- `getStorage`, without the value that it returns where there is none. -/
def find (ts : TransientStorage) (address : Address) (slot : UInt256) : Option UInt256 :=
  (ts.map.lookup address).bind (·.lookup slot)

theorem getStorage_eq : ts.getStorage address slot =
    match find ts address slot with
    | some val => (true, val)
    | none => (false, 0) := by
  unfold TransientStorage.getStorage find
  cases ts.map.lookup address with
  | none => rfl
  | some table => cases h : table.lookup slot <;> simp [h]

theorem find_setStorage : find (ts.setStorage address slot value) address' slot' =
    if (address, slot) = (address', slot') then some value else find ts address' slot' := by
  unfold TransientStorage.setStorage find
  rw [Table.lookup_insert']
  by_cases haddress : address' = address
  · subst haddress
    rw [if_pos rfl, Option.bind_some, Table.lookup_insert']
    by_cases hslot : slot' = slot
    · rw [if_pos hslot, if_pos (by rw [hslot])]
    · rw [if_neg hslot, if_neg fun h => hslot (Prod.mk.inj h).2.symm]
      cases ts.map.lookup address' <;> rfl
  · rw [if_neg haddress, if_neg fun h => haddress (Prod.mk.inj h).1.symm]

theorem find_merge : find (ts.merge other) address slot =
    (find other address slot).or (find ts address slot) := by
  unfold TransientStorage.merge find
  rw [lookup_mergeAndReset]
  cases hts : ts.map.lookup address with
  | none => cases other.map.lookup address <;> simp
  | some table =>
    cases other.map.lookup address with
    | none => simp
    | some table' =>
      simp only [Option.bind_some, lookup_mergeAndReset]
      cases table.lookup slot <;> cases table'.lookup slot <;> rfl

/-! ### The chain of the computations -/

variable {c child : Computation} {parents : List Computation} {h : List Event}

theorem findTransientStorage_cons : findTransientStorage address slot (c :: parents) =
    (find c.transientStorage address slot).getD (findTransientStorage address slot parents) := by
  rw [findTransientStorage, getStorage_eq]
  cases find c.transientStorage address slot <;> rfl

/-- The logs of the computations, those of the callers first. -/
def chainLogs : List Computation → List Log
  | [] => []
  | c :: parents => chainLogs parents ++ c.logEntries

def chainRefunds (cs : List Computation) : Int := (cs.map (·.refundCounter)).sum

/-- A computation and its callers hold what the journal of the history holds. -/
structure Tracks (cs : List Computation) (h : List Event) : Prop where
  loads : ∀ address slot,
    findTransientStorage address slot cs = latest (address, slot) (surviving 0 h)
  logs : chainLogs cs = (logs (surviving 0 h)).reverse
  refunds : chainRefunds cs = refunds (surviving 0 h)

namespace Tracks

section

variable (ht : Tracks (c :: parents) h)
include ht

theorem tstore (slot value : UInt256) : Tracks (c.setTransientStorage slot value :: parents)
      (.tstore (c.currentTarget, slot) value :: h) := by
  constructor
  · intro address slot'
    have hsurviving : surviving 0 (.tstore (c.currentTarget, slot) value :: h) =
        .tstore (c.currentTarget, slot) value :: surviving 0 h := surviving_cons nofun
    rw [hsurviving, latest, ← ht.loads, findTransientStorage_cons, findTransientStorage_cons]
    unfold Computation.setTransientStorage
    rw [find_setStorage]
    split <;> rfl
  · exact ht.logs
  · exact ht.refunds

theorem tload (key : Address × UInt256) (value : UInt256) :
    Tracks (c :: parents) (.tload key value :: h) := ⟨ht.loads, ht.logs, ht.refunds⟩

theorem log (entry : Log) : Tracks (c.addLogEntry entry :: parents) (.log entry :: h) := by
  constructor
  · exact ht.loads
  · have hlogs := ht.logs
    unfold chainLogs at hlogs ⊢
    unfold Computation.addLogEntry
    rw [surviving_cons (by nofun), FrameEffects.logs, List.reverse_cons, ← hlogs, List.append_assoc]
  · exact ht.refunds

theorem refund (amount : Int) : Tracks (c.refundGas amount :: parents) (.refund amount :: h) := by
  constructor
  · exact ht.loads
  · exact ht.logs
  · have hrefunds := ht.refunds
    unfold chainRefunds at hrefunds ⊢
    rw [surviving_cons (by nofun), FrameEffects.refunds, ← hrefunds]
    unfold Computation.refundGas
    simp
    omega

end

theorem beforeExec {cs : List Computation} (ht : Tracks cs h) (currentTarget : Address) :
    Tracks ({ currentTarget } :: cs) (.beforeExec :: h) := by
  constructor
  · intro address slot
    exact ht.loads address slot
  · have hlogs := ht.logs
    unfold chainLogs
    rw [List.append_nil]
    exact hlogs
  · have hrefunds := ht.refunds
    unfold chainRefunds at hrefunds ⊢
    rw [List.map_cons, List.sum_cons, hrefunds]
    exact zero_add _

theorem merge (ht : Tracks (child :: c :: parents) h) :
    Tracks (c.merge child :: parents) (.afterExec true :: h) := by
  constructor
  · intro address slot
    have hloads := ht.loads address slot
    rw [findTransientStorage_cons, findTransientStorage_cons] at hloads
    rw [surviving_cons (by nofun), latest, ← hloads, findTransientStorage_cons]
    · unfold Computation.merge Computation.refundGas
      rw [find_merge]
      cases find child.transientStorage address slot <;> rfl
    · exact nofun
  · have hlogs := ht.logs
    rw [surviving_cons (by nofun), FrameEffects.logs, ← hlogs]
    · exact (List.append_assoc ..).symm
    · exact nofun
  · have hrefunds := ht.refunds
    unfold chainRefunds at hrefunds ⊢
    rw [surviving_cons (by nofun), FrameEffects.refunds, ← hrefunds]
    · unfold Computation.merge Computation.refundGas
      simp
      omega
    · exact nofun

/-- A child that has failed leaves the caller as it was before the child. -/
theorem drop {added : List Event} (ht : Tracks (c :: parents) h)
    (hadded : ∀ n h, surviving (n + 1) (added ++ h) = surviving (n + 1) h) :
    Tracks (c :: parents) (.afterExec false :: (added ++ .beforeExec :: h)) := by
  have hsurviving :
      surviving 0 (.afterExec false :: (added ++ .beforeExec :: h)) = surviving 0 h := by
    rw [surviving, hadded, surviving]
  constructor
  · intro address slot
    rw [hsurviving]
    exact ht.loads address slot
  · rw [hsurviving]
    exact ht.logs
  · rw [hsurviving]
    exact ht.refunds

end Tracks

theorem LoadsLatest.cons {e : Event} (h₀ : LoadsLatest h)
    (he : ∀ key value, e = .tload key value → value = latest key (surviving 0 h)) :
    LoadsLatest (e :: h) := by
  intro later key value earlier heq
  cases later with
  | nil =>
    obtain ⟨rfl, rfl⟩ := List.cons.inj heq
    exact he key value rfl
  | cons e' later =>
    obtain ⟨-, heq⟩ := List.cons.inj heq
    exact h₀ later key value earlier heq

/-! ### Executions -/

/-- What an execution has added to the history is left out as a whole where it is part of a
frame that fails. -/
def Adds (added : List Event) : Prop :=
  ∀ n h, surviving (n + 1) (added ++ h) = surviving (n + 1) h

/-- An event that is not the beginning or the end of a frame. -/
def IsEffect : Event → Prop
  | .beforeExec => False
  | .afterExec _ => False
  | _ => True

theorem Adds.nil : Adds [] := fun _ _ => rfl

theorem Adds.append_singleton {added : List Event} {e : Event} (ha : Adds added)
    (he : IsEffect e) : Adds (added ++ [e]) := by
  intro n h
  rw [List.append_assoc, ha]
  cases e <;> first | rfl | exact absurd he id

theorem Adds.call {added addedChild : List Event} (isSuccess : Bool) (ha : Adds added)
    (hchild : Adds addedChild) :
    Adds (added ++ .afterExec isSuccess :: (addedChild ++ [.beforeExec])) := by
  intro n h
  rw [List.append_assoc, ha, List.cons_append, surviving, List.append_assoc, hchild]
  rfl

/-- What an execution leaves of a computation and the history. -/
structure Executed (parents : List Computation) (h : List Event) (ended : Ended) : Prop where
  tracks : Tracks (ended.computation :: parents) ended.history
  loads : LoadsLatest ended.history
  adds : ∃ added, ended.history = added ++ h ∧ Adds added

theorem Executed.of_cons {ended : Ended} {e : Event} (he : IsEffect e)
    (hex : Executed parents (e :: h) ended) : Executed parents h ended := by
  refine ⟨hex.tracks, hex.loads, ?_⟩
  obtain ⟨added, hhistory, hadds⟩ := hex.adds
  refine ⟨added ++ [e], ?_, hadds.append_singleton he⟩
  rw [hhistory, List.append_assoc]
  rfl

/-- An execution keeps the journal, and what it loads is what the journal says. -/
theorem exec_tracks (code : Code) : ∀ c parents h, Tracks (c :: parents) h → LoadsLatest h →
    Executed parents h (exec code c parents h) := by
  induction code with
  | finish isSuccess =>
    intro c parents h ht hl
    exact ⟨ht, hl, [], rfl, .nil⟩
  | tstore slot value next ih =>
    intro c parents h ht hl
    exact .of_cons (by exact trivial) (ih _ _ _ (ht.tstore slot value) (hl.cons nofun))
  | tload slot next ih =>
    intro c parents h ht hl
    refine .of_cons (by exact trivial) (ih _ _ _ _ (ht.tload _ _) (hl.cons ?_))
    -- the chain of the tables holds what the journal says
    rintro key value ⟨⟩
    exact ht.loads c.currentTarget slot
  | log entry next ih =>
    intro c parents h ht hl
    exact .of_cons (by exact trivial) (ih _ _ _ (ht.log entry) (hl.cons nofun))
  | refund amount next ih =>
    intro c parents h ht hl
    exact .of_cons (by exact trivial) (ih _ _ _ (ht.refund amount) (hl.cons nofun))
  | call currentTarget child next ihChild ih =>
    intro c parents h ht hl
    obtain ⟨htracks, hloads, addedChild, hhistory, haddsChild⟩ :=
      ihChild { currentTarget } (c :: parents) (.beforeExec :: h) (ht.beforeExec currentTarget)
        (hl.cons nofun)
    unfold exec
    set ended := exec child { currentTarget } (c :: parents) (.beforeExec :: h)
    have hcaller : Tracks ((if ended.isSuccess then c.merge ended.computation else c) :: parents)
        (.afterExec ended.isSuccess :: ended.history) := by
      cases ended.isSuccess with
      | true => exact htracks.merge
      | false =>
        rw [hhistory]
        exact ht.drop haddsChild
    obtain ⟨htracks', hloads', added, hhistory', hadds⟩ :=
      ih ended.isSuccess _ parents _ hcaller (hloads.cons nofun)
    refine ⟨htracks', hloads', _, ?_, hadds.call ended.isSuccess haddsChild⟩
    rw [hhistory', hhistory]
    simp

/-- A child stores 9 over the 7 of its caller, and reads it back; where it fails, its caller reads
7 after it. -/
example (isSuccess : Bool) :
    let target : Address := Vector.replicate 20 0
    let child := Code.tstore 1 9 (.tload 1 fun _ => .finish isSuccess)
    let code := Code.tstore 1 7 (.call target child fun _ => .tload 1 fun _ => .finish true)
    (execTop code target).history.filterMap (fun
      | .tload _ value => some value
      | _ => none) = [if isSuccess then 9 else 7, 9] := by
  cases isSuccess <;> decide +kernel

end Nimbus.Spec.FrameEffects
