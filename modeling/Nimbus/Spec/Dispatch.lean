import Nimbus.Native.Dispatch

/-!
# What the recursive scheme of the call frames does

`execRecursive` is the scheme that `execCallOrCreate` stands for: a frame begins, its slices are
executed with a recursive call for each child, and it ends. What a frame leaves in the log is
described by the tree of the frames that are executed in it.

The proofs go from what one operation writes (`Writes`, `Executed`) to what all slices of a frame
do (`Sliced`), and from there to the frame (`Framed`).
-/

namespace Nimbus.Spec.Dispatch

open Native Dispatch
open ExecM (Ends)
open VmTypes
open Function (update)
open VmState ExecM Function

/-! ### The recursive scheme -/

section
variable [Vm]

mutual

/-- A frame from its beginning to its end. -/
def execRecursive : Nat → VmState → CompId → Exec VmState
  | 0, _, _ => diverge
  | n + 1, s, c => do
    let s ← execSlices n (s.beforeExec c).1 c
    (s.clearChild c).afterExec c

/-- What is executed of a frame, up to where no child is left to run. -/
def execSlices : Nat → VmState → CompId → Exec VmState
  | 0, _, _ => diverge
  | n + 1, s, c => do
    let s ← s.executeOpcodes c
    match (s.computations c).continuation, (s.computations c).child with
    | none, _ => pure s
    | some _, none => throw .nilAccess
    | some _, some child => do
      let s ← execRecursive n (s.setParent c child) child
      let s ← s.dispose child
      execSlices n s c

end

/-- A frame that nothing has called. -/
def execTop (n : Nat) (s : VmState) (c : CompId) : Exec VmState := do
  let s ← execRecursive n s c
  let s ← s.dispose c
  return s.clearChild c

end

/-! ### Trees of frames -/

/-- A frame: its computation, its savepoint, what it ends with, and the frames that it calls. -/
inductive FrameTree where
  | node (c : CompId) (savePoint : SpRef) (result : Option Error) (children : List FrameTree)

namespace FrameTree

def c : FrameTree → CompId
  | node c _ _ _ => c

def result : FrameTree → Option Error
  | node _ _ result _ => result

mutual

def computations : FrameTree → List CompId
  | node c _ _ children => c :: computationsOf children

def computationsOf : List FrameTree → List CompId
  | [] => []
  | t :: ts => t.computations ++ computationsOf ts

end

mutual

def savePoints : FrameTree → List SpRef
  | node _ savePoint _ children => savePoint :: savePointsOf children

def savePointsOf : List FrameTree → List SpRef
  | [] => []
  | t :: ts => t.savePoints ++ savePointsOf ts

end

/-- How a frame begins. The tracker has call frames only where it is enabled. -/
def opening (tracked : Bool) (c : CompId) (savePoint : SpRef) : List Event :=
  [.beforeExec c] ++ (if tracked then [.beginCallFrame c] else []) ++ [.beginSavePoint c savePoint]

/-- How a frame ends: by a commit if it is a success, and else by a rollback. -/
def closing (tracked : Bool) (c : CompId) (savePoint : SpRef) (result : Option Error) :
    List Event :=
  if result.isNone then
    [.afterExec c] ++ (if tracked then [.commitCallFrame c] else []) ++ [.commit c savePoint]
  else
    [.afterExec c] ++ (if tracked then [.rollbackCallFrame c] else []) ++ [.rollback c savePoint]

mutual

/-- The log of a frame. -/
def log (tracked : Bool) : FrameTree → List Event
  | node c savePoint result children =>
    opening tracked c savePoint ++ logOf tracked c children ++ closing tracked c savePoint result

/-- The log between the beginning and the end of `parent`: its children run one after the other,
and it is resumed after each of them, with the result of that child. -/
def logOf (tracked : Bool) (parent : CompId) : List FrameTree → List Event
  | [] => []
  | t :: ts =>
    t.log tracked ++ [.dispose t.c, .resume parent t.c t.result] ++ logOf tracked parent ts

end

end FrameTree

/-! ### What one operation writes -/

variable [Vm] {s s' : VmState} {c i : CompId}
  {b : CompId} {r : Except Defect VmState} {t : FrameTree}

variable {f : Computation → Computation}

@[simp] theorem modify_self : (s.modify c f).computations c = f (s.computations c) := update_self ..

@[simp] theorem modify_of_ne (h : i ≠ c) :
    (s.modify c f).computations i = s.computations i := update_of_ne h ..

@[simp] theorem modify_balTrackerEnabled :
    (s.modify c f).balTrackerEnabled = s.balTrackerEnabled := rfl

@[simp] theorem modify_savePoint : (s.modify c f).savePoint = s.savePoint := rfl

@[simp] theorem modify_parentSavePoints :
    (s.modify c f).parentSavePoints = s.parentSavePoints := rfl

@[simp] theorem modify_nextSavePoint : (s.modify c f).nextSavePoint = s.nextSavePoint := rfl

@[simp] theorem modify_callFrames : (s.modify c f).callFrames = s.callFrames := rfl

@[simp] theorem modify_nextComputation :
    (s.modify c f).nextComputation = s.nextComputation := rfl

@[simp] theorem modify_log : (s.modify c f).log = s.log := rfl

variable {own : Own} {world : World}

@[simp] theorem writeOwn_self :
    (s.writeOwn c own world).computations c = { s.computations c with toOwn := own } :=
  update_self ..

@[simp] theorem writeOwn_of_ne (h : i ≠ c) :
    (s.writeOwn c own world).computations i = s.computations i := update_of_ne h ..

@[simp] theorem writeOwn_balTrackerEnabled :
    (s.writeOwn c own world).balTrackerEnabled = s.balTrackerEnabled := rfl

@[simp] theorem writeOwn_savePoint : (s.writeOwn c own world).savePoint = s.savePoint := rfl

@[simp] theorem writeOwn_parentSavePoints :
    (s.writeOwn c own world).parentSavePoints = s.parentSavePoints := rfl

@[simp] theorem writeOwn_nextSavePoint :
    (s.writeOwn c own world).nextSavePoint = s.nextSavePoint := rfl

@[simp] theorem writeOwn_callFrames : (s.writeOwn c own world).callFrames = s.callFrames := rfl

@[simp] theorem writeOwn_nextComputation :
    (s.writeOwn c own world).nextComputation = s.nextComputation := rfl

@[simp] theorem writeOwn_log : (s.writeOwn c own world).log = s.log := rfl

variable {e : Event}

@[simp] theorem emit_log : (s.emit e).log = s.log ++ [e] := rfl

@[simp] theorem emit_balTrackerEnabled : (s.emit e).balTrackerEnabled = s.balTrackerEnabled := rfl

@[simp] theorem emit_savePoint : (s.emit e).savePoint = s.savePoint := rfl

@[simp] theorem emit_parentSavePoints : (s.emit e).parentSavePoints = s.parentSavePoints := rfl

@[simp] theorem emit_nextSavePoint : (s.emit e).nextSavePoint = s.nextSavePoint := rfl

@[simp] theorem emit_callFrames : (s.emit e).callFrames = s.callFrames := rfl

@[simp] theorem emit_computations : (s.emit e).computations = s.computations := rfl

@[simp] theorem emit_nextComputation : (s.emit e).nextComputation = s.nextComputation := rfl

/-- Only what opcodes may write has changed: the computation `c` and the accounts. -/
def Writes (c : CompId) (s s' : VmState) : Prop := ∃ own world, s' = s.writeOwn c own world

namespace Writes

theorem refl : Writes c s s :=
  ⟨(s.computations c).toOwn, s.world, by
    unfold writeOwn VmState.modify
    rw [update_eq_self]⟩

theorem trans {s₁ : VmState} (h : Writes c s s₁) (h' : Writes c s₁ s') : Writes c s s' := by
  obtain ⟨own₁, world₁, rfl⟩ := h
  obtain ⟨own, world, rfl⟩ := h'
  refine ⟨own, world, ?_⟩
  unfold writeOwn VmState.modify
  simp

theorem writeOwn (own : Own) (world : World) : Writes c s (s.writeOwn c own world) :=
  ⟨own, world, rfl⟩

theorem modifyWorld (f : World → World) : Writes c s (s.modifyWorld f) :=
  ⟨(s.computations c).toOwn, f s.world, by
    unfold VmState.writeOwn VmState.modify VmState.modifyWorld
    rw [update_eq_self]⟩

theorem modifyOwn (f : Own → Own) :
    Writes c s (s.modify c fun cpt => { cpt with toOwn := f cpt.toOwn }) :=
  ⟨f (s.computations c).toOwn, s.world, rfl⟩

theorem setError (error : Error) : Writes c s (s.setError c error) :=
  modifyOwn fun own => { own with error := some error }

theorem emitTransferLog : Writes c s (s.emitTransferLog c) := by
  unfold VmState.emitTransferLog
  dsimp only
  split
  · exact refl
  · split
    · exact refl
    · exact modifyOwn fun own => { own with frame := _ }

end Writes

/-- The savepoints and the frames of the tracker are those of before. -/
structure SameFrames (s s' : VmState) : Prop where
  enabled : s'.balTrackerEnabled = s.balTrackerEnabled
  savePoint : s'.savePoint = s.savePoint
  parentSavePoints : s'.parentSavePoints = s.parentSavePoints
  callFrames : s'.callFrames = s.callFrames

variable {s₁ : VmState}

theorem SameFrames.trans (h : SameFrames s s₁) (h' : SameFrames s₁ s') : SameFrames s s' where
  enabled := h'.enabled.trans h.enabled
  savePoint := h'.savePoint.trans h.savePoint
  parentSavePoints := h'.parentSavePoints.trans h.parentSavePoints
  callFrames := h'.callFrames.trans h.callFrames

/-- No frame has begun or ended, and `c` is in the place where it was. -/
structure Kept (c : CompId) (s s' : VmState) : Prop extends SameFrames s s' where
  parent : (s'.computations c).parent = (s.computations c).parent
  tracked : (s'.computations c).balTrackerEnabled = (s.computations c).balTrackerEnabled
  ownSavePoint : (s'.computations c).savePoint = (s.computations c).savePoint
  nextSavePoint : s'.nextSavePoint = s.nextSavePoint

theorem Kept.trans (h : Kept c s s₁) (h' : Kept c s₁ s') : Kept c s s' where
  toSameFrames := h.toSameFrames.trans h'.toSameFrames
  parent := h'.parent.trans h.parent
  tracked := h'.tracked.trans h.tracked
  ownSavePoint := h'.ownSavePoint.trans h.ownSavePoint
  nextSavePoint := h'.nextSavePoint.trans h.nextSavePoint

/-- Nothing but the accounts, the log and the child of `c` has changed, and what opcodes may
write of `c`. -/
structure Steady (c : CompId) (s s' : VmState) : Prop extends Kept c s s' where
  others : ∀ i, i ≠ c → s'.computations i = s.computations i
  continuation : (s'.computations c).continuation = (s.computations c).continuation
  nextComputation : s'.nextComputation = s.nextComputation

theorem Writes.steady (h : Writes c s s') : Steady c s s' := by
  obtain ⟨own, world, rfl⟩ := h
  exact ⟨⟨⟨rfl, rfl, rfl, rfl⟩, by simp, by simp, by simp, rfl⟩, fun i hi => writeOwn_of_ne hi,
    by simp, rfl⟩

theorem Writes.log_eq (h : Writes c s s') : s'.log = s.log := by
  obtain ⟨own, world, rfl⟩ := h
  rfl

theorem steady_emit (e : Event) : Steady c s (s.emit e) :=
  ⟨⟨⟨rfl, rfl, rfl, rfl⟩, rfl, rfl, rfl, rfl⟩, fun _ _ => rfl, rfl, rfl⟩

theorem steady_clearChild : Steady c s (s.clearChild c) := by
  unfold clearChild
  exact ⟨⟨⟨rfl, rfl, rfl, rfl⟩, by simp, by simp, by simp, rfl⟩, fun i hi => modify_of_ne hi,
    by simp, rfl⟩

theorem Steady.trans (h : Steady c s s₁) (h' : Steady c s₁ s') : Steady c s s' where
  toKept := h.toKept.trans h'.toKept
  others i hi := (h'.others i hi).trans (h.others i hi)
  continuation := h'.continuation.trans h.continuation
  nextComputation := h'.nextComputation.trans h.nextComputation

/-! ### How a frame begins -/

/-- What a call of `beginSavePoint` leaves, apart from the accounts. -/
structure Opened (c : CompId) (s s' : VmState) : Prop where
  others : ∀ i, i ≠ c → s'.computations i = s.computations i
  parent : (s'.computations c).parent = (s.computations c).parent
  continuation : (s'.computations c).continuation = (s.computations c).continuation
  tracked : (s'.computations c).balTrackerEnabled = (s.computations c).balTrackerEnabled
  ownSavePoint : (s'.computations c).savePoint = some s.nextSavePoint
  enabled : s'.balTrackerEnabled = s.balTrackerEnabled
  nextComputation : s'.nextComputation = s.nextComputation
  savePoint : s'.savePoint = s.nextSavePoint
  parentSavePoints : s'.parentSavePoints = s.savePoint :: s.parentSavePoints
  nextSavePoint : s'.nextSavePoint = s.nextSavePoint + 1
  callFrames : s'.callFrames =
    if (s.computations c).balTrackerEnabled then s.callFrames + 1 else s.callFrames

theorem Opened.steady (h : Opened c s s₁) (hs : Steady c s₁ s') : Opened c s s' where
  others i hi := (hs.others i hi).trans (h.others i hi)
  parent := hs.parent.trans h.parent
  continuation := hs.continuation.trans h.continuation
  tracked := hs.tracked.trans h.tracked
  ownSavePoint := hs.ownSavePoint.trans h.ownSavePoint
  enabled := hs.enabled.trans h.enabled
  nextComputation := hs.nextComputation.trans h.nextComputation
  savePoint := hs.savePoint.trans h.savePoint
  parentSavePoints := hs.parentSavePoints.trans h.parentSavePoints
  nextSavePoint := hs.nextSavePoint.trans h.nextSavePoint
  callFrames := hs.callFrames.trans h.callFrames

theorem beginSavePoint_opened (s : VmState) (c : CompId) :
    Opened c s (s.beginSavePoint c) ∧
      (s.beginSavePoint c).log = s.log ++
        ((if (s.computations c).balTrackerEnabled then [.beginCallFrame c] else []) ++
          [.beginSavePoint c s.nextSavePoint]) := by
  unfold beginSavePoint emit
  cases htracked : (s.computations c).balTrackerEnabled
  all_goals
    constructor
    · constructor
      case others =>
        intro i hi
        exact modify_of_ne hi
      all_goals simp [htracked]
    · simp

theorem beforeExecCall_writes (s : VmState) (c : CompId) :
    Writes c (s.beginSavePoint c) (s.beforeExecCall c).1 := by
  unfold beforeExecCall
  dsimp only
  split
  · split
    · exact (Writes.modifyWorld _).trans .emitTransferLog
    · exact .modifyWorld _
  · exact .refl

theorem beforeExecCreate_writes (s : VmState) (c : CompId) :
    Writes c (s.beginSavePoint c) (s.beforeExecCreate c).1 := by
  unfold beforeExecCreate
  split
  · exact (Writes.modifyWorld _).trans ((Writes.modifyWorld _).trans .emitTransferLog)
  · exact (Writes.modifyWorld _).trans (.modifyWorld _)

/-- `beforeExec` never tells the driver to leave its loop. -/
theorem beforeExec_false (s : VmState) (c : CompId) : (s.beforeExec c).2 = false := by
  unfold beforeExec
  dsimp only
  split <;> rfl

theorem beforeExec_opened (s : VmState) (c : CompId) :
    Opened c s (s.beforeExec c).1 ∧
      (s.beforeExec c).1.log =
        s.log ++ FrameTree.opening (s.computations c).balTrackerEnabled c s.nextSavePoint := by
  obtain ⟨hopened, hlog⟩ := beginSavePoint_opened (s.emit (.beforeExec c)) c
  have hwrites : Writes c ((s.emit (.beforeExec c)).beginSavePoint c) (s.beforeExec c).1 := by
    unfold beforeExec
    dsimp only
    split
    · exact beforeExecCreate_writes _ c
    · exact beforeExecCall_writes _ c
  have hopened' := hopened.steady hwrites.steady
  constructor
  -- the event of `beforeExec` is the only difference to the state that the savepoint begins in
  · exact ⟨hopened'.others, hopened'.parent, hopened'.continuation, hopened'.tracked,
      hopened'.ownSavePoint, hopened'.enabled, hopened'.nextComputation, hopened'.savePoint,
      hopened'.parentSavePoints, hopened'.nextSavePoint, hopened'.callFrames⟩
  · rw [hwrites.log_eq, hlog]
    unfold FrameTree.opening emit
    simp

/-! ### How a frame ends -/

/-- What a call of `commit` or `rollback` leaves, apart from the accounts. -/
structure Closed (c : CompId) (s s' : VmState) : Prop where
  others : ∀ i, i ≠ c → s'.computations i = s.computations i
  parent : (s'.computations c).parent = (s.computations c).parent
  tracked : (s'.computations c).balTrackerEnabled = (s.computations c).balTrackerEnabled
  continuation : (s'.computations c).continuation = (s.computations c).continuation
  ownSavePoint : (s'.computations c).savePoint = none
  enabled : s'.balTrackerEnabled = s.balTrackerEnabled
  nextComputation : s'.nextComputation = s.nextComputation
  savePoint : s.parentSavePoints = s'.savePoint :: s'.parentSavePoints
  nextSavePoint : s'.nextSavePoint = s.nextSavePoint
  callFrames : s'.callFrames =
    if (s.computations c).balTrackerEnabled then s.callFrames - 1 else s.callFrames

/-- A frame that has begun: its savepoint is the one that the ledger writes to. -/
structure InFrame (c : CompId) (s : VmState) : Prop where
  ownSavePoint : (s.computations c).savePoint = some s.savePoint
  parentSavePoints : s.parentSavePoints ≠ []
  callFrames : (s.computations c).balTrackerEnabled → 0 < s.callFrames

theorem endCallFrame_eq {close : Bool → World → World} {e : Event} (h : 0 < s.callFrames) :
    s.endCallFrame close e = pure { s.emit e with
      callFrames := s.callFrames - 1, world := close (1 < s.callFrames) s.world } := by
  unfold endCallFrame
  rw [if_neg (Nat.pos_iff_ne_zero.mp h)]

theorem endSavePoint_eq {close : World → World} {e : SpRef → Event} {sp : SpRef}
    {sps : List SpRef} (h : s.parentSavePoints = sp :: sps) :
    s.endSavePoint (some s.savePoint) close e = pure { s.emit (e s.savePoint) with
      savePoint := sp, parentSavePoints := sps, world := close s.world } := by
  unfold endSavePoint
  rw [h]
  exact if_pos rfl

theorem closeSavePoint_closed (closeCallFrame : Bool → World → World) (close : World → World)
    (callFrameEvent : Event) (savePointEvent : SpRef → Event) (h : InFrame c s) :
    ∃ s', s.closeSavePoint c closeCallFrame close callFrameEvent savePointEvent = pure s' ∧
      Closed c s s' ∧ (s'.computations c).error = (s.computations c).error ∧ s'.log = s.log ++
        ((if (s.computations c).balTrackerEnabled then [callFrameEvent] else []) ++
          [savePointEvent s.savePoint]) := by
  obtain ⟨sp, sps, hsps⟩ := List.exists_cons_of_ne_nil h.parentSavePoints
  unfold closeSavePoint
  cases htracked : (s.computations c).balTrackerEnabled
  · simp only [Bool.false_eq_true, if_false, pure_bind, h.ownSavePoint, endSavePoint_eq hsps]
    refine ⟨_, rfl, ?_, by simp [emit], by simp [emit]⟩
    constructor
    case others =>
      intro i hi
      exact modify_of_ne hi
    all_goals simp [htracked, hsps, emit]
  · -- the tracker's frame ends first, and leaves the savepoints as they are
    set s₁ : VmState := { s.emit callFrameEvent with
      callFrames := s.callFrames - 1
      world := closeCallFrame (1 < s.callFrames) s.world } with hs₁
    have hframe : s.endCallFrame closeCallFrame callFrameEvent = pure s₁ :=
      endCallFrame_eq (h.callFrames htracked)
    have hsps₁ : s₁.parentSavePoints = sp :: sps := hsps
    have hown : (s₁.computations c).savePoint = some s₁.savePoint := h.ownSavePoint
    simp only [if_true, hframe, pure_bind, hown, endSavePoint_eq hsps₁]
    refine ⟨_, rfl, ?_, by simp [hs₁, emit], by simp [hs₁, emit]⟩
    constructor
    case others =>
      intro i hi
      exact modify_of_ne hi
    all_goals simp [htracked, hsps, hs₁, emit]

theorem Closed.of_steady (hs : Steady c s s₁) (h : Closed c s₁ s') : Closed c s s' where
  others i hi := (h.others i hi).trans (hs.others i hi)
  parent := h.parent.trans hs.parent
  tracked := h.tracked.trans hs.tracked
  continuation := h.continuation.trans hs.continuation
  ownSavePoint := h.ownSavePoint
  enabled := h.enabled.trans hs.enabled
  nextComputation := h.nextComputation.trans hs.nextComputation
  savePoint := hs.parentSavePoints.symm.trans h.savePoint
  nextSavePoint := h.nextSavePoint.trans hs.nextSavePoint
  callFrames := by rw [h.callFrames, hs.tracked, hs.callFrames]

theorem InFrame.steady (h : InFrame c s) (hs : Steady c s s') : InFrame c s' where
  ownSavePoint := by rw [hs.ownSavePoint, hs.savePoint, h.ownSavePoint]
  parentSavePoints := by
    rw [hs.parentSavePoints]
    exact h.parentSavePoints
  callFrames htracked := by
    rw [hs.callFrames]
    exact h.callFrames (hs.tracked ▸ htracked)

theorem afterExecCreate_writes (s : VmState) (c : CompId) : Writes c s (s.afterExecCreate c) := by
  unfold afterExecCreate
  dsimp only
  split
  · split
    · exact (Writes.writeOwn _ _).trans (.modifyOwn fun own => { own with output := [] })
    · exact .writeOwn _ _
  · exact .refl

theorem afterExecCall_writes (s : VmState) (c : CompId) : Writes c s (s.afterExecCall c) := by
  unfold afterExecCall
  dsimp only
  split
  · exact .modifyWorld _
  · exact .refl

/-- A frame that has begun is ended by `afterExec`: by a commit if it is a success in the end,
and else by a rollback. -/
theorem afterExec_closed (h : InFrame c s) :
    ∃ s', s.afterExec c = pure s' ∧ Closed c s s' ∧ s'.log = s.log ++
      FrameTree.closing (s.computations c).balTrackerEnabled c s.savePoint
        (s'.computations c).error := by
  unfold afterExec
  dsimp only
  set s₁ : VmState :=
    if ((s.emit (.afterExec c)).computations c).msg.isCreate then
      (s.emit (.afterExec c)).afterExecCreate c
    else (s.emit (.afterExec c)).afterExecCall c with hs₁
  have hwrites : Writes c (s.emit (.afterExec c)) s₁ := by
    rw [hs₁]
    split
    · exact afterExecCreate_writes _ c
    · exact afterExecCall_writes _ c
  have hsteady : Steady c s s₁ := (steady_emit _).trans hwrites.steady
  have hlog₁ : s₁.log = s.log ++ [.afterExec c] := hwrites.log_eq
  split
  · next hsuccess =>
    obtain ⟨s', hs', hclosed, herror, hlog⟩ := closeSavePoint_closed Vm.commitCallFrame
      Vm.commit (.commitCallFrame c) (.commit c) (h.steady hsteady)
    refine ⟨s', hs', hclosed.of_steady hsteady, ?_⟩
    have hnone : (s'.computations c).error.isNone = true := by rw [herror]; exact hsuccess
    unfold FrameTree.closing
    rw [hlog, hlog₁, if_pos hnone, hsteady.tracked, hsteady.savePoint]
    simp
  · next hsuccess =>
    set s₂ : VmState :=
      s₁.modify c fun cpt => { cpt with frame := Vm.refillFrameStateGas cpt.frame } with hs₂
    have hrefill : Writes c s₁ s₂ :=
      .modifyOwn fun own => { own with frame := Vm.refillFrameStateGas own.frame }
    have hsteady₂ : Steady c s s₂ := hsteady.trans hrefill.steady
    obtain ⟨s', hs', hclosed, herror, hlog⟩ := closeSavePoint_closed Vm.rollbackCallFrame
      Vm.rollback (.rollbackCallFrame c) (.rollback c) (h.steady hsteady₂)
    refine ⟨s', hs', hclosed.of_steady hsteady₂, ?_⟩
    have hsome : ¬ (s'.computations c).error.isNone = true := by
      rw [herror, modify_self]
      exact hsuccess
    unfold FrameTree.closing
    rw [hlog, hrefill.log_eq, hlog₁, if_neg hsome, hsteady₂.tracked, hsteady₂.savePoint]
    simp

/-! ### What is executed of a frame -/

/-- A computation that has not run. -/
structure Fresh (tracked : Bool) (x : Computation) : Prop where
  parent : x.parent = none
  continuation : x.continuation = none
  tracked : x.balTrackerEnabled = tracked

/-- What `executeOpcodes` leaves of a state in which no continuation is left to run, apart from
the accounts: it has come to the end of the frame, or to a child that is to run. -/
structure Executed (c : CompId) (s s' : VmState) : Prop extends Kept c s s' where
  others : ∀ i < s.nextComputation, i ≠ c → s'.computations i = s.computations i
  log : s'.log = s.log
  outcome :
    (s'.computations c).continuation = none ∧ s'.nextComputation = s.nextComputation ∨
      (s'.computations c).continuation.isSome ∧
        (s'.computations c).child = some s.nextComputation ∧
        s'.nextComputation = s.nextComputation + 1 ∧
        Fresh s.balTrackerEnabled (s'.computations s.nextComputation)

theorem Executed.of_writes (h : Writes c s s') (hc : (s.computations c).continuation = none) :
    Executed c s s' where
  toKept := h.steady.toKept
  others i _ hi := h.steady.others i hi
  log := h.log_eq
  outcome := .inl ⟨h.steady.continuation.trans hc, h.steady.nextComputation⟩

theorem Executed.of_writes_executed (hw : Writes c s s₁) (h : Executed c s₁ s') :
    Executed c s s' where
  toKept := hw.steady.toKept.trans h.toKept
  others i hn hi :=
    (h.others i (hw.steady.nextComputation ▸ hn) hi).trans (hw.steady.others i hi)
  log := h.log.trans hw.log_eq
  outcome := by
    rw [← hw.steady.nextComputation, ← hw.steady.enabled]
    exact h.outcome

theorem Executed.writes (hc : c < s.nextComputation) (h : Executed c s s₁)
    (hw : Writes c s₁ s') : Executed c s s' where
  toKept := h.toKept.trans hw.steady.toKept
  others i hn hi := (hw.steady.others i hi).trans (h.others i hn hi)
  log := hw.log_eq.trans h.log
  outcome := by
    obtain ⟨own, world, rfl⟩ := hw
    have hne : s.nextComputation ≠ c := Nat.ne_of_gt hc
    rw [writeOwn_self, writeOwn_of_ne hne]
    exact h.outcome

theorem Executed.next_le (h : Executed c s s') : s.nextComputation ≤ s'.nextComputation := by
  obtain ⟨-, hnext⟩ | ⟨-, -, hnext, -⟩ := h.outcome
  · exact Nat.le_of_eq hnext.symm
  · rw [hnext]
    exact Nat.le_succ _

/-- One run of opcodes after another that has called nothing. -/
theorem Executed.trans (h : Executed c s s₁)
    (hcont : (s₁.computations c).continuation = none) (h' : Executed c s₁ s') :
    Executed c s s' := by
  have hnext : s₁.nextComputation = s.nextComputation := by
    obtain ⟨-, hnext⟩ | ⟨hsome, -⟩ := h.outcome
    · exact hnext
    · rw [hcont] at hsome
      cases hsome
  constructor
  case others =>
    intro i hn hi
    exact (h'.others i (hnext ▸ hn) hi).trans (h.others i hn hi)
  case outcome =>
    rw [← hnext, ← h.enabled]
    exact h'.outcome
  case log => exact h'.log.trans h.log
  case toKept => exact h.toKept.trans h'.toKept

theorem chainTo_executed (child : Own) (after : Continuation) (hc : c < s.nextComputation) :
    Executed c s (s.chainTo c child after) := by
  have hne : c ≠ s.nextComputation := Nat.ne_of_lt hc
  unfold chainTo newComputation
  constructor
  case others =>
    intro i hn hi
    rw [modify_of_ne hi]
    exact update_of_ne (Nat.ne_of_lt hn) ..
  case outcome =>
    right
    rw [modify_self, modify_of_ne hne.symm]
    dsimp only
    rw [update_self]
    exact ⟨rfl, rfl, rfl, rfl, rfl, rfl⟩
  case log => rfl
  case toKept =>
    refine ⟨⟨rfl, rfl, rfl, rfl⟩, ?_, ?_, ?_, rfl⟩ <;> simp [update_of_ne hne]

theorem writeSlice_executed (slice : Slice) (hc : c < s.nextComputation)
    (hcont : (s.computations c).continuation = none) : Executed c s (s.writeSlice c slice) := by
  unfold writeSlice
  have hwrites : Writes c s (s.writeOwn c slice.own slice.world) := .writeOwn _ _
  split
  · exact .of_writes_executed hwrites (chainTo_executed _ _ hc)
  · exact .of_writes hwrites hcont

theorem runOpcodes_executed (hc : c < s.nextComputation)
    (hcont : (s.computations c).continuation = none) (h : Ends (s.runOpcodes c) r) :
    ∃ s', r = .ok s' ∧ Executed c s s' := by
  unfold runOpcodes at h
  dsimp only at h
  split at h
  · exact ⟨s, ends_pure.mp h, .of_writes .refl hcont⟩
  · split at h
    · exact absurd h not_ends_diverge
    · next slice _ =>
      have hslice := writeSlice_executed slice hc hcont
      split at h
      · exact ⟨_, ends_pure.mp h, hslice.writes hc (.setError _)⟩
      · exact ⟨_, ends_pure.mp h, hslice⟩

theorem execPrecompile_writes (p : Precompiles) : Writes c s (s.execPrecompile c p) := by
  unfold execPrecompile
  dsimp only
  split
  · exact .writeOwn _ _
  · exact (Writes.writeOwn _ _).trans (.setError _)
  · split
    · exact (Writes.writeOwn _ _).trans (.setError _)
    · exact .writeOwn _ _

/-- What the run of a continuation adds to the log. -/
def resumption (s : VmState) (c : CompId) : List Event :=
  match (s.computations c).continuation, (s.computations c).child with
  | some _, some child => [.resume c child (s.computations child).error]
  | _, _ => []

/-- If a continuation of `c` is left to run, it is about a child from `b` on. -/
def Ready (b c : CompId) (s : VmState) : Prop :=
  (s.computations c).continuation.isSome →
    ∃ child, (s.computations c).child = some child ∧ b ≤ child ∧ child < s.nextComputation

/-- What a continuation leaves before its opcodes write: it may empty the frame and take the
output of the child. -/
structure Resumed (b c : CompId) (s s' : VmState) : Prop extends SameFrames s s' where
  below : ∀ i < b, i ≠ c → s'.computations i = s.computations i
  stack : ∀ i, i ≠ c → (s'.computations i).stack = (s.computations i).stack
  savePoints : ∀ i, (s'.computations i).savePoint = (s.computations i).savePoint
  parent : (s'.computations c).parent = (s.computations c).parent
  tracked : (s'.computations c).balTrackerEnabled = (s.computations c).balTrackerEnabled
  continuation : (s'.computations c).continuation = none
  nextComputation : s'.nextComputation = s.nextComputation
  nextSavePoint : s'.nextSavePoint = s.nextSavePoint
  log : s'.log = s.log ++ resumption s c

theorem Resumed.kept (h : Resumed b c s s') : Kept c s s' :=
  ⟨h.toSameFrames, h.parent, h.tracked, h.savePoints c, h.nextSavePoint⟩

/-- The state in which the opcodes of a continuation write. -/
def resumed (s : VmState) (c child : CompId) (frame : Frame) (output : List UInt8) : VmState :=
  let s := s.modify c fun cpt => { cpt with continuation := none }
  let s := s.emit (.resume c child (s.computations child).error)
  s.modify child fun cpt => { cpt with frame := frame, output := output }

theorem resumed_resumed {b child : CompId} {frame : Frame} {output : List UInt8} (hcb : c < b)
    (hle : b ≤ child) (hcont : (s.computations c).continuation.isSome)
    (hchild : (s.computations c).child = some child) :
    Resumed b c s (resumed s c child frame output) := by
  have hne : child ≠ c := Nat.ne_of_gt (Nat.lt_of_lt_of_le hcb hle)
  unfold resumed
  constructor
  case below =>
    intro i hi hic
    rw [modify_of_ne (Nat.ne_of_lt (Nat.lt_of_lt_of_le hi hle)), emit_computations,
      modify_of_ne hic]
  case stack =>
    intro i hic
    by_cases hi : i = child
    · rw [hi, modify_self, emit_computations, modify_of_ne hne]
    · rw [modify_of_ne hi, emit_computations, modify_of_ne hic]
  case savePoints =>
    intro i
    by_cases hi : i = child
    · rw [hi, modify_self, emit_computations, modify_of_ne hne]
    · rw [modify_of_ne hi, emit_computations]
      by_cases hic : i = c
      · rw [hic, modify_self]
      · rw [modify_of_ne hic]
  case log =>
    obtain ⟨after, hafter⟩ := Option.isSome_iff_exists.mp hcont
    simp [resumption, hafter, hchild, modify_of_ne hne]
  case toSameFrames => exact ⟨rfl, rfl, rfl, rfl⟩
  all_goals simp [modify_of_ne hne.symm]

theorem executeOpcodes_executed (hcb : c < b)
    (hb : b ≤ s.nextComputation) (hready : Ready b c s) (h : Ends (s.executeOpcodes c) r) :
    ∃ s₀ s', r = .ok s' ∧ Resumed b c s s₀ ∧ Executed c s₀ s' := by
  unfold executeOpcodes at h
  dsimp only at h
  have hc : c < s.nextComputation := Nat.lt_of_lt_of_le hcb hb
  split at h
  · next hcont =>
    have hresumed : Resumed b c s s := by
      constructor
      case continuation => exact hcont
      case log => simp [resumption, hcont]
      case toSameFrames => exact ⟨rfl, rfl, rfl, rfl⟩
      all_goals intros; rfl
    split at h
    · exact ⟨s, _, ends_pure.mp h, hresumed,
        .of_writes (execPrecompile_writes _) hcont⟩
    · obtain ⟨s', hr, hex⟩ := runOpcodes_executed hc hcont h
      exact ⟨s, s', hr, hresumed, hex⟩
  · next after hcont =>
    have hsome : (s.computations c).continuation.isSome := by rw [hcont]; rfl
    obtain ⟨child, hchild, hle, hlt⟩ := hready hsome
    rw [hchild] at h
    dsimp only at h
    unfold resume at h
    generalize Vm.runContinuation after _ c child = ran at h
    obtain ⟨slice, frame, output⟩ := ran
    have hresumed : Resumed b c s (resumed s c child frame output) :=
      resumed_resumed hcb hle hsome hchild
    have hc₀ : c < (resumed s c child frame output).nextComputation := by
      exact hc
    have hslice := writeSlice_executed slice hc₀ hresumed.continuation
    split at h
    · next s₁ code heq =>
      obtain ⟨rfl, -⟩ := Prod.mk.inj heq
      exact ⟨_, _, ends_pure.mp h, hresumed, hslice.writes hc₀ (.setError _)⟩
    · next s₁ heq =>
      obtain ⟨rfl, -⟩ := Prod.mk.inj heq
      split at h
      · exact ⟨_, _, ends_pure.mp h, hresumed, hslice⟩
      · next hnone =>
        have hcont₁ := Option.not_isSome_iff_eq_none.mp hnone
        have hnext : s.nextComputation ≤
            ((resumed s c child frame output).writeSlice c slice).nextComputation := by
          exact hslice.next_le
        obtain ⟨s', hr, hex⟩ := runOpcodes_executed (Nat.lt_of_lt_of_le hc hnext) hcont₁ h
        exact ⟨_, s', hr, hresumed, hslice.trans hcont₁ hex⟩

/-! ### Disposed computations -/

structure Disposed (x : Computation) : Prop where
  stack : x.stack = none
  savePoint : x.savePoint = none

/-- Nothing is left of the savepoint of a computation that has ended, so that `dispose` only
takes its stack away. -/
theorem dispose_eq (h : (s.computations c).savePoint = none) :
    s.dispose c = pure ((s.emit (.dispose c)).disposeStack c) := by
  unfold dispose
  simp only [emit_computations, h, pure_bind]

theorem disposeStack_of_ne (h : i ≠ c) : (s.disposeStack c).computations i = s.computations i :=
  modify_of_ne h

theorem disposeStack_disposed (h : (s.computations c).savePoint = none) :
    Disposed ((s.disposeStack c).computations c) := by
  unfold disposeStack
  rw [modify_self]
  split
  · exact ⟨rfl, h⟩
  · next hstack => exact ⟨hstack, h⟩

theorem disposeStack_error :
    ((s.disposeStack c).computations c).error = (s.computations c).error := by
  unfold disposeStack
  rw [modify_self]
  split <;> rfl

/-! ### Whole frames -/

/-- Computations and savepoints may be in use that were not before. -/
structure SameDepth (s s' : VmState) : Prop extends SameFrames s s' where
  nextComputation_le : s.nextComputation ≤ s'.nextComputation
  nextSavePoint_le : s.nextSavePoint ≤ s'.nextSavePoint

theorem SameDepth.trans (h : SameDepth s s₁) (h' : SameDepth s₁ s') : SameDepth s s' where
  toSameFrames := h.toSameFrames.trans h'.toSameFrames
  nextComputation_le := Nat.le_trans h.nextComputation_le h'.nextComputation_le
  nextSavePoint_le := Nat.le_trans h.nextSavePoint_le h'.nextSavePoint_le

/-- What slices of `c` leave of the computations that were there. Those below `b` are those of
before the frame. -/
structure Within (b c : CompId) (s s' : VmState) : Prop where
  depth : SameDepth s s'
  below : ∀ i < b, i ≠ c → s'.computations i = s.computations i
  disposed : ∀ i < s.nextComputation, i ≠ c → Disposed (s.computations i) →
    Disposed (s'.computations i)
  parent : (s'.computations c).parent = (s.computations c).parent
  tracked : (s'.computations c).balTrackerEnabled = (s.computations c).balTrackerEnabled
  ownSavePoint : (s'.computations c).savePoint = (s.computations c).savePoint

theorem Within.trans {s₁ : VmState} (h : Within b c s s₁) (h' : Within b c s₁ s') :
    Within b c s s' where
  depth := h.depth.trans h'.depth
  below i hi hic := (h'.below i hi hic).trans (h.below i hi hic)
  disposed i hi hic hd :=
    h'.disposed i (Nat.lt_of_lt_of_le hi h.depth.nextComputation_le) hic (h.disposed i hi hic hd)
  parent := h'.parent.trans h.parent
  tracked := h'.tracked.trans h.tracked
  ownSavePoint := h'.ownSavePoint.trans h.ownSavePoint

/-- What all slices of `c` leave, where its children are `children`. -/
structure Sliced (b c : CompId) (s s' : VmState) (children : List FrameTree) : Prop
    extends Within b c s s' where
  continuation : (s'.computations c).continuation = none
  log : s'.log =
    s.log ++ (resumption s c ++ FrameTree.logOf s.balTrackerEnabled c children)
  mem_computations : ∀ i, i ∈ FrameTree.computationsOf children ↔
    s.nextComputation ≤ i ∧ i < s'.nextComputation
  nodup_computations : (FrameTree.computationsOf children).Nodup
  childrenDisposed : ∀ i ∈ FrameTree.computationsOf children, Disposed (s'.computations i)
  savePoints : ∀ sp ∈ FrameTree.savePointsOf children,
    s.nextSavePoint ≤ sp ∧ sp < s'.nextSavePoint
  nodup_savePoints : (FrameTree.savePointsOf children).Nodup

/-- What the frame of `c` leaves. -/
structure Framed (c : CompId) (s s' : VmState) (t : FrameTree) : Prop where
  root : t.c = c
  depth : SameDepth s s'
  others : ∀ i < s.nextComputation, i ≠ c → s'.computations i = s.computations i
  parent : (s'.computations c).parent = (s.computations c).parent
  continuation : (s'.computations c).continuation = none
  ownSavePoint : (s'.computations c).savePoint = none
  result : t.result = (s'.computations c).error
  log : s'.log = s.log ++ t.log s.balTrackerEnabled
  mem_computations : ∀ i, i ∈ t.computations ↔
    i = c ∨ s.nextComputation ≤ i ∧ i < s'.nextComputation
  nodup_computations : t.computations.Nodup
  childrenDisposed : ∀ i ∈ t.computations, i ≠ c → Disposed (s'.computations i)
  savePoints : ∀ sp ∈ t.savePoints, s.nextSavePoint ≤ sp ∧ sp < s'.nextSavePoint
  nodup_savePoints : t.savePoints.Nodup

theorem framed_of_sliced {s₂ : VmState} {children : List FrameTree} (hc : c < s.nextComputation)
    (htracked : (s.computations c).balTrackerEnabled = s.balTrackerEnabled)
    (h : Sliced s.nextComputation c (s.beforeExec c).1 s₂ children)
    (hr : Ends ((s₂.clearChild c).afterExec c) r) (hcont : (s.computations c).continuation = none) :
    ∃ s' t, r = .ok s' ∧ Framed c s s' t := by
  obtain ⟨hopened, hopening⟩ := beforeExec_opened s c
  set s₁ := (s.beforeExec c).1
  have hframe : InFrame c s₂ := by
    constructor
    · rw [h.ownSavePoint, hopened.ownSavePoint, h.depth.savePoint, hopened.savePoint]
    · rw [h.depth.parentSavePoints, hopened.parentSavePoints]
      exact List.cons_ne_nil _ _
    · intro ht
      rw [h.tracked, hopened.tracked] at ht
      rw [h.depth.callFrames, hopened.callFrames, if_pos ht]
      exact Nat.succ_pos _
  obtain ⟨s', hs', hclosed, hclosing⟩ := afterExec_closed (hframe.steady steady_clearChild)
  have hr' : r = .ok s' := by
    rw [hs'] at hr
    exact ends_pure.mp hr
  have hclosed₂ : Closed c s₂ s' := hclosed.of_steady steady_clearChild
  have hstack : s.savePoint :: s.parentSavePoints = s'.savePoint :: s'.parentSavePoints := by
    rw [← hclosed₂.savePoint, h.depth.parentSavePoints, hopened.parentSavePoints]
  obtain ⟨hsp, hsps⟩ := List.cons.inj hstack
  have hcallFrames : s'.callFrames = s.callFrames := by
    rw [hclosed₂.callFrames, h.tracked, hopened.tracked, h.depth.callFrames, hopened.callFrames]
    split <;> rfl
  have hnext : s'.nextComputation = s₂.nextComputation := hclosed₂.nextComputation
  have hmem : ∀ i, i ∈ FrameTree.computationsOf children ↔
      s.nextComputation ≤ i ∧ i < s'.nextComputation := by
    intro i
    rw [h.mem_computations, hopened.nextComputation, hnext]
  have hcmem : c ∉ FrameTree.computationsOf children := fun hmem' =>
    absurd ((hmem c).mp hmem').1 (Nat.not_le.mpr hc)
  have hsps' : ∀ sp ∈ FrameTree.savePointsOf children,
      s.nextSavePoint < sp ∧ sp < s'.nextSavePoint := by
    intro sp hmem'
    have hrange := h.savePoints sp hmem'
    rw [hopened.nextSavePoint, ← hclosed₂.nextSavePoint] at hrange
    exact hrange
  have hspLt : s.nextSavePoint < s'.nextSavePoint := by
    rw [hclosed₂.nextSavePoint]
    exact Nat.lt_of_lt_of_le (hopened.nextSavePoint ▸ Nat.lt_succ_self _) h.depth.nextSavePoint_le
  refine ⟨s', .node c s.nextSavePoint (s'.computations c).error children, hr', ?_⟩
  constructor
  case root => rfl
  case result => rfl
  case depth =>
    refine ⟨⟨?_, hsp.symm, hsps.symm, hcallFrames⟩, ?_, Nat.le_of_lt hspLt⟩
    · rw [hclosed₂.enabled, h.depth.enabled, hopened.enabled]
    · rw [hnext, ← hopened.nextComputation]
      exact h.depth.nextComputation_le
  case others =>
    intro i hi hic
    rw [hclosed₂.others i hic, h.below i hi hic, hopened.others i hic]
  case parent => rw [hclosed₂.parent, h.parent, hopened.parent]
  case continuation => exact hclosed₂.continuation.trans h.continuation
  case ownSavePoint => exact hclosed₂.ownSavePoint
  case log =>
    have hresumption : resumption s₁ c = [] := by
      unfold resumption
      rw [hopened.continuation, hcont]
    have hlog₂ : (s₂.clearChild c).log = s₂.log := rfl
    rw [hclosing, hlog₂, h.log, hresumption, hopening, steady_clearChild.tracked, h.tracked,
      hopened.tracked, htracked, hopened.enabled, steady_clearChild.savePoint, h.depth.savePoint,
      hopened.savePoint]
    unfold FrameTree.log
    simp
  case mem_computations =>
    intro i
    unfold FrameTree.computations
    rw [List.mem_cons, hmem]
  case nodup_computations =>
    exact List.nodup_cons.mpr ⟨hcmem, h.nodup_computations⟩
  case childrenDisposed =>
    intro i hi hic
    rw [hclosed₂.others i hic]
    exact h.childrenDisposed i (List.mem_of_ne_of_mem hic hi)
  case savePoints =>
    intro sp hi
    obtain rfl | hi := List.mem_cons.mp hi
    · exact ⟨Nat.le_refl _, hspLt⟩
    · exact ⟨Nat.le_of_lt (hsps' sp hi).1, (hsps' sp hi).2⟩
  case nodup_savePoints =>
    exact List.nodup_cons.mpr ⟨fun hi => absurd (hsps' _ hi).1 (Nat.lt_irrefl _),
      h.nodup_savePoints⟩

theorem Resumed.disposed (h : Resumed b c s s') (hic : i ≠ c)
    (hd : Disposed (s.computations i)) : Disposed (s'.computations i) :=
  ⟨(h.stack i hic).trans hd.stack, (h.savePoints i).trans hd.savePoint⟩

theorem Resumed.within {s₀ : VmState} (hb : b ≤ s.nextComputation)
    (hres : Resumed b c s s₀) (hex : Executed c s₀ s') : Within b c s s' := by
  have hkept := hres.kept.trans hex.toKept
  have hnext₀ := hres.nextComputation
  refine ⟨⟨hkept.toSameFrames, hnext₀ ▸ hex.next_le, Nat.le_of_eq hkept.nextSavePoint.symm⟩,
    fun i hi hic => ?_, fun i hi hic hd => ?_, hkept.parent, hkept.tracked, hkept.ownSavePoint⟩
  · rw [hex.others i (hnext₀ ▸ Nat.lt_of_lt_of_le hi hb) hic, hres.below i hi hic]
  · rw [hex.others i (hnext₀ ▸ hi) hic]
    exact hres.disposed hic hd

theorem sliced_nil {s₀ : VmState} (hb : b ≤ s.nextComputation)
    (hres : Resumed b c s s₀) (hex : Executed c s₀ s')
    (hcont : (s'.computations c).continuation = none) : Sliced b c s s' [] := by
  have hnext : s'.nextComputation = s.nextComputation := by
    obtain ⟨-, hnext⟩ | ⟨hsome, -⟩ := hex.outcome
    · exact hnext.trans hres.nextComputation
    · rw [hcont] at hsome
      cases hsome
  constructor
  case toWithin => exact hres.within hb hex
  case continuation => exact hcont
  case log =>
    rw [hex.log, hres.log]
    unfold FrameTree.logOf
    rw [List.append_nil]
  case mem_computations =>
    intro i
    unfold FrameTree.computationsOf
    rw [hnext]
    simp
  case nodup_computations =>
    exact List.nodup_nil
  case childrenDisposed =>
    exact fun _ h => nomatch h
  case savePoints =>
    exact fun _ h => nomatch h
  case nodup_savePoints =>
    exact List.nodup_nil

/-- What a slice of `c` leaves that ends with the call of `child`, when the child has run and is
disposed. -/
structure Called (b c child : CompId) (s s' : VmState) (t : FrameTree) : Prop
    extends Within b c s s' where
  root : t.c = child
  child_eq : child = s.nextComputation
  child_lt : child < s'.nextComputation
  continuation : (s'.computations c).continuation.isSome
  ownChild : (s'.computations c).child = some child
  result : t.result = (s'.computations child).error
  log : s'.log =
    s.log ++ (resumption s c ++ (t.log s.balTrackerEnabled ++ [.dispose child]))
  mem_computations : ∀ i, i ∈ t.computations ↔ s.nextComputation ≤ i ∧ i < s'.nextComputation
  nodup_computations : t.computations.Nodup
  treeDisposed : ∀ i ∈ t.computations, Disposed (s'.computations i)
  savePoints : ∀ sp ∈ t.savePoints, s.nextSavePoint ≤ sp ∧ sp < s'.nextSavePoint
  nodup_savePoints : t.savePoints.Nodup

/-- The child of a slice is the computation that was not in use before. -/
theorem Executed.child_eq {child : CompId} (h : Executed c s s')
    (hsome : (s'.computations c).continuation.isSome)
    (hchild : (s'.computations c).child = some child) :
    child = s.nextComputation ∧ s'.nextComputation = s.nextComputation + 1 ∧
      Fresh s.balTrackerEnabled (s'.computations child) := by
  obtain ⟨hnone, -⟩ | ⟨-, hchild', hnext, hfresh⟩ := h.outcome
  · rw [hnone] at hsome
    cases hsome
  · rw [hchild] at hchild'
    obtain rfl := Option.some.inj hchild'
    exact ⟨rfl, hnext, hfresh⟩

theorem called {b child : CompId} {s₀ s₁ s₃ : VmState} (hcb : c < b)
    (hb : b ≤ s.nextComputation) (hres : Resumed b c s s₀) (hex : Executed c s₀ s₁)
    (hsome : (s₁.computations c).continuation.isSome)
    (hchild : (s₁.computations c).child = some child)
    (h : Framed child (s₁.setParent c child) s₃ t) :
    Called b c child s ((s₃.emit (.dispose child)).disposeStack child) t := by
  obtain ⟨hchildEq, hnext₁, -⟩ := hex.child_eq hsome hchild
  rw [hres.nextComputation] at hchildEq hnext₁
  have hc : c < s.nextComputation := Nat.lt_of_lt_of_le hcb hb
  have hlt₁ : ∀ i ≤ s.nextComputation, i < s₁.nextComputation := by
    intro i hi
    rw [hnext₁]
    exact Nat.lt_succ_of_le hi
  -- the child writes nothing of what was there before it
  have hkept : ∀ i < s.nextComputation,
      (((s₃.emit (.dispose child)).disposeStack child).computations i) = s₁.computations i := by
    intro i hi
    have hic : i ≠ child := by
      rw [hchildEq]
      exact Nat.ne_of_lt hi
    rw [disposeStack_of_ne hic, emit_computations, h.others i (hlt₁ i (Nat.le_of_lt hi)) hic]
    exact modify_of_ne hic
  have hnext₃ : s₁.nextComputation ≤ s₃.nextComputation := h.depth.nextComputation_le
  constructor
  case root => exact h.root
  case child_eq => exact hchildEq
  case child_lt =>
    rw [hchildEq]
    exact Nat.lt_of_lt_of_le (hlt₁ _ (Nat.le_refl _)) hnext₃
  case toWithin =>
    refine (hres.within hb hex).trans ⟨⟨⟨h.depth.enabled, h.depth.savePoint,
      h.depth.parentSavePoints, h.depth.callFrames⟩, hnext₃, h.depth.nextSavePoint_le⟩, ?_, ?_,
      ?_, ?_, ?_⟩
    · exact fun i hi _ => hkept i (Nat.lt_of_lt_of_le hi hb)
    · intro i hi hic hd
      by_cases hchild : i = child
      · rw [hchild]
        exact disposeStack_disposed h.ownSavePoint
      · rw [hnext₁] at hi
        have hlt : i < s.nextComputation := Nat.lt_of_le_of_ne (Nat.le_of_lt_succ hi)
          fun heq => hchild (heq.trans hchildEq.symm)
        rwa [hkept i hlt]
    · rw [hkept c hc]
    · rw [hkept c hc]
    · rw [hkept c hc]
  case continuation =>
    rw [hkept c hc]
    exact hsome
  case ownChild =>
    rw [hkept c hc]
    exact hchild
  case result => rw [h.result, disposeStack_error, emit_computations]
  case log =>
    have hlog₂ : (s₁.setParent c child).log = s₁.log := rfl
    have henabled : (s₁.setParent c child).balTrackerEnabled = s.balTrackerEnabled :=
      hex.enabled.trans hres.enabled
    show s₃.log ++ [.dispose child] = _
    rw [h.log, hlog₂, henabled, hex.log, hres.log]
    simp
  case mem_computations =>
    intro i
    rw [h.mem_computations]
    show i = child ∨ s₁.nextComputation ≤ i ∧ i < s₃.nextComputation ↔
      s.nextComputation ≤ i ∧ i < s₃.nextComputation
    have hpos : s.nextComputation < s₃.nextComputation :=
      Nat.lt_of_lt_of_le (hlt₁ _ (Nat.le_refl _)) hnext₃
    rw [hchildEq, hnext₁]
    constructor
    · rintro (rfl | ⟨hi, hlt⟩)
      · exact ⟨Nat.le_refl _, hpos⟩
      · exact ⟨Nat.le_of_lt hi, hlt⟩
    · rintro ⟨hi, hlt⟩
      obtain heq | hi := Nat.eq_or_lt_of_le hi
      · exact .inl heq.symm
      · exact .inr ⟨hi, hlt⟩
  case nodup_computations => exact h.nodup_computations
  case treeDisposed =>
    intro i hi
    by_cases hic : i = child
    · rw [hic]
      exact disposeStack_disposed h.ownSavePoint
    · rw [disposeStack_of_ne hic]
      exact h.childrenDisposed i hi hic
  case savePoints =>
    intro sp hsp
    rw [← hres.nextSavePoint, ← hex.nextSavePoint]
    exact h.savePoints sp hsp
  case nodup_savePoints => exact h.nodup_savePoints

theorem Called.ready {b child : CompId} (h : Called b c child s s' t)
    (hb : b ≤ s.nextComputation) : Ready b c s' :=
  fun _ => ⟨child, h.ownChild, h.child_eq ▸ hb, h.child_lt⟩

/-- A slice that ends with the call of a child, before the others. -/
theorem Called.sliced {b child : CompId} {s₁ : VmState}
    {children : List FrameTree} (hcb : c < b) (hb : b ≤ s.nextComputation)
    (h : Called b c child s s₁ t) (h' : Sliced b c s₁ s' children) :
    Sliced b c s s' (t :: children) := by
  have hne : ∀ i, s.nextComputation ≤ i → i ≠ c := fun i hi =>
    Nat.ne_of_gt (Nat.lt_of_lt_of_le (Nat.lt_of_lt_of_le hcb hb) hi)
  have hle := h.depth.nextComputation_le
  have hle' := h'.depth.nextComputation_le
  constructor
  case toWithin => exact h.toWithin.trans h'.toWithin
  case continuation => exact h'.continuation
  case log =>
    have hresumption : resumption s₁ c = [.resume c child t.result] := by
      obtain ⟨after, hafter⟩ := Option.isSome_iff_exists.mp h.continuation
      unfold resumption
      rw [hafter, h.ownChild, h.result]
    rw [h'.log, h.log, hresumption, h.depth.enabled, ← h.root, FrameTree.logOf]
    simp
  case mem_computations =>
    intro i
    unfold FrameTree.computationsOf
    rw [List.mem_append, h.mem_computations, h'.mem_computations]
    constructor
    · rintro (⟨hi, hlt⟩ | ⟨hi, hlt⟩)
      · exact ⟨hi, Nat.lt_of_lt_of_le hlt hle'⟩
      · exact ⟨Nat.le_trans hle hi, hlt⟩
    · rintro ⟨hi, hlt⟩
      obtain hlt₁ | hle₁ := Nat.lt_or_ge i s₁.nextComputation
      · exact .inl ⟨hi, hlt₁⟩
      · exact .inr ⟨hle₁, hlt⟩
  case nodup_computations =>
    refine List.Nodup.append h.nodup_computations h'.nodup_computations ?_
    intro i hi hi'
    exact absurd ((h'.mem_computations i).mp hi').1
      (Nat.not_le.mpr ((h.mem_computations i).mp hi).2)
  case childrenDisposed =>
    intro i hi
    obtain hi | hi := List.mem_append.mp hi
    · obtain ⟨hge, hlt⟩ := (h.mem_computations i).mp hi
      exact h'.disposed i hlt (hne i hge) (h.treeDisposed i hi)
    · exact h'.childrenDisposed i hi
  case savePoints =>
    intro sp hsp
    obtain hsp | hsp := List.mem_append.mp hsp
    · exact ⟨(h.savePoints sp hsp).1,
        Nat.lt_of_lt_of_le (h.savePoints sp hsp).2 h'.depth.nextSavePoint_le⟩
    · exact ⟨Nat.le_trans h.depth.nextSavePoint_le (h'.savePoints sp hsp).1,
        (h'.savePoints sp hsp).2⟩
  case nodup_savePoints =>
    refine List.Nodup.append h.nodup_savePoints h'.nodup_savePoints ?_
    intro sp hsp hsp'
    exact absurd (h'.savePoints sp hsp').1 (Nat.not_le.mpr (h.savePoints sp hsp).2)

/-- Every frame, and every run of the slices of a frame, by induction on the depth of the
recursion. -/
theorem framed_and_sliced (n : Nat) :
    (∀ s c r, c < s.nextComputation → (s.computations c).continuation = none →
      (s.computations c).balTrackerEnabled = s.balTrackerEnabled →
      Ends (execRecursive n s c) r → ∃ s' t, r = .ok s' ∧ Framed c s s' t) ∧
    ∀ b s c r, c < b → b ≤ s.nextComputation → Ready b c s →
      Ends (execSlices n s c) r → ∃ s' children, r = .ok s' ∧ Sliced b c s s' children := by
  induction n with
  | zero =>
    constructor
    · intro s c r _ _ _ h
      exact absurd h not_ends_diverge
    · intro b s c r _ _ _ h
      exact absurd h not_ends_diverge
  | succ n ih =>
    obtain ⟨ihFramed, ihSliced⟩ := ih
    constructor
    · intro s c r hc hcont htracked h
      obtain ⟨r₂, hslices, hend⟩ := ends_bind.mp h
      obtain ⟨hopened, -⟩ := beforeExec_opened s c
      have hready : Ready s.nextComputation c (s.beforeExec c).1 := by
        intro hsome
        rw [hopened.continuation, hcont] at hsome
        cases hsome
      obtain ⟨s₂, children, rfl, hsliced⟩ :=
        ihSliced _ _ c r₂ hc (Nat.le_of_eq hopened.nextComputation.symm) hready hslices
      exact framed_of_sliced hc htracked hsliced hend hcont
    · intro b s c r hcb hb hready h
      obtain ⟨r₁, hopcodes, hrest⟩ := ends_bind.mp h
      obtain ⟨s₀, s₁, rfl, hres, hex⟩ := executeOpcodes_executed hcb hb hready hopcodes
      rw [next_ok] at hrest
      split at hrest
      · next hcont =>
        exact ⟨s₁, [], ends_pure.mp hrest, sliced_nil hb hres hex hcont⟩
      · next after hcont hchild =>
        obtain ⟨hnone, -⟩ | ⟨-, hchild', -⟩ := hex.outcome
        · rw [hcont] at hnone
          cases hnone
        · rw [hchild] at hchild'
          cases hchild'
      · next after child hcont hchild =>
        have hsome : (s₁.computations c).continuation.isSome := by rw [hcont]; rfl
        obtain ⟨hchildEq, hnext, hfresh⟩ := hex.child_eq hsome hchild
        obtain ⟨r₃, hchildRun, hrest⟩ := ends_bind.mp hrest
        -- the child is run by the recursive call, and is the last computation in use
        have hlt : child < s₁.nextComputation := by
          rw [hnext, hchildEq]
          exact Nat.lt_succ_self _
        have hcont₂ : ((s₁.setParent c child).computations child).continuation = none := by
          unfold setParent
          rw [modify_self]
          exact hfresh.continuation
        have htracked₂ : ((s₁.setParent c child).computations child).balTrackerEnabled =
            (s₁.setParent c child).balTrackerEnabled := by
          unfold setParent
          rw [modify_self, modify_balTrackerEnabled, hex.enabled]
          exact hfresh.tracked
        obtain ⟨s₃, t, rfl, hframed⟩ := ihFramed (s₁.setParent c child) child r₃ hlt hcont₂ htracked₂ hchildRun
        have hcalled := called hcb hb hres hex hsome hchild hframed
        rw [next_ok, dispose_eq hframed.ownSavePoint] at hrest
        have hb₄ : b ≤ ((s₃.emit (.dispose child)).disposeStack child).nextComputation :=
          Nat.le_trans hb hcalled.depth.nextComputation_le
        obtain ⟨s', children, hr, hsliced⟩ :=
          ihSliced b _ c r hcb hb₄ (hcalled.ready hb) hrest
        exact ⟨s', t :: children, hr, hcalled.sliced hcb hb hsliced⟩

/-- The recursive scheme never comes upon a failing assertion, and leaves of a frame what its
tree of frames says. -/
theorem execRecursive_framed {n : Nat} (hc : c < s.nextComputation)
    (hcont : (s.computations c).continuation = none)
    (htracked : (s.computations c).balTrackerEnabled = s.balTrackerEnabled)
    (h : Ends (execRecursive n s c) r) : ∃ s' t, r = .ok s' ∧ Framed c s s' t :=
  (framed_and_sliced n).1 s c r hc hcont htracked h

end Nimbus.Spec.Dispatch
