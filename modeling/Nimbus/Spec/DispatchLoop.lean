import Nimbus.Spec.Dispatch

/-!
# The driver of the call frames is the recursive scheme

The driver goes into a child by a turn of its loop, and comes back by the reference of the child
to its parent. `leave` is what is left of the loop when a frame has ended. By that, the loop is
the slices of a frame, followed by its end, followed by `leave`; in one direction by induction on
the depth of the recursion, in the other by induction on the number of turns.
-/

namespace Nimbus.Spec.Dispatch

open Native Dispatch
open ExecM (Ends Le)
open VmTypes VmState FrameTree ExecM

variable [Vm] {s s' : VmState} {c i : CompId} {n m : Nat}
  {own : Own} {r : Except Defect VmState} {t : FrameTree}

/-! ### Deeper recursion -/

theorem le_succ (n : Nat) : (∀ s c, Le (execRecursive n s c) (execRecursive (n + 1) s c)) ∧
      ∀ s c, Le (execSlices n s c) (execSlices (n + 1) s c) := by
  induction n with
  | zero => exact ⟨fun _ _ => .diverge, fun _ _ => .diverge⟩
  | succ n ih =>
    obtain ⟨ihRecursive, ihSlices⟩ := ih
    constructor
    · intro s c
      exact (ihSlices _ c).bind fun _ => .refl _
    · intro s c
      apply Le.bind (.refl _)
      intro s₁
      split
      · exact .refl _
      · exact .refl _
      · exact (ihRecursive _ _).bind fun _ => Le.bind (.refl _) fun _ => ihSlices _ c

theorem execRecursive_mono (hmn : m ≤ n) : Le (execRecursive m s c) (execRecursive n s c) :=
  Le.of_succ (fun n => (le_succ n).1 s c) hmn

theorem execSlices_mono (hmn : m ≤ n) : Le (execSlices m s c) (execSlices n s c) :=
  Le.of_succ (fun n => (le_succ n).2 s c) hmn

/-! ### The loop -/

/-- What is left of the loop when the frame of `c` has ended. -/
def leave (n : Nat) (c : CompId) (s : VmState) : Exec (VmState × CompId) :=
  match (s.computations c).parent with
  | none => pure (s, c)
  | some parent => do
    let s ← s.dispose c
    loop n s parent false

theorem loop_before : loop n s c true = loop n (s.beforeExec c).1 c false := by
  cases n with
  | zero => rfl
  | succ n =>
    unfold loop turn
    simp only [if_true, Bool.false_eq_true, if_false, beforeExec_false]

/-- The end of a frame, and what is left of the loop then. -/
def endFrame (n : Nat) (c : CompId) (s : VmState) : Exec (VmState × CompId) := do
  let s ← (s.clearChild c).afterExec c
  leave n c s

theorem loop_succ : loop (n + 1) s c false = (do
    let s ← s.executeOpcodes c
    match (s.computations c).continuation, (s.computations c).child with
    | none, _ => endFrame n c s
    | some _, some child => loop n (s.setParent c child) child true
    | some _, none => throw .nilAccess) := by
  rw [loop.eq_def]
  unfold turn endFrame
  simp only [Bool.false_eq_true, if_false, bind_assoc]
  congr 1
  funext s₁
  generalize (s₁.computations c).continuation = continuation
  generalize (s₁.computations c).child = child
  cases continuation with
  | none =>
    simp only [bind_assoc, pure_bind]
    rfl
  | some after =>
    cases child with
    | none => rfl
    | some child => simp only [pure_bind]

/-- `c` is in use, and the continuation of it that is left to run is about a child of it. -/
def Valid (s : VmState) (c : CompId) : Prop :=
  ∃ b, c < b ∧ b ≤ s.nextComputation ∧ Ready b c s

/-- A computation that is to begin. -/
structure Starts (c : CompId) (s : VmState) : Prop where
  lt : c < s.nextComputation
  continuation : (s.computations c).continuation = none
  tracked : (s.computations c).balTrackerEnabled = s.balTrackerEnabled

/-- The child of a slice, as it is when it begins. -/
structure Child (c child : CompId) (s : VmState) : Prop extends Starts child s where
  parent : (s.computations child).parent = some c

theorem Starts.valid (h : Starts c s) : Valid (s.beforeExec c).1 c := by
  obtain ⟨hopened, -⟩ := beforeExec_opened s c
  refine ⟨_, h.lt, Nat.le_of_eq hopened.nextComputation.symm, fun hsome => ?_⟩
  rw [hopened.continuation, h.continuation] at hsome
  cases hsome

theorem Starts.framed (h : Starts c s)
    (hr : Ends (execRecursive n s c) r) : ∃ s' t, r = .ok s' ∧ Framed c s s' t :=
  execRecursive_framed h.lt h.continuation h.tracked hr

/-- What a slice of a frame comes to: its end, or the call of a child. When the child has run and
is disposed, the frame goes on with another slice. -/
theorem slice_cases (hvalid : Valid s c) (h : Ends (s.executeOpcodes c) r) :
    ∃ s₁, r = .ok s₁ ∧ ((s₁.computations c).continuation = none ∨
      ∃ after child, (s₁.computations c).continuation = some after ∧
        (s₁.computations c).child = some child ∧ Child c child (s₁.setParent c child) ∧
        ∀ s₃ t, Framed child (s₁.setParent c child) s₃ t →
          Valid ((s₃.emit (.dispose child)).disposeStack child) c) := by
  obtain ⟨b, hcb, hb, hready⟩ := hvalid
  obtain ⟨s₀, s₁, hr, hres, hex⟩ := executeOpcodes_executed hcb hb hready h
  refine ⟨s₁, hr, ?_⟩
  obtain ⟨hnone, -⟩ | ⟨hsome, hchild, hnext, hfresh⟩ := hex.outcome
  · exact .inl hnone
  · right
    obtain ⟨after, hafter⟩ := Option.isSome_iff_exists.mp hsome
    refine ⟨after, s₀.nextComputation, hafter, hchild, ?_, ?_⟩
    · unfold setParent
      constructor
      · constructor
        · show s₀.nextComputation < s₁.nextComputation
          rw [hnext]
          exact Nat.lt_succ_self _
        · rw [modify_self]
          exact hfresh.continuation
        · rw [modify_self, modify_balTrackerEnabled, hex.enabled]
          exact hfresh.tracked
      · rw [modify_self]
    · intro s₃ t hframed
      have hcalled := called hcb hb hres hex hsome hchild hframed
      exact ⟨b, hcb, Nat.le_trans hb hcalled.depth.nextComputation_le, hcalled.ready hb⟩

/-- The loop recurses out of a child to the computation that has called it. -/
theorem Child.leave {child : CompId} (h : Child c child s) (hframed : Framed child s s' t) :
    leave m child s' =
      loop m ((s'.emit (.dispose child)).disposeStack child) c false := by
  unfold Dispatch.leave
  rw [hframed.parent, h.parent]
  dsimp only
  rw [dispose_eq hframed.ownSavePoint, pure_bind]

theorem execSlices_succ : execSlices (n + 1) s c = (do
    let s ← s.executeOpcodes c
    match (s.computations c).continuation, (s.computations c).child with
    | none, _ => pure s
    | some _, none => throw .nilAccess
    | some _, some child => do
      let s ← execRecursive n (s.setParent c child) child
      let s ← s.dispose child
      execSlices n s c) := rfl

theorem ends_execRecursive :
    Ends (execRecursive (n + 1) s c) r ↔ ∃ r₁, Ends (execSlices n (s.beforeExec c).1 c) r₁ ∧
      Ends (next r₁ fun s => (s.clearChild c).afterExec c) r := by
  exact ends_bind

/-- The loop runs the slices of a frame, and all that comes after them. -/
theorem loop_of_slices (n : Nat) : ∀ s c s₂ m r, Valid s c → Ends (execSlices n s c) (.ok s₂) →
    Ends (endFrame m c s₂) r → ∃ k, Ends (loop k s c false) r := by
  induction n using Nat.strong_induction_on with
  | _ n ih =>
    intro s c s₂ m r hvalid hslices hend
    cases n with
    | zero => exact absurd hslices not_ends_diverge
    | succ n =>
      obtain ⟨r₁, hopcodes, hrest⟩ := ends_bind.mp hslices
      obtain ⟨s₁, rfl, hnone | ⟨after, child, hafter, hchild, hch, hnext⟩⟩ :=
        slice_cases hvalid hopcodes
      · rw [next_ok, hnone] at hrest
        obtain rfl := Except.ok.inj (ends_pure.mp hrest)
        refine ⟨m + 1, ?_⟩
        rw [loop_succ, ends_bind_of_ok hopcodes, hnone]
        exact hend
      · rw [next_ok, hafter, hchild] at hrest
        obtain ⟨r₃, hrun, hrest⟩ := ends_bind.mp hrest
        obtain ⟨s₃, t, rfl, hframed⟩ := hch.framed hrun
        rw [next_ok, dispose_eq hframed.ownSavePoint] at hrest
        -- what comes after the child
        obtain ⟨k₁, hk₁⟩ := ih n (Nat.lt_succ_self n) _ c s₂ m r (hnext s₃ t hframed) hrest hend
        cases n with
        | zero => exact absurd hrun not_ends_diverge
        | succ n =>
          obtain ⟨rx, hx, hafterExec⟩ := ends_execRecursive.mp hrun
          cases rx with
          | error e => exact nomatch ends_throw.mp hafterExec
          | ok sx =>
            rw [next_ok] at hafterExec
            have hleave : Ends (endFrame k₁ child sx) r := by
              unfold endFrame
              rw [ends_bind_of_ok hafterExec, hch.leave hframed]
              exact hk₁
            -- the child itself
            obtain ⟨k₂, hk₂⟩ := ih n (by omega) _ child sx k₁ r hch.valid hx hleave
            refine ⟨k₂ + 1, ?_⟩
            rw [loop_succ, ends_bind_of_ok hopcodes, hafter, hchild]
            rw [← loop_before] at hk₂
            exact hk₂

/-- What the loop ends with, it ends with by running the slices of the frame, and all that comes
after them in fewer turns. -/
theorem slices_of_loop (k : Nat) : ∀ s c r, Valid s c → Ends (loop k s c false) r →
    ∃ n s₂ m, m < k ∧ Ends (execSlices n s c) (.ok s₂) ∧ Ends (endFrame m c s₂) r := by
  induction k using Nat.strong_induction_on with
  | _ k ih =>
    intro s c r hvalid hloop
    cases k with
    | zero => exact absurd hloop not_ends_diverge
    | succ k =>
      rw [loop_succ] at hloop
      obtain ⟨r₁, hopcodes, hrest⟩ := ends_bind.mp hloop
      obtain ⟨s₁, rfl, hnone | ⟨after, child, hafter, hchild, hch, hnext⟩⟩ :=
        slice_cases hvalid hopcodes
      · rw [next_ok, hnone] at hrest
        refine ⟨1, s₁, k, Nat.lt_succ_self k, ?_, hrest⟩
        rw [execSlices_succ, ends_bind_of_ok hopcodes, hnone]
        exact ends_pure.mpr rfl
      · rw [next_ok, hafter, hchild] at hrest
        dsimp only at hrest
        rw [loop_before] at hrest
        -- the child, up to where its frame ends
        obtain ⟨n₁, sx, m₁, hm₁, hx, hend⟩ := ih k (Nat.lt_succ_self k) _ child r hch.valid hrest
        obtain ⟨r₃, hafterExec, hleave⟩ := ends_bind.mp hend
        have hrun : Ends (execRecursive (n₁ + 1) (s₁.setParent c child) child) r₃ :=
          ends_execRecursive.mpr ⟨_, hx, hafterExec⟩
        obtain ⟨s₃, t, rfl, hframed⟩ := hch.framed hrun
        rw [next_ok, hch.leave hframed] at hleave
        -- what comes after the child
        obtain ⟨n₂, s₂, m₂, hm₂, hslices, hend₂⟩ :=
          ih m₁ (by omega) _ c r (hnext s₃ t hframed) hleave
        refine ⟨max (n₁ + 1) n₂ + 1, s₂, m₂, by omega, ?_, hend₂⟩
        rw [execSlices_succ, ends_bind_of_ok hopcodes, hafter, hchild]
        rw [ends_bind_of_ok (execRecursive_mono (Nat.le_max_left _ _) _ hrun),
          dispose_eq hframed.ownSavePoint]
        exact execSlices_mono (Nat.le_max_right _ _) _ hslices

/-! ### The log of a tree -/

section
omit [Vm]

variable {e : Event} {tracked : Bool}

mutual

/-- An event that every frame logs once as it begins or ends. -/
theorem count_log (hframe : ∀ c sp result, (FrameTree.opening tracked c sp).count e +
      (FrameTree.closing tracked c sp result).count e = [c].count i)
    (hchild : ∀ parent c result, [Event.dispose c, .resume parent c result].count e = 0)
    (t : FrameTree) : (t.log tracked).count e = t.computations.count i := by
  cases t with
  | node c sp result children =>
    have hchildren := count_logOf hframe hchild c children
    have hc := hframe c sp result
    unfold FrameTree.log FrameTree.computations
    rw [List.count_append, List.count_append, List.count_cons]
    rw [List.count_singleton] at hc
    omega

theorem count_logOf (hframe : ∀ c sp result, (opening tracked c sp).count e +
      (closing tracked c sp result).count e = [c].count i)
    (hchild : ∀ parent c result, [Event.dispose c, .resume parent c result].count e = 0)
    (parent : CompId) (ts : List FrameTree) :
    (logOf tracked parent ts).count e = (computationsOf ts).count i := by
  cases ts with
  | nil => rfl
  | cons t ts =>
    have htree := count_log hframe hchild t
    have hrest := count_logOf hframe hchild parent ts
    unfold logOf computationsOf
    rw [List.count_append, List.count_append, List.count_append, hchild]
    omega

end

theorem count_beforeExec (t : FrameTree) :
    (t.log tracked).count (.beforeExec i) = t.computations.count i := by
  apply count_log
  · intro c sp result
    unfold opening closing
    cases tracked <;> cases result <;> simp [List.count_cons]
  · intro parent c result
    simp

theorem count_afterExec (t : FrameTree) :
    (t.log tracked).count (.afterExec i) = t.computations.count i := by
  apply count_log
  · intro c sp result
    unfold opening closing
    cases tracked <;> cases result <;> simp [List.count_cons]
  · intro parent c result
    simp

theorem count_frame_dispose (c : CompId) (sp : SpRef) (result : Option Error) :
    (opening tracked c sp).count (.dispose i) = 0 ∧
      (closing tracked c sp result).count (.dispose i) = 0 := by
  unfold opening closing
  cases tracked <;> cases result <;> simp

mutual

theorem count_dispose (t : FrameTree) :
    (t.log tracked ++ [Event.dispose t.c]).count (.dispose i) = t.computations.count i := by
  cases t with
  | node c sp result children =>
    have hchildren := countOf_dispose c children
    obtain ⟨hopening, hclosing⟩ := count_frame_dispose c sp result
    unfold FrameTree.log FrameTree.computations FrameTree.c
    rw [List.count_append, List.count_append, List.count_append, hopening, hclosing, hchildren]
    simp [List.count_cons]

theorem countOf_dispose (parent : CompId) (ts : List FrameTree) :
    (logOf tracked parent ts).count (.dispose i) =
      (computationsOf ts).count i := by
  cases ts with
  | nil => rfl
  | cons t ts =>
    have htree := count_dispose t
    have hrest := countOf_dispose parent ts
    unfold logOf computationsOf
    rw [List.count_append, List.count_append, List.count_append, hrest, ← htree]
    simp [List.count_cons]

end

end

/-! ### The driver -/

/-- What a run of the driver leaves, where `t` is the tree of the frames that it has executed:
everything that was in use before is as it was, and everything that was not is a frame of the
tree. -/
structure Driven (s s' : VmState) (c : CompId) (t : FrameTree) : Prop where
  root : t.c = c
  /-- the frames begin and end, and are resumed and disposed, in the order of the tree -/
  log : s'.log = s.log ++ (t.log s.balTrackerEnabled ++ [.dispose c])
  beforeExec_once : ∀ i ∈ t.computations, (t.log s.balTrackerEnabled).count (.beforeExec i) = 1
  afterExec_once : ∀ i ∈ t.computations, (t.log s.balTrackerEnabled).count (.afterExec i) = 1
  dispose_once : ∀ i ∈ t.computations,
    (t.log s.balTrackerEnabled ++ [Event.dispose c]).count (.dispose i) = 1
  result : t.result = (s'.computations c).error
  mem_computations : ∀ i, i ∈ t.computations ↔ s.nextComputation ≤ i ∧ i < s'.nextComputation
  nodup_savePoints : t.savePoints.Nodup
  disposed : ∀ i ∈ t.computations, Disposed (s'.computations i)
  others : ∀ i < s.nextComputation, s'.computations i = s.computations i
  savePoint : s'.savePoint = s.savePoint
  parentSavePoints : s'.parentSavePoints = s.parentSavePoints
  callFrames : s'.callFrames = s.callFrames

theorem newComputation_computations (own : Own) :
    (s.newComputation own).computations s.nextComputation =
      { own with balTrackerEnabled := s.balTrackerEnabled } := Function.update_self ..

theorem newComputation_starts (own : Own) : Starts s.nextComputation (s.newComputation own) := by
  constructor
  · exact Nat.lt_succ_self _
  · rw [newComputation_computations]
  · rw [newComputation_computations]
    rfl

theorem Framed.root_parent (h : Framed s.nextComputation (s.newComputation own) s' t) :
    (s'.computations s.nextComputation).parent = none := by
  rw [h.parent, newComputation_computations]

/-- The state in which the last frame is disposed. -/
def disposed (s : VmState) (c : CompId) : VmState :=
  ((s.emit (.dispose c)).disposeStack c).clearChild c

theorem ends_execTop : Ends (execTop n (s.newComputation own) s.nextComputation) r ↔
      ∃ s₁, Ends (execRecursive n (s.newComputation own) s.nextComputation) (.ok s₁) ∧
        r = .ok (disposed s₁ s.nextComputation) := by
  unfold execTop
  rw [ends_bind]
  constructor
  · rintro ⟨r₁, hrun, hrest⟩
    obtain ⟨s₁, t, rfl, hframed⟩ := (newComputation_starts own).framed hrun
    rw [next_ok, dispose_eq hframed.ownSavePoint] at hrest
    exact ⟨s₁, hrun, ends_pure.mp hrest⟩
  · rintro ⟨s₁, hrun, rfl⟩
    obtain ⟨_, t, heq, hframed⟩ := (newComputation_starts own).framed hrun
    obtain rfl := Except.ok.inj heq
    refine ⟨_, hrun, ?_⟩
    rw [next_ok, dispose_eq hframed.ownSavePoint]
    exact ends_pure.mpr rfl

theorem disposeLoop_root (h : Framed s.nextComputation (s.newComputation own) s' t) :
    disposeLoop (n + 1) s' (some s.nextComputation) =
      pure (disposed s' s.nextComputation) := by
  unfold disposeLoop
  rw [h.root_parent, dispose_eq h.ownSavePoint]
  cases n <;> rfl

/-- The driver ends with what the recursive scheme ends with. -/
theorem execCallOrCreate_iff :
    (∃ n, Ends (execCallOrCreate n (s.newComputation own) s.nextComputation) r) ↔
      ∃ n, Ends (execTop n (s.newComputation own) s.nextComputation) r := by
  have hstarts : Starts s.nextComputation (s.newComputation own) := newComputation_starts own
  constructor
  · rintro ⟨n, h⟩
    obtain ⟨r₁, hloop, hdispose⟩ := ends_bind.mp h
    rw [loop_before] at hloop
    obtain ⟨n₁, s₂, m, -, hslices, hend⟩ := slices_of_loop n _ _ r₁ hstarts.valid hloop
    obtain ⟨r₃, hafterExec, hleave⟩ := ends_bind.mp hend
    have hrun := ends_execRecursive.mpr ⟨_, hslices, hafterExec⟩
    obtain ⟨s₃, t, rfl, hframed⟩ := hstarts.framed hrun
    unfold leave at hleave
    rw [next_ok, hframed.root_parent] at hleave
    obtain rfl := ends_pure.mp hleave
    cases n with
    | zero => exact absurd hloop not_ends_diverge
    | succ n =>
      rw [next_ok] at hdispose
      dsimp only at hdispose
      rw [disposeLoop_root hframed] at hdispose
      exact ⟨n₁ + 1, ends_execTop.mpr ⟨s₃, hrun, ends_pure.mp hdispose⟩⟩
  · rintro ⟨n, h⟩
    obtain ⟨s₁, hrun, rfl⟩ := ends_execTop.mp h
    obtain ⟨_, t, heq, hframed⟩ := hstarts.framed hrun
    obtain rfl := Except.ok.inj heq
    cases n with
    | zero => exact absurd hrun not_ends_diverge
    | succ n =>
      obtain ⟨rx, hslices, hafterExec⟩ := ends_execRecursive.mp hrun
      cases rx with
      | error e => exact nomatch ends_throw.mp hafterExec
      | ok sx =>
        rw [next_ok] at hafterExec
        have hend : Ends (endFrame 0 s.nextComputation sx) (.ok (s₁, s.nextComputation)) := by
          unfold endFrame leave
          rw [ends_bind_of_ok hafterExec, hframed.root_parent]
          exact ends_pure.mpr rfl
        obtain ⟨k, hk⟩ := loop_of_slices n _ _ _ 0 _ hstarts.valid hslices hend
        cases k with
        | zero => exact absurd hk not_ends_diverge
        | succ k =>
          refine ⟨k + 1, ?_⟩
          unfold execCallOrCreate
          rw [loop_before, ends_bind_of_ok hk]
          dsimp only
          rw [disposeLoop_root hframed]
          exact ends_pure.mpr rfl

/-- What is left when the frame of a computation that nothing has called is disposed. -/
theorem Framed.driven (h : Framed s.nextComputation (s.newComputation own) s' t) :
    Driven s (disposed s' s.nextComputation) s.nextComputation t := by
  have hlt : s.nextComputation < s'.nextComputation :=
    Nat.lt_of_lt_of_le (Nat.lt_succ_self _) h.depth.nextComputation_le
  have hcount : ∀ i ∈ t.computations, t.computations.count i = 1 := fun i hi =>
    List.count_eq_one_of_mem h.nodup_computations hi
  have hkept : ∀ i, i ≠ s.nextComputation →
      (disposed s' s.nextComputation).computations i = s'.computations i := by
    intro i hi
    unfold disposed clearChild
    rw [modify_of_ne hi, disposeStack_of_ne hi, emit_computations]
  constructor
  case root => exact h.root
  case log =>
    show s'.log ++ [.dispose s.nextComputation] = _
    rw [h.log]
    exact List.append_assoc ..
  case beforeExec_once =>
    intro i hi
    rw [count_beforeExec, hcount i hi]
  case afterExec_once =>
    intro i hi
    rw [count_afterExec, hcount i hi]
  case dispose_once =>
    intro i hi
    rw [← h.root, count_dispose, hcount i hi]
  case result =>
    unfold disposed clearChild
    rw [h.result, modify_self]
    exact disposeStack_error.symm
  case mem_computations =>
    intro i
    rw [h.mem_computations]
    constructor
    · rintro (rfl | ⟨hi, hi'⟩)
      · exact ⟨Nat.le_refl _, hlt⟩
      · exact ⟨Nat.le_of_lt hi, hi'⟩
    · rintro ⟨hi, hi'⟩
      obtain heq | hi := Nat.eq_or_lt_of_le hi
      · exact .inl heq.symm
      · exact .inr ⟨hi, hi'⟩
  case nodup_savePoints => exact h.nodup_savePoints
  case disposed =>
    intro i hi
    by_cases hic : i = s.nextComputation
    · rw [hic]
      unfold disposed clearChild
      rw [modify_self]
      have hdisposed := disposeStack_disposed (c := s.nextComputation)
        (s := s'.emit (.dispose s.nextComputation)) h.ownSavePoint
      exact ⟨hdisposed.stack, hdisposed.savePoint⟩
    · rw [hkept i hic]
      exact h.childrenDisposed i hi hic
  case others =>
    intro i hi
    have hic : i ≠ s.nextComputation := Nat.ne_of_lt hi
    rw [hkept i hic, h.others i (Nat.lt_succ_of_lt hi) hic]
    exact Function.update_of_ne hic ..
  case savePoint => exact h.depth.savePoint
  case parentSavePoints => exact h.depth.parentSavePoints
  case callFrames => exact h.depth.callFrames

/-- For every computation, the driver ends exactly when the recursive scheme does, with the same
state. It then has run every frame from its beginning to its end, in the order of a tree. -/
theorem execCallOrCreate_recursive (s : VmState) (own : Own) :
    (∀ r, (∃ n, Ends (execCallOrCreate n (s.newComputation own) s.nextComputation) r) ↔
      ∃ n, Ends (execTop n (s.newComputation own) s.nextComputation) r) ∧
    ∀ n r, Ends (execCallOrCreate n (s.newComputation own) s.nextComputation) r →
      ∃ s' t, r = .ok s' ∧ Driven s s' s.nextComputation t := by
  refine ⟨fun r => execCallOrCreate_iff, fun n r h => ?_⟩
  obtain ⟨m, hm⟩ := execCallOrCreate_iff.mp ⟨n, h⟩
  obtain ⟨s₁, hrun, rfl⟩ := ends_execTop.mp hm
  obtain ⟨_, t, heq, hframed⟩ := (newComputation_starts own).framed hrun
  obtain rfl := Except.ok.inj heq
  exact ⟨_, t, rfl, hframed.driven⟩

end Nimbus.Spec.Dispatch
