import Mathlib.Logic.Basic

/-!
# Runs of a step function that may fail

A run takes one step after the other and ends at the first failure. What each step keeps
under a condition holds after every run whose steps meet the condition.
-/

namespace Nimbus

variable {ε σ ι : Type*}

/-- A run that is computed to end in a state with `P`. -/
theorem exists_ok {r : Except ε σ} {P : σ → Prop} [DecidablePred P]
    (h : r.toOption.any (fun s => decide (P s)) = true) : ∃ s, r = .ok s ∧ P s := by
  cases r with
  | error e => cases h
  | ok s => exact ⟨s, rfl, of_decide_eq_true h⟩

namespace StepRun

def run (step : σ → ι → Except ε σ) : σ → List ι → Except ε σ
  | s, [] => .ok s
  | s, x :: xs => (step s x).bind fun s => run step s xs

/-- Every step of the run meets `P` in the state that it starts from. -/
def StepsOk (step : σ → ι → Except ε σ) (P : σ → ι → Prop) : σ → List ι → Prop
  | _, [] => True
  | s, x :: xs => P s x ∧ ∀ s', step s x = .ok s' → StepsOk step P s' xs

variable {step : σ → ι → Except ε σ} {P Q : σ → ι → Prop} {s s' : σ} {x : ι} {xs : List ι}

theorem run_cons (h : run step s (x :: xs) = .ok s') :
    ∃ s₁, step s x = .ok s₁ ∧ run step s₁ xs = .ok s' := by
  unfold run at h
  cases hx : step s x with
  | error e =>
    rw [hx] at h
    cases h
  | ok s₁ =>
    rw [hx] at h
    exact ⟨s₁, rfl, h⟩

theorem run_append {ys : List ι} (h : run step s xs = .ok s') :
    run step s (xs ++ ys) = run step s' ys := by
  induction xs generalizing s with
  | nil =>
    cases h
    rfl
  | cons x xs ih =>
    obtain ⟨s₁, hx, hrest⟩ := run_cons h
    show (step s x).bind (fun s => run step s (xs ++ ys)) = _
    rw [hx]
    exact ih hrest

/-- A run that ends with a step has made the steps before it. -/
theorem run_concat (h : run step s (xs ++ [x]) = .ok s') :
    ∃ s₁, run step s xs = .ok s₁ ∧ step s₁ x = .ok s' := by
  induction xs generalizing s with
  | nil =>
    obtain ⟨s₁, hx, hrest⟩ := run_cons h
    cases hrest
    exact ⟨s, rfl, hx⟩
  | cons y xs ih =>
    obtain ⟨s₁, hy, hrest⟩ := run_cons h
    obtain ⟨s₂, hxs, hx⟩ := ih hrest
    refine ⟨s₂, ?_, hx⟩
    show (step s y).bind (fun s => run step s xs) = _
    rw [hy]
    exact hxs

theorem run_singleton : run step s [x] = step s x := by
  show (step s x).bind Except.ok = step s x
  cases step s x <;> rfl

theorem StepsOk.imp (hPQ : ∀ s x, P s x → Q s x) (h : StepsOk step P s xs) :
    StepsOk step Q s xs := by
  induction xs generalizing s with
  | nil => trivial
  | cons x xs ih => exact ⟨hPQ s x h.1, fun s' hs' => ih (h.2 s' hs')⟩

theorem StepsOk.and (hP : StepsOk step P s xs) (hQ : StepsOk step Q s xs) :
    StepsOk step (fun s x => P s x ∧ Q s x) s xs := by
  induction xs generalizing s with
  | nil => trivial
  | cons x xs ih => exact ⟨⟨hP.1, hQ.1⟩, fun s' hs' => ih (hP.2 s' hs') (hQ.2 s' hs')⟩

/-- What holds at the start, and is kept by every step that meets the condition, holds at the
end. -/
theorem invariant (I : σ → Prop) (hstep : ∀ s x s', I s → P s x → step s x = .ok s' → I s')
    (hs : I s) (hok : StepsOk step P s xs) (h : run step s xs = .ok s') : I s' := by
  induction xs generalizing s with
  | nil =>
    cases h
    exact hs
  | cons x xs ih =>
    obtain ⟨s₁, hx, hrest⟩ := run_cons h
    exact ih (hstep s x s₁ hs hok.1 hx) (hok.2 s₁ hx) hrest

/-- What follows from a condition in every state that the run reaches. -/
theorem StepsOk.of_invariant (I : σ → Prop)
    (hstep : ∀ s x s', I s → P s x → step s x = .ok s' → I s')
    (hPQ : ∀ s x, I s → P s x → Q s x) (hs : I s) (h : StepsOk step P s xs) :
    StepsOk step Q s xs := by
  induction xs generalizing s with
  | nil => trivial
  | cons x xs ih =>
    exact ⟨hPQ s x hs h.1, fun s' hs' => ih (hstep s x s' hs h.1 hs') (h.2 s' hs')⟩

/-- A condition that the state has no part in is met along the whole run. -/
theorem stepsOk_of_forall (h : ∀ x ∈ xs, ∀ s, P s x) : StepsOk step P s xs := by
  induction xs generalizing s with
  | nil => trivial
  | cons x xs ih =>
    exact ⟨h x List.mem_cons_self s, fun s' _ => ih fun y hy => h y (.tail _ hy)⟩

theorem stepsOk_true : StepsOk step (fun _ _ => True) s xs :=
  stepsOk_of_forall fun _ _ _ => trivial

end StepRun

end Nimbus
