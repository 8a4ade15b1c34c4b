import Mathlib.Logic.Basic

/-!
# Tasks that may fail

A task runs in a world that it can change, and ends with a value or an error. What is proved
about a task that returns follows its steps: each of them has returned, one after the other.
-/

namespace Nimbus

variable {W ε α β σ : Type}

abbrev TaskM (W ε α : Type) := ExceptT ε (StateM W) α

namespace TaskM

/-- From the world `w` the task returns `a` and leaves the world `w'`. -/
def Returns (x : TaskM W ε α) (w : W) (a : α) (w' : W) : Prop :=
  StateT.run (ExceptT.run x) w = (.ok a, w')

variable {w w' : W} {a b : α} {x : TaskM W ε α}

@[simp] theorem returns_pure : Returns (pure a : TaskM W ε α) w b w' ↔ a = b ∧ w = w' := by
  show ((.ok a, w) : Except ε α × W) = (.ok b, w') ↔ a = b ∧ w = w'
  rw [Prod.mk.injEq, Except.ok.injEq]

@[simp] theorem returns_throw {e : ε} : ¬ Returns (throw e : TaskM W ε α) w a w' := by
  intro h
  cases h

theorem returns_bind {f : α → TaskM W ε β} {b : β} :
    Returns (x >>= f) w b w' ↔ ∃ a w₁, Returns x w a w₁ ∧ Returns (f a) w₁ b w' := by
  show StateT.run (ExceptT.run (x >>= f)) w = (.ok b, w') ↔ _
  rw [ExceptT.run_bind, StateT.run_bind]
  constructor
  · intro h
    cases hx : StateT.run (ExceptT.run x) w with
    | mk r w₁ =>
      cases r with
      | error e =>
        rw [hx] at h
        cases h
      | ok a =>
        rw [hx] at h
        exact ⟨a, w₁, hx, h⟩
  · rintro ⟨a, w₁, hx, hf⟩
    rw [hx]
    exact hf

/-- What a task returns is determined by the world that it starts from. -/
theorem Returns.unique {w₁ : W} (h : Returns x w a w') (h' : Returns x w b w₁) :
    a = b ∧ w' = w₁ := by
  unfold Returns at h h'
  rw [h] at h'
  cases h'
  exact ⟨rfl, rfl⟩

section Loops

variable {step : σ → α → TaskM W ε σ} {s s' : σ} {xs ys : List α}

theorem returns_foldlM_append : Returns ((xs ++ ys).foldlM step s) w s' w' ↔
      ∃ s₁ w₁, Returns (xs.foldlM step s) w s₁ w₁ ∧ Returns (ys.foldlM step s₁) w₁ s' w' := by
  rw [List.foldlM_append]
  exact returns_bind

theorem foldlM_invariant (I : σ → Prop)
    (hstep : ∀ s x w s' w', I s → Returns (step s x) w s' w' → I s') (hs : I s)
    (h : Returns (xs.foldlM step s) w s' w') : I s' := by
  induction xs generalizing s w with
  | nil =>
    rw [List.foldlM_nil, returns_pure] at h
    rw [← h.1]
    exact hs
  | cons x xs ih =>
    rw [List.foldlM_cons, returns_bind] at h
    obtain ⟨s₁, w₁, hx, hrest⟩ := h
    exact ih (hstep s x w s₁ w₁ hs hx) hrest

/-- The turn of an element of the list starts where the loop over the elements before it ends. -/
theorem foldlM_turn {i : Nat} {y : α} (h : Returns (xs.foldlM step s) w s' w')
    (hget : xs[i]? = some y) :
    ∃ s₁ w₁ s₂ w₂, Returns ((xs.take i).foldlM step s) w s₁ w₁ ∧
      Returns (step s₁ y) w₁ s₂ w₂ ∧ Returns ((xs.take (i + 1)).foldlM step s) w s₂ w₂ := by
  obtain ⟨hi, rfl⟩ := List.getElem?_eq_some_iff.mp hget
  have hsplit : xs = xs.take (i + 1) ++ xs.drop (i + 1) := (List.take_append_drop _ _).symm
  rw [hsplit, returns_foldlM_append] at h
  obtain ⟨s₂, w₂, hprefix, -⟩ := h
  have hbefore := hprefix
  rw [List.take_succ_eq_append_getElem hi, returns_foldlM_append] at hbefore
  obtain ⟨s₁, w₁, hbefore, hturn⟩ := hbefore
  rw [List.foldlM_cons, returns_bind] at hturn
  obtain ⟨s₃, w₃, hturn, hend⟩ := hturn
  rw [List.foldlM_nil, returns_pure] at hend
  obtain ⟨rfl, rfl⟩ := hend
  exact ⟨s₁, w₁, s₃, w₃, hbefore, hturn, hprefix⟩

end Loops

end TaskM

end Nimbus
