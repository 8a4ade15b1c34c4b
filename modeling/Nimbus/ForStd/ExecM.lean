import Mathlib.Logic.Basic

/-!
# Programs that may fail or run for ever

A program ends with a value or an error, or it does not end. A loop without a bound is a
function of the number of its turns that stops short when they are used up; it ends if there
are enough of them. Here are the rules for what such programs end with.
-/

namespace Nimbus

variable {ε α β : Type}

/-- How two steps succeed, one of which may fail. -/
theorem except_bind_ok {x : Except ε α} {f : α → Except ε β} {b : β} :
    x >>= f = .ok b ↔ ∃ a, x = .ok a ∧ f a = .ok b := by
  cases x with
  | error error => exact ⟨nofun, fun ⟨_, h, _⟩ => nomatch h⟩
  | ok a => exact ⟨fun h => ⟨a, rfl, h⟩, fun ⟨_, rfl, h⟩ => h⟩

theorem except_map_ok {x : Except ε α} {f : α → β} {b : β} :
    f <$> x = .ok b ↔ ∃ a, x = .ok a ∧ f a = b := by
  cases x with
  | error e => exact ⟨nofun, fun ⟨_, h, _⟩ => nomatch h⟩
  | ok a =>
    constructor
    · intro h
      exact ⟨a, rfl, Except.ok.inj h⟩
    · rintro ⟨a', h, rfl⟩
      cases h
      rfl

abbrev ExecM (ε α : Type) := ExceptT ε Option α

namespace ExecM

/-- The program that does not end. -/
def diverge : ExecM ε α := ExceptT.mk none

def Ends (x : ExecM ε α) (r : Except ε α) : Prop := ExceptT.run x = some r

variable {x y : ExecM ε α} {f g : α → ExecM ε β} {a : α} {e : ε} {r r' : Except ε α}

@[simp] theorem ends_pure : Ends (pure a : ExecM ε α) r ↔ r = .ok a := by
  show (some (.ok a) : Option (Except ε α)) = some r ↔ _
  rw [Option.some.injEq, eq_comm]

@[simp] theorem ends_throw : Ends (throw e : ExecM ε α) r ↔ r = .error e := by
  show (some (.error e) : Option (Except ε α)) = some r ↔ _
  rw [Option.some.injEq, eq_comm]

@[simp] theorem not_ends_diverge : ¬ Ends (diverge : ExecM ε α) r := by
  intro h
  cases h

theorem Ends.unique (h : Ends x r) (h' : Ends x r') : r = r' :=
  Option.some.inj (h.symm.trans h')

/-- What is left to do after a first step that ends with `r`. -/
def next (r : Except ε α) (f : α → ExecM ε β) : ExecM ε β :=
  match r with
  | .ok a => f a
  | .error e => throw e

@[simp] theorem next_ok : next (.ok a) f = f a := rfl

theorem ends_bind {t : Except ε β} : Ends (x >>= f) t ↔ ∃ r, Ends x r ∧ Ends (next r f) t := by
  show ExceptT.run (x >>= f) = some t ↔ _
  rw [ExceptT.run_bind]
  constructor
  · intro h
    cases hx : ExceptT.run x with
    | none =>
      rw [hx] at h
      cases h
    | some r =>
      rw [hx] at h
      refine ⟨r, hx, ?_⟩
      cases r with
      | ok a => exact h
      | error e => exact h
  · rintro ⟨r, hx, hf⟩
    rw [hx]
    cases r with
    | ok a => exact hf
    | error e => exact hf

theorem ends_bind_of_ok {t : Except ε β} (hx : Ends x (.ok a)) :
    Ends (x >>= f) t ↔ Ends (f a) t := by
  rw [ends_bind]
  constructor
  · rintro ⟨r, hr, ht⟩
    obtain rfl := hr.unique hx
    exact ht
  · exact fun ht => ⟨_, hx, ht⟩

/-! ### Programs that end more often -/

/-- Whatever `x` ends with, `y` ends with it. -/
def Le (x y : ExecM ε α) : Prop := ∀ r, Ends x r → Ends y r

namespace Le

theorem refl (x : ExecM ε α) : Le x x := fun _ h => h

theorem trans {z : ExecM ε α} (h : Le x y) (h' : Le y z) : Le x z := fun r hr => h' r (h r hr)

theorem diverge : Le (diverge : ExecM ε α) x := fun _ h => absurd h not_ends_diverge

theorem bind (hx : Le x y) (hf : ∀ a, Le (f a) (g a)) : Le (x >>= f) (y >>= g) := by
  intro t h
  obtain ⟨r, hr, ht⟩ := ends_bind.mp h
  refine ends_bind.mpr ⟨r, hx r hr, ?_⟩
  cases r with
  | ok a => exact hf a t ht
  | error e => exact ht

/-- More turns for a loop that ends with one more turn whatever it ends with. -/
theorem of_succ {F : Nat → ExecM ε α} (h : ∀ n, Le (F n) (F (n + 1))) {m n : Nat} (hmn : m ≤ n) :
    Le (F m) (F n) := by
  induction hmn with
  | refl => exact Le.refl _
  | step _ ih => exact ih.trans (h _)

end Le

end ExecM

end Nimbus
