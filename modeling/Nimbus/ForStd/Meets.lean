import Mathlib.Order.Defs.Unbundled

/-!
# Outcomes of programs that keep their state when they fail

A program of `EStateM` ends with a result or with an error, and with a state either way.
`Meets x s Q R` says that `x`, started in `s`, meets `Q` if it returns and `R` if it fails.
-/

namespace Nimbus

variable {ε σ α β : Type}

def Meets (x : EStateM ε σ α) (s : σ) (Q : α → σ → Prop) (R : ε → σ → Prop) : Prop :=
  match x s with
  | .ok a s' => Q a s'
  | .error e s' => R e s'

variable {x : EStateM ε σ α} {f : α → EStateM ε σ β} {s : σ} {Q Q' : α → σ → Prop}
  {R R' : ε → σ → Prop} {T : β → σ → Prop}

instance [∀ a s, Decidable (Q a s)] [∀ e s, Decidable (R e s)] : Decidable (Meets x s Q R) :=
  match hx : x s with
  | .ok a s' => decidable_of_iff (Q a s') (by unfold Meets; rw [hx])
  | .error e s' => decidable_of_iff (R e s') (by unfold Meets; rw [hx])

/-- A program of two steps returns if both of them do. -/
theorem bind_ok {b : β} {s' : σ} :
    (x >>= f) s = .ok b s' ↔ ∃ a s₁, x s = .ok a s₁ ∧ f a s₁ = .ok b s' := by
  show EStateM.bind x f s = .ok b s' ↔ _
  unfold EStateM.bind
  constructor
  · intro h
    cases hx : x s with
    | ok a s₁ =>
      rw [hx] at h
      exact ⟨a, s₁, rfl, h⟩
    | error e s₁ =>
      rw [hx] at h
      cases h
  · rintro ⟨a, s₁, hx, hf⟩
    rw [hx]
    exact hf

theorem bind_of_ok {a : α} {s₁ : σ} (h : x s = .ok a s₁) : (x >>= f) s = f a s₁ := by
  show EStateM.bind x f s = f a s₁
  unfold EStateM.bind
  rw [h]

theorem bind_of_error {e : ε} {s₁ : σ} (h : x s = .error e s₁) : (x >>= f) s = .error e s₁ := by
  show EStateM.bind x f s = .error e s₁
  unfold EStateM.bind
  rw [h]

theorem Meets.of_ok {a : α} {s' : σ} (h : Meets x s Q R) (hx : x s = .ok a s') : Q a s' := by
  unfold Meets at h
  rw [hx] at h
  exact h

namespace Meets

theorem pure {a : α} (h : Q a s) : Meets (Pure.pure a) s Q R := h

theorem throw {e : ε} (h : R e s) : Meets (MonadExcept.throw e) s Q R := h

theorem get {Q : σ → σ → Prop} (h : Q s s) : Meets (MonadState.get) s Q R := h

theorem modify {g : σ → σ} {Q : PUnit → σ → Prop} (h : Q ⟨⟩ (g s)) :
    Meets (MonadStateOf.modifyGet fun s => (PUnit.unit, g s)) s Q R := h

/-- The rule of sequencing. -/
theorem bind (h : Meets x s (fun a s' => Meets (f a) s' T R) R) : Meets (x >>= f) s T R := by
  unfold Meets at h ⊢
  show (match EStateM.bind x f s with | .ok a s' => T a s' | .error e s' => R e s')
  unfold EStateM.bind
  cases hx : x s with
  | ok a s' => rw [hx] at h; exact h
  | error e s' => rw [hx] at h; exact h

/-- The rule of consequence. -/
theorem mono (h : Meets x s Q R) (hQ : ∀ a s', Q a s' → Q' a s') (hR : ∀ e s', R e s' → R' e s') :
    Meets x s Q' R' := by
  unfold Meets at h ⊢
  cases hx : x s with
  | ok a s' => rw [hx] at h; exact hQ a s' h
  | error e s' => rw [hx] at h; exact hR e s' h

theorem andThen (h : Meets x s Q R') (hQ : ∀ a s', Q a s' → Meets (f a) s' T R)
    (hR : ∀ e s', R' e s' → R e s') : Meets (x >>= f) s T R :=
  (h.mono hQ hR).bind

end Meets

end Nimbus

/-!
## Where a program leads to if it returns

A program leads along a relation if the state it returns with is related to the state it starts
in. Nothing is said of a program that fails. Programs in sequence lead along the composition of
their relations.
-/

namespace Nimbus

variable {ε σ α β : Type}

def Leads (R : σ → σ → Prop) (x : EStateM ε σ α) : Prop :=
  ∀ s a s', x s = .ok a s' → R s s'

namespace Leads

variable {R S T : σ → σ → Prop} {x y : EStateM ε σ α} {f : α → EStateM ε σ β}

theorem pure [Std.Refl R] (a : α) : Leads R (Pure.pure a : EStateM ε σ α) := by
  intro s b s' h
  cases h
  exact refl s

theorem throw (e : ε) : Leads R (MonadExcept.throw e : EStateM ε σ α) := by
  intro s a s' h
  cases h

theorem get [Std.Refl R] : Leads R (MonadState.get : EStateM ε σ σ) := by
  intro s a s' h
  cases h
  exact refl s

theorem modify {g : σ → σ} (h : ∀ s, R s (g s)) :
    Leads R (MonadStateOf.modifyGet fun s => (PUnit.unit, g s) : EStateM ε σ PUnit) := by
  intro s a s' hs
  cases hs
  exact h s

theorem bind (hx : Leads R x) (hf : ∀ a, Leads S (f a))
    (hT : ∀ s₁ s₂ s₃, R s₁ s₂ → S s₂ s₃ → T s₁ s₃) : Leads T (x >>= f) := by
  intro s b s' h
  obtain ⟨a, s₁, h₁, h₂⟩ := bind_ok.mp h
  exact hT s s₁ s' (hx s a s₁ h₁) (hf a s₁ b s' h₂)

theorem next [IsTrans σ R] (hx : Leads R x) (hf : ∀ a, Leads R (f a)) : Leads R (x >>= f) :=
  hx.bind hf fun _ _ _ h₁ h₂ => IsTrans.trans _ _ _ h₁ h₂

theorem ite {p : Prop} [Decidable p] (hx : p → Leads R x) (hy : ¬ p → Leads R y) :
    Leads R (if p then x else y) := by
  split
  · next h => exact hx h
  · next h => exact hy h

theorem mono (h : Leads R x) (hRS : ∀ s s', R s s' → S s s') : Leads S x :=
  fun s a s' hs => hRS s s' (h s a s' hs)

end Leads

end Nimbus
