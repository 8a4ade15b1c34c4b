import Nimbus.ForStd.Meets

/-!
# Programs that keep a relation

A program keeps a preorder on states if it leads from every state to one that is above it,
whether it returns or fails. Programs put together from such programs do, too.

`Yields` also says what is returned, and `Returns` is for the programs that do not fail.
-/

namespace Nimbus

variable {ε σ α β : Type}

def Keeps (R : σ → σ → Prop) (x : EStateM ε σ α) : Prop :=
  ∀ s, Meets x s (fun _ => R s) fun _ => R s

namespace Keeps

variable {R : σ → σ → Prop} {x y : EStateM ε σ α} {f : α → EStateM ε σ β} {s : σ}

theorem pure [Std.Refl R] (a : α) : Keeps R (Pure.pure a : EStateM ε σ α) := refl

theorem throw [Std.Refl R] (e : ε) : Keeps R (MonadExcept.throw e : EStateM ε σ α) := refl

theorem get [Std.Refl R] : Keeps R (MonadState.get : EStateM ε σ σ) := refl

theorem modify {g : σ → σ} (h : ∀ s, R s (g s)) :
    Keeps R (MonadStateOf.modifyGet fun s => (PUnit.unit, g s) : EStateM ε σ PUnit) := h

theorem bind [IsTrans σ R] (hx : Keeps R x) (hf : ∀ a, Keeps R (f a)) : Keeps R (x >>= f) := by
  intro s
  apply Meets.bind
  apply (hx s).mono
  · intro a s' hs'
    exact (hf a s').mono (fun _ _ h => IsTrans.trans _ _ _ hs' h) fun _ _ h => IsTrans.trans _ _ _ hs' h
  · exact fun _ _ h => h

/-- A branch is only looked at where it is taken. -/
theorem ite {p : Prop} [Decidable p] (hx : p → Keeps R x) (hy : ¬ p → Keeps R y) :
    Keeps R (if p then x else y) := by
  split
  · next h => exact hx h
  · next h => exact hy h

theorem onlyIf [Std.Refl R] {p : Prop} [Decidable p] {z : EStateM ε σ PUnit}
    (h : p → Keeps R z) : Keeps R (if p then z else Pure.pure ⟨⟩) :=
  ite h fun _ => pure _

theorem mono {R' : σ → σ → Prop} (h : Keeps R x) (hR : ∀ s s', R s s' → R' s s') : Keeps R' x :=
  fun s => (h s).mono (fun _ _ h => hR _ _ h) fun _ _ h => hR _ _ h

end Keeps

/-- The program keeps `R`, and what it returns meets `P`. -/
def Yields (R : σ → σ → Prop) (P : α → Prop) (x : EStateM ε σ α) : Prop :=
  ∀ s, Meets x s (fun a s' => P a ∧ R s s') fun _ => R s

namespace Yields

variable {R : σ → σ → Prop} {P : α → Prop} {T : β → Prop} {x y : EStateM ε σ α}
  {f : α → EStateM ε σ β}

theorem pure [Std.Refl R] {a : α} (h : P a) : Yields R P (Pure.pure a : EStateM ε σ α) :=
  fun s => ⟨h, refl s⟩

theorem bind [IsTrans σ R] (hx : Yields R P x) (hf : ∀ a, P a → Yields R T (f a)) :
    Yields R T (x >>= f) := by
  intro s
  apply Meets.bind
  apply (hx s).mono
  · intro a s' hs'
    obtain ⟨ha, hs'⟩ := hs'
    exact (hf a ha s').mono (fun _ _ h => ⟨h.1, IsTrans.trans _ _ _ hs' h.2⟩)
      fun _ _ h => IsTrans.trans _ _ _ hs' h
  · exact fun _ _ h => h

theorem ite {p : Prop} [Decidable p] (hx : p → Yields R P x) (hy : ¬ p → Yields R P y) :
    Yields R P (if p then x else y) := by
  split
  · next h => exact hx h
  · next h => exact hy h

/-- What is returned is known to what follows. -/
theorem keeps_bind [IsTrans σ R] (hx : Yields R P x) (hf : ∀ a, P a → Keeps R (f a)) :
    Keeps R (x >>= f) := by
  intro s
  apply Meets.bind
  apply (hx s).mono
  · intro a s' hs'
    obtain ⟨ha, hs'⟩ := hs'
    exact (hf a ha s').mono (fun _ _ h => IsTrans.trans _ _ _ hs' h)
      fun _ _ h => IsTrans.trans _ _ _ hs' h
  · exact fun _ _ h => h

end Yields

theorem Keeps.yields {R : σ → σ → Prop} {x : EStateM ε σ α} (h : Keeps R x) :
    Yields R (fun _ => True) x :=
  fun s => (h s).mono (fun _ _ h => ⟨trivial, h⟩) fun _ _ h => h

/-- The program returns from every state. -/
def Returns (x : EStateM ε σ α) : Prop := ∀ s, Meets x s (fun _ _ => True) fun _ _ => False

namespace Returns

variable {R : σ → σ → Prop} {x y : EStateM ε σ α} {f : α → EStateM ε σ β} {s : σ}

theorem pure (a : α) : Returns (Pure.pure a : EStateM ε σ α) := fun _ => trivial

theorem modify (g : σ → σ) :
    Returns (MonadStateOf.modifyGet fun s => (PUnit.unit, g s) : EStateM ε σ PUnit) :=
  fun _ => trivial

theorem bind (hx : Returns x) (hf : ∀ a, Returns (f a)) : Returns (x >>= f) := by
  intro s
  apply Meets.bind
  exact (hx s).mono (fun a s' _ => hf a s') fun _ _ h => h

theorem ite {p : Prop} [Decidable p] (hx : Returns x) (hy : Returns y) :
    Returns (if p then x else y) := by
  split
  · exact hx
  · exact hy

/-- A program that returns, and what holds of it when it returns. -/
theorem meets (h : Returns x) {Q : α → σ → Prop} {E : ε → σ → Prop} (hx : Meets x s Q E) :
    Meets x s Q fun _ _ => False := by
  have hs := h s
  unfold Meets at hs hx ⊢
  cases hrun : x s with
  | ok a s' => rw [hrun] at hx; exact hx
  | error e s' => rw [hrun] at hs; exact hs

end Returns

end Nimbus
