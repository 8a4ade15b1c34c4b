import Mathlib.Logic.Relation
import Mathlib.Data.List.Basic

/-!
# Forests given by parent pointers

A forest on natural numbers is a partial function `par`, the parent of each node. When
every parent is smaller than its child the ancestor chain of a node is finite, and
`chain` computes it with the node's own number as fuel.
-/

namespace ParentTree

variable {par par' : Nat → Option Nat}

/-- `Anc par i a`: the node `a` is `i` or an ancestor of `i`. -/
def Anc (par : Nat → Option Nat) : Nat → Nat → Prop :=
  Relation.ReflTransGen fun x y => par x = some y

/-- Every parent is smaller than its child. -/
def Decreasing (par : Nat → Option Nat) : Prop :=
  ∀ i p, par i = some p → p < i

/-- The ancestor chain of `start`, from the node itself upwards. -/
def chain (par : Nat → Option Nat) : Nat → Option Nat → List Nat
  | 0, _ => []
  | _ + 1, none => []
  | fuel + 1, some i => i :: chain par fuel (par i)

@[refl] theorem Anc.refl (i : Nat) : Anc par i i := Relation.ReflTransGen.refl

variable {i : Nat}

theorem Anc.trans {j k : Nat} (hij : Anc par i j) (hjk : Anc par j k) : Anc par i k :=
  Relation.ReflTransGen.trans hij hjk

theorem Anc.parent {p : Nat} (h : par i = some p) : Anc par i p :=
  Relation.ReflTransGen.single h

variable {a : Nat}

theorem Anc.head {p : Nat} (h : par i = some p) (hp : Anc par p a) : Anc par i a :=
  Relation.ReflTransGen.head h hp

theorem Anc.tail {p : Nat} (h : Anc par i a) (hp : par a = some p) : Anc par i p :=
  Relation.ReflTransGen.tail h hp

/-- An ancestor of `i` other than `i` is an ancestor of the parent of `i`. -/
theorem Anc.cases_parent (h : Anc par i a) : i = a ∨ ∃ p, par i = some p ∧ Anc par p a := by
  rcases Relation.ReflTransGen.cases_head h with rfl | ⟨p, hp, hpa⟩
  · exact .inl rfl
  · exact .inr ⟨p, hp, hpa⟩

theorem Anc.of_ne {p : Nat} (h : Anc par i a) (hne : i ≠ a) (hp : par i = some p) :
    Anc par p a := by
  rcases h.cases_parent with rfl | ⟨q, hq, hqa⟩
  · exact absurd rfl hne
  · rw [hp] at hq
    cases hq
    exact hqa

/-- A proper ancestor of `i` has a child on the way to `i`. -/
theorem Anc.cases_child (h : Anc par i a) (hne : i ≠ a) : ∃ d, Anc par i d ∧ par d = some a := by
  rcases Relation.ReflTransGen.cases_tail h with heq | ⟨d, hid, hda⟩
  · exact absurd heq.symm hne
  · exact ⟨d, hid, hda⟩

/-- A node without a parent is its own only ancestor. -/
theorem Anc.eq_of_root (h : Anc par i a) (hi : par i = none) : i = a := by
  rcases h.cases_parent with rfl | ⟨p, hp, _⟩
  · rfl
  · rw [hi] at hp
    cases hp

theorem Anc.le (hd : Decreasing par) (h : Anc par i a) : a ≤ i := by
  induction h with
  | refl => exact Nat.le_refl _
  | tail _ hp ih => exact Nat.le_trans (Nat.le_of_lt (hd _ _ hp)) ih

theorem Anc.antisymm (hd : Decreasing par) (h : Anc par i a) (h' : Anc par a i) : i = a :=
  Nat.le_antisymm (h'.le hd) (h.le hd)

theorem Anc.total {b : Nat} (ha : Anc par i a) (hb : Anc par i b) : Anc par a b ∨ Anc par b a := by
  refine Relation.ReflTransGen.total_of_right_unique ?_ ha hb
  intro x y z hy hz
  rw [hy] at hz
  exact Option.some.inj hz

/-- A property that passes from child to parent holds of every ancestor. -/
theorem Anc.of_step {P : Nat → Prop} (hstep : ∀ i p, P i → par i = some p → P p)
    (h : Anc par i a) (hi : P i) : P a := by
  induction h with
  | refl => exact hi
  | tail _ hp ih => exact hstep _ _ ih hp

/-- An ancestor path in `par` is one in `par'` when the two agree on every node of the
path that the path leaves upwards. -/
theorem Anc.congr {P : Nat → Prop} (hstep : ∀ i p, P i → par i = some p → P p)
    (hsame : ∀ i p, P i → par i = some p → par' i = some p)
    (h : Anc par i a) (hi : P i) : Anc par' i a := by
  induction h with
  | refl => exact Anc.refl _
  | @tail b c hb hp ih => exact ih.tail (hsame b c (Anc.of_step hstep hb hi) hp)

/-- Cutting parents off loses ancestor paths but never makes new ones. -/
theorem Anc.mono (hsub : ∀ i p, par' i = some p → par i = some p)
    (h : Anc par' i a) : Anc par i a := by
  induction h with
  | refl => exact Anc.refl _
  | tail _ hp ih => exact ih.tail (hsub _ _ hp)

/-! ## The computed chain -/

@[simp] theorem chain_none (fuel : Nat) : chain par fuel none = [] := by
  cases fuel <;> rfl

variable {fuel : Nat}

theorem anc_of_mem_chain (h : a ∈ chain par fuel (some i)) : Anc par i a := by
  induction fuel generalizing i with
  | zero => simp [chain] at h
  | succ fuel ih =>
    simp only [chain, List.mem_cons] at h
    rcases h with rfl | h
    · exact Anc.refl _
    · cases hp : par i with
      | none => simp [hp] at h
      | some p =>
        rw [hp] at h
        exact Anc.head hp (ih h)

theorem mem_chain_of_anc (hd : Decreasing par) (hf : i < fuel)
    (h : Anc par i a) : a ∈ chain par fuel (some i) := by
  induction fuel generalizing i with
  | zero => omega
  | succ fuel ih =>
    simp only [chain, List.mem_cons]
    rcases h.cases_parent with rfl | ⟨p, hp, hpa⟩
    · exact .inl rfl
    · have hlt := hd i p hp
      rw [hp]
      exact .inr (ih (by omega) hpa)

/-- With fuel for its number, the chain of a node lists exactly its ancestors. -/
theorem mem_chain_iff (hd : Decreasing par) (hf : i < fuel) :
    a ∈ chain par fuel (some i) ↔ Anc par i a :=
  ⟨anc_of_mem_chain, mem_chain_of_anc hd hf⟩

theorem nodup_chain (hd : Decreasing par) (fuel : Nat) (start : Option Nat) :
    (chain par fuel start).Nodup := by
  induction fuel generalizing start with
  | zero => simp [chain]
  | succ fuel ih =>
    cases start with
    | none => simp
    | some i =>
      simp only [chain, List.nodup_cons]
      refine ⟨fun hmem => ?_, ih _⟩
      cases hp : par i with
      | none => simp [hp] at hmem
      | some p =>
        rw [hp] at hmem
        have hle := (anc_of_mem_chain hmem).le hd
        have hlt := hd i p hp
        omega

/-- A chain depends only on the parents of the nodes it visits. -/
theorem chain_congr {start : Option Nat}
    (h : ∀ i ∈ chain par fuel start, par' i = par i) :
    chain par' fuel start = chain par fuel start := by
  induction fuel generalizing start with
  | zero => rfl
  | succ fuel ih =>
    cases start with
    | none => rfl
    | some i =>
      simp only [chain, List.mem_cons, forall_eq_or_imp] at h ⊢
      rw [h.1, ih h.2]

end ParentTree
