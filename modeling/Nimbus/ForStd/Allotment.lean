import Mathlib.Data.Set.Basic

/-!
# Allotments: every point of a region has one owner

When work is handed out to parties that run at the same time, every piece of it must be in
one place at any moment: still to do, in the hands of one party, or waiting for its turn.
`Allotted region owns` says this of a region of points and a family of owners. The rules
say how an allotment goes on when points move from one owner to another (`move`), when they
are done with and leave the region (`drop`), or when the region grows (`grow`).
-/

universe u v

/-- Every point of the region has exactly one owner, and no other point has any. -/
structure Allotted {α : Type u} {ι : Type v} (region : Set α) (owns : ι → α → Prop) : Prop where
  mem_iff : ∀ n, n ∈ region ↔ ∃ i, owns i n
  unique : ∀ {n i j}, owns i n → owns j n → i = j

namespace Allotted

variable {α : Type u} {ι : Type v} {region region' : Set α} {owns owns' : ι → α → Prop} {i j : ι}

theorem mem (h : Allotted region owns) {n : α} (hi : owns i n) : n ∈ region :=
  (h.mem_iff n).mpr ⟨i, hi⟩

theorem not_owns (h : Allotted region owns) {n : α} (hi : owns i n) (hne : j ≠ i) :
    ¬ owns j n := fun hj => hne (h.unique hj hi)

/-- At the start one owner has all of the region. -/
theorem single (hi : ∀ n, owns i n ↔ n ∈ region) (hother : ∀ k, k ≠ i → ∀ n, ¬ owns k n) :
    Allotted region owns where
  mem_iff n := by
    constructor
    · intro hn
      exact ⟨i, (hi n).mpr hn⟩
    · rintro ⟨k, hk⟩
      by_cases heq : k = i
      · exact (hi n).mp (heq ▸ hk)
      · exact absurd hk (hother k heq n)
  unique := by
    intro n k l hk hl
    have hki : k = i := by
      by_contra hne
      exact hother k hne n hk
    have hli : l = i := by
      by_contra hne
      exact hother l hne n hl
    exact hki.trans hli.symm

section

variable (h : Allotted region owns)
include h

/-- The same owners under another description of what they own. -/
theorem congr (heq : ∀ k n, owns' k n ↔ owns k n) : Allotted region owns' where
  mem_iff n := (h.mem_iff n).trans (exists_congr fun k => (heq k n).symm)
  unique hk hl := h.unique ((heq _ _).mp hk) ((heq _ _).mp hl)

/-- The points of `part` pass from `i` to `j`. -/
theorem move (hij : i ≠ j) (part : α → Prop)
    (hpart : ∀ n, part n → owns i n) (hi : ∀ n, owns' i n ↔ owns i n ∧ ¬ part n)
    (hj : ∀ n, owns' j n ↔ part n ∨ owns j n)
    (hother : ∀ k, k ≠ i → k ≠ j → ∀ n, owns' k n ↔ owns k n) : Allotted region owns' := by
  -- a point of `part` is now owned by `j` alone, any other one as before
  have hin : ∀ n k, part n → (owns' k n ↔ k = j) := by
    intro n k hn
    by_cases hkj : k = j
    · subst hkj
      exact iff_of_true ((hj n).mpr (.inl hn)) rfl
    · by_cases hki : k = i
      · subst hki
        exact iff_of_false (fun hk => ((hi n).mp hk).2 hn) hkj
      · exact iff_of_false
          (fun hk => h.not_owns (hpart n hn) hki ((hother k hki hkj n).mp hk)) hkj
  have hout : ∀ n k, ¬ part n → (owns' k n ↔ owns k n) := by
    intro n k hn
    by_cases hkj : k = j
    · subst hkj
      rw [hj]
      exact or_iff_right hn
    · by_cases hki : k = i
      · subst hki
        rw [hi]
        exact and_iff_left hn
      · exact hother k hki hkj n
  constructor
  · intro n
    by_cases hn : part n
    · exact iff_of_true (h.mem (hpart n hn)) ⟨j, (hin n j hn).mpr rfl⟩
    · rw [h.mem_iff]
      exact exists_congr fun k => (hout n k hn).symm
  · intro n k l hk hl
    by_cases hn : part n
    · exact ((hin n k hn).mp hk).trans ((hin n l hn).mp hl).symm
    · exact h.unique ((hout n k hn).mp hk) ((hout n l hn).mp hl)

theorem drop (part : α → Prop) (hpart : ∀ n, part n → owns i n)
    (hregion : ∀ n, n ∈ region' ↔ n ∈ region ∧ ¬ part n) (hi : ∀ n, owns' i n ↔ owns i n ∧ ¬ part n)
    (hother : ∀ k, k ≠ i → ∀ n, owns' k n ↔ owns k n) : Allotted region' owns' := by
  have howns : ∀ n k, owns' k n ↔ owns k n ∧ ¬ part n := by
    intro n k
    by_cases hki : k = i
    · subst hki
      exact hi n
    · rw [hother k hki]
      exact iff_self_and.mpr fun hk hn => h.not_owns (hpart n hn) hki hk
  constructor
  · intro n
    rw [hregion, h.mem_iff]
    simp only [howns, exists_and_right]
  · intro n k l hk hl
    exact h.unique ((howns n k).mp hk).1 ((howns n l).mp hl).1

/-- Points from outside join the region, all of them owned by `i`. -/
theorem grow (part : α → Prop) (hpart : ∀ n, part n → n ∉ region)
    (hregion : ∀ n, n ∈ region' ↔ part n ∨ n ∈ region) (hi : ∀ n, owns' i n ↔ part n ∨ owns i n)
    (hother : ∀ k, k ≠ i → ∀ n, owns' k n ↔ owns k n) : Allotted region' owns' := by
  have hin : ∀ n k, part n → (owns' k n ↔ k = i) := by
    intro n k hn
    by_cases hki : k = i
    · subst hki
      exact iff_of_true ((hi n).mpr (.inl hn)) rfl
    · exact iff_of_false (fun hk => hpart n hn (h.mem ((hother k hki n).mp hk))) hki
  have hout : ∀ n k, ¬ part n → (owns' k n ↔ owns k n) := by
    intro n k hn
    by_cases hki : k = i
    · subst hki
      rw [hi]
      exact or_iff_right hn
    · exact hother k hki n
  constructor
  · intro n
    rw [hregion]
    by_cases hn : part n
    · exact iff_of_true (.inl hn) ⟨i, (hin n i hn).mpr rfl⟩
    · rw [or_iff_right hn, h.mem_iff]
      exact exists_congr fun k => (hout n k hn).symm
  · intro n k l hk hl
    by_cases hn : part n
    · exact ((hin n k hn).mp hk).trans ((hin n l hn).mp hl).symm
    · exact h.unique ((hout n k hn).mp hk) ((hout n l hn).mp hl)

end

end Allotted
