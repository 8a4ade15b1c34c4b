import Mathlib.Data.List.Basic

/-!
# A list of entries written into a lookup

A key without an entry keeps its value, and a key whose entries agree gets their value.
-/

namespace Nimbus

open Function

variable {K V : Type*} [DecidableEq K]

/-- The entries are written one after the other. -/
def writeAll (m : K → Option V) (entries : List (K × V)) : K → Option V :=
  entries.foldl (fun m e => update m e.1 (some e.2)) m

variable {m : K → Option V} {entries : List (K × V)} {k : K} {v : V}

theorem writeAll_cons (e : K × V) :
    writeAll m (e :: entries) = writeAll (update m e.1 (some e.2)) entries := rfl

theorem writeAll_append (entries' : List (K × V)) :
    writeAll m (entries ++ entries') = writeAll (writeAll m entries) entries' :=
  List.foldl_append

theorem writeAll_of_not_mem (h : ∀ v, (k, v) ∉ entries) : writeAll m entries k = m k := by
  induction entries generalizing m with
  | nil => rfl
  | cons e entries ih =>
    have hne : k ≠ e.1 := by
      intro heq
      apply h e.2
      rw [heq]
      exact List.mem_cons_self
    rw [writeAll_cons, ih fun v hv => h v (.tail _ hv)]
    exact update_of_ne hne _ _

theorem writeAll_eq_some (h : writeAll m entries k = some v) :
    (k, v) ∈ entries ∨ ((∀ v', (k, v') ∉ entries) ∧ m k = some v) := by
  induction entries generalizing m with
  | nil => exact .inr ⟨fun _ => List.not_mem_nil, h⟩
  | cons e entries ih =>
    rw [writeAll_cons] at h
    rcases ih h with hmem | ⟨hnone, hlook⟩
    · exact .inl (.tail _ hmem)
    · by_cases hk : k = e.1
      · rw [hk, update_self] at hlook
        rw [hk, ← Option.some.inj hlook]
        exact .inl List.mem_cons_self
      · rw [update_of_ne hk] at hlook
        refine .inr ⟨fun v' hv' => ?_, hlook⟩
        rcases List.mem_cons.mp hv' with heq | hmem
        · exact hk (congrArg Prod.fst heq)
        · exact hnone v' hmem

theorem writeAll_of_mem (h : (k, v) ∈ entries) (hval : ∀ v', (k, v') ∈ entries → v' = v) :
    writeAll m entries k = some v := by
  induction entries generalizing m with
  | nil => exact absurd h List.not_mem_nil
  | cons e entries ih =>
    rw [writeAll_cons]
    by_cases hlater : ∃ v', (k, v') ∈ entries
    · obtain ⟨v', hv'⟩ := hlater
      have heq := hval v' (.tail _ hv')
      subst heq
      exact ih hv' fun v'' hv'' => hval v'' (.tail _ hv'')
    · -- the entry is the last one of its key
      have he : (k, v) = e := by
        rcases List.mem_cons.mp h with heq | hmem
        · exact heq
        · exact absurd ⟨v, hmem⟩ hlater
      rw [writeAll_of_not_mem fun v' hv' => hlater ⟨v', hv'⟩, ← he]
      exact update_self _ _ _

theorem writeAll_isSome (h : (m k).isSome) : (writeAll m entries k).isSome := by
  induction entries generalizing m with
  | nil => exact h
  | cons e entries ih =>
    rw [writeAll_cons]
    apply ih
    by_cases hk : k = e.1
    · rw [hk, update_self]
      rfl
    · rw [update_of_ne hk]
      exact h

end Nimbus
