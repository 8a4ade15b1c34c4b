import Mathlib.Order.Interval.Finset.Nat

/-!
# Robin-hood tables

Entries in a ring of slots, each of them at its home or behind it, so that an entry is never
further from its home than one step more than the entry before it. A search from the home of an
entry passes no free slot, and none whose entry is nearer to its own home.
-/

namespace Nimbus.RobinHood

open Function

/-! ## Slots -/

/-- The slot after a slot. -/
def succ (n i : Nat) : Nat := (i + 1) % n

/-- The slot that a search from `home` looks at after `j` others. -/
def slot (n home j : Nat) : Nat := (home + j) % n

/-- How far a slot is behind `home`. -/
def dist (n home i : Nat) : Nat := (i + (n - home % n)) % n

section
variable {n home i j : Nat}

theorem succ_of_lt (hi : i < n) : succ n i = if i + 1 = n then 0 else i + 1 := by
  unfold succ
  split
  · rename_i h
    rw [h, Nat.mod_self]
  · exact Nat.mod_eq_of_lt (by omega)

theorem succ_lt (hi : i < n) : succ n i < n := Nat.mod_lt _ (by omega)

theorem slot_lt (hn : 0 < n) : slot n home j < n := Nat.mod_lt _ hn

theorem dist_lt (hn : 0 < n) : dist n home i < n := Nat.mod_lt _ hn

theorem dist_of_lt (hi : i < n) :
    dist n home i = if home % n ≤ i then i - home % n else i + n - home % n := by
  have hhome : home % n < n := Nat.mod_lt _ (by omega)
  unfold dist
  split
  · rw [show i + (n - home % n) = i - home % n + n by omega, Nat.add_mod_right,
      Nat.mod_eq_of_lt (by omega)]
  · rw [Nat.mod_eq_of_lt (by omega)]
    omega

/-- One step further, or home again. -/
theorem dist_succ (hi : i < n) :
    dist n home (succ n i) = if dist n home i + 1 = n then 0 else dist n home i + 1 := by
  have hhome : home % n < n := Nat.mod_lt _ (by omega)
  rw [dist_of_lt (succ_lt hi), dist_of_lt hi, succ_of_lt hi]
  split_ifs
  all_goals omega

theorem slot_dist (hi : i < n) : slot n home (dist n home i) = i := by
  have hhome : home % n < n := Nat.mod_lt _ (by omega)
  rw [slot, ← Nat.mod_add_mod, dist_of_lt hi]
  split
  · rw [show home % n + (i - home % n) = i by omega, Nat.mod_eq_of_lt hi]
  · rw [show home % n + (i + n - home % n) = i + n by omega, Nat.add_mod_right,
      Nat.mod_eq_of_lt hi]

theorem dist_slot (hj : j < n) : dist n home (slot n home j) = j := by
  have hhome : home % n < n := Nat.mod_lt _ (by omega)
  have hslot : slot n home j = if home % n + j < n then home % n + j else home % n + j - n := by
    rw [slot, ← Nat.mod_add_mod]
    split
    · exact Nat.mod_eq_of_lt (by assumption)
    · rw [Nat.mod_eq_sub_mod (by omega), Nat.mod_eq_of_lt (by omega)]
  rw [dist_of_lt (slot_lt (by omega)), hslot]
  split_ifs
  all_goals omega

theorem succ_slot : succ n (slot n home j) = slot n home (j + 1) := by
  rw [succ, slot, slot, Nat.mod_add_mod, Nat.add_assoc]

theorem succ_ne (hi : i < n) (hn : 2 ≤ n) : succ n i ≠ i := by
  rw [succ_of_lt hi]
  split
  all_goals omega

theorem succ_inj (hi : i < n) (hj : j < n) (h : succ n i = succ n j) : i = j := by
  rw [succ_of_lt hi, succ_of_lt hj] at h
  split_ifs at h
  all_goals omega

end

/-! ## Tables -/

section
variable {E : Type} {n : Nat} {home : E → Nat} {s : Nat → Option E} {i : Nat}

/-- An entry that is not at home is at most one step further than the entry before it. -/
def Near (n : Nat) (home : E → Nat) (s : Nat → Option E) : Prop :=
  ∀ i < n, ∀ e, s (succ n i) = some e → 0 < dist n (home e) (succ n i) →
    ∃ f, s i = some f ∧ dist n (home e) (succ n i) ≤ dist n (home f) i + 1

/-- The entries in all slots but one. -/
def StoredBut (n : Nat) (s : Nat → Option E) (hole : Nat) (e : E) : Prop :=
  ∃ i < n, i ≠ hole ∧ s i = some e

def Stored (n : Nat) (s : Nat → Option E) (e : E) : Prop := ∃ i < n, s i = some e

/-- No entry is in two slots, one slot left aside. -/
def OnceBut (n : Nat) (s : Nat → Option E) (hole : Nat) : Prop :=
  ∀ i < n, ∀ j < n, i ≠ hole → j ≠ hole → ∀ e, s i = some e → s j = some e → i = j

def Once (n : Nat) (s : Nat → Option E) : Prop :=
  ∀ i < n, ∀ j < n, ∀ e, s i = some e → s j = some e → i = j

variable {e : E}

/-- On the way from its home to an entry, the entries are at least as far from their homes as the
search is. -/
theorem Near.passes (h : Near n home s) (hi : i < n) (he : s i = some e) {j : Nat}
    (hj : j ≤ dist n (home e) i) :
    ∃ f, s (slot n (home e) j) = some f ∧ j ≤ dist n (home f) (slot n (home e) j) := by
  have hn : 0 < n := by omega
  -- back from the slot of the entry
  induction hk : dist n (home e) i - j generalizing j with
  | zero =>
    have hij : j = dist n (home e) i := by omega
    rw [hij, slot_dist hi]
    exact ⟨e, he, Nat.le_refl _⟩
  | succ k ih =>
    obtain ⟨f, hf, hdist⟩ := ih (j := j + 1) (by omega) (by omega)
    rw [← succ_slot] at hf hdist
    obtain ⟨g, hg, hle⟩ := h _ (slot_lt hn) f hf (by omega)
    exact ⟨g, hg, by omega⟩

/-- With a free slot, no entry has gone around. -/
theorem Near.dist_succ_lt (h : Near n home s) (hi : i < n) (he : s i = some e) {q : Nat}
    (hq : q < n) (hfree : s q = none) : dist n (home e) i + 1 < n := by
  by_contra hge
  have hj : dist n (home e) q ≤ dist n (home e) i := by
    have hlt : dist n (home e) q < n := dist_lt (by omega)
    omega
  obtain ⟨f, hf, -⟩ := h.passes hi he hj
  rw [slot_dist hq, hfree] at hf
  cases hf

/-! ## Insertion -/

/-- An entry on its way to a slot, which may be put into the next one. -/
structure Carried (n : Nat) (home : E → Nat) (s : Nat → Option E) (i : Nat) (e : E) : Prop where
  near : ∀ p < n, succ n p = i → 0 < dist n (home e) i →
    ∃ f, s p = some f ∧ dist n (home e) i ≤ dist n (home f) p + 1
  fresh : ¬ Stored n s e

theorem Carried.at_home (hn : 0 < n) (hfresh : ¬ Stored n s e) :
    Carried n home s (slot n (home e) 0) e where
  near p hp _ hpos := by
    rw [dist_slot hn] at hpos
    omega
  fresh := hfresh

theorem update_some_iff {i j : Nat} {o : Option E} :
    update s i o j = some e ↔ (j = i ∧ o = some e) ∨ (j ≠ i ∧ s j = some e) := by
  by_cases hj : j = i
  · subst hj
    simp
  · simp [hj]

section

variable (h : Near n home s) (hn : 2 ≤ n) (hi : i < n)
include h hn hi

/-- An entry goes into a slot, next to an entry that is not far from it. -/
theorem Near.put (hcarried : Carried n home s i e)
    (hafter : ∀ f, s (succ n i) = some f → 0 < dist n (home f) (succ n i) →
      dist n (home f) (succ n i) ≤ dist n (home e) i + 1) :
    Near n home (update s i (some e)) := by
  intro p hp f hf hpos
  rcases update_some_iff.mp hf with ⟨hpi, hef⟩ | ⟨hpi, hf'⟩
  · -- the entry itself
    obtain rfl := Option.some.inj hef
    rw [hpi] at hpos ⊢
    obtain ⟨g, hg, hle⟩ := hcarried.near p hp hpi hpos
    have hpi' : p ≠ i := fun h => succ_ne hi hn (h ▸ hpi)
    exact ⟨g, update_some_iff.mpr (.inr ⟨hpi', hg⟩), hle⟩
  · by_cases heq : p = i
    · subst heq
      exact ⟨e, update_some_iff.mpr (.inl ⟨rfl, rfl⟩), hafter f hf' hpos⟩
    · obtain ⟨g, hg, hle⟩ := h p hp f hf' hpos
      exact ⟨g, update_some_iff.mpr (.inr ⟨heq, hg⟩), hle⟩

/-- The end of an insertion, in a free slot. -/
theorem Near.place (hcarried : Carried n home s i e) (hfree : s i = none) :
    Near n home (update s i (some e)) := by
  refine h.put hn hi hcarried fun f hf hpos => ?_
  obtain ⟨g, hg, -⟩ := h i hi f hf hpos
  rw [hfree] at hg
  cases hg

/-- An entry takes the slot of one that is nearer to its home. -/
theorem Near.swap {b : E} (hcarried : Carried n home s i e) (hb : s i = some b)
    (hlt : dist n (home b) i < dist n (home e) i) : Near n home (update s i (some e)) := by
  refine h.put hn hi hcarried fun f hf hpos => ?_
  obtain ⟨g, hg, hle⟩ := h i hi f hf hpos
  rw [hb] at hg
  obtain rfl := Option.some.inj hg
  omega

end

theorem stored_update {i : Nat} (hi : i < n) {x : E} :
    Stored n (update s i (some e)) x ↔ x = e ∨ StoredBut n s i x := by
  constructor
  · rintro ⟨j, hj, hx⟩
    rcases update_some_iff.mp hx with ⟨-, hex⟩ | ⟨hji, hx⟩
    · exact .inl (Option.some.inj hex).symm
    · exact .inr ⟨j, hj, hji, hx⟩
  · rintro (rfl | ⟨j, hj, hji, hx⟩)
    · exact ⟨i, hi, update_some_iff.mpr (.inl ⟨rfl, rfl⟩)⟩
    · exact ⟨j, hj, update_some_iff.mpr (.inr ⟨hji, hx⟩)⟩

theorem stored_iff_but {i : Nat} (hi : i < n) {x : E} :
    Stored n s x ↔ s i = some x ∨ StoredBut n s i x := by
  constructor
  · rintro ⟨j, hj, hx⟩
    by_cases hji : j = i
    · exact .inl (hji ▸ hx)
    · exact .inr ⟨j, hj, hji, hx⟩
  · rintro (hx | ⟨j, hj, -, hx⟩)
    · exact ⟨i, hi, hx⟩
    · exact ⟨j, hj, hx⟩

theorem Once.update (h : Once n s) {i : Nat} (hfresh : ¬ StoredBut n s i e) :
    Once n (update s i (some e)) := by
  intro j hj k hk x hx hx'
  rcases update_some_iff.mp hx with ⟨hji, hex⟩ | ⟨hji, hx⟩
  · obtain rfl := Option.some.inj hex
    rcases update_some_iff.mp hx' with ⟨hki, -⟩ | ⟨hki, hx'⟩
    · rw [hji, hki]
    · exact absurd ⟨k, hk, hki, hx'⟩ hfresh
  · rcases update_some_iff.mp hx' with ⟨hki, hex⟩ | ⟨hki, hx'⟩
    · obtain rfl := Option.some.inj hex
      exact absurd ⟨j, hj, hji, hx⟩ hfresh
    · exact h j hj k hk x hx hx'

/-- The entry that lost its slot goes on from there. -/
theorem Carried.swapped (honce : Once n s) (hi : i < n) {b : E}
    (hcarried : Carried n home s i e) (hb : s i = some b)
    (hlt : dist n (home b) i < dist n (home e) i) :
    Carried n home (update s i (some e)) (succ n i) b where
  near p hp hpi hpos := by
    obtain rfl := succ_inj hp hi hpi
    refine ⟨e, update_some_iff.mpr (.inl ⟨rfl, rfl⟩), ?_⟩
    rw [dist_succ hp] at hpos ⊢
    split at hpos
    · omega
    · rename_i hne
      rw [if_neg hne]
      omega
  fresh hstored := by
    rcases (stored_update hi).mp hstored with rfl | ⟨j, hj, hji, hbj⟩
    · exact hcarried.fresh ⟨i, hi, hb⟩
    · exact hji (honce j hj i hi b hbj hb)

/-- An entry that is nearer to its home passes by. -/
theorem Carried.skip (hi : i < n) {b : E} (hcarried : Carried n home s i e) (hb : s i = some b)
    (hle : dist n (home e) i ≤ dist n (home b) i) : Carried n home s (succ n i) e where
  near p hp hpi hpos := by
    obtain rfl := succ_inj hp hi hpi
    refine ⟨b, hb, ?_⟩
    rw [dist_succ hp] at hpos ⊢
    split at hpos
    · omega
    · rename_i hne
      rw [if_neg hne]
      omega
  fresh := hcarried.fresh

/-! ## Deletion -/

/-- The entry of the next slot is put back by one. -/
theorem Near.shift (h : Near n home s) (hn : 2 ≤ n) (hi : i < n) {f : E}
    (hf : s (succ n i) = some f) (hpos : 0 < dist n (home f) (succ n i)) :
    Near n home (update s i (some f)) := by
  obtain ⟨g, hg, hle⟩ := h i hi f hf hpos
  have hdist : dist n (home f) (succ n i) = dist n (home f) i + 1 := by
    rw [dist_succ hi] at hpos ⊢
    split at hpos
    · omega
    · rename_i hne
      exact if_neg hne
  intro p hp x hx hxpos
  rcases update_some_iff.mp hx with ⟨hpi, hfx⟩ | ⟨hpi, hx'⟩
  · -- what is before the slot was near to the entry that has gone
    obtain rfl := Option.some.inj hfx
    rw [hpi] at hxpos ⊢
    obtain ⟨y, hy, hyle⟩ := h p hp g (hpi ▸ hg) (by rw [hpi]; omega)
    have hpi' : p ≠ i := fun h => succ_ne hi hn (h ▸ hpi)
    rw [hpi] at hyle
    exact ⟨y, update_some_iff.mpr (.inr ⟨hpi', hy⟩), by omega⟩
  · by_cases heq : p = i
    · subst heq
      rw [hf] at hx'
      obtain rfl := Option.some.inj hx'
      exact ⟨f, update_some_iff.mpr (.inl ⟨rfl, rfl⟩), by omega⟩
    · obtain ⟨y, hy, hyle⟩ := h p hp x hx' hxpos
      exact ⟨y, update_some_iff.mpr (.inr ⟨heq, hy⟩), hyle⟩

/-- The slot is made free, with nothing behind it that could go back. -/
theorem Near.clear (h : Near n home s)
    (hafter : ∀ f, s (succ n i) = some f → dist n (home f) (succ n i) = 0) :
    Near n home (update s i none) := by
  intro p hp x hx hpos
  rcases update_some_iff.mp hx with ⟨-, hnone⟩ | ⟨-, hx'⟩
  · cases hnone
  · by_cases heq : p = i
    · subst heq
      have := hafter x hx'
      omega
    · obtain ⟨y, hy, hyle⟩ := h p hp x hx' hpos
      exact ⟨y, update_some_iff.mpr (.inr ⟨heq, hy⟩), hyle⟩

theorem storedBut_shift (hn : 2 ≤ n) (hi : i < n) {f : E} (hf : s (succ n i) = some f) {x : E} :
    StoredBut n (update s i (some f)) (succ n i) x ↔ StoredBut n s i x := by
  have hne := succ_ne hi hn
  constructor
  · rintro ⟨j, hj, hji, hx⟩
    rcases update_some_iff.mp hx with ⟨-, hfx⟩ | ⟨hji', hx⟩
    · exact ⟨succ n i, succ_lt hi, hne, hfx ▸ hf⟩
    · exact ⟨j, hj, hji', hx⟩
  · rintro ⟨j, hj, hji, hx⟩
    by_cases hjs : j = succ n i
    · rw [hjs, hf] at hx
      exact ⟨i, hi, hne.symm, update_some_iff.mpr (.inl ⟨rfl, hx⟩)⟩
    · exact ⟨j, hj, hjs, update_some_iff.mpr (.inr ⟨hji, hx⟩)⟩

theorem OnceBut.shift (h : OnceBut n s i) (hn : 2 ≤ n) (hi : i < n) {f : E}
    (hf : s (succ n i) = some f) : OnceBut n (update s i (some f)) (succ n i) := by
  have hne := succ_ne hi hn
  intro j hj k hk hjs hks x hx hx'
  rcases update_some_iff.mp hx with ⟨hji, hfx⟩ | ⟨hji, hx⟩
  · rcases update_some_iff.mp hx' with ⟨hki, -⟩ | ⟨hki, hx'⟩
    · rw [hji, hki]
    · exact absurd (h k hk _ (succ_lt hi) hki hne x hx' (hfx ▸ hf)) hks
  · rcases update_some_iff.mp hx' with ⟨hki, hfx⟩ | ⟨hki, hx'⟩
    · exact absurd (h j hj _ (succ_lt hi) hji hne x hx (hfx ▸ hf)) hjs
    · exact h j hj k hk hji hki x hx hx'

theorem stored_clear {x : E} : Stored n (update s i none) x ↔ StoredBut n s i x := by
  constructor
  · rintro ⟨j, hj, hx⟩
    rcases update_some_iff.mp hx with ⟨-, hnone⟩ | ⟨hji, hx⟩
    · cases hnone
    · exact ⟨j, hj, hji, hx⟩
  · rintro ⟨j, hj, hji, hx⟩
    exact ⟨j, hj, update_some_iff.mpr (.inr ⟨hji, hx⟩)⟩

theorem OnceBut.clear (h : OnceBut n s i) : Once n (update s i none) := by
  intro j hj k hk x hx hx'
  rcases update_some_iff.mp hx with ⟨-, hnone⟩ | ⟨hji, hx⟩
  · cases hnone
  · rcases update_some_iff.mp hx' with ⟨-, hnone⟩ | ⟨hki, hx'⟩
    · cases hnone
    · exact h j hj k hk hji hki x hx hx'

theorem Once.but (h : Once n s) (i : Nat) : OnceBut n s i :=
  fun j hj k hk _ _ => h j hj k hk

/-- Without the entry in one slot, every other entry is still there. -/
theorem Once.storedBut_iff (h : Once n s) (hi : i < n) (he : s i = some e) {x : E} :
    StoredBut n s i x ↔ Stored n s x ∧ x ≠ e := by
  constructor
  · rintro ⟨j, hj, hji, hx⟩
    refine ⟨⟨j, hj, hx⟩, ?_⟩
    rintro rfl
    exact hji (h j hj i hi x hx he)
  · rintro ⟨⟨j, hj, hx⟩, hne⟩
    refine ⟨j, hj, ?_, hx⟩
    rintro rfl
    exact hne (Option.some.inj (hx.symm.trans he))

/-! ## Room -/

/-- A free slot is at most that many slots away. -/
def Gap (n : Nat) (s : Nat → Option E) (i fuel : Nat) : Prop :=
  ∃ t < fuel, s (slot n i t) = none

theorem gap_of_free {q : Nat} (hq : q < n) (hfree : s q = none) (i : Nat) : Gap n s i n := by
  refine ⟨dist n i q, dist_lt (by omega), ?_⟩
  rwa [slot_dist hq]

/-- It is nearer to the next slot, whatever is put into this one. -/
theorem Gap.step {fuel : Nat} (h : Gap n s i (fuel + 1)) (hi : i < n) {b : E} (hb : s i = some b)
    (o : Option E) : Gap n (update s i o) (succ n i) fuel := by
  obtain ⟨t, ht, hfree⟩ := h
  cases t with
  | zero =>
    rw [slot, Nat.add_zero, Nat.mod_eq_of_lt hi, hb] at hfree
    cases hfree
  | succ t =>
    have hslot : slot n (succ n i) t = slot n i (t + 1) := by
      rw [slot, succ, slot, Nat.mod_add_mod, Nat.add_assoc, Nat.add_comm 1 t]
    refine ⟨t, by omega, ?_⟩
    rw [hslot, update_of_ne, hfree]
    intro heq
    rw [heq, hb] at hfree
    cases hfree

/-- If the entries have names of their own below `n`, and 0 is not one of them, a slot is free. -/
theorem exists_free (hn : 0 < n) (name : E → Nat)
    (hname : ∀ i < n, ∀ e, s i = some e → 0 < name e ∧ name e < n)
    (hinj : ∀ i < n, ∀ j < n, ∀ e f, s i = some e → s j = some f → name e = name f → i = j) :
    ∃ q < n, s q = none := by
  by_contra hfull
  have hall (i : Nat) (hi : i < n) : ∃ e, s i = some e := by
    rcases he : s i with _ | e
    · exact absurd ⟨i, hi, he⟩ hfull
    · exact ⟨e, rfl⟩
  obtain ⟨first, -⟩ := hall 0 hn
  have : Nonempty E := ⟨first⟩
  choose! e he using hall
  have hmap : Set.MapsTo (fun i => name (e i)) (Finset.range n) (Finset.Ico 1 n) := by
    intro i hi
    have hi := Finset.mem_range.mp hi
    obtain ⟨hpos, hlt⟩ := hname i hi _ (he i hi)
    exact Finset.mem_coe.mpr (Finset.mem_Ico.mpr ⟨hpos, hlt⟩)
  have hon : Set.InjOn (fun i => name (e i)) (Finset.range n) := by
    intro i hi j hj hij
    have hi := Finset.mem_range.mp hi
    have hj := Finset.mem_range.mp hj
    exact hinj i hi j hj _ _ (he i hi) (he j hj) hij
  have hcard := Finset.card_le_card_of_injOn _ hmap hon
  rw [Finset.card_range, Nat.card_Ico] at hcard
  omega

end

end Nimbus.RobinHood
