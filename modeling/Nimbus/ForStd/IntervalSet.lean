import Mathlib.Order.Interval.Finset.Nat
import Mathlib.Algebra.GroupWithZero.Nat

/-!
# Sets of numbers as sorted lists of ranges

An `IntervalSet` is a finite set of natural numbers kept as a list of ranges, sorted and
with a gap between any two of them. The list is canonical, so the first range is the one
with the least numbers. Every operation comes with the members of its result, and the
number of members is the sum of the lengths (`card_points`), so that what an operation
reports as added or removed is counted by way of the members.
-/

/-- The numbers from `minPt` to `maxPt`, both included. -/
structure PtRange where
  minPt : Nat
  maxPt : Nat
  min_le : minPt ≤ maxPt
  deriving DecidableEq

namespace PtRange

/-- `new`: the larger end is adjusted when the two are in the wrong order. -/
def new (minPt maxPt : Nat) : PtRange := ⟨minPt, max minPt maxPt, le_max_left _ _⟩

def len (iv : PtRange) : Nat := iv.maxPt - iv.minPt + 1

instance : Membership Nat PtRange where
  mem iv n := iv.minPt ≤ n ∧ n ≤ iv.maxPt

theorem mem_def {iv : PtRange} {n : Nat} : n ∈ iv ↔ iv.minPt ≤ n ∧ n ≤ iv.maxPt := Iff.rfl

instance (iv : PtRange) (n : Nat) : Decidable (n ∈ iv) :=
  inferInstanceAs (Decidable (iv.minPt ≤ n ∧ n ≤ iv.maxPt))

theorem minPt_mem (iv : PtRange) : iv.minPt ∈ iv := ⟨le_refl _, iv.min_le⟩

theorem maxPt_mem (iv : PtRange) : iv.maxPt ∈ iv := ⟨iv.min_le, le_refl _⟩

theorem len_pos (iv : PtRange) : 0 < iv.len := Nat.succ_pos _

theorem mem_new {lo hi n : Nat} (h : lo ≤ hi) : n ∈ new lo hi ↔ lo ≤ n ∧ n ≤ hi := by
  show lo ≤ n ∧ n ≤ max lo hi ↔ _
  rw [max_eq_right h]

theorem new_self (iv : PtRange) : new iv.minPt iv.maxPt = iv := by
  unfold new
  simp only [max_eq_right iv.min_le]

/-- The least range that holds both. -/
def hull (a b : PtRange) : PtRange where
  minPt := min a.minPt b.minPt
  maxPt := max a.maxPt b.maxPt
  min_le := (min_le_left _ _).trans (a.min_le.trans (le_max_left _ _))

/-- What is left of `a` without the numbers of `iv`. -/
def diff (iv a : PtRange) : List PtRange :=
  (if h : a.minPt < iv.minPt then
    [⟨a.minPt, min a.maxPt (iv.minPt - 1), le_min a.min_le (Nat.le_sub_one_of_lt h)⟩] else []) ++
  (if h : iv.maxPt < a.maxPt then
    [⟨max a.minPt (iv.maxPt + 1), a.maxPt, max_le a.min_le h⟩] else [])

/-- How many numbers of `lo .. hi` are in the range. -/
def overlap (lo hi : Nat) (a : PtRange) : Nat := min hi a.maxPt + 1 - max lo a.minPt

def points (iv : PtRange) : Finset Nat := Finset.Icc iv.minPt iv.maxPt

@[simp] theorem mem_points {iv : PtRange} {n : Nat} : n ∈ iv.points ↔ n ∈ iv := Finset.mem_Icc

theorem card_points (iv : PtRange) : iv.points.card = iv.len := by
  rw [points, Nat.card_Icc, len]
  have hle := iv.min_le
  omega

end PtRange

/-! ## Lists of ranges -/

namespace RangeList

open PtRange

variable {l : List PtRange}

/-- The list is sorted, with a gap between any two ranges. -/
def Sep (l : List PtRange) : Prop := l.Pairwise fun a b => a.maxPt + 1 < b.minPt

/-- Adds a range and joins what it touches. -/
def insert (iv : PtRange) : List PtRange → List PtRange
  | [] => [iv]
  | a :: as =>
    if a.maxPt + 1 < iv.minPt then a :: insert iv as
    else if iv.maxPt + 1 < a.minPt then iv :: a :: as
    else insert (hull a iv) as

theorem insert_ge {iv : PtRange} {l : List PtRange} {lo : Nat} (hiv : lo ≤ iv.minPt)
    (hl : ∀ a ∈ l, lo ≤ a.minPt) : ∀ a ∈ insert iv l, lo ≤ a.minPt := by
  induction l generalizing iv with
  | nil =>
    intro a ha
    rw [insert, List.mem_singleton] at ha
    exact ha ▸ hiv
  | cons b bs ih =>
    have hb : lo ≤ b.minPt := hl b List.mem_cons_self
    have hbs : ∀ a ∈ bs, lo ≤ a.minPt := fun a ha => hl a (List.mem_cons_of_mem b ha)
    intro a ha
    unfold insert at ha
    split at ha
    · -- `b` stays in front
      cases List.mem_cons.mp ha with
      | inl h => exact h ▸ hb
      | inr h => exact ih hiv hbs a h
    · split at ha
      · cases List.mem_cons.mp ha with
        | inl h => exact h ▸ hiv
        | inr h => exact hl a h
      · exact ih (le_min hb hiv) hbs a ha

theorem sep_insert {iv : PtRange} (hs : Sep l) : Sep (insert iv l) := by
  induction l generalizing iv with
  | nil => exact List.pairwise_singleton _ _
  | cons a as ih =>
    have hcons := List.pairwise_cons.mp hs
    unfold insert
    split
    · next hlt =>
      apply List.pairwise_cons.mpr
      constructor
      · intro b hb
        exact @insert_ge iv as (a.maxPt + 2) hlt hcons.1 b hb
      · exact ih hcons.2
    · split
      · next hlt =>
        apply List.pairwise_cons.mpr
        constructor
        · intro b hb
          cases List.mem_cons.mp hb with
          | inl h => exact h ▸ hlt
          | inr h =>
            have hb := hcons.1 b h
            have ha := a.min_le
            omega
        · exact hs
      · exact ih hcons.2

theorem mem_insert {iv : PtRange} {n : Nat} :
    (∃ a ∈ insert iv l, n ∈ a) ↔ n ∈ iv ∨ ∃ a ∈ l, n ∈ a := by
  induction l generalizing iv with
  | nil => simp [insert]
  | cons a as ih =>
    unfold insert
    split
    · rw [List.exists_mem_cons_iff, ih, List.exists_mem_cons_iff]
      exact or_left_comm
    · split
      · rw [List.exists_mem_cons_iff]
      · next h1 h2 =>
        -- the two touch, so their hull has no further number
        have hhull : n ∈ hull a iv ↔ n ∈ iv ∨ n ∈ a := by
          simp only [mem_def, hull]
          omega
        rw [ih, hhull, List.exists_mem_cons_iff, or_assoc]

theorem mem_diff {iv a : PtRange} {n : Nat} : (∃ b ∈ diff iv a, n ∈ b) ↔ n ∈ a ∧ n ∉ iv := by
  unfold diff
  simp only [List.mem_append, or_and_right, exists_or, mem_def]
  split <;> split <;> simp <;> omega

theorem diff_bounds {iv a b : PtRange} (hb : b ∈ diff iv a) :
    a.minPt ≤ b.minPt ∧ b.maxPt ≤ a.maxPt := by
  have hmem : ∀ n, n ∈ b → n ∈ a := fun n hn => (mem_diff.mp ⟨b, hb, hn⟩).1
  exact ⟨(hmem _ b.minPt_mem).1, (hmem _ b.maxPt_mem).2⟩

theorem sep_diff (iv a : PtRange) : Sep (diff iv a) := by
  have hiv := iv.min_le
  unfold diff Sep
  split <;> split <;> simp
  omega

theorem sep_flatMap_diff {iv : PtRange} (hs : Sep l) : Sep (l.flatMap (diff iv)) := by
  apply List.pairwise_flatMap.mpr
  constructor
  · intro a _
    exact sep_diff iv a
  · apply List.Pairwise.imp _ hs
    intro a b hab c hc d hd
    have hca := diff_bounds hc
    have hdb := diff_bounds hd
    omega

/-- The numbers of all ranges of the list. -/
def points : List PtRange → Finset Nat
  | [] => ∅
  | a :: as => a.points ∪ points as

theorem mem_points {n : Nat} : n ∈ points l ↔ ∃ a ∈ l, n ∈ a := by
  induction l with
  | nil => simp [points]
  | cons a as ih =>
    rw [points, Finset.mem_union, ih, PtRange.mem_points, List.exists_mem_cons_iff]

theorem card_points (hs : Sep l) : (points l).card = (l.map len).sum := by
  induction l with
  | nil => rfl
  | cons a as ih =>
    have hcons := List.pairwise_cons.mp hs
    rw [points, Finset.card_union_of_disjoint, PtRange.card_points, ih hcons.2, List.map_cons,
      List.sum_cons]
    rw [Finset.disjoint_left]
    intro n hn has
    obtain ⟨b, hb, hnb⟩ := mem_points.mp has
    have hgap := hcons.1 b hb
    have hna := (PtRange.mem_points.mp hn).2
    have hbn := hnb.1
    omega

theorem sep_nil : Sep [] := List.Pairwise.nil

end RangeList

/-! ## The set -/

/-- A finite set of numbers, as the list of its maximal ranges. -/
structure IntervalSet where
  ivs : List PtRange := []
  sep : RangeList.Sep ivs := by exact RangeList.sep_nil
  deriving DecidableEq

namespace IntervalSet

open PtRange

variable (s : IntervalSet) {n : Nat}

instance : Membership Nat IntervalSet where
  mem s n := ∃ iv ∈ s.ivs, n ∈ iv

theorem mem_def {s : IntervalSet} : n ∈ s ↔ ∃ iv ∈ s.ivs, n ∈ iv := Iff.rfl

instance (n : Nat) : Decidable (n ∈ s) := inferInstanceAs (Decidable (∃ iv ∈ s.ivs, n ∈ iv))

/-- `merge`: the set with the range added. -/
def merge (iv : PtRange) : IntervalSet := ⟨RangeList.insert iv s.ivs, RangeList.sep_insert s.sep⟩

/-- `reduce`: the set without the numbers of the range. -/
def reduce (iv : PtRange) : IntervalSet :=
  ⟨s.ivs.flatMap (diff iv), RangeList.sep_flatMap_diff s.sep⟩

/-- `clear` -/
def clear : IntervalSet := {}

/-- `chunks`: the number of ranges. -/
def chunks : Nat := s.ivs.length

/-- `total`: the number of members. -/
def total : Nat := (s.ivs.map len).sum

/-- `covered`: the number of members from `lo` to `hi`. -/
def covered (lo hi : Nat) : Nat := (s.ivs.map (overlap lo hi)).sum

/-- `ge()`: the range with the least numbers. -/
def ge : Option PtRange := s.ivs.head?

/-- `le()`: the range with the largest numbers. -/
def le : Option PtRange := s.ivs.getLast?

variable {s}

@[simp] theorem mem_clear : n ∈ clear ↔ False := by
  simp [mem_def, clear]

variable {iv : PtRange}

theorem mem_merge : n ∈ s.merge iv ↔ n ∈ iv ∨ n ∈ s :=
  RangeList.mem_insert

theorem mem_reduce : n ∈ s.reduce iv ↔ n ∈ s ∧ n ∉ iv := by
  simp only [mem_def, reduce, List.mem_flatMap]
  constructor
  · rintro ⟨b, ⟨a, ha, hb⟩, hn⟩
    have hdiff := RangeList.mem_diff.mp ⟨b, hb, hn⟩
    exact ⟨⟨a, ha, hdiff.1⟩, hdiff.2⟩
  · rintro ⟨⟨a, ha, hn⟩, hniv⟩
    obtain ⟨b, hb, hnb⟩ := RangeList.mem_diff.mpr ⟨hn, hniv⟩
    exact ⟨b, ⟨a, ha, hb⟩, hnb⟩

/-! ## Counting -/

/-- The members, as a `Finset`. -/
def points (s : IntervalSet) : Finset Nat := RangeList.points s.ivs

@[simp] theorem mem_points : n ∈ s.points ↔ n ∈ s := RangeList.mem_points

theorem card_points (s : IntervalSet) : s.points.card = s.total := RangeList.card_points s.sep

theorem merge_count (h : ∀ n ∈ iv, n ∉ s) : (s.merge iv).total = s.total + iv.len := by
  have hpts : (s.merge iv).points = s.points ∪ iv.points := by
    ext n
    rw [Finset.mem_union, mem_points, mem_points, PtRange.mem_points, mem_merge]
    exact or_comm
  have hdis : Disjoint s.points iv.points := by
    rw [Finset.disjoint_left]
    intro n hn hiv
    exact h n (PtRange.mem_points.mp hiv) (mem_points.mp hn)
  rw [← card_points, hpts, Finset.card_union_of_disjoint hdis, card_points, PtRange.card_points]

theorem reduce_count (h : ∀ n ∈ iv, n ∈ s) : (s.reduce iv).total + iv.len = s.total := by
  have hpts : s.points = (s.reduce iv).points ∪ iv.points := by
    ext n
    rw [Finset.mem_union, mem_points, mem_points, PtRange.mem_points, mem_reduce]
    by_cases hn : n ∈ iv
    · exact iff_of_true (h n hn) (.inr hn)
    · simp [hn]
  have hdis : Disjoint (s.reduce iv).points iv.points := by
    rw [Finset.disjoint_left]
    intro n hn hiv
    exact (mem_reduce.mp (mem_points.mp hn)).2 (PtRange.mem_points.mp hiv)
  rw [← card_points s, hpts, Finset.card_union_of_disjoint hdis, card_points,
    PtRange.card_points]

theorem total_eq_zero_iff : s.total = 0 ↔ ∀ n, n ∉ s := by
  rw [← card_points, Finset.card_eq_zero, Finset.eq_empty_iff_forall_notMem]
  simp only [mem_points]

theorem chunks_eq_zero_iff : s.chunks = 0 ↔ ∀ n, n ∉ s := by
  unfold chunks
  rw [List.length_eq_zero_iff]
  constructor
  · intro h n hn
    simp [mem_def, h] at hn
  · intro h
    cases hivs : s.ivs with
    | nil => rfl
    | cons iv ivs =>
      have hmem : iv.minPt ∈ s := ⟨iv, hivs ▸ List.mem_cons_self, iv.minPt_mem⟩
      exact absurd hmem (h _)

theorem covered_eq_zero {lo hi : Nat} (h : ∀ n, lo ≤ n → n ≤ hi → n ∉ s) (hle : lo ≤ hi) :
    s.covered lo hi = 0 := by
  apply List.sum_eq_zero
  intro c hc
  obtain ⟨a, ha, rfl⟩ := List.mem_map.mp hc
  have hnot : ∀ n, n ∈ a → n < lo ∨ hi < n := by
    intro n hn
    by_contra hin
    exact h n (by omega) (by omega) ⟨a, ha, hn⟩
  -- otherwise the larger of the two lower ends would be in both
  by_contra hne
  have hmax := hnot (max lo a.minPt) ⟨le_max_right _ _, by unfold overlap at hne; omega⟩
  unfold overlap at hne
  omega

/-! ## The ranges at both ends -/

theorem mem_of_ge (h : s.ge = some iv) (hn : n ∈ iv) : n ∈ s :=
  ⟨iv, List.mem_of_mem_head? h, hn⟩

theorem mem_of_le (h : s.le = some iv) (hn : n ∈ iv) : n ∈ s :=
  ⟨iv, List.mem_of_getLast? h, hn⟩

theorem ge_le_of_mem (h : s.ge = some iv) (hn : n ∈ s) : iv.minPt ≤ n := by
  obtain ⟨a, ha, hna⟩ := hn
  obtain ⟨as, has⟩ : ∃ as, s.ivs = iv :: as := List.head?_eq_some_iff.mp h
  have hs := s.sep
  rw [has] at ha hs
  cases List.mem_cons.mp ha with
  | inl heq => exact heq ▸ hna.1
  | inr hin =>
    have hgap := (List.pairwise_cons.mp hs).1 a hin
    have hle := iv.min_le
    have hlo := hna.1
    omega

theorem le_ge_of_mem (h : s.le = some iv) (hn : n ∈ s) : n ≤ iv.maxPt := by
  obtain ⟨a, ha, hna⟩ := hn
  obtain ⟨as, has⟩ : ∃ as, s.ivs = as ++ [iv] := List.getLast?_eq_some_iff.mp h
  have hs := s.sep
  rw [has] at ha hs
  cases List.mem_append.mp ha with
  | inl hin =>
    have hgap := (List.pairwise_append.mp hs).2.2 a hin iv List.mem_cons_self
    have hle := iv.min_le
    have hhi := hna.2
    omega
  | inr hin => exact List.mem_singleton.mp hin ▸ hna.2

theorem ge_eq_none_iff : s.ge = none ↔ ∀ n, n ∉ s := by
  rw [← chunks_eq_zero_iff, ge, List.head?_eq_none_iff, chunks, List.length_eq_zero_iff]

theorem le_eq_none_iff : s.le = none ↔ ∀ n, n ∉ s := by
  rw [← chunks_eq_zero_iff, le, List.getLast?_eq_none_iff, chunks, List.length_eq_zero_iff]

end IntervalSet
