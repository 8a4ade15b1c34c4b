import Nimbus.ForStd.Allotment
import Nimbus.ForStd.IntervalSet
import Nimbus.ForStd.Table

/-!
# Books on numbers that are fetched in ranges

A downloader keeps the numbers it still has to fetch and those it is fetching in two sets of
ranges. What it got may wait on a queue, be worked on by some party, or be in the hands of
the party that runs at the moment. `Balanced` says that every number of a region is in one of
these places, and there is a rule for each way in which numbers move. `Lent` says the same of
the numbers being fetched, and of the parties that fetch them.
-/

universe u v

structure RangeBooks (Item : Type u) where
  unprocessed : IntervalSet
  borrowed : IntervalSet
  staged : Table Nat Item

namespace RangeBooks

open IntervalSet Function

/-- The places where a number can be. -/
inductive Place (P : Type v) where
  | unprocessed
  | borrowed
  | staged (key : Nat)
  /-- worked on by a party -/
  | held (p : P)
  /-- with the one who runs -/
  | hand

variable {Item : Type u} {P : Type v}

/-- What is at a place, where `span` says which numbers an item is about. -/
def Owns (b : RangeBooks Item) (span : Item → Nat → Prop) (held : P → Nat → Prop)
    (hand : Option PtRange) : Place P → Nat → Prop
  | .unprocessed, n => n ∈ b.unprocessed
  | .borrowed, n => n ∈ b.borrowed
  | .staged key, n => ∃ item, b.staged.lookup key = some item ∧ span item n
  | .held p, n => held p n
  | .hand, n => ∃ iv, hand = some iv ∧ n ∈ iv

/-- Every number of the region is in one place. -/
abbrev Balanced (b : RangeBooks Item) (span : Item → Nat → Prop) (region : Set Nat)
    (held : P → Nat → Prop) (hand : Option PtRange) : Prop :=
  Allotted region (b.Owns span held hand)

/-- The fetch of `p` is about the number `n`. -/
def FetchOwns (fetch : P → Option PtRange) (p : P) (n : Nat) : Prop :=
  ∃ iv, fetch p = some iv ∧ n ∈ iv

/-- Every borrowed number belongs to one fetch. -/
abbrev Lent (borrowed : IntervalSet) (fetch : P → Option PtRange) : Prop :=
  Allotted {n | n ∈ borrowed} (FetchOwns fetch)

variable {b : RangeBooks Item} {span : Item → Nat → Prop} {region : Set Nat}
  {held : P → Nat → Prop} {hand : Option PtRange} {iv : PtRange} {n : Nat}

theorem owns_hand : b.Owns span held (some iv) .hand n ↔ n ∈ iv := by
  simp only [Owns, Option.some.injEq, exists_eq_left']

theorem owns_no_hand : ¬ b.Owns span held none .hand n := by
  simp only [Owns, reduceCtorEq, false_and, exists_false, not_false_eq_true]

theorem owns_unprocessed :
    b.Owns span held hand .unprocessed n ↔ n ∈ b.unprocessed := Iff.rfl

theorem owns_borrowed : b.Owns span held hand .borrowed n ↔ n ∈ b.borrowed := Iff.rfl

theorem owns_staged {key : Nat} : b.Owns span held hand (.staged key) n ↔
    ∃ item, b.staged.lookup key = some item ∧ span item n := Iff.rfl

/-! ## The numbers that are being fetched -/

namespace Lent

variable [DecidableEq P] {borrowed : IntervalSet} {fetch : P → Option PtRange} {p : P}

section

omit [DecidableEq P]

theorem mem (h : Lent borrowed fetch) (hp : fetch p = some iv) (hn : n ∈ iv) :
    n ∈ borrowed := Allotted.mem h (i := p) ⟨iv, hp, hn⟩

/-- At the start nothing is fetched. -/
theorem start (hb : ∀ n, n ∉ borrowed) (h : ∀ p, fetch p = none) : Lent borrowed fetch where
  mem_iff n := by
    constructor
    · exact fun hn => absurd hn (hb n)
    · rintro ⟨p, iv, hp, -⟩
      rw [h p] at hp
      cases hp
  unique := by
    rintro n p q ⟨iv, hp, -⟩
    rw [h p] at hp
    cases hp

theorem same (h : Lent borrowed fetch) {borrowed' : IntervalSet}
    (hb : ∀ n, n ∈ borrowed' ↔ n ∈ borrowed) : Lent borrowed' fetch := by
  have hset : {n | n ∈ borrowed'} = {n | n ∈ borrowed} := Set.ext hb
  show Allotted {n | n ∈ borrowed'} (FetchOwns fetch)
  rw [hset]
  exact h

end

/-- The fetch of `p` borrows a range. -/
theorem lend (h : Lent borrowed fetch) (hp : fetch p = none) (hout : ∀ n ∈ iv, n ∉ borrowed) :
    Lent (borrowed.merge iv) (update fetch p (some iv)) := by
  apply h.grow (i := p) (· ∈ iv)
  · intro n hn
    exact hout n hn
  · intro n
    exact mem_merge
  · intro n
    simp only [FetchOwns, update_self, Option.some.injEq, exists_eq_left', hp,
      reduceCtorEq, false_and, exists_false, or_false]
  · intro q hq n
    simp only [FetchOwns, update_of_ne hq]

theorem take (h : Lent borrowed fetch) (hp : fetch p = some iv) :
    Lent (borrowed.reduce iv) (update fetch p none) := by
  apply h.drop (i := p) (· ∈ iv)
  · intro n hn
    exact ⟨iv, hp, hn⟩
  · intro n
    exact mem_reduce
  · intro n
    simp only [FetchOwns, update_self, reduceCtorEq, false_and, exists_false, hp,
      Option.some.injEq, exists_eq_left', and_not_self]
  · intro q hq n
    simp only [FetchOwns, update_of_ne hq]

end Lent

/-! ## The numbers of the region -/

namespace Balanced

/-- At the start everything is unprocessed. -/
theorem start (hu : ∀ n, n ∈ b.unprocessed ↔ n ∈ region) (hb : ∀ n, n ∉ b.borrowed)
    (hs : ∀ key, b.staged.lookup key = none) (hh : ∀ p n, ¬ held p n) :
    b.Balanced span region held none := by
  refine Allotted.single (i := .unprocessed) hu ?_
  intro place hne n
  cases place with
  | unprocessed => exact absurd rfl hne
  | borrowed => exact hb n
  | staged key =>
    rintro ⟨item, hlook, -⟩
    rw [hs key] at hlook
    cases hlook
  | held p => exact hh p n
  | hand => exact owns_no_hand

theorem disjoint (h : b.Balanced span region held hand) (hn : n ∈ b.unprocessed) :
    n ∉ b.borrowed := by
  intro hb
  have heq := Allotted.unique h (i := .unprocessed) (j := .borrowed) hn hb
  cases heq

theorem hand_disjoint (h : b.Balanced span region held (some iv)) (hn : n ∈ iv) :
    n ∉ b.unprocessed ∧ n ∉ b.borrowed := by
  have hown : b.Owns span held (some iv) .hand n := owns_hand.mpr hn
  constructor
  · exact Allotted.not_owns h (j := .unprocessed) hown (by simp)
  · exact Allotted.not_owns h (j := .borrowed) hown (by simp)

/-- Sets of ranges with the same members are as good. -/
theorem same (h : b.Balanced span region held hand) {unprocessed borrowed : IntervalSet}
    (hu : ∀ n, n ∈ unprocessed ↔ n ∈ b.unprocessed) (hb : ∀ n, n ∈ borrowed ↔ n ∈ b.borrowed) :
    Balanced { b with unprocessed := unprocessed, borrowed := borrowed } span region held hand := by
  apply Allotted.congr h
  intro place n
  cases place with
  | unprocessed => exact hu n
  | borrowed => exact hb n
  | staged key => exact Iff.rfl
  | held p => exact Iff.rfl
  | hand => exact Iff.rfl

/-- A fetch takes numbers that are unprocessed. -/
theorem lend (h : b.Balanced span region held none) (hsub : ∀ n ∈ iv, n ∈ b.unprocessed) :
    Balanced { b with
      unprocessed := b.unprocessed.reduce iv
      borrowed := b.borrowed.merge iv } span region held none := by
  apply h.move (i := .unprocessed) (j := .borrowed) (by simp) (· ∈ iv)
  · intro n hn
    exact hsub n hn
  · intro n
    exact mem_reduce
  · intro n
    exact mem_merge
  · intro place hi hj n
    cases place with
    | unprocessed => exact absurd rfl hi
    | borrowed => exact absurd rfl hj
    | staged key => exact Iff.rfl
    | held p => exact Iff.rfl
    | hand => exact Iff.rfl

/-- What was borrowed comes into the hands of the one who runs. -/
theorem take (h : b.Balanced span region held none) (hsub : ∀ n ∈ iv, n ∈ b.borrowed) :
    Balanced { b with borrowed := b.borrowed.reduce iv } span region held (some iv) := by
  apply h.move (i := .borrowed) (j := .hand) (by simp) (· ∈ iv)
  · intro n hn
    exact hsub n hn
  · intro n
    exact mem_reduce
  · intro n
    rw [owns_hand, or_iff_left owns_no_hand]
  · intro place hi hj n
    cases place with
    | unprocessed => exact Iff.rfl
    | borrowed => exact absurd rfl hi
    | staged key => exact Iff.rfl
    | held p => exact Iff.rfl
    | hand => exact absurd rfl hj

section

variable (h : b.Balanced span region held (some iv))
include h

/-- What cannot be used goes back to the unprocessed numbers. -/
theorem give {unprocessed : IntervalSet}
    (rest : Option PtRange) (hrest : ∀ n rv, rest = some rv → n ∈ rv → n ∈ iv)
    (hmem : ∀ n, n ∈ unprocessed ↔ (n ∈ iv ∧ ∀ rv, rest = some rv → n ∉ rv) ∨ n ∈ b.unprocessed) :
    Balanced { b with unprocessed := unprocessed } span region held rest := by
  apply h.move (i := .hand) (j := .unprocessed) (by simp)
    fun n => n ∈ iv ∧ ∀ rv, rest = some rv → n ∉ rv
  · intro n hn
    exact owns_hand.mpr hn.1
  · intro n
    rw [owns_hand]
    simp only [Owns, not_and, not_forall, not_not]
    constructor
    · rintro ⟨rv, hrv, hn⟩
      exact ⟨hrest n rv hrv hn, fun _ => ⟨rv, hrv, hn⟩⟩
    · rintro ⟨hn, himp⟩
      obtain ⟨rv, hrv, hn'⟩ := himp hn
      exact ⟨rv, hrv, hn'⟩
  · exact hmem
  · intro place hi hj n
    cases place with
    | unprocessed => exact absurd rfl hj
    | borrowed => exact Iff.rfl
    | staged key => exact Iff.rfl
    | held p => exact Iff.rfl
    | hand => exact absurd rfl hi

theorem giveAll :
    Balanced { b with unprocessed := b.unprocessed.merge iv } span region held none := by
  apply h.give none
  · intro n rv hrv
    cases hrv
  · intro n
    rw [mem_merge]
    simp

theorem stage {key : Nat} {item : Item}
    (hnone : b.staged.lookup key = none) (hspan : ∀ n, span item n ↔ n ∈ iv) :
    Balanced { b with staged := b.staged.insert key item } span region held none := by
  have hlookup : ∀ k, (b.staged.insert key item).lookup k =
      if k = key then some item else b.staged.lookup k :=
    fun k => Table.lookup_insert' b.staged key k item
  apply h.move (i := .hand) (j := .staged key) (by simp) (· ∈ iv)
  · intro n hn
    exact owns_hand.mpr hn
  · intro n
    rw [owns_hand, and_not_self_iff, iff_false]
    exact owns_no_hand
  · intro n
    simp only [Owns, hlookup, if_true, hnone, Option.some.injEq, exists_eq_left', hspan,
      reduceCtorEq, false_and, exists_false, or_false]
  · intro place hi hj n
    cases place with
    | unprocessed => exact Iff.rfl
    | borrowed => exact Iff.rfl
    | staged k =>
      have hne : k ≠ key := fun heq => hj (congrArg _ heq)
      simp only [Owns, hlookup, if_neg hne]
    | held p => exact Iff.rfl
    | hand => exact absurd rfl hi

end

theorem unstage (h : b.Balanced span region held none) {key : Nat} {item : Item}
    (hlook : b.staged.lookup key = some item) (hspan : ∀ n, span item n ↔ n ∈ iv) :
    Balanced { b with staged := b.staged.erase key } span region held (some iv) := by
  have hlookup : ∀ k, (b.staged.erase key).lookup k =
      if k = key then none else b.staged.lookup k :=
    fun k => Table.lookup_erase' b.staged key k
  have hown : ∀ n, b.Owns span held none (.staged key) n ↔ n ∈ iv := by
    intro n
    simp only [Owns, hlook, Option.some.injEq, exists_eq_left', hspan]
  apply h.move (i := .staged key) (j := .hand) (by simp) (· ∈ iv)
  · intro n hn
    exact (hown n).mpr hn
  · intro n
    rw [hown, and_not_self_iff]
    simp only [Owns, hlookup, if_true, reduceCtorEq, false_and, exists_false, not_false_eq_true]
  · intro n
    rw [owns_hand, or_iff_left owns_no_hand]
  · intro place hi hj n
    cases place with
    | unprocessed => exact Iff.rfl
    | borrowed => exact Iff.rfl
    | staged k =>
      have hne : k ≠ key := fun heq => hi (congrArg _ heq)
      simp only [Owns, hlookup, if_neg hne]
    | held p => exact Iff.rfl
    | hand => exact absurd rfl hj

section

variable (h : b.Balanced span region held (some iv))
include h

/-- What is done with leaves the region. -/
theorem drop {region' : Set Nat}
    (rest : Option PtRange) (hrest : ∀ n rv, rest = some rv → n ∈ rv → n ∈ iv)
    (hregion : ∀ n, n ∈ region' ↔ n ∈ region ∧ ¬ (n ∈ iv ∧ ∀ rv, rest = some rv → n ∉ rv)) :
    b.Balanced span region' held rest := by
  refine Allotted.drop h (i := .hand) (fun n => n ∈ iv ∧ ∀ rv, rest = some rv → n ∉ rv) ?_ hregion
    ?_ ?_
  · intro n hn
    exact owns_hand.mpr hn.1
  · intro n
    rw [owns_hand]
    simp only [Owns, not_and, not_forall, not_not]
    constructor
    · rintro ⟨rv, hrv, hn⟩
      exact ⟨hrest n rv hrv hn, fun _ => ⟨rv, hrv, hn⟩⟩
    · rintro ⟨hn, himp⟩
      obtain ⟨rv, hrv, hn'⟩ := himp hn
      exact ⟨rv, hrv, hn'⟩
  · intro place hi n
    cases place with
    | unprocessed => exact Iff.rfl
    | borrowed => exact Iff.rfl
    | staged key => exact Iff.rfl
    | held p => exact Iff.rfl
    | hand => exact absurd rfl hi

theorem dropAll {region' : Set Nat}
    (hregion : ∀ n, n ∈ region' ↔ n ∈ region ∧ n ∉ iv) : b.Balanced span region' held none := by
  apply Balanced.drop h none
  · intro n rv hrv
    cases hrv
  · intro n
    rw [hregion]
    simp

/-- The party `p` gets to work on the list. -/
theorem hold {held' : P → Nat → Prop} {p : P}
    (hnone : ∀ n, ¬ held p n) (hp : ∀ n, held' p n ↔ n ∈ iv)
    (hother : ∀ q, q ≠ p → ∀ n, held' q n ↔ held q n) : b.Balanced span region held' none := by
  apply h.move (i := .hand) (j := .held p) (by simp) (· ∈ iv)
  · intro n hn
    exact owns_hand.mpr hn
  · intro n
    rw [owns_hand, and_not_self_iff, iff_false]
    exact owns_no_hand
  · intro n
    show held' p n ↔ n ∈ iv ∨ held p n
    rw [hp, or_iff_left (hnone n)]
  · intro place hi hj n
    cases place with
    | unprocessed => exact Iff.rfl
    | borrowed => exact Iff.rfl
    | staged key => exact Iff.rfl
    | held q => exact hother q (fun heq => hj (congrArg _ heq)) n
    | hand => exact absurd rfl hi

end

/-- The party `p` does not work on the list any more. -/
theorem release (h : b.Balanced span region held none) {held' : P → Nat → Prop} {p : P}
    (hp : ∀ n, held p n ↔ n ∈ iv) (hnone : ∀ n, ¬ held' p n)
    (hother : ∀ q, q ≠ p → ∀ n, held' q n ↔ held q n) : b.Balanced span region held' (some iv) := by
  apply h.move (i := .held p) (j := .hand) (by simp) (· ∈ iv)
  · intro n hn
    exact (hp n).mpr hn
  · intro n
    show held' p n ↔ held p n ∧ n ∉ iv
    rw [hp, and_not_self_iff, iff_false]
    exact hnone n
  · intro n
    rw [owns_hand, or_iff_left owns_no_hand]
  · intro place hi hj n
    cases place with
    | unprocessed => exact Iff.rfl
    | borrowed => exact Iff.rfl
    | staged key => exact Iff.rfl
    | held q => exact hother q (fun heq => hi (congrArg _ heq)) n
    | hand => exact absurd rfl hj

end Balanced

/-! ## Looking behind the borrowed numbers -/

/-- The places where a number can be while no one runs, down to the fetch it belongs to. -/
inductive Spot (P : Type v) where
  | unprocessed
  | fetching (p : P)
  | held (p : P)
  | staged (key : Nat)

/-- What is at a spot. -/
def At (b : RangeBooks Item) (span : Item → Nat → Prop) (fetch : P → Option PtRange)
    (held : P → Nat → Prop) : Spot P → Nat → Prop
  | .unprocessed, n => n ∈ b.unprocessed
  | .fetching p, n => FetchOwns fetch p n
  | .held p, n => held p n
  | .staged key, n => ∃ item, b.staged.lookup key = some item ∧ span item n

/-- Every borrowed number is with its fetch. -/
theorem Balanced.located {fetch : P → Option PtRange} (h : b.Balanced span region held none)
    (hl : Lent b.borrowed fetch) : Allotted region (b.At span fetch held) := by
  -- the place a spot is part of
  let place : Spot P → Place P := fun spot => match spot with
    | .unprocessed => .unprocessed
    | .fetching _ => .borrowed
    | .held p => .held p
    | .staged key => .staged key
  have howns : ∀ spot n, b.At span fetch held spot n → b.Owns span held none (place spot) n := by
    intro spot n hn
    cases spot with
    | fetching p => exact (hl.mem_iff n).mpr ⟨p, hn⟩
    | unprocessed => exact hn
    | held p => exact hn
    | staged key => exact hn
  constructor
  · intro n
    rw [h.mem_iff]
    constructor
    · rintro ⟨p, hn⟩
      cases p with
      | unprocessed => exact ⟨.unprocessed, hn⟩
      | borrowed =>
        obtain ⟨p, hp⟩ := (hl.mem_iff n).mp hn
        exact ⟨.fetching p, hp⟩
      | staged key => exact ⟨.staged key, hn⟩
      | held p => exact ⟨.held p, hn⟩
      | hand => exact absurd hn owns_no_hand
    · rintro ⟨spot, hn⟩
      exact ⟨place spot, howns spot n hn⟩
  · intro n spot spot' hn hn'
    have hplace := h.unique (howns spot n hn) (howns spot' n hn')
    cases spot with
    | unprocessed => cases spot' <;> first | rfl | cases hplace
    | staged key =>
      cases spot' with
      | staged key' => cases hplace; rfl
      | _ => cases hplace
    | held p =>
      cases spot' with
      | held q => cases hplace; rfl
      | _ => cases hplace
    | fetching p =>
      cases spot' with
      | fetching q => exact congrArg Spot.fetching (hl.unique hn hn')
      | _ => cases hplace

end RangeBooks
