import Nimbus.Native.BalBuilder

/-!
# The runs of sorted entries

The builder walks over sorted entries run by run: one run for each block access index, or for
each slot. In a sorted list the run of the first entry is what a filter selects.
-/

namespace Nimbus.Spec.BalBuilder

open Nimbus.Native
open Nimbus.Native.BalBuilder
open Aristo (UInt256)

/-! ## Runs -/

section

variable {α : Type} {p : α → Bool} {l : List α}

theorem filter_eq_nil_of_head {e : α} (h : (e :: l).Pairwise fun x y => p y → p x) (he : ¬ p e) :
    l.filter p = [] :=
  List.filter_eq_nil_iff.mpr fun x hx hpx => he ((List.pairwise_cons.mp h).1 x hx hpx)

theorem takeWhile_eq_filter (h : l.Pairwise fun x y => p y → p x) : l.takeWhile p = l.filter p := by
  induction l with
  | nil => rfl
  | cons e l ih =>
    by_cases he : p e
    · rw [List.takeWhile_cons_of_pos he, List.filter_cons_of_pos he, ih (List.pairwise_cons.mp h).2]
    · rw [List.takeWhile_cons_of_neg he, List.filter_cons_of_neg he, filter_eq_nil_of_head h he]

theorem dropWhile_eq_filter (h : l.Pairwise fun x y => p y → p x) :
    l.dropWhile p = l.filter fun x => !p x := by
  induction l with
  | nil => rfl
  | cons e l ih =>
    by_cases he : p e
    · rw [List.dropWhile_cons_of_pos he, List.filter_cons_of_neg (by simp [he]),
        ih (List.pairwise_cons.mp h).2]
    · rw [List.dropWhile_cons_of_neg he, List.filter_cons_of_pos (by simp [he])]
      congr 1
      refine (List.filter_eq_self.mpr fun x hx => ?_).symm
      have hno := fun hpx => he ((List.pairwise_cons.mp h).1 x hx hpx)
      simpa using hno

end

/-! ## Changes by index -/

section

variable {α V : Type} {index : α → Nat} {valueOf : α → V} {l : List α}

/-- The value of the last entry with the index `i`. -/
def lastAt (index : α → Nat) (valueOf : α → V) (l : List α) (i : Nat) : Option V :=
  (l.filter fun e => index e == i).getLast?.map valueOf

theorem lastAt_cons {e : α} {i : Nat} : lastAt index valueOf (e :: l) i =
    if index e = i then some ((lastAt index valueOf l i).getD (valueOf e))
    else lastAt index valueOf l i := by
  unfold lastAt
  by_cases h : index e = i
  · rw [if_pos h, List.filter_cons_of_pos (by simp [h]), List.getLast?_cons]
    cases (l.filter fun e => index e == i).getLast? <;> rfl
  · rw [if_neg h, List.filter_cons_of_neg (by simp [h])]

theorem lastAt_isSome {i : Nat} : (lastAt index valueOf l i).isSome ↔ ∃ e ∈ l, index e = i := by
  unfold lastAt
  simp

theorem lastValue_eq {i : Nat} {value : V}
    (h : l.Pairwise fun x y => index x ≤ index y) (hi : ∀ x ∈ l, i ≤ index x) :
    lastValue index valueOf i value l = (lastAt index valueOf l i).getD value := by
  induction l generalizing value with
  | nil => rfl
  | cons e l ih =>
    obtain ⟨he, hl⟩ := List.pairwise_cons.mp h
    rw [lastValue, lastAt_cons]
    by_cases heq : index e = i
    · rw [if_pos (by simpa using heq), if_pos heq, Option.getD_some,
        ih hl fun x hx => hi x (.tail _ hx)]
    · rw [if_neg (by simpa using heq), if_neg heq]
      -- the run ends here
      have hlt : i < index e := Nat.lt_of_le_of_ne (hi e List.mem_cons_self) (Ne.symm heq)
      cases hlast : lastAt index valueOf l i with
      | none => rfl
      | some v =>
        obtain ⟨x, hx, hxi⟩ := lastAt_isSome.mp (Option.isSome_of_eq_some hlast)
        have hle := he x hx
        omega

theorem skipIndex_eq {i : Nat} (h : l.Pairwise fun x y => index x ≤ index y)
    (hi : ∀ x ∈ l, i ≤ index x) : skipIndex index i l = l.filter fun e => index e != i := by
  refine dropWhile_eq_filter (h.imp_of_mem fun {x y} hx _ hxy hy => ?_)
  have hle := hi x hx
  simp only [beq_iff_eq] at hy ⊢
  omega

theorem lastAt_filter {i j : Nat} (h : i ≠ j) :
    lastAt index valueOf (l.filter fun e => index e != j) i = lastAt index valueOf l i := by
  unfold lastAt
  rw [List.filter_filter]
  congr 2
  refine List.filter_congr fun e _ => ?_
  by_cases he : index e = i
  · simp [he, h]
  · simp [he]

/-- What `collapseByIndex` makes of entries in index order. -/
structure Collapsed (index : α → Nat) (valueOf : α → V) (l : List α)
    (changes : List (Change V)) : Prop where
  sorted : changes.Pairwise fun x y => x.blockAccessIndex < y.blockAccessIndex
  mem : ∀ change, change ∈ changes ↔
    lastAt index valueOf l change.blockAccessIndex = some change.value

theorem collapseByIndex_spec (index : α → Nat) (valueOf : α → V) {l : List α}
    (h : l.Pairwise fun x y => index x ≤ index y) :
    Collapsed index valueOf l (collapseByIndex index valueOf l) := by
  induction l using collapseByIndex.induct index with
  | case1 =>
    rw [collapseByIndex]
    exact ⟨List.Pairwise.nil, fun change => by simp [lastAt]⟩
  | case2 e l ih =>
    obtain ⟨he, hl⟩ := List.pairwise_cons.mp h
    have hskip := skipIndex_eq hl he
    obtain ⟨hsorted, hmem⟩ := ih (by rw [hskip]; exact hl.filter _)
    rw [hskip] at hsorted hmem
    rw [collapseByIndex, hskip, lastValue_eq hl he]
    have hlater {change : Change V}
        (hc : change ∈ collapseByIndex index valueOf (l.filter fun x => index x != index e)) :
        index e < change.blockAccessIndex := by
      have hlast := (hmem change).mp hc
      obtain ⟨x, hx, hxi⟩ := lastAt_isSome.mp (Option.isSome_of_eq_some hlast)
      obtain ⟨hxl, hxne⟩ := List.mem_filter.mp hx
      have hle := he x hxl
      simp only [bne_iff_ne, ne_eq] at hxne
      omega
    refine ⟨List.pairwise_cons.mpr ⟨fun change hc => hlater hc, hsorted⟩, fun change => ?_⟩
    rw [List.mem_cons, lastAt_cons]
    by_cases heq : index e = change.blockAccessIndex
    · rw [if_pos heq, Option.some_inj]
      constructor
      · rintro (rfl | hc)
        · rfl
        · have hlt := hlater hc
          omega
      · intro hv
        left
        obtain ⟨i, v⟩ := change
        dsimp only at heq hv
        rw [heq, ← hv]
    · rw [if_neg heq, ← lastAt_filter (Ne.symm heq), hmem]
      refine or_iff_right fun hc => heq ?_
      rw [hc]

theorem countDistinctIndices_eq (valueOf : α → V) :
    countDistinctIndices index l = (collapseByIndex index valueOf l).length := by
  induction l using countDistinctIndices.induct index with
  | case1 => rw [countDistinctIndices, collapseByIndex, List.length_nil]
  | case2 e l ih => rw [countDistinctIndices, collapseByIndex, List.length_cons, ih]

end

/-! ## Changes by slot -/

section

variable {l : List FlatStorageChange}

theorem skipSlot_eq {α : Type} {slotOf : α → UInt256} {slot : UInt256} {l : List α}
    (h : l.Pairwise fun x y => slotOf x ≤ slotOf y) (hs : ∀ x ∈ l, slot ≤ slotOf x) :
    skipSlot slotOf slot l = l.filter fun e => slotOf e != slot := by
  refine dropWhile_eq_filter (h.imp_of_mem fun {x y} hx _ hxy hy => ?_)
  have hle := hs x hx
  simp only [beq_iff_eq] at hy ⊢
  exact BitVec.le_antisymm (hy ▸ hxy) hle

/-- The writes by slot. -/
structure BySlot (l : List FlatStorageChange) (slots : List SlotChanges) : Prop where
  sorted : slots.Pairwise fun x y => x.slot < y.slot
  mem : ∀ c, c ∈ slots ↔ (∃ e ∈ l, e.slot = c.slot) ∧
    c.changes = collapseByIndex (·.index) (·.value) (l.filter fun e => e.slot = c.slot)

theorem slotChangesOf_spec (h : l.Pairwise fun x y => x.slot ≤ y.slot) :
    BySlot l (slotChangesOf l) := by
  induction l using slotChangesOf.induct with
  | case1 =>
    rw [slotChangesOf]
    exact ⟨List.Pairwise.nil, fun c => by simp⟩
  | case2 e l ih =>
    obtain ⟨he, hl⟩ := List.pairwise_cons.mp h
    have hskip := skipSlot_eq hl he
    obtain ⟨hsorted, hmem⟩ := ih (by rw [hskip]; exact hl.filter _)
    rw [hskip] at hsorted hmem
    have hrun : (l.takeWhile fun w => w.slot == e.slot) = l.filter fun w => w.slot = e.slot := by
      rw [takeWhile_eq_filter (hl.imp_of_mem fun {x y} hx _ hxy hy => ?_)]
      · exact List.filter_congr fun w _ => by rw [Bool.eq_iff_iff]; simp
      · simp only [beq_iff_eq] at hy ⊢
        exact BitVec.le_antisymm (hy ▸ hxy) (he x hx)
    rw [slotChangesOf, hskip, hrun]
    have hlater {c : SlotChanges} (hc : c ∈ slotChangesOf (l.filter fun w => w.slot != e.slot)) :
        e.slot < c.slot := by
      obtain ⟨⟨w, hw, hslot⟩, _⟩ := (hmem c).mp hc
      obtain ⟨hwl, hne⟩ := List.mem_filter.mp hw
      rw [← hslot]
      exact BitVec.lt_of_le_ne (he w hwl) (Ne.symm (bne_iff_ne.mp hne))
    refine ⟨List.pairwise_cons.mpr ⟨fun c hc => hlater hc, hsorted⟩, fun c => ?_⟩
    rw [List.mem_cons]
    by_cases heq : e.slot = c.slot
    · have hnot : c ∉ slotChangesOf (l.filter fun w => w.slot != e.slot) := fun hc =>
        BitVec.lt_irrefl c.slot (heq ▸ hlater hc)
      rw [or_iff_left hnot, List.filter_cons_of_pos (by simpa using heq)]
      constructor
      · rintro rfl
        exact ⟨⟨e, List.mem_cons_self, rfl⟩, rfl⟩
      · rintro ⟨_, hchanges⟩
        obtain ⟨slot, changes⟩ := c
        dsimp only at heq hchanges
        rw [hchanges, heq]
    · have hhead : c ≠ ⟨e.slot, collapseByIndex (·.index) (·.value)
          (e :: l.filter fun w => w.slot = e.slot)⟩ := fun hc => heq (by rw [hc])
      rw [or_iff_right hhead, hmem, List.filter_cons_of_neg (by simpa using heq),
        List.filter_filter]
      have hfilter : (l.filter fun w => decide (w.slot = c.slot) && w.slot != e.slot) =
          l.filter fun w => w.slot = c.slot := by
        refine List.filter_congr fun w _ => ?_
        by_cases hw : w.slot = c.slot
        · simp [hw, Ne.symm heq]
        · simp [hw]
      rw [hfilter]
      refine and_congr_left fun _ => ⟨fun ⟨w, hw, hslot⟩ => ?_, fun ⟨w, hw, hslot⟩ => ?_⟩
      · exact ⟨w, .tail _ (List.mem_filter.mp hw).1, hslot⟩
      · rcases List.mem_cons.mp hw with rfl | hw
        · exact absurd hslot heq
        · refine ⟨w, List.mem_filter.mpr ⟨hw, bne_iff_ne.mpr ?_⟩, hslot⟩
          rw [hslot]
          exact Ne.symm heq

theorem countSlots_eq : countSlots l = (slotChangesOf l).length := by
  induction l using countSlots.induct with
  | case1 => rw [countSlots, slotChangesOf, List.length_nil]
  | case2 e l ih => rw [countSlots, slotChangesOf, List.length_cons, ih]

end

/-! ## Slots that are only read -/

section

variable {reads : List FlatStorageRead} {written : List SlotChanges}

/-- The read slots that are not written. -/
structure ReadOnly (reads : List FlatStorageRead) (written : List SlotChanges)
    (slots : List StorageKey) : Prop where
  sorted : slots.Pairwise (· < ·)
  mem : ∀ slot, slot ∈ slots ↔ (∃ r ∈ reads, r.slot = slot) ∧ ∀ c ∈ written, c.slot ≠ slot

/-- The slots after the first one, against the writes that are not below it. -/
theorem ReadOnly.later {r : FlatStorageRead} {slots : List StorageKey}
    (h : ReadOnly (reads.filter fun x => x.slot != r.slot)
      (written.filter fun w => !decide (w.slot < r.slot)) slots)
    (hr : ∀ x ∈ reads, r.slot ≤ x.slot) (slot : StorageKey) :
    slot ∈ slots ↔
      (r.slot < slot ∧ ∃ x ∈ reads, x.slot = slot) ∧ ∀ c ∈ written, c.slot ≠ slot := by
  rw [h.mem]
  constructor
  · rintro ⟨⟨x, hx, rfl⟩, hno⟩
    obtain ⟨hxl, hne⟩ := List.mem_filter.mp hx
    have hlt : r.slot < x.slot := BitVec.lt_of_le_ne (hr x hxl) (Ne.symm (bne_iff_ne.mp hne))
    refine ⟨⟨hlt, x, hxl, rfl⟩, fun c hc heq => hno c (List.mem_filter.mpr ⟨hc, ?_⟩) heq⟩
    rw [heq]
    simpa using BitVec.le_of_lt hlt
  · rintro ⟨⟨hlt, x, hx, rfl⟩, hno⟩
    refine ⟨⟨x, List.mem_filter.mpr ⟨hx, bne_iff_ne.mpr ?_⟩, rfl⟩,
      fun c hc => hno c (List.mem_filter.mp hc).1⟩
    intro heq
    rw [heq] at hlt
    exact BitVec.lt_irrefl _ hlt

theorem head_written_iff {slot : StorageKey} (hw : written.Pairwise fun x y => x.slot < y.slot) :
    (written.filter fun w => !decide (w.slot < slot)).head?.map (·.slot) = some slot ↔
      ∃ c ∈ written, c.slot = slot := by
  constructor
  · intro h
    obtain ⟨c, hc, hslot⟩ := Option.map_eq_some_iff.mp h
    exact ⟨c, (List.mem_filter.mp (List.mem_of_head? hc)).1, hslot⟩
  · rintro ⟨c, hc, rfl⟩
    have hmem : c ∈ written.filter fun w => !decide (w.slot < c.slot) := by
      refine List.mem_filter.mpr ⟨hc, ?_⟩
      simp
    have hsorted := hw.filter fun w => !decide (w.slot < c.slot)
    cases hlist : written.filter fun w => !decide (w.slot < c.slot) with
    | nil =>
      rw [hlist] at hmem
      cases hmem
    | cons w rest =>
      rw [hlist] at hmem hsorted
      rcases List.mem_cons.mp hmem with rfl | hrest
      · rfl
      · -- nothing that is left is below the slot
        have hlt := (List.pairwise_cons.mp hsorted).1 c hrest
        have hw' : w ∈ written.filter fun w => !decide (w.slot < c.slot) := by
          rw [hlist]
          exact List.mem_cons_self
        have hno := (List.mem_filter.mp hw').2
        simp [hlt] at hno

theorem storageReadsOf_spec (h : reads.Pairwise fun x y => x.slot ≤ y.slot)
    (hw : written.Pairwise fun x y => x.slot < y.slot) :
    ReadOnly reads written (storageReadsOf reads written) := by
  have hdrop (written : List SlotChanges) (slot : StorageKey)
      (hw : written.Pairwise fun x y => x.slot < y.slot) :
      (written.dropWhile fun w => decide (w.slot < slot)) =
        written.filter fun w => !decide (w.slot < slot) := by
    refine dropWhile_eq_filter (hw.imp fun {x y} hxy hy => ?_)
    simp only [decide_eq_true_eq] at hy ⊢
    exact BitVec.lt_trans hxy hy
  induction reads, written using storageReadsOf.induct with
  | case1 written =>
    rw [storageReadsOf]
    exact ⟨List.Pairwise.nil, fun slot => by simp⟩
  | case2 r reads written rest written' hhead ih =>
    obtain ⟨hr, hreads⟩ := List.pairwise_cons.mp h
    have hrest : rest = reads.filter fun x => x.slot != r.slot := skipSlot_eq hreads hr
    have hwritten : written' = written.filter fun w => !decide (w.slot < r.slot) :=
      hdrop written r.slot hw
    have hlater := ih (by rw [hrest]; exact hreads.filter _) (by rw [hwritten]; exact hw.filter _)
    rw [storageReadsOf, if_pos hhead]
    refine ⟨hlater.sorted, fun slot => ?_⟩
    rw [hwritten, head_written_iff hw] at hhead
    obtain ⟨c, hc, hslot⟩ := hhead
    rw [hrest, hwritten] at hlater
    have hmem := hlater.later hr slot
    rw [← hrest, ← hwritten] at hmem
    rw [hmem]
    refine and_congr_left fun hno => ?_
    refine ⟨fun ⟨_, x, hx, heq⟩ => ⟨x, .tail _ hx, heq⟩, ?_⟩
    rintro ⟨x, hx, rfl⟩
    have hne : x.slot ≠ r.slot := fun heq => hno c hc (hslot.trans heq.symm)
    rcases List.mem_cons.mp hx with rfl | hx
    · exact absurd rfl hne
    · exact ⟨BitVec.lt_of_le_ne (hr x hx) (Ne.symm hne), x, hx, rfl⟩
  | case3 r reads written rest written' hhead ih =>
    obtain ⟨hr, hreads⟩ := List.pairwise_cons.mp h
    have hrest : rest = reads.filter fun x => x.slot != r.slot := skipSlot_eq hreads hr
    have hwritten : written' = written.filter fun w => !decide (w.slot < r.slot) :=
      hdrop written r.slot hw
    have hlater := ih (by rw [hrest]; exact hreads.filter _) (by rw [hwritten]; exact hw.filter _)
    rw [storageReadsOf, if_neg hhead]
    rw [hwritten, head_written_iff hw] at hhead
    have hsorted := hlater.sorted
    rw [hrest, hwritten] at hlater
    have hmem := hlater.later hr
    rw [← hrest, ← hwritten] at hmem
    refine ⟨List.pairwise_cons.mpr ⟨fun slot hslot => ((hmem slot).mp hslot).1.1, hsorted⟩,
      fun slot => ?_⟩
    rw [List.mem_cons, hmem]
    constructor
    · rintro (rfl | ⟨⟨_, x, hx, heq⟩, hno⟩)
      · exact ⟨⟨r, List.mem_cons_self, rfl⟩, fun c hc heq => hhead ⟨c, hc, heq⟩⟩
      · exact ⟨⟨x, .tail _ hx, heq⟩, hno⟩
    · rintro ⟨⟨x, hx, rfl⟩, hno⟩
      by_cases heq : x.slot = r.slot
      · exact .inl heq
      · rcases List.mem_cons.mp hx with rfl | hx
        · exact absurd rfl heq
        · exact .inr ⟨⟨BitVec.lt_of_le_ne (hr x hx) (Ne.symm heq), x, hx, rfl⟩, hno⟩

end

end Nimbus.Spec.BalBuilder
