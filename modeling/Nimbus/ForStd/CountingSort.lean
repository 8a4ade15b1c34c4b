import Mathlib.Data.List.Perm.Basic
import Mathlib.Data.List.TakeDrop
import Mathlib.Algebra.GroupWithZero.Nat

/-!
# Counting sort

Elements have keys below a bound. They are counted by key, the counts are summed up to the
position where the elements of each key start, and then each element goes to the next free
position of its key. This sorts by key and keeps the order of elements with the same key.
-/

namespace CountingSort

open Function

universe u

/-! ## Lists made of blocks -/

section

variable {α : Type u} {n b : Nat} {f g : Nat → List α}

/-- The first `n` blocks, one after the other. -/
def blocks (n : Nat) (f : Nat → List α) : List α := (List.range n).flatMap f

/-- Where block `b` starts. -/
def start (f : Nat → List α) (b : Nat) : Nat := (blocks b f).length

@[simp] theorem blocks_zero : blocks 0 f = [] := rfl

theorem blocks_succ : blocks (n + 1) f = blocks n f ++ f n := by
  simp [blocks, List.range_succ]

theorem blocks_congr (h : ∀ b < n, f b = g b) : blocks n f = blocks n g := by
  induction n with
  | zero => rfl
  | succ n ih =>
    rw [blocks_succ, blocks_succ, ih fun b hb => h b (by omega), h n (by omega)]

theorem start_succ : start f (b + 1) = start f b + (f b).length := by
  simp [start, blocks_succ]

theorem start_congr (h : ∀ a < b, (f a).length = (g a).length) : start f b = start g b := by
  induction b with
  | zero => rfl
  | succ b ih => rw [start_succ, start_succ, ih fun a ha => h a (by omega), h b (by omega)]

/-- One block can be replaced without touching the rest. -/
theorem blocks_update (hb : b < n) (f : Nat → List α) :
    ∃ rest, ∀ block, blocks n (update f b block) = blocks b f ++ (block ++ rest) := by
  induction n with
  | zero => omega
  | succ n ih =>
    rcases Nat.lt_succ_iff_lt_or_eq.mp hb with hlt | rfl
    · obtain ⟨rest, hrest⟩ := ih hlt
      refine ⟨rest ++ f n, fun block => ?_⟩
      rw [blocks_succ, hrest, update_of_ne (by omega)]
      simp only [List.append_assoc]
    · refine ⟨[], fun block => ?_⟩
      rw [blocks_succ, update_self, List.append_nil]
      congr 1
      exact blocks_congr fun a ha => update_of_ne (by omega) _ _

theorem blocks_split (hb : b < n) (f : Nat → List α) :
    ∃ rest, blocks n f = blocks b f ++ (f b ++ rest) := by
  obtain ⟨rest, hrest⟩ := blocks_update hb f
  exact ⟨rest, by simpa using hrest (f b)⟩

/-- A block lies between its start and the start of the next one. -/
theorem blocks_slice (hb : b < n) (f : Nat → List α) :
    ((blocks n f).drop (start f b)).take (start f (b + 1) - start f b) = f b := by
  obtain ⟨rest, hrest⟩ := blocks_split hb f
  rw [hrest, start_succ, start, List.drop_left, Nat.add_sub_cancel_left, List.take_left]

theorem blocks_set {j : Nat} (hb : b < n) (hj : j < (f b).length) (x : α) :
    (blocks n f).set (start f b + j) x = blocks n (update f b ((f b).set j x)) := by
  obtain ⟨rest, hrest⟩ := blocks_update hb f
  have hself := hrest (f b)
  rw [update_eq_self] at hself
  rw [hrest, hself, start, List.set_append_right _ _ (by omega), Nat.add_sub_cancel_left,
    List.set_append_left _ _ hj]

/-- Every list is made of blocks of given lengths that add up to its own. -/
theorem exists_blocks (count : Nat → Nat) {l : List α}
    (h : l.length = ((List.range n).map count).sum) :
    ∃ f, (∀ b < n, (f b).length = count b) ∧ blocks n f = l := by
  induction n generalizing l with
  | zero =>
    rw [List.range_zero, List.map_nil, List.sum_nil, List.length_eq_zero_iff] at h
    exact ⟨fun _ => [], fun b hb => absurd hb (by omega), by rw [h, blocks_zero]⟩
  | succ n ih =>
    rw [List.range_succ, List.map_append, List.sum_append, List.map_singleton,
      List.sum_singleton] at h
    obtain ⟨f, hf, hblocks⟩ := ih (l := l.take (l.length - count n)) (by
      rw [List.length_take]
      omega)
    refine ⟨update f n (l.drop (l.length - count n)), fun b hb => ?_, ?_⟩
    · rcases Nat.lt_succ_iff_lt_or_eq.mp hb with hlt | rfl
      · rw [update_of_ne (by omega), hf b hlt]
      · rw [update_self, List.length_drop]
        omega
    · rw [blocks_succ, update_self,
        blocks_congr (g := f) fun b hb => update_of_ne (by omega) _ _, hblocks,
        List.take_append_drop]

end

/-! ## Groups -/

section

variable {α : Type u} (key : α → Nat) {n : Nat} {l : List α}

/-- The elements with the key `b`. -/
def group (l : List α) (b : Nat) : List α := l.filter fun e => key e = b

/-- The elements in the order of their keys, those with one key in the order they came. -/
def grouped (n : Nat) (l : List α) : List α := blocks n (group key l)

theorem group_cons {e : α} {b : Nat} :
    group key (e :: l) b = if key e = b then e :: group key l b else group key l b := by
  simp [group, List.filter_cons]

theorem grouped_perm_filter : (grouped key n l).Perm (l.filter fun e => key e < n) := by
  induction n with
  | zero => simp [grouped]
  | succ n ih =>
    have hsplit := List.filter_append_perm (fun e => decide (key e < n))
      (l.filter fun e => key e < n + 1)
    have hlow : (l.filter fun e => key e < n + 1).filter (fun e => key e < n) =
        l.filter fun e => key e < n := by
      rw [List.filter_filter]
      refine List.filter_congr fun e _ => ?_
      by_cases h : key e < n
      · simp [h, Nat.lt_succ_of_lt h]
      · simp [h]
    have hhigh : (l.filter fun e => key e < n + 1).filter (fun e => !decide (key e < n)) =
        group key l n := by
      rw [List.filter_filter]
      refine List.filter_congr fun e _ => ?_
      rw [Bool.eq_iff_iff]
      simp only [Bool.and_eq_true, Bool.not_eq_true', decide_eq_false_iff_not, decide_eq_true_eq]
      omega
    rw [hlow, hhigh] at hsplit
    unfold grouped
    rw [blocks_succ]
    exact (ih.append_right _).trans hsplit

theorem grouped_perm (hl : ∀ e ∈ l, key e < n) : (grouped key n l).Perm l := by
  have h := grouped_perm_filter key (n := n) (l := l)
  rwa [List.filter_eq_self.mpr fun e he => decide_eq_true (hl e he)] at h

theorem grouped_pairwise {R : α → α → Prop} (h : l.Pairwise R) :
    (grouped key n l).Pairwise fun a b => key a < key b ∨ key a = key b ∧ R a b := by
  unfold grouped blocks
  rw [List.pairwise_flatMap]
  constructor
  · intro b _
    have hgroup : (group key l b).Pairwise R := h.filter _
    refine hgroup.imp_of_mem ?_
    intro x y hx hy hxy
    simp only [group, List.mem_filter, decide_eq_true_eq] at hx hy
    exact .inr ⟨by rw [hx.2, hy.2], hxy⟩
  · refine List.Pairwise.imp ?_ List.pairwise_lt_range
    intro a b hab x hx y hy
    simp only [group, List.mem_filter, decide_eq_true_eq] at hx hy
    left
    omega

/-! ## The sort -/

/-- How many elements there are of each key. -/
def tally (n : Nat) (l : List α) : List Nat :=
  l.foldl (fun counts e => counts.modify (key e) (· + 1)) (List.replicate n 0)

/-- Each count is replaced by the sum of those before it. -/
def sumsBefore : Nat → List Nat → List Nat
  | _, [] => []
  | total, c :: counts => total :: sumsBefore (total + c) counts

/-- Each element goes to the cursor of its key, which moves on. -/
def scatter : List α → List Nat → List α → List α
  | [], _, dst => dst
  | e :: l, cursor, dst =>
    scatter l (cursor.modify (key e) (· + 1)) (dst.set (cursor.getD (key e) 0) e)

theorem modify_map_range {f : Nat → Nat} {i : Nat} {g : Nat → Nat} :
    ((List.range n).map f).modify i g = (List.range n).map (update f i (g (f i))) := by
  apply List.ext_getElem
  · simp
  · intro j h₁ h₂
    by_cases hij : i = j
    · simp [hij]
    · simp [hij, Ne.symm hij]

theorem tally_eq : tally key n l = (List.range n).map fun b => (group key l b).length := by
  have hfrom (counts : Nat → Nat) :
      l.foldl (fun counts e => counts.modify (key e) (· + 1)) ((List.range n).map counts) =
        (List.range n).map fun b => counts b + (group key l b).length := by
    induction l generalizing counts with
    | nil => simp [group]
    | cons e l ih =>
      rw [List.foldl_cons, modify_map_range, ih]
      refine List.map_congr_left fun b _ => ?_
      rw [group_cons, update_apply]
      by_cases heq : key e = b
      · subst heq
        simp only [if_true, List.length_cons]
        omega
      · rw [if_neg heq, if_neg (Ne.symm heq)]
  have hzero : List.replicate n 0 = (List.range n).map fun _ => 0 := by simp
  unfold tally
  rw [hzero, hfrom]
  simp

theorem sumsBefore_append {total c : Nat} {counts : List Nat} :
    sumsBefore total (counts ++ [c]) = sumsBefore total counts ++ [total + counts.sum] := by
  induction counts generalizing total with
  | nil => simp [sumsBefore]
  | cons d counts ih =>
    rw [List.cons_append, sumsBefore, ih, sumsBefore, List.sum_cons, List.cons_append,
      Nat.add_assoc]

theorem sumsBefore_lengths {f : Nat → List α} :
    sumsBefore 0 ((List.range n).map fun b => (f b).length) = (List.range n).map (start f) := by
  induction n with
  | zero => rfl
  | succ n ih =>
    rw [List.range_succ, List.map_append, List.map_append, List.map_singleton, sumsBefore_append]
    congr 2
    simp [start, blocks, List.length_flatMap]

/-- The elements to come fill the places that are left in each block. -/
theorem scatter_blocks (done : Nat → List α) {hole : Nat → List α} (hl : ∀ e ∈ l, key e < n)
    (hhole : ∀ b < n, (hole b).length = (group key l b).length) :
    scatter key l
      ((List.range n).map fun b => start (fun b => done b ++ hole b) b + (done b).length)
      (blocks n fun b => done b ++ hole b) = blocks n fun b => done b ++ group key l b := by
  induction l generalizing done hole with
  | nil =>
    refine blocks_congr fun b hb => ?_
    have hnil : hole b = [] := List.length_eq_zero_iff.mp (hhole b hb)
    rw [hnil]
    rfl
  | cons e l ih =>
    have hk : key e < n := hl e List.mem_cons_self
    have hlen := hhole _ hk
    rw [group_cons, if_pos rfl] at hlen
    cases hfree : hole (key e) with
    | nil =>
      rw [hfree] at hlen
      cases hlen
    | cons x free =>
      rw [hfree] at hlen
      -- the element takes the first free place of its block
      let done' := update done (key e) (done (key e) ++ [e])
      let hole' := update hole (key e) free
      have hblock (b : Nat) : done' b ++ hole' b = update (fun b => done b ++ hole b)
          (key e) ((done (key e) ++ hole (key e)).set (done (key e)).length e) b := by
        by_cases heq : b = key e
        · subst heq
          simp [done', hole', hfree]
        · simp [done', hole', heq]
      have hsize (b : Nat) : (done' b ++ hole' b).length = (done b ++ hole b).length := by
        by_cases heq : b = key e
        · subst heq
          simp only [done', hole', update_self, List.length_append, hfree,
            List.length_cons, List.length_nil]
          omega
        · simp [done', hole', heq]
      have hget : ((List.range n).map fun b =>
          start (fun b => done b ++ hole b) b + (done b).length).getD (key e) 0 =
            start (fun b => done b ++ hole b) (key e) + (done (key e)).length := by
        simp [List.getD_eq_getElem?_getD, hk]
      rw [scatter, modify_map_range, hget, blocks_set hk (by simp [hfree])]
      rw [← blocks_congr fun b _ => hblock b]
      have hcursor : (List.range n).map (update
          (fun b => start (fun b => done b ++ hole b) b + (done b).length) (key e)
          (start (fun b => done b ++ hole b) (key e) + (done (key e)).length + 1)) =
          (List.range n).map fun b =>
            start (fun b => done' b ++ hole' b) b + (done' b).length := by
        refine List.map_congr_left fun b _ => ?_
        rw [start_congr (f := fun b => done' b ++ hole' b) fun a _ => hsize a]
        by_cases heq : b = key e
        · subst heq
          simp only [done', update_self, List.length_append, List.length_singleton]
          omega
        · simp [done', heq]
      rw [hcursor, ih done' (fun x hx => hl x (.tail _ hx)) ?_]
      · refine blocks_congr fun b _ => ?_
        rw [group_cons]
        by_cases heq : b = key e
        · subst heq
          simp [done']
        · simp [done', heq, Ne.symm heq]
      · intro b hb
        by_cases heq : b = key e
        · subst heq
          simp only [hole', update_self]
          simpa using hlen
        · simp only [hole', update_of_ne heq]
          rw [hhole b hb, group_cons, if_neg (Ne.symm heq)]

theorem grouped_length (hl : ∀ e ∈ l, key e < n) :
    l.length = ((List.range n).map fun b => (group key l b).length).sum := by
  have h := (grouped_perm key hl).length_eq
  rw [grouped, blocks, List.length_flatMap] at h
  exact h.symm

/-- Counting, summing up and moving put the groups one after the other. -/
theorem scatter_eq {dst : List α} (hl : ∀ e ∈ l, key e < n) (hlen : dst.length = l.length) :
    scatter key l ((List.range n).map (start (group key l))) dst = grouped key n l := by
  obtain ⟨hole, hhole, rfl⟩ := exists_blocks (fun b => (group key l b).length)
    (hlen.trans (grouped_length key hl))
  have h := scatter_blocks key (fun _ => []) hl hhole
  have hstart : (List.range n).map (start (group key l)) = (List.range n).map (start hole) := by
    refine List.map_congr_left fun b hb => (start_congr fun a ha => hhole a ?_).symm
    have hbn := List.mem_range.mp hb
    omega
  rw [hstart]
  exact h

end

end CountingSort
