import Nimbus.ForStd.ParentTree

/-!
# Delta chains

A store that keeps its recent changes in a forest of layers over a disk. Each layer holds
the keys written in it; a read at a layer takes the nearest write on the way to the root,
and the disk when there is none. `DeltaChain` is that store with its own operations:
`fork` opens a layer, `write` changes one, `drop` cuts one off and `flush` writes a layer
with everything below it to the disk and makes it the root.
-/

namespace ParentTree

universe u v

variable {α : Type u} {β : Type v} {par par' : Nat → Option Nat} {g : Nat → Option α} {i : Nat}

/-- More fuel than a node's number does not change its chain. -/
theorem chain_fuel (hd : Decreasing par) {m n i : Nat} (hm : i < m) (hn : i < n) :
    chain par m (some i) = chain par n (some i) := by
  induction m generalizing n i with
  | zero => omega
  | succ m ih =>
    cases n with
    | zero => omega
    | succ n =>
      simp only [chain]
      cases hp : par i with
      | none => simp
      | some p =>
        have hlt := hd i p hp
        rw [ih (n := n) (by omega) (by omega)]

/-- The value at the nearest ancestor of `i`, the node itself first, that has one. -/
def nearest (par : Nat → Option Nat) (g : Nat → Option α) (i : Nat) : Option α :=
  (chain par (i + 1) (some i)).findSome? g

theorem nearest_eq (hd : Decreasing par) (g : Nat → Option α) (i : Nat) :
    nearest par g i = (g i).or ((par i).bind (nearest par g)) := by
  unfold nearest
  rw [chain, List.findSome?_cons]
  cases hg : g i with
  | some x => simp
  | none =>
    cases hp : par i with
    | none => simp
    | some p =>
      have hlt := hd i p hp
      rw [chain_fuel hd (n := p + 1) hlt (by omega)]
      simp

theorem nearest_self (hd : Decreasing par) {x : α}
    (h : g i = some x) : nearest par g i = some x := by
  rw [nearest_eq hd, h, Option.some_or]

theorem nearest_root (hd : Decreasing par) (g : Nat → Option α)
    (h : par i = none) : nearest par g i = g i := by
  rw [nearest_eq hd, h, Option.bind_none, Option.or_none]

theorem nearest_step (hd : Decreasing par) (g : Nat → Option α) {i p : Nat}
    (h : par i = some p) : nearest par g i = (g i).or (nearest par g p) := by
  rw [nearest_eq hd, h, Option.bind_some]

/-- A nearest value is the value of an ancestor. -/
theorem anc_of_nearest {x : α}
    (h : nearest par g i = some x) : ∃ a, Anc par i a ∧ g a = some x := by
  obtain ⟨a, ha, hx⟩ := List.exists_of_findSome?_eq_some h
  exact ⟨a, anc_of_mem_chain ha, hx⟩

/-- The nearest value depends only on the parents and the values of the ancestors. -/
theorem nearest_congr {g g' : Nat → Option α}
    (h : ∀ a, Anc par i a → par' a = par a ∧ g' a = g a) : nearest par' g' i = nearest par g i := by
  have hchain : chain par' (i + 1) (some i) = chain par (i + 1) (some i) :=
    chain_congr fun a ha => (h a (anc_of_mem_chain ha)).1
  have hvalues : ∀ (l : List Nat), (∀ a ∈ l, g' a = g a) →
      l.findSome? g' = l.findSome? g := by
    intro l hl
    induction l with
    | nil => rfl
    | cons a l ih =>
      rw [List.findSome?_cons, List.findSome?_cons, hl a List.mem_cons_self,
        ih fun b hb => hl b (List.mem_cons_of_mem a hb)]
  unfold nearest
  rw [hchain]
  exact hvalues _ fun a ha => (h a (anc_of_mem_chain ha)).2

theorem nearest_map (hd : Decreasing par) {h : Nat → Option β}
    {f : β → α} (hg : ∀ a, g a = (h a).map f) (i : Nat) :
    nearest par g i = (nearest par h i).map f := by
  induction i using Nat.strongRecOn with
  | ind i ih =>
    rw [nearest_eq hd g, nearest_eq hd h, hg i]
    cases hi : h i with
    | some x => rfl
    | none =>
      cases hp : par i with
      | none => rfl
      | some p => simpa using ih p (hd i p hp)

/-- When `par'` cuts the chain of `j` at `i`, the search in `par` is one above `i` and, if
that fails, one from `i`. -/
theorem nearest_cut (hd : Decreasing par) (hd' : Decreasing par') {g g' : Nat → Option α}
    {i j : Nat} (hanc : Anc par j i) (hroot : par' i = none) (hnone : g' i = none)
    (hpar : ∀ a, a ≠ i → Anc par a i → par' a = par a)
    (hval : ∀ a, a ≠ i → Anc par a i → g' a = g a) :
    nearest par g j = (nearest par' g' j).or (nearest par g i) := by
  induction j using Nat.strongRecOn with
  | ind j ih =>
    by_cases hji : j = i
    · subst hji
      rw [nearest_root hd' _ hroot, hnone, Option.none_or]
    · obtain ⟨p, hp, hpi⟩ := hanc.cases_parent.resolve_left hji
      have hp' : par' j = some p := by rw [hpar j hji hanc, hp]
      rw [nearest_step hd _ hp, nearest_step hd' _ hp', hval j hji hanc, Option.or_assoc]
      exact congrArg _ (ih p (hd j p hp) hpi)

end ParentTree

open ParentTree

universe u v

/-- Layers of changes over a disk. Layers are numbered in the order they are opened, and
`base` is the layer next to the disk. -/
structure DeltaChain (K : Type u) (V : Type v) where
  parent : Nat → Option Nat
  next : Nat
  delta : Nat → K → Option V
  disk : K → V
  base : Nat
  parent_lt : Decreasing parent
  parent_next : ∀ i p, parent i = some p → i < next
  base_lt : base < next
  base_root : parent base = none

namespace DeltaChain

variable {K : Type u} {V : Type v}

variable (c : DeltaChain K V)

/-- The layer `i` lies over the base. -/
def InTree (i : Nat) : Prop := Anc c.parent i c.base

/-- The most recent write of `k` along the ancestors of `i`. -/
def written (i : Nat) (k : K) : Option V :=
  nearest c.parent (fun j => c.delta j k) i

/-- What a read of `k` at the layer `i` returns. -/
def view (i : Nat) (k : K) : V := (c.written i k).getD (c.disk k)

/-- A store without changes. -/
def ofDisk (disk : K → V) : DeltaChain K V where
  parent := fun _ => none
  next := 1
  delta := fun _ _ => none
  disk := disk
  base := 0
  parent_lt := fun _ _ h => by cases h
  parent_next := fun _ _ h => by cases h
  base_lt := Nat.zero_lt_one
  base_root := rfl

/-- Opens the layer `c.next` over `p`. -/
def fork (p : Nat) : DeltaChain K V :=
  if hp : p < c.next then
    { c with
      parent := Function.update c.parent c.next (some p)
      next := c.next + 1
      delta := Function.update c.delta c.next fun _ => none
      parent_lt := by
        intro i q h
        by_cases hi : i = c.next
        · subst hi
          rw [Function.update_self] at h
          cases h
          exact hp
        · rw [Function.update_of_ne hi] at h
          exact c.parent_lt i q h
      parent_next := by
        intro i q h
        by_cases hi : i = c.next
        · omega
        · rw [Function.update_of_ne hi] at h
          exact Nat.lt_succ_of_lt (c.parent_next i q h)
      base_lt := Nat.lt_succ_of_lt c.base_lt
      base_root := by
        rw [Function.update_of_ne (Nat.ne_of_lt c.base_lt)]
        exact c.base_root }
  else c

def write [DecidableEq K] (c : DeltaChain K V) (i : Nat) (k : K) (v : V) : DeltaChain K V :=
  { c with delta := Function.update c.delta i (Function.update (c.delta i) k (some v)) }

private theorem cut_parent {i j q : Nat}
    (h : Function.update c.parent i none j = some q) : c.parent j = some q := by
  by_cases hj : j = i
  · rw [hj, Function.update_self] at h
    cases h
  · rwa [Function.update_of_ne hj] at h

private theorem cut_decreasing (i : Nat) : Decreasing (Function.update c.parent i none) :=
  fun j q h => c.parent_lt j q (c.cut_parent h)

/-- Cuts the layer `i` off its parent. -/
def drop (i : Nat) : DeltaChain K V :=
  { c with
    parent := Function.update c.parent i none
    parent_lt := c.cut_decreasing i
    parent_next := fun j q h => c.parent_next j q (c.cut_parent h)
    base_root := by
      by_cases hi : c.base = i
      · rw [hi, Function.update_self]
      · rw [Function.update_of_ne hi]
        exact c.base_root }

/-- Writes what the layer `i` shows to the disk and makes `i` the base. -/
def flush (i : Nat) : DeltaChain K V :=
  if hi : i < c.next then
    { c with
      parent := Function.update c.parent i none
      delta := Function.update c.delta i fun _ => none
      disk := c.view i
      base := i
      parent_lt := c.cut_decreasing i
      parent_next := fun j q h => c.parent_next j q (c.cut_parent h)
      base_lt := hi
      base_root := Function.update_self i none c.parent }
  else c

/-- A flush of `i` moves no read of a layer over `i`: its own later writes stay, and the
disk answers for the rest. -/
theorem view_flush (c : DeltaChain K V) {i j : Nat} (hi : i < c.next)
    (hanc : Anc c.parent j i) : (c.flush i).view j = c.view j := by
  funext k
  let delta' := Function.update c.delta i fun _ => none
  have hnone : delta' i k = none := by simp [delta']
  have hdelta : ∀ a, a ≠ i → Anc c.parent a i → delta' a k = c.delta a k := by
    intro a ha _
    simp [delta', Function.update_of_ne ha]
  have hcut : c.written j k =
      (nearest (Function.update c.parent i none) (fun a => delta' a k) j).or
        (c.written i k) :=
    nearest_cut c.parent_lt (c.cut_decreasing i) hanc
      (Function.update_self i none c.parent) hnone
      (fun a ha _ => Function.update_of_ne ha _ _) hdelta
  have hview : (c.flush i).view j k =
      (nearest (Function.update c.parent i none) (fun a => delta' a k) j).getD
        (c.view i k) := by
    rw [flush, dif_pos hi]
    rfl
  have hbefore : c.view j k = (c.written j k).getD (c.disk k) := rfl
  rw [hview, hbefore, hcut]
  cases nearest (Function.update c.parent i none) (fun a => delta' a k) j <;> rfl

end DeltaChain
