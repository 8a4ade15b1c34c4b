import Mathlib.Data.List.Nodup

/-!
# Maps that forget what was not used for longest

A map of a bounded number of entries, in the order in which they were used last. An insertion into
a full map makes room by the entry that comes last.
-/

namespace Nimbus

/-- Entries, the most recently used one first. -/
@[ext]
structure RecencyMap (K V : Type) where
  capacity : Nat
  items : List (K × V)
  nodup : (items.map Prod.fst).Nodup
  length_le : items.length ≤ capacity

namespace RecencyMap

variable {K V : Type}

/-- No entries yet. -/
def empty (capacity : Nat) : RecencyMap K V := ⟨capacity, [], .nil, Nat.zero_le _⟩

def len (m : RecencyMap K V) : Nat := m.items.length

def values (m : RecencyMap K V) : List V := m.items.map Prod.snd

variable [DecidableEq K] (m : RecencyMap K V) (k : K)

/-- The value of a key, without using it. -/
def peek : Option V := (m.items.find? fun e => e.1 = k).map Prod.snd

/-- The entries of the other keys. -/
def others : List (K × V) := m.items.filter fun e => e.1 ≠ k

theorem others_nodup : ((m.others k).map Prod.fst).Nodup :=
  m.nodup.sublist (List.filter_sublist.map Prod.fst)

theorem others_length_le : (m.others k).length ≤ m.items.length := List.length_filter_le _ _

theorem notMem_others : k ∉ (m.others k).map Prod.fst := by
  intro h
  obtain ⟨e, he, rfl⟩ := List.mem_map.mp h
  exact of_decide_eq_true (List.mem_filter.mp he).2 rfl

def erase : RecencyMap K V where
  capacity := m.capacity
  items := m.others k
  nodup := m.others_nodup k
  length_le := Nat.le_trans (m.others_length_le k) m.length_le

/-- The entry becomes the most recently used one. -/
def put (v : V) : RecencyMap K V where
  capacity := m.capacity
  items := ((k, v) :: m.others k).take m.capacity
  nodup := by
    have h : (((k, v) :: m.others k).map Prod.fst).Nodup :=
      List.nodup_cons.mpr ⟨m.notMem_others k, m.others_nodup k⟩
    exact h.sublist ((List.take_sublist _ _).map Prod.fst)
  length_le := List.length_take_le _ _

/-- The value of a key, which is used by this. -/
def get : Option V × RecencyMap K V :=
  match m.peek k with
  | some v => (some v, m.put k v)
  | none => (none, m)

theorem mem_of_peek {v : V} (h : m.peek k = some v) : (k, v) ∈ m.items := by
  obtain ⟨e, hfind, rfl⟩ := Option.map_eq_some_iff.mp h
  have hkey : e.1 = k := of_decide_eq_true (List.find?_some hfind :)
  rw [← hkey]
  exact List.mem_of_find?_eq_some hfind

/-- Using an entry moves it only. -/
theorem mem_of_mem_get {e : K × V} (h : e ∈ (m.get k).2.items) : e ∈ m.items := by
  unfold get at h
  split at h
  · rename_i v hpeek
    rcases List.mem_cons.mp (List.mem_of_mem_take h) with rfl | hother
    · exact m.mem_of_peek k hpeek
    · exact List.mem_of_mem_filter hother
  · exact h

/-- A new value for a key that is there, which is used by this. -/
def update (v : V) : Bool × RecencyMap K V :=
  if (m.peek k).isSome then (true, m.put k v) else (false, m)

/-- A new value for a key that is there, where it stands. -/
def refresh (v : V) : Bool × RecencyMap K V :=
  ((m.peek k).isSome, {
    capacity := m.capacity
    items := m.items.map fun e => if e.1 = k then (k, v) else e
    nodup := by
      have h : (m.items.map fun e => if e.1 = k then (k, v) else e).map Prod.fst =
          m.items.map Prod.fst := by
        rw [List.map_map]
        refine List.map_congr_left fun e _ => ?_
        by_cases he : e.1 = k
        · simp [he]
        · simp [he]
      rw [h]
      exact m.nodup
    length_le := by
      rw [List.length_map]
      exact m.length_le })

/-- The value of a key, which is taken out. -/
def pop : Option V × RecencyMap K V := (m.peek k, m.erase k)

/-- What an insertion replaces (`false`) or takes out for want of room (`true`). -/
def evicted : Option (Bool × K × V) :=
  match m.peek k with
  | some v => some (false, k, v)
  | none => if m.items.length = m.capacity then (m.items.getLast?).map (true, ·) else none

/-! ## By where a key stands -/

section
variable {m} {k} {v w : V} {pre post : List (K × V)}

theorem peek_fresh (h : ∀ e ∈ m.items, e.1 ≠ k) : m.peek k = none := by
  rw [peek, Option.map_eq_none_iff, List.find?_eq_none]
  exact fun e he => by simpa using h e he

theorem others_fresh (h : ∀ e ∈ m.items, e.1 ≠ k) : m.others k = m.items :=
  List.filter_eq_self.mpr fun e he => decide_eq_true (h e he)

section

variable (h : m.items = pre ++ (k, v) :: post)
include h

omit [DecidableEq K] in
theorem fresh_of_split : (∀ e ∈ pre, e.1 ≠ k) ∧ ∀ e ∈ post, e.1 ≠ k := by
  have hnodup := m.nodup
  rw [h, List.map_append, List.map_cons, List.nodup_append, List.nodup_cons] at hnodup
  obtain ⟨-, ⟨hpost, -⟩, hdisj⟩ := hnodup
  exact ⟨fun e he => hdisj e.1 (List.mem_map_of_mem he) k (.head _),
    fun e he heq => hpost (List.mem_map.mpr ⟨e, he, heq⟩)⟩

theorem others_split : m.others k = pre ++ post := by
  obtain ⟨hpre, hpost⟩ := fresh_of_split h
  rw [others, h, List.filter_append, List.filter_cons_of_neg (by simp)]
  congr 1
  · exact List.filter_eq_self.mpr fun e he => decide_eq_true (hpre e he)
  · exact List.filter_eq_self.mpr fun e he => decide_eq_true (hpost e he)

theorem peek_split : m.peek k = some v := by
  have hpre : pre.find? (fun e => decide (e.1 = k)) = none :=
    List.find?_eq_none.mpr fun e he => by simpa using (fresh_of_split h).1 e he
  rw [peek, h, List.find?_append, hpre, List.find?_cons_of_pos (by simp)]
  rfl

theorem put_split : (m.put k w).items = (k, w) :: (pre ++ post) := by
  have hlen := m.length_le
  rw [h, List.length_append] at hlen
  change ((k, w) :: m.others k).take m.capacity = _
  rw [others_split h, List.take_of_length_le]
  rw [List.length_cons, List.length_append]
  omega

end

theorem put_fresh (h : ∀ e ∈ m.items, e.1 ≠ k) (hroom : m.items.length < m.capacity) :
    (m.put k w).items = (k, w) :: m.items := by
  change ((k, w) :: m.others k).take m.capacity = _
  rw [others_fresh h, List.take_of_length_le]
  exact hroom

/-- The entry that was not used for longest makes room. -/
theorem put_of_full (h : ∀ e ∈ m.items, e.1 ≠ k) (hfull : m.items.length = m.capacity)
    {last : K × V} (hlast : m.items = pre ++ [last]) : (m.put k w).items = (k, w) :: pre := by
  have hlen : m.capacity = pre.length + 1 := by
    rw [← hfull, hlast, List.length_append, List.length_singleton]
  change ((k, w) :: m.others k).take m.capacity = _
  rw [others_fresh h, hlast, hlen, List.take_succ_cons, List.take_left]

theorem put_none (h : m.capacity = 0) : m.put k w = m := by
  have hlen := m.length_le
  have hempty : m.items = [] := List.eq_nil_of_length_eq_zero (by omega)
  refine RecencyMap.ext rfl ?_
  change ((k, w) :: m.others k).take m.capacity = _
  rw [h, hempty]
  rfl

theorem erase_split (h : m.items = pre ++ (k, v) :: post) : (m.erase k).items = pre ++ post :=
  others_split h

theorem refresh_split (h : m.items = pre ++ (k, v) :: post) :
    (m.refresh k w).2.items = pre ++ (k, w) :: post := by
  obtain ⟨hpre, hpost⟩ := fresh_of_split h
  have hkeep {l : List (K × V)} (hl : ∀ e ∈ l, e.1 ≠ k) :
      l.map (fun e => if e.1 = k then (k, w) else e) = l := by
    rw [List.map_congr_left fun e he => if_neg (hl e he), List.map_id']
  change m.items.map (fun e => if e.1 = k then (k, w) else e) = _
  rw [h, List.map_append, List.map_cons, hkeep hpre, hkeep hpost, if_pos rfl]

end

end RecencyMap

end Nimbus
