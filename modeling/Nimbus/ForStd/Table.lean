import Mathlib.Data.List.AList

/-!
# Hash tables as association lists

`Table K V` is Mathlib's association list without duplicate keys at one value type. It
gives the operations of a hash table that are missing there: changing a value in place,
deleting by a condition, and copying one table over another. A table is only ever read
through `lookup`, so each operation comes with the lookups of its result.
-/

universe u v w

/-- A hash table with keys `K` and values `V`. -/
abbrev Table (K : Type u) (V : Type v) := AList fun _ : K => V

namespace Table

variable {K : Type u} {V : Type v} {W : Type w}

variable (t : Table K V)

/-- The number of entries. -/
def len : Nat := t.entries.length

variable [DecidableEq K]

/-- `withValue`: changes the value of a key in place when there is one. -/
def modify (k : K) (f : V → V) : Table K V :=
  match t.lookup k with
  | some v => t.insert k (f v)
  | none => t

/-- Deletes the entries that meet the condition `p`. -/
def delIf (p : K → V → Bool) : Table K V :=
  ⟨t.entries.filter fun e => !p e.1 e.2, t.nodupKeys.sublist (List.filter_sublist)⟩

/-- `for k, v in src: trg[k] = f k v` -/
def putAll (f : K → V → W) (src : Table K V) (trg : Table K W) : Table K W :=
  src.entries.foldl (fun t e => t.insert e.1 (f e.1 e.2)) trg

/-- `for k in src.keys: trg.del k` -/
def delAll (src : Table K V) (trg : Table K W) : Table K W :=
  src.entries.foldl (fun t e => t.erase e.1) trg

/-! ## Lookups -/

theorem lookup_eq_dlookup (k : K) : t.lookup k = t.entries.dlookup k := rfl

theorem lookup_insert' (k k' : K) (v : V) :
    (t.insert k v).lookup k' = if k' = k then some v else t.lookup k' := by
  split
  · next h => subst h; exact AList.lookup_insert t
  · next h => exact AList.lookup_insert_ne h

theorem lookup_erase' (k k' : K) :
    (t.erase k).lookup k' = if k' = k then none else t.lookup k' := by
  split
  · next h => subst h; exact AList.lookup_erase k' t
  · next h => exact AList.lookup_erase_ne h

theorem lookup_modify (k k' : K) (f : V → V) :
    (t.modify k f).lookup k' = if k' = k then (t.lookup k).map f else t.lookup k' := by
  unfold modify
  split
  · next v hv => rw [hv]; exact lookup_insert' t k k' (f v)
  · next hv =>
    rw [hv, Option.map_none]
    split
    · next h => rw [h, hv]
    · rfl

theorem lookup_union (s t : Table K V) (k : K) :
    (s ∪ t).lookup k = (s.lookup k).or (t.lookup k) := by
  by_cases hs : k ∈ s
  · obtain ⟨v, hv⟩ := Option.isSome_iff_exists.mp (AList.lookup_isSome.mpr hs)
    rw [AList.lookup_union_left hs, hv, Option.some_or]
  · rw [AList.lookup_union_right hs, AList.lookup_eq_none.mpr hs, Option.none_or]

variable {t : Table K V}

/-- A table has no entries exactly when no key has a value. -/
theorem len_eq_zero_iff : t.len = 0 ↔ ∀ k, t.lookup k = none := by
  constructor
  · intro h k
    have hnil : t.entries = [] := List.length_eq_zero_iff.mp h
    rw [lookup_eq_dlookup, hnil, List.dlookup_nil]
  · intro h
    cases hent : t.entries with
    | nil => simp [len, hent]
    | cons e es =>
      have hk := h e.1
      rw [lookup_eq_dlookup, hent, List.dlookup_eq_none] at hk
      exact absurd List.mem_cons_self hk

theorem len_erase {k : K} {v : V} (h : t.lookup k = some v) :
    len (t.erase k) + 1 = t.len := by
  have hmem := AList.mem_lookup_iff.mp h
  have hlen : (t.entries.kerase k).length = t.entries.length - 1 :=
    List.length_eraseP_of_mem hmem (decide_eq_true rfl)
  have hpos := List.length_pos_of_mem hmem
  show (t.entries.kerase k).length + 1 = t.entries.length
  omega

variable (t) in
theorem len_erase_le (k : K) : len (t.erase k) ≤ t.len :=
  (List.kerase_sublist k t.entries).length_le

theorem len_insert_of_none {k : K} {v : V} (h : t.lookup k = none) :
    len (t.insert k v) = t.len + 1 := by
  have hmem : k ∉ t := AList.lookup_eq_none.mp h
  unfold len
  rw [AList.entries_insert_of_notMem hmem, List.length_cons]

theorem len_insert_of_some {k : K} {v w : V} (h : t.lookup k = some w) :
    len (t.insert k v) = t.len := by
  have hlen := len_erase h
  rw [← hlen]
  rfl

private theorem dlookup_filter {l : List (Sigma fun _ : K => V)} (p : K → V → Bool) (k : K)
    (hl : l.NodupKeys) :
    (l.filter fun e => !p e.1 e.2).dlookup k = (l.dlookup k).filter fun v => !p k v := by
  induction l with
  | nil => rfl
  | cons e es ih =>
    rw [List.nodupKeys_cons] at hl
    obtain ⟨k', v⟩ := e
    by_cases hk : k = k'
    · subst hk
      rw [List.dlookup_cons_eq, Option.filter_some]
      cases hp : p k v with
      | false => simp [hp]
      | true =>
        have hnone : es.dlookup k = none := List.dlookup_eq_none.mpr hl.1
        simp [hp, ih hl.2, hnone]
    · rw [List.dlookup_cons_ne es ⟨k', v⟩ hk, ← ih hl.2]
      cases hp : p k' v with
      | false =>
        rw [List.filter_cons_of_pos (by simp [hp])]
        exact List.dlookup_cons_ne _ (⟨k', v⟩ : Sigma fun _ : K => V) hk
      | true => simp [hp]

theorem lookup_delIf (p : K → V → Bool) (k : K) :
    (t.delIf p).lookup k = (t.lookup k).filter fun v => !p k v :=
  dlookup_filter p k t.nodupKeys

private theorem lookup_foldl_insert {l : List (Sigma fun _ : K => V)} (f : K → V → W)
    (trg : Table K W) (k : K) (hl : l.NodupKeys) :
    (l.foldl (fun (t : Table K W) e => t.insert e.1 (f e.1 e.2)) trg).lookup k =
      ((l.dlookup k).map (f k)).or (trg.lookup k) := by
  induction l generalizing trg with
  | nil => simp
  | cons e es ih =>
    rw [List.nodupKeys_cons] at hl
    obtain ⟨k', v⟩ := e
    rw [List.foldl_cons, ih _ hl.2]
    by_cases hk : k = k'
    · subst hk
      have hnone : es.dlookup k = none := List.dlookup_eq_none.mpr hl.1
      rw [hnone, List.dlookup_cons_eq, lookup_insert', if_pos rfl]
      rfl
    · rw [List.dlookup_cons_ne es ⟨k', v⟩ hk, lookup_insert', if_neg hk]

theorem lookup_putAll (f : K → V → W) (src : Table K V) (trg : Table K W) (k : K) :
    (putAll f src trg).lookup k = ((src.lookup k).map (f k)).or (trg.lookup k) :=
  lookup_foldl_insert f trg k src.nodupKeys

end Table
