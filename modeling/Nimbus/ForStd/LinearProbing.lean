import Mathlib.Data.Fintype.Pigeonhole

/-!
# Open addressing with linear probing

Keys are kept in a list, and a table of buckets finds the position of a key in it. A bucket holds
0 when it is empty, else a position + 1. The search for a key starts at the bucket that its hash
selects and goes on to the next one, around the table, until it finds the key or an empty bucket.
-/

namespace LinearProbing

universe u

/-! ## The search -/

/-- The first bucket from `i` on, around the table, where `stop` holds. -/
def probe (size : Nat) (stop : Nat → Bool) : Nat → Nat → Option Nat
  | 0, _ => none
  | fuel + 1, i => if stop i then some i else probe size stop fuel ((i + 1) % size)

section

variable {size : Nat} {stop : Nat → Bool}

/-- `j` is the first bucket from `i` on where `stop` holds, `k` steps away. -/
structure FirstStop (size : Nat) (stop : Nat → Bool) (i k j : Nat) : Prop where
  eq : j = (i + k) % size
  stops : stop j
  before : ∀ m < k, ¬ stop ((i + m) % size)

theorem probe_firstStop {fuel i j : Nat} (hi : i < size)
    (h : probe size stop fuel i = some j) : ∃ k < fuel, FirstStop size stop i k j := by
  induction fuel generalizing i with
  | zero => exact nomatch h
  | succ fuel ih =>
    rw [probe] at h
    by_cases hstop : stop i
    · rw [if_pos hstop] at h
      cases h
      exact ⟨0, by omega, (Nat.mod_eq_of_lt hi).symm, hstop, fun m hm => absurd hm (by omega)⟩
    · rw [if_neg hstop] at h
      have hnext (m : Nat) : ((i + 1) % size + m) % size = (i + (m + 1)) % size := by
        rw [Nat.mod_add_mod, Nat.add_assoc, Nat.add_comm 1]
      obtain ⟨k, hk, hfirst⟩ := ih (Nat.mod_lt _ (by omega)) h
      refine ⟨k + 1, by omega, by rw [hfirst.eq, hnext], hfirst.stops, fun m hm => ?_⟩
      cases m with
      | zero =>
        rw [Nat.add_zero, Nat.mod_eq_of_lt hi]
        exact hstop
      | succ m =>
        rw [← hnext]
        exact hfirst.before m (by omega)

theorem probe_eq_none {fuel i : Nat} (hi : i < size) (h : probe size stop fuel i = none) :
    ∀ m < fuel, ¬ stop ((i + m) % size) := by
  induction fuel generalizing i with
  | zero => exact fun m hm => absurd hm (by omega)
  | succ fuel ih =>
    rw [probe] at h
    by_cases hstop : stop i
    · rw [if_pos hstop] at h
      cases h
    · rw [if_neg hstop] at h
      intro m hm
      cases m with
      | zero =>
        rw [Nat.add_zero, Nat.mod_eq_of_lt hi]
        exact hstop
      | succ m =>
        have hrest := ih (Nat.mod_lt _ (by omega)) h m (by omega)
        rw [Nat.mod_add_mod, Nat.add_assoc, Nat.add_comm 1] at hrest
        exact hrest

/-- Each bucket is less than a whole round away. -/
theorem exists_distance {i j : Nat} (hi : i < size) (hj : j < size) :
    ∃ k < size, (i + k) % size = j := by
  rcases Nat.le_total i j with hle | hle
  · exact ⟨j - i, by omega, by rw [Nat.add_sub_cancel' hle, Nat.mod_eq_of_lt hj]⟩
  · rcases Nat.eq_or_lt_of_le hle with rfl | hlt
    · exact ⟨0, by omega, Nat.mod_eq_of_lt hj⟩
    · refine ⟨j + size - i, by omega, ?_⟩
      rw [show i + (j + size - i) = j + size by omega, Nat.add_mod_right, Nat.mod_eq_of_lt hj]

/-- A search ends when there is a bucket to stop at. -/
theorem probe_total (stop : Nat → Bool) {i j : Nat} (hi : i < size) (hj : j < size)
    (hstop : stop j) :
    ∃ k b, probe size stop size i = some b ∧ k < size ∧ FirstStop size stop i k b := by
  cases h : probe size stop size i with
  | none =>
    obtain ⟨k, hk, heq⟩ := exists_distance hi hj
    have hno := probe_eq_none hi h k hk
    rw [heq] at hno
    exact absurd hstop hno
  | some b =>
    obtain ⟨k, hk, hfirst⟩ := probe_firstStop hi h
    exact ⟨k, b, rfl, hk, hfirst⟩

end

/-! ## The table -/

section

variable {κ : Type u}

/-- The bucket table finds the keys. -/
structure Table (hash : κ → Nat) (keys : List κ) (buckets : List Nat) : Prop where
  nodup : keys.Nodup
  /-- a bucket holds the position of a key -/
  valid : ∀ i, buckets.getD i 0 ≤ keys.length
  /-- no two buckets hold the same position -/
  inj : ∀ i j, buckets.getD i 0 = buckets.getD j 0 → buckets.getD i 0 ≠ 0 → i = j
  /-- the search for a key only passes buckets of older ones -/
  reach : ∀ id key, keys[id]? = some key → ∃ k < buckets.length,
    buckets.getD ((hash key + k) % buckets.length) 0 = id + 1 ∧
    ∀ m < k, buckets.getD ((hash key + m) % buckets.length) 0 ≠ 0 ∧
      buckets.getD ((hash key + m) % buckets.length) 0 ≤ id

variable {hash : κ → Nat} {keys : List κ} {buckets : List Nat}

theorem getD_replicate {size i : Nat} : (List.replicate size 0).getD i 0 = 0 := by
  rw [List.getD_eq_getElem?_getD, List.getElem?_replicate]
  split <;> rfl

theorem table_empty {size : Nat} : Table hash [] (List.replicate size 0) where
  nodup := List.nodup_nil
  valid i := by rw [getD_replicate, List.length_nil]
  inj i j _ h := absurd getD_replicate h
  reach id key h := nomatch h

theorem getD_set {i j x : Nat} (hi : i < buckets.length) :
    (buckets.set i x).getD j 0 = if i = j then x else buckets.getD j 0 := by
  by_cases hij : i = j
  · subst hij
    simp [hi]
  · simp [hij]

/-- Without its last keys, no older one is missed. -/
theorem Table.take (ht : Table hash keys buckets) {n : Nat} {buckets' : List Nat}
    (hn : n ≤ keys.length) (hlen : buckets'.length = buckets.length)
    (hget : ∀ j, buckets'.getD j 0 = if n < buckets.getD j 0 then 0 else buckets.getD j 0) :
    Table hash (keys.take n) buckets' where
  nodup := ht.nodup.take
  valid i := by
    rw [hget, List.length_take_of_le hn]
    split <;> omega
  inj i j hij hne := by
    rw [hget, hget] at hij
    rw [hget] at hne
    split_ifs at hij hne
    all_goals first | exact absurd rfl hne | exact absurd hij hne | exact ht.inj i j hij hne
  reach id key hid := by
    rw [List.getElem?_take] at hid
    split at hid
    · obtain ⟨k, hk, hat, hbefore⟩ := ht.reach id key hid
      rw [hlen]
      refine ⟨k, hk, by rw [hget, hat, if_neg (by omega)], fun m hm => ?_⟩
      have hpass := hbefore m hm
      rw [hget, if_neg (by omega)]
      exact hpass
    · cases hid

/-- Not every bucket can hold a key. -/
theorem Table.exists_empty (ht : Table hash keys buckets) (h : keys.length < buckets.length) :
    ∃ j < buckets.length, buckets.getD j 0 = 0 := by
  by_contra hfull
  have hne (i : Fin buckets.length) : buckets.getD i 0 ≠ 0 := fun h0 => hfull ⟨i, i.2, h0⟩
  have hlt (i : Fin buckets.length) : buckets.getD i 0 - 1 < keys.length := by
    have hle := ht.valid i
    have hpos := hne i
    omega
  obtain ⟨i, j, hij, heq⟩ := Fintype.exists_ne_map_eq_of_card_lt
    (fun i : Fin buckets.length => (⟨_, hlt i⟩ : Fin keys.length)) (by simpa using h)
  have hi := hne i
  have hj := hne j
  have hval := Fin.mk.inj_iff.mp heq
  exact hij (Fin.ext (ht.inj i j (by omega) hi))

/-- Where the search for a key ends. -/
theorem Table.search [BEq κ] [LawfulBEq κ] (ht : Table hash keys buckets) (key : κ) {i k : Nat}
    (h : FirstStop buckets.length
      (fun b => buckets.getD b 0 == 0 || keys[buckets.getD b 0 - 1]? == some key)
      (hash key % buckets.length) k i) :
    (buckets.getD i 0 = 0 ∧ key ∉ keys) ∨
      (buckets.getD i 0 ≠ 0 ∧ keys[buckets.getD i 0 - 1]? = some key) := by
  by_cases hzero : buckets.getD i 0 = 0
  · left
    refine ⟨hzero, fun hmem => ?_⟩
    obtain ⟨id, hid⟩ := List.mem_iff_getElem?.mp hmem
    obtain ⟨k', hk', hat, hbefore⟩ := ht.reach id key hid
    rcases Nat.lt_trichotomy k k' with hlt | rfl | hlt
    · -- the key lies behind this empty bucket
      refine (hbefore k hlt).1 ?_
      rw [← Nat.mod_add_mod, ← h.eq]
      exact hzero
    · rw [← Nat.mod_add_mod, ← h.eq, hzero] at hat
      cases hat
    · -- the search passed the key
      refine h.before k' hlt ?_
      rw [Nat.mod_add_mod, hat, Nat.add_sub_cancel, hid]
      simp
  · right
    have hstop := h.stops
    simp only [Bool.or_eq_true, beq_iff_eq] at hstop
    exact ⟨hzero, hstop.resolve_left hzero⟩

/-- A new key goes to the first empty bucket from where its search starts. -/
theorem Table.insert (ht : Table hash keys buckets) {key : κ} (hnew : key ∉ keys) {i k : Nat}
    (hk : k < buckets.length) (hi : i = (hash key + k) % buckets.length)
    (hempty : buckets.getD i 0 = 0)
    (hbefore : ∀ m < k, buckets.getD ((hash key + m) % buckets.length) 0 ≠ 0) :
    Table hash (keys ++ [key]) (buckets.set i (keys.length + 1)) := by
  have hlt : i < buckets.length := by
    rw [hi]
    exact Nat.mod_lt _ (by omega)
  have hfresh (j : Nat) : buckets.getD j 0 ≠ keys.length + 1 := by
    have hle := ht.valid j
    omega
  refine ⟨?_, fun j => ?_, fun a b hab hne => ?_, fun id x hx => ?_⟩
  · rw [List.nodup_append]
    refine ⟨ht.nodup, List.nodup_singleton _, fun a ha b hb hab => hnew ?_⟩
    rw [List.mem_singleton.mp hb] at hab
    exact hab ▸ ha
  · rw [getD_set hlt, List.length_append, List.length_singleton]
    have hle := ht.valid j
    split <;> omega
  · rw [getD_set hlt, getD_set hlt] at hab
    rw [getD_set hlt] at hne
    by_cases ha : i = a <;> by_cases hb : i = b
    · exact ha.symm.trans hb
    · rw [if_pos ha, if_neg hb] at hab
      exact absurd hab.symm (hfresh b)
    · rw [if_neg ha, if_pos hb] at hab
      exact absurd hab (hfresh a)
    · rw [if_neg ha, if_neg hb] at hab
      rw [if_neg ha] at hne
      exact ht.inj a b hab hne
  · rw [List.length_set]
    rw [List.getElem?_append] at hx
    by_cases hid : id < keys.length
    · rw [if_pos hid] at hx
      -- the older keys are found as before
      obtain ⟨k', hk', hat, hpass⟩ := ht.reach id x hx
      have hmiss {j : Nat} (hj : buckets.getD j 0 ≠ 0) : ¬ i = j := by
        rintro rfl
        exact hj hempty
      refine ⟨k', hk', ?_, fun m hm => ?_⟩
      · rw [getD_set hlt, if_neg (hmiss (by omega)), hat]
      · rw [getD_set hlt, if_neg (hmiss (hpass m hm).1)]
        exact hpass m hm
    · rw [if_neg hid, List.getElem?_singleton] at hx
      have hlast : id = keys.length := by
        by_contra hne
        rw [if_neg (by omega)] at hx
        cases hx
      subst hlast
      rw [Nat.sub_self] at hx
      cases hx
      refine ⟨k, hk, ?_, fun m hm => ?_⟩
      · rw [getD_set hlt, if_pos hi]
      · have hne := hbefore m hm
        rw [getD_set hlt, if_neg (by rintro rfl; exact hne hempty)]
        exact ⟨hne, ht.valid _⟩

end

end LinearProbing
