import Nimbus.Spec.LruGrow

/-!
# The cache is a map that forgets what was used least recently

Every operation returns what it returns for the map, and leaves a cache that represents the map
behind. What an insertion evicts is in the tail, which is a node in use exactly if there is no
other room.
-/

namespace Nimbus.Spec.Lru

open Native Native.Lru RobinHood LruCache Function

variable {K V : Type} [DecidableEq K] [Hashable K]

/-! ## What the map does -/

def perform (m : RecencyMap K V) : Op K V → Out K V × RecencyMap K V
  | .put key value => (.flag ((m.peek key).isNone && m.len < m.capacity), m.put key value)
  | .get key => (.value (m.get key).1, (m.get key).2)
  | .peek key => (.value (m.peek key), m)
  | .del key => (.flag (m.peek key).isSome, m.erase key)
  | .pop key => (.value (m.pop key).1, (m.pop key).2)
  | .update key value => (.flag (m.update key value).1, (m.update key value).2)
  | .refresh key value => (.flag (m.refresh key value).1, (m.refresh key value).2)
  | .putWithEvicted key value => (.evicted (m.evicted key), m.put key value)

def performAll : RecencyMap K V → List (Op K V) → List (Out K V) × RecencyMap K V
  | m, [] => ([], m)
  | m, op :: ops =>
    ((perform m op).1 :: (performAll (perform m op).2 ops).1, (performAll (perform m op).2 ops).2)

omit [Hashable K] in
theorem perform_capacity (m : RecencyMap K V) (op : Op K V) :
    (perform m op).2.capacity = m.capacity := by
  cases op with
  | get key =>
    change (m.get key).2.capacity = _
    rw [RecencyMap.get]
    split
    · rfl
    · rfl
  | update key value =>
    change (m.update key value).2.capacity = _
    rw [RecencyMap.update]
    split
    · rfl
    · rfl
  | _ => rfl

omit [Hashable K] in
theorem performAll_capacity (m : RecencyMap K V) (ops : List (Op K V)) :
    (performAll m ops).2.capacity = m.capacity := by
  induction ops generalizing m with
  | nil => rfl
  | cons op ops ih => exact (ih _).trans (perform_capacity m op)

/-! ## Lookups -/

section
variable {c : LruCache K V} {used free pre post : List Nat} {m : RecencyMap K V} {key : K} {i : Nat}

/-- What a lookup of a key comes to. -/
def Points (c : LruCache K V) (used : List Nat) (key : K) : Option Nat → Prop
  | some i => i ∈ used ∧ (item c i).1 = key
  | none => ∀ i ∈ used, (item c i).1 ≠ key

theorem tableGet_spec (h : Represents c used free m) (key : K) :
    ∃ found, c.tableGet (subhash key) key = some found ∧ Points c used key found := by
  unfold tableGet
  by_cases hused : c.used = 0
  · rw [if_pos hused]
    refine ⟨none, rfl, fun i hi => ?_⟩
    have := List.length_pos_of_mem hi
    have := h.count
    omega
  · rw [if_neg hused]
    have hpos : 0 < used.length := by
      rw [h.count]
      omega
    obtain ⟨i, hi⟩ := List.exists_mem_of_length_pos hpos
    obtain ⟨found, hfound, hfinds⟩ := (h.layout_of_mem hi).find key
    rw [hfound]
    cases found with
    | none => exact ⟨none, rfl, hfinds⟩
    | some bi =>
      obtain ⟨-, j, hj, hentry, hkey⟩ := hfinds
      exact ⟨some j, congrArg (some ∘ some) (index_of_entries hentry), hj, hkey⟩

theorem Represents.lookup (h : Represents c used free m) (key : K) :
    (c.tableGet (subhash key) key = some none ∧ (∀ i ∈ used, (item c i).1 ≠ key) ∧
      m.peek key = none) ∨
    ∃ pre i post, used = pre ++ i :: post ∧ (item c i).1 = key ∧
      c.tableGet (subhash key) key = some (some i) ∧ m.peek key = some (item c i).2 := by
  obtain ⟨found, hfound, hpoints⟩ := tableGet_spec h key
  cases found with
  | none => exact .inl ⟨hfound, hpoints, RecencyMap.peek_fresh (h.fresh hpoints)⟩
  | some i =>
    obtain ⟨hi, hkey⟩ := hpoints
    obtain ⟨pre, post, rfl⟩ := List.append_of_mem hi
    exact .inr ⟨pre, i, post, rfl, hkey, hfound, RecencyMap.peek_split (h.split hkey)⟩

/-! ## Moves -/

section

variable (h : Represents c (pre ++ i :: post) free m) (hkey : (item c i).1 = key)
include h hkey

theorem Represents.front (value : V) :
    Represents ((c.setValue i value).moveToFront i) (i :: (pre ++ post)) free
      (m.put key value) := by
  have hlayout := h.layout_of_mem (List.mem_append_right pre (.head post))
  have hmoved := moveToFront_moved (c.setValue i value) i
  have hsplit := h.split hkey
  refine ⟨.inr ?_, ?_, ?_, h.capacity.trans hmoved.capacity.symm, ?_⟩
  · have hfront : Layout (c.setValue i value) (pre ++ i :: (post ++ free)) (pre ++ i :: post) := by
      have := hlayout.setValue (i := i) value
      rwa [List.append_assoc] at this
    have := hfront.moveToFront
    rw [← List.append_assoc] at this
    refine ⟨this.ring, this.range, fun j hj => ?_, this.size, this.fits, this.table, fun e => ?_⟩
    · exact List.mem_append_left _ hj
    · rw [this.holds]
      simp only [List.perm_middle.mem_iff]
  · rw [hmoved.used]
    refine Eq.trans ?_ h.count
    exact List.perm_middle.symm.length_eq
  · have hitem : item (c.setValue i value) i = (key, value) := by
      rw [item_setValue, update_self, hkey]
    rw [RecencyMap.put_split hsplit, hmoved.items, List.map_cons, hitem,
      map_item_setValue h.notMem.1, List.map_append]
  · rw [hmoved.nodesLen, hmoved.capacity]
    exact h.bound

theorem Represents.refreshed (value : V) :
    Represents (c.setValue i value) (pre ++ i :: post) free (m.refresh key value).2 := by
  have hlayout := h.layout_of_mem (List.mem_append_right pre (.head post))
  have hnot := h.notMem.1
  rw [List.mem_append, not_or] at hnot
  have hitem : item (c.setValue i value) i = (key, value) := by
    rw [item_setValue, update_self, hkey]
  refine ⟨.inr (hlayout.setValue value), h.count, ?_, h.capacity, h.bound⟩
  rw [RecencyMap.refresh_split (h.split hkey), List.map_append, List.map_cons, hitem,
    map_item_setValue hnot.1, map_item_setValue hnot.2]

/-- A node that is no longer in the table goes to the back, as a free one. -/
theorem Represents.removed {c' : LruCache K V}
    (hlayout : Layout c' (pre ++ i :: post ++ free) (pre ++ post))
    (hitems : ∀ j ∈ pre ++ post, item c' j = item c j) (hnodesLen : c'.nodesLen = c.nodesLen)
    (hcapacity : c'.capacity = c.capacity) (hused : c'.used = c.used) :
    Represents { c'.moveToBack i with used := (c'.moveToBack i).used - 1 } (pre ++ post)
      (free ++ [i]) (m.erase key) := by
  have hmoved := moveToBack_moved c' i
  rw [List.append_assoc, List.cons_append] at hlayout
  have hback := hlayout.moveToBack
  rw [← List.append_assoc, List.append_assoc] at hback
  have hcount := h.count
  rw [List.length_append, List.length_cons] at hcount
  refine ⟨.inr ⟨hback.ring, hback.range, hback.sub, hback.size, hback.fits, hback.table,
    hback.holds⟩, ?_, ?_, ?_, ?_⟩
  · change _ = (c'.moveToBack i).used - 1
    rw [hmoved.used, List.length_append]
    omega
  · change _ = (pre ++ post).map (item (c'.moveToBack i))
    rw [RecencyMap.erase_split (h.split hkey), hmoved.items, ← List.map_append]
    exact List.map_congr_left fun j hj => (hitems j hj).symm
  · rw [hmoved.capacity, hcapacity]
    exact h.capacity
  · rw [hmoved.nodesLen, hmoved.capacity, hnodesLen, hcapacity]
    exact h.bound

end

theorem tableDel_layout (h : Represents c used free m) (hused : c.used ≠ 0) (key : K) :
    (c.tableDel (subhash key) key = some (none, c) ∧ ∀ i ∈ used, (item c i).1 ≠ key) ∨
    ∃ pre i post c', used = pre ++ i :: post ∧ (item c i).1 = key ∧
      c.tableDel (subhash key) key = some (some i, c') ∧
      Layout c' (used ++ free) (pre ++ post) ∧ item c' = item c ∧ c'.nodesLen = c.nodesLen ∧
      c'.capacity = c.capacity ∧ c'.used = c.used := by
  have hpos : 0 < used.length := by
    rw [h.count]
    omega
  obtain ⟨first, hfirst⟩ := List.exists_mem_of_length_pos hpos
  have hlayout := h.layout_of_mem hfirst
  obtain ⟨found, hfound, hfinds⟩ := hlayout.find key
  unfold LruCache.tableDel
  rw [hfound]
  cases found with
  | none => exact .inl ⟨rfl, hfinds⟩
  | some bi =>
    obtain ⟨hbi, i, hi, hentry, hkey⟩ := hfinds
    obtain ⟨pre, post, rfl⟩ := List.append_of_mem hi
    obtain ⟨c', hc', hlayout', hnodes, hnodesLen, hcapacity, hused'⟩ :=
      hlayout.delBucket h.notMem.1 hbi hentry
    refine .inr ⟨pre, i, post, c', rfl, hkey, ?_, hlayout', ?_, hnodesLen, hcapacity, hused'⟩
    · change (c.delBucket bi).bind (fun deleted => some (some (c.buckets bi).index, deleted)) = _
      rw [hc', index_of_entries hentry]
      rfl
    · funext j
      rw [item, item, hnodes]

/-! ## Insertion -/

section

omit [DecidableEq K]

theorem fill_spec {rest held : List Nat} {z : Nat} (h : Layout c (rest ++ [z]) held)
    (hfree : z ∉ held) (key : K) (value : V) :
    ∃ c', c.fill z key value = some c' ∧ Layout c' (z :: rest) (z :: held) ∧
      item c' = update (item c) z (key, value) ∧ c'.nodesLen = c.nodesLen ∧
      c'.capacity = c.capacity ∧ c'.used = c.used := by
  let c₁ := (c.setKey z key).setValue z value
  have hitem : item c₁ = update (item c) z (key, value) := by
    rw [item_setValue, item_setKey, update_self, update_idem]
  have hlayout : Layout c₁ (rest ++ [z]) held := by
    refine h.items ?_ (fun j hj => ?_) rfl rfl rfl
    · exact (links_setValue ..).trans (links_setKey ..)
    · have hjz : j ≠ z := fun heq => hfree (heq ▸ hj)
      rw [hitem, update_of_ne hjz]
  obtain ⟨s, hs, hput⟩ := hlayout.tablePut (List.mem_append_right rest (.head [])) hfree
  rw [hitem, update_self] at hs
  have hmoved := moveToFront_moved { c₁ with buckets := s } z
  refine ⟨moveToFront { c₁ with buckets := s } z, ?_, ?_, ?_, hmoved.nodesLen,
    hmoved.capacity, hmoved.used⟩
  · change (tablePut c₁.buckets c₁.bucketsLen (subhash key) z).bind _ = _
    rw [hs]
    rfl
  · have hfront := hput.moveToFront
    rwa [List.append_nil] at hfront
  · rw [hmoved.items]
    exact hitem

/-- The count of the nodes in use is nothing to the nodes and the table. -/
theorem Layout.withUsed {order held : List Nat} (h : Layout c order held) (n : Nat) :
    Layout { c with used := n } order held :=
  ⟨h.ring, h.range, h.sub, h.size, h.fits, h.table, h.holds⟩

theorem Layout.length {order held : List Nat} (h : Layout c order held) :
    order.length + 1 = c.nodesLen := by
  have hperm : order.Perm (List.range' 1 (c.nodesLen - 1)) := by
    refine (List.perm_ext_iff_of_nodup (List.nodup_cons.mp h.ring.nodup).2
      List.nodup_range').mpr fun i => ?_
    rw [h.range, List.mem_range'_1]
    omega
  rw [hperm.length_eq, List.length_range']
  have := h.size
  omega

end

theorem evict_free {rest : List Nat} {z : Nat} (h : Layout c (rest ++ [z]) used) (hz : z ∉ used) :
    c.evict z = some (false, { c with used := c.used + 1 }) := by
  obtain ⟨found, hfound, hfinds⟩ := h.find (c.nodes z).key
  unfold evict
  rw [hfound]
  cases found with
  | none => rfl
  | some bi =>
    obtain ⟨-, i, hi, hentry, -⟩ := hfinds
    have hiz : i ≠ z := fun heq => hz (heq ▸ hi)
    change (if (c.buckets bi).index = z then _ else _) = _
    rw [index_of_entries hentry, if_neg hiz]

theorem evict_full {z : Nat} (h : Layout c (pre ++ [z]) (pre ++ [z])) (hz : z ∉ pre)
    (hkeys : ∀ i ∈ pre, (item c i).1 ≠ (item c z).1) :
    ∃ c', c.evict z = some (true, c') ∧ Layout c' (pre ++ [z]) pre ∧ item c' = item c ∧
      c'.nodesLen = c.nodesLen ∧ c'.capacity = c.capacity ∧ c'.used = c.used := by
  obtain ⟨found, hfound, hfinds⟩ := h.find (item c z).1
  have hmem : z ∈ pre ++ [z] := List.mem_append_right pre (.head [])
  unfold evict
  rw [show (c.nodes z).key = (item c z).1 from rfl, hfound]
  cases found with
  | none => exact absurd rfl (hfinds z hmem)
  | some bi =>
    obtain ⟨hbi, i, hi, hentry, hkey⟩ := hfinds
    obtain rfl : i = z := by
      rcases List.mem_append.mp hi with hi | hi
      · exact absurd hkey (hkeys i hi)
      · exact List.mem_singleton.mp hi
    obtain ⟨c', hc', hlayout', hnodes, hnodesLen, hcapacity, hused⟩ :=
      h.delBucket (by rwa [List.append_nil]) hbi hentry
    rw [List.append_nil] at hlayout'
    refine ⟨c', ?_, hlayout', ?_, hnodesLen, hcapacity, hused⟩
    · change (if (c.buckets bi).index = i then _ else _) = _
      rw [index_of_entries hentry, if_pos rfl, hc']
      rfl
    · funext j
      rw [item, item, hnodes]

omit [DecidableEq K] in
theorem Represents.keys (h : Represents c used free m) :
    (used.map fun i => (item c i).1).Nodup := by
  have hnodup := m.nodup
  rw [h.items, List.map_map] at hnodup
  exact hnodup

/-- A new item takes the tail, which was free, or else the item that was used least recently. -/
theorem insert_spec (h : Represents c used free m) (hne : c.nodesLen ≠ 0)
    (hfresh : ∀ i ∈ used, (item c i).1 ≠ key)
    (hroom : c.used + 1 < c.nodesLen ∨ c.used = c.capacity ∧ c.used + 1 = c.nodesLen) (value : V) :
    ∃ full c₁ c' used' free', c.evict (c.nodes 0).prev = some (full, c₁) ∧
      c₁.fill (c.nodes 0).prev key value = some c' ∧
      Represents c' used' free' (m.put key value) ∧ c'.capacity = c.capacity ∧
      (full = false → c.used + 1 < c.nodesLen ∧ c₁ = { c with used := c.used + 1 } ∧
        m.items.length < m.capacity) ∧
      (full = true → ¬ c.used + 1 < c.nodesLen ∧ m.items.length = m.capacity ∧
        m.items.getLast? = some (item c (c.nodes 0).prev)) := by
  have hlayout := h.layout hne
  have hlength := hlayout.length
  have hcount := h.count
  have hitems := congrArg List.length h.items
  have hbound := h.bound
  have hcapacity := h.capacity
  rw [List.length_append] at hlength
  rw [List.length_map] at hitems
  rcases List.eq_nil_or_concat free with rfl | ⟨free, z, rfl⟩
  · -- the tail is in use
    rw [List.length_nil] at hlength
    rcases List.eq_nil_or_concat used with rfl | ⟨pre, z, rfl⟩
    · have := hlayout.size
      rw [List.length_nil] at hlength
      omega
    · rw [List.concat_eq_append] at h hlayout hcount hitems hlength hfresh
      rw [List.append_nil] at hlayout
      have hlast : (c.nodes 0).prev = z := hlayout.ring.prev_root
      have hz : z ∉ pre := by
        have hnot : z ∉ pre ++ [] ∧ z ∉ [] := h.notMem
        rw [List.append_nil] at hnot
        exact hnot.1
      have hkeys : ∀ i ∈ pre, (item c i).1 ≠ (item c z).1 := by
        intro i hi heq
        have hnodup := h.keys
        rw [List.map_append, List.nodup_append] at hnodup
        exact hnodup.2.2 _ (List.mem_map_of_mem hi) _ (.head []) heq
      obtain ⟨c₁, hc₁, hlayout₁, hitem₁, hnodesLen₁, hcapacity₁, hused₁⟩ :=
        evict_full hlayout hz hkeys
      obtain ⟨c', hc', hlayout', hitem', hnodesLen', hcapacity', hused'⟩ :=
        fill_spec hlayout₁ hz key value
      have hitems' : m.items = pre.map (item c) ++ [item c z] := by
        rw [h.items, List.map_append]
        rfl
      have hfull : m.items.length = m.capacity := by
        omega
      rw [hlast]
      refine ⟨true, c₁, c', z :: pre, [], hc₁, hc', ⟨.inr ?_, ?_, ?_, ?_, ?_⟩,
        hcapacity'.trans hcapacity₁, nofun, fun _ => ⟨?_, hfull, ?_⟩⟩
      · rwa [List.append_nil]
      · rw [hused', hused₁, ← hcount, List.length_append]
        rfl
      · rw [RecencyMap.put_of_full (h.fresh hfresh) hfull hitems', hitem', hitem₁, List.map_cons,
          update_self]
        congr 1
        refine List.map_congr_left fun j hj => ?_
        have hjz : j ≠ z := fun heq => hz (heq ▸ hj)
        rw [update_of_ne hjz]
      · rw [hcapacity', hcapacity₁]
        exact hcapacity
      · rw [hnodesLen', hnodesLen₁, hcapacity', hcapacity₁]
        exact hbound
      · omega
      · rw [hitems', List.getLast?_concat]
  · -- the tail is free
    rw [List.concat_eq_append] at h hlayout hlength
    rw [List.length_append, List.length_singleton] at hlength
    rw [← List.append_assoc] at hlayout
    have hlast : (c.nodes 0).prev = z := hlayout.ring.prev_root
    have hz : z ∉ used := by
      have hnodup := (List.nodup_cons.mp hlayout.ring.nodup).2
      rw [List.append_assoc, List.nodup_append] at hnodup
      exact fun hmem => hnodup.2.2 z hmem z (List.mem_append_right free (.head [])) rfl
    have hevict := evict_free hlayout hz
    obtain ⟨c', hc', hlayout', hitem', hnodesLen', hcapacity', hused'⟩ :=
      fill_spec (hlayout.withUsed (c.used + 1)) hz key value
    have hlt : m.items.length < m.capacity := by
      omega
    rw [hlast]
    refine ⟨false, _, c', z :: used, free, hevict, hc', ⟨.inr hlayout', ?_, ?_, ?_, ?_⟩,
      hcapacity', fun _ => ⟨by omega, rfl, hlt⟩, nofun⟩
    · rw [hused', List.length_cons, hcount]
    · rw [RecencyMap.put_fresh (h.fresh hfresh) hlt, hitem', List.map_cons, update_self,
        h.items]
      congr 1
      refine List.map_congr_left fun j hj => ?_
      have hjz : j ≠ z := fun heq => hz (heq ▸ hj)
      rw [update_of_ne hjz]
      rfl
    · rw [hcapacity']
      exact hcapacity
    · rw [hnodesLen', hcapacity']
      exact hbound

end

section
variable [Inhabited K] [Inhabited V] {c : LruCache K V} {used free : List Nat}
  {m : RecencyMap K V} {key : K}

theorem lt_targetLen (i : Nat) : i < targetLen i := by
  unfold targetLen
  split_ifs
  all_goals omega

omit [DecidableEq K] in
/-- In front of an insertion there is room, or the cache is full. -/
theorem growToPut_spec (h : Represents c used free m) (hlimit : c.capacity < limit) :
    ∃ c' free', c.growToPut = some c' ∧ Represents c' used free' m ∧ c'.capacity = c.capacity ∧
      c'.used = c.used ∧ (c'.nodesLen = 0 → c.capacity = 0) ∧
      (c'.nodesLen ≠ 0 → c'.used + 1 < c'.nodesLen ∨
        c'.used = c'.capacity ∧ c'.used + 1 = c'.nodesLen) := by
  have hlt := lt_targetLen c.used
  have hle : c.used ≤ c.capacity := by
    have hitems := congrArg List.length h.items
    have := m.length_le
    rw [List.length_map] at hitems
    rw [← h.count, ← h.capacity]
    omega
  unfold limit at hlimit
  unfold growToPut
  split
  · have hu32 : u32 (min c.capacity (targetLen c.used) + 1) =
        min c.capacity (targetLen c.used) + 1 := Nat.mod_eq_of_lt (by omega)
    rw [hu32]
    obtain ⟨c', free', hc', hrep, hcapacity, hused, hnodesLen⟩ :=
      grow_spec h hlimit
        (show min c.capacity (targetLen c.used) + 1 ≤ c.capacity + 1 by omega)
    refine ⟨c', free', hc', hrep, hcapacity, hused, ?_, ?_⟩
    · intro hzero
      rw [hnodesLen] at hzero
      split at hzero
      all_goals omega
    · intro hne
      rw [hnodesLen] at hne ⊢
      split
      · rename_i hcase
        rw [if_pos hcase] at hne
        omega
      · omega
  · refine ⟨c, free, rfl, h, rfl, rfl, ?_, ?_⟩
    · omega
    · omega

omit [DecidableEq K] in
theorem init_spec {capacity initialSize : Nat} (hlimit : capacity < limit)
    (hinitial : initialSize ≤ capacity) :
    ∃ c free, (LruCache.init capacity initialSize : Option (LruCache K V)) = some c ∧
      Represents c [] free (.empty capacity) ∧ c.capacity = capacity := by
  let start : LruCache K V :=
    ⟨fun _ => ⟨0, 0, default, default⟩, 0, fun _ => ⟨0, 0⟩, 0, capacity, 0⟩
  have hstart : Represents start [] [] (.empty capacity) :=
    ⟨.inl ⟨rfl, rfl, rfl, rfl⟩, rfl, rfl, rfl, Nat.zero_le _⟩
  unfold LruCache.init
  rw [if_neg (by omega)]
  split
  · have hu32 : u32 (initialSize + 1) = initialSize + 1 := by
      unfold limit at hlimit
      exact Nat.mod_eq_of_lt (by omega)
    rw [hu32]
    obtain ⟨c, free, hc, hrep, hcapacity, -⟩ := grow_spec hstart hlimit
      (show initialSize + 1 ≤ start.capacity + 1 from Nat.succ_le_succ hinitial)
    exact ⟨c, free, hc, hrep, hcapacity⟩
  · exact ⟨start, [], rfl, hstart, rfl⟩

/-! ## Operations -/

/-- The operation returns what it returns for the map. -/
def Does (c : LruCache K V) (op : Op K V) (m : RecencyMap K V) : Prop :=
  ∃ c' used' free', exec c op = some ((perform m op).1, c') ∧
    Represents c' used' free' (perform m op).2 ∧ c'.capacity = c.capacity

section

variable (h : Represents c used free m)
include h

theorem get_does (key : K) : Does c (.get key) m := by
  rcases h.lookup key with ⟨hget, -, hpeek⟩ | ⟨pre, i, post, rfl, hkey, hget, hpeek⟩
  · have hm : m.get key = (none, m) := by
      rw [RecencyMap.get, hpeek]
    refine ⟨c, used, free, ?_, ?_, rfl⟩
    · rw [exec, LruCache.get, hget, perform, hm]
      rfl
    · rw [perform, hm]
      exact h
  · have hm : m.get key = (some (item c i).2, m.put key (item c i).2) := by
      rw [RecencyMap.get, hpeek]
    have hsame : c.setValue i (item c i).2 = c := by
      rw [setValue, show { c.nodes i with value := (item c i).2 } = c.nodes i from rfl,
        update_eq_self]
    have hfront := h.front hkey (item c i).2
    rw [hsame] at hfront
    have hmoved := moveToFront_moved c i
    have hvalue : ((c.moveToFront i).nodes i).value = (item c i).2 := by
      rw [← hmoved.items]
      rfl
    refine ⟨c.moveToFront i, i :: (pre ++ post), free, ?_, ?_, hmoved.capacity⟩
    · rw [exec, LruCache.get, hget, perform, hm]
      change some (Out.value (some ((c.moveToFront i).nodes i).value), c.moveToFront i) = _
      rw [hvalue]
    · rw [perform, hm]
      exact hfront

theorem peek_does (key : K) : Does c (.peek key) m := by
  refine ⟨c, used, free, ?_, h, rfl⟩
  rw [exec, peek, perform]
  rcases h.lookup key with ⟨hget, -, hpeek⟩ | ⟨pre, i, post, rfl, hkey, hget, hpeek⟩
  · rw [hget, hpeek]
    rfl
  · rw [hget, hpeek]
    rfl

theorem update_does (key : K) (value : V) : Does c (.update key value) m := by
  rcases h.lookup key with ⟨hget, -, hpeek⟩ | ⟨pre, i, post, rfl, hkey, hget, hpeek⟩
  · have hm : m.update key value = (false, m) := by
      rw [RecencyMap.update, hpeek]
      rfl
    refine ⟨c, used, free, ?_, ?_, rfl⟩
    · rw [exec, LruCache.update, hget, perform, hm]
      rfl
    · rw [perform, hm]
      exact h
  · have hm : m.update key value = (true, m.put key value) := by
      rw [RecencyMap.update, hpeek]
      rfl
    refine ⟨(c.setValue i value).moveToFront i, i :: (pre ++ post), free, ?_, ?_,
      (moveToFront_moved (c.setValue i value) i).capacity⟩
    · rw [exec, LruCache.update, hget, perform, hm]
      rfl
    · rw [perform, hm]
      exact h.front hkey value

theorem refresh_does (key : K) (value : V) : Does c (.refresh key value) m := by
  rcases h.lookup key with ⟨hget, hfresh, hpeek⟩ | ⟨pre, i, post, rfl, hkey, hget, hpeek⟩
  · refine ⟨c, used, free, ?_, ?_, rfl⟩
    · rw [exec, refresh, hget, perform, RecencyMap.refresh, hpeek]
      rfl
    · have hsame : (m.refresh key value).2 = m := by
        refine RecencyMap.ext rfl ?_
        change m.items.map (fun e => if e.1 = key then (key, value) else e) = _
        rw [List.map_congr_left fun e he => if_neg (h.fresh hfresh e he), List.map_id']
      rw [perform, hsame]
      exact h
  · refine ⟨c.setValue i value, pre ++ i :: post, free, ?_, h.refreshed hkey value, rfl⟩
    rw [exec, refresh, hget, perform, RecencyMap.refresh, hpeek]
    rfl

omit [DecidableEq K] [Inhabited K] [Inhabited V] in
theorem used_nil (hused : c.used = 0) : used = [] :=
  List.eq_nil_of_length_eq_zero (h.count.trans hused)

end

omit [Hashable K] [Inhabited K] [Inhabited V] in
theorem erase_same (h : ∀ e ∈ m.items, e.1 ≠ key) : m.erase key = m :=
  RecencyMap.ext rfl (RecencyMap.others_fresh h)

section

variable (h : Represents c used free m)
include h

omit [Inhabited K] [Inhabited V] in
/-- What a deletion needs of the table, and what is left to do. -/
theorem Represents.forget (key : K) :
    ((c.used = 0 ∨ c.tableDel (subhash key) key = some (none, c)) ∧ m.peek key = none ∧
      m.erase key = m) ∨
    ∃ pre i post c₁, used = pre ++ i :: post ∧ (item c i).1 = key ∧ c.used ≠ 0 ∧
      c.tableDel (subhash key) key = some (some i, c₁) ∧
      Layout c₁ (used ++ free) (pre ++ post) ∧ item c₁ = item c ∧ c₁.nodesLen = c.nodesLen ∧
      c₁.capacity = c.capacity ∧ c₁.used = c.used ∧ m.peek key = some (item c i).2 := by
  have hnone (hfresh : ∀ i ∈ used, (item c i).1 ≠ key) :
      m.peek key = none ∧ m.erase key = m :=
    ⟨RecencyMap.peek_fresh (h.fresh hfresh), erase_same (h.fresh hfresh)⟩
  by_cases hused : c.used = 0
  · refine .inl ⟨.inl hused, hnone fun i hi => ?_⟩
    rw [used_nil h hused] at hi
    exact absurd hi List.not_mem_nil
  · rcases tableDel_layout h hused key with
      ⟨hdel, hfresh⟩ | ⟨pre, i, post, c₁, rfl, hkey, hdel, hlayout, hitem, hsame⟩
    · exact .inl ⟨.inr hdel, hnone hfresh⟩
    · exact .inr ⟨pre, i, post, c₁, rfl, hkey, hused, hdel, hlayout, hitem, hsame.1, hsame.2.1,
        hsame.2.2, RecencyMap.peek_split (h.split hkey)⟩

theorem del_does (key : K) : Does c (.del key) m := by
  rcases h.forget key with ⟨hdel, hpeek, herase⟩ |
    ⟨pre, i, post, c₁, rfl, hkey, hused, hdel, hlayout, hitem, hnodesLen, hcapacity, hused₁, hpeek⟩
  · refine ⟨c, used, free, ?_, ?_, rfl⟩
    · rw [exec, del, perform, hpeek]
      split
      · rfl
      · rw [hdel.resolve_left (by assumption)]
        rfl
    · rw [perform, herase]
      exact h
  · refine ⟨_, pre ++ post, free ++ [i], ?_, h.removed hkey hlayout (fun j _ => by rw [hitem])
      hnodesLen hcapacity hused₁, ?_⟩
    · rw [exec, del, if_neg hused, hdel, perform, hpeek]
      rfl
    · exact (moveToBack_moved c₁ i).capacity.trans hcapacity

theorem pop_does (key : K) : Does c (.pop key) m := by
  rcases h.forget key with ⟨hdel, hpeek, herase⟩ |
    ⟨pre, i, post, c₁, rfl, hkey, hused, hdel, hlayout, hitem, hnodesLen, hcapacity, hused₁, hpeek⟩
  · refine ⟨c, used, free, ?_, ?_, rfl⟩
    · rw [exec, pop, perform, RecencyMap.pop, hpeek]
      split
      · rfl
      · rw [hdel.resolve_left (by assumption)]
        rfl
    · rw [perform, RecencyMap.pop, herase]
      exact h
  · -- the value that has been moved out is not seen again
    have hitems : ∀ j ∈ pre ++ post, item (c₁.setValue i default) j = item c j := by
      intro j hj
      have hji : j ≠ i := fun heq => h.notMem.1 (heq ▸ hj)
      rw [item_setValue, update_of_ne hji, hitem]
    have hvalue : (c₁.nodes i).value = (item c i).2 := by
      rw [← hitem]
      rfl
    refine ⟨_, pre ++ post, free ++ [i], ?_, h.removed hkey (hlayout.setValue default) hitems
      hnodesLen hcapacity hused₁, ?_⟩
    · rw [exec, pop, if_neg hused, hdel, perform, RecencyMap.pop, hpeek, ← hvalue]
      rfl
    · exact (moveToBack_moved (c₁.setValue i default) i).capacity.trans hcapacity

section

variable (hlimit : c.capacity < limit)
include hlimit

/-- What both insertions do after growing: nothing without nodes, a new value for a key that is
there, or a new item. -/
theorem Represents.inserting (key : K) (value : V) :
    ∃ c₀, c.growToPut = some c₀ ∧ c₀.capacity = c.capacity ∧
      ((c₀.nodesLen = 0 ∧ m.capacity = 0 ∧ Represents c₀ [] [] m) ∨
      (c₀.nodesLen ≠ 0 ∧ ∃ bi pre i post free', c₀.tableBucket (subhash key) key = some (some bi) ∧
        (c₀.buckets bi).index = i ∧ (item c₀ i).1 = key ∧ m.peek key = some (item c₀ i).2 ∧
        Represents c₀ (pre ++ i :: post) free' m) ∨
      (c₀.nodesLen ≠ 0 ∧ c₀.tableBucket (subhash key) key = some none ∧ m.peek key = none ∧
        ∃ full c₁ c' used' free', c₀.evict (c₀.nodes 0).prev = some (full, c₁) ∧
          c₁.fill (c₀.nodes 0).prev key value = some c' ∧
          Represents c' used' free' (m.put key value) ∧ c'.capacity = c.capacity ∧
          (full = false → c₀.used + 1 < c₀.nodesLen ∧ c₁ = { c₀ with used := c₀.used + 1 } ∧
            m.items.length < m.capacity) ∧
          (full = true → ¬ c₀.used + 1 < c₀.nodesLen ∧ m.items.length = m.capacity ∧
            m.items.getLast? = some (item c₀ (c₀.nodes 0).prev)))) := by
  obtain ⟨c₀, free', hc₀, hrep, hcapacity, -, hzero, hroom⟩ := growToPut_spec h hlimit
  refine ⟨c₀, hc₀, hcapacity, ?_⟩
  by_cases hne : c₀.nodesLen = 0
  · obtain ⟨-, -, rfl, rfl⟩ : c₀.nodesLen = 0 ∧ c₀.bucketsLen = 0 ∧ used = [] ∧ free' = [] := by
      refine hrep.memory.resolve_right fun hlayout => ?_
      have := hlayout.size
      omega
    exact .inl ⟨hne, h.capacity.trans (hzero hne), hrep⟩
  · obtain ⟨found, hfound, hfinds⟩ := (hrep.layout hne).find key
    cases found with
    | some bi =>
      obtain ⟨-, i, hi, hentry, hkey⟩ := hfinds
      obtain ⟨pre, post, rfl⟩ := List.append_of_mem hi
      exact .inr (.inl ⟨hne, bi, pre, i, post, free', hfound, index_of_entries hentry, hkey,
        RecencyMap.peek_split (hrep.split hkey), hrep⟩)
    | none =>
      obtain ⟨full, c₁, c', used', free'', hc₁, hc', hrep', hcapacity', hfree, hfull⟩ :=
        insert_spec hrep hne hfinds (hroom hne) value
      exact .inr (.inr ⟨hne, hfound, RecencyMap.peek_fresh (hrep.fresh hfinds), full, c₁, c',
        used', free'', hc₁, hc', hrep', hcapacity'.trans hcapacity, hfree, hfull⟩)

theorem put_does (key : K) (value : V) : Does c (.put key value) m := by
  obtain ⟨c₀, hc₀, hcapacity, hcases⟩ := h.inserting hlimit key value
  rcases hcases with ⟨hzero, hnone, hrep⟩ |
    ⟨hne, bi, pre, i, post, free', hbi, hindex, hkey, hpeek, hrep⟩ |
    ⟨hne, hbi, hpeek, full, c₁, c', used', free', hc₁, hc', hrep, hcapacity', hfree, hfull⟩
  · refine ⟨c₀, [], [], ?_, ?_, hcapacity⟩
    · have hflag : ((m.peek key).isNone && decide (m.len < m.capacity)) = false := by
        rw [hnone]
        simp
      rw [exec, LruCache.put, hc₀, perform, hflag]
      change Option.map _ (if c₀.nodesLen = 0 then _ else _) = _
      rw [if_pos hzero]
      rfl
    · rw [perform, RecencyMap.put_none hnone]
      exact hrep
  · refine ⟨(c₀.setValue i value).moveToFront i, i :: (pre ++ post), free', ?_,
      hrep.front hkey value, (moveToFront_moved (c₀.setValue i value) i).capacity.trans hcapacity⟩
    rw [exec, LruCache.put, hc₀, perform, hpeek]
    change Option.map _ (if c₀.nodesLen = 0 then _ else _) = _
    rw [if_neg hne, hbi, ← hindex]
    rfl
  · refine ⟨c', used', free', ?_, hrep, hcapacity'⟩
    rw [exec, LruCache.put, hc₀, perform, hpeek]
    change Option.map _ (if c₀.nodesLen = 0 then _ else _) = _
    rw [if_neg hne, hbi]
    cases full with
    | false =>
      obtain ⟨hlt, rfl, hlen⟩ := hfree rfl
      have hlen : m.len < m.capacity := hlen
      rw [if_pos hlt, hc', decide_eq_true hlen]
      rfl
    | true =>
      obtain ⟨hge, hlen, -⟩ := hfull rfl
      have hlen : ¬ m.len < m.capacity := by
        rw [RecencyMap.len, hlen]
        exact Nat.lt_irrefl _
      rw [if_neg hge, hc₁, decide_eq_false hlen]
      change Option.map _ ((c₁.fill (c₀.nodes 0).prev key value).bind _) = _
      rw [hc']
      rfl

theorem putWithEvicted_does (key : K) (value : V) : Does c (.putWithEvicted key value) m := by
  obtain ⟨c₀, hc₀, hcapacity, hcases⟩ := h.inserting hlimit key value
  rcases hcases with ⟨hzero, hnone, hrep⟩ |
    ⟨hne, bi, pre, i, post, free', hbi, hindex, hkey, hpeek, hrep⟩ |
    ⟨hne, hbi, hpeek, full, c₁, c', used', free', hc₁, hc', hrep, hcapacity', hfree, hfull⟩
  · have hempty : m.items = [] := hrep.items
    refine ⟨c₀, [], [], ?_, ?_, hcapacity⟩
    · have hevicted : m.evicted key = none := by
        rw [RecencyMap.evicted, RecencyMap.peek, hempty]
        simp
      rw [exec, putWithEvicted, hc₀, perform, hevicted]
      change Option.map _ (if c₀.nodesLen = 0 then _ else _) = _
      rw [if_pos hzero]
      rfl
    · rw [perform, RecencyMap.put_none hnone]
      exact hrep
  · have hevicted : m.evicted key = some (false, item c₀ i) := by
      rw [RecencyMap.evicted, hpeek, ← hkey]
    refine ⟨(c₀.setValue i value).moveToFront i, i :: (pre ++ post), free', ?_,
      hrep.front hkey value, (moveToFront_moved (c₀.setValue i value) i).capacity.trans hcapacity⟩
    rw [exec, putWithEvicted, hc₀, perform, hevicted]
    change Option.map _ (if c₀.nodesLen = 0 then _ else _) = _
    rw [if_neg hne, hbi, ← hindex]
    rfl
  · refine ⟨c', used', free', ?_, hrep, hcapacity'⟩
    have hevicted : m.evicted key =
        if full = true then some (true, item c₀ (c₀.nodes 0).prev) else none := by
      rw [RecencyMap.evicted, hpeek]
      cases full with
      | false =>
        obtain ⟨-, -, hlen⟩ := hfree rfl
        exact if_neg (Nat.ne_of_lt hlen)
      | true =>
        obtain ⟨-, hlen, hlast⟩ := hfull rfl
        rw [if_pos hlen, hlast]
        rfl
    rw [exec, putWithEvicted, hc₀, perform, hevicted]
    change Option.map _ (if c₀.nodesLen = 0 then _ else _) = _
    rw [if_neg hne, hbi]
    change Option.map _ (Option.bind (c₀.evict (c₀.nodes 0).prev) _) = _
    rw [hc₁]
    change Option.map _ ((c₁.fill (c₀.nodes 0).prev key value).bind _) = _
    rw [hc']
    rfl

theorem exec_spec (op : Op K V) : Does c op m := by
  cases op with
  | put key value => exact put_does h hlimit key value
  | get key => exact get_does h key
  | peek key => exact peek_does h key
  | del key => exact del_does h key
  | pop key => exact pop_does h key
  | update key value => exact update_does h key value
  | refresh key value => exact refresh_does h key value
  | putWithEvicted key value => exact putWithEvicted_does h hlimit key value

theorem run_spec (ops : List (Op K V)) :
    ∃ c' used' free', run c ops = some ((performAll m ops).1, c') ∧
      Represents c' used' free' (performAll m ops).2 := by
  induction ops generalizing c used free m with
  | nil => exact ⟨c, used, free, rfl, h⟩
  | cons op ops ih =>
    obtain ⟨c₁, used₁, free₁, hexec, h₁, hcapacity⟩ := exec_spec h hlimit op
    obtain ⟨c', used', free', hrun, h'⟩ := ih h₁ (by rwa [hcapacity])
    refine ⟨c', used', free', ?_, h'⟩
    rw [run, hexec]
    change (run c₁ ops).bind _ = _
    rw [hrun]
    rfl

end

end

/-! ## Refinement -/

/-- Its bucket is found from its hash, and refers to a node with the key and the value. -/
def Reachable (c : LruCache K V) (e : K × V) : Prop :=
  ∃ bi, c.tableBucket (subhash e.1) e.1 = some (some bi) ∧ item c (c.buckets bi).index = e

omit [Inhabited K] [Inhabited V] in
theorem Represents.reachable (h : Represents c used free m) : ∀ e ∈ m.items, Reachable c e := by
  intro e he
  rw [h.items] at he
  obtain ⟨i, hi, rfl⟩ := List.mem_map.mp he
  obtain ⟨found, hfound, hfinds⟩ := (h.layout_of_mem hi).find (item c i).1
  cases found with
  | none => exact absurd rfl (hfinds i hi)
  | some bi =>
    obtain ⟨-, j, hj, hentry, hkey⟩ := hfinds
    refine ⟨bi, hfound, ?_⟩
    rw [index_of_entries hentry, List.inj_on_of_nodup_map h.keys hj hi hkey]

end

/-- With that capacity, from any initial size on, every sequence of operations returns what it
returns for the map; the cache has as many entries as the map, and all of them are reachable. -/
def Refines (capacity : Nat) : Prop :=
  ∀ (K V : Type) [DecidableEq K] [Hashable K] [Inhabited K] [Inhabited V] (initialSize : Nat),
    initialSize ≤ capacity → ∀ ops : List (Op K V),
      ∃ c₀ c, LruCache.init capacity initialSize = some c₀ ∧
        run c₀ ops = some ((performAll (.empty capacity) ops).1, c) ∧
        c.len = (performAll (.empty capacity) ops).2.len ∧ c.len ≤ capacity ∧
        ∀ e ∈ (performAll (.empty capacity) ops).2.items, Reachable c e

theorem refines {capacity : Nat} (h : capacity < limit) : Refines capacity := by
  intro K V _ _ _ _ initialSize hinitial ops
  obtain ⟨c₀, free, hinit, hrep, hcapacity⟩ := init_spec (K := K) (V := V) h hinitial
  obtain ⟨c, used', free', hrun, hrep'⟩ := run_spec hrep (by rwa [hcapacity]) ops
  have hlen : c.len = (performAll (.empty capacity) ops).2.len := by
    rw [len, ← hrep'.count, RecencyMap.len, hrep'.items, List.length_map]
  refine ⟨c₀, c, hinit, hrun, hlen, ?_, hrep'.reachable⟩
  rw [hlen]
  have hle := (performAll (.empty capacity) ops).2.length_le
  rwa [performAll_capacity] at hle

end Nimbus.Spec.Lru
