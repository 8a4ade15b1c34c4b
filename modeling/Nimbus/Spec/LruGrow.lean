import Nimbus.ForStd.RecencyMap
import Nimbus.Spec.LruLayout

/-!
# Growth of the cache

New nodes are put in before the root, as nodes that are free, and a larger table holds what the old
one held. The sum by which the link to the node before is computed does not wrap around as long as
the new size is at most 2^31.
-/

namespace Nimbus.Spec.Lru

open Native Native.Lru RobinHood LruCache Function

/-- Up to this capacity no sum of a node and a size wraps around. -/
def limit : Nat := 2 ^ 31

/-! ## New nodes -/

section
variable {K V : Type} [Inhabited K] [Inhabited V] {c : LruCache K V} {oldSize newSize i : Nat}

theorem newNodes_next (hold : oldSize ≤ i) (hi : i < newSize) (hsize : newSize ≤ limit) :
    (links (c.newNodes oldSize newSize)).next i = if i + 1 = newSize then 0 else i + 1 := by
  unfold limit at hsize
  have hnode : (links (c.newNodes oldSize newSize)).next i = u32 (i + 1) % newSize :=
    congrArg LruNode.next (if_pos ⟨hold, hi⟩)
  rw [hnode, u32, Nat.mod_eq_of_lt (a := i + 1) (by omega)]
  split
  · rename_i h
    rw [h, Nat.mod_self]
  · exact Nat.mod_eq_of_lt (by omega)

theorem newNodes_prev (hold : oldSize ≤ i) (hi : i < newSize) (hsize : newSize ≤ limit) :
    (links (c.newNodes oldSize newSize)).prev i = if i = 0 then newSize - 1 else i - 1 := by
  unfold limit at hsize
  have hnode : (links (c.newNodes oldSize newSize)).prev i = u32 (i + newSize - 1) % newSize :=
    congrArg LruNode.prev (if_pos ⟨hold, hi⟩)
  rw [hnode, u32, Nat.mod_eq_of_lt (a := i + newSize - 1) (by omega)]
  split
  · rw [Nat.mod_eq_of_lt (by omega)]
    omega
  · rw [show i + newSize - 1 = i - 1 + newSize by omega, Nat.add_mod_right,
      Nat.mod_eq_of_lt (by omega)]

theorem newNodes_old (hi : i < oldSize) : (c.newNodes oldSize newSize).nodes i = c.nodes i :=
  if_neg fun h => Nat.not_lt_of_le h.1 hi

theorem newNodes_chain (hsize : newSize ≤ limit) :
    (List.range' oldSize (newSize - oldSize)).IsChain
      (links (c.newNodes oldSize newSize)).Joined := by
  refine (List.isChain_range' oldSize (newSize - oldSize) 1).imp_of_mem_imp fun a b ha hb hab => ?_
  rw [List.mem_range'_1] at ha hb
  constructor
  · rw [newNodes_next (by omega) (by omega) hsize, if_neg (by omega), hab]
  · rw [newNodes_prev (by omega) (by omega) hsize, if_neg (by omega), hab, Nat.add_sub_cancel]

theorem newNodes_ring (htwo : 2 ≤ newSize) (hsize : newSize ≤ limit) :
    (links (c.newNodes 0 newSize)).Ring 0 (List.range' 1 (newSize - 1)) := by
  have hall : 0 :: List.range' 1 (newSize - 1) = List.range' 0 newSize := by
    rw [show newSize = newSize - 1 + 1 by omega, List.range'_succ, Nat.add_sub_cancel]
  have hlast : List.range' 0 newSize = List.range' 0 (newSize - 1) ++ [newSize - 1] := by
    conv_lhs => rw [show newSize = newSize - 1 + 1 by omega, List.range'_concat]
    simp
  refine ⟨?_, hall ▸ List.nodup_range'⟩
  rw [← List.cons_append, hall, hlast, List.append_assoc]
  refine List.isChain_append_cons_cons.mpr ⟨?_, ⟨?_, ?_⟩, .singleton 0⟩
  · rw [← hlast]
    exact newNodes_chain hsize
  · rw [newNodes_next (Nat.zero_le _) (by omega) hsize, if_pos (by omega)]
  · rw [newNodes_prev (Nat.le_refl 0) (by omega) hsize, if_pos rfl]

theorem linkNodes_ring {order : List Nat} (h : (links c).Ring 0 order) (hold : 0 < oldSize)
    (horder : ∀ i ∈ order, i < oldSize) (hlt : oldSize < newSize) (hsize : newSize ≤ limit) :
    (links (c.linkNodes oldSize newSize)).Ring 0
      (order ++ List.range' oldSize (newSize - oldSize)) := by
  let v := c.newNodes oldSize newSize
  have hsame : (links v).Ring 0 order := by
    refine h.congr fun i hi => ?_
    have hi' : i < oldSize := by
      rcases List.mem_cons.mp hi with rfl | hi
      · exact hold
      · exact horder i hi
    exact ⟨congrArg LruNode.next (newNodes_old hi'), congrArg LruNode.prev (newNodes_old hi')⟩
  have hfirst : List.range' oldSize (newSize - oldSize) =
      oldSize :: List.range' (oldSize + 1) (newSize - oldSize - 1) := by
    rw [← List.range'_succ]
    congr 1
    omega
  have hlast : List.range' oldSize (newSize - oldSize) =
      List.range' oldSize (newSize - oldSize - 1) ++ [newSize - 1] := by
    conv_lhs => rw [show newSize - oldSize = newSize - oldSize - 1 + 1 by omega, List.range'_concat]
    congr 2
    omega
  have hnodup : (0 :: (order ++ List.range' oldSize (newSize - oldSize))).Nodup := by
    refine List.Nodup.append h.nodup List.nodup_range' fun i hi hi' => ?_
    rw [List.mem_range'_1] at hi'
    rcases List.mem_cons.mp hi with rfl | hi
    · omega
    · have := horder i hi
      omega
  have hring := hsame.extend (newNodes_chain hsize) hnodup hfirst hlast
  have hlinks : links (c.linkNodes oldSize newSize) =
      ((links v).connect ((links v).prev 0) oldSize).connect (newSize - 1) 0 := by
    have hprev : (links v).prev 0 < oldSize := by
      rcases List.mem_cons.mp hsame.prev_root_mem with h0 | hmem
      · rw [h0]
        exact hold
      · exact horder _ hmem
    have hzero : (links v).next (newSize - 1) = 0 := by
      rw [newNodes_next (by omega) (by omega) hsize, if_pos (by omega)]
    have hroot : ((v.setPrev oldSize (v.nodes 0).prev).nodes 0).prev = (links v).prev 0 := by
      change (links (v.setPrev oldSize (v.nodes 0).prev)).prev 0 = _
      rw [links_setPrev]
      exact update_of_ne (by omega) ..
    unfold linkNodes
    rw [if_pos hold]
    change links (((v.setPrev oldSize (v.nodes 0).prev).setNext
      ((v.setPrev oldSize (v.nodes 0).prev).nodes 0).prev oldSize).setPrev 0 (newSize - 1)) = _
    rw [hroot, links_setPrev, links_setNext, links_setPrev]
    refine congrArg₂ Links.mk ?_ rfl
    -- the last node points to the root already
    refine (update_eq_self_iff.mpr ?_).symm
    change _ = update (links v).next ((links v).prev 0) oldSize (newSize - 1)
    rw [update_of_ne (by omega), hzero]
  rw [hlinks]
  exact hring

end

/-! ## The new table -/

section

variable {n : Nat} (h : 2 ≤ n) (hlimit : n ≤ limit)
include h hlimit

theorem filled_bounds : n ≤ filled n ∧ 2 ≤ filled n ∧ filled n ≤ 2 ^ 32 := by
  unfold limit at hlimit
  unfold filled
  omega

theorem sized_nextPowerOfTwo : Sized (nextPowerOfTwo (filled n)) := by
  obtain ⟨-, htwo, hle⟩ := filled_bounds h hlimit
  exact ⟨Nat.clog 2 (filled n), Nat.clog_pos (by decide) htwo, Nat.clog_le_of_le_pow hle, rfl⟩

theorem le_nextPowerOfTwo : n ≤ nextPowerOfTwo (filled n) :=
  Nat.le_trans (filled_bounds h hlimit).1 (Nat.le_pow_clog (by decide) _)

end

section
variable {K V : Type} [Hashable K] {v : LruCache K V} {order held : List Nat}

/-- With links through all nodes, the table becomes large enough for them and holds what it
held. -/
theorem growTable_layout (hring : (links v).Ring 0 order)
    (hrange : ∀ i, i ∈ order ↔ 0 < i ∧ i < v.nodesLen) (hsub : ∀ i ∈ held, i ∈ order)
    (hsize : 2 ≤ v.nodesLen) (hlimit : v.nodesLen ≤ limit)
    (htable : v.bucketsLen = 0 ∨ Table v.bucketsLen v.buckets)
    (hholds : ∀ e, Holds v.bucketsLen v.buckets e ↔ ∃ i ∈ held, e = entryOf v i) :
    ∃ v', v.growTable v.nodesLen = some v' ∧ Layout v' order held ∧ v'.nodes = v.nodes ∧
      v'.nodesLen = v.nodesLen ∧ v'.capacity = v.capacity ∧ v'.used = v.used := by
  have hle := le_nextPowerOfTwo hsize hlimit
  have hsized := sized_nextPowerOfTwo hsize hlimit
  unfold growTable
  dsimp only
  split
  · have htable : Table v.bucketsLen v.buckets := by
      refine htable.resolve_left fun hzero => ?_
      omega
    exact ⟨v, rfl, ⟨hring, hrange, hsub, hsize, by omega, htable, hholds⟩, rfl, rfl, rfl, rfl⟩
  · have hold : ∀ j < 0 + v.bucketsLen, (v.buckets j).subhash < 2 ^ 32 := by
      intro j hj
      rw [Nat.zero_add] at hj
      rcases htable with hzero | htable
      · omega
      · exact htable.small j hj
    have honce : Once (0 + v.bucketsLen) (entries v.buckets) := by
      rw [Nat.zero_add]
      rcases htable with hzero | htable
      · intro i hi
        omega
      · exact htable.once
    -- what is stored has names below the number of nodes
    have hroom (s : Nat → LruBucket) (hs : Table (nextPowerOfTwo (filled v.nodesLen)) s)
        (hsub' : ∀ e, Holds (nextPowerOfTwo (filled v.nodesLen)) s e →
          Holds (nextPowerOfTwo (filled v.nodesLen)) (fun _ => ⟨0, 0⟩) e ∨
            ∃ j < 0 + v.bucketsLen, entries v.buckets j = some e) :
        ∃ q < nextPowerOfTwo (filled v.nodesLen), entries s q = none := by
      have hentry (e : LruBucket) (he : Holds (nextPowerOfTwo (filled v.nodesLen)) s e) :
          ∃ i ∈ held, e = entryOf v i := by
        refine (hholds e).mp ?_
        rcases hsub' e he with hempty | ⟨j, hj, hej⟩
        · exact absurd hempty holds_empty
        · rw [Nat.zero_add] at hj
          exact ⟨j, hj, hej⟩
      refine exists_free (by omega) LruBucket.index (fun i hi e he => ?_) ?_
      · obtain ⟨k, hk, rfl⟩ := hentry e ⟨i, hi, he⟩
        obtain ⟨hpos, hlt⟩ := (hrange k).mp (hsub k hk)
        exact ⟨hpos, Nat.lt_of_lt_of_le hlt hle⟩
      · intro i hi j hj e f he hf hindex
        obtain ⟨k, -, rfl⟩ := hentry e ⟨i, hi, he⟩
        obtain ⟨l, -, rfl⟩ := hentry f ⟨j, hj, hf⟩
        have hkl : k = l := hindex
        subst hkl
        exact hs.once i hi j hj _ he hf
    obtain ⟨s, hs, hstable, hsholds⟩ := rehash_spec (table_empty hsized) hold honce
      (fun j _ _ e _ => holds_empty) hroom
    refine ⟨{ v with buckets := s, bucketsLen := nextPowerOfTwo (filled v.nodesLen) }, ?_,
      ⟨hring, hrange, hsub, hsize, hle, hstable, fun e => ?_⟩, rfl, rfl, rfl, rfl⟩
    · rw [hs]
      rfl
    · rw [hsholds]
      refine Iff.trans ?_ (hholds e)
      constructor
      · rintro (hempty | ⟨j, -, hj, he⟩)
        · exact absurd hempty holds_empty
        · rw [Nat.zero_add] at hj
          exact ⟨j, hj, he⟩
      · rintro ⟨j, hj, he⟩
        exact .inr ⟨j, Nat.zero_le j, by omega, he⟩

/-! ## The whole growth -/

/-- The nodes in use come first in the ring, in the order of a map, and the table holds them. -/
structure Represents (c : LruCache K V) (used free : List Nat) (m : RecencyMap K V) : Prop where
  memory : c.nodesLen = 0 ∧ c.bucketsLen = 0 ∧ used = [] ∧ free = [] ∨
    Layout c (used ++ free) used
  count : used.length = c.used
  items : m.items = used.map (item c)
  capacity : m.capacity = c.capacity
  bound : c.nodesLen ≤ c.capacity + 1

section
variable {c : LruCache K V} {used free pre post : List Nat} {m : RecencyMap K V} {key : K}
  {i : Nat}

theorem Represents.layout (h : Represents c used free m) (hne : c.nodesLen ≠ 0) :
    Layout c (used ++ free) used := h.memory.resolve_left fun hzero => hne hzero.1

theorem Represents.layout_of_mem (h : Represents c used free m) (hi : i ∈ used) :
    Layout c (used ++ free) used := by
  refine h.memory.resolve_left fun hzero => ?_
  rw [hzero.2.2.1] at hi
  exact absurd hi List.not_mem_nil

theorem Represents.fresh (h : Represents c used free m) (hfresh : ∀ i ∈ used, (item c i).1 ≠ key) :
    ∀ e ∈ m.items, e.1 ≠ key := by
  intro e he
  rw [h.items] at he
  obtain ⟨i, hi, rfl⟩ := List.mem_map.mp he
  exact hfresh i hi

theorem Represents.split (h : Represents c (pre ++ i :: post) free m) (hkey : (item c i).1 = key) :
    m.items = pre.map (item c) ++ (key, (item c i).2) :: post.map (item c) := by
  rw [h.items, List.map_append, List.map_cons, ← hkey]

theorem Represents.notMem (h : Represents c (pre ++ i :: post) free m) :
    i ∉ pre ++ post ∧ i ∉ free := by
  have hlayout := h.layout_of_mem (List.mem_append_right pre (.head post))
  have hnodup := (List.nodup_cons.mp hlayout.ring.nodup).2
  rw [List.append_assoc, List.cons_append] at hnodup
  have hi := (List.nodup_cons.mp (List.perm_middle.nodup_iff.mp hnodup)).1
  rw [← List.append_assoc, List.mem_append, not_or] at hi
  exact hi

end

variable [Inhabited K] [Inhabited V] {c : LruCache K V} {used free : List Nat}
  {m : RecencyMap K V}

omit [Hashable K] in
theorem linkNodes_same (oldSize newSize : Nat) :
    (c.linkNodes oldSize newSize).nodesLen = newSize ∧
      (c.linkNodes oldSize newSize).buckets = c.buckets ∧
      (c.linkNodes oldSize newSize).bucketsLen = c.bucketsLen ∧
      (c.linkNodes oldSize newSize).capacity = c.capacity ∧
      (c.linkNodes oldSize newSize).used = c.used := by
  unfold linkNodes
  split
  · exact ⟨rfl, rfl, rfl, rfl, rfl⟩
  · exact ⟨rfl, rfl, rfl, rfl, rfl⟩

omit [Hashable K] in
theorem linkNodes_item {oldSize newSize i : Nat} (hi : i < oldSize) :
    item (c.linkNodes oldSize newSize) i = item c i := by
  have hnew : item (c.newNodes oldSize newSize) i = item c i := by
    rw [item, item, newNodes_old hi]
  unfold linkNodes
  rw [if_pos (by omega)]
  rw [(setPrev_moved ..).items, (setNext_moved ..).items, (setPrev_moved ..).items, hnew]

theorem grow_spec (h : Represents c used free m) (hcapacity : c.capacity < limit) {newSize : Nat}
    (hsize : newSize ≤ c.capacity + 1) :
    ∃ c' free', c.grow newSize = some c' ∧ Represents c' used free' m ∧
      c'.capacity = c.capacity ∧ c'.used = c.used ∧
      c'.nodesLen = if newSize ≤ c.nodesLen ∨ newSize ≤ 1 then c.nodesLen else newSize := by
  have hlimit : limit = 2 ^ 31 := rfl
  have hbound := h.bound
  have hu32 : u32 c.nodesLen = c.nodesLen := Nat.mod_eq_of_lt (by omega)
  unfold grow
  rw [if_neg (by omega), hu32]
  split
  · exact ⟨c, free, rfl, h, rfl, rfl, rfl⟩
  · obtain ⟨hnodesLen, hbuckets, hbucketsLen, hcap, hused⟩ :=
      linkNodes_same (c := c) c.nodesLen newSize
    have hmem : ∀ i ∈ used, i < c.nodesLen := by
      intro i hi
      rcases h.memory with ⟨-, -, rfl, -⟩ | hlayout
      · exact absurd hi List.not_mem_nil
      · exact ((hlayout.range i).mp (hlayout.sub i hi)).2
    obtain ⟨free', hring, hrange⟩ : ∃ free',
        (links (c.linkNodes c.nodesLen newSize)).Ring 0 (used ++ free') ∧
          ∀ i, i ∈ used ++ free' ↔ 0 < i ∧ i < newSize := by
      rcases h.memory with ⟨hzero, -, rfl, -⟩ | hlayout
      · refine ⟨List.range' 1 (newSize - 1), ?_, fun i => ?_⟩
        · rw [hzero]
          exact newNodes_ring (by omega) (by omega)
        · rw [List.nil_append, List.mem_range'_1]
          omega
      · refine ⟨free ++ List.range' c.nodesLen (newSize - c.nodesLen), ?_, fun i => ?_⟩
        · rw [← List.append_assoc]
          have := hlayout.size
          exact linkNodes_ring hlayout.ring (by omega) (fun i hi => ((hlayout.range i).mp hi).2)
            (by omega) (by omega)
        · rw [← List.append_assoc, List.mem_append, hlayout.range, List.mem_range'_1]
          have := hlayout.size
          omega
    have htable : c.bucketsLen = 0 ∨ Table c.bucketsLen c.buckets := by
      rcases h.memory with ⟨-, hzero, -⟩ | hlayout
      · exact .inl hzero
      · exact .inr hlayout.table
    have hitem : ∀ i ∈ used, item (c.linkNodes c.nodesLen newSize) i = item c i :=
      fun i hi => linkNodes_item (hmem i hi)
    have hholds (e : LruBucket) : Holds c.bucketsLen c.buckets e ↔
        ∃ i ∈ used, e = entryOf (c.linkNodes c.nodesLen newSize) i := by
      have hsame (i : Nat) (hi : i ∈ used) :
          entryOf (c.linkNodes c.nodesLen newSize) i = entryOf c i := by
        rw [entryOf, entryOf, hitem i hi]
      have hold : Holds c.bucketsLen c.buckets e ↔ ∃ i ∈ used, e = entryOf c i := by
        rcases h.memory with ⟨-, hzero, rfl, -⟩ | hlayout
        · rw [hzero]
          refine iff_of_false ?_ ?_
          · rintro ⟨i, hi, -⟩
            exact absurd hi (Nat.not_lt_zero i)
          · rintro ⟨i, hi, -⟩
            cases hi
        · exact hlayout.holds e
      rw [hold]
      exact exists_congr fun i => and_congr_right fun hi => by rw [hsame i hi]
    obtain ⟨c', hc', hlayout', hnodes', hnodesLen', hcap', hused'⟩ := growTable_layout hring
      (by rwa [hnodesLen]) (fun i hi => List.mem_append_left _ hi) (by omega) (by omega)
      (by rwa [hbuckets, hbucketsLen]) (by rwa [hbuckets, hbucketsLen])
    rw [hnodesLen] at hc' hnodesLen'
    refine ⟨c', free', hc', ⟨.inr hlayout', ?_, ?_, ?_, ?_⟩, hcap'.trans hcap, hused'.trans hused,
      hnodesLen'⟩
    · rw [hused', hused, h.count]
    · rw [h.items]
      refine List.map_congr_left fun i hi => ?_
      rw [← hitem i hi, item, item, hnodes']
    · rw [hcap', hcap, h.capacity]
    · rw [hnodesLen', hcap', hcap]
      exact hsize

end

end Nimbus.Spec.Lru
