import Nimbus.ForStd.RingList
import Nimbus.Spec.LruTable

/-!
# The nodes and the table of the cache

The nodes are a ring through all of the memory in use, and the table holds the entries of some of
them. Each part of an operation changes one of the two and says what it leaves alone.
-/

namespace Nimbus.Spec.Lru

open Native Native.Lru RobinHood LruCache Function

variable {K V : Type}

/-! ## Nodes -/

def links (c : LruCache K V) : Links Nat := ⟨fun i => (c.nodes i).next, fun i => (c.nodes i).prev⟩

def item (c : LruCache K V) (i : Nat) : K × V := ((c.nodes i).key, (c.nodes i).value)

/-- Only links have changed. -/
structure Moved (c c' : LruCache K V) : Prop where
  items : item c' = item c
  nodesLen : c'.nodesLen = c.nodesLen
  buckets : c'.buckets = c.buckets
  bucketsLen : c'.bucketsLen = c.bucketsLen
  capacity : c'.capacity = c.capacity
  used : c'.used = c.used

theorem Moved.refl (c : LruCache K V) : Moved c c := ⟨rfl, rfl, rfl, rfl, rfl, rfl⟩

theorem Moved.trans {a b c : LruCache K V} (h : Moved a b) (h' : Moved b c) : Moved a c where
  items := h'.items.trans h.items
  nodesLen := h'.nodesLen.trans h.nodesLen
  buckets := h'.buckets.trans h.buckets
  bucketsLen := h'.bucketsLen.trans h.bucketsLen
  capacity := h'.capacity.trans h.capacity
  used := h'.used.trans h.used

theorem field_update {α : Type} (f : LruNode K V → α) (nodes : Nat → LruNode K V) (i : Nat)
    (node : LruNode K V) : (fun j => f (update nodes i node j)) =
      update (fun j => f (nodes j)) i (f node) := by
  funext j
  by_cases hj : j = i
  · subst hj
    rw [update_self, update_self]
  · rw [update_of_ne hj, update_of_ne hj]

theorem field_same {α : Type} (f : LruNode K V → α) (nodes : Nat → LruNode K V) {i : Nat}
    {node : LruNode K V} (h : f node = f (nodes i)) :
    (fun j => f (update nodes i node j)) = fun j => f (nodes j) := by
  rw [field_update, h]
  exact update_eq_self i fun j => f (nodes j)

section
variable (c : LruCache K V) (i j : Nat)

theorem links_setNext : links (c.setNext i j) = ⟨update (links c).next i j, (links c).prev⟩ :=
  congrArg₂ Links.mk (field_update LruNode.next ..) (field_same LruNode.prev _ rfl)

theorem links_setPrev : links (c.setPrev i j) = ⟨(links c).next, update (links c).prev i j⟩ :=
  congrArg₂ Links.mk (field_same LruNode.next _ rfl) (field_update LruNode.prev ..)

theorem links_setKey (key : K) : links (c.setKey i key) = links c :=
  congrArg₂ Links.mk (field_same LruNode.next _ rfl) (field_same LruNode.prev _ rfl)

theorem links_setValue (value : V) : links (c.setValue i value) = links c :=
  congrArg₂ Links.mk (field_same LruNode.next _ rfl) (field_same LruNode.prev _ rfl)

theorem setNext_moved : Moved c (c.setNext i j) :=
  ⟨field_same (fun node => (node.key, node.value)) _ rfl, rfl, rfl, rfl, rfl, rfl⟩

theorem setPrev_moved : Moved c (c.setPrev i j) :=
  ⟨field_same (fun node => (node.key, node.value)) _ rfl, rfl, rfl, rfl, rfl, rfl⟩

/-- The writes that both moves start with. -/
def unlinked (c : LruCache K V) (i : Nat) : LruCache K V :=
  let s := c.setNext (c.nodes i).prev (c.nodes i).next
  s.setPrev (s.nodes i).next (s.nodes i).prev

theorem links_unlinked :
    links (unlinked c i) = (links c).connect ((links c).prev i) ((links c).next i) := by
  let s := c.setNext (c.nodes i).prev (c.nodes i).next
  have hs : links s = ⟨update (links c).next ((links c).prev i) ((links c).next i),
      (links c).prev⟩ := links_setNext c _ _
  -- the second write reads the links of the node once more, which are still the same
  have hnext : (s.nodes i).next = (links c).next i := by
    change (links s).next i = _
    rw [hs]
    by_cases hi : i = (links c).prev i
    · exact (congrArg _ hi).trans (update_self ..)
    · exact update_of_ne hi ..
  have hprev : (s.nodes i).prev = (links c).prev i := by
    change (links s).prev i = _
    rw [hs]
  change links (s.setPrev (s.nodes i).next (s.nodes i).prev) = _
  rw [links_setPrev, hs, hnext, hprev]
  rfl

theorem links_moveToFront : links (c.moveToFront i) = (links c).moveToFront 0 i := by
  unfold moveToFront Links.moveToFront
  by_cases hfirst : (c.nodes 0).next = i
  · rw [if_pos hfirst, if_pos (show (links c).next 0 = i from hfirst)]
  · rw [if_neg hfirst, if_neg (show ¬ (links c).next 0 = i from hfirst)]
    change links ((((unlinked c i).setPrev i 0).setNext i (c.nodes 0).next).setNext 0 i
      |>.setPrev (c.nodes 0).next i) = _
    rw [links_setPrev, links_setNext, links_setNext, links_setPrev, links_unlinked]
    refine congrArg₂ Links.mk rfl ?_
    exact update_comm (Ne.symm hfirst) _ _ _

theorem links_moveToBack : links (c.moveToBack i) = (links c).moveToBack 0 i := by
  unfold moveToBack Links.moveToBack
  by_cases hlast : (c.nodes 0).prev = i
  · rw [if_pos hlast, if_pos (show (links c).prev 0 = i from hlast)]
  · rw [if_neg hlast, if_neg (show ¬ (links c).prev 0 = i from hlast)]
    change links ((((unlinked c i).setPrev i (c.nodes 0).prev).setNext i 0).setNext
      (c.nodes 0).prev i |>.setPrev 0 i) = _
    rw [links_setPrev, links_setNext, links_setNext, links_setPrev, links_unlinked]
    refine congrArg₂ Links.mk ?_ rfl
    exact update_comm (Ne.symm hlast) _ _ _

theorem moveToFront_moved : Moved c (c.moveToFront i) := by
  unfold moveToFront
  by_cases hfirst : (c.nodes 0).next = i
  · rw [if_pos hfirst]
    exact .refl c
  · rw [if_neg hfirst]
    exact (setNext_moved ..).trans <| (setPrev_moved ..).trans <| (setPrev_moved ..).trans <|
      (setNext_moved ..).trans <| (setNext_moved ..).trans (setPrev_moved ..)

theorem moveToBack_moved : Moved c (c.moveToBack i) := by
  unfold moveToBack
  by_cases hlast : (c.nodes 0).prev = i
  · rw [if_pos hlast]
    exact .refl c
  · rw [if_neg hlast]
    exact (setNext_moved ..).trans <| (setPrev_moved ..).trans <| (setPrev_moved ..).trans <|
      (setNext_moved ..).trans <| (setNext_moved ..).trans (setPrev_moved ..)

theorem item_setValue (value : V) :
    item (c.setValue i value) = update (item c) i ((item c i).1, value) :=
  field_update (fun node => (node.key, node.value)) ..

theorem item_setKey (key : K) : item (c.setKey i key) = update (item c) i (key, (item c i).2) :=
  field_update (fun node => (node.key, node.value)) ..

variable {c i}

theorem item_setValue_key (value : V) (j : Nat) :
    (item (c.setValue i value) j).1 = (item c j).1 := by
  rw [item_setValue]
  by_cases hj : j = i
  · subst hj
    rw [update_self]
  · rw [update_of_ne hj]

theorem map_item_setValue {l : List Nat} (h : i ∉ l) (value : V) :
    l.map (item (c.setValue i value)) = l.map (item c) := by
  refine List.map_congr_left fun j hj => ?_
  have hji : j ≠ i := fun heq => h (heq ▸ hj)
  rw [item_setValue, update_of_ne hji]

end

/-! ## Layouts -/

variable [Hashable K]

theorem subhash_lt (key : K) : subhash key < 2 ^ 32 := Nat.mod_lt _ (Nat.two_pow_pos 32)

/-- The entry of a node. -/
def entryOf (c : LruCache K V) (i : Nat) : LruBucket := ⟨subhash (item c i).1, i⟩

/-- The nodes in use are those of a ring, and the table holds the entries of some of them. -/
structure Layout (c : LruCache K V) (order held : List Nat) : Prop where
  ring : (links c).Ring 0 order
  range : ∀ i, i ∈ order ↔ 0 < i ∧ i < c.nodesLen
  sub : ∀ i ∈ held, i ∈ order
  size : 2 ≤ c.nodesLen
  fits : c.nodesLen ≤ c.bucketsLen
  table : Table c.bucketsLen c.buckets
  holds : ∀ e, Holds c.bucketsLen c.buckets e ↔ ∃ i ∈ held, e = entryOf c i

section
variable {c c' : LruCache K V} {order held pre post : List Nat} {i : Nat}

theorem Layout.moved (h : Layout c order held) (hmoved : Moved c c') {order' : List Nat}
    (hperm : order'.Perm order) (hring : (links c').Ring 0 order') : Layout c' order' held where
  ring := hring
  range i := by
    rw [hperm.mem_iff, hmoved.nodesLen]
    exact h.range i
  sub i hi := hperm.mem_iff.mpr (h.sub i hi)
  size := hmoved.nodesLen ▸ h.size
  fits := by
    rw [hmoved.nodesLen, hmoved.bucketsLen]
    exact h.fits
  table := by
    rw [hmoved.buckets, hmoved.bucketsLen]
    exact h.table
  holds e := by
    rw [hmoved.buckets, hmoved.bucketsLen, h.holds]
    simp only [entryOf, hmoved.items]

theorem Layout.moveToFront (h : Layout c (pre ++ i :: post) held) :
    Layout (c.moveToFront i) (i :: (pre ++ post)) held := by
  refine h.moved (moveToFront_moved c i) List.perm_middle.symm ?_
  rw [links_moveToFront]
  exact h.ring.moveToFront

theorem Layout.moveToBack (h : Layout c (pre ++ i :: post) held) :
    Layout (c.moveToBack i) (pre ++ post ++ [i]) held := by
  refine h.moved (moveToBack_moved c i) ?_ ?_
  · rw [List.append_assoc]
    exact (List.perm_append_singleton i post).append_left pre
  · rw [links_moveToBack]
    exact h.ring.moveToBack

/-- Values, and keys of nodes that are not held, are nothing to the table. -/
theorem Layout.items (h : Layout c order held) (hlinks : links c' = links c)
    (hkeys : ∀ i ∈ held, (item c' i).1 = (item c i).1) (hnodesLen : c'.nodesLen = c.nodesLen)
    (hbuckets : c'.buckets = c.buckets) (hbucketsLen : c'.bucketsLen = c.bucketsLen) :
    Layout c' order held where
  ring := hlinks ▸ h.ring
  range i := by
    rw [hnodesLen]
    exact h.range i
  sub := h.sub
  size := hnodesLen ▸ h.size
  fits := by
    rw [hnodesLen, hbucketsLen]
    exact h.fits
  table := by
    rw [hbuckets, hbucketsLen]
    exact h.table
  holds e := by
    rw [hbuckets, hbucketsLen, h.holds]
    refine exists_congr fun i => and_congr_right fun hi => ?_
    rw [entryOf, entryOf, hkeys i hi]

theorem Layout.setValue {order held : List Nat} (h : Layout c order held) (value : V) :
    Layout (c.setValue i value) order held :=
  h.items (links_setValue c i value) (fun j _ => item_setValue_key value j) rfl rfl rfl

theorem Layout.room (h : Layout c order held) : ∃ q < c.bucketsLen, entries c.buckets q = none := by
  have hsize := h.size
  have hfits := h.fits
  refine exists_free (by omega) LruBucket.index (fun i hi e he => ?_) ?_
  · obtain ⟨j, hj, rfl⟩ := (h.holds e).mp ⟨i, hi, he⟩
    obtain ⟨hpos, hlt⟩ := (h.range j).mp (h.sub j hj)
    exact ⟨hpos, Nat.lt_of_lt_of_le hlt hfits⟩
  · intro i hi j hj e f he hf hindex
    obtain ⟨k, -, rfl⟩ := (h.holds e).mp ⟨i, hi, he⟩
    obtain ⟨l, -, rfl⟩ := (h.holds f).mp ⟨j, hj, hf⟩
    have hkl : k = l := hindex
    subst hkl
    exact h.table.once i hi j hj _ he hf

/-- A search for a key among the nodes that are held. -/
def Finds (c : LruCache K V) (held : List Nat) (key : K) : Option Nat → Prop
  | some bi => bi < c.bucketsLen ∧
      ∃ i ∈ held, entries c.buckets bi = some (entryOf c i) ∧ (item c i).1 = key
  | none => ∀ i ∈ held, (item c i).1 ≠ key

theorem Layout.find [DecidableEq K] (h : Layout c order held) (key : K) :
    ∃ found, c.tableBucket (subhash key) key = some found ∧ Finds c held key found := by
  obtain ⟨found, hfound, hspec⟩ := tableBucket_spec h.table h.room (subhash key) key
  refine ⟨found, hfound, ?_⟩
  cases found with
  | none =>
    intro i hi hkey
    refine hspec (entryOf c i) ((h.holds _).mpr ⟨i, hi, rfl⟩) ⟨?_, hkey⟩
    rw [entryOf, hkey]
  | some bi =>
    obtain ⟨hbi, e, he, hmatch⟩ := hspec
    obtain ⟨i, hi, rfl⟩ := (h.holds e).mp ⟨bi, hbi, he⟩
    exact ⟨hbi, i, hi, he, hmatch.2⟩

theorem index_of_entries {bi : Nat} (h : entries c.buckets bi = some (entryOf c i)) :
    (c.buckets bi).index = i := by
  rw [(entry_eq_some.mp h).2]
  rfl

theorem Layout.delBucket (h : Layout c order (pre ++ i :: post)) (hi : i ∉ pre ++ post) {bi : Nat}
    (hbi : bi < c.bucketsLen) (hentry : entries c.buckets bi = some (entryOf c i)) :
    ∃ c', c.delBucket bi = some c' ∧ Layout c' order (pre ++ post) ∧ c'.nodes = c.nodes ∧
      c'.nodesLen = c.nodesLen ∧ c'.capacity = c.capacity ∧ c'.used = c.used := by
  obtain ⟨s, hs, htable, hholds⟩ := tableDel_spec h.table hbi hentry h.room
  refine ⟨{ c with buckets := s }, ?_, ?_, rfl, rfl, rfl, rfl⟩
  · rw [LruCache.delBucket, hs]
    rfl
  · refine ⟨h.ring, h.range, fun j hj => ?_, h.size, h.fits, htable, fun e => ?_⟩
    · refine h.sub j ?_
      rcases List.mem_append.mp hj with hj | hj
      · exact List.mem_append_left _ hj
      · exact List.mem_append_right _ (.tail _ hj)
    · rw [hholds, h.holds]
      constructor
      · rintro ⟨⟨j, hj, rfl⟩, hne⟩
        refine ⟨j, ?_, rfl⟩
        rcases List.mem_append.mp hj with hj | hj
        · exact List.mem_append_left _ hj
        · rcases List.mem_cons.mp hj with rfl | hj
          · exact absurd rfl hne
          · exact List.mem_append_right _ hj
      · rintro ⟨j, hj, rfl⟩
        refine ⟨⟨j, ?_, rfl⟩, fun heq => hi ?_⟩
        · rcases List.mem_append.mp hj with hj | hj
          · exact List.mem_append_left _ hj
          · exact List.mem_append_right _ (.tail _ hj)
        · rwa [← show j = i from congrArg LruBucket.index heq]

theorem Layout.tablePut (h : Layout c order held) (hi : i ∈ order) (hfree : i ∉ held) :
    ∃ s, Lru.tablePut c.buckets c.bucketsLen (subhash (item c i).1) i = some s ∧
      Layout { c with buckets := s } order (i :: held) := by
  have hpos := ((h.range i).mp hi).1
  have hfresh : ¬ Holds c.bucketsLen c.buckets (entryOf c i) := by
    intro hstored
    obtain ⟨j, hj, heq⟩ := (h.holds _).mp hstored
    have hij : i = j := congrArg LruBucket.index heq
    exact hfree (hij ▸ hj)
  obtain ⟨s, hs, htable, hholds⟩ := tablePut_spec h.table (subhash_lt _) hpos hfresh h.room
  refine ⟨s, hs, h.ring, h.range, fun j hj => ?_, h.size, h.fits, htable, fun e => ?_⟩
  · rcases List.mem_cons.mp hj with rfl | hj
    · exact hi
    · exact h.sub j hj
  · rw [hholds, h.holds]
    constructor
    · rintro (rfl | ⟨j, hj, rfl⟩)
      · exact ⟨i, .head _, rfl⟩
      · exact ⟨j, .tail _ hj, rfl⟩
    · rintro ⟨j, hj, rfl⟩
      rcases List.mem_cons.mp hj with rfl | hj
      · exact .inl rfl
      · exact .inr ⟨j, hj, rfl⟩

end

end Nimbus.Spec.Lru
