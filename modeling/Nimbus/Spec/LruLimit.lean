import Nimbus.Spec.LruCache

/-!
# The capacity up to which the cache refines the map

For the node 2^31 of a ring of 2^31 + 1 nodes, the sum that gives the node before it wraps around,
and it is linked to the root instead. The first insertion takes it out of the ring, and the root
is its own tail from then on: the next item goes into the root, which means a free bucket to the
table.
-/

namespace Nimbus.Spec.Lru

open Native Native.Lru RobinHood LruCache Function

/-! ## Free buckets -/

section
variable {K V : Type} [DecidableEq K] {c : LruCache K V}

theorem tableBucket_free {subhash : Nat} (key : K) (hpos : 0 < c.bucketsLen)
    (hfree : (c.buckets (subhash &&& mask c.bucketsLen)).index = 0) :
    c.tableBucket subhash key = some none := by
  obtain ⟨n, hn⟩ : ∃ n, c.bucketsLen = n + 1 := ⟨c.bucketsLen - 1, by omega⟩
  have hstop (bi : Nat) (hbi : (c.buckets bi).index = 0) :
      c.bucketLoop subhash key (n + 1) bi 0 = some none := by
    rw [bucketLoop, if_pos (.inl hbi)]
  have hsearch := hstop _ hfree
  rwa [← hn] at hsearch

theorem tablePut_free {s : Nat → LruBucket} {len subhash : Nat} (index : Nat) (hpos : 0 < len)
    (hfree : (s (subhash &&& mask len)).index = 0) :
    tablePut s len subhash index =
      some (update s (subhash &&& mask len) ⟨subhash, index⟩) := by
  obtain ⟨n, hn⟩ : ∃ n, len = n + 1 := ⟨len - 1, by omega⟩
  have hstop (bi : Nat) (hbi : (s bi).index = 0) :
      putLoop len (n + 1) bi subhash index 0 s = some (update s bi ⟨subhash, index⟩) := by
    rw [putLoop, if_pos hbi]
  have hput := hstop _ hfree
  rwa [← hn] at hput

variable [Hashable K] [Inhabited K] [Inhabited V]

/-- A new key whose bucket is free takes the tail, while there is room. -/
theorem put_free (key : K) (value : V) (hroom : c.used + 1 < c.nodesLen) (hpos : 0 < c.bucketsLen)
    (hfree : (c.buckets (subhash key &&& mask c.bucketsLen)).index = 0) :
    ∃ c₁ c', links c₁ = links c ∧ c'.buckets = update c.buckets
        (subhash key &&& mask c.bucketsLen) ⟨subhash key, (c.nodes 0).prev⟩ ∧
      c' = c₁.moveToFront (c.nodes 0).prev ∧ c'.nodesLen = c.nodesLen ∧
      c'.bucketsLen = c.bucketsLen ∧ c'.used = c.used + 1 ∧ c.put key value = some (true, c') := by
  let last := (c.nodes 0).prev
  let c₀ := (setKey { c with used := c.used + 1 } last key).setValue last value
  have hput : tablePut c₀.buckets c₀.bucketsLen (subhash key) last = some (update
      c₀.buckets (subhash key &&& mask c₀.bucketsLen) ⟨subhash key, last⟩) :=
    tablePut_free last hpos hfree
  let c₁ : LruCache K V := { c₀ with
    buckets := update c.buckets (subhash key &&& mask c.bucketsLen) ⟨subhash key, last⟩ }
  have hmoved := moveToFront_moved c₁ last
  refine ⟨c₁, c₁.moveToFront last, ?_, hmoved.buckets, rfl, hmoved.nodesLen, hmoved.bucketsLen,
    hmoved.used, ?_⟩
  · exact (links_setValue ..).trans (links_setKey ..)
  · have hgrow : c.growToPut = some c := by
      rw [growToPut, if_neg (by omega)]
    rw [LruCache.put, hgrow]
    change (if c.nodesLen = 0 then _ else _) = _
    rw [if_neg (by omega), tableBucket_free key hpos hfree]
    rw [if_pos hroom]
    have hfill : LruCache.fill { c with used := c.used + 1 } last key value =
        some (c₁.moveToFront last) := by
      rw [LruCache.fill]
      rw [hput]
      rfl
    rw [hfill]
    rfl

theorem put_into_root (key : K) (value : V) (hroot : (c.nodes 0).prev = 0)
    (hroom : c.used + 1 < c.nodesLen) (hpos : 0 < c.bucketsLen)
    (hfree : (c.buckets (subhash key &&& mask c.bucketsLen)).index = 0) :
    ∃ c', c.put key value = some (true, c') ∧ c'.get key = some (none, c') := by
  obtain ⟨c₁, c', -, hbuckets, -, -, hbucketsLen, hused, hput⟩ := put_free key value hroom hpos hfree
  refine ⟨c', hput, ?_⟩
  have hindex : (c'.buckets (subhash key &&& mask c'.bucketsLen)).index = 0 := by
    rw [hbuckets, hbucketsLen, update_self]
    exact hroot
  have hget : c'.tableGet (subhash key) key = some none := by
    rw [tableGet, if_neg (by omega),
      tableBucket_free key (by rw [hbucketsLen]; exact hpos) hindex]
    rfl
  rw [LruCache.get, hget]
  rfl

/-! ## Above the limit -/

omit [DecidableEq K] [Hashable K] in
/-- The first growth, to one node more than the limit: the last node is linked to the root in both
directions. -/
theorem init_above {capacity : Nat} (h : limit ≤ capacity) :
    ∃ c : LruCache K V, LruCache.init capacity limit = some c ∧
      ((links c).next 0 = 1 ∧ (links c).prev 0 = limit ∧ (links c).next limit = 0 ∧
        (links c).prev limit = 0) ∧
      c.nodesLen = limit + 1 ∧ Sized c.bucketsLen ∧ limit ≤ c.bucketsLen ∧
      (∀ i, (c.buckets i).index = 0) ∧ c.used = 0 := by
  have hsmall : filled (limit + 1) ≤ 2 ^ 32 := by decide
  have hlarge : limit ≤ filled (limit + 1) := by decide
  have hpower : filled (limit + 1) ≤ nextPowerOfTwo (filled (limit + 1)) :=
    Nat.le_pow_clog (by decide) _
  let start : LruCache K V :=
    ⟨fun _ => ⟨0, 0, default, default⟩, 0, fun _ => ⟨0, 0⟩, 0, capacity, 0⟩
  let c : LruCache K V := { start.newNodes 0 (limit + 1) with
    bucketsLen := nextPowerOfTwo (filled (limit + 1)) }
  have hgrow : start.grow (limit + 1) = some c := by
    have hcapacity : ¬ start.capacity + 1 < limit + 1 := by
      change ¬ capacity + 1 < limit + 1
      omega
    have htable : ¬ nextPowerOfTwo (filled (limit + 1)) ≤
        (start.linkNodes (u32 start.nodesLen) (limit + 1)).bucketsLen := by
      change ¬ nextPowerOfTwo (filled (limit + 1)) ≤ 0
      have : 0 < limit := by decide
      omega
    have hsize : ¬ (limit + 1 ≤ u32 0 ∨ limit + 1 ≤ 1) := by decide
    rw [grow, if_neg hcapacity]
    rfl
  refine ⟨c, ?_, ⟨rfl, rfl, rfl, rfl⟩, rfl, ?_, Nat.le_trans hlarge hpower, fun _ => rfl, rfl⟩
  · rw [LruCache.init, if_neg (by omega)]
    exact hgrow
  · exact ⟨Nat.clog 2 (filled (limit + 1)), Nat.clog_pos (by decide) (by decide),
      Nat.clog_le_of_le_pow hsmall, rfl⟩

/-- Two new keys with different buckets: the second one is not found. -/
theorem second_lost {capacity : Nat} (h : limit ≤ capacity) {k₁ k₂ : K} (value : V)
    (hhome : ∀ len, Sized len → limit ≤ len → subhash k₁ % len ≠ subhash k₂ % len) :
    ∃ c₀ c, LruCache.init capacity limit = some c₀ ∧
      run c₀ [.put k₁ value, .put k₂ value, .get k₂] =
        some ([.flag true, .flag true, .value none], c) := by
  obtain ⟨c₀, hinit, ⟨hnext0, hprev0, hnext, hprev⟩, hnodesLen, hsized, hlen, hfree, hused⟩ :=
    init_above (K := K) (V := V) h
  have hlimit : limit = 2 ^ 31 := rfl
  obtain ⟨c₁, c', hlinks, hbuckets, hc', hnodesLen', hbucketsLen', hused', hput⟩ :=
    put_free k₁ value (by omega) (by omega) (hfree _)
  -- the first item takes the last node, and the root is linked to itself then
  have hroot : (c'.nodes 0).prev = 0 := by
    change (links c').prev 0 = 0
    rw [hc', show (c₀.nodes 0).prev = limit from hprev0, links_moveToFront, hlinks,
      Links.moveToFront, hnext0, hnext, hprev]
    rfl
  have hother : (c'.buckets (subhash k₂ &&& mask c'.bucketsLen)).index = 0 := by
    rw [hbuckets, hbucketsLen', update_of_ne]
    · exact hfree _
    · rw [hsized.and_mask, hsized.and_mask]
      exact (hhome _ hsized hlen).symm
  obtain ⟨c, hput', hget⟩ := put_into_root k₂ value hroot (by omega) (by omega) hother
  refine ⟨c₀, c, hinit, ?_⟩
  have hexec₁ : exec c₀ (.put k₁ value) = some (.flag true, c') := by
    rw [exec, hput]
    rfl
  have hexec₂ : exec c' (.put k₂ value) = some (.flag true, c) := by
    rw [exec, hput']
    rfl
  have hexec₃ : exec c (.get k₂) = some (.value none, c) := by
    rw [exec, hget]
    rfl
  rw [run, hexec₁]
  change Option.bind (run c' _) _ = _
  rw [run, hexec₂]
  change Option.bind (Option.bind (run c _) _) _ = _
  rw [run, hexec₃]
  rfl

end

theorem bool_homes (len : Nat) (_ : Sized len) (hlen : limit ≤ len) :
    subhash false % len ≠ subhash true % len := by
  have hlimit : limit = 2 ^ 31 := rfl
  rw [show subhash false = 13 from rfl, show subhash true = 11 from rfl,
    Nat.mod_eq_of_lt (by omega), Nat.mod_eq_of_lt (by omega)]
  decide

theorem not_refines {capacity : Nat} (h : limit ≤ capacity) : ¬ Refines capacity := by
  intro hrefines
  obtain ⟨c₀, c, hinit, hrun⟩ := second_lost (V := Unit) h () bool_homes
  obtain ⟨c₀', c', hinit', hrun', -⟩ := hrefines Bool Unit limit h
    [.put false (), .put true (), .get true]
  rw [hinit] at hinit'
  obtain rfl := Option.some.inj hinit'
  rw [hrun] at hrun'
  have houts := congrArg Prod.fst (Option.some.inj hrun')
  -- the map has both
  have hmap : (performAll (.empty capacity) [Op.put false (), .put true (), .get true]).1 =
      [.flag true, .flag true, .value (some ())] := by
    obtain ⟨room, rfl⟩ : ∃ room, capacity = room + 2 := by
      have hlimit : limit = 2 ^ 31 := rfl
      exact ⟨capacity - 2, by omega⟩
    rfl
  rw [hmap] at houts
  have hne : [Out.flag true, .flag true, .value none] ≠
      [.flag true, .flag true, (.value (some ()) : Out Bool Unit)] := by decide
  exact hne houts

theorem cache_refines_iff (capacity : Nat) : Refines capacity ↔ capacity < 2 ^ 31 :=
  ⟨fun h => Nat.lt_of_not_le fun hle => not_refines hle h, refines⟩

/-- With a capacity of 2^31, allocated from the start, the second of two items is lost. -/
theorem limit_loses : (∃ c₀ c : LruCache Bool Unit, LruCache.init (2 ^ 31) (2 ^ 31) = some c₀ ∧
      run c₀ [.put false (), .put true (), .get true] =
        some ([.flag true, .flag true, .value none], c)) ∧
    (performAll (.empty (2 ^ 31)) [Op.put false (), .put true (), .get true]).1 =
      [.flag true, .flag true, .value (some ())] ∧
    ¬ Refines (2 ^ 31) :=
  ⟨second_lost (Nat.le_refl limit) () bool_homes, rfl, not_refines (Nat.le_refl limit)⟩

end Nimbus.Spec.Lru
