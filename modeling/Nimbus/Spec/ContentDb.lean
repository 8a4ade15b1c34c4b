import Mathlib.Logic.Function.Iterate
import Nimbus.ForStd.RecencyMap
import Nimbus.Native.ContentDb

/-!
# Pruning the Portal content database

A prune is needed while the used size is not below the capacity. Each of them shrinks the radius,
and takes out what is not closer than the new one, so the loop ends if an empty database fits. A
content counts as stored when it is not farther than the radius, though, and the content that was
just put is cached without a look at what is left of it.
-/

namespace Nimbus.Spec.Portal

open Nimbus.Native.Portal Nimbus.Native.Portal.ContentDb

variable {Cache : Type → Type} {lru : LruOps Cache} {usedSize : List Row → Nat}
  {p p' : PortalProtocol Cache} {db db' : ContentDb} {put : Put} {row : Row} {k n : Nat}

/-! ## The radius -/

/-- The radius after a number of prunes -/
def radiusAt (dataRadius : UInt256) (k : Nat) : UInt256 := newRadius^[k] dataRadius

theorem toNat_newRadius (r : UInt256) : (newRadius r).toNat = r.toNat / 100 * 95 := by
  have h : r.toNat / 100 * 95 < 2 ^ 256 := by have := r.isLt; omega
  exact Nat.mod_eq_of_lt h

theorem newRadius_le (r : UInt256) : newRadius r ≤ r := by
  rw [BitVec.le_def, toNat_newRadius]
  omega

theorem radiusAt_succ (r : UInt256) (k : Nat) : radiusAt r (k + 1) = newRadius (radiusAt r k) :=
  Function.iterate_succ_apply' ..

theorem radiusAt_anti (r : UInt256) {j k : Nat} (h : j ≤ k) : radiusAt r k ≤ radiusAt r j := by
  induction h with
  | refl => exact BitVec.le_refl _
  | step _ ih => exact BitVec.le_trans (radiusAt_succ r _ ▸ newRadius_le _) ih

/-- The radius shrinks until nothing is left of it. -/
theorem radiusAt_zero (r : UInt256) : radiusAt r (r.toNat + 1) = 0 := by
  have h (k : Nat) : (radiusAt r k).toNat ≤ r.toNat - k := by
    induction k with
    | zero => exact Nat.le_refl _
    | succ k ih =>
      rw [radiusAt_succ, toNat_newRadius]
      omega
  apply BitVec.eq_of_toNat_eq
  have hle := h (r.toNat + 1)
  simpa using hle

/-! ## The loop -/

/-- The rows that are left after a number of prunes -/
def left (db : ContentDb) (k : Nat) : List Row :=
  db.kv.filter fun row => ∀ j < k, isInRadius row.1 db.localId (radiusAt db.dataRadius (j + 1))

theorem iterate_prune (db : ContentDb) (k : Nat) :
    prune^[k] db = { db with kv := left db k, dataRadius := radiusAt db.dataRadius k } := by
  induction k with
  | zero => simp [left, radiusAt]
  | succ k ih =>
    rw [Function.iterate_succ_apply', ih, prune, deleteContentOutOfRadius]
    simp only [← radiusAt_succ, left, List.filter_filter, Nat.forall_lt_succ_right,
      Bool.decide_and, Bool.decide_eq_true, Bool.and_comm]

theorem mem_left_succ : row ∈ left db (k + 1) ↔
    row ∈ db.kv ∧ isInRadius row.1 db.localId (radiusAt db.dataRadius (k + 1)) := by
  rw [left, List.mem_filter, decide_eq_true_eq]
  refine and_congr_right fun _ => ⟨fun h => h k (Nat.lt_succ_self k), fun h j hj => ?_⟩
  have hle := radiusAt_anti db.dataRadius (show j + 1 ≤ k + 1 by omega)
  exact decide_eq_true (Nat.lt_of_lt_of_le (of_decide_eq_true h :) hle)

theorem left_zero (db : ContentDb) : left db (db.dataRadius.toNat + 1) = [] := by
  rw [List.eq_nil_iff_forall_not_mem]
  intro row hrow
  have hin := (mem_left_succ.mp hrow).2
  rw [radiusAt_zero] at hin
  exact BitVec.not_lt_zero (of_decide_eq_true hin)

theorem pruneLoop_isSome (n : Nat) (pruned : Bool) {db : ContentDb}
    (h : usedSize (prune^[n] db).kv < db.storageCapacity) :
    (pruneLoop usedSize (n + 1) pruned db).isSome := by
  induction n generalizing db pruned with
  | zero =>
    have hroom : ¬ db.storageCapacity ≤ usedSize db.kv := Nat.not_le.mpr h
    rw [pruneLoop, if_neg hroom]
    rfl
  | succ n ih =>
    rw [pruneLoop]
    split
    · exact ih true h
    · rfl

/-- The loop prunes as long as that is needed. -/
theorem pruneLoop_spec {fuel : Nat} {pruned pruned' : Bool}
    (h : pruneLoop usedSize fuel pruned db = some (pruned', db')) :
    ∃ n, db' = prune^[n] db ∧ usedSize db'.kv < db'.storageCapacity ∧ (n = 0 ∨ pruned' = true) ∧
      (pruned = true → pruned' = true) ∧
      ∀ k < n, db.storageCapacity ≤ usedSize (prune^[k] db).kv := by
  induction fuel generalizing pruned db with
  | zero => cases h
  | succ fuel ih =>
    rw [pruneLoop] at h
    split at h
    · next hfull =>
      obtain ⟨n, hdb, hroom, -, hpruned, hneeded⟩ := ih h
      refine ⟨n + 1, hdb, hroom, .inr (hpruned rfl), fun _ => hpruned rfl, fun k hk => ?_⟩
      cases k with
      | zero => exact hfull
      | succ k => exact hneeded k (by omega)
    · next hroom =>
      cases h
      exact ⟨0, rfl, Nat.not_le.mp hroom, .inl rfl, id, fun k hk => absurd hk (Nat.not_lt_zero k)⟩

/-! ## Stored contents -/

/-- A cache holds nothing but what was put since its start. -/
structure Lawful (lru : LruOps Cache) : Prop where
  contains_init : ∀ n id, lru.contains (lru.init n : Cache Bool) id = false
  contains_put : ∀ (cache : Cache Bool) id v id', lru.contains (lru.put cache id v) id' →
    id' = id ∨ lru.contains cache id'

/-- The database after the content is put, before it is pruned -/
def stored (p : PortalProtocol Cache) (put : Put) : ContentDb := p.db.put put.contentId put.content

/-- After `k` prunes, one more makes the used size fall below the capacity. -/
def Last (usedSize : List Row → Nat) (db : ContentDb) (k : Nat) : Prop :=
  db.storageCapacity ≤ usedSize (left db k) ∧ usedSize (left db (k + 1)) < db.storageCapacity

/-- An empty database fits, the last prune finds no content at the very end of its radius, and
leaves the content that is put, if that is to be cached. -/
structure Spared (usedSize : List Row → Nat) (p : PortalProtocol Cache) (put : Put) : Prop where
  room : usedSize [] < p.db.storageCapacity
  boundary : ∀ k, Last usedSize (stored p put) k → ∀ row ∈ (stored p put).kv,
    distance p.db.localId row.1 ≠ radiusAt p.db.dataRadius (k + 1)
  cached : put.cacheOffer = true → p.disableOfferCache = false →
    ∀ k, Last usedSize (stored p put) k →
      isInRadius put.contentId p.db.localId (radiusAt p.db.dataRadius (k + 1))

/-- A node that opens a database and stores contents -/
inductive Reached (lru : LruOps Cache) (usedSize : List Row → Nat) :
    PortalProtocol Cache → Prop where
  | new (db : ContentDb) (nearFull : Bool) {contentCache : Cache (List UInt8)}
      {size : Nat} {disableContentCache disableOfferCache : Bool} :
      Reached lru usedSize { db := db.setInitialRadius nearFull, contentCache
                             offerCache := lru.init size, disableContentCache, disableOfferCache }
  | store {p p' : PortalProtocol Cache} {put : Put} {fuel : Nat} {res : Bool} :
      Reached lru usedSize p → (p.inRange put.contentId → Spared usedSize p put) →
      p.storeContent lru usedSize fuel put = some (res, p') → Reached lru usedSize p'

/-- A hit in the offer cache is a content of the database. -/
def CacheSound (lru : LruOps Cache) (p : PortalProtocol Cache) : Prop :=
  ∀ id, lru.contains p.offerCache id → p.db.contains id

/-- The outcome of a store that prunes -/
structure Pruned (usedSize : List Row → Nat) (p : PortalProtocol Cache) (put : Put)
    (db : ContentDb) : Prop where
  within : ∀ row ∈ db.kv, distance db.localId row.1 ≤ db.dataRadius
  kept : ∀ row ∈ (stored p put).kv, distance db.localId row.1 ≤ db.dataRadius → row ∈ db.kv
  room : usedSize db.kv < db.storageCapacity

/-! ## The step -/

theorem mem_stored : row ∈ (stored p put).kv ↔
      (row ∈ p.db.kv ∧ row.1 ≠ put.contentId) ∨ row = (put.contentId, put.content) := by
  simp [stored, ContentDb.put]

theorem contains_iff {id : ContentId} : db.contains id ↔ ∃ row ∈ db.kv, row.1 = id := by
  simp [ContentDb.contains]

/-- What holds between two stores -/
structure Good (lru : LruOps Cache) (p : PortalProtocol Cache) : Prop where
  cache : CacheSound lru p
  within : 0 < p.db.storageCapacity →
    ∀ row ∈ p.db.kv, distance p.db.localId row.1 ≤ p.db.dataRadius

theorem le_largestDistance {localId : UInt256} {rows : List Row} (h : row ∈ rows) :
    distance localId row.1 ≤ largestDistance localId rows := by
  induction rows with
  | nil => cases h
  | cons head rows ih =>
    rw [largestDistance]
    rcases List.mem_cons.mp h with rfl | h
    · split
      · exact BitVec.le_refl _
      · next hle => exact BitVec.not_lt.mp hle
    · split
      · next hlt => exact BitVec.le_trans (ih h) (Nat.le_of_lt hlt)
      · exact ih h

/-- A store ends: at the latest when the radius is zero, and the database empty. -/
theorem storeContent_isSome (h : p.inRange put.contentId → Spared usedSize p put) :
    ∃ fuel, (p.storeContent lru usedSize fuel put).isSome := by
  refine ⟨p.db.dataRadius.toNat + 1 + 1, ?_⟩
  unfold PortalProtocol.storeContent
  by_cases hrange : p.inRange put.contentId
  · have hempty : usedSize (prune^[p.db.dataRadius.toNat + 1] (stored p put)).kv <
        (stored p put).storageCapacity := by
      rw [iterate_prune]
      exact left_zero (stored p put) ▸ (h hrange).room
    obtain ⟨res, hres⟩ := Option.isSome_iff_exists.mp
      (pruneLoop_isSome _ false hempty)
    simp only [if_pos hrange]
    show ((pruneLoop usedSize _ false (stored p put)).bind _).isSome
    rw [hres]
    rfl
  · simp only [if_neg hrange]
    rfl

/-- After the prunes of a store that meets the condition, what is within the radius is there. -/
theorem Spared.pruned (h : Spared usedSize p put) (hgood : Good lru p)
    (hrange : p.inRange put.contentId) (hdb : db = prune^[n] (stored p put))
    (hroom : usedSize db.kv < db.storageCapacity)
    (hneeded : ∀ k < n, p.db.storageCapacity ≤ usedSize (prune^[k] (stored p put)).kv) :
    Pruned usedSize p put db ∧
      (put.cacheOffer = true → p.disableOfferCache = false → db.contains put.contentId) := by
  rw [iterate_prune] at hdb
  have hself : (put.contentId, put.content) ∈ (stored p put).kv := mem_stored.mpr (.inr rfl)
  cases n with
  | zero =>
    have hkv : db = stored p put := by rw [hdb]; simp [left, radiusAt]
    subst hkv
    refine ⟨⟨fun row hrow => ?_, fun _ hrow _ => hrow, hroom⟩,
      fun _ _ => contains_iff.mpr ⟨_, hself, rfl⟩⟩
    rcases mem_stored.mp hrow with ⟨hold, -⟩ | rfl
    · exact hgood.within (Nat.zero_lt_of_lt h.room) row hold
    · exact of_decide_eq_true hrange
  | succ k =>
    have hlast : Last usedSize (stored p put) k := by
      have hk := hneeded k (Nat.lt_succ_self k)
      rw [iterate_prune] at hk
      rw [hdb] at hroom
      exact ⟨hk, hroom⟩
    have hmem {row : Row} : row ∈ db.kv ↔ row ∈ (stored p put).kv ∧
        distance p.db.localId row.1 < radiusAt p.db.dataRadius (k + 1) := by
      rw [hdb, distance, BitVec.xor_comm]
      exact mem_left_succ.trans (and_congr_right fun _ => decide_eq_true_iff)
    refine ⟨⟨fun row hrow => ?_, fun row hrow hin => hmem.mpr ⟨hrow, ?_⟩, hroom⟩,
      fun hoffer henabled => contains_iff.mpr ⟨_, hmem.mpr ⟨hself, ?_⟩, rfl⟩⟩
    · rw [hdb]
      exact Nat.le_of_lt (hmem.mp hrow).2
    · rw [hdb] at hin
      have hne := h.boundary k hlast row hrow
      exact Nat.lt_of_le_of_ne hin fun heq => hne (BitVec.eq_of_toNat_eq heq)
    · have hin := h.cached hoffer henabled k hlast
      rw [isInRadius, BitVec.xor_comm] at hin
      exact of_decide_eq_true hin

theorem Good.new (hlaw : Lawful lru) (db : ContentDb) (nearFull : Bool)
    {contentCache : Cache (List UInt8)} {size : Nat}
    {disableContentCache disableOfferCache : Bool} :
    Good lru { db := db.setInitialRadius nearFull, contentCache, offerCache := lru.init size
               disableContentCache, disableOfferCache } where
  cache id hit := by
    rw [hlaw.contains_init] at hit
    cases hit
  within hpos row hrow := by
    revert hpos hrow
    unfold setInitialRadius
    split
    · next hzero => exact fun hpos => absurd hzero (Nat.ne_of_gt hpos)
    · split
      · exact fun _ hrow => le_largestDistance hrow
      · exact fun _ _ => Nat.le_sub_one_of_lt (BitVec.isLt _)

/-- What a store keeps, and what it is for -/
theorem Good.store (hgood : Good lru p) (hlaw : Lawful lru)
    (hput : p.inRange put.contentId → Spared usedSize p put) {fuel : Nat} {res : Bool}
    (h : p.storeContent lru usedSize fuel put = some (res, p')) :
    Good lru p' ∧ p'.db.dataRadius ≤ p.db.dataRadius ∧
      (p.inRange put.contentId → Pruned usedSize p put p'.db) := by
  unfold PortalProtocol.storeContent at h
  by_cases hrange : p.inRange put.contentId
  · simp only [if_pos hrange] at h
    obtain ⟨⟨dbPruned, db⟩, hloop, hres⟩ := Option.bind_eq_some_iff.mp h
    cases hres
    obtain ⟨n, hdb, hroom, hreset, -, hneeded⟩ := pruneLoop_spec hloop
    obtain ⟨hpruned, hcached⟩ := (hput hrange).pruned hgood hrange hdb hroom hneeded
    refine ⟨⟨fun id hit => ?_, fun _ => hpruned.within⟩, ?_, fun _ => hpruned⟩
    · have hold (hit : lru.contains (if dbPruned then lru.init (lru.capacity p.offerCache)
          else p.offerCache) id) : db.contains id := by
        split at hit
        · rw [hlaw.contains_init] at hit
          cases hit
        · next hnot =>
          obtain ⟨row, hrow, rfl⟩ := contains_iff.mp (hgood.cache id hit)
          rw [hdb, hreset.resolve_right hnot]
          by_cases heq : row.1 = put.contentId
          · exact contains_iff.mpr ⟨_, mem_stored.mpr (.inr rfl), heq.symm⟩
          · exact contains_iff.mpr ⟨row, mem_stored.mpr (.inl ⟨hrow, heq⟩), rfl⟩
      dsimp only at hit
      split at hit
      · next hflag =>
        rw [Bool.and_eq_true, Bool.not_eq_true'] at hflag
        rcases hlaw.contains_put _ _ _ id hit with rfl | hit
        · exact hcached hflag.1 hflag.2
        · exact hold hit
      · exact hold hit
    · rw [hdb, iterate_prune]
      exact radiusAt_anti _ (Nat.zero_le n)
  · simp only [if_neg hrange] at h
    cases h
    exact ⟨⟨hgood.cache, hgood.within⟩, BitVec.le_refl _, fun h => absurd h hrange⟩

theorem Reached.good (hlaw : Lawful lru) (h : Reached lru usedSize p) : Good lru p := by
  induction h with
  | new db nearFull => exact .new hlaw db nearFull
  | store _ hput hstore ih => exact (ih.store hlaw hput hstore).1

def recency : LruOps (RecencyMap ContentId) where
  init := .empty
  capacity := RecencyMap.capacity
  put cache := cache.put
  contains cache id := (cache.peek id).isSome

theorem lawful_recency : Lawful recency where
  contains_init _ _ := rfl
  contains_put cache id v id' h := by
    obtain ⟨e, he⟩ := Option.isSome_iff_exists.mp h
    rcases List.mem_cons.mp (List.mem_of_mem_take (RecencyMap.mem_of_peek _ _ he)) with heq | hold
    · exact .inl (congrArg Prod.fst heq)
    · refine .inr ?_
      show ((cache.items.find? fun e => e.1 = id').map Prod.snd).isSome
      rw [Option.isSome_map, List.find?_isSome]
      exact ⟨_, List.mem_of_mem_filter hold, decide_eq_true rfl⟩

/-- What an empty database takes, and rows of 60 bytes -/
def bytes (rows : List Row) : Nat := 100 + 60 * rows.length

def node (storageCapacity : Nat) : PortalProtocol (RecencyMap ContentId) where
  db := ContentDb.setInitialRadius ⟨[], storageCapacity, 0, 0⟩ false
  contentCache := .empty 0
  offerCache := .empty 10
  disableContentCache := true
  disableOfferCache := false

/-- 60 bytes for the content that is farthest away -/
def farthest : Put where
  contentId := BitVec.allOnes 256
  content := List.replicate 60 0
  cacheOffer := true

end Nimbus.Spec.Portal
