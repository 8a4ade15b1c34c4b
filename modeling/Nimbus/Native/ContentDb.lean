import Mathlib.Data.List.Basic

/-!
# Pruning the Portal content database

Model of `portal/database/content_db.nim` for a dynamic radius, and of `storeContent` and
`containsContent` in `portal/network/wire/portal_protocol.nim`. The table is the list of its rows.
The pages in use are counted by a function of the rows, and the cache of another package is
given by its operations.
-/

namespace Nimbus.Native.Portal

abbrev UInt256 := BitVec 256
abbrev ContentId := UInt256

/-- A row of `kvstore` -/
abbrev Row := ContentId × List UInt8

def distance (id1 id2 : UInt256) : UInt256 := id1 ^^^ id2

/-- The custom SQL function -/
def isInRadius (contentId localId radius : UInt256) : Bool := radius > contentId ^^^ localId

/-- `SELECT max(xorDistance(?, key))` -/
def largestDistance (localId : UInt256) : List Row → UInt256
  | [] => 0
  | row :: rows =>
    let res := largestDistance localId rows
    if res < distance localId row.1 then distance localId row.1 else res

structure ContentDb where
  kv : List Row
  storageCapacity : Nat
  dataRadius : UInt256
  localId : UInt256

namespace ContentDb

variable (db : ContentDb)

def put (key : ContentId) (value : List UInt8) : ContentDb :=
  { db with kv := db.kv.filter (fun row => row.1 ≠ key) ++ [(key, value)] }

def contains (key : ContentId) : Bool := db.kv.any fun row => row.1 = key

def getLargestDistance (localId : UInt256) : UInt256 := largestDistance localId db.kv

/-- `nearFull` stands for `sizeRatio > 0.95`. -/
def setInitialRadius (nearFull : Bool) : ContentDb :=
  if db.storageCapacity = 0 then { db with dataRadius := 0 }
  else if nearFull then { db with dataRadius := db.getLargestDistance db.localId }
  else { db with dataRadius := BitVec.allOnes 256 }

def deleteContentOutOfRadius (localId radius : UInt256) : ContentDb :=
  { db with kv := db.kv.filter fun row => isInRadius row.1 localId radius }

def radiusDecreasePercentage : UInt256 := 5

/-- The radius after one more prune -/
def newRadius (dataRadius : UInt256) : UInt256 :=
  dataRadius / 100 * (100 - radiusDecreasePercentage)

def prune : ContentDb :=
  let newRadius := newRadius db.dataRadius
  { db.deleteContentOutOfRadius db.localId newRadius with dataRadius := newRadius }

variable (usedSize : List Row → Nat)

/-- The loop of `putAndPrune`, for at most `fuel` turns. -/
def pruneLoop : Nat → Bool → ContentDb → Option (Bool × ContentDb)
  | 0, _, _ => none
  | fuel + 1, pruned, db =>
    if usedSize db.kv ≥ db.storageCapacity then pruneLoop fuel true db.prune
    else some (pruned, db)

/-- Returns true when pruning occurred. -/
def putAndPrune (fuel : Nat) (key : ContentId) (value : List UInt8) : Option (Bool × ContentDb) :=
  pruneLoop usedSize fuel false (db.put key value)

end ContentDb

/-- The operations of `LruCache` -/
structure LruOps (Cache : Type → Type) where
  init {V : Type} : Nat → Cache V
  capacity {V : Type} : Cache V → Nat
  put {V : Type} : Cache V → ContentId → V → Cache V
  contains {V : Type} : Cache V → ContentId → Bool

structure PortalProtocol (Cache : Type → Type) where
  db : ContentDb
  contentCache : Cache (List UInt8)
  offerCache : Cache Bool
  disableContentCache : Bool
  disableOfferCache : Bool

/-- The arguments of `storeContent` -/
structure Put where
  contentId : ContentId
  content : List UInt8
  cacheContent : Bool := false
  cacheOffer : Bool := false

namespace PortalProtocol

variable {Cache : Type → Type} (p : PortalProtocol Cache) (lru : LruOps Cache)

def inRange (contentId : ContentId) : Bool := distance p.db.localId contentId ≤ p.db.dataRadius

/-- A hit in the offer cache spares the lookup in the database. -/
def containsContent (contentId : ContentId) : Bool :=
  if lru.contains p.offerCache contentId then true else p.db.contains contentId

def storeContent (usedSize : List Row → Nat) (fuel : Nat) (put : Put) :
    Option (Bool × PortalProtocol Cache) :=
  -- content is cached whether it is in the radius or not
  let contentCache := if put.cacheContent && !p.disableContentCache then
      lru.put p.contentCache put.contentId put.content
    else p.contentCache
  if p.inRange put.contentId then do
    let (dbPruned, db) ← p.db.putAndPrune usedSize fuel put.contentId put.content
    -- all cached content may have been removed during pruning
    let offerCache := if dbPruned then lru.init (lru.capacity p.offerCache) else p.offerCache
    let offerCache := if put.cacheOffer && !p.disableOfferCache then
        lru.put offerCache put.contentId true
      else offerCache
    return (true, { p with db, contentCache, offerCache })
  else return (false, { p with contentCache })

end PortalProtocol

end Nimbus.Native.Portal
