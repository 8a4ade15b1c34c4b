import Mathlib.Data.Nat.Log
import Mathlib.Algebra.Group.Nat.Defs

/-!
# The cache that forgets what was used least recently

Model of `LruCache` in `execution_chain/concurrency/lru.nim`. The shared memory of the nodes and of
the buckets is a function of the index; indices, links and hashes are of 32 bits. A failing
assertion, and a loop that does not end in as many steps as there are buckets, give `none`.
-/

namespace Nimbus.Native.Lru

open Function

/-- Conversion to `uint32` -/
def u32 (n : Nat) : Nat := n % 2 ^ 32

structure LruNode (K V : Type) where
  next : Nat
  prev : Nat
  key : K
  value : V

structure LruBucket where
  subhash : Nat
  index : Nat

structure LruCache (K V : Type) where
  /-- doubly linked, the entry 0 contains head and tail -/
  nodes : Nat → LruNode K V
  nodesLen : Nat
  /-- with the index 0 where nothing is -/
  buckets : Nat → LruBucket
  bucketsLen : Nat
  capacity : Nat
  used : Nat

def targetLen (i : Nat) : Nat :=
  if i < 8 then 16 else if i < 32768 then 65536 else i * 3 / 2

def toSubhash (h : UInt64) : Nat := u32 (u32 h.toNat + u32 (h.toNat / 2 ^ 32))

def subhash {K : Type} [Hashable K] (key : K) : Nat := toSubhash (hash key)

namespace LruCache

variable {K V : Type}

/-! ## Linked list -/

def setNext (s : LruCache K V) (i next : Nat) : LruCache K V :=
  { s with nodes := update s.nodes i { s.nodes i with next } }

def setPrev (s : LruCache K V) (i prev : Nat) : LruCache K V :=
  { s with nodes := update s.nodes i { s.nodes i with prev } }

def setKey (s : LruCache K V) (i : Nat) (key : K) : LruCache K V :=
  { s with nodes := update s.nodes i { s.nodes i with key } }

def setValue (s : LruCache K V) (i : Nat) (value : V) : LruCache K V :=
  { s with nodes := update s.nodes i { s.nodes i with value } }

def moveToFront (s : LruCache K V) (i : Nat) : LruCache K V :=
  let first := (s.nodes 0).next
  if first = i then s
  else
    let s := s.setNext (s.nodes i).prev (s.nodes i).next
    let s := s.setPrev (s.nodes i).next (s.nodes i).prev
    let s := s.setPrev i 0
    let s := s.setNext i first
    let s := s.setNext 0 i
    s.setPrev first i

def moveToBack (s : LruCache K V) (i : Nat) : LruCache K V :=
  let last := (s.nodes 0).prev
  if last = i then s
  else
    let s := s.setNext (s.nodes i).prev (s.nodes i).next
    let s := s.setPrev (s.nodes i).next (s.nodes i).prev
    let s := s.setPrev i last
    let s := s.setNext i 0
    let s := s.setNext last i
    s.setPrev 0 i

/-! ## Hash table -/

end LruCache

/-- The mask of a table of that many buckets, `len - 1` in 32 bits -/
def mask (len : Nat) : Nat := u32 (u32 len + (2 ^ 32 - 1))

/-- The bucket after a bucket -/
def nextBucket (len bi : Nat) : Nat := u32 (bi + 1) &&& mask len

/-- Distance from the expected location -/
def psl (buckets bucket subhash : Nat) : Nat := u32 (bucket + (2 ^ 32 - subhash)) &&& mask buckets

/-- The loop of `tablePut`, with `fuel` -/
def putLoop (len : Nat) : (fuel bi subhash index dist : Nat) → (Nat → LruBucket) →
    Option (Nat → LruBucket)
  | 0, _, _, _, _, _ => none
  | fuel + 1, bi, subhash, index, dist, s =>
    let b := s bi
    if b.index = 0 then some (update s bi ⟨subhash, index⟩)
    else
      let bdist := psl len bi b.subhash
      if bdist < dist then
        -- insert item at minimum psl, shifting everything else forwards
        putLoop len fuel (nextBucket len bi) b.subhash b.index (u32 (bdist + 1))
          (update s bi ⟨subhash, index⟩)
      else putLoop len fuel (nextBucket len bi) subhash index (u32 (dist + 1)) s

def tablePut (s : Nat → LruBucket) (len subhash index : Nat) : Option (Nat → LruBucket) :=
  putLoop len len (subhash &&& mask len) subhash index 0 s

/-- The loop of `tableDel`, with `fuel` -/
def delLoop (len : Nat) : (fuel bi : Nat) → (Nat → LruBucket) → Option (Nat → LruBucket)
  | 0, _, _ => none
  | fuel + 1, bi, s =>
    let b := s bi
    let next := s (nextBucket len bi)
    if next.index = 0 then some (update s bi { b with index := 0 })
    else if psl len (nextBucket len bi) next.subhash = 0 then
      -- next item is in its expected bucket
      some (update s bi { b with index := 0 })
    else delLoop len fuel (nextBucket len bi) (update s bi next)

def tableDel (s : Nat → LruBucket) (len idx : Nat) : Option (Nat → LruBucket) :=
  delLoop len len (idx &&& mask len) s

/-- The buckets from `i` on, `n` of them, into a new table -/
def rehash (old : Nat → LruBucket) (newTableSize : Nat) : (n i : Nat) → (Nat → LruBucket) →
    Option (Nat → LruBucket)
  | 0, _, s => some s
  | n + 1, i, s =>
    let b := old i
    if b.index = 0 then rehash old newTableSize n (i + 1) s
    else do
      let s ← tablePut s newTableSize b.subhash b.index
      rehash old newTableSize n (i + 1) s

def nextPowerOfTwo (x : Nat) : Nat := 2 ^ Nat.clog 2 x

/-- `int(ceil(newSize.float / fillRatio))`, which is exact for what is less than 2^50 -/
def filled (newSize : Nat) : Nat := (5 * newSize + 3) / 4

namespace LruCache

variable {K V : Type} [DecidableEq K]

/-- The loop of `tableBucket`, with `fuel` -/
def bucketLoop (s : LruCache K V) (subhash : Nat) (key : K) :
    (fuel bi dist : Nat) → Option (Option Nat)
  | 0, _, _ => none
  | fuel + 1, bi, dist =>
    let b := s.buckets bi
    if b.index = 0 ∨ psl s.bucketsLen bi b.subhash < dist then some none
    else if b.subhash = subhash ∧ (s.nodes b.index).key = key then some (some bi)
    else s.bucketLoop subhash key fuel (nextBucket s.bucketsLen bi) (u32 (dist + 1))

def tableBucket (s : LruCache K V) (subhash : Nat) (key : K) : Option (Option Nat) :=
  s.bucketLoop subhash key s.bucketsLen (subhash &&& mask s.bucketsLen) 0

def tableGet (s : LruCache K V) (subhash : Nat) (key : K) : Option (Option Nat) :=
  if s.used = 0 then some none
  else do
    let bucket ← s.tableBucket subhash key
    some (bucket.map fun bucket => (s.buckets bucket).index)

/-- Deletes the item of a bucket -/
def delBucket (s : LruCache K V) (bucket : Nat) : Option (LruCache K V) := do
  let buckets ← Lru.tableDel s.buckets s.bucketsLen bucket
  some { s with buckets }

def tableDel (s : LruCache K V) (subhash : Nat) (key : K) : Option (Option Nat × LruCache K V) := do
  match ← s.tableBucket subhash key with
  | none => some (none, s)
  | some bucket =>
    let deleted ← s.delBucket bucket
    some (some (s.buckets bucket).index, deleted)

/-! ## Growth -/

/-- The newly allocated nodes, as a fully linked list of items -/
def newNodes [Inhabited K] [Inhabited V] (v : LruCache K V) (oldSize newSize : Nat) :
    LruCache K V :=
  { v with
    nodesLen := newSize
    nodes := fun i =>
      if oldSize ≤ i ∧ i < newSize then
        ⟨u32 (i + 1) % newSize, u32 (i + newSize - 1) % newSize, default, default⟩
      else v.nodes i }

/-- Adjusts the tail to point to the end of the newly allocated part -/
def linkNodes [Inhabited K] [Inhabited V] (v : LruCache K V) (oldSize newSize : Nat) :
    LruCache K V :=
  let v := v.newNodes oldSize newSize
  if 0 < oldSize then
    let v := v.setPrev oldSize (v.nodes 0).prev
    let v := v.setNext (v.nodes 0).prev oldSize
    v.setPrev 0 (newSize - 1)
  else v

def growTable (v : LruCache K V) (newSize : Nat) : Option (LruCache K V) :=
  let newTableSize := nextPowerOfTwo (filled newSize)
  if newTableSize ≤ v.bucketsLen then some v
  else do
    let buckets ← rehash v.buckets newTableSize v.bucketsLen 0 fun _ => ⟨0, 0⟩
    some { v with buckets, bucketsLen := newTableSize }

def grow [Inhabited K] [Inhabited V] (v : LruCache K V) (newSize : Nat) : Option (LruCache K V) :=
  if v.capacity + 1 < newSize then none
  else if newSize ≤ u32 v.nodesLen ∨ newSize ≤ 1 then some v
  else (v.linkNodes (u32 v.nodesLen) newSize).growTable newSize

/-- The growth in front of an insertion -/
def growToPut [Inhabited K] [Inhabited V] (s : LruCache K V) : Option (LruCache K V) :=
  if s.nodesLen ≤ s.used + 1 then s.grow (u32 (min s.capacity (targetLen s.used) + 1)) else some s

def init [Inhabited K] [Inhabited V] (capacity initialSize : Nat) : Option (LruCache K V) :=
  if capacity < initialSize then none
  else
    let result : LruCache K V :=
      ⟨fun _ => ⟨0, 0, default, default⟩, 0, fun _ => ⟨0, 0⟩, 0, capacity, 0⟩
    if 0 < initialSize then result.grow (u32 (initialSize + 1)) else some result

/-! ## Operations -/

section
variable [Hashable K] [Inhabited K] [Inhabited V]

variable (s : LruCache K V)

def len : Nat := s.used

def del (key : K) : Option (Bool × LruCache K V) :=
  if s.used = 0 then some (false, s)
  else do
    match ← s.tableDel (subhash key) key with
    | (none, s) => some (false, s)
    | (some index, s) =>
      let s := s.moveToBack index
      some (true, { s with used := s.used - 1 })

def pop (key : K) : Option (Option V × LruCache K V) :=
  if s.used = 0 then some (none, s)
  else do
    match ← s.tableDel (subhash key) key with
    | (none, s) => some (none, s)
    | (some index, s) =>
      let result := (s.nodes index).value
      let s := (s.setValue index default).moveToBack index
      some (some result, { s with used := s.used - 1 })

def get (key : K) : Option (Option V × LruCache K V) := do
  match ← s.tableGet (subhash key) key with
  | none => some (none, s)
  | some index =>
    let s := s.moveToFront index
    some (some (s.nodes index).value, s)

def peek (key : K) : Option (Option V) := do
  let index ← s.tableGet (subhash key) key
  some (index.map fun index => (s.nodes index).value)

def update (key : K) (value : V) : Option (Bool × LruCache K V) := do
  match ← s.tableGet (subhash key) key with
  | none => some (false, s)
  | some index => some (true, (s.setValue index value).moveToFront index)

def refresh (key : K) (value : V) : Option (Bool × LruCache K V) := do
  match ← s.tableGet (subhash key) key with
  | none => some (false, s)
  | some index => some (true, s.setValue index value)

/-- Puts a new item into a node that is not in the table -/
def fill (last : Nat) (key : K) (value : V) : Option (LruCache K V) := do
  let s := (s.setKey last key).setValue last value
  let buckets ← tablePut s.buckets s.bucketsLen (subhash key) last
  some (LruCache.moveToFront { s with buckets } last)

/-- Takes the item of the tail out of the table, unless the node is free: the result says whether
there was one -/
def evict (last : Nat) : Option (Bool × LruCache K V) := do
  match ← s.tableBucket (subhash (s.nodes last).key) (s.nodes last).key with
  | none => some (false, { s with used := s.used + 1 })
  | some evicted =>
    -- avoids a false positive for a key that has not been cleared
    if (s.buckets evicted).index = last then
      let s ← s.delBucket evicted
      some (true, s)
    else some (false, { s with used := s.used + 1 })

def putWithEvicted (key : K) (value : V) : Option (Option (Bool × K × V) × LruCache K V) := do
  let s ← s.growToPut
  -- if capacity was 0, there is no growth
  if s.nodesLen = 0 then some (none, s)
  else
    match ← s.tableBucket (subhash key) key with
    | some bucket =>
      let index := (s.buckets bucket).index
      let replaced := (false, (s.nodes index).key, (s.nodes index).value)
      some (some replaced, (s.setValue index value).moveToFront index)
    | none =>
      let last := (s.nodes 0).prev
      let item := (true, (s.nodes last).key, (s.nodes last).value)
      let (evicted, s) ← s.evict last
      let s ← s.fill last key value
      some (if evicted then some item else none, s)

def put (s : LruCache K V) (key : K) (value : V) : Option (Bool × LruCache K V) := do
  let s ← s.growToPut
  if s.nodesLen = 0 then some (false, s)
  else
    match ← s.tableBucket (subhash key) key with
    | some bucket =>
      let index := (s.buckets bucket).index
      some (false, (s.setValue index value).moveToFront index)
    | none =>
      let last := (s.nodes 0).prev
      if s.used + 1 < s.nodesLen then
        -- the tail is a free slot
        let s ← LruCache.fill { s with used := s.used + 1 } last key value
        some (true, s)
      else
        let (evicted, s) ← s.evict last
        let s ← s.fill last key value
        some (!evicted, s)

end

end LruCache

/-! ## Sequences -/

inductive Op (K V : Type) where
  | put (key : K) (value : V)
  | get (key : K)
  | peek (key : K)
  | del (key : K)
  | pop (key : K)
  | update (key : K) (value : V)
  | refresh (key : K) (value : V)
  | putWithEvicted (key : K) (value : V)

/-- What an operation returns -/
inductive Out (K V : Type) where
  | flag (b : Bool)
  | value (v : Option V)
  | evicted (item : Option (Bool × K × V))
  deriving DecidableEq

section
variable {K V : Type} [DecidableEq K] [Hashable K] [Inhabited K] [Inhabited V]

def exec (s : LruCache K V) : Op K V → Option (Out K V × LruCache K V)
  | .put key value => (s.put key value).map fun (b, s) => (.flag b, s)
  | .get key => (s.get key).map fun (v, s) => (.value v, s)
  | .peek key => (s.peek key).map fun v => (.value v, s)
  | .del key => (s.del key).map fun (b, s) => (.flag b, s)
  | .pop key => (s.pop key).map fun (v, s) => (.value v, s)
  | .update key value => (s.update key value).map fun (b, s) => (.flag b, s)
  | .refresh key value => (s.refresh key value).map fun (b, s) => (.flag b, s)
  | .putWithEvicted key value => (s.putWithEvicted key value).map fun (e, s) => (.evicted e, s)

def run : LruCache K V → List (Op K V) → Option (List (Out K V) × LruCache K V)
  | s, [] => some ([], s)
  | s, op :: ops => do
    let (out, s) ← exec s op
    let (outs, s) ← run s ops
    some (out :: outs, s)

end

end Nimbus.Native.Lru
