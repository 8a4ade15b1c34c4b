import Nimbus.Native.BalBuilder

/-!
# The position tables of the block access list tracker

Model of `PosTable` in `execution_chain/block_access_list/bal_tracker.nim`, with what an entry
holds besides its key and its bucket left out.
-/

namespace Nimbus.Native.BalTracker

open BalBuilder (Defect)

class IndexHash (K : Type) where
  hash : K → UInt64

structure PosEntry (K : Type) where
  indexKey : K
  bucket : Nat

structure PosTable (K : Type) where
  entries : List (PosEntry K) := []
  /-- of power-of-two size; 0 is empty, otherwise position + 1 -/
  buckets : List Nat := []

def initialBuckets : Nat := 64

namespace PosTable

variable {K : Type} [IndexHash K] (t : PosTable K)

def indexHash (key : K) : Nat := (IndexHash.hash key).toNat

/-- From the first bucket of the key on to one where the loop stops. -/
def probe (stop : Nat → Bool) (key : K) : Except Defect Nat :=
  BalBuilder.AccountIds.probeFrom t.buckets stop t.buckets.length
    (indexHash key &&& (t.buckets.length - 1))

/-- Enters the position `i` again. -/
def enter (i : Nat) : Except Defect (PosTable K) :=
  match t.entries[i]? with
  | none => .error .index
  | some e => do
    let b ← t.probe (fun b => b == 0) e.indexKey
    return { entries := t.entries.set i { e with bucket := b }, buckets := t.buckets.set b (i + 1) }

def rehash (size : Nat) : Except Defect (PosTable K) :=
  (List.range t.entries.length).foldlM enter { t with buckets := List.replicate size 0 }

/-- The bucket of a new key, found at `b` before the table has grown. -/
def makeRoom (key : K) (b : Nat) : Except Defect (PosTable K × Nat) := do
  if (t.entries.length + 1) * 2 > t.buckets.length then
    let t ← t.rehash (t.buckets.length * 2)
    return (t, ← t.probe (fun b => b == 0) key)
  else return (t, b)

/-- Position of the key's entry, adding a fresh one if there is none. -/
def getOrAdd [DecidableEq K] (key : K) : Except Defect ((Nat × Bool) × PosTable K) := do
  let t := if t.buckets.length = 0 then { t with buckets := List.replicate initialBuckets 0 } else t
  let b ← t.probe (fun e => e == 0 || (t.entries.map (·.indexKey))[e - 1]? == some key) key
  let e := t.buckets.getD b 0
  if e == 0 then
    let (t, b) ← t.makeRoom key b
    let pos := t.entries.length
    return ((pos, true),
      { entries := t.entries ++ [⟨key, b⟩], buckets := t.buckets.set b (pos + 1) })
  else return ((e - 1, false), t)

/-- Drops the entries after the first `len`, clearing their buckets. -/
def truncate (len : Nat) : Except Defect (PosTable K) := do
  if len ≤ t.entries.length then
    let buckets ← (t.entries.drop len).foldlM (fun buckets e =>
      if e.bucket < buckets.length then .ok (buckets.set e.bucket 0) else .error .index) t.buckets
    return { entries := t.entries.take len, buckets }
  else .error .assertion

end PosTable

end Nimbus.Native.BalTracker
