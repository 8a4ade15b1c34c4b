import Nimbus.Native.Beacon.Desc

/-!
# Ranges to fetch and the staged queues

Model of `headers_unproc.nim`, `headers_queue.nim`, `blocks_unproc.nim` and
`blocks_queue.nim`. Headers and blocks have the same bookkeeping, headers from the top down
and blocks from the bottom up, so each function is one definition about `FetchSync` that
the two sides use at their own staging area. What `merge` and `reduce` return is the number
of points added or removed, in 64 bits.
-/

namespace Nimbus.Native.Beacon

open HeaderChainCache

/-- `iv.len`, which is zero for the full range. -/
def len64 (iv : PtRange) : Nat := u64 iv.len

namespace FetchSync

variable {Item : Type} (q : FetchSync Item)

/-- Moves the range over to the borrowed ones. -/
def borrow (iv : PtRange) : Except Defect (FetchSync Item) :=
  let borrowed := q.borrowed.merge iv
  if u64 (borrowed.total - q.borrowed.total) = len64 iv then
    .ok { q with unprocessed := q.unprocessed.reduce iv, borrowed := borrowed }
  else .error .borrowedMerge

/-- `doAssert borrowed.reduce(iv) == iv.len` -/
def giveBack (iv : PtRange) : Except Defect (FetchSync Item) :=
  let borrowed := q.borrowed.reduce iv
  if u64 (q.borrowed.total - borrowed.total) = len64 iv then
    .ok { q with borrowed := borrowed }
  else .error .borrowedReduce

/-- `doAssert unprocessed.merge(unproc) == len` -/
def putBack (unproc : PtRange) (len : Nat) : Except Defect (FetchSync Item) :=
  let unprocessed := q.unprocessed.merge unproc
  if u64 (unprocessed.total - q.unprocessed.total) = len then
    .ok { q with unprocessed := unprocessed }
  else .error .unprocessedMerge

/-- Commits back `iv`, and merges back the unprocessed range `unproc`. -/
def unprocCommit (iv unproc : PtRange) : Except Defect (FetchSync Item) :=
  match q.giveBack iv with
  | .error e => .error e
  | .ok q => q.putBack unproc (len64 unproc)

/-- Commits back `iv`, and merges back the numbers from `uMinPt` to `uMaxPt`, if any. -/
def unprocCommitRest (iv : PtRange) (uMinPt uMaxPt : Nat) : Except Defect (FetchSync Item) :=
  match q.giveBack iv with
  | .error e => .error e
  | .ok q =>
    if uMinPt ≤ uMaxPt then
      q.putBack (PtRange.new uMinPt uMaxPt) (u64 (uMaxPt + 2 ^ 64 - uMinPt + 1))
    else .ok q

/-- Adds some unprocessed range, curbed by the borrowed ones. -/
def unprocAppend (minPt maxPt : Nat) : FetchSync Item :=
  if minPt ≤ maxPt then
    if 0 < u64 (q.borrowed.covered minPt maxPt) then
      -- piecemeal adding to unprocessed numbers
      let add (unprocessed : IntervalSet) (i : Nat) : IntervalSet :=
        let pt := minPt + i
        if q.borrowed.covered pt pt = 0 then unprocessed.merge (PtRange.new pt pt)
        else unprocessed
      { q with unprocessed := (List.range (maxPt + 1 - minPt)).foldl add q.unprocessed }
    else { q with unprocessed := q.unprocessed.merge (PtRange.new minPt maxPt) }
  else q

def unprocAvail : Nat := u64 q.unprocessed.total

def unprocIsEmpty : Bool := q.unprocessed.chunks = 0 && q.borrowed.chunks = 0

/-- Also drops what the session was asked for. -/
def unprocClear : FetchSync Item :=
  { q with unprocessed := .clear, borrowed := .clear, asked := none }

/-- Sets up a new unprocessed range. -/
def unprocSet (minPt maxPt : Nat) : FetchSync Item :=
  let q := q.unprocClear
  if minPt ≤ maxPt then
    { q with
      unprocessed := q.unprocessed.merge (PtRange.new minPt maxPt)
      asked := some (PtRange.new minPt maxPt) }
  else q

def stagedQueueInsert (key : Nat) (item : Item) : Except Defect (FetchSync Item) :=
  match q.staged.lookup key with
  | some _ => .error .duplicateKey
  | none => .ok { q with staged := q.staged.insert key item }

def stagedQueueDelete (key : Nat) : FetchSync Item := { q with staged := q.staged.erase key }

def stagedQueueClear : FetchSync Item := { q with staged := ∅, reserveStaged := 0 }

/-- Whether one more item may be booked for the queue of the given length. -/
def canReserve (lengthMax : Nat) : Bool := (q.staged.len : Int) + q.reserveStaged < lengthMax

/-- `reserveStaged.inc` -/
def reserve : FetchSync Item := { q with reserveStaged := q.reserveStaged + 1 }

/-- `reserveStaged.dec` -/
def unreserve : FetchSync Item := { q with reserveStaged := q.reserveStaged - 1 }

end FetchSync

/-! ## Headers, from the top down -/

namespace HeaderFetchSync

variable (q : HeaderFetchSync)

/-- The interval with the largest block numbers, of maximal size `maxLen`. -/
def unprocFetch (maxLen : Nat) : Except Defect (Option (PtRange × HeaderFetchSync)) :=
  match q.unprocessed.le with
  | none => .ok none
  | some jv =>
    let iv :=
      if maxLen = 0 ∨ 0 < len64 jv ∧ len64 jv ≤ maxLen then jv
      else PtRange.new (u64 (jv.maxPt + 2 ^ 64 - maxLen + 1)) jv.maxPt
    match q.borrow iv with
    | .error e => .error e
    | .ok q => .ok (some (iv, q))

def unprocAvailTop : Nat := (q.unprocessed.le.map (·.maxPt)).getD 0

/-- The highest number of both sets. -/
def unprocTotalTop : Nat :=
  max q.unprocAvailTop ((q.borrowed.le.map (·.maxPt)).getD 0)

/-- `staged.le(high BlockNumber)` -/
def stagedTop : Option (Nat × HeaderChain) :=
  (q.staged.entries.maxOn? fun e => e.1).map fun e => (e.1, e.2)

end HeaderFetchSync

/-! ## Blocks, from the bottom up -/

namespace BlocksFetchSync

variable (q : BlocksFetchSync)

/-- The interval with the least block numbers, of maximal size `maxLen`. -/
def unprocFetch (maxLen : Nat) : Except Defect (Option (PtRange × BlocksFetchSync)) :=
  match q.unprocessed.ge with
  | none => .ok none
  | some jv =>
    let iv :=
      if maxLen = 0 ∨ 0 < len64 jv ∧ len64 jv ≤ maxLen then jv
      else PtRange.new jv.minPt (u64 (jv.minPt + maxLen + (2 ^ 64 - 1)))
    match q.borrow iv with
    | .error e => .error e
    | .ok q => .ok (some (iv, q))

def unprocAvailBottom : Nat := (q.unprocessed.ge.map (·.minPt)).getD (2 ^ 64 - 1)

/-- `staged.ge(0)` -/
def stagedBottom : Option (Nat × BlocksForImport) :=
  (q.staged.entries.minOn? fun e => e.1).map fun e => (e.1, e.2)

end BlocksFetchSync

end Nimbus.Native.Beacon
