import Nimbus.ForStd.IntervalSet

/-!
# The key ranges of a snap sync

Model of `sync/snap/worker/extra_types/types_unproc.nim`. A key is a number below 2^256, and
lengths are counted modulo 2^256, so that the length of the full range is 0. What `merge` and
`reduce` of the interval sets return is the number of keys added or removed.
-/

namespace Nimbus.Native.Snap

open Function

/-- Arithmetic on `UInt256` -/
def u256 (n : Nat) : Nat := n % 2 ^ 256

def high : Nat := 2 ^ 256 - 1

/-- `iv.len`, which is zero for the full range. -/
def len256 (iv : PtRange) : Nat := u256 iv.len

/-- The assertions. -/
inductive Defect where
  | unprocessedReduce
  | unprocessedMerge
  | borrowedReduce
  | borrowedMerge

/-- `doAssert s.merge(iv) == len` -/
def merged (s : IntervalSet) (iv : PtRange) (len : Nat) (e : Defect) : Except Defect IntervalSet :=
  if u256 ((s.merge iv).total - s.total) = len then .ok (s.merge iv) else .error e

/-- `doAssert s.reduce(iv) == len` -/
def reduced (s : IntervalSet) (iv : PtRange) (len : Nat) (e : Defect) : Except Defect IntervalSet :=
  if u256 (s.total - (s.reduce iv).total) = len then .ok (s.reduce iv) else .error e

structure UnprocItemKeys where
  unprocessed : IntervalSet
  /-- in-process/locked ranges -/
  borrowed : IntervalSet

namespace UnprocItemKeys

def init (initRange : PtRange) : UnprocItemKeys where
  unprocessed := IntervalSet.clear.merge initRange
  borrowed := .clear

variable (udb : UnprocItemKeys)

/-- The leftmost interval `jv`, curbed to `maxLen` keys. -/
def curb (maxLen : Nat) (jv : PtRange) : PtRange :=
  if maxLen = 0 ∨ (len256 jv ≠ 0 ∧ len256 jv ≤ maxLen) then jv
  else PtRange.new jv.minPt (u256 (jv.minPt + (maxLen - 1)))

/-- Fetches the leftmost interval, of maximal size `maxLen`, where 0 stands for 2^256. -/
def fetchLeast (maxLen : Nat) : Except Defect (Option (PtRange × UnprocItemKeys)) :=
  match udb.unprocessed.ge with
  | none => .ok none
  | some jv => do
    let iv := curb maxLen jv
    let unprocessed ← reduced udb.unprocessed iv (len256 iv) .unprocessedReduce
    let borrowed ← merged udb.borrowed iv (len256 iv) .borrowedMerge
    return some (iv, { unprocessed, borrowed })

/-- Commits back all of the range, which was fetched. -/
def commit (iv : PtRange) : Except Defect UnprocItemKeys := do
  let borrowed ← reduced udb.borrowed iv (len256 iv) .borrowedReduce
  return { udb with borrowed }

/-- Commits back the range and merges back the part `unproc` of it. -/
def commitPart (iv unproc : PtRange) : Except Defect UnprocItemKeys := do
  let udb ← udb.commit iv
  let unprocessed ← merged udb.unprocessed unproc (len256 unproc) .unprocessedMerge
  return { udb with unprocessed }

/-- Commits back the range and merges back the keys from `minKey` to `maxKey`, if any. -/
def commitKeys (iv : PtRange) (minKey maxKey : Nat) : Except Defect UnprocItemKeys := do
  let udb ← udb.commit iv
  if minKey ≤ maxKey then
    let unprocessed ← merged udb.unprocessed (PtRange.new minKey maxKey)
      (u256 (maxKey - minKey + 1)) .unprocessedMerge
    return { udb with unprocessed }
  else return udb

/-- The number of keys that can be fetched; none stands for no keys, and 0 for 2^256. -/
def avail : Option Nat :=
  if udb.unprocessed.chunks = 0 then none else some (u256 udb.unprocessed.total)

/-- The number of keys that are unprocessed or borrowed. -/
def total : Option Nat :=
  if udb.borrowed.chunks = 0 then udb.avail
  else
    let b := u256 udb.borrowed.total
    if udb.unprocessed.chunks = 0 then some b
    else
      let ub := u256 (u256 udb.unprocessed.total + u256 (b + high))
      if ub = high then some 0 else some (u256 (ub + 1))

end UnprocItemKeys

/-! ## Sessions -/

inductive Cmd where
  | fetchLeast (slot maxLen : Nat)
  | commit (slot : Nat)
  | commitPart (slot : Nat) (unproc : PtRange)
  | commitKeys (slot minKey maxKey : Nat)

/-- The ranges next to what their users have done with them. -/
structure Session where
  udb : UnprocItemKeys
  /-- what was fetched and is not committed yet, under a number of the user's -/
  fetched : Nat → Option PtRange := fun _ => none
  /-- the keys that were committed and not handed back -/
  processed : Set Nat := ∅

namespace Session

variable (s : Session)

def init (initRange : PtRange) : Session where
  udb := .init initRange

/-- The user of a slot has committed `iv` apart from the keys `back`. -/
def committed (slot : Nat) (iv : PtRange) (back : Set Nat) (udb : UnprocItemKeys) : Session where
  udb := udb
  fetched := update s.fetched slot none
  processed := s.processed ∪ {n | n ∈ iv ∧ n ∉ back}

/-- A slot without a range has nothing to commit. -/
def commitBy (slot : Nat) (back : Set Nat) (f : PtRange → Except Defect UnprocItemKeys) :
    Except Defect Session :=
  match s.fetched slot with
  | none => .ok s
  | some iv => return s.committed slot iv back (← f iv)

def step : Cmd → Except Defect Session
  | .fetchLeast slot maxLen => do
    match ← s.udb.fetchLeast maxLen with
    | none => return s
    | some (iv, udb) => return { s with udb, fetched := update s.fetched slot (some iv) }
  | .commit slot => s.commitBy slot ∅ s.udb.commit
  | .commitPart slot unproc => s.commitBy slot {n | n ∈ unproc} (s.udb.commitPart · unproc)
  | .commitKeys slot minKey maxKey =>
    s.commitBy slot {n | minKey ≤ n ∧ n ≤ maxKey} (s.udb.commitKeys · minKey maxKey)

end Session

end Nimbus.Native.Snap
