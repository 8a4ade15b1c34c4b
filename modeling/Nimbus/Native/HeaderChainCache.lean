import Nimbus.Native.Aristo.Desc

/-!
# The header chain cache of the syncer

Model of `execution_chain/core/chain/header_chain_cache.nim`. The cache keeps its headers in
a table of the database that outlives a session, under their block numbers. The key of
number zero is the one of the info record, by which a later call finds what to clean up.
Block numbers have 64 bits; `u64` stands where the code can overflow.

What the cache reads of the `FC` module is the record `ForkedChain`, which may change in any
way between two calls. Metrics, log texts and the notification of the client are left out.
-/

namespace Nimbus.Native.HeaderChainCache

open Aristo (Hash32)

def u64 (n : Nat) : Nat := n % 2 ^ 64

def zeroHash32 : Hash32 := Vector.replicate 32 0

theorem zero_lt_u64 : 0 < 2 ^ 64 := by decide

/-- A block header. `others` stands for the fields that the cache does not look at. -/
structure Header where
  number : Nat := 0
  parentHash : Hash32 := zeroHash32
  others : List UInt8 := []
  number_lt : number < 2 ^ 64 := by first | exact zero_lt_u64 | decide
  deriving DecidableEq

/-- `computeBlockHash`: Keccak over the RLP of the header. -/
class BlockHash where
  computeBlockHash : Header → Hash32

export BlockHash (computeBlockHash)

structure FcuHashAndNumber where
  hash : Hash32 := zeroHash32
  number : Nat := 0

/-- The part of the `FC` module that the cache uses. -/
structure ForkedChain where
  hashToBlock : Hash32 → Bool
  baseNumber : Nat
  base_lt : baseNumber + 1 < 2 ^ 64
  pendingFCU : Hash32
  latestFinalized : FcuHashAndNumber
  quarantine : Hash32 → Option Header
  headerByHash : Hash32 → Option Header

def ForkedChain.tryUpdatePendingFCU (c : ForkedChain) (finHash : Hash32) (number : Nat) :
    ForkedChain :=
  let c := { c with pendingFCU := zeroHash32 }
  if c.latestFinalized.number < number then
    { c with latestFinalized := { hash := finHash, number := number } }
  else c

inductive HeaderChainMode where
  /-- no session -/
  | closed
  /-- may append session headers -/
  | collecting
  /-- `ante` has a parent on the `FC` module -/
  | ready
  /-- no way to link into `FC` module -/
  | orphan
  /-- done with session headers, read-only state -/
  | locked
  deriving DecidableEq

structure HccDbInfo where
  least : Nat
  last : Nat

structure HccSession where
  mode : HeaderChainMode := .closed
  stopNum : Option Nat := none
  stopHash : Hash32 := zeroHash32
  finNum : Option Nat := none
  ante : Header := {}
  head : Header := {}
  headHash : Hash32 := zeroHash32

/-- What is stored under a `beaconHeaderKey`. -/
inductive BeaconRecord where
  | info (state : HccDbInfo)
  | header (h : Header)

/-- The column family of the cache: the records under `beaconHeaderKey`, and the numbers of
parent headers under `genericHashKey`. -/
structure KvtDb where
  beacon : Table Nat BeaconRecord := ∅
  numbers : Table Hash32 Nat := ∅

structure HeaderChainRef where
  chain : ForkedChain
  session : HccSession := {}
  kvt : KvtDb := {}

inductive Defect where
  /-- `rlp.decode` of a stored record failed -/
  | decodePayload
  /-- `expect "valid header"` -/
  | validHeader
  deriving DecidableEq

/-- Error results, with the texts of the code. -/
inductive HccError where
  /-- "HeaderChain session in wrong state: got=… expected=…" -/
  | wrongState (got expected : HeaderChainMode)
  /-- "Gap between rev[] and headers chain antecedent …" -/
  | gap (ante : Nat)
  /-- "Argument rev[] exceeds chain head …" -/
  | exceedsHead (head : Nat)
  /-- "Block number mismatch for rev[…].number=… expected=…" -/
  | numberMismatch (n number expected : Nat)
  /-- "Parent hash mismatch for rev[…].number=…" -/
  | parentMismatch (n bn : Nat)
  /-- "Stop node hash mismatch for rev[…].number=…" -/
  | stopMismatch (n bn : Nat)
  /-- "Blind stop does not match, ante=…, stop=…" -/
  | blindStop (ante stop : Nat)
  /-- "Parent on FC module has been lost: obsolete branch segment" -/
  | parentLost

/-! ## Database -/

def HccDbInfoKey : Nat := 0

namespace KvtDb

variable (db : KvtDb)

def putInfo (state : HccDbInfo) : KvtDb :=
  { db with beacon := db.beacon.insert HccDbInfoKey (.info state) }

/-- A record that does not decode counts as missing. -/
def getInfo : Option HccDbInfo :=
  match db.beacon.lookup HccDbInfoKey with
  | some (.info state) => some state
  | _ => none

def delInfo : KvtDb := { db with beacon := db.beacon.erase HccDbInfoKey }

/-- Stores the header under its number, and the number of its parent under the hash of its
parent. -/
def putHeader (h : Header) : KvtDb where
  beacon := db.beacon.insert h.number (.header h)
  numbers := db.numbers.insert h.parentHash (u64 (h.number + (2 ^ 64 - 1)))

def getNumber (hash : Hash32) : Option Nat := db.numbers.lookup hash

def getHeader (bn : Nat) : Except Defect (Option Header) :=
  match db.beacon.lookup bn with
  | none => .ok none
  | some (.header h) => .ok (some h)
  | some (.info _) => .error .decodePayload

def getHeaderByHash (hash : Hash32) : Except Defect (Option Header) :=
  match db.getNumber hash with
  | none => .ok none
  | some bn => db.getHeader bn

def delHeader (bn : Nat) : Except Defect KvtDb :=
  match db.beacon.lookup bn with
  | none => .ok { db with beacon := db.beacon.erase bn }
  | some (.header h) =>
    .ok { beacon := db.beacon.erase bn, numbers := db.numbers.erase h.parentHash }
  | some (.info _) => .error .decodePayload

/-- `for bn in least .. last: delHeader(bn)` -/
def delHeaders (db : KvtDb) (least : Nat) : Nat → Except Defect KvtDb
  | 0 => .ok db
  | count + 1 =>
    match db.delHeader least with
    | .error e => .error e
    | .ok db => db.delHeaders (least + 1) count

end KvtDb

namespace HeaderChainRef

variable (hc : HeaderChainRef)

def persistInfo : HeaderChainRef :=
  { hc with
    kvt := hc.kvt.putInfo { least := hc.session.ante.number, last := hc.session.head.number } }

def persistClear : Except Defect HeaderChainRef :=
  match hc.kvt.getInfo with
  | none => .ok hc
  | some w =>
    match hc.kvt.delHeaders w.least (w.last + 1 - w.least) with
    | .error e => .error e
    | .ok kvt => .ok { hc with kvt := kvt.delInfo }

/-! ## Helpers -/

def setMode (mode : HeaderChainMode) : HeaderChainRef :=
  { hc with session := { hc.session with mode := mode } }

/-- Whether the header has a parent on the `FC` module, or can never get one. -/
def tryFcParent (hdr : Header) : HeaderChainMode :=
  if hc.chain.hashToBlock hdr.parentHash then .ready
  else if hc.chain.baseNumber + 1 < hdr.number then .collecting
  else .orphan

def resolveFinHash (f : Hash32) : HeaderChainRef :=
  let number := ((hc.chain.quarantine f).map (·.number)).or
    ((hc.kvt.getNumber f).or ((hc.chain.headerByHash f).map (·.number)))
  match number with
  | none => { hc with chain := { hc.chain with pendingFCU := f } }
  | some number => { hc with chain := hc.chain.tryUpdatePendingFCU f number }

variable [BlockHash]

/-- Registers a fork choice update from the `CL`. It opens a session when there is none. -/
def headUpdateFromCL (h : Header) (f : Hash32) : HeaderChainRef :=
  if f ≠ zeroHash32 ∧ hc.chain.baseNumber + 1 < h.number ∧ hc.session.mode = .closed then
    let headHash := computeBlockHash h
    let session : HccSession :=
      { mode := .collecting, ante := h, head := h, headHash := headHash }
    let chain := { hc.chain with pendingFCU := f }
    { session :=
        if f = headHash then { session with finNum := some h.number } else session
      kvt := hc.kvt.putHeader h
      chain := if f = headHash then chain.tryUpdatePendingFCU f h.number else chain }
  else hc

/-- Clears and flushes the current session. -/
def clear : Except Defect HeaderChainRef := { hc with session := {} }.persistClear

/-- A new descriptor on the database of an old one. -/
def init (chain : ForkedChain) (kvt : KvtDb) : Except Defect HeaderChainRef :=
  HeaderChainRef.persistClear { chain := chain, kvt := kvt }

/-! ## Reading -/

def getHash (bn : Nat) : Except Defect (Option Hash32) :=
  if hc.session.head.number ≤ u64 (bn + 1) then
    if bn = hc.session.head.number then .ok (some hc.session.headHash)
    else if u64 (bn + 1) = hc.session.head.number then .ok (some hc.session.head.parentHash)
    else .ok none
  else
    -- use parent hash of child entry
    match hc.kvt.getHeader (u64 (bn + 1)) with
    | .error e => .error e
    | .ok hdr => .ok (hdr.map (·.parentHash))

def get (bn : Nat) : Except Defect (Option Header) := hc.kvt.getHeader bn

def getByHash (hash : Hash32) : Except Defect (Option Header) :=
  match hc.kvt.getHeaderByHash hash with
  | .error e => .error e
  | .ok (some hdr) => .ok (some hdr)
  | .ok none => .ok (if hash = hc.session.headHash then some hc.session.head else none)

/-- The loop of `incrFrom`, for at most `fuel` rounds; `none` when they do not do. -/
def incrLoop (bn : Nat) : Nat → Except Defect (Option (List Header))
  | 0 => .ok none
  | fuel + 1 =>
    match hc.get bn with
    | .error e => .error e
    | .ok none => .ok (some [])
    | .ok (some header) =>
      match incrLoop (u64 (bn + 1)) fuel with
      | .error e => .error e
      | .ok headers => .ok (headers.map (header :: ·))

/-- `incrFrom`: the stored headers with increasing block numbers. -/
def incrFrom (start fuel : Nat) : Except Defect (Option (List Header)) :=
  hc.incrLoop (if 0 < start then start else hc.session.ante.number) fuel

/-! ## Appending headers -/

/-- Takes down that the finalised hash was found among the headers. -/
def resolvePending (hash : Hash32) (number : Nat) : HeaderChainRef :=
  if hash = hc.chain.pendingFCU then
    { hc with
      session := { hc.session with finNum := some number }
      chain := hc.chain.tryUpdatePendingFCU hash number }
  else hc

/-- The check of the headers from `rev[n]` on, where `rev[n]` must have the number `bn` and
the hash `expHash`. On success it says how many of them are to be stored. -/
def checkLoop (hc : HeaderChainRef) (n bn : Nat) (expHash : Hash32) :
    List Header → HeaderChainRef × Except HccError Nat
  | [] => (hc, .ok 0)
  | hdr :: rest =>
    if bn ≠ hdr.number then (hc, .error (.numberMismatch n hdr.number bn))
    else
      let hash := computeBlockHash hdr
      if expHash ≠ hash then (hc, .error (.parentMismatch n bn))
      else
        let hc := hc.resolvePending hash hdr.number
        let next :=
          let (hc, res) := hc.checkLoop (n + 1) (u64 (bn + (2 ^ 64 - 1))) hdr.parentHash rest
          (hc, res.map (· + 1))
        match hc.session.stopNum with
        | none =>
          -- check whether `hdr` has a parent on the `FC` module
          let newMode := hc.tryFcParent hdr
          if newMode = .ready ∨ newMode = .orphan then (hc.setMode newMode, .ok 1)
          else next
        | some stopNum =>
          if hdr.number = u64 (1 + stopNum) then
            if hdr.parentHash = hc.session.stopHash then (hc.setMode .ready, .ok 1)
            else (hc.setMode .orphan, .error (.stopMismatch n bn))
          else next

/-- Stores the headers, which go down from the parent of `ante`. -/
def store (headers : List Header) : HeaderChainRef :=
  let hc := { hc with
    kvt := headers.foldl KvtDb.putHeader hc.kvt
    session := { hc.session with ante := headers.getLastD hc.session.ante } }
  hc.persistInfo

/-- What `put` does once the argument list is known to close up to the chain. -/
def append (rev : List Header) (lastNumber : Nat) : HeaderChainRef × Except HccError Unit :=
  -- start at the entry that is parent to `ante`
  let offset := u64 (lastNumber + 1) - hc.session.ante.number
  if offset < rev.length then
    match hc.checkLoop offset (u64 (lastNumber + (2 ^ 64 - u64 offset)))
      hc.session.ante.parentHash (rev.drop offset) with
    | (hc, .error e) => (hc, .error e)
    | (hc, .ok count) => (hc.store ((rev.drop offset).take count), .ok ())
  else (hc, .ok ())

def put (rev : List Header) : HeaderChainRef × Except HccError Unit :=
  if hc.session.mode = .ready ∨ hc.session.mode = .orphan then (hc, .ok ())
  else if hc.session.mode ≠ .collecting then
    (hc, .error (.wrongState hc.session.mode .collecting))
  else
    match rev with
    | [] => (hc, .ok ())
    | first :: _ =>
      let lastNumber := first.number
      if u64 (lastNumber + 1) < hc.session.ante.number then
        (hc, .error (.gap hc.session.ante.number))
      else if hc.session.head.number ≤ lastNumber then
        (hc, .error (.exceedsHead hc.session.head.number))
      else
        match hc.session.stopNum with
        | none =>
          -- the current antecedent may be the end of it since the `FC` module has changed
          let newMode := hc.tryFcParent hc.session.ante
          if newMode = .ready ∨ newMode = .orphan then (hc.setMode newMode, .ok ())
          else hc.append rev lastNumber
        | some stopNum =>
          if hc.session.ante.number ≤ stopNum then (hc.setMode .orphan, .ok ())
          else hc.append rev lastNumber

/-- Declares the headers read-only. -/
def commit : Except Defect (HeaderChainRef × Except HccError Unit) :=
  if hc.session.mode ≠ .ready then
    .ok (hc, .error (.wrongState hc.session.mode .ready))
  else
    match hc.session.stopNum with
    | some stopNum =>
      if hc.session.ante.number = u64 (1 + stopNum) ∧
          hc.session.ante.parentHash = hc.session.stopHash then
        .ok (hc.setMode .locked, .ok ())
      else
        .ok (hc.setMode .orphan, .error (.blindStop hc.session.ante.number stopNum))
    | none =>
      if hc.chain.hashToBlock hc.session.ante.parentHash then .ok (hc.setMode .locked, .ok ())
      else
        let hc :=
          if hc.chain.pendingFCU ≠ zeroHash32 then hc.resolveFinHash hc.chain.pendingFCU else hc
        let finNum := hc.chain.latestFinalized.number
        -- use `finalised` only if it is on the header chain as well
        if hc.chain.baseNumber < finNum then
          if hc.session.head.number ≤ finNum then
            let hc := { hc with session := { hc.session with ante := hc.session.head } }
            .ok (hc.setMode .locked, .ok ())
          else
            match hc.kvt.getHeaderByHash hc.chain.latestFinalized.hash with
            | .error e => .error e
            | .ok none => .error .validHeader
            | .ok (some h) =>
              let hc := { hc with session := { hc.session with ante := h } }
              .ok (hc.setMode .locked, .ok ())
        else .ok (hc.setMode .orphan, .error .parentLost)

def updateBlindStop (stop : Header) : HeaderChainRef :=
  if u64 (1 + stop.number) < hc.session.ante.number then
    { hc with
      session := { hc.session with
        stopNum := some stop.number, stopHash := computeBlockHash stop } }
  else hc

def clearBlindStop : HeaderChainRef :=
  { hc with session := { hc.session with stopNum := none } }

/-! ## Runs -/

inductive HccCmd where
  | headUpdate (h : Header) (f : Hash32)
  | put (rev : List Header)
  | commit
  | clear
  | updateBlindStop (stop : Header)
  | clearBlindStop
  | resolveFinHash (f : Hash32)
  /-- the `FC` module changes -/
  | forkChoice (chain : ForkedChain)
  /-- a new descriptor on the same database -/
  | restart (chain : ForkedChain)

def step (hc : HeaderChainRef) : HccCmd → Except Defect HeaderChainRef
  | .headUpdate h f => .ok (hc.headUpdateFromCL h f)
  | .put rev => .ok (hc.put rev).1
  | .commit => hc.commit.map Prod.fst
  | .clear => hc.clear
  | .updateBlindStop stop => .ok (hc.updateBlindStop stop)
  | .clearBlindStop => .ok hc.clearBlindStop
  | .resolveFinHash f => .ok (hc.resolveFinHash f)
  | .forkChoice chain => .ok { hc with chain := chain }
  | .restart chain => init chain hc.kvt

def run (hc : HeaderChainRef) (cmds : List HccCmd) : Except Defect HeaderChainRef :=
  cmds.foldlM step hc

end HeaderChainRef

end Nimbus.Native.HeaderChainCache
