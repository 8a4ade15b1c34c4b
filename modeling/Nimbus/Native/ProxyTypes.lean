import Nimbus.ForStd.Request
import Nimbus.Native.LogQueries

/-!
# Objects and headers of the verified proxy

Model of the objects that a backend of `nimbus_verified_proxy` answers with, of the errors of
its engine, and of `engine/header_store.nim`. Of a transaction only the hash is kept, and of a
block object the fields that `convHeader` copies are a header. The index of the backend that an
error is blamed on is left out.
-/

namespace Nimbus.Native.VerifiedProxy

open Nimbus.Native.ForkedChain
  (CommonRef Hash32 Header Log Transaction Withdrawal zeroHash32)

inductive EngineError where
  | unavailableDataError
  | invalidDataError
  | verificationError
  | backendFetchError
  | frontendError
  | backendError
  deriving DecidableEq

/-- A request ends with an error of the engine, with the process where the code reads what is
not there, or never, where a loop does not end. -/
inductive Failure where
  | error (errType : EngineError) (errMsg : String)
  | defect
  | endless
  deriving DecidableEq

inductive BlockTag where
  | bidAlias (name : String)
  | bidNumber (number : Nat)
  | bidHash (hash : Hash32) (requireCanonical : Bool)
  deriving DecidableEq

/-! ## Objects -/

inductive TxOrHash where
  | tohTx (tx : Transaction)
  | tohHash (hash : Hash32)
  deriving DecidableEq

/-- A block as a backend sends it, with the hash that it claims. -/
structure BlockObject where
  header : Header
  hash : Hash32
  transactions : List TxOrHash
  withdrawals : Option (List Withdrawal)
  deriving DecidableEq

def convHeader (blk : BlockObject) : Header := blk.header

structure LogObject where
  logIndex : Option UInt64
  transactionIndex : Option UInt64
  transactionHash : Option Hash32
  blockHash : Option Hash32
  blockNumber : Option Nat
  address : ForkedChain.Address
  data : List UInt8
  topics : List Hash32

structure ReceiptObject where
  transactionHash : Hash32
  transactionIndex : UInt64
  blockHash : Hash32
  blockNumber : Nat
  cumulativeGasUsed : Nat
  logs : List LogObject
  logsBloom : Nat
  type : Option Nat
  status : Option Nat

structure Receipt where
  hash : Hash32
  isHash : Bool
  status : Bool
  cumulativeGasUsed : Nat
  logs : List Log
  logsBloom : Nat
  receiptType : Nat

def LogObject.toLog (lg : LogObject) : Log where
  address := lg.address
  topics := lg.topics
  data := lg.data

def toLogs (logs : List LogObject) : List Log := logs.map (·.toLog)

/-- Without a status the receipt takes the hash of the transaction for a state root. -/
def ReceiptObject.toReceipt (rec : ReceiptObject) : Receipt where
  hash := rec.transactionHash
  isHash := !rec.status.isSome
  status := rec.status == some 1
  cumulativeGasUsed := rec.cumulativeGasUsed
  logs := toLogs rec.logs
  logsBloom := rec.logsBloom
  receiptType := rec.type.getD 0

def toReceipts (recs : List ReceiptObject) : List Receipt := recs.map (·.toReceipt)

/-- What a receipt is encoded from: the state root or the status, not both. -/
structure ReceiptPayload where
  receiptType : Nat
  hashOrStatus : Hash32 ⊕ Bool
  cumulativeGasUsed : Nat
  logsBloom : Nat
  logs : List Log
  deriving DecidableEq

def Receipt.payload (r : Receipt) : ReceiptPayload where
  receiptType := r.receiptType
  hashOrStatus := if r.isHash then .inl r.hash else .inr r.status
  cumulativeGasUsed := r.cumulativeGasUsed
  logsBloom := r.logsBloom
  logs := r.logs

/-- The hashes that packages compute. -/
structure Hashes extends CommonRef where
  transactionsRoot : List Transaction → Hash32
  withdrawalsRoot : List Withdrawal → Hash32
  receiptsRoot : List Receipt → Hash32

/-! ## The header store -/

inductive HeaderTrust where
  | none
  | optimistic
  | safe
  | finalized
  deriving DecidableEq

def HeaderTrust.toNat : HeaderTrust → Nat
  | .none => 0
  | .optimistic => 1
  | .safe => 2
  | .finalized => 3

structure CachedHeader where
  header : Header
  trust : HeaderTrust

/-- A header is stored under its hash. A number without a hash has the zero hash. -/
structure HeaderStore (keccak : Hashes) where
  headers : Hash32 → Option CachedHeader
  hashes : Nat → Hash32
  latestHash : Option Hash32
  safeHash : Option Hash32
  finalizedHash : Option Hash32
  earliestFinalizedHash : Option Hash32
  keyed : ∀ hash cached, headers hash = some cached → keccak.computeBlockHash cached.header = hash

namespace HeaderStore

variable {keccak : Hashes} (self : HeaderStore keccak)

def new (keccak : Hashes) : HeaderStore keccak where
  headers _ := none
  hashes _ := zeroHash32
  latestHash := none
  safeHash := none
  finalizedHash := none
  earliestFinalizedHash := none
  keyed _ _ h := nomatch h

/-- `getHash` of an anchor. -/
def getHash : HeaderTrust → Option Hash32
  | .none => none
  | .optimistic => self.latestHash
  | .safe => self.safeHash
  | .finalized => self.finalizedHash

/-- `get` of a hash. -/
def get (hash : Hash32) (minTrust : HeaderTrust) : Option Header :=
  match self.headers hash with
  | none => none
  | some cached => if cached.trust.toNat < minTrust.toNat then none else some cached.header

/-- `getHash` of a number. -/
def getNumberHash (number : Nat) (minTrust : HeaderTrust) : Option Hash32 :=
  let hash := self.hashes number
  if hash = zeroHash32 then none
  else
    match self.headers hash with
    | none => none
    | some cached => if cached.trust.toNat < minTrust.toNat then none else some hash

/-- `get` of a number. -/
def getNumber (number : Nat) (minTrust : HeaderTrust) : Option Header :=
  match self.getNumberHash number minTrust with
  | none => none
  | some hash => self.get hash minTrust

theorem get_keyed {self : HeaderStore keccak} {hash : Hash32} {minTrust : HeaderTrust}
    {header : Header} (h : self.get hash minTrust = some header) :
    keccak.computeBlockHash header = hash := by
  unfold HeaderStore.get at h
  cases hcached : self.headers hash with
  | none =>
    rw [hcached] at h
    cases h
  | some cached =>
    simp only [hcached] at h
    split at h
    · cases h
    · cases h
      exact self.keyed hash cached hcached

/-- The number of the header that the cache drops leads nowhere any more. -/
def dropNumber (evicted : Option Hash32) : Nat → Hash32 :=
  match evicted with
  | none => self.hashes
  | some key =>
    match self.headers key with
    | none => self.hashes
    | some value =>
      if self.hashes value.header.number = key then
        Function.update self.hashes value.header.number zeroHash32
      else self.hashes

/-- The trust of a header that is put again does not fall. -/
def newTrust (hash : Hash32) (trust : HeaderTrust) : HeaderTrust :=
  match self.headers hash with
  | some existing => if existing.trust.toNat > trust.toNat then existing.trust else trust
  | none => trust

/-- `put`. The cache may drop the header under the hash `evicted`. -/
def put (header : Header) (hash : Hash32) (trust : HeaderTrust) (evicted : Option Hash32)
    (hhash : keccak.computeBlockHash header = hash) : HeaderStore keccak where
  headers h :=
    if h = hash then some ⟨header, self.newTrust hash trust⟩
    else if some h = evicted then none
    else self.headers h
  hashes :=
    if self.newTrust hash trust = .finalized then
      Function.update (self.dropNumber evicted) header.number hash
    else self.dropNumber evicted
  latestHash := self.latestHash
  safeHash := self.safeHash
  finalizedHash := self.finalizedHash
  earliestFinalizedHash := self.earliestFinalizedHash
  keyed := by
    intro h cached hget
    split at hget
    · next heq =>
      cases hget
      exact hhash.trans heq.symm
    · split at hget
      · cases hget
      · exact self.keyed h cached hget

/-- `putHash` -/
def putHash (hash : Hash32) : HeaderTrust → HeaderStore keccak
  | .none => self
  | .optimistic => { self with latestHash := some hash }
  | .safe => { self with safeHash := some hash }
  | .finalized =>
    { self with
      finalizedHash := some hash
      earliestFinalizedHash :=
        if self.earliestFinalizedHash.isNone then some hash else self.earliestFinalizedHash }

end HeaderStore

end Nimbus.Native.VerifiedProxy
