import Nimbus.Native.ProxyTypes

/-!
# Headers and blocks of the verified proxy

Model of `nimbus_verified_proxy/engine/blocks.nim`. A request reads and changes the header store,
and asks a backend for blocks and for proofs of storage slots; the answers are whatever comes
back, so a backend that cannot be chosen or that fails answers with its error. The blocks of a
parallel download are asked for one after the other.
-/

namespace Nimbus.Native.VerifiedProxy

open Nimbus.Native.ForkedChain (Hash32 Header Transaction)

def HISTORY_SERVE_WINDOW : Nat := 8191

/-- Of `RpcVerificationEngine` what the verification of blocks reads. -/
structure BlockConfig (keccak : Hashes) where
  eip2935ForkTime : Option Nat
  maxWindowJumps : Nat
  maxBlockWalk : Nat
  parallelBlockDownloads : Nat
  archive : Bool
  /-- the header that the cache drops to make room -/
  evicted : HeaderStore keccak → Hash32 → Option Hash32

inductive BlockQuery where
  | getBlockByHash (hash : Hash32) (fullTransactions : Bool)
  | getBlockByNumber (number : Nat) (fullTransactions : Bool)
  /-- a slot of the history contract in the state of the header -/
  | getStorageAt (slot : Nat) (header : Header)

inductive BlockReply where
  | block (blk : BlockObject)
  | value (value : Nat)

abbrev BlockAnswer := Except Failure BlockReply

structure AnchorHashes where
  latest : Option Hash32
  safe : Option Hash32
  finalized : Option Hash32
  earliest : Option Hash32
  deriving DecidableEq

variable {keccak : Hashes}

abbrev EngineM (keccak : Hashes) :=
  Request (HeaderStore keccak) BlockQuery BlockAnswer Failure

def askBlock (query : BlockQuery) : EngineM keccak BlockObject := do
  match ← Request.ask query with
  | .ok (.block blk) => return blk
  | .ok (.value _) => .fail .defect
  | .error e => .fail e

def askValue (query : BlockQuery) : EngineM keccak Nat := do
  match ← Request.ask query with
  | .ok (.value value) => return value
  | .ok (.block _) => .fail .defect
  | .error e => .fail e

/-! ## Checks of a block -/

def toTransactions : List TxOrHash → Except Failure (List Transaction)
  | [] => .ok []
  | .tohTx tx :: rest =>
    match toTransactions rest with
    | .ok txs => .ok (tx :: txs)
    | .error e => .error e
  | .tohHash _ :: _ =>
    .error (.error .verificationError "cannot construct a transaction trie using only txhashes")

variable (keccak) in
def verifyTransactions (txRoot : Hash32) (transactions : List TxOrHash) : Except Failure Unit :=
  match toTransactions transactions with
  | .error e => .error e
  | .ok txs =>
    if keccak.transactionsRoot txs = txRoot then .ok ()
    else .error (.error .verificationError
      "calculated tx trie root doesn't match the provided tx trie root")

variable (keccak) in
def verifyWithdrawals (blk : BlockObject) : Except Failure Unit :=
  match blk.withdrawals, blk.header.withdrawalsRoot with
  | some withdrawals, some root =>
    if root ≠ keccak.withdrawalsRoot withdrawals then
      .error (.error .verificationError
        "Withdrawals within the block do not yield the same withdrawals root")
    else .ok ()
  | _, _ => .ok ()

variable (keccak) in
def verifyBlock (blk : BlockObject) (fullTransactions : Bool) : Except Failure Unit :=
  if fullTransactions then
    match verifyTransactions keccak blk.header.txRoot blk.transactions with
    | .error e => .error e
    | .ok () => verifyWithdrawals keccak blk
  else verifyWithdrawals keccak blk

def orFail {α : Type} : Except Failure α → EngineM keccak α
  | .ok a => return a
  | .error e => .fail e

variable (engine : BlockConfig keccak)

namespace BlockConfig

/-! ## History of block hashes -/

def isEIP2935Active (header : Header) : Bool :=
  match engine.eip2935ForkTime with
  | none => false
  | some forkTime => decide (header.timestamp ≥ forkTime)

def inEIP2935Range (anchor target : Header) : Bool :=
  if !(engine.isEIP2935Active anchor && engine.isEIP2935Active target) then false
  else if target.number ≥ anchor.number then false
  else
    -- rounded up
    let jumps := (anchor.number - target.number - 1) / HISTORY_SERVE_WINDOW + 1
    decide (jumps ≤ engine.maxWindowJumps)

end BlockConfig

/-- The slot is empty only where the fork was activated too recently. -/
def getEIP2935Hash (anchor : Header) (number : Nat) : EngineM keccak Hash32 := do
  let storedValue ← askValue (.getStorageAt (number % HISTORY_SERVE_WINDOW) anchor)
  if storedValue = 0 then
    .fail (.error .unavailableDataError
      "the EIP-2935 history slot for the requested block is empty")
  else return storedValue

namespace BlockConfig

/-- `headerStore.put` of a header under its hash. -/
def putHeader (header : Header) (hash : Hash32) (trust : HeaderTrust)
    (hhash : keccak.computeBlockHash header = hash) : EngineM keccak Unit :=
  Request.modify fun store => store.put header hash trust (engine.evicted store hash) hhash

/-- The header comes from the store, or from the backend if it has the hash that it is asked
for. -/
def getTrustedHeader (hash : Hash32) (trust : HeaderTrust) : EngineM keccak Header := do
  let store ← Request.get
  match hcached : store.get hash .none with
  | some cached => do
    engine.putHeader cached hash trust (HeaderStore.get_keyed hcached)
    return cached
  | none => do
    let blk ← askBlock (.getBlockByHash hash false)
    if hhash : keccak.computeBlockHash (convHeader blk) = hash then do
      engine.putHeader (convHeader blk) hash trust hhash
      return convHeader blk
    else
      .fail (.error .verificationError
        "the downloaded anchor header doesn't match the anchor hash")

def getTrustedBlock (hash : Hash32) (trust : HeaderTrust) (fullTransactions : Bool) :
    EngineM keccak BlockObject := do
  let blk ← askBlock (.getBlockByHash hash fullTransactions)
  if hhash : keccak.computeBlockHash (convHeader blk) = hash then do
    orFail (verifyBlock keccak blk fullTransactions)
    engine.putHeader (convHeader blk) hash trust hhash
    return blk
  else
    .fail (.error .verificationError "the downloaded anchor block doesn't match the anchor hash")

/-- The target is in range, so an empty slot is no lack of data. -/
def emptyIsInvalid : Failure → Failure
  | .error .unavailableDataError errMsg => .error .verificationError errMsg
  | e => e

/-- `while curAnchor.number - targetNum > HISTORY_SERVE_WINDOW`, and what comes after it. The
number of the anchor falls with every turn, so `fuel` is one more than it. -/
def jumpWindows (trust : HeaderTrust) (targetNum : Nat) (targetHash : Hash32) :
    Nat → Header → EngineM keccak Unit
  | 0, _ => .fail .endless
  | fuel + 1, curAnchor =>
    if curAnchor.number - targetNum > HISTORY_SERVE_WINDOW then do
      let newAnchorNum := (curAnchor.number - 1) / HISTORY_SERVE_WINDOW * HISTORY_SERVE_WINDOW
      let store ← Request.get
      match store.getNumber newAnchorNum .finalized with
      | some cachedJump => jumpWindows trust targetNum targetHash fuel cachedJump
      | none => do
        let storedHash ← (getEIP2935Hash curAnchor newAnchorNum).mapError emptyIsInvalid
        let header ← engine.getTrustedHeader storedHash trust
        if header.number ≠ newAnchorNum then
          .fail (.error .verificationError
            "the EIP-2935 stored hash resolves to a block of a different number")
        else jumpWindows trust targetNum targetHash fuel header
    else do
      let storedHash ← (getEIP2935Hash curAnchor targetNum).mapError emptyIsInvalid
      if storedHash = targetHash then return ()
      else
        .fail (.error .verificationError "the requested block is not part of the canonical chain")

def verifyEIP2935Membership (anchor : Header) (trust : HeaderTrust) (target : Header)
    (targetHash : Hash32) : EngineM keccak Unit :=
  if !engine.inEIP2935Range anchor target then
    .fail (.error .unavailableDataError
      "EIP-2935 cannot reach the requested block from the verified anchor")
  else engine.jumpWindows trust target.number targetHash (anchor.number + 1) anchor

/-! ## Walks along the chain -/

/-- The loop that fills `futs`: from `fetchNum` down, `steps` numbers above the target, the ones
that are not cached as finalized, up to `budget` of them. Then the first number that is left. -/
def selectBatch (store : HeaderStore keccak) : Nat → Nat → Nat → List Nat × Nat
  | 0, _, fetchNum => ([], fetchNum)
  | _ + 1, 0, fetchNum => ([], fetchNum)
  | steps + 1, budget + 1, fetchNum =>
    match store.getNumberHash fetchNum .finalized with
    | none =>
      let batch := selectBatch store steps budget (fetchNum - 1)
      (fetchNum :: batch.1, batch.2)
    | some _ => selectBatch store steps (budget + 1) (fetchNum - 1)

/-- `allFutures(futs)` -/
def downloadAll : List Nat → EngineM keccak (List BlockAnswer)
  | [] => return []
  | number :: rest => do
    let answer ← Request.ask (.getBlockByNumber number false)
    let answers ← downloadAll rest
    return answer :: answers

/-- `for futBlk in futs`: the headers under the hashes that the blocks claim. -/
def collect : List BlockAnswer → (Hash32 → Option Header) → Except Failure (Hash32 → Option Header)
  | [], downloadedHeaders => .ok downloadedHeaders
  | .ok (.block blk) :: rest, downloadedHeaders =>
    collect rest (Function.update downloadedHeaders blk.hash (some (convHeader blk)))
  | .ok (.value _) :: _, _ => .error .defect
  | .error e :: _, _ => .error e

/-- The header of the store, or the one that was downloaded under the hash. -/
def unverifiedHeader (store : HeaderStore keccak) (downloadedHeaders : Hash32 → Option Header)
    (hash : Hash32) : Option Header :=
  match store.get hash .none with
  | some cachedLink => some cachedLink
  | none => downloadedHeaders hash

/-- `while nextNum > fetchNum`, `count` times. -/
def linkBatch (downloadedHeaders : Hash32 → Option Header) (trust : HeaderTrust) :
    Nat → Hash32 → Nat → EngineM keccak (Hash32 × Nat)
  | 0, nextHash, nextNum => return (nextHash, nextNum)
  | count + 1, nextHash, nextNum => do
    let store ← Request.get
    match unverifiedHeader store downloadedHeaders nextHash with
    | none =>
      .fail (.error .unavailableDataError "Cannot find downloaded block of the block walk")
    | some header =>
      if hvalid : keccak.computeBlockHash header = nextHash ∧ header.number = nextNum then do
        engine.putHeader header nextHash trust hvalid.1
        linkBatch downloadedHeaders trust count header.parentHash (nextNum - 1)
      else
        .fail (.error .verificationError
          "Encountered an invalid block header while walking the chain")

/-- `while nextNum > targetNum`. Every turn takes at least one block, so `fuel` is the distance
to the target. -/
def walkFrom (trust : HeaderTrust) (targetNum : Nat) : Nat → Hash32 → Nat → EngineM keccak Hash32
  | 0, nextHash, nextNum => if nextNum > targetNum then .fail .endless else return nextHash
  | fuel + 1, nextHash, nextNum =>
    if nextNum > targetNum then do
      let store ← Request.get
      match hcached : store.get nextHash .none with
      | some cached => do
        engine.putHeader cached nextHash trust (HeaderStore.get_keyed hcached)
        walkFrom trust targetNum fuel cached.parentHash (nextNum - 1)
      | none => do
        let batch := selectBatch store (nextNum - targetNum)
          (max 1 engine.parallelBlockDownloads) nextNum
        let answers ← downloadAll batch.1
        let downloadedHeaders ← orFail (collect answers fun _ => none)
        let next ← engine.linkBatch downloadedHeaders trust (nextNum - batch.2) nextHash nextNum
        walkFrom trust targetNum fuel next.1 next.2
    else return nextHash

def walkBlocks (sourceNum targetNum : Nat) (sourceHash : Hash32) (trust : HeaderTrust) :
    EngineM keccak Hash32 :=
  if targetNum ≥ sourceNum then
    .fail (.error .frontendError "the block walk target is not older than the walk source")
  else if sourceNum - targetNum > engine.maxBlockWalk then
    .fail (.error .frontendError s!"Cannot query more than {engine.maxBlockWalk
      } to verify the chain for the requested block")
  else engine.walkFrom trust targetNum (sourceNum - 1 - targetNum) sourceHash (sourceNum - 1)

/-! ## Verified headers and blocks -/

/-- The header has the hash, and is a block of the chain of the anchor. -/
def verifyHeader (anchor : Header) (trust : HeaderTrust) (header : Header) (hash : Hash32) :
    EngineM keccak Unit := do
  if hhash : keccak.computeBlockHash header = hash then do
    let store ← Request.get
    if (store.get hash trust).isSome then return ()
    else if header.number = anchor.number then
      if hash ≠ keccak.computeBlockHash anchor then
        .fail (.error .verificationError "the requested block is not part of the canonical chain")
      else engine.putHeader header hash trust hhash
    else if engine.archive then do
      engine.verifyEIP2935Membership anchor trust header hash
      engine.putHeader header hash trust hhash
    else do
      let walkedHash ← engine.walkBlocks anchor.number header.number anchor.parentHash trust
      if walkedHash ≠ hash then
        .fail (.error .verificationError "the requested block is not part of the canonical chain")
      else engine.putHeader header hash trust hhash
  else
    .fail (.error .verificationError
      "hashed block header doesn't match with blk.hash(downloaded)")

/-- `getBlock` of a hash. -/
def getBlock (anchor : Header) (trust : HeaderTrust) (blockHash : Hash32)
    (fullTransactions : Bool) : EngineM keccak BlockObject := do
  let blk ← askBlock (.getBlockByHash blockHash fullTransactions)
  if blockHash ≠ blk.hash then
    .fail (.error .verificationError
      "the downloaded block hash doesn't match with the requested hash")
  else do
    engine.verifyHeader anchor trust (convHeader blk) blk.hash
    orFail (verifyBlock keccak blk fullTransactions)
    return blk

/-- `getBlock` of a number. -/
def getNumberBlock (anchor : Header) (trust : HeaderTrust) (number : Nat)
    (fullTransactions : Bool) : EngineM keccak BlockObject := do
  let blk ← askBlock (.getBlockByNumber number fullTransactions)
  if number ≠ blk.header.number then
    .fail (.error .verificationError
      "the downloaded block number doesn't match with the requested block number")
  else do
    engine.verifyHeader anchor trust (convHeader blk) blk.hash
    orFail (verifyBlock keccak blk fullTransactions)
    return blk

/-- `getHeader` of a hash. -/
def getHeader (anchor : Header) (trust : HeaderTrust) (blockHash : Hash32) :
    EngineM keccak Header := do
  let store ← Request.get
  match store.get blockHash trust with
  | some cachedHeader => return cachedHeader
  | none => do
    let blk ← askBlock (.getBlockByHash blockHash false)
    if blockHash ≠ blk.hash then
      .fail (.error .verificationError
        "the blk.hash(downloaded) doesn't match with the provided hash")
    else do
      engine.verifyHeader anchor trust (convHeader blk) blockHash
      return convHeader blk

/-- `getHeader` of a number. -/
def getNumberHeader (anchor : Header) (trust : HeaderTrust) (number : Nat) :
    EngineM keccak Header := do
  let store ← Request.get
  match store.getNumber number trust with
  | some cachedHeader => return cachedHeader
  | none => do
    let blk ← askBlock (.getBlockByNumber number false)
    if number ≠ (convHeader blk).number then
      .fail (.error .verificationError
        "the downloaded block number doesn't match with the requested block number")
    else do
      engine.verifyHeader anchor trust (convHeader blk) blk.hash
      return convHeader blk

/-! ## Tags -/

/-- The anchors that there are now. -/
def currentAnchors (store : HeaderStore keccak) : Except Failure AnchorHashes :=
  if (store.getHash .optimistic).isNone && (store.getHash .safe).isNone then
    .error (.error .unavailableDataError "no verified anchor is available yet. Still syncing?")
  else
    .ok {
      latest := store.getHash .optimistic
      safe := store.getHash .safe
      finalized := store.getHash .finalized
      earliest := store.earliestFinalizedHash }

def snapshotAnchors : EngineM keccak AnchorHashes := do
  let store ← Request.get
  orFail (currentAnchors store)

/-- A caller that resolves more than one tag passes its own snapshot. -/
def anchorsOf : Option AnchorHashes → EngineM keccak AnchorHashes
  | some anchors => return anchors
  | none => snapshotAnchors

variable (anchors : AnchorHashes)

/-- `block pickAnchor`: the best anchor that is not below the number. -/
def pickLatest (number : Nat) : EngineM keccak (Header × HeaderTrust) :=
  match anchors.latest with
  | none => .fail (.error .unavailableDataError "no verified anchor covers the requested block")
  | some latestHash => do
    let anchor ← engine.getTrustedHeader latestHash .optimistic
    if number > anchor.number then
      .fail (.error .unavailableDataError
        "the requested block is newer than the latest verified block")
    else return (anchor, .optimistic)

def pickSafe (number : Nat) : EngineM keccak (Header × HeaderTrust) :=
  match anchors.safe with
  | none => engine.pickLatest anchors number
  | some safeHash => do
    let safe ← engine.getTrustedHeader safeHash .safe
    if number ≤ safe.number then return (safe, .safe) else engine.pickLatest anchors number

def pickAnchor (number : Nat) : EngineM keccak (Header × HeaderTrust) :=
  match anchors.finalized with
  | none => engine.pickSafe anchors number
  | some finalizedHash => do
    let finalized ← engine.getTrustedHeader finalizedHash .finalized
    if number ≤ finalized.number then return (finalized, .finalized)
    else engine.pickSafe anchors number

/-- The anchor hash that an alias names, and the trust that it is stored with. -/
def aliasAnchor (name : String) : Option (Option Hash32 × HeaderTrust) :=
  match name.toLower with
  | "latest" => some (anchors.latest, .optimistic)
  | "safe" => some (anchors.safe, .safe)
  | "finalized" => some (anchors.finalized, .finalized)
  | "earliest" => some (anchors.earliest, .finalized)
  | _ => none

/-- What `getVerified` does with a header or with a block. -/
structure Getters (keccak : Hashes) (α : Type) where
  trusted : Hash32 → HeaderTrust → EngineM keccak α
  byHash : Header → HeaderTrust → Hash32 → EngineM keccak α
  byNumber : Header → HeaderTrust → Nat → EngineM keccak α

/-- `getVerified`. Without `requireCanonical` the hash pins the block, so it anchors itself. -/
def getVerified {α : Type} (getters : Getters keccak α) (anchors : AnchorHashes) :
    BlockTag → EngineM keccak α
  | .bidAlias name =>
    match aliasAnchor anchors name with
    | none => .fail (.error .invalidDataError s!"No support for block tag {name}")
    | some (none, _) => .fail (.error .unavailableDataError s!"{name} block is not available yet")
    | some (some hash, trust) => getters.trusted hash trust
  | .bidHash hash false => getters.trusted hash .none
  | .bidHash hash true => do
    let header ← engine.getTrustedHeader hash .none
    let picked ← engine.pickAnchor anchors header.number
    getters.byHash picked.1 picked.2 hash
  | .bidNumber number => do
    let picked ← engine.pickAnchor anchors number
    if number = picked.1.number then
      getters.trusted (keccak.computeBlockHash picked.1) picked.2
    else getters.byNumber picked.1 picked.2 number

def headerGetters : Getters keccak Header where
  trusted := engine.getTrustedHeader
  byHash := engine.getHeader
  byNumber := engine.getNumberHeader

def blockGetters (fullTransactions : Bool) : Getters keccak BlockObject where
  trusted hash trust := engine.getTrustedBlock hash trust fullTransactions
  byHash anchor trust hash := engine.getBlock anchor trust hash fullTransactions
  byNumber anchor trust number := engine.getNumberBlock anchor trust number fullTransactions

def getVerifiedHeader (blockTag : BlockTag) (snapshot : Option AnchorHashes) :
    EngineM keccak Header := do
  let anchors ← anchorsOf snapshot
  engine.getVerified engine.headerGetters anchors blockTag

def getVerifiedBlock (blockTag : BlockTag) (fullTransactions : Bool)
    (snapshot : Option AnchorHashes) : EngineM keccak BlockObject := do
  let anchors ← anchorsOf snapshot
  engine.getVerified (engine.blockGetters fullTransactions) anchors blockTag

end BlockConfig

end Nimbus.Native.VerifiedProxy
