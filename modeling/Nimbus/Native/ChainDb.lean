import Nimbus.Native.ForkedChain

/-!
# The block payloads on disk

Model of `execution_chain/core/chain/forked_chain/chain_db.nim` and of the places that call
it: the tail of `processBlock` in `chain_private.nim`, `persistHeader` of `core_apps.nim`,
and the handlers of `forked_chain.nim` that finalize, prune or attach blocks. The
transactions, receipts, ommers and withdrawals of a block are stored under their root, so
that blocks with the same root share them; `owners` is the record that `blockDataRefsKey`
leads to. The key-value store is written at once: what a handler has written stays when the
frame of a block is dropped.

`ChainNode` is the block tree with this store. Its handlers are those of `ForkedChainRef`
with the writes put back in; the ones that write nothing are used as they are. Of a payload
only its presence is kept, its content is what its root says.
-/

namespace Nimbus.Native.ForkedChain

open Function

/-- The payloads a header asks for: transactions and receipts are stored by index under
their root, ommers and withdrawals as one record. -/
inductive BodyData where
  | indexed (root : Hash32)
  | ommers (hash : Hash32)
  | withdrawals (root : Hash32)
  deriving DecidableEq

def bodyData (header : Header) : List BodyData :=
  ([header.txRoot, header.receiptsRoot].filter (· != EMPTY_ROOT_HASH)).map .indexed ++
  (if header.ommersHash != EMPTY_UNCLE_HASH then [.ommers header.ommersHash] else []) ++
  match header.withdrawalsRoot with
  | none => []
  | some root => if root != EMPTY_ROOT_HASH then [.withdrawals root] else []

/-- One payload of the store and the hashes of the blocks that own it. -/
structure BodyEntry where
  owners : List Hash32 := []
  stored : Bool := false

namespace BodyEntry

/-- One turn of the loop of `writeBlockOwnershipData`: a payload without owners that is
there already belongs to the finalized history. -/
def retain (hash : Hash32) (e : BodyEntry) : BodyEntry :=
  if e.owners.length = 0 ∧ e.stored then e
  else if hash ∉ e.owners then { e with owners := e.owners ++ [hash] }
  else e

/-- One turn of the loop of `finalizeBlockData`. -/
def pin (e : BodyEntry) : BodyEntry := { e with owners := [] }

/-- One turn of the loop of `releaseBlockOwnershipData`. -/
def release (hash : Hash32) (e : BodyEntry) : BodyEntry :=
  match e.owners.idxOf? hash with
  | none => e
  | some index =>
    let owners := ForkedChainRef.seqDel e.owners index
    if owners.length > 0 then { e with owners := owners }
    else { owners := [], stored := false }

def write (e : BodyEntry) : BodyEntry := { e with stored := true }

end BodyEntry

/-- The records the block tree writes: payloads, headers and scores. -/
structure BlockDb where
  bodies : BodyData → BodyEntry
  header : Hash32 → Bool
  score : Hash32 → Bool
  /-- `com.startOfHistory` -/
  startOfHistory : Hash32

namespace BlockDb

variable (db : BlockDb)

def modifyBody (g : BodyEntry → BodyEntry) (key : BodyData) : BlockDb :=
  { db with bodies := update db.bodies key (g (db.bodies key)) }

/-- `for data in bodyData(header)` -/
def forBodies (g : BodyEntry → BodyEntry) (header : Header) : BlockDb :=
  (bodyData header).foldl (fun db key => db.modifyBody g key) db

variable (header : Header)

def writeBlockOwnershipData (hash : Hash32) : BlockDb :=
  db.forBodies (BodyEntry.retain hash) header

def finalizeBlockData : BlockDb := db.forBodies BodyEntry.pin header

def releaseBlockOwnershipData (hash : Hash32) : BlockDb :=
  db.forBodies (BodyEntry.release hash) header

def deleteBlockData (hash : Hash32) : BlockDb :=
  let db := db.releaseBlockOwnershipData header hash
  { db with
    header := update db.header hash false
    score := update db.score hash false }

/-- The flag is false where the code returns an error. -/
def persistHeader (blockHash : Hash32) (header : Header) : BlockDb × Bool :=
  let isStartOfHistory := header.parentHash == db.startOfHistory
  if !isStartOfHistory && !db.header header.parentHash then (db, false)
  else
    let db := { db with header := update db.header blockHash true }
    if !isStartOfHistory && !db.score header.parentHash then (db, false)
    else ({ db with score := update db.score blockHash true }, true)

/-- The payloads, each of which has been checked against its root: one with an empty root
is empty and writes nothing. -/
def writeBaggage : BlockDb := db.forBodies BodyEntry.write header

/-- The end of `processBlock`, for a block that has been executed. -/
def storeBlock (blk : Block) (blkHash : Hash32) : BlockDb × Bool :=
  let db := db.writeBlockOwnershipData blk.header blkHash
  match db.persistHeader blkHash blk.header with
  | (db, false) => (db, false)
  | (db, true) => (db.writeBaggage blk.header, true)

end BlockDb

structure ChainNode where
  chain : ForkedChainRef
  db : BlockDb

namespace ChainNode

open ForkedChainRef

/-- The payloads of finalized blocks are pinned before any are released. -/
def finalizeLoop : Nat → ChainNode → BlockRef → Except Defect ChainNode
  | 0, s, _ => .ok s
  | fuel + 1, s, it =>
    if s.chain.notFinalized it then
      match s.chain.parent it with
      | none => .error .nilAccess
      | some next =>
        let db := s.db.finalizeBlockData (s.chain.blocks it).header
        finalizeLoop fuel ⟨s.chain.finalize it, db⟩ next
    else .ok s

def removeBranch : Nat → ChainNode → BlockRef → Except Defect ChainNode
  | 0, s, _ => .ok s
  | fuel + 1, s, it =>
    if s.chain.notFinalized it then
      if s.chain.txFrame it = none then .ok s
      else do
        let next := s.chain.parent it
        let db := s.db.deleteBlockData (s.chain.blocks it).header (s.chain.hash it)
        let c ← s.chain.removeBlockFromCache it
        match next with
        | none => .error .nilAccess
        | some next => removeBranch fuel ⟨c, db⟩ next
    else .ok s

def pruneHeads (finalized : BlockRef) :
    Nat → Nat → ChainNode → Bool → Except Defect (ChainNode × Bool)
  | 0, _, s, updateLatest => .ok (s, updateLatest)
  | fuel + 1, i, s, updateLatest =>
    match s.chain.heads[i]? with
    | none => .ok (s, updateLatest)
    | some head =>
      if s.chain.reachable head finalized then
        pruneHeads finalized fuel (i + 1) s updateLatest
      else do
        let s ← removeBranch s.chain.nextBlock s head
        let updateLatest := updateLatest || s.chain.sameBlock head s.chain.latest
        let c := { s.chain with heads := seqDel s.chain.heads i }
        pruneHeads finalized fuel i ⟨c, s.db⟩ updateLatest

variable (s : ChainNode)

def updateFinalized (finalized fcuHead : BlockRef) : Except Defect ChainNode := do
  let s ← finalizeLoop s.chain.nextBlock s finalized
  if s.chain.heads.length = 1 then return s
  let (s, updateLatest) ← pruneHeads finalized s.chain.heads.length 0 s false
  if updateLatest then
    match s.chain.candidate fcuHead with
    | none => .error .noCandidate
    | some candidate => return ⟨{ s.chain with latest := candidate }, s.db⟩
  else return s

def forwardBase : Except Defect ChainNode :=
  if s.chain.autoForward then do
    let base ← s.chain.calculateNewBase s.chain.latestFinalized.number s.chain.latest
    let prevBase := s.chain.number s.chain.base
    let s ← s.updateFinalized (s.chain.finalizedFrontier base) s.chain.latest
    let c ← s.chain.queueUpdateBase base
    if c.number c.base > prevBase ∧ c.fcuHead.number < c.number c.base then
      return ⟨c.updateHead c.base, s.db⟩
    else return ⟨c, s.db⟩
  else .ok s

/-- The block is executed, then its header and payloads are written. -/
def processBlock (env : Env) (parentHeader : Header) (blk : Block) (blkHash : Hash32)
    (finalized : Bool) : BlockDb × Bool :=
  if ForkedChainRef.processBlock env parentHeader blk finalized then s.db.storeBlock blk blkHash
  else (s.db, false)

def validateBlock (env : Env) (parent : BlockRef) (blk : Block) (finalized : Bool) :
    Except Defect (ChainNode × Except ChainError BlockRef) :=
  let c := s.chain
  let blkHash := c.com.computeBlockHash blk.header
  match c.hashToBlock blkHash with
  | some existingBlock => .ok (s, .ok existingBlock)
  | none => do
    let c := if blkHash = c.pendingFCU then c.tryUpdatePendingFCU blkHash blk.header.number
      else c
    let (c, txFrame) ← c.txFrameBegin (c.txFrame parent)
    let (db, success) := processBlock ⟨c, s.db⟩ env (c.blocks parent).header blk blkHash finalized
    if success then
      let (c, newBlock) := c.appendBlock parent blk blkHash txFrame
      let s ← forwardBase ⟨c, db⟩
      return (s, .ok newBlock)
    else
      return (⟨c.disposeFrame txFrame, db⟩, .error .invalidBlock)

def processOrphan (env : Env) (parent : BlockRef) (finalized : Bool) : Except Defect ChainNode :=
  if s.chain.txFrame parent = none then .ok s
  else match s.chain.popOrphan (s.chain.hash parent) with
    | none => .ok s
    | some (c, orphan) => do
      let (s, result) ← validateBlock ⟨c, s.db⟩ env parent orphan finalized
      match result with
      | .error _ => return s
      | .ok parent =>
        let queue := s.chain.queue ++ [.processOrphan parent finalized]
        return ⟨{ s.chain with queue := queue }, s.db⟩

def importBlock (env : Env) (blk : Block) (finalized : Bool) :
    Except Defect (ChainNode × Except ImportErrorKind ImportOutcome) :=
  let c := s.chain
  let header := blk.header
  let blkHash := c.com.computeBlockHash header
  if (c.hashToBlock blkHash).isSome then .ok (s, .ok .AlreadyObserved)
  else match c.hashToBlock header.parentHash with
    | some parent => do
      let isFinalized := finalized || header.number ≤ c.latestFinalized.number
      let (s, result) ← s.validateBlock env parent blk isFinalized
      match result with
      | .error _ => return (s, .error .Invalid)
      | .ok newParent =>
        let c := if s.chain.orphans ≠ [] then
            { s.chain with
              queue := s.chain.queue ++ [.processOrphan newParent isFinalized] }
          else s.chain
        return (⟨c, s.db⟩, .ok .Valid)
    | none =>
      if header.number ≤ c.number c.latest then
        if header.number ≤ c.number c.base ∧
            (c.canonical header.number).getD zeroHash32 = blkHash then
          .ok (s, .ok .AlreadyObserved)
        else .ok (s, .error .Orphaned)
      else .ok (⟨c.addOrphan blk, s.db⟩, .error .MissingParent)

def forkChoice (headHash finalizedHash safeHash : Hash32) :
    Except Defect (ChainNode × Except ChainError Unit) :=
  let c := s.chain
  let c := if finalizedHash ≠ zeroHash32 then { c with pendingFCU := finalizedHash } else c
  let c := if safeHash ≠ zeroHash32 then
      match c.hashToBlock safeHash with
      | some safe => { c with fcuSafe := { hash := safeHash, number := c.number safe } }
      | none => c
    else c
  if headHash = c.hash c.latest ∧ finalizedHash = zeroHash32 then .ok (⟨c, s.db⟩, .ok ())
  else match c.findHeadPos headHash with
    | .error e => .ok (⟨c, s.db⟩, .error e)
    | .ok head =>
      let c := c.updateHead head
      if finalizedHash = zeroHash32 then .ok (⟨c, s.db⟩, .ok ())
      else match c.findFinalizedPos finalizedHash head with
        | .error e => .ok (⟨c, s.db⟩, .error e)
        | .ok finalized => do
          let s ← updateFinalized ⟨c, s.db⟩ finalized head
          let base ← s.chain.calculateNewBase (s.chain.number finalized) head
          if s.chain.number base ≤ s.chain.number s.chain.base then return (s, .ok ())
          if s.chain.number finalized > s.chain.number head then .error .finalizedAboveHead
          else if s.chain.number base > s.chain.number finalized then
            .error .baseAboveFinalized
          else
            let c ← s.chain.queueUpdateBase base
            return (⟨c, s.db⟩, .ok ())

def handleQueueItem (env : Env) (i : Nat) : Except Defect ChainNode :=
  match s.chain.queue[i]? with
  | none => .ok s
  | some item =>
    let c := { s.chain with queue := s.chain.queue.eraseIdx i }
    match item with
    | .processUpdateBase => do
      let c ← c.processUpdateBase env
      return ⟨c, s.db⟩
    | .processOrphan parent finalized => processOrphan ⟨c, s.db⟩ env parent finalized

def step (env : Env) : Event → Except Defect ChainNode
  | .importBlock blk finalized => (·.1) <$> s.importBlock env blk finalized
  | .forkChoice headHash finalizedHash safeHash =>
    (·.1) <$> s.forkChoice headHash finalizedHash safeHash
  | .setHead headHash => (⟨·.1, s.db⟩) <$> s.chain.setHead headHash
  | .handle i => s.handleQueueItem env i

def run : ChainNode → List (Env × Event) → Except Defect ChainNode
  | s, [] => .ok s
  | s, (env, event) :: events => do
    let s ← s.step env event
    run s events

end ChainNode

/-- The store a node starts on: the header and score of the block of the saved state, and
that block's payloads, which no other block can take with it. Payloads of the history and
entries left by blocks of an earlier session may be there too. -/
structure SavedBlocks (com : CommonRef) (db : SavedState com) where
  blocks : BlockDb
  header_base : blocks.header db.baseHash
  score_base : blocks.score db.baseHash
  bodies_base : ∀ key ∈ bodyData db.baseHeader, (blocks.bodies key).stored ∧
    ((blocks.bodies key).owners = [] ∨ db.baseHash ∈ (blocks.bodies key).owners)

def ChainNode.init {com : CommonRef} {db : SavedState com} (saved : SavedBlocks com db)
    (baseDistance : Nat) (persistBatchSize : { size : Nat // size > 0 })
    (dynamicBatchSize : Bool) : ChainNode :=
  ⟨ForkedChainRef.init com db baseDistance persistBatchSize dynamicBatchSize, saved.blocks⟩

end Nimbus.Native.ForkedChain
