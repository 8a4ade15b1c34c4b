import Nimbus.ForStd.ParentTree

/-!
# `ForkedChainRef`: the in-memory block tree above the persisted base

Model of `execution_chain/core/chain/forked_chain.nim` and of the files of
`forked_chain/` it uses (`chain_desc`, `chain_branch`, `block_quarantine` and the number
lookups of `chain_db`). Object references are numbers into two heaps: `blocks` holds the
`BlockRef` objects, `frames` the transaction frames of the database. A reference that the
code follows without a nil check ends the run with `Defect.nilAccess` when it is nil, and
every `doAssert` is a `Defect` of its own.

The node runs with the processing queue enabled: a handler that queues another one adds a
`QueueItem`, and `handleQueueItem` runs one of them. What block execution, the state root
of a frame and the clock answer is an argument (`Env`) of each step.
-/

namespace Nimbus.Native.ForkedChain

open Function

abbrev Hash32 := Nat
abbrev BlockRef := Nat
abbrev CoreDbTxRef := Nat

def zeroHash32 : Hash32 := 0

def GENESIS_PARENT_HASH : Hash32 := zeroHash32

def EMPTY_ROOT_HASH : Hash32 :=
  0x56e81f171bcc55a6ff8345e692c0f86e5b48e01b996cadc001622fb5e363b421

def EMPTY_UNCLE_HASH : Hash32 :=
  0x1dcc4de8dec75d7aab85b567b6ccd41ad312451b948a7413f0a142fd40d49347

/-- The header fields that the block tree, its database records and the lookups read. -/
structure Header where
  parentHash : Hash32
  number : Nat
  stateRoot : Hash32
  txRoot : Hash32
  receiptsRoot : Hash32
  ommersHash : Hash32
  withdrawalsRoot : Option Hash32
  logsBloom : Nat := 0
  timestamp : Nat := 0
  blockAccessListHash : Option Hash32 := none
  deriving DecidableEq, Inhabited

def Header.isGenesis (header : Header) : Bool :=
  header.number == 0 && header.parentHash == GENESIS_PARENT_HASH

structure Block where
  header : Header
  deriving DecidableEq

/-- The object behind a `BlockRef`. The default value is a nil object: nothing refers to
a reference that was never handed out. -/
structure BlockObj where
  header : Header := default
  txFrame : Option CoreDbTxRef := none
  hash : Hash32 := zeroHash32
  parent : Option BlockRef := none
  isFinalized : Bool := false

structure TxFrame where
  parent : Option CoreDbTxRef := none
  disposed : Bool := false

structure FcuHashAndNumber where
  hash : Hash32 := zeroHash32
  number : Nat := 0

/-- `computeBlockHash` is Keccak over the RLP of the header. No header hashes to the zero
hash, which the code reserves for "not set". -/
structure CommonRef where
  computeBlockHash : Header → Hash32
  hash_ne_zero : ∀ header, computeBlockHash header ≠ zeroHash32

/-- The database `init` starts from: the number lookups on disk and the header of the
block whose state is saved, which its number leads to. -/
structure SavedState (com : CommonRef) where
  baseHeader : Header
  canonical : Nat → Option Hash32
  canonical_base : canonical baseHeader.number = some (com.computeBlockHash baseHeader)

def SavedState.baseHash {com : CommonRef} (db : SavedState com) : Hash32 :=
  com.computeBlockHash db.baseHeader

/-- What the code outside the block tree answers during one step: whether a block executes
on top of its parent (with or without the state root check of a block not yet finalized),
the state root of a frame, and the run time of `updateBase` in milliseconds. -/
structure Env where
  execute : Header → Block → Bool → Bool
  frameRoot : CoreDbTxRef → Hash32
  runTime : Nat

/-- The ways a step aborts the process. -/
inductive Defect where
  /-- a nil reference is followed -/
  | nilAccess
  /-- `doAssert not txFrame.isDisposed()` -/
  | disposedFrame
  /-- `doAssert(candidate.isNil.not)` -/
  | noCandidate
  /-- `doAssert(false, "Unreachable code, target base should exists")` -/
  | noTargetBase
  /-- `doAssert(finalized.number <= head.number)` -/
  | finalizedAboveHead
  /-- `doAssert(base.number <= finalized.number)` -/
  | baseAboveFinalized
  /-- the deliberate shutdown "State root sanity check failed, bug?" -/
  | stateRootMismatch
  deriving DecidableEq

/-- Error results of the handlers, with the texts of the code. -/
inductive ChainError where
  /-- "Cannot find head block: " -/
  | unknownHead (hash : Hash32)
  /-- "Invalid finalizedHash: block is newer than head block" -/
  | finalizedNewerThanHead
  /-- "Invalid finalizedHash: block not in argument head ancestor lineage" -/
  | finalizedNotInLineage
  /-- "Cannot set head to …: finalized block … would be discarded" -/
  | finalizedDiscarded (head finalized : Hash32)
  /-- the error of `processBlock` -/
  | invalidBlock
  deriving DecidableEq

inductive ImportOutcome where
  | Valid
  | AlreadyObserved

inductive ImportErrorKind where
  | Invalid
  | Orphaned
  | MissingParent

inductive QueueItem where
  | processUpdateBase
  | processOrphan (parent : BlockRef) (finalized : Bool)

def MaxOrphans : Nat := 8

structure ForkedChainRef where
  com : CommonRef
  blocks : BlockRef → BlockObj
  nextBlock : Nat
  frames : CoreDbTxRef → TxFrame
  nextFrame : Nat
  hashToBlock : Hash32 → Option BlockRef
  base : BlockRef
  baseQueue : List BlockRef
  latest : BlockRef
  heads : List BlockRef
  /-- orphaned blocks by the hash of their missing parent, most recent first -/
  orphans : List (Hash32 × Block)
  baseTxFrame : CoreDbTxRef
  baseDistance : Nat
  pendingFCU : Hash32
  latestFinalized : FcuHashAndNumber
  persistBatchSize : Nat
  dynamicBatchSize : Bool
  fcuHead : FcuHashAndNumber
  fcuSafe : FcuHashAndNumber
  queue : List QueueItem
  /-- the number lookups on disk: canonical blocks up to the base -/
  canonical : Nat → Option Hash32

namespace ForkedChainRef

variable (c : ForkedChainRef)

variable (b : BlockRef)

def number : Nat := (c.blocks b).header.number

def hash : Hash32 := (c.blocks b).hash

def parent : Option BlockRef := (c.blocks b).parent

def txFrame : Option CoreDbTxRef := (c.blocks b).txFrame

def notFinalized : Bool := !(c.blocks b).isFinalized

/-- `==` on `BlockRef` compares the hashes of two blocks that are not nil. -/
def sameBlock (a b : BlockRef) : Bool := c.hash a == c.hash b

/-- `for it in ancestors(init)`. A parent is older than its child, so the number of
blocks ever made is fuel enough. -/
def ancestors (init : Option BlockRef) : List BlockRef :=
  ParentTree.chain c.parent c.nextBlock init

def modifyBlock (f : BlockObj → BlockObj) : ForkedChainRef :=
  { c with blocks := update c.blocks b (f (c.blocks b)) }

def finalize : ForkedChainRef :=
  c.modifyBlock b fun o => { o with isFinalized := true }

def disposeFrame (f : CoreDbTxRef) : ForkedChainRef :=
  { c with frames := update c.frames f { c.frames f with disposed := true } }

/-- `parentFrame.txFrameBegin()` -/
def txFrameBegin : Option CoreDbTxRef → Except Defect (ForkedChainRef × CoreDbTxRef)
  | none => .error .nilAccess
  | some f =>
    if (c.frames f).disposed then .error .disposedFrame
    else .ok ({ c with
      frames := update c.frames c.nextFrame { parent := some f }
      nextFrame := c.nextFrame + 1 }, c.nextFrame)

/-! ## Appending and removing blocks -/

/-- The first head with the hash of `parent` becomes `newBlock`; without one `newBlock`
opens a branch. -/
def replaceHead (parent newBlock : BlockRef) : List BlockRef → List BlockRef
  | [] => [newBlock]
  | head :: heads =>
    if c.sameBlock head parent then newBlock :: heads
    else head :: replaceHead parent newBlock heads

def appendBlock (parent : BlockRef) (blk : Block) (blkHash : Hash32)
    (txFrame : CoreDbTxRef) : ForkedChainRef × BlockRef :=
  let newBlock := c.nextBlock
  let c := { c with
    blocks := update c.blocks newBlock
      { header := blk.header, txFrame := some txFrame, hash := blkHash,
        parent := some parent, isFinalized := false }
    nextBlock := newBlock + 1
    hashToBlock := update c.hashToBlock blkHash (some newBlock)
    latest := newBlock }
  ({ c with heads := c.replaceHead parent newBlock c.heads }, newBlock)

/-- Drop `b` from the tree: its frame is disposed, and the object keeps only its hash and
its finalized marker. -/
def removeBlockFromCache : Except Defect ForkedChainRef :=
  match c.txFrame b with
  | none => .error .nilAccess
  | some f =>
    let c := { c with hashToBlock := update c.hashToBlock (c.hash b) none }
    .ok ((c.disposeFrame f).modifyBlock b fun o =>
      { hash := o.hash, isFinalized := o.isFinalized })

/-! ## Heads and finality -/

def findHeadPos (hash : Hash32) : Except ChainError BlockRef :=
  match c.hashToBlock hash with
  | none => .error (.unknownHead hash)
  | some b => .ok b

def findFinalizedPos (hash : Hash32) (head : BlockRef) : Except ChainError BlockRef :=
  match c.hashToBlock hash with
  | none => .error .finalizedNotInLineage
  | some fin =>
    if c.number fin > c.number head then .error .finalizedNewerThanHead
    else if c.heads.length = 1 then .ok fin
    else if (c.ancestors (some head)).any (c.sameBlock · fin) then .ok fin
    else .error .finalizedNotInLineage

def calculateNewBase (finalizedNumber : Nat) (head : BlockRef) : Except Defect BlockRef :=
  let target := min finalizedNumber (max (c.number head) c.baseDistance - c.baseDistance)
  if target ≤ c.number c.base then .ok c.base
  else if target - c.number c.base < c.persistBatchSize then .ok c.base
  else match (c.ancestors (some head)).find? (c.number · == target) with
    | some it => .ok it
    | none => .error .noTargetBase

def updateHead (head : BlockRef) : ForkedChainRef :=
  { c with fcuHead := { hash := c.hash head, number := c.number head } }

/-- `for it in loopNotFinalized(init): it.finalize()` -/
def finalizeLoop : Nat → ForkedChainRef → BlockRef → Except Defect ForkedChainRef
  | 0, c, _ => .ok c
  | fuel + 1, c, it =>
    if c.notFinalized it then
      match c.parent it with
      | none => .error .nilAccess
      | some next => finalizeLoop fuel (c.finalize it) next
    else .ok c

/-- The first finalized block on the way from `it` to the base is `fin`. -/
def reachableLoop (fin : BlockRef) : Nat → Option BlockRef → Bool
  | 0, _ => false
  | _ + 1, none => false
  | fuel + 1, some it =>
    if c.notFinalized it then reachableLoop fin fuel (c.parent it)
    else c.sameBlock it fin

def reachable (head fin : BlockRef) : Bool :=
  c.reachableLoop fin c.nextBlock (some head)

/-- Remove the blocks from `it` down to the first finalized one, stopping early at a block
that an earlier branch has already removed. -/
def removeBranch : Nat → ForkedChainRef → BlockRef → Except Defect ForkedChainRef
  | 0, c, _ => .ok c
  | fuel + 1, c, it =>
    if c.notFinalized it then
      if c.txFrame it = none then .ok c
      else do
        let next := c.parent it
        let c ← c.removeBlockFromCache it
        match next with
        | none => .error .nilAccess
        | some next => removeBranch fuel c next
    else .ok c

/-- `seq.del`: the last element takes the place of the deleted one. -/
def seqDel (xs : List α) (i : Nat) : List α :=
  match xs.getLast? with
  | none => []
  | some x => (xs.set i x).dropLast

/-- The pruning loop of `updateFinalized` from index `i` on, with `heads.len - i` as fuel.
The flag says whether `latest` was among the pruned heads. -/
def pruneHeads (finalized : BlockRef) :
    Nat → Nat → ForkedChainRef → Bool → Except Defect (ForkedChainRef × Bool)
  | 0, _, c, updateLatest => .ok (c, updateLatest)
  | fuel + 1, i, c, updateLatest =>
    match c.heads[i]? with
    | none => .ok (c, updateLatest)
    | some head =>
      if c.reachable head finalized then pruneHeads finalized fuel (i + 1) c updateLatest
      else do
        let c ← removeBranch c.nextBlock c head
        let updateLatest := updateLatest || c.sameBlock head c.latest
        pruneHeads finalized fuel i { c with heads := seqDel c.heads i } updateLatest

/-- Walking up `chain`, the block `fcuHead` comes before any block below it. -/
def leadsTo (fcuHead : BlockRef) : List BlockRef → Bool
  | [] => false
  | it :: chain =>
    if c.sameBlock it fcuHead then true
    else if c.number it < c.number fcuHead then false
    else leadsTo fcuHead chain

/-- The highest head that has `fcuHead` among its ancestors. -/
def candidate (fcuHead : BlockRef) : Option BlockRef :=
  c.heads.foldl (fun candidate head =>
    if c.leadsTo fcuHead (c.ancestors (some head)) then
      match candidate with
      | none => some head
      | some best => if c.number head > c.number best then some head else some best
    else candidate) none

def updateFinalized (finalized fcuHead : BlockRef) : Except Defect ForkedChainRef := do
  let c ← finalizeLoop c.nextBlock c finalized
  if c.heads.length = 1 then return c
  let (c, updateLatest) ← pruneHeads finalized c.heads.length 0 c false
  if updateLatest then
    match c.candidate fcuHead with
    | none => .error .noCandidate
    | some candidate => return { c with latest := candidate }
  else return c

/-! ## Moving the base -/

/-- The number lookups of the blocks from `base` down to the current base. -/
def writeCanonicalMappings (base : BlockRef) : ForkedChainRef :=
  let fresh := (c.ancestors (some base)).takeWhile fun b => !c.sameBlock b c.base
  let lookup canonical b := update canonical (c.number b) (some (c.hash b))
  { c with canonical := fresh.foldl lookup c.canonical }

/-- The frame becomes the bottom-most one, on top of the database. -/
def persistFrame (f : CoreDbTxRef) : ForkedChainRef :=
  { c with frames := update c.frames f { c.frames f with parent := none } }

def removeBlocks : ForkedChainRef → List BlockRef → Except Defect ForkedChainRef
  | c, [] => .ok c
  | c, b :: bs => do
    let c ← c.removeBlockFromCache b
    removeBlocks c bs

/-- The batch size follows the run time, between the bounds 4 and 256. -/
def adjustBatchSize (runTime : Nat) : ForkedChainRef :=
  if c.dynamicBatchSize then
    if runTime < 200 ∧ c.persistBatchSize < 256 then
      { c with persistBatchSize := min (c.persistBatchSize + 4) 256 }
    else if runTime > 500 ∧ c.persistBatchSize > 4 then
      { c with persistBatchSize := max (c.persistBatchSize / 2) 4 }
    else c
  else c

variable (env : Env)

def updateBase (base : BlockRef) : Except Defect ForkedChainRef :=
  if c.number base = c.number c.base then .ok c
  else match c.txFrame base with
    | none => .error .nilAccess
    | some frame =>
      if env.frameRoot frame ≠ (c.blocks base).header.stateRoot then .error .stateRootMismatch
      else if (c.frames frame).disposed then .error .disposedFrame
      else do
        let c := (c.writeCanonicalMappings base).persistFrame frame
        let c := { c with baseTxFrame := frame }
        let c ← removeBlocks c (c.ancestors (c.parent base))
        let c := { c with base := base }
        let c := c.modifyBlock base fun o => { o with parent := none }
        let c := c.finalize base
        return c.adjustBatchSize env.runTime

def processUpdateBase : Except Defect ForkedChainRef := do
  let c ← match c.baseQueue with
    | [] => pure c
    | base :: baseQueue => updateBase { c with baseQueue := baseQueue } env base
  if c.baseQueue = [] then return c
  return { c with queue := c.queue ++ [.processUpdateBase] }

/-- The blocks below `base` whose numbers are multiples of the batch size away from it,
downwards until the number of the previously queued base. -/
def baseSteps (prevNumber : Nat) : Nat → Nat → Option BlockRef → Except Defect (List BlockRef)
  | 0, _, _ => .ok []
  | _ + 1, _, none => .error .nilAccess
  | fuel + 1, number, some it =>
    if c.number it > prevNumber then
      if c.number it = number then do
        let steps ← baseSteps prevNumber fuel (number - min number c.persistBatchSize)
          (c.parent it)
        return it :: steps
      else baseSteps prevNumber fuel number (c.parent it)
    else .ok []

def queueUpdateBase (base : BlockRef) : Except Defect ForkedChainRef := do
  let prevQueuedBase := c.baseQueue.getLast?.getD c.base
  if c.number prevQueuedBase ≥ c.number base then return c
  let number := c.number base - min (c.number base) c.persistBatchSize
  let steps ← c.baseSteps (c.number prevQueuedBase) (base + 1) number (some base)
  return { c with
    baseQueue := c.baseQueue ++ (base :: steps).reverse
    queue := c.queue ++ [.processUpdateBase] }

/-! ## Importing blocks -/

/-- `tryUpdatePendingFCU` -/
def tryUpdatePendingFCU (finHash : Hash32) (number : Nat) : ForkedChainRef :=
  let c := { c with pendingFCU := zeroHash32 }
  if number > c.latestFinalized.number then
    { c with latestFinalized := { hash := finHash, number := number } }
  else c

/-- The kinship check of `processBlock`, followed by the execution of the block. -/
def processBlock (parentHeader : Header) (blk : Block) (finalized : Bool) : Bool :=
  if blk.header.isGenesis then env.execute parentHeader blk finalized
  else if blk.header.number ≠ parentHeader.number + 1 then false
  else env.execute parentHeader blk finalized

/-- The import lags so far behind the resolved finalized block that the base is moved
without waiting for a fork choice. -/
def autoForward : Bool :=
  let offset := c.baseDistance + c.persistBatchSize
  let number := if offset ≥ c.latestFinalized.number then 0
    else c.latestFinalized.number - offset
  c.number c.base < number

/-- The higher one of `base` and the first finalized ancestor of `latest`. -/
def finalizedFrontier (base : BlockRef) : BlockRef :=
  match (c.ancestors (some c.latest)).find? (fun it => !c.notFinalized it) with
  | some it => if c.number it > c.number base then it else base
  | none => base

def forwardBase : Except Defect ForkedChainRef :=
  if c.autoForward then do
    let base ← c.calculateNewBase c.latestFinalized.number c.latest
    let prevBase := c.number c.base
    let c ← c.updateFinalized (c.finalizedFrontier base) c.latest
    let c ← c.queueUpdateBase base
    if c.number c.base > prevBase ∧ c.fcuHead.number < c.number c.base then
      return c.updateHead c.base
    else return c
  else .ok c

def validateBlock (parent : BlockRef) (blk : Block) (finalized : Bool) :
    Except Defect (ForkedChainRef × Except ChainError BlockRef) :=
  let blkHash := c.com.computeBlockHash blk.header
  match c.hashToBlock blkHash with
  | some existingBlock => .ok (c, .ok existingBlock)
  | none => do
    let c := if blkHash = c.pendingFCU then c.tryUpdatePendingFCU blkHash blk.header.number
      else c
    let (c, txFrame) ← c.txFrameBegin (c.txFrame parent)
    if processBlock env (c.blocks parent).header blk finalized then
      let (c, newBlock) := c.appendBlock parent blk blkHash txFrame
      let c ← c.forwardBase
      return (c, .ok newBlock)
    else
      return (c.disposeFrame txFrame, .error .invalidBlock)

/-- `quarantine.popOrphan` -/
def popOrphan (parentHash : Hash32) : Option (ForkedChainRef × Block) :=
  (c.orphans.find? (·.1 == parentHash)).map fun orphan =>
    ({ c with orphans := c.orphans.filter (·.1 != parentHash) }, orphan.2)

/-- `quarantine.addOrphan` -/
def addOrphan (blk : Block) : ForkedChainRef :=
  { c with orphans := ((blk.header.parentHash, blk) ::
      c.orphans.filter (·.1 != blk.header.parentHash)).take MaxOrphans }

def processOrphan (parent : BlockRef) (finalized : Bool) : Except Defect ForkedChainRef :=
  if c.txFrame parent = none then .ok c
  else match c.popOrphan (c.hash parent) with
    | none => .ok c
    | some (c, orphan) => do
      let (c, result) ← c.validateBlock env parent orphan finalized
      match result with
      | .error _ => return c
      | .ok parent => return { c with queue := c.queue ++ [.processOrphan parent finalized] }

def importBlock (blk : Block) (finalized : Bool) :
    Except Defect (ForkedChainRef × Except ImportErrorKind ImportOutcome) :=
  let header := blk.header
  let blkHash := c.com.computeBlockHash header
  if (c.hashToBlock blkHash).isSome then .ok (c, .ok .AlreadyObserved)
  else match c.hashToBlock header.parentHash with
    | some parent => do
      let isFinalized := finalized || header.number ≤ c.latestFinalized.number
      let (c, result) ← c.validateBlock env parent blk isFinalized
      match result with
      | .error _ => return (c, .error .Invalid)
      | .ok newParent =>
        let c := if c.orphans ≠ [] then
            { c with queue := c.queue ++ [.processOrphan newParent isFinalized] }
          else c
        return (c, .ok .Valid)
    | none =>
      if header.number ≤ c.number c.latest then
        if header.number ≤ c.number c.base ∧
            (c.canonical header.number).getD zeroHash32 = blkHash then
          .ok (c, .ok .AlreadyObserved)
        else .ok (c, .error .Orphaned)
      else .ok (c.addOrphan blk, .error .MissingParent)

/-! ## Fork choice -/

def forkChoice (headHash finalizedHash safeHash : Hash32) :
    Except Defect (ForkedChainRef × Except ChainError Unit) :=
  let c := if finalizedHash ≠ zeroHash32 then { c with pendingFCU := finalizedHash } else c
  let c := if safeHash ≠ zeroHash32 then
      match c.hashToBlock safeHash with
      | some safe => { c with fcuSafe := { hash := safeHash, number := c.number safe } }
      | none => c
    else c
  if headHash = c.hash c.latest ∧ finalizedHash = zeroHash32 then .ok (c, .ok ())
  else match c.findHeadPos headHash with
    | .error e => .ok (c, .error e)
    | .ok head =>
      let c := c.updateHead head
      if finalizedHash = zeroHash32 then .ok (c, .ok ())
      else match c.findFinalizedPos finalizedHash head with
        | .error e => .ok (c, .error e)
        | .ok finalized => do
          let c ← c.updateFinalized finalized head
          let base ← c.calculateNewBase (c.number finalized) head
          if c.number base ≤ c.number c.base then return (c, .ok ())
          if c.number finalized > c.number head then .error .finalizedAboveHead
          else if c.number base > c.number finalized then .error .baseAboveFinalized
          else
            let c ← c.queueUpdateBase base
            return (c, .ok ())

/-- The first finalized block met above the lineage `keep`, over all heads. -/
def discardedFinalized (keep : List Hash32) : Option BlockRef :=
  c.heads.findSome? fun branchHead =>
    ((c.ancestors (some branchHead)).takeWhile (fun it => c.hash it ∉ keep)).find?
      fun it => !c.notFinalized it

/-- Remove the blocks of one branch down to the lineage `keep`, or down to a part that an
earlier branch has already removed. -/
def discardBranch (keep : List Hash32) :
    Nat → ForkedChainRef → Option BlockRef → Except Defect ForkedChainRef
  | 0, c, _ => .ok c
  | _ + 1, c, none => .ok c
  | fuel + 1, c, some it =>
    if c.hash it ∈ keep ∨ c.txFrame it = none then .ok c
    else do
      let next := c.parent it
      let c ← c.removeBlockFromCache it
      discardBranch keep fuel c next

def discardBranches (keep : List Hash32) :
    ForkedChainRef → List BlockRef → Except Defect ForkedChainRef
  | c, [] => .ok c
  | c, branchHead :: heads => do
    let c ← discardBranch keep c.nextBlock c (some branchHead)
    discardBranches keep c heads

def setHead (headHash : Hash32) : Except Defect (ForkedChainRef × Except ChainError Unit) :=
  match c.findHeadPos headHash with
  | .error e => .ok (c, .error e)
  | .ok head =>
    let keep := (c.ancestors (some head)).map c.hash
    match c.discardedFinalized keep with
    | some it => .ok (c, .error (.finalizedDiscarded headHash (c.hash it)))
    | none => do
      let c ← discardBranches keep c c.heads
      let c := { c with heads := [head], latest := head }
      let c := c.updateHead head
      let c := if c.fcuSafe.number > c.number head then
          { c with fcuSafe := { hash := c.hash head, number := c.number head } }
        else c
      return (c, .ok ())

/-! ## The processing queue -/

/-- Run the `i`-th queued handler. -/
def handleQueueItem (i : Nat) : Except Defect ForkedChainRef :=
  match c.queue[i]? with
  | none => .ok c
  | some item =>
    let c := { c with queue := c.queue.eraseIdx i }
    match item with
    | .processUpdateBase => c.processUpdateBase env
    | .processOrphan parent finalized => c.processOrphan env parent finalized

/-- `ForkedChainRef.init`: the tree is the block of the saved state alone, on the base
frame. -/
def init (com : CommonRef) (db : SavedState com) (baseDistance : Nat)
    (persistBatchSize : { size : Nat // size > 0 }) (dynamicBatchSize : Bool) : ForkedChainRef :=
  let fcuHead : FcuHashAndNumber := { hash := db.baseHash, number := db.baseHeader.number }
  { com := com
    blocks := update (fun _ => {}) 0
      { header := db.baseHeader, txFrame := some 0, hash := db.baseHash, isFinalized := true }
    nextBlock := 1
    frames := fun _ => {}
    nextFrame := 1
    hashToBlock := update (fun _ => none) db.baseHash (some 0)
    base := 0
    baseQueue := []
    latest := 0
    heads := [0]
    orphans := []
    baseTxFrame := 0
    baseDistance := baseDistance
    pendingFCU := zeroHash32
    latestFinalized := {}
    persistBatchSize := persistBatchSize.1
    dynamicBatchSize := dynamicBatchSize
    fcuHead := fcuHead
    fcuSafe := fcuHead
    queue := []
    canonical := db.canonical }

end ForkedChainRef

/-! ## Runs -/

/-- A request from outside, or one queued handler taken in any order. -/
inductive Event where
  | importBlock (blk : Block) (finalized : Bool)
  | forkChoice (headHash finalizedHash safeHash : Hash32)
  | setHead (headHash : Hash32)
  | handle (i : Nat)

def step (c : ForkedChainRef) (env : Env) : Event → Except Defect ForkedChainRef
  | .importBlock blk finalized => (·.1) <$> c.importBlock env blk finalized
  | .forkChoice headHash finalizedHash safeHash =>
    (·.1) <$> c.forkChoice headHash finalizedHash safeHash
  | .setHead headHash => (·.1) <$> c.setHead headHash
  | .handle i => c.handleQueueItem env i

def run : ForkedChainRef → List (Env × Event) → Except Defect ForkedChainRef
  | c, [] => .ok c
  | c, (env, event) :: events => do
    let c ← step c env event
    run c events

end Nimbus.Native.ForkedChain
