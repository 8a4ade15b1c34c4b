import Nimbus.Native.ChainLookups

/-!
# Requests that read the state of a block

Model of `txFrame` of `execution_chain/core/chain/forked_chain.nim`, of the requests of
`rpc/server_api.nim` that read the state at a block tag, and of `createAccessList` of
`rpc/rpc_utils.nim`. The chain carries along what its frames hold: the state that the block
of the frame has left. What a state says of an account, and what the EVM makes of a call on
it, is an argument (`StateView`), and so is what a block does to the state (`StateMachine`).
-/

namespace Nimbus.Native.ForkedChain

/-- Whether a block passes on top of the state of its parent, and the state it leaves. -/
structure StateMachine (W : Type) where
  valid : W → Header → Block → Bool → Bool
  after : W → Block → W

/-- The chain, and what the frames of the database hold. -/
structure StateNode (W : Type) extends LookupNode where
  states : CoreDbTxRef → W

structure CoreDbAccount where
  nonce : Nat
  balance : Nat
  codeHash : Hash32

def EMPTY_CODE_HASH : Hash32 :=
  0xc5d2460186f7233c927e7db2dcc703c0e500b653ca82273b7bfad8045d85a470

def emptyDbAccount : CoreDbAccount := ⟨0, 0, EMPTY_CODE_HASH⟩

abbrev TransactionArgs := List UInt8

structure StorageProof where
  key : Nat
  value : Nat := 0
  proof : List (List UInt8) := []

structure ProofResponse where
  address : Address
  accountProof : List (List UInt8)
  balance : Nat := 0
  nonce : Nat := 0
  codeHash : Hash32 := zeroHash32
  storageHash : Hash32 := zeroHash32
  storageProof : List StorageProof

/-- How a state is read, and what the EVM does with a call on it. -/
structure StateView (W : Type) where
  fetchAccount : W → Address → Option CoreDbAccount
  fetchStorageRoot : W → Address → Option Hash32
  fetchSlot : W → Address → Nat → Option Nat
  getCodeByHash : W → Hash32 → Option (List UInt8)
  /-- the proof of an account, and whether the account exists -/
  proof : W → Address → Option (List (List UInt8) × Bool)
  slotProofs : W → Address → List Nat → Option (List (List (List UInt8)))
  /-- the output of `rpcCallEvm`, unless it fails -/
  callEvm : W → Header → TransactionArgs → Option (List UInt8)
  estimateGas : W → Header → TransactionArgs → Option Nat
  /-- the loop of `createAccessList`, with the header of the parent -/
  accessListLoop : W → Header → Header → TransactionArgs → Option (List UInt8 × Nat)

namespace StateNode

variable {W : Type} (s : StateNode W)

/-! ## Steps -/

/-- The block that a step executes, the block it is put on, and whether the check of its state
root is left to the base update. -/
def executed (e : Event) : Option (BlockRef × Block × Bool) :=
  match e with
  | .importBlock blk finalized =>
    (s.chain.hashToBlock blk.header.parentHash).map fun parent =>
      (parent, blk, finalized || blk.header.number ≤ s.chain.latestFinalized.number)
  | .handle i =>
    match s.chain.queue[i]? with
    | some (.processOrphan parent finalized) =>
      if s.chain.txFrame parent = none then none
      else (s.chain.popOrphan (s.chain.hash parent)).map fun orphan =>
        (parent, orphan.2, finalized)
    | _ => none
  | _ => none

/-- The state that the step executes a block on. -/
def stateBefore (e : Event) : W :=
  match s.executed e with
  | some (parent, _, _) => s.states ((s.chain.txFrame parent).getD s.chain.baseTxFrame)
  | none => s.states s.chain.baseTxFrame

/-- The answers of the step, with those of block execution. -/
def env (exec : StateMachine W) (env : Env) (e : Event) : Env :=
  { env with execute := exec.valid (s.stateBefore e) }

/-- The block is executed on the frame that the step opens. -/
def statesAfter (exec : StateMachine W) (e : Event) : CoreDbTxRef → W :=
  match s.executed e with
  | some (_, blk, _) =>
    Function.update s.states s.chain.nextFrame (exec.after (s.stateBefore e) blk)
  | none => s.states

def step (exec : StateMachine W) (s : StateNode W) (env : Env) (e : Event) :
    Except Defect (StateNode W) := do
  let lookups ← s.toLookupNode.step (s.env exec env e) e
  return { toLookupNode := lookups, states := s.statesAfter exec e }

def run (exec : StateMachine W) : StateNode W → List (Env × Event) → Except Defect (StateNode W) :=
  StepRun.run fun s (env, e) => step exec s env e

/-- The node starts on the frame of the saved state. -/
def init (start : LookupNode) (state : W) : StateNode W where
  toLookupNode := start
  states _ := state

/-! ## Frames -/

/-- `txFrame`. A hash that is not known gets the frame of base. -/
def txFrame (blockHash : Hash32) : Option CoreDbTxRef :=
  if blockHash = s.chain.hash s.chain.base then some s.chain.baseTxFrame
  else match s.chain.hashToBlock blockHash with
    | some b => s.chain.txFrame b
    | none => some s.chain.baseTxFrame

def txFrameOf (header : Header) : Option CoreDbTxRef :=
  s.txFrame (s.chain.com.computeBlockHash header)

def frameFromTag (blockTag : LookupNode.BlockTag) : Option CoreDbTxRef := do
  let header ← s.headerFromTag blockTag
  if header.number < s.chain.number s.chain.base then none else s.txFrameOf header

/-! ## Requests -/

variable (view : StateView W)

/-- A request that reads the state of the frame of a block tag. -/
def readAt {α : Type} (blockTag : LookupNode.BlockTag) (read : W → Option α) : Option α := do
  let txFrame ← s.frameFromTag blockTag
  read (s.states txFrame)

def accountOf (w : W) (address : Address) : CoreDbAccount :=
  (view.fetchAccount w address).getD emptyDbAccount

def eth_getBalance (data : Address) (blockTag : LookupNode.BlockTag) : Option Nat :=
  s.readAt blockTag fun w => some (accountOf view w data).balance

def eth_getStorageAt (data : Address) (slot : Nat) (blockTag : LookupNode.BlockTag) : Option Nat :=
  s.readAt blockTag fun w => some ((view.fetchSlot w data slot).getD 0)

/-- The pending nonce is the one of the transaction pool. -/
def eth_getTransactionCount (getPendingNonce : Address → Nat) (data : Address)
    (blockTag : LookupNode.BlockTag) : Option Nat :=
  if blockTag = .pending then some (getPendingNonce data)
  else s.readAt blockTag fun w => some (accountOf view w data).nonce

def codeOf (w : W) (address : Address) : List UInt8 :=
  (view.getCodeByHash w (accountOf view w address).codeHash).getD []

def eth_getCode (data : Address) (blockTag : LookupNode.BlockTag) : Option (List UInt8) :=
  s.readAt blockTag fun w => some (codeOf view w data)

def getProof (w : W) (address : Address) (slots : List Nat) : Option ProofResponse := do
  let (accountProof, accExists) ← view.proof w address
  if accExists then
    let slotProofs ← view.slotProofs w address slots
    let acc := accountOf view w address
    return {
      address := address
      accountProof := accountProof
      balance := acc.balance
      nonce := acc.nonce
      codeHash := acc.codeHash
      storageHash := (view.fetchStorageRoot w address).getD EMPTY_ROOT_HASH
      storageProof := slots.zip slotProofs |>.map fun (slot, proof) =>
        { key := slot, value := (view.fetchSlot w address slot).getD 0, proof := proof } }
  else
    return {
      address := address
      accountProof := accountProof
      storageProof := slots.map fun slot => { key := slot } }

def eth_getProof (data : Address) (slots : List Nat) (quantityTag : LookupNode.BlockTag) :
    Option ProofResponse :=
  s.readAt quantityTag fun w => getProof view w data slots

/-- The height of the block is not looked at. -/
def eth_call (args : TransactionArgs) (blockTag : LookupNode.BlockTag) : Option (List UInt8) := do
  let header ← s.headerFromTag blockTag
  let txFrame ← s.txFrameOf header
  view.callEvm (s.states txFrame) header args

def eth_estimateGas (args : TransactionArgs) (blockTag : LookupNode.BlockTag) : Option Nat := do
  let header ← s.headerFromTag blockTag
  if header.number < s.chain.number s.chain.base then none
  else
    let txFrame ← s.txFrameOf header
    view.estimateGas (s.states txFrame) header args

def createAccessList (header : Header) (args : TransactionArgs) : Option (List UInt8 × Nat) := do
  let txFrame ← s.txFrameOf header
  let parent ← s.getBlockHeader header.parentHash
  view.accessListLoop (s.states txFrame) parent header args

/-- The height of the block is not looked at here either. -/
def eth_createAccessList (args : TransactionArgs) (quantityTag : LookupNode.BlockTag) :
    Option (List UInt8 × Nat) := do
  let header ← s.headerFromTag quantityTag
  s.createAccessList view header args

end StateNode

end Nimbus.Native.ForkedChain
