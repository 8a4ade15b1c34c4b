import Nimbus.Native.CoreDb

/-!
# The block access list tracker

Model of `execution_chain/block_access_list/bal_tracker.nim` and of the part of
`bal_builder.nim` that the tracker writes to. An entry is referred to by its position in the
account or storage list; the open addressing index that finds the position is a model of its own
(`PosTable`). The journal and the frames are lists with the newest first, so that a journal
position is the number of the records below it. A position of -1 is `none`, and `preCode` holds
the hash itself.
-/

namespace Nimbus.Native.BalTracker

open Aristo (Hash32 UInt256 Defect)
open Function

abbrev AccountNonce := UInt64

/-- What the tracker asks the ledger. -/
structure ReadOnlyLedger where
  getBalance : Address → UInt256
  getNonce : Address → AccountNonce
  getCodeHash : Address → Hash32
  getCode : Address → List UInt8
  getStorage : Address → UInt256 → UInt256

structure SlotKey where
  address : Address
  slot : UInt256
  deriving DecidableEq

structure AccountEntry where
  address : Address
  balanceWritten : Bool := false
  nonceWritten : Bool := false
  codeWritten : Bool := false
  preBalanceKnown : Bool := false
  preNonceKnown : Bool := false
  /-- balance before the transaction, see `preBalanceKnown` -/
  preBalance : UInt256 := 0
  /-- latest balance written -/
  postBalance : UInt256 := 0
  preNonce : AccountNonce := 0
  postNonce : AccountNonce := 0
  /-- the code hash before the transaction -/
  preCode : Option Hash32 := none
  /-- created and self-destructed in this transaction -/
  selfDestructed : Bool := false
  lastBalanceJournal : Option Nat := none
  lastNonceJournal : Option Nat := none
  lastCodeJournal : Option Nat := none

structure StorageEntry where
  key : SlotKey
  /-- position of the owning account entry -/
  account : Nat := 0
  read : Bool := false
  written : Bool := false
  preKnown : Bool := false
  /-- value before the transaction, see `preKnown` -/
  pre : UInt256 := 0
  /-- latest value written -/
  post : UInt256 := 0
  lastJournal : Option Nat := none

inductive JournalKind where
  /-- a storage entry's post value and written flag changed -/
  | jStorageWrite
  | jBalance
  | jNonce
  | jCode
  /-- the account's self-destructed flag was set -/
  | jSelfDestruct

structure JournalEntry where
  kind : JournalKind
  /-- entry position in the account or storage list -/
  idx : Nat
  /-- the entry's previous record position, see `lastJournal` -/
  prevLast : Option Nat := none
  prevWritten : Bool := false
  /-- previous post value for storage and balance changes -/
  prev : UInt256 := 0
  prevNonce : AccountNonce := 0

/-! ## The builder -/

structure StorageWrite where
  account : Nat
  slot : UInt256
  value : UInt256

structure StorageReadEntry where
  account : Nat
  slot : UInt256

structure BalanceWrite where
  account : Nat
  balance : UInt256

structure NonceWrite where
  account : Nat
  nonce : AccountNonce

structure CodeWrite where
  account : Nat
  code : List UInt8

/-- What the builder keeps for one block access index. An account is referred to by its
position in `accounts`. -/
structure BalIndexData where
  accounts : List Address := []
  storageChanges : List StorageWrite := []
  storageReads : List StorageReadEntry := []
  balanceChanges : List BalanceWrite := []
  nonceChanges : List NonceWrite := []
  codeChanges : List CodeWrite := []

structure BlockAccessListBuilder where
  perIndex : List BalIndexData := []

namespace BalIndexData

variable (d : BalIndexData)

def addAccount (address : Address) : BalIndexData := { d with accounts := d.accounts ++ [address] }

def addStorageWrite (account : Nat) (slot newValue : UInt256) : BalIndexData :=
  { d with storageChanges := d.storageChanges ++ [⟨account, slot, newValue⟩] }

def addStorageRead (account : Nat) (slot : UInt256) : BalIndexData :=
  { d with storageReads := d.storageReads ++ [⟨account, slot⟩] }

def addBalanceChange (account : Nat) (postBalance : UInt256) : BalIndexData :=
  { d with balanceChanges := d.balanceChanges ++ [⟨account, postBalance⟩] }

def addNonceChange (account : Nat) (newNonce : AccountNonce) : BalIndexData :=
  { d with nonceChanges := d.nonceChanges ++ [⟨account, newNonce⟩] }

def addCodeChange (account : Nat) (newCode : List UInt8) : BalIndexData :=
  { d with codeChanges := d.codeChanges ++ [⟨account, newCode⟩] }

end BalIndexData

def BlockAccessListBuilder.ensureIndexCount (builder : BlockAccessListBuilder) (n : Nat) :
    BlockAccessListBuilder where
  perIndex := builder.perIndex ++ List.replicate (n - builder.perIndex.length) {}

/-! ## The tracker -/

structure Tracker where
  builder : BlockAccessListBuilder := {}
  /-- 0 for pre-execution, 1..n for transactions, n+1 for post-execution -/
  currentBlockAccessIndex : Nat := 0
  accounts : List AccountEntry := []
  storage : List StorageEntry := []
  journal : List JournalEntry := []
  /-- entry of the most recently resolved address -/
  lastAccount : Option Nat := none
  /-- entry of the most recently resolved slot -/
  lastStorage : Option Nat := none
  /-- journal length at the start of each open frame -/
  frames : List Nat := []

namespace Tracker

variable (tracker : Tracker)

def modifyAccount (idx : Nat) (f : AccountEntry → AccountEntry) : Tracker :=
  { tracker with accounts := tracker.accounts.modify idx f }

def modifyStorage (idx : Nat) (f : StorageEntry → StorageEntry) : Tracker :=
  { tracker with storage := tracker.storage.modify idx f }

/-- Position of the account's entry, creating one if new. -/
def accountEntry (address : Address) : Nat × Tracker :=
  -- accesses cluster on one account, the current target of the call frame
  match tracker.lastAccount with
  | some pos =>
    if (tracker.accounts[pos]?).map (·.address) = some address then (pos, tracker) else resolve
  | none => resolve
where
  resolve : Nat × Tracker :=
    let pos := tracker.accounts.findIdx (·.address = address)
    (pos,
      { tracker with
        accounts :=
          if pos < tracker.accounts.length then tracker.accounts
          else tracker.accounts ++ [{ address }]
        lastAccount := some pos })

/-- Position of the slot's entry, creating one that is neither read nor written if new. -/
def storageEntry (key : SlotKey) : Nat × Tracker :=
  -- SSTORE resolves its slot twice, for the gas calculation and for the write
  match tracker.lastStorage with
  | some pos =>
    if (tracker.storage[pos]?).map (·.key) = some key then (pos, tracker) else resolve
  | none => resolve
where
  resolve : Nat × Tracker :=
    let pos := tracker.storage.findIdx (·.key = key)
    if pos < tracker.storage.length then (pos, { tracker with lastStorage := some pos })
    else
      let (account, tracker) := tracker.accountEntry key.address
      (pos,
        { tracker with
          storage := tracker.storage ++ [{ key, account }]
          lastStorage := some pos })

def clearTransaction : Tracker :=
  { tracker with
    accounts := []
    lastAccount := none
    storage := []
    lastStorage := none
    journal := []
    frames := [] }

def setBlockAccessIndex (blockAccessIndex : Nat) : Tracker :=
  { tracker.clearTransaction with
    currentBlockAccessIndex := blockAccessIndex
    builder := tracker.builder.ensureIndexCount (blockAccessIndex + 1) }

def hasPendingCallFrame : Bool := 0 < tracker.frames.length

def hasParentCallFrame : Bool := 1 < tracker.frames.length

def beginCallFrame : Tracker := { tracker with frames := tracker.journal.length :: tracker.frames }

/-! ## Tracking -/

def trackAddressAccess (address : Address) : Except Defect Tracker :=
  if !tracker.hasPendingCallFrame then .error .assertion
  else .ok (tracker.accountEntry address).2

def trackStorageRead (address : Address) (slot : UInt256) : Except Defect Tracker :=
  if !tracker.hasPendingCallFrame then .error .assertion
  else
    let (idx, tracker) := tracker.storageEntry ⟨address, slot⟩
    .ok (tracker.modifyStorage idx fun e => { e with read := true })

/-- Appends the undo record `entry` unless `last`, the position of the entry's latest record
of the same kind, lies within the current frame. -/
def recordOnce (last : Option Nat) (setLast : Option Nat → Tracker → Tracker)
    (entry : JournalEntry) : Tracker :=
  if last.any (tracker.frames.headD 0 ≤ ·) then tracker
  else
    setLast (some tracker.journal.length)
      { tracker with journal := { entry with prevLast := last } :: tracker.journal }

def setLastJournal (idx : Nat) (last : Option Nat) : Tracker :=
  tracker.modifyStorage idx fun e => { e with lastJournal := last }

def setLastBalanceJournal (idx : Nat) (last : Option Nat) : Tracker :=
  tracker.modifyAccount idx fun e => { e with lastBalanceJournal := last }

def setLastNonceJournal (idx : Nat) (last : Option Nat) : Tracker :=
  tracker.modifyAccount idx fun e => { e with lastNonceJournal := last }

def setLastCodeJournal (idx : Nat) (last : Option Nat) : Tracker :=
  tracker.modifyAccount idx fun e => { e with lastCodeJournal := last }

variable (ledger : ReadOnlyLedger)

def capturePreStorage (idx : Nat) : Tracker :=
  tracker.modifyStorage idx fun e =>
    if !e.preKnown then
      { e with pre := ledger.getStorage e.key.address e.key.slot, preKnown := true }
    else e

def capturePreCode (idx : Nat) : Tracker :=
  tracker.modifyAccount idx fun e =>
    if e.preCode.isNone then { e with preCode := some (ledger.getCodeHash e.address) } else e

def trackStorageWrite (address : Address) (slot newValue : UInt256) : Except Defect Tracker :=
  if !tracker.hasPendingCallFrame then .error .assertion
  else
    let (idx, tracker) := tracker.storageEntry ⟨address, slot⟩
    match tracker.storage[idx]? with
    | none => .error .assertion
    | some e =>
      if e.written && e.post == newValue then .ok tracker
      else
        let tracker := tracker.capturePreStorage ledger idx
        let tracker := tracker.recordOnce e.lastJournal (fun l t => t.setLastJournal idx l)
          { kind := .jStorageWrite, idx, prevWritten := e.written, prev := e.post }
        .ok (tracker.modifyStorage idx fun e => { e with post := newValue, written := true })

def trackBalanceChange (address : Address) (newBalance : UInt256) (current : Option UInt256) :
    Except Defect Tracker :=
  if !tracker.hasPendingCallFrame then .error .assertion
  else
    let (idx, tracker) := tracker.accountEntry address
    match tracker.accounts[idx]? with
    | none => .error .assertion
    | some e =>
      if e.balanceWritten && e.postBalance == newBalance then .ok tracker
      else
        let tracker := tracker.modifyAccount idx fun e =>
          if !e.preBalanceKnown then
            { e with
              preBalance := current.getD (ledger.getBalance address)
              preBalanceKnown := true }
          else e
        let tracker := tracker.recordOnce e.lastBalanceJournal
          (fun l t => t.setLastBalanceJournal idx l)
          { kind := .jBalance, idx, prevWritten := e.balanceWritten, prev := e.postBalance }
        .ok (tracker.modifyAccount idx fun e =>
          { e with postBalance := newBalance, balanceWritten := true })

def trackAddBalanceChange (address : Address) (delta : UInt256) : Except Defect Tracker :=
  if delta = 0 then tracker.trackAddressAccess address
  else
    let current := ledger.getBalance address
    tracker.trackBalanceChange ledger address (current + delta) (some current)

def trackSubBalanceChange (address : Address) (delta : UInt256) : Except Defect Tracker :=
  -- the account of an empty transfer is not read
  if delta = 0 then .ok tracker
  else
    let current := ledger.getBalance address
    tracker.trackBalanceChange ledger address (current - delta) (some current)

def trackNonceChange (address : Address) (newNonce : AccountNonce)
    (current : Option AccountNonce) : Except Defect Tracker :=
  if !tracker.hasPendingCallFrame then .error .assertion
  else
    let (idx, tracker) := tracker.accountEntry address
    match tracker.accounts[idx]? with
    | none => .error .assertion
    | some e =>
      if e.nonceWritten && e.postNonce == newNonce then .ok tracker
      else
        let tracker := tracker.modifyAccount idx fun e =>
          if !e.preNonceKnown then
            { e with
              preNonce := current.getD (ledger.getNonce address)
              preNonceKnown := true }
          else e
        let tracker := tracker.recordOnce e.lastNonceJournal
          (fun l t => t.setLastNonceJournal idx l)
          { kind := .jNonce, idx, prevWritten := e.nonceWritten, prevNonce := e.postNonce }
        .ok (tracker.modifyAccount idx fun e =>
          { e with postNonce := newNonce, nonceWritten := true })

def trackIncNonceChange (address : Address) : Except Defect Tracker :=
  let current := ledger.getNonce address
  tracker.trackNonceChange ledger address (current + 1) (some current)

def trackCodeChange (address : Address) : Except Defect Tracker :=
  if !tracker.hasPendingCallFrame then .error .assertion
  else
    let (idx, tracker) := tracker.accountEntry address
    match tracker.accounts[idx]? with
    | none => .error .assertion
    | some e =>
      let tracker := tracker.capturePreCode ledger idx
      let tracker := tracker.recordOnce e.lastCodeJournal
        (fun l t => t.setLastCodeJournal idx l)
        { kind := .jCode, idx, prevWritten := e.codeWritten }
      .ok (tracker.modifyAccount idx fun e => { e with codeWritten := true })

def trackInTransactionSelfDestruct (address : Address) : Except Defect Tracker :=
  if !tracker.hasPendingCallFrame then .error .assertion
  else
    let (idx, tracker) := tracker.accountEntry address
    match tracker.accounts[idx]? with
    | none => .error .assertion
    | some e =>
      if !e.selfDestructed then
        let tracker := tracker.modifyAccount idx fun e => { e with selfDestructed := true }
        .ok { tracker with journal := { kind := .jSelfDestruct, idx } :: tracker.journal }
      else .ok tracker

/-! ## Call frames -/

/-- The nonce and code of an account that destructed itself end as they began. -/
def dropDestructed (e : AccountEntry) : AccountEntry :=
  if e.selfDestructed then { e with nonceWritten := false, codeWritten := false } else e

def dropBalance (e : AccountEntry) : AccountEntry :=
  if e.balanceWritten && e.preBalance == e.postBalance then { e with balanceWritten := false }
  else e

def dropNonce (e : AccountEntry) : AccountEntry :=
  if e.nonceWritten && e.preNonce == e.postNonce then { e with nonceWritten := false } else e

def dropCode (e : AccountEntry) : AccountEntry :=
  if e.codeWritten && e.preCode == some (ledger.getCodeHash e.address) then
    { e with codeWritten := false }
  else e

def normalizeAccount (e : AccountEntry) : AccountEntry :=
  dropCode ledger (dropNonce (dropBalance (dropDestructed e)))

/-- A write that changes nothing counts as a read. -/
def normalizeStorage (accounts : List AccountEntry) (e : StorageEntry) : StorageEntry :=
  if e.written && (e.pre == e.post || (accounts[e.account]?).any (·.selfDestructed)) then
    { e with written := false, read := true }
  else e

def normalizeChanges : Tracker :=
  let accounts := tracker.accounts.map (normalizeAccount ledger)
  { tracker with accounts, storage := tracker.storage.map (normalizeStorage accounts) }

def recordAccount (d : BalIndexData) (e : AccountEntry) : BalIndexData :=
  let id := d.accounts.length
  let d := d.addAccount e.address
  let d := if e.balanceWritten then d.addBalanceChange id e.postBalance else d
  let d := if e.nonceWritten then d.addNonceChange id e.postNonce else d
  if e.codeWritten then d.addCodeChange id (ledger.getCode e.address) else d

def recordSlot (first : Nat) (d : BalIndexData) (e : StorageEntry) : Except Defect BalIndexData :=
  let id := first + e.account
  if e.written then
    if id < d.accounts.length then .ok (d.addStorageWrite id e.key.slot e.post)
    else .error .assertion
  else if e.read then
    if id < d.accounts.length then .ok (d.addStorageRead id e.key.slot) else .error .assertion
  else .ok d

/-- Hands the transaction's accesses and changes to the builder. -/
def recordTransaction : Except Defect Tracker :=
  if tracker.accounts.length = 0 then .ok tracker
  else
    match tracker.builder.perIndex[tracker.currentBlockAccessIndex]? with
    | none => .error .assertion
    | some d => do
      let d' ← tracker.storage.foldlM (recordSlot d.accounts.length)
        (tracker.accounts.foldl (recordAccount ledger) d)
      return { tracker with
        builder.perIndex := tracker.builder.perIndex.set tracker.currentBlockAccessIndex d' }

/-- Committing the transaction's own frame records the transaction with the builder. -/
def commitCallFrame : Except Defect Tracker :=
  if !tracker.hasPendingCallFrame then .error .assertion
  else if tracker.hasParentCallFrame then .ok { tracker with frames := tracker.frames.tail }
  else do
    let tracker ← (tracker.normalizeChanges ledger).recordTransaction ledger
    return tracker.clearTransaction

def undoEntry (entry : JournalEntry) : Tracker :=
  match entry.kind with
  | .jStorageWrite => tracker.modifyStorage entry.idx fun e =>
    { e with
      post := entry.prev
      written := entry.prevWritten
      -- a reverted storage write becomes a read
      read := true
      lastJournal := entry.prevLast }
  | .jBalance => tracker.modifyAccount entry.idx fun e =>
    { e with
      postBalance := entry.prev
      balanceWritten := entry.prevWritten
      lastBalanceJournal := entry.prevLast }
  | .jNonce => tracker.modifyAccount entry.idx fun e =>
    { e with
      postNonce := entry.prevNonce
      nonceWritten := entry.prevWritten
      lastNonceJournal := entry.prevLast }
  | .jCode => tracker.modifyAccount entry.idx fun e =>
    { e with codeWritten := entry.prevWritten, lastCodeJournal := entry.prevLast }
  | .jSelfDestruct => tracker.modifyAccount entry.idx fun e => { e with selfDestructed := false }

/-- Replays the records of the journal back to the length `journalLen`. -/
def undoRecords (journalLen : Nat) : List JournalEntry → Tracker → Tracker
  | [], tracker => tracker
  | entry :: rest, tracker =>
    if journalLen ≤ rest.length then
      undoRecords journalLen rest ({ tracker with journal := rest }.undoEntry entry)
    else tracker

def undoJournal (journalLen : Nat) : Tracker :=
  undoRecords journalLen tracker.journal tracker

/-- Reverting the transaction's own frame drops the transaction. -/
def rollbackCallFrame : Except Defect Tracker :=
  if !tracker.hasPendingCallFrame then .error .assertion
  else if tracker.hasParentCallFrame then
    let tracker := tracker.undoJournal (tracker.frames.headD 0)
    .ok { tracker with frames := tracker.frames.tail }
  else .ok tracker.clearTransaction

end Tracker

/-! ## The tracker next to the state that it tracks -/

/-- The state that a transaction runs on. -/
structure World where
  balance : Address → UInt256
  nonce : Address → AccountNonce
  code : Address → List UInt8
  storage : Address → UInt256 → UInt256

namespace World

variable (world : World) (address : Address)

def readOnly [Keccak] : ReadOnlyLedger where
  getBalance := world.balance
  getNonce := world.nonce
  getCodeHash address := keccak256 (world.code address)
  getCode := world.code
  getStorage := world.storage

def setBalance (value : UInt256) : World :=
  { world with balance := update world.balance address value }

def setNonce (value : AccountNonce) : World :=
  { world with nonce := update world.nonce address value }

def setCode (value : List UInt8) : World :=
  { world with code := update world.code address value }

def setStorage (slot value : UInt256) : World :=
  { world with
    storage := update world.storage address
      (update (world.storage address) slot value) }

end World

/-- What the EVM does with the state and the tracker side by side. Each change is tracked
just before the state takes it. -/
inductive Cmd where
  | setBlockAccessIndex (blockAccessIndex : Nat)
  | beginCallFrame
  | commitCallFrame
  | rollbackCallFrame
  | addressAccess (address : Address)
  | storageRead (address : Address) (slot : UInt256)
  | storageWrite (address : Address) (slot newValue : UInt256)
  | setBalance (address : Address) (newBalance : UInt256)
  | addBalance (address : Address) (delta : UInt256)
  | subBalance (address : Address) (delta : UInt256)
  | setNonce (address : Address) (newNonce : AccountNonce)
  | incNonce (address : Address)
  | setCode (address : Address) (newCode : List UInt8)
  | selfDestruct (address : Address)

structure Machine where
  tracker : Tracker
  world : World
  /-- the states at the savepoints, the innermost first -/
  savePoints : List World

namespace Machine

variable [Keccak]

def init (world : World) : Machine where
  tracker := {}
  world := world
  savePoints := []

def step (m : Machine) : Cmd → Except Defect Machine
  | .setBlockAccessIndex i =>
    .ok { m with tracker := m.tracker.setBlockAccessIndex i, savePoints := [] }
  | .beginCallFrame =>
    .ok { m with tracker := m.tracker.beginCallFrame, savePoints := m.world :: m.savePoints }
  | .commitCallFrame => do
    let tracker ← m.tracker.commitCallFrame m.world.readOnly
    return { m with tracker, savePoints := m.savePoints.tail }
  | .rollbackCallFrame => do
    let tracker ← m.tracker.rollbackCallFrame
    return { tracker, world := m.savePoints.headD m.world, savePoints := m.savePoints.tail }
  | .addressAccess a => do
    let tracker ← m.tracker.trackAddressAccess a
    return { m with tracker }
  | .storageRead a slot => do
    let tracker ← m.tracker.trackStorageRead a slot
    return { m with tracker }
  | .storageWrite a slot v => do
    let tracker ← m.tracker.trackStorageWrite m.world.readOnly a slot v
    return { m with tracker, world := m.world.setStorage a slot v }
  | .setBalance a v => do
    let tracker ← m.tracker.trackBalanceChange m.world.readOnly a v none
    return { m with tracker, world := m.world.setBalance a v }
  | .addBalance a delta => do
    let tracker ← m.tracker.trackAddBalanceChange m.world.readOnly a delta
    return { m with tracker, world := m.world.setBalance a (m.world.balance a + delta) }
  | .subBalance a delta => do
    let tracker ← m.tracker.trackSubBalanceChange m.world.readOnly a delta
    return { m with tracker, world := m.world.setBalance a (m.world.balance a - delta) }
  | .setNonce a v => do
    let tracker ← m.tracker.trackNonceChange m.world.readOnly a v none
    return { m with tracker, world := m.world.setNonce a v }
  | .incNonce a => do
    let tracker ← m.tracker.trackIncNonceChange m.world.readOnly a
    return { m with tracker, world := m.world.setNonce a (m.world.nonce a + 1) }
  | .setCode a code => do
    let tracker ← m.tracker.trackCodeChange m.world.readOnly a
    return { m with tracker, world := m.world.setCode a code }
  | .selfDestruct a => do
    let tracker ← m.tracker.trackInTransactionSelfDestruct a
    return { m with tracker }

def run (m : Machine) (cmds : List Cmd) : Except Defect Machine := cmds.foldlM step m

end Machine

end Nimbus.Native.BalTracker
