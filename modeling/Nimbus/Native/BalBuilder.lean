import Nimbus.ForStd.CountingSort
import Nimbus.ForStd.LinearProbing
import Nimbus.Native.OpHandlers

/-!
# The block access list builder

Model of `execution_chain/block_access_list/bal_builder.nim`. Each thread adds to the log of its
own block access index. When all are done the logs are put together: every address gets a dense
id from a hash table with open addressing, the entries are grouped by id with a counting sort,
those of one account are sorted by slot, and the accounts are put in order with a radix sort.

The sequences are lists, and a block access index is a number. Reserved capacities are left out,
and so is the counting that only serves them.
-/

namespace Nimbus.Native.BalBuilder

open Aristo (UInt256)
open BalTracker

/-- `StorageKey` of `eth/common/block_access_lists`. -/
abbrev StorageKey := UInt256

/-- What stops the program. -/
inductive Defect where
  | assertion
  /-- a sequence is read or written outside its bounds -/
  | index
  /-- a probe finds no place in a full table -/
  | endless

/-! ## The inserting side -/

/-- A call that adds to the builder. -/
inductive Add where
  | account (address : Address)
  | storageWrite (account : Nat) (slot newValue : UInt256)
  | storageRead (account : Nat) (slot : UInt256)
  | balanceChange (account : Nat) (postBalance : UInt256)
  | nonceChange (account : Nat) (newNonce : AccountNonce)
  | codeChange (account : Nat) (newCode : List UInt8)

/-- The account that `checkAccount` checks. -/
def Add.checked : Add → Option Nat
  | .account _ => none
  | .storageWrite id _ _ | .storageRead id _ | .balanceChange id _ | .nonceChange id _ |
    .codeChange id _ => some id

/-- The log after a call. -/
def Add.log (d : BalIndexData) : Add → BalIndexData
  | .account address => d.addAccount address
  | .storageWrite id slot newValue => d.addStorageWrite id slot newValue
  | .storageRead id slot => d.addStorageRead id slot
  | .balanceChange id postBalance => d.addBalanceChange id postBalance
  | .nonceChange id newNonce => d.addNonceChange id newNonce
  | .codeChange id newCode => d.addCodeChange id newCode

/-- A call for the block access index that its thread works on. -/
def add (builder : BlockAccessListBuilder) (blockAccessIndex : Nat) (entry : Add) :
    Except Defect BlockAccessListBuilder :=
  match builder.perIndex[blockAccessIndex]? with
  | none => .error .assertion
  | some d =>
    if ∀ account ∈ entry.checked, account < d.accounts.length then
      .ok { perIndex := builder.perIndex.set blockAccessIndex (entry.log d) }
    else .error .assertion

/-- A call to the builder, of any thread. -/
inductive Call where
  | ensureIndexCount (n : Nat)
  | add (blockAccessIndex : Nat) (entry : Add)

def Call.run (builder : BlockAccessListBuilder) : Call → Except Defect BlockAccessListBuilder
  | .ensureIndexCount n => .ok (builder.ensureIndexCount n)
  | .add blockAccessIndex entry => BalBuilder.add builder blockAccessIndex entry

/-- The calls of all threads, in the order in which they happen. -/
def run (builder : BlockAccessListBuilder) (calls : List Call) :
    Except Defect BlockAccessListBuilder := calls.foldlM Call.run builder

/-! ## The flat entries -/

structure FlatStorageChange where
  acct : Nat
  index : Nat
  slot : UInt256
  value : UInt256

structure FlatStorageRead where
  acct : Nat
  slot : UInt256

/-- `FlatBalanceChange`, `FlatNonceChange` and `FlatCodeChange`. -/
structure FlatChange (V : Type) where
  acct : Nat
  index : Nat
  value : V

abbrev FlatBalanceChange := FlatChange UInt256
abbrev FlatNonceChange := FlatChange AccountNonce
abbrev FlatCodeChange := FlatChange (List UInt8)

/-! ## The account ids -/

/-- `hash` of an address, from `eth/common/addresses`. -/
class AddressHash where
  hash : Address → UInt64

export AddressHash (hash)

/-- Open addressing table from address to dense id, with the addresses in id order. -/
structure AccountIds where
  /-- of power-of-two size; 0 is empty, otherwise id + 1 -/
  buckets : List Nat
  /-- address of each id, in first-seen order -/
  addresses : List Address

structure AccountOrder where
  address : Address
  id : Nat

namespace AccountIds

variable [AddressHash]

def addrHash (address : Address) : Nat := (hash address).toNat

def init (expected : Nat) : AccountIds where
  buckets := List.replicate (max (expected * 2) 64).nextPowerOfTwo 0
  addresses := []

/-- The loop of `insert` and `idOf`: on to the next bucket until one is to be taken. -/
def probeFrom (buckets : List Nat) (stop : Nat → Bool) : Nat → Nat → Except Defect Nat
  | 0, _ => .error .endless
  | fuel + 1, i =>
    if stop (buckets.getD i 0) then .ok i
    else probeFrom buckets stop fuel ((i + 1) &&& (buckets.length - 1))

def insert (buckets : List Nat) (addresses : List Address) (id : Nat) : Except Defect (List Nat) :=
  match addresses[id]? with
  | none => .error .index
  | some address => do
    let i ← probeFrom buckets (fun b => b == 0) buckets.length
      (addrHash address &&& (buckets.length - 1))
    return buckets.set i (id + 1)

/-- Keeps the load factor at or below one half. -/
def grow (accounts : AccountIds) : Except Defect AccountIds := do
  if accounts.addresses.length * 2 ≥ accounts.buckets.length then
    let grown ← (List.range accounts.addresses.length).foldlM
      (fun grown id => insert grown accounts.addresses id)
      (List.replicate (accounts.buckets.length * 2) 0)
    return { accounts with buckets := grown }
  else return accounts

def idOf (accounts : AccountIds) (address : Address) : Except Defect (Nat × AccountIds) := do
  let accounts ← accounts.grow
  let i ← probeFrom accounts.buckets
    (fun b => b == 0 || accounts.addresses[b - 1]? == some address) accounts.buckets.length
    (addrHash address &&& (accounts.buckets.length - 1))
  let b := accounts.buckets.getD i 0
  if b == 0 then
    let id := accounts.addresses.length
    return (id, ⟨accounts.buckets.set i (id + 1), accounts.addresses ++ [address]⟩)
  else return (b - 1, accounts)

/-- The ids of the addresses of one index. -/
def idsOf : AccountIds → List Address → Except Defect (List Nat × AccountIds)
  | accounts, [] => .ok ([], accounts)
  | accounts, address :: addresses => do
    let (id, accounts) ← accounts.idOf address
    let (ids, accounts) ← idsOf accounts addresses
    return (id :: ids, accounts)

end AccountIds

/-! ## Sorting -/

/-- The digit `d` of an address in the radix sort, of 8 or 16 bits. -/
def digitOf (bits : Nat) (e : AccountOrder) (d : Nat) : Nat :=
  if bits = 8 then (e.address.toList.getD d 0).toNat
  else ((e.address.toList.getD (2 * d) 0).toNat <<< 8) |||
    (e.address.toList.getD (2 * d + 1) 0).toNat

/-- One pass of the radix sort, from `src` to `dst`, which then change places. -/
def sortPass (bits : Nat) (buffers : List AccountOrder × List AccountOrder) (d : Nat) :
    List AccountOrder × List AccountOrder :=
  let (src, dst) := buffers
  let counts := CountingSort.tally (digitOf bits · d) (2 ^ bits) src
  -- every address shares this digit
  if (src.head?.bind fun e => counts[digitOf bits e d]?) = some src.length then (src, dst)
  else
    (CountingSort.scatter (digitOf bits · d) src (CountingSort.sumsBefore 0 counts) dst, src)

/-- Stable radix sort by address bytes in `bits`-wide digits, the last digit first. -/
def sortByDigits (bits : Nat) (order : List AccountOrder) : List AccountOrder :=
  let numDigits := 20 / (bits / 8)
  let tmp := List.replicate order.length ⟨Vector.replicate 20 0, 0⟩
  ((List.range numDigits).reverse.foldl (sortPass bits) (order, tmp)).1

def sortByAddress (order : List AccountOrder) : List AccountOrder :=
  if order.length ≤ 1 then order
  else if order.length ≥ 16384 then sortByDigits 16 order
  else sortByDigits 8 order

/-- A limb of a slot. -/
def limb (slot : UInt256) (i : Nat) : BitVec 64 := slot.extractLsb' (64 * i) 64

/-- The loop of `slotCmp`, over the limbs below `i`. -/
def slotCmpFrom (x y : UInt256) : Nat → Ordering
  | 0 => .eq
  | i + 1 =>
    if limb x i ≠ limb y i then (if limb x i < limb y i then .lt else .gt)
    else slotCmpFrom x y i

/-- Most significant limb first. -/
def slotCmp (x y : UInt256) : Ordering := slotCmpFrom x y 4

section

variable {α : Type}

/-- The running sums from the second entry on. -/
def runningSums : List Nat → List Nat
  | c :: d :: counts => c :: runningSums ((d + c) :: counts)
  | counts => counts

/-- Stable counting sort of `entries` by account id. The entries of account `i` end up in
`grouped[offsets[i] ..< offsets[i + 1]]`, in the same order as before. -/
def groupByAccount [Inhabited α] (acct : α → Nat) (entries : List α) (numAccounts : Nat) :
    List α × List Nat :=
  let offsets := runningSums (CountingSort.tally (fun e => acct e + 1) (numAccounts + 1) entries)
  (CountingSort.scatter acct entries offsets (List.replicate entries.length default), offsets)

/-- `entries[lo ..< hi]` -/
def slice (entries : List α) (lo hi : Nat) : List α := (entries.drop lo).take (hi - lo)

/-- Stable sort of `entries[lo ..< hi]` by slot. -/
def sortBySlot (slot : α → UInt256) (entries : List α) (lo hi : Nat) : List α :=
  if hi - lo > 1 then
    entries.take lo ++
      (slice entries lo hi).mergeSort (fun x y => slotCmp (slot x) (slot y) != .gt) ++
      entries.drop hi
  else entries

end

/-! ## The list -/

/-- `StorageChange`, `BalanceChange`, `NonceChange` and `CodeChange`. -/
structure Change (V : Type) where
  blockAccessIndex : Nat
  value : V
  deriving Inhabited

structure SlotChanges where
  slot : StorageKey
  changes : List (Change UInt256)
  deriving Inhabited

structure AccountChanges where
  address : Address
  storageChanges : List SlotChanges
  storageReads : List StorageKey
  balanceChanges : List (Change UInt256)
  nonceChanges : List (Change AccountNonce)
  codeChanges : List (Change (List UInt8))

instance : Inhabited AccountChanges := ⟨⟨Vector.replicate 20 0, [], [], [], [], []⟩⟩

abbrev BlockAccessList := List AccountChanges

section

variable {α V : Type} (index : α → Nat)

/-- The entries after those with the index `i`. -/
def skipIndex (i : Nat) (entries : List α) : List α :=
  entries.dropWhile fun e => index e == i

theorem skipIndex_length_le (i : Nat) (entries : List α) :
    (skipIndex index i entries).length ≤ entries.length :=
  (List.dropWhile_sublist _).length_le

/-- The value of the last entry with the index `i`, `value` when there is none. -/
def lastValue (valueOf : α → V) (i : Nat) : V → List α → V
  | value, [] => value
  | value, e :: entries => if index e == i then lastValue valueOf i (valueOf e) entries else value

/-- One change for each index, with the last value that was set for it. -/
def collapseByIndex (valueOf : α → V) : List α → List (Change V)
  | [] => []
  | e :: entries =>
    ⟨index e, lastValue index valueOf (index e) (valueOf e) entries⟩ ::
      collapseByIndex valueOf (skipIndex index (index e) entries)
termination_by entries => entries.length
decreasing_by exact Nat.lt_succ_of_le (skipIndex_length_le index _ _)

def countDistinctIndices : List α → Nat
  | [] => 0
  | e :: entries => countDistinctIndices (skipIndex index (index e) entries) + 1
termination_by entries => entries.length
decreasing_by exact Nat.lt_succ_of_le (skipIndex_length_le index _ _)

/-- A list of `len` default entries whose first ones are then set to `items`. -/
def fill [Inhabited α] (len : Nat) (items : List α) : Except Defect (List α) :=
  if items.length ≤ len then .ok (items ++ List.replicate (len - items.length) default)
  else .error .index

end

/-- The entries after those with this slot. -/
def skipSlot {α : Type} (slotOf : α → UInt256) (slot : UInt256) (entries : List α) : List α :=
  entries.dropWhile fun e => slotOf e == slot

theorem skipSlot_length_le {α : Type} (slotOf : α → UInt256) (slot : UInt256)
    (entries : List α) : (skipSlot slotOf slot entries).length ≤ entries.length :=
  (List.dropWhile_sublist _).length_le

/-- The number of distinct slots, in slot order. -/
def countSlots : List FlatStorageChange → Nat
  | [] => 0
  | e :: entries => countSlots (skipSlot (·.slot) e.slot entries) + 1
termination_by entries => entries.length
decreasing_by exact Nat.lt_succ_of_le (skipSlot_length_le _ _ _)

/-- The writes by slot, each slot's collapsed by index. -/
def slotChangesOf : List FlatStorageChange → List SlotChanges
  | [] => []
  | e :: entries =>
    ⟨e.slot, collapseByIndex (·.index) (·.value)
        (e :: entries.takeWhile fun w => w.slot == e.slot)⟩ ::
      slotChangesOf (skipSlot (·.slot) e.slot entries)
termination_by entries => entries.length
decreasing_by exact Nat.lt_succ_of_le (skipSlot_length_le _ _ _)

/-- The slots that are read, and not among those that are `written`. Both are in slot order, so
that one pass over both is enough. -/
def storageReadsOf : List FlatStorageRead → List SlotChanges → List StorageKey
  | [], _ => []
  | r :: reads, written =>
    let rest := skipSlot (·.slot) r.slot reads
    let written := written.dropWhile fun w => decide (w.slot < r.slot)
    if (written.head?.map (·.slot)) = some r.slot then storageReadsOf rest written
    else r.slot :: storageReadsOf rest written
termination_by reads => reads.length
decreasing_by all_goals exact Nat.lt_succ_of_le (skipSlot_length_le _ _ _)

/-- The entries of all accounts that `buildBlockAccessList` flattens in its first phase. -/
structure Flat where
  accounts : AccountIds
  sFlat : List FlatStorageChange := []
  rFlat : List FlatStorageRead := []
  bFlat : List FlatBalanceChange := []
  nFlat : List FlatNonceChange := []
  cFlat : List FlatCodeChange := []

instance : Inhabited FlatStorageChange := ⟨⟨0, 0, 0, 0⟩⟩
instance : Inhabited FlatStorageRead := ⟨⟨0, 0⟩⟩
instance {V : Type} [Inhabited V] : Inhabited (FlatChange V) := ⟨⟨0, 0, default⟩⟩

/-- `ids[i]` -/
def idAt (ids : List Nat) (i : Nat) : Except Defect Nat :=
  match ids[i]? with
  | some id => .ok id
  | none => .error .index

section

variable [AddressHash]

/-- The log of one index is added to the flat entries. -/
def Flat.addIndex (flat : Flat) (balIndex : Nat) (d : BalIndexData) : Except Defect Flat := do
  let (ids, accounts) ← flat.accounts.idsOf d.accounts
  let s ← d.storageChanges.mapM fun w => do
    return ⟨← idAt ids w.account, balIndex, w.slot, w.value⟩
  let r ← d.storageReads.mapM fun r => do
    return ⟨← idAt ids r.account, r.slot⟩
  let b ← d.balanceChanges.mapM fun b => do
    return ⟨← idAt ids b.account, balIndex, b.balance⟩
  let n ← d.nonceChanges.mapM fun n => do
    return ⟨← idAt ids n.account, balIndex, n.nonce⟩
  let c ← d.codeChanges.mapM fun c => do
    return ⟨← idAt ids c.account, balIndex, c.code⟩
  return ⟨accounts, flat.sFlat ++ s, flat.rFlat ++ r, flat.bFlat ++ b, flat.nFlat ++ n,
    flat.cFlat ++ c⟩

/-- The loop over the indices, from `balIndex` on. -/
def Flat.addIndices : Flat → Nat → List BalIndexData → Except Defect Flat
  | flat, _, [] => .ok flat
  | flat, balIndex, d :: perIndex => do
    let flat ← flat.addIndex balIndex d
    addIndices flat (balIndex + 1) perIndex

end

/-- The entries of each account in slot order. -/
def sortSlots {α : Type} (slotOf : α → UInt256) (numAccounts : Nat) (entries : List α)
    (offsets : List Nat) : List α :=
  (List.range numAccounts).foldl (fun entries id =>
    sortBySlot slotOf entries (offsets.getD id 0) (offsets.getD (id + 1) 0)) entries

/-- The entries of the account `id`. -/
def entriesOf {α : Type} (grouped : List α × List Nat) (id : Nat) : List α :=
  slice grouped.1 (grouped.2.getD id 0) (grouped.2.getD (id + 1) 0)

/-- The last phase for one account. -/
def accountChanges (sChanges : List FlatStorageChange × List Nat)
    (sReads : List FlatStorageRead × List Nat) (bChanges : List FlatBalanceChange × List Nat)
    (nChanges : List FlatNonceChange × List Nat) (cChanges : List FlatCodeChange × List Nat)
    (acc : Address) (id : Nat) : Except Defect AccountChanges := do
  let writes := entriesOf sChanges id
  let storageChanges ← fill (countSlots writes) (slotChangesOf writes)
  let codes := entriesOf cChanges id
  let codeChanges ← fill (countDistinctIndices (·.index) codes)
    (collapseByIndex (·.index) (·.value) codes)
  return {
    address := acc
    storageChanges
    storageReads := storageReadsOf (entriesOf sReads id) storageChanges
    balanceChanges := collapseByIndex (·.index) (·.value) (entriesOf bChanges id)
    nonceChanges := collapseByIndex (·.index) (·.value) (entriesOf nChanges id)
    codeChanges }

def buildBlockAccessList [AddressHash] (builder : BlockAccessListBuilder) :
    Except Defect BlockAccessList := do
  let totA := (builder.perIndex.map fun d => d.accounts.length).sum
  let flat ← Flat.addIndices { accounts := AccountIds.init totA } 0 builder.perIndex
  let numAccounts := flat.accounts.addresses.length
  let (sChanges, sOff) := groupByAccount (·.acct) flat.sFlat numAccounts
  let (sReads, rOff) := groupByAccount (·.acct) flat.rFlat numAccounts
  let bChanges := groupByAccount (·.acct) flat.bFlat numAccounts
  let nChanges := groupByAccount (·.acct) flat.nFlat numAccounts
  let cChanges := groupByAccount (·.acct) flat.cFlat numAccounts
  let sChanges := sortSlots (·.slot) numAccounts sChanges sOff
  let sReads := sortSlots (·.slot) numAccounts sReads rOff
  let order := sortByAddress (flat.accounts.addresses.zipIdx.map fun (a, id) => ⟨a, id⟩)
  let accounts ← order.mapM fun o =>
    accountChanges (sChanges, sOff) (sReads, rOff) bChanges nChanges cChanges o.address o.id
  fill numAccounts accounts

end Nimbus.Native.BalBuilder

/-!
## Validation of a block access list

Model of `validate` of `execution_chain/block_access_list/bal_validation.nim`. The hash of a list
is a parameter.
-/

namespace Nimbus.Native.BalBuilder

open Aristo (Hash32 UInt256)
open Evm (EIP7954_MAX_CODE_SIZE)
open Interpreter (isDelegation)

def BAL_ITEM_COST : Nat := 2000

def checkCodeChange (newCode : List UInt8) : Except String Unit :=
  if newCode.length > EIP7954_MAX_CODE_SIZE then
    .error "Code change exceeds the maximum contract code size"
  else if newCode.head? = some 0xEF ∧ ¬ isDelegation newCode then
    .error "Code change starting with 0xEF must be a valid EIP-7702 delegation (EIP-3541)"
  else .ok ()

def checkBalSize (bal : BlockAccessList) (blockGasLimit : Nat) : Except String Unit :=
  let storageKeysCount :=
    (bal.map fun changes => changes.storageChanges.length + changes.storageReads.length).sum
  let balItemCount := bal.length + storageKeysCount
  if balItemCount ≤ blockGasLimit / BAL_ITEM_COST then .ok ()
  else .error "BAL exceeds max items cap"

/-- `isSorted` with a comparison that treats equal as greater. -/
def isSorted {α : Type} (lt : α → α → Bool) : List α → Bool
  | x :: y :: l => lt x y && isSorted lt (y :: l)
  | _ => true

def accChangesLt (x y : AccountChanges) : Bool := decide (x.address.toList < y.address.toList)

def slotChangesLt (x y : SlotChanges) : Bool := decide (x.slot < y.slot)

def storageKeyLt (x y : StorageKey) : Bool := decide (x < y)

def balIndexLt {V : Type} (x y : Change V) : Bool :=
  decide (x.blockAccessIndex < y.blockAccessIndex)

/-- The checks of one slot's changes. -/
def checkSlotChanges (slotChanges : SlotChanges) : Except String Unit :=
  if slotChanges.changes.length = 0 then
    .error "Each slot in storage changes must have at least one change"
  else if !isSorted balIndexLt slotChanges.changes then
    .error "Slot changes should be unique and sorted by blockAccessIndex"
  else .ok ()

/-- The loop body of `validate`, for one account. -/
def checkAccountChanges (accountChanges : AccountChanges) : Except String Unit := do
  if !isSorted slotChangesLt accountChanges.storageChanges then
    throw "Storage changes slots should be unique and sorted lexicographically"
  accountChanges.storageChanges.forM checkSlotChanges
  let changedSlots := accountChanges.storageChanges.map (·.slot)
  accountChanges.storageReads.forM fun slot =>
    if slot ∈ changedSlots then .error "A slot should not be in both changes and reads"
    else .ok ()
  if !isSorted storageKeyLt accountChanges.storageReads then
    throw "Storage reads should be unique and sorted lexicographically"
  if !isSorted balIndexLt accountChanges.balanceChanges then
    throw "Balance changes should be unique and sorted by blockAccessIndex"
  if !isSorted balIndexLt accountChanges.nonceChanges then
    throw "Nonce changes should be unique and sorted by blockAccessIndex"
  if !isSorted balIndexLt accountChanges.codeChanges then
    throw "Code changes should be unique and sorted by blockAccessIndex"
  accountChanges.codeChanges.forM fun codeChange => checkCodeChange codeChange.value

/-- The list is structurally correct and matches the expected hash. -/
def validate (computeBlockAccessListHash : BlockAccessList → Hash32) (bal : BlockAccessList)
    (expectedHash : Hash32) (blockGasLimit : Nat) : Except String Unit := do
  checkBalSize bal blockGasLimit
  if !isSorted accChangesLt bal then
    throw "Addresses should be unique and sorted lexicographically"
  bal.forM checkAccountChanges
  if computeBlockAccessListHash bal ≠ expectedHash then
    throw "Computed block access list hash does not match the expected hash"

end Nimbus.Native.BalBuilder
