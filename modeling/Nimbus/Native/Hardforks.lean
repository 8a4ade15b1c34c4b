import Nimbus.ForStd.BigEndian

/-!
# Fork ids

A node tells its peers which forks of the chain it has passed, as a checksum over the genesis
block and the activations of these forks, and when the next fork that it knows activates. The
calculator has the forks of the chain configuration, first those by block number and then those
by time, and the fork ids of the whole history.

Block numbers and times have 64 bits and are plain numbers here. The four bytes of a fork hash
are the checksum as a big-endian number, they stay a number too.
-/

namespace Nimbus.Native.Hardforks

open Nimbus

/-! ## Checksums -/

def kcrc32 : Vector UInt32 16 :=
  #v[0, 0x1db71064, 0x3b6e20c8, 0x26d930ac, 0x76dc4190, 0x6b6b51f4, 0x4db26158, 0x5005713c,
    0xedb88320, 0xf00f9344, 0xd6d6a3e8, 0xcb61b38c, 0x9b64c2b0, 0x86d3d2d4, 0xa00ae278, 0xbdbdf21c]

/-- A step of the checksum, over four bits. -/
def crcNibble (crcu32 nibble : UInt32) : UInt32 :=
  (crcu32 >>> 4) ^^^ kcrc32.getD ((crcu32 &&& 0xF) ^^^ nibble).toNat 0

def crc32 (crc : UInt32) (buf : List UInt8) : UInt32 :=
  ~~~ buf.foldl (fun crcu32 (b : UInt8) =>
    crcNibble (crcNibble crcu32 (b.toUInt32 &&& 0xF)) (b.toUInt32 >>> 4)) (~~~ crc)

/-! ## Chain configurations -/

/-- The activations in a chain configuration, in the order of the fields of the source. -/
structure ChainConfig where
  homesteadBlock : Option Nat := none
  daoForkBlock : Option Nat := none
  daoForkSupport : Bool := false
  eip150Block : Option Nat := none
  eip155Block : Option Nat := none
  eip158Block : Option Nat := none
  byzantiumBlock : Option Nat := none
  constantinopleBlock : Option Nat := none
  petersburgBlock : Option Nat := none
  istanbulBlock : Option Nat := none
  muirGlacierBlock : Option Nat := none
  berlinBlock : Option Nat := none
  londonBlock : Option Nat := none
  arrowGlacierBlock : Option Nat := none
  grayGlacierBlock : Option Nat := none
  posBlock : Option Nat := none
  mergeNetsplitBlock : Option Nat := none
  shanghaiTime : Option Nat := none
  cancunTime : Option Nat := none
  pragueTime : Option Nat := none
  osakaTime : Option Nat := none
  bpo1Time : Option Nat := none
  bpo2Time : Option Nat := none
  bpo3Time : Option Nat := none
  bpo4Time : Option Nat := none
  bpo5Time : Option Nat := none
  amsterdamTime : Option Nat := none
  bogotaTime : Option Nat := none

variable (conf : ChainConfig)

/-- The values of the fields whose names end in `Block`. -/
def forkBlockField : List (Option Nat) :=
  [conf.homesteadBlock, conf.daoForkBlock, conf.eip150Block, conf.eip155Block, conf.eip158Block,
    conf.byzantiumBlock, conf.constantinopleBlock, conf.petersburgBlock, conf.istanbulBlock,
    conf.muirGlacierBlock, conf.berlinBlock, conf.londonBlock, conf.arrowGlacierBlock,
    conf.grayGlacierBlock, conf.posBlock, conf.mergeNetsplitBlock]

/-- The values of the fields whose names end in `Time`. -/
def forkTimeField : List (Option Nat) :=
  [conf.shanghaiTime, conf.cancunTime, conf.pragueTime, conf.osakaTime, conf.bpo1Time,
    conf.bpo2Time, conf.bpo3Time, conf.bpo4Time, conf.bpo5Time, conf.amsterdamTime,
    conf.bogotaTime]

/-- The loop over the fields of one kind, `last` is the last fork that was set. -/
def checkForkOrder (last : Option Nat) : List (Option Nat) → Bool
  | [] => true
  | none :: rest => checkForkOrder last rest
  | some cur :: rest =>
    match last with
    | none => checkForkOrder (some cur) rest
    | some number => if number > cur then false else checkForkOrder (some cur) rest

def validateChainConfig : Bool :=
  checkForkOrder conf.homesteadBlock (forkBlockField conf).tail &&
    checkForkOrder conf.shanghaiTime (forkTimeField conf).tail

/-- Run on the configuration before the tables are made of it. -/
def daoCheck : ChainConfig :=
  let conf := if ¬ conf.daoForkSupport ∨ conf.daoForkBlock.isNone then
    { conf with daoForkBlock := conf.homesteadBlock } else conf
  if conf.daoForkSupport ∧ conf.daoForkBlock.isNone then
    { conf with daoForkBlock := conf.homesteadBlock } else conf

/-- The activations by fork: from Frontier to Gray Glacier, and from Shanghai on. -/
structure ForkTransitionTable where
  blockNumberThresholds : List (Option Nat)
  mergeNetsplitBlock : Option Nat
  timeThresholds : List (Option Nat)

def toForkTransitionTable : ForkTransitionTable where
  blockNumberThresholds :=
    [some 0, conf.homesteadBlock, conf.daoForkBlock, conf.eip150Block, conf.eip158Block,
      conf.byzantiumBlock, conf.constantinopleBlock, conf.petersburgBlock, conf.istanbulBlock,
      conf.muirGlacierBlock, conf.berlinBlock, conf.londonBlock, conf.arrowGlacierBlock,
      conf.grayGlacierBlock]
  mergeNetsplitBlock := conf.mergeNetsplitBlock
  timeThresholds :=
    [conf.shanghaiTime, conf.cancunTime, conf.pragueTime, conf.osakaTime, conf.bpo1Time,
      conf.bpo2Time, conf.bpo3Time, conf.bpo4Time, conf.bpo5Time, conf.amsterdamTime,
      conf.bogotaTime]

/-! ## The calculator -/

structure ForkId where
  hash : UInt32
  next : Nat

structure ForkIdCalculator where
  byBlock : List Nat
  byTime : List Nat
  genesisCRC : UInt32
  forkHistory : List ForkId

def toBytesBE (fork : Nat) : List UInt8 := BigEndian.toBytes 8 fork

/-- The loop over one kind of forks, the fork id of the first one that is to come ends it. -/
def passForks (head : Nat) : List Nat → UInt32 → Except ForkId UInt32
  | [], crc => .ok crc
  | fork :: rest, crc =>
    if fork ≤ head then
      -- fork already passed, checksum the previous crc and the fork
      passForks head rest (crc32 crc (toBytesBE fork))
    else .error { hash := crc, next := fork }

def ForkIdCalculator.calculateForkId (calculator : ForkIdCalculator) (head time : Nat) : ForkId :=
  match passForks head calculator.byBlock calculator.genesisCRC with
  | .error forkId => forkId
  | .ok crc =>
    match passForks time calculator.byTime crc with
    | .error forkId => forkId
    | .ok crc => { hash := crc, next := 0 }

/-- The position of the first entry of the history with the hash of a fork id. -/
def ForkIdCalculator.forkPos (calculator : ForkIdCalculator) (localId : ForkId) : Int :=
  match calculator.forkHistory.findIdx? fun historicalId => localId.hash == historicalId.hash with
  | some i => i
  | none => -1

/-- The loop over the history for a remote at another fork, `i` is the position in it. -/
def checkHistory (forkId : ForkId) (localForkPos : Int) : List ForkId → Nat → Bool
  | [], _ => false
  | historicalId :: rest, i =>
    if forkId.hash = historicalId.hash then
      if (i : Int) > localForkPos then true
      else forkId.next = historicalId.next
    else checkHistory forkId localForkPos rest (i + 1)

def ForkIdCalculator.compatible (calculator : ForkIdCalculator) (forkId : ForkId)
    (number time : Nat) : Bool :=
  let localId := calculator.calculateForkId number time
  let localForkPos := calculator.forkPos localId
  let head :=
    if localForkPos ≥ calculator.byBlock.length ∧ calculator.byTime.length > 0 then time else number
  if forkId.hash = localId.hash then
    if forkId.next ≠ 0 then
      if head ≥ forkId.next then false else true
    else true
  else checkHistory forkId localForkPos calculator.forkHistory 0

/-- Adds an activation to the forks unless the last fork activates there too. -/
def addFork (forks : List Nat) (val : Option Nat) : List Nat :=
  match val with
  | none => forks
  | some val64 =>
    match forks.getLast? with
    | none => forks ++ [val64]
    | some last => if last ≠ val64 then forks ++ [val64] else forks

def addHistory (history : List ForkId × UInt32) (fork : Nat) : List ForkId × UInt32 :=
  (history.1 ++ [{ hash := history.2, next := fork }], crc32 history.2 (toBytesBE fork))

def ForkIdCalculator.init (map : ForkTransitionTable) (genesisCRC : UInt32) (genesisTime : Nat) :
    ForkIdCalculator :=
  let forksByBlock := addFork (map.blockNumberThresholds.foldl addFork []) map.mergeNetsplitBlock
  -- any fork in block 0 is the genesis ruleset
  let forksByBlock := if forksByBlock.head? = some 0 then forksByBlock.tail else forksByBlock
  let forksByTime := map.timeThresholds.foldl addFork []
  let forksByTime := forksByTime.dropWhile fun fork => fork ≤ genesisTime
  let history := forksByTime.foldl addHistory (forksByBlock.foldl addHistory ([], genesisCRC))
  { byBlock := forksByBlock
    byTime := forksByTime
    genesisCRC
    forkHistory := history.1 ++ [{ hash := history.2, next := 0 }] }

end Nimbus.Native.Hardforks
