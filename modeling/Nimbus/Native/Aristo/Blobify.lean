import Nimbus.ForStd.BigEndian
import Nimbus.ForStd.Reader
import Nimbus.Native.CoreDb

/-!
# Vertices and vertex identifiers as bytes

Model of `execution_chain/db/aristo/aristo_blobify.nim`. Numbers are written without their
leading zeros. A decoder returns a value or an error, or it comes to a defect: an index out of
bounds, or a slice of a negative length. The hex prefix encoding of a path is outside of the
repository, and a parameter here.
-/

namespace Nimbus.Native.Aristo

open BigEndian

/-- The part of `NibblesBuf` that writes a path to bytes and reads it from any bytes. -/
class HexPrefix where
  toHexPrefix : NibblesBuf → Bool → List UInt8
  fromHexPrefix : List UInt8 → Bool × NibblesBuf

export HexPrefix (toHexPrefix fromHexPrefix)

def MAX_VERTEX_BLOB_SIZE : Nat := 118

inductive DeblobError where
  | Deblob64LenUnsupported
  | Deblob256LenUnsupported
  | DeblobRVidLenUnsupported
  | DeblobVtxTooShort
  | DeblobStoHintUnsupported
  | DeblobCodeLenUnsupported
  | DeblobUnknown
  | DeblobBranchTooShort
  | DeblobTxFrameTruncated
  | DeblobTxFrameVersion
  deriving DecidableEq

/-- What a decoder must not come to. -/
inductive BlobDefect where
  | indexOutOfBounds
  | negativeLength
  deriving DecidableEq

inductive DeblobStop where
  | err (error : DeblobError)
  | defect (defect : BlobDefect)
  deriving DecidableEq

abbrev Deblob := Except DeblobStop

/-! ## Bytes of an open array -/

/-- `data[i]` -/
def byteAt (data : List UInt8) (i : Int) : Deblob UInt8 :=
  if 0 ≤ i ∧ i < data.length then .ok (data.getD i.toNat 0)
  else .error (.defect .indexOutOfBounds)

/-- `data.toOpenArray(first, last)`. With a `last` just before `first` there are no bytes, and the
bounds are not looked at. With a `last` that is smaller still the length is negative, which the
check of the bounds does not see. -/
def toOpenArray (data : List UInt8) (first last : Int) : Deblob (List UInt8) :=
  if last + 1 = first then .ok []
  else if first < 0 ∨ data.length ≤ first ∨ last < 0 ∨ data.length ≤ last then
    .error (.defect .indexOutOfBounds)
  else if last < first then .error (.defect .negativeLength)
  else .ok ((data.drop first.toNat).take (last + 1 - first).toNat)

/-! ## Numbers -/

def significantBytesBE : List UInt8 → Nat
  | [] => 1
  | b :: val => if b ≠ 0 then val.length + 1 else significantBytesBE val

/-- `v.blobify().data()` for a number of `size` bytes. -/
def blobifyNumber (size v : Nat) : List UInt8 :=
  let b := toBytes size v
  b.drop (b.length - significantBytesBE b)

/-- `deblobify` for a `uint64` or a `VertexID`. -/
def deblobify64 (data : List UInt8) : Deblob Nat :=
  if data.length < 1 ∨ data.length > 8 then .error (.err .Deblob64LenUnsupported)
  else
    let start := 8 - data.length
    .ok ((List.range data.length).foldl
      (fun tmp i => tmp + (data.getD i 0).toNat * 2 ^ (8 * (7 - (i + start)))) 0)

def deblobify256 (data : List UInt8) : Deblob UInt256 :=
  if data.length < 1 ∨ data.length > 32 then .error (.err .Deblob256LenUnsupported)
  else .ok (BitVec.ofNat 256 (ofBytes data))

/-! ## Rooted vertex identifiers -/

def RootedVertexID.blobify (rvid : RootedVertexID) : List UInt8 :=
  let root := blobifyNumber 8 rvid.root
  if rvid.root = rvid.vid then UInt8.ofNat root.length :: root
  else
    -- the length of the `vid` follows from the total length
    UInt8.ofNat root.length :: (root ++ blobifyNumber 8 rvid.vid)

def RootedVertexID.deblobify (data : List UInt8) : Deblob RootedVertexID := do
  -- the length is read before it is known that there is one
  let rlen ← byteAt data 0
  if data.length < 2 then throw (.err .DeblobRVidLenUnsupported)
  else if data.length < rlen.toNat + 1 then throw (.err .DeblobRVidLenUnsupported)
  else
    let root ← toOpenArray data 1 rlen.toNat >>= deblobify64
    let vid ← (if data.length > rlen.toNat + 1 then
        toOpenArray data (rlen.toNat + 1) (data.length - 1) >>= deblobify64
      else pure root : Deblob VertexID)
    return ⟨root, vid⟩

/-! ## Writing vertices -/

section
variable [HexPrefix] [Keccak]

/-- The fields of an account leaf that are written so far. -/
structure AccFields where
  lens : Nat := 0
  mask : UInt8 := 0
  data : List UInt8 := []

/-- Writes a field unless it has its default. Where its length varies, one less than the length
goes into the bits of `lens` from `shift` on. -/
def AccFields.put (fields : AccFields) (present : Bool) (bit : UInt8) (shift : Option Nat)
    (bytes : List UInt8) : AccFields :=
  if present then
    { lens := match shift with
        | some shift => fields.lens + (bytes.length - 1) <<< shift
        | none => fields.lens
      mask := fields.mask ||| bit
      data := fields.data ++ bytes }
  else fields

def AccLeaf.blobifyTo (pyl : AccLeaf) : List UInt8 :=
  let fields : AccFields := {}
  let fields := fields.put (0 < pyl.account.nonce) 0x01 (some 0) -- 3 bits
    (blobifyNumber 8 pyl.account.nonce.toNat)
  let fields := fields.put (0 < pyl.account.balance) 0x02 (some 3) -- 5 bits
    (blobifyNumber 32 pyl.account.balance.toNat)
  let fields := fields.put pyl.stoID.isValid 0x04 (some 8) -- 3 bits
    (blobifyNumber 8 pyl.stoID.vid)
  let fields := fields.put (0 < pyl.stoHint) 0x10 none [UInt8.ofNat pyl.stoHint]
  let fields := fields.put (pyl.account.codeHash ≠ EMPTY_CODE_HASH) 0x08 none
    pyl.account.codeHash.toList
  fields.data ++ toBytes 2 fields.lens ++ [fields.mask]

def StoLeaf.blobifyTo (pyl : StoLeaf) : List UInt8 :=
  blobifyNumber 32 pyl.stoData.toNat ++ [0x20]

/-- The path and the last byte: two bits for the kind, and the length of the path. -/
def writePfx (pfx : NibblesBuf) (isLeaf : Bool) (bits : UInt8) : List UInt8 :=
  let pSegm := toHexPrefix pfx isLeaf
  pSegm ++ [bits <<< 6 ||| UInt8.ofNat pSegm.length]

/-- The key that a branch record begins with. Shorter keys can be loaded from the vertex. -/
def branchKey (key : HashKey) : List UInt8 × UInt8 :=
  if key.isValid ∧ key.len = 32 then (key.data, 0b10) else ([], 0b00)

def Vertex.blobifyTo (vtx : Vertex) (key : HashKey) : Except Defect (List UInt8) :=
  match vtx with
  | .BoundaryNode _ => .error .boundaryNode
  | .Branch startVid used =>
    let (keyData, bits) := branchKey key
    .ok (keyData ++ blobifyNumber 8 startVid ++ toBytes 2 used.toNat ++ [bits <<< 6])
  | .ExtBranch pfx startVid used =>
    let (keyData, bits) := branchKey key
    .ok (keyData ++ blobifyNumber 8 startVid ++ toBytes 2 used.toNat ++ writePfx pfx false bits)
  | .AccLeaf leaf => .ok (leaf.blobifyTo ++ writePfx leaf.pfx true 0b01)
  | .StoLeaf leaf => .ok (leaf.blobifyTo ++ writePfx leaf.pfx true 0b01)

/-! ## Reading vertices -/

/-- Reads from a position on. -/
abbrev Load := StateT Nat Deblob

section
variable (data : List UInt8)

def load64 (len : Int) : Load Nat := fun start =>
  if data.length < start + len then throw (.err .Deblob256LenUnsupported)
  else do
    let val ← toOpenArray data start (start + len - 1) >>= deblobify64
    return (val, (start + len).toNat)

def load256 (len : Int) : Load UInt256 := fun start =>
  if data.length < start + len then throw (.err .Deblob256LenUnsupported)
  else do
    let val ← toOpenArray data start (start + len - 1) >>= deblobify256
    return (val, (start + len).toNat)

def loadStoHint : Load (Fin (STATIC_VID_LEVELS + 2)) := fun start =>
  if data.length < start + 1 then throw (.err .DeblobVtxTooShort)
  else do
    let hint ← byteAt data start
    if h : hint.toNat < STATIC_VID_LEVELS + 2 then return (⟨hint.toNat, h⟩, start + 1)
    else throw (.err .DeblobStoHintUnsupported)

def loadCodeHash : Load Hash32 := fun start =>
  if data.length < start + 32 then throw (.err .DeblobCodeLenUnsupported)
  else do
    let bytes ← toOpenArray data start (start + 31)
    return (Vector.ofFn fun i => bytes.getD i 0, start)

/-- Loads a field if its bit of the mask is set. -/
def ifSet {α : Type} (mask bit : UInt8) (load : Load α) (default : α) : Load α :=
  if mask &&& bit > 0 then load else pure default

/-- The fields of an account. -/
def loadAccount (mask : UInt8) (lens : Nat) (pfx : NibblesBuf) : Load Vertex := do
  let nonce ← ifSet mask 0x01 (load64 data (↑(lens &&& 0b111) + 1)) 0
  let balance ← ifSet mask 0x02 (load256 data (↑(lens >>> 3 &&& 0b11111) + 1)) 0
  let stoID ← ifSet mask 0x04
    (StorageID.mk true <$> load64 data (↑(lens >>> 8 &&& 0b111) + 1)) {}
  let stoHint ← ifSet mask 0x10 (loadStoHint data) 0
  let codeHash ← ifSet mask 0x08 (loadCodeHash data) EMPTY_CODE_HASH
  return .AccLeaf
    { pfx, account := { nonce := UInt64.ofNat nonce, balance, codeHash }, stoID, stoHint }

def deblobifyLeaf (pfx : NibblesBuf) : Deblob Vertex :=
  if data.length = 0 then throw (.err .DeblobVtxTooShort)
  else do
    let mask ← byteAt data (data.length - 1)
    if mask &&& 0x20 > 0 then -- slot storage data
      let stoData ← toOpenArray data 0 (data.length - 2) >>= deblobify256
      return .StoLeaf { pfx, stoData }
    else if mask &&& 0xe0 = 0 then -- only account fields set
      let lens ← toOpenArray data (data.length - 3) (data.length - 2)
      let (vtx, _) ← (loadAccount data mask (ofBytes lens) pfx).run 0
      return vtx
    else throw (.err .DeblobUnknown)

end

inductive VertexType where
  | AccLeaf
  | StoLeaf
  | Branch
  | ExtBranch
  | BoundaryNode
  deriving DecidableEq

def Vertex.vType : Vertex → VertexType
  | .AccLeaf _ => .AccLeaf
  | .StoLeaf _ => .StoLeaf
  | .Branch .. => .Branch
  | .ExtBranch .. => .ExtBranch
  | .BoundaryNode _ => .BoundaryNode

section
variable (record : List UInt8)

/-- `deblobifyType` -/
def VertexType.deblobify : Deblob VertexType :=
  if record.length < 3 then throw (.err .DeblobVtxTooShort) -- minimum `Leaf` record
  else do
    let last ← byteAt record (record.length - 1)
    let isLeaf := last >>> 6 &&& 0b01 > 0
    let psLen : Int := (last &&& 0b00111111).toNat
    let psPos := record.length - psLen - 1
    if isLeaf then
      let mask ← byteAt record (psPos - 1)
      return if mask &&& 0x20 > 0 then .StoLeaf else .AccLeaf
    else return if psLen > 0 then .ExtBranch else .Branch

/-- The branch of `deblobify` for a record that is not a leaf. -/
def deblobifyBranch (start : Nat) (psPos : Int) (pathSegment : NibblesBuf) : Deblob Vertex := do
  let svLen := psPos - start - 2
  let (startVid, pos) ← (load64 record svLen).run start
  let used ← toOpenArray record pos (pos + 1)
  if pathSegment.length > 0 then
    return .ExtBranch pathSegment startVid (BitVec.ofNat 16 (ofBytes used))
  else return .Branch startVid (BitVec.ofNat 16 (ofBytes used))

def Vertex.deblobify : Deblob Vertex :=
  if record.length < 3 then throw (.err .DeblobVtxTooShort) -- minimum `Leaf` record
  else do
    let last ← byteAt record (record.length - 1)
    let bits := last >>> 6
    let isLeaf := bits &&& 0b01 > 0
    let hasKey := bits &&& 0b10 > 0
    let psLen : Int := (last &&& 0b00111111).toNat
    let start : Nat := if hasKey then 32 else 0
    if psLen > record.length - 2 ∨ start > record.length - 2 - psLen then
      throw (.err .DeblobBranchTooShort)
    else
      let psPos := record.length - psLen - 1
      let path ← toOpenArray record psPos (record.length - 2)
      let (_, pathSegment) := fromHexPrefix path
      if isLeaf then toOpenArray record start (psPos - 1) >>= (deblobifyLeaf · pathSegment)
      else deblobifyBranch record start psPos pathSegment

end

end

/-- `fromBytes`: the bytes of a hash, nothing, or the encoding of a short node. -/
def HashKey.fromBytes (data : List UInt8) : Option HashKey :=
  if h : data.length ≤ 32 then
    if data.length = 32 ∨ data.length = 0 ∨
        (1 < data.length ∧ (data.getD 0 0).toNat = 0xbf + data.length) then some ⟨data, h⟩
    else none
  else none

/-- `deblobify` for a `HashKey` -/
def HashKey.deblobify (record : List UInt8) : Deblob (Option HashKey) :=
  if record.length > 33 then do
    let last ← byteAt record (record.length - 1)
    if last >>> 6 &&& 0b10 > 0 then HashKey.fromBytes <$> toOpenArray record 0 31
    else return none
  else return none

end Nimbus.Native.Aristo

/-!
## Transaction frames from bytes

Model of `deblobifyTxFrame` in `execution_chain/db/aristo/aristo_tx_blobify.nim`. A frame has a
header and three tables, and each table begins with the number of its entries. The capacity that
a table starts with is left out.
-/

namespace Nimbus.Native.Aristo

open BigEndian Reader

def TX_FRAME_VERSION : UInt8 := 0x01

structure TxFrameData where
  vTop : VertexID
  blockNumber : Option Nat
  sTab : Table RootedVertexID VertexRef := ∅
  kMap : Table RootedVertexID HashKey := ∅
  accLeaves : Table Hash32 AccLeafRef := ∅
  stoLeaves : Table Hash32 StoLeafRef := ∅

section
variable (data : List UInt8)

def readU8 : Load UInt8 := fun pos =>
  if pos ≥ data.length then throw (.err .DeblobTxFrameTruncated)
  else do
    let v ← byteAt data pos
    return (v, pos + 1)

/-- The next `len` bytes. For none of them the bound is the position before. -/
def readBytes (len : Nat) : Load (List UInt8) := fun pos =>
  if (pos : Int) + len - 1 ≥ data.length then throw (.err .DeblobTxFrameTruncated)
  else do
    let bytes ← toOpenArray data pos (pos + len - 1)
    return (bytes, pos + len)

def readU16BE : Load Nat := do return ofBytes (← readBytes data 2)

def readU32BE : Load Nat := do return ofBytes (← readBytes data 4)

def readU64BE : Load Nat := do return ofBytes (← readBytes data 8)

/-- The bytes of a vertex, with their number in front. -/
def readBlob : Load (List UInt8) := do
  let blobLen ← readU16BE data
  readBytes data blobLen

/-- A rooted vertex identifier, with its length in front. -/
def readRVid : Load RootedVertexID := do
  let rvidLen ← readU8 data
  let rvidBlob ← readBytes data rvidLen.toNat
  RootedVertexID.deblobify rvidBlob

/-- The number of the entries of a table, and the entries. -/
def readTable {α : Type} (readEntry : α → Load α) (table : α) : Load α := do
  let count ← readU32BE data
  iterate readEntry count table

def readHeader : Load TxFrameData := do
  let version ← readU8 data
  if version ≠ TX_FRAME_VERSION then throw (.err .DeblobTxFrameVersion)
  else
    let vTop ← readU64BE data
    let bnFlag ← readU8 data
    let bnVal ← readU64BE data
    return { vTop, blockNumber := if bnFlag ≠ 0 then some bnVal else none }

section
variable [HexPrefix] [Keccak]

/-- An entry of `sTab`, and of `kMap` where the blob holds a key. -/
def readStEntry (res : TxFrameData) : Load TxFrameData := do
  let rvid ← readRVid data
  let present ← readU8 data
  if present = 0x00 then return { res with sTab := res.sTab.insert rvid none }
  else
    let blob ← readBlob data
    let vtx ← Vertex.deblobify blob
    let key ← HashKey.deblobify blob
    return { res with
      sTab := res.sTab.insert rvid (some vtx)
      kMap := match key with
        | some value => res.kMap.insert rvid value
        | none => res.kMap }

/-- An entry of a table of leaves. Other vertices are refused. -/
def readLeafEntry {α : Type} (leaf? : Vertex → Option α) (leaves : Table Hash32 (Option α)) :
    Load (Table Hash32 (Option α)) := do
  let path ← readBytes data 32
  let h : Hash32 := Vector.ofFn fun i => path.getD i 0
  let present ← readU8 data
  if present = 0x00 then return leaves.insert h none
  else
    let blob ← readBlob data
    let vtx ← Vertex.deblobify blob
    match leaf? vtx with
    | some leaf => return leaves.insert h (some leaf)
    | none => throw (.err .DeblobUnknown)

def accLeaf? : Vertex → Option AccLeaf
  | .AccLeaf leaf => some leaf
  | _ => none

def stoLeaf? : Vertex → Option StoLeaf
  | .StoLeaf leaf => some leaf
  | _ => none

def readTxFrame : Load TxFrameData := do
  let header ← readHeader data
  let res ← readTable data (readStEntry data) header
  let accLeaves ← readTable data (readLeafEntry data accLeaf?) ∅
  let stoLeaves ← readTable data (readLeafEntry data stoLeaf?) ∅
  return { res with accLeaves, stoLeaves }

def deblobifyTxFrame : Deblob TxFrameData := do
  let (res, _) ← (readTxFrame data).run 0
  return res

end

end

end Nimbus.Native.Aristo
