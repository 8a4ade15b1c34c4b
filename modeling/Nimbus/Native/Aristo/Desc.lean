import Mathlib.Algebra.GroupWithZero.Nat
import Nimbus.ForStd.Table

/-!
# Identifiers, vertices and database records of the Aristo trie

Model of `execution_chain/db/aristo/aristo_desc/desc_identifiers.nim`,
`desc_structural.nim`, `aristo_constants.nim` and of the record format of
`aristo_blobify.nim`. Reference objects that the code only reads are values here; a nil
reference is `none`. A function that changes an object in place returns the changed value.
-/

namespace Nimbus.Native.Aristo

/-- A `uint64` that is handed out once and never recycled. -/
abbrev VertexID := Nat

structure RootedVertexID where
  root : VertexID
  vid : VertexID
  deriving DecidableEq

abbrev NibblesBuf := List (Fin 16)

abbrev Hash32 := Vector UInt8 32

instance neZeroHash : NeZero 32 := ⟨by decide⟩

instance neZeroNibble : NeZero 16 := ⟨by decide⟩

abbrev UInt256 := BitVec 256

/-- A node link: a hash of 32 bytes, the encoding of a shorter node, or void. -/
structure HashKey where
  data : List UInt8
  len_le : data.length ≤ 32
  deriving DecidableEq

def VOID_HASH_KEY : HashKey := ⟨[], by decide⟩

def HashKey.len (key : HashKey) : Nat := key.data.length

def HashKey.isValid (key : HashKey) : Bool := 0 < key.len

def STATIC_VID_LEVELS : Nat := 8

instance (priority := 1100) neZeroStoHint : NeZero (STATIC_VID_LEVELS + 2) := ⟨by decide⟩

structure AristoAccount where
  nonce : UInt64
  balance : UInt256
  codeHash : Hash32
  deriving DecidableEq

/-- The root of a storage trie. The identifier of a deleted trie stays for re-use, with
`isValid` off. -/
structure StorageID where
  isValid : Bool := false
  vid : VertexID := 0
  deriving DecidableEq

structure AccLeaf where
  pfx : NibblesBuf
  account : AristoAccount
  stoID : StorageID := {}
  /-- one more than the static level to start probing slot leaves at -/
  stoHint : Fin (STATIC_VID_LEVELS + 2) := 0
  deriving DecidableEq

structure StoLeaf where
  pfx : NibblesBuf
  stoData : UInt256
  deriving DecidableEq

structure BoundaryNode where
  pfx : NibblesBuf
  childKey : HashKey
  deriving DecidableEq

/-- The object behind a `VertexRef`, with its `VertexType` as the constructor. -/
inductive Vertex where
  | AccLeaf (leaf : AccLeaf)
  | StoLeaf (leaf : StoLeaf)
  | Branch (startVid : VertexID) (used : BitVec 16)
  | ExtBranch (pfx : NibblesBuf) (startVid : VertexID) (used : BitVec 16)
  | BoundaryNode (node : BoundaryNode)
  deriving DecidableEq

abbrev VertexRef := Option Vertex
abbrev AccLeafRef := Option AccLeaf
abbrev StoLeafRef := Option StoLeaf

/-- `vType in Branches` -/
def Vertex.isBranch : Vertex → Bool
  | .Branch .. | .ExtBranch .. => true
  | _ => false

def Vertex.isBoundaryNode : Vertex → Bool
  | .BoundaryNode _ => true
  | _ => false

/-- The value a leaf cache holds: `none` is the empty `CachedAccLeaf`. -/
structure CachedAccLeaf where
  account : AristoAccount
  stoID : StorageID
  stoHint : Fin (STATIC_VID_LEVELS + 2)
  pfxLen : Nat

def CachedAccLeaf.init (leaf : AccLeaf) : CachedAccLeaf :=
  ⟨leaf.account, leaf.stoID, leaf.stoHint, leaf.pfx.length⟩

structure CachedStoLeaf where
  stoData : UInt256
  pfxLen : Nat

def CachedStoLeaf.init (leaf : StoLeaf) : CachedStoLeaf :=
  ⟨leaf.stoData, leaf.pfx.length⟩

structure SavedState where
  vTop : VertexID := 0
  serial : Nat := 0

/-- Error results of the functions of this model, under the code's names. -/
inductive AristoError where
  | GetVtxNotFound
  | GetKeyNotFound

/-- The ways a call aborts the process. -/
inductive Defect where
  /-- `doAssert not txFrame.isDisposed()` -/
  | disposedFrame
  /-- "`checkpoint` before persisting frame" -/
  | missingCheckpoint
  /-- "BoundaryNode is stateless-only and must never be persisted" -/
  | boundaryNode
  /-- the snapshot queue is popped while it is empty -/
  | emptyQueue
  /-- one of the assertions about the frame stack -/
  | assertion
  deriving DecidableEq

/-! ## Database records -/

/-- What a record of `blobifyTo` holds. A branch record with an empty prefix is read back
as a branch without one, and the identifier of a deleted storage trie is not written. -/
inductive VtxBlob where
  | leafAcc (pfx : NibblesBuf) (account : AristoAccount) (stoID : Option VertexID)
      (stoHint : Fin (STATIC_VID_LEVELS + 2))
  | leafSto (pfx : NibblesBuf) (stoData : UInt256)
  | branch (key : Option HashKey) (startVid : VertexID) (used : BitVec 16)
      (pfx : NibblesBuf)

/-- The key part of a branch record: shorter keys can be loaded from the vertex. -/
def blobifyKey (key : HashKey) : Option HashKey :=
  if key.isValid && key.len == 32 then some key else none

def blobify (vtx : Vertex) (key : HashKey) : Except Defect VtxBlob :=
  match vtx with
  | .BoundaryNode _ => .error .boundaryNode
  | .Branch startVid used => .ok (.branch (blobifyKey key) startVid used [])
  | .ExtBranch pfx startVid used => .ok (.branch (blobifyKey key) startVid used pfx)
  | .AccLeaf leaf =>
    .ok (.leafAcc leaf.pfx leaf.account
      (if leaf.stoID.isValid then some leaf.stoID.vid else none) leaf.stoHint)
  | .StoLeaf leaf => .ok (.leafSto leaf.pfx leaf.stoData)

def VtxBlob.deblobify : VtxBlob → Vertex
  | .leafAcc pfx account stoID stoHint =>
    .AccLeaf ⟨pfx, account,
      match stoID with
      | some vid => ⟨true, vid⟩
      | none => {}, stoHint⟩
  | .leafSto pfx stoData => .StoLeaf ⟨pfx, stoData⟩
  | .branch _ startVid used pfx =>
    if pfx.length > 0 then .ExtBranch pfx startVid used else .Branch startVid used

end Nimbus.Native.Aristo
