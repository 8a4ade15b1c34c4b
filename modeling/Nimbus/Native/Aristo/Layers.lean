import Nimbus.ForStd.ParentTree
import Nimbus.Native.Aristo.Desc
import Mathlib.Algebra.Group.Int.Defs

/-!
# Delta layers of the Aristo database

Model of the descriptors in `execution_chain/db/aristo/aristo_desc.nim` and of the layer
functions in `aristo_layers.nim` and `aristo_get.nim`. The frames are a heap of objects:
an `AristoTxRef` is a number into it, and a later frame has a higher number. The backend
is the map from rooted vertex IDs to records that `memory_db.nim` and `rocks_db.nim`
serve.
-/

namespace Nimbus.Native.Aristo

abbrev AristoTxRef := Nat

structure VtxSnapshot where
  vtx : VertexRef
  key : HashKey
  level : Int

structure Snapshot where
  vtx : Table RootedVertexID VtxSnapshot := ∅
  acc : Table Hash32 (AccLeafRef × Int) := ∅
  sto : Table Hash32 (StoLeafRef × Int) := ∅
  /-- when this snapshot was taken -/
  level : Option Int := none

/-- `int.low` -/
def disposedLevel : Int := -(2 ^ 63)

def dbLevel : Int := -1

/-- A transaction frame. The default value is a frame after `reset()`: it has lost its
reference to the database descriptor. -/
structure AristoTx where
  db : Bool := false
  parent : Option AristoTxRef := none
  sTab : Table RootedVertexID VertexRef := ∅
  kMap : Table RootedVertexID HashKey := ∅
  vTop : VertexID := 0
  accLeaves : Table Hash32 AccLeafRef := ∅
  stoLeaves : Table Hash32 StoLeafRef := ∅
  blockNumber : Option Nat := none
  snapshot : Snapshot := {}
  level : Int := 0

/-- A bulk store session of the backend. A record of `none` deletes. -/
structure PutHdl where
  sTab : Table RootedVertexID (Option VtxBlob) := ∅
  lSst : Option SavedState := none

structure AristoDb where
  frames : AristoTxRef → AristoTx
  nextTx : Nat
  /-- bottom-most in-memory frame -/
  txRef : AristoTxRef
  /-- the members of the priority queue of frames with a snapshot -/
  snapshots : List AristoTxRef
  maxSnapshots : Nat
  /-- the records of the backend -/
  vtxTab : RootedVertexID → Option VtxBlob
  lSst : Option SavedState
  accLeaves : Table Hash32 CachedAccLeaf
  stoLeaves : Table Hash32 CachedStoLeaf

namespace AristoTx

variable (tx : AristoTx)

def isDisposed : Bool := tx.level == disposedLevel

/-- `isEmpty()`: all the tables are empty. -/
def isEmpty : Bool :=
  tx.snapshot.vtx.len == 0 && tx.snapshot.acc.len == 0 && tx.snapshot.sto.len == 0 &&
  tx.sTab.len == 0 && tx.kMap.len == 0 &&
  tx.accLeaves.len == 0 && tx.stoLeaves.len == 0

variable (rvid : RootedVertexID)

def layersPutVtx (vtx : VertexRef) : AristoTx :=
  { tx with
    sTab := tx.sTab.insert rvid vtx
    kMap := tx.kMap.erase rvid
    snapshot :=
      if tx.snapshot.level.isSome then
        { tx.snapshot with
          vtx := tx.snapshot.vtx.insert rvid ⟨vtx, VOID_HASH_KEY, tx.level⟩ }
      else tx.snapshot }

/-- `layersUpdate` together with the changes its caller then makes in place: `vtx` is the
vertex after them. -/
def layersUpdate (vtx : Vertex) : AristoTx :=
  { tx with
    sTab := tx.sTab.insert rvid (some vtx)
    kMap := if vtx.isBranch then tx.kMap.erase rvid else tx.kMap
    snapshot :=
      if tx.snapshot.level.isSome then
        { tx.snapshot with
          vtx := tx.snapshot.vtx.insert rvid ⟨some vtx, VOID_HASH_KEY, tx.level⟩ }
      else tx.snapshot }

/-- `layersPutKey`: the vertex is copied into the frame unless the frame holds it. -/
def layersPutKey (vtx : Vertex) (key : HashKey) : AristoTx :=
  { tx with
    sTab := if rvid ∈ tx.sTab then tx.sTab else tx.sTab.insert rvid (some vtx)
    kMap := tx.kMap.insert rvid key
    snapshot :=
      if tx.snapshot.level.isSome then
        { tx.snapshot with
          vtx := tx.snapshot.vtx.insert rvid ⟨some vtx, key, tx.level⟩ }
      else tx.snapshot }

/-- `layersMergeKey`: the vertex exists already. -/
def layersMergeKey (key : HashKey) : AristoTx :=
  { tx with
    kMap := tx.kMap.insert rvid key
    snapshot :=
      if tx.snapshot.level.isSome then
        { tx.snapshot with
          vtx := tx.snapshot.vtx.modify rvid fun entry => { entry with key := key } }
      else tx.snapshot }

def layersPutAccLeaf (accPath : Hash32) (leafVtx : AccLeafRef) : AristoTx :=
  { tx with
    accLeaves := tx.accLeaves.insert accPath leafVtx
    snapshot :=
      if tx.snapshot.level.isSome then
        { tx.snapshot with acc := tx.snapshot.acc.insert accPath (leafVtx, tx.level) }
      else tx.snapshot }

def layersPutStoLeaf (mixPath : Hash32) (leafVtx : StoLeafRef) : AristoTx :=
  { tx with
    stoLeaves := tx.stoLeaves.insert mixPath leafVtx
    snapshot :=
      if tx.snapshot.level.isSome then
        { tx.snapshot with sto := tx.snapshot.sto.insert mixPath (leafVtx, tx.level) }
      else tx.snapshot }

end AristoTx

/-- `snapshot.copyFrom(tx)` -/
def Snapshot.copyFrom (snapshot : Snapshot) (tx : AristoTx) : Snapshot :=
  { snapshot with
    vtx := tx.kMap.entries.foldl
      (fun t e => Table.modify t e.1 fun v => { v with key := e.2 })
      (Table.putAll
        (fun rvid vtx => ⟨vtx, (tx.kMap.lookup rvid).getD VOID_HASH_KEY, tx.level⟩)
        tx.sTab snapshot.vtx)
    acc := Table.putAll (fun _ v => (v, tx.level)) tx.accLeaves snapshot.acc
    sto := Table.putAll (fun _ v => (v, tx.level)) tx.stoLeaves snapshot.sto }

/-- `mergeAndReset(trg, src)` for frames: `src` goes into `trg` and is cleared. -/
def mergeAndReset (trg src : AristoTx) : Except Defect (AristoTx × AristoTx) :=
  if src.snapshot.level.isSome then .error .assertion
  else
    let trg := { trg with
      vTop := src.vTop
      blockNumber := src.blockNumber
      level := src.level
      parent := src.parent
      accLeaves := src.accLeaves ∪ trg.accLeaves
      stoLeaves := src.stoLeaves ∪ trg.stoLeaves }
    let reset := { src with
      parent := none, sTab := ∅, kMap := ∅, accLeaves := ∅, stoLeaves := ∅ }
    if trg.snapshot.level.isSome then
      .ok ({ trg with snapshot := trg.snapshot.copyFrom src }, reset)
    else
      -- cached keys of the lower layer are invalid where the upper one has a vertex
      .ok ({ trg with
        sTab := src.sTab ∪ trg.sTab
        kMap := src.kMap ∪ Table.delAll src.sTab trg.kMap }, reset)

namespace AristoDb

variable (db : AristoDb)

def parent (tx : AristoTxRef) : Option AristoTxRef := (db.frames tx).parent

def modifyTx (tx : AristoTxRef) (f : AristoTx → AristoTx) : AristoDb :=
  { db with frames := Function.update db.frames tx (f (db.frames tx)) }

/-- `tx.parent`, unless the walk stops at the snapshot of `tx` -/
def nextFrame (stopAtSnapshot : Bool) (tx : AristoTxRef) : Option AristoTxRef :=
  if stopAtSnapshot && (db.frames tx).snapshot.level.isSome then none else db.parent tx

/-- `rstack`: the frames from `tx` down to the base. A parent is older than its child, so
the number of frames ever made is fuel enough. -/
def rstack (tx : Option AristoTxRef) (stopAtSnapshot : Bool) : List AristoTxRef :=
  ParentTree.chain (db.nextFrame stopAtSnapshot) db.nextTx tx

/-- `stack`: the frames from the base up to `tx` -/
def stack (tx : Option AristoTxRef) (stopAtSnapshot : Bool) : List AristoTxRef :=
  (db.rstack tx stopAtSnapshot).reverse

/-- The loop the layer getters share: the first snapshot on the way down answers for all
frames below it. -/
def layersGet {α : Type} (tx : AristoTxRef) (snap own : AristoTx → Option α) : Option α :=
  (db.rstack (some tx) true).findSome? fun w =>
    if (db.frames w).snapshot.level.isSome then snap (db.frames w) else own (db.frames w)

def layersGetVtx (tx : AristoTxRef) (rvid : RootedVertexID) : Option (VertexRef × Int) :=
  db.layersGet tx
    (fun w => (w.snapshot.vtx.lookup rvid).map fun item => (item.vtx, item.level))
    (fun w => (w.sTab.lookup rvid).map fun item => (item, w.level))

/-! ## The backend -/

def getVtxBe (rvid : RootedVertexID) : Except AristoError Vertex :=
  match db.vtxTab rvid with
  | some data => .ok data.deblobify
  | none => .error .GetVtxNotFound

def putEndFn (batch : PutHdl) : AristoDb :=
  { db with
    vtxTab := fun rvid => (batch.sTab.lookup rvid).getD (db.vtxTab rvid)
    lSst := batch.lSst.or db.lSst }

/-! ## Cascaded lookups -/

def getVtxRc (tx : AristoTxRef) (rvid : RootedVertexID) : Except AristoError (Vertex × Int) :=
  match db.layersGetVtx tx rvid with
  | some (some vtx, level) => .ok (vtx, level)
  | some (none, _) => .error .GetVtxNotFound
  | none => (db.getVtxBe rvid).map fun vtx => (vtx, dbLevel)

/-- `getVtx`: nil on an error -/
def getVtx (tx : AristoTxRef) (rvid : RootedVertexID) : VertexRef :=
  match db.getVtxRc tx rvid with
  | .ok (vtx, _) => some vtx
  | .error _ => none

end AristoDb

end Nimbus.Native.Aristo
