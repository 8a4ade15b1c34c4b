import Nimbus.Native.Aristo.Layers

/-!
# Transaction frames: snapshots, checkpoints and persistence

Model of `execution_chain/db/aristo/aristo_tx_frame.nim`. A call that meets one of the
assertions of the code ends with a `Defect`.
-/

namespace Nimbus.Native.Aristo

namespace AristoDb

variable (db : AristoDb)

/-- A database descriptor on a backend, as `initInstance` makes it. -/
def init (vtxTab : RootedVertexID → Option VtxBlob) (lSst : Option SavedState)
    (maxSnapshots : { n : Nat // 0 < n }) : AristoDb where
  frames := Function.update (fun _ => {}) 0
    { db := true, vTop := (lSst.getD {}).vTop, snapshot := { level := some 0 } }
  nextTx := 1
  txRef := 0
  snapshots := []
  maxSnapshots := maxSnapshots
  vtxTab := vtxTab
  lSst := lSst
  accLeaves := ∅
  stoLeaves := ∅

variable (tx : AristoTxRef)

def isKeyframe : Bool := tx == db.txRef

def removeSnapshotFrame : AristoDb :=
  { db with snapshots := db.snapshots.erase tx }

def clearSnapshot : Except Defect AristoDb :=
  if (db.frames tx).isDisposed then .error .disposedFrame
  else if db.isKeyframe tx then .ok db
  else .ok (db.modifyTx tx fun w => { w with snapshot := {} })

/-- The members of the queue that no other member is below. -/
def lowest : List AristoTxRef :=
  db.snapshots.filter fun tx =>
    db.snapshots.all fun other => (db.frames tx).level ≤ (db.frames other).level

/-- `addSnapshotFrame`. The queue gives up a frame of the lowest level; which one when
there are several depends on the layout of its heap, here on `tie`. -/
def addSnapshotFrame (tie : Nat) : Except Defect AristoDb :=
  if (db.frames tx).snapshot.level.isNone then .error .assertion
  else if tx ∈ db.snapshots then .ok db
  else if db.snapshots.length = db.maxSnapshots then
    match db.lowest[tie % db.lowest.length]? with
    | none => .error .emptyQueue
    | some frame => do
      let db ← (db.removeSnapshotFrame frame).clearSnapshot frame
      .ok { db with snapshots := tx :: db.snapshots }
  else .ok { db with snapshots := tx :: db.snapshots }

/-- Deletes from all snapshots what is on disk since the base moved up. -/
def cleanSnapshots : AristoDb :=
  let minLevel := (db.frames db.txRef).level
  db.snapshots.foldl
    (fun db frame => db.modifyTx frame fun w =>
      { w with
        snapshot := { w.snapshot with
          vtx := Table.delIf w.snapshot.vtx fun _ it => it.level < minLevel
          acc := Table.delIf w.snapshot.acc fun _ it => it.2 < minLevel
          sto := Table.delIf w.snapshot.sto fun _ it => it.2 < minLevel } })
    db

/-- One round of the loop in `buildSnapshot`: `frame` goes into the snapshot of `tx`. -/
def addToSnapshot (minLevel : Int) (db : AristoDb)
    (frame : AristoTxRef) : Except Defect AristoDb := do
  let db ←
    if frame ≠ tx then
      if (db.frames frame).isDisposed then .error .assertion
      -- the code asks whether `tx`, not `frame`, is the keyframe: the snapshot of the
      -- base moves up like any other one
      else if (db.frames frame).snapshot.level.isSome then
        if db.isKeyframe tx then
          let source := (db.frames frame).snapshot
          .ok (db.modifyTx tx fun w =>
            { w with
              snapshot := { w.snapshot with
                vtx := Table.delIf source.vtx fun _ v => v.level < minLevel
                acc := Table.delIf source.acc fun _ v => v.2 < minLevel
                sto := Table.delIf source.sto fun _ v => v.2 < minLevel } })
        else
          let source := (db.frames frame).snapshot
          let db := db.modifyTx tx fun w => { w with snapshot := source }
          let db := db.modifyTx frame fun w => { w with snapshot := {} }
          .ok (db.removeSnapshotFrame frame)
      else .ok db
    else .ok db
  .ok (db.modifyTx tx fun w =>
    { w with snapshot := w.snapshot.copyFrom (db.frames frame) })

def buildSnapshot (minLevel : Int) (tie : Nat) : Except Defect AristoDb := do
  let db ← (db.stack (some tx) true).foldlM (addToSnapshot tx minLevel) db
  let db := db.modifyTx tx fun w =>
    { w with snapshot := { w.snapshot with level := some minLevel } }
  if db.isKeyframe tx then .ok db else db.addSnapshotFrame tx tie

def txFrameBegin (parentFrame : Option AristoTxRef) (moveParentHashKeys : Bool) :
    Except Defect (AristoDb × AristoTxRef) :=
  let parent := parentFrame.getD db.txRef
  let w := db.frames parent
  if w.isDisposed then .error .disposedFrame
  else
    let txRef : AristoTx := {
      db := true
      parent := some parent
      kMap := if moveParentHashKeys then w.kMap else ∅
      vTop := w.vTop
      level := w.level + 1 }
    let db :=
      if moveParentHashKeys then db.modifyTx parent fun w => { w with kMap := ∅ } else db
    .ok ({ db with
      frames := Function.update db.frames db.nextTx txRef
      nextTx := db.nextTx + 1 }, db.nextTx)

def dispose : AristoDb :=
  let db := if (db.frames tx).db then db.removeSnapshotFrame tx else db
  db.modifyTx tx fun _ => { level := disposedLevel }

def checkpoint (blockNumber : Nat) (skipSnapshot : Bool) (tie : Nat) : Except Defect AristoDb :=
  if (db.frames tx).isDisposed then .error .disposedFrame
  else
    let db := db.modifyTx tx fun w => { w with blockNumber := some blockNumber }
    if skipSnapshot then .ok db
    else db.buildSnapshot tx (db.frames db.txRef).level tie

/-! ## Persistence -/

/-- What the bottom of the stack keeps: its snapshot, or its own tables when the snapshot
is empty. -/
def prepareBottom (w : AristoTx) : AristoTx :=
  if w.snapshot.vtx.len + w.snapshot.acc.len + w.snapshot.sto.len = 0 then
    { w with snapshot := { w.snapshot with level := none } }
  else { w with sTab := ∅, kMap := ∅ }

/-- One round of the loop in `persist`: `frame` is merged into `bottom` and disposed. -/
def mergeFrame (bottom : AristoTxRef) (db : AristoDb) (frame : AristoTxRef) :
    Except Defect AristoDb := do
  if (db.frames frame).isDisposed then .error .assertion
  else
    let (trg, src) ← mergeAndReset (db.frames bottom) (db.frames frame)
    let db := db.modifyTx bottom fun _ => trg
    let db := db.modifyTx frame fun _ => src
    .ok (db.dispose frame)

/-- `swap(bottom[], txFrame[])` -/
def swapFrames (a b : AristoTxRef) : AristoDb :=
  let wa := db.frames a
  let wb := db.frames b
  (db.modifyTx a fun _ => wb).modifyTx b fun _ => wa

/-- Puts the merged contents of `bottom` in `tx`, makes it the new base and disposes of the
frames below it. -/
def rebase (bottom tx : AristoTxRef) : AristoDb :=
  let db := { db.swapFrames bottom tx with txRef := tx }
  let db := db.removeSnapshotFrame bottom
  if (db.parent tx).isNone then db
  else
    let db := (db.stack (db.parent tx) false).foldl dispose db
    db.modifyTx tx fun w => { w with parent := none }

/-- The part of `persist` that consolidates the changes up to `tx`. -/
def consolidate : Except Defect AristoDb := do
  if (db.parent tx).isNone then .error .assertion
  else match db.stack (some tx) true with
  | [] => .error .assertion
  | bottom :: frames =>
    if (db.frames bottom).isDisposed then .error .assertion
    else
      let db ← frames.foldlM (mergeFrame bottom) (db.modifyTx bottom prepareBottom)
      .ok (db.rebase bottom tx)

def putVtxFn (batch : PutHdl) (rvid : RootedVertexID) (vtx : VertexRef) (key : HashKey) :
    Except Defect PutHdl :=
  match vtx with
  | some vtx => do
    let data ← blobify vtx key
    .ok { batch with sTab := batch.sTab.insert rvid (some data) }
  | none => .ok { batch with sTab := batch.sTab.insert rvid none }

/-- `db.accLeaves.update` or `del`: only paths that the cache holds are updated. -/
def refreshAccLeaf (cache : Table Hash32 CachedAccLeaf) (accPath : Hash32)
    (v : AccLeafRef) : Table Hash32 CachedAccLeaf :=
  match v with
  | none => cache.erase accPath
  | some leaf => Table.modify cache accPath fun _ => .init leaf

def refreshStoLeaf (cache : Table Hash32 CachedStoLeaf) (mixPath : Hash32)
    (v : StoLeafRef) : Table Hash32 CachedStoLeaf :=
  match v with
  | none => cache.erase mixPath
  | some leaf => Table.modify cache mixPath fun _ => .init leaf

/-- The structural entries of the consolidated frame, above `oldLevel`. -/
def putFrame (batch : PutHdl) (w : AristoTx) (oldLevel : Int) : Except Defect PutHdl := do
  let batch ← w.snapshot.vtx.entries.foldlM
    (fun batch e =>
      if e.2.level ≥ oldLevel then putVtxFn batch e.1 e.2.vtx e.2.key else .ok batch)
    batch
  w.sTab.entries.foldlM
    (fun batch e => putVtxFn batch e.1 e.2 ((w.kMap.lookup e.1).getD VOID_HASH_KEY))
    batch

/-- Copies the payloads of the consolidated frame back into the shared caches. -/
def refreshCaches (w : AristoTx) : AristoDb :=
  let accLeaves := w.snapshot.acc.entries.foldl
    (fun cache e => refreshAccLeaf cache e.1 e.2.1) db.accLeaves
  let stoLeaves := w.snapshot.sto.entries.foldl
    (fun cache e => refreshStoLeaf cache e.1 e.2.1) db.stoLeaves
  { db with
    accLeaves := w.accLeaves.entries.foldl
      (fun cache e => refreshAccLeaf cache e.1 e.2) accLeaves
    stoLeaves := w.stoLeaves.entries.foldl
      (fun cache e => refreshStoLeaf cache e.1 e.2) stoLeaves }

/-- The frame of the new base once its changes are staged: it acts as a snapshot. -/
def emptyBase (w : AristoTx) : AristoTx :=
  { w with
    snapshot := { level := some w.level }
    sTab := ∅
    kMap := ∅
    accLeaves := ∅
    stoLeaves := ∅
    blockNumber := none }

/-- When the base itself is persisted its tables repeat what its snapshot holds. -/
def dropRedundant (w : AristoTx) : AristoTx :=
  if w.snapshot.level.isSome then { w with sTab := ∅, kMap := ∅ } else w

/-- The changes up to `tx` in one frame. -/
def mergeChanges : Except Defect AristoDb :=
  if tx ≠ db.txRef then db.consolidate tx else .ok (db.modifyTx tx dropRedundant)

def persist (batch : PutHdl) (tx : AristoTxRef) : Except Defect (AristoDb × PutHdl) := do
  if (db.frames tx).isDisposed then .error .disposedFrame
  else if tx = db.txRef ∧ (db.frames tx).isEmpty then .ok (db, batch)
  else
    match (db.frames tx).blockNumber with
    | none => .error .missingCheckpoint
    | some serial =>
      let lSst : SavedState := { vTop := (db.frames tx).vTop, serial := serial }
      let oldLevel := (db.frames db.txRef).level
      let db ← db.mergeChanges tx
      let w := db.frames tx
      if w.snapshot.vtx.len ≠ 0 ∧ w.sTab.len ≠ 0 then .error .assertion
      else
        let batch ← putFrame batch w oldLevel
        let db := (db.refreshCaches w).cleanSnapshots
        .ok (db.modifyTx tx emptyBase, { batch with lSst := some lSst })

/-! ## Runs -/

/-- The calls on frames. `persist` is followed by the commit of its batch. -/
inductive FrameOp where
  | txFrameBegin (parentFrame : Option AristoTxRef) (moveParentHashKeys : Bool)
  | putVtx (tx : AristoTxRef) (rvid : RootedVertexID) (vtx : VertexRef)
  | update (tx : AristoTxRef) (rvid : RootedVertexID) (vtx : Vertex)
  | putKey (tx : AristoTxRef) (rvid : RootedVertexID) (vtx : Vertex) (key : HashKey)
  | mergeKey (tx : AristoTxRef) (rvid : RootedVertexID) (key : HashKey)
  | putAccLeaf (tx : AristoTxRef) (accPath : Hash32) (leafVtx : AccLeafRef)
  | putStoLeaf (tx : AristoTxRef) (mixPath : Hash32) (leafVtx : StoLeafRef)
  | checkpoint (tx : AristoTxRef) (blockNumber : Nat) (skipSnapshot : Bool) (tie : Nat)
  | clearSnapshot (tx : AristoTxRef)
  | dispose (tx : AristoTxRef)
  | persist (tx : AristoTxRef)

def step : FrameOp → Except Defect AristoDb
  | .txFrameBegin parentFrame moveParentHashKeys =>
    (·.1) <$> db.txFrameBegin parentFrame moveParentHashKeys
  | .putVtx tx rvid vtx => .ok (db.modifyTx tx (·.layersPutVtx rvid vtx))
  | .update tx rvid vtx => .ok (db.modifyTx tx (·.layersUpdate rvid vtx))
  | .putKey tx rvid vtx key => .ok (db.modifyTx tx (·.layersPutKey rvid vtx key))
  | .mergeKey tx rvid key => .ok (db.modifyTx tx (·.layersMergeKey rvid key))
  | .putAccLeaf tx accPath leafVtx =>
    .ok (db.modifyTx tx (·.layersPutAccLeaf accPath leafVtx))
  | .putStoLeaf tx mixPath leafVtx =>
    .ok (db.modifyTx tx (·.layersPutStoLeaf mixPath leafVtx))
  | .checkpoint tx blockNumber skipSnapshot tie =>
    db.checkpoint tx blockNumber skipSnapshot tie
  | .clearSnapshot tx => db.clearSnapshot tx
  | .dispose tx => .ok (db.dispose tx)
  | .persist tx => (fun (db, batch) => db.putEndFn batch) <$> db.persist {} tx

def run (db : AristoDb) (ops : List FrameOp) : Except Defect AristoDb :=
  ops.foldlM step db

end AristoDb

end Nimbus.Native.Aristo
