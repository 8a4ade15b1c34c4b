import Nimbus.ForStd.StepRun
import Nimbus.Spec.AristoFrames

/-!
# Layered reads refine a delta chain

A database of transaction frames, with its snapshots, evictions, merges and base changes,
against the plain `DeltaChain`: each call on frames is one of its operations, or none, and
a lookup at a frame of the tree returns what the chain shows there.
-/

namespace Nimbus.Spec.Aristo

open Nimbus.Native.Aristo ParentTree Function

variable {db db' : AristoDb} {flushed : RootedVertexID → VertexRef} {F G : Nat}
  {k : RootedVertexID} {c : DeltaChain RootedVertexID VertexRef}

/-! ## The refinement -/

theorem Refines.inTree_iff (hinv : Inv db flushed) (hr : Refines db c) :
    InTree db F ↔ c.InTree F := by
  refine ⟨fun h => ?_, hr.inTree F⟩
  unfold DeltaChain.InTree
  rw [hr.base]
  refine Anc.congr (P := fun i => InTree db i) (fun i p hi hp => hi.parent hp hinv.base_root)
    (fun i p hi hp => ?_) h h
  rw [hr.parent i hi, hp]

theorem Refines.persist (hinv : Inv db c.disk) (hr : Refines db c) (h : InTree db F)
    (hinv' : Inv db' flushed) (hp : Persisted db db' F) : Refines db' (c.flush F) := by
  have hF : F < c.next := hr.next ▸ hinv.lt_next h
  have hbase : (c.flush F).base = F := by rw [DeltaChain.flush, dif_pos hF]
  have hnext : (c.flush F).next = c.next := by rw [DeltaChain.flush, dif_pos hF]
  have hparent : (c.flush F).parent = update c.parent F none := by
    rw [DeltaChain.flush, dif_pos hF]
  have hdelta : (c.flush F).delta = update c.delta F fun _ => none := by
    rw [DeltaChain.flush, dif_pos hF]
  have htree : ∀ G, InTree db' G → InTree db G := fun G hG => ((hp.inTree G).mp hG).trans h
  refine ⟨hbase.trans hp.txRef.symm, hnext.trans (hr.next.trans hp.nextTx.symm),
    fun G hG => ?_, fun G hG => ?_, fun G hG k => ?_⟩
  · rw [hparent, update_apply]
    split
    · next hGF =>
      rw [hGF, ← hinv'.base_root, hp.txRef]
    · next hGF => rw [hp.parent G hGF hG, hr.parent G (htree G hG)]
  · have hanc : Anc c.parent G F := by
      unfold DeltaChain.InTree at hG
      rw [hbase] at hG
      refine hG.mono fun i p hi => ?_
      rw [hparent, update_apply] at hi
      split at hi
      · cases hi
      · exact hi
    have hGtree : c.InTree G := hanc.trans ((hr.inTree_iff hinv).mp h)
    refine (hp.inTree G).mpr (Anc.congr (P := fun i => c.InTree i) (fun i p hi hip => ?_)
      (fun i p hi hip => ?_) hanc hGtree)
    · have hib : i ≠ c.base := by
        intro heq
        rw [heq, c.base_root] at hip
        cases hip
      exact Anc.of_ne hi hib hip
    · rw [← hr.parent i (hr.inTree i hi), hip]
  · rw [hdelta]
    by_cases hGF : G = F
    · rw [hGF, update_self, hp.sTab_base]
    · rw [update_of_ne hGF, hp.sTab G hGF hG]
      exact hr.delta G (htree G hG) k

open AristoDb (FrameOp)

/-- The operation of the delta chain behind a call. -/
def chainStep (c : DeltaChain RootedVertexID VertexRef) :
    FrameOp → DeltaChain RootedVertexID VertexRef
  | .txFrameBegin parentFrame _ => c.fork (parentFrame.getD c.base)
  | .putVtx tx rvid vtx => c.write tx rvid vtx
  | .update tx rvid vtx => c.write tx rvid (some vtx)
  | .putKey tx rvid vtx _ => c.write tx rvid (some vtx)
  | .dispose tx => c.drop tx
  | .persist tx => c.flush tx
  | .mergeKey .. | .putAccLeaf .. | .putStoLeaf .. | .checkpoint .. | .clearSnapshot _ => c

def chainRun (c : DeltaChain RootedVertexID VertexRef) (ops : List FrameOp) :
    DeltaChain RootedVertexID VertexRef :=
  ops.foldl chainStep c

/-- What a call asks of its caller: a frame that is not disposed, no write below a frame
that holds a snapshot, a key with the vertex the frame has, and a checkpoint before the
frame is persisted. -/
def StepOk (db : AristoDb) : FrameOp → Prop
  | .txFrameBegin parentFrame _ => Live db (parentFrame.getD db.txRef)
  | .putVtx tx _ vtx =>
    Live db tx ∧ Writable db tx ∧ ∀ v, vtx = some v → v.isBoundaryNode = false
  | .update tx _ vtx => Live db tx ∧ Writable db tx ∧ vtx.isBoundaryNode = false
  | .putKey tx rvid vtx _ =>
    Live db tx ∧ Writable db tx ∧ vtx.isBoundaryNode = false ∧
      ∀ v, (db.frames tx).sTab.lookup rvid = some v → v = some vtx
  | .mergeKey tx _ _ | .putAccLeaf tx _ _ | .putStoLeaf tx _ _ => Live db tx
  | .checkpoint tx _ _ _ => InTree db tx
  | .clearSnapshot tx => Live db tx
  | .dispose tx => tx ≠ db.txRef
  | .persist tx => InTree db tx ∧ Checkpointed db tx

/-- A call succeeds and does to the database what it does to the delta chain. -/
theorem step_refines (hinv : Inv db c.disk) (hr : Refines db c) {op : FrameOp}
    (hok : StepOk db op) :
    ∃ db', db.step op = .ok db' ∧ Inv db' (chainStep c op).disk ∧
      Refines db' (chainStep c op) := by
  cases op with
  | txFrameBegin parentFrame moveParentHashKeys =>
    exact txFrameBegin_spec hinv hr hok moveParentHashKeys
  | putVtx tx rvid vtx =>
    have hw := layersPutVtx_wrote (db.frames tx) rvid vtx
    exact ⟨_, rfl, hinv.wrote hw hok.2.1 hok.2.2, hr.wrote hw⟩
  | update tx rvid vtx =>
    have hw := layersUpdate_wrote (db.frames tx) rvid vtx
    exact ⟨_, rfl, hinv.wrote hw hok.2.1 fun u hu => Option.some.inj hu ▸ hok.2.2,
      hr.wrote hw⟩
  | putKey tx rvid vtx key =>
    have hw := layersPutKey_wrote (db.frames tx) rvid vtx key hok.2.2.2
    exact ⟨_, rfl, hinv.wrote hw hok.2.1 fun u hu => Option.some.inj hu ▸ hok.2.2.1,
      hr.wrote hw⟩
  | mergeKey tx rvid key =>
    obtain ⟨hinv', hs⟩ := hinv.sameVertices (f := (·.layersMergeKey rvid key))
      (layersMergeKey_same (db.frames tx) rvid key)
    exact ⟨_, rfl, hinv', hr.congr hs⟩
  | putAccLeaf tx accPath leafVtx =>
    obtain ⟨hinv', hs⟩ := hinv.sameVertices (f := (·.layersPutAccLeaf accPath leafVtx))
      (layersPutAccLeaf_same (db.frames tx) accPath leafVtx)
    exact ⟨_, rfl, hinv', hr.congr hs⟩
  | putStoLeaf tx mixPath leafVtx =>
    obtain ⟨hinv', hs⟩ := hinv.sameVertices (f := (·.layersPutStoLeaf mixPath leafVtx))
      (layersPutStoLeaf_same (db.frames tx) mixPath leafVtx)
    exact ⟨_, rfl, hinv', hr.congr hs⟩
  | checkpoint tx blockNumber skipSnapshot tie =>
    obtain ⟨db', hdb', hinv', hs⟩ := checkpoint_spec hinv hok blockNumber skipSnapshot tie
    exact ⟨db', hdb', hinv', hr.congr hs⟩
  | clearSnapshot tx =>
    obtain ⟨db', hdb', hinv', hs, _⟩ := clearSnapshot_spec hinv hok.2
    exact ⟨db', hdb', hinv', hr.congr hs⟩
  | dispose tx => exact ⟨_, rfl, hinv.dispose hok, hr.dispose hinv hok⟩
  | persist tx =>
    obtain ⟨db₁, batch, hpersist, hinv', hp⟩ := persist_spec hinv hok.1 hok.2
    have hF : tx < c.next := hr.next ▸ hinv.lt_next hok.1
    have hdisk : (c.flush tx).disk = visible db c.disk tx := by
      rw [DeltaChain.flush, dif_pos hF]
      exact hr.view hinv hok.1
    refine ⟨db₁.putEndFn batch, ?_, hdisk ▸ hinv', hr.persist hinv hok.1 hinv' hp⟩
    change (fun r => AristoDb.putEndFn r.1 r.2) <$> db.persist {} tx = _
    rw [hpersist]
    rfl

/-- Every call of the run meets `StepOk` in the state it finds. -/
def RunOk : AristoDb → List FrameOp → Prop
  | _, [] => True
  | db, op :: ops => StepOk db op ∧ ∀ db', db.step op = .ok db' → RunOk db' ops

/-- A run succeeds and does to the database what it does to the delta chain. -/
theorem run_sound (ops : List FrameOp) (hinv : Inv db c.disk) (hr : Refines db c)
    (hok : RunOk db ops) :
    ∃ db', db.run ops = .ok db' ∧ Inv db' (chainRun c ops).disk ∧
      Refines db' (chainRun c ops) := by
  induction ops generalizing db c with
  | nil => exact ⟨db, rfl, hinv, hr⟩
  | cons op ops ih =>
    obtain ⟨db₁, hdb₁, hinv₁, hr₁⟩ := step_refines hinv hr hok.1
    obtain ⟨db', hdb', hinv', hr'⟩ := ih hinv₁ hr₁ (hok.2 db₁ hdb₁)
    refine ⟨db', ?_, hinv', hr'⟩
    unfold AristoDb.run
    rw [List.foldlM_cons, hdb₁]
    exact hdb'

variable (vtxTab : RootedVertexID → Option VtxBlob)

/-- The delta chain a database starts from: the vertices on its backend. -/
def chainInit : DeltaChain RootedVertexID VertexRef :=
  .ofDisk fun k => (vtxTab k).map VtxBlob.deblobify

theorem init_sound (lSst : Option SavedState) (maxSnapshots : { n : Nat // 0 < n }) :
    Inv (.init vtxTab lSst maxSnapshots) (chainInit vtxTab).disk ∧
      Refines (.init vtxTab lSst maxSnapshots) (chainInit vtxTab) := by
  generalize hdb : AristoDb.init vtxTab lSst maxSnapshots = db
  have hzero : db.frames 0 =
      { db := true, vTop := (lSst.getD {}).vTop, snapshot := { level := some 0 } } := by
    rw [← hdb]
    simp [AristoDb.init]
  have hother : ∀ G, G ≠ 0 → db.frames G = {} := by
    intro G hG
    rw [← hdb]
    simp [AristoDb.init, hG]
  have hbase : db.txRef = 0 := by rw [← hdb]; rfl
  have hnext : db.nextTx = 1 := by rw [← hdb]; rfl
  have hparent : ∀ G, db.parent G = none := by
    intro G
    unfold AristoDb.parent
    by_cases hG : G = 0
    · rw [hG, hzero]
    · rw [hother G hG]
  have htree : ∀ G, InTree db G ↔ G = 0 := by
    intro G
    unfold InTree
    rw [hbase]
    exact ⟨fun h => h.eq_of_root (hparent G), fun h => h ▸ Anc.refl _⟩
  have hsTab : ∀ k, (db.frames 0).sTab.lookup k = none := by
    intro k
    rw [hzero]
    rfl
  have hdisk : ∀ k, onDisk db k = (vtxTab k).map VtxBlob.deblobify := by
    intro k
    rw [← hdb]
    rfl
  constructor
  · constructor
    case parent_lt => exact fun G p hp => nomatch (hparent G).symm.trans hp
    case parent_next => exact fun G p hp => nomatch (hparent G).symm.trans hp
    case base_lt => rw [hbase, hnext]; exact Nat.zero_lt_one
    case base_root => exact hparent _
    case base_level => rw [hbase, hzero]
    case level_parent => exact fun G p _ hp => nomatch (hparent G).symm.trans hp
    case level =>
      intro G
      left
      by_cases hG : G = 0
      · rw [hG, hzero]
      · rw [hother G hG]
    case attached =>
      intro G hG
      rw [(htree G).mp hG, hzero]
    case full =>
      intro G u hG k hk
      rw [(htree G).mp hG, hsTab] at hk
      cases hk
    case frameOk =>
      intro G hG
      rw [(htree G).mp hG]
      unfold FrameOk
      rw [hzero]
      intro k
      left
      rw [lastWrite, nearest, chain, List.findSome?_cons, ownWrite,
        tableWrite, hsTab]
      rfl
    case disk =>
      intro k
      rw [hdisk]
      change _ = ((vtxTab k).map VtxBlob.deblobify).map recorded
      rw [Option.map_map]
      exact congrArg (fun f => Option.map f (vtxTab k)) (funext fun data =>
        (recorded_deblobify data).symm)
    case queue_nodup => rw [← hdb]; exact List.nodup_nil
    case queue_live => rw [← hdb]; exact fun G hG => absurd hG List.not_mem_nil
    case max_pos => rw [← hdb]; exact maxSnapshots.property
  · refine ⟨hbase.symm, hnext.symm, fun G _ => (hparent G).symm, fun G hG => ?_,
      fun G hG k => ?_⟩
    · exact (htree G).mpr (hG.eq_of_root rfl)
    · rw [(htree G).mp hG, hsTab]
      rfl

/-! ## Lookups and persistence over whole runs -/

/-- What persisting `F` does, on the disk and to the frames above `F`. -/
def PersistsAs (db : AristoDb) (c : DeltaChain RootedVertexID VertexRef) (F : Nat) : Prop :=
  ∃ db', db.step (.persist F) = .ok db' ∧
    (∀ k, onDisk db' k = (c.view F k).map recorded) ∧
    ∀ G, Anc db.parent G F → InTree db' G ∧ ∀ k, SameVtx (db'.getVtx G k) (c.view G k)

theorem persistsAs (hinv : Inv db c.disk) (hr : Refines db c) (h : InTree db F)
    (hcheck : Checkpointed db F) : PersistsAs db c F := by
  have hok : StepOk db (.persist F) := ⟨h, hcheck⟩
  obtain ⟨db', hdb', hinv', hr'⟩ := step_refines hinv hr hok
  obtain ⟨db₁, batch, hpersist, _, hp⟩ := persist_spec hinv h hcheck
  have hsame : db' = db₁.putEndFn batch := by
    have heq : db.step (.persist F) = .ok (db₁.putEndFn batch) := by
      change (fun r => AristoDb.putEndFn r.1 r.2) <$> db.persist {} F = _
      rw [hpersist]
      rfl
    exact Except.ok.inj (hdb'.symm.trans heq)
  have hF : F < c.next := hr.next ▸ hinv.lt_next h
  have hdisk : (c.flush F).disk = c.view F := by rw [DeltaChain.flush, dif_pos hF]
  refine ⟨db', hdb', fun k => ?_, fun G hG => ?_⟩
  · rw [hinv'.disk k]
    exact congrArg (fun f => (f k).map recorded) hdisk
  · have hGtree : InTree db' G := hsame ▸ (hp.inTree G).mpr hG
    have hancC : Anc c.parent G F := by
      have hGc : InTree db G := hG.trans h
      refine Anc.congr (P := fun i => InTree db i)
        (fun i p hi hp => hi.parent hp hinv.base_root) (fun i p hi hp => ?_) hG hGc
      rw [hr.parent i hi, hp]
    refine ⟨hGtree, fun k => ?_⟩
    rw [← c.view_flush hF hancC]
    have hget := hinv'.getVtx_spec hGtree k
    rwa [← congrFun (hr'.view hinv' hGtree) k] at hget

/-- In every run that writes to no frame below a snapshot, the calls succeed, the frames
of the tree are the layers of the delta chain, a lookup at any of them returns the most
recent write along its ancestors or the original vertex of the backend, and persisting a
frame puts exactly what it shows on the disk while every frame above it keeps what it
shows. A vertex that has been to the disk is read back as its record keeps it. -/
theorem run_refines (lSst : Option SavedState)
    (maxSnapshots : { n : Nat // 0 < n }) (ops : List FrameOp)
    (hok : RunOk (.init vtxTab lSst maxSnapshots) ops) :
    ∃ db, (AristoDb.init vtxTab lSst maxSnapshots).run ops = .ok db ∧
      (∀ F, InTree db F ↔ (chainRun (chainInit vtxTab) ops).InTree F) ∧
      (∀ F, InTree db F → ∀ k,
        SameVtx (db.getVtx F k) ((chainRun (chainInit vtxTab) ops).view F k)) ∧
      ∀ F, InTree db F → Checkpointed db F →
        PersistsAs db (chainRun (chainInit vtxTab) ops) F := by
  obtain ⟨hinv₀, hr₀⟩ := init_sound vtxTab lSst maxSnapshots
  obtain ⟨db, hdb, hinv, hr⟩ := run_sound ops hinv₀ hr₀ hok
  refine ⟨db, hdb, fun F => hr.inTree_iff hinv, fun F hF k => ?_,
    fun F hF hcheck => persistsAs hinv hr hF hcheck⟩
  rw [hr.view hinv hF]
  exact hinv.getVtx_spec hF k

/-! ### A frame under a snapshot -/

section Sample

def sampleKey : RootedVertexID := ⟨1, 1⟩

def sampleVtx (data : UInt256) : Vertex := .StoLeaf ⟨[], data⟩

def sampleDb : AristoDb := .init (fun _ => none) none ⟨10, by decide⟩

/-- A frame with one write, persisted under a second frame. -/
def persistOps : List FrameOp :=
  [.txFrameBegin none false, .putVtx 1 sampleKey (some (sampleVtx 1)),
    .txFrameBegin (some 1) false, .checkpoint 1 7 false 0, .persist 1]

theorem persistOps_runOk : RunOk sampleDb persistOps := by
  refine ⟨⟨by decide, by decide⟩, fun db₁ h₁ => ?_⟩
  obtain rfl := Except.ok.inj h₁
  refine ⟨⟨⟨by decide, by decide⟩, Writable.of_childless fun G => ?_, ?_⟩, fun db₂ h₂ => ?_⟩
  · match G with
    | 0 => decide
    | 1 => decide
    | _ + 2 => exact nofun
  · intro v hv
    cases hv
    rfl
  obtain rfl := Except.ok.inj h₂
  refine ⟨⟨by decide, by decide⟩, fun db₃ h₃ => ?_⟩
  obtain rfl := Except.ok.inj h₃
  refine ⟨Anc.head (p := 0) rfl (Anc.refl _), fun db₄ h₄ => ?_⟩
  obtain rfl := Except.ok.inj h₄
  exact ⟨⟨Anc.head (p := 0) rfl (Anc.refl _), .inl rfl⟩, fun _ _ => trivial⟩

theorem run_refines_persistOps : ∃ db, sampleDb.run persistOps = .ok db ∧ InTree db 2 ∧
      SameVtx (db.getVtx 2 sampleKey) (some (sampleVtx 1)) := by
  obtain ⟨db, hdb, htree, hview, _⟩ :=
    run_refines (fun _ => none) none ⟨10, by decide⟩ persistOps persistOps_runOk
  have hbase : (chainRun (chainInit fun _ => none) persistOps).base = 1 := by
    decide +kernel
  have hparent : (chainRun (chainInit fun _ => none) persistOps).parent 2 = some 1 := by
    decide +kernel
  have hwritten : (chainRun (chainInit fun _ => none) persistOps).view 2 sampleKey =
      some (sampleVtx 1) := by decide +kernel
  have hF : InTree db 2 := by
    rw [htree]
    exact Anc.parent hparent
  exact ⟨db, hdb, hF, hwritten ▸ hview 2 hF sampleKey⟩

/-- A frame is written to after the snapshot of its child was taken. -/
def staleOps : List FrameOp :=
  [.txFrameBegin none false, .putVtx 1 sampleKey (some (sampleVtx 1)),
    .txFrameBegin (some 1) false, .checkpoint 2 7 false 0,
    .putVtx 1 sampleKey (some (sampleVtx 2))]

/-- The lookup at the child returns the old vertex, from its snapshot. -/
theorem staleSnapshot_reads_old : ∃ db, sampleDb.run staleOps = .ok db ∧ InTree db 2 ∧
      db.getVtx 2 sampleKey = some (sampleVtx 1) ∧
      (chainRun (chainInit fun _ => none) staleOps).view 2 sampleKey =
        some (sampleVtx 2) := by
  obtain ⟨db, hrun, hget, hparent, hbase⟩ := exists_ok (r := sampleDb.run staleOps)
    (P := fun db => db.getVtx 2 sampleKey = some (sampleVtx 1) ∧ db.parent 2 = some 1 ∧
      db.parent 1 = some db.txRef) (by decide +kernel)
  exact ⟨db, hrun, Anc.head hparent (Anc.parent hbase), hget, by decide +kernel⟩

end Sample

end Nimbus.Spec.Aristo
