import Nimbus.Spec.AristoBackend

/-!
# Writes, new frames and disposed frames

The calls on frames other than `checkpoint` and `persist`, each with what it keeps and
with the operation of the plain `DeltaChain` it stands for. A snapshot is not told of later
writes to the frames below it: `Writable` asks that no frame above the written one holds a
snapshot.
-/

namespace Nimbus.Spec.Aristo

open Nimbus.Native.Aristo ParentTree Function

variable {db db' : AristoDb} {flushed : RootedVertexID → VertexRef} {F G : Nat}
  {k : RootedVertexID}

/-! ## Writes -/

/-- `w'` is the frame `w` with the vertex `v` written at `k`. -/
structure WroteTx (w w' : AristoTx) (k : RootedVertexID) (v : VertexRef) : Prop where
  parent : w'.parent = w.parent
  level : w'.level = w.level
  attached : w'.db = w.db
  sTab : ∀ k', w'.sTab.lookup k' = if k' = k then some v else w.sTab.lookup k'
  snapLevel : w'.snapshot.level = w.snapshot.level
  entry : w.snapshot.level.isSome → ∀ k', entry w'.snapshot.vtx k' =
    if k' = k then some (v, w.level) else entry w.snapshot.vtx k'
  none : w.snapshot.level = none → w'.snapshot = w.snapshot

theorem entry_insert (vtx : Table RootedVertexID VtxSnapshot) (k k' : RootedVertexID)
    (e : VtxSnapshot) :
    entry (vtx.insert k e) k' = if k' = k then some (e.vtx, e.level) else entry vtx k' := by
  rw [entry, Table.lookup_insert']
  split <;> rfl

theorem layersPutVtx_wrote (w : AristoTx) (k : RootedVertexID) (v : VertexRef) :
    WroteTx w (w.layersPutVtx k v) k v := by
  refine ⟨rfl, rfl, rfl, fun k' => Table.lookup_insert' w.sTab k k' v, ?_, ?_, ?_⟩ <;>
    unfold AristoTx.layersPutVtx
  · split <;> rfl
  · intro hsome k'
    simp only [hsome, if_true]
    exact entry_insert _ k k' _
  · intro hnone
    simp [hnone]

theorem layersUpdate_wrote (w : AristoTx) (k : RootedVertexID) (v : Vertex) :
    WroteTx w (w.layersUpdate k v) k (some v) := by
  refine ⟨rfl, rfl, rfl, fun k' => Table.lookup_insert' w.sTab k k' (some v), ?_, ?_, ?_⟩ <;>
    unfold AristoTx.layersUpdate
  · dsimp only
    split <;> rfl
  · intro hsome k'
    simp only [hsome, if_true]
    exact entry_insert _ k k' _
  · intro hnone
    simp [hnone]

/-- A hash key comes with the vertex that the frame holds already, if it holds one. -/
theorem layersPutKey_wrote (w : AristoTx) (k : RootedVertexID) (v : Vertex) (key : HashKey)
    (hown : ∀ u, w.sTab.lookup k = some u → u = some v) :
    WroteTx w (w.layersPutKey k v key) k (some v) := by
  refine ⟨rfl, rfl, rfl, fun k' => ?_, ?_, ?_, ?_⟩ <;> unfold AristoTx.layersPutKey
  · by_cases hmem : k ∈ w.sTab
    · simp only [if_pos hmem]
      split
      · next heq =>
        obtain ⟨u, hu⟩ := Option.isSome_iff_exists.mp (AList.lookup_isSome.mpr hmem)
        rw [heq, hu, hown u hu]
      · rfl
    · simp only [if_neg hmem]
      exact Table.lookup_insert' w.sTab k k' (some v)
  · dsimp only
    split <;> rfl
  · intro hsome k'
    simp only [hsome, if_true]
    exact entry_insert _ k k' _
  · intro hnone
    simp [hnone]

/-- No frame above `F` holds a snapshot. -/
def Writable (db : AristoDb) (F : Nat) : Prop :=
  ∀ G, InTree db G → Anc db.parent G F → G ≠ F → (db.frames G).snapshot.level = none

theorem Writable.of_childless (h : ∀ G, db.parent G ≠ some F) : Writable db F := by
  intro G _ hanc hne
  obtain ⟨d, _, hd⟩ := hanc.cases_child hne
  exact absurd hd (h d)

section Wrote

variable {f : AristoTx → AristoTx} {v : VertexRef}

section

variable (hw : WroteTx (db.frames F) (f (db.frames F)) k v)
include hw

theorem wrote_parent : (db.modifyTx F f).parent = db.parent := by
  funext G
  change ((db.modifyTx F f).frames G).parent = _
  rw [frames_modifyTx]
  split
  · next h =>
    rw [h, hw.parent]
    rfl
  · rfl

theorem wrote_level (G : Nat) : ((db.modifyTx F f).frames G).level = (db.frames G).level := by
  rw [frames_modifyTx]
  split
  · next h => rw [h, hw.level]
  · rfl

theorem wrote_ownWrite (k' : RootedVertexID) (G : Nat) :
    ownWrite (db.modifyTx F f) k' G =
      if G = F ∧ k' = k then some (v, (db.frames F).level) else ownWrite db k' G := by
  rw [ownWrite, frames_modifyTx]
  by_cases hG : G = F
  · subst hG
    rw [if_pos rfl, tableWrite, hw.sTab k', hw.level]
    by_cases hk : k' = k
    · simp [hk]
    · simp [hk, ownWrite, tableWrite]
  · simp [hG, ownWrite]

end

/-- The write shows in the frame itself, and only above it. -/
theorem wrote_lastWrite_self (hd : Decreasing db.parent)
    (hw : WroteTx (db.frames F) (f (db.frames F)) k v) :
    lastWrite (db.modifyTx F f) F k = some (v, (db.frames F).level) := by
  rw [lastWrite, wrote_parent hw]
  exact nearest_self hd (by rw [wrote_ownWrite hw, if_pos ⟨rfl, rfl⟩])

theorem wrote_lastWrite_other (hw : WroteTx (db.frames F) (f (db.frames F)) k v)
    {k' : RootedVertexID} (h : k' ≠ k ∨ ¬ Anc db.parent G F) :
    lastWrite (db.modifyTx F f) G k' = lastWrite db G k' := by
  refine nearest_congr fun a ha => ⟨congrFun (wrote_parent hw) a, ?_⟩
  rw [wrote_ownWrite hw, if_neg]
  rintro ⟨rfl, rfl⟩
  rcases h with h | h
  · exact h rfl
  · exact h ha

theorem wrote_inTree (hw : WroteTx (db.frames F) (f (db.frames F)) k v) :
    InTree (db.modifyTx F f) G ↔ InTree db G := by
  rw [InTree, wrote_parent hw]
  rfl

theorem wrote_frameOk (hinv : Inv db flushed)
    (hw : WroteTx (db.frames F) (f (db.frames F)) k v) (hwritable : Writable db F)
    (hG : InTree db G) : FrameOk (db.modifyTx F f) flushed G := by
  have hok := hinv.frameOk G hG
  have hbase := wrote_level hw db.txRef
  unfold FrameOk at hok ⊢
  by_cases hGF : G = F
  · subst hGF
    rw [frames_modifyTx_self, hw.snapLevel]
    split at hok
    · next hsome =>
      rw [if_pos hsome]
      intro k'
      rw [hw.entry hsome]
      split
      · next hk =>
        left
        rw [hk, wrote_lastWrite_self hinv.parent_lt hw]
      · next hk =>
        unfold EntryOk
        rw [wrote_lastWrite_other hw (.inl hk)]
        exact hbase ▸ hok k'
    · next hsome =>
      rw [if_neg hsome, hw.none (by simpa using hsome)]
      exact hok
  · rw [frames_modifyTx_of_ne _ _ hGF]
    split at hok
    · next hsome =>
      rw [if_pos hsome]
      have hnot : ¬ Anc db.parent G F := by
        intro hanc
        rw [hwritable G hG hanc hGF] at hsome
        cases hsome
      intro k'
      unfold EntryOk
      rw [wrote_lastWrite_other hw (.inr hnot)]
      exact hbase ▸ hok k'
    · next hsome =>
      rw [if_neg hsome]
      exact hok

/-- A write keeps the invariant when no frame above holds a snapshot. -/
theorem Inv.wrote (hinv : Inv db flushed)
    (hw : WroteTx (db.frames F) (f (db.frames F)) k v) (hwritable : Writable db F)
    (hfull : ∀ u, v = some u → u.isBoundaryNode = false) : Inv (db.modifyTx F f) flushed := by
  have hparent := wrote_parent hw
  have hattached : ∀ G, ((db.modifyTx F f).frames G).db = (db.frames G).db := by
    intro G
    rw [frames_modifyTx]
    split
    · next h => rw [h, hw.attached]
    · rfl
  constructor
  case parent_lt => rw [hparent]; exact hinv.parent_lt
  case parent_next => rw [hparent]; exact hinv.parent_next
  case base_lt => exact hinv.base_lt
  case base_root => rw [hparent]; exact hinv.base_root
  case base_level => exact (wrote_level hw db.txRef).symm ▸ hinv.base_level
  case level_parent =>
    intro G p hp hpar
    rw [wrote_level hw, wrote_level hw]
    exact hinv.level_parent G p ((wrote_inTree hw).mp hp) (hparent ▸ hpar)
  case level =>
    intro G
    rw [wrote_level hw]
    exact hinv.level G
  case attached =>
    intro G hG
    rw [hattached]
    exact hinv.attached G ((wrote_inTree hw).mp hG)
  case full =>
    intro G u hG k' hk'
    rw [frames_modifyTx] at hk'
    split at hk'
    · next hGF =>
      subst hGF
      rw [hw.sTab] at hk'
      split at hk'
      · exact hfull u (Option.some.inj hk')
      · exact hinv.full G u ((wrote_inTree hw).mp hG) k' hk'
    · exact hinv.full G u ((wrote_inTree hw).mp hG) k' hk'
  case frameOk => exact fun G hG => wrote_frameOk hinv hw hwritable ((wrote_inTree hw).mp hG)
  case disk => exact hinv.disk
  case queue_nodup => exact hinv.queue_nodup
  case queue_live =>
    intro G hG
    rw [AristoTx.isDisposed, hattached, wrote_level hw]
    exact hinv.queue_live G hG
  case max_pos => exact hinv.max_pos

end Wrote

/-! ## Changes without a vertex -/

/-- `w'` differs from `w` in keys, leaf caches or block numbers only. -/
structure SameVertices (w w' : AristoTx) : Prop where
  parent : w'.parent = w.parent
  level : w'.level = w.level
  attached : w'.db = w.db
  sTab : w'.sTab = w.sTab
  snapLevel : w'.snapshot.level = w.snapshot.level
  entry : ∀ k, entry w'.snapshot.vtx k = entry w.snapshot.vtx k
  none : w.snapshot.level = none → w'.snapshot = w.snapshot

theorem layersMergeKey_same (w : AristoTx) (k : RootedVertexID) (key : HashKey) :
    SameVertices w (w.layersMergeKey k key) := by
  refine ⟨rfl, rfl, rfl, rfl, ?_, ?_, ?_⟩ <;> unfold AristoTx.layersMergeKey
  · split <;> rfl
  · intro k'
    split
    · rw [entry, Table.lookup_modify]
      split
      · next h => rw [h, Option.map_map]; rfl
      · rfl
    · rfl
  · intro hnone
    simp [hnone]

theorem layersPutAccLeaf_same (w : AristoTx) (accPath : Hash32) (leafVtx : AccLeafRef) :
    SameVertices w (w.layersPutAccLeaf accPath leafVtx) := by
  refine ⟨rfl, rfl, rfl, rfl, ?_, ?_, ?_⟩ <;> unfold AristoTx.layersPutAccLeaf
  · split <;> rfl
  · intro k
    split <;> rfl
  · intro hnone
    simp [hnone]

theorem layersPutStoLeaf_same (w : AristoTx) (mixPath : Hash32) (leafVtx : StoLeafRef) :
    SameVertices w (w.layersPutStoLeaf mixPath leafVtx) := by
  refine ⟨rfl, rfl, rfl, rfl, ?_, ?_, ?_⟩ <;> unfold AristoTx.layersPutStoLeaf
  · split <;> rfl
  · intro k
    split <;> rfl
  · intro hnone
    simp [hnone]

theorem Inv.sameVertices {f : AristoTx → AristoTx} (hinv : Inv db flushed)
    (hf : SameVertices (db.frames F) (f (db.frames F))) :
    Inv (db.modifyTx F f) flushed ∧ SameWrites db (db.modifyTx F f) := by
  have hs := SameWrites.modifyTx db F hf.parent hf.level hf.attached hf.sTab
  refine ⟨hinv.congr hs (fun G hG => ?_) hinv.queue_nodup hinv.queue_live, hs⟩
  have hok := hinv.frameOk G hG
  by_cases hGF : G = F
  · subst hGF
    have hself := frames_modifyTx_self db G f
    unfold FrameOk at hok ⊢
    rw [hself, hf.snapLevel]
    split at hok
    · next hsome =>
      rw [if_pos hsome]
      exact hok.congr hs hf.entry
    · next hsome =>
      rw [if_neg hsome, hf.none (by simpa using hsome)]
      exact hok
  · refine FrameOk.of_snapshot_eq hs ?_ hok
    rw [frames_modifyTx_of_ne _ _ hGF]

/-! ## The delta chain behind a database -/

/-- The tree of `db` holds the layers of the chain `c`. -/
structure Refines (db : AristoDb) (c : DeltaChain RootedVertexID VertexRef) : Prop where
  base : c.base = db.txRef
  next : c.next = db.nextTx
  parent : ∀ F, InTree db F → c.parent F = db.parent F
  inTree : ∀ F, c.InTree F → InTree db F
  delta : ∀ F, InTree db F → ∀ k, c.delta F k = (db.frames F).sTab.lookup k

variable {c : DeltaChain RootedVertexID VertexRef}

theorem Refines.written (hinv : Inv db c.disk) (hr : Refines db c) (h : InTree db F)
    (k : RootedVertexID) : c.written F k = (lastWrite db F k).map Prod.fst := by
  have hsame : c.written F k =
      nearest db.parent (fun G => (db.frames G).sTab.lookup k) F := by
    refine nearest_congr fun G hG => ?_
    have hGtree := h.anc hinv.base_root hG
    exact ⟨hr.parent G hGtree, hr.delta G hGtree k⟩
  rw [hsame]
  refine nearest_map hinv.parent_lt (fun G => ?_) F
  rw [ownWrite, tableWrite]
  cases (db.frames G).sTab.lookup k <;> rfl

/-- What the chain shows at a frame of the tree is what is visible there. -/
theorem Refines.view (hinv : Inv db c.disk) (hr : Refines db c) (h : InTree db F) :
    c.view F = visible db c.disk F := by
  funext k
  rw [DeltaChain.view, hr.written hinv h, visible]

theorem Refines.congr (hr : Refines db c) (hs : SameWrites db db') : Refines db' c where
  base := hr.base.trans hs.txRef.symm
  next := hr.next.trans hs.nextTx.symm
  parent F h := (hr.parent F (hs.inTree_iff.mp h)).trans (hs.parent F).symm
  inTree F h := hs.inTree_iff.mpr (hr.inTree F h)
  delta F h k := by
    rw [hs.sTab]
    exact hr.delta F (hs.inTree_iff.mp h) k

theorem Refines.wrote {f : AristoTx → AristoTx} {v : VertexRef} (hr : Refines db c)
    (hw : WroteTx (db.frames F) (f (db.frames F)) k v) :
    Refines (db.modifyTx F f) (c.write F k v) where
  base := hr.base
  next := hr.next
  parent G h := by
    rw [wrote_parent hw]
    exact hr.parent G ((wrote_inTree hw).mp h)
  inTree G h := (wrote_inTree hw).mpr (hr.inTree G h)
  delta G h k' := by
    have hdelta := hr.delta G ((wrote_inTree hw).mp h)
    change update c.delta F (update (c.delta F) k (some v)) G k' = _
    rw [frames_modifyTx]
    by_cases hG : G = F
    · subst hG
      rw [update_self, if_pos rfl, hw.sTab, update_apply]
      split
      · rfl
      · exact hdelta k'
    · rw [update_of_ne hG, if_neg hG]
      exact hdelta k'

/-! ## New and disposed frames -/

/-- A frame that can be used: it has been made and not disposed of. -/
def Live (db : AristoDb) (F : Nat) : Prop :=
  F < db.nextTx ∧ (db.frames F).isDisposed = false

/-- `db` with the new frame `w` under the next number. -/
def opened (db : AristoDb) (w : AristoTx) : AristoDb :=
  { db with frames := update db.frames db.nextTx w, nextTx := db.nextTx + 1 }

section Opened

variable {w : AristoTx} {p : Nat}

theorem opened_frames (h : G ≠ db.nextTx) : (opened db w).frames G = db.frames G := by
  exact update_of_ne h w db.frames

theorem opened_frames_new : (opened db w).frames db.nextTx = w := by
  exact update_self db.nextTx w db.frames

theorem opened_parent (h : G ≠ db.nextTx) : (opened db w).parent G = db.parent G :=
  congrArg AristoTx.parent (opened_frames h)

theorem opened_parent_new : (opened db w).parent db.nextTx = w.parent :=
  congrArg AristoTx.parent opened_frames_new

section

variable (hinv : Inv db flushed)
include hinv

theorem opened_anc (hG : G < db.nextTx) {a : Nat} :
    Anc (opened db w).parent G a ↔ Anc db.parent G a := by
  have hstep : ∀ i q, i < db.nextTx → db.parent i = some q → q < db.nextTx := by
    intro i q hi hq
    exact Nat.lt_trans (hinv.parent_lt i q hq) hi
  constructor
  · intro h
    refine h.congr (P := fun i => i < db.nextTx) (fun i q hi hq => ?_) (fun i q hi hq => ?_)
      hG
    · rw [opened_parent (Nat.ne_of_lt hi)] at hq
      exact hstep i q hi hq
    · rwa [opened_parent (Nat.ne_of_lt hi)] at hq
  · intro h
    refine h.congr (P := fun i => i < db.nextTx) hstep (fun i q hi hq => ?_) hG
    rwa [opened_parent (Nat.ne_of_lt hi)]

theorem opened_inTree (hG : G < db.nextTx) : InTree (opened db w) G ↔ InTree db G :=
  opened_anc hinv hG

theorem opened_inTree_new (hp : w.parent = some p)
    (hlt : p < db.nextTx) : InTree (opened db w) db.nextTx ↔ InTree db p := by
  have hpar : (opened db w).parent db.nextTx = some p := opened_parent_new.trans hp
  constructor
  · intro h
    have hne : db.nextTx ≠ db.txRef := Ne.symm (Nat.ne_of_lt hinv.base_lt)
    exact (opened_inTree hinv hlt).mp (Anc.of_ne h hne hpar)
  · intro h
    exact ((opened_inTree hinv hlt).mpr h).of_parent hpar

theorem opened_lt_or_eq (hp : w.parent = some p)
    (hlt : p < db.nextTx) (h : InTree (opened db w) G) :
    (G < db.nextTx ∧ InTree db G) ∨ (G = db.nextTx ∧ InTree db p) := by
  by_cases hG : G = db.nextTx
  · subst hG
    exact .inr ⟨rfl, (opened_inTree_new hinv hp hlt).mp h⟩
  · have hGlt : G < db.nextTx := by
      rcases h.cases_parent with hbase | ⟨q, hq, _⟩
      · rw [hbase]
        exact hinv.base_lt
      · rw [opened_parent hG] at hq
        exact hinv.parent_next G q hq
    exact .inl ⟨hGlt, (opened_inTree hinv hGlt).mp h⟩

theorem opened_lastWrite (hG : G < db.nextTx) (k : RootedVertexID) :
    lastWrite (opened db w) G k = lastWrite db G k := by
  refine nearest_congr fun a ha => ?_
  have hne : a ≠ db.nextTx := by
    have hle := ha.le hinv.parent_lt
    omega
  exact ⟨opened_parent hne, by rw [ownWrite, opened_frames hne, ownWrite]⟩

theorem Inv.opened (hp : w.parent = some p) (hlt : p < db.nextTx)
    (hdb : w.db = true) (hsTab : ∀ k, w.sTab.lookup k = none) (hsnap : w.snapshot = {})
    (hlevel : w.level = (db.frames p).level + 1)
    (hlive : 0 ≤ (db.frames p).level) : Inv (Aristo.opened db w) flushed := by
  have hne : ∀ {G}, G < db.nextTx → G ≠ db.nextTx := Nat.ne_of_lt
  have hbase := opened_frames (w := w) (hne hinv.base_lt)
  constructor
  case parent_lt =>
    intro i q hq
    by_cases hi : i = db.nextTx
    · rw [hi, opened_parent_new, hp] at hq
      rw [hi, ← Option.some.inj hq]
      exact hlt
    · rw [opened_parent hi] at hq
      exact hinv.parent_lt i q hq
  case parent_next =>
    intro i q hq
    by_cases hi : i = db.nextTx
    · rw [hi]
      exact Nat.lt_succ_self db.nextTx
    · rw [opened_parent hi] at hq
      exact Nat.lt_succ_of_lt (hinv.parent_next i q hq)
  case base_lt => exact Nat.lt_succ_of_lt hinv.base_lt
  case base_root => exact (opened_parent (hne hinv.base_lt)).trans hinv.base_root
  case base_level =>
    change 0 ≤ ((Aristo.opened db w).frames db.txRef).level
    rw [hbase]
    exact hinv.base_level
  case level_parent =>
    intro G q hq hpar
    by_cases hG : G = db.nextTx
    · rw [hG, opened_parent_new, hp] at hpar
      cases hpar
      rw [hG, opened_frames_new, opened_frames (hne hlt), hlevel]
    · rw [opened_parent hG] at hpar
      have hqlt : q < db.nextTx :=
        Nat.lt_trans (hinv.parent_lt G q hpar) (hinv.parent_next G q hpar)
      rw [opened_frames hG, opened_frames (hne hqlt)]
      exact hinv.level_parent G q ((opened_inTree hinv hqlt).mp hq) hpar
  case level =>
    intro G
    by_cases hG : G = db.nextTx
    · rw [hG, opened_frames_new]
      left
      omega
    · rw [opened_frames hG]
      exact hinv.level G
  case attached =>
    intro G hG
    rcases opened_lt_or_eq hinv hp hlt hG with ⟨hGlt, hGtree⟩ | ⟨rfl, _⟩
    · rw [opened_frames (hne hGlt)]
      exact hinv.attached G hGtree
    · rw [opened_frames_new, hdb]
  case full =>
    intro G u hG k hk
    rcases opened_lt_or_eq hinv hp hlt hG with ⟨hGlt, hGtree⟩ | ⟨rfl, _⟩
    · rw [opened_frames (hne hGlt)] at hk
      exact hinv.full G u hGtree k hk
    · rw [opened_frames_new, hsTab] at hk
      cases hk
  case frameOk =>
    intro G hG
    rcases opened_lt_or_eq hinv hp hlt hG with ⟨hGlt, hGtree⟩ | ⟨rfl, _⟩
    · have hok := hinv.frameOk G hGtree
      unfold FrameOk at hok ⊢
      rw [opened_frames (hne hGlt)]
      split at hok
      · next hsome =>
        rw [if_pos hsome]
        intro k
        unfold EntryOk
        rw [opened_lastWrite hinv hGlt]
        exact (congrArg AristoTx.level hbase).symm ▸ hok k
      · next hsome =>
        rw [if_neg hsome]
        exact hok
    · exact FrameOk.of_cleared (by rw [opened_frames_new, hsnap])
  case disk => exact hinv.disk
  case queue_nodup => exact hinv.queue_nodup
  case queue_live =>
    intro G hG
    by_cases hGn : G = db.nextTx
    · rw [hGn, opened_frames_new, AristoTx.isDisposed, hlevel]
      refine ⟨hdb, ?_⟩
      have hdis : (db.frames p).level + 1 ≠ disposedLevel := by
        unfold disposedLevel
        omega
      simpa using hdis
    · rw [opened_frames hGn]
      exact hinv.queue_live G hG
  case max_pos => exact hinv.max_pos

theorem Refines.opened (hr : Refines db c) (hp : w.parent = some p)
    (hlt : p < db.nextTx) (hsTab : ∀ k, w.sTab.lookup k = none) :
    Refines (Aristo.opened db w) (c.fork p) := by
  have hcp : p < c.next := hr.next ▸ hlt
  have hparent : (c.fork p).parent = update c.parent c.next (some p) := by
    rw [DeltaChain.fork, dif_pos hcp]
  have hdelta : (c.fork p).delta = update c.delta c.next fun _ => none := by
    rw [DeltaChain.fork, dif_pos hcp]
  have hbase : (c.fork p).base = c.base := by rw [DeltaChain.fork, dif_pos hcp]
  have hnext : (c.fork p).next = c.next + 1 := by rw [DeltaChain.fork, dif_pos hcp]
  have htree : ∀ G, G ≠ c.next → (c.fork p).InTree G → c.InTree G := by
    intro G hG h
    unfold DeltaChain.InTree at h ⊢
    rw [hbase, hparent] at h
    refine h.congr (P := fun i => i ≠ c.next) (fun i q hi hq => ?_) (fun i q hi hq => ?_) hG
    · rw [update_of_ne hi] at hq
      have hlt' := c.parent_lt i q hq
      have hlt'' := c.parent_next i q hq
      omega
    · rwa [update_of_ne hi] at hq
  refine ⟨hbase.trans hr.base, by rw [hnext, hr.next]; rfl, fun G hG => ?_, fun G hG => ?_,
    fun G hG k => ?_⟩
  · rw [hparent, hr.next]
    rcases opened_lt_or_eq hinv hp hlt hG with ⟨hGlt, hGtree⟩ | ⟨rfl, _⟩
    · rw [update_of_ne (Nat.ne_of_lt hGlt), opened_parent (Nat.ne_of_lt hGlt)]
      exact hr.parent G hGtree
    · rw [update_self, opened_parent_new, hp]
  · by_cases hGn : G = c.next
    · rw [hGn, hr.next]
      refine (opened_inTree_new hinv hp hlt).mpr (hr.inTree p ?_)
      have hpar : (c.fork p).parent c.next = some p := by rw [hparent, update_self]
      rw [hGn] at hG
      have hne : c.next ≠ (c.fork p).base := by
        rw [hbase]
        exact Ne.symm (Nat.ne_of_lt c.base_lt)
      exact htree p (Nat.ne_of_lt hcp) (Anc.of_ne hG hne hpar)
    · have hGtree := hr.inTree G (htree G hGn hG)
      exact (opened_inTree hinv (hinv.lt_next hGtree)).mpr hGtree
  · rw [hdelta, hr.next]
    rcases opened_lt_or_eq hinv hp hlt hG with ⟨hGlt, hGtree⟩ | ⟨rfl, _⟩
    · rw [update_of_ne (Nat.ne_of_lt hGlt), opened_frames (Nat.ne_of_lt hGlt)]
      exact hr.delta G hGtree k
    · rw [update_self, opened_frames_new, hsTab]

end

end Opened

theorem txFrameBegin_spec (hinv : Inv db c.disk) (hr : Refines db c)
    {parentFrame : Option AristoTxRef} (hlive : Live db (parentFrame.getD db.txRef))
    (moveParentHashKeys : Bool) :
    ∃ db', db.step (.txFrameBegin parentFrame moveParentHashKeys) = .ok db' ∧
      Inv db' (c.fork (parentFrame.getD c.base)).disk ∧
      Refines db' (c.fork (parentFrame.getD c.base)) := by
  have hbase : parentFrame.getD c.base = parentFrame.getD db.txRef := by rw [hr.base]
  rw [hbase]
  generalize hp : parentFrame.getD db.txRef = p at hlive
  have hdisk : (c.fork p).disk = c.disk := by
    unfold DeltaChain.fork
    split <;> rfl
  have hlevel : 0 ≤ (db.frames p).level := by
    rcases hinv.level p with h | h
    · exact h
    · have hdis := hlive.2
      simp [AristoTx.isDisposed, h] at hdis
  -- moving the hash keys of the parent moves no vertex
  obtain ⟨db₁, hdb₁, hinv₁, hs⟩ : ∃ db₁, (if moveParentHashKeys then
      db.modifyTx p fun w => { w with kMap := ∅ } else db) = db₁ ∧ Inv db₁ c.disk ∧
      SameWrites db db₁ := by
    cases moveParentHashKeys with
    | false => exact ⟨db, rfl, hinv, SameWrites.refl db⟩
    | true =>
      obtain ⟨hinv₁, hs⟩ := hinv.sameVertices (F := p) (f := fun w => { w with kMap := ∅ })
        ⟨rfl, rfl, rfl, rfl, rfl, fun _ => rfl, fun _ => rfl⟩
      exact ⟨_, rfl, hinv₁, hs⟩
  have hr₁ := hr.congr hs
  have hlt : p < db₁.nextTx := by
    rw [hs.nextTx]
    exact hlive.1
  let w : AristoTx := {
    db := true
    parent := some p
    kMap := if moveParentHashKeys then (db.frames p).kMap else ∅
    vTop := (db.frames p).vTop
    level := (db.frames p).level + 1 }
  refine ⟨opened db₁ w, ?_, ?_, ?_⟩
  · unfold AristoDb.step AristoDb.txFrameBegin
    simp only [hp, hlive.2, Bool.false_eq_true, if_false, hdb₁]
    rfl
  · rw [hdisk]
    exact hinv₁.opened rfl hlt rfl (fun _ => rfl) rfl (by rw [hs.level])
      (by rw [hs.level]; exact hlevel)
  · exact hr₁.opened hinv₁ rfl hlt fun _ => rfl

section Dispose

variable {D : Nat}

theorem dispose_parent (db : AristoDb) (D G : Nat) :
    (db.dispose D).parent G = if G = D then none else db.parent G := by
  change ((db.dispose D).frames G).parent = _
  rw [frames_dispose]
  split <;> rfl

theorem dispose_txRef (db : AristoDb) (D : Nat) : (db.dispose D).txRef = db.txRef := by
  unfold AristoDb.dispose
  split <;> rfl

theorem dispose_inTree (hne : D ≠ db.txRef) (h : InTree (db.dispose D) G) :
    G ≠ D ∧ InTree db G := by
  unfold InTree at h ⊢
  rw [dispose_txRef] at h
  constructor
  · intro hG
    subst hG
    exact hne (h.eq_of_root (by rw [dispose_parent, if_pos rfl]))
  · refine h.mono fun i p hp => ?_
    rw [dispose_parent] at hp
    split at hp
    · cases hp
    · exact hp

theorem dispose_lastWrite (hinv : Inv db flushed) (hne : D ≠ db.txRef)
    (h : InTree (db.dispose D) G) (k : RootedVertexID) :
    lastWrite (db.dispose D) G k = lastWrite db G k := by
  have hroot : (db.dispose D).parent (db.dispose D).txRef = none := by
    rw [dispose_txRef, dispose_parent, if_neg (Ne.symm hne)]
    exact hinv.base_root
  refine (nearest_congr fun a ha => ?_).symm
  have hane := (dispose_inTree hne (h.anc hroot ha)).1
  rw [dispose_parent, if_neg hane, ownWrite, ownWrite, frames_dispose, if_neg hane]
  exact ⟨rfl, rfl⟩

theorem Inv.dispose (hinv : Inv db flushed) (hne : D ≠ db.txRef) : Inv (db.dispose D) flushed := by
  have hdisp := dispose_spec hinv.queue_nodup (fun G hG => (hinv.queue_live G hG).1) D
  have hframe : ∀ {G}, G ≠ D → (db.dispose D).frames G = db.frames G := by
    intro G hG
    rw [frames_dispose, if_neg hG]
  have hbase := hframe (Ne.symm hne)
  have hsub : ∀ G p, (db.dispose D).parent G = some p → G ≠ D ∧ db.parent G = some p := by
    intro G p hp
    rw [dispose_parent] at hp
    split at hp
    · cases hp
    · next hG => exact ⟨hG, hp⟩
  constructor
  case parent_lt => exact fun G p hp => hinv.parent_lt G p (hsub G p hp).2
  case parent_next =>
    intro G p hp
    rw [hdisp.nextTx]
    exact hinv.parent_next G p (hsub G p hp).2
  case base_lt =>
    rw [hdisp.txRef, hdisp.nextTx]
    exact hinv.base_lt
  case base_root =>
    rw [hdisp.txRef, dispose_parent, if_neg (Ne.symm hne)]
    exact hinv.base_root
  case base_level =>
    rw [hdisp.txRef, hbase]
    exact hinv.base_level
  case level_parent =>
    intro G p hp hpar
    rw [hframe (hsub G p hpar).1, hframe (dispose_inTree hne hp).1]
    exact hinv.level_parent G p (dispose_inTree hne hp).2 (hsub G p hpar).2
  case level =>
    intro G
    rw [frames_dispose]
    split
    · exact .inr rfl
    · exact hinv.level G
  case attached =>
    intro G hG
    rw [hframe (dispose_inTree hne hG).1]
    exact hinv.attached G (dispose_inTree hne hG).2
  case full =>
    intro G u hG k hk
    rw [hframe (dispose_inTree hne hG).1] at hk
    exact hinv.full G u (dispose_inTree hne hG).2 k hk
  case frameOk =>
    intro G hG
    have hok := hinv.frameOk G (dispose_inTree hne hG).2
    unfold FrameOk at hok ⊢
    rw [hframe (dispose_inTree hne hG).1]
    split at hok
    · next hsome =>
      rw [if_pos hsome]
      intro k
      unfold EntryOk
      rw [dispose_lastWrite hinv hne hG, hdisp.txRef, hbase]
      exact hok k
    · next hsome =>
      rw [if_neg hsome]
      exact hok
  case disk =>
    intro k
    rw [onDisk, hdisp.vtxTab]
    exact hinv.disk k
  case queue_nodup => exact hdisp.queue_nodup
  case queue_live =>
    intro G hG
    have hmem := hdisp.queue G hG
    rw [hframe (by simpa using hmem.2)]
    exact hinv.queue_live G hmem.1
  case max_pos =>
    rw [hdisp.maxSnapshots]
    exact hinv.max_pos

theorem Refines.dispose (hinv : Inv db flushed) (hr : Refines db c) (hne : D ≠ db.txRef) :
    Refines (db.dispose D) (c.drop D) := by
  have hdisp := dispose_spec hinv.queue_nodup (fun G hG => (hinv.queue_live G hG).1) D
  refine ⟨hr.base.trans hdisp.txRef.symm, hr.next.trans hdisp.nextTx.symm, fun G hG => ?_,
    fun G hG => ?_, fun G hG k => ?_⟩
  · have hG' := dispose_inTree hne hG
    rw [dispose_parent, if_neg hG'.1]
    exact (update_of_ne hG'.1 none c.parent).trans (hr.parent G hG'.2)
  · have hcut : ∀ i p, (c.drop D).parent i = some p → i ≠ D ∧ c.parent i = some p := by
      intro i p hp
      change update c.parent D none i = some p at hp
      rw [update_apply] at hp
      split at hp
      · cases hp
      · next hi => exact ⟨hi, hp⟩
    unfold InTree
    rw [hdisp.txRef, ← hr.base]
    refine Anc.congr (P := fun i => (c.drop D).InTree i) (fun i p hi hp => ?_)
      (fun i p hi hp => ?_) hG hG
    · have hib : i ≠ (c.drop D).base := by
        intro heq
        rw [heq] at hp
        rw [(c.drop D).base_root] at hp
        cases hp
      exact Anc.of_ne hi hib hp
    · obtain ⟨hiD, hp'⟩ := hcut i p hp
      have hitree : c.InTree i := hi.mono fun j q hq => (hcut j q hq).2
      rw [dispose_parent, if_neg hiD, ← hr.parent i (hr.inTree i hitree)]
      exact hp'
  · have hG' := dispose_inTree hne hG
    rw [frames_dispose, if_neg hG'.1]
    exact hr.delta G hG'.2 k

end Dispose

end Nimbus.Spec.Aristo
