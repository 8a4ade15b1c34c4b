import Nimbus.ForStd.DeltaChain
import Nimbus.Native.Aristo.TxFrame

/-!
# What a layered read returns

The state visible at a frame is the most recent write along its ancestors, over the
backend. A snapshot stands for a frame and everything below it: `SnapOk` says what its
entries may be, and `Inv` carries it for every frame of the tree. A lookup that stops at
the first snapshot then returns the visible vertex.
-/

namespace Nimbus.Spec.Aristo

open Nimbus.Native.Aristo ParentTree AristoDb

variable {db db' : AristoDb} {flushed : RootedVertexID → VertexRef} {F G : Nat}
  {k : RootedVertexID}

/-! ## What a record keeps -/

/-- The vertex that is read back from the record of `vtx`. -/
def recorded (vtx : Vertex) : Vertex :=
  match blobify vtx VOID_HASH_KEY with
  | .ok data => data.deblobify
  | .error _ => vtx

theorem recorded_of_blobify {vtx : Vertex} {key : HashKey} {data : VtxBlob}
    (h : blobify vtx key = .ok data) : data.deblobify = recorded vtx := by
  cases vtx <;> simp only [blobify, Except.ok.injEq, reduceCtorEq] at h <;> subst h <;> rfl

theorem blobify_ok {vtx : Vertex} (h : vtx.isBoundaryNode = false) (key : HashKey) :
    ∃ data, blobify vtx key = .ok data := by
  cases vtx with
  | BoundaryNode node => cases h
  | AccLeaf leaf => exact ⟨_, rfl⟩
  | StoLeaf leaf => exact ⟨_, rfl⟩
  | Branch startVid used => exact ⟨_, rfl⟩
  | ExtBranch pfx startVid used => exact ⟨_, rfl⟩

theorem deblobify_full (data : VtxBlob) : data.deblobify.isBoundaryNode = false := by
  cases data with
  | leafAcc pfx account stoID stoHint => rfl
  | leafSto pfx stoData => rfl
  | branch key startVid used pfx => cases pfx <;> rfl

theorem recorded_deblobify (data : VtxBlob) : recorded data.deblobify = data.deblobify := by
  cases data with
  | leafAcc pfx account stoID stoHint => cases stoID <;> rfl
  | leafSto pfx stoData => rfl
  | branch key startVid used pfx => cases pfx <;> rfl

theorem recorded_recorded (vtx : Vertex) : recorded (recorded vtx) = recorded vtx := by
  cases h : blobify vtx VOID_HASH_KEY with
  | ok data => rw [← recorded_of_blobify h, recorded_deblobify]
  | error e =>
    have hself : recorded vtx = vtx := by rw [recorded, h]
    rw [hself, hself]

/-! ## Writes and reads -/

/-- The frame `F` descends from the base. -/
def InTree (db : AristoDb) (F : Nat) : Prop := Anc db.parent F db.txRef

/-- What the tables of a frame hold for `k`, with its level. -/
def tableWrite (w : AristoTx) (k : RootedVertexID) : Option (VertexRef × Int) :=
  (w.sTab.lookup k).map fun vtx => (vtx, w.level)

/-- The write of `k` in the frame `F` itself. -/
def ownWrite (db : AristoDb) (k : RootedVertexID) (F : Nat) : Option (VertexRef × Int) :=
  tableWrite (db.frames F) k

/-- The most recent write of `k` along the ancestors of `F`. -/
def lastWrite (db : AristoDb) (F : Nat) (k : RootedVertexID) : Option (VertexRef × Int) :=
  nearest db.parent (ownWrite db k) F

/-- The vertex on the backend. -/
def onDisk (db : AristoDb) (k : RootedVertexID) : VertexRef :=
  (db.vtxTab k).map VtxBlob.deblobify

/-- The vertex visible at `F`, where `flushed` holds the writes that are on the disk. -/
def visible (db : AristoDb) (flushed : RootedVertexID → VertexRef) (F : Nat)
    (k : RootedVertexID) : VertexRef :=
  ((lastWrite db F k).map Prod.fst).getD (flushed k)

/-- `v` is the vertex `w`, or what is read back from the record of `w`. -/
def SameVtx (v w : VertexRef) : Prop := v = w ∨ v = w.map recorded

/-- The vertex and the level of an entry of a snapshot. -/
def entry (vtx : Table RootedVertexID VtxSnapshot) (k : RootedVertexID) :
    Option (VertexRef × Int) :=
  (vtx.lookup k).map fun e => (e.vtx, e.level)

/-- What the entry of `k` in a snapshot that stands for `F` may be: the most recent write,
or a repetition of what is on the disk when the write has reached it since. -/
def EntryOk (db : AristoDb) (flushed : RootedVertexID → VertexRef) (F : Nat)
    (k : RootedVertexID) (item : Option (VertexRef × Int)) : Prop :=
  item = lastWrite db F k ∨
    (lastWrite db F k = none ∧ ∃ v, ∃ l ≤ (db.frames db.txRef).level,
      item = some (v, l) ∧ SameVtx v (flushed k))

def SnapOk (db : AristoDb) (flushed : RootedVertexID → VertexRef)
    (vtx : Table RootedVertexID VtxSnapshot) (F : Nat) : Prop :=
  ∀ k, EntryOk db flushed F k (entry vtx k)

/-- The snapshot tables hold nothing. -/
structure NoSnapshot (snapshot : Snapshot) : Prop where
  vtx : ∀ k, snapshot.vtx.lookup k = none
  acc : ∀ k, snapshot.acc.lookup k = none
  sto : ∀ k, snapshot.sto.lookup k = none

/-- A frame that has a snapshot stands on it; another one has none. -/
def FrameOk (db : AristoDb) (flushed : RootedVertexID → VertexRef) (F : Nat) : Prop :=
  if (db.frames F).snapshot.level.isSome then SnapOk db flushed (db.frames F).snapshot.vtx F
  else NoSnapshot (db.frames F).snapshot

/-- The invariant of the tree of frames over a backend with the writes `flushed`. -/
structure Inv (db : AristoDb) (flushed : RootedVertexID → VertexRef) : Prop where
  parent_lt : Decreasing db.parent
  parent_next : ∀ F p, db.parent F = some p → F < db.nextTx
  base_lt : db.txRef < db.nextTx
  base_root : db.parent db.txRef = none
  base_level : 0 ≤ (db.frames db.txRef).level
  level_parent : ∀ F p, InTree db p → db.parent F = some p →
    (db.frames F).level = (db.frames p).level + 1
  level : ∀ F, 0 ≤ (db.frames F).level ∨ (db.frames F).level = disposedLevel
  attached : ∀ F, InTree db F → (db.frames F).db = true
  /-- a vertex of a stateless client is never in the tables -/
  full : ∀ F vtx, InTree db F → ∀ k, (db.frames F).sTab.lookup k = some (some vtx) →
    vtx.isBoundaryNode = false
  frameOk : ∀ F, InTree db F → FrameOk db flushed F
  disk : ∀ k, onDisk db k = (flushed k).map recorded
  queue_nodup : db.snapshots.Nodup
  queue_live : ∀ F ∈ db.snapshots, (db.frames F).db = true ∧
    (db.frames F).isDisposed = false
  max_pos : 0 < db.maxSnapshots

/-! ## The tree -/

theorem InTree.base : InTree db db.txRef := Anc.refl _

theorem InTree.of_parent {p : Nat} (hp : db.parent F = some p) (h : InTree db p) : InTree db F :=
  Anc.head hp h

theorem InTree.parent {p : Nat} (h : InTree db F) (hp : db.parent F = some p)
    (hroot : db.parent db.txRef = none) : InTree db p := by
  rcases h.cases_parent with rfl | ⟨q, hq, hanc⟩
  · rw [hroot] at hp
    cases hp
  · rw [hp] at hq
    cases hq
    exact hanc

theorem InTree.anc (hroot : db.parent db.txRef = none) (h : InTree db F)
    (ha : Anc db.parent F G) : InTree db G := by
  induction ha with
  | refl => exact h
  | tail _ hp ih => exact ih.parent hp hroot

theorem Inv.lt_next (hinv : Inv db flushed) (h : InTree db F) : F < db.nextTx := by
  rcases h.cases_parent with rfl | ⟨p, hp, _⟩
  · exact hinv.base_lt
  · exact hinv.parent_next F p hp

/-- A frame of the tree other than the base has a parent in the tree. -/
theorem InTree.exists_parent (h : InTree db F) (hne : F ≠ db.txRef) :
    ∃ p, db.parent F = some p ∧ InTree db p :=
  h.cases_parent.resolve_left hne

section

variable (hinv : Inv db flushed) (h : InTree db F)
include hinv h

theorem Inv.level_le_of_anc (ha : Anc db.parent F G) :
    (db.frames G).level ≤ (db.frames F).level := by
  induction ha with
  | refl => exact Int.le_refl _
  | @tail b c hb hc ih =>
    have hlevel := hinv.level_parent b c ((h.anc hinv.base_root hb).parent hc
      hinv.base_root) hc
    omega

theorem Inv.base_level_le : (db.frames db.txRef).level ≤ (db.frames F).level :=
  hinv.level_le_of_anc h h

theorem Inv.not_disposed : (db.frames F).isDisposed = false := by
  have hle := hinv.base_level_le h
  have hbase := hinv.base_level
  have hne : (db.frames F).level ≠ disposedLevel := by
    unfold disposedLevel
    omega
  simpa [AristoTx.isDisposed] using hne

end

/-! ## The most recent write -/

theorem lastWrite_own (hd : Decreasing db.parent) {vtx : VertexRef}
    (h : (db.frames F).sTab.lookup k = some vtx) :
    lastWrite db F k = some (vtx, (db.frames F).level) :=
  nearest_self hd (by rw [ownWrite, tableWrite, h, Option.map_some])

theorem lastWrite_root (hd : Decreasing db.parent) (h : db.parent F = none) :
    lastWrite db F k = ownWrite db k F :=
  nearest_root hd _ h

theorem lastWrite_parent (hd : Decreasing db.parent) {p : Nat} (h : db.parent F = some p) :
    lastWrite db F k = (ownWrite db k F).or (lastWrite db p k) :=
  nearest_step hd _ h

section

variable (hinv : Inv db flushed) (h : InTree db F) {vtx : VertexRef} {l : Int} (hw : lastWrite db F k = some (vtx, l))
include hinv h hw

/-- The most recent write is one of a frame of the tree, at its level. -/
theorem Inv.lastWrite_some :
    ∃ G, Anc db.parent F G ∧ InTree db G ∧ (db.frames G).sTab.lookup k = some vtx ∧
      (db.frames G).level = l := by
  obtain ⟨G, hG, hown⟩ := anc_of_nearest hw
  simp only [ownWrite, tableWrite, Option.map_eq_some_iff, Prod.mk.injEq] at hown
  obtain ⟨v, hv, rfl, hl⟩ := hown
  exact ⟨G, hG, h.anc hinv.base_root hG, hv, hl⟩

theorem Inv.le_lastWrite : (db.frames db.txRef).level ≤ l := by
  obtain ⟨G, _, hG, _, hl⟩ := hinv.lastWrite_some h hw
  have hle := hinv.base_level_le hG
  omega

theorem Inv.lastWrite_le : l ≤ (db.frames F).level := by
  obtain ⟨G, hG, _, _, hl⟩ := hinv.lastWrite_some h hw
  have hle := hinv.level_le_of_anc h hG
  omega

end

/-! ## Lookups -/

theorem SameVtx.refl (v : VertexRef) : SameVtx v v := .inl rfl

theorem SameVtx.recorded {v w : VertexRef} (h : SameVtx v w) : v.map recorded = w.map recorded := by
  rcases h with rfl | rfl
  · rfl
  · rw [Option.map_map]
    exact congrArg (fun f => Option.map f w) (funext recorded_recorded)

/-- A snapshot answers like the frames it stands for, over the backend. -/
theorem SnapOk.lookup {vtx : Table RootedVertexID VtxSnapshot}
    (hdisk : onDisk db k = (flushed k).map recorded) (h : SnapOk db flushed vtx F) :
    SameVtx (((entry vtx k).map Prod.fst).getD (onDisk db k)) (visible db flushed F k) := by
  rcases h k with hw | ⟨hw, v, l, _, hitem, hv⟩
  · rw [hw, visible]
    cases lastWrite db F k with
    | some item => exact SameVtx.refl _
    | none => exact .inr hdisk
  · rw [hitem, visible, hw]
    exact hv

/-- What the layer lookup returns, over the backend, is the visible vertex. -/
theorem Inv.layersGetVtx_spec (hinv : Inv db flushed) (h : InTree db F) (k : RootedVertexID) :
    SameVtx (((db.layersGetVtx F k).map Prod.fst).getD (onDisk db k))
      (visible db flushed F k) := by
  have hmain : ∀ fuel F, F < fuel → InTree db F →
      SameVtx ((((ParentTree.chain (db.nextFrame true) fuel (some F)).findSome? fun w =>
        if (db.frames w).snapshot.level.isSome then entry (db.frames w).snapshot.vtx k
        else tableWrite (db.frames w) k).map Prod.fst).getD (onDisk db k))
        (visible db flushed F k) := by
    intro fuel
    induction fuel with
    | zero => intro F hlt; omega
    | succ fuel ih =>
      intro F hlt hF
      have hok := hinv.frameOk F hF
      rw [ParentTree.chain, List.findSome?_cons]
      unfold FrameOk at hok
      by_cases hsnap : (db.frames F).snapshot.level.isSome
      · -- the walk ends here, whether or not the snapshot has the key
        rw [if_pos hsnap] at hok
        have hnext : db.nextFrame true F = none := by simp [nextFrame, hsnap]
        have hlookup := hok.lookup (hinv.disk k)
        rw [if_pos hsnap, hnext, chain_none]
        cases hentry : entry (db.frames F).snapshot.vtx k <;> rwa [hentry] at hlookup
      · have hnext : db.nextFrame true F = db.parent F := by
          simp [nextFrame, hsnap]
        rw [if_neg hsnap, hnext]
        cases hown : tableWrite (db.frames F) k with
        | some item =>
          rw [visible, lastWrite, nearest_self hinv.parent_lt hown]
          exact SameVtx.refl _
        | none =>
          cases hp : db.parent F with
          | none =>
            rw [chain_none, visible, lastWrite_root hinv.parent_lt hp, ownWrite, hown]
            exact .inr (hinv.disk k)
          | some p =>
            have hlt' := hinv.parent_lt F p hp
            rw [visible, lastWrite_parent hinv.parent_lt hp, ownWrite, hown]
            exact ih p (by omega) (hF.parent hp hinv.base_root)
  exact hmain db.nextTx F (hinv.lt_next h) h

theorem Inv.getVtx_spec (hinv : Inv db flushed) (h : InTree db F) (k : RootedVertexID) :
    SameVtx (db.getVtx F k) (visible db flushed F k) := by
  have hspec := hinv.layersGetVtx_spec h k
  rw [getVtx, getVtxRc]
  cases hl : db.layersGetVtx F k with
  | some item =>
    rw [hl] at hspec
    obtain ⟨_ | vtx, level⟩ := item
    · exact hspec
    · exact hspec
  | none =>
    rw [hl, onDisk] at hspec
    rw [getVtxBe]
    cases hdata : db.vtxTab k <;> rwa [hdata] at hspec

/-! ## Changes that keep the writes -/

/-- `db'` has the same frames as `db`, with the same links, levels and writes. -/
structure SameWrites (db db' : AristoDb) : Prop where
  parent : ∀ F, db'.parent F = db.parent F
  level : ∀ F, (db'.frames F).level = (db.frames F).level
  attached : ∀ F, (db'.frames F).db = (db.frames F).db
  sTab : ∀ F, (db'.frames F).sTab = (db.frames F).sTab
  txRef : db'.txRef = db.txRef
  nextTx : db'.nextTx = db.nextTx
  maxSnapshots : db'.maxSnapshots = db.maxSnapshots
  vtxTab : db'.vtxTab = db.vtxTab

theorem SameWrites.refl (db : AristoDb) : SameWrites db db :=
  ⟨fun _ => rfl, fun _ => rfl, fun _ => rfl, fun _ => rfl, rfl, rfl, rfl, rfl⟩

theorem SameWrites.trans {db'' : AristoDb} (h : SameWrites db db')
    (h' : SameWrites db' db'') : SameWrites db db'' where
  parent F := (h'.parent F).trans (h.parent F)
  level F := (h'.level F).trans (h.level F)
  attached F := (h'.attached F).trans (h.attached F)
  sTab F := (h'.sTab F).trans (h.sTab F)
  txRef := h'.txRef.trans h.txRef
  nextTx := h'.nextTx.trans h.nextTx
  maxSnapshots := h'.maxSnapshots.trans h.maxSnapshots
  vtxTab := h'.vtxTab.trans h.vtxTab

theorem SameWrites.modifyTx (db : AristoDb) (F : Nat) {f : AristoTx → AristoTx}
    (hparent : (f (db.frames F)).parent = (db.frames F).parent)
    (hlevel : (f (db.frames F)).level = (db.frames F).level)
    (hdb : (f (db.frames F)).db = (db.frames F).db)
    (hsTab : (f (db.frames F)).sTab = (db.frames F).sTab) : SameWrites db (db.modifyTx F f) := by
  have hframes : ∀ G, (db.modifyTx F f).frames G = if G = F then f (db.frames F)
      else db.frames G := by
    intro G
    simp [AristoDb.modifyTx, Function.update_apply]
  refine ⟨?_, ?_, ?_, ?_, rfl, rfl, rfl, rfl⟩ <;> intro G <;>
    simp only [AristoDb.parent, hframes G] <;> split
  all_goals first
    | rfl
    | next h => subst h; assumption

section

variable (h : SameWrites db db')
include h

theorem SameWrites.parent_eq : db'.parent = db.parent :=
  funext h.parent

theorem SameWrites.inTree_iff : InTree db' F ↔ InTree db F := by
  rw [InTree, InTree, h.parent_eq, h.txRef]

theorem SameWrites.lastWrite (F : Nat) (k : RootedVertexID) :
    lastWrite db' F k = Aristo.lastWrite db F k := by
  refine nearest_congr fun G _ => ⟨h.parent G, ?_⟩
  rw [ownWrite, ownWrite, tableWrite, tableWrite, h.sTab, h.level]

theorem SameWrites.onDisk (k : RootedVertexID) : onDisk db' k = Aristo.onDisk db k := by
  rw [Aristo.onDisk, Aristo.onDisk, h.vtxTab]

end

theorem EntryOk.congr {item : Option (VertexRef × Int)} (hs : SameWrites db db')
    (h : EntryOk db flushed F k item) : EntryOk db' flushed F k item := by
  unfold EntryOk
  rw [hs.lastWrite, hs.txRef, hs.level]
  exact h

theorem SnapOk.congr {vtx vtx' : Table RootedVertexID VtxSnapshot}
    (hs : SameWrites db db') (he : ∀ k, entry vtx' k = entry vtx k)
    (h : SnapOk db flushed vtx F) : SnapOk db' flushed vtx' F := by
  intro k
  rw [he k]
  exact (h k).congr hs

/-- The invariant is kept when the writes stay and the snapshots of the tree are sound. -/
theorem Inv.congr (hinv : Inv db flushed) (hs : SameWrites db db')
    (hframe : ∀ F, InTree db F → FrameOk db' flushed F) (hnodup : db'.snapshots.Nodup)
    (hlive : ∀ F ∈ db'.snapshots, (db.frames F).db = true ∧
      (db.frames F).isDisposed = false) : Inv db' flushed where
  parent_lt := hs.parent_eq ▸ hinv.parent_lt
  parent_next F p hp := by
    rw [hs.nextTx]
    exact hinv.parent_next F p (hs.parent F ▸ hp)
  base_lt := by
    rw [hs.txRef, hs.nextTx]
    exact hinv.base_lt
  base_root := by
    rw [hs.txRef, hs.parent]
    exact hinv.base_root
  base_level := by
    rw [hs.txRef, hs.level]
    exact hinv.base_level
  level_parent F p h hp := by
    rw [hs.level, hs.level]
    exact hinv.level_parent F p (hs.inTree_iff.mp h) (hs.parent F ▸ hp)
  level F := by
    rw [hs.level]
    exact hinv.level F
  attached F h := by
    rw [hs.attached]
    exact hinv.attached F (hs.inTree_iff.mp h)
  full F vtx h k hk := by
    rw [hs.sTab] at hk
    exact hinv.full F vtx (hs.inTree_iff.mp h) k hk
  frameOk F h := hframe F (hs.inTree_iff.mp h)
  disk k := by
    rw [hs.onDisk]
    exact hinv.disk k
  queue_nodup := hnodup
  queue_live F hF := by
    have hdisposed : (db'.frames F).isDisposed = (db.frames F).isDisposed := by
      rw [AristoTx.isDisposed, AristoTx.isDisposed, hs.level]
    rw [hs.attached, hdisposed]
    exact hlive F hF
  max_pos := by
    rw [hs.maxSnapshots]
    exact hinv.max_pos

theorem FrameOk.congr (hs : SameWrites db db')
    (hlevel : (db'.frames F).snapshot.level.isSome = (db.frames F).snapshot.level.isSome)
    (hvtx : ∀ k, entry (db'.frames F).snapshot.vtx k = entry (db.frames F).snapshot.vtx k)
    (hnone : NoSnapshot (db.frames F).snapshot → NoSnapshot (db'.frames F).snapshot)
    (h : FrameOk db flushed F) : FrameOk db' flushed F := by
  unfold FrameOk at h ⊢
  rw [hlevel]
  split at h
  · next hsome => rw [if_pos hsome]; exact h.congr hs hvtx
  · next hsome => rw [if_neg hsome]; exact hnone h

/-- A frame whose snapshot is unchanged is sound after any change that keeps the writes. -/
theorem FrameOk.of_snapshot_eq (hs : SameWrites db db')
    (hsnap : (db'.frames F).snapshot = (db.frames F).snapshot) 
    (h : FrameOk db flushed F) : FrameOk db' flushed F :=
  h.congr hs (by rw [hsnap]) (fun _ => by rw [hsnap])
    (fun hnone => hsnap ▸ hnone)

theorem FrameOk.of_cleared (hsnap : (db.frames F).snapshot = {}) : FrameOk db flushed F := by
  unfold FrameOk
  rw [hsnap]
  exact ⟨fun _ => rfl, fun _ => rfl, fun _ => rfl⟩

end Nimbus.Spec.Aristo
