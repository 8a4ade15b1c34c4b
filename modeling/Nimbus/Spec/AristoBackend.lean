import Nimbus.Spec.AristoPersist

/-!
# Writing the new base to the backend

The second half of `persist`: the consolidated tables are staged for the backend, the
snapshots lose what is on disk now, and the base starts over. After the commit the backend
holds the records of the state that was visible at the frame, and every frame above it
still shows what it showed.
-/

namespace Nimbus.Spec.Aristo

open Nimbus.Native.Aristo ParentTree AristoDb

variable {db db' : AristoDb} {flushed : RootedVertexID → VertexRef} {F G : Nat}
  {k : RootedVertexID}

/-! ## Staging -/

/-- The record staged for a vertex; nil deletes. -/
def stagedRecord (vtx : VertexRef) (key : HashKey) : Option VtxBlob :=
  vtx.bind fun v => (blobify v key).toOption

theorem stagedRecord_deblobify {vtx : VertexRef}
    (h : ∀ v, vtx = some v → v.isBoundaryNode = false) (key : HashKey) :
    (stagedRecord vtx key).map VtxBlob.deblobify = vtx.map recorded := by
  cases vtx with
  | none => rfl
  | some v =>
    obtain ⟨data, hdata⟩ := blobify_ok (h v rfl) key
    simp only [stagedRecord, Option.bind_some, hdata, Except.toOption, Option.map_some,
      recorded_of_blobify hdata]

theorem putVtxFn_eq {vtx : VertexRef} (h : ∀ v, vtx = some v → v.isBoundaryNode = false)
    (batch : PutHdl) (k : RootedVertexID) (key : HashKey) :
    putVtxFn batch k vtx key =
      .ok { batch with sTab := batch.sTab.insert k (stagedRecord vtx key) } := by
  cases vtx with
  | none => rfl
  | some v =>
    obtain ⟨data, hdata⟩ := blobify_ok (h v rfl) key
    simp only [putVtxFn, hdata, stagedRecord, Option.bind_some, Except.toOption]
    rfl

/-- Staging the entries of a table, each one or not at all. -/
theorem foldlM_put {V : Type} (l : List (Sigma fun _ : RootedVertexID => V))
    (hl : l.NodupKeys) (item : RootedVertexID → V → Option (Option VtxBlob))
    {f : PutHdl → (Sigma fun _ : RootedVertexID => V) → Except Defect PutHdl}
    (hf : ∀ batch, ∀ e ∈ l, f batch e = .ok (match item e.1 e.2 with
      | some data => { batch with sTab := batch.sTab.insert e.1 data }
      | none => batch))
    (batch : PutHdl) :
    ∃ batch', l.foldlM f batch = .ok batch' ∧
      ∀ k, batch'.sTab.lookup k = ((l.dlookup k).bind (item k)).or (batch.sTab.lookup k) := by
  induction l generalizing batch with
  | nil => exact ⟨batch, rfl, fun k => by simp⟩
  | cons e l ih =>
    rw [List.nodupKeys_cons] at hl
    obtain ⟨k', v⟩ := e
    have hhead := hf batch ⟨k', v⟩ List.mem_cons_self
    obtain ⟨batch', hbatch', hlookup⟩ := ih hl.2
      (fun b e he => hf b e (.tail _ he)) _
    refine ⟨batch', ?_, fun k => ?_⟩
    · rw [List.foldlM_cons, hhead]
      exact hbatch'
    · rw [hlookup k]
      by_cases hk : k = k'
      · subst hk
        have hnone : l.dlookup k = none := List.dlookup_eq_none.mpr hl.1
        rw [hnone, List.dlookup_cons_eq, Option.bind_some]
        cases item k v with
        | none => rfl
        | some data => exact AList.lookup_insert _
      · rw [List.dlookup_cons_ne l (⟨k', v⟩ : Sigma fun _ : RootedVertexID => V) hk]
        refine congrArg _ ?_
        cases item k' v with
        | none => rfl
        | some data => exact AList.lookup_insert_ne hk

theorem entries_eq_nil {V : Type} {t : Table RootedVertexID V}
    (h : ∀ k, t.lookup k = none) : t.entries = [] :=
  List.length_eq_zero_iff.mp (Table.len_eq_zero_iff.mpr h)

theorem Inv.full_lastWrite (hinv : Inv db flushed) (h : InTree db F) {vtx : VertexRef}
    {l : Int} (hw : lastWrite db F k = some (vtx, l)) :
    ∀ v, vtx = some v → v.isBoundaryNode = false := by
  intro v hv
  obtain ⟨G, _, hG, hsTab, _⟩ := hinv.lastWrite_some h hw
  exact hinv.full G v hG k (hv ▸ hsTab)

theorem recorded_full {vtx : Vertex} (h : vtx.isBoundaryNode = false) :
    (recorded vtx).isBoundaryNode = false := by
  obtain ⟨data, hdata⟩ := blobify_ok h VOID_HASH_KEY
  rw [← recorded_of_blobify hdata]
  exact deblobify_full data

theorem Inv.full_flushed (hinv : Inv db flushed) {v : Vertex} (hv : flushed k = some v) :
    v.isBoundaryNode = false := by
  have hdisk := hinv.disk k
  rw [hv] at hdisk
  obtain ⟨data, _, hdata⟩ := Option.map_eq_some_iff.mp hdisk
  have hfull := deblobify_full data
  rw [hdata] at hfull
  cases v with
  | BoundaryNode node => cases hfull
  | AccLeaf leaf => rfl
  | StoLeaf leaf => rfl
  | Branch startVid used => rfl
  | ExtBranch pfx startVid used => rfl

/-- The records staged for a frame over those of the backend are the records of the state
visible at it. -/
theorem putFrame_spec (hinv : Inv db flushed) (h : InTree db F) {w : AristoTx}
    (hw : Covers db flushed w F) :
    ∃ batch, putFrame {} w (db.frames db.txRef).level = .ok batch ∧
      ∀ k, ((batch.sTab.lookup k).getD (db.vtxTab k)).map VtxBlob.deblobify =
        (visible db flushed F k).map recorded := by
  unfold putFrame
  rcases hw with ⟨_, hvtx, hsTab⟩ | ⟨_, hsTab, hsnap⟩
  · -- one table of writes: all of them are staged
    rw [entries_eq_nil hvtx]
    have hfull : ∀ k vtx, w.sTab.lookup k = some vtx →
        ∀ v, vtx = some v → v.isBoundaryNode = false := by
      intro k vtx hk
      rw [hsTab k, Option.map_eq_some_iff] at hk
      obtain ⟨⟨vtx', l⟩, hlast, rfl⟩ := hk
      exact hinv.full_lastWrite h hlast
    obtain ⟨batch, hbatch, hlookup⟩ := foldlM_put w.sTab.entries w.sTab.nodupKeys
      (fun k vtx => some (stagedRecord vtx ((w.kMap.lookup k).getD VOID_HASH_KEY)))
      (f := fun batch e =>
        putVtxFn batch e.1 e.2 ((w.kMap.lookup e.1).getD VOID_HASH_KEY))
      (fun batch e he => putVtxFn_eq
        (hfull e.1 e.2 ((AList.mem_lookup_iff).mpr he)) batch e.1 _) {}
    refine ⟨batch, hbatch, fun k => ?_⟩
    rw [hlookup k, ← Table.lookup_eq_dlookup]
    cases hk : w.sTab.lookup k with
    | none =>
      have hlast : lastWrite db F k = none := by
        rw [hsTab k] at hk
        exact Option.map_eq_none_iff.mp hk
      rw [visible, hlast]
      exact hinv.disk k
    | some vtx =>
      have hvisible : visible db flushed F k = vtx := by
        rw [visible, ← hsTab k, hk]
        rfl
      rw [hvisible]
      exact stagedRecord_deblobify (hfull k vtx hk) _
  · -- a snapshot: entries below the old base repeat what the disk holds
    have hfull : ∀ k e, w.snapshot.vtx.lookup k = some e →
        ∀ v, e.vtx = some v → v.isBoundaryNode = false := by
      intro k e hk v hv
      have hentry : entry w.snapshot.vtx k = some (e.vtx, e.level) := by
        rw [entry, hk, Option.map_some]
      rcases hsnap k with hlast | ⟨_, v', _, _, hitem, hsame⟩
      · exact hinv.full_lastWrite h (hlast ▸ hentry) v hv
      · rw [hitem] at hentry
        obtain ⟨rfl, _⟩ := Prod.mk.inj (Option.some.inj hentry)
        rcases hsame with hsame | hsame
        · exact hinv.full_flushed (hsame ▸ hv)
        · rw [hsame] at hv
          obtain ⟨u, hu, rfl⟩ := Option.map_eq_some_iff.mp hv
          exact recorded_full (hinv.full_flushed hu)
    obtain ⟨batch, hbatch, hlookup⟩ := foldlM_put w.snapshot.vtx.entries
      w.snapshot.vtx.nodupKeys
      (fun _ e => if e.level ≥ (db.frames db.txRef).level then
        some (stagedRecord e.vtx e.key) else none)
      (f := fun batch e => if e.2.level ≥ (db.frames db.txRef).level then
        putVtxFn batch e.1 e.2.vtx e.2.key else .ok batch)
      (fun batch e he => by
        split
        · exact putVtxFn_eq (hfull e.1 e.2 ((AList.mem_lookup_iff).mpr he)) batch e.1 _
        · rfl) {}
    refine ⟨batch, ?_, fun k => ?_⟩
    · rw [hbatch, entries_eq_nil hsTab]
      rfl
    · rw [hlookup k, ← Table.lookup_eq_dlookup]
      have hok := hsnap k
      cases hk : w.snapshot.vtx.lookup k with
      | none =>
        rw [entry, hk] at hok
        rcases hok with hlast | ⟨_, _, _, _, hitem, _⟩
        · rw [visible, ← hlast]
          exact hinv.disk k
        · cases hitem
      | some e =>
        rw [entry, hk] at hok
        have hvisible : SameVtx e.vtx (visible db flushed F k) ∧
            (e.level < (db.frames db.txRef).level → visible db flushed F k = flushed k) := by
          rcases hok with hlast | ⟨hlast, v, l, _, hitem, hsame⟩
          · have hge := hinv.le_lastWrite h hlast.symm
            rw [visible, ← hlast]
            exact ⟨SameVtx.refl _, fun hlt => by omega⟩
          · obtain ⟨rfl, rfl⟩ := Prod.mk.inj (Option.some.inj hitem)
            rw [visible, hlast]
            exact ⟨hsame, fun _ => rfl⟩
        rw [Option.bind_some]
        split
        · next hge =>
          rw [Option.some_or, Option.getD_some, stagedRecord_deblobify (hfull k e hk)]
          exact hvisible.1.recorded
        · next hlt =>
          rw [hvisible.2 (by omega)]
          exact hinv.disk k

/-! ## Cleaning the snapshots -/

/-- `w'` is `w` without snapshot entries below `minLevel`. -/
structure Cleaned (minLevel : Int) (w w' : AristoTx) : Prop where
  parent : w'.parent = w.parent
  level : w'.level = w.level
  attached : w'.db = w.db
  sTab : w'.sTab = w.sTab
  snapLevel : w'.snapshot.level = w.snapshot.level
  entry : ∀ k, entry w'.snapshot.vtx k = entry w.snapshot.vtx k ∨
    (Aristo.entry w'.snapshot.vtx k = none ∧
      ∃ v l, Aristo.entry w.snapshot.vtx k = some (v, l) ∧ l < minLevel)
  none : NoSnapshot w.snapshot → NoSnapshot w'.snapshot

theorem Cleaned.refl (minLevel : Int) (w : AristoTx) : Cleaned minLevel w w :=
  ⟨rfl, rfl, rfl, rfl, rfl, fun _ => .inl rfl, fun h => h⟩

theorem Cleaned.trans {minLevel : Int} {w w' w'' : AristoTx} (h : Cleaned minLevel w w')
    (h' : Cleaned minLevel w' w'') : Cleaned minLevel w w'' where
  parent := h'.parent.trans h.parent
  level := h'.level.trans h.level
  attached := h'.attached.trans h.attached
  sTab := h'.sTab.trans h.sTab
  snapLevel := h'.snapLevel.trans h.snapLevel
  entry k := by
    rcases h'.entry k with hsame | ⟨hnone, v, l, hentry, hlt⟩
    · rw [hsame]
      exact h.entry k
    · rcases h.entry k with hsame | ⟨hnone', _⟩
      · exact .inr ⟨hnone, v, l, hsame ▸ hentry, hlt⟩
      · rw [hnone'] at hentry
        cases hentry
  none hno := h'.none (h.none hno)

theorem cleaned_delIf (minLevel : Int) (w : AristoTx) :
    Cleaned minLevel w { w with
      snapshot := { w.snapshot with
        vtx := Table.delIf w.snapshot.vtx fun _ it => it.level < minLevel
        acc := Table.delIf w.snapshot.acc fun _ it => it.2 < minLevel
        sto := Table.delIf w.snapshot.sto fun _ it => it.2 < minLevel } } := by
  refine ⟨rfl, rfl, rfl, rfl, rfl, fun k => ?_, fun hno => ⟨fun k => ?_, fun k => ?_,
    fun k => ?_⟩⟩
  · simp only [entry, Table.lookup_delIf]
    cases hk : w.snapshot.vtx.lookup k with
    | none => exact .inl rfl
    | some e =>
      by_cases hlt : e.level < minLevel
      · exact .inr ⟨by simp [hlt], e.vtx, e.level, rfl, hlt⟩
      · exact .inl (by simp [Int.not_lt.mp hlt])
  · rw [Table.lookup_delIf, hno.vtx k, Option.filter_none]
  · rw [Table.lookup_delIf, hno.acc k, Option.filter_none]
  · rw [Table.lookup_delIf, hno.sto k, Option.filter_none]

theorem foldl_clean (minLevel : Int) (l : List Nat) (db : AristoDb) :
    let db' := l.foldl
      (fun db frame => db.modifyTx frame fun w =>
        { w with
          snapshot := { w.snapshot with
            vtx := Table.delIf w.snapshot.vtx fun _ it => it.level < minLevel
            acc := Table.delIf w.snapshot.acc fun _ it => it.2 < minLevel
            sto := Table.delIf w.snapshot.sto fun _ it => it.2 < minLevel } })
      db
    (∀ G, Cleaned minLevel (db.frames G) (db'.frames G)) ∧
      db'.snapshots = db.snapshots ∧ db'.txRef = db.txRef ∧ db'.nextTx = db.nextTx ∧
      db'.maxSnapshots = db.maxSnapshots ∧ db'.vtxTab = db.vtxTab := by
  induction l generalizing db with
  | nil => exact ⟨fun G => Cleaned.refl minLevel _, rfl, rfl, rfl, rfl, rfl⟩
  | cons F l ih =>
    obtain ⟨hframes, hsnapshots, htxRef, hnext, hmax, hvtx⟩ := ih (db.modifyTx F fun w =>
      { w with
        snapshot := { w.snapshot with
          vtx := Table.delIf w.snapshot.vtx fun _ it => it.level < minLevel
          acc := Table.delIf w.snapshot.acc fun _ it => it.2 < minLevel
          sto := Table.delIf w.snapshot.sto fun _ it => it.2 < minLevel } })
    refine ⟨fun G => ?_, hsnapshots, htxRef, hnext, hmax, hvtx⟩
    refine Cleaned.trans ?_ (hframes G)
    rw [frames_modifyTx]
    split
    · next hG =>
      rw [hG]
      exact cleaned_delIf minLevel _
    · exact Cleaned.refl minLevel _

/-- `cleanSnapshots` only deletes entries below the level of the base. -/
theorem cleanSnapshots_spec (db : AristoDb) :
    (∀ G, Cleaned (db.frames db.txRef).level (db.frames G)
      (db.cleanSnapshots.frames G)) ∧
      db.cleanSnapshots.snapshots = db.snapshots ∧ db.cleanSnapshots.txRef = db.txRef ∧
      db.cleanSnapshots.nextTx = db.nextTx ∧
      db.cleanSnapshots.maxSnapshots = db.maxSnapshots ∧
      db.cleanSnapshots.vtxTab = db.vtxTab :=
  foldl_clean _ db.snapshots db

/-! ## The state after the commit -/

/-- `db'` is `db` after the frame `F` has been written to the disk. -/
structure Persisted (db db' : AristoDb) (F : Nat) : Prop where
  txRef : db'.txRef = F
  nextTx : db'.nextTx = db.nextTx
  inTree : ∀ G, InTree db' G ↔ Anc db.parent G F
  parent : ∀ G, G ≠ F → InTree db' G → db'.parent G = db.parent G
  sTab : ∀ G, G ≠ F → InTree db' G → (db'.frames G).sTab = (db.frames G).sTab
  sTab_base : ∀ k, (db'.frames F).sTab.lookup k = none

/-- What the rest of `persist` and the commit make of a consolidated tree. -/
structure Flushed (db : AristoDb) (flushed : RootedVertexID → VertexRef)
    (db₁ db' : AristoDb) (F : Nat) : Prop where
  frames : ∀ G, G ≠ F → Cleaned (db.frames F).level (db₁.frames G) (db'.frames G)
  parent_base : db'.parent F = none
  level_base : (db'.frames F).level = (db.frames F).level
  attached_base : (db'.frames F).db = true
  sTab_base : ∀ k, (db'.frames F).sTab.lookup k = none
  snapshot_base : FrameOk db' (visible db flushed F) F
  disk : ∀ k, onDisk db' k = (visible db flushed F k).map recorded
  snapshots : db'.snapshots = db₁.snapshots
  txRef : db'.txRef = F
  nextTx : db'.nextTx = db.nextTx
  maxSnapshots : db'.maxSnapshots = db.maxSnapshots

section Flushed

variable {db₁ : AristoDb}

theorem Flushed.parent_sub (hc : Consolidated db flushed db₁ F)
    (hf : Flushed db flushed db₁ db' F) {p : Nat} (hp : db'.parent G = some p) :
    db.parent G = some p := by
  by_cases hG : G = F
  · rw [hG, hf.parent_base] at hp
    cases hp
  · have hparent : (db'.frames G).parent = (db₁.frames G).parent := (hf.frames G hG).parent
    have hp' : (db₁.frames G).parent = some p := hparent ▸ hp
    rcases hc.other G hG with hsame | ⟨_, hgone⟩
    · rw [hsame] at hp'
      exact hp'
    · rw [hgone] at hp'
      cases hp'

/-- A frame above the new base is as it was, apart from its snapshot. -/
theorem Flushed.above (hc : Consolidated db flushed db₁ F)
    (hf : Flushed db flushed db₁ db' F) (hG : G ≠ F) (hanc : Anc db.parent G F) :
    Cleaned (db.frames F).level (db.frames G) (db'.frames G) := by
  have hclean := hf.frames G hG
  rcases hc.other G hG with hsame | ⟨hnot, _⟩
  · rwa [hsame] at hclean
  · exact absurd hanc hnot

section

variable (hinv : Inv db flushed)
include hinv

section

variable (hc : Consolidated db flushed db₁ F) (hf : Flushed db flushed db₁ db' F)
include hc hf

theorem Flushed.inTree_iff : InTree db' G ↔ Anc db.parent G F := by
  constructor
  · intro h
    unfold InTree at h
    rw [hf.txRef] at h
    exact h.mono fun i p hp => hf.parent_sub hc hp
  · induction G using Nat.strongRecOn with
    | ind G ih =>
      intro hanc
      by_cases hG : G = F
      · rw [InTree, hf.txRef, hG]
      · obtain ⟨p, hp, hpF⟩ := hanc.cases_parent.resolve_left hG
        have hp' : db'.parent G = some p :=
          ((hf.above hc hG hanc).parent).trans hp
        exact (ih p (hinv.parent_lt G p hp) hpF).of_parent hp'

theorem Flushed.persisted : Persisted db db' F where
  txRef := hf.txRef
  nextTx := hf.nextTx
  inTree _ := hf.inTree_iff hinv hc
  parent _ hG h := (hf.above hc hG ((hf.inTree_iff hinv hc).mp h)).parent
  sTab _ hG h := (hf.above hc hG ((hf.inTree_iff hinv hc).mp h)).sTab
  sTab_base := hf.sTab_base

/-- The most recent write before the flush is one above the new base, or the one the base
has taken to the disk. -/
theorem Flushed.lastWrite_cut (hanc : Anc db.parent G F) (k : RootedVertexID) :
    lastWrite db G k = (lastWrite db' G k).or (lastWrite db F k) := by
  have hd' : Decreasing db'.parent :=
    fun i p hp => hinv.parent_lt i p (hf.parent_sub hc hp)
  refine nearest_cut hinv.parent_lt hd' hanc hf.parent_base ?_ ?_ ?_
  · rw [ownWrite, tableWrite, hf.sTab_base k, Option.map_none]
  · intro a ha haF
    exact (hf.above hc ha haF).parent
  · intro a ha haF
    have hclean := hf.above hc ha haF
    rw [ownWrite, ownWrite, tableWrite, tableWrite, hclean.sTab, hclean.level]

end

section

variable (h : InTree db F) (hc : Consolidated db flushed db₁ F) (hf : Flushed db flushed db₁ db' F)
include h hc hf

theorem Flushed.le_lastWrite
    (hG : InTree db' G) {v : VertexRef} {l : Int} (hw : lastWrite db' G k = some (v, l)) :
    (db.frames F).level ≤ l := by
  obtain ⟨a, ha, hown⟩ := anc_of_nearest hw
  simp only [ownWrite, tableWrite, Option.map_eq_some_iff, Prod.mk.injEq] at hown
  obtain ⟨v', hv', _, hl⟩ := hown
  have hane : a ≠ F := by
    intro heq
    rw [heq, hf.sTab_base k] at hv'
    cases hv'
  have hatree : InTree db' a := hG.anc (by rw [hf.txRef]; exact hf.parent_base) ha
  have hancF := (hf.inTree_iff hinv hc).mp hatree
  have hle := hinv.level_le_of_anc (hancF.trans h) hancF
  rw [(hf.above hc hane hancF).level] at hl
  omega

theorem Flushed.snapOk (hG : G ≠ F)
    (hanc : Anc db.parent G F) (hok : SnapOk db flushed (db.frames G).snapshot.vtx G) :
    SnapOk db' (visible db flushed F) (db'.frames G).snapshot.vtx G := by
  intro k
  have hcut := hf.lastWrite_cut hinv hc hanc k
  have hbase : (db'.frames db'.txRef).level = (db.frames F).level := by
    rw [hf.txRef, hf.level_base]
  unfold EntryOk
  rw [hbase]
  rcases (hf.above hc hG hanc).entry k with hsame | ⟨hnone, v, l, hentry, hlt⟩
  · rw [hsame]
    rcases hok k with hitem | ⟨hlast, v, l, hl, hitem, hv⟩
    · rw [hitem, hcut]
      cases hw : lastWrite db' G k with
      | some item => exact .inl rfl
      | none =>
        cases hF : lastWrite db F k with
        | none => exact .inl rfl
        | some item =>
          obtain ⟨v, l⟩ := item
          have hvisible : visible db flushed F k = v := by
            rw [visible, hF]
            rfl
          exact .inr ⟨rfl, v, l, hinv.lastWrite_le h hF, rfl,
            hvisible ▸ SameVtx.refl v⟩
    · rw [hcut, Option.or_eq_none_iff] at hlast
      have hvisible : visible db flushed F k = flushed k := by
        rw [visible, hlast.2]
        rfl
      have hle := hinv.base_level_le h
      exact .inr ⟨hlast.1, v, l, by omega, hitem, hvisible ▸ hv⟩
  · -- the entry is gone: it was not that of a write above the new base
    left
    rw [hnone]
    cases hw : lastWrite db' G k with
    | none => rfl
    | some item =>
      exfalso
      rw [hw] at hcut
      have hge := hf.le_lastWrite hinv h hc ((hf.inTree_iff hinv hc).mpr hanc) hw
      rcases hok k with hitem | ⟨hlast, _⟩
      · rw [hentry, hcut] at hitem
        cases hitem
        omega
      · rw [hcut] at hlast
        cases hlast

theorem Flushed.inv : Inv db' (visible db flushed F) := by
  have hsub : ∀ i p, db'.parent i = some p → db.parent i = some p :=
    fun i p hp => hf.parent_sub hc hp
  have hlevel : ∀ G, InTree db' G → (db'.frames G).level = (db.frames G).level := by
    intro G hG
    by_cases hGF : G = F
    · rw [hGF, hf.level_base]
    · exact (hf.above hc hGF ((hf.inTree_iff hinv hc).mp hG)).level
  have htree : ∀ G, InTree db' G → InTree db G :=
    fun G hG => ((hf.inTree_iff hinv hc).mp hG).trans h
  constructor
  case parent_lt => exact fun i p hp => hinv.parent_lt i p (hsub i p hp)
  case parent_next =>
    intro i p hp
    rw [hf.nextTx]
    exact hinv.parent_next i p (hsub i p hp)
  case base_lt =>
    rw [hf.txRef, hf.nextTx]
    exact hinv.lt_next h
  case base_root => rw [hf.txRef, hf.parent_base]
  case base_level =>
    rw [hf.txRef, hf.level_base]
    have hbase := hinv.base_level
    have hle := hinv.base_level_le h
    omega
  case level_parent =>
    intro G p hp hpar
    rw [hlevel G (hp.of_parent hpar), hlevel p hp]
    exact hinv.level_parent G p (htree p hp) (hsub G p hpar)
  case level =>
    intro G
    by_cases hGF : G = F
    · rw [hGF, hf.level_base]
      exact hinv.level F
    · rw [(hf.frames G hGF).level]
      rcases hc.other G hGF with hsame | ⟨_, hgone⟩
      · rw [hsame]
        exact hinv.level G
      · rw [hgone]
        exact .inr rfl
  case attached =>
    intro G hG
    by_cases hGF : G = F
    · rw [hGF, hf.attached_base]
    · rw [(hf.above hc hGF ((hf.inTree_iff hinv hc).mp hG)).attached]
      exact hinv.attached G (htree G hG)
  case full =>
    intro G vtx hG k hk
    by_cases hGF : G = F
    · rw [hGF, hf.sTab_base k] at hk
      cases hk
    · rw [(hf.above hc hGF ((hf.inTree_iff hinv hc).mp hG)).sTab] at hk
      exact hinv.full G vtx (htree G hG) k hk
  case frameOk =>
    intro G hG
    by_cases hGF : G = F
    · rw [hGF]
      exact hf.snapshot_base
    · have hanc := (hf.inTree_iff hinv hc).mp hG
      have hclean := hf.above hc hGF hanc
      have hok := hinv.frameOk G (htree G hG)
      unfold FrameOk at hok ⊢
      rw [hclean.snapLevel]
      split at hok
      · next hsome =>
        rw [if_pos hsome]
        exact hf.snapOk hinv h hc hGF hanc hok
      · next hsome =>
        rw [if_neg hsome]
        exact hclean.none hok
  case disk => exact hf.disk
  case queue_nodup =>
    rw [hf.snapshots]
    exact hc.queue_nodup
  case queue_live =>
    intro G hG
    rw [hf.snapshots] at hG
    have hlive := hc.queue_live G hG
    by_cases hGF : G = F
    · subst hGF
      refine ⟨hf.attached_base, ?_⟩
      rw [AristoTx.isDisposed, hf.level_base]
      exact hinv.not_disposed h
    · rw [AristoTx.isDisposed, (hf.frames G hGF).attached, (hf.frames G hGF).level]
      exact hlive
  case max_pos =>
    rw [hf.maxSnapshots]
    exact hinv.max_pos

end

end

end Flushed

/-! ## `persist` -/

theorem consolidated_base (hinv : Inv db flushed) :
    Consolidated db flushed (db.modifyTx db.txRef dropRedundant) db.txRef := by
  have hself := frames_modifyTx_self db db.txRef dropRedundant
  have hok := hinv.frameOk db.txRef InTree.base
  have hkeep : (dropRedundant (db.frames db.txRef)).level =
      (db.frames db.txRef).level ∧
      (dropRedundant (db.frames db.txRef)).db = (db.frames db.txRef).db ∧
      (dropRedundant (db.frames db.txRef)).parent =
        (db.frames db.txRef).parent := by
    unfold dropRedundant
    split <;> exact ⟨rfl, rfl, rfl⟩
  refine ⟨?_, ?_, ?_, ?_, fun G hG => .inl (frames_modifyTx_of_ne _ _ hG),
    hinv.queue_nodup, fun G hG => ?_, rfl, rfl, rfl, rfl⟩
  · rw [hself]
    unfold dropRedundant
    unfold FrameOk at hok
    split
    · next hsome =>
      rw [if_pos hsome] at hok
      exact .inr ⟨hsome, fun _ => rfl, hok⟩
    · next hsome =>
      rw [if_neg hsome] at hok
      refine .inl ⟨by simpa using hsome, hok.vtx, fun k => ?_⟩
      rw [lastWrite_root hinv.parent_lt hinv.base_root, ownWrite, tableWrite]
      cases (db.frames db.txRef).sTab.lookup k <;> rfl
  · rw [hself, hkeep.1]
  · rw [hself, hkeep.2.1]
    exact hinv.attached db.txRef InTree.base
  · rw [hself, hkeep.2.2]
    exact hinv.base_root
  · have hlive := hinv.queue_live G hG
    by_cases hGF : G = db.txRef
    · rw [hGF] at hlive ⊢
      rw [AristoTx.isDisposed, hself, hkeep.1, hkeep.2.1]
      exact hlive
    · rw [frames_modifyTx_of_ne _ _ hGF]
      exact hlive

/-- The tables never hold the same vertices twice when they are staged. -/
theorem Covers.exclusive {w : AristoTx} (h : Covers db flushed w F) :
    ¬(w.snapshot.vtx.len ≠ 0 ∧ w.sTab.len ≠ 0) := by
  rintro ⟨hvtx, hsTab⟩
  rcases h with ⟨_, hnone, _⟩ | ⟨_, hnone, _⟩
  · exact hvtx (Table.len_eq_zero_iff.mpr hnone)
  · exact hsTab (Table.len_eq_zero_iff.mpr hnone)

/-- The rest of `persist` and the commit, on a consolidated tree. -/
theorem flushed_of_consolidated {db₁ : AristoDb} (hc : Consolidated db flushed db₁ F)
    {batch : PutHdl}
    (hbatch : ∀ k, ((batch.sTab.lookup k).getD (db.vtxTab k)).map VtxBlob.deblobify =
      (visible db flushed F k).map recorded) (w : AristoTx) :
    Flushed db flushed db₁
      ((((db₁.refreshCaches w).cleanSnapshots).modifyTx F emptyBase).putEndFn
        batch) F := by
  obtain ⟨hclean, hsnapshots, htxRef, hnext, hmax, hvtx⟩ :=
    cleanSnapshots_spec (db₁.refreshCaches w)
  have hlevel : ((db₁.refreshCaches w).frames (db₁.refreshCaches w).txRef).level =
      (db.frames F).level := by
    change (db₁.frames db₁.txRef).level = _
    rw [hc.txRef, hc.level]
  rw [hlevel] at hclean
  have hself := frames_modifyTx_self (db₁.refreshCaches w).cleanSnapshots F
    emptyBase
  have hcleanF := hclean F
  constructor
  case frames =>
    intro G hG
    have hframe := frames_modifyTx_of_ne (db₁.refreshCaches w).cleanSnapshots
      emptyBase hG
    change Cleaned _ _ (((db₁.refreshCaches w).cleanSnapshots.modifyTx F
      emptyBase).frames G)
    rw [hframe]
    exact hclean G
  case parent_base =>
    exact (congrArg AristoTx.parent hself).trans (hcleanF.parent.trans hc.parent)
  case level_base =>
    exact (congrArg AristoTx.level hself).trans (hcleanF.level.trans hc.level)
  case attached_base =>
    exact (congrArg AristoTx.db hself).trans (hcleanF.attached.trans hc.attached)
  case sTab_base =>
    intro k
    rw [show (((db₁.refreshCaches w).cleanSnapshots.modifyTx F emptyBase).putEndFn
      batch).frames F = _ from hself]
    rfl
  case snapshot_base =>
    unfold FrameOk
    rw [show (((db₁.refreshCaches w).cleanSnapshots.modifyTx F emptyBase).putEndFn
      batch).frames F = _ from hself]
    intro k
    left
    have hroot : (((db₁.refreshCaches w).cleanSnapshots.modifyTx F
        emptyBase).putEndFn batch).parent F = none :=
      (congrArg AristoTx.parent hself).trans (hcleanF.parent.trans hc.parent)
    rw [lastWrite, nearest, chain, List.findSome?_cons, hroot, chain_none, ownWrite,
      show (((db₁.refreshCaches w).cleanSnapshots.modifyTx F emptyBase).putEndFn
        batch).frames F = _ from hself]
    rfl
  case disk =>
    intro k
    rw [← hbatch k]
    change ((batch.sTab.lookup k).getD ((db₁.refreshCaches w).cleanSnapshots.vtxTab k)).map
      VtxBlob.deblobify = _
    rw [hvtx]
    exact congrArg (fun t => ((batch.sTab.lookup k).getD (t k)).map VtxBlob.deblobify)
      hc.vtxTab
  case snapshots => exact hsnapshots
  case txRef => exact htxRef.trans hc.txRef
  case nextTx => exact hnext.trans hc.nextTx
  case maxSnapshots => exact hmax.trans hc.maxSnapshots

/-- A frame may be persisted once it has been checkpointed; the base without changes needs
no checkpoint. -/
def Checkpointed (db : AristoDb) (F : Nat) : Prop :=
  (db.frames F).blockNumber.isSome ∨ (F = db.txRef ∧ (db.frames F).isEmpty = true)

/-- Persisting a frame of the tree and committing the batch succeeds. -/
theorem persist_spec (hinv : Inv db flushed) (h : InTree db F) (hcheck : Checkpointed db F) :
    ∃ db₁ batch, db.persist {} F = .ok (db₁, batch) ∧
      Inv (db₁.putEndFn batch) (visible db flushed F) ∧
      Persisted db (db₁.putEndFn batch) F := by
  unfold persist
  simp only [hinv.not_disposed h, Bool.false_eq_true, if_false]
  by_cases hempty : F = db.txRef ∧ (db.frames F).isEmpty = true
  · -- nothing to write: the base stays as it is
    rw [if_pos hempty]
    obtain ⟨hF, hempty⟩ := hempty
    have hsTab : ∀ k, (db.frames F).sTab.lookup k = none := by
      simp only [AristoTx.isEmpty, Bool.and_eq_true, beq_iff_eq] at hempty
      exact lookup_empty_of_len hempty.1.1.1.2
    have hroot : db.parent F = none := hF ▸ hinv.base_root
    have hvisible : visible db flushed F = flushed := by
      funext k
      rw [visible, lastWrite_root hinv.parent_lt hroot, ownWrite, tableWrite, hsTab k]
      rfl
    have hs : SameWrites db (db.putEndFn {}) := by
      refine ⟨fun _ => rfl, fun _ => rfl, fun _ => rfl, fun _ => rfl, rfl, rfl, rfl, ?_⟩
      rfl
    refine ⟨db, {}, rfl, ?_, ?_⟩
    · rw [hvisible]
      exact hinv.congr hs (fun G hG => FrameOk.of_snapshot_eq hs rfl (hinv.frameOk G hG))
        hinv.queue_nodup hinv.queue_live
    · refine ⟨hF.symm, rfl, fun G => ?_, fun _ _ _ => rfl, fun _ _ _ => rfl, hsTab⟩
      rw [hF]
      rfl
  · rw [if_neg hempty]
    obtain ⟨serial, hserial⟩ := Option.isSome_iff_exists.mp (hcheck.resolve_right hempty)
    rw [hserial]
    obtain ⟨db₁, hdb₁, hc⟩ : ∃ db₁, db.mergeChanges F = .ok db₁ ∧
        Consolidated db flushed db₁ F := by
      unfold mergeChanges
      by_cases hne : F ≠ db.txRef
      · rw [if_pos hne]
        exact consolidate_spec hinv h hne
      · rw [if_neg hne]
        have hF : F = db.txRef := not_not.mp hne
        rw [hF]
        exact ⟨_, rfl, consolidated_base hinv⟩
    obtain ⟨batch, hbatch, hrecords⟩ := putFrame_spec hinv h hc.covers
    let batch' : PutHdl := { batch with lSst := some ⟨(db.frames F).vTop, serial⟩ }
    have hrecords' : ∀ k, ((batch'.sTab.lookup k).getD (db.vtxTab k)).map
        VtxBlob.deblobify = (visible db flushed F k).map recorded := hrecords
    have hf := flushed_of_consolidated hc hrecords' (db₁.frames F)
    refine ⟨_, _, ?_, hf.inv hinv h hc, hf.persisted hinv hc⟩
    simp only [hdb₁, bind, Except.bind, if_neg hc.covers.exclusive, hbatch]
    rfl

end Nimbus.Spec.Aristo
