import Nimbus.Spec.AristoSnapshot

/-!
# Persisting a frame

`persist` merges the stack below a frame into its bottom object, moves the result into the
frame, makes it the base and stages the entries for the backend. `Covers` says what the
merged tables stand for while the loop goes up the stack, and `Consolidated` what is left
of the tree afterwards.
-/

namespace Nimbus.Spec.Aristo

open Nimbus.Native.Aristo ParentTree AristoDb

variable {db db' : AristoDb} {flushed : RootedVertexID → VertexRef} {F G : Nat}
  {k : RootedVertexID} {bottom p : Nat} {l : List Nat}

/-- A frame after `dispose`. -/
def disposedTx : AristoTx := { level := disposedLevel }

theorem frames_dispose (db : AristoDb) (F G : Nat) :
    (db.dispose F).frames G = if G = F then disposedTx else db.frames G := by
  unfold dispose
  split <;> exact frames_modifyTx _ F G _

/-- `db'` is `db` without the frames of the list `l`. -/
structure DisposedAll (l : List Nat) (db db' : AristoDb) : Prop where
  frames : ∀ G, db'.frames G = if G ∈ l then disposedTx else db.frames G
  queue_nodup : db'.snapshots.Nodup
  queue : ∀ G ∈ db'.snapshots, G ∈ db.snapshots ∧ G ∉ l
  txRef : db'.txRef = db.txRef
  nextTx : db'.nextTx = db.nextTx
  maxSnapshots : db'.maxSnapshots = db.maxSnapshots
  vtxTab : db'.vtxTab = db.vtxTab

theorem dispose_spec (hnodup : db.snapshots.Nodup)
    (hlive : ∀ G ∈ db.snapshots, (db.frames G).db = true) (F : Nat) :
    DisposedAll [F] db (db.dispose F) := by
  have hframes : ∀ G, (db.dispose F).frames G =
      if G ∈ [F] then disposedTx else db.frames G := by
    intro G
    simp only [List.mem_singleton]
    exact frames_dispose db F G
  by_cases hdb : (db.frames F).db = true
  · have heq : db.dispose F = (db.removeSnapshotFrame F).modifyTx F fun _ => disposedTx := by
      rw [dispose, if_pos hdb]
      rfl
    refine ⟨hframes, ?_, ?_, ?_, ?_, ?_, ?_⟩ <;> rw [heq]
    · exact hnodup.erase F
    · intro G hG
      have hmem := (hnodup.mem_erase_iff (a := G) (b := F)).mp hG
      exact ⟨hmem.2, by simpa using hmem.1⟩
    all_goals rfl
  · have heq : db.dispose F = db.modifyTx F fun _ => disposedTx := by
      rw [dispose, if_neg hdb]
      rfl
    refine ⟨hframes, ?_, ?_, ?_, ?_, ?_, ?_⟩ <;> rw [heq]
    · exact hnodup
    · intro G hG
      refine ⟨hG, fun hmem => hdb ?_⟩
      rw [← List.mem_singleton.mp hmem]
      exact hlive G hG
    all_goals rfl

theorem DisposedAll.trans {l l' : List Nat} {db'' : AristoDb} (h : DisposedAll l db db')
    (h' : DisposedAll l' db' db'') : DisposedAll (l ++ l') db db'' where
  frames G := by
    rw [h'.frames G, h.frames G]
    by_cases hl : G ∈ l <;> by_cases hl' : G ∈ l' <;> simp [hl, hl']
  queue_nodup := h'.queue_nodup
  queue G hG := by
    have hG' := h'.queue G hG
    have hG'' := h.queue G hG'.1
    exact ⟨hG''.1, by simp [hG'.2, hG''.2]⟩
  txRef := h'.txRef.trans h.txRef
  nextTx := h'.nextTx.trans h.nextTx
  maxSnapshots := h'.maxSnapshots.trans h.maxSnapshots
  vtxTab := h'.vtxTab.trans h.vtxTab

theorem DisposedAll.live (h : DisposedAll l db db')
    (hlive : ∀ G ∈ db.snapshots, (db.frames G).db = true) :
    ∀ G ∈ db'.snapshots, (db'.frames G).db = true := by
  intro G hG
  have hmem := h.queue G hG
  rw [h.frames, if_neg hmem.2]
  exact hlive G hmem.1

theorem foldl_dispose_spec (l : List Nat) (hnodup : db.snapshots.Nodup)
    (hlive : ∀ G ∈ db.snapshots, (db.frames G).db = true) :
    DisposedAll l db (l.foldl dispose db) := by
  induction l generalizing db with
  | nil =>
    exact ⟨fun _ => rfl, hnodup, fun G hG => ⟨hG, List.not_mem_nil⟩, rfl, rfl, rfl, rfl⟩
  | cons F l ih =>
    have hF := dispose_spec hnodup hlive F
    exact hF.trans (ih hF.queue_nodup (hF.live hlive))

/-! ## Merging the stack -/

/-- The merged tables `w` stand for the frame `f` and everything below it: either as one
table of writes, or as one snapshot. -/
def Covers (db : AristoDb) (flushed : RootedVertexID → VertexRef) (w : AristoTx) (f : Nat) : Prop :=
  (w.snapshot.level = none ∧ (∀ k, w.snapshot.vtx.lookup k = none) ∧
    ∀ k, w.sTab.lookup k = (lastWrite db f k).map Prod.fst) ∨
  (w.snapshot.level.isSome ∧ (∀ k, w.sTab.lookup k = none) ∧
    SnapOk db flushed w.snapshot.vtx f)

theorem lookup_empty_of_len {K V : Type} [DecidableEq K] {t : Table K V} (h : t.len = 0)
    (k : K) : t.lookup k = none :=
  Table.len_eq_zero_iff.mp h k

theorem prepareBottom_covers (hinv : Inv db flushed) (h : InTree db F)
    (hbottom : (db.frames F).snapshot.level.isSome ∨ db.parent F = none) :
    Covers db flushed (prepareBottom (db.frames F)) F := by
  have hok := hinv.frameOk F h
  unfold FrameOk at hok
  unfold prepareBottom
  by_cases hlen : (db.frames F).snapshot.vtx.len + (db.frames F).snapshot.acc.len +
      (db.frames F).snapshot.sto.len = 0
  · rw [if_pos hlen]
    have hvtx : ∀ k, (db.frames F).snapshot.vtx.lookup k = none :=
      lookup_empty_of_len (by omega)
    refine .inl ⟨rfl, hvtx, fun k => ?_⟩
    by_cases hsome : (db.frames F).snapshot.level.isSome
    · -- the empty snapshot is complete: there is no write at all
      rw [if_pos hsome] at hok
      have hnone : lastWrite db F k = none := by
        rcases hok k with hitem | ⟨hnone, _⟩
        · rw [← hitem, entry, hvtx k, Option.map_none]
        · exact hnone
      have hown : (db.frames F).sTab.lookup k = none := by
        cases hown : (db.frames F).sTab.lookup k with
        | none => rfl
        | some vtx =>
          rw [lastWrite_own hinv.parent_lt hown] at hnone
          cases hnone
      rw [hnone]
      exact hown
    · rw [lastWrite_root hinv.parent_lt (hbottom.resolve_left hsome), ownWrite, tableWrite]
      cases (db.frames F).sTab.lookup k <;> rfl
  · rw [if_neg hlen]
    have hsome : (db.frames F).snapshot.level.isSome := by
      by_contra hsome
      rw [if_neg hsome] at hok
      have hvtx := Table.len_eq_zero_iff.mpr hok.vtx
      have hacc := Table.len_eq_zero_iff.mpr hok.acc
      have hsto := Table.len_eq_zero_iff.mpr hok.sto
      omega
    rw [if_pos hsome] at hok
    exact .inr ⟨hsome, fun k => rfl, hok⟩

theorem mergeAndReset_spec (hd : Decreasing db.parent) {w src : AristoTx} {p : Nat}
    (hp : db.parent F = some p) (hsrc : ∀ k, tableWrite src k = ownWrite db k F)
    (hnone : src.snapshot.level = none) (h : Covers db flushed w p) :
    ∃ w' src', mergeAndReset w src = .ok (w', src') ∧ Covers db flushed w' F ∧
      w'.level = src.level ∧ w'.db = w.db ∧ w'.parent = src.parent ∧ src'.db = src.db := by
  unfold mergeAndReset
  rw [if_neg (by simp [hnone])]
  rcases h with ⟨hlevel, hvtx, hsTab⟩ | ⟨hlevel, hsTab, hsnap⟩
  · rw [if_neg (by simp [hlevel])]
    refine ⟨_, _, rfl, .inl ⟨hlevel, hvtx, fun k => ?_⟩, rfl, rfl, rfl, rfl⟩
    have hwrite := hsrc k
    rw [Table.lookup_union, hsTab k, lastWrite_parent hd hp, ← hwrite, tableWrite]
    cases src.sTab.lookup k <;> rfl
  · rw [if_pos hlevel]
    exact ⟨_, _, rfl, .inr ⟨hlevel, hsTab, SnapOk.copyFrom_parent hd hsrc hp hsnap⟩, rfl,
      rfl, rfl, rfl⟩

/-- The state of the loop in `persist` once the stack `l` up to `f` is merged into
`bottom`. -/
structure Merging (db : AristoDb) (flushed : RootedVertexID → VertexRef) (db' : AristoDb)
    (bottom : Nat) (l : List Nat) (f : Nat) : Prop where
  mem : bottom ∈ l
  frames : ∀ G, G ≠ bottom → db'.frames G = if G ∈ l then disposedTx else db.frames G
  covers : Covers db flushed (db'.frames bottom) f
  level : (db'.frames bottom).level = (db.frames f).level
  attached : (db'.frames bottom).db = true
  parent : (db'.frames bottom).parent = db.parent f
  queue_nodup : db'.snapshots.Nodup
  queue : ∀ G ∈ db'.snapshots, G ∈ db.snapshots ∧ (G = bottom ∨ G ∉ l)
  txRef : db'.txRef = db.txRef
  nextTx : db'.nextTx = db.nextTx
  maxSnapshots : db'.maxSnapshots = db.maxSnapshots
  vtxTab : db'.vtxTab = db.vtxTab

section

variable (hinv : Inv db flushed)
include hinv

theorem merging_bottom (h : InTree db F)
    (hbottom : (db.frames F).snapshot.level.isSome ∨ db.parent F = none) :
    Merging db flushed (db.modifyTx F prepareBottom) F [F] F := by
  have hself := frames_modifyTx_self db F prepareBottom
  have hkeep : (prepareBottom (db.frames F)).level = (db.frames F).level ∧
      (prepareBottom (db.frames F)).db = (db.frames F).db ∧
      (prepareBottom (db.frames F)).parent = (db.frames F).parent := by
    unfold prepareBottom
    split <;> exact ⟨rfl, rfl, rfl⟩
  refine ⟨List.mem_singleton_self F, fun G hG => ?_, ?_, ?_, ?_, ?_, hinv.queue_nodup,
    fun G hG => ⟨hG, ?_⟩, rfl, rfl, rfl, rfl⟩
  · rw [frames_modifyTx_of_ne _ _ hG, if_neg (by simpa using hG)]
  · rw [hself]
    exact prepareBottom_covers hinv h hbottom
  · rw [hself, hkeep.1]
  · rw [hself, hkeep.2.1]
    exact hinv.attached F h
  · rw [hself, hkeep.2.2]
    rfl
  · by_cases hGF : G = F
    · exact .inl hGF
    · exact .inr (by simpa using hGF)

/-- One round of the merge: the frame `F` over `p` goes into `bottom`. -/
theorem mergeFrame_spec (h : InTree db F) (hp : db.parent F = some p)
    (hnone : (db.frames F).snapshot.level = none) (hl : F ∉ l)
    (hm : Merging db flushed db' bottom l p) :
    ∃ db'', mergeFrame bottom db' F = .ok db'' ∧
      Merging db flushed db'' bottom (l ++ [F]) F := by
  have hne : F ≠ bottom := fun heq => hl (heq ▸ hm.mem)
  have hframe : db'.frames F = db.frames F := by rw [hm.frames F hne, if_neg hl]
  have hwrites : ∀ k, tableWrite (db'.frames F) k = ownWrite db k F := by
    intro k
    rw [hframe, ownWrite]
  obtain ⟨trg, src, hmerge, hcovers, hlevel, hdb, hparent, hsrc⟩ :=
    mergeAndReset_spec hinv.parent_lt hp hwrites (by rw [hframe, hnone]) hm.covers
  let db₂ := (db'.modifyTx bottom fun _ => trg).modifyTx F fun _ => src
  have hframes₂ : ∀ G, db₂.frames G =
      if G = F then src else if G = bottom then trg else db'.frames G := by
    intro G
    rw [frames_modifyTx, frames_modifyTx]
  have hlive₂ : ∀ G ∈ db₂.snapshots, (db₂.frames G).db = true := by
    intro G hG
    have hmem := hm.queue G hG
    rw [hframes₂]
    split
    · rw [hsrc, hframe]
      exact hinv.attached F h
    · split
      · rw [hdb]
        exact hm.attached
      · next hGb =>
        rw [hm.frames G hGb, if_neg (hmem.2.resolve_left hGb)]
        exact (hinv.queue_live G hmem.1).1
  have hnodup₂ : db₂.snapshots.Nodup := hm.queue_nodup
  have hdisp := dispose_spec hnodup₂ hlive₂ F
  refine ⟨db₂.dispose F, ?_, ?_⟩
  · unfold mergeFrame
    rw [if_neg (by rw [hframe]; simp [hinv.not_disposed h]), hmerge]
    rfl
  have hbottom : (db₂.dispose F).frames bottom = trg := by
    rw [hdisp.frames, if_neg (by simpa using Ne.symm hne), hframes₂,
      if_neg (Ne.symm hne), if_pos rfl]
  refine ⟨List.mem_append_left _ hm.mem, fun G hG => ?_, by rwa [hbottom], ?_, ?_, ?_,
    hdisp.queue_nodup, fun G hG => ?_, hdisp.txRef.trans hm.txRef,
    hdisp.nextTx.trans hm.nextTx, hdisp.maxSnapshots.trans hm.maxSnapshots,
    hdisp.vtxTab.trans hm.vtxTab⟩
  · rw [hdisp.frames]
    by_cases hGF : G = F
    · rw [if_pos (by simpa using hGF), if_pos (by simp [hGF])]
    · rw [hframes₂, if_neg hG, hm.frames G hG]
      simp [hGF]
  · rw [hbottom, hlevel, hframe]
  · rw [hbottom, hdb]
    exact hm.attached
  · rw [hbottom, hparent, hframe]
    rfl
  · have hG₂ := hdisp.queue G hG
    have hmem := hm.queue G hG₂.1
    refine ⟨hmem.1, hmem.2.imp_right fun hnot => ?_⟩
    simp only [List.mem_append, not_or]
    exact ⟨hnot, hG₂.2⟩

/-- The whole loop: the stack up to `F` is merged into the frame it starts at. -/
theorem merge_loop (hl : Stack db l F)
    (h : InTree db F) {bottom : Nat} {rest : List Nat} (heq : l = bottom :: rest) :
    ∃ db', rest.foldlM (mergeFrame bottom)
        (db.modifyTx bottom prepareBottom) = .ok db' ∧
      Merging db flushed db' bottom l F := by
  induction hl generalizing rest with
  | bottom F hbottom =>
    cases heq
    exact ⟨_, rfl, merging_bottom hinv h hbottom⟩
  | @up l p F hl hp hnone ih =>
    have hltree := h.parent hp hinv.base_root
    have hnot : F ∉ l := by
      intro hmem
      have hle := (hl.anc F hmem).le hinv.parent_lt
      have hlt := hinv.parent_lt F p hp
      omega
    obtain ⟨rest', rfl, rfl⟩ : ∃ rest', l = bottom :: rest' ∧ rest = rest' ++ [F] := by
      cases l with
      | nil => exact absurd hl.mem_self List.not_mem_nil
      | cons b rest' =>
        cases heq
        exact ⟨rest', rfl, rfl⟩
    obtain ⟨db₁, hdb₁, hm⟩ := ih hltree rfl
    obtain ⟨db', hdb', hm'⟩ := mergeFrame_spec hinv h hp hnone hnot hm
    exact ⟨db', foldlM_concat hdb₁ hdb', hm'⟩

/-! ## The new base -/

/-- `db'` has the changes up to `F` in the frame `F`, which is the base now. Frames above
`F` are as they were; those below it may be gone. -/
structure Consolidated (db : AristoDb) (flushed : RootedVertexID → VertexRef)
    (db' : AristoDb) (F : Nat) : Prop where
  covers : Covers db flushed (db'.frames F) F
  level : (db'.frames F).level = (db.frames F).level
  attached : (db'.frames F).db = true
  parent : (db'.frames F).parent = none
  other : ∀ G, G ≠ F → db'.frames G = db.frames G ∨
    (¬ Anc db.parent G F ∧ db'.frames G = disposedTx)
  queue_nodup : db'.snapshots.Nodup
  queue_live : ∀ G ∈ db'.snapshots, (db'.frames G).db = true ∧
    (db'.frames G).isDisposed = false
  txRef : db'.txRef = F
  nextTx : db'.nextTx = db.nextTx
  maxSnapshots : db'.maxSnapshots = db.maxSnapshots
  vtxTab : db'.vtxTab = db.vtxTab

/-- The frames below the new base are disposed, and its link to them is cut. -/
theorem consolidated_of_swapped {p : Nat}
    (hcovers : Covers db flushed (db'.frames F) F)
    (hlevel : (db'.frames F).level = (db.frames F).level) (hattached : (db'.frames F).db = true)
    (hother : ∀ G, G ≠ F → db'.frames G = db.frames G ∨
      (¬ Anc db.parent G F ∧ db'.frames G = disposedTx))
    (hbelow : ∀ G, Anc db'.parent p G → G ≠ F ∧ ¬ Anc db.parent G F) (hnodup : db'.snapshots.Nodup)
    (hqueue : ∀ G ∈ db'.snapshots, G ∈ db.snapshots ∧ G ≠ F ∧ db'.frames G = db.frames G)
    (htxRef : db'.txRef = F) (hnext : db'.nextTx = db.nextTx)
    (hmax : db'.maxSnapshots = db.maxSnapshots) (hvtx : db'.vtxTab = db.vtxTab) :
    Consolidated db flushed
      (((db'.stack (some p) false).foldl dispose db').modifyTx F
        fun w => { w with parent := none }) F := by
  have hstack : ∀ G ∈ db'.stack (some p) false, Anc db'.parent p G := by
    intro G hG
    have hchain : G ∈ chain (db'.nextFrame false) db'.nextTx (some p) :=
      List.mem_reverse.mp hG
    exact anc_of_mem_chain hchain
  have hlive : ∀ G ∈ db'.snapshots, (db'.frames G).db = true := by
    intro G hG
    have hmem := hqueue G hG
    rw [hmem.2.2]
    exact (hinv.queue_live G hmem.1).1
  have hdisp := foldl_dispose_spec (db'.stack (some p) false) hnodup hlive
  have hF : F ∉ db'.stack (some p) false := fun hmem => (hbelow F (hstack F hmem)).1 rfl
  have hself := frames_modifyTx_self ((db'.stack (some p) false).foldl dispose db')
    F fun w => { w with parent := none }
  rw [hdisp.frames F, if_neg hF] at hself
  refine ⟨by rw [hself]; exact hcovers, by rw [hself]; exact hlevel,
    by rw [hself]; exact hattached, by rw [hself], fun G hG => ?_, hdisp.queue_nodup,
    fun G hG => ?_, hdisp.txRef.trans htxRef, hdisp.nextTx.trans hnext,
    hdisp.maxSnapshots.trans hmax, hdisp.vtxTab.trans hvtx⟩
  · rw [frames_modifyTx_of_ne _ _ hG, hdisp.frames]
    split
    · next hmem => exact .inr ⟨(hbelow G (hstack G hmem)).2, rfl⟩
    · exact hother G hG
  · have hG₁ := hdisp.queue G hG
    have hG₂ := hqueue G hG₁.1
    rw [frames_modifyTx_of_ne _ _ hG₂.2.1, hdisp.frames, if_neg hG₁.2, hG₂.2.2]
    exact hinv.queue_live G hG₂.1

end

theorem not_anc_of_lt (hd : Decreasing db.parent) {p : Nat} (hp : db.parent F = some p)
    (ha : Anc db.parent p G) : G ≠ F ∧ ¬ Anc db.parent G F := by
  have hlt := hd F p hp
  have hle := ha.le hd
  constructor
  · omega
  · intro hanc
    have hle' := hanc.le hd
    omega

theorem rebase_eq (hp : (db.frames bottom).parent = some p) :
    db.rebase bottom F =
      (let db₂ := ({ db.swapFrames bottom F with txRef := F }).removeSnapshotFrame bottom
       ((db₂.stack (some p) false).foldl dispose db₂).modifyTx F
        fun w => { w with parent := none }) := by
  have hpar : (removeSnapshotFrame
      { db.swapFrames bottom F with txRef := F } bottom).parent F = some p := by
    change ((db.swapFrames bottom F).frames F).parent = some p
    rw [swapFrames, frames_modifyTx_self, hp]
  unfold rebase
  simp only [hpar, Option.isNone_some, Bool.false_eq_true, if_false]

/-- Persisting a frame that has a snapshot of its own: nothing is merged. -/
theorem consolidated_single (hinv : Inv db flushed) {p : Nat} (hp : db.parent F = some p)
    (hm : Merging db flushed db' F [F] F) : Consolidated db flushed (db'.rebase F F) F := by
  have hframes : ∀ G, (db'.swapFrames F F).frames G = db'.frames G := by
    intro G
    unfold swapFrames
    rw [frames_modifyTx, frames_modifyTx]
    split
    · next h => rw [h]
    · rfl
  have hkeep : ∀ G, G ≠ F → (db'.swapFrames F F).frames G = db.frames G := by
    intro G hG
    rw [hframes, hm.frames G hG, if_neg (by simpa using hG)]
  have hparents : ∀ G, ((db'.swapFrames F F).frames G).parent = db.parent G := by
    intro G
    by_cases hG : G = F
    · rw [hG, hframes]
      exact hm.parent
    · rw [hkeep G hG]
      rfl
  have hself := hframes F
  rw [rebase_eq (hm.parent.trans hp)]
  refine consolidated_of_swapped hinv ?_ ?_ ?_ (fun G hG => .inl (hkeep G hG)) ?_
    (hm.queue_nodup.erase F) ?_ rfl hm.nextTx hm.maxSnapshots hm.vtxTab
  · exact hself ▸ hm.covers
  · exact hself ▸ hm.level
  · exact hself ▸ hm.attached
  · intro G hG
    have hanc : Anc db.parent p G := by
      have hpar : (removeSnapshotFrame
          { db'.swapFrames F F with txRef := F } F).parent = db.parent := funext hparents
      rwa [hpar] at hG
    exact not_anc_of_lt hinv.parent_lt hp hanc
  · intro G hG
    have hmem := (hm.queue_nodup.mem_erase_iff (a := G) (b := F)).mp hG
    exact ⟨(hm.queue G hmem.2).1, hmem.1, hkeep G hmem.1⟩

/-- Persisting a frame over a stack: its object takes the merged tables. -/
theorem consolidated_merged (hinv : Inv db flushed)
    (hp : db.parent F = some p) (hl : Stack db l p) (hbottom : bottom ∈ l)
    (hm : Merging db flushed db' bottom (l ++ [F]) F) :
    Consolidated db flushed (db'.rebase bottom F) F := by
  have hbelow : ∀ G ∈ l, G ≠ F ∧ ¬ Anc db.parent G F :=
    fun G hG => not_anc_of_lt hinv.parent_lt hp (hl.anc G hG)
  have hne : bottom ≠ F := (hbelow bottom hbottom).1
  have hF : db'.frames F = disposedTx := by
    rw [hm.frames F (Ne.symm hne), if_pos (by simp)]
  have hframes : ∀ G, (db'.swapFrames bottom F).frames G =
      if G = F then db'.frames bottom
      else if G = bottom then disposedTx else db'.frames G := by
    intro G
    unfold swapFrames
    rw [frames_modifyTx, frames_modifyTx, hF]
  have hself : (db'.swapFrames bottom F).frames F = db'.frames bottom := by
    rw [hframes, if_pos rfl]
  have hgone : ∀ G ∈ l, (db'.swapFrames bottom F).frames G = disposedTx := by
    intro G hG
    rw [hframes, if_neg (hbelow G hG).1]
    split
    · rfl
    · next hGb => rw [hm.frames G hGb, if_pos (List.mem_append_left _ hG)]
  have hkeep : ∀ G, G ∉ l ++ [F] → (db'.swapFrames bottom F).frames G = db.frames G := by
    intro G hG
    simp only [List.mem_append, List.mem_singleton, not_or] at hG
    have hGb : G ≠ bottom := fun heq => hG.1 (heq ▸ hbottom)
    rw [hframes, if_neg hG.2, if_neg hGb, hm.frames G hGb, if_neg (by simp [hG])]
  rw [rebase_eq (hm.parent.trans hp)]
  refine consolidated_of_swapped hinv ?_ ?_ ?_ (fun G hG => ?_) ?_
    (hm.queue_nodup.erase bottom) ?_ rfl hm.nextTx hm.maxSnapshots hm.vtxTab
  · exact hself ▸ hm.covers
  · exact hself ▸ hm.level
  · exact hself ▸ hm.attached
  · by_cases hGl : G ∈ l
    · exact .inr ⟨(hbelow G hGl).2, hgone G hGl⟩
    · exact .inl (hkeep G (by simp [hGl, hG]))
  · intro G hG
    -- the frame below `F` has lost its own link, so the walk ends at it
    have hroot : (removeSnapshotFrame
        { db'.swapFrames bottom F with txRef := F } bottom).parent p = none :=
      congrArg AristoTx.parent (hgone p hl.mem_self)
    rw [← hG.eq_of_root hroot]
    exact hbelow p hl.mem_self
  · intro G hG
    have hmem := (hm.queue_nodup.mem_erase_iff (a := G) (b := bottom)).mp hG
    have hqueue := hm.queue G hmem.2
    have hnot := hqueue.2.resolve_left hmem.1
    have hGF : G ≠ F := fun heq => hnot (by simp [heq])
    exact ⟨hqueue.1, hGF, hkeep G hnot⟩

/-- Consolidation of a frame of the tree other than the base succeeds. -/
theorem consolidate_spec (hinv : Inv db flushed) (h : InTree db F) (hne : F ≠ db.txRef) :
    ∃ db', db.consolidate F = .ok db' ∧ Consolidated db flushed db' F := by
  obtain ⟨p, hp, hptree⟩ := h.exists_parent hne
  have hstack := stack_spec hinv.parent_lt (hinv.lt_next h)
  unfold consolidate
  rw [if_neg (by simp [hp])]
  generalize db.stack (some F) true = l at hstack
  cases hstack with
  | bottom _ hbottom =>
    obtain ⟨db₁, hdb₁, hm⟩ := merge_loop hinv (.bottom F hbottom) h rfl
    refine ⟨_, ?_, consolidated_single hinv hp hm⟩
    simp only [hinv.not_disposed h, Bool.false_eq_true, if_false, hdb₁, bind, Except.bind]
  | @up l q _ hl hq hnone =>
    rw [hp] at hq
    cases hq
    obtain ⟨bottom, rest, rfl⟩ : ∃ bottom rest, l = bottom :: rest := by
      cases l with
      | nil => exact absurd hl.mem_self List.not_mem_nil
      | cons bottom rest => exact ⟨bottom, rest, rfl⟩
    have hbottom : bottom ∈ bottom :: rest := List.mem_cons_self
    have hbtree := hptree.anc hinv.base_root (hl.anc bottom hbottom)
    have hsplit : (bottom :: rest) ++ [F] = bottom :: (rest ++ [F]) := rfl
    obtain ⟨db₁, hdb₁, hm⟩ := merge_loop hinv (.up F hl hp hnone) h hsplit
    refine ⟨_, ?_, consolidated_merged hinv hp hl hbottom hm⟩
    simp only [List.cons_append, hinv.not_disposed hbtree, Bool.false_eq_true, if_false,
      hdb₁, bind, Except.bind]

end Nimbus.Spec.Aristo
