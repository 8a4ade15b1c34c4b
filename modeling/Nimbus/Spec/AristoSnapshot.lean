import Nimbus.Spec.AristoView
import Mathlib.Data.Finset.Max

/-!
# Snapshots

What `buildSnapshot`, `addSnapshotFrame` and `clearSnapshot` do to a sound tree of frames.
The stack a snapshot is built from starts at the nearest frame that has a snapshot, or at
the base; `Stack` is that list, and going up it the snapshot under construction stands for
one frame after the other.
-/

namespace Nimbus.Spec.Aristo

open Nimbus.Native.Aristo ParentTree AristoDb

variable {db db' : AristoDb} {flushed : RootedVertexID → VertexRef} {F G tx : Nat}
  {k : RootedVertexID}

theorem frames_modifyTx (db : AristoDb) (F G : Nat) (f : AristoTx → AristoTx) :
    (db.modifyTx F f).frames G = if G = F then f (db.frames F) else db.frames G := by
  simp [modifyTx, Function.update_apply]

theorem frames_modifyTx_self (db : AristoDb) (F : Nat) (f : AristoTx → AristoTx) :
    (db.modifyTx F f).frames F = f (db.frames F) := by
  rw [frames_modifyTx, if_pos rfl]

theorem frames_modifyTx_of_ne (db : AristoDb) (f : AristoTx → AristoTx) (h : G ≠ F) :
    (db.modifyTx F f).frames G = db.frames G := by
  rw [frames_modifyTx, if_neg h]

/-! ## The stack below a frame -/

/-- `Stack db l F`: the list `l` goes up from a frame that has a snapshot or no parent,
over frames without a snapshot, to `F`. -/
inductive Stack (db : AristoDb) : List Nat → Nat → Prop where
  | bottom (F : Nat) (h : (db.frames F).snapshot.level.isSome ∨ db.parent F = none) :
      Stack db [F] F
  | up {l : List Nat} {p : Nat} (F : Nat) (hl : Stack db l p) (hp : db.parent F = some p)
      (hnone : (db.frames F).snapshot.level = none) : Stack db (l ++ [F]) F

theorem chain_stack (hd : Decreasing db.parent) (fuel F : Nat) (hlt : F < fuel) :
    Stack db (chain (db.nextFrame true) fuel (some F)).reverse F := by
  induction fuel generalizing F with
  | zero => omega
  | succ fuel ih =>
    rw [chain, List.reverse_cons]
    cases hs : (db.frames F).snapshot.level with
    | some l =>
      have hnext : db.nextFrame true F = none := by simp [nextFrame, hs]
      rw [hnext, chain_none]
      exact .bottom F (.inl (by rw [hs]; rfl))
    | none =>
      have hnext : db.nextFrame true F = db.parent F := by simp [nextFrame, hs]
      rw [hnext]
      cases hp : db.parent F with
      | none =>
        rw [chain_none]
        exact .bottom F (.inr hp)
      | some p =>
        have hlt' := hd F p hp
        exact .up F (ih p (by omega)) hp hs

/-- The stack of a frame that exists goes up to it from the nearest snapshot. -/
theorem stack_spec (hd : Decreasing db.parent) (hlt : F < db.nextTx) :
    Stack db (db.stack (some F) true) F :=
  chain_stack hd db.nextTx F hlt

variable {l : List Nat}

theorem Stack.anc (h : Stack db l F) : ∀ G ∈ l, Anc db.parent F G := by
  induction h with
  | bottom F _ =>
    intro G hG
    rw [List.mem_singleton.mp hG]
  | up F _ hp _ ih =>
    intro G hG
    rcases List.mem_append.mp hG with hG | hG
    · exact Anc.head hp (ih G hG)
    · rw [List.mem_singleton.mp hG]

theorem Stack.mem_self (h : Stack db l F) : F ∈ l := by
  cases h <;> simp

/-! ## Adding a frame to a snapshot -/

/-- Changing the hash keys of entries keeps their vertices and levels. -/
theorem entry_foldl_modify (l : List (Sigma fun _ : RootedVertexID => HashKey))
    (t : Table RootedVertexID VtxSnapshot) (k : RootedVertexID) :
    entry (l.foldl (fun t e => Table.modify t e.1 fun v => { v with key := e.2 }) t) k =
      entry t k := by
  induction l generalizing t with
  | nil => rfl
  | cons e l ih =>
    rw [List.foldl_cons, ih, entry, Table.lookup_modify]
    split
    · next h => rw [h, Option.map_map]; rfl
    · rfl

/-- `copyFrom` puts the writes of the frame over the entries of the snapshot. -/
theorem entry_copyFrom (snapshot : Snapshot) (w : AristoTx) (k : RootedVertexID) :
    entry (snapshot.copyFrom w).vtx k = (tableWrite w k).or (entry snapshot.vtx k) := by
  unfold Snapshot.copyFrom
  rw [entry_foldl_modify, entry, Table.lookup_putAll, tableWrite]
  cases w.sTab.lookup k <;> rfl

/-- A frame's own writes over a snapshot that is sound for all other keys. -/
theorem SnapOk.copyFrom (hd : Decreasing db.parent) {snapshot : Snapshot} {w : AristoTx}
    (hw : ∀ k, tableWrite w k = ownWrite db k F)
    (h : ∀ k, ownWrite db k F = none → EntryOk db flushed F k (entry snapshot.vtx k)) :
    SnapOk db flushed (snapshot.copyFrom w).vtx F := by
  intro k
  rw [entry_copyFrom, hw]
  cases hown : ownWrite db k F with
  | some item =>
    left
    rw [Option.some_or, lastWrite, nearest_self hd hown]
  | none =>
    exact h k hown

theorem SnapOk.copyFrom_parent (hd : Decreasing db.parent) {snapshot : Snapshot}
    {w : AristoTx} {p : Nat} (hw : ∀ k, tableWrite w k = ownWrite db k F)
    (hp : db.parent F = some p) (h : SnapOk db flushed snapshot.vtx p) :
    SnapOk db flushed (snapshot.copyFrom w).vtx F := by
  refine SnapOk.copyFrom hd hw fun k hown => ?_
  have hlast : lastWrite db F k = lastWrite db p k := by
    rw [lastWrite_parent hd hp, hown, Option.none_or]
  unfold EntryOk
  rw [hlast]
  exact h k

theorem SnapOk.copyFrom_root (hd : Decreasing db.parent) {snapshot : Snapshot}
    {w : AristoTx} (hw : ∀ k, tableWrite w k = ownWrite db k F)
    (hp : db.parent F = none) (h : NoSnapshot snapshot) :
    SnapOk db flushed (snapshot.copyFrom w).vtx F := by
  refine SnapOk.copyFrom hd hw fun k hown => ?_
  left
  rw [lastWrite_root hd hp, hown, entry, h.vtx k, Option.map_none]

/-! ## Building a snapshot -/

theorem SameWrites.tableWrite (h : SameWrites db db') (F : Nat) (k : RootedVertexID) :
    tableWrite (db'.frames F) k = ownWrite db k F := by
  rw [ownWrite, Aristo.tableWrite, Aristo.tableWrite, h.sTab, h.level]

theorem SameWrites.snapshot (db : AristoDb) (F : Nat) (f : AristoTx → Snapshot) :
    SameWrites db (db.modifyTx F fun w => { w with snapshot := f w }) :=
  SameWrites.modifyTx db F rfl rfl rfl rfl

/-- What the loop in `buildSnapshot` leaves alone: writes stay where they are, and frames
other than `tx` keep their snapshots or lose them. -/
structure Moved (tx : Nat) (db db' : AristoDb) : Prop where
  same : SameWrites db db'
  other : ∀ G, G ≠ tx → (db'.frames G).snapshot = (db.frames G).snapshot ∨
    (db'.frames G).snapshot = {}
  queue_nodup : db'.snapshots.Nodup
  queue : ∀ G ∈ db'.snapshots, G ∈ db.snapshots

theorem Moved.refl (hinv : Inv db flushed) : Moved tx db db :=
  ⟨SameWrites.refl db, fun _ _ => .inl rfl, hinv.queue_nodup, fun _ h => h⟩

theorem Moved.snapshot (h : Moved tx db db') (f : AristoTx → Snapshot) :
    Moved tx db (db'.modifyTx tx fun w => { w with snapshot := f w }) where
  same := h.same.trans (SameWrites.snapshot db' tx f)
  other G hG := by
    rw [frames_modifyTx_of_ne _ _ hG]
    exact h.other G hG
  queue_nodup := h.queue_nodup
  queue := h.queue

theorem Moved.clear (h : Moved tx db db') (F : Nat) :
    Moved tx db ((db'.modifyTx F fun w => { w with snapshot := {} }).removeSnapshotFrame F)
    where
  same := by
    have hs := h.same.trans (SameWrites.snapshot db' F fun _ => {})
    exact ⟨hs.parent, hs.level, hs.attached, hs.sTab, hs.txRef, hs.nextTx,
      hs.maxSnapshots, hs.vtxTab⟩
  other G hG := by
    by_cases hGF : G = F
    · subst hGF
      right
      exact congrArg AristoTx.snapshot
        (frames_modifyTx_self db' G fun w => { w with snapshot := {} })
    · have hframe : (db'.modifyTx F fun w => { w with snapshot := {} }).frames G =
          db'.frames G := frames_modifyTx_of_ne _ _ hGF
      rcases h.other G hG with hsame | hnone
      · left
        exact (congrArg AristoTx.snapshot hframe).trans hsame
      · right
        exact (congrArg AristoTx.snapshot hframe).trans hnone
  queue_nodup := h.queue_nodup.erase F
  queue G hG := h.queue G (List.mem_of_mem_erase hG)

/-- The last part of each round. -/
def copied (db : AristoDb) (tx F : Nat) : AristoDb :=
  db.modifyTx tx fun w => { w with snapshot := w.snapshot.copyFrom (db.frames F) }

theorem addToSnapshot_self (db : AristoDb) (tx : Nat) (minLevel : Int) :
    addToSnapshot tx minLevel db tx = .ok (copied db tx tx) := by
  simp only [addToSnapshot, ne_eq, not_true_eq_false, if_false]
  rfl

theorem addToSnapshot_plain (minLevel : Int) (hne : F ≠ tx)
    (hlive : (db.frames F).isDisposed = false) (hnone : (db.frames F).snapshot.level = none) :
    addToSnapshot tx minLevel db F = .ok (copied db tx F) := by
  simp only [addToSnapshot, ne_eq, hne, not_false_eq_true, if_true, hlive, hnone,
    Option.isSome_none, Bool.false_eq_true, if_false]
  rfl

theorem addToSnapshot_move (minLevel : Int) (hne : F ≠ tx)
    (hlive : (db.frames F).isDisposed = false)
    (hsome : (db.frames F).snapshot.level.isSome) (hkey : db.isKeyframe tx = false) :
    addToSnapshot tx minLevel db F =
      .ok (copied (((db.modifyTx tx fun w =>
        { w with snapshot := (db.frames F).snapshot }).modifyTx F fun w =>
          { w with snapshot := {} }).removeSnapshotFrame F) tx F) := by
  simp only [addToSnapshot, ne_eq, hne, not_false_eq_true, if_true, hlive,
    hsome, hkey, Bool.false_eq_true, if_false]
  rfl

theorem copied_snapshot (db : AristoDb) (tx F : Nat) :
    ((copied db tx F).frames tx).snapshot =
      (db.frames tx).snapshot.copyFrom (db.frames F) :=
  congrArg AristoTx.snapshot (frames_modifyTx_self db tx _)

/-- The first round: the snapshot of the frame that the stack starts at moves into `tx`. -/
theorem addToSnapshot_bottom (hinv : Inv db flushed) (htx : InTree db tx) (hne : F ≠ tx)
    (hanc : Anc db.parent tx F) (htop : NoSnapshot (db.frames tx).snapshot) (minLevel : Int)
    (hbottom : (db.frames F).snapshot.level.isSome ∨ db.parent F = none) :
    ∃ db', addToSnapshot tx minLevel db F = .ok db' ∧ Moved tx db db' ∧
      SnapOk db flushed (db'.frames tx).snapshot.vtx F := by
  have hF : InTree db F := htx.anc hinv.base_root hanc
  have hlive := hinv.not_disposed hF
  have hok := hinv.frameOk F hF
  unfold FrameOk at hok
  by_cases hsome : (db.frames F).snapshot.level.isSome
  · rw [if_pos hsome] at hok
    have hkey : db.isKeyframe tx = false := by
      have hbase : tx ≠ db.txRef := fun heq =>
        hne (hanc.eq_of_root (heq ▸ hinv.base_root)).symm
      simpa [isKeyframe] using hbase
    have hrefl : Moved tx db db := Moved.refl hinv
    have hmoved := (hrefl.snapshot fun _ => (db.frames F).snapshot).clear F
    refine ⟨_, addToSnapshot_move minLevel hne hlive hsome hkey, hmoved.snapshot _, ?_⟩
    rw [copied_snapshot]
    have htop' : (((db.modifyTx tx fun w =>
        { w with snapshot := (db.frames F).snapshot }).modifyTx F fun w =>
          { w with snapshot := {} }).removeSnapshotFrame F).frames tx =
        { db.frames tx with snapshot := (db.frames F).snapshot } := by
      rw [removeSnapshotFrame, frames_modifyTx_of_ne _ _ (Ne.symm hne),
        frames_modifyTx_self]
    rw [htop']
    exact SnapOk.copyFrom hinv.parent_lt (hmoved.same.tableWrite F) fun k _ => hok k
  · have hnone : (db.frames F).snapshot.level = none := by simpa using hsome
    have hroot : db.parent F = none := hbottom.resolve_left hsome
    refine ⟨_, addToSnapshot_plain minLevel hne hlive hnone,
      (Moved.refl hinv).snapshot _, ?_⟩
    rw [copied_snapshot]
    exact SnapOk.copyFrom_root hinv.parent_lt (fun _ => rfl) hroot htop

theorem foldlM_concat {α β ε : Type} {f : β → α → Except ε β} {l : List α} {a : α}
    {b b' b'' : β} (h : l.foldlM f b = .ok b') (ha : f b' a = .ok b'') :
    (l ++ [a]).foldlM f b = .ok b'' := by
  rw [List.foldlM_append, h]
  change List.foldlM f b' [a] = _
  rw [List.foldlM_cons, ha]
  rfl

/-- Going up the stack below `tx`, its snapshot stands for one frame after the other. -/
theorem buildSnapshot_below (hinv : Inv db flushed) (htx : InTree db tx)
    (htop : NoSnapshot (db.frames tx).snapshot) (minLevel : Int)
    (hl : Stack db l F) (hne : F ≠ tx) (hanc : Anc db.parent tx F) :
    ∃ db', l.foldlM (addToSnapshot tx minLevel) db = .ok db' ∧ Moved tx db db' ∧
      SnapOk db flushed (db'.frames tx).snapshot.vtx F := by
  induction hl with
  | bottom F hbottom =>
    obtain ⟨db', hdb', hmoved, hsnap⟩ :=
      addToSnapshot_bottom hinv htx hne hanc htop minLevel hbottom
    exact ⟨db', by simp [hdb'], hmoved, hsnap⟩
  | @up l p F hl hp hnone ih =>
    have hpne : p ≠ tx := by
      intro heq
      have hlt := hinv.parent_lt F p hp
      have hle := hanc.le hinv.parent_lt
      omega
    obtain ⟨db₁, hdb₁, hmoved, hsnap⟩ := ih hpne (hanc.tail hp)
    have hF : InTree db F := htx.anc hinv.base_root hanc
    have hlive : (db₁.frames F).isDisposed = false := by
      rw [AristoTx.isDisposed, hmoved.same.level]
      exact hinv.not_disposed hF
    have hnone' : (db₁.frames F).snapshot.level = none := by
      rcases hmoved.other F hne with h | h
      · rw [h, hnone]
      · rw [h]
    refine ⟨copied db₁ tx F, foldlM_concat hdb₁ (addToSnapshot_plain minLevel hne hlive
      hnone'), hmoved.snapshot _, ?_⟩
    rw [copied_snapshot]
    exact SnapOk.copyFrom_parent hinv.parent_lt (hmoved.same.tableWrite F) hp hsnap

/-- At the end of the loop the snapshot of `tx` stands for `tx`. -/
theorem buildSnapshot_loop (hinv : Inv db flushed) (htx : InTree db tx) (minLevel : Int)
    (hl : Stack db l tx) :
    ∃ db', l.foldlM (addToSnapshot tx minLevel) db = .ok db' ∧ Moved tx db db' ∧
      SnapOk db flushed (db'.frames tx).snapshot.vtx tx := by
  have hok := hinv.frameOk tx htx
  unfold FrameOk at hok
  cases hl with
  | bottom _ hbottom =>
    refine ⟨copied db tx tx, by simp [addToSnapshot_self], (Moved.refl hinv).snapshot _, ?_⟩
    rw [copied_snapshot]
    by_cases hsome : (db.frames tx).snapshot.level.isSome
    · rw [if_pos hsome] at hok
      exact SnapOk.copyFrom hinv.parent_lt (fun _ => rfl) fun k _ => hok k
    · rw [if_neg hsome] at hok
      exact SnapOk.copyFrom_root hinv.parent_lt (fun _ => rfl)
        (hbottom.resolve_left hsome) hok
  | @up l p _ hl hp hnone =>
    rw [hnone] at hok
    have hpne : p ≠ tx := Nat.ne_of_lt (hinv.parent_lt tx p hp)
    obtain ⟨db₁, hdb₁, hmoved, hsnap⟩ :=
      buildSnapshot_below hinv htx hok minLevel hl hpne (Anc.parent hp)
    refine ⟨copied db₁ tx tx, foldlM_concat hdb₁ (addToSnapshot_self db₁ tx minLevel),
      hmoved.snapshot _, ?_⟩
    rw [copied_snapshot]
    exact SnapOk.copyFrom_parent hinv.parent_lt (hmoved.same.tableWrite tx) hp hsnap

/-- A snapshot moved or dropped keeps the invariant when the one of `tx` stands for it. -/
theorem Moved.inv (hinv : Inv db flushed) (h : Moved tx db db') (htx : FrameOk db' flushed tx) :
    Inv db' flushed := by
  refine hinv.congr h.same (fun F hF => ?_) h.queue_nodup
    fun F hF => hinv.queue_live F (h.queue F hF)
  by_cases hne : F = tx
  · rw [hne]
    exact htx
  · rcases h.other F hne with hsnap | hsnap
    · exact FrameOk.of_snapshot_eq h.same hsnap (hinv.frameOk F hF)
    · exact FrameOk.of_cleared hsnap

/-! ## The snapshot queue -/

theorem removeSnapshotFrame_sameWrites (db : AristoDb) (F : Nat) :
    SameWrites db (db.removeSnapshotFrame F) :=
  ⟨fun _ => rfl, fun _ => rfl, fun _ => rfl, fun _ => rfl, rfl, rfl, rfl, rfl⟩

theorem clearSnapshot_spec (hinv : Inv db flushed) (hlive : (db.frames F).isDisposed = false) :
    ∃ db', db.clearSnapshot F = .ok db' ∧ Inv db' flushed ∧ SameWrites db db' ∧
      db'.snapshots = db.snapshots ∧
      ∀ G, G ≠ F → (db'.frames G).snapshot = (db.frames G).snapshot := by
  unfold clearSnapshot
  rw [if_neg (by simp [hlive])]
  split
  · exact ⟨db, rfl, hinv, SameWrites.refl db, rfl, fun _ _ => rfl⟩
  · have hs := SameWrites.snapshot db F fun _ => {}
    refine ⟨_, rfl, ?_, hs, rfl, fun G hG => ?_⟩
    · refine hinv.congr hs (fun G hG => ?_) hinv.queue_nodup hinv.queue_live
      by_cases hGF : G = F
      · subst hGF
        exact FrameOk.of_cleared (congrArg AristoTx.snapshot (frames_modifyTx_self db G _))
      · refine FrameOk.of_snapshot_eq hs ?_ (hinv.frameOk G hG)
        rw [frames_modifyTx_of_ne _ _ hGF]
    · rw [frames_modifyTx_of_ne _ _ hG]

theorem lowest_ne_nil (db : AristoDb) (h : db.snapshots ≠ []) : db.lowest ≠ [] := by
  obtain ⟨F, hF, hmin⟩ := Finset.exists_min_image db.snapshots.toFinset
    (fun F => (db.frames F).level) (by simpa using h)
  intro hnil
  have hmem : F ∈ db.lowest := by
    simp only [lowest, List.mem_filter, List.all_eq_true, decide_eq_true_eq]
    exact ⟨by simpa using hF, fun G hG => hmin G (by simpa using hG)⟩
  rw [hnil] at hmem
  cases hmem

section

variable (hinv : Inv db flushed) (h : InTree db F)
include hinv h

theorem Inv.push (hnew : F ∉ db.snapshots) :
    Inv { db with snapshots := F :: db.snapshots } flushed ∧
      SameWrites db { db with snapshots := F :: db.snapshots } := by
  have hs : SameWrites db { db with snapshots := F :: db.snapshots } :=
    ⟨fun _ => rfl, fun _ => rfl, fun _ => rfl, fun _ => rfl, rfl, rfl, rfl, rfl⟩
  refine ⟨hinv.congr hs (fun G hG => FrameOk.of_snapshot_eq hs rfl (hinv.frameOk G hG))
    (List.nodup_cons.mpr ⟨hnew, hinv.queue_nodup⟩) fun G hG => ?_, hs⟩
  rcases List.mem_cons.mp hG with rfl | hG
  · exact ⟨hinv.attached G h, hinv.not_disposed h⟩
  · exact hinv.queue_live G hG

/-- A frame of the tree with a snapshot enters the queue, whatever the queue gives up. -/
theorem addSnapshotFrame_spec (hsome : (db.frames F).snapshot.level.isSome) (tie : Nat) :
    ∃ db', db.addSnapshotFrame F tie = .ok db' ∧ Inv db' flushed ∧ SameWrites db db' := by
  unfold addSnapshotFrame
  rw [if_neg (by simpa [Option.isSome_iff_ne_none] using hsome)]
  by_cases hmem : F ∈ db.snapshots
  · rw [if_pos hmem]
    exact ⟨db, rfl, hinv, SameWrites.refl db⟩
  rw [if_neg hmem]
  by_cases hfull : db.snapshots.length = db.maxSnapshots
  · rw [if_pos hfull]
    have hne : db.snapshots ≠ [] := by
      intro hnil
      rw [hnil] at hfull
      exact Nat.ne_of_lt hinv.max_pos hfull
    have hlen : 0 < db.lowest.length := List.length_pos_iff.mpr (lowest_ne_nil db hne)
    have hlt := Nat.mod_lt tie hlen
    rw [List.getElem?_eq_getElem hlt]
    have hold : db.lowest[tie % db.lowest.length] ∈ db.snapshots :=
      List.mem_of_mem_filter (List.getElem_mem hlt)
    generalize db.lowest[tie % db.lowest.length] = old at hold
    have hs₁ := removeSnapshotFrame_sameWrites db old
    have hinv₁ : Inv (db.removeSnapshotFrame old) flushed :=
      hinv.congr hs₁ (fun G hG => FrameOk.of_snapshot_eq hs₁ rfl (hinv.frameOk G hG))
        (hinv.queue_nodup.erase old)
        fun G hG => hinv.queue_live G (List.mem_of_mem_erase hG)
    obtain ⟨db₂, hdb₂, hinv₂, hs₂, hqueue, _⟩ :=
      clearSnapshot_spec hinv₁ (hinv.queue_live old hold).2
    have hs := hs₁.trans hs₂
    have hnew : F ∉ db₂.snapshots := by
      rw [hqueue]
      exact fun hF => hmem (List.mem_of_mem_erase hF)
    obtain ⟨hinv', hs'⟩ := hinv₂.push (hs.inTree_iff.mpr h) hnew
    refine ⟨_, ?_, hinv', hs.trans hs'⟩
    simp only [hdb₂]
    rfl
  · rw [if_neg hfull]
    obtain ⟨hinv', hs'⟩ := hinv.push h hmem
    exact ⟨_, rfl, hinv', hs'⟩

/-- Building a snapshot of a frame of the tree succeeds and moves no write. -/
theorem buildSnapshot_spec (minLevel : Int) (tie : Nat) :
    ∃ db', db.buildSnapshot F minLevel tie = .ok db' ∧ Inv db' flushed ∧ SameWrites db db' := by
  obtain ⟨db₁, hdb₁, hmoved₁, hsnap⟩ := buildSnapshot_loop hinv h minLevel
    (stack_spec hinv.parent_lt (hinv.lt_next h))
  have hmoved := hmoved₁.snapshot fun w => { w.snapshot with level := some minLevel }
  have hself := frames_modifyTx_self db₁ F fun w =>
    { w with snapshot := { w.snapshot with level := some minLevel } }
  have hinv₂ := hmoved.inv hinv (by
    unfold FrameOk
    rw [hself]
    exact hsnap.congr hmoved.same fun _ => rfl)
  have hF := hmoved.same.inTree_iff.mpr h
  unfold buildSnapshot
  simp only [hdb₁, bind, Except.bind]
  split
  · exact ⟨_, rfl, hinv₂, hmoved.same⟩
  · obtain ⟨db', hdb', hinv', hs⟩ := addSnapshotFrame_spec hinv₂ hF (by rw [hself]; rfl) tie
    exact ⟨db', hdb', hinv', hmoved.same.trans hs⟩

/-- A checkpoint of a frame of the tree succeeds and moves no write. -/
theorem checkpoint_spec (blockNumber : Nat) (skipSnapshot : Bool) (tie : Nat) :
    ∃ db', db.checkpoint F blockNumber skipSnapshot tie = .ok db' ∧ Inv db' flushed ∧
      SameWrites db db' := by
  have hs₁ := SameWrites.modifyTx db F (f := fun w =>
    { w with blockNumber := some blockNumber }) rfl rfl rfl rfl
  have hinv₁ : Inv (db.modifyTx F fun w => { w with blockNumber := some blockNumber })
      flushed := by
    refine hinv.congr hs₁ (fun G hG => FrameOk.of_snapshot_eq hs₁ ?_ (hinv.frameOk G hG))
      hinv.queue_nodup hinv.queue_live
    rw [frames_modifyTx]
    split
    · next hGF => rw [hGF]
    · rfl
  unfold checkpoint
  rw [if_neg (by simp [hinv.not_disposed h])]
  cases skipSnapshot with
  | true => exact ⟨_, rfl, hinv₁, hs₁⟩
  | false =>
    obtain ⟨db', hdb', hinv', hs⟩ := buildSnapshot_spec hinv₁ (hs₁.inTree_iff.mpr h)
      ((db.modifyTx F fun w => { w with blockNumber := some blockNumber }).frames
        db.txRef).level tie
    exact ⟨db', hdb', hinv', hs₁.trans hs⟩

end

end Nimbus.Spec.Aristo
