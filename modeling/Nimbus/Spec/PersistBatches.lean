import Mathlib.Data.List.Chain
import Mathlib.Logic.Equiv.List
import Nimbus.Spec.PersistBlocks

/-!
# Batches of blocks

A batch that does not fail leaves what its blocks leave one by one, in chunks of any length, if
each is a child of the one before and the header of the one before is found. The head is its last
block only if that block has a total difficulty above the one of the head.
-/

namespace Nimbus.Spec.PersistBlocks

open Nimbus.Native.PersistBlocks
open Nimbus.Native.ForkedChain (Hash32 GENESIS_PARENT_HASH EMPTY_UNCLE_HASH)

variable {σ β : Type} {com : CommonRef σ β} {flags : PersistBlockFlags} {db db' : CoreDb σ}
  {kvt kvt' : KvtDb} {header : Header} {vmState vmState' : VmState σ} {blk : Block} {state : σ}
  {blocks : List Block} {xs ys : List Block}

/-! ## Batches -/

/-- The blocks of a batch after the first one. -/
inductive Steps (com : CommonRef σ β) (flags : PersistBlockFlags) :
    VmState σ → KvtDb → List Block → VmState σ → KvtDb → Prop where
  | nil (vmState : VmState σ) (kvt : KvtDb) : Steps com flags vmState kvt [] vmState kvt
  | cons {vmState vmState' : VmState σ} {kvt kvt₁ kvt' : KvtDb} {blk : Block} {rest : List Block}
      {state : σ} (number : blk.header.number = vmState.parent.number + 1)
      (persisted : Persisted com flags vmState blk kvt state kvt₁)
      (steps : Steps com flags { vmState with state := state, parent := blk.header } kvt₁ rest
        vmState' kvt') :
      Steps com flags vmState kvt (blk :: rest) vmState' kvt'

theorem steps_append : Steps com flags vmState kvt (xs ++ ys) vmState' kvt' ↔
      ∃ vmState₁ kvt₁, Steps com flags vmState kvt xs vmState₁ kvt₁ ∧
        Steps com flags vmState₁ kvt₁ ys vmState' kvt' := by
  induction xs generalizing vmState kvt with
  | nil =>
    constructor
    · exact fun h => ⟨vmState, kvt, Steps.nil _ _, h⟩
    · rintro ⟨vmState₁, kvt₁, hxs, hys⟩
      cases hxs
      exact hys
  | cons x xs ih =>
    constructor
    · rintro (_ | ⟨number, persisted, steps⟩)
      obtain ⟨vmState₁, kvt₁, hxs, hys⟩ := ih.mp steps
      exact ⟨vmState₁, kvt₁, Steps.cons number persisted hxs, hys⟩
    · rintro ⟨vmState₁, kvt₁, hxs, hys⟩
      cases hxs with
      | cons number persisted steps =>
        exact Steps.cons number persisted (ih.mpr ⟨vmState₁, kvt₁, steps, hys⟩)

variable {bs : List Block}

section

variable (h : Steps com flags vmState kvt bs vmState' kvt')
include h

theorem Steps.tracker {balTracker : Bool}
    (htracker : ∀ b ∈ bs, com.isAmsterdamOrLater b.header.timestamp = true → balTracker = true) :
    Steps com flags { vmState with balTracker := balTracker } kvt bs
      { vmState' with balTracker := balTracker } kvt' := by
  induction h with
  | nil => exact Steps.nil _ _
  | cons number persisted _ ih =>
    exact Steps.cons number (persisted.tracker (htracker _ List.mem_cons_self))
      (ih fun b hb => htracker b (.tail _ hb))

theorem Steps.puts : Puts (Entry com flags) kvt kvt' := by
  induction h with
  | nil => exact refl _
  | cons _ persisted _ ih => exact IsTrans.trans _ _ _ persisted.puts ih

/-- What full validation has checked of the blocks after the first one. -/
theorem Steps.checked (hfull : .fullValidation ∈ flags) {b : Block} (hb : b ∈ bs) :
    vmState.parent.timestamp < b.header.timestamp ∧
      (com.isAmsterdamOrLater b.header.timestamp = true → vmState.balTracker = true) := by
  induction h with
  | nil => exact absurd hb List.not_mem_nil
  | cons number persisted _ ih =>
    have hlater := persisted.later hfull (by omega)
    rcases List.mem_cons.mp hb with rfl | hb
    · exact ⟨hlater, (persisted.checked hfull).2⟩
    · obtain ⟨htime, htracker⟩ := ih hb
      exact ⟨Nat.lt_trans hlater htime, htracker⟩

theorem Steps.root (hfull : .fullValidation ∈ flags)
    (hroot : com.stateRoot vmState.state = vmState.parent.stateRoot) :
    com.stateRoot vmState'.state = vmState'.parent.stateRoot := by
  induction h with
  | nil => exact hroot
  | cons _ persisted _ ih => exact ih (persisted.checked hfull).1

theorem Steps.parent : vmState'.parent = (bs.map (·.header)).getLastD vmState.parent := by
  induction h with
  | nil => rfl
  | cons _ _ _ ih =>
    rw [List.map_cons, List.getLastD_cons]
    exact ih

end

variable (com flags) in
/-- A batch that does not fail. -/
structure Imported (db : CoreDb σ) (blk : Block) (rest : List Block) (db' : CoreDb σ) : Prop where
  steps : ∃ parent state kvt vmState kvt',
    getHeader db.kvt.records blk.header.parentHash = some parent ∧
    db.savedStateBlockNumber = parent.number ∧
    Persisted com flags ⟨db.state, parent, decide (.fullValidation ∈ flags) &&
      com.isAmsterdamOrLater blk.header.timestamp⟩ blk db.kvt state kvt ∧
    Steps com flags ⟨state, blk.header, decide (.fullValidation ∈ flags) &&
      com.isAmsterdamOrLater blk.header.timestamp⟩ kvt rest vmState kvt' ∧
    (.validation ∈ flags → vmState.parent.stateRoot = com.stateRoot vmState.state) ∧
    db' = ⟨kvt', vmState.state, vmState.parent.number⟩

variable {p : Persister σ}

theorem getVmState_some (hp : p.vmState = some vmState) :
    getVmState com flags db p header kvt = .ok vmState kvt ↔
      header.number = vmState.parent.number + 1 := by
  unfold getVmState
  rw [hp]
  dsimp only
  split
  · next hne => exact iff_of_false nofun hne
  · next heq => exact iff_of_true rfl (not_not.mp heq)

theorem getVmState_unique (hp : p.vmState = some vmState)
    (h : getVmState com flags db p header kvt = .ok vmState' kvt) : vmState' = vmState := by
  unfold getVmState at h
  rw [hp] at h
  dsimp only at h
  split at h
  · cases h
  · cases h
    rfl

theorem persistLoop_steps {p p' : Persister σ} (hp : p.vmState = some vmState)
    (h : persistLoop com flags db bs p kvt = .ok p' kvt') :
    ∃ vmState', p'.vmState = some vmState' ∧ Steps com flags vmState kvt bs vmState' kvt' := by
  induction bs generalizing p vmState kvt with
  | nil =>
    cases h
    exact ⟨vmState, hp, Steps.nil _ _⟩
  | cons b bs ih =>
    obtain ⟨p₁, kvt₁, hblock, hrest⟩ := bind_ok.mp h
    obtain ⟨vmState₁, state, hvm, hpersisted, rfl⟩ := persistBlock_ok.mp hblock
    obtain rfl := getVmState_unique hp hvm
    obtain ⟨vmState', hp', hsteps⟩ := ih rfl hrest
    exact ⟨vmState', hp', Steps.cons ((getVmState_some hp).mp hvm) hpersisted hsteps⟩

theorem persistBlock_of (hvm : getVmState com flags db p blk.header kvt = .ok vmState kvt)
    (h : Persisted com flags vmState blk kvt state kvt') :
    ∃ p' : Persister σ,
      p'.vmState = some { vmState with state := state, parent := blk.header } ∧
      persistBlock com flags db p blk kvt = .ok p' kvt' :=
  ⟨_, rfl, persistBlock_ok.mpr ⟨vmState, state, hvm, h, rfl⟩⟩

theorem persistLoop_of_steps (hp : p.vmState = some vmState)
    (h : Steps com flags vmState kvt bs vmState' kvt') :
    ∃ p', p'.vmState = some vmState' ∧ persistLoop com flags db bs p kvt = .ok p' kvt' := by
  induction h generalizing p with
  | nil => exact ⟨p, hp, rfl⟩
  | cons number persisted _ ih =>
    obtain ⟨p₁, hp₁, hblock⟩ := persistBlock_of ((getVmState_some hp).mpr number) persisted
    obtain ⟨p', hp', hrest⟩ := ih hp₁
    refine ⟨p', hp', ?_⟩
    exact bind_ok.mpr ⟨p₁, _, hblock, hrest⟩

theorem getVmState_first {vmState : VmState σ} :
    getVmState com flags db {} header kvt = .ok vmState kvt ↔
      ∃ parent, getHeader kvt.records header.parentHash = some parent ∧
        db.savedStateBlockNumber = parent.number ∧
        vmState = ⟨db.state, parent, decide (.fullValidation ∈ flags) &&
          com.isAmsterdamOrLater header.timestamp⟩ := by
  unfold getVmState
  rw [get_ok]
  cases hparent : getHeader kvt.records header.parentHash with
  | none =>
    constructor
    · exact nofun
    · rintro ⟨parent, hsome, -⟩
      cases hsome
  | some parent =>
    dsimp only
    split
    · next hne =>
      constructor
      · exact nofun
      · rintro ⟨parent', hsome, heq, -⟩
        cases hsome
        exact absurd heq hne
    · next heq =>
      constructor
      · intro h
        cases h
        exact ⟨parent, rfl, not_not.mp heq, rfl⟩
      · rintro ⟨parent', hsome, -, rfl⟩
        cases hsome
        rfl

theorem checkpoint_ok (hp : p.vmState = some vmState)
    (hroot : .validation ∈ flags → vmState.parent.stateRoot = com.stateRoot vmState.state) :
    checkpoint com flags db p = .ok
      { db with state := vmState.state, savedStateBlockNumber := vmState.parent.number } := by
  unfold checkpoint
  rw [hp]
  exact if_neg fun h => h.2 (hroot h.1)

variable {rest : List Block}

theorem persistBlocks_ok {blk : Block} {db' : CoreDb σ} :
    (∃ stats, persistBlocks com flags db (blk :: rest) = (.ok stats, db')) ↔
      Imported com flags db blk rest db' := by
  unfold persistBlocks
  constructor
  · rintro ⟨stats, h⟩
    cases hloop : persistLoop com flags db (blk :: rest) {} db.kvt with
    | error e kvt =>
      rw [hloop] at h
      cases h
    | ok p kvt =>
      rw [hloop] at h
      dsimp only at h
      cases hcheck : checkpoint com flags { db with kvt := kvt } p with
      | error e =>
        rw [hcheck] at h
        cases h
      | ok db₁ =>
        rw [hcheck] at h
        cases h
        obtain ⟨p₁, kvt₁, hblock, hrest⟩ := bind_ok.mp hloop
        obtain ⟨vmState₁, state, hvm, hpersisted, rfl⟩ := persistBlock_ok.mp hblock
        obtain ⟨parent, hparent, hsaved, rfl⟩ := getVmState_first.mp hvm
        obtain ⟨vmState', hp', hsteps⟩ := persistLoop_steps rfl hrest
        obtain ⟨vmState₂, hp₂, hroot, rfl⟩ := checkpoint_state hcheck
        cases hp'.symm.trans hp₂
        exact ⟨parent, state, kvt₁, vmState', kvt, hparent, hsaved, hpersisted, hsteps, hroot, rfl⟩
  · rintro ⟨parent, state, kvt₁, vmState', kvt', hparent, hsaved, hpersisted, hsteps, hroot, rfl⟩
    obtain ⟨p₁, hp₁, hblock⟩ :=
      persistBlock_of (getVmState_first.mpr ⟨parent, hparent, hsaved, rfl⟩) hpersisted
    obtain ⟨p', hp', hrest⟩ := persistLoop_of_steps hp₁ hsteps
    have hloop : persistLoop com flags db (blk :: rest) {} db.kvt = .ok p' kvt' := by
      exact bind_ok.mpr ⟨p₁, kvt₁, hblock, hrest⟩
    rw [hloop]
    dsimp only
    rw [checkpoint_ok hp' hroot]
    exact ⟨p'.stats, rfl⟩

/-! ## Chunks -/

theorem isAmsterdamOrLater_mono {time time' : Nat} (h : com.isAmsterdamOrLater time = true)
    (hle : time ≤ time') : com.isAmsterdamOrLater time' = true := by
  unfold CommonRef.isAmsterdamOrLater at h ⊢
  split at h
  · cases h
  · exact decide_eq_true (Nat.le_trans (of_decide_eq_true h) hle)

variable {rest : List Block}

theorem Imported.puts (h : Imported com flags db blk rest db') :
    Puts (Entry com flags) db.kvt db'.kvt := by
  obtain ⟨parent, state, kvt, vmState, kvt', -, -, hpersisted, hsteps, -, rfl⟩ := h.steps
  exact IsTrans.trans _ _ _ hpersisted.puts hsteps.puts

/-- A batch with full validation in two parts, if the first block of the second part is a child
of the last one of the first part. -/
theorem Imported.append (hfull : .fullValidation ∈ flags) {y : Block}
    (h : Imported com flags db blk (xs ++ y :: ys) db')
    (hfound : ∀ db₁, Imported com flags db blk xs db₁ →
      getHeader db₁.kvt.records y.header.parentHash =
        some ((xs.map (·.header)).getLastD blk.header)) :
    ∃ db₁, Imported com flags db blk xs db₁ ∧ Imported com flags db₁ y ys db' := by
  obtain ⟨parent, state, kvt, vmState', kvt', hparent, hsaved, hpersisted, hsteps, hroot, rfl⟩ :=
    h.steps
  obtain ⟨vmState₁, kvt₁, hxs, hrest⟩ := steps_append.mp hsteps
  have hroot₁ := hxs.root hfull (hpersisted.checked hfull).1
  have himported : Imported com flags db blk xs ⟨kvt₁, vmState₁.state, vmState₁.parent.number⟩ :=
    ⟨parent, state, kvt, vmState₁, kvt₁, hparent, hsaved, hpersisted, hxs, fun _ => hroot₁.symm,
      rfl⟩
  refine ⟨_, himported, ?_⟩
  have hlast := hxs.parent
  have hfound₁ := hfound _ himported
  rw [← hlast] at hfound₁
  -- the second part has a tracker if a block in it needs one
  have htracker : ∀ b ∈ y :: ys, com.isAmsterdamOrLater b.header.timestamp = true →
      com.isAmsterdamOrLater y.header.timestamp = true := by
    intro b hb hamsterdam
    have hon := (hsteps.checked hfull (List.mem_append_right xs hb)).2 hamsterdam
    simp only [Bool.and_eq_true] at hon
    have hmem : y ∈ xs ++ y :: ys := List.mem_append_right xs List.mem_cons_self
    exact isAmsterdamOrLater_mono hon.2 (Nat.le_of_lt (hsteps.checked hfull hmem).1)
  cases hrest with
  | @cons _ _ _ kvt₂ _ _ _ state₂ number persisted steps =>
    have hpersisted₁ := persisted.tracker fun h => htracker y List.mem_cons_self h
    have hsteps₁ := steps.tracker fun b hb h => htracker b (.tail _ hb) h
    have hdecide : (decide (PersistBlockFlag.fullValidation ∈ flags) &&
        com.isAmsterdamOrLater y.header.timestamp) =
        com.isAmsterdamOrLater y.header.timestamp := by
      rw [decide_eq_true hfull, Bool.true_and]
    refine ⟨vmState₁.parent, state₂, kvt₂, { vmState' with
      balTracker := com.isAmsterdamOrLater y.header.timestamp }, kvt', hfound₁, rfl, ?_, ?_, hroot,
      rfl⟩
    · rw [hdecide]
      exact hpersisted₁
    · rw [hdecide]
      exact hsteps₁

variable (com flags) in
/-- `persistBlocks` chunk after chunk. -/
def importChunks (db : CoreDb σ) : List (List Block) → Option (CoreDb σ)
  | [] => some db
  | chunk :: rest =>
    match persistBlocks com flags db chunk with
    | (.ok _, db') => importChunks db' rest
    | (.error _, _) => none

variable (com) in
/-- Each block is a child of the one before. -/
def Linked (blocks : List Block) : Prop :=
  blocks.IsChain fun parent child => child.header.parentHash = com.computeBlockHash parent.header

variable (com) in
def Stored (records : Records) (blk : Block) : Prop :=
  getHeader records (com.computeBlockHash blk.header) = some blk.header

theorem importChunks_cons {chunk : List Block} {rest : List (List Block)} {stats : PersistStats}
    (h : persistBlocks com flags db chunk = (.ok stats, db')) :
    importChunks com flags db (chunk :: rest) = importChunks com flags db' rest := by
  rw [importChunks, h]

theorem importChunks_nil {chunks : List (List Block)} (h : chunks.flatten = []) :
    importChunks com flags db chunks = some db := by
  induction chunks with
  | nil => rfl
  | cons chunk rest ih =>
    obtain ⟨rfl, hrest⟩ := List.append_eq_nil_iff.mp (List.flatten_cons ▸ h)
    exact ih hrest

theorem Steps.stored (h : Steps com flags vmState kvt bs vmState' kvt')
    (hcom : CollisionFree com) (hflag : .persistHeaders ∈ flags) {b : Block} (hb : b ∈ bs) :
    Stored com kvt'.records b := by
  induction h with
  | nil => exact absurd hb List.not_mem_nil
  | cons _ persisted steps ih =>
    rcases List.mem_cons.mp hb with rfl | hb
    · exact steps.puts.getHeader_stays hcom (persisted.getHeader hcom hflag)
    · exact ih hb

theorem Imported.stored (h : Imported com flags db blk rest db')
    (hcom : CollisionFree com) (hflag : .persistHeaders ∈ flags) {b : Block}
    (hb : b ∈ blk :: rest) : Stored com db'.kvt.records b := by
  obtain ⟨parent, state, kvt, vmState, kvt', -, -, hpersisted, hsteps, -, rfl⟩ := h.steps
  rcases List.mem_cons.mp hb with rfl | hb
  · exact hsteps.puts.getHeader_stays hcom (hpersisted.getHeader hcom hflag)
  · exact hsteps.stored hcom hflag hb

theorem exists_last {y : Block} (hlinked : Linked com (blk :: (xs ++ y :: ys))) :
    ∃ last ∈ blk :: xs, last ∈ (blk :: (xs ++ y :: ys)).dropLast ∧
      (xs.map (·.header)).getLastD blk.header = last.header ∧
      y.header.parentHash = com.computeBlockHash last.header := by
  induction xs generalizing blk with
  | nil =>
    obtain ⟨hchild, -⟩ := List.isChain_cons_cons.mp hlinked
    exact ⟨blk, List.mem_cons_self, List.mem_cons_self, rfl, hchild⟩
  | cons x xs ih =>
    obtain ⟨-, hlinked⟩ := List.isChain_cons_cons.mp hlinked
    obtain ⟨last, hmem, hdrop, hlast, hchild⟩ := ih hlinked
    refine ⟨last, .tail _ hmem, .tail _ hdrop, ?_, hchild⟩
    rw [List.map_cons, List.getLastD_cons]
    exact hlast

/-- A batch with full validation in any chunks, if each block is a child of the one before and
the headers are found. -/
theorem importChunks_same {chunks : List (List Block)}
    (hfull : .fullValidation ∈ flags) (hcom : CollisionFree com)
    (h : Imported com flags db blk rest db') (hlinked : Linked com (blk :: rest))
    (hstored : .persistHeaders ∈ flags ∨
      ∀ b ∈ (blk :: rest).dropLast, Stored com db.kvt.records b)
    (hchunks : chunks.flatten = blk :: rest) :
    importChunks com flags db chunks = some db' := by
  induction chunks generalizing db blk rest with
  | nil => exact nomatch hchunks
  | cons chunk chunks ih =>
    rw [List.flatten_cons] at hchunks
    cases chunk with
    | nil =>
      exact ih h hlinked hstored hchunks
    | cons x xs =>
      rw [List.cons_append] at hchunks
      obtain ⟨rfl, rfl⟩ := List.cons.inj hchunks
      cases hnext : chunks.flatten with
      | nil =>
        rw [hnext, List.append_nil] at h
        obtain ⟨stats, hrun⟩ := persistBlocks_ok.mpr h
        rw [importChunks_cons hrun]
        exact importChunks_nil hnext
      | cons y ys =>
        rw [hnext] at h hlinked hstored
        obtain ⟨last, hmem, hdrop, hlast, hchild⟩ := exists_last hlinked
        have hfound : ∀ db₁, Imported com flags db x xs db₁ →
            getHeader db₁.kvt.records y.header.parentHash =
              some ((xs.map (·.header)).getLastD x.header) := by
          intro db₁ himported
          rw [hlast, hchild]
          rcases hstored with hflag | hstored
          · exact himported.stored hcom hflag hmem
          · exact himported.puts.getHeader_stays hcom (hstored last hdrop)
        obtain ⟨db₁, hfirst, hsecond⟩ := h.append hfull hfound
        obtain ⟨stats, hrun⟩ := persistBlocks_ok.mpr hfirst
        rw [importChunks_cons hrun]
        apply ih hsecond
        · have happend : Linked com ((x :: xs) ++ y :: ys) := hlinked
          exact happend.right_of_append
        · apply hstored.imp_right
          intro hstored b hb
          apply hfirst.puts.getHeader_stays hcom
          apply hstored
          rw [← List.cons_append, List.dropLast_append_of_ne_nil (List.cons_ne_nil y ys)]
          exact List.mem_append_right _ hb
        · exact hnext

/-- Block after block, the header of each block but the last is found. -/
theorem stored_of_importChunks (hcom : CollisionFree com) (hflag : .persistHeaders ∉ flags)
    (hkeyed : ∀ hash header, getHeader db.kvt.records hash = some header →
      com.computeBlockHash header = hash)
    (hlinked : Linked com blocks)
    (himport : importChunks com flags db (blocks.map ([·])) = some db') :
    ∀ b ∈ blocks.dropLast, Stored com db.kvt.records b := by
  induction blocks generalizing db with
  | nil => exact fun b hb => absurd hb List.not_mem_nil
  | cons x rest ih =>
    cases rest with
    | nil => exact fun b hb => absurd hb List.not_mem_nil
    | cons y rest =>
      obtain ⟨hchild, hlinked⟩ := List.isChain_cons_cons.mp hlinked
      rw [List.map_cons, importChunks] at himport
      split at himport
      · next stats db₁ hrun =>
        have himported : Imported com flags db x [] db₁ := persistBlocks_ok.mp ⟨stats, hrun⟩
        have hwas : ∀ {hash header}, getHeader db₁.kvt.records hash = some header →
            getHeader db.kvt.records hash = some header :=
          fun h => himported.puts.getHeader_was hflag h
        intro b hb
        rcases List.mem_cons.mp hb with rfl | hb
        · -- the second block has found its parent, and has not been given it
          rw [List.map_cons, importChunks] at himport
          split at himport
          · next stats₂ db₂ hrun₂ =>
            have hsecond : Imported com flags db₁ y [] db₂ := persistBlocks_ok.mp ⟨stats₂, hrun₂⟩
            obtain ⟨parent, _, _, _, _, hparent, _⟩ := hsecond.steps
            rw [hchild] at hparent
            have hfound := hwas hparent
            rw [hcom.injective (hkeyed _ _ hfound)] at hfound
            exact hfound
          · cases himport
        · exact hwas (ih (fun hash header h => hkeyed hash header (hwas h)) hlinked himport b hb)
      · cases himport

/-! ## The head -/

theorem persistBlocks_kvt
    (h : ∃ parent state kvt, getHeader db.kvt.records blk.header.parentHash = some parent ∧
      db.savedStateBlockNumber = parent.number ∧
      Persisted com flags ⟨db.state, parent, decide (.fullValidation ∈ flags) &&
        com.isAmsterdamOrLater blk.header.timestamp⟩ blk db.kvt state kvt ∧
      Steps com flags ⟨state, blk.header, decide (.fullValidation ∈ flags) &&
        com.isAmsterdamOrLater blk.header.timestamp⟩ kvt rest vmState kvt') :
    (persistBlocks com flags db (blk :: rest)).2.kvt = kvt' := by
  obtain ⟨parent, state, kvt₁, hparent, hsaved, hpersisted, hsteps⟩ := h
  obtain ⟨p₁, hp₁, hblock⟩ :=
    persistBlock_of (getVmState_first.mpr ⟨parent, hparent, hsaved, rfl⟩) hpersisted
  obtain ⟨p', hp', hrest⟩ := persistLoop_of_steps hp₁ hsteps
  have hloop : persistLoop com flags db (blk :: rest) {} db.kvt = .ok p' kvt' := by
    exact bind_ok.mpr ⟨p₁, kvt₁, hblock, hrest⟩
  unfold persistBlocks
  rw [if_neg (List.cons_ne_nil _ _), hloop]
  dsimp only
  split
  · rfl
  · next db₁ hcheck =>
    obtain ⟨vmState, -, -, rfl⟩ := checkpoint_state hcheck
    rfl

theorem Imported.head (h : Imported com flags db blk rest db')
    (hflag : .persistHeaders ∈ flags) {last : Block} (hlast : (blk :: rest).getLast? = some last) :
    getCanonicalHeaderHash db'.kvt.records = some (com.computeBlockHash last.header) ↔
      HeadMoves com (persistBlocks com flags db (blk :: rest).dropLast).2.kvt.records
        last.header := by
  obtain ⟨parent, state, kvt, vmState, kvt', hparent, hsaved, hpersisted, hsteps, -, rfl⟩ :=
    h.steps
  rcases List.eq_nil_or_concat' rest with rfl | ⟨xs, y, rfl⟩
  · cases hlast
    cases hsteps
    exact hpersisted.head hflag
  · obtain ⟨vmState₁, kvt₁, hxs, hy⟩ := steps_append.mp hsteps
    rw [← List.cons_append, List.getLast?_concat] at hlast
    cases hlast
    rw [← List.cons_append, List.dropLast_concat,
      persistBlocks_kvt ⟨parent, state, kvt, hparent, hsaved, hpersisted, hxs⟩]
    cases hy with
    | cons number persisted steps =>
      cases steps
      exact persisted.head hflag

/-! ## A batch that fails -/

variable (com flags db) in
/-- A block up to where its records are stored. -/
def executeBlock (p : Persister σ) (blk : Block) : PersistM (VmState σ × σ × β) := do
  let vmState ← getVmState com flags db p blk.header
  let kvt ← get
  onlyIf (decide (.fullValidation ∈ flags))
    (Native.PersistBlocks.liftExcept
      (validateHeaderAndKinship com (viewOf kvt vmState.state) vmState.parent blk))
  let done ← processBlock com (processOptions flags) vmState.balTracker vmState.state
    vmState.parent blk
  onlyIf com.statelessProvider (storeWitness com vmState.state done.1 vmState.parent blk)
  return (vmState, done)

theorem persistBlock_eq (p : Persister σ) (blk : Block) :
    persistBlock com flags db p blk =
      (executeBlock com flags db p blk >>= fun run => storeBlock com flags blk run.2.2 >>=
        fun _ => return {
          vmState := some { run.1 with state := run.2.1, parent := blk.header }
          stats := {
            blocks := p.stats.blocks + 1
            txs := p.stats.txs + blk.transactions.length
            gas := p.stats.gas + blk.header.gasUsed } }) := by
  unfold persistBlock executeBlock
  simp only [bind_assoc, pure_bind]

theorem executeBlock_plain (p : Persister σ) (blk : Block) :
    Keeps (Puts (Plain com)) (executeBlock com flags db p blk) := by
  apply Keeps.bind (getVmState_puts _ _)
  intro vmState
  apply Keeps.bind Keeps.get
  intro kvt
  apply Keeps.bind (onlyIf_puts fun _ => liftExcept_puts _)
  intro _
  apply Keeps.bind (processBlock_plain _ _ _ _ _)
  intro done
  apply Keeps.bind (onlyIf_puts fun _ => storeWitness_plain _ _ _ _)
  exact fun _ => Keeps.pure _

/-- What the program leaves, whether it returns or fails. -/
def Leaves {α : Type} (S : KvtDb → Prop) (x : PersistM α) (kvt : KvtDb) : Prop :=
  Meets x kvt (fun _ => S) fun _ => S

variable {S : KvtDb → Prop}

theorem Leaves.bind {α γ : Type} {R : KvtDb → KvtDb → Prop} {x : PersistM α}
    {f : α → PersistM γ} (h : Leaves S x kvt) (hf : ∀ a, Keeps R (f a))
    (hS : ∀ k k', R k k' → S k → S k') : Leaves S (x >>= f) kvt := by
  apply Meets.bind
  apply Meets.mono h
  · intro a k hk
    exact (hf a k).mono (fun _ k' hR => hS k k' hR hk) fun _ k' hR => hS k k' hR hk
  · exact fun _ _ hk => hk

theorem storeBlock_leaves (hcom : CollisionFree com) (hflag : .persistHeaders ∈ flags)
    (hparent : (kvt.records (.genericHash blk.header.parentHash)).isSome) (books : β) :
    Leaves (fun k => Stored com k.records blk) (storeBlock com flags blk books) kvt := by
  have hstays : ∀ k k', Puts (Entry com flags) k k' → Stored com k.records blk →
      Stored com k'.records blk := fun k k' hputs => hputs.getHeader_stays hcom
  have hentry : ∀ key value, (∀ header, value ≠ .header header) →
      (∀ hash, key ≠ .genericHash hash) → Entry com flags (key, value) :=
    fun key value h hkey => ⟨fun header he => absurd he (h header),
      fun hash he => absurd he (hkey hash)⟩
  apply Leaves.bind (R := Puts (Entry com flags)) _ _ hstays
  · rw [decide_eq_true hflag]
    apply Leaves.bind _ (fun _ => moveHead_puts (hentry _ _ (by simp) (by simp))) hstays
    show Leaves _ (ite _ _ _) kvt
    rw [if_neg (fun h => absurd h.2 (by simp [Option.isSome_iff_ne_none.mp hparent]))]
    have hput : Leaves (fun k => Stored com k.records blk)
        (put (.genericHash (com.computeBlockHash blk.header)) (.header blk.header)) kvt := by
      show getHeader (Function.update _ _ _) _ = _
      rw [getHeader_some, Function.update_self]
    apply Leaves.bind (R := Puts (Entry com flags)) hput _ hstays
    intro _
    apply Keeps.bind Keeps.get
    intro k
    split
    · exact Keeps.throw _
    · apply Keeps.bind (put_puts (hentry _ _ (by simp) (by simp)) (by simp))
      exact fun _ => addBlockNumberToHashLookup_puts (hentry _ _ (by simp) (by simp))
  · exact fun _ => Puts.keeps (storeBody_plain _ _) fun _ h => h.entry

theorem Leaves.of_ok {α γ : Type} {x : PersistM α} {f : α → PersistM γ} {a : α}
    (hx : x kvt = .ok a kvt') (h : Leaves S (f a) kvt') : Leaves S (x >>= f) kvt := by
  apply Meets.bind
  unfold Meets
  rw [hx]
  exact h

theorem Puts.isSome {P : DbKey × DbValue → Prop} {kvt kvt' : KvtDb} (h : Puts P kvt kvt')
    {key : DbKey} (hkey : (kvt.records key).isSome) : (kvt'.records key).isSome := by
  obtain ⟨new, -, hrecords, -⟩ := h.puts
  rw [hrecords]
  exact writeAll_isSome hkey

/-- A block that has been executed is found after the batch, also if the batch fails. -/
theorem persistLoop_leaves (hcom : CollisionFree com) (hflag : .persistHeaders ∈ flags)
    {run : VmState σ × σ × β}
    (hrun : executeBlock com flags db {} blk db.kvt = .ok run kvt) :
    Leaves (fun k => Stored com k.records blk) (persistLoop com flags db (blk :: rest) {})
      db.kvt := by
  have hparent : (kvt.records (.genericHash blk.header.parentHash)).isSome := by
    apply (Keeps.of_ok (executeBlock_plain _ _) hrun).isSome
    obtain ⟨vmState, kvt₁, hvm, -⟩ := bind_ok.mp hrun
    obtain rfl := getVmState_kvt hvm
    obtain ⟨parent, hparent, -⟩ := getVmState_first.mp hvm
    rw [getHeader_some.mp hparent]
    rfl
  apply Leaves.bind (R := Puts (Entry com flags))
  · rw [persistBlock_eq]
    apply Leaves.of_ok hrun
    exact (storeBlock_leaves hcom hflag hparent _).bind (R := Eq) (fun _ => fun _ => rfl)
      fun k k' heq => heq ▸ id
  · exact fun p => persistLoop_puts rest p
  · exact fun k k' hputs => hputs.getHeader_stays hcom

theorem persistBlocks_leaves
    (h : Leaves S (persistLoop com flags db (blk :: rest) {}) db.kvt) :
    S (persistBlocks com flags db (blk :: rest)).2.kvt := by
  unfold Leaves Meets at h
  unfold persistBlocks
  rw [if_neg (List.cons_ne_nil _ _)]
  split
  · next e kvt hloop =>
    rw [hloop] at h
    exact h
  · next p kvt hloop =>
    rw [hloop] at h
    split
    · exact h
    · next db' hcheck =>
      obtain ⟨vmState, -, -, rfl⟩ := checkpoint_state hcheck
      exact h

theorem persistBlocks_refused {e : Failure}
    (hrun : executeBlock com flags db {} blk db.kvt = .error e kvt) :
    persistBlocks com flags db (blk :: rest) = (.error e, { db with kvt := kvt }) := by
  have hloop : persistLoop com flags db (blk :: rest) {} db.kvt = .error e kvt := by
    unfold persistLoop
    rw [List.foldlM_cons, persistBlock_eq]
    show EStateM.bind (EStateM.bind _ _) _ db.kvt = _
    unfold EStateM.bind
    rw [hrun]
  unfold persistBlocks
  rw [if_neg (List.cons_ne_nil _ _), hloop]

/-! ## Batches that are atomic and exact -/

variable (com flags db) in
/-- A batch that fails leaves no trace, and one that does not fail leaves what its blocks leave
one by one, in chunks of any length, with its last block as the head. -/
structure Exact (blocks : List Block) : Prop where
  atomic : ∀ msg db', persistBlocks com flags db blocks = (.error (.error msg), db') →
    SameAnswers db db'
  chunks : ∀ stats db', persistBlocks com flags db blocks = (.ok stats, db') →
    .fullValidation ∈ flags →
      Linked com blocks ∧ ∀ chunks, chunks.flatten = blocks →
        ∃ db₁, importChunks com flags db chunks = some db₁ ∧ SameAnswers db' db₁
  head : ∀ stats db', persistBlocks com flags db blocks = (.ok stats, db') →
    .persistHeaders ∈ flags → ∀ last ∈ blocks.getLast?,
      getCanonicalHeaderHash db'.kvt.records = some (com.computeBlockHash last.header)

variable (com flags db) in
/-- The first block is refused before its records are stored, and the code, slots and ommers that
its execution has stored were there already. -/
def RefusedFirst (blocks : List Block) : Prop :=
  ∃ blk ∈ blocks.head?, ∃ e kvt, executeBlock com flags db {} blk db.kvt = .error e kvt ∧
    kvt.records = db.kvt.records

variable (com flags db) in
structure Holds (blocks : List Block) : Prop where
  refused : ∀ msg db', persistBlocks com flags db blocks = (.error (.error msg), db') →
    RefusedFirst com flags db blocks
  linked : ∀ stats db', persistBlocks com flags db blocks = (.ok stats, db') →
    .fullValidation ∈ flags → Linked com blocks ∧
      (.persistHeaders ∈ flags ∨ ∀ b ∈ blocks.dropLast, Stored com db.kvt.records b)
  moves : ∀ stats db', persistBlocks com flags db blocks = (.ok stats, db') →
    .persistHeaders ∈ flags → ∀ last ∈ blocks.getLast?,
      HeadMoves com (persistBlocks com flags db blocks.dropLast).2.kvt.records last.header

variable (com flags db) in
/-- The header of the first block is stored with the block, and has not been stored before. -/
def FirstIsNew (blocks : List Block) : Prop :=
  .persistHeaders ∈ flags ∧
    ∀ blk ∈ blocks.head?, getHeader db.kvt.records (com.computeBlockHash blk.header) = none

theorem atomic_of_refused (hmirrors : Mirrors db.kvt) {e : Failure}
    (h : RefusedFirst com flags db blocks)
    (hrun : persistBlocks com flags db blocks = (.error e, db')) : SameAnswers db db' := by
  obtain ⟨blk, hblk, e', kvt, hexec, hrecords⟩ := h
  obtain ⟨rest, rfl⟩ := List.head?_eq_some_iff.mp hblk
  have hplain : Keeps (Puts (Plain com)) (executeBlock com flags db {} blk) :=
    executeBlock_plain {} blk
  have hputs := hplain db.kvt
  unfold Meets at hputs
  rw [hexec] at hputs
  rw [persistBlocks_refused hexec] at hrun
  cases hrun
  exact ⟨rfl, rfl, hrecords, hmirrors.getBlockHash (hputs.mirrors hmirrors) hrecords⟩

theorem refused_of_atomic (hcom : CollisionFree com) {e : Failure}
    (hnew : FirstIsNew com flags db blocks)
    (hrun : persistBlocks com flags db blocks = (.error e, db')) (hsame : SameAnswers db db') :
    RefusedFirst com flags db blocks := by
  cases blocks with
  | nil => exact nomatch hrun
  | cons blk rest =>
    cases hexec : executeBlock com flags db {} blk db.kvt with
    | error e' kvt =>
      rw [persistBlocks_refused hexec] at hrun
      cases hrun
      exact ⟨blk, rfl, e, kvt, hexec, hsame.records⟩
    | ok run kvt =>
      -- the header of the block is there afterwards
      have hloop : Leaves (fun k => Stored com k.records blk)
          (persistLoop com flags db (blk :: rest) {}) db.kvt :=
        persistLoop_leaves hcom hnew.1 hexec
      have hstored := persistBlocks_leaves hloop
      rw [hrun] at hstored
      unfold Stored at hstored
      rw [hsame.records, hnew.2 blk rfl] at hstored
      cases hstored

/-- Headers have odd hashes, and ommers even ones. -/
private def exampleHash (header : Header) : Hash32 :=
  2 * Encodable.encode (header.parentHash, header.ommersHash, header.number, header.timestamp,
    header.difficulty, header.gasUsed, header.stateRoot, header.txRoot, header.receiptsRoot,
    header.withdrawalsRoot, header.rest.map UInt8.toNat) + 1

/-- A block adds one to the state. -/
private def exampleCom : CommonRef Nat Unit where
  computeBlockHash := exampleHash
  rlpHash uncles := 2 * uncles.length
  stateRoot := id
  startOfHistory := GENESIS_PARENT_HASH
  amsterdamTime := none
  evicted _ _ := none
  genesisCheck _ := .ok ()
  fieldsCheck _ := .ok ()
  kinshipCheck _ _ _ := .ok ()
  preamble _ view _ _ := ⟨[], .ok (view.state + 1, ())⟩
  epilogue _ view _ _ _ := ⟨[], .ok ⟨view.state, (), .ok (), .ok ()⟩⟩
  receipts _ := []
  witness _ _ _ _ := .ok []
  statelessProvider := false

private def exampleGenesis : Header :=
  ⟨GENESIS_PARENT_HASH, 0, 0, 1, 0, 0, 0, 0, EMPTY_UNCLE_HASH, none, []⟩

private def exampleBlock (parent : Header) (difficulty : Nat) (stateRoot : Hash32) : Block where
  header := {
    parent with
    parentHash := exampleHash parent
    number := parent.number + 1
    timestamp := parent.timestamp + 1
    difficulty := difficulty
    stateRoot := stateRoot }
  transactions := []
  uncles := []
  withdrawals := none

private def exampleEntries : List (DbKey × DbValue) :=
  [(.genericHash (exampleHash exampleGenesis), .header exampleGenesis),
    (.blockHashToScore (exampleHash exampleGenesis), .score 1),
    (.blockNumberToHash 0, .hash (exampleHash exampleGenesis)),
    (.canonicalHeadHash, .hash (exampleHash exampleGenesis))]

private def exampleDb : CoreDb Nat where
  kvt := ⟨writeAll (fun _ => none) exampleEntries, fun _ => none, []⟩
  state := 0
  savedStateBlockNumber := 0

private def exampleFlags : PersistBlockFlags := [.fullValidation, .persistHeaders]

private theorem exampleCom_collisionFree : CollisionFree exampleCom where
  injective := by
    intro a b hab
    have heq : exampleHash a = exampleHash b := hab
    have hcode := Encodable.encode_injective (Nat.mul_left_cancel Nat.two_pos (Nat.succ.inj heq))
    obtain ⟨_, _, _, _, _, _, _, _, _, _, rest⟩ := a
    have hbytes : Function.Injective (List.map UInt8.toNat) :=
      List.map_injective_iff.mpr fun _ _ => UInt8.toNat_inj.mp
    simp only [Prod.mk.injEq, hbytes.eq_iff] at hcode
    simp [hcode]
  ommers := by
    intro uncles header
    show 2 * uncles.length ≠ 2 * _ + 1
    omega

end Nimbus.Spec.PersistBlocks
