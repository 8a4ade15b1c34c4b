import Nimbus.Spec.ForkedChainBase

/-!
# Importing blocks

A valid block becomes a child of its parent: it replaces the parent among the heads, or
opens a branch. When the import lags far behind the resolved finalized block, the same
handler also finalizes and prunes (`forwardBase`), without waiting for a fork choice.
-/

namespace Nimbus.Spec.ForkedChain

open Nimbus.Native.ForkedChain
open ParentTree ForkedChainRef Function

variable {c : ForkedChainRef} {blk : Block} {finalized : Bool}

/-! ## Frames -/

theorem Linked.frames (hl : Linked c) {frames : CoreDbTxRef → TxFrame} {next : Nat}
    (hsame : ∀ f, f < c.nextFrame → frames f = c.frames f) (hle : c.nextFrame ≤ next) :
    Linked { c with frames := frames, nextFrame := next } where
  lt_next := hl.lt_next
  key := hl.key
  hash_eq := hl.hash_eq
  parent_lt := hl.parent_lt
  base_mem := hl.base_mem
  base_parent := hl.base_parent
  base_frame := hl.base_frame
  link {b} hb hne := by
    obtain ⟨p, hp, hpt, hn, hph, f, g, hf, hg, hfg⟩ := hl.link hb hne
    obtain ⟨f', hf', hlt, _⟩ := hl.live hb
    rw [hf] at hf'
    cases hf'
    refine ⟨p, hp, hpt, hn, hph, f, g, hf, hg, ?_⟩
    show (frames f).parent = some g
    rw [hsame f hlt, hfg]
  live {b} hb := by
    obtain ⟨f, hf, hlt, hdis⟩ := hl.live hb
    refine ⟨f, hf, Nat.lt_of_lt_of_le hlt hle, ?_⟩
    show (frames f).disposed = false
    rw [hsame f hlt, hdis]
  frame_inj := hl.frame_inj
  gone := hl.gone

theorem Inv.frames (hi : Inv c) {frames : CoreDbTxRef → TxFrame} {next : Nat}
    (hsame : ∀ f, f < c.nextFrame → frames f = c.frames f) (hle : c.nextFrame ≤ next) :
    Inv { c with frames := frames, nextFrame := next } :=
  ⟨hi.linked.frames hsame hle, hi.finality.congr rfl,
    ⟨hi.heads.mem_iff, hi.heads.nodup, hi.heads.latest_mem⟩,
    hi.queued, hi.sorted, hi.orphan, hi.saved⟩

/-- `c` with a new frame on top of `f`. -/
def opened (c : ForkedChainRef) (f : Nat) : ForkedChainRef :=
  { c with
    frames := update c.frames c.nextFrame { parent := some f }
    nextFrame := c.nextFrame + 1 }

variable {parent : Nat}

theorem txFrameBegin_eq (hl : Linked c) (hp : InTree c parent) :
    ∃ f, c.txFrame parent = some f ∧
      c.txFrameBegin (c.txFrame parent) = .ok (opened c f, c.nextFrame) := by
  obtain ⟨f, hf, _, hdis⟩ := hl.live hp
  refine ⟨f, hf, ?_⟩
  rw [hf]
  simp only [txFrameBegin, hdis, Bool.false_eq_true, if_false]
  rfl

theorem Inv.opened (hi : Inv c) (f : Nat) : Inv (opened c f) := by
  refine hi.frames (fun g hg => ?_) (Nat.le_succ _)
  exact update_of_ne (Nat.ne_of_lt hg) _ _

theorem Inv.opened_dispose (hi : Inv c) (f : Nat) :
    Inv ((ForkedChain.opened c f).disposeFrame c.nextFrame) := by
  refine hi.frames (fun g hg => ?_) (Nat.le_succ _)
  have hne : g ≠ c.nextFrame := Nat.ne_of_lt hg
  rw [update_of_ne hne]
  exact update_of_ne hne _ _

/-! ## `appendBlock` -/

section Append

theorem replaceHead_spec {nb : Nat} {heads : List Nat}
    (hsame : ∀ h ∈ heads, c.sameBlock h parent = true ↔ h = parent) (hnd : heads.Nodup)
    (hnb : nb ∉ heads) :
    (∀ y, y ∈ c.replaceHead parent nb heads ↔ y = nb ∨ (y ∈ heads ∧ y ≠ parent)) ∧
      (c.replaceHead parent nb heads).Nodup := by
  induction heads with
  | nil => simp [replaceHead]
  | cons h heads ih =>
    obtain ⟨hmem, hnd⟩ := List.nodup_cons.mp hnd
    have hnb' : nb ∉ heads := fun hm => hnb (.tail _ hm)
    obtain ⟨ihmem, ihnd⟩ := ih (fun x hx => hsame x (.tail _ hx)) hnd hnb'
    simp only [replaceHead]
    by_cases heq : h = parent
    · rw [if_pos ((hsame h List.mem_cons_self).mpr heq)]
      subst heq
      refine ⟨fun y => ?_, List.nodup_cons.mpr ⟨hnb', hnd⟩⟩
      rw [List.mem_cons, List.mem_cons]
      constructor
      · rintro (rfl | hy)
        · exact .inl rfl
        · exact .inr ⟨.inr hy, fun hyh => hmem (hyh ▸ hy)⟩
      · rintro (rfl | ⟨rfl | hy, hne⟩)
        · exact .inl rfl
        · exact absurd rfl hne
        · exact .inr hy
    · rw [if_neg fun hs => heq ((hsame h List.mem_cons_self).mp hs)]
      refine ⟨fun y => ?_, List.nodup_cons.mpr ⟨?_, ihnd⟩⟩
      · rw [List.mem_cons, ihmem, List.mem_cons]
        constructor
        · rintro (rfl | rfl | ⟨hy, hne⟩)
          · exact .inr ⟨.inl rfl, heq⟩
          · exact .inl rfl
          · exact .inr ⟨.inr hy, hne⟩
        · rintro (rfl | ⟨rfl | hy, hne⟩)
          · exact .inr (.inl rfl)
          · exact .inl rfl
          · exact .inr (.inr ⟨hy, hne⟩)
      · rw [ihmem]
        rintro (rfl | ⟨hm, _⟩)
        · exact hnb List.mem_cons_self
        · exact hmem hm

/-- What appending turns `c` into: one more leaf `nb` on top of `parent`. -/
structure AppendedAt (c c' : ForkedChainRef) (parent nb : Nat) : Prop where
  rest : c' = { c with
    blocks := c'.blocks, nextBlock := c'.nextBlock, hashToBlock := c'.hashToBlock
    heads := c'.heads, latest := c'.latest }
  inTree : ∀ {x}, InTree c' x ↔ x = nb ∨ InTree c x
  fresh : ¬ InTree c nb
  blocks : ∀ {x}, x ≠ nb → c'.blocks x = c.blocks x
  parent_eq : c'.parent nb = some parent
  number_eq : c'.number nb = c.number parent + 1
  finalized : ¬ Finalized c' nb
  heads : ∀ {x}, x ∈ c'.heads ↔ x = nb ∨ (x ∈ c.heads ∧ x ≠ parent)
  latest : c'.latest = nb

variable {c' : ForkedChainRef} {parent nb : Nat}

section

variable (h : AppendedAt c c' parent nb) {x : Nat}
include h

theorem AppendedAt.ne (hx : InTree c x) : x ≠ nb := by
  rintro rfl
  exact h.fresh hx

theorem AppendedAt.number_of (hx : InTree c x) : c'.number x = c.number x := by
  simp only [ForkedChainRef.number, h.blocks (h.ne hx)]

theorem AppendedAt.hash_of (hx : InTree c x) : c'.hash x = c.hash x := by
  simp only [ForkedChainRef.hash, h.blocks (h.ne hx)]

theorem AppendedAt.finalized_iff (hx : InTree c x) : Finalized c' x ↔ Finalized c x := by
  simp only [Finalized, h.blocks (h.ne hx)]

theorem AppendedAt.anc (hl : Linked c) {x a : Nat}
    (hx : InTree c x) (hanc : Anc c.parent x a) : Anc c'.parent x a := by
  refine hanc.congr (P := fun y => InTree c y) (fun i p hi hp => hl.inTree_parent hi hp) ?_ hx
  intro i p hi hp
  have hblk := h.blocks (h.ne hi)
  simp only [ForkedChainRef.parent, hblk] at hp ⊢
  exact hp

end

theorem appendBlock_spec (hi : Inv c) {f : Nat} {blk : Block} (hp : InTree c parent)
    (hnew : c.hashToBlock (c.com.computeBlockHash blk.header) = none)
    (hph : blk.header.parentHash = c.hash parent) (hnum : blk.header.number = c.number parent + 1)
    (hlt : f < c.nextFrame) (hlive : (c.frames f).disposed = false)
    (hframe : (c.frames f).parent = c.txFrame parent)
    (hunused : ∀ b, InTree c b → c.txFrame b ≠ some f) :
    ∃ c', c.appendBlock parent blk (c.com.computeBlockHash blk.header) f = (c', c.nextBlock) ∧
      Inv c' ∧ AppendedAt c c' parent c.nextBlock := by
  have hl := hi.linked
  generalize hh : c.com.computeBlockHash blk.header = blkHash at hnew
  have hfresh : ¬ InTree c c.nextBlock := fun h => Nat.lt_irrefl _ (hl.lt_next h)
  have hne : ∀ {x}, InTree c x → x ≠ c.nextBlock := by
    rintro x hx rfl
    exact hfresh hx
  generalize hc' : c.appendBlock parent blk blkHash f = res
  obtain ⟨c', nb⟩ := res
  -- the fields of the new state
  have hfst : (c.appendBlock parent blk blkHash f).1 = c' := congrArg (·.1) hc'
  have hnb : nb = c.nextBlock := (congrArg (·.2) hc').symm
  have hblocks : c'.blocks = update c.blocks c.nextBlock
      { header := blk.header, txFrame := some f, hash := blkHash, parent := some parent,
        isFinalized := false } := (congrArg (·.1.blocks) hc').symm
  have hlookup : c'.hashToBlock = update c.hashToBlock blkHash (some c.nextBlock) :=
    (congrArg (·.1.hashToBlock) hc').symm
  have hold : ∀ {x}, x ≠ c.nextBlock → c'.blocks x = c.blocks x := by
    intro x hx
    rw [hblocks, update_of_ne hx]
  have hself : c'.blocks c.nextBlock =
      { header := blk.header, txFrame := some f, hash := blkHash, parent := some parent,
        isFinalized := false } := by
    rw [hblocks, update_self]
  have hinTree : ∀ {x}, InTree c' x ↔ x = c.nextBlock ∨ InTree c x := by
    intro x
    by_cases hx : x = c.nextBlock
    · subst hx
      simp only [InTree, ForkedChainRef.hash, hself, hlookup, update_self, true_or]
    · simp only [InTree, ForkedChainRef.hash, hold hx, hlookup, hx, false_or]
      by_cases hxh : (c.blocks x).hash = blkHash
      · rw [hxh, update_self, hnew]
        exact ⟨fun h => absurd (Option.some.inj h).symm hx, fun h => by cases h⟩
      · rw [update_of_ne hxh]
  have hsame : ∀ h ∈ c.heads,
      sameBlock { c' with heads := c.heads } h parent = true ↔ h = parent := by
    intro h hmem
    have hht := hi.heads.inTree hmem
    simp only [sameBlock, ForkedChainRef.hash, hold (hne hht), hold (hne hp)]
    exact hht.sameBlock_iff hp
  have hheadsEq : c'.heads =
      replaceHead { c' with heads := c.heads } parent c.nextBlock c.heads := by
    rw [← hfst]
    rfl
  obtain ⟨hmem, hnd⟩ := replaceHead_spec hsame hi.heads.nodup
    fun h => hfresh (hi.heads.inTree h)
  rw [← hheadsEq] at hmem hnd
  have happ : AppendedAt c c' parent c.nextBlock := {
    rest := by
      rw [← hfst]
      rfl
    inTree := hinTree
    fresh := hfresh
    blocks := hold
    parent_eq := by simp only [ForkedChainRef.parent, hself]
    number_eq := by simp only [ForkedChainRef.number, hself, hnum]
    finalized := by simp only [Finalized, hself, Bool.false_eq_true, not_false_eq_true]
    heads := hmem _
    latest := (congrArg (·.1.latest) hc').symm }
  have hbase : c'.base = c.base := congrArg (·.base) happ.rest
  have hframes : c'.frames = c.frames := congrArg (·.frames) happ.rest
  have hqueue : c'.baseQueue = c.baseQueue := congrArg (·.baseQueue) happ.rest
  have htx : ∀ {x}, InTree c x → c'.txFrame x = c.txFrame x := by
    intro x hx
    simp only [txFrame, hold (hne hx)]
  have htxnb : c'.txFrame c.nextBlock = some f := by
    simp only [txFrame, hself]
  have hinv : Inv c' := {
    linked := {
      lt_next := by
        intro x hx
        have hnext : c'.nextBlock = c.nextBlock + 1 := (congrArg (·.1.nextBlock) hc').symm
        rcases hinTree.mp hx with rfl | hx
        · omega
        · have := hl.lt_next hx
          omega
      key := by
        intro h x hx
        rw [hlookup] at hx
        by_cases hhb : h = blkHash
        · subst hhb
          rw [update_self] at hx
          cases hx
          simp only [ForkedChainRef.hash, hself]
        · rw [update_of_ne hhb] at hx
          have hxt := hl.inTree_of_lookup hx
          rw [happ.hash_of hxt]
          exact hl.key hx
      hash_eq := by
        intro x hx
        have hcom : c'.com = c.com := congrArg (·.com) happ.rest
        rw [hcom]
        rcases hinTree.mp hx with rfl | hx
        · simp only [ForkedChainRef.hash, hself, hh]
        · rw [happ.hash_of hx, hold (hne hx)]
          exact hl.hash_eq hx
      parent_lt := by
        intro i p hip
        by_cases hi' : i = c.nextBlock
        · subst hi'
          rw [happ.parent_eq] at hip
          cases hip
          exact hl.lt_next hp
        · simp only [ForkedChainRef.parent, hold hi'] at hip
          exact hl.parent_lt i p hip
      base_mem := by
        rw [hbase]
        exact hinTree.mpr (.inr hl.base_mem)
      base_parent := by
        rw [hbase]
        simp only [ForkedChainRef.parent, hold (hne hl.base_mem)]
        exact hl.base_parent
      base_frame := by
        have hbf : c'.baseTxFrame = c.baseTxFrame := congrArg (·.baseTxFrame) happ.rest
        rw [hbase, hbf]
        simp only [txFrame, hold (hne hl.base_mem)]
        exact hl.base_frame
      link := by
        intro x hx hxb
        rw [hbase] at hxb
        rw [hframes]
        rcases hinTree.mp hx with rfl | hx
        · obtain ⟨g, hg, _⟩ := hl.live hp
          refine ⟨parent, happ.parent_eq, hinTree.mpr (.inr hp), ?_, ?_, f, g, ?_, ?_, ?_⟩
          · rw [happ.number_eq, happ.number_of hp]
          · rw [hself, happ.hash_of hp, hph]
          · simp only [txFrame, hself]
          · simp only [txFrame, hold (hne hp)]
            exact hg
          · rw [hframe, hg]
        · obtain ⟨p, hxp, hpt, hrest⟩ := hl.link hx hxb
          refine ⟨p, ?_, hinTree.mpr (.inr hpt), ?_⟩
          · simp only [ForkedChainRef.parent, hold (hne hx)]
            exact hxp
          · rw [happ.number_of hx, happ.number_of hpt, happ.hash_of hpt, hold (hne hx),
              htx hx, htx hpt]
            exact hrest
      live := by
        have hnf : c'.nextFrame = c.nextFrame := congrArg (·.nextFrame) happ.rest
        intro x hx
        rw [hframes, hnf]
        rcases hinTree.mp hx with rfl | hx
        · exact ⟨f, htxnb, hlt, hlive⟩
        · rw [htx hx]
          exact hl.live hx
      frame_inj := by
        intro x y g hx hy hxg hyg
        rcases hinTree.mp hx with rfl | hx <;> rcases hinTree.mp hy with rfl | hy
        · rfl
        · rw [htxnb] at hxg
          rw [htx hy, ← hxg] at hyg
          exact absurd hyg (hunused y hy)
        · rw [htxnb] at hyg
          rw [htx hx, ← hyg] at hxg
          exact absurd hxg (hunused x hx)
        · rw [htx hx] at hxg
          rw [htx hy] at hyg
          exact hl.frame_inj hx hy hxg hyg
      gone := by
        intro x hx
        have hxn : x ≠ c.nextBlock := fun h => hx (hinTree.mpr (.inl h))
        have hxt : ¬ InTree c x := fun h => hx (hinTree.mpr (.inr h))
        simp only [txFrame, hold hxn]
        exact hl.gone hxt }
    finality := {
      base := by
        rw [hbase]
        exact (happ.finalized_iff hl.base_mem).mpr hi.finality.base
      down := by
        intro b p hb hfin hbp
        rcases hinTree.mp hb with rfl | hb
        · exact absurd hfin happ.finalized
        · simp only [ForkedChainRef.parent, hold (hne hb)] at hbp
          have hfin' := (happ.finalized_iff hb).mp hfin
          exact (happ.finalized_iff (hl.inTree_parent hb hbp)).mpr
            (hi.finality.down hb hfin' hbp) }
    heads := {
      mem_iff := by
        intro b
        rw [hmem, hinTree]
        constructor
        · rintro (rfl | ⟨hb, hbp⟩)
          · refine ⟨.inl rfl, fun d hd hdb => ?_⟩
            rcases hinTree.mp hd with rfl | hd
            · rw [happ.parent_eq] at hdb
              exact hne hp (Option.some.inj hdb)
            · simp only [ForkedChainRef.parent, hold (hne hd)] at hdb
              exact hfresh (hl.inTree_parent hd hdb)
          · obtain ⟨hbt, hchild⟩ := hi.heads.mem_iff.mp hb
            refine ⟨.inr hbt, fun d hd hdb => ?_⟩
            rcases hinTree.mp hd with rfl | hd
            · rw [happ.parent_eq] at hdb
              exact hbp (Option.some.inj hdb).symm
            · simp only [ForkedChainRef.parent, hold (hne hd)] at hdb
              exact hchild d hd hdb
        · rintro ⟨rfl | hbt, hchild⟩
          · exact .inl rfl
          · refine .inr ⟨hi.heads.mem_iff.mpr ⟨hbt, fun d hd hdb => ?_⟩, ?_⟩
            · refine hchild d (hinTree.mpr (.inr hd)) ?_
              simp only [ForkedChainRef.parent, hold (hne hd)]
              exact hdb
            · rintro rfl
              exact hchild c.nextBlock (hinTree.mpr (.inl rfl)) happ.parent_eq
      nodup := hnd
      latest_mem := by
        rw [hmem]
        exact .inl happ.latest }
    queued := by
      rw [hqueue]
      intro b hb
      obtain ⟨hbt, hbfin⟩ := hi.queued b hb
      exact ⟨hinTree.mpr (.inr hbt), (happ.finalized_iff hbt).mpr hbfin⟩
    sorted := by
      rw [hqueue]
      refine hi.sorted.imp_of_mem fun {a b} ha hb hle => ?_
      rw [happ.number_of (hi.queued a ha).1, happ.number_of (hi.queued b hb).1]
      exact hle
    orphan := by
      have horph : c'.orphans = c.orphans := congrArg (·.orphans) happ.rest
      rw [horph]
      exact hi.orphan
    saved := by
      have hcan : c'.canonical = c.canonical := congrArg (·.canonical) happ.rest
      rw [hbase, hcan, happ.number_of hl.base_mem, happ.hash_of hl.base_mem]
      exact hi.saved }
  exact ⟨c', by rw [hnb], hinv, happ⟩

end Append

/-! ## Automatic forwarding -/

/-- The finalized block found first on the way down from `it` is the highest one. -/
theorem find?_finalized (hl : Linked c) (hf : Finality c) {fuel it : Nat} (hit : InTree c it)
    (hfuel : it < fuel) :
    ∃ top, (chain c.parent fuel (some it)).find? (fun x => !c.notFinalized x) = some top ∧
      Anc c.parent it top ∧ Finalized c top ∧
      ∀ x, Anc c.parent it x → Finalized c x → Anc c.parent top x := by
  induction fuel generalizing it with
  | zero => omega
  | succ fuel ih =>
    simp only [chain]
    by_cases hfin : Finalized c it
    · refine ⟨it, ?_, Anc.refl _, hfin, fun x hx _ => hx⟩
      rw [List.find?_cons_of_pos]
      rw [notFinalized_eq_false_iff.mpr hfin]
      rfl
    · obtain ⟨p, hp, hpt, _⟩ := hf.parent_of_not hl hit hfin
      have hlt := hl.parent_lt it p hp
      obtain ⟨top, hfind, hanc, htfin, hmax⟩ := ih hpt (by omega)
      refine ⟨top, ?_, Anc.head hp hanc, htfin, fun x hx hxfin => ?_⟩
      · rw [List.find?_cons_of_neg, hp, hfind]
        rw [notFinalized_iff.mpr hfin]
        exact Bool.false_ne_true
      · rcases hx.cases_parent with rfl | ⟨q, hq, hqx⟩
        · exact absurd hxfin hfin
        · rw [hp] at hq
          cases hq
          exact hmax x hqx hxfin

/-- The frontier is on the lineage of `latest`, not below `base`, and everything finalized
on that lineage is below it. -/
theorem finalizedFrontier_spec (hl : Linked c) (hf : Finality c) {base : Nat}
    (hlat : InTree c c.latest) (hb : Anc c.parent c.latest base) :
    Anc c.parent c.latest (c.finalizedFrontier base) ∧
      Anc c.parent (c.finalizedFrontier base) base ∧
      (∀ x, Anc c.parent c.latest x → Finalized c x →
        Anc c.parent (c.finalizedFrontier base) x) ∧
      (c.finalizedFrontier base = base ∨ Finalized c (c.finalizedFrontier base)) := by
  obtain ⟨top, hfind, hanc, htfin, hmax⟩ := find?_finalized hl hf hlat (hl.lt_next hlat)
  have hfind' : (c.ancestors (some c.latest)).find? (fun x => !c.notFinalized x) = some top :=
    hfind
  simp only [finalizedFrontier, hfind']
  by_cases hgt : c.number top > c.number base
  · rw [if_pos hgt]
    exact ⟨hanc, hl.anc_of_number_le hlat hanc hb (Nat.le_of_lt hgt), hmax, .inr htfin⟩
  · rw [if_neg hgt]
    have hbt := hl.anc_of_number_le hlat hb hanc (Nat.not_lt.mp hgt)
    exact ⟨hb, Anc.refl _, fun x hx hxfin => hbt.trans (hmax x hx hxfin), .inl rfl⟩

/-- The block of `fcuHead` stays when everything above `stay` and on its lineage does. -/
def FcuHeadNear (c : ForkedChainRef) (fin : Nat) : Prop :=
  ∀ f, InTree c f → c.hash f = c.fcuHead.hash → Anc c.parent f fin ∨ Anc c.parent fin f

theorem FinalizedAt.fcuHead {c' : ForkedChainRef} {fin : Nat} (h : FinalizedAt c c' fin)
    (hnear : FcuHeadNear c fin) (hfcu : FcuHeadInTree c) : FcuHeadInTree c' := by
  obtain ⟨f, hf, hhash, hnum⟩ := hfcu
  have hfcuEq : c'.fcuHead = c.fcuHead := congrArg (·.fcuHead) h.rest
  have hf' : InTree c' f := h.inTree.mpr ⟨hf, hnear f hf hhash⟩
  refine ⟨f, hf', ?_, ?_⟩
  · rw [h.hash, hfcuEq, hhash]
  · rw [h.number hf', hfcuEq, hnum]

theorem FinalizedAt.guarded {c' : ForkedChainRef} {fin : Nat} (h : FinalizedAt c c' fin)
    (hi : Inv c) (htop : TopFinalized c fin) (hl' : Linked c') (hh' : Heads c') : Guarded c' := by
  intro b hb x hx hxfin
  obtain ⟨hbh, hbfin⟩ := h.heads.mp hb
  rw [h.anc_iff hl' (hh'.inTree hb)]
  rcases h.finalized.mp hxfin with hold | hanc
  · have hxt := (h.inTree.mp hx).1
    rcases htop with h1 | htop
    · exact hi.heads.anc_of_single hi.linked h1 hbh hxt
    · exact hbfin.trans (htop x hxt hold)
  · exact hbfin.trans hanc

/-- Finalizing a block and queueing the base moves towards an ancestor of it. -/
theorem finalizeAndQueue_spec (hi : Inv c) {fin head : Nat} (hfin : InTree c fin)
    (htop : TopFinalized c fin) (hhead : InTree c head) (hanc : Anc c.parent head fin) :
    ∃ c₁, c.updateFinalized fin head = .ok c₁ ∧ Inv c₁ ∧ FinalizedAt c c₁ fin ∧
      Settled c c₁ ∧ Guarded c₁ ∧
      (∀ base, Anc c.parent fin base → ∃ c₂, c₁.queueUpdateBase base = .ok c₂ ∧ Inv c₂ ∧
        c₂ = { c₁ with baseQueue := c₂.baseQueue, queue := c₂.queue }) := by
  have hl := hi.linked
  obtain ⟨c₁, hrun, hl₁, hf₁, hh₁, hat⟩ :=
    updateFinalized_spec hl hi.finality hi.heads hfin htop hhead hanc
  have hi₁ := hat.inv hi hfin htop hl₁ hf₁ hh₁
  refine ⟨c₁, hrun, hi₁, hat, hat.settled hi hfin htop hl₁,
    hat.guarded hi htop hl₁ hh₁, fun base hb => ?_⟩
  have hb₁ : InTree c₁ base := hat.inTree.mpr ⟨hl.inTree_anc hfin hb, .inr hb⟩
  exact queueUpdateBase_spec hi₁ hb₁ (hat.finalized.mpr (.inr hb))

theorem forwardBase_spec (hi : Inv c) (hok : c.autoForward = true →
      ∀ x, InTree c x → Finalized c x → Anc c.parent c.latest x) :
    ∃ c', c.forwardBase = .ok c' ∧ Sound c c' True
      (c.autoForward = true → ∀ fin, Anc c.parent c.latest fin →
        (Finalized c fin ∨
          c.number fin = newBaseNumber c c.latestFinalized.number (c.number c.latest)) →
        FcuHeadNear c fin) := by
  have hl := hi.linked
  unfold forwardBase
  by_cases harm : c.autoForward = true
  · rw [if_pos harm]
    have hlat := hi.heads.inTree hi.heads.latest_mem
    obtain ⟨base, hbase, hbanc, hbnum⟩ :=
      calculateNewBase_spec hl hlat c.latestFinalized.number
    obtain ⟨hfanc, hfb, hmax, hwhich⟩ := finalizedFrontier_spec hl hi.finality hlat hbanc
    generalize hfr : c.finalizedFrontier base = fr at hfanc hfb hmax hwhich
    have hfrt := hl.inTree_anc hlat hfanc
    have htop : TopFinalized c fr :=
      .inr fun x hx hxfin => hmax x (hok harm x hx hxfin) hxfin
    obtain ⟨c₁, hrun₁, hi₁, hat, hs₁, hg₁, hqueue⟩ :=
      finalizeAndQueue_spec hi hfrt htop hlat hfanc
    obtain ⟨c₂, hrun₂, hi₂, hrest⟩ := hqueue base hfb
    -- queueing does not move the base, so `fcuHead` is not touched
    have hstill : ¬ (c₂.number c₂.base > c.number c.base ∧
        c₂.fcuHead.number < c₂.number c₂.base) := by
      rintro ⟨hgt, _⟩
      have h1 : c₂.number c₂.base = c₁.number c₁.base := by
        rw [hrest]
        rfl
      have h2 : c₁.base = c.base := congrArg (·.base) hat.rest
      rw [h1, hat.number hi₁.linked.base_mem, h2] at hgt
      exact Nat.lt_irrefl _ hgt
    refine ⟨c₂, ?_, hi₂, ?_, ?_, ?_⟩
    · rw [hbase]
      show (do
        let c ← c.updateFinalized (c.finalizedFrontier base) c.latest
        _) = _
      rw [hfr, hrun₁]
      show (do
        let c ← c₁.queueUpdateBase base
        _) = _
      rw [hrun₂]
      show (if _ then _ else _) = _
      rw [if_neg hstill]
      rfl
    · rw [hrest]
      exact ⟨hs₁.base_le, hs₁.canonical, hs₁.kept⟩
    · intro _ _
      rw [hrest]
      exact hg₁
    · intro hnear hfcu
      have hnear' : FcuHeadNear c fr := by
        refine hnear harm fr hfanc ?_
        rcases hwhich with heq | hfin
        · right
          rw [heq, hbnum]
        · exact .inl hfin
      have := hat.fcuHead hnear' hfcu
      rw [hrest]
      exact this
  · rw [if_neg harm]
    exact ⟨c, rfl, Sound.refl hi⟩

/-! ## `validateBlock` -/

/-- `c` after the check whether `blk` is the finalized block the fork choice waits for. -/
def resolvePending (c : ForkedChainRef) (blk : Block) : ForkedChainRef :=
  let blkHash := c.com.computeBlockHash blk.header
  if blkHash = c.pendingFCU then c.tryUpdatePendingFCU blkHash blk.header.number else c

theorem resolvePending_eq (c : ForkedChainRef) (blk : Block) :
    ∃ h l, resolvePending c blk = { c with pendingFCU := h, latestFinalized := l } := by
  simp only [resolvePending, tryUpdatePendingFCU]
  split
  · split
    · exact ⟨_, _, rfl⟩
    · exact ⟨_, _, rfl⟩
  · exact ⟨_, _, rfl⟩

/-- `blk` is new and executes on top of `parent`. -/
def Attachable (c : ForkedChainRef) (env : Env) (parent : BlockRef) (blk : Block)
    (finalized : Bool) : Prop :=
  c.hashToBlock (c.com.computeBlockHash blk.header) = none ∧
    processBlock env (c.blocks parent).header blk finalized = true

/-- Every finalized block is on the lineage of `parent`. -/
def OnTop (c : ForkedChainRef) (parent : BlockRef) : Prop :=
  ∀ x, InTree c x → Finalized c x → Anc c.parent parent x

/-- Importing `blk` moves the base without a fork choice. -/
def Armed (c : ForkedChainRef) (blk : Block) : Prop :=
  (resolvePending c blk).autoForward = true

/-- The number the base then moves to. -/
def forwardNumber (c : ForkedChainRef) (blk : Block) : Nat :=
  newBaseNumber (resolvePending c blk) (resolvePending c blk).latestFinalized.number
    blk.header.number

/-- The block of `fcuHead` is on the lineage of `parent`, or leaves it at a block that is
neither below a finalized block nor below the new base. -/
def FcuHeadSafe (c : ForkedChainRef) (parent : BlockRef) (blk : Block) : Prop :=
  ∀ f, InTree c f → c.hash f = c.fcuHead.hash →
    ∃ a, Anc c.parent f a ∧ Anc c.parent parent a ∧
      (a = f ∨ (OnTop c a ∧ forwardNumber c blk ≤ c.number a))

/-- A block that passes `processBlock` below the genesis has the next number. -/
theorem number_of_pass {env : Env} {parentHeader : Header}
    (hnz : blk.header.parentHash ≠ GENESIS_PARENT_HASH)
    (hpass : processBlock env parentHeader blk finalized = true) :
    blk.header.number = parentHeader.number + 1 := by
  have hgen : blk.header.isGenesis = false := by
    simp [Header.isGenesis, hnz]
  simp only [processBlock, hgen, Bool.false_eq_true, if_false] at hpass
  split at hpass
  · cases hpass
  · next heq => exact not_not.mp heq

/-- A child of a block of the tree that passes `processBlock` has the next number. -/
theorem number_of_processBlock (hl : Linked c) {env : Env}
    (hp : InTree c parent) (hph : blk.header.parentHash = c.hash parent)
    (hpass : processBlock env (c.blocks parent).header blk finalized = true) :
    blk.header.number = c.number parent + 1 := by
  refine number_of_pass ?_ hpass
  rw [hph, hl.hash_eq hp]
  exact c.com.hash_ne_zero _

section Validate

variable {c' : ForkedChainRef} {parent nb : Nat}

section

variable (h : AppendedAt c c' parent nb)
include h

theorem AppendedAt.settled (hl : Linked c) : Settled c c' where
  base_le := by
    have hbase : c'.base = c.base := congrArg (·.base) h.rest
    exact Nat.le_of_eq (by rw [hbase, h.number_of hl.base_mem])
  canonical n _ := by
    have hcan : c'.canonical = c.canonical := congrArg (·.canonical) h.rest
    rw [hcan]
  kept x hx hfin := .inl ⟨h.inTree.mpr (.inr hx), (h.finalized_iff hx).mpr hfin,
    h.hash_of hx, h.number_of hx⟩

/-- A finalized block of the grown tree was there before. -/
theorem AppendedAt.old_of_finalized {x : Nat}
    (hx : InTree c' x) (hfin : Finalized c' x) : InTree c x ∧ Finalized c x := by
  rcases h.inTree.mp hx with rfl | hx
  · exact absurd hfin h.finalized
  · exact ⟨hx, (h.finalized_iff hx).mp hfin⟩

theorem AppendedAt.onTop (hl : Linked c) (hp : InTree c parent)
    (hon : OnTop c parent) : OnTop c' nb := by
  intro x hx hfin
  obtain ⟨hx, hfin⟩ := h.old_of_finalized hx hfin
  exact Anc.head h.parent_eq (h.anc hl hp (hon x hx hfin))

theorem AppendedAt.guarded (hi : Inv c) (hp : InTree c parent)
    (hon : OnTop c parent) (hg : Guarded c) : Guarded c' := by
  intro b hb x hx hfin
  rcases h.heads.mp hb with rfl | ⟨hb, _⟩
  · exact h.onTop hi.linked hp hon x hx hfin
  · obtain ⟨hx, hfin⟩ := h.old_of_finalized hx hfin
    exact h.anc hi.linked (hi.heads.inTree hb) (hg b hb x hx hfin)

theorem AppendedAt.autoForward (hl : Linked c) : c'.autoForward = c.autoForward := by
  have hnum : c'.number c'.base = c.number c.base := by
    have hbase : c'.base = c.base := congrArg (·.base) h.rest
    rw [hbase, h.number_of hl.base_mem]
  unfold ForkedChainRef.autoForward
  rw [hnum, h.rest]

theorem AppendedAt.newBaseNumber (hl : Linked c) (fin n : Nat) :
    newBaseNumber c' fin n = newBaseNumber c fin n := by
  have hnum : c'.number c'.base = c.number c.base := by
    have hbase : c'.base = c.base := congrArg (·.base) h.rest
    rw [hbase, h.number_of hl.base_mem]
  unfold ForkedChain.newBaseNumber
  rw [hnum, h.rest]

/-- The new leaf brings the block of `fcuHead` no closer to being pruned. -/
theorem AppendedAt.fcuHeadNear (hi : Inv c) (hi' : Inv c') (hp : InTree c parent) {fin target : Nat}
    (hsafe : ∀ f, InTree c f → c.hash f = c.fcuHead.hash →
      ∃ a, Anc c.parent f a ∧ Anc c.parent parent a ∧
        (a = f ∨ (OnTop c a ∧ target ≤ c.number a)))
    (hfin : Anc c'.parent nb fin) (hwhich : Finalized c' fin ∨ c'.number fin = target) :
    FcuHeadNear c' fin := by
  have hl := hi.linked
  intro f hf hhash
  have hnbt : InTree c' nb := h.inTree.mpr (.inl rfl)
  have hfcu : c'.fcuHead = c.fcuHead := congrArg (·.fcuHead) h.rest
  rcases h.inTree.mp hf with rfl | hf
  · exact .inl hfin
  · rw [h.hash_of hf, hfcu] at hhash
    obtain ⟨a, hfa, hpa, hcase⟩ := hsafe f hf hhash
    have hnba : Anc c'.parent nb a := Anc.head h.parent_eq (h.anc hl hp hpa)
    have hfa' : Anc c'.parent f a := h.anc hl hf hfa
    rcases hcase with rfl | ⟨hon, hle⟩
    · exact hnba.total hfin
    · left
      refine hfa'.trans ?_
      have hat := hl.inTree_anc hp hpa
      rcases hwhich with hffin | hnum
      · have hft := hi'.linked.inTree_anc hnbt hfin
        obtain ⟨hft, hffin⟩ := h.old_of_finalized hft hffin
        exact h.anc hl hat (hon fin hft hffin)
      · refine hi'.linked.anc_of_number_le hnbt hnba hfin ?_
        rw [h.number_of hat]
        omega

end

end Validate

/-- A valid block becomes a new leaf, with a frame on top of the parent's. -/
theorem append_opened (hi : Inv c) {pf : Nat} (blk : Block) (hp : InTree c parent)
    (hnew : c.hashToBlock (c.com.computeBlockHash blk.header) = none)
    (hph : blk.header.parentHash = c.hash parent)
    (hnum : blk.header.number = c.number parent + 1) (hpf : c.txFrame parent = some pf) :
    ∃ c₂, (opened c pf).appendBlock parent blk (c.com.computeBlockHash blk.header)
        c.nextFrame = (c₂, c.nextBlock) ∧ Inv c₂ ∧
      AppendedAt (opened c pf) c₂ parent c.nextBlock := by
  have hio : Inv (opened c pf) := hi.opened pf
  have hpo : InTree (opened c pf) parent := hp
  have hlive : ((opened c pf).frames c.nextFrame).disposed = false := by
    simp only [opened, update_self]
  have hframe : ((opened c pf).frames c.nextFrame).parent = (opened c pf).txFrame parent := by
    simp only [opened, update_self]
    exact hpf.symm
  have hunused : ∀ b, InTree (opened c pf) b → (opened c pf).txFrame b ≠ some c.nextFrame := by
    intro b hb hbf
    have hbf' : c.txFrame b = some c.nextFrame := hbf
    obtain ⟨g, hg, hlt, _⟩ := hi.linked.live hb
    rw [hg] at hbf'
    cases hbf'
    exact Nat.lt_irrefl _ hlt
  exact appendBlock_spec hio hpo hnew hph hnum (Nat.lt_succ_self _) hlive hframe hunused

/-- Attaching a valid block: a frame on top of the parent's, a new leaf, and the base moves
when the import lags behind. -/
theorem attach_spec (hi : Inv c) {pf : Nat} (blk : Block) (hp : InTree c parent)
    (hnew : c.hashToBlock (c.com.computeBlockHash blk.header) = none)
    (hph : blk.header.parentHash = c.hash parent)
    (hnum : blk.header.number = c.number parent + 1) (hpf : c.txFrame parent = some pf)
    (hok : c.autoForward = true → OnTop c parent) :
    ∃ c₂ c₃, (opened c pf).appendBlock parent blk (c.com.computeBlockHash blk.header)
        c.nextFrame = (c₂, c.nextBlock) ∧ c₂.forwardBase = .ok c₃ ∧
      Sound c c₃ (OnTop c parent)
        (c.autoForward = true → ∀ f, InTree c f → c.hash f = c.fcuHead.hash →
          ∃ a, Anc c.parent f a ∧ Anc c.parent parent a ∧ (a = f ∨ (OnTop c a ∧
            newBaseNumber c c.latestFinalized.number blk.header.number ≤ c.number a))) := by
  have hio : Inv (opened c pf) := hi.opened pf
  have hpo : InTree (opened c pf) parent := hp
  obtain ⟨c₂, happend, hi₂, hat⟩ := append_opened hi blk hp hnew hph hnum hpf
  have hlo := hio.linked
  have harm : c₂.autoForward = c.autoForward := hat.autoForward hlo
  have hontop : OnTop c parent → OnTop c₂ c₂.latest := fun hon => by
    rw [hat.latest]
    exact hat.onTop hlo hpo hon
  obtain ⟨c₃, hforward, hs₃⟩ := forwardBase_spec hi₂ fun h => hontop (hok (harm ▸ h))
  have hs₂ : Settled c c₂ := by
    have hs := hat.settled hlo
    exact ⟨hs.base_le, hs.canonical, hs.kept⟩
  refine ⟨c₂, c₃, happend, hforward, hs₃.inv, hs₂.trans hs₃.settled, ?_, ?_⟩
  · exact fun hon hg => hs₃.guarded trivial (hat.guarded hio hpo hon hg)
  · rintro hsafe ⟨f, hf, hhash, hfnum⟩
    have hfcu : c₂.fcuHead = c.fcuHead := congrArg (·.fcuHead) hat.rest
    refine hs₃.fcuHead ?_ ⟨f, hat.inTree.mpr (.inr hf), ?_, ?_⟩
    · intro harmed fin hfin hwhich
      rw [hat.latest] at hfin hwhich
      refine hat.fcuHeadNear hio hi₂ hpo (hsafe (harm ▸ harmed)) hfin ?_
      refine hwhich.imp_right fun heq => ?_
      have hlf : c₂.latestFinalized = c.latestFinalized := congrArg (·.latestFinalized) hat.rest
      have hnb : c₂.number c.nextBlock = blk.header.number := by
        rw [hnum]
        exact hat.number_eq
      rw [heq, hat.newBaseNumber hlo, hlf]
      show newBaseNumber c c.latestFinalized.number (c₂.number c.nextBlock) = _
      rw [hnb]
    · rw [hfcu]
      exact (hat.hash_of hf).trans hhash
    · rw [hfcu]
      exact (hat.number_of hf).trans hfnum

theorem validateBlock_of_new {env : Env} {pf : Nat}
    {c₁ : ForkedChainRef} (hc₁ : resolvePending c blk = c₁)
    (hnew : c.hashToBlock (c.com.computeBlockHash blk.header) = none)
    (hbegin : c₁.txFrameBegin (c₁.txFrame parent) = .ok (opened c₁ pf, c₁.nextFrame)) :
    c.validateBlock env parent blk finalized =
      if processBlock env (c₁.blocks parent).header blk finalized then do
        let c' ← ((opened c₁ pf).appendBlock parent blk
          (c.com.computeBlockHash blk.header) c₁.nextFrame).1.forwardBase
        return (c', .ok ((opened c₁ pf).appendBlock parent blk
          (c.com.computeBlockHash blk.header) c₁.nextFrame).2)
      else return ((opened c₁ pf).disposeFrame c₁.nextFrame, .error .invalidBlock) := by
  subst hc₁
  simp only [validateBlock, hnew]
  change (resolvePending c blk).txFrameBegin ((resolvePending c blk).txFrame parent) >>= _ = _
  rw [hbegin]
  rfl

theorem validateBlock_spec (hi : Inv c) (env : Env)
    (hp : InTree c parent) (hph : blk.header.parentHash = c.hash parent)
    (hok : Attachable c env parent blk finalized → Armed c blk → OnTop c parent) :
    ∃ c' r, c.validateBlock env parent blk finalized = .ok (c', r) ∧
      Sound c c' (Attachable c env parent blk finalized → OnTop c parent)
        (Attachable c env parent blk finalized → Armed c blk → FcuHeadSafe c parent blk) := by
  cases hknown : c.hashToBlock (c.com.computeBlockHash blk.header) with
  | some existing =>
    refine ⟨c, .ok existing, ?_, Sound.refl hi⟩
    simp only [validateBlock, hknown]
  | none =>
    obtain ⟨h, l, hres⟩ := resolvePending_eq c blk
    have hi₁ : Inv (resolvePending c blk) := by
      rw [hres]
      exact hi.congr rfl
    have hp₁ : InTree (resolvePending c blk) parent := by
      rw [hres]
      exact hp
    obtain ⟨pf, hpf, hbegin⟩ := txFrameBegin_eq hi₁.linked hp₁
    rw [validateBlock_of_new rfl hknown hbegin]
    have hblk : (resolvePending c blk).blocks = c.blocks := by rw [hres]
    rw [hblk]
    by_cases hpass : processBlock env (c.blocks parent).header blk finalized
        = true
    · have hatt : Attachable c env parent blk finalized := ⟨hknown, hpass⟩
      have hnum := number_of_processBlock hi.linked hp hph hpass
      have hon : OnTop c parent → OnTop (resolvePending c blk) parent := by
        rw [hres]
        exact id
      obtain ⟨c₂, c₃, happend, hforward, hs₃⟩ := attach_spec hi₁ blk
        hp₁ (by rw [hres]; exact hknown) (by rw [hres]; exact hph)
        (by rw [hres]; exact hnum) hpf fun harm => hon (hok hatt harm)
      have hcom : (resolvePending c blk).com = c.com := by rw [hres]
      rw [if_pos hpass, ← hcom, happend]
      refine ⟨c₃, .ok (resolvePending c blk).nextBlock, ?_, hs₃.inv, ?_, ?_, ?_⟩
      · rw [hforward]
        rfl
      · have hs := hs₃.settled
        rw [hres] at hs
        exact ⟨hs.base_le, hs.canonical, hs.kept⟩
      · intro hontop hg
        refine hs₃.guarded (hon (hontop hatt)) ?_
        rw [hres]
        exact hg
      · intro hsafe hfcu
        refine hs₃.fcuHead (fun harm => ?_) ?_
        · have := hsafe hatt harm
          unfold FcuHeadSafe forwardNumber at this
          rw [hres] at this ⊢
          exact this
        · rw [hres]
          exact hfcu
    · rw [if_neg hpass]
      refine ⟨_, _, rfl, hi₁.opened_dispose pf, ?_, fun _ hg => ?_, fun _ hf => ?_⟩
      · rw [hres]
        exact ⟨Nat.le_refl _, fun _ _ => rfl, fun x hx hfin => .inl ⟨hx, hfin, rfl, rfl⟩⟩
      · rw [hres]
        exact hg
      · rw [hres]
        exact hf

/-! ## `importBlock` and `processOrphan` -/

/-- Changes to the quarantine keep the invariant as long as it is sorted by parents. -/
theorem Sound.orphans {d : ForkedChainRef} {p q : Prop} (hs : Sound d c p q)
    {orphans : List (Hash32 × Block)} (h : ∀ o ∈ orphans, o.1 = o.2.header.parentHash) :
    Sound d { c with orphans := orphans } p q :=
  ⟨⟨hs.inv.linked.congr rfl, hs.inv.finality.congr rfl,
      ⟨hs.inv.heads.mem_iff, hs.inv.heads.nodup, hs.inv.heads.latest_mem⟩,
      hs.inv.queued, hs.inv.sorted, h, hs.inv.saved⟩,
    ⟨hs.settled.base_le, hs.settled.canonical, hs.settled.kept⟩, hs.guarded, hs.fcuHead⟩

theorem addOrphan_sound (hi : Inv c) (blk : Block) {p q : Prop} :
    Sound c (c.addOrphan blk) p q := by
  refine (Sound.refl hi).orphans fun o ho => ?_
  have ho' := List.mem_of_mem_take ho
  rcases List.mem_cons.mp ho' with rfl | hmem
  · rfl
  · exact hi.orphan o (List.mem_of_mem_filter hmem)

/-- The block a handler is about to attach to the tree: the parent, the block and whether
its state root check is skipped. -/
def attempt (c : ForkedChainRef) : Event → Option (BlockRef × Block × Bool)
  | .importBlock blk finalized =>
    (c.hashToBlock blk.header.parentHash).map fun parent =>
      (parent, blk, finalized || blk.header.number ≤ c.latestFinalized.number)
  | .handle i =>
    match c.queue[i]? with
    | some (.processOrphan parent finalized) =>
      if c.txFrame parent = none then none
      else (c.popOrphan (c.hash parent)).map fun orphan => (parent, orphan.2, finalized)
    | _ => none
  | _ => none

/-- The step `e` attaches `blk` to `parent`. -/
def Attaches (c : ForkedChainRef) (env : Env) (e : Event) (parent : BlockRef) (blk : Block) :
    Prop :=
  ∃ finalized, attempt c e = some (parent, blk, finalized) ∧
    Attachable c env parent blk finalized

theorem importBlock_spec (hi : Inv c) (env : Env) (blk : Block) (finalized : Bool)
    (hok : ∀ parent b, Attaches c env (.importBlock blk finalized) parent b → Armed c b →
      OnTop c parent) :
    ∃ c' r, c.importBlock env blk finalized = .ok (c', r) ∧ Sound c c'
      (∀ parent b, Attaches c env (.importBlock blk finalized) parent b → OnTop c parent)
      (∀ parent b, Attaches c env (.importBlock blk finalized) parent b → Armed c b →
        FcuHeadSafe c parent b) := by
  unfold importBlock
  by_cases hknown : (c.hashToBlock (c.com.computeBlockHash blk.header)).isSome = true
  · simp only [hknown, if_true]
    exact ⟨c, _, rfl, Sound.refl hi⟩
  · simp only [hknown]
    cases hparent : c.hashToBlock blk.header.parentHash with
    | some parent =>
      have hp := hi.linked.inTree_of_lookup hparent
      have hph := (hi.linked.key hparent).symm
      have hattempt : attempt c (.importBlock blk finalized) = some (parent, blk,
          finalized || blk.header.number ≤ c.latestFinalized.number) := by
        simp [attempt, hparent]
      obtain ⟨c₁, r, hrun, hs⟩ := validateBlock_spec hi env hp hph
        fun hatt => hok parent blk ⟨_, hattempt, hatt⟩
      have hs' := hs.imp
        (fun (h : ∀ parent b, Attaches c env (.importBlock blk finalized) parent b →
          OnTop c parent) hatt => h parent blk ⟨_, hattempt, hatt⟩)
        (fun (h : ∀ parent b, Attaches c env (.importBlock blk finalized) parent b →
          Armed c b → FcuHeadSafe c parent b) hatt => h parent blk ⟨_, hattempt, hatt⟩)
      change ∃ c' r, c.validateBlock env parent blk _ >>= _ = _ ∧ _
      rw [hrun]
      cases r with
      | error e => exact ⟨c₁, _, rfl, hs'⟩
      | ok newParent =>
        by_cases horph : c₁.orphans ≠ []
        · refine ⟨{ c₁ with queue := c₁.queue ++ [.processOrphan newParent
            (finalized || blk.header.number ≤ c.latestFinalized.number)] }, .ok .Valid, ?_,
            hs'.congr rfl⟩
          change (pure _ : Except Defect _) = _
          rw [if_pos horph]
          rfl
        · refine ⟨c₁, .ok .Valid, ?_, hs'⟩
          change (pure _ : Except Defect _) = _
          rw [if_neg horph]
          rfl
    | none =>
      by_cases hlow : blk.header.number ≤ c.number c.latest
      · by_cases hseen : blk.header.number ≤ c.number c.base ∧
            (c.canonical blk.header.number).getD zeroHash32 =
              c.com.computeBlockHash blk.header
        · simp only [hlow, hseen, if_true]
          exact ⟨c, _, rfl, Sound.refl hi⟩
        · simp only [hlow, hseen, if_true, if_false]
          exact ⟨c, _, rfl, Sound.refl hi⟩
      · simp only [hlow, if_false]
        exact ⟨_, _, rfl, addOrphan_sound hi blk⟩

theorem resolvePending_orphans (q : List QueueItem) (o : List (Hash32 × Block)) (blk : Block) :
    resolvePending { c with queue := q, orphans := o } blk
      = { resolvePending c blk with queue := q, orphans := o } := by
  simp only [resolvePending, tryUpdatePendingFCU]
  by_cases hpending : c.com.computeBlockHash blk.header = c.pendingFCU
  · simp only [hpending, if_true]
    by_cases hnew : blk.header.number > c.latestFinalized.number
    · simp only [hnew, if_true]
    · simp only [hnew, if_false]
  · simp only [hpending, if_false]

theorem processOrphan_spec (hi : Inv c) (env : Env) {i : Nat}
    (hitem : c.queue[i]? = some (.processOrphan parent finalized)) (q : List QueueItem)
    (hok : ∀ p b, Attaches c env (.handle i) p b → Armed c b → OnTop c p) :
    ∃ c', processOrphan { c with queue := q } env parent finalized = .ok c' ∧
      Sound c c' (∀ p b, Attaches c env (.handle i) p b → OnTop c p)
        (∀ p b, Attaches c env (.handle i) p b → Armed c b → FcuHeadSafe c p b) := by
  by_cases hgone : c.txFrame parent = none
  · -- the parent was pruned or persisted while the item was waiting
    exact ⟨_, if_pos hgone, (Sound.refl hi).congr rfl⟩
  · have hp : InTree c parent := hi.linked.inTree_of_txFrame hgone
    change ∃ c', (if c.txFrame parent = none then _ else _) = _ ∧ _
    rw [if_neg hgone]
    cases hfind : c.orphans.find? (·.1 == c.hash parent) with
    | none =>
      have hpop : popOrphan { c with queue := q }
          (ForkedChainRef.hash { c with queue := q } parent) = none := by
        change (c.orphans.find? (·.1 == c.hash parent)).map _ = none
        rw [hfind, Option.map_none]
      rw [hpop]
      exact ⟨_, rfl, (Sound.refl hi).congr rfl⟩
    | some found =>
      generalize hrest : c.orphans.filter (·.1 != c.hash parent) = rest
      have hpop : popOrphan { c with queue := q }
          (ForkedChainRef.hash { c with queue := q } parent)
          = some ({ c with queue := q, orphans := rest }, found.2) := by
        change (c.orphans.find? (·.1 == c.hash parent)).map _ = _
        rw [hfind, ← hrest]
        rfl
      have hpop' : (c.popOrphan (c.hash parent)).map (fun orphan => (parent, orphan.2, finalized))
          = some (parent, found.2, finalized) := by
        simp only [popOrphan, hfind, Option.map_some]
      have hattempt : attempt c (.handle i) = some (parent, found.2, finalized) := by
        simp only [attempt, hitem, if_neg hgone]
        exact hpop'
      -- the quarantine is sorted by missing parents
      have hkey : found.1 = c.hash parent := by simpa using List.find?_some hfind
      have hph : found.2.header.parentHash = c.hash parent := by
        rw [← hkey]
        exact (hi.orphan found (List.mem_of_find?_eq_some hfind)).symm
      have hs₁ : ∀ p q' : Prop, Sound c { c with queue := q, orphans := rest } p q' := by
        intro p q'
        have hq : Sound c { c with queue := q } p q' := (Sound.refl hi).congr rfl
        refine hq.orphans fun o ho => ?_
        rw [← hrest] at ho
        exact hi.orphan o (List.mem_of_mem_filter ho)
      have harmed : Armed { c with queue := q, orphans := rest } found.2 → Armed c found.2 := by
        unfold Armed
        rw [resolvePending_orphans q rest found.2]
        exact id
      have hsafe : FcuHeadSafe c parent found.2 →
          FcuHeadSafe { c with queue := q, orphans := rest } parent found.2 := by
        unfold FcuHeadSafe forwardNumber
        rw [resolvePending_orphans q rest found.2]
        exact id
      obtain ⟨c₂, r, hrun, hs₂⟩ := validateBlock_spec (c := { c with queue := q, orphans := rest })
        (hs₁ True True).inv env hp hph fun hatt harm =>
          hok parent found.2 ⟨finalized, hattempt, hatt⟩ (harmed harm)
      have hs := (hs₁ _ _).trans (hs₂.imp
        (fun (h : ∀ p b, Attaches c env (.handle i) p b → OnTop c p) hatt =>
          h parent found.2 ⟨finalized, hattempt, hatt⟩)
        (fun (h : ∀ p b, Attaches c env (.handle i) p b → Armed c b → FcuHeadSafe c p b)
          hatt harm => hsafe (h parent found.2 ⟨finalized, hattempt, hatt⟩ (harmed harm))))
      rw [hpop]
      change ∃ c', validateBlock { c with queue := q, orphans := rest } env parent
        found.2 finalized >>= _ = _ ∧ _
      rw [hrun]
      cases r with
      | error e => exact ⟨c₂, rfl, hs⟩
      | ok newParent => exact ⟨_, rfl, hs.congr rfl⟩

end Nimbus.Spec.ForkedChain
