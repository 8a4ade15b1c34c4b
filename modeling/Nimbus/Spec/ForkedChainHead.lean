import Nimbus.Spec.ForkedChainImport

/-!
# Fork choice and `setHead`

A fork choice names a head and, usually, a finalized block below it; `setHead` cuts the
tree down to the lineage of one block. Both keep the invariant, the fork choice as long as
the finalized block it names is not below one that is finalized already.
-/

namespace Nimbus.Spec.ForkedChain

open Nimbus.Native.ForkedChain
open ParentTree ForkedChainRef

variable {c : ForkedChainRef}

/-! ## `forkChoice` -/

variable {head : Nat}

theorem findHeadPos_spec (hl : Linked c) {hash : Hash32}
    (h : c.findHeadPos hash = .ok head) : InTree c head := by
  unfold findHeadPos at h
  cases hlookup : c.hashToBlock hash with
  | none =>
    rw [hlookup] at h
    cases h
  | some b =>
    rw [hlookup] at h
    cases h
    exact hl.inTree_of_lookup hlookup

theorem findFinalizedPos_spec (hi : Inv c) {hash : Hash32} {fin : Nat}
    (hhead : InTree c head) (h : c.findFinalizedPos hash head = .ok fin) :
    InTree c fin ∧ c.number fin ≤ c.number head ∧ Anc c.parent head fin := by
  have hl := hi.linked
  unfold findFinalizedPos at h
  cases hlookup : c.hashToBlock hash with
  | none =>
    rw [hlookup] at h
    cases h
  | some b =>
    have hb := hl.inTree_of_lookup hlookup
    rw [hlookup] at h
    dsimp only at h
    by_cases hgt : c.number b > c.number head
    · rw [if_pos hgt] at h
      cases h
    · rw [if_neg hgt] at h
      by_cases h1 : c.heads.length = 1
      · rw [if_pos h1] at h
        cases h
        have hlat := hi.heads.latest_mem
        refine ⟨hb, Nat.not_lt.mp hgt, ?_⟩
        exact hl.anc_of_number_le (hi.heads.inTree hlat) (hi.heads.anc_of_single hl h1 hlat hhead)
          (hi.heads.anc_of_single hl h1 hlat hb) (Nat.not_lt.mp hgt)
      · rw [if_neg h1] at h
        by_cases hany : (c.ancestors (some head)).any (c.sameBlock · b) = true
        · rw [if_pos hany] at h
          cases h
          obtain ⟨x, hx, hsame⟩ := List.any_eq_true.mp hany
          have hanc := (hl.mem_ancestors hhead).mp hx
          have heq := ((hl.inTree_anc hhead hanc).sameBlock_iff hb).mp hsame
          exact ⟨hb, Nat.not_lt.mp hgt, heq ▸ hanc⟩
        · rw [if_neg hany] at h
          cases h

/-- The tail of `forkChoice`, once head and finalized block are known. -/
theorem forkChoice_tail (hi : Inv c) {fin : Nat} (hhead : InTree c head)
    (hfin : InTree c fin) (hanc : Anc c.parent head fin) (htop : TopFinalized c fin) :
    ∃ c₁ base c₂, c.updateFinalized fin head = .ok c₁ ∧
      c₁.calculateNewBase (c₁.number fin) head = .ok base ∧
      c₁.number fin ≤ c₁.number head ∧ Sound c c₁ True (FcuHeadNear c fin) ∧
      (¬ c₁.number base ≤ c₁.number c₁.base →
        c₁.number base ≤ c₁.number fin ∧ c₁.queueUpdateBase base = .ok c₂ ∧
        Sound c c₂ True (FcuHeadNear c fin)) := by
  obtain ⟨c₁, hrun, hi₁, hat, hs₁, hg₁, _⟩ :=
    finalizeAndQueue_spec hi hfin htop hhead hanc
  have hl₁ := hi₁.linked
  have hhead₁ : InTree c₁ head := hat.inTree.mpr ⟨hhead, .inl hanc⟩
  have hfin₁ : InTree c₁ fin := hat.inTree.mpr ⟨hfin, .inl (Anc.refl _)⟩
  have hanc₁ : Anc c₁.parent head fin := (hat.anc_iff hl₁ hhead₁).mpr hanc
  have hsound : Sound c c₁ True (FcuHeadNear c fin) :=
    ⟨hi₁, hs₁, fun _ _ => hg₁, fun hnear hf => hat.fcuHead hnear hf⟩
  obtain ⟨base, hbase, hbanc, hbnum⟩ := calculateNewBase_spec hl₁ hhead₁ (c₁.number fin)
  have hmarked : Finalized c₁ fin := hat.finalized.mpr (.inr (Anc.refl _))
  have hle₁ : c₁.number fin ≤ c₁.number head := hl₁.number_le hhead₁ hanc₁
  by_cases hstay : c₁.number base ≤ c₁.number c₁.base
  · exact ⟨c₁, base, c₁, hrun, hbase, hle₁, hsound, fun h => absurd hstay h⟩
  · have hbfin : c₁.number base ≤ c₁.number fin := by
      have := newBaseNumber_le c₁ (c₁.number fin) (c₁.number head)
      omega
    have hfb := hl₁.anc_of_number_le hhead₁ hanc₁ hbanc hbfin
    have hbt := hl₁.inTree_anc hfin₁ hfb
    obtain ⟨c₂, hrun₂, hi₂, hrest⟩ :=
      queueUpdateBase_spec hi₁ hbt (hi₁.finality.anc hl₁ hfin₁ hmarked hfb)
    refine ⟨c₁, base, c₂, hrun, hbase, hle₁, hsound, fun _ => ⟨hbfin, hrun₂, hi₂, ?_, ?_, ?_⟩⟩
    · rw [hrest]
      exact ⟨hs₁.base_le, hs₁.canonical, hs₁.kept⟩
    · rw [hrest]
      exact fun _ _ => hg₁
    · rw [hrest]
      exact hsound.fcuHead

/-- `c` after the requested hashes are written down. -/
def requested (c : ForkedChainRef) (finalizedHash safeHash : Hash32) : ForkedChainRef :=
  let c := if finalizedHash ≠ zeroHash32 then { c with pendingFCU := finalizedHash } else c
  if safeHash ≠ zeroHash32 then
    match c.hashToBlock safeHash with
    | some safe => { c with fcuSafe := { hash := safeHash, number := c.number safe } }
    | none => c
  else c

theorem requested_eq (c : ForkedChainRef) (finalizedHash safeHash : Hash32) :
    ∃ p s, requested c finalizedHash safeHash = { c with pendingFCU := p, fcuSafe := s } := by
  unfold requested
  by_cases hfz : finalizedHash ≠ zeroHash32 <;> by_cases hsz : safeHash ≠ zeroHash32 <;>
    simp only [hfz, hsz, if_true, if_false, ne_eq, not_false_eq_true]
  · cases c.hashToBlock safeHash with
    | none => exact ⟨_, _, rfl⟩
    | some b => exact ⟨_, _, rfl⟩
  · exact ⟨_, _, rfl⟩
  · cases c.hashToBlock safeHash with
    | none => exact ⟨_, _, rfl⟩
    | some b => exact ⟨_, _, rfl⟩
  · exact ⟨_, _, rfl⟩

theorem forkChoice_eq {c₀ : ForkedChainRef} {headHash finalizedHash safeHash : Hash32}
    (hreq : requested c finalizedHash safeHash = c₀) :
    c.forkChoice headHash finalizedHash safeHash =
      if headHash = c₀.hash c₀.latest ∧ finalizedHash = zeroHash32 then .ok (c₀, .ok ())
      else match c₀.findHeadPos headHash with
        | .error e => .ok (c₀, .error e)
        | .ok head =>
          if finalizedHash = zeroHash32 then .ok (c₀.updateHead head, .ok ())
          else match (c₀.updateHead head).findFinalizedPos finalizedHash head with
            | .error e => .ok (c₀.updateHead head, .error e)
            | .ok finalized => do
              let c ← (c₀.updateHead head).updateFinalized finalized head
              let base ← c.calculateNewBase (c.number finalized) head
              if c.number base ≤ c.number c.base then return (c, .ok ())
              if c.number finalized > c.number head then .error .finalizedAboveHead
              else if c.number base > c.number finalized then .error .baseAboveFinalized
              else
                let c ← c.queueUpdateBase base
                return (c, .ok ()) := by
  subst hreq
  rfl

theorem updateHead_sound (hi : Inv c) (hhead : InTree c head) :
    Sound c (c.updateHead head) True True ∧ FcuHeadInTree (c.updateHead head) :=
  have hfcu : FcuHeadInTree (c.updateHead head) := ⟨head, hhead, rfl, rfl⟩
  ⟨⟨hi.congr rfl, (Settled.refl c).congr rfl, fun _ => id, fun _ _ => hfcu⟩, hfcu⟩

theorem forkChoice_spec (hi : Inv c) (headHash finalizedHash safeHash : Hash32)
    (hok : ∀ head fin, finalizedHash ≠ zeroHash32 → c.findHeadPos headHash = .ok head →
      c.findFinalizedPos finalizedHash head = .ok fin → TopFinalized c fin) :
    ∃ c' r, c.forkChoice headHash finalizedHash safeHash = .ok (c', r) ∧
      Sound c c' True True := by
  obtain ⟨p, s, hreq⟩ := requested_eq c finalizedHash safeHash
  have hs₀ : Sound c { c with pendingFCU := p, fcuSafe := s } True True :=
    (Sound.refl hi).congr rfl
  rw [forkChoice_eq hreq]
  generalize hc₀ : ({ c with pendingFCU := p, fcuSafe := s } : ForkedChainRef) = c₀ at hs₀
  by_cases hdone : headHash = c₀.hash c₀.latest ∧ finalizedHash = zeroHash32
  · rw [if_pos hdone]
    exact ⟨c₀, _, rfl, hs₀⟩
  · rw [if_neg hdone]
    cases hpos : c₀.findHeadPos headHash with
    | error e => exact ⟨c₀, _, rfl, hs₀⟩
    | ok head =>
      have hhead := findHeadPos_spec hs₀.inv.linked hpos
      obtain ⟨hs₁, hfcu₁⟩ := updateHead_sound hs₀.inv hhead
      have hs₁ := hs₀.trans hs₁
      dsimp only
      generalize hc₁ : c₀.updateHead head = c₁ at hs₁ hfcu₁
      by_cases hzero : finalizedHash = zeroHash32
      · rw [if_pos hzero]
        exact ⟨c₁, _, rfl, hs₁⟩
      · rw [if_neg hzero]
        cases hfpos : c₁.findFinalizedPos finalizedHash head with
        | error e => exact ⟨c₁, _, rfl, hs₁⟩
        | ok fin =>
          have hhead₁ : InTree c₁ head := by
            rw [← hc₁]
            exact hhead
          obtain ⟨hfin, _, hanc⟩ := findFinalizedPos_spec hs₁.inv hhead₁ hfpos
          have htop : TopFinalized c₁ fin := by
            subst hc₁
            subst hc₀
            exact hok head fin hzero hpos hfpos
          -- the block of `fcuHead` is `head`, which leads to `fin`
          have hnear : FcuHeadNear c₁ fin := by
            intro f hf hhash
            have hfh : f = head := by
              refine hf.hash_inj hhead₁ (hhash.trans ?_)
              subst hc₁
              rfl
            exact .inl (hfh ▸ hanc)
          obtain ⟨c₂, base, c₃, hrun, hbase, hle, hs₂, hrest⟩ :=
            forkChoice_tail hs₁.inv hhead₁ hfin hanc htop
          have hs₂ := hs₁.trans (hs₂.imp id fun _ => hnear)
          change ∃ c' r, c₁.updateFinalized fin head >>= _ = _ ∧ _
          rw [hrun]
          change ∃ c' r, c₂.calculateNewBase (c₂.number fin) head >>= _ = _ ∧ _
          rw [hbase]
          change ∃ c' r, (if c₂.number base ≤ c₂.number c₂.base then _ else _) = _ ∧ _
          by_cases hstay : c₂.number base ≤ c₂.number c₂.base
          · rw [if_pos hstay]
            exact ⟨c₂, _, rfl, hs₂⟩
          · obtain ⟨hbfin, hrun₃, hs₃⟩ := hrest hstay
            rw [if_neg hstay]
            refine ⟨c₃, .ok (), ?_, hs₁.trans (hs₃.imp id fun _ => hnear)⟩
            rw [if_neg (Nat.not_lt.mpr hle), if_neg (Nat.not_lt.mpr hbfin), hrun₃]
            rfl

/-! ## `setHead` -/

section SetHead

variable {head : Nat} {keep : List Hash32}

/-- `keep` holds the hashes of the lineage of `head`. -/
def Keeps (c : ForkedChainRef) (head : Nat) (keep : List Hash32) : Prop :=
  ∀ x, InTree c x → (c.hash x ∈ keep ↔ Anc c.parent head x)

theorem keeps_ancestors (hl : Linked c) (hhead : InTree c head) :
    Keeps c head ((c.ancestors (some head)).map c.hash) := by
  intro x hx
  rw [List.mem_map]
  constructor
  · rintro ⟨y, hy, hyx⟩
    have hanc := (hl.mem_ancestors hhead).mp hy
    exact (hl.inTree_anc hhead hanc).hash_inj hx hyx ▸ hanc
  · exact fun h => ⟨x, (hl.mem_ancestors hhead).mpr h, rfl⟩

/-- Down from `it`, the walk that stops at the lineage of `head` meets every block above
that lineage. -/
theorem mem_takeWhile_keep (hl : Linked c) (hkeep : Keeps c head keep) {fuel it x : Nat}
    (hit : InTree c it) (hx : x ∈ chain c.parent fuel (some it)) (hno : ¬ Anc c.parent head x) :
    x ∈ (chain c.parent fuel (some it)).takeWhile fun y => c.hash y ∉ keep := by
  induction fuel generalizing it with
  | zero => simp [chain] at hx
  | succ fuel ih =>
    have hanc : Anc c.parent it x := anc_of_mem_chain hx
    have hout : decide (c.hash it ∉ keep) = true := by
      rw [decide_eq_true_iff, hkeep it hit]
      exact fun h => hno (h.trans hanc)
    simp only [chain, List.mem_cons] at hx ⊢
    rw [List.takeWhile_cons, if_pos hout, List.mem_cons]
    rcases hx with rfl | hx
    · exact .inl rfl
    · cases hp : c.parent it with
      | none =>
        rw [hp] at hx
        simp at hx
      | some p =>
        rw [hp] at hx
        exact .inr (ih (hl.inTree_parent hit hp) hx)

/-- Nothing finalized is discarded: the lineage of `head` has all of it. -/
theorem onTop_of_discardedFinalized (hi : Inv c) (hkeep : Keeps c head keep)
    (h : c.discardedFinalized keep = none) : OnTop c head := by
  intro x hx hfin
  by_contra hno
  obtain ⟨b, hb, hbx⟩ := hi.heads.exists_above hi.linked hx
  have hnone := List.findSome?_eq_none_iff.mp h b hb
  have hmem : x ∈ c.ancestors (some b) :=
    (hi.linked.mem_ancestors (hi.heads.inTree hb)).mpr hbx
  have htake := mem_takeWhile_keep hi.linked hkeep (hi.heads.inTree hb) hmem hno
  have hnot := List.find?_eq_none.mp hnone x htake
  rw [notFinalized_eq_false_iff.mpr hfin] at hnot
  exact hnot rfl

/-- `R` is a set of blocks that `setHead` may have discarded after whole branches. -/
structure Discarded (c : ForkedChainRef) (head : Nat) (R : List Nat) : Prop where
  off : ∀ x ∈ R, InTree c x ∧ ¬ Anc c.parent head x
  closed : ∀ x p, x ∈ R → c.parent x = some p → ¬ Anc c.parent head p → p ∈ R

variable {R : List Nat}

theorem discardBranch_spec (hl : Linked c) (hhead : InTree c head) (hkeep : Keeps c head keep)
    {H : List Nat} {fuel it : Nat} (hit : InTree c it) (hfuel : it < fuel)
    (hoff : ∀ x ∈ R, InTree c x ∧ ¬ Anc c.parent head x)
    (hclosed : ∀ x p, x ∈ R → c.parent x = some p → ¬ Anc c.parent head p → p ∈ R ∨ p = it) :
    ∃ R', discardBranch keep fuel (pruned c R H) (some it)
        = .ok (pruned c R' H) ∧
      Discarded c head R' ∧ R ⊆ R' ∧ (¬ Anc c.parent head it → it ∈ R') := by
  induction fuel generalizing it R with
  | zero => omega
  | succ fuel ih =>
    simp only [discardBranch, pruned_hash, pruned_txFrame]
    by_cases hstop : c.hash it ∈ keep ∨ it ∈ R
    · have hstop' : c.hash it ∈ keep ∨ (if it ∈ R then none else c.txFrame it) = none :=
        hstop.imp_right fun h => if_pos h
      rw [if_pos hstop']
      refine ⟨R, rfl, ⟨hoff, fun x p hx hp hnp => ?_⟩, List.Subset.refl _, fun hno => ?_⟩
      · rcases hclosed x p hx hp hnp with h | rfl
        · exact h
        · exact hstop.resolve_left fun h => hnp ((hkeep _ hit).mp h)
      · exact hstop.resolve_left fun h => hno ((hkeep _ hit).mp h)
    · have hkeepit : c.hash it ∉ keep := fun h => hstop (.inl h)
      have hitR : it ∉ R := fun h => hstop (.inr h)
      have hno : ¬ Anc c.parent head it := fun h => hkeepit ((hkeep it hit).mpr h)
      obtain ⟨f, hf, _⟩ := hl.live hit
      have hgo : ¬ (c.hash it ∈ keep ∨ (if it ∈ R then none else c.txFrame it) = none) := by
        rw [if_neg hitR, hf]
        exact fun h => h.elim hkeepit nofun
      -- the base is on every lineage, so `it` has a parent
      have hne : it ≠ c.base := by
        rintro rfl
        exact hno (hl.anc_base hhead)
      obtain ⟨p, hp, hpt, _⟩ := hl.link hit hne
      have hlt := hl.parent_lt it p hp
      obtain ⟨R', hrun, hdis, hsub, _⟩ := ih (R := it :: R) hpt (by omega)
        (by
          intro x hx
          rcases List.mem_cons.mp hx with rfl | hx
          · exact ⟨hit, hno⟩
          · exact hoff x hx)
        (by
          intro x q hx hq hnq
          rcases List.mem_cons.mp hx with rfl | hx
          · rw [hp] at hq
            cases hq
            exact .inr rfl
          · rcases hclosed x q hx hq hnq with h | rfl
            · exact .inl (.tail _ h)
            · exact .inl List.mem_cons_self)
      refine ⟨R', ?_, hdis, fun x hx => hsub (.tail _ hx),
        fun _ => hsub List.mem_cons_self⟩
      rw [if_neg hgo, removeBlockFromCache_pruned hl.key hit hf hitR, pruned_parent,
        if_neg hitR, hp]
      exact hrun

theorem discardBranches_spec (hl : Linked c) (hhead : InTree c head)
    (hkeep : Keeps c head keep) {H hs : List Nat}
    (hhs : ∀ h ∈ hs, InTree c h) (hR : Discarded c head R) :
    ∃ R', discardBranches keep (pruned c R H) hs = .ok (pruned c R' H) ∧
      Discarded c head R' ∧ R ⊆ R' ∧ ∀ h ∈ hs, ¬ Anc c.parent head h → h ∈ R' := by
  induction hs generalizing R with
  | nil => exact ⟨R, rfl, hR, List.Subset.refl _, by simp⟩
  | cons b hs ih =>
    have hb := hhs b List.mem_cons_self
    obtain ⟨R₁, hrun₁, hR₁, hsub₁, hin₁⟩ := discardBranch_spec (H := H) hl hhead hkeep hb
      (hl.lt_next hb) hR.off fun x p hx hp hnp => .inl (hR.closed x p hx hp hnp)
    obtain ⟨R₂, hrun₂, hR₂, hsub₂, hin₂⟩ :=
      ih (fun h hh => hhs h (.tail _ hh)) hR₁
    refine ⟨R₂, ?_, hR₂, fun x hx => hsub₂ (hsub₁ hx), fun h hh hno => ?_⟩
    · change discardBranch keep c.nextBlock (pruned c R H) (some b) >>= _ = _
      rw [hrun₁]
      exact hrun₂
    · rcases List.mem_cons.mp hh with rfl | hh
      · exact hsub₂ (hin₁ hno)
      · exact hin₂ h hh hno

/-- In the end everything off the lineage of `head` is gone. -/
theorem Discarded.mem_iff (hR : Discarded c head R) (hi : Inv c)
    (hall : ∀ h ∈ c.heads, ¬ Anc c.parent head h → h ∈ R) {x : Nat} (hx : InTree c x) :
    x ∈ R ↔ ¬ Anc c.parent head x := by
  refine ⟨fun h => (hR.off x h).2, fun hno => ?_⟩
  obtain ⟨b, hb, hbx⟩ := hi.heads.exists_above hi.linked hx
  have hbR := hall b hb fun h => hno (h.trans hbx)
  have hstep := hbx.of_step (P := fun y => InTree c y ∧ (¬ Anc c.parent head y → y ∈ R))
    (fun i p hip hp => ⟨hi.linked.inTree_parent hip.1 hp, fun hnp =>
      hR.closed i p (hip.2 fun h => hnp (h.tail hp)) hp hnp⟩)
    ⟨hi.heads.inTree hb, fun _ => hbR⟩
  exact hstep.2 hno

/-- The tree that `setHead` leaves. -/
theorem cut_sound (hi : Inv c) (hhead : InTree c head) (hon : OnTop c head)
    (hRt : ∀ x ∈ R, InTree c x) (hmem : ∀ {x}, InTree c x → (x ∈ R ↔ ¬ Anc c.parent head x)) :
    Inv { pruned c R [head] with latest := head } ∧
      Settled c { pruned c R [head] with latest := head } ∧
      Guarded { pruned c R [head] with latest := head } ∧
      InTree { pruned c R [head] with latest := head } head := by
  have hl := hi.linked
  have hheadR : head ∉ R := fun h => (hmem hhead).mp h (Anc.refl _)
  have hup : ∀ b p, InTree c b → c.parent b = some p → p ∈ R → b ∈ R := fun b p hb hp hpR =>
    (hmem hb).mpr fun h => (hmem (hl.inTree_parent hb hp)).mp hpR (h.tail hp)
  have hbase : c.base ∉ R := fun h => (hmem hl.base_mem).mp h (hl.anc_base hhead)
  have hfinR : ∀ {x}, InTree c x → Finalized c x → x ∉ R := fun hx hfin h =>
    (hmem hx).mp h (hon _ hx hfin)
  have hlp : Linked (pruned c R [head]) := hl.pruned hRt hbase hup
  have hheads : ∀ {b}, b ∈ [head] ↔ InTree (pruned c R [head]) b ∧
      ∀ d, InTree (pruned c R [head]) d → (pruned c R [head]).parent d ≠ some b := by
    intro b
    rw [List.mem_singleton, inTree_pruned_iff]
    constructor
    · rintro rfl
      refine ⟨⟨hhead, hheadR⟩, fun d hd hdb => ?_⟩
      obtain ⟨hd, hdR⟩ := inTree_pruned_iff.mp hd
      rw [pruned_parent, if_neg hdR] at hdb
      refine hdR ((hmem hd).mpr fun h => ?_)
      have h1 := h.le hl.parent_lt
      have h2 := hl.parent_lt d b hdb
      omega
    · rintro ⟨⟨hb, hbR⟩, hchild⟩
      by_contra hne
      have hanc : Anc c.parent head b := by
        by_contra hno
        exact hbR ((hmem hb).mpr hno)
      obtain ⟨d, hd, hdb⟩ := hanc.cases_child fun h => hne h.symm
      have hdt := hl.inTree_anc hhead hd
      have hdR : d ∉ R := fun h => (hmem hdt).mp h hd
      refine hchild d (inTree_pruned_iff.mpr ⟨hdt, hdR⟩) ?_
      rw [pruned_parent, if_neg hdR, hdb]
  have hinv : Inv { pruned c R [head] with latest := head } := {
    linked := hlp.congr rfl
    finality := hi.finality.pruned.congr rfl
    heads := ⟨hheads, List.nodup_singleton head, List.mem_singleton_self head⟩
    queued := fun b hb => by
      obtain ⟨hbt, hbfin⟩ := hi.queued b hb
      exact ⟨inTree_pruned_iff (H := [head]).mpr ⟨hbt, hfinR hbt hbfin⟩, finalized_pruned_iff (H := [head]).mpr hbfin⟩
    sorted := by
      refine hi.sorted.imp_of_mem fun {a b} ha hb hle => ?_
      change (pruned c R [head]).number a ≤ (pruned c R [head]).number b
      rw [pruned_number_of_not_mem (hfinR (hi.queued a ha).1 (hi.queued a ha).2),
        pruned_number_of_not_mem (hfinR (hi.queued b hb).1 (hi.queued b hb).2)]
      exact hle
    orphan := hi.orphan
    saved := by
      change c.canonical ((pruned c R [head]).number c.base)
        = some ((pruned c R [head]).hash c.base)
      rw [pruned_number_of_not_mem hbase, pruned_hash, hi.saved] }
  have hguard : Guarded { pruned c R [head] with latest := head } := by
    intro h hh x hx hxfin
    have heq : h = head := List.mem_singleton.mp hh
    have hx' : InTree c x ∧ x ∉ R := inTree_pruned_iff (H := [head]).mp hx
    have hfin' : Finalized c x := finalized_pruned_iff (H := [head]).mp hxfin
    subst heq
    exact (anc_pruned_iff (H := [h]) hl hup hhead hheadR).mpr (hon x hx'.1 hfin')
  refine ⟨hinv, ⟨?_, fun _ _ => rfl, fun x hx hfin => .inl ?_⟩, hguard,
    inTree_pruned_iff (H := [head]).mpr ⟨hhead, hheadR⟩⟩
  · change c.number c.base ≤ (pruned c R [head]).number c.base
    exact Nat.le_of_eq (by rw [pruned_number_of_not_mem hbase])
  · have hxR := hfinR hx hfin
    exact ⟨inTree_pruned_iff (H := [head]).mpr ⟨hx, hxR⟩,
      finalized_pruned_iff (H := [head]).mpr hfin, pruned_hash (H := [head]) x,
      pruned_number_of_not_mem (H := [head]) hxR⟩

end SetHead

theorem setHead_spec (hi : Inv c) (headHash : Hash32) :
    ∃ c' r, c.setHead headHash = .ok (c', r) ∧ Sound c c' True True := by
  have hl := hi.linked
  unfold setHead
  cases hpos : c.findHeadPos headHash with
  | error e => exact ⟨c, _, rfl, Sound.refl hi⟩
  | ok head =>
    have hhead := findHeadPos_spec hl hpos
    have hkeep := keeps_ancestors hl hhead
    dsimp only
    generalize (c.ancestors (some head)).map c.hash = keep at hkeep
    cases hdis : c.discardedFinalized keep with
    | some it => exact ⟨c, _, rfl, Sound.refl hi⟩
    | none =>
      have hon := onTop_of_discardedFinalized hi hkeep hdis
      obtain ⟨R, hrun, hR, _, hall⟩ := discardBranches_spec (R := []) (H := c.heads) hl hhead hkeep
        (fun h hh => hi.heads.inTree hh) ⟨by simp, by simp⟩
      rw [pruned_nil] at hrun
      obtain ⟨hinv, hsettled, hguard, hmem⟩ :=
        cut_sound hi hhead hon (fun x hx => (hR.off x hx).1) (hR.mem_iff hi hall)
      obtain ⟨hs₁, hfcu⟩ := updateHead_sound hinv hmem
      have hs : Sound c (updateHead { pruned c R [head] with latest := head } head)
          True True :=
        ⟨hs₁.inv, hsettled.trans hs₁.settled, fun _ _ => hs₁.guarded trivial hguard,
          fun _ _ => hfcu⟩
      rw [hrun]
      change ∃ c' r, (pure (if c.fcuSafe.number > (pruned c R [head]).number head then _ else
        updateHead { pruned c R [head] with latest := head } head, _) :
          Except Defect _) = _ ∧ _
      by_cases hsafe : c.fcuSafe.number > (pruned c R [head]).number head
      · rw [if_pos hsafe]
        exact ⟨_, _, rfl, hs.congr rfl⟩
      · rw [if_neg hsafe]
        exact ⟨_, _, rfl, hs⟩

end Nimbus.Spec.ForkedChain
