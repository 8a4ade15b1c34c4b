import Nimbus.Spec.BeaconViews

/-!
# The books on block and header numbers

While a header session collects, every number from the bottom of the session up to the
lowest header on the cache is in one place: among the unprocessed ones, among the borrowed
ones, on the staged queue, or in the hands of the peer that runs at the moment. The borrowed
numbers are in turn allotted to the fetches that wait for an answer. `HdrBooks` says this,
and each of the six ways in which numbers move keeps it.

While a block session runs, every number above the last imported one up to the head is in
one place: among the unprocessed ones, among the borrowed ones, on the staged queue, with the
peer that imports it, or in the hands of the peer that runs at the moment. A fetch for
blocks that are to be imported right away is about the next one to import (`direct`), so that
nothing can be imported while it waits for its answer.
-/

namespace Nimbus.Spec.Beacon

open Nimbus.Native.Beacon
open Nimbus.Native.HeaderChainCache
open RangeBooks (Balanced Lent)

/-- The numbers of a list of headers, which starts with the largest one. -/
def HdrSpan (item : HeaderChain) (n : Nat) : Prop :=
  (item.revHdrs.getLastD {}).number ≤ n ∧ n ≤ (item.revHdrs.headD {}).number

/-- No list of headers is worked on across an `await`. -/
def noHold (_ : PeerId) (_ : Nat) : Prop := False

structure HdrBooks (v : HdrView) (bottom : Nat) (hand : Option PtRange) : Prop where
  bottom_pos : 1 ≤ bottom
  ante_lt : v.ante < 2 ^ 64
  places : v.toRangeBooks.Balanced HdrSpan {n | bottom ≤ n ∧ n < v.ante} noHold hand
  running : ¬ v.Stopped → Lent v.borrowed v.fetch
  staged : ∀ key item, v.staged.lookup key = some item →
    ∃ lo, ForRange item.revHdrs lo key

namespace HdrBooks

variable {v : HdrView} {bottom : Nat} {hand : Option PtRange} {iv : PtRange} {n : Nat}
  {item : HeaderChain}

theorem start (hpos : 1 ≤ bottom) (hlt : v.ante < 2 ^ 64)
    (hu : ∀ n, n ∈ v.unprocessed ↔ bottom ≤ n ∧ n < v.ante) (hb : ∀ n, n ∉ v.borrowed)
    (hs : ∀ key, v.staged.lookup key = none) (hf : ∀ p, v.fetch p = none) :
    HdrBooks v bottom none where
  bottom_pos := hpos
  ante_lt := hlt
  places := by
    apply Balanced.start hu hb hs
    exact fun _ _ => id
  running _ := Lent.start hb hf
  staged key item hlook := by
    rw [hs key] at hlook
    cases hlook

theorem of_unprocessed (h : HdrBooks v bottom hand) (hn : n ∈ v.unprocessed) :
    bottom ≤ n ∧ n < v.ante := h.places.mem (RangeBooks.owns_unprocessed.mpr hn)

theorem of_borrowed (h : HdrBooks v bottom hand) (hn : n ∈ v.borrowed) :
    bottom ≤ n ∧ n < v.ante := h.places.mem (RangeBooks.owns_borrowed.mpr hn)

theorem of_staged (h : HdrBooks v bottom hand) {key : Nat}
    (hlook : v.staged.lookup key = some item) (hn : HdrSpan item n) :
    bottom ≤ n ∧ n < v.ante := h.places.mem (RangeBooks.owns_staged.mpr ⟨item, hlook, hn⟩)

theorem of_hand (h : HdrBooks v bottom (some iv)) (hn : n ∈ iv) :
    bottom ≤ n ∧ n < v.ante := h.places.mem (RangeBooks.owns_hand.mpr hn)

theorem roomy (h : HdrBooks v bottom hand) : Roomy v.unprocessed := by
  intro n hn
  have hrange := h.of_unprocessed hn
  have hpos := h.bottom_pos
  have hlt := h.ante_lt
  omega

theorem disjoint (h : HdrBooks v bottom hand) (hn : n ∈ v.unprocessed) : n ∉ v.borrowed :=
  Balanced.disjoint h.places hn

theorem hand_disjoint (h : HdrBooks v bottom (some iv)) (hn : n ∈ iv) :
    n ∉ v.unprocessed ∧ n ∉ v.borrowed := Balanced.hand_disjoint h.places hn

theorem hand_range (h : HdrBooks v bottom (some iv)) :
    1 ≤ iv.minPt ∧ bottom ≤ iv.minPt ∧ iv.maxPt < v.ante := by
  have hpos := h.bottom_pos
  have hmin := h.of_hand iv.minPt_mem
  have hmax := h.of_hand iv.maxPt_mem
  omega

theorem fetch_borrowed (h : HdrBooks v bottom hand) {p : PeerId} (hp : v.fetch p = some iv)
    (hrun : ¬ v.Stopped) (hn : n ∈ iv) : n ∈ v.borrowed := Lent.mem (h.running hrun) hp hn

theorem forRange_span (hr : ForRange item.revHdrs iv.minPt iv.maxPt) (n : Nat) :
    HdrSpan item n ↔ n ∈ iv := by
  unfold HdrSpan
  rw [hr.first, hr.last]
  exact Iff.rfl

theorem lend (h : HdrBooks v bottom none) (p : PeerId) (hsub : ∀ n ∈ iv, n ∈ v.unprocessed)
    (hp : v.fetch p = none) :
    HdrBooks { v with
      unprocessed := v.unprocessed.reduce iv
      borrowed := v.borrowed.merge iv
      fetch := Function.update v.fetch p (some iv) } bottom none where
  bottom_pos := h.bottom_pos
  ante_lt := h.ante_lt
  places := Balanced.lend h.places hsub
  running hrun := Lent.lend (h.running hrun) hp fun n hn => h.disjoint (hsub n hn)
  staged := h.staged

/-- The fetch of `p` is over, and what it borrowed is in its hands. -/
theorem take (h : HdrBooks v bottom none) {p : PeerId} (hp : v.fetch p = some iv)
    (hrun : ¬ v.Stopped) :
    HdrBooks { v with
      borrowed := v.borrowed.reduce iv
      fetch := Function.update v.fetch p none } bottom (some iv) where
  bottom_pos := h.bottom_pos
  ante_lt := h.ante_lt
  places := Balanced.take h.places fun _ hn => h.fetch_borrowed hp hrun hn
  running _ := Lent.take (h.running hrun) hp
  staged := h.staged

section

variable (h : HdrBooks v bottom (some iv))
include h

/-- What the peer cannot use goes back to the unprocessed numbers. -/
theorem give {unprocessed : IntervalSet} (rest : Option PtRange)
    (hrest : ∀ n rv, rest = some rv → n ∈ rv → n ∈ iv)
    (hmem : ∀ n, n ∈ unprocessed ↔ (n ∈ iv ∧ ∀ rv, rest = some rv → n ∉ rv) ∨ n ∈ v.unprocessed) :
    HdrBooks { v with unprocessed := unprocessed } bottom rest where
  bottom_pos := h.bottom_pos
  ante_lt := h.ante_lt
  places := Balanced.give h.places rest hrest hmem
  running := h.running
  staged := h.staged

theorem giveAll : HdrBooks { v with unprocessed := v.unprocessed.merge iv } bottom none where
  bottom_pos := h.bottom_pos
  ante_lt := h.ante_lt
  places := Balanced.giveAll h.places
  running := h.running
  staged := h.staged

theorem stage (hitem : ForRange item.revHdrs iv.minPt iv.maxPt) :
    v.staged.lookup iv.maxPt = none ∧
    HdrBooks { v with staged := v.staged.insert iv.maxPt item } bottom none := by
  have hnone : v.staged.lookup iv.maxPt = none := by
    -- a list under that key would hold the same number
    by_contra hne
    obtain ⟨item', hlook⟩ := Option.ne_none_iff_exists'.mp hne
    obtain ⟨lo, hr⟩ := h.staged iv.maxPt item' hlook
    have hlen := List.length_pos_iff.mpr hr.ne_nil
    have hlo := hr.len
    have hspan : HdrSpan item' iv.maxPt := by
      unfold HdrSpan
      rw [hr.last, hr.first]
      omega
    have heq := h.places.unique (RangeBooks.owns_staged.mpr ⟨item', hlook, hspan⟩)
      (RangeBooks.owns_hand.mpr iv.maxPt_mem)
    cases heq
  refine ⟨hnone, h.bottom_pos, h.ante_lt, ?_, h.running, ?_⟩
  · exact Balanced.stage h.places hnone (forRange_span hitem)
  · intro key item' hlook
    rw [Table.lookup_insert'] at hlook
    split at hlook
    · next heq =>
      cases hlook
      exact ⟨iv.minPt, heq ▸ hitem⟩
    · exact h.staged key item' hlook

end

theorem unstage (h : HdrBooks v bottom none) (iv : PtRange)
    (hlook : v.staged.lookup iv.maxPt = some item) (hr : ForRange item.revHdrs iv.minPt iv.maxPt) :
    HdrBooks { v with staged := v.staged.erase iv.maxPt } bottom (some iv) where
  bottom_pos := h.bottom_pos
  ante_lt := h.ante_lt
  places := Balanced.unstage h.places hlook (forRange_span hr)
  running := h.running
  staged key item' hk := by
    rw [Table.lookup_erase'] at hk
    split at hk
    · cases hk
    · exact h.staged key item' hk

/-- What is put on the cache is the upper end of the region, which leaves it. -/
theorem stash (h : HdrBooks v bottom (some iv)) {ante : Nat} (htop : iv.maxPt + 1 = v.ante)
    (hante : ante = iv.minPt) : HdrBooks { v with ante := ante } bottom none where
  bottom_pos := h.bottom_pos
  ante_lt := by
    have hlt := h.ante_lt
    have hmin := iv.min_le
    show ante < 2 ^ 64
    omega
  places := by
    apply Balanced.dropAll h.places
    intro n
    have hmin := iv.min_le
    show bottom ≤ n ∧ n < ante ↔ (bottom ≤ n ∧ n < v.ante) ∧ ¬ (iv.minPt ≤ n ∧ n ≤ iv.maxPt)
    omega
  running := h.running
  staged := h.staged

/-- A session that has stopped does not ask whose the borrowed numbers are. -/
theorem forget (h : HdrBooks v bottom hand) (hs : v.Stopped) (fetch : PeerId → Option PtRange) :
    HdrBooks { v with fetch := fetch } bottom hand where
  bottom_pos := h.bottom_pos
  ante_lt := h.ante_lt
  places := h.places
  running hrun := absurd hs hrun
  staged := h.staged

end HdrBooks

end Nimbus.Spec.Beacon

/-! ## Block numbers -/

namespace Nimbus.Spec.Beacon

open Nimbus.Native.Beacon
open Nimbus.Native.HeaderChainCache
open RangeBooks (Balanced Lent)
open Function

/-- The blocks from `blocks[n]` on are numbered, where `bn` is the number of `blocks[0]`. -/
def Numbered (blocks : List EthBlock) (n bn : Nat) : Prop :=
  ∀ i blk, n ≤ i → blocks[i]? = some blk → blk.header.number = bn + i

theorem Numbered.head {blocks : List EthBlock} {bn : Nat} (h : Numbered blocks 0 bn)
    (hne : blocks ≠ []) : (blocks.headD {}).header.number = bn := by
  obtain ⟨blk, rest, rfl⟩ := List.exists_cons_of_ne_nil hne
  exact h 0 blk (le_refl 0) rfl

/-- The numbers of a list of blocks, which starts with the least one. -/
def BlkSpan (item : BlocksForImport) (n : Nat) : Prop :=
  (item.blocks.headD {}).header.number ≤ n ∧
    n < (item.blocks.headD {}).header.number + item.blocks.length

/-- The range of a fetch for bodies or for access lists that waits for its answer. -/
def blkRange : Job → Option PtRange
  | .bodies job => some job.iv
  | .bals job => some job.iv
  | _ => none

/-- The range of a fetch for blocks to be imported right away. -/
def directRange : Job → Option PtRange
  | .bodies job => if job.direct then some job.iv else none
  | .bals job => if job.direct then some job.iv else none
  | _ => none

/-- The peer awaits the import of a block. -/
def Importing (v : BlkView) (p : PeerId) : Prop := ∃ job, v.job p = .importing job

/-- What the peer `p` is importing, or will import. -/
def ImportOwns (v : BlkView) (p : PeerId) (n : Nat) : Prop :=
  ∃ job, v.job p = .importing job ∧ v.topNum < n ∧ n < job.minPt + job.item.blocks.length

/-- What is left to import of a list. -/
def importRest (job : ImportJob) : Option PtRange :=
  if h : job.n < job.item.blocks.length then
    some ⟨job.minPt + job.n, job.minPt + job.item.blocks.length - 1, by omega⟩
  else none

variable {job : ImportJob}

theorem importRest_of_lt (h : job.n < job.item.blocks.length) :
    ∃ iv, importRest job = some iv ∧ iv.minPt = job.minPt + job.n ∧
      iv.maxPt + 1 = job.minPt + job.item.blocks.length := by
  unfold importRest
  rw [dif_pos h]
  refine ⟨_, rfl, rfl, ?_⟩
  dsimp only
  omega

theorem importRest_of_ge (h : job.item.blocks.length ≤ job.n) :
    importRest job = none := dif_neg (not_lt.mpr h)

structure BlkBooks (v : BlkView) (hand : Option PtRange) : Prop where
  top_le : v.topNum ≤ v.headNum
  head_lt : v.headNum + 1 < 2 ^ 64
  places : v.toRangeBooks.Balanced BlkSpan {n | v.topNum < n ∧ n ≤ v.headNum} (ImportOwns v) hand
  running : Lent v.borrowed fun p => blkRange (v.job p)
  staged : ∀ key item, v.staged.lookup key = some item →
    item.blocks ≠ [] ∧ Numbered item.blocks 0 key
  direct : ∀ p iv, directRange (v.job p) = some iv → iv.minPt = v.topNum + 1

namespace BlkBooks

variable {v : BlkView} {hand : Option PtRange} {iv : PtRange} {n : Nat} {p : PeerId}
  {item : BlocksForImport}

theorem of_unprocessed (h : BlkBooks v hand) (hn : n ∈ v.unprocessed) :
    v.topNum < n ∧ n ≤ v.headNum := h.places.mem (RangeBooks.owns_unprocessed.mpr hn)

theorem of_borrowed (h : BlkBooks v hand) (hn : n ∈ v.borrowed) :
    v.topNum < n ∧ n ≤ v.headNum := h.places.mem (RangeBooks.owns_borrowed.mpr hn)

theorem of_staged (h : BlkBooks v hand) {key : Nat}
    (hlook : v.staged.lookup key = some item) (hn : BlkSpan item n) :
    v.topNum < n ∧ n ≤ v.headNum :=
  h.places.mem (RangeBooks.owns_staged.mpr ⟨item, hlook, hn⟩)

theorem of_hand (h : BlkBooks v (some iv)) (hn : n ∈ iv) : v.topNum < n ∧ n ≤ v.headNum :=
  h.places.mem (RangeBooks.owns_hand.mpr hn)

theorem roomy (h : BlkBooks v hand) : Roomy v.unprocessed := by
  intro n hn
  have hrange := h.of_unprocessed hn
  have hlt := h.head_lt
  omega

theorem disjoint (h : BlkBooks v hand) (hn : n ∈ v.unprocessed) : n ∉ v.borrowed :=
  Balanced.disjoint h.places hn

theorem hand_disjoint (h : BlkBooks v (some iv)) (hn : n ∈ iv) :
    n ∉ v.unprocessed ∧ n ∉ v.borrowed := Balanced.hand_disjoint h.places hn

theorem fetch_borrowed (h : BlkBooks v hand) (hp : blkRange (v.job p) = some iv) (hn : n ∈ iv) :
    n ∈ v.borrowed := Lent.mem h.running hp hn

theorem fetch_update (job : PeerId → Job) (p : PeerId) (new : Job) :
    (fun q => blkRange (update job p new q)) =
      update (fun q => blkRange (job q)) p (blkRange new) :=
  comp_update blkRange job p new

/-- A job that fetches no more and no less leaves the fetches as they were. -/
theorem fetch_update_same {job : PeerId → Job} {p : PeerId} {new : Job}
    (h : blkRange new = blkRange (job p)) :
    (fun q => blkRange (update job p new q)) = fun q => blkRange (job q) := by
  rw [fetch_update, h]
  exact update_eq_self p fun q => blkRange (job q)

theorem importOwns_update {job : Job} (hp : ¬ Importing v p) (hjob : ∀ j, job ≠ .importing j) :
    ImportOwns { v with job := update v.job p job } = ImportOwns v := by
  funext q n
  unfold ImportOwns
  by_cases hq : q = p
  · subst hq
    apply propext
    constructor
    · rintro ⟨j, hj, -⟩
      dsimp only at hj
      rw [update_self] at hj
      exact absurd hj (hjob j)
    · rintro ⟨j, hj, -⟩
      exact absurd ⟨j, hj⟩ hp
  · dsimp only
    rw [update_of_ne hq]

theorem lend (h : BlkBooks v none) (hp : v.job p = .idle) {job : Job}
    (hsub : ∀ n ∈ iv, n ∈ v.unprocessed) (hjob : blkRange job = some iv)
    (hdirect : ∀ iv', directRange job = some iv' → iv'.minPt = v.topNum + 1) :
    BlkBooks { v with
      unprocessed := v.unprocessed.reduce iv
      borrowed := v.borrowed.merge iv
      job := update v.job p job } none where
  top_le := h.top_le
  head_lt := h.head_lt
  places := by
    have hnot : ∀ j, job ≠ .importing j := by
      intro j hj
      rw [hj] at hjob
      cases hjob
    have hidle : ¬ Importing v p := by
      rintro ⟨j, hj⟩
      rw [hp] at hj
      cases hj
    have hown := importOwns_update (v := { v with
      unprocessed := v.unprocessed.reduce iv
      borrowed := v.borrowed.merge iv }) hidle hnot
    rw [hown]
    exact Balanced.lend h.places hsub
  running := by
    rw [fetch_update, hjob]
    apply Lent.lend h.running
    · rw [hp]
      rfl
    · exact fun n hn => h.disjoint (hsub n hn)
  staged := h.staged
  direct := (forall_update_iff v.job fun _ j =>
    ∀ iv', directRange j = some iv' → iv'.minPt = v.topNum + 1).mpr
      ⟨hdirect, fun q _ => h.direct q⟩

/-- The fetch of `p` is over, and what it borrowed is in its hands. -/
theorem take (h : BlkBooks v none) (hp : blkRange (v.job p) = some iv) :
    BlkBooks { v with
      borrowed := v.borrowed.reduce iv
      job := update v.job p .idle } (some iv) where
  top_le := h.top_le
  head_lt := h.head_lt
  places := by
    have hnot : ¬ Importing { v with borrowed := v.borrowed.reduce iv } p := by
      rintro ⟨j, hj⟩
      rw [show v.job p = _ from hj] at hp
      cases hp
    have hidle : ∀ j, Job.idle ≠ .importing j := by simp
    rw [importOwns_update hnot hidle]
    exact Balanced.take h.places fun n hn => h.fetch_borrowed hp hn
  running := by
    rw [fetch_update]
    exact Lent.take h.running hp
  staged := h.staged
  direct := (forall_update_iff v.job fun _ j =>
    ∀ iv', directRange j = some iv' → iv'.minPt = v.topNum + 1).mpr
      ⟨fun _ hj => (nomatch hj), fun q _ => h.direct q⟩

/-- What the peer cannot use goes back to the unprocessed numbers. -/
theorem give (h : BlkBooks v (some iv)) {unprocessed : IntervalSet} (rest : Option PtRange)
    (hrest : ∀ n rv, rest = some rv → n ∈ rv → n ∈ iv)
    (hmem : ∀ n, n ∈ unprocessed ↔ (n ∈ iv ∧ ∀ rv, rest = some rv → n ∉ rv) ∨ n ∈ v.unprocessed) :
    BlkBooks { v with unprocessed := unprocessed } rest where
  top_le := h.top_le
  head_lt := h.head_lt
  places := Balanced.give h.places rest hrest hmem
  running := h.running
  staged := h.staged
  direct := h.direct

theorem giveAll (h : BlkBooks v (some iv)) :
    BlkBooks { v with unprocessed := v.unprocessed.merge iv } none where
  top_le := h.top_le
  head_lt := h.head_lt
  places := Balanced.giveAll h.places
  running := h.running
  staged := h.staged
  direct := h.direct

theorem span_of_numbered (hne : item.blocks ≠ [])
    (hnum : Numbered item.blocks 0 iv.minPt) (hlen : iv.minPt + item.blocks.length = iv.maxPt + 1)
    (n : Nat) : BlkSpan item n ↔ n ∈ iv := by
  unfold BlkSpan
  rw [hnum.head hne, PtRange.mem_def]
  omega

theorem stage (h : BlkBooks v (some iv)) (hne : item.blocks ≠ [])
    (hnum : Numbered item.blocks 0 iv.minPt) (hlen : iv.minPt + item.blocks.length = iv.maxPt + 1) :
    v.staged.lookup iv.minPt = none ∧
    BlkBooks { v with staged := v.staged.insert iv.minPt item } none := by
  have hnone : v.staged.lookup iv.minPt = none := by
    -- a list under that key would hold the same number
    by_contra hsome
    obtain ⟨item', hlook⟩ := Option.ne_none_iff_exists'.mp hsome
    obtain ⟨hne', hnum'⟩ := h.staged iv.minPt item' hlook
    have hpos := List.length_pos_iff.mpr hne'
    have hspan : BlkSpan item' iv.minPt := by
      unfold BlkSpan
      rw [hnum'.head hne']
      omega
    have heq := h.places.unique (RangeBooks.owns_staged.mpr ⟨item', hlook, hspan⟩)
      (RangeBooks.owns_hand.mpr iv.minPt_mem)
    cases heq
  refine ⟨hnone, h.top_le, h.head_lt, ?_, h.running, ?_, h.direct⟩
  · exact Balanced.stage h.places hnone (span_of_numbered hne hnum hlen)
  · intro key item' hlook
    rw [Table.lookup_insert'] at hlook
    split at hlook
    · next heq =>
      cases hlook
      exact ⟨hne, heq ▸ hnum⟩
    · exact h.staged key item' hlook

theorem unstage (h : BlkBooks v none) (iv : PtRange) (hlook : v.staged.lookup iv.minPt = some item)
    (hlen : iv.minPt + item.blocks.length = iv.maxPt + 1) :
    BlkBooks { v with staged := v.staged.erase iv.minPt } (some iv) where
  top_le := h.top_le
  head_lt := h.head_lt
  places := by
    obtain ⟨hne, hnum⟩ := h.staged iv.minPt item hlook
    exact Balanced.unstage h.places hlook (span_of_numbered hne hnum hlen)
  running := h.running
  staged key item' hk := by
    rw [Table.lookup_erase'] at hk
    split at hk
    · cases hk
    · exact h.staged key item' hk
  direct := h.direct

theorem same (h : BlkBooks v hand) {unprocessed borrowed : IntervalSet}
    (hu : ∀ n, n ∈ unprocessed ↔ n ∈ v.unprocessed) (hb : ∀ n, n ∈ borrowed ↔ n ∈ v.borrowed) :
    BlkBooks { v with unprocessed := unprocessed, borrowed := borrowed } hand where
  top_le := h.top_le
  head_lt := h.head_lt
  places := Balanced.same h.places hu hb
  running := Lent.same h.running hb
  staged := h.staged
  direct := h.direct

/-- The fetch of `p` goes on with another request for the same range. -/
theorem reJob (h : BlkBooks v hand) {job : Job} (hr : blkRange job = blkRange (v.job p))
    (hd : directRange job = directRange (v.job p)) (hp : ¬ Importing v p)
    (hjob : ∀ j, job ≠ .importing j) : BlkBooks { v with job := update v.job p job } hand where
  top_le := h.top_le
  head_lt := h.head_lt
  places := by
    rw [importOwns_update hp hjob]
    exact h.places
  running := by
    rw [fetch_update_same hr]
    exact h.running
  staged := h.staged
  direct := (forall_update_iff v.job fun _ j =>
    ∀ iv', directRange j = some iv' → iv'.minPt = v.topNum + 1).mpr
      ⟨fun iv' hj => h.direct p iv' (hd ▸ hj), fun q _ => h.direct q⟩

/-! ## Imports -/

section

variable (h : BlkBooks v (some iv)) (hmin : iv.minPt = v.topNum + 1)
include h hmin

/-- While a list of the next blocks is in hand, nobody fetches blocks to import right away. -/
theorem no_direct (q : PeerId) (iv' : PtRange) : directRange (v.job q) ≠ some iv' := by
  intro hq
  have hmin' := h.direct q iv' hq
  have hrange : blkRange (v.job q) = some iv' := by
    unfold directRange at hq
    split at hq
    · next hjob =>
      rw [hjob]
      exact (Option.ite_none_right_eq_some.mp hq).2
    · next hjob =>
      rw [hjob]
      exact (Option.ite_none_right_eq_some.mp hq).2
    · cases hq
  have hbor := h.fetch_borrowed hrange iv'.minPt_mem
  have hhand : iv'.minPt ∈ iv := by
    rw [hmin', ← hmin]
    exact iv.minPt_mem
  exact (h.hand_disjoint hhand).2 hbor

theorem quiet
    (hwf : ∀ q job, v.job q = .importing job → v.topNum + 1 < job.minPt + job.item.blocks.length)
    (q : PeerId) : ¬ Importing v q := by
  rintro ⟨job, hjob⟩
  have hown : v.toRangeBooks.Owns BlkSpan (ImportOwns v) (some iv) (.held q) (v.topNum + 1) :=
    ⟨job, hjob, Nat.lt_succ_self _, hwf q job hjob⟩
  have hhand : v.toRangeBooks.Owns BlkSpan (ImportOwns v) (some iv) .hand (v.topNum + 1) :=
    RangeBooks.owns_hand.mpr (hmin ▸ iv.minPt_mem)
  have heq := h.places.unique hown hhand
  cases heq

theorem advance (hquiet : ∀ q, ¬ Importing v q) (rest : Option PtRange)
    (hrest : ∀ n, (∃ rv, rest = some rv ∧ n ∈ rv) ↔ v.topNum + 1 < n ∧ n ≤ iv.maxPt) :
    BlkBooks { v with topNum := v.topNum + 1 } rest where
  top_le := by
    have hhand := h.of_hand iv.minPt_mem
    show v.topNum + 1 ≤ v.headNum
    omega
  head_lt := h.head_lt
  places := by
    have hno : ImportOwns { v with topNum := v.topNum + 1 } = ImportOwns v := by
      funext q n
      apply propext
      constructor
      · rintro ⟨job, hjob, -⟩
        exact absurd ⟨job, hjob⟩ (hquiet q)
      · rintro ⟨job, hjob, -⟩
        exact absurd ⟨job, hjob⟩ (hquiet q)
    have hmax := iv.min_le
    have hpart : ∀ n, (n ∈ iv ∧ ∀ rv, rest = some rv → n ∉ rv) ↔ n = v.topNum + 1 := by
      intro n
      have hn := hrest n
      have hall : (∀ rv, rest = some rv → n ∉ rv) ↔ ¬ ∃ rv, rest = some rv ∧ n ∈ rv := by
        simp only [not_exists, not_and]
      rw [hall, hn, PtRange.mem_def]
      omega
    rw [hno]
    apply Balanced.drop h.places rest
    · intro n rv hrv hn
      have hrange := (hrest n).mp ⟨rv, hrv, hn⟩
      exact ⟨by omega, hrange.2⟩
    · intro n
      rw [hpart]
      show v.topNum + 1 < n ∧ n ≤ v.headNum ↔ (v.topNum < n ∧ n ≤ v.headNum) ∧ ¬ n = v.topNum + 1
      omega
  running := h.running
  staged := h.staged
  direct q iv' hq := absurd hq (h.no_direct hmin q iv')

end

theorem hold (h : BlkBooks v (importRest job)) (hp : v.job p = .idle)
    (hn : job.n < job.item.blocks.length) (htop : job.minPt + job.n = v.topNum + 1) :
    BlkBooks { v with job := update v.job p (.importing job) } none where
  top_le := h.top_le
  head_lt := h.head_lt
  places := by
    have hself : ∀ n, ImportOwns { v with job := update v.job p (.importing job) } p n ↔
        v.topNum < n ∧ n < job.minPt + job.item.blocks.length := by
      intro n
      simp only [ImportOwns, update_self, Job.importing.injEq, exists_eq_left']
    obtain ⟨iv, hiv, hmin, hmax⟩ := importRest_of_lt hn
    rw [hiv] at h
    apply Balanced.hold h.places (p := p)
    · rintro n ⟨j, hj, -⟩
      rw [hp] at hj
      cases hj
    · intro n
      rw [hself, PtRange.mem_def]
      omega
    · intro q hq n
      unfold ImportOwns
      dsimp only
      rw [update_of_ne hq]
  running := by
    rw [fetch_update_same (by rw [hp]; rfl)]
    exact h.running
  staged := h.staged
  direct := (forall_update_iff v.job fun _ j =>
    ∀ iv', directRange j = some iv' → iv'.minPt = v.topNum + 1).mpr
      ⟨fun _ hj => (nomatch hj), fun q _ => h.direct q⟩

/-- What the peer `p` awaits is over, and the list is in its hands again. -/
theorem release (h : BlkBooks v none) (hp : v.job p = .importing job)
    (hn : job.n < job.item.blocks.length) (htop : job.minPt + job.n = v.topNum + 1) :
    BlkBooks { v with job := update v.job p .idle } (importRest job) where
  top_le := h.top_le
  head_lt := h.head_lt
  places := by
    have hself : ∀ n, ImportOwns v p n ↔
        v.topNum < n ∧ n < job.minPt + job.item.blocks.length := by
      intro n
      simp only [ImportOwns, hp, Job.importing.injEq, exists_eq_left']
    obtain ⟨iv, hiv, hmin, hmax⟩ := importRest_of_lt hn
    rw [hiv]
    apply Balanced.release h.places (p := p)
    · intro n
      rw [hself, PtRange.mem_def]
      omega
    · rintro n ⟨j, hj, -⟩
      dsimp only at hj
      rw [update_self] at hj
      cases hj
    · intro q hq n
      unfold ImportOwns
      dsimp only
      rw [update_of_ne hq]
  running := by
    rw [fetch_update_same (by rw [hp]; rfl)]
    exact h.running
  staged := h.staged
  direct := (forall_update_iff v.job fun _ j =>
    ∀ iv', directRange j = some iv' → iv'.minPt = v.topNum + 1).mpr
      ⟨fun _ hj => (nomatch hj), fun q _ => h.direct q⟩

end BlkBooks

end Nimbus.Spec.Beacon
