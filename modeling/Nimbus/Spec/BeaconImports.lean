import Nimbus.Spec.BeaconBooks

/-!
# The order of imports

`follow` says in which order blocks may go to the `FC` module: one at a time, each number
being the successor of the last one that was imported or skipped. A number comes again only
after its import failed. `BlkInv` is the invariant of a block session. It holds the books,
what every suspended coroutine knows about its local variables, and that the marks set so
far follow the order.
-/

namespace Nimbus.Spec.Beacon

open Nimbus.Native.Beacon
open Nimbus.Native.HeaderChainCache Function

/-- What may happen next, after the number `top` was done with, and with a number in flight. -/
def follow : Nat × Option Nat → ImportMark → Option (Nat × Option Nat)
  | (top, none), .skipped bn => if bn = top + 1 then some (bn, none) else none
  | (top, none), .submitted bn => if bn = top + 1 then some (top, some bn) else none
  | (_, some bn), .imported bn' => if bn' = bn then some (bn, none) else none
  | (top, some bn), .failed bn' => if bn' = bn then some (top, none) else none
  | _, _ => none

/-- Where the marks lead to from `top` on, if they are in order. -/
def follows (top : Nat) (marks : List ImportMark) : Option (Nat × Option Nat) :=
  marks.foldlM follow (top, none)

theorem follows_append (top : Nat) (marks : List ImportMark) (m : ImportMark) :
    follows top (marks ++ [m]) = (follows top marks).bind fun s => follow s m := by
  unfold follows
  simp

/-- A number that failed comes again. -/
example : follows 6 [.skipped 7, .submitted 8, .failed 8, .submitted 8, .imported 8] =
    some (8, none) := by decide

/-! ## Suspended coroutines -/

/-- The local variables of `blocksImport`, where the blocks below `n` are done with. -/
structure ImportWf (job : ImportJob) (topNum : Nat) : Prop where
  numbered : Numbered job.item.blocks job.n job.minPt
  cleared : ∀ i, i < job.n → job.item.blocks[i]? = some {}
  next : job.minPt + job.n = topNum + 1
  le : job.n ≤ job.item.blocks.length

namespace ImportWf

variable {job : ImportJob} {topNum : Nat}

theorem nthBn (h : ImportWf job topNum) (hn : job.n < job.item.blocks.length) :
    job.nthBn = topNum + 1 := by
  unfold ImportJob.nthBn
  rw [List.getElem?_eq_getElem hn, ← h.next]
  exact h.numbered job.n _ (le_refl _) (List.getElem?_eq_getElem hn)

theorem lastBn (h : ImportWf job topNum) (hn : job.n < job.item.blocks.length) :
    job.lastBn + 1 = job.minPt + job.item.blocks.length := by
  have hlt : job.item.blocks.length - 1 < job.item.blocks.length := by omega
  have hlast : job.item.blocks[job.item.blocks.length - 1]? =
      some job.item.blocks[job.item.blocks.length - 1] := List.getElem?_eq_getElem hlt
  have hnum := h.numbered _ _ (by omega) hlast
  unfold ImportJob.lastBn
  rw [List.getLastD_eq_getLast?, List.getLast?_eq_getElem?, hlast, Option.getD_some]
  omega

/-- Once all blocks are done with, the last one is no more. -/
theorem lastBn_done (h : ImportWf job topNum) (hn : job.n = job.item.blocks.length) :
    job.lastBn = 0 := by
  unfold ImportJob.lastBn
  rw [List.getLastD_eq_getLast?, List.getLast?_eq_getElem?]
  by_cases hpos : 0 < job.n
  · rw [h.cleared (job.item.blocks.length - 1) (by omega)]
    rfl
  · rw [List.getElem?_eq_none (by omega)]
    rfl

theorem length_next (job : ImportJob) : job.next.item.blocks.length = job.item.blocks.length :=
  List.length_set

theorem step (h : ImportWf job topNum) (hn : job.n < job.item.blocks.length) :
    ImportWf job.next (topNum + 1) where
  numbered i blk hi hblk := by
    have hi' : job.n + 1 ≤ i := hi
    have hne : job.n ≠ i := by omega
    have hblk' : (job.item.blocks.set job.n {})[i]? = some blk := hblk
    rw [List.getElem?_set_ne hne] at hblk'
    exact h.numbered i blk (by omega) hblk'
  cleared i hi := by
    have hi' : i < job.n + 1 := hi
    show (job.item.blocks.set job.n {})[i]? = some {}
    by_cases heq : job.n = i
    · rw [← heq, List.getElem?_set_self hn]
    · rw [List.getElem?_set_ne heq]
      exact h.cleared i (by omega)
  next := by
    have hnext := h.next
    show job.minPt + (job.n + 1) = topNum + 1 + 1
    omega
  le := by
    rw [length_next]
    exact hn

end ImportWf

/-- What a suspended coroutine knows about its local variables. -/
def JobWf (topNum : Nat) : Job → Prop
  | .bodies job =>
    job.headers.length = job.iv.len ∧ job.blockHashes.length = job.headers.length ∧
      ∀ i h, job.headers[i]? = some h → h.number = job.iv.minPt + i
  | .bals job =>
    job.blocks ≠ [] ∧ Numbered job.blocks 0 job.iv.minPt ∧ job.blocks.length ≤ job.iv.len ∧
      job.blockHashes.length = job.blocks.length ∧ job.raws.length < job.blockHashes.length
  | .importing job => ImportWf job topNum ∧ job.n < job.item.blocks.length
  | _ => True

theorem JobWf.of_not_importing {job : Job} {topNum topNum' : Nat} (h : JobWf topNum job)
    (hjob : ∀ j, job ≠ .importing j) : JobWf topNum' job := by
  cases job with
  | importing j => exact absurd rfl (hjob j)
  | idle => exact h
  | headers j => exact h
  | bodies j => exact h
  | bals j => exact h

/-! ## Block sessions -/

variable {v : BlkView}

theorem BlkBooks.setMarks {hand : Option PtRange} (h : BlkBooks v hand)
    (marks : List ImportMark) : BlkBooks { v with marks := marks } hand :=
  ⟨h.top_le, h.head_lt, h.places, h.running, h.staged, h.direct⟩

variable {job : ImportJob}

theorem BlkBooks.next (h : BlkBooks v (importRest job))
    (hwf : ImportWf job v.topNum) (hn : job.n < job.item.blocks.length)
    (hquiet : ∀ q, ¬ Importing v q) :
    BlkBooks { v with topNum := v.topNum + 1 } (importRest job.next) := by
  obtain ⟨iv, hiv, hmin, hmax⟩ := importRest_of_lt hn
  have hnext := hwf.next
  rw [hiv] at h
  apply h.advance (by omega) hquiet
  intro n
  have hlen := ImportWf.length_next job
  by_cases hmore : job.next.n < job.next.item.blocks.length
  · obtain ⟨rv, hrv, hmin', hmax'⟩ := importRest_of_lt hmore
    have hstart : rv.minPt = job.minPt + (job.n + 1) := hmin'
    have hend : rv.maxPt + 1 = job.minPt + job.next.item.blocks.length := hmax'
    rw [hrv]
    simp only [Option.some.injEq, exists_eq_left', PtRange.mem_def]
    omega
  · have hstop : ¬ job.n + 1 < job.next.item.blocks.length := hmore
    rw [importRest_of_ge (not_lt.mp hmore)]
    simp only [reduceCtorEq, false_and, exists_false, false_iff]
    omega

open Classical in
/-- The number that some peer waits for, if there is one. -/
noncomputable def inFlight (v : BlkView) : Option Nat :=
  if ∃ p, Importing v p then some (v.topNum + 1) else none

theorem inFlight_of_importing {p : PeerId} (h : Importing v p) :
    inFlight v = some (v.topNum + 1) := if_pos ⟨p, h⟩

theorem inFlight_of_quiet (h : ∀ p, ¬ Importing v p) : inFlight v = none :=
  if_neg fun ⟨p, hp⟩ => h p hp

/-- The invariant of the block session for `range`, where `hand` is what the running peer
holds. Once the session is about to end, the books are of no interest any more. -/
structure BlkInv (v : BlkView) (range : PtRange) (hand : Option PtRange) : Prop where
  pos : 1 ≤ range.minPt
  head : range.maxPt = v.headNum
  jobs : ∀ p, JobWf v.topNum (v.job p)
  alone : ∀ p q, Importing v p → Importing v q → p = q
  order : follows (range.minPt - 1) v.marks = some (v.topNum, inFlight v)
  books : v.syncState = .blocks → BlkBooks v hand

namespace BlkInv

variable {v : BlkView} {range : PtRange} {hand hand' : Option PtRange} {p : PeerId}

theorem start (hpos : 1 ≤ range.minPt) (hhead : range.maxPt = v.headNum)
    (hlt : v.headNum + 1 < 2 ^ 64) (htop : v.topNum + 1 = range.minPt) (hmarks : v.marks = [])
    (hjob : ∀ p, v.job p = .idle) (hu : ∀ n, n ∈ v.unprocessed ↔ n ∈ range)
    (hb : ∀ n, n ∉ v.borrowed) (hs : ∀ key, v.staged.lookup key = none) : BlkInv v range none := by
  have hmin := range.min_le
  have hquiet : ∀ p, ¬ Importing v p := by
    rintro p ⟨job, hp⟩
    rw [hjob p] at hp
    cases hp
  refine ⟨hpos, hhead, ?_, fun p _ hp => absurd hp (hquiet p), ?_, fun _ => ?_⟩
  · intro p
    rw [hjob p]
    trivial
  · rw [hmarks, inFlight_of_quiet hquiet, show range.minPt - 1 = v.topNum by omega]
    rfl
  · refine ⟨by omega, hlt, ?_, ?_, ?_, ?_⟩
    · apply RangeBooks.Balanced.start
      · intro n
        rw [hu]
        show range.minPt ≤ n ∧ n ≤ range.maxPt ↔ v.topNum < n ∧ n ≤ v.headNum
        omega
      · exact hb
      · exact hs
      · rintro p n ⟨job, hp, -⟩
        exact hquiet p ⟨job, hp⟩
    · apply RangeBooks.Lent.start hb
      intro p
      rw [hjob p]
      rfl
    · intro key item hlook
      rw [hs key] at hlook
      cases hlook
    · intro p iv hp
      rw [hjob p] at hp
      cases hp

theorem setBooks (h : BlkInv v range hand) (b : RangeBooks BlocksForImport)
    (hb : v.syncState = .blocks → BlkBooks { v with toRangeBooks := b } hand') :
    BlkInv { v with toRangeBooks := b } range hand' :=
  ⟨h.pos, h.head, h.jobs, h.alone, h.order, hb⟩

theorem importing_update {job : Job} {q : PeerId} (hp : ¬ Importing v p)
    (hjob : ∀ j, job ≠ .importing j) :
    Importing { v with job := update v.job p job } q ↔ Importing v q := by
  unfold Importing
  dsimp only
  by_cases hq : q = p
  · subst hq
    rw [update_self]
    apply iff_of_false _ hp
    rintro ⟨j, hj⟩
    exact hjob j hj
  · rw [update_of_ne hq]

/-- A peer that imports nothing goes on to something else that is not an import. -/
theorem setJob (h : BlkInv v range hand) (b : RangeBooks BlocksForImport) {job : Job}
    (hp : ¬ Importing v p) (hjob : ∀ j, job ≠ .importing j) (hwf : JobWf v.topNum job)
    (hb : v.syncState = .blocks →
      BlkBooks { v with toRangeBooks := b, job := update v.job p job } hand') :
    BlkInv { v with toRangeBooks := b, job := update v.job p job } range hand' where
  pos := h.pos
  head := h.head
  jobs := (forall_update_iff v.job fun _ j => JobWf v.topNum j).mpr
    ⟨hwf, fun q _ => h.jobs q⟩
  alone q r hq hr := h.alone q r ((importing_update hp hjob).mp hq)
    ((importing_update hp hjob).mp hr)
  order := by
    have hsame : inFlight { v with toRangeBooks := b, job := update v.job p job } =
        inFlight v := by
      by_cases hex : ∃ q, Importing v q
      · obtain ⟨q, hq⟩ := hex
        rw [inFlight_of_importing hq]
        exact inFlight_of_importing ((importing_update hp hjob).mpr hq)
      · rw [inFlight_of_quiet fun q hq => hex ⟨q, hq⟩]
        exact inFlight_of_quiet fun q hq => hex ⟨q, (importing_update hp hjob).mp hq⟩
    rw [hsame]
    exact h.order
  books := hb

/-! ## Imports -/

theorem quiet_others (h : BlkInv v range hand) (hp : v.job p = .importing job)
    (q : PeerId) : ¬ Importing { v with job := update v.job p .idle } q := by
  rintro ⟨j, hj⟩
  dsimp only at hj
  by_cases hq : q = p
  · subst hq
    rw [update_self] at hj
    cases hj
  · rw [update_of_ne hq] at hj
    exact hq (h.alone q p ⟨j, hj⟩ ⟨job, hp⟩)

/-- Once nobody imports, the last number done with does not matter to the coroutines. -/
theorem jobs_of_quiet {topNum : Nat} (h : ∀ q, JobWf v.topNum (v.job q))
    (hquiet : ∀ q, ¬ Importing v q) (q : PeerId) : JobWf topNum (v.job q) := by
  apply (h q).of_not_importing
  intro j hj
  exact hquiet q ⟨j, hj⟩

theorem failed (h : BlkInv v range none) (hp : v.job p = .importing job) :
    BlkInv { v with
      job := update v.job p .idle
      marks := v.marks ++ [.failed job.nthBn] } range (importRest job) := by
  have hwf : JobWf v.topNum (.importing job) := hp ▸ h.jobs p
  have hquiet := h.quiet_others hp
  refine ⟨h.pos, h.head, ?_, fun q _ hq => absurd hq (hquiet q), ?_, ?_⟩
  · exact (forall_update_iff v.job fun _ j => JobWf v.topNum j).mpr
      ⟨trivial, fun q _ => h.jobs q⟩
  · have hnone : inFlight { v with
        job := update v.job p .idle
        marks := v.marks ++ [.failed job.nthBn] } = none := inFlight_of_quiet hquiet
    rw [hnone, follows_append, h.order, inFlight_of_importing ⟨job, hp⟩, hwf.1.nthBn hwf.2]
    exact if_pos rfl
  · exact fun hsync => ((h.books hsync).release hp hwf.2 hwf.1.next).setMarks _

theorem imported (h : BlkInv v range none) (hp : v.job p = .importing job) :
    BlkInv { v with
      topNum := v.topNum + 1
      job := update v.job p .idle
      marks := v.marks ++ [.imported job.nthBn] } range (importRest job.next) := by
  have hwf : JobWf v.topNum (.importing job) := hp ▸ h.jobs p
  have hquiet := h.quiet_others hp
  have hjobs : ∀ q, JobWf v.topNum (update v.job p .idle q) :=
    (forall_update_iff v.job fun _ j => JobWf v.topNum j).mpr
      ⟨trivial, fun q _ => h.jobs q⟩
  refine ⟨h.pos, h.head, ?_, fun q _ hq => absurd hq (hquiet q), ?_, ?_⟩
  · exact jobs_of_quiet (v := { v with job := update v.job p .idle }) hjobs hquiet
  · have hnone : inFlight { v with
        topNum := v.topNum + 1
        job := update v.job p .idle
        marks := v.marks ++ [.imported job.nthBn] } = none := inFlight_of_quiet hquiet
    rw [hnone, follows_append, h.order, inFlight_of_importing ⟨job, hp⟩, hwf.1.nthBn hwf.2]
    exact if_pos rfl
  · intro hsync
    have hrel := (h.books hsync).release hp hwf.2 hwf.1.next
    exact (hrel.next hwf.1 hwf.2 hquiet).setMarks _

theorem skip (h : BlkInv v range (importRest job)) (hwf : ImportWf job v.topNum)
    (hn : job.n < job.item.blocks.length) (hquiet : ∀ q, ¬ Importing v q) :
    BlkInv { v with
      topNum := v.topNum + 1
      marks := v.marks ++ [.skipped job.nthBn] } range (importRest job.next) where
  pos := h.pos
  head := h.head
  jobs := jobs_of_quiet (v := v) h.jobs hquiet
  alone q _ hq := absurd hq (hquiet q)
  order := by
    have hnone : inFlight { v with
        topNum := v.topNum + 1
        marks := v.marks ++ [.skipped job.nthBn] } = none := inFlight_of_quiet hquiet
    rw [hnone, follows_append, h.order, inFlight_of_quiet hquiet, hwf.nthBn hn]
    exact if_pos rfl
  books hsync := ((h.books hsync).next hwf hn hquiet).setMarks _

theorem submit (h : BlkInv v range (importRest job))
    (hwf : ImportWf job v.topNum) (hn : job.n < job.item.blocks.length)
    (hquiet : ∀ q, ¬ Importing v q) (hp : v.job p = .idle) :
    BlkInv { v with
      job := update v.job p (.importing job)
      marks := v.marks ++ [.submitted job.nthBn] } range none := by
  have honly : ∀ q, Importing { v with job := update v.job p (.importing job) } q →
      q = p := by
    rintro q ⟨j, hj⟩
    by_contra hq
    dsimp only at hj
    rw [update_of_ne hq] at hj
    exact hquiet q ⟨j, hj⟩
  refine ⟨h.pos, h.head, ?_, fun q r hq hr => (honly q hq).trans (honly r hr).symm, ?_, ?_⟩
  · exact (forall_update_iff v.job fun _ j => JobWf v.topNum j).mpr
      ⟨⟨hwf, hn⟩, fun q _ => h.jobs q⟩
  · have hself : inFlight { v with
        job := update v.job p (.importing job)
        marks := v.marks ++ [.submitted job.nthBn] } = some (v.topNum + 1) :=
      inFlight_of_importing ⟨job, update_self p (.importing job) v.job⟩
    rw [hself, follows_append, h.order, inFlight_of_quiet hquiet, hwf.nthBn hn]
    exact if_pos rfl
  · exact fun hsync => ((h.books hsync).hold hp hn hwf.next).setMarks _

end BlkInv

end Nimbus.Spec.Beacon
