import Nimbus.ForStd.RangeBooks
import Nimbus.Native.UnprocKeys

/-!
# The key ranges of a snap sync account for every key

A key is unprocessed, borrowed or processed. Lengths are right modulo 2^256, and what is compared
with them is as well, so that a full range passes for what it is.
-/

namespace Nimbus.Spec.Snap

open Nimbus.Native.Snap Nimbus.Native.Snap.UnprocItemKeys IntervalSet
open RangeBooks (Lent)

/-- What a user may ask for: a slot is free when a range is fetched, and what is handed back lies
in the range that is committed. -/
def Allowed (s : Session) : Cmd → Prop
  | .fetchLeast slot maxLen => s.fetched slot = none ∧ maxLen ≤ high
  | .commit _ => True
  | .commitPart slot unproc => ∀ iv, s.fetched slot = some iv → ∀ n ∈ unproc, n ∈ iv
  | .commitKeys slot minKey maxKey =>
    ∀ iv, s.fetched slot = some iv → ∀ n, minKey ≤ n ∧ n ≤ maxKey → n ∈ iv

/-- The sessions that start with all of `initRange`. -/
inductive Reached (initRange : PtRange) : Session → Prop where
  | init : Reached initRange (.init initRange)
  | step {s s' : Session} {cmd : Cmd} : Reached initRange s → Allowed s cmd →
      s.step cmd = .ok s' → Reached initRange s'

/-- Every key that is not processed is in one of the two sets, and every borrowed key in one of
the ranges that were fetched. -/
structure Books (initRange : PtRange) (s : Session) : Prop where
  disjoint : ∀ n ∈ s.udb.unprocessed, n ∉ s.udb.borrowed
  union : ∀ n, (n ∈ s.udb.unprocessed ∨ n ∈ s.udb.borrowed) ↔ n ∈ initRange ∧ n ∉ s.processed
  lent : Lent s.udb.borrowed s.fetched

/-- The range that a fetch is to give: at most `maxLen` keys from the least one on. -/
structure Least (udb : UnprocItemKeys) (maxLen : Nat) (iv : PtRange) : Prop where
  mem : ∀ n ∈ iv, n ∈ udb.unprocessed
  least : ∀ n ∈ udb.unprocessed, iv.minPt ≤ n
  len_le : iv.len ≤ if maxLen = 0 then 2 ^ 256 else maxLen

variable {initRange iv : PtRange} {s s' : Session} {udb : UnprocItemKeys} {set : IntervalSet}

/-! ## The sets -/

theorem merged_eq {e : Defect} (h : ∀ n ∈ iv, n ∉ set) :
    merged set iv (len256 iv) e = .ok (set.merge iv) := by
  rw [merged, merge_count h, Nat.add_sub_cancel_left]
  exact if_pos rfl

theorem reduced_eq {e : Defect} (h : ∀ n ∈ iv, n ∈ set) :
    reduced set iv (len256 iv) e = .ok (set.reduce iv) := by
  rw [reduced, ← reduce_count h, Nat.add_sub_cancel_left]
  exact if_pos rfl

theorem len_new {lo hi : Nat} (h : lo ≤ hi) : (PtRange.new lo hi).len = hi - lo + 1 := by
  simp only [PtRange.len, PtRange.new, max_eq_right h]

theorem len_le (h : iv.maxPt ≤ high) : iv.len ≤ 2 ^ 256 := by
  unfold PtRange.len
  unfold high at h
  omega

theorem curb_least {jv : PtRange} {maxLen : Nat} (hjv : udb.unprocessed.ge = some jv)
    (hhigh : jv.maxPt ≤ high) (hmax : maxLen ≤ high) : Least udb maxLen (curb maxLen jv) := by
  have hle := jv.min_le
  have hlen : len256 jv = if jv.len = 2 ^ 256 then 0 else jv.len := by
    have hjvlen := len_le hhigh
    unfold len256 u256
    split
    · next h => rw [h, Nat.mod_self]
    · exact Nat.mod_eq_of_lt (by omega)
  unfold curb
  split
  · next h =>
    refine ⟨fun n hn => mem_of_ge hjv hn, fun n hn => ge_le_of_mem hjv hn, ?_⟩
    have hjvlen := len_le hhigh
    split at hlen
    · rw [if_pos (h.resolve_right fun h => h.1 hlen)]
      exact hjvlen
    · split
      · exact hjvlen
      · omega
  · next h =>
    -- the curbed range ends before `jv` does, so that the sum does not wrap
    have hlt : maxLen < jv.len := by
      have hpos := jv.len_pos
      split at hlen
      · unfold high at hmax
        omega
      · omega
    unfold PtRange.len at hlt
    unfold high at hhigh
    rw [u256]
    refine ⟨fun n hn => mem_of_ge hjv ?_, fun n hn => @ge_le_of_mem _ _ jv hjv hn, ?_⟩
    · obtain ⟨hlo, hhi⟩ := (PtRange.mem_new (by omega)).mp hn
      exact PtRange.mem_def.mpr ⟨hlo, by omega⟩
    · rw [if_neg (by omega), len_new (by omega)]
      omega

/-! ## The calls -/

namespace Books

theorem le_high (h : Books initRange s) (hr : initRange.maxPt ≤ high) {n : Nat}
    (hn : n ∈ s.udb.unprocessed ∨ n ∈ s.udb.borrowed) : n ≤ high :=
  ((h.union n).mp hn).1.2.trans hr

theorem init : Books initRange (.init initRange) where
  disjoint n _ hb := mem_clear.mp hb
  union n := by simp [Session.init, UnprocItemKeys.init, mem_merge]
  lent := .start (fun _ => mem_clear.mp) fun _ => rfl

/-- A fetch finds no key, or it borrows the least ones. -/
theorem fetch (h : Books initRange s) (hr : initRange.maxPt ≤ high) {maxLen : Nat}
    (hmax : maxLen ≤ high) :
    (s.udb.fetchLeast maxLen = .ok none ∧ ∀ n, n ∉ s.udb.unprocessed) ∨
      ∃ iv udb, s.udb.fetchLeast maxLen = .ok (some (iv, udb)) ∧ Least s.udb maxLen iv ∧
        ∀ slot, s.fetched slot = none →
          Books initRange { s with udb, fetched := Function.update s.fetched slot (some iv) } := by
  unfold fetchLeast
  cases hjv : s.udb.unprocessed.ge with
  | none => exact .inl ⟨rfl, ge_eq_none_iff.mp hjv⟩
  | some jv =>
    right
    have hleast := curb_least hjv
      (h.le_high hr (.inl (mem_of_ge hjv jv.maxPt_mem))) hmax
    have hout : ∀ n ∈ curb maxLen jv, n ∉ s.udb.borrowed :=
      fun n hn => h.disjoint n (hleast.mem n hn)
    refine ⟨curb maxLen jv, ⟨s.udb.unprocessed.reduce (curb maxLen jv),
      s.udb.borrowed.merge (curb maxLen jv)⟩, ?_, hleast, fun slot hslot => ?_⟩
    · simp only [reduced_eq hleast.mem, merged_eq hout]
      rfl
    · refine ⟨fun n hn hb => ?_, fun n => ?_, h.lent.lend hslot hout⟩
      · obtain ⟨hu, hiv⟩ := mem_reduce.mp hn
        exact (mem_merge.mp hb).elim hiv (h.disjoint n hu)
      · rw [← h.union, mem_reduce, mem_merge]
        have hsub := hleast.mem n
        tauto

/-- A commit hands back the keys of `back`. -/
theorem commitBy (h : Books initRange s) {slot : Nat} {back : Set Nat}
    {f : PtRange → Except Defect UnprocItemKeys}
    (hback : ∀ iv, s.fetched slot = some iv → ∀ n ∈ back, n ∈ iv)
    (hf : ∀ iv, s.fetched slot = some iv → ∃ unprocessed,
      f iv = .ok ⟨unprocessed, s.udb.borrowed.reduce iv⟩ ∧
        ∀ n, n ∈ unprocessed ↔ n ∈ back ∨ n ∈ s.udb.unprocessed) :
    ∃ s', s.commitBy slot back f = .ok s' ∧ Books initRange s' := by
  unfold Session.commitBy
  cases hslot : s.fetched slot with
  | none => exact ⟨s, rfl, h⟩
  | some iv =>
    obtain ⟨unprocessed, hrun, hmem⟩ := hf iv hslot
    refine ⟨s.committed slot iv back ⟨unprocessed, s.udb.borrowed.reduce iv⟩, ?_, ?_, ?_,
      h.lent.take hslot⟩
    · show (f iv >>= _) = _
      rw [hrun]
      rfl
    · intro n hn hb
      obtain ⟨hb, hiv⟩ := mem_reduce.mp hb
      exact ((hmem n).mp hn).elim (fun hn => hiv (hback iv hslot n hn)) fun hu => h.disjoint n hu hb
    · intro n
      have hin := h.lent.mem hslot (n := n)
      have hdis := h.disjoint n
      have hunion := h.union n
      have hsub := hback iv hslot n
      show n ∈ unprocessed ∨ n ∈ s.udb.borrowed.reduce iv ↔
        n ∈ initRange ∧ ¬ (n ∈ s.processed ∨ n ∈ iv ∧ n ∉ back)
      rw [hmem, mem_reduce]
      tauto

end Books

theorem commit_ok (h : Books initRange s) {slot : Nat} (hslot : s.fetched slot = some iv) :
    s.udb.commit iv = .ok { s.udb with borrowed := s.udb.borrowed.reduce iv } := by
  unfold UnprocItemKeys.commit
  rw [reduced_eq fun n hn => h.lent.mem hslot hn]
  rfl

/-- What is handed back was borrowed, and so it is not unprocessed. -/
theorem merged_back (h : Books initRange s) {slot : Nat} (hslot : s.fetched slot = some iv)
    {unproc : PtRange} (hback : ∀ n ∈ unproc, n ∈ iv) {e : Defect} :
    merged s.udb.unprocessed unproc (len256 unproc) e = .ok (s.udb.unprocessed.merge unproc) :=
  merged_eq fun n hn hu => h.disjoint n hu (h.lent.mem hslot (hback n hn))

/-- No assertion fails, and the books stay right. -/
theorem step_books (h : Books initRange s) (hr : initRange.maxPt ≤ high) {cmd : Cmd}
    (hallowed : Allowed s cmd) : ∃ s', s.step cmd = .ok s' ∧ Books initRange s' := by
  cases cmd with
  | fetchLeast slot maxLen =>
    simp only [Session.step]
    rcases h.fetch hr hallowed.2 with ⟨hnone, -⟩ | ⟨iv, udb, hsome, -, hbooks⟩
    · exact ⟨s, by rw [hnone]; rfl, h⟩
    · exact ⟨_, by rw [hsome]; rfl, hbooks slot hallowed.1⟩
  | commit slot =>
    refine h.commitBy (fun iv _ n hn => absurd hn (Set.notMem_empty n)) fun iv hslot => ?_
    exact ⟨_, commit_ok h hslot, fun n => (or_iff_right (Set.notMem_empty n)).symm⟩
  | commitPart slot unproc =>
    refine h.commitBy hallowed fun iv hslot => ?_
    refine ⟨s.udb.unprocessed.merge unproc, ?_, fun n => mem_merge⟩
    simp only [commitPart, commit_ok h hslot]
    show (merged s.udb.unprocessed _ _ _ >>= _) = _
    rw [merged_back h hslot (hallowed iv hslot)]
    rfl
  | commitKeys slot minKey maxKey =>
    refine h.commitBy hallowed fun iv hslot => ?_
    simp only [commitKeys, commit_ok h hslot]
    show ∃ unprocessed, (if minKey ≤ maxKey then _ else _) = _ ∧ _
    by_cases hle : minKey ≤ maxKey
    · have hnew (n : Nat) : n ∈ PtRange.new minKey maxKey ↔ minKey ≤ n ∧ n ≤ maxKey :=
        PtRange.mem_new hle
      refine ⟨s.udb.unprocessed.merge (PtRange.new minKey maxKey), ?_, fun n => ?_⟩
      · have hlen : u256 (maxKey - minKey + 1) = len256 (PtRange.new minKey maxKey) := by
          rw [len256, len_new hle]
        rw [if_pos hle]
        show (merged s.udb.unprocessed _ _ _ >>= _) = _
        rw [hlen, merged_back h hslot fun n hn => hallowed iv hslot n ((hnew n).mp hn)]
        rfl
      · rw [mem_merge, hnew]
        rfl
    · refine ⟨s.udb.unprocessed, by rw [if_neg hle]; rfl, fun n => (or_iff_right fun hn => ?_).symm⟩
      exact hle (Nat.le_trans hn.1 hn.2)

theorem Reached.books (h : Reached initRange s) (hr : initRange.maxPt ≤ high) :
    Books initRange s := by
  induction h with
  | init => exact .init
  | step _ hallowed hstep ih =>
    obtain ⟨s', hs', hbooks⟩ := step_books ih hr hallowed
    rw [hstep] at hs'
    cases hs'
    exact hbooks

/-! ## Counting -/

/-- The keys that are unprocessed or borrowed. -/
def keys (udb : UnprocItemKeys) : Finset Nat := udb.unprocessed.points ∪ udb.borrowed.points

theorem Books.card_keys (h : Books initRange s) :
    (keys s.udb).card = s.udb.unprocessed.total + s.udb.borrowed.total := by
  rw [keys, Finset.card_union_of_disjoint, card_points, card_points]
  rw [Finset.disjoint_left]
  intro n hu hb
  exact h.disjoint n (mem_points.mp hu) (mem_points.mp hb)

theorem Books.card_keys_le (h : Books initRange s) (hr : initRange.maxPt ≤ high) :
    (keys s.udb).card ≤ 2 ^ 256 := by
  have hsub : keys s.udb ⊆ initRange.points := by
    intro n hn
    rw [keys, Finset.mem_union, mem_points, mem_points, h.union] at hn
    exact PtRange.mem_points.mpr hn.1
  calc (keys s.udb).card ≤ initRange.points.card := Finset.card_le_card hsub
    _ = initRange.len := initRange.card_points
    _ ≤ 2 ^ 256 := len_le hr

/-- Nothing stands for no keys, and zero for 2^256. -/
theorem Books.total_eq (h : Books initRange s) (hr : initRange.maxPt ≤ high) :
    s.udb.total = if (keys s.udb).card = 0 then none else some ((keys s.udb).card % 2 ^ 256) := by
  have hle := h.card_keys_le hr
  rw [h.card_keys] at hle ⊢
  have hu : s.udb.unprocessed.chunks = 0 ↔ s.udb.unprocessed.total = 0 :=
    chunks_eq_zero_iff.trans total_eq_zero_iff.symm
  have hb : s.udb.borrowed.chunks = 0 ↔ s.udb.borrowed.total = 0 :=
    chunks_eq_zero_iff.trans total_eq_zero_iff.symm
  unfold UnprocItemKeys.total avail
  simp only [hu, hb]
  generalize s.udb.unprocessed.total = u at *
  generalize s.udb.borrowed.total = b at *
  rcases Nat.eq_zero_or_pos b with rfl | hbpos
  · rw [if_pos rfl]
    rfl
  rw [if_neg hbpos.ne', if_neg (by omega : ¬ u + b = 0)]
  rcases Nat.eq_zero_or_pos u with rfl | hupos
  · rw [Nat.zero_add]
    rfl
  -- neither of the two sets is full, so only the sum can wrap
  have hsum : u256 (u256 u + u256 (u256 b + high)) = u + b - 1 := by
    unfold u256 high
    omega
  rw [if_neg hupos.ne', hsum]
  by_cases hfull : u + b = 2 ^ 256
  · rw [if_pos (by rw [hfull]; rfl), hfull, Nat.mod_self]
  · rw [if_neg (by unfold high; omega), u256, Nat.sub_add_cancel (by omega)]

/-! ## All sessions -/

/-- From any initial range on, no assertion fails, the two sets stay disjoint and hold the keys
that are not processed, a fetch gives the least of them, and the count is right. -/
theorem unprocKeys_exact (hr : initRange.maxPt ≤ high) (h : Reached initRange s) :
    (∀ n ∈ s.udb.unprocessed, n ∉ s.udb.borrowed) ∧
    (∀ n, (n ∈ s.udb.unprocessed ∨ n ∈ s.udb.borrowed) ↔ n ∈ initRange ∧ n ∉ s.processed) ∧
    (∀ cmd, Allowed s cmd → ∃ s', s.step cmd = .ok s') ∧
    (∀ maxLen ≤ high, (s.udb.fetchLeast maxLen = .ok none ∧ ∀ n, n ∉ s.udb.unprocessed) ∨
      ∃ iv udb, s.udb.fetchLeast maxLen = .ok (some (iv, udb)) ∧ Least s.udb maxLen iv) ∧
    s.udb.total = if (keys s.udb).card = 0 then none else some ((keys s.udb).card % 2 ^ 256) := by
  have hbooks := h.books hr
  refine ⟨hbooks.disjoint, hbooks.union, fun cmd hallowed => ?_, fun maxLen hmax => ?_,
    hbooks.total_eq hr⟩
  · obtain ⟨s', hs', -⟩ := step_books hbooks hr hallowed
    exact ⟨s', hs'⟩
  · rcases hbooks.fetch hr hmax with hnone | ⟨iv, udb, hsome, hleast, -⟩
    · exact .inl hnone
    · exact .inr ⟨iv, udb, hsome, hleast⟩

def allKeys : PtRange := ⟨0, high, Nat.zero_le _⟩

/-- All keys are fetched at once. -/
theorem unprocKeys_exact_full : ∃ s', (Session.init allKeys).step (.fetchLeast 0 0) = .ok s' :=
  (@unprocKeys_exact allKeys _ (Nat.le_refl _) .init).2.2.1 (.fetchLeast 0 0) ⟨rfl, Nat.zero_le _⟩

end Nimbus.Spec.Snap
