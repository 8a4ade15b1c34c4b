import Nimbus.Native.Beacon.Unproc

/-!
# The staging areas of the beacon syncer

What the operations on the unprocessed and the borrowed ranges and on the staged queue do
when they are used as they are meant to be: a range is borrowed only while it is
unprocessed, it is given back only while it is borrowed, and so on. The assertions hold
then, and each result is described by its members.
-/

namespace Nimbus.Spec.Beacon

open Nimbus.Native.Beacon
open Nimbus.Native.HeaderChainCache (u64)
open IntervalSet

theorem u64_of_lt {n : Nat} (h : n < 2 ^ 64) : u64 n = n := Nat.mod_eq_of_lt h

/-- All numbers are from a session: none of them is zero, none is at the end of the range. -/
def Roomy (s : IntervalSet) : Prop := ∀ n ∈ s, 1 ≤ n ∧ n < 2 ^ 64

section
variable {Item : Type} {q : FetchSync Item} {iv unproc : PtRange}

/-- The staging area after the range was borrowed. -/
def lend (q : FetchSync Item) (iv : PtRange) : FetchSync Item :=
  { q with unprocessed := q.unprocessed.reduce iv, borrowed := q.borrowed.merge iv }

theorem borrow_spec (h : ∀ n ∈ iv, n ∉ q.borrowed) : q.borrow iv = .ok (lend q iv) := by
  unfold FetchSync.borrow
  have hcount : (q.borrowed.merge iv).total - q.borrowed.total = iv.len := by
    have hmerge := merge_count h
    omega
  dsimp only
  rw [hcount]
  exact if_pos rfl

theorem giveBack_spec (h : ∀ n ∈ iv, n ∈ q.borrowed) :
    q.giveBack iv = .ok { q with borrowed := q.borrowed.reduce iv } := by
  unfold FetchSync.giveBack
  have hcount : q.borrowed.total - (q.borrowed.reduce iv).total = iv.len := by
    have hreduce := reduce_count h
    omega
  dsimp only
  rw [hcount]
  exact if_pos rfl

theorem putBack_spec {len : Nat} (h : ∀ n ∈ unproc, n ∉ q.unprocessed) (hlen : len = len64 unproc) :
    q.putBack unproc len = .ok { q with unprocessed := q.unprocessed.merge unproc } := by
  unfold FetchSync.putBack
  have hcount : (q.unprocessed.merge unproc).total - q.unprocessed.total = unproc.len := by
    have hmerge := merge_count h
    omega
  dsimp only
  rw [hcount]
  exact if_pos hlen.symm

theorem unprocCommit_spec (hb : ∀ n ∈ iv, n ∈ q.borrowed) (hu : ∀ n ∈ unproc, n ∉ q.unprocessed) :
    q.unprocCommit iv unproc = .ok { q with
      borrowed := q.borrowed.reduce iv, unprocessed := q.unprocessed.merge unproc } := by
  unfold FetchSync.unprocCommit
  rw [giveBack_spec hb]
  exact putBack_spec hu rfl

/-- The numbers from `lo` to `hi`, none if these are in the wrong order. -/
def mergeRest (s : IntervalSet) (lo hi : Nat) : IntervalSet :=
  if lo ≤ hi then s.merge (PtRange.new lo hi) else s

theorem mem_mergeRest {s : IntervalSet} {lo hi n : Nat} :
    n ∈ mergeRest s lo hi ↔ (lo ≤ n ∧ n ≤ hi) ∨ n ∈ s := by
  unfold mergeRest
  split
  · next h => rw [mem_merge, PtRange.mem_new h]
  · next h =>
    apply Iff.symm
    apply or_iff_right
    omega

theorem unprocCommitRest_spec {lo hi : Nat} (hb : ∀ n ∈ iv, n ∈ q.borrowed)
    (hu : ∀ n, lo ≤ n → n ≤ hi → n ∉ q.unprocessed) :
    q.unprocCommitRest iv lo hi = .ok { q with
      borrowed := q.borrowed.reduce iv, unprocessed := mergeRest q.unprocessed lo hi } := by
  unfold FetchSync.unprocCommitRest mergeRest
  rw [giveBack_spec hb]
  dsimp only
  split
  · next hle =>
    apply putBack_spec
    · intro n hn
      have hmem := (PtRange.mem_new hle).mp hn
      exact hu n hmem.1 hmem.2
    · unfold len64 PtRange.len PtRange.new u64
      simp only [max_eq_right hle]
      omega
  · rfl

theorem unprocAppend_spec {lo hi : Nat} (hle : lo ≤ hi)
    (hb : ∀ n, lo ≤ n → n ≤ hi → n ∉ q.borrowed) :
    q.unprocAppend lo hi =
      { q with unprocessed := q.unprocessed.merge (PtRange.new lo hi) } := by
  unfold FetchSync.unprocAppend
  have hcov : q.borrowed.covered lo hi = 0 := covered_eq_zero hb hle
  rw [if_pos hle, hcov, if_neg (by decide)]

theorem unprocAppend_asked (q : FetchSync Item) (lo hi : Nat) :
    (q.unprocAppend lo hi).asked = q.asked := by
  unfold FetchSync.unprocAppend
  split
  · split
    · rfl
    · rfl
  · rfl

theorem unprocAppend_staged (q : FetchSync Item) (lo hi : Nat) :
    (q.unprocAppend lo hi).staged = q.staged := by
  unfold FetchSync.unprocAppend
  split
  · split
    · rfl
    · rfl
  · rfl

/-! ## The staged queue -/

theorem stagedQueueInsert_spec {key : Nat} {item : Item} (h : q.staged.lookup key = none) :
    q.stagedQueueInsert key item = .ok { q with staged := q.staged.insert key item } := by
  unfold FetchSync.stagedQueueInsert
  rw [h]

end

/-! ## Headers, from the top down -/

section
variable {q : HeaderFetchSync}

theorem len_lt {iv : PtRange} (hlo : 1 ≤ iv.minPt) (hhi : iv.maxPt < 2 ^ 64) : iv.len < 2 ^ 64 := by
  unfold PtRange.len
  omega

/-- Headers are fetched for the upper part of the highest range. -/
theorem HeaderFetchSync.unprocFetch_spec (maxLen : Nat) (hroom : Roomy q.unprocessed)
    (hdis : ∀ n ∈ q.unprocessed, n ∉ q.borrowed) :
    (q.unprocFetch maxLen = .ok none ∧ ∀ n, n ∉ q.unprocessed) ∨
      ∃ iv, (∀ n ∈ iv, n ∈ q.unprocessed) ∧ q.unprocessed.le.map (·.maxPt) = some iv.maxPt ∧
        q.unprocFetch maxLen = .ok (some (iv, lend q iv)) := by
  unfold HeaderFetchSync.unprocFetch
  cases hle : q.unprocessed.le with
  | none => exact .inl ⟨rfl, le_eq_none_iff.mp hle⟩
  | some jv =>
    right
    have hmem : ∀ n ∈ jv, n ∈ q.unprocessed := fun n hn => mem_of_le hle hn
    have hmin := hroom _ (hmem _ jv.minPt_mem)
    have hmax := hroom _ (hmem _ jv.maxPt_mem)
    have hlen : len64 jv = jv.len := u64_of_lt (len_lt hmin.1 hmax.2)
    have hpos := jv.len_pos
    dsimp only
    generalize hiv : (if maxLen = 0 ∨ 0 < len64 jv ∧ len64 jv ≤ maxLen then jv
      else PtRange.new (u64 (jv.maxPt + 2 ^ 64 - maxLen + 1)) jv.maxPt) = iv
    -- what is curbed is the lower end
    have hsub : jv.minPt ≤ iv.minPt ∧ iv.maxPt = jv.maxPt := by
      split at hiv
      · subst hiv
        exact ⟨le_refl _, rfl⟩
      · next hcurb =>
        have hshort : maxLen < jv.len ∧ 0 < maxLen := by omega
        unfold PtRange.len at hshort
        have hlow : u64 (jv.maxPt + 2 ^ 64 - maxLen + 1) = jv.maxPt - maxLen + 1 := by
          unfold u64
          omega
        subst hiv
        unfold PtRange.new
        simp only
        omega
    have hin : ∀ n ∈ iv, n ∈ jv := by
      intro n hn
      exact ⟨hsub.1.trans hn.1, hsub.2 ▸ hn.2⟩
    refine ⟨iv, fun n hn => hmem n (hin n hn), congrArg some hsub.2.symm, ?_⟩
    rw [borrow_spec fun n hn => hdis n (hmem n (hin n hn))]

theorem HeaderFetchSync.unprocAvailTop_none (h : ∀ n, n ∉ q.unprocessed) :
    q.unprocAvailTop = 0 := by
  unfold HeaderFetchSync.unprocAvailTop
  rw [le_eq_none_iff.mpr h]
  rfl

theorem HeaderFetchSync.unprocAvailTop_spec {n : Nat} (h : n ∈ q.unprocessed) :
    q.unprocAvailTop ∈ q.unprocessed ∧ n ≤ q.unprocAvailTop := by
  unfold HeaderFetchSync.unprocAvailTop
  cases hle : q.unprocessed.le with
  | none => exact absurd h (le_eq_none_iff.mp hle n)
  | some iv => exact ⟨mem_of_le hle iv.maxPt_mem, le_ge_of_mem hle h⟩

theorem HeaderFetchSync.le_unprocTotalTop {n : Nat} (h : n ∈ q.unprocessed ∨ n ∈ q.borrowed) :
    n ≤ q.unprocTotalTop := by
  cases h with
  | inl h => exact (HeaderFetchSync.unprocAvailTop_spec h).2.trans (le_max_left _ _)
  | inr h =>
    apply le_max_of_le_right
    cases hle : q.borrowed.le with
    | none => exact absurd h (le_eq_none_iff.mp hle n)
    | some iv => exact le_ge_of_mem hle h

theorem HeaderFetchSync.unprocTotalTop_mem (h : q.unprocTotalTop ≠ 0) :
    q.unprocTotalTop ∈ q.unprocessed ∨ q.unprocTotalTop ∈ q.borrowed := by
  unfold HeaderFetchSync.unprocTotalTop HeaderFetchSync.unprocAvailTop at h ⊢
  cases hu : q.unprocessed.le with
  | none =>
    cases hb : q.borrowed.le with
    | none => simp [hu, hb] at h
    | some bv =>
      right
      simpa using mem_of_le hb bv.maxPt_mem
  | some uv =>
    have huv := mem_of_le hu uv.maxPt_mem
    cases hb : q.borrowed.le with
    | none =>
      left
      simpa using huv
    | some bv =>
      have hbv := mem_of_le hb bv.maxPt_mem
      by_cases hle : uv.maxPt ≤ bv.maxPt
      · right
        simpa [max_eq_right hle] using hbv
      · left
        simpa [max_eq_left (not_le.mp hle).le] using huv

/-- The item that is taken off the queue is the one with the largest key. -/
theorem stagedTop_some {q : HeaderFetchSync} {key : Nat} {item : HeaderChain}
    (h : q.stagedTop = some (key, item)) :
    q.staged.lookup key = some item ∧
      ∀ k item', q.staged.lookup k = some item' → k ≤ key := by
  obtain ⟨e, he, heq⟩ := Option.map_eq_some_iff.mp h
  obtain ⟨rfl, rfl⟩ := Prod.mk.inj heq
  constructor
  · exact AList.mem_lookup_iff.mpr (List.maxOn?_mem he)
  · intro k item' hk
    have hmem := AList.mem_lookup_iff.mp hk
    have hle := List.le_apply_get_maxOn?_of_mem (f := fun e : Sigma fun _ : Nat => HeaderChain => e.1) hmem
    simpa [he] using hle

end

/-! ## Blocks, from the bottom up -/

section
variable {q : BlocksFetchSync}

/-- Blocks are fetched for the lower part of the least range. -/
theorem BlocksFetchSync.unprocFetch_spec (maxLen : Nat) (hroom : Roomy q.unprocessed)
    (hdis : ∀ n ∈ q.unprocessed, n ∉ q.borrowed) :
    (q.unprocFetch maxLen = .ok none ∧ ∀ n, n ∉ q.unprocessed) ∨
      ∃ iv, (∀ n ∈ iv, n ∈ q.unprocessed) ∧ q.unprocessed.ge.map (·.minPt) = some iv.minPt ∧
        q.unprocFetch maxLen = .ok (some (iv, lend q iv)) := by
  unfold BlocksFetchSync.unprocFetch
  cases hge : q.unprocessed.ge with
  | none => exact .inl ⟨rfl, ge_eq_none_iff.mp hge⟩
  | some jv =>
    right
    have hmem : ∀ n ∈ jv, n ∈ q.unprocessed := fun n hn => mem_of_ge hge hn
    have hmin := hroom _ (hmem _ jv.minPt_mem)
    have hmax := hroom _ (hmem _ jv.maxPt_mem)
    have hlen : len64 jv = jv.len := u64_of_lt (len_lt hmin.1 hmax.2)
    have hpos := jv.len_pos
    dsimp only
    generalize hiv : (if maxLen = 0 ∨ 0 < len64 jv ∧ len64 jv ≤ maxLen then jv
      else PtRange.new jv.minPt (u64 (jv.minPt + maxLen + (2 ^ 64 - 1)))) = iv
    -- what is curbed is the upper end
    have hsub : iv.minPt = jv.minPt ∧ iv.maxPt ≤ jv.maxPt := by
      split at hiv
      · subst hiv
        exact ⟨rfl, le_refl _⟩
      · next hcurb =>
        have hshort : maxLen < jv.len ∧ 0 < maxLen := by omega
        unfold PtRange.len at hshort
        have hhigh : u64 (jv.minPt + maxLen + (2 ^ 64 - 1)) = jv.minPt + maxLen - 1 := by
          unfold u64
          omega
        subst hiv
        exact ⟨rfl, max_le jv.min_le (by omega)⟩
    have hin : ∀ n ∈ iv, n ∈ jv := by
      intro n hn
      exact ⟨hsub.1 ▸ hn.1, hn.2.trans hsub.2⟩
    refine ⟨iv, fun n hn => hmem n (hin n hn), congrArg some hsub.1.symm, ?_⟩
    rw [borrow_spec fun n hn => hdis n (hmem n (hin n hn))]

theorem BlocksFetchSync.unprocAvailBottom_spec {n : Nat} (h : n ∈ q.unprocessed) :
    q.unprocAvailBottom ∈ q.unprocessed ∧ q.unprocAvailBottom ≤ n := by
  unfold BlocksFetchSync.unprocAvailBottom
  cases hge : q.unprocessed.ge with
  | none => exact absurd h (ge_eq_none_iff.mp hge n)
  | some iv => exact ⟨mem_of_ge hge iv.minPt_mem, ge_le_of_mem hge h⟩

theorem BlocksFetchSync.unprocAvailBottom_none (h : ∀ n, n ∉ q.unprocessed) :
    q.unprocAvailBottom = 2 ^ 64 - 1 := by
  unfold BlocksFetchSync.unprocAvailBottom
  rw [ge_eq_none_iff.mpr h]
  rfl

/-- The item that is taken off the queue is the one with the least key. -/
theorem stagedBottom_some {q : BlocksFetchSync} {key : Nat} {item : BlocksForImport}
    (h : q.stagedBottom = some (key, item)) :
    q.staged.lookup key = some item ∧
      ∀ k item', q.staged.lookup k = some item' → key ≤ k := by
  obtain ⟨e, he, heq⟩ := Option.map_eq_some_iff.mp h
  obtain ⟨rfl, rfl⟩ := Prod.mk.inj heq
  constructor
  · exact AList.mem_lookup_iff.mpr (List.minOn?_mem he)
  · intro k item' hk
    have hmem := AList.mem_lookup_iff.mp hk
    have hle := List.apply_get_minOn?_le_of_mem (f := fun e : Sigma fun _ : Nat => BlocksForImport => e.1) hmem
    simpa [he] using hle

end

end Nimbus.Spec.Beacon
