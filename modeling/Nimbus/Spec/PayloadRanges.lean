import Mathlib.Data.List.Sort
import Nimbus.Spec.LogRuns

/-!
# Payload bodies by range

The list for a range is put together from the store, up to base, and from the blocks of the
tree. The block of base is in both, and a block of the tree that cannot be read leaves no
entry. The store may have lost any of its records.
-/

namespace Nimbus.Spec.ForkedChain

open Nimbus.Native.ForkedChain
open Nimbus.Native.ForkedChain.LookupNode (RangeError maxBodyRequest)
open ParentTree

/-! ## What a list has to be -/

/-- The store leads to the header and the transactions of a block. -/
structure Readable (t : LookupNode) (hd : Header) : Prop where
  canonical : hd.number ≤ t.chain.number t.chain.base →
    t.chain.canonical hd.number = some (t.chain.com.computeBlockHash hd)
  header : t.db.header (t.chain.com.computeBlockHash hd) = true
  transactions : TransactionsReadable t hd

/-- What stands for a number: the body of the block with this number on the lineage of
`latest`, or nothing, if the body is not available. -/
structure Entry {β : Type} (t : LookupNode) (isBody : Header → β → Prop)
    (available : Header → Prop) (n : Nat) (o : Option β) : Prop where
  body : ∀ p, o = some p → ∃ hd, AncestorAt t n hd ∧ isBody hd p
  none : o = none → ∀ hd, AncestorAt t n hd → ¬ available hd

def EntryV1 (t : LookupNode) : Nat → Option ExecutionPayloadBodyV1 → Prop :=
  Entry t (fun hd p => p = toPayloadBodyV1 (bodyOf t.contents hd))
    fun hd => Readable t hd ∧ WithdrawalsReadable t hd

/-- The access list on disk. A header from before access lists may come without. -/
def IsBodyV2 (t : LookupNode) (hd : Header) (p : ExecutionPayloadBodyV2) : Prop :=
  ∃ bal, p = toPayloadBodyV2 (bodyOf t.contents hd) bal ∧
    (bal = t.accessLists (t.chain.com.computeBlockHash hd) ∨
      bal = none ∧ hd.blockAccessListHash = none)

def EntryV2 (t : LookupNode) (decodes : BlockAccessList → Bool) :
    Nat → Option ExecutionPayloadBodyV2 → Prop :=
  Entry t (IsBodyV2 t) fun hd => Readable t hd ∧ WithdrawalsReadable t hd ∧
    (t.accessLists (t.chain.com.computeBlockHash hd)).all decodes = true

/-- The answer is a list with one entry for each number, in order. -/
def Covered {β : Type} (t : LookupNode) (entry : Nat → Option β → Prop) (start count : Nat)
    (answer : Except RangeError (List (Option β))) : Prop :=
  ∃ list, answer = .ok list ∧ List.Forall₂ entry
    (List.range' start (min count (t.chain.number t.chain.latest + 1 - start))) list

/-- When the two parts fit together: the blocks read from the tree can all be read, except
for the block of base where the store has answered for it already. -/
structure RangeOk (t : LookupNode) (reads : BlockRef → Prop) (start count : Nat) : Prop where
  noWrap : start + count ≤ 2 ^ 64
  memory : ∀ b, Anc t.chain.parent t.chain.latest b →
    start ≤ t.chain.number b → t.chain.number b < start + count →
    (start < t.chain.number t.chain.base → t.chain.number t.chain.base < t.chain.number b) →
    reads b
  base : start < t.chain.number t.chain.base →
    t.chain.number t.chain.base + 1 < start + count →
    t.chain.number t.chain.base < t.chain.number t.chain.latest →
    t.getEthBlock (t.chain.hash t.chain.base) = none
  withdrawals : ∀ n hd, start ≤ n → n < start + count → AncestorAt t n hd → Readable t hd →
    WithdrawalsReadable t hd

def Reads (t : LookupNode) (b : BlockRef) : Prop :=
  (t.getEthBlock (t.chain.hash b)).isSome = true

def ReadsV2 (t : LookupNode) (decodes : BlockAccessList → Bool) (b : BlockRef) : Prop :=
  Reads t b ∧ (t.accessLists (t.chain.hash b)).all decodes = true

/-! ## The blocks of the tree -/

theorem Linked.map_number_chain {c : ForkedChainRef} (hl : Linked c) {fuel it : Nat}
    (hit : InTree c it) (hfuel : it < fuel) :
    (chain c.parent fuel (some it)).map c.number =
      (List.range' (c.number c.base) (c.number it + 1 - c.number c.base)).reverse := by
  induction fuel generalizing it with
  | zero => omega
  | succ fuel ih =>
    rw [chain, List.map_cons]
    by_cases hbase : it = c.base
    · have hone : c.number c.base + 1 - c.number c.base = 1 := by omega
      rw [hbase, hl.base_parent, hone]
      cases fuel <;> rfl
    · obtain ⟨p, hp, hpt, hnum, -⟩ := hl.link hit hbase
      have hlt := hl.parent_lt _ _ hp
      have hle := hl.number_base_le hpt
      have hlen : c.number it + 1 - c.number c.base =
          (c.number p + 1 - c.number c.base) + 1 := by omega
      rw [hp, ih hpt (by omega), hlen, List.range'_1_concat, List.reverse_append]
      have hlast : c.number c.base + (c.number p + 1 - c.number c.base) = c.number it := by omega
      rw [hlast]
      rfl

theorem filter_range' {a k first last : Nat} (hfirst : a ≤ first) (hlast : last < a + k) :
    (List.range' a k).filter (fun n => n ≥ first ∧ n ≤ last) =
      List.range' first (last + 1 - first) := by
  have hsorted := (List.pairwise_lt_range' (s := a) (n := k)).filter
    fun n => n ≥ first ∧ n ≤ last
  apply hsorted.eq_of_mem_iff List.pairwise_lt_range'
  intro n
  simp only [List.mem_filter, List.mem_range'_1, decide_eq_true_eq]
  omega

theorem Linked.map_number_blocksInMemory {t : LookupNode} (hl : Linked t.chain)
    (hlatest : InTree t.chain t.chain.latest) {first last : Nat}
    (hfirst : t.chain.number t.chain.base ≤ first) (hlast : last ≤ t.chain.number t.chain.latest) :
    (t.blocksInMemory first last).map t.chain.number =
      List.range' first (last + 1 - first) := by
  have hdown := hl.map_number_chain hlatest (hl.lt_next hlatest)
  unfold LookupNode.blocksInMemory
  rw [List.map_reverse, ← filter_range' hfirst (k := t.chain.number t.chain.latest + 1 -
    t.chain.number t.chain.base) (by omega), ← List.reverse_reverse (List.range' _ _), ← hdown,
    List.filter_reverse, List.filter_map]
  rfl

theorem anc_of_mem_blocksInMemory {t : LookupNode} (hl : Linked t.chain)
    (hlatest : InTree t.chain t.chain.latest) {first last : Nat} {b : BlockRef}
    (hb : b ∈ t.blocksInMemory first last) : Anc t.chain.parent t.chain.latest b :=
  (hl.mem_ancestors hlatest).mp (List.mem_filter.mp (List.mem_reverse.mp hb)).1

/-! ## The two parts -/

section

variable {n₀ : Nat} {s : LookupNode} {db : BlockDb} {hd : Header} {β : Type}

/-- A number up to base is looked up in the store. -/
theorem Filed.entry_stored (hf : Filed n₀ s) {isBody : Header → β → Prop}
    {available : Header → Prop} {read : Header → Option β} {n : Nat}
    (hn : n ≤ s.chain.number s.chain.base)
    (havailable : ∀ hd, available hd → Readable (onStore s db) hd)
    (hread : ∀ hd, AncestorAt s n hd →
      (TransactionsReadable (onStore s db) hd → Readable (onStore s db) hd) →
      (∀ p, read hd = some p → isBody hd p) ∧ (read hd = none → ¬ available hd)) :
    Entry (onStore s db) isBody available n
      ((onStore s db).getBlockHeaderByNumber n >>= read) := by
  constructor
  · intro p hp
    obtain ⟨hd, hget, hbody⟩ := Option.bind_eq_some_iff.mp hp
    obtain ⟨rfl, hcan, hheader⟩ := (hf.getBlockHeaderByNumber_iff hn).mp hget
    have hat := hf.ancestorAt_of_canonical hn rfl hcan
    exact ⟨hd, hat, (hread hd hat fun ht => ⟨fun _ => hcan, hheader, ht⟩).1 p hbody⟩
  · intro ho hd hat hav
    have hr := havailable hd hav
    obtain rfl := hat.2
    have hget : (onStore s db).getBlockHeaderByNumber hd.number = some hd :=
      (hf.getBlockHeaderByNumber_iff hn).mpr ⟨rfl, hr.canonical hn, hr.header⟩
    rw [hget] at ho
    exact (hread hd hat fun _ => hr).2 ho hav

theorem getExecutionPayloadBodyV1_none {t : LookupNode} (ht : ¬ TransactionsReadable t hd) :
    t.getExecutionPayloadBodyV1 hd = none := by
  unfold LookupNode.getExecutionPayloadBodyV1
  cases hget : t.getTransactions hd.txRoot with
  | none => rfl
  | some transactions => exact absurd (getTransactions_iff.mp hget).1 ht

theorem Filed.entryV1_stored (hf : Filed n₀ s) {n : Nat} (hn : n ≤ s.chain.number s.chain.base)
    (hw : ∀ hd, AncestorAt s n hd → Readable (onStore s db) hd →
      WithdrawalsReadable (onStore s db) hd) :
    EntryV1 (onStore s db) n ((onStore s db).payloadBodyV1ByNumber n) := by
  have hle := Nat.le_trans hn (hf.inv.linked.number_base_le hf.inTree_latest)
  have heq : (onStore s db).payloadBodyV1ByNumber n =
      (onStore s db).getBlockHeaderByNumber n >>= (onStore s db).getExecutionPayloadBodyV1 :=
    (if_neg (Nat.not_lt.mpr hle)).trans (if_pos hn)
  rw [heq]
  refine hf.entry_stored hn (fun _ h => h.1) fun hd hat hr => ?_
  by_cases ht : TransactionsReadable (onStore s db) hd
  · rw [getExecutionPayloadBodyV1_of_readable ht (hw hd hat (hr ht))]
    exact ⟨fun p hp => (Option.some.inj hp).symm, fun h => (by cases h)⟩
  · rw [getExecutionPayloadBodyV1_none ht]
    exact ⟨fun p hp => (by cases hp), fun _ hav => ht hav.1.transactions⟩

theorem Filed.entryV2_stored (hf : Filed n₀ s) {n : Nat} (hn : n ≤ s.chain.number s.chain.base)
    {decodes : BlockAccessList → Bool} (hw : ∀ hd, AncestorAt s n hd →
      Readable (onStore s db) hd → WithdrawalsReadable (onStore s db) hd) :
    EntryV2 (onStore s db) decodes n (((onStore s db).payloadBodyV2ByNumber n).filter
      fun body => body.blockAccessList.all decodes) := by
  have hle := Nat.le_trans hn (hf.inv.linked.number_base_le hf.inTree_latest)
  have heq : (onStore s db).payloadBodyV2ByNumber n =
      (onStore s db).getBlockHeaderByNumber n >>= (onStore s db).getExecutionPayloadBodyV2 :=
    (if_neg (Nat.not_lt.mpr hle)).trans (if_pos hn)
  have hfilter : (((onStore s db).payloadBodyV2ByNumber n).filter
        fun body => body.blockAccessList.all decodes) =
      (onStore s db).getBlockHeaderByNumber n >>= fun hd =>
        ((onStore s db).getExecutionPayloadBodyV2 hd).filter
          fun body => body.blockAccessList.all decodes := by
    rw [heq]
    cases (onStore s db).getBlockHeaderByNumber n <;> rfl
  rw [hfilter]
  refine hf.entry_stored hn (fun _ h => h.1) fun hd hat hr => ?_
  unfold LookupNode.getExecutionPayloadBodyV2
  by_cases ht : TransactionsReadable (onStore s db) hd
  · rw [getExecutionPayloadBodyV1_of_readable ht (hw hd hat (hr ht))]
    generalize hbal : (if hd.blockAccessListHash.isSome then
      (onStore s db).accessLists ((onStore s db).chain.com.computeBlockHash hd) else none) = bal
    have hbal' : bal = s.accessLists (s.chain.com.computeBlockHash hd) ∨
        bal = none ∧ hd.blockAccessListHash = none := by
      cases hhash : hd.blockAccessListHash with
      | none => exact .inr ⟨by rw [← hbal, hhash]; rfl, rfl⟩
      | some hash => exact .inl (by rw [← hbal, hhash]; rfl)
    refine ⟨fun p hp => ⟨bal, ?_, hbal'⟩, fun hnone hav => ?_⟩
    · have hval := (Option.filter_eq_some_iff.mp hp).1
      exact (Option.some.inj hval).symm
    · have hno : ¬ bal.all decodes = true := Option.filter_eq_none_iff.mp hnone _ rfl
      rcases hbal' with rfl | ⟨rfl, -⟩
      · exact hno hav.2.2
      · exact hno rfl
  · rw [getExecutionPayloadBodyV1_none ht]
    exact ⟨fun p hp => (by cases hp), fun _ hav => ht hav.1.transactions⟩

theorem addBodies_covered {t : LookupNode} {entry : Nat → Option β → Prop}
    {toPayloadBody : BlockRef → BlockBody → Except RangeError β} {ys : List BlockRef}
    (h : ∀ y ∈ ys, ∃ blk p, t.getEthBlock (t.chain.hash y) = some blk ∧
      toPayloadBody y blk.2 = .ok p ∧ entry (t.chain.number y) (some p)) :
    ∃ list, t.addBodies toPayloadBody ys = .ok list ∧
      List.Forall₂ entry (ys.map t.chain.number) list := by
  induction ys with
  | nil => exact ⟨[], rfl, .nil⟩
  | cons y ys ih =>
    obtain ⟨blk, p, hblk, hp, hentry⟩ := h y List.mem_cons_self
    obtain ⟨list, hlist, hall⟩ := ih fun z hz => h z (List.mem_cons_of_mem y hz)
    refine ⟨some p :: list, ?_, .cons hentry hall⟩
    rw [LookupNode.addBodies, hblk]
    simp only [hp, hlist]
    rfl

/-- Both parts together have one entry for each number of the range. -/
theorem range_covered {t : LookupNode} (hl : Linked t.chain)
    (hlatest : InTree t.chain t.chain.latest) {entry : Nat → Option β → Prop}
    {byNumber : Nat → Option β} {toPayloadBody : BlockRef → BlockBody → Except RangeError β}
    {reads : BlockRef → Prop} {start count : Nat} (hstart : start ≠ 0) (hcount : count ≠ 0)
    (hmax : count ≤ maxBodyRequest) (hok : RangeOk t reads start count)
    (hstored : ∀ n, start ≤ n → n < start + count → n ≤ t.chain.number t.chain.base →
      entry n (byNumber n))
    (hmemory : ∀ b, Anc t.chain.parent t.chain.latest b → start ≤ t.chain.number b →
      t.chain.number b < start + count → reads b →
      ∃ blk p, t.getEthBlock (t.chain.hash b) = some blk ∧
        toPayloadBody b blk.2 = .ok p ∧ entry (t.chain.number b) (some p)) :
    Covered t entry start count
      (t.getPayloadBodiesByRange byNumber toPayloadBody start count) := by
  have hwrap := hok.noWrap
  unfold LookupNode.getPayloadBodiesByRange Covered
  rw [if_neg hstart, if_neg hcount, if_neg (Nat.not_lt.mpr hmax), Nat.mod_eq_of_lt (by omega)]
  generalize hlast : min (start + count - 1) (t.chain.number t.chain.latest) = last
  have hlen : min count (t.chain.number t.chain.latest + 1 - start) = last + 1 - start := by omega
  rw [hlen]
  by_cases hgt : start > t.chain.number t.chain.latest
  · have hzero : last + 1 - start = 0 := by omega
    rw [if_pos hgt, hzero]
    exact ⟨[], rfl, .nil⟩
  rw [if_neg hgt]
  -- the blocks of the tree from a number on
  have hpart : ∀ (ys : List BlockRef) (first : Nat), start ≤ first →
      (start < t.chain.number t.chain.base → t.chain.number t.chain.base < first) →
      (∀ y ∈ ys, Anc t.chain.parent t.chain.latest y) →
      ys.map t.chain.number = List.range' first (last + 1 - first) →
      ∃ list, t.addBodies toPayloadBody ys = .ok list ∧
        List.Forall₂ entry (List.range' first (last + 1 - first)) list := by
    intro ys first hfirst habove hanc hnumbers
    rw [← hnumbers]
    apply addBodies_covered
    intro y hy
    have hin := List.mem_map_of_mem (f := t.chain.number) hy
    rw [hnumbers, List.mem_range'_1] at hin
    exact hmemory y (hanc y hy) (by omega) (by omega)
      (hok.memory y (hanc y hy) (by omega) (by omega) (by omega))
  by_cases hlt : start < t.chain.number t.chain.base
  · rw [if_pos hlt]
    have hleft : List.Forall₂ entry
        (List.range' start (min last (t.chain.number t.chain.base) + 1 - start))
        ((List.range' start (min last (t.chain.number t.chain.base) + 1 - start)).map
          byNumber) := by
      rw [List.forall₂_map_right_iff, List.forall₂_same]
      intro n hn
      rw [List.mem_range'_1] at hn
      exact hstored n (by omega) (by omega) (by omega)
    by_cases hover : last > t.chain.number t.chain.base
    · -- the block of base comes first in memory, and is passed over there
      have hlatest' : last ≤ t.chain.number t.chain.latest := by omega
      have hnumbers := hl.map_number_blocksInMemory hlatest (Nat.le_refl _) hlatest'
      have hanc := fun y => @anc_of_mem_blocksInMemory t hl hlatest
        (t.chain.number t.chain.base) last y
      rw [Nat.sub_add_comm (Nat.le_of_lt hover)] at hnumbers
      obtain ⟨y, rest, hys, hy, hrest⟩ := List.map_eq_cons_iff.mp hnumbers
      rw [hys] at hanc
      have hyb : y = t.chain.base := hl.eq_base_of_number
        (hl.inTree_anc hlatest (hanc y List.mem_cons_self)) (Nat.le_of_eq hy)
      obtain ⟨list, hlist, hright⟩ := hpart rest (t.chain.number t.chain.base + 1) (by omega)
        (fun _ => Nat.lt_succ_self _) (fun z hz => hanc z (List.mem_cons_of_mem y hz))
        (by rw [hrest]; congr 1; omega)
      simp only [if_pos hover, hys, LookupNode.addBodies, hyb,
        hok.base hlt (by omega) (by omega), hlist]
      have hmin : min last (t.chain.number t.chain.base) = t.chain.number t.chain.base := by omega
      have hsplit := List.range'_append_1 (s := start) (m := t.chain.number t.chain.base + 1 - start)
        (n := last + 1 - (t.chain.number t.chain.base + 1))
      have hend : start + (t.chain.number t.chain.base + 1 - start) =
          t.chain.number t.chain.base + 1 := by omega
      have hall : t.chain.number t.chain.base + 1 - start +
          (last + 1 - (t.chain.number t.chain.base + 1)) = last + 1 - start := by omega
      rw [hend, hall] at hsplit
      rw [hmin] at hleft ⊢
      rw [← hsplit]
      exact ⟨_, rfl, List.rel_append hleft hright⟩
    · simp only [if_neg hover]
      have hmin : min last (t.chain.number t.chain.base) = last := by omega
      rw [hmin] at hleft ⊢
      exact ⟨_, rfl, hleft⟩
  · rw [if_neg hlt]
    exact hpart _ start (Nat.le_refl _) (fun h => absurd h hlt)
      (fun y hy => anc_of_mem_blocksInMemory hl hlatest hy)
      (hl.map_number_blocksInMemory hlatest (by omega) (by omega))

/-- What is read of a block of the tree is its body. -/
theorem Filed.getEthBlock_read (hf : Filed n₀ s) {b : BlockRef}
    (hanc : Anc s.chain.parent s.chain.latest b)
    (hw : Readable (onStore s db) (s.header b) → WithdrawalsReadable (onStore s db) (s.header b))
    {blk : Header × BlockBody} (h : (onStore s db).getEthBlock (s.chain.hash b) = some blk) :
    blk.2.transactions = (bodyOf s.contents (s.header b)).transactions ∧
      blk.2.withdrawals = (bodyOf s.contents (s.header b)).withdrawals := by
  have hl := hf.inv.linked
  have hb := hl.inTree_anc hf.inTree_latest hanc
  have hhash : s.chain.com.computeBlockHash (s.header b) = s.chain.hash b := (hl.hash_eq hb).symm
  obtain ⟨hd, hhd, body, hbody, hblk⟩ : ∃ hd, (onStore s db).getBlockHeader (s.chain.hash b) =
      some hd ∧ ∃ body, (onStore s db).getBlockBody hd = some body ∧ (hd, body) = blk := by
    simpa [LookupNode.getEthBlock, Option.bind_eq_some_iff] using h
  obtain ⟨hheader, heq⟩ := Option.ite_none_right_eq_some.mp hhd
  have hrecord : s.contents.header (s.chain.hash b) = s.header b := by
    rw [← hhash, hf.law]
  obtain rfl : s.header b = hd := hrecord.symm.trans (Option.some.inj heq)
  obtain ⟨transactions, htx, hbody⟩ := Option.bind_eq_some_iff.mp hbody
  obtain ⟨ht, rfl⟩ := getTransactions_iff.mp htx
  obtain rfl := Option.some.inj hbody
  subst hblk
  refine ⟨rfl, (hw ⟨fun hle => ?_, ?_, ht⟩).map_eq⟩
  · obtain rfl := hl.eq_base_of_number hb hle
    exact hf.inv.saved.trans (congrArg some hhash.symm)
  · exact (congrArg db.header hhash).trans hheader

/-- The answers to both requests, as long as the two parts fit together. -/
def RangeAnswers (t : LookupNode) : Prop :=
  ∀ start count, start ≠ 0 → count ≠ 0 → count ≤ maxBodyRequest →
    (RangeOk t (Reads t) start count →
      Covered t (EntryV1 t) start count (t.getPayloadBodiesByRangeV1 start count)) ∧
    ∀ decodes, RangeOk t (ReadsV2 t decodes) start count →
      Covered t (EntryV2 t decodes) start count (t.getPayloadBodiesByRangeV2 decodes start count)

theorem Filed.rangeAnswers (hf : Filed n₀ s) (db : BlockDb) : RangeAnswers (onStore s db) := by
  have hl : Linked (onStore s db).chain := hf.inv.linked
  intro start count hstart hcount hmax
  constructor
  · intro hok
    refine range_covered hl hf.inTree_latest hstart hcount hmax hok
      (fun n hlo hhi hn => hf.entryV1_stored hn fun hd => hok.withdrawals n hd hlo hhi) ?_
    intro b hanc hlo hhi hread
    obtain ⟨blk, hblk⟩ := Option.isSome_iff_exists.mp hread
    have hat := hf.ancestorAt_of_anc hanc
    obtain ⟨htx, hwd⟩ := hf.getEthBlock_read hanc (hok.withdrawals _ _ hlo hhi hat) hblk
    refine ⟨blk, _, hblk, rfl, fun p hp => ⟨_, hat, ?_⟩, fun h => by cases h⟩
    rw [← Option.some.inj hp, toPayloadBodyV1, htx, hwd]
    rfl
  · intro decodes hok
    refine range_covered hl hf.inTree_latest hstart hcount hmax hok
      (fun n hlo hhi hn => hf.entryV2_stored hn fun hd => hok.withdrawals n hd hlo hhi) ?_
    intro b hanc hlo hhi hread
    obtain ⟨blk, hblk⟩ := Option.isSome_iff_exists.mp hread.1
    have hat := hf.ancestorAt_of_anc hanc
    obtain ⟨htx, hwd⟩ := hf.getEthBlock_read hanc (hok.withdrawals _ _ hlo hhi hat) hblk
    refine ⟨blk, _, hblk, if_pos hread.2, fun p hp => ⟨_, hat, s.accessLists (s.chain.hash b), ?_,
      .inl ?_⟩, fun h => by cases h⟩
    · rw [← Option.some.inj hp, toPayloadBodyV2, htx, hwd]
      rfl
    · exact congrArg s.accessLists (hl.hash_eq (hl.inTree_anc hf.inTree_latest hanc))

end

/-! ## Runs -/

section

variable {com : CommonRef} {db : SavedState com}

end

/-! A store that has everything. -/

def wholeStore : BlockDb where
  bodies _ := { stored := true }
  header _ := true
  score _ := true
  startOfHistory := zeroHash32

theorem getEthBlock_wholeStore (s : LookupNode) (h : Hash32) :
    ∃ blk, (onStore s wholeStore).getEthBlock h = some blk := by
  have htx : (onStore s wholeStore).getTransactions (s.contents.header h).txRoot = some _ :=
    getTransactions_iff.mpr ⟨.inr rfl, rfl⟩
  have hheader : (onStore s wholeStore).getBlockHeader h = some (s.contents.header h) := rfl
  unfold LookupNode.getEthBlock LookupNode.getBlockBody
  rw [hheader]
  simp only [Option.bind_eq_bind, Option.bind_some, htx]
  exact ⟨_, rfl⟩

/-- The node starts on block 2. -/
def secondDb : SavedState pairCom where
  baseHeader := sampleHeader zeroHash32 2 0
  canonical n := if n = 2 then some (pairCom.computeBlockHash (sampleHeader zeroHash32 2 0))
    else none
  canonical_base := rfl

def secondSaved : SavedBlocks pairCom secondDb where
  blocks := { bodies := fun _ => {}, header := (· == secondDb.baseHash),
              score := (· == secondDb.baseHash), startOfHistory := zeroHash32 }
  header_base := beq_self_eq_true _
  score_base := beq_self_eq_true _
  bodies_base _ hk := nomatch hk

noncomputable def secondStart : LookupNode :=
  LookupNode.init secondSaved pairContents (fun _ => none) (fun _ => none) 3
    ⟨1, Nat.zero_lt_one⟩ false

def thirdImport : List (Env × Event) :=
  [(sampleEnv, .importBlock ⟨sampleHeader secondDb.baseHash 3 0⟩ false)]

end Nimbus.Spec.ForkedChain
