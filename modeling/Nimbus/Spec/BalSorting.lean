import Nimbus.Native.BalBuilder

/-!
# The sorts of the block access list builder

The radix sort puts the addresses in order, with either width of digits. The counting sort then
groups the entries by account, in slot order and in the order in which they were added.
-/

namespace Nimbus.Spec.BalBuilder

open Nimbus.Native
open Nimbus.Native.BalBuilder
open CountingSort
open Aristo (UInt256)
open Function

/-! ## The order of the addresses -/

/-- The bytes of an address from the digit `d` on. -/
def bytesFrom (bits : Nat) (d : Nat) (e : AccountOrder) : List UInt8 :=
  e.address.toList.drop (bits / 8 * d)

/-- The width of the digits is one of those that are used. -/
def IsWidth (bits : Nat) : Prop := bits = 8 ∨ bits = 16

section

variable {bits d : Nat} {a b : AccountOrder}

theorem digitOf_lt (hw : IsWidth bits) (e : AccountOrder) : digitOf bits e d < 2 ^ bits := by
  rcases hw with rfl | rfl
  · exact UInt8.toNat_lt _
  · refine Nat.or_lt_two_pow ?_ ?_
    · have h := UInt8.toNat_lt (e.address.toList.getD (2 * d) 0)
      omega
    · exact Nat.lt_of_lt_of_le (UInt8.toNat_lt _) (by decide)

theorem digitOf_wide (e : AccountOrder) : digitOf 16 e d =
    (e.address.toList.getD (2 * d) 0).toNat * 256 +
      (e.address.toList.getD (2 * d + 1) 0).toNat := by
  simp only [digitOf, Nat.reduceEqDiff, if_false]
  rw [← Nat.shiftLeft_add_eq_or_of_lt (UInt8.toNat_lt _), Nat.shiftLeft_eq]

theorem drop_eq_getD_cons {l : List UInt8} {i : Nat} (h : i < l.length) :
    l.drop i = l.getD i 0 :: l.drop (i + 1) := by
  rw [List.drop_eq_getElem_cons h, List.getD_eq_getElem?_getD, List.getElem?_eq_getElem h,
    Option.getD_some]

theorem bytesFrom_le (hw : IsWidth bits) (hd : d < 20 / (bits / 8))
    (h : digitOf bits a d < digitOf bits b d ∨
      digitOf bits a d = digitOf bits b d ∧ bytesFrom bits (d + 1) a ≤ bytesFrom bits (d + 1) b) :
    bytesFrom bits d a ≤ bytesFrom bits d b := by
  have ha : a.address.toList.length = 20 := a.address.length_toList
  have hb : b.address.toList.length = 20 := b.address.length_toList
  rcases hw with rfl | rfl
  · simp only [bytesFrom, digitOf, if_true, Nat.reduceDiv, Nat.one_mul] at h hd ⊢
    rw [drop_eq_getD_cons (l := a.address.toList) (by omega),
      drop_eq_getD_cons (l := b.address.toList) (by omega), List.cons_le_cons_iff]
    rw [← UInt8.toNat_inj]
    exact h
  · rw [digitOf_wide, digitOf_wide] at h
    simp only [bytesFrom, Nat.reduceDiv] at h hd ⊢
    have hsplit {l : List UInt8} (hl : l.length = 20) :
        l.drop (2 * d) = l.getD (2 * d) 0 :: l.getD (2 * d + 1) 0 :: l.drop (2 * d + 1 + 1) := by
      rw [drop_eq_getD_cons (by omega), drop_eq_getD_cons (i := 2 * d + 1) (by omega)]
    rw [hsplit ha, hsplit hb, List.cons_le_cons_iff, List.cons_le_cons_iff]
    have hx := UInt8.toNat_lt (a.address.toList.getD (2 * d + 1) 0)
    have hy := UInt8.toNat_lt (b.address.toList.getD (2 * d + 1) 0)
    rw [UInt8.lt_iff_toNat_lt, ← UInt8.toNat_inj, UInt8.lt_iff_toNat_lt, ← UInt8.toNat_inj]
    rcases h with hlt | ⟨heq, hrest⟩
    · omega
    · right
      refine ⟨by omega, .inr ⟨by omega, hrest⟩⟩

end

/-! ## The radix sort -/

section

variable {bits : Nat} {src dst : List AccountOrder}

/-- A pass sorts stably by one digit, also when it is left out. -/
theorem sortPass_spec {R : AccountOrder → AccountOrder → Prop} (hw : IsWidth bits) (d : Nat)
    (hlen : dst.length = src.length) (hR : src.Pairwise R) :
    (sortPass bits (src, dst) d).1.Perm src ∧
      (sortPass bits (src, dst) d).2.length = (sortPass bits (src, dst) d).1.length ∧
      (sortPass bits (src, dst) d).1.Pairwise fun a b =>
        digitOf bits a d < digitOf bits b d ∨ digitOf bits a d = digitOf bits b d ∧ R a b := by
  have hdigit : ∀ e ∈ src, digitOf bits e d < 2 ^ bits := fun e _ => digitOf_lt hw e
  simp only [sortPass]
  split
  · next hall =>
    refine ⟨List.Perm.refl _, hlen, ?_⟩
    rw [tally_eq] at hall
    cases hsrc : src with
    | nil => exact List.Pairwise.nil
    | cons e rest =>
      rw [← hsrc]
      rw [hsrc, List.head?_cons, Option.bind_some, List.getElem?_map, List.getElem?_range
        (digitOf_lt hw e), Option.map_some, Option.some_inj, ← hsrc] at hall
      -- every digit is the one of the first address
      have hsame : ∀ x ∈ src, digitOf bits x d = digitOf bits e d := fun x hx =>
        of_decide_eq_true (List.length_filter_eq_length_iff.mp hall x hx)
      refine hR.imp_of_mem ?_
      intro x y hx hy hxy
      exact .inr ⟨by rw [hsame x hx, hsame y hy], hxy⟩
  · rw [tally_eq, sumsBefore_lengths, scatter_eq _ hdigit hlen]
    have hperm := grouped_perm (digitOf bits · d) hdigit
    exact ⟨hperm, hperm.length_eq.symm, grouped_pairwise _ hR⟩

/-- The digits below `k` are left to sort by. -/
theorem sortPasses_spec (hw : IsWidth bits) {k : Nat} (hk : k ≤ 20 / (bits / 8))
    (hlen : dst.length = src.length)
    (hsorted : src.Pairwise fun a b => bytesFrom bits k a ≤ bytesFrom bits k b) :
    (((List.range k).reverse.foldl (sortPass bits) (src, dst)).1.Perm src) ∧
      ((List.range k).reverse.foldl (sortPass bits) (src, dst)).1.Pairwise fun a b =>
        a.address.toList ≤ b.address.toList := by
  induction k generalizing src dst with
  | zero =>
    refine ⟨List.Perm.refl _, ?_⟩
    simpa [bytesFrom] using hsorted
  | succ k ih =>
    obtain ⟨hperm, hlen', hpass⟩ := sortPass_spec hw k hlen hsorted
    rw [List.range_succ, List.reverse_append]
    obtain ⟨hperm', hsorted'⟩ := @ih (sortPass bits (src, dst) k).1
      (sortPass bits (src, dst) k).2 (by omega) hlen'
      (hpass.imp fun h => bytesFrom_le hw (by omega) h)
    exact ⟨hperm'.trans hperm, hsorted'⟩

theorem sortByDigits_spec (hw : IsWidth bits) (order : List AccountOrder) :
    (sortByDigits bits order).Perm order ∧
      (sortByDigits bits order).Pairwise fun a b => a.address.toList ≤ b.address.toList := by
  refine sortPasses_spec hw (Nat.le_refl _) (by simp) ?_
  -- nothing is left behind the last digit
  have hnil (e : AccountOrder) : bytesFrom bits (20 / (bits / 8)) e = [] := by
    refine List.drop_eq_nil_of_le ?_
    rw [e.address.length_toList]
    rcases hw with rfl | rfl <;> decide
  refine List.pairwise_of_forall fun a b => ?_
  rw [hnil, hnil]
  exact List.le_refl _

end

theorem sortByAddress_spec (order : List AccountOrder) :
    (sortByAddress order).Perm order ∧
      (sortByAddress order).Pairwise fun a b => a.address.toList ≤ b.address.toList := by
  unfold sortByAddress
  split
  · next h =>
    refine ⟨List.Perm.refl _, ?_⟩
    cases order with
    | nil => exact List.Pairwise.nil
    | cons e rest =>
      rw [List.length_cons] at h
      rw [List.length_eq_zero_iff.mp (by omega : rest.length = 0)]
      exact List.pairwise_singleton _ _
  · split
    · exact sortByDigits_spec (.inr rfl) order
    · exact sortByDigits_spec (.inl rfl) order

/-! ## Grouping -/

section

variable {α : Type} {acct : α → Nat} {l : List α} {n : Nat}

theorem runningSums_cons {total : Nat} {counts : List Nat} (x : Nat) :
    runningSums (total :: counts) = sumsBefore total (counts ++ [x]) := by
  induction counts generalizing total with
  | nil => simp [runningSums, sumsBefore]
  | cons c counts ih =>
    rw [runningSums, ih, List.cons_append, sumsBefore, Nat.add_comm c]

theorem offsets_eq : runningSums (tally (fun e => acct e + 1) (n + 1) l) =
      (List.range (n + 1)).map (start (group acct l)) := by
  have hgroup (b : Nat) : group (fun e => acct e + 1) l (b + 1) = group acct l b := by
    refine List.filter_congr fun e _ => ?_
    simp
  have hzero : group (fun e => acct e + 1) l 0 = [] := by
    simp [group]
  have hcounts : tally (fun e => acct e + 1) (n + 1) l =
      0 :: (List.range n).map fun b => (group acct l b).length := by
    rw [tally_eq, List.range_succ_eq_map, List.map_cons, hzero, List.map_map]
    refine congrArg _ (List.map_congr_left fun b _ => ?_)
    exact congrArg List.length (hgroup b)
  rw [hcounts, runningSums_cons (group acct l n).length, ← sumsBefore_lengths, List.range_succ,
    List.map_append, List.map_singleton]

theorem groupByAccount_eq [Inhabited α] (hl : ∀ e ∈ l, acct e < n) :
    groupByAccount acct l n =
      (grouped acct n l, (List.range (n + 1)).map (start (group acct l))) := by
  have hl' : ∀ e ∈ l, acct e < n + 1 := fun e he => Nat.lt_succ_of_lt (hl e he)
  have hlast : group acct l n = [] := by
    refine List.filter_eq_nil_iff.mpr fun e he => ?_
    have hlt := hl e he
    simp only [decide_eq_true_eq]
    omega
  simp only [groupByAccount]
  rw [offsets_eq, scatter_eq acct hl' (List.length_replicate ..), grouped, blocks_succ, hlast,
    List.append_nil]
  rfl

end

/-! ## Slots -/

section

variable {x y : UInt256}

theorem slotCmpFrom_eq {i : Nat} :
    slotCmpFrom x y i = compare (x.toNat % 2 ^ (64 * i)) (y.toNat % 2 ^ (64 * i)) := by
  induction i with
  | zero => simp [slotCmpFrom, Nat.mod_one]
  | succ i ih =>
    have hsplit (z : UInt256) : z.toNat % 2 ^ (64 * (i + 1)) =
        z.toNat % 2 ^ (64 * i) + 2 ^ (64 * i) * (limb z i).toNat := by
      rw [limb, BitVec.extractLsb'_toNat, Nat.shiftRight_eq_div_pow, Nat.mul_succ, Nat.pow_add,
        Nat.mod_mul]
    have hx : x.toNat % 2 ^ (64 * i) < 2 ^ (64 * i) := Nat.mod_lt _ (Nat.two_pow_pos _)
    have hy : y.toNat % 2 ^ (64 * i) < 2 ^ (64 * i) := Nat.mod_lt _ (Nat.two_pow_pos _)
    rw [slotCmpFrom, ih, hsplit x, hsplit y]
    generalize 2 ^ (64 * i) = m at hx hy
    -- the first limb that differs decides
    have hhigh {a b u v : Nat} (hab : a < b) (hu : u < m) : u + m * a < v + m * b := by
      have hmul := Nat.mul_le_mul_left m (Nat.succ_le_of_lt hab)
      rw [Nat.mul_succ] at hmul
      omega
    by_cases heq : limb x i = limb y i
    · rw [if_neg (not_not_intro heq), heq, Nat.compare_eq_ite_lt, Nat.compare_eq_ite_lt]
      simp only [Nat.add_lt_add_iff_right]
    · rw [if_pos heq]
      have hne : (limb x i).toNat ≠ (limb y i).toNat := fun h => heq (BitVec.eq_of_toNat_eq h)
      by_cases hlt : limb x i < limb y i
      · rw [if_pos hlt]
        exact (Nat.compare_eq_lt.mpr (hhigh (BitVec.lt_def.mp hlt) hx)).symm
      · rw [if_neg hlt]
        rw [BitVec.lt_def] at hlt
        exact (Nat.compare_eq_gt.mpr (hhigh (by omega) hy)).symm

theorem slotCmp_le : (slotCmp x y != .gt) = true ↔ x ≤ y := by
  rw [slotCmp, slotCmpFrom_eq, bne_iff_ne, BitVec.le_def]
  rw [Ne, Nat.compare_eq_gt]
  omega

end

section

variable {α : Type} {slotOf : α → UInt256}

/-- The comparison that the entries are sorted with. -/
def slotLe (slotOf : α → UInt256) (x y : α) : Bool := slotCmp (slotOf x) (slotOf y) != .gt

theorem slotLe_iff {x y : α} : slotLe slotOf x y = true ↔ slotOf x ≤ slotOf y := slotCmp_le

theorem slotLe_trans (x y z : α) (hxy : slotLe slotOf x y = true) (hyz : slotLe slotOf y z = true) :
    slotLe slotOf x z = true := by
  rw [slotLe_iff] at hxy hyz ⊢
  exact BitVec.le_trans hxy hyz

theorem slotLe_total (x y : α) : (slotLe slotOf x y || slotLe slotOf y x) = true := by
  rw [Bool.or_eq_true, slotLe_iff, slotLe_iff]
  exact BitVec.le_total _ _

/-- The entries in slot order. -/
def slotSorted (slotOf : α → UInt256) (l : List α) : List α := l.mergeSort (slotLe slotOf)

theorem slotSorted_perm (l : List α) : (slotSorted slotOf l).Perm l := List.mergeSort_perm _ _

theorem slotSorted_pairwise (slotOf : α → UInt256) (l : List α) :
    (slotSorted slotOf l).Pairwise fun x y => slotOf x ≤ slotOf y :=
  (List.pairwise_mergeSort slotLe_trans slotLe_total l).imp slotLe_iff.mp

theorem slotSorted_filter (l : List α) (slot : UInt256) :
    (slotSorted slotOf l).filter (fun e => slotOf e = slot) =
      l.filter fun e => slotOf e = slot := by
  have hle : (l.filter fun e => slotOf e = slot).Pairwise fun x y => slotLe slotOf x y = true := by
    refine List.pairwise_of_forall_mem_list fun a ha b hb => ?_
    simp only [List.mem_filter, decide_eq_true_eq] at ha hb
    rw [slotLe_iff, ha.2, hb.2]
    exact BitVec.le_refl _
  have hsub : (l.filter fun e => slotOf e = slot).Sublist (slotSorted slotOf l) :=
    List.sublist_mergeSort slotLe_trans slotLe_total hle List.filter_sublist
  have hfilter := hsub.filter fun e => decide (slotOf e = slot)
  rw [List.filter_filter] at hfilter
  simp only [Bool.and_self] at hfilter
  exact (hfilter.eq_of_length ((slotSorted_perm l).filter _).length_eq.symm).symm

variable {f : Nat → List α}

theorem sortBySlot_blocks {n b : Nat} (hb : b < n) :
    sortBySlot slotOf (blocks n f) (start f b) (start f (b + 1)) =
      blocks n (update f b (slotSorted slotOf (f b))) := by
  obtain ⟨rest, hrest⟩ := blocks_update hb f
  have hself := hrest (f b)
  rw [update_eq_self] at hself
  unfold sortBySlot
  split
  · rw [slice, blocks_slice hb f, hrest, hself]
    have hnext : start f (b + 1) = (blocks b f ++ f b).length := by
      rw [start_succ, List.length_append, start]
    rw [hnext, start, List.take_left, ← List.append_assoc (blocks b f) (f b), List.drop_left,
      List.append_assoc]
    rfl
  · next hsmall =>
    -- there is at most one entry
    rw [start_succ] at hsmall
    have hsorted : slotSorted slotOf (f b) = f b := by
      cases hf : f b with
      | nil => exact List.mergeSort_nil
      | cons e l =>
        rw [hf, List.length_cons] at hsmall
        rw [List.length_eq_zero_iff.mp (by omega : l.length = 0)]
        exact List.mergeSort_singleton e
    rw [hsorted, update_eq_self]

theorem getD_offsets {n b : Nat} (hb : b ≤ n) :
    ((List.range (n + 1)).map (start f)).getD b 0 = start f b := by
  rw [List.getD_eq_getElem?_getD, List.getElem?_map, List.getElem?_range (by omega)]
  rfl

theorem slotSorted_length (l : List α) : (slotSorted slotOf l).length = l.length :=
  (slotSorted_perm l).length_eq

theorem sortSlots_eq {n : Nat} :
    sortSlots slotOf n (blocks n f) ((List.range (n + 1)).map (start f)) =
      blocks n fun b => slotSorted slotOf (f b) := by
  have hpfx (k : Nat) (hk : k ≤ n) :
      (List.range k).foldl (fun entries id => sortBySlot slotOf entries
        (((List.range (n + 1)).map (start f)).getD id 0)
        (((List.range (n + 1)).map (start f)).getD (id + 1) 0)) (blocks n f) =
      blocks n fun b => if b < k then slotSorted slotOf (f b) else f b := by
    induction k with
    | zero => simp
    | succ k ih =>
      let g : Nat → List α := fun b => if b < k then slotSorted slotOf (f b) else f b
      have hlen (b : Nat) : start f b = start g b := by
        refine start_congr fun a _ => ?_
        dsimp only [g]
        split
        · rw [slotSorted_length]
        · rfl
      rw [List.range_succ (n := k), List.foldl_append, ih (by omega), List.foldl_cons,
        getD_offsets (by omega), getD_offsets (by omega), hlen, hlen,
        sortBySlot_blocks (by omega)]
      refine blocks_congr fun b _ => ?_
      by_cases heq : b = k
      · subst heq
        simp
      · rw [update_of_ne heq]
        simp only [Nat.lt_succ_iff_lt_or_eq, heq, or_false]
  unfold sortSlots
  rw [hpfx n (Nat.le_refl n)]
  exact blocks_congr fun b hb => if_pos hb

variable {acct : α → Nat} {l : List α} {n id : Nat} [Inhabited α]

theorem entriesOf_groupByAccount (hl : ∀ e ∈ l, acct e < n) (hid : id < n) :
    entriesOf (groupByAccount acct l n) id = group acct l id := by
  rw [groupByAccount_eq hl]
  unfold entriesOf slice grouped
  rw [getD_offsets (by omega), getD_offsets (by omega), blocks_slice hid]

theorem entriesOf_sortSlots (hl : ∀ e ∈ l, acct e < n) (hid : id < n) :
    entriesOf (sortSlots slotOf n (groupByAccount acct l n).1 (groupByAccount acct l n).2,
      (groupByAccount acct l n).2) id = slotSorted slotOf (group acct l id) := by
  rw [groupByAccount_eq hl]
  unfold entriesOf slice grouped
  rw [sortSlots_eq]
  rw [getD_offsets (by omega), getD_offsets (by omega)]
  have hlen (b : Nat) : start (group acct l) b =
      start (fun b => slotSorted slotOf (group acct l b)) b :=
    start_congr fun a _ => (slotSorted_length _).symm
  rw [hlen, hlen, blocks_slice hid]

end

end Nimbus.Spec.BalBuilder
