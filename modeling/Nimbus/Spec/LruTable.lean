import Nimbus.ForStd.RobinHood
import Nimbus.Native.Lru

/-!
# The hash table of the cache

The buckets are a robin-hood table: masks are remainders, and the difference of a bucket and a
hash, wrapped around twice, is the distance from home. Each loop ends, since there is always a
bucket that is free.
-/

namespace Nimbus.Spec.Lru

open Native Native.Lru RobinHood Function

/-! ## Masks -/

/-- As many buckets as indices of 32 bits can reach, by a mask. -/
def Sized (len : Nat) : Prop := ∃ k, 1 ≤ k ∧ k ≤ 32 ∧ len = 2 ^ k

section
variable {len : Nat}

section

variable (h : Sized len)
include h

theorem Sized.two_le : 2 ≤ len := by
  obtain ⟨k, hk, -, rfl⟩ := h
  calc 2 = 2 ^ 1 := rfl
    _ ≤ 2 ^ k := Nat.pow_le_pow_right (by decide) hk

theorem Sized.le : len ≤ 2 ^ 32 := by
  obtain ⟨k, -, hk, rfl⟩ := h
  exact Nat.pow_le_pow_right (by decide) hk

theorem Sized.dvd : len ∣ 2 ^ 32 := by
  obtain ⟨k, -, hk, rfl⟩ := h
  exact Nat.pow_dvd_pow 2 hk

theorem Sized.mask : Lru.mask len = len - 1 := by
  have htwo := h.two_le
  rcases Nat.lt_or_eq_of_le h.le with hlt | heq
  · unfold Lru.mask u32
    omega
  · rw [heq]
    rfl

theorem Sized.and_mask (n : Nat) : n &&& Lru.mask len = n % len := by
  rw [h.mask]
  obtain ⟨k, -, -, rfl⟩ := h
  exact Nat.and_two_pow_sub_one_eq_mod n k

theorem Sized.u32_mod (n : Nat) : u32 n % len = n % len :=
  Nat.mod_mod_of_dvd n h.dvd

theorem Sized.nextBucket (bi : Nat) : Lru.nextBucket len bi = succ len bi := by
  rw [Lru.nextBucket, h.and_mask, h.u32_mod, succ]

theorem Sized.psl {subhash : Nat} (hsub : subhash < 2 ^ 32) (bi : Nat) :
    Lru.psl len bi subhash = dist len subhash bi := by
  rw [Lru.psl, h.and_mask, h.u32_mod, RobinHood.dist]
  have htwo := h.two_le
  obtain ⟨m, hm⟩ := h.dvd
  have hdiv := Nat.div_add_mod subhash len
  have hmod : subhash % len < len := Nat.mod_lt _ (by omega)
  have hq : subhash / len < m := by
    rw [Nat.div_lt_iff_lt_mul (by omega), Nat.mul_comm, ← hm]
    exact hsub
  -- both differ by whole rounds
  have hround : 2 ^ 32 - subhash = len - subhash % len + len * (m - subhash / len - 1) := by
    have hexp : len * (m - subhash / len - 1) + len * (subhash / len) + len = len * m := by
      rw [← Nat.mul_add, ← Nat.mul_succ]
      congr 1
      omega
    omega
  rw [hround, ← Nat.add_assoc, Nat.add_mul_mod_self_left]

end

end

/-! ## Tables -/

/-- What is in a bucket. -/
def entry (b : LruBucket) : Option LruBucket := if b.index = 0 then none else some b

def entries (s : Nat → LruBucket) (i : Nat) : Option LruBucket := entry (s i)

variable {b : LruBucket}

theorem entry_eq_some {e : LruBucket} : entry b = some e ↔ b.index ≠ 0 ∧ b = e := by
  unfold entry
  split
  · rename_i h
    exact iff_of_false nofun fun h' => h'.1 h
  · rename_i h
    rw [Option.some.injEq]
    exact ⟨fun h' => ⟨h, h'⟩, And.right⟩

theorem entry_eq_none : entry b = none ↔ b.index = 0 := by
  unfold entry
  split
  · exact iff_of_true rfl (by assumption)
  · exact iff_of_false nofun (by assumption)

theorem entries_update (s : Nat → LruBucket) (i : Nat) (b : LruBucket) :
    entries (update s i b) = update (entries s) i (entry b) := by
  funext j
  by_cases hj : j = i
  · subst hj
    rw [entries, update_self, update_self]
  · rw [entries, update_of_ne hj, update_of_ne hj, entries]

/-- Hashes are of 32 bits, and the entries are those of a robin-hood table. -/
structure Table (len : Nat) (s : Nat → LruBucket) : Prop where
  sized : Sized len
  small : ∀ i < len, (s i).subhash < 2 ^ 32
  near : Near len LruBucket.subhash (entries s)
  once : Once len (entries s)

/-- The entries that are stored. -/
def Holds (len : Nat) (s : Nat → LruBucket) (e : LruBucket) : Prop := Stored len (entries s) e

theorem table_empty {len : Nat} (h : Sized len) : Table len fun _ => ⟨0, 0⟩ where
  sized := h
  small _ _ := Nat.two_pow_pos 32
  near _ _ _ he := nomatch he
  once _ _ _ _ _ he := nomatch he

theorem holds_empty {len : Nat} {e : LruBucket} : ¬ Holds len (fun _ => ⟨0, 0⟩) e := by
  rintro ⟨i, -, he⟩
  cases he

section
variable {len : Nat} {s : Nat → LruBucket}

theorem small_update {i : Nat} (h : ∀ i < len, (s i).subhash < 2 ^ 32)
    (hb : b.subhash < 2 ^ 32) : ∀ j < len, (update s i b j).subhash < 2 ^ 32 := by
  intro j hj
  by_cases hji : j = i
  · subst hji
    rwa [update_self]
  · rw [update_of_ne hji]
    exact h j hj

/-! ## Insertion -/

theorem putLoop_spec (h : Table len s) {fuel bi subhash index : Nat} (hbi : bi < len)
    (hsub : subhash < 2 ^ 32) (hindex : 0 < index)
    (hcarried : Carried len LruBucket.subhash (entries s) bi ⟨subhash, index⟩)
    (hgap : Gap len (entries s) bi fuel) {q : Nat} (hq : q < len) (hfree : entries s q = none) :
    ∃ s', putLoop len fuel bi subhash index (dist len subhash bi) s = some s' ∧ Table len s' ∧
      ∀ e, Holds len s' e ↔ e = ⟨subhash, index⟩ ∨ Holds len s e := by
  have hentry : entry ⟨subhash, index⟩ = some ⟨subhash, index⟩ := if_neg hindex.ne'
  -- towards the next free bucket, with the entry that is carried
  induction fuel generalizing bi subhash index s with
  | zero =>
    obtain ⟨t, ht, -⟩ := hgap
    omega
  | succ fuel ih =>
    rw [putLoop]
    dsimp only
    split
    · rename_i hzero
      have hnone : entries s bi = none := entry_eq_none.mpr hzero
      refine ⟨_, rfl, ⟨h.sized, small_update h.small hsub, ?_, ?_⟩, fun e => ?_⟩
      · rw [entries_update, hentry]
        exact h.near.place h.sized.two_le hbi hcarried hnone
      · rw [entries_update, hentry]
        refine h.once.update fun hstored => hcarried.fresh ?_
        exact (stored_iff_but hbi).mpr (.inr hstored)
      · rw [Holds, entries_update, hentry, stored_update hbi, Holds, stored_iff_but hbi, hnone]
        simp
    · rename_i hne
      have hb : entries s bi = some (s bi) := entry_eq_some.mpr ⟨hne, rfl⟩
      have hsmall := h.small bi hbi
      have hround := h.near.dist_succ_lt hbi hb hq hfree
      have hle := h.sized.le
      rw [h.sized.nextBucket, h.sized.psl hsmall]
      have hdist (home : Nat) (hlt : dist len home bi + 1 < len) :
          u32 (dist len home bi + 1) = dist len home (succ len bi) := by
        rw [dist_succ hbi, if_neg (by omega), u32, Nat.mod_eq_of_lt (by omega)]
      split
      · rename_i hlt
        rw [hdist _ hround]
        have hentries := entries_update s bi ⟨subhash, index⟩
        rw [hentry] at hentries
        have htable : Table len (update s bi ⟨subhash, index⟩) := by
          refine ⟨h.sized, small_update h.small hsub, ?_, ?_⟩
          · rw [hentries]
            exact h.near.swap h.sized.two_le hbi hcarried hb hlt
          · rw [hentries]
            refine h.once.update fun hstored => hcarried.fresh ?_
            exact (stored_iff_but hbi).mpr (.inr hstored)
        have hqbi : q ≠ bi := by
          rintro rfl
          rw [hfree] at hb
          cases hb
        obtain ⟨s', hs', htable', hholds⟩ := ih htable (succ_lt hbi) hsmall
          (Nat.pos_of_ne_zero hne)
          (by rw [hentries]; exact hcarried.swapped h.once hbi hb hlt)
          (by rw [hentries]; exact hgap.step hbi hb _)
          (by rw [hentries, update_of_ne hqbi]; exact hfree)
          (if_neg hne)
        refine ⟨s', hs', htable', fun e => ?_⟩
        rw [hholds, Holds, hentries, stored_update hbi, Holds, stored_iff_but hbi, hb,
          Option.some.injEq]
        constructor
        · rintro (rfl | rfl | hbut)
          · exact .inr (.inl rfl)
          · exact .inl rfl
          · exact .inr (.inr hbut)
        · rintro (rfl | rfl | hbut)
          · exact .inr (.inl rfl)
          · exact .inl rfl
          · exact .inr (.inr hbut)
      · rename_i hge
        have hle' : dist len subhash bi ≤ dist len (s bi).subhash bi := Nat.le_of_not_lt hge
        rw [hdist _ (by omega)]
        have hgap' := hgap.step hbi hb (entries s bi)
        rw [update_eq_self] at hgap'
        exact ih h (succ_lt hbi) hsub hindex (hcarried.skip hbi hb hle') hgap' hfree hentry

theorem tablePut_spec (h : Table len s) {subhash index : Nat} (hsub : subhash < 2 ^ 32)
    (hindex : 0 < index) (hfresh : ¬ Holds len s ⟨subhash, index⟩)
    (hroom : ∃ q < len, entries s q = none) :
    ∃ s', tablePut s len subhash index = some s' ∧ Table len s' ∧
      ∀ e, Holds len s' e ↔ e = ⟨subhash, index⟩ ∨ Holds len s e := by
  obtain ⟨q, hq, hfree⟩ := hroom
  have hlen : 0 < len := by omega
  have hhome : subhash &&& Lru.mask len = slot len subhash 0 := h.sized.and_mask subhash
  have hput : ∃ s', putLoop len len (slot len subhash 0) subhash index
      (dist len subhash (slot len subhash 0)) s = some s' ∧ Table len s' ∧
        ∀ e, Holds len s' e ↔ e = ⟨subhash, index⟩ ∨ Holds len s e :=
    putLoop_spec h (slot_lt hlen) hsub hindex (.at_home hlen hfresh)
      (gap_of_free hq hfree _) hq hfree
  rw [dist_slot hlen] at hput
  rwa [tablePut, hhome]

/-- Everything that the old buckets hold from `i` on goes into the new ones. -/
theorem rehash_spec {old : Nat → LruBucket} {n i : Nat} (h : Table len s)
    (hold : ∀ j < i + n, (old j).subhash < 2 ^ 32) (honce : Once (i + n) (entries old))
    (hfresh : ∀ j, i ≤ j → j < i + n → ∀ e, entries old j = some e → ¬ Holds len s e)
    (hroom : ∀ s', Table len s' → (∀ e, Holds len s' e → Holds len s e ∨
      ∃ j < i + n, entries old j = some e) → ∃ q < len, entries s' q = none) :
    ∃ s', rehash old len n i s = some s' ∧ Table len s' ∧
      ∀ e, Holds len s' e ↔ Holds len s e ∨ ∃ j, i ≤ j ∧ j < i + n ∧ entries old j = some e := by
  induction n generalizing i s with
  | zero =>
    refine ⟨s, rfl, h, fun e => ⟨.inl, ?_⟩⟩
    rintro (he | ⟨j, hij, hj, -⟩)
    · exact he
    · omega
  | succ n ih =>
    have hshift : i + 1 + n = i + (n + 1) := by omega
    rw [rehash]
    split
    · rename_i hzero
      have hnone : entries old i = none := entry_eq_none.mpr hzero
      obtain ⟨s', hs', htable, hholds⟩ := ih (i := i + 1) h (by rwa [hshift]) (by rwa [hshift])
        (fun j hij hj => hfresh j (by omega) (by omega)) (by rwa [hshift])
      refine ⟨s', hs', htable, fun e => ?_⟩
      rw [hholds]
      refine or_congr_right ⟨fun ⟨j, hij, hj, he⟩ => ⟨j, by omega, by omega, he⟩, ?_⟩
      rintro ⟨j, hij, hj, he⟩
      have hne : j ≠ i := by
        rintro rfl
        rw [hnone] at he
        cases he
      exact ⟨j, by omega, by omega, he⟩
    · rename_i hne
      have hi : entries old i = some (old i) := entry_eq_some.mpr ⟨hne, rfl⟩
      obtain ⟨s₁, hs₁, htable₁, hholds₁⟩ := tablePut_spec h (hold i (by omega))
        (Nat.pos_of_ne_zero hne) (hfresh i (Nat.le_refl i) (by omega) _ hi)
        (hroom s h fun e he => .inl he)
      obtain ⟨s', hs', htable, hholds⟩ := ih (i := i + 1) htable₁ (by rwa [hshift])
        (by rwa [hshift])
        (fun j hij hj e he hstored => by
          rcases (hholds₁ e).mp hstored with rfl | hstored
          · have := honce j (by omega) i (by omega) _ he hi
            omega
          · exact hfresh j (by omega) (by omega) e he hstored)
        (fun s₂ htable₂ hsub => hroom s₂ htable₂ fun e he => by
          rcases hsub e he with hstored | ⟨j, hj, he⟩
          · rcases (hholds₁ e).mp hstored with rfl | hstored
            · exact .inr ⟨i, by omega, hi⟩
            · exact .inl hstored
          · exact .inr ⟨j, by omega, he⟩)
      refine ⟨s', ?_, htable, fun e => ?_⟩
      · rw [hs₁]
        exact hs'
      · rw [hholds, hholds₁]
        constructor
        · rintro ((rfl | hstored) | ⟨j, hij, hj, he⟩)
          · exact .inr ⟨i, Nat.le_refl i, by omega, hi⟩
          · exact .inl hstored
          · exact .inr ⟨j, by omega, by omega, he⟩
        · rintro (hstored | ⟨j, hij, hj, he⟩)
          · exact .inl (.inr hstored)
          · by_cases hji : j = i
            · subst hji
              rw [hi] at he
              exact .inl (.inl (Option.some.inj he).symm)
            · exact .inr ⟨j, by omega, by omega, he⟩

/-! ## Deletion -/

theorem delLoop_spec {fuel bi : Nat} (hsized : Sized len)
    (hsmall : ∀ i < len, (s i).subhash < 2 ^ 32) (hnear : Near len LruBucket.subhash (entries s))
    (honce : OnceBut len (entries s) bi) (hbi : bi < len)
    (hb : entries s bi = some b) (hgap : Gap len (entries s) bi fuel) :
    ∃ s', delLoop len fuel bi s = some s' ∧ Table len s' ∧
      ∀ e, Holds len s' e ↔ StoredBut len (entries s) bi e := by
  -- towards the next free bucket, with a hole that everything else is stored around
  induction fuel generalizing bi b s with
  | zero =>
    obtain ⟨t, ht, -⟩ := hgap
    omega
  | succ fuel ih =>
    have hnext := succ_lt hbi
    have hclear (hafter : ∀ f, entries s (succ len bi) = some f →
        dist len f.subhash (succ len bi) = 0) :
        Table len (update s bi { s bi with index := 0 }) ∧
          ∀ e, Holds len (update s bi { s bi with index := 0 }) e ↔
            StoredBut len (entries s) bi e := by
      have hentries := entries_update s bi { s bi with index := 0 }
      refine ⟨⟨hsized, small_update hsmall (hsmall bi hbi), ?_, ?_⟩, fun e => ?_⟩
      · rw [hentries]
        exact hnear.clear hafter
      · rw [hentries]
        exact honce.clear
      · rw [Holds, hentries]
        exact stored_clear
    rw [delLoop]
    rw [hsized.nextBucket]
    split
    · rename_i hzero
      have hnone : entries s (succ len bi) = none := entry_eq_none.mpr hzero
      refine ⟨_, rfl, hclear fun f hf => ?_⟩
      rw [hnone] at hf
      cases hf
    · rename_i hne
      have hf : entries s (succ len bi) = some (s (succ len bi)) := entry_eq_some.mpr ⟨hne, rfl⟩
      rw [hsized.psl (hsmall _ hnext)]
      split
      · rename_i hhome
        refine ⟨_, rfl, hclear fun f hf' => ?_⟩
        rw [hf] at hf'
        obtain rfl := Option.some.inj hf'
        exact hhome
      · rename_i haway
        have hentries := entries_update s bi (s (succ len bi))
        rw [show entry (s (succ len bi)) = some (s (succ len bi)) from hf] at hentries
        have hne' := succ_ne hbi hsized.two_le
        obtain ⟨s', hs', htable, hholds⟩ := ih (small_update hsmall (hsmall _ hnext))
          (by
            rw [hentries]
            exact hnear.shift hsized.two_le hbi hf (Nat.pos_of_ne_zero haway))
          (by
            rw [hentries]
            exact honce.shift hsized.two_le hbi hf)
          hnext
          (by
            rw [hentries, update_of_ne hne']
            exact hf)
          (by
            rw [hentries]
            exact hgap.step hbi hb _)
        refine ⟨s', hs', htable, fun e => ?_⟩
        rw [hholds, hentries]
        exact storedBut_shift hsized.two_le hbi hf

theorem tableDel_spec (h : Table len s) {bi : Nat} (hbi : bi < len)
    (hb : entries s bi = some b) (hroom : ∃ q < len, entries s q = none) :
    ∃ s', tableDel s len bi = some s' ∧ Table len s' ∧
      ∀ e, Holds len s' e ↔ Holds len s e ∧ e ≠ b := by
  obtain ⟨q, hq, hfree⟩ := hroom
  obtain ⟨s', hs', htable, hholds⟩ := delLoop_spec h.sized h.small h.near (h.once.but bi) hbi hb
    (gap_of_free hq hfree bi)
  refine ⟨s', ?_, htable, fun e => ?_⟩
  · rw [tableDel, h.sized.and_mask, Nat.mod_eq_of_lt hbi]
    exact hs'
  · rw [hholds]
    exact h.once.storedBut_iff hbi hb

end

/-! ## Search -/

section
variable {K V : Type} [DecidableEq K] {c : LruCache K V}

/-- The entry of a key with that hash. -/
def Matches (c : LruCache K V) (subhash : Nat) (key : K) (e : LruBucket) : Prop :=
  e.subhash = subhash ∧ (c.nodes e.index).key = key

/-- A search has found the bucket of the key, or there is none. -/
def Found (c : LruCache K V) (subhash : Nat) (key : K) : Option Nat → Prop
  | some bi => bi < c.bucketsLen ∧
      ∃ e, entries c.buckets bi = some e ∧ Matches c subhash key e
  | none => ∀ e, Holds c.bucketsLen c.buckets e → ¬ Matches c subhash key e

theorem bucketLoop_spec (h : Table c.bucketsLen c.buckets) {subhash : Nat} {key : K}
    {fuel dist : Nat} (hdist : dist < c.bucketsLen)
    (hseen : ∀ j < dist, ∀ e, entries c.buckets (slot c.bucketsLen subhash j) = some e →
      ¬ Matches c subhash key e)
    (hgap : Gap c.bucketsLen (entries c.buckets) (slot c.bucketsLen subhash dist) fuel)
    {q : Nat} (hq : q < c.bucketsLen) (hfree : entries c.buckets q = none) :
    ∃ found, c.bucketLoop subhash key fuel (slot c.bucketsLen subhash dist) dist = some found ∧
      Found c subhash key found := by
  induction fuel generalizing dist with
  | zero =>
    obtain ⟨t, ht, -⟩ := hgap
    omega
  | succ fuel ih =>
    have hslot : slot c.bucketsLen subhash dist < c.bucketsLen := slot_lt (by omega)
    rw [LruCache.bucketLoop]
    rw [h.sized.psl (h.small _ hslot)]
    split
    · rename_i hstop
      refine ⟨none, rfl, fun e he hmatch => ?_⟩
      -- an entry of the key would have been seen, or would be further from its home
      obtain ⟨i, hi, hei⟩ := he
      have hhome := hmatch.1
      rcases Nat.lt_or_ge (RobinHood.dist c.bucketsLen subhash i) dist with hlt | hge
      · refine hseen _ hlt e ?_ hmatch
        rwa [slot_dist hi]
      · obtain ⟨f, hf, hle⟩ := h.near.passes hi hei (j := dist) (by rw [hhome]; exact hge)
        rw [hhome] at hf hle
        obtain ⟨hne, hbucket⟩ := entry_eq_some.mp hf
        rw [hbucket] at hstop hne
        rcases hstop with hzero | hlt
        · exact hne hzero
        · omega
    · rename_i hgo
      rw [not_or] at hgo
      have hb : entries c.buckets (slot c.bucketsLen subhash dist) =
          some (c.buckets (slot c.bucketsLen subhash dist)) := entry_eq_some.mpr ⟨hgo.1, rfl⟩
      split
      · rename_i hmatch
        exact ⟨_, rfl, hslot, _, hb, hmatch⟩
      · rename_i hmiss
        have hround := h.near.dist_succ_lt hslot hb hq hfree
        have hle := h.sized.le
        have hgap' := hgap.step hslot hb (entries c.buckets (slot c.bucketsLen subhash dist))
        rw [update_eq_self, succ_slot] at hgap'
        rw [h.sized.nextBucket, succ_slot, u32, Nat.mod_eq_of_lt (by omega)]
        refine ih (by omega) (fun j hj e he => ?_) hgap'
        rcases Nat.lt_succ_iff_lt_or_eq.mp hj with hlt | rfl
        · exact hseen j hlt e he
        · rw [hb] at he
          obtain rfl := Option.some.inj he
          exact hmiss

theorem tableBucket_spec (h : Table c.bucketsLen c.buckets)
    (hroom : ∃ q < c.bucketsLen, entries c.buckets q = none) (subhash : Nat) (key : K) :
    ∃ found, c.tableBucket subhash key = some found ∧ Found c subhash key found := by
  obtain ⟨q, hq, hfree⟩ := hroom
  have hhome : subhash &&& Lru.mask c.bucketsLen = slot c.bucketsLen subhash 0 :=
    h.sized.and_mask subhash
  rw [LruCache.tableBucket, hhome]
  exact bucketLoop_spec h (by omega) (fun j hj => absurd hj (Nat.not_lt_zero j))
    (gap_of_free hq hfree _) hq hfree

end

end Nimbus.Spec.Lru
