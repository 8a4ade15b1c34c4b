import Mathlib.Data.Set.Basic
import Nimbus.ForStd.Table

/-!
# An index over the keys of a set of members

Each member of a set carries a list of keys. An index is a table that is meant to lead from
every key of a member to some member that carries it, and to the position of the key in its
list. `insertKeys` puts a member on the index, `eraseKeys` takes the keys of one away, no
matter which member the entries lead to.

An index stays `Live` then: its entries lead to members. It is `Complete` afterwards exactly
if none of the keys that went away is carried by a member that is still there.
-/

universe u v w

namespace KeyIndex

variable {K : Type u} {E : Type v} {M : Type w} [DecidableEq K]

variable (t : Table K E)

/-- `for i, k in keys: t[k] = mk i` -/
def insertKeys (keys : List K) (mk : Nat → E) : Table K E :=
  keys.zipIdx.foldl (fun t e => t.insert e.1 (mk e.2)) t

/-- `for k in keys: t.del k` -/
def eraseKeys (keys : List K) : Table K E := keys.foldl (fun t k => t.erase k) t

theorem lookup_eraseKeys (keys : List K) (k : K) :
    (eraseKeys t keys).lookup k = if k ∈ keys then none else t.lookup k := by
  unfold eraseKeys
  induction keys generalizing t with
  | nil => simp
  | cons key keys ih =>
    rw [List.foldl_cons, ih, Table.lookup_erase']
    by_cases hk : k ∈ keys
    · simp [hk]
    · by_cases heq : k = key
      · simp [heq]
      · simp [hk, heq]

private theorem lookup_insert_zipIdx (keys : List K) (mk : Nat → E) (n : Nat) (k : K) :
    ((keys.zipIdx n).foldl (fun t e => t.insert e.1 (mk e.2)) t).lookup k = t.lookup k ∧ k ∉ keys ∨
      ∃ i, keys[i]? = some k ∧
        ((keys.zipIdx n).foldl (fun t e => t.insert e.1 (mk e.2)) t).lookup k = some (mk (n + i)) := by
  induction keys generalizing t n with
  | nil => simp
  | cons key keys ih =>
    rw [List.zipIdx_cons, List.foldl_cons]
    obtain ⟨hsame, hk⟩ | ⟨i, hi, hlook⟩ := ih (t.insert key (mk n)) (n + 1)
    · -- the last time the key comes up is the one that counts
      by_cases heq : k = key
      · subst heq
        refine .inr ⟨0, rfl, ?_⟩
        rw [hsame, Table.lookup_insert', if_pos rfl]
        rfl
      · refine .inl ⟨?_, by simp [heq, hk]⟩
        rw [hsame, Table.lookup_insert', if_neg heq]
    · refine .inr ⟨i + 1, hi, ?_⟩
      rw [hlook, show n + 1 + i = n + (i + 1) by omega]

theorem lookup_insertKeys_of_mem {keys : List K} (mk : Nat → E) {k : K}
    (hk : k ∈ keys) : ∃ i, keys[i]? = some k ∧ (insertKeys t keys mk).lookup k = some (mk i) := by
  obtain ⟨-, hnot⟩ | ⟨i, hi, hlook⟩ := lookup_insert_zipIdx t keys mk 0 k
  · exact absurd hk hnot
  · rw [Nat.zero_add] at hlook
    exact ⟨i, hi, hlook⟩

theorem lookup_insertKeys_of_notMem {keys : List K} (mk : Nat → E) {k : K}
    (hk : k ∉ keys) : (insertKeys t keys mk).lookup k = t.lookup k := by
  obtain ⟨hsame, -⟩ | ⟨i, hi, -⟩ := lookup_insert_zipIdx t keys mk 0 k
  · exact hsame
  · exact absurd (List.mem_of_getElem? hi) hk

variable {keys : M → List K} {owner : E → M} {pos : E → Nat} {members members' : Set M}
  {t t' : Table K E} {m : M}

/-! ## Entries lead to members -/

/-- Every entry leads to a member that carries the key, at the position given. -/
def Live (keys : M → List K) (owner : E → M) (pos : E → Nat) (members : Set M)
    (t : Table K E) : Prop :=
  ∀ k e, t.lookup k = some e → owner e ∈ members ∧ (keys (owner e))[pos e]? = some k

theorem Live.empty : Live keys owner pos members ∅ := fun k e hlook => by
  cases hlook

theorem Live.drop (h : Live keys owner pos members t)
    (hsub : ∀ n, n ∈ members → n ≠ m → n ∈ members') :
    Live keys owner pos members' (eraseKeys t (keys m)) := by
  intro k e hlook
  rw [lookup_eraseKeys] at hlook
  split at hlook
  next => cases hlook
  next hk =>
    obtain ⟨hmem, hpos⟩ := h k e hlook
    refine ⟨hsub _ hmem ?_, hpos⟩
    rintro rfl
    exact hk (List.mem_of_getElem? hpos)

theorem Live.add (h : Live keys owner pos members t) {mk : Nat → E} (howner : ∀ i, owner (mk i) = m)
    (hpos : ∀ i, pos (mk i) = i) (hm : m ∈ members') (hsub : ∀ n, n ∈ members → n ∈ members') :
    Live keys owner pos members' (insertKeys t (keys m) mk) := by
  intro k e hlook
  by_cases hk : k ∈ keys m
  · obtain ⟨i, hi, hnew⟩ := lookup_insertKeys_of_mem t mk hk
    cases hlook.symm.trans hnew
    rw [howner, hpos]
    exact ⟨hm, hi⟩
  · rw [lookup_insertKeys_of_notMem t mk hk] at hlook
    obtain ⟨hmem, hat⟩ := h k e hlook
    exact ⟨hsub _ hmem, hat⟩

/-! ## Keys are found -/

/-- Every key of a member is found. -/
def Complete (keys : M → List K) (members : Set M) (t : Table K E) : Prop :=
  ∀ m ∈ members, ∀ k ∈ keys m, ∃ e, t.lookup k = some e

/-- The index after some of the members are gone. -/
structure Dropped (keys : M → List K) (members members' : Set M) (t t' : Table K E) : Prop where
  subset : ∀ m, m ∈ members' → m ∈ members
  gone : ∀ m, m ∈ members → m ∉ members' → ∀ k ∈ keys m, t'.lookup k = none
  kept : ∀ k, (∀ m, m ∈ members → m ∉ members' → k ∉ keys m) → t'.lookup k = t.lookup k

theorem Dropped.refl (members : Set M) (t : Table K E) : Dropped keys members members t t where
  subset _ := id
  gone _ hm hno := absurd hm hno
  kept _ _ := rfl

theorem Dropped.one (hsub : ∀ n, n ∈ members' ↔ n ∈ members ∧ n ≠ m) (hm : m ∈ members) :
    Dropped keys members members' t (eraseKeys t (keys m)) where
  subset n hn := ((hsub n).mp hn).1
  gone n hn hno k hk := by
    have heq : n = m := by
      by_contra hne
      exact hno ((hsub n).mpr ⟨hn, hne⟩)
    rw [lookup_eraseKeys, if_pos (heq ▸ hk)]
  kept k hno := by
    rw [lookup_eraseKeys, if_neg]
    exact hno m hm fun h => ((hsub m).mp h).2 rfl

theorem Dropped.trans {members'' : Set M} {t'' : Table K E} (h : Dropped keys members members' t t')
    (h' : Dropped keys members' members'' t' t'') : Dropped keys members members'' t t'' where
  subset m hm := h.subset m (h'.subset m hm)
  gone m hm hno k hk := by
    by_cases hm' : m ∈ members'
    · exact h'.gone m hm' hno k hk
    · -- a key that is gone does not come back
      have hnone := h.gone m hm hm' k hk
      by_cases hex : ∃ n, n ∈ members' ∧ n ∉ members'' ∧ k ∈ keys n
      · obtain ⟨n, hn, hn', hkn⟩ := hex
        exact h'.gone n hn hn' k hkn
      · rw [h'.kept k, hnone]
        intro n hn hn' hkn
        exact hex ⟨n, hn, hn', hkn⟩
  kept k hno := by
    have hstep : ∀ m, m ∈ members' → m ∉ members'' → k ∉ keys m :=
      fun m hm hno' => hno m (h.subset m hm) hno'
    rw [h'.kept k hstep]
    exact h.kept k fun m hm hno' => hno m hm fun hm'' => hno' (h'.subset m hm'')

/-- All keys are still found exactly if no key went away that a member carries. -/
theorem Dropped.complete_iff (h : Dropped keys members members' t t')
    (hc : Complete keys members t) : Complete keys members' t' ↔
      ∀ m n, m ∈ members → m ∉ members' → n ∈ members' → ∀ k ∈ keys m, k ∉ keys n := by
  constructor
  · intro hc' m n hm hno hn k hkm hkn
    obtain ⟨e, he⟩ := hc' n hn k hkn
    rw [h.gone m hm hno k hkm] at he
    cases he
  · intro hshare n hn k hk
    obtain ⟨e, he⟩ := hc n (h.subset n hn) k hk
    refine ⟨e, ?_⟩
    rw [h.kept k fun m hm hno hkm => hshare m n hm hno hn k hkm hk]
    exact he

theorem Complete.add (h : ∀ n ∈ members, ∀ k ∈ keys n, k ∈ keys m ∨ ∃ e, t.lookup k = some e)
    (hm : ∀ n ∈ members', n = m ∨ n ∈ members) (mk : Nat → E) :
    Complete keys members' (insertKeys t (keys m) mk) := by
  have hnew : ∀ k ∈ keys m, ∃ e, (insertKeys t (keys m) mk).lookup k = some e := by
    intro k hk
    obtain ⟨i, -, hlook⟩ := lookup_insertKeys_of_mem t mk hk
    exact ⟨mk i, hlook⟩
  intro n hn k hk
  by_cases hkm : k ∈ keys m
  · exact hnew k hkm
  · obtain rfl | hn' := hm n hn
    · exact hnew k hk
    · rw [lookup_insertKeys_of_notMem t mk hkm]
      exact (h n hn' k hk).resolve_left hkm

end KeyIndex
