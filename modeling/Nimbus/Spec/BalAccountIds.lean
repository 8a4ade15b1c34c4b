import Nimbus.ForStd.ExecM
import Nimbus.Native.PosTable

/-!
# The hash tables of the block access list builder and tracker

A key gets one position, the number of keys seen before it, and keeps it. A table is never more
than half full, so that a probe ends.
-/

namespace Nimbus.Spec.BalBuilder

open Nimbus.Native
open Nimbus.Native.BalBuilder
open LinearProbing

/-! ## Probing -/

section

variable {buckets : List Nat} {stop : Nat → Bool}

/-- The table size is a power of two, so that the mask is a remainder. -/
def IsPow2 (size : Nat) : Prop := ∃ k, size = 2 ^ k

theorem IsPow2.mask {size : Nat} (h : IsPow2 size) (i : Nat) : i &&& (size - 1) = i % size := by
  obtain ⟨k, rfl⟩ := h
  exact Nat.and_two_pow_sub_one_eq_mod i k

theorem IsPow2.pos {size : Nat} (h : IsPow2 size) : 0 < size := by
  obtain ⟨k, rfl⟩ := h
  exact Nat.two_pow_pos k

theorem probeFrom_eq (h : IsPow2 buckets.length) {fuel i j : Nat}
    (hj : probe buckets.length (fun b => stop (buckets.getD b 0)) fuel i = some j) :
    AccountIds.probeFrom buckets stop fuel i = .ok j := by
  induction fuel generalizing i with
  | zero => exact nomatch hj
  | succ fuel ih =>
    rw [probe] at hj
    rw [AccountIds.probeFrom]
    by_cases hstop : stop (buckets.getD i 0)
    · rw [if_pos hstop] at hj ⊢
      cases hj
      rfl
    · rw [if_neg hstop] at hj ⊢
      rw [h.mask]
      exact ih hj

theorem probeFrom_total (stop : Nat → Bool) (h : IsPow2 buckets.length) {x j : Nat}
    (hj : j < buckets.length) (hstop : stop (buckets.getD j 0)) :
    ∃ k i, AccountIds.probeFrom buckets stop buckets.length (x &&& (buckets.length - 1)) = .ok i ∧
      k < buckets.length ∧
      FirstStop buckets.length (fun b => stop (buckets.getD b 0)) (x % buckets.length) k i := by
  obtain ⟨k, i, hprobe, hk, hfirst⟩ := probe_total
    (fun b => stop (buckets.getD b 0)) (Nat.mod_lt x h.pos) hj hstop
  refine ⟨k, i, ?_, hk, hfirst⟩
  rw [h.mask]
  exact probeFrom_eq h hprobe

end

section

variable {κ : Type} {hash : κ → Nat} {keys : List κ} {buckets : List Nat}

/-- The empty bucket `i` takes the key. -/
structure Takes (hash : κ → Nat) (keys : List κ) (buckets : List Nat) (key : κ) (i : Nat) :
    Prop where
  lt : i < buckets.length
  empty : buckets.getD i 0 = 0
  table : Table hash (keys ++ [key]) (buckets.set i (keys.length + 1))

theorem takes_of_firstStop (ht : Table hash keys buckets) (stop : Nat → Bool) (hstop : stop 0)
    {key : κ} (hnew : key ∉ keys) {k i : Nat} (hk : k < buckets.length)
    (hfirst : FirstStop buckets.length (fun b => stop (buckets.getD b 0))
      (hash key % buckets.length) k i) (hempty : buckets.getD i 0 = 0) :
    Takes hash keys buckets key i where
  lt := hfirst.eq ▸ Nat.mod_lt _ (by omega)
  empty := hempty
  table := by
    refine ht.insert hnew hk (by rw [hfirst.eq, Nat.mod_add_mod]) hempty fun m hm h0 => ?_
    have hno := hfirst.before m hm
    rw [Nat.mod_add_mod, h0] at hno
    exact hno hstop

/-- The loop that looks for an empty bucket. -/
theorem probeFrom_place (hpow : IsPow2 buckets.length) (ht : Table hash keys buckets)
    (hroom : keys.length < buckets.length) {key : κ} (hnew : key ∉ keys) :
    ∃ i, AccountIds.probeFrom buckets (fun b => b == 0) buckets.length
      (hash key &&& (buckets.length - 1)) = .ok i ∧ Takes hash keys buckets key i := by
  obtain ⟨j, hj, hempty⟩ := ht.exists_empty hroom
  obtain ⟨k, i, hprobe, hk, hfirst⟩ := probeFrom_total (fun b => b == 0) (x := hash key) hpow hj
    (by simpa using hempty)
  exact ⟨i, hprobe, takes_of_firstStop ht (· == 0) rfl hnew hk hfirst
    (by simpa using hfirst.stops)⟩

/-- The loop that looks for a key. -/
theorem probeFrom_search [BEq κ] [LawfulBEq κ] (hpow : IsPow2 buckets.length)
    (ht : Table hash keys buckets) (hroom : keys.length < buckets.length) (key : κ) :
    ∃ i, AccountIds.probeFrom buckets (fun b => b == 0 || keys[b - 1]? == some key) buckets.length
        (hash key &&& (buckets.length - 1)) = .ok i ∧
      ((key ∉ keys ∧ Takes hash keys buckets key i) ∨
        (buckets.getD i 0 ≠ 0 ∧ keys[buckets.getD i 0 - 1]? = some key)) := by
  obtain ⟨j, hj, hempty⟩ := ht.exists_empty hroom
  obtain ⟨k, i, hprobe, hk, hfirst⟩ := probeFrom_total
    (fun b => b == 0 || keys[b - 1]? == some key) (x := hash key) hpow hj (by rw [hempty]; rfl)
  refine ⟨i, hprobe, (ht.search key hfirst).imp_left fun h => ⟨h.2, ?_⟩⟩
  exact takes_of_firstStop ht (fun b => b == 0 || keys[b - 1]? == some key) rfl h.2 hk
    hfirst h.1

end

/-! ## The position table -/

open BalTracker (IndexHash PosEntry PosTable)
open BalTracker.PosTable (indexHash)

section

variable {K : Type} [IndexHash K] {ks ks' : List K} {size n b : Nat} {t t' : PosTable K} {key : K}

/-- The first `n` keys are entered in buckets of the size. -/
structure Entered (ks : List K) (size n : Nat) (t : PosTable K) : Prop where
  keys : t.entries.map (·.indexKey) = ks
  length_buckets : t.buckets.length = size
  table : Table indexHash (ks.take n) t.buckets
  bucket : ∀ i < n, ∀ e, t.entries[i]? = some e →
    e.bucket < size ∧ t.buckets.getD e.bucket 0 = i + 1

/-- The keys of a table, in the order of their positions. -/
structure PosOk (ks : List K) (t : PosTable K) : Prop where
  entered : Entered ks t.buckets.length ks.length t
  pow2 : t.buckets = [] ∨ IsPow2 t.buckets.length
  load : ks.length * 2 ≤ t.buckets.length

theorem PosOk.empty : PosOk [] ({} : PosTable K) where
  entered := ⟨rfl, rfl, @table_empty _ _ 0, fun i hi => absurd hi (Nat.not_lt_zero i)⟩
  pow2 := .inl rfl
  load := Nat.le_refl _

theorem Entered.length (h : Entered ks size n t) : t.entries.length = ks.length := by
  rw [← h.keys, List.length_map]

/-- The position `n` goes to the empty bucket `b`. -/
theorem Entered.put (h : Entered ks size n t) (hn : n ≤ ks.length)
    (htakes : Takes indexHash (ks.take n) t.buckets key b) {entries : List (PosEntry K)}
    (hkeys : entries.map (·.indexKey) = ks') (htake : ks'.take (n + 1) = ks.take n ++ [key])
    (hsame : ∀ i < n, entries[i]? = t.entries[i]?) (hnew : entries[n]? = some ⟨key, b⟩) :
    Entered ks' size (n + 1) ⟨entries, t.buckets.set b (n + 1)⟩ where
  keys := hkeys
  length_buckets := List.length_set.trans h.length_buckets
  table := by
    have htable := htakes.table
    rw [List.length_take_of_le hn] at htable
    rw [htake]
    exact htable
  bucket i hi e he := by
    show e.bucket < size ∧ (t.buckets.set b (n + 1)).getD e.bucket 0 = i + 1
    rw [getD_set htakes.lt]
    rcases Nat.lt_succ_iff_lt_or_eq.mp hi with hlt | rfl
    · obtain ⟨hbucket, hat⟩ := h.bucket i hlt e (hsame i hlt ▸ he)
      refine ⟨hbucket, ?_⟩
      rw [if_neg, hat]
      rintro rfl
      rw [htakes.empty] at hat
      cases hat
    · rw [hnew] at he
      cases he
      exact ⟨h.length_buckets ▸ htakes.lt, if_pos rfl⟩

theorem enter_spec (h : Entered ks size n t) (hpow : IsPow2 size) (hn : n < ks.length)
    (hsize : n < size) (hnodup : ks.Nodup) :
    ∃ t', t.enter n = .ok t' ∧ Entered ks size (n + 1) t' := by
  obtain ⟨e, he⟩ : ∃ e, t.entries[n]? = some e := ⟨_, List.getElem?_eq_getElem (h.length ▸ hn)⟩
  have hkey : ks[n]? = some e.indexKey := by rw [← h.keys, List.getElem?_map, he]; rfl
  have htake : ks.take (n + 1) = ks.take n ++ [e.indexKey] := by rw [List.take_add_one, hkey]; rfl
  have hnew : e.indexKey ∉ ks.take n := by
    intro hmem
    have htaken : (ks.take n ++ [e.indexKey]).Nodup :=
      htake ▸ hnodup.sublist (List.take_sublist _ _)
    exact List.disjoint_of_nodup_append htaken hmem (List.mem_singleton_self _)
  have hlen := List.length_take_of_le hn.le
  obtain ⟨b, hprobe, htakes⟩ := probeFrom_place (h.length_buckets ▸ hpow) h.table
    (by rw [hlen, h.length_buckets]; exact hsize) hnew
  unfold PosTable.enter
  rw [he]
  show ∃ t', (AccountIds.probeFrom _ _ _ _ >>= _) = _ ∧ _
  rw [hprobe]
  refine ⟨_, rfl, h.put hn.le htakes ?_ htake ?_ ?_⟩
  · rw [List.map_set, h.keys]
    obtain ⟨hlt, hget⟩ := List.getElem?_eq_some_iff.mp hkey
    rw [← hget, List.set_getElem_self]
  · exact fun i hi => List.getElem?_set_ne (by omega)
  · exact List.getElem?_set_self (h.length ▸ hn)

theorem rehash_spec (hkeys : t.entries.map (·.indexKey) = ks) (hpow : IsPow2 size)
    (hsize : ks.length < size) (hnodup : ks.Nodup) :
    ∃ t', t.rehash size = .ok t' ∧ Entered ks size ks.length t' := by
  have hloop (n : Nat) (hn : n ≤ ks.length) : ∃ t', (List.range n).foldlM PosTable.enter
      { t with buckets := List.replicate size 0 } = .ok t' ∧ Entered ks size n t' := by
    induction n with
    | zero => exact ⟨_, rfl, hkeys, List.length_replicate, table_empty, fun i hi => by omega⟩
    | succ n ih =>
      obtain ⟨t₁, hrun, h₁⟩ := ih (by omega)
      obtain ⟨t₂, hrun₂, h₂⟩ := enter_spec h₁ hpow hn (by omega) hnodup
      refine ⟨t₂, ?_, h₂⟩
      rw [List.range_succ, List.foldlM_append, hrun]
      show (t₁.enter n >>= pure) = _
      rw [hrun₂]
      rfl
  unfold PosTable.rehash
  rw [← List.length_map (·.indexKey), hkeys]
  exact hloop _ (Nat.le_refl _)

theorem makeRoom_spec (h : PosOk ks t) (hpow : IsPow2 t.buckets.length)
    (htakes : Takes indexHash ks t.buckets key b) (hnew : key ∉ ks) :
    ∃ t' b', t.makeRoom key b = .ok (t', b') ∧ Takes indexHash ks t'.buckets key b' ∧
      Entered ks t'.buckets.length ks.length t' ∧ IsPow2 t'.buckets.length ∧
      (ks.length + 1) * 2 ≤ t'.buckets.length := by
  have hload := h.load
  have hnodup := List.take_length (l := ks) ▸ h.entered.table.nodup
  unfold PosTable.makeRoom
  rw [h.entered.length]
  split
  · have hpos := hpow.pos
    have hdouble : IsPow2 (t.buckets.length * 2) := by
      obtain ⟨k, hk⟩ := hpow
      exact ⟨k + 1, by rw [hk, Nat.pow_succ]⟩
    obtain ⟨t', hrun, h'⟩ := rehash_spec h.entered.keys hdouble (by omega) hnodup
    have hlen' := h'.length_buckets
    have hpow' : IsPow2 t'.buckets.length := hlen' ▸ hdouble
    have htable := h'.table
    rw [List.take_length] at htable
    obtain ⟨b', hprobe, htakes'⟩ := probeFrom_place hpow' htable (by omega) hnew
    refine ⟨t', b', ?_, htakes', hlen' ▸ h', hpow', by omega⟩
    rw [hrun]
    show (AccountIds.probeFrom _ _ _ _ >>= _) = _
    rw [hprobe]
    rfl
  · exact ⟨t, b, rfl, htakes, h.entered, hpow, by omega⟩

/-- The keys and the answer of `getOrAdd`. -/
def getOrAddKey [DecidableEq K] (ks : List K) (key : K) : (Nat × Bool) × List K :=
  if key ∈ ks then ((ks.idxOf key, false), ks) else ((ks.length, true), ks ++ [key])

theorem getOrAdd_spec [DecidableEq K] (h : PosOk ks t) (key : K) :
    ∃ t', t.getOrAdd key = .ok ((getOrAddKey ks key).1, t') ∧ PosOk (getOrAddKey ks key).2 t' := by
  -- the first key gets the first buckets
  obtain ⟨t₀, ht₀, h₀, hpow⟩ : ∃ t₀ : PosTable K, (if t.buckets.length = 0 then
      { t with buckets := List.replicate BalTracker.initialBuckets 0 } else t) = t₀ ∧
      PosOk ks t₀ ∧ IsPow2 t₀.buckets.length := by
    have hload := h.load
    split
    · next hzero =>
      obtain rfl : ks = [] := List.eq_nil_of_length_eq_zero (by omega)
      exact ⟨_, rfl, ⟨⟨h.entered.keys, rfl, table_empty, fun i hi => absurd hi (Nat.not_lt_zero i)⟩,
        .inr ⟨6, rfl⟩, Nat.zero_le _⟩, 6, rfl⟩
    · next hne =>
      exact ⟨t, rfl, h, h.pow2.resolve_left fun hnil => hne (by rw [hnil]; rfl)⟩
  have htable := h₀.entered.table
  rw [List.take_length] at htable
  obtain ⟨b, hprobe, hfound⟩ := probeFrom_search hpow htable
    (by have hload := h₀.load; have hpos := hpow.pos; omega) key
  unfold PosTable.getOrAdd
  rw [ht₀]
  dsimp only
  rw [h₀.entered.keys]
  show ∃ t', (AccountIds.probeFrom _ _ _ _ >>= _) = _ ∧ _
  rw [hprobe]
  unfold getOrAddKey
  rcases hfound with ⟨hnew, htakes⟩ | ⟨hne, hget⟩
  · obtain ⟨t₁, b₁, hroom, htakes₁, h₁, hpow₁, hload₁⟩ := makeRoom_spec h₀ hpow htakes hnew
    rw [if_neg hnew, ← h₁.length]
    refine ⟨⟨t₁.entries ++ [⟨key, b₁⟩], t₁.buckets.set b₁ (t₁.entries.length + 1)⟩, ?_, ?_, ?_, ?_⟩
    · show (if (t₀.buckets.getD b 0 == 0) = true then _ else _) = _
      rw [htakes.empty]
      show (PosTable.makeRoom _ _ _ >>= _) = _
      rw [hroom]
      rfl
    · rw [List.length_append, List.length_set, h₁.length]
      have htakes₂ : Takes indexHash (ks.take ks.length) t₁.buckets key b₁ := by
        rw [List.take_length]
        exact htakes₁
      refine h₁.put (Nat.le_refl _) htakes₂ ?_ ?_ (fun i hi => ?_) ?_
      · rw [List.map_append, h₁.keys]
        rfl
      · rw [List.take_length, List.take_of_length_le (by simp)]
      · exact List.getElem?_append_left (h₁.length ▸ hi)
      · rw [← h₁.length]
        exact List.getElem?_concat_length
    · rw [List.length_set]
      exact .inr hpow₁
    · rw [List.length_append, List.length_set]
      exact hload₁
  · have hmem := List.mem_of_getElem? hget
    have hnodup := htable.nodup
    rw [if_pos hmem]
    refine ⟨t₀, ?_, h₀⟩
    show (if (t₀.buckets.getD b 0 == 0) = true then _ else _) = _
    obtain ⟨hlt, hkey⟩ := List.getElem?_eq_some_iff.mp hget
    rw [if_neg (by simpa using hne), ← hkey, hnodup.idxOf_getElem _ hlt]
    rfl

omit [IndexHash K] in
/-- The loop that clears the buckets of the entries of `l`. -/
theorem clear_spec {l : List (PosEntry K)} {buckets : List Nat}
    (hl : ∀ e ∈ l, e.bucket < buckets.length) : ∃ buckets', l.foldlM (fun buckets e =>
      if e.bucket < buckets.length then .ok (buckets.set e.bucket 0)
      else Except.error BalBuilder.Defect.index) buckets = .ok buckets' ∧
    buckets'.length = buckets.length ∧
    ∀ j, buckets'.getD j 0 = if ∃ e ∈ l, e.bucket = j then 0 else buckets.getD j 0 := by
  induction l generalizing buckets with
  | nil => exact ⟨buckets, rfl, rfl, fun j => by simp⟩
  | cons e l ih =>
    have hlt := hl e List.mem_cons_self
    have hset : (buckets.set e.bucket 0).length = buckets.length := List.length_set
    obtain ⟨buckets', hrun, hlen, hget⟩ := ih fun e' he' => hset.symm ▸ hl e' (.tail e he')
    refine ⟨buckets', ?_, hlen.trans hset, fun j => ?_⟩
    · rw [List.foldlM_cons, if_pos hlt]
      exact hrun
    · rw [hget, getD_set hlt]
      by_cases hj : e.bucket = j
      · simp [hj]
      · simp [hj]

theorem truncate_spec (h : PosOk ks t) (hn : n ≤ ks.length) :
    ∃ t', t.truncate n = .ok t' ∧ PosOk (ks.take n) t' := by
  have hbucket (i : Nat) (e : PosEntry K) (he : t.entries[i]? = some e) :=
    h.entered.bucket i (h.entered.length ▸ (List.getElem?_eq_some_iff.mp he).1) e he
  obtain ⟨buckets, hrun, hlen, hget⟩ := @clear_spec _ (t.entries.drop n) t.buckets
    fun e he => by
      obtain ⟨i, hi⟩ := List.mem_iff_getElem?.mp he
      rw [List.getElem?_drop] at hi
      exact (hbucket _ e hi).1
  have htable := h.entered.table
  rw [List.take_length] at htable
  -- the buckets that are cleared are those of the last positions
  have hget' (j : Nat) : buckets.getD j 0 =
      if n < t.buckets.getD j 0 then 0 else t.buckets.getD j 0 := by
    rw [hget]
    refine if_congr ⟨?_, fun hlt => ?_⟩ rfl rfl
    · rintro ⟨e, he, rfl⟩
      obtain ⟨i, hi⟩ := List.mem_iff_getElem?.mp he
      rw [List.getElem?_drop] at hi
      rw [(hbucket _ e hi).2]
      omega
    · have hvalid := htable.valid j
      obtain ⟨e, he⟩ : ∃ e, t.entries[t.buckets.getD j 0 - 1]? = some e :=
        ⟨_, List.getElem?_eq_getElem (by rw [h.entered.length]; omega)⟩
      have hat := (hbucket _ e he).2
      refine ⟨e, List.mem_iff_getElem?.mpr ⟨t.buckets.getD j 0 - 1 - n, ?_⟩,
        htable.inj _ _ (by omega) (by omega)⟩
      rw [List.getElem?_drop, Nat.add_sub_cancel' (by omega), he]
  unfold PosTable.truncate
  rw [if_pos (h.entered.length ▸ hn)]
  show ∃ t', (List.foldlM _ _ _ >>= _) = _ ∧ _
  rw [hrun]
  have htaken := List.length_take_of_le hn
  refine ⟨_, rfl, ⟨?_, rfl, ?_, fun i hi e he => ?_⟩, ?_, ?_⟩
  · rw [List.map_take, h.entered.keys]
  · rw [List.take_length]
    exact htable.take hn hlen hget'
  · rw [htaken] at hi
    rw [List.getElem?_take_of_lt hi] at he
    obtain ⟨hlt, hat⟩ := hbucket i e he
    refine ⟨hlen ▸ hlt, ?_⟩
    rw [hget', hat, if_neg (by omega)]
  · refine h.pow2.imp (fun hnil => List.eq_nil_of_length_eq_zero ?_) fun hpow => hlen ▸ hpow
    rw [hlen, hnil]
    rfl
  · have hload := h.load
    show _ ≤ buckets.length
    omega

/-- The tables that the operations lead to, with the keys they are to hold: a new key is the last
one, and a truncation drops the last ones. -/
inductive Reached [DecidableEq K] : List K → PosTable K → Prop where
  | empty : Reached [] {}
  | getOrAdd {ks : List K} {t t' : PosTable K} {key : K} {answer : Nat × Bool} : Reached ks t →
      t.getOrAdd key = .ok (answer, t') → Reached (getOrAddKey ks key).2 t'
  | truncate {ks : List K} {t t' : PosTable K} {n : Nat} : Reached ks t →
      t.truncate n = .ok t' → Reached (ks.take n) t'

theorem truncate_error (h : PosOk ks t) (hn : ¬ n ≤ ks.length) :
    t.truncate n = .error .assertion := by
  unfold PosTable.truncate
  rw [h.entered.length]
  exact if_neg hn

theorem Reached.ok [DecidableEq K] (h : Reached ks t) : PosOk ks t := by
  induction h with
  | empty => exact .empty
  | getOrAdd _ hrun ih =>
    obtain ⟨t', hadd, hok⟩ := getOrAdd_spec ih _
    rw [hrun] at hadd
    cases hadd
    exact hok
  | @truncate ks t t' n _ hrun ih =>
    by_cases hn : n ≤ ks.length
    · obtain ⟨t', hcut, hok⟩ := truncate_spec ih hn
      rw [hrun] at hcut
      cases hcut
      exact hok
    · rw [truncate_error ih hn] at hrun
      cases hrun

end

/-! ## The addresses in id order -/

/-- An address that is new gets the next id. -/
def withAddress (addresses : List Address) (address : Address) : List Address :=
  if address ∈ addresses then addresses else addresses ++ [address]

/-- The addresses in the order in which they are first seen. -/
def withAddresses (addresses more : List Address) : List Address := more.foldl withAddress addresses

variable {addresses : List Address}

theorem withAddress_pfx {address : Address} :
    addresses <+: withAddress addresses address := by
  unfold withAddress
  split
  · exact List.prefix_refl _
  · exact List.prefix_append _ _

theorem withAddresses_pfx {more : List Address} :
    addresses <+: withAddresses addresses more := by
  induction more generalizing addresses with
  | nil => exact List.prefix_refl _
  | cons a more ih => exact withAddress_pfx.trans ih

theorem mem_withAddress {a b : Address} :
    a ∈ withAddress addresses b ↔ a ∈ addresses ∨ a = b := by
  unfold withAddress
  split
  · next h =>
    refine ⟨.inl, ?_⟩
    rintro (h' | rfl)
    · exact h'
    · exact h
  · rw [List.mem_append, List.mem_singleton]

theorem mem_withAddresses {more : List Address} {a : Address} :
    a ∈ withAddresses addresses more ↔ a ∈ addresses ∨ a ∈ more := by
  induction more generalizing addresses with
  | nil => simp [withAddresses]
  | cons b more ih =>
    show a ∈ withAddresses (withAddress addresses b) more ↔ _
    rw [ih, mem_withAddress, List.mem_cons, or_assoc]

theorem getElem?_of_pfx {α : Type} {xs ys : List α} (h : xs <+: ys) {i : Nat} {x : α}
    (hx : xs[i]? = some x) : ys[i]? = some x := by
  obtain ⟨rest, rfl⟩ := h
  rw [List.getElem?_append_left (List.getElem?_eq_some_iff.mp hx).1, hx]

theorem idxOf_of_getElem? {α : Type} [BEq α] [LawfulBEq α] {xs : List α} (h : xs.Nodup) {i : Nat}
    {x : α} (hi : xs[i]? = some x) : xs.idxOf x = i := by
  obtain ⟨hlt, rfl⟩ := List.getElem?_eq_some_iff.mp hi
  exact h.idxOf_getElem i hlt

/-! ## The table of account ids -/

section

variable [AddressHash]

/-- The table finds every address. -/
structure IdsOk (accounts : AccountIds) : Prop where
  pow2 : IsPow2 accounts.buckets.length
  table : Table AccountIds.addrHash accounts.addresses accounts.buckets
  room : accounts.addresses.length ≤ accounts.buckets.length

theorem idsOk_init (expected : Nat) : IdsOk (AccountIds.init expected) where
  pow2 := by
    obtain ⟨k, hk⟩ := Nat.isPowerOfTwo_nextPowerOfTwo (max (expected * 2) 64)
    exact ⟨k, by rw [AccountIds.init, List.length_replicate, hk]⟩
  table := table_empty
  room := Nat.zero_le _

section

variable {accounts : AccountIds}

theorem insert_spec {buckets : List Nat} {id : Nat} {address : Address}
    (hpow : IsPow2 buckets.length) (ht : Table AccountIds.addrHash (addresses.take id) buckets)
    (hroom : id < buckets.length) (hid : addresses[id]? = some address)
    (hnew : address ∉ addresses.take id) :
    ∃ buckets', AccountIds.insert buckets addresses id = .ok buckets' ∧
      buckets'.length = buckets.length ∧
      Table AccountIds.addrHash (addresses.take (id + 1)) buckets' := by
  have hlen : (addresses.take id).length = id := by
    have hlt := (List.getElem?_eq_some_iff.mp hid).1
    rw [List.length_take]
    omega
  obtain ⟨i, hprobe, htakes⟩ := probeFrom_place hpow ht (by omega) hnew
  have hinsert := htakes.table
  rw [hlen] at hinsert
  refine ⟨buckets.set i (id + 1), ?_, List.length_set, ?_⟩
  · unfold AccountIds.insert
    rw [hid]
    dsimp only
    rw [hprobe]
    rfl
  · rw [List.take_add_one, hid]
    exact hinsert

/-- Growing enters all addresses into an empty table of twice the size. -/
theorem grow_spec (h : IdsOk accounts) :
    ∃ grown, accounts.grow = .ok grown ∧ IdsOk grown ∧ grown.addresses = accounts.addresses ∧
      grown.addresses.length < grown.buckets.length := by
  unfold AccountIds.grow
  by_cases hfull : accounts.addresses.length * 2 ≥ accounts.buckets.length
  · rw [if_pos hfull]
    have hroom := h.room
    have hloop (n : Nat) (hn : n ≤ accounts.addresses.length) :
        ∃ buckets, (List.range n).foldlM
          (fun grown id => AccountIds.insert grown accounts.addresses id)
          (List.replicate (accounts.buckets.length * 2) 0) = Except.ok buckets ∧
        buckets.length = accounts.buckets.length * 2 ∧
        Table AccountIds.addrHash (accounts.addresses.take n) buckets := by
      induction n with
      | zero => exact ⟨_, rfl, List.length_replicate, table_empty⟩
      | succ n ih =>
        obtain ⟨buckets, hrun, hlen, ht⟩ := ih (by omega)
        have hpow : IsPow2 buckets.length := by
          obtain ⟨k, hk⟩ := h.pow2
          exact ⟨k + 1, by rw [hlen, hk, Nat.pow_succ]⟩
        have hget : accounts.addresses[n]? = some (accounts.addresses.get ⟨n, by omega⟩) :=
          List.getElem?_eq_getElem _
        have hnew : accounts.addresses.get ⟨n, by omega⟩ ∉ accounts.addresses.take n := by
          intro hmem
          obtain ⟨m, hm, heq⟩ := List.mem_take_iff_getElem.mp hmem
          have hsame := (List.Nodup.getElem_inj_iff h.table.nodup).mp heq
          omega
        obtain ⟨buckets', hinsert, hlen', ht'⟩ := insert_spec hpow ht
          (by have hpos := h.pow2.pos; omega) hget hnew
        refine ⟨buckets', ?_, by rw [hlen', hlen], ht'⟩
        rw [List.range_succ, List.foldlM_append, hrun]
        show (AccountIds.insert buckets accounts.addresses n >>= fun grown => pure grown) = _
        rw [hinsert]
        rfl
    obtain ⟨buckets, hrun, hlen, ht⟩ := hloop _ (Nat.le_refl _)
    rw [List.take_length] at ht
    have hpos := h.pow2.pos
    refine ⟨{ accounts with buckets }, ?_, ⟨?_, ht, ?_⟩, rfl, ?_⟩
    · rw [hrun]
      rfl
    · obtain ⟨k, hk⟩ := h.pow2
      exact ⟨k + 1, by rw [hlen, hk, Nat.pow_succ]⟩
    · show accounts.addresses.length ≤ buckets.length
      omega
    · show accounts.addresses.length < buckets.length
      omega
  · rw [if_neg hfull]
    have hpos := h.pow2.pos
    exact ⟨accounts, rfl, h, rfl, by omega⟩

theorem idOf_spec (h : IdsOk accounts) (address : Address) :
    ∃ id accounts', accounts.idOf address = .ok (id, accounts') ∧ IdsOk accounts' ∧
      accounts'.addresses = withAddress accounts.addresses address ∧
      accounts'.addresses[id]? = some address := by
  obtain ⟨grown, hgrow, hg, haddresses, hlt⟩ := grow_spec h
  obtain ⟨i, hprobe, hfound⟩ := probeFrom_search hg.pow2 hg.table hlt address
  unfold AccountIds.idOf
  rw [hgrow]
  show ∃ id accounts', (AccountIds.probeFrom _ _ _ _ >>= _) = Except.ok (id, accounts') ∧ _
  rw [hprobe]
  unfold withAddress
  rw [← haddresses]
  rcases hfound with ⟨hnew, htakes⟩ | ⟨hne, hfound⟩
  · -- the search came to an empty bucket, which the address takes
    refine ⟨grown.addresses.length, ⟨grown.buckets.set i (grown.addresses.length + 1),
      grown.addresses ++ [address]⟩, ?_, ⟨?_, htakes.table, ?_⟩, ?_, List.getElem?_concat_length⟩
    · show (if (grown.buckets.getD i 0 == 0) = true then _ else _) = _
      rw [htakes.empty]
      rfl
    · rw [List.length_set]
      exact hg.pow2
    · rw [List.length_set, List.length_append, List.length_singleton]
      omega
    · rw [if_neg hnew]
  · refine ⟨grown.buckets.getD i 0 - 1, grown, ?_, hg, ?_, hfound⟩
    · show (if (grown.buckets.getD i 0 == 0) = true then _ else _) = _
      rw [if_neg (by simpa using hne)]
      rfl
    · rw [if_pos (List.mem_of_getElem? hfound)]

theorem idsOf_spec (h : IdsOk accounts) (addresses : List Address) :
    ∃ ids accounts', accounts.idsOf addresses = .ok (ids, accounts') ∧ IdsOk accounts' ∧
      accounts'.addresses = withAddresses accounts.addresses addresses ∧
      ids = addresses.map (accounts'.addresses.idxOf ·) := by
  induction addresses generalizing accounts with
  | nil => exact ⟨[], accounts, rfl, h, rfl, rfl⟩
  | cons address addresses ih =>
    obtain ⟨id, accounts₁, hid, h₁, haddr₁, hget⟩ := idOf_spec h address
    obtain ⟨ids, accounts₂, hids, h₂, haddr₂, hgets⟩ := ih h₁
    refine ⟨id :: ids, accounts₂, ?_, h₂, ?_, ?_⟩
    · rw [AccountIds.idsOf, hid]
      show (AccountIds.idsOf accounts₁ addresses >>= _) = _
      rw [hids]
      rfl
    · rw [haddr₂, haddr₁]
      rfl
    · have hpfx : accounts₁.addresses <+: accounts₂.addresses := by
        rw [haddr₂]
        exact withAddresses_pfx
      rw [List.map_cons]
      congr 1
      exact (idxOf_of_getElem? h₂.table.nodup (getElem?_of_pfx hpfx hget)).symm

end

end

/-! ## All tables -/

/-- Every position table holds each of its keys once, at the position it was given: an operation
that succeeds answers as the list of keys does, no probe is endless or leaves the table, and at
least half of the buckets are empty. In the table of account ids each address has the position
where it was first seen. -/
theorem positions_exact :
    (∀ {K : Type} [IndexHash K] [DecidableEq K] {ks : List K} {t : PosTable K}, Reached ks t →
      t.entries.map (·.indexKey) = ks ∧ ks.Nodup ∧ ks.length * 2 ≤ t.buckets.length ∧
      (∀ key, ∃ t', t.getOrAdd key = .ok ((getOrAddKey ks key).1, t')) ∧
      ∀ n, if n ≤ ks.length then ∃ t', t.truncate n = .ok t'
        else t.truncate n = .error .assertion) ∧
    ∀ [AddressHash] (expected : Nat) (addresses : List Address), ∃ ids accounts,
      (AccountIds.init expected).idsOf addresses = .ok (ids, accounts) ∧
      accounts.addresses = withAddresses [] addresses ∧ accounts.addresses.Nodup ∧
      ids = addresses.map (accounts.addresses.idxOf ·) := by
  constructor
  · intro K _ _ ks t h
    have hok := h.ok
    refine ⟨hok.entered.keys, List.take_length (l := ks) ▸ hok.entered.table.nodup, hok.load,
      fun key => ?_, fun n => ?_⟩
    · obtain ⟨t', hadd, -⟩ := getOrAdd_spec hok key
      exact ⟨t', hadd⟩
    · split
      · next hn =>
        obtain ⟨t', hcut, -⟩ := truncate_spec hok hn
        exact ⟨t', hcut⟩
      · next hn => exact truncate_error hok hn
  · intro _ expected addresses
    obtain ⟨ids, accounts, hrun, hok, haddresses, hids⟩ :=
      idsOf_spec (idsOk_init expected) addresses
    exact ⟨ids, accounts, hrun, haddresses, hok.table.nodup, hids⟩

end Nimbus.Spec.BalBuilder
