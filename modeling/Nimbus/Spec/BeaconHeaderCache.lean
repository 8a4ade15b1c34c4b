import Nimbus.Spec.HeaderChainCache

/-!
# What the syncer relies on of the header cache

The syncer puts lists of headers on the cache that it downloaded for a range of numbers. All
it has to know is where the lowest header is afterwards (`put_spec`), and that a header that
it reads from the cache has the number it was asked for (`Keyed`). Unlike for the chain of
headers, no info record matters for this, and no order of the calls.
-/

namespace Nimbus.Spec.Beacon

open Nimbus.Native.HeaderChainCache
open Nimbus.Native.Aristo (Hash32)
open Nimbus.Spec.HeaderChainCache (Kept ModeAfter tryFcParent_cases u64_pred)

/-! ## Headers under their own numbers -/

/-- What may be stored under the number `n`. -/
def RecordAt (n : Nat) : BeaconRecord → Prop
  | .header h => h.number = n ∧ 1 ≤ n
  | .info _ => n = HccDbInfoKey

/-- A header is stored under its own number, and this is not the key of the info record. -/
def Keyed (db : KvtDb) : Prop := ∀ n r, db.beacon.lookup n = some r → RecordAt n r

namespace Keyed

variable {db db' : KvtDb}

section

variable (hk : Keyed db)
include hk

theorem insert {n : Nat} {r : BeaconRecord} (hr : RecordAt n r)
    (h : db'.beacon = db.beacon.insert n r) : Keyed db' := by
  intro n' r' hn
  rw [h, Table.lookup_insert'] at hn
  split at hn
  · next heq =>
    cases hn
    exact heq ▸ hr
  · exact hk n' r' hn

theorem putHeader {h : Header} (hpos : 1 ≤ h.number) : Keyed (db.putHeader h) :=
  hk.insert (r := .header h) ⟨rfl, hpos⟩ rfl

theorem putHeaders {headers : List Header} (hpos : ∀ h ∈ headers, 1 ≤ h.number) :
    Keyed (headers.foldl KvtDb.putHeader db) := by
  induction headers generalizing db with
  | nil => exact hk
  | cons h rest ih =>
    apply ih (hk.putHeader (hpos h List.mem_cons_self))
    intro h' hh'
    exact hpos h' (List.mem_cons_of_mem h hh')

theorem putInfo (state : HccDbInfo) : Keyed (db.putInfo state) :=
  hk.insert (r := .info state) rfl rfl

/-- Reading a header does not fail, and gives the one with the number that was asked for. -/
theorem getHeader {bn : Nat} (hpos : 1 ≤ bn) :
    db.getHeader bn = .ok none ∨ ∃ h, db.getHeader bn = .ok (some h) ∧ h.number = bn := by
  unfold KvtDb.getHeader
  cases hlook : db.beacon.lookup bn with
  | none => exact .inl rfl
  | some r =>
    have hr := hk bn r hlook
    cases r with
    | header h => exact .inr ⟨h, rfl, hr.1⟩
    | info state =>
      have hzero : bn = 0 := hr
      omega

theorem of_lookup (h : ∀ n, db'.beacon.lookup n = none ∨ db'.beacon.lookup n = db.beacon.lookup n) :
    Keyed db' := by
  intro n r hn
  cases h n with
  | inl hnone =>
    rw [hnone] at hn
    cases hn
  | inr heq => exact hk n r (heq ▸ hn)

theorem erase (bn : Nat) (h : db'.beacon = db.beacon.erase bn) : Keyed db' := by
  apply hk.of_lookup
  intro n
  rw [h, Table.lookup_erase']
  split
  · exact .inl rfl
  · exact .inr rfl

theorem delHeaders {least count : Nat} (h : db.delHeaders least count = .ok db') : Keyed db' := by
  induction count generalizing db least with
  | zero =>
    cases h
    exact hk
  | succ count ih =>
    unfold KvtDb.delHeaders at h
    cases hdel : db.delHeader least with
    | error e =>
      rw [hdel] at h
      cases h
    | ok db₁ =>
      rw [hdel] at h
      refine ih (hk.erase least ?_) h
      unfold KvtDb.delHeader at hdel
      split at hdel
      · cases hdel
        rfl
      · cases hdel
        rfl
      · cases hdel

end

theorem persistClear {hc hc' : HeaderChainRef} (hk : Keyed hc.kvt)
    (h : hc.persistClear = .ok hc') : Keyed hc'.kvt ∧ hc'.session = hc.session := by
  unfold HeaderChainRef.persistClear at h
  split at h
  · cases h
    exact ⟨hk, rfl⟩
  · split at h
    · cases h
    · next kvt hdel =>
      cases h
      exact ⟨(hk.delHeaders hdel).erase HccDbInfoKey rfl, rfl⟩

theorem clear {hc hc' : HeaderChainRef} (hk : Keyed hc.kvt) (h : hc.clear = .ok hc') :
    Keyed hc'.kvt ∧ hc'.session = {} := by
  have hk' : Keyed ({ hc with session := {} } : HeaderChainRef).kvt := hk
  exact persistClear hk' h

theorem init {chain : ForkedChain} {hc : HeaderChainRef} (hk : Keyed db)
    (h : HeaderChainRef.init chain db = .ok hc) : Keyed hc.kvt ∧ hc.session = {} :=
  persistClear hk h

end Keyed

/-! ## Putting headers on the cache -/

section
variable [BlockHash] {hc hc' : HeaderChainRef} {res : Except HccError Unit}

/-- Only the end of the chain stops the check early, and what it accepts goes down from `bn`. -/
theorem checkLoop_accepts {n bn : Nat} {expHash : Hash32} {headers : List Header}
    {res : Except HccError Nat} (hlen : headers.length ≤ bn) (hlt : bn < 2 ^ 64)
    (h : hc.checkLoop n bn expHash headers = (hc', res)) :
    Kept hc hc' ∧ ModeAfter hc.session.mode hc'.session.mode ∧
      ∀ count, res = .ok count →
        (hc.session.mode = .collecting → hc'.session.mode = .collecting →
          count = headers.length) ∧
        ∀ hdr ∈ headers.take count, bn + 1 ≤ hdr.number + headers.length := by
  induction headers generalizing hc hc' n bn expHash res with
  | nil =>
    obtain ⟨rfl, rfl⟩ := h
    refine ⟨.refl hc, .inl rfl, ?_⟩
    intro count hcount
    cases hcount
    exact ⟨fun _ _ => rfl, fun _ hmem => by cases hmem⟩
  | cons hdr rest ih =>
    rw [List.length_cons] at hlen
    simp only [HeaderChainRef.checkLoop] at h
    split at h
    · obtain ⟨rfl, rfl⟩ := Prod.mk.inj h
      exact ⟨.refl hc, .inl rfl, fun _ hcount => by cases hcount⟩
    next hnum =>
    split at h
    · obtain ⟨rfl, rfl⟩ := Prod.mk.inj h
      exact ⟨.refl hc, .inl rfl, fun _ hcount => by cases hcount⟩
    next hhash =>
    have hk := Kept.resolvePending hc (computeBlockHash hdr) hdr.number
    have hm := Nimbus.Spec.HeaderChainCache.mode_resolvePending hc (computeBlockHash hdr) hdr.number
    generalize hc.resolvePending (computeBlockHash hdr) hdr.number = hc₁ at h hk hm
    rw [u64_pred (by omega) hlt] at h
    -- the end of the chain is found at `hdr`
    have stop : ∀ mode, mode = .ready ∨ mode = .orphan → ∀ res' : Except HccError Nat,
        (∀ count, res' = .ok count → count = 1) → (hc₁.setMode mode, res') = (hc', res) →
        Kept hc hc' ∧ ModeAfter hc.session.mode hc'.session.mode ∧
          ∀ count, res = .ok count →
            (hc.session.mode = .collecting → hc'.session.mode = .collecting →
              count = (hdr :: rest).length) ∧
            ∀ h ∈ (hdr :: rest).take count, bn + 1 ≤ h.number + (hdr :: rest).length := by
      intro mode hmode res' hone heq
      obtain ⟨rfl, rfl⟩ := Prod.mk.inj heq
      refine ⟨hk.trans (.setMode hc₁ mode), .inr hmode, ?_⟩
      intro count hcount
      obtain rfl := hone count hcount
      constructor
      · intro _ hcoll
        have hset : mode = .collecting := hcoll
        rw [hset] at hmode
        simp at hmode
      · intro h hh
        have hin : h ∈ [hdr] := hh
        rw [List.mem_singleton.mp hin, List.length_cons]
        omega
    -- the check goes on
    have next : ((hc₁.checkLoop (n + 1) (bn - 1) hdr.parentHash rest).1,
          (hc₁.checkLoop (n + 1) (bn - 1) hdr.parentHash rest).2.map (· + 1)) = (hc', res) →
        Kept hc hc' ∧ ModeAfter hc.session.mode hc'.session.mode ∧
          ∀ count, res = .ok count →
            (hc.session.mode = .collecting → hc'.session.mode = .collecting →
              count = (hdr :: rest).length) ∧
            ∀ h ∈ (hdr :: rest).take count, bn + 1 ≤ h.number + (hdr :: rest).length := by
      intro heq
      obtain ⟨rfl, rfl⟩ := Prod.mk.inj heq
      have hlen' : rest.length ≤ bn - 1 := by omega
      have hlt' : bn - 1 < 2 ^ 64 := by omega
      obtain ⟨hk', hm', hacc⟩ := ih hlen' hlt' rfl
      refine ⟨hk.trans hk', hm ▸ hm', ?_⟩
      intro count hcount
      obtain ⟨k, hres, hcount⟩ := except_bind_ok.mp hcount
      cases hcount
      obtain ⟨hall, hin⟩ := hacc k hres
      constructor
      · intro hcoll hcoll'
        rw [hall (hm ▸ hcoll) hcoll', List.length_cons]
      · intro h hh
        rw [List.take_succ_cons, List.mem_cons] at hh
        rw [List.length_cons]
        cases hh with
        | inl heq =>
          rw [heq]
          omega
        | inr hmem =>
          have hbound := hin h hmem
          omega
    split at h
    · split at h
      · next hend => exact stop _ hend _ (fun _ hcount => (Except.ok.inj hcount).symm) h
      · exact next h
    · split at h
      · split at h
        · exact stop .ready (.inl rfl) _ (fun _ hcount => (Except.ok.inj hcount).symm) h
        · refine stop .orphan (.inr rfl) _ ?_ h
          intro count hcount
          cases hcount
      · exact next h

/-- A list of headers for the numbers from `lo` to `hi`, as the syncer gets them. -/
structure ForRange (rev : List Header) (lo hi : Nat) : Prop where
  ne_nil : rev ≠ []
  first : (rev.headD {}).number = hi
  last : (rev.getLastD {}).number = lo
  len : lo + rev.length = hi + 1

/-- How a list of headers for `lo .. hi` changes the cache. -/
structure PutOutcome (hc hc' : HeaderChainRef) (res : Except HccError Unit) (lo hi : Nat) : Prop where
  head : hc'.session.head = hc.session.head
  mode : ModeAfter .collecting hc'.session.mode
  keyed : Keyed hc.kvt → Keyed hc'.kvt
  ante : hc'.session.ante = hc.session.ante ∨
    hi + 1 = hc.session.ante.number ∧ lo ≤ hc'.session.ante.number
  /-- while the session goes on -/
  collecting : hc'.session.mode = .collecting →
    (∃ e, res = .error e) ∧ hc'.session.ante = hc.session.ante ∨
      res = .ok () ∧ hi + 1 = hc.session.ante.number ∧ hc'.session.ante.number = lo

omit [BlockHash] in
/-- The chain does not change, though the session may end. -/
theorem PutOutcome.unchanged {hc'' : HeaderChainRef} {lo hi : Nat}
    (hk : Kept hc hc'') (hmode : ModeAfter .collecting hc''.session.mode)
    (hres : hc''.session.mode = .collecting → ∃ e, res = .error e) : PutOutcome hc hc'' res lo hi where
  head := hk.head
  mode := hmode
  keyed h := hk.kvt ▸ h
  ante := .inl hk.ante
  collecting hcoll := .inl ⟨hres hcoll, hk.ante⟩

theorem PutOutcome.append {rev : List Header} {lo hi : Nat} (hcoll : hc.session.mode = .collecting)
    (hr : ForRange rev lo hi) (hlo : 1 ≤ lo) (hante : hi + 1 = hc.session.ante.number)
    (h : hc.append rev hi = (hc', res)) : PutOutcome hc hc' res lo hi := by
  have hlt := hc.session.ante.number_lt
  have hlen := hr.len
  have hu : u64 (hi + 1) - hc.session.ante.number = 0 := by
    unfold u64
    omega
  have hbn : u64 (hi + (2 ^ 64 - u64 0)) = hi := by
    unfold u64
    omega
  have hpos : 0 < rev.length := List.length_pos_iff.mpr hr.ne_nil
  unfold HeaderChainRef.append at h
  simp only [hu, hbn, if_pos hpos, List.drop_zero] at h
  cases hloop : hc.checkLoop 0 hi hc.session.ante.parentHash rev with
  | mk hc₁ res₁ =>
    obtain ⟨hk, hmode, hacc⟩ := checkLoop_accepts (by omega) (by omega) hloop
    rw [hcoll] at hmode
    rw [hloop] at h
    cases res₁ with
    | error e =>
      obtain ⟨rfl, rfl⟩ := Prod.mk.inj h
      exact .unchanged hk hmode fun _ => ⟨e, rfl⟩
    | ok count =>
      obtain ⟨rfl, rfl⟩ := Prod.mk.inj h
      obtain ⟨hall, hin⟩ := hacc count rfl
      have hstored : ∀ hdr ∈ rev.take count, lo ≤ hdr.number := by
        intro hdr hmem
        have hbound := hin hdr hmem
        omega
      refine ⟨hk.head, hmode, ?_, ?_, ?_⟩
      · intro hkeyed
        apply Keyed.putInfo
        apply Keyed.putHeaders (hk.kvt ▸ hkeyed)
        intro hdr hmem
        exact le_trans hlo (hstored hdr hmem)
      · show (rev.take count).getLastD hc₁.session.ante = hc.session.ante ∨
          hi + 1 = hc.session.ante.number ∧
            lo ≤ ((rev.take count).getLastD hc₁.session.ante).number
        cases htake : (rev.take count).getLast? with
        | none =>
          left
          rw [List.getLastD_eq_getLast?, htake]
          exact hk.ante
        | some hdr =>
          right
          rw [List.getLastD_eq_getLast?, htake]
          exact ⟨hante, hstored hdr (List.mem_of_getLast? htake)⟩
      · intro hcoll'
        right
        have hcount : count = rev.length := hall hcoll hcoll'
        refine ⟨rfl, hante, ?_⟩
        show ((rev.take count).getLastD hc₁.session.ante).number = lo
        rw [hcount, List.take_length, ← hr.last]
        obtain ⟨hdr, hdr', heq⟩ := List.eq_nil_or_concat rev |>.resolve_left hr.ne_nil
        rw [heq, List.concat_eq_append, List.getLastD_concat, List.getLastD_concat]

theorem put_spec {rev : List Header} {lo hi : Nat} (hcoll : hc.session.mode = .collecting)
    (hr : ForRange rev lo hi) (hlo : 1 ≤ lo) (hhi : hi < hc.session.ante.number)
    (h : hc.put rev = (hc', res)) : PutOutcome hc hc' res lo hi := by
  have hlt := hc.session.ante.number_lt
  have hu : u64 (hi + 1) = hi + 1 := by
    unfold u64
    omega
  obtain ⟨first, rest, rfl⟩ := List.exists_cons_of_ne_nil hr.ne_nil
  have hfirst : first.number = hi := hr.first
  unfold HeaderChainRef.put at h
  simp only [hcoll, hfirst, hu, reduceCtorEq, or_self, if_false, ne_eq, not_true_eq_false] at h
  split at h
  · obtain ⟨rfl, rfl⟩ := Prod.mk.inj h
    exact .unchanged (.refl hc) (.inl hcoll) fun _ => ⟨_, rfl⟩
  next hgap =>
  split at h
  · obtain ⟨rfl, rfl⟩ := Prod.mk.inj h
    exact .unchanged (.refl hc) (.inl hcoll) fun _ => ⟨_, rfl⟩
  split at h
  · split at h
    · next hend =>
      obtain ⟨rfl, rfl⟩ := Prod.mk.inj h
      refine .unchanged (.setMode hc _) (.inr hend) ?_
      intro hmode
      have hset : hc.tryFcParent hc.session.ante = .collecting := hmode
      rw [hset] at hend
      simp at hend
    · exact .append hcoll hr hlo (by omega) h
  · split at h
    · obtain ⟨rfl, rfl⟩ := Prod.mk.inj h
      exact .unchanged (.setMode hc .orphan) (.inr (.inr rfl)) nofun
    · exact .append hcoll hr hlo (by omega) h

end

end Nimbus.Spec.Beacon
