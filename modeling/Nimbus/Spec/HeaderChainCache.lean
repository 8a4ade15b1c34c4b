import Nimbus.ForStd.ExecM
import Nimbus.Native.HeaderChainCache

/-!
# The header chain cache over whole runs

What the record table of the header chain cache holds while a session is open: the headers
from some lowest number up to the session head, each the child of the one below (`Stored`).
Storing a batch of ancestors moves the lower end down, cleaning up from the lower end to the
head leaves nothing.

While a session is open the table holds one chain of headers that ends at the session head
and reaches down at least to the antecedent, and nothing else (`Inv`). Every call keeps
this, with one exception: a session that is cleared before it stored a batch has no info
record yet, so its head stays in the table, and a later session reads it. The runs of
`session_chain` are those where this does not happen.
-/

namespace Nimbus.Spec.HeaderChainCache

open Nimbus.Native.HeaderChainCache
open Nimbus.Native.Aristo (Hash32)

variable [BlockHash]

/-- `h` is reached from `head` by following parent hashes, one number at a time. -/
inductive OnChain (head : Header) : Header → Prop where
  | head : OnChain head head
  | parent {h h' : Header} : OnChain head h → h.parentHash = computeBlockHash h' →
      h'.number + 1 = h.number → OnChain head h'

theorem OnChain.number_le {head h : Header} (hc : OnChain head h) : h.number ≤ head.number := by
  induction hc with
  | head => exact Nat.le_refl _
  | parent _ _ hnum ih => omega

/-- The table holds the headers numbered from `lo` to the head, linked by parent hashes,
and besides them at most the info record. -/
structure Stored (beacon : Table Nat BeaconRecord) (head : Header) (lo : Nat) : Prop where
  pos : 0 < lo
  le : lo ≤ head.number
  stored : ∀ n, lo ≤ n → n ≤ head.number →
    ∃ h, beacon.lookup n = some (.header h) ∧ h.number = n
  above : ∀ n, head.number < n → beacon.lookup n = none
  below : ∀ n, n < lo → n ≠ HccDbInfoKey → beacon.lookup n = none
  infoKey : ∀ h, beacon.lookup HccDbInfoKey ≠ some (.header h)
  link : ∀ n h h', lo ≤ n → beacon.lookup n = some (.header h) →
    beacon.lookup (n + 1) = some (.header h') → h'.parentHash = computeBlockHash h
  top : beacon.lookup head.number = some (.header head)

namespace Stored

variable {beacon : Table Nat BeaconRecord} {head : Header} {lo : Nat}

section

variable (hs : Stored beacon head lo) {n : Nat} {h : Header} (hn : beacon.lookup n = some (.header h))
include hs h hn

theorem range : lo ≤ n ∧ n ≤ head.number := by
  have hkey : n ≠ HccDbInfoKey := fun he => hs.infoKey h (he ▸ hn)
  constructor
  · apply Nat.le_of_not_lt
    intro hlt
    rw [hs.below n hlt hkey] at hn
    cases hn
  · apply Nat.le_of_not_lt
    intro hlt
    rw [hs.above n hlt] at hn
    cases hn

theorem number_eq : h.number = n := by
  obtain ⟨h', hn', hnum⟩ := hs.stored n (hs.range hn).1 (hs.range hn).2
  rw [hn'] at hn
  cases hn
  exact hnum

theorem onChain : OnChain head h := by
  -- induction on the distance from the head
  obtain ⟨hlo, hhi⟩ := hs.range hn
  obtain ⟨k, hk⟩ := Nat.exists_eq_add_of_le hhi
  induction k generalizing n h with
  | zero =>
    have htop := hs.top
    rw [hk, Nat.add_zero, hn] at htop
    cases htop
    exact .head
  | succ k ih =>
    obtain ⟨h', hn', hnum'⟩ := hs.stored (n + 1) (by omega) (by omega)
    have hup : OnChain head h' := ih hn' (by omega) (by omega) (by omega)
    apply OnChain.parent hup (hs.link n h h' hlo hn hn')
    rw [hs.number_eq hn, hnum']

end

theorem new {h : Header} (hpos : 0 < h.number)
    (hempty : ∀ n, n ≠ HccDbInfoKey → beacon.lookup n = none)
    (hinfo : ∀ h', beacon.lookup HccDbInfoKey ≠ some (.header h')) :
    Stored (beacon.insert h.number (.header h)) h h.number where
  pos := hpos
  le := Nat.le_refl _
  stored n hlo hhi := by
    have hn : n = h.number := by omega
    exact ⟨h, by rw [hn, AList.lookup_insert], hn.symm⟩
  above n hn := by
    rw [Table.lookup_insert', if_neg (by omega)]
    exact hempty n (by simp only [HccDbInfoKey]; omega)
  below n hn hne := by
    rw [Table.lookup_insert', if_neg (by omega)]
    exact hempty n hne
  infoKey h' := by
    rw [Table.lookup_insert', if_neg (by simp only [HccDbInfoKey]; omega)]
    exact hinfo h'
  link n a b hn ha hb := by
    rw [Table.lookup_insert', if_neg (by omega), hempty _ (by simp [HccDbInfoKey])] at hb
    cases hb
  top := AList.lookup_insert _

theorem putHeader (hs : Stored beacon head lo) {ante h : Header}
    (hante : beacon.lookup lo = some (.header ante)) (hnum : h.number + 1 = lo)
    (hpos : 0 < h.number) (hhash : ante.parentHash = computeBlockHash h) :
    Stored (beacon.insert h.number (.header h)) head h.number where
  pos := hpos
  le := by have := hs.le; omega
  stored n hlo hhi := by
    by_cases hn : n = h.number
    · exact ⟨h, by rw [hn, AList.lookup_insert], hn.symm⟩
    · rw [Table.lookup_insert', if_neg hn]
      exact hs.stored n (by omega) hhi
  above n hn := by
    have hle := hs.le
    rw [Table.lookup_insert', if_neg (by omega)]
    exact hs.above n hn
  below n hn hne := by
    rw [Table.lookup_insert', if_neg (by omega)]
    exact hs.below n (by omega) hne
  infoKey h' := by
    rw [Table.lookup_insert', if_neg (by simp only [HccDbInfoKey]; omega)]
    exact hs.infoKey h'
  link n a b hn ha hb := by
    rw [Table.lookup_insert', if_neg (by omega)] at hb
    by_cases hne : n = h.number
    · rw [hne, AList.lookup_insert] at ha
      cases ha
      rw [hne, hnum, hante] at hb
      cases hb
      exact hhash
    · rw [Table.lookup_insert', if_neg hne] at ha
      exact hs.link n a b (by omega) ha hb
  top := by
    have hle := hs.le
    rw [Table.lookup_insert', if_neg (by omega)]
    exact hs.top

theorem putInfo (hs : Stored beacon head lo) (state : HccDbInfo) :
    Stored (beacon.insert HccDbInfoKey (.info state)) head lo where
  pos := hs.pos
  le := hs.le
  stored n hlo hhi := by
    have hpos := hs.pos
    rw [Table.lookup_insert', if_neg (by simp only [HccDbInfoKey]; omega)]
    exact hs.stored n hlo hhi
  above n hn := by
    rw [Table.lookup_insert', if_neg (by simp only [HccDbInfoKey]; omega)]
    exact hs.above n hn
  below n hn hne := by
    rw [Table.lookup_insert', if_neg hne]
    exact hs.below n hn hne
  infoKey h := by simp [AList.lookup_insert]
  link n a b hn ha hb := by
    have hpos := hs.pos
    rw [Table.lookup_insert', if_neg (by simp only [HccDbInfoKey]; omega)] at ha
    rw [Table.lookup_insert'] at hb
    exact hs.link n a b hn ha hb
  top := by
    have hpos := hs.pos
    have hle := hs.le
    rw [Table.lookup_insert', if_neg (by simp only [HccDbInfoKey]; omega)]
    exact hs.top

end Stored

/-! ## Batches -/

/-- The headers go down one number at a time, from the number `bn` and the hash `expHash`. -/
def Descends (bn : Nat) (expHash : Hash32) : List Header → Prop
  | [] => True
  | h :: rest => h.number = bn ∧ 0 < bn ∧ expHash = computeBlockHash h ∧
    Descends (bn - 1) h.parentHash rest

theorem Stored.putHeaders {db : KvtDb} {head ante : Header} {lo : Nat} {headers : List Header}
    (hs : Stored db.beacon head lo) (hante : db.beacon.lookup lo = some (.header ante))
    (hd : Descends (lo - 1) ante.parentHash headers) :
    Stored (headers.foldl KvtDb.putHeader db).beacon head (lo - headers.length) ∧
      (headers.foldl KvtDb.putHeader db).beacon.lookup (lo - headers.length) =
        some (.header (headers.getLastD ante)) := by
  induction headers generalizing db ante lo with
  | nil => exact ⟨hs, hante⟩
  | cons h rest ih =>
    obtain ⟨hnum, hpos, hhash, hrest⟩ := hd
    have hlo := hs.pos
    have hs' : Stored (db.putHeader h).beacon head (lo - 1) :=
      hnum ▸ hs.putHeader hante (by omega) (by omega) hhash
    have hh : (db.putHeader h).beacon.lookup (lo - 1) = some (.header h) := by
      rw [← hnum]
      exact AList.lookup_insert _
    have hlen : lo - (h :: rest).length = lo - 1 - rest.length := by
      rw [List.length_cons]
      omega
    rw [hlen, List.getLastD_cons]
    exact ih hs' hh hrest

/-! ## Cleaning up -/

omit [BlockHash] in
theorem delHeader_spec {db : KvtDb} {bn : Nat}
    (hh : ∀ state, db.beacon.lookup bn ≠ some (.info state)) :
    ∃ db', db.delHeader bn = .ok db' ∧ db'.beacon = db.beacon.erase bn := by
  unfold KvtDb.delHeader
  cases hn : db.beacon.lookup bn with
  | none => exact ⟨_, rfl, rfl⟩
  | some r =>
    cases r with
    | header h => exact ⟨_, rfl, rfl⟩
    | info state => exact absurd hn (hh state)

omit [BlockHash] in
theorem delHeaders_spec {db : KvtDb} {least : Nat} (count : Nat)
    (hh : ∀ n state, least ≤ n → db.beacon.lookup n ≠ some (.info state)) :
    ∃ db', db.delHeaders least count = .ok db' ∧ ∀ n, db'.beacon.lookup n =
      if least ≤ n ∧ n < least + count then none else db.beacon.lookup n := by
  induction count generalizing db least with
  | zero => exact ⟨db, rfl, fun n => by rw [if_neg (by omega)]⟩
  | succ count ih =>
    obtain ⟨db₁, hdb₁, hbeacon⟩ := delHeader_spec (hh least · (Nat.le_refl _))
    have hh₁ : ∀ n state, least + 1 ≤ n → db₁.beacon.lookup n ≠ some (.info state) := by
      intro n state hn
      rw [hbeacon, Table.lookup_erase', if_neg (by omega)]
      exact hh n state (by omega)
    obtain ⟨db₂, hdb₂, hlook⟩ := ih hh₁
    refine ⟨db₂, ?_, fun n => ?_⟩
    · simp only [KvtDb.delHeaders, hdb₁]
      exact hdb₂
    · rw [hlook n, hbeacon, Table.lookup_erase']
      by_cases hn : n = least
      · rw [if_neg (by omega), if_pos hn, if_pos (by omega)]
      · by_cases hin : least + 1 ≤ n ∧ n < least + 1 + count
        · rw [if_pos hin, if_pos (by omega)]
        · rw [if_neg hin, if_neg hn, if_neg (by omega)]

end Nimbus.Spec.HeaderChainCache

/-! ## Sessions -/

namespace Nimbus.Spec.HeaderChainCache

open Nimbus.Native.HeaderChainCache
open Nimbus.Native.HeaderChainCache.HeaderChainRef (HccCmd)
open Nimbus.Native.Aristo (Hash32)
open HeaderChainRef KvtDb

section
variable [BlockHash] {h : Header} {n : Nat}

variable {hc hc' : HeaderChainRef} {lo : Nat}

/-- An open session on a table that reaches down to `lo`. -/
structure Open (hc : HeaderChainRef) (lo : Nat) : Prop where
  stored : Stored hc.kvt.beacon hc.session.head lo
  lo_le : lo ≤ hc.session.ante.number
  ante : hc.kvt.beacon.lookup hc.session.ante.number = some (.header hc.session.ante)
  headHash : hc.session.headHash = computeBlockHash hc.session.head
  head_lt : hc.session.head.number + 1 < 2 ^ 64
  info : ∀ state, hc.kvt.getInfo = some state → state = ⟨lo, hc.session.head.number⟩
  collecting : hc.session.mode = .collecting → lo = hc.session.ante.number
  blind : hc.session.mode = .collecting → ∀ stop, hc.session.stopNum = some stop →
    stop + 1 < hc.session.ante.number ∨ hc.session.ante.number ≤ stop

/-- Between two sessions the table is empty. -/
structure Closed (hc : HeaderChainRef) : Prop where
  mode : hc.session.mode = .closed
  empty : ∀ n, hc.kvt.beacon.lookup n = none

def Inv (hc : HeaderChainRef) : Prop :=
  Closed hc ∨ hc.session.mode ≠ .closed ∧ ∃ lo, Open hc lo

/-! ## The header check -/

/-- The parts of the descriptor that the header check leaves alone. -/
structure Kept (hc hc' : HeaderChainRef) : Prop where
  kvt : hc'.kvt = hc.kvt
  ante : hc'.session.ante = hc.session.ante
  head : hc'.session.head = hc.session.head
  headHash : hc'.session.headHash = hc.session.headHash
  stopNum : hc'.session.stopNum = hc.session.stopNum
  stopHash : hc'.session.stopHash = hc.session.stopHash

namespace Kept

omit [BlockHash]

theorem refl (hc : HeaderChainRef) : Kept hc hc := ⟨rfl, rfl, rfl, rfl, rfl, rfl⟩

theorem trans {hc₁ hc₂ hc₃ : HeaderChainRef} (h : Kept hc₁ hc₂) (h' : Kept hc₂ hc₃) :
    Kept hc₁ hc₃ where
  kvt := h'.kvt.trans h.kvt
  ante := h'.ante.trans h.ante
  head := h'.head.trans h.head
  headHash := h'.headHash.trans h.headHash
  stopNum := h'.stopNum.trans h.stopNum
  stopHash := h'.stopHash.trans h.stopHash

theorem setMode (hc : HeaderChainRef) (mode : HeaderChainMode) : Kept hc (hc.setMode mode) :=
  ⟨rfl, rfl, rfl, rfl, rfl, rfl⟩

theorem resolvePending (hc : HeaderChainRef) (hash : Hash32) (number : Nat) :
    Kept hc (hc.resolvePending hash number) := by
  unfold HeaderChainRef.resolvePending
  split
  · exact ⟨rfl, rfl, rfl, rfl, rfl, rfl⟩
  · exact refl hc

end Kept

omit [BlockHash] in
theorem mode_resolvePending (hc : HeaderChainRef) (hash : Hash32) (number : Nat) :
    (hc.resolvePending hash number).session.mode = hc.session.mode := by
  unfold resolvePending
  split <;> rfl

/-- How the check may leave the mode: as it was, or with an end of the chain found. -/
def ModeAfter (old new : HeaderChainMode) : Prop := new = old ∨ new = .ready ∨ new = .orphan

/-- What the check of the headers from number `bn` on says when it accepts `count`. -/
structure Accepted (hc hc' : HeaderChainRef) (bn : Nat) (expHash : Hash32)
    (headers : List Header) (count : Nat) : Prop where
  le : count ≤ headers.length
  descends : Descends bn expHash (headers.take count)
  blind : hc'.session.mode = .collecting → ∀ stop, hc.session.stopNum = some stop →
    stop + count < bn

omit [BlockHash] in
theorem tryFcParent_cases (hc : HeaderChainRef) (hdr : Header) :
    hc.tryFcParent hdr = .ready ∨ hc.tryFcParent hdr = .orphan ∨
      hc.tryFcParent hdr = .collecting ∧ hc.chain.baseNumber + 1 < hdr.number := by
  unfold tryFcParent
  split
  · exact .inl rfl
  · split
    · next hlt => exact .inr (.inr ⟨rfl, hlt⟩)
    · exact .inr (.inl rfl)

omit [BlockHash] in
theorem u64_pred {bn : Nat} (hpos : 0 < bn) (hlt : bn < 2 ^ 64) :
    u64 (bn + (2 ^ 64 - 1)) = bn - 1 := by
  unfold u64
  omega

theorem Accepted.cons {hc₁ : HeaderChainRef} {bn count : Nat} {expHash : Hash32} {hdr : Header}
    {rest : List Header} (hk : Kept hc hc₁) (hnum : bn = hdr.number) (hpos : 0 < bn)
    (hhash : expHash = computeBlockHash hdr)
    (h : Accepted hc₁ hc' (bn - 1) hdr.parentHash rest count) :
    Accepted hc hc' bn expHash (hdr :: rest) (count + 1) where
  le := Nat.succ_le_succ h.le
  descends := ⟨hnum.symm, hpos, hhash, h.descends⟩
  blind hmode stop hstop := by
    have hlt := h.blind hmode stop (hk.stopNum ▸ hstop)
    omega

theorem checkLoop_spec {n bn : Nat} {expHash : Hash32} {headers : List Header}
    {res : Except HccError Nat} (hpos : 0 < bn) (hlt : bn < 2 ^ 64)
    (hstop : ∀ stop, hc.session.stopNum = some stop → stop + 1 ≤ bn)
    (h : hc.checkLoop n bn expHash headers = (hc', res)) :
    Kept hc hc' ∧ ModeAfter hc.session.mode hc'.session.mode ∧
      ∀ count, res = .ok count → Accepted hc hc' bn expHash headers count := by
  induction headers generalizing hc hc' n bn expHash res with
  | nil =>
    obtain ⟨rfl, rfl⟩ := h
    refine ⟨.refl hc, .inl rfl, fun count hcount => ?_⟩
    cases hcount
    exact ⟨Nat.zero_le _, trivial, fun _ stop hs => by have := hstop stop hs; omega⟩
  | cons hdr rest ih =>
    simp only [checkLoop] at h
    -- the two checks of the header itself
    split at h
    · obtain ⟨rfl, rfl⟩ := Prod.mk.inj h
      exact ⟨.refl hc, .inl rfl, fun _ hcount => nomatch hcount⟩
    next hnum =>
    split at h
    · obtain ⟨rfl, rfl⟩ := Prod.mk.inj h
      exact ⟨.refl hc, .inl rfl, fun _ hcount => nomatch hcount⟩
    next hhash =>
    rw [not_not] at hnum hhash
    have hk := Kept.resolvePending hc (computeBlockHash hdr) hdr.number
    have hm := mode_resolvePending hc (computeBlockHash hdr) hdr.number
    generalize hc.resolvePending (computeBlockHash hdr) hdr.number = hc₁ at h hk hm
    have hone : Descends bn expHash ((hdr :: rest).take 1) :=
      ⟨hnum.symm, hpos, hhash, trivial⟩
    rw [u64_pred hpos hlt] at h
    -- the step to the rest of the list, when it is taken
    have next : ∀ {hc' res}, 0 < bn - 1 →
        (∀ stop, hc₁.session.stopNum = some stop → stop + 1 ≤ bn - 1) →
        ((hc₁.checkLoop (n + 1) (bn - 1) hdr.parentHash rest).1,
          (hc₁.checkLoop (n + 1) (bn - 1) hdr.parentHash rest).2.map (· + 1)) = (hc', res) →
        Kept hc hc' ∧ ModeAfter hc.session.mode hc'.session.mode ∧
          ∀ count, res = .ok count → Accepted hc hc' bn expHash (hdr :: rest) count := by
      intro hc' res hpos' hstop' heq
      obtain ⟨rfl, rfl⟩ := Prod.mk.inj heq
      obtain ⟨hk', hm', hacc⟩ := ih hpos' (by omega) hstop' rfl
      refine ⟨hk.trans hk', hm ▸ hm', fun count hcount => ?_⟩
      obtain ⟨k, hres, hcount⟩ := except_bind_ok.mp hcount
      cases hcount
      exact (hacc k hres).cons hk hnum hpos hhash
    split at h
    · next hnone =>
      split at h
      · next hend =>
        obtain ⟨rfl, rfl⟩ := Prod.mk.inj h
        refine ⟨hk.trans (.setMode hc₁ _), .inr hend, fun count hcount => ?_⟩
        cases hcount
        refine ⟨by simp, hone, fun _ stop hs => ?_⟩
        rw [← hk.stopNum, hnone] at hs
        cases hs
      · next hgo =>
        obtain hr | hr | ⟨_, hbase⟩ := tryFcParent_cases hc₁ hdr
        · exact absurd (.inl hr) hgo
        · exact absurd (.inr hr) hgo
        · exact next (by omega) (fun stop hs => by rw [hnone] at hs; cases hs) h
    · next stop hsome =>
      have hbound := hstop stop (hk.stopNum ▸ hsome)
      have hu : u64 (1 + stop) = stop + 1 := by unfold u64; omega
      split at h
      · split at h
        · obtain ⟨rfl, rfl⟩ := Prod.mk.inj h
          refine ⟨hk.trans (.setMode hc₁ _), .inr (.inl rfl), fun count hcount => ?_⟩
          cases hcount
          exact ⟨by simp, hone, nofun⟩
        · obtain ⟨rfl, rfl⟩ := Prod.mk.inj h
          exact ⟨hk.trans (.setMode hc₁ _), .inr (.inr rfl), fun _ hcount => nomatch hcount⟩
      · next hne =>
        refine next (by omega) (fun stop' hs => ?_) h
        rw [hsome] at hs
        cases hs
        omega

/-! ## One call -/

/-- Changes beside the chain of headers keep the session open. -/
theorem Open.kept (ho : Open hc lo) (hk : Kept hc hc')
    (hmode : hc'.session.mode = .collecting → hc.session.mode = .collecting) : Open hc' lo where
  stored := by rw [hk.kvt, hk.head]; exact ho.stored
  lo_le := by rw [hk.ante]; exact ho.lo_le
  ante := by rw [hk.kvt, hk.ante]; exact ho.ante
  headHash := by rw [hk.headHash, hk.head]; exact ho.headHash
  head_lt := by rw [hk.head]; exact ho.head_lt
  info := by rw [hk.kvt, hk.head]; exact ho.info
  collecting hm := by rw [hk.ante]; exact ho.collecting (hmode hm)
  blind hm := by rw [hk.ante, hk.stopNum]; exact ho.blind (hmode hm)

theorem Open.setMode (ho : Open hc lo) {mode : HeaderChainMode} (hne : mode ≠ .collecting) :
    Open (hc.setMode mode) lo :=
  ho.kept (.setMode hc mode) fun h => absurd h hne

theorem Open.store (ho : Open hc lo) (hcoll : hc.session.mode = .collecting) {headers : List Header}
    (hd : Descends (hc.session.ante.number - 1) hc.session.ante.parentHash headers)
    (hk : Kept hc hc')
    (hblind : hc'.session.mode = .collecting → ∀ stop, hc.session.stopNum = some stop →
      stop + 1 < lo - headers.length) :
    Open (hc'.store headers) (lo - headers.length) := by
  have hlo := ho.collecting hcoll
  have hante := ho.ante
  rw [← hlo] at hante hd
  obtain ⟨hs, hlast⟩ := ho.stored.putHeaders hante hd
  have hnum := hs.number_eq hlast
  rw [← hk.kvt] at hs hlast
  rw [← hk.ante] at hlast hnum
  rw [← hk.head] at hs
  have hpos := hs.pos
  exact {
    stored := by
      have h := hs.putInfo ⟨(headers.getLastD hc'.session.ante).number,
        hc'.session.head.number⟩
      exact h
    lo_le := Nat.le_of_eq hnum.symm
    ante := by
      have hne : lo - headers.length ≠ HccDbInfoKey := by simp only [HccDbInfoKey]; omega
      have h : (hc'.store headers).kvt.beacon.lookup (lo - headers.length) =
          some (.header (headers.getLastD hc'.session.ante)) := by
        show (AList.insert _ _ _).lookup _ = _
        rw [Table.lookup_insert', if_neg hne]
        exact hlast
      rw [← hnum] at h
      exact h
    headHash := by
      show hc'.session.headHash = computeBlockHash hc'.session.head
      rw [hk.headHash, hk.head]
      exact ho.headHash
    head_lt := by
      show hc'.session.head.number + 1 < 2 ^ 64
      rw [hk.head]
      exact ho.head_lt
    info := by
      intro state hstate
      have hget : (hc'.store headers).kvt.getInfo =
          some ⟨(headers.getLastD hc'.session.ante).number, hc'.session.head.number⟩ := by
        simp [HeaderChainRef.store, HeaderChainRef.persistInfo, putInfo, getInfo,
          AList.lookup_insert]
      rw [hget, hnum] at hstate
      exact (Option.some.inj hstate).symm
    collecting := fun _ => hnum.symm
    blind := by
      intro hmode stop hstop
      left
      have h := hblind hmode stop (hk.stopNum ▸ hstop)
      rw [← hnum] at h
      exact h }

omit [BlockHash] in
theorem ModeAfter.ne_closed {old new : HeaderChainMode} (h : ModeAfter old new)
    (hold : old ≠ .closed) : new ≠ .closed := by
  rcases h with h | h | h
  · rw [h]; exact hold
  · rw [h]; decide
  · rw [h]; decide

omit [BlockHash] in
theorem ModeAfter.collecting {old new : HeaderChainMode} (h : ModeAfter old new)
    (hnew : new = .collecting) : old = .collecting := by
  rcases h with h | h | h
  · exact h.symm.trans hnew
  · rw [h] at hnew; cases hnew
  · rw [h] at hnew; cases hnew

/-- What a call of `put` can do: leave the headers alone, or store a batch below the
antecedent of an open session. -/
inductive AfterPut [BlockHash] (hc : HeaderChainRef) : HeaderChainRef → Prop where
  | kept {hc' : HeaderChainRef} : Kept hc hc' →
      ModeAfter hc.session.mode hc'.session.mode → AfterPut hc hc'
  | stored {hc₁ : HeaderChainRef} {headers : List Header} : hc.session.mode = .collecting →
      Kept hc hc₁ → ModeAfter hc.session.mode hc₁.session.mode →
      Descends (hc.session.ante.number - 1) hc.session.ante.parentHash headers →
      (hc₁.session.mode = .collecting → ∀ stop, hc.session.stopNum = some stop →
        stop + headers.length < hc.session.ante.number - 1) →
      AfterPut hc (hc₁.store headers)

theorem append_cases (hcoll : hc.session.mode = .collecting) {rev : List Header}
    {lastNumber : Nat} (hlast : lastNumber + 1 < 2 ^ 64)
    (hgap : hc.session.ante.number ≤ lastNumber + 1) (hbn : 1 < hc.session.ante.number)
    (hstop : ∀ stop, hc.session.stopNum = some stop → stop + 1 < hc.session.ante.number) :
    AfterPut hc (hc.append rev lastNumber).1 := by
  unfold append
  have hu : u64 (lastNumber + 1) = lastNumber + 1 := by unfold u64; omega
  rw [hu]
  dsimp only
  split
  · have hstart : u64 (lastNumber +
        (2 ^ 64 - u64 (lastNumber + 1 - hc.session.ante.number))) =
        hc.session.ante.number - 1 := by
      unfold u64
      omega
    rw [hstart]
    generalize rev.drop (lastNumber + 1 - hc.session.ante.number) = rest
    cases hres : hc.checkLoop (lastNumber + 1 - hc.session.ante.number)
        (hc.session.ante.number - 1) hc.session.ante.parentHash rest with
    | mk hc₁ res =>
      have hbelow : ∀ stop, hc.session.stopNum = some stop →
          stop + 1 ≤ hc.session.ante.number - 1 := by
        intro stop hs
        have := hstop stop hs
        omega
      obtain ⟨hk, hm, hacc⟩ := checkLoop_spec (by omega) (by omega) hbelow hres
      cases res with
      | error e => exact .kept hk hm
      | ok count =>
        obtain ⟨hle, hd, hblind⟩ := hacc count rfl
        apply AfterPut.stored hcoll hk hm hd
        intro hmode stop hs
        rw [List.length_take, Nat.min_eq_left hle]
        exact hblind hmode stop hs
  · exact .kept (.refl hc) (.inl rfl)

theorem put_cases (hblind : hc.session.mode = .collecting → ∀ stop,
      hc.session.stopNum = some stop →
        stop + 1 < hc.session.ante.number ∨ hc.session.ante.number ≤ stop)
    (rev : List Header) : AfterPut hc (hc.put rev).1 := by
  have hsame : AfterPut hc hc := .kept (.refl hc) (.inl rfl)
  unfold HeaderChainRef.put
  split
  · exact hsame
  split
  · exact hsame
  next hcoll =>
  rw [not_not] at hcoll
  cases rev with
  | nil => exact hsame
  | cons first rest =>
    dsimp only
    split
    · exact hsame
    next hgap =>
    split
    · exact hsame
    next hhead =>
    have hlt := hc.session.head.number_lt
    have hu : u64 (first.number + 1) = first.number + 1 := by unfold u64; omega
    split
    · next hnone =>
      split
      · next hend => exact .kept (.setMode hc _) (.inr hend)
      · next hgo =>
        obtain hr | hr | ⟨_, hbase⟩ := tryFcParent_cases hc hc.session.ante
        · exact absurd (.inl hr) hgo
        · exact absurd (.inr hr) hgo
        · exact append_cases hcoll (by omega) (by omega) (by omega)
            fun stop hs => by rw [hnone] at hs; cases hs
    · next stop hsome =>
      split
      · exact .kept (.setMode hc _) (.inr (.inr rfl))
      · have hstop := hblind hcoll stop hsome
        exact append_cases hcoll (by omega) (by omega) (by omega)
          fun stop' hs => by rw [hsome] at hs; cases hs; omega

theorem put_inv (hinv : Inv hc) (rev : List Header) : Inv (hc.put rev).1 := by
  rcases hinv with hclosed | ⟨hmode, lo, ho⟩
  · -- `put` needs a session
    left
    have hne : (hc.put rev).1 = hc := by
      simp [HeaderChainRef.put, hclosed.mode]
    rw [hne]
    exact hclosed
  right
  have hput := put_cases ho.blind rev
  generalize (hc.put rev).1 = hc' at hput
  cases hput with
  | kept hk hm => exact ⟨hm.ne_closed hmode, lo, ho.kept hk hm.collecting⟩
  | stored hcoll hk hm hd hblind =>
    refine ⟨hm.ne_closed hmode, _, ho.store hcoll hd hk fun hmode' stop hs => ?_⟩
    have hlast := hblind hmode' stop hs
    have hlo := ho.collecting hcoll
    omega

theorem Open.new {db : KvtDb} (hempty : ∀ n, db.beacon.lookup n = none) {h : Header}
    (hpos : 0 < h.number) (hlt : h.number + 1 < 2 ^ 64) {chain : ForkedChain}
    {session : HccSession} (hante : session.ante = h) (hhead : session.head = h)
    (hhash : session.headHash = computeBlockHash h) (hstop : session.stopNum = none) :
    Open ⟨chain, session, db.putHeader h⟩ h.number where
  stored := by
    rw [hhead]
    exact Stored.new hpos (fun n _ => hempty n)
      fun h' => by rw [hempty]; exact nofun
  lo_le := by rw [hante]
  ante := by
    rw [hante]
    exact AList.lookup_insert _
  headHash := by rw [hhash, hhead]
  head_lt := by rw [hhead]; exact hlt
  info state hstate := by
    have hnone : (db.putHeader h).beacon.lookup HccDbInfoKey = none := by
      show (AList.insert _ _ _).lookup _ = _
      rw [Table.lookup_insert', if_neg (by simp only [HccDbInfoKey]; omega)]
      exact hempty _
    simp only [getInfo, hnone] at hstate
    cases hstate
  collecting _ := by rw [hante]
  blind _ stop hs := by
    rw [hstop] at hs
    cases hs

theorem headUpdateFromCL_inv (hinv : Inv hc) (hlt : h.number + 1 < 2 ^ 64)
    (f : Hash32) : Inv (hc.headUpdateFromCL h f) := by
  unfold headUpdateFromCL
  split
  · next hcond =>
    obtain ⟨_, hnum, hmode⟩ := hcond
    obtain hclosed | ⟨hne, _⟩ := hinv
    · right
      dsimp only
      split
      · exact ⟨nofun, h.number,
          Open.new hclosed.empty (by omega) hlt rfl rfl rfl rfl⟩
      · exact ⟨nofun, h.number,
          Open.new hclosed.empty (by omega) hlt rfl rfl rfl rfl⟩
    · exact absurd hmode hne
  · exact hinv

section

omit [BlockHash]

theorem Kept.resolveFinHash (hc : HeaderChainRef) (f : Hash32) :
    Kept hc (hc.resolveFinHash f) ∧
      (hc.resolveFinHash f).session.mode = hc.session.mode := by
  unfold HeaderChainRef.resolveFinHash
  dsimp only
  split <;> exact ⟨⟨rfl, rfl, rfl, rfl, rfl, rfl⟩, rfl⟩

theorem lookup_of_getHeader {db : KvtDb} {bn : Nat}
    (hg : db.getHeader bn = .ok (some h)) : db.beacon.lookup bn = some (.header h) := by
  unfold getHeader at hg
  split at hg
  · cases hg
  · next hl =>
    cases hg
    exact hl
  · cases hg

theorem lookup_of_getHeaderByHash {db : KvtDb} {hash : Hash32}
    (hg : db.getHeaderByHash hash = .ok (some h)) :
    ∃ bn, db.beacon.lookup bn = some (.header h) := by
  unfold getHeaderByHash at hg
  split at hg
  · cases hg
  · next bn _ => exact ⟨bn, lookup_of_getHeader hg⟩

end

/-- Moving the antecedent to another stored header ends the collecting. -/
theorem Open.lockAt (ho : Open hc lo) (hn : hc.kvt.beacon.lookup n = some (.header h)) :
    Open ({ hc with session := { hc.session with ante := h } }.setMode .locked) lo where
  stored := ho.stored
  lo_le := by
    have := (ho.stored.range hn).1
    rw [← ho.stored.number_eq hn] at this
    exact this
  ante := by
    have := ho.stored.number_eq hn
    rw [← this] at hn
    exact hn
  headHash := ho.headHash
  head_lt := ho.head_lt
  info := ho.info
  collecting hm := nomatch hm
  blind hm := nomatch hm

theorem commit_inv (hinv : Inv hc) {res : HeaderChainRef × Except HccError Unit}
    (h : hc.commit = .ok res) : Inv res.1 := by
  unfold commit at h
  split at h
  · cases h
    exact hinv
  next hready =>
  rw [not_not] at hready
  obtain hclosed | ⟨_, lo, ho⟩ := hinv
  · rw [hclosed.mode] at hready
    cases hready
  right
  split at h
  · split at h
    · cases h
      exact ⟨nofun, lo, ho.setMode (by decide)⟩
    · cases h
      exact ⟨nofun, lo, ho.setMode (by decide)⟩
  split at h
  · cases h
    exact ⟨nofun, lo, ho.setMode (by decide)⟩
  -- the parent of the antecedent was lost
  have hres : ∃ hc₁, hc₁ = (if hc.chain.pendingFCU ≠ zeroHash32 then
      hc.resolveFinHash hc.chain.pendingFCU else hc) ∧ Open hc₁ lo := by
    refine ⟨_, rfl, ?_⟩
    split
    · obtain ⟨hk, hm⟩ := Kept.resolveFinHash hc hc.chain.pendingFCU
      exact ho.kept hk fun h => hm ▸ h
    · exact ho
  obtain ⟨hc₁, heq, ho₁⟩ := hres
  dsimp only at h
  rw [← heq] at h
  split at h
  · split at h
    · cases h
      exact ⟨nofun, lo, ho₁.lockAt ho₁.stored.top⟩
    · split at h
      · cases h
      · cases h
      · next hg =>
        cases h
        obtain ⟨n, hn⟩ := lookup_of_getHeaderByHash hg
        exact ⟨nofun, lo, ho₁.lockAt hn⟩
  · cases h
    exact ⟨nofun, lo, ho₁.setMode (by decide)⟩

theorem persistClear_empty {chain : ForkedChain} {session : HccSession}
    (hinv : Inv hc) (hinfo : hc.session.mode ≠ .closed → hc.kvt.getInfo.isSome)
    (hsession : session.mode = .closed)
    (h : persistClear ⟨chain, session, hc.kvt⟩ = .ok hc') : Closed hc' := by
  unfold persistClear at h
  obtain hclosed | ⟨hmode, lo, ho⟩ := hinv
  · have hnone : hc.kvt.getInfo = none := by
      simp only [getInfo, hclosed.empty]
    rw [hnone] at h
    cases h
    exact ⟨hsession, hclosed.empty⟩
  · obtain ⟨w, hw⟩ := Option.isSome_iff_exists.mp (hinfo hmode)
    have hno : ∀ n state, lo ≤ n → hc.kvt.beacon.lookup n ≠ some (.info state) := by
      intro n state hlo hn
      by_cases hhi : n ≤ hc.session.head.number
      · obtain ⟨h', hn', _⟩ := ho.stored.stored n hlo hhi
        rw [hn'] at hn
        cases hn
      · rw [ho.stored.above n (by omega)] at hn
        cases hn
    obtain ⟨db, hdb, hlook⟩ := delHeaders_spec (hc.session.head.number + 1 - lo) hno
    obtain rfl := ho.info w hw
    rw [hw] at h
    dsimp only at h
    rw [hdb] at h
    cases h
    refine ⟨hsession, fun n => ?_⟩
    show (AList.erase _ _).lookup n = none
    rw [Table.lookup_erase', hlook n]
    by_cases hzero : n = HccDbInfoKey
    · rw [if_pos hzero]
    rw [if_neg hzero]
    by_cases hlo : lo ≤ n
    · by_cases hhi : n ≤ hc.session.head.number
      · rw [if_pos (by omega)]
      · rw [if_neg (by omega)]
        exact ho.stored.above n (by omega)
    · rw [if_neg (by omega)]
      exact ho.stored.below n (by omega) hzero

/-- The calls that keep the invariant: what a session stored can be found again when it is
cleared, and the number of a head has a successor. -/
def StepOk (hc : HeaderChainRef) : HccCmd → Prop
  | .clear | .restart _ => hc.session.mode ≠ .closed → hc.kvt.getInfo.isSome
  | .headUpdate h _ => h.number + 1 < 2 ^ 64
  | _ => True

theorem step_inv (hinv : Inv hc) {cmd : HccCmd} (hok : StepOk hc cmd)
    (h : hc.step cmd = .ok hc') : Inv hc' := by
  cases cmd with
  | headUpdate hd f =>
    cases h
    exact headUpdateFromCL_inv hinv hok f
  | put rev =>
    cases h
    exact put_inv hinv rev
  | commit =>
    obtain ⟨res, hres, h⟩ := except_bind_ok.mp h
    cases h
    exact commit_inv hinv hres
  | clear => exact .inl (persistClear_empty hinv hok rfl h)
  | restart chain => exact .inl (persistClear_empty hinv hok rfl h)
  | updateBlindStop stop =>
    cases h
    unfold updateBlindStop
    split
    · next hlt =>
      obtain hclosed | ⟨hmode, lo, ho⟩ := hinv
      · exact .inl ⟨hclosed.mode, hclosed.empty⟩
      · refine .inr ⟨hmode, lo, { ho with blind := fun _ stop' hs => ?_ }⟩
        cases hs
        have hante := hc.session.ante.number_lt
        show stop.number + 1 < hc.session.ante.number ∨ hc.session.ante.number ≤ stop.number
        unfold u64 at hlt
        omega
    · exact hinv
  | clearBlindStop =>
    cases h
    obtain hclosed | ⟨hmode, lo, ho⟩ := hinv
    · exact .inl ⟨hclosed.mode, hclosed.empty⟩
    · exact .inr ⟨hmode, lo, { ho with blind := fun _ stop hs => nomatch hs }⟩
  | resolveFinHash f =>
    cases h
    obtain ⟨hk, hm⟩ := Kept.resolveFinHash hc f
    obtain hclosed | ⟨hmode, lo, ho⟩ := hinv
    · exact .inl ⟨hm.trans hclosed.mode, fun n => by rw [hk.kvt]; exact hclosed.empty n⟩
    · exact .inr ⟨by rw [hm]; exact hmode, lo, ho.kept hk fun h => hm ▸ h⟩
  | forkChoice chain =>
    cases h
    obtain hclosed | ⟨hmode, lo, ho⟩ := hinv
    · exact .inl ⟨hclosed.mode, hclosed.empty⟩
    · exact .inr ⟨hmode, lo, { ho with }⟩

/-! ## Runs -/

/-- Every call of the run meets `StepOk` when its turn comes. -/
def RunOk (hc : HeaderChainRef) : List HccCmd → Prop
  | [] => True
  | cmd :: cmds => StepOk hc cmd ∧ ∀ hc', hc.step cmd = .ok hc' → RunOk hc' cmds

theorem run_inv {cmds : List HccCmd} (hinv : Inv hc) (hok : RunOk hc cmds)
    (h : hc.run cmds = .ok hc') : Inv hc' := by
  induction cmds generalizing hc with
  | nil =>
    cases h
    exact hinv
  | cons cmd cmds ih =>
    obtain ⟨hc₁, hstep, h⟩ := except_bind_ok.mp h
    exact ih (step_inv hinv hok.1 hstep) (hok.2 hc₁ hstep) h

/-! ## What a session reads -/

/-- What the readers of an open session rely on. -/
structure SessionOk (hc : HeaderChainRef) : Prop where
  /-- the headers from the antecedent to the head are stored and linked -/
  linked : ∀ n, hc.session.ante.number ≤ n → n ≤ hc.session.head.number →
    ∃ h, hc.get n = .ok (some h) ∧ h.number = n ∧ (hc.session.ante.number < n →
      ∃ h', hc.get (n - 1) = .ok (some h') ∧ h.parentHash = computeBlockHash h')
  get : ∀ n h, hc.get n = .ok (some h) → h.number = n ∧ OnChain hc.session.head h
  getByHash : ∀ hash h, hc.getByHash hash = .ok (some h) → OnChain hc.session.head h
  getHash : ∀ n hash, n < 2 ^ 64 → hc.getHash n = .ok (some hash) →
    ∃ h, OnChain hc.session.head h ∧
      (h.number = n ∧ hash = computeBlockHash h ∨ h.number = n + 1 ∧ hash = h.parentHash)
  /-- the iteration from a cached header lists the headers up to the head -/
  incrFrom : ∀ start h, hc.get start = .ok (some h) →
    ∀ fuel, hc.session.head.number - start + 1 < fuel →
      ∃ headers, hc.incrFrom start fuel = .ok (some headers) ∧
        headers.map (·.number) =
          List.range' start (hc.session.head.number + 1 - start) ∧
        (∀ x ∈ headers, OnChain hc.session.head x) ∧
        headers.getLast? = some hc.session.head
  /-- and so does the one from the antecedent -/
  incrFromAnte : ∀ fuel, hc.session.head.number - hc.session.ante.number + 1 < fuel →
    hc.incrFrom 0 fuel = hc.incrFrom hc.session.ante.number fuel

theorem Open.get (ho : Open hc lo) (hlo : lo ≤ n) (hhi : n ≤ hc.session.head.number) :
    ∃ h, hc.get n = .ok (some h) ∧ hc.kvt.beacon.lookup n = some (.header h) ∧
      h.number = n := by
  obtain ⟨h, hn, hnum⟩ := ho.stored.stored n hlo hhi
  refine ⟨h, ?_, hn, hnum⟩
  simp only [HeaderChainRef.get, getHeader, hn]

theorem Open.getHash (ho : Open hc lo) (hn : n < 2 ^ 64) {hash : Hash32}
    (h : hc.getHash n = .ok (some hash)) :
    ∃ hd, OnChain hc.session.head hd ∧
      (hd.number = n ∧ hash = computeBlockHash hd ∨ hd.number = n + 1 ∧ hash = hd.parentHash) := by
  have hpos := ho.stored.pos
  have hle := ho.stored.le
  unfold HeaderChainRef.getHash at h
  split at h
  · split at h
    · next heq =>
      cases h
      exact ⟨_, .head, .inl ⟨heq.symm, ho.headHash⟩⟩
    · split at h
      · next heq =>
        cases h
        refine ⟨_, .head, .inr ⟨?_, rfl⟩⟩
        unfold u64 at heq
        omega
      · cases h
  · next hlt =>
    cases hg : hc.kvt.getHeader (u64 (n + 1)) with
    | error e =>
      rw [hg] at h
      cases h
    | ok hdr =>
      rw [hg] at h
      cases hdr with
      | none => cases h
      | some hd =>
        cases h
        have hlook := lookup_of_getHeader hg
        have hnum := ho.stored.number_eq hlook
        have hrange := (ho.stored.range hlook).1
        refine ⟨hd, ho.stored.onChain hlook, .inr ⟨?_, rfl⟩⟩
        rw [hnum]
        unfold u64 at hrange ⊢
        omega

theorem Open.incrLoop (ho : Open hc lo) (hlo : lo ≤ n)
    (hhi : n ≤ hc.session.head.number) {fuel : Nat}
    (hfuel : hc.session.head.number - n + 1 < fuel) :
    ∃ headers, hc.incrLoop n fuel = .ok (some headers) ∧
      headers.map (·.number) = List.range' n (hc.session.head.number + 1 - n) ∧
      (∀ x ∈ headers, OnChain hc.session.head x) ∧
      headers.getLast? = some hc.session.head := by
  -- induction on the fuel, which stays ahead of the distance from the head
  induction fuel generalizing n with
  | zero => omega
  | succ fuel ih =>
    obtain ⟨h, hget, hlook, hnum⟩ := ho.get hlo hhi
    have hon := ho.stored.onChain hlook
    have hlt := ho.head_lt
    have hu : u64 (n + 1) = n + 1 := by unfold u64; omega
    have hlen : hc.session.head.number + 1 - n = hc.session.head.number - n + 1 := by omega
    simp only [HeaderChainRef.incrLoop, hget, hu]
    by_cases hend : n = hc.session.head.number
    · -- one past the head nothing is stored
      have hnone : hc.get (n + 1) = .ok none := by
        simp only [HeaderChainRef.get, getHeader, ho.stored.above (n + 1) (by omega)]
      have htop : h = hc.session.head := by
        have := ho.stored.top
        rw [← hend, hlook] at this
        cases this
        rfl
      obtain ⟨fuel, rfl⟩ : ∃ k, fuel = k + 1 := ⟨fuel - 1, by omega⟩
      simp only [HeaderChainRef.incrLoop, hnone]
      refine ⟨[h], rfl, ?_, by simpa using hon, by rw [htop]; rfl⟩
      rw [hlen, ← hend, Nat.sub_self, List.map_cons, hnum]
      rfl
    · obtain ⟨headers, heq, hmap, hall, hlast⟩ := ih (n := n + 1) (by omega) (by omega) (by omega)
      rw [heq]
      refine ⟨h :: headers, rfl, ?_, ?_, ?_⟩
      · rw [hlen, List.map_cons, hmap]
        congr 2
        omega
      · intro x hx
        rcases List.mem_cons.mp hx with rfl | hx
        · exact hon
        · exact hall x hx
      · rw [List.getLast?_cons, hlast]
        rfl

theorem Open.sessionOk (ho : Open hc lo) : SessionOk hc where
  linked n hlo hhi := by
    have hle := ho.lo_le
    obtain ⟨h, hget, hlook, hnum⟩ := ho.get (by omega) hhi
    refine ⟨h, hget, hnum, fun hlt => ?_⟩
    obtain ⟨h', hget', hlook', _⟩ := ho.get (n := n - 1) (by omega) (by omega)
    refine ⟨h', hget', ho.stored.link (n - 1) h' h (by omega) hlook' ?_⟩
    rw [Nat.sub_add_cancel (by omega)]
    exact hlook
  get n h hget := by
    have hlook := lookup_of_getHeader hget
    exact ⟨ho.stored.number_eq hlook, ho.stored.onChain hlook⟩
  getByHash hash h hget := by
    unfold getByHash at hget
    split at hget
    · cases hget
    · next hg =>
      cases hget
      obtain ⟨n, hn⟩ := lookup_of_getHeaderByHash hg
      exact ho.stored.onChain hn
    · split at hget
      · cases hget
        exact .head
      · cases hget
  getHash n hash hn h := ho.getHash hn h
  incrFrom start h hget fuel hfuel := by
    have hrange := ho.stored.range (lookup_of_getHeader hget)
    have hpos := ho.stored.pos
    unfold incrFrom
    rw [if_pos (by omega)]
    exact ho.incrLoop hrange.1 hrange.2 hfuel
  incrFromAnte fuel _ := by
    have hpos := ho.stored.pos
    have hle := ho.lo_le
    simp only [incrFrom, Nat.lt_irrefl, if_false]
    rw [if_pos (by omega)]

/-- A cache on an empty table. -/
def start (chain : ForkedChain) : HeaderChainRef := { chain := chain }

theorem start_inv (chain : ForkedChain) : Inv (start chain) := .inl ⟨rfl, fun _ => rfl⟩

/-- In every open session that a run reaches, the headers from the antecedent to the head
are stored and linked, and all reads return headers of the session, when on the way every
session that was cleared had stored a batch and every head had a number with a successor. -/
theorem session_chain (chain : ForkedChain) (cmds : List HccCmd) (hok : RunOk (start chain) cmds)
    (hrun : (start chain).run cmds = .ok hc) (hmode : hc.session.mode ≠ .closed) :
    SessionOk hc := by
  obtain hclosed | ⟨_, lo, ho⟩ := run_inv (start_inv chain) hok hrun
  · exact absurd hclosed.mode hmode
  · exact ho.sessionOk

end

/-! ## A session cleared too early -/

section Sample

/-- A hash that tells headers apart by number. -/
local instance : BlockHash :=
  ⟨fun h => Vector.ofFn fun i => if i = 0 then UInt8.ofNat h.number else 1⟩

def sampleChain : ForkedChain where
  hashToBlock _ := false
  baseNumber := 10
  base_lt := by decide
  pendingFCU := zeroHash32
  latestFinalized := {}
  quarantine _ := none
  headerByHash _ := none

instance neZeroSample : NeZero 200 := ⟨by decide⟩

def sampleHeader (n : Fin 200) : Header where
  number := n
  parentHash := Vector.ofFn fun i => if i = 0 then UInt8.ofNat (n - 1) else 1
  number_lt := by omega

def sampleHash : Hash32 := Vector.replicate 32 7

/-- A session that gets one header below its head. -/
def batchCmds : List HccCmd :=
  [.headUpdate (sampleHeader 90) sampleHash, .put [sampleHeader 89]]

theorem session_chain_batchCmds :
    ∃ hc, (start sampleChain).run batchCmds = .ok hc ∧ hc.session.ante.number = 89 ∧
      SessionOk hc := by
  refine ⟨_, rfl, by decide +kernel, ?_⟩
  refine session_chain sampleChain batchCmds ?_ rfl (by decide +kernel)
  exact ⟨show (90 : Nat) + 1 < 2 ^ 64 by decide, fun _ _ => ⟨trivial, fun _ _ => trivial⟩⟩

/-- The session of head 91 is cleared before it stored a batch, then one of head 90 opens. -/
def earlyClearCmds : List HccCmd :=
  [.headUpdate (sampleHeader 91) sampleHash, .clear, .headUpdate (sampleHeader 90) sampleHash]

/-- The session of head 90 reads the header 91 of the session before, and its iteration runs
past its head. -/
theorem clear_leaves_head :
    ∃ hc, (start sampleChain).run earlyClearCmds = .ok hc ∧ hc.session.mode = .collecting ∧
      hc.session.head = sampleHeader 90 ∧ hc.get 91 = .ok (some (sampleHeader 91)) ∧
      hc.incrFrom 90 5 = .ok (some [sampleHeader 90, sampleHeader 91]) ∧ ¬ SessionOk hc := by
  refine ⟨_, rfl, by decide +kernel, by decide +kernel, by decide +kernel, by decide +kernel,
    fun hok => ?_⟩
  have hon := (hok.get 91 (sampleHeader 91) (by decide +kernel)).2
  have hle := hon.number_le
  exact absurd hle (by decide +kernel)

end Sample

end Nimbus.Spec.HeaderChainCache
