import Mathlib.Logic.Function.Iterate
import Nimbus.Native.EthHandler

/-!
# Receipts in several rounds

A requester sends the hashes of the blocks that it does not have all receipts of, with the
number of receipts that it has of the first one, and adds what it gets. Every answer fits
what is missing (`answer_fits`). It brings something new unless the next receipt alone is
above the response limit, in which case the requester asks for it for ever.
-/

namespace Nimbus.Spec.EthHandler

open Nimbus.Native.EthHandler
open Nimbus.Native.Aristo (Hash32)

variable {R : Type} [EncodedLength R]

/-! ## Answers -/

theorem receiptsLoop_spec (receipts : List R) (totalBytes : Nat) :
    let res := receiptsLoop receipts totalBytes
    res.1 <+: receipts ∧ (res.2.1 = false ↔ res.1 = receipts) ∧
      (∀ r ∈ res.1, getEncodedLength r ≤ SOFT_RESPONSE_LIMIT) ∧
      (res.1 = [] → res.2.2 = totalBytes) := by
  induction receipts generalizing totalBytes with
  | nil => simp [receiptsLoop]
  | cons r rest ih =>
    dsimp only [receiptsLoop]
    by_cases hbig : SOFT_RESPONSE_LIMIT < totalBytes + getEncodedLength r
    · rw [if_pos hbig]
      simp
    · rw [if_neg hbig]
      obtain ⟨hpre, hall, hsmall, _⟩ := ih (totalBytes + getEncodedLength r)
      refine ⟨by simpa using hpre, by simpa using hall, fun x hx => ?_, nofun⟩
      obtain rfl | hx := List.mem_cons.mp hx
      · omega
      · exact hsmall x hx

/-- An answer to a request for the missing lists: some of them in full, and perhaps the
beginning of the next one, which is marked. The last argument is what is missing then. -/
inductive AnswerFits : List (List R) → StoredReceipts70Packet R → List (List R) → Prop where
  | complete (whole : List (List R)) {rest : List (List R)} :
      AnswerFits (whole ++ rest) { lastBlockIncomplete := false, receipts := whole } rest
  | cut (whole : List (List R)) {rest : List (List R)} {part more : List R} : part ≠ [] → more ≠ [] →
      AnswerFits (whole ++ (part ++ more) :: rest)
        { lastBlockIncomplete := true, receipts := whole ++ [part] } (more :: rest)

variable {p : StoredReceipts70Packet R} {left : List (List R)}

omit [EncodedLength R] in
theorem AnswerFits.cons {missing : List (List R)}
    (h : AnswerFits missing p left) (l : List R) :
    AnswerFits (l :: missing) { p with receipts := l :: p.receipts } left := by
  cases h with
  | @complete whole rest => exact .complete (l :: whole)
  | @cut whole rest part more hpart hmore => exact .cut (l :: whole) hpart hmore

/-- What is missing of the blocks `hashes` when `cursor` receipts of the first one are there. -/
def missing (blocks : Hash32 → List R) (hashes : List Hash32) (cursor : Nat) : List (List R) :=
  match hashes with
  | [] => []
  | hash :: rest => (blocks hash).drop cursor :: rest.map blocks

section
variable {lookup : Hash32 → Option (List R)} {blocks : Hash32 → List R} {hashes : List Hash32}
  {cursor : Nat}

omit [EncodedLength R] in
theorem missing_zero : missing blocks hashes 0 = hashes.map blocks := by
  cases hashes <;> rfl

omit [EncodedLength R] in
theorem drop_min {l : List R} : l.drop (min cursor l.length) = l.drop cursor := by
  rw [List.drop_eq_drop_iff]
  omega

theorem receiptBlocksLoop_fits (hknown : ∀ hash ∈ hashes, lookup hash = some (blocks hash))
    (i totalBytes : Nat) :
    ∃ left, AnswerFits (missing blocks hashes (if i = 0 then cursor else 0))
      (receiptBlocksLoop lookup cursor hashes i totalBytes) left := by
  induction hashes generalizing i totalBytes with
  | nil => exact ⟨[], .complete []⟩
  | cons hash rest ih =>
    have hih := ih (fun h hh => hknown h (.tail _ hh)) (i + 1)
    rw [if_neg (Nat.succ_ne_zero i), missing_zero] at hih
    have hdrop : (blocks hash).drop (if i = 0 then min cursor (blocks hash).length else 0) =
        (blocks hash).drop (if i = 0 then cursor else 0) := by
      split
      · exact drop_min
      · rfl
    simp only [receiptBlocksLoop, hknown hash List.mem_cons_self, missing]
    rw [hdrop]
    generalize (blocks hash).drop (if i = 0 then cursor else 0) = list
    obtain ⟨hpre, hall, -, -⟩ := receiptsLoop_spec list totalBytes
    by_cases hlimit : MAX_RECEIPTS_SERVE ≤ i ∨ SOFT_RESPONSE_LIMIT < totalBytes
    · rw [if_pos hlimit]
      exact ⟨_, .complete []⟩
    rw [if_neg hlimit]
    cases hcut : (receiptsLoop list totalBytes).2.1 with
    | false =>
      -- the whole list was served
      rw [hall.mp hcut]
      obtain ⟨left, hleft⟩ := hih (receiptsLoop list totalBytes).2.2
      exact ⟨left, hleft.cons list⟩
    | true =>
      simp only [if_true]
      split
      · next hserved =>
        obtain ⟨more, hmore⟩ := hpre
        generalize (receiptsLoop list totalBytes).1 = served at hserved hmore hall
        subst hmore
        refine ⟨_, .cut [] (List.ne_nil_of_length_pos hserved) fun hnil => ?_⟩
        have hdone := hall.mpr (by rw [hnil, List.append_nil])
        rw [hcut] at hdone
        cases hdone
      · exact ⟨_, .complete []⟩

variable (cursor) in
/-- Every answer about known blocks fits what is missing. -/
theorem answer_fits (hknown : ∀ hash ∈ hashes, lookup hash = some (blocks hash)) :
    ∃ left, AnswerFits (missing blocks hashes cursor)
      (getStoredReceipts70 lookup ⟨cursor, hashes⟩) left :=
  receiptBlocksLoop_fits hknown 0 0

/-- An answer that brings a receipt, or completes a block. -/
def Progress (missing : List (List R)) (p : StoredReceipts70Packet R) : Prop :=
  ∃ list lists, p.receipts = list :: lists ∧ (list ≠ [] ∨ missing.head? = some list)

omit [EncodedLength R] in
theorem AnswerFits.progress {missing : List (List R)}
    (h : AnswerFits missing p left) (hne : p.receipts ≠ []) : Progress missing p := by
  cases h with
  | @complete whole rest =>
    obtain ⟨list, lists, rfl⟩ := List.exists_cons_of_ne_nil hne
    exact ⟨list, lists, rfl, .inr rfl⟩
  | @cut whole rest part more hpart hmore =>
    cases whole with
    | nil => exact ⟨part, [], rfl, .inl hpart⟩
    | cons list lists => exact ⟨list, lists ++ [part], rfl, .inr rfl⟩

/-- The answer brings something new when the next receipt is within the limit. -/
theorem answer_progress {hash : Hash32} {rest : List Hash32}
    (hknown : ∀ h ∈ hash :: rest, lookup h = some (blocks h))
    (hsmall : ∀ r ∈ (blocks hash).drop cursor, getEncodedLength r ≤ SOFT_RESPONSE_LIMIT) :
    Progress (missing blocks (hash :: rest) cursor)
      (getStoredReceipts70 lookup ⟨cursor, hash :: rest⟩) := by
  obtain ⟨left, hfits⟩ := answer_fits cursor hknown
  refine hfits.progress ?_
  have hstart : ¬ (MAX_RECEIPTS_SERVE ≤ 0 ∨ SOFT_RESPONSE_LIMIT < 0) := by
    simp [MAX_RECEIPTS_SERVE]
  simp only [getStoredReceipts70, receiptBlocksLoop, hknown hash List.mem_cons_self, if_true]
  rw [if_neg hstart, drop_min]
  generalize (blocks hash).drop cursor = list at hsmall
  cases hcut : (receiptsLoop list 0).2.1 with
  | false => simp
  | true =>
    -- the first receipt of the list fits
    cases list with
    | nil => cases hcut
    | cons r list =>
      have hfits : ¬ SOFT_RESPONSE_LIMIT < getEncodedLength r := by
        have := hsmall r List.mem_cons_self
        omega
      simp [receiptsLoop, hfits]

/-! ## The requester -/

structure Requester (R : Type) where
  /-- the blocks that are not complete -/
  hashes : List Hash32
  /-- the receipts of the first of them -/
  received : List R
  /-- the receipts of the blocks before, in order -/
  done : List (List R)

namespace Requester

def request (q : Requester R) : StoredReceipts70Request := ⟨q.received.length, q.hashes⟩

/-- The first block is complete with the list. -/
def complete (q : Requester R) (list : List R) : Requester R where
  hashes := q.hashes.tail
  received := []
  done := q.done ++ [q.received ++ list]

def accept (q : Requester R) (p : StoredReceipts70Packet R) : Requester R :=
  if p.lastBlockIncomplete then
    let q := p.receipts.dropLast.foldl complete q
    { q with received := q.received ++ p.receipts.getLastD [] }
  else p.receipts.foldl complete q

/-- A request and its answer. -/
def round (lookup : Hash32 → Option (List R)) (q : Requester R) : Requester R :=
  q.accept (getStoredReceipts70 lookup q.request)

def rounds (lookup : Hash32 → Option (List R)) (n : Nat) (q : Requester R) : Requester R :=
  (round lookup)^[n] q

/-- What it still misses. -/
def missing (q : Requester R) (blocks : Hash32 → List R) : List (List R) :=
  EthHandler.missing blocks q.hashes q.received.length

end Requester

/-- The received receipts are the first ones of the first block. -/
def Begun (blocks : Hash32 → List R) (hashes : List Hash32) (received : List R) : Prop :=
  match hashes with
  | [] => received = []
  | hash :: _ => received <+: blocks hash

/-- What was done and what is left make up all requested blocks. -/
structure Consistent (blocks : Hash32 → List R) (hashes : List Hash32) (q : Requester R) :
    Prop where
  split : ∃ before, hashes = before ++ q.hashes ∧ q.done = before.map blocks
  begun : Begun blocks q.hashes q.received

section
omit [EncodedLength R]
variable {q : Requester R}

section

variable (hq : Consistent blocks hashes q)
include hq

theorem Consistent.complete {list : List R}
    {rest : List (List R)} (hmissing : q.missing blocks = list :: rest) :
    Consistent blocks hashes (q.complete list) ∧ (q.complete list).missing blocks = rest := by
  obtain ⟨⟨before, hsplit, hdone⟩, hbegun⟩ := hq
  cases hhashes : q.hashes with
  | nil =>
    unfold Requester.missing at hmissing
    rw [hhashes] at hmissing
    cases hmissing
  | cons hash hashes' =>
    unfold Requester.missing at hmissing
    rw [hhashes] at hmissing hsplit hbegun
    obtain ⟨hlist, hrest⟩ := List.cons.inj hmissing
    -- what was received before and the list make up the block
    have hblock : q.received ++ list = blocks hash := by
      obtain ⟨more, hmore⟩ := hbegun
      rw [← hlist, ← hmore, List.drop_left]
    have htail : (q.complete list).hashes = hashes' := by
      unfold Requester.complete
      rw [hhashes]
      rfl
    refine ⟨⟨⟨before ++ [hash], ?_, ?_⟩, ?_⟩, ?_⟩
    · rw [htail, hsplit, List.append_assoc]
      rfl
    · show q.done ++ [q.received ++ list] = _
      rw [hblock, hdone, List.map_append]
      rfl
    · rw [htail]
      cases hashes' with
      | nil => exact rfl
      | cons h t => exact List.nil_prefix
    · unfold Requester.missing
      rw [htail, ← hrest]
      exact missing_zero

theorem Consistent.completes {whole rest : List (List R)}
    (hmissing : q.missing blocks = whole ++ rest) :
    Consistent blocks hashes (whole.foldl Requester.complete q) ∧
      (whole.foldl Requester.complete q).missing blocks = rest := by
  induction whole generalizing q with
  | nil => exact ⟨hq, hmissing⟩
  | cons list whole ih =>
    obtain ⟨hq', hmissing'⟩ := hq.complete hmissing
    exact ih hq' hmissing'

theorem Consistent.accept (hfits : AnswerFits (q.missing blocks) p left) :
    Consistent blocks hashes (q.accept p) ∧ (q.accept p).missing blocks = left := by
  generalize hmissing : q.missing blocks = lists at hfits
  cases hfits with
  | @complete whole rest => exact hq.completes hmissing
  | @cut whole rest part more hpart hmore =>
    obtain ⟨hq', hmissing'⟩ := hq.completes hmissing
    unfold Requester.accept
    simp only [if_true, List.dropLast_concat, List.getLastD_concat]
    generalize whole.foldl Requester.complete q = q' at hq' hmissing'
    have hbegun := hq'.begun
    unfold Requester.missing at hmissing' ⊢
    cases hhashes : q'.hashes with
    | nil =>
      rw [hhashes] at hmissing'
      cases hmissing'
    | cons hash t =>
      rw [hhashes] at hmissing' hbegun
      obtain ⟨hdrop, hrest⟩ := List.cons.inj hmissing'
      -- the part goes on where the received receipts end
      obtain ⟨later, hlater⟩ := hbegun
      rw [← hlater, List.drop_left] at hdrop
      rw [hdrop, ← List.append_assoc] at hlater
      have hsplit := hq'.split
      rw [hhashes] at hsplit
      refine ⟨⟨hsplit, ?_⟩, ?_⟩
      · exact ⟨more, hlater⟩
      · simp only [EthHandler.missing]
        rw [← hlater, List.drop_left, hrest]

end

/-- The receipts and the ends of blocks that are missing. -/
def work (lists : List (List R)) : Nat := (lists.map fun l => l.length + 1).sum

theorem AnswerFits.work_lt {lists : List (List R)}
    (h : AnswerFits lists p left) (hprogress : Progress lists p) : work left < work lists := by
  obtain ⟨list, tail, hreceipts, _⟩ := hprogress
  cases h with
  | @complete whole rest =>
    have hwhole : whole = list :: tail := hreceipts
    simp only [work, hwhole, List.map_append, List.sum_append, List.map_cons, List.sum_cons]
    omega
  | @cut whole rest part more hpart hmore =>
    have hlen := List.length_pos_of_ne_nil hpart
    simp only [work, List.map_append, List.sum_append, List.map_cons, List.sum_cons,
      List.length_append]
    omega

end

/-! ## All rounds -/

/-- What a round should be: an answer that fits and, as long as there is a block to complete,
brings something new. -/
def RoundOk (lookup : Hash32 → Option (List R)) (blocks : Hash32 → List R) (q : Requester R) :
    Prop :=
  (∃ left, AnswerFits (q.missing blocks) (getStoredReceipts70 lookup q.request) left) ∧
    (q.hashes ≠ [] → Progress (q.missing blocks) (getStoredReceipts70 lookup q.request))

section
variable {q : Requester R}

section

variable (hknown : ∀ hash ∈ hashes, lookup hash = some (blocks hash))
  (hq : Consistent blocks hashes q)
include hknown hq

omit [EncodedLength R] in
theorem Consistent.known : ∀ hash ∈ q.hashes, lookup hash = some (blocks hash) := by
  intro hash hmem
  obtain ⟨before, hsplit, -⟩ := hq.split
  apply hknown
  rw [hsplit]
  exact List.mem_append_right before hmem

theorem Consistent.round : Consistent blocks hashes (q.round lookup) := by
  obtain ⟨left, hfits⟩ := answer_fits q.received.length (hq.known hknown)
  exact (hq.accept hfits).1

theorem Consistent.rounds (n : Nat) : Consistent blocks hashes (q.rounds lookup n) := by
  induction n with
  | zero => exact hq
  | succ n ih =>
    unfold Requester.rounds
    rw [Function.iterate_succ_apply']
    exact ih.round hknown

end

/-- Nothing that is missing is above the limit. -/
def Small (lists : List (List R)) : Prop :=
  ∀ list ∈ lists, ∀ r ∈ list, getEncodedLength r ≤ SOFT_RESPONSE_LIMIT

theorem AnswerFits.small {lists : List (List R)}
    (h : AnswerFits lists p left) (hsmall : Small lists) : Small left := by
  cases h with
  | @complete whole rest =>
    exact fun list hlist => hsmall list (List.mem_append_right whole hlist)
  | @cut whole rest part more hpart hmore =>
    intro list hlist r hr
    obtain rfl | hlist := List.mem_cons.mp hlist
    · exact hsmall (part ++ list) (by simp) r (List.mem_append_right part hr)
    · exact hsmall list (by simp [hlist]) r hr

theorem Consistent.round_ok (hknown : ∀ hash ∈ hashes, lookup hash = some (blocks hash))
    (hq : Consistent blocks hashes q) (hsmall : Small (q.missing blocks)) :
    RoundOk lookup blocks q := by
  have hknown' := hq.known hknown
  refine ⟨answer_fits q.received.length hknown', fun hne => ?_⟩
  unfold Requester.missing Requester.request at *
  cases hhashes : q.hashes with
  | nil => exact absurd hhashes hne
  | cons hash rest =>
    rw [hhashes] at hsmall hknown'
    exact answer_progress hknown' (hsmall _ List.mem_cons_self)

theorem Consistent.ends (hknown : ∀ hash ∈ hashes, lookup hash = some (blocks hash))
    (hq : Consistent blocks hashes q) (hsmall : Small (q.missing blocks)) :
    ∃ n, (q.rounds lookup n).hashes = [] := by
  -- induction on what is missing, which every round makes less
  induction hwork : work (q.missing blocks) using Nat.strong_induction_on generalizing q with
  | _ w ih =>
    by_cases hne : q.hashes = []
    · exact ⟨0, hne⟩
    obtain ⟨⟨left, hfits⟩, hprogress⟩ := hq.round_ok hknown hsmall
    obtain ⟨hq', hleft⟩ := hq.accept hfits
    have hlt := hfits.work_lt (hprogress hne)
    have hsmall' := hfits.small hsmall
    rw [← hleft] at hlt hsmall'
    obtain ⟨n, hn⟩ := ih _ (hwork ▸ hlt) hq' hsmall' rfl
    exact ⟨n + 1, hn⟩

theorem served_small (i totalBytes : Nat) :
    Small (receiptBlocksLoop lookup cursor hashes i totalBytes).receipts := by
  induction hashes generalizing i totalBytes with
  | nil => exact fun list hlist => nomatch hlist
  | cons hash rest ih =>
    simp only [receiptBlocksLoop]
    split
    · exact fun list hlist => nomatch hlist
    split
    · exact fun list hlist => nomatch hlist
    next full _ =>
    generalize full.drop (if i = 0 then min cursor full.length else 0) = part
    obtain ⟨-, -, hsmall, -⟩ := receiptsLoop_spec part totalBytes
    split
    · split
      · intro list hlist
        rw [List.mem_singleton] at hlist
        rw [hlist]
        exact hsmall
      · exact fun list hlist => nomatch hlist
    · intro list hlist
      obtain rfl | hlist := List.mem_cons.mp hlist
      · exact hsmall
      · exact ih (i + 1) _ list hlist

theorem AnswerFits.small_of_left {lists : List (List R)}
    (h : AnswerFits lists p left) (hserved : Small p.receipts) (hleft : Small left) :
    Small lists := by
  cases h with
  | @complete whole rest =>
    intro list hlist
    obtain hlist | hlist := List.mem_append.mp hlist
    · exact hserved list hlist
    · exact hleft list hlist
  | @cut whole rest part more hpart hmore =>
    intro list hlist r hr
    obtain hlist | hlist := List.mem_append.mp hlist
    · exact hserved list (List.mem_append_left _ hlist) r hr
    obtain rfl | hlist := List.mem_cons.mp hlist
    · obtain hr | hr := List.mem_append.mp hr
      · exact hserved part (by simp) r hr
      · exact hleft more List.mem_cons_self r hr
    · exact hleft list (.tail _ hlist) r hr

/-- A receipt above the limit is missing as long as the rounds go on. -/
theorem Consistent.small_of_rounds (hknown : ∀ hash ∈ hashes, lookup hash = some (blocks hash))
    (hq : Consistent blocks hashes q) {n : Nat}
    (hsmall : Small ((q.rounds lookup n).missing blocks)) : Small (q.missing blocks) := by
  induction n generalizing q with
  | zero => exact hsmall
  | succ n ih =>
    have hround : Small ((q.round lookup).missing blocks) := ih (hq.round hknown) hsmall
    obtain ⟨left, hfits⟩ := answer_fits q.received.length (hq.known hknown)
    have hleft : (q.round lookup).missing blocks = left := (hq.accept hfits).2
    rw [hleft] at hround
    exact hfits.small_of_left (served_small 0 0) hround

/-- The rounds of a requester go as they should, and end with all receipts, if and only if
every missing receipt is within the response limit. -/
theorem rounds_ok_iff (lookup : Hash32 → Option (List R)) (blocks : Hash32 → List R)
    (hashes : List Hash32) (received : List R)
    (hknown : ∀ hash ∈ hashes, lookup hash = some (blocks hash))
    (hbegun : Begun blocks hashes received) :
    let q : Requester R := ⟨hashes, received, []⟩
    ((∀ n, RoundOk lookup blocks (q.rounds lookup n)) ∧
        ∃ n, q.rounds lookup n = ⟨[], [], hashes.map blocks⟩) ↔
      ∀ list ∈ missing blocks hashes received.length, ∀ r ∈ list,
        getEncodedLength r ≤ SOFT_RESPONSE_LIMIT := by
  intro q
  have hq : Consistent blocks hashes q := ⟨⟨[], rfl, rfl⟩, hbegun⟩
  constructor
  · intro ⟨_, n, hn⟩
    have hend : Small ((q.rounds lookup n).missing blocks) := by
      rw [hn]
      exact fun list hlist => nomatch hlist
    exact hq.small_of_rounds hknown hend
  · intro hsmall
    constructor
    · intro n
      have hrounds := hq.rounds hknown n
      refine hrounds.round_ok hknown ?_
      induction n with
      | zero => exact hsmall
      | succ n ih =>
        have hrounds' := hq.rounds hknown n
        obtain ⟨left, hfits⟩ := answer_fits (q.rounds lookup n).received.length
          (hrounds'.known hknown)
        unfold Requester.rounds
        rw [Function.iterate_succ_apply']
        have hleft := (hrounds'.accept hfits).2
        have hsmall' := hfits.small (ih hrounds')
        rw [← hleft] at hsmall'
        exact hsmall'
    · obtain ⟨n, hn⟩ := hq.ends hknown hsmall
      refine ⟨n, ?_⟩
      obtain ⟨⟨before, hsplit, hdone⟩, hbegun'⟩ := hq.rounds hknown n
      generalize q.rounds lookup n = q' at hn hsplit hdone hbegun'
      obtain ⟨hashes', received', done'⟩ := q'
      obtain rfl : hashes' = [] := hn
      obtain rfl : received' = [] := hbegun'
      obtain rfl : done' = before.map blocks := hdone
      rw [hsplit, List.append_nil]

end

end

/-! ## A receipt above the limit -/

section Sample

/-- A receipt that stands for its length. -/
local instance : EncodedLength Nat := ⟨id⟩

def sampleHash : Hash32 := Vector.replicate 32 1

/-- A block with a short receipt and one of 3 MiB. -/
def largeReceipt : Hash32 → List Nat := fun _ => [500, 3 * 1024 * 1024]

/-- A block with two short receipts. -/
def shortReceipts : Hash32 → List Nat := fun _ => [500, 600]

theorem rounds_shortReceipts :
    ∃ n, (Requester.rounds (fun h => some (shortReceipts h)) n ⟨[sampleHash], [500], []⟩) =
      ⟨[], [], [[500, 600]]⟩ :=
  ((rounds_ok_iff (fun h => some (shortReceipts h)) shortReceipts [sampleHash] [500]
    (fun _ _ => rfl) ⟨[600], rfl⟩).mpr (by decide)).2

/-- After the short receipt the requester asks for the large one again and again: every
answer is empty. -/
theorem large_receipt_stalls :
    (∀ n, Requester.rounds (fun h => some (largeReceipt h)) (n + 1) ⟨[sampleHash], [], []⟩ =
        ⟨[sampleHash], [500], []⟩) ∧
      getStoredReceipts70 (fun h => some (largeReceipt h)) ⟨1, [sampleHash]⟩ = {} ∧
      ¬ RoundOk (fun h => some (largeReceipt h)) largeReceipt ⟨[sampleHash], [500], []⟩ := by
  refine ⟨fun n => ?_, by decide, fun hok => ?_⟩
  · induction n with
    | zero => rfl
    | succ n ih =>
      unfold Requester.rounds at ih ⊢
      rw [Function.iterate_succ_apply', ih]
      rfl
  · obtain ⟨list, lists, hreceipts, _⟩ := hok.2 (by decide)
    cases hreceipts

end Sample

end Nimbus.Spec.EthHandler
