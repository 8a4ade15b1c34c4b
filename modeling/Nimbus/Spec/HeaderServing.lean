import Nimbus.Native.EthHandler

/-!
# The headers and bodies that are served

A request for headers names a start block and a distance, so the numbers it asks for are
known in exact integers (`wantedNumber`). An answer is right when it lists what is wanted,
one header after the other, and ends early only at a serving limit or at a header that is
not wanted. The code steps in 64 bits, lists the first header before it looks at the number
of results, and compares with the expiry limit the other way round.
-/

namespace Nimbus.Spec.EthHandler

open Nimbus.Native.EthHandler
open Nimbus.Native.Aristo (Hash32)

/-! ## What is wanted -/

/-- The `i`th number of a request, when there is one. -/
def wantedNumber (req : BlockHeadersRequest) (start i : Nat) : Option Nat :=
  if req.reverse then
    if i * (req.skip + 1) ≤ start then some (start - i * (req.skip + 1)) else none
  else some (start + i * (req.skip + 1))

/-- Older than the expiry limit. -/
def Older (c : ForkedChain) (number : Nat) : Prop := ∃ limit, c.portal = some limit ∧ number < limit

instance (c : ForkedChain) (number : Nat) : Decidable (Older c number) :=
  match hportal : c.portal with
  | none => .isFalse fun ⟨_, h, _⟩ => by rw [hportal] at h; cases h
  | some limit =>
    if hlt : number < limit then .isTrue ⟨limit, hportal, hlt⟩
    else .isFalse fun ⟨_, h, hlt'⟩ => by rw [hportal] at h; cases h; exact hlt hlt'

/-- The `i`th header of a request: the canonical one at its number, unless it is older than
the expiry limit. -/
def wanted (c : ForkedChain) (req : BlockHeadersRequest) (start i : Nat) : Option Header :=
  ((wantedNumber req start i).bind c.headerByNumber).filter fun h => ¬ Older c h.number

section
variable {c : ForkedChain} {req : BlockHeadersRequest} {start i : Nat}

theorem headerByNumber_spec {number : Nat} {h : Header}
    (hn : c.headerByNumber number = some h) : h.number = number ∧ number ≤ c.latest.number := by
  unfold ForkedChain.headerByNumber at hn
  split at hn
  · cases hn
  next hle =>
  refine ⟨?_, by omega⟩
  split at hn
  · exact c.getBlockHeader_number number h hn
  · have hfound := List.find?_some hn
    simp only [decide_eq_true_eq] at hfound
    exact hfound.symm

theorem wanted_eq_some {h : Header} : wanted c req start i = some h ↔
    ∃ n, wantedNumber req start i = some n ∧ c.headerByNumber n = some h ∧ ¬ Older c h.number := by
  unfold wanted
  rw [Option.filter_eq_some_iff, Option.bind_eq_some_iff]
  simp only [decide_eq_true_eq]
  constructor
  · intro ⟨⟨n, hn, hh⟩, hold⟩
    exact ⟨n, hn, hh, hold⟩
  · intro ⟨n, hn, hh, hold⟩
    exact ⟨⟨n, hn, hh⟩, hold⟩

theorem number_of_wanted {h : Header} (hw : wanted c req start i = some h) :
    wantedNumber req start i = some h.number ∧ c.headerByNumber h.number = some h := by
  obtain ⟨n, hn, hh, _⟩ := wanted_eq_some.mp hw
  obtain rfl := (headerByNumber_spec hh).1
  exact ⟨hn, hh⟩

theorem next_cases {n : Nat} (hn : wantedNumber req start i = some n) (hlt : n < 2 ^ 64) :
    (wantedNumber req start (i + 1) = some (req.next n)) ∨
      (∀ m, wantedNumber req start (i + 1) = some m → 2 ^ 64 ≤ m) := by
  have hmul : (i + 1) * (req.skip + 1) = i * (req.skip + 1) + req.skip + 1 := by
    rw [Nat.add_one_mul]
    omega
  unfold wantedNumber at hn ⊢
  unfold BlockHeadersRequest.next u64
  rw [hmul]
  split at hn
  · next hrev =>
    rw [if_pos hrev, if_pos hrev]
    split at hn
    · cases hn
      by_cases hle : i * (req.skip + 1) + req.skip + 1 ≤ start
      · left
        rw [if_pos hle]
        congr 1
        omega
      · right
        rw [if_neg hle]
        exact fun m hm => nomatch hm
    · cases hn
  · next hrev =>
    cases hn
    rw [if_neg hrev, if_neg hrev]
    by_cases hfit : start + i * (req.skip + 1) + 1 + req.skip < 2 ^ 64
    · left
      congr 1
      omega
    · right
      intro m hm
      cases hm
      omega

end

/-! ## The loop -/

section
variable [EncodedLength Header] {c : ForkedChain} {req : BlockHeadersRequest}

def totalBytes (headers : List Header) : Nat := (headers.map getEncodedLength).sum

/-- An answer that may end here whatever was asked for. -/
def AtLimit (headers : List Header) : Prop :=
  MAX_HEADERS_SERVE ≤ headers.length ∨ SOFT_RESPONSE_LIMIT < totalBytes headers

/-- Whether the answer goes on after its `i`th header. -/
def GoesOn (req : BlockHeadersRequest) (i : Nat) (headers : List Header) : Prop :=
  i + 1 < req.maxResults ∧ (i = 0 ∨ ¬ AtLimit headers)

instance (headers : List Header) : Decidable (AtLimit headers) :=
  inferInstanceAs (Decidable (_ ∨ _))

instance (i : Nat) (headers : List Header) : Decidable (GoesOn req i headers) :=
  inferInstanceAs (Decidable (_ ∧ _))

variable (c req) in
theorem headersLoop_next (header : Header) {room : Nat} (len bytes : Nat)
    (hroom : len + room = MAX_HEADERS_SERVE + 1) (hlen : len < MAX_HEADERS_SERVE) (j : Nat) :
    (header :: headersLoop c req room header len bytes)[j + 1]? =
      if len + j < req.maxResults ∧ (j = 0 ∨ len + j < MAX_HEADERS_SERVE ∧
          bytes + totalBytes ((headersLoop c req room header len bytes).take j) ≤
            SOFT_RESPONSE_LIMIT) then
        (header :: headersLoop c req room header len bytes)[j]?.bind
          fun h => c.headerByNumber (req.next h.number)
      else none := by
  -- induction on the room, which lasts until the limit on the number of headers
  induction room generalizing header len bytes j with
  | zero => omega
  | succ room ih =>
    simp only [headersLoop]
    by_cases hmax : len < req.maxResults
    · rw [if_pos hmax]
      cases hnext : c.headerByNumber (req.next header.number) with
      | none =>
        cases j with
        | zero => simp [hnext]
        | succ j => simp
      | some h =>
        cases j with
        | zero => simp [hnext, hmax]
        | succ j =>
          by_cases hend : MAX_HEADERS_SERVE ≤ len + 1 ∨
              SOFT_RESPONSE_LIMIT < bytes + getEncodedLength h
          · -- the loop ends with this header
            simp only [if_pos hend]
            cases j with
            | zero =>
              have hstop : ¬ (len + 1 < MAX_HEADERS_SERVE ∧
                  bytes + getEncodedLength h ≤ SOFT_RESPONSE_LIMIT) := by omega
              simp [totalBytes, hstop]
            | succ j => simp
          · simp only [if_neg hend]
            have hih := ih h (len + 1) (bytes + getEncodedLength h) (by omega) (by omega) j
            simp only [List.getElem?_cons_succ, List.take_succ_cons, totalBytes, List.map_cons,
              List.sum_cons] at hih ⊢
            rw [hih]
            refine if_congr ?_ rfl rfl
            cases j with
            | zero =>
              simp only [List.take_zero, List.map_nil, List.sum_nil]
              omega
            | succ j => omega
    · rw [if_neg hmax]
      have hno : ¬ len + j < req.maxResults := by omega
      simp [hno]

variable (c req) in
/-- What stands after the `i`th header of an answer that begins with `header`. -/
theorem headers_next (header : Header) (i : Nat) :
    let headers := header :: headersLoop c req MAX_HEADERS_SERVE header 1 (getEncodedLength header)
    headers[i + 1]? =
      if GoesOn req i (headers.take (i + 1)) then
        headers[i]?.bind fun h => c.headerByNumber (req.next h.number)
      else none := by
  intro headers
  by_cases hi : i < headers.length
  · have hnext := headersLoop_next c req header 1 (getEncodedLength header)
      (show 1 + MAX_HEADERS_SERVE = MAX_HEADERS_SERVE + 1 by decide) (by decide) i
    refine hnext.trans (if_congr ?_ rfl rfl)
    have hlen : (headers.take (i + 1)).length = i + 1 := by
      rw [List.length_take]
      omega
    show _ ↔ _ ∧ (_ ∨ ¬ (_ ∨ _ < totalBytes (header :: (headersLoop _ _ _ _ _ _).take i)))
    simp only [totalBytes, List.map_cons, List.sum_cons]
    omega
  · have hnone : headers[i]? = none := List.getElem?_eq_none (by omega)
    have hnone' : headers[i + 1]? = none := List.getElem?_eq_none (by omega)
    rw [hnone, hnone', Option.bind_none, ite_self]

/-! ## Headers -/

/-- A right answer: what is wanted from the start on, up to the first header that is not
wanted or a serving limit. -/
structure Served (c : ForkedChain) (req : BlockHeadersRequest) (start : Nat)
    (headers : List Header) : Prop where
  length_le : headers.length ≤ req.maxResults
  wanted : ∀ i h, headers[i]? = some h → wanted c req start i = some h
  stop : headers.length < req.maxResults →
    AtLimit headers ∨ Spec.EthHandler.wanted c req start headers.length = none

def HeadersOk (c : ForkedChain) (req : BlockHeadersRequest) : Prop :=
  match c.blockHeader req.startBlock with
  | none => getBlockHeaders c req = []
  | some header => Served c req header.number (getBlockHeaders c req)

/-- The first `n` wanted headers. -/
def wantedUpTo (c : ForkedChain) (req : BlockHeadersRequest) (start n : Nat) : List Header :=
  (List.range n).filterMap (wanted c req start)

/-- The step to the number after the `i`th: it does not leave the numbers of 64 bits to come
back at a block, nor does it reach a header older than the expiry limit. -/
structure StepFits (c : ForkedChain) (req : BlockHeadersRequest) (start i : Nat) : Prop where
  noWrap : ∀ n, wantedNumber req start i = some n →
    (∀ m, wantedNumber req start (i + 1) = some m → 2 ^ 64 ≤ m) →
    c.headerByNumber (req.next n) = none
  notOlder : ∀ n h, wantedNumber req start (i + 1) = some n → c.headerByNumber n = some h →
    ¬ Older c n

/-- The requests that are answered right. One that is refused must want nothing. Any other
must want the header that it starts with, and every step that the serving limits admit must
fit. -/
def HeadersFit (c : ForkedChain) (req : BlockHeadersRequest) : Prop :=
  ∀ header, c.blockHeader req.startBlock = some header →
    if expiryRefused c req header then
      req.maxResults = 0 ∨ wanted c req header.number 0 = none
    else
      0 < req.maxResults ∧ wanted c req header.number 0 = some header ∧
      ∀ i, (wantedUpTo c req header.number (i + 1)).length = i + 1 →
        GoesOn req i (wantedUpTo c req header.number (i + 1)) → StepFits c req header.number i

section
variable {start : Nat} {headers : List Header}

omit [EncodedLength Header] in
theorem take_eq_wantedUpTo {n : Nat} (hn : n ≤ headers.length)
    (hw : ∀ i h, i < n → headers[i]? = some h → wanted c req start i = some h) :
    headers.take n = wantedUpTo c req start n := by
  induction n with
  | zero => rfl
  | succ n ih =>
    have hget : headers[n]? = some headers[n] := List.getElem?_eq_getElem (by omega)
    have hlast := hw n _ (by omega) hget
    unfold wantedUpTo at ih ⊢
    rw [List.range_succ, List.take_add_one, ih (by omega) fun i h hi => hw i h (by omega)]
    simp [hlast]

theorem AtLimit.mono {other : List Header} (hpre : headers <+: other) (h : AtLimit headers) :
    AtLimit other := by
  obtain ⟨rest, rfl⟩ := hpre
  unfold AtLimit totalBytes at *
  simp only [List.length_append, List.map_append, List.sum_append]
  omega

section

omit [EncodedLength Header]

theorem wantedUpTo_mono {n m : Nat} (hle : n ≤ m) :
    wantedUpTo c req start n <+: wantedUpTo c req start m := by
  obtain ⟨k, rfl⟩ := Nat.exists_eq_add_of_le hle
  unfold wantedUpTo
  rw [List.range_add, List.filterMap_append]
  exact List.prefix_append _ _

theorem isSome_of_wantedUpTo_length {n : Nat} (hlen : (wantedUpTo c req start n).length = n)
    {i : Nat} (hi : i < n) : (wanted c req start i).isSome := by
  have hall : (List.range n).length ≤ ((List.range n).filterMap (wanted c req start)).length := by
    rw [List.length_range]
    exact Nat.le_of_eq hlen.symm
  by_contra hnone
  rw [Option.not_isSome_iff_eq_none] at hnone
  have hlt := List.length_filterMap_lt_length_iff_exists.mpr
    ⟨i, List.mem_range.mpr hi, hnone⟩
  omega

theorem wanted_next {i : Nat} {h h' : Header} (hw : wanted c req start i = some h)
    (hfits : StepFits c req start i) (hnext : c.headerByNumber (req.next h.number) = some h') :
    wanted c req start (i + 1) = some h' := by
  have hnum := (number_of_wanted hw).1
  obtain hexact | hout := next_cases hnum h.number_lt
  · have hold := hfits.notOlder _ h' hexact hnext
    rw [← (headerByNumber_spec hnext).1] at hold
    exact wanted_eq_some.mpr ⟨_, hexact, hnext, hold⟩
  · rw [hfits.noWrap h.number hnum hout] at hnext
    cases hnext

end

end

section

variable {header : Header} {headers : List Header} (hheaders : headers = header :: headersLoop c req MAX_HEADERS_SERVE header 1 (getEncodedLength header))
include hheaders

/-- What holds of each header of an answer when all steps fit. -/
theorem wanted_of_fits
    (hmax : 0 < req.maxResults) (hfirst : wanted c req header.number 0 = some header)
    (hsteps : ∀ i, (wantedUpTo c req header.number (i + 1)).length = i + 1 →
      GoesOn req i (wantedUpTo c req header.number (i + 1)) → StepFits c req header.number i)
    (n : Nat) : ∀ i h, i ≤ n → headers[i]? = some h →
      wanted c req header.number i = some h ∧ i < req.maxResults := by
  induction n with
  | zero =>
    intro i h hi hget
    obtain rfl : i = 0 := by omega
    rw [hheaders] at hget
    cases hget
    exact ⟨hfirst, hmax⟩
  | succ n ih =>
    intro i h hi hget
    by_cases hle : i ≤ n
    · exact ih i h hle hget
    obtain rfl : i = n + 1 := by omega
    have hlen : n + 1 < headers.length := (List.getElem?_eq_some_iff.mp hget).1
    have hnext := headers_next c req header n
    dsimp only at hnext
    rw [← hheaders, hget] at hnext
    -- the headers so far are the wanted ones, so this step fits
    have htake := take_eq_wantedUpTo (n := n + 1) (by omega)
      fun i h hi hget => (ih i h (by omega) hget).1
    split at hnext
    · next hgo =>
      obtain ⟨h', hget', hnext'⟩ := Option.bind_eq_some_iff.mp hnext.symm
      have hlen' : (wantedUpTo c req header.number (n + 1)).length = n + 1 := by
        rw [← htake, List.length_take]
        omega
      rw [htake] at hgo
      have hw := (ih n h' (Nat.le_refl _) hget').1
      exact ⟨wanted_next hw (hsteps n hlen' hgo) hnext', hgo.1⟩
    · cases hnext

theorem served_of_fits
    (hmax : 0 < req.maxResults) (hfirst : wanted c req header.number 0 = some header)
    (hsteps : ∀ i, (wantedUpTo c req header.number (i + 1)).length = i + 1 →
      GoesOn req i (wantedUpTo c req header.number (i + 1)) → StepFits c req header.number i) :
    Served c req header.number headers := by
  have hall := fun i h => wanted_of_fits hheaders hmax hfirst hsteps i i h (Nat.le_refl _)
  -- the last header of the answer
  obtain ⟨n, hn⟩ : ∃ n, headers.length = n + 1 := by
    rw [hheaders]
    exact ⟨_, rfl⟩
  have hlast : headers[n]? = some headers[n] := List.getElem?_eq_getElem (by omega)
  obtain ⟨hw, hlt⟩ := hall n _ hlast
  refine ⟨by omega, fun i h hget => (hall i h hget).1, fun hshort => ?_⟩
  have hnext := headers_next c req header n
  dsimp only at hnext
  rw [← hheaders, List.getElem?_eq_none (by omega), List.take_of_length_le (by omega), hlast,
    Option.bind_some] at hnext
  split at hnext
  · -- there is no next header
    right
    rw [hn]
    cases hwant : wanted c req header.number (n + 1) with
    | none => rfl
    | some h =>
      obtain ⟨m, hm, hh, _⟩ := wanted_eq_some.mp hwant
      have hmlt := (headerByNumber_spec hh).2
      have hlatest := c.latest.number_lt
      obtain hexact | hout := next_cases (number_of_wanted hw).1 headers[n].number_lt
      · rw [hexact] at hm
        cases hm
        rw [hh] at hnext
        cases hnext
      · have := hout m hm
        omega
  · next hstop =>
    left
    by_contra hno
    exact hstop ⟨by omega, .inr hno⟩

theorem fits_of_served (hs : Served c req header.number headers) {i : Nat}
    (hlen : (wantedUpTo c req header.number (i + 1)).length = i + 1)
    (hgo : GoesOn req i (wantedUpTo c req header.number (i + 1))) :
    StepFits c req header.number i := by
  have hpos : 0 < headers.length := by
    rw [hheaders]
    exact Nat.succ_pos _
  -- the answer does not end before its `i`th header
  have hi : i < headers.length := by
    by_contra hshort
    obtain hlimit | hnone := hs.stop (by have := hgo.1; omega)
    · have htake := take_eq_wantedUpTo (n := headers.length) (Nat.le_refl _)
        fun i h _ => hs.wanted i h
      rw [List.take_length] at htake
      rw [htake] at hlimit
      obtain hzero | hno := hgo.2
      · omega
      · exact hno (hlimit.mono (wantedUpTo_mono (by omega)))
    · have hsome := isSome_of_wantedUpTo_length hlen (i := headers.length) (by omega)
      rw [hnone] at hsome
      cases hsome
  have hget : headers[i]? = some headers[i] := List.getElem?_eq_getElem hi
  have hw := hs.wanted i _ hget
  have hnext := headers_next c req header i
  dsimp only at hnext
  rw [← hheaders, take_eq_wantedUpTo (by omega) fun i h _ => hs.wanted i h, if_pos hgo, hget,
    Option.bind_some] at hnext
  have hnum := (number_of_wanted hw).1
  have hlatest := c.latest.number_lt
  constructor
  · intro n hn hout
    rw [hnum] at hn
    cases hn
    cases hback : c.headerByNumber (req.next headers[i].number) with
    | none => rfl
    | some h =>
      -- the header behind the wrap would be wanted
      rw [hback] at hnext
      have hwant := hs.wanted (i + 1) h hnext
      have hbig := hout _ (number_of_wanted hwant).1
      have := h.number_lt
      omega
  · intro n h hn hh hold
    have hnlt := (headerByNumber_spec hh).2
    obtain hexact | hout := next_cases hnum headers[i].number_lt
    · rw [hexact] at hn
      cases hn
      rw [hh] at hnext
      obtain ⟨_, _, _, hnot⟩ := wanted_eq_some.mp (hs.wanted (i + 1) h hnext)
      rw [(headerByNumber_spec hh).1] at hnot
      exact hnot hold
    · have := hout n hn
      omega

end

theorem served_nil {start : Nat} :
    Served c req start [] ↔ req.maxResults = 0 ∨ wanted c req start 0 = none := by
  have hno : ¬ AtLimit ([] : List Header) := by
    simp [AtLimit, totalBytes, MAX_HEADERS_SERVE]
  constructor
  · intro hs
    by_cases hmax : req.maxResults = 0
    · exact .inl hmax
    · exact .inr ((hs.stop (Nat.pos_of_ne_zero hmax)).resolve_left hno)
  · intro h
    exact ⟨Nat.zero_le _, (fun i h hget => nomatch hget),
      fun hlt => .inr (h.resolve_left (Nat.ne_of_gt hlt))⟩

theorem headers_ok_iff : HeadersOk c req ↔ HeadersFit c req := by
  unfold HeadersOk HeadersFit getBlockHeaders
  cases hstart : c.blockHeader req.startBlock with
  | none => simp
  | some header =>
    simp only [Option.some.injEq, forall_eq']
    by_cases hrefused : expiryRefused c req header = true
    · rw [if_pos hrefused, if_pos hrefused]
      exact served_nil
    · rw [if_neg hrefused, if_neg hrefused]
      constructor
      · intro hs
        have hfirst := hs.wanted 0 header rfl
        have hmax := hs.length_le
        rw [List.length_cons] at hmax
        exact ⟨by omega, hfirst, fun i => fits_of_served rfl hs⟩
      · intro ⟨hmax, hfirst, hsteps⟩
        exact served_of_fits rfl hmax hfirst hsteps

end

/-! ## Bodies -/

section
variable [EncodedLength BlockBody] {c : ForkedChain}

/-- The blocks of a list up to a serving limit. -/
def blocksUpTo : List Block → (len bytes : Nat) → List Block
  | [], _, _ => []
  | b :: bs, len, bytes =>
    let bytes := bytes + getEncodedLength b.body
    b :: if MAX_BODIES_SERVE ≤ len + 1 ∨ SOFT_RESPONSE_LIMIT < bytes then []
      else blocksUpTo bs (len + 1) bytes

/-- Whether an answer may end after these blocks, when `len` blocks went before. -/
def BodiesEnd (len bytes : Nat) (blocks : List Block) : Prop :=
  MAX_BODIES_SERVE ≤ len + blocks.length ∨
    SOFT_RESPONSE_LIMIT < bytes + (blocks.map fun b => getEncodedLength b.body).sum

/-- A right answer: the requested blocks that are known and not older than the expiry limit,
up to a serving limit. -/
def BodiesOk (c : ForkedChain) (hashes : List Hash32) : Prop :=
  let blocks := (hashes.filterMap c.blockByHash).filter fun b => ¬ Older c b.header.number
  bodiesLoop c hashes 0 0 <+: blocks ∧
    (bodiesLoop c hashes 0 0 = blocks ∨ BodiesEnd 0 0 (bodiesLoop c hashes 0 0))

/-- The requests for bodies that are answered right: there is no expiry limit, or the blocks
in question all have the limit for their number. -/
def BodiesFit (c : ForkedChain) (hashes : List Hash32) : Prop :=
  ∀ limit, c.portal = some limit →
    ∀ b ∈ blocksUpTo (hashes.filterMap c.blockByHash) 0 0, b.header.number = limit

theorem bodiesLoop_eq (hashes : List Hash32) (len bytes : Nat) :
    bodiesLoop c hashes len bytes =
      blocksUpTo ((hashes.filterMap c.blockByHash).filter fun b =>
        ! c.portal.any fun limit => limit < b.header.number) len bytes := by
  induction hashes generalizing len bytes with
  | nil => rfl
  | cons hash hashes ih =>
    simp only [bodiesLoop]
    cases hblk : c.blockByHash hash with
    | none =>
      rw [List.filterMap_cons_none hblk]
      exact ih len bytes
    | some blk =>
      rw [List.filterMap_cons_some hblk]
      cases hold : c.portal.any fun limit => limit < blk.header.number with
      | true =>
        rw [List.filter_cons_of_neg (by simp [hold])]
        simp only [hold, if_true]
        exact ih len bytes
      | false =>
        rw [List.filter_cons_of_pos (by simp [hold])]
        simp only [hold, Bool.false_eq_true, if_false, blocksUpTo]
        rw [ih]

theorem blocksUpTo_spec (blocks : List Block) (len bytes : Nat) :
    blocksUpTo blocks len bytes <+: blocks ∧
      (blocksUpTo blocks len bytes = blocks ∨
        BodiesEnd len bytes (blocksUpTo blocks len bytes)) := by
  induction blocks generalizing len bytes with
  | nil => exact ⟨List.prefix_refl _, .inl rfl⟩
  | cons b bs ih =>
    simp only [blocksUpTo]
    by_cases hend : MAX_BODIES_SERVE ≤ len + 1 ∨
        SOFT_RESPONSE_LIMIT < bytes + getEncodedLength b.body
    · rw [if_pos hend]
      refine ⟨by simp, .inr ?_⟩
      simpa [BodiesEnd] using hend
    · rw [if_neg hend]
      obtain ⟨hpre, hstop⟩ := ih (len + 1) (bytes + getEncodedLength b.body)
      refine ⟨by simpa using hpre, ?_⟩
      obtain hall | hlimit := hstop
      · exact .inl (by rw [hall])
      · right
        unfold BodiesEnd at hlimit ⊢
        simp only [List.length_cons, List.map_cons, List.sum_cons]
        omega

theorem blocksUpTo_filter {p : Block → Bool} (blocks : List Block) (len bytes : Nat)
    (hall : ∀ b ∈ blocksUpTo blocks len bytes, p b) :
    blocksUpTo (blocks.filter p) len bytes = blocksUpTo blocks len bytes := by
  induction blocks generalizing len bytes with
  | nil => rfl
  | cons b bs ih =>
    have hb : p b := hall b (by simp [blocksUpTo])
    rw [List.filter_cons_of_pos hb]
    simp only [blocksUpTo] at hall ⊢
    by_cases hend : MAX_BODIES_SERVE ≤ len + 1 ∨
        SOFT_RESPONSE_LIMIT < bytes + getEncodedLength b.body
    · rw [if_pos hend, if_pos hend]
    · rw [if_neg hend] at hall
      rw [if_neg hend, if_neg hend]
      congr 1
      exact ih _ _ fun x hx => hall x (.tail _ hx)

/-- What is older must be left out and what is newer must not, so all have the limit. -/
theorem number_of_bodies {limit : Nat} (blocks : List Block) {len bytes : Nat}
    (hstart : ¬ BodiesEnd len bytes [])
    (hpre : blocksUpTo (blocks.filter fun b => ! decide (limit < b.header.number)) len bytes <+:
      blocks.filter fun b => ¬ b.header.number < limit)
    (hstop : blocksUpTo (blocks.filter fun b => ! decide (limit < b.header.number)) len bytes =
        (blocks.filter fun b => ¬ b.header.number < limit) ∨
      BodiesEnd len bytes
        (blocksUpTo (blocks.filter fun b => ! decide (limit < b.header.number)) len bytes)) :
    ∀ b ∈ blocksUpTo blocks len bytes, b.header.number = limit := by
  induction blocks generalizing len bytes with
  | nil => exact fun b hb => nomatch hb
  | cons b bs ih =>
    obtain hlt | heq | hgt := Nat.lt_trichotomy b.header.number limit
    · -- an older block is served
      rw [List.filter_cons_of_pos (by simp; omega)] at hpre
      have hmem := hpre.subset (a := b) (by simp [blocksUpTo])
      rw [List.mem_filter] at hmem
      simp only [decide_eq_true_eq] at hmem
      omega
    · rw [List.filter_cons_of_pos (by simp; omega),
        List.filter_cons_of_pos (by simp; omega)] at hpre hstop
      simp only [blocksUpTo] at hpre hstop ⊢
      by_cases hend : MAX_BODIES_SERVE ≤ len + 1 ∨
          SOFT_RESPONSE_LIMIT < bytes + getEncodedLength b.body
      · rw [if_pos hend]
        intro x hx
        rw [List.mem_singleton] at hx
        rw [hx, heq]
      · rw [if_neg hend] at hpre hstop ⊢
        intro x hx
        obtain rfl | hx := List.mem_cons.mp hx
        · exact heq
        refine @ih (len + 1) (bytes + getEncodedLength b.body) ?_ ?_ ?_ x hx
        · simpa [BodiesEnd] using hend
        · simpa using hpre
        · obtain hall | hlimit := hstop
          · exact .inl (List.cons.inj hall).2
          · right
            unfold BodiesEnd at hlimit ⊢
            simp only [List.length_cons, List.map_cons, List.sum_cons] at hlimit
            omega
    · -- a newer block is left out
      rw [List.filter_cons_of_neg (by simp; omega),
        List.filter_cons_of_pos (by simp; omega)] at hpre hstop
      generalize hserved : blocksUpTo (bs.filter fun b => ! decide (limit < b.header.number))
        len bytes = served at hpre hstop
      cases served with
      | nil =>
        obtain hall | hlimit := hstop
        · cases hall
        · exact absurd hlimit hstart
      | cons x xs =>
        obtain ⟨rest, hrest⟩ := hpre
        obtain rfl := (List.cons.inj hrest).1
        have hmem : x ∈ bs.filter fun b => ! decide (limit < b.header.number) := by
          refine (blocksUpTo_spec _ len bytes).1.subset ?_
          rw [hserved]
          exact List.mem_cons_self
        rw [List.mem_filter] at hmem
        simp only [Bool.not_eq_true', decide_eq_false_iff_not] at hmem
        omega

theorem bodies_ok_iff (hashes : List Hash32) : BodiesOk c hashes ↔ BodiesFit c hashes := by
  unfold BodiesOk BodiesFit
  rw [bodiesLoop_eq]
  generalize hashes.filterMap c.blockByHash = blocks
  cases hportal : c.portal with
  | none =>
    have hcode : (blocks.filter fun b => ! (none : Option Nat).any fun limit =>
        limit < b.header.number) = blocks := by simp
    have hspec : (blocks.filter fun b => ¬ Older c b.header.number) = blocks := by
      simp [Older, hportal]
    rw [hcode, hspec]
    have hok := blocksUpTo_spec blocks 0 0
    simp only [reduceCtorEq, false_imp_iff, implies_true, iff_true]
    exact hok
  | some limit =>
    have hold : (fun b : Block => decide ¬ Older c b.header.number) =
        fun b => decide ¬ b.header.number < limit := by
      funext b
      simp [Older, hportal]
    simp only [Option.any_some, hold, Option.some.injEq, forall_eq']
    constructor
    · intro ⟨hpre, hstop⟩
      refine number_of_bodies blocks ?_ hpre hstop
      simp [BodiesEnd, MAX_BODIES_SERVE]
    · intro hall
      have hcode := blocksUpTo_filter (p := fun b => ! decide (limit < b.header.number))
        blocks 0 0 fun b hb => by simp [hall b hb]
      have hspec := blocksUpTo_filter (p := fun b => decide ¬ b.header.number < limit)
        blocks 0 0 fun b hb => by simp [hall b hb]
      rw [hcode, ← hspec]
      exact blocksUpTo_spec _ 0 0

end

/-- The requests for headers and for bodies that are answered right, on every chain. -/
theorem answers_ok_iff [EncodedLength Header] [EncodedLength BlockBody] (c : ForkedChain) :
    (∀ req, HeadersOk c req ↔ HeadersFit c req) ∧
      ∀ hashes, BodiesOk c hashes ↔ BodiesFit c hashes :=
  ⟨fun _ => headers_ok_iff, bodies_ok_iff⟩

/-! ## A skip that wraps -/

section Sample

local instance : EncodedLength Header := ⟨fun _ => 500⟩

/-- A chain of three blocks. -/
def threeBlocks : ForkedChain where
  latest := { number := 2 }
  parents := [{ number := 1 }, { number := 0 }]
  getBlockHeader _ := none
  getBlockHeader_number _ _ h := nomatch h
  headerByHash _ := none
  blockByHash _ := none

/-- Three headers from block 1 on, with the largest skip. -/
def wrappingRequest : BlockHeadersRequest where
  startBlock := .number 1
  maxResults := 3
  skip := 2 ^ 64 - 1
  reverse := false

/-- The number after block 1 would be `2^64 + 1`, but block 1 is listed again. -/
theorem skip_wraps : getBlockHeaders threeBlocks wrappingRequest =
        [{ number := 1 }, { number := 1 }, { number := 1 }] ∧
      ¬ HeadersOk threeBlocks wrappingRequest := by
  refine ⟨by decide +kernel, fun hs => ?_⟩
  have hwant := Served.wanted (show Served threeBlocks wrappingRequest 1 _ from hs) 1
    { number := 1 } (by decide +kernel)
  have hnum := (number_of_wanted hwant).1
  exact absurd hnum (by decide +kernel)

end Sample

end Nimbus.Spec.EthHandler
