import Nimbus.Native.ProxyLogs
import Nimbus.Spec.LogQueries

/-!
# What the verified proxy delivers

The proxy compares a log with the receipts of the block whose hash the log names, and these
with the receipts root of the header of that hash. So the address, the topics and the data are
those of a log of the block. The hash of the transaction, the block number where no range asks
for it, and the index that the receipts give to their first log are never compared, and neither
is the block with the canonical chain.
-/

namespace Nimbus.Spec.VerifiedProxy

open Nimbus.Native.VerifiedProxy
open Nimbus.Native.VerifiedProxy.RpcVerificationEngine
open Nimbus.Native.ForkedChain (Hash32 Header Log)
open Nimbus.Spec.ForkedChain (Selects Log.matches_iff)
open TaskM

/-! ## The canonical chain -/

/-- The blocks that are canonical, each with the keccak of its transactions and its receipts. -/
structure CanonicalChain where
  canonical : Set Header
  txHashes : Header → List Hash32
  receipts : Header → List Receipt
  length : ∀ hd ∈ canonical, (txHashes hd).length = (receipts hd).length

/-- No hash of a canonical block collides, and number and tag lookups are sound. -/
structure Sound {keccak : Hashes} {β : Type} (engine : RpcVerificationEngine keccak β)
    (chain : CanonicalChain) : Prop where
  hash : ∀ hd ∈ chain.canonical, ∀ hd',
    keccak.computeBlockHash hd' = keccak.computeBlockHash hd → hd' = hd
  root : ∀ hd ∈ chain.canonical, ∀ rs, keccak.receiptsRoot rs = hd.receiptsRoot →
    rs.map (·.payload) = (chain.receipts hd).map (·.payload)
  lookup : ∀ tag anchors w hd w', TaskM.Returns (engine.getCanonicalHeader tag anchors) w hd w' →
    hd ∈ chain.canonical ∧ ∀ n, tag = .bidNumber n → hd.number = n

/-- The index in the block of the first log of the transaction `i`. -/
def firstLog (receipts : List Receipt) (i : Nat) : Nat :=
  ((receipts.take i).flatMap (·.logs)).length

/-- The fields of the log object say that it is the log `j` of the transaction `i`. -/
structure LogFields (keccak : Hashes) (chain : CanonicalChain) (hd : Header) (i j : Nat)
    (lg : LogObject) : Prop where
  blockHash : lg.blockHash = some (keccak.computeBlockHash hd)
  blockNumber : lg.blockNumber = some hd.number
  transactionIndex : lg.transactionIndex.map (·.toNat) = some i
  transactionHash : lg.transactionHash = (chain.txHashes hd)[i]?
  logIndex : lg.logIndex.map (·.toNat) = some (firstLog (chain.receipts hd) i + j)

/-- The log object is the log `j` of the transaction `i`. -/
structure LogOf (keccak : Hashes) (chain : CanonicalChain) (hd : Header) (i j : Nat)
    (lg : LogObject) : Prop where
  fields : LogFields keccak chain hd i j lg
  log : ((chain.receipts hd)[i]?).bind (·.logs[j]?) = some lg.toLog

/-- The block lies in the range of a filter without aliases, or is the one of its hash. -/
def InRange (keccak : Hashes) (filter : FilterOptions) (hd : Header) : Prop :=
  match filter.blockHash with
  | some hash => keccak.computeBlockHash hd = hash
  | none => ∃ lo hi, filter.fromBlock = some (.bidNumber lo) ∧
      filter.toBlock = some (.bidNumber hi) ∧ lo ≤ hd.number ∧ hd.number ≤ hi

/-- The log is one of a canonical block, and the filter asks for it. -/
def Delivered (keccak : Hashes) (chain : CanonicalChain) (filter : FilterOptions)
    (lg : LogObject) : Prop :=
  ∃ hd ∈ chain.canonical, ∃ i j, LogOf keccak chain hd i j lg ∧ InRange keccak filter hd ∧
    Selects { address := filter.address, topics := filter.topics } lg.toLog

/-- The fields that no test reads are right, and the receipts `rxs`, which count from the index
that they give to the first log of the transaction, lead to the log of that index. -/
def Unforged (keccak : Hashes) (chain : CanonicalChain) (rxs : List ReceiptObject)
    (lg : LogObject) : Prop :=
  ∃ hd ∈ chain.canonical, ∃ i j txIdx logIndex, LogFields keccak chain hd i j lg ∧
    lg.transactionIndex = some txIdx ∧ lg.logIndex = some logIndex ∧
    (rxs[i]?).bind (fun rx => (toLogs rx.logs)[j]?) =
      (receiptLog rxs txIdx logIndex).map (·.toLog)

section

variable {keccak : Hashes} {β : Type} {engine : RpcVerificationEngine keccak β}
  {chain : CanonicalChain} {w w' : World keccak β} {hd : Header} {filter : FilterOptions}
  {lg : LogObject} {rxs : List ReceiptObject}

/-! ## Headers and receipts -/

theorem getTrustedHeader_hash (config : BlockConfig keccak) (hash : Hash32) (trust : HeaderTrust) :
    Request.Meets (Request.anything ..) (fun _ => True)
      (fun hd => keccak.computeBlockHash hd = hash) (config.getTrustedHeader hash trust) := by
  apply Request.Meets.bind (Request.meets_anything _)
  intro store _
  split
  · next cached hcached =>
    apply Request.Meets.bind (Request.meets_anything _)
    exact fun _ _ => HeaderStore.get_keyed hcached
  · apply Request.Meets.bind (Request.meets_anything _)
    intro blk _
    split
    · next hhash =>
      apply Request.Meets.bind (Request.meets_anything _)
      exact fun _ _ => hhash
    · trivial

theorem getVerifiedHeader_hash {hash : Hash32} {snapshot : Option AnchorHashes}
    (h : TaskM.Returns (engine.getVerifiedHeader (.bidHash hash false) snapshot) w hd w') :
    keccak.computeBlockHash hd = hash := by
  obtain ⟨anchors, w₁, -, h⟩ := returns_bind.mp h
  exact Request.returns_toTask (fun _ => trivial) (fun _ => trivial) (fun _ _ => trivial)
    (getTrustedHeader_hash engine.blocks hash .none) h

theorem getVerifiedHeader_canonical (hsound : Sound engine chain) {tag : BlockTag}
    (htag : ∀ hash, tag ≠ .bidHash hash false) {snapshot : Option AnchorHashes}
    (h : TaskM.Returns (engine.getVerifiedHeader tag snapshot) w hd w') :
    hd ∈ chain.canonical ∧ ∀ n, tag = .bidNumber n → hd.number = n := by
  obtain ⟨anchors, w₁, -, h⟩ := returns_bind.mp h
  split at h
  · exact absurd rfl (htag _)
  · exact hsound.lookup _ _ _ _ _ h

theorem getReceiptsOf_root {tag : BlockTag}
    (h : TaskM.Returns (engine.getReceiptsOf hd tag) w rxs w') :
    keccak.receiptsRoot (toReceipts rxs) = hd.receiptsRoot := by
  obtain ⟨answer, w₁, -, h⟩ := returns_bind.mp h
  split at h
  · split at h
    · exact absurd h returns_throw
    · next hroot =>
      rw [← (returns_pure.mp h).1]
      exact not_not.mp hroot
  · exact absurd h returns_throw

theorem getReceiptsByHash_root {hash : Hash32}
    (h : TaskM.Returns (engine.getReceiptsByHash hash) w rxs w') :
    ∃ hd, keccak.computeBlockHash hd = hash ∧
      keccak.receiptsRoot (toReceipts rxs) = hd.receiptsRoot := by
  obtain ⟨hd, w₁, hheader, h⟩ := returns_bind.mp h
  exact ⟨hd, getVerifiedHeader_hash hheader, getReceiptsOf_root h⟩

/-- The receipts of a canonical block, as far as its receipts root goes. -/
structure Rooted (chain : CanonicalChain) (hd : Header) (rxs : List ReceiptObject) : Prop where
  payload : (toReceipts rxs).map (·.payload) = (chain.receipts hd).map (·.payload)

theorem Sound.rooted (hsound : Sound engine chain) (hhd : hd ∈ chain.canonical)
    (hroot : keccak.receiptsRoot (toReceipts rxs) = hd.receiptsRoot) : Rooted chain hd rxs :=
  ⟨hsound.root hd hhd _ hroot⟩

theorem Rooted.get (h : Rooted chain hd rxs) (i : Nat) :
    (rxs[i]?).map (·.toReceipt.payload) = ((chain.receipts hd)[i]?).map (·.payload) := by
  have hget := congrArg (·[i]?) h.payload
  simpa [toReceipts, List.getElem?_map, Function.comp_def] using hget

theorem Rooted.logs (h : Rooted chain hd rxs) (i j : Nat) :
    (rxs[i]?).bind (fun rx => (toLogs rx.logs)[j]?) =
      ((chain.receipts hd)[i]?).bind (·.logs[j]?) := by
  have hget := congrArg (Option.bind · (·.logs[j]?)) (h.get i)
  simpa [Option.bind_map, Function.comp_def, Receipt.payload, ReceiptObject.toReceipt] using hget

/-! ## The check of a log -/

theorem checkLog_ok {blockHash : Hash32} {rxLog : Option LogObject}
    (h : checkLog filter lg blockHash rxLog = .ok ()) :
    rxLog.map (·.toLog) = some lg.toLog ∧ inFilterRange filter lg blockHash = .ok true ∧
      lg.toLog.matches filter.address filter.topics = true := by
  unfold checkLog at h
  cases rxLog with
  | none => exact nomatch h
  | some rxLog =>
    cases hrange : inFilterRange filter lg blockHash with
    | error e =>
      rw [hrange] at h
      cases h
    | ok inRange =>
      rw [hrange] at h
      dsimp only [bind, Except.bind] at h
      split at h
      · cases h
      · next hno =>
        simp only [not_or, not_not, Bool.not_eq_false] at hno
        obtain ⟨haddress, hdata, htopics, hin, hmatch⟩ := hno
        refine ⟨?_, by rw [hin], hmatch⟩
        unfold LogObject.toLog
        rw [Option.map_some, haddress, hdata, htopics]

theorem inRange_of_inFilterRange (h : inFilterRange filter lg (keccak.computeBlockHash hd) = .ok true)
    (hnumber : lg.blockNumber = some hd.number) : InRange keccak filter hd := by
  unfold inFilterRange at h
  unfold InRange
  cases hhash : filter.blockHash with
  | some hash =>
    simp only [hhash, Except.ok.injEq, beq_iff_eq] at h
    exact h
  | none =>
    simp only [hhash, hnumber] at h
    split at h
    · next lo hi hlo hhi =>
      simp only [Except.ok.injEq, Bool.and_eq_true, decide_eq_true_eq] at h
      exact ⟨lo, hi, hlo, hhi, h.1, h.2⟩
    · cases h

/-- The receipts in hand are those of the root of a header with the hash, or there are none. -/
def Held (keccak : Hashes) (st : Prefetched) : Prop :=
  st.rxs = [] ∨ ∃ hd, keccak.computeBlockHash hd = st.prevBlockHash ∧
    keccak.receiptsRoot (toReceipts st.rxs) = hd.receiptsRoot

theorem prefetch_held {st st' : Prefetched} {blockHash : Hash32} (hst : Held keccak st)
    (h : TaskM.Returns (engine.prefetch st blockHash) w st' w') :
    Held keccak st' ∧ st'.prevBlockHash = blockHash := by
  unfold prefetch at h
  split at h
  · obtain ⟨rxs, w₁, hrxs, h⟩ := returns_bind.mp h
    rw [← (returns_pure.mp h).1]
    exact ⟨.inr (getReceiptsByHash_root hrxs), rfl⟩
  · next hsame =>
    rw [← (returns_pure.mp h).1]
    exact ⟨hst, not_not.mp hsame⟩

/-- What a turn of the loop leaves: the log has been compared with the receipts in hand, or it
lacks a field. -/
structure Compared (keccak : Hashes) (filter : FilterOptions) (st : Prefetched)
    (lg : LogObject) : Prop where
  held : Held keccak st
  check : ∀ blockHash txIdx logIndex, lg.blockHash = some blockHash →
    lg.transactionIndex = some txIdx → lg.logIndex = some logIndex →
    st.prevBlockHash = blockHash ∧
      checkLog filter lg blockHash (receiptLog st.rxs txIdx logIndex) = .ok ()

theorem verifyLog_compared {st st' : Prefetched} (hst : Held keccak st)
    (h : TaskM.Returns (engine.verifyLog filter st lg) w st' w') : Compared keccak filter st' lg := by
  unfold verifyLog at h
  split at h
  · next blockHash txIdx logIndex hhash htx hlog =>
    obtain ⟨st₁, w₁, hprefetch, h⟩ := returns_bind.mp h
    obtain ⟨hheld, hprev⟩ := prefetch_held hst hprefetch
    split at h
    · next hcheck =>
      obtain ⟨rfl, -⟩ := returns_pure.mp h
      refine ⟨hheld, ?_⟩
      intro blockHash' txIdx' logIndex' hhash' htx' hlog'
      rw [hhash] at hhash'
      rw [htx] at htx'
      rw [hlog] at hlog'
      cases hhash'
      cases htx'
      cases hlog'
      exact ⟨hprev, hcheck⟩
    · exact absurd h returns_throw
  · next hmissing =>
    obtain ⟨rfl, -⟩ := returns_pure.mp h
    exact ⟨hst, fun _ _ _ hhash htx hlog => absurd hlog (hmissing _ _ _ hhash htx)⟩

theorem Compared.rooted (hsound : Sound engine chain) {st : Prefetched}
    (hc : Compared keccak filter st lg) (hhd : hd ∈ chain.canonical)
    (hhash : lg.blockHash = some (keccak.computeBlockHash hd)) {txIdx logIndex : UInt64}
    (htx : lg.transactionIndex = some txIdx) (hlog : lg.logIndex = some logIndex) :
    Rooted chain hd st.rxs := by
  obtain ⟨hprev, hcheck⟩ := hc.check _ _ _ hhash htx hlog
  rcases hc.held with hnil | ⟨hd', hhash', hroot⟩
  · -- there is no log in an empty list of receipts
    have hsome := (checkLog_ok hcheck).1
    rw [hnil] at hsome
    cases hsome
  · rw [hprev] at hhash'
    rw [hsound.hash hd hhd hd' hhash'] at hroot
    exact hsound.rooted hhd hroot

/-- A log that has passed the check is one of the canonical chain that the filter asks for if
and only if the fields that no test reads are right. -/
theorem delivered_iff (hsound : Sound engine chain) {st : Prefetched}
    (hc : Compared keccak filter st lg) :
    Delivered keccak chain filter lg ↔ Unforged keccak chain st.rxs lg := by
  constructor
  · rintro ⟨hd, hhd, i, j, hlogOf, -, -⟩
    obtain ⟨txIdx, htx, -⟩ := Option.map_eq_some_iff.mp hlogOf.fields.transactionIndex
    obtain ⟨logIndex, hlog, -⟩ := Option.map_eq_some_iff.mp hlogOf.fields.logIndex
    have hrooted := hc.rooted hsound hhd hlogOf.fields.blockHash htx hlog
    obtain ⟨-, hcheck⟩ := hc.check _ _ _ hlogOf.fields.blockHash htx hlog
    refine ⟨hd, hhd, i, j, txIdx, logIndex, hlogOf.fields, htx, hlog, ?_⟩
    rw [hrooted.logs, hlogOf.log, (checkLog_ok hcheck).1]
  · rintro ⟨hd, hhd, i, j, txIdx, logIndex, hfields, htx, hlog, hsame⟩
    have hrooted := hc.rooted hsound hhd hfields.blockHash htx hlog
    obtain ⟨-, hcheck⟩ := hc.check _ _ _ hfields.blockHash htx hlog
    obtain ⟨hcompared, hrange, hmatch⟩ := checkLog_ok hcheck
    rw [hrooted.logs, hcompared] at hsame
    exact ⟨hd, hhd, i, j, ⟨hfields, hsame⟩, inRange_of_inFilterRange hrange hfields.blockNumber,
      Log.matches_iff.mp hmatch⟩

/-! ## Answers -/

/-- The tags of a filter without a block hash stand for canonical headers, looked up against the
same anchors. -/
structure Resolves (engine : RpcVerificationEngine keccak β) (chain : CanonicalChain)
    (filter resolved : FilterOptions) : Prop where
  address : resolved.address = filter.address
  topics : resolved.topics = filter.topics
  blockHash : resolved.blockHash = filter.blockHash
  range : filter.blockHash = none → ∃ anchors, ∃ lo ∈ chain.canonical, ∃ hi ∈ chain.canonical,
    resolved.fromBlock = some (.bidNumber lo.number) ∧
    resolved.toBlock = some (.bidNumber hi.number) ∧
    (∃ w w', TaskM.Returns (engine.getCanonicalHeader (filter.fromBlock.getD (.bidAlias "latest"))
      anchors) w lo w') ∧
    ∃ w w', TaskM.Returns (engine.getCanonicalHeader (filter.toBlock.getD (.bidAlias "latest"))
      anchors) w hi w'

theorem getVerifiedHeader_lookup {tag : BlockTag} (htag : isHashTag tag = false)
    {anchors : AnchorHashes}
    (h : TaskM.Returns (engine.getVerifiedHeader tag (some anchors)) w hd w') :
    ∃ w₁ w₂, TaskM.Returns (engine.getCanonicalHeader tag anchors) w₁ hd w₂ := by
  obtain ⟨anchors', w₁, hanchors, h⟩ := returns_bind.mp h
  obtain ⟨rfl, -⟩ := returns_pure.mp hanchors
  split at h
  · cases htag
  · exact ⟨_, _, h⟩

theorem resolveFilterTags_resolves (hsound : Sound engine chain) {resolved : FilterOptions}
    (h : TaskM.Returns (engine.resolveFilterTags filter) w resolved w') :
    Resolves engine chain filter resolved := by
  unfold resolveFilterTags at h
  split at h
  · next hhash =>
    obtain ⟨rfl, -⟩ := returns_pure.mp h
    refine ⟨rfl, rfl, rfl, fun hnone => ?_⟩
    rw [hnone] at hhash
    cases hhash
  · dsimp only at h
    split at h
    · exact absurd h returns_throw
    · next htags =>
      rw [Bool.or_eq_true, not_or, Bool.not_eq_true, Bool.not_eq_true] at htags
      obtain ⟨anchors, w₁, -, h⟩ := returns_bind.mp h
      obtain ⟨lo, w₂, hlo, h⟩ := returns_bind.mp h
      obtain ⟨hi, w₃, hhi, h⟩ := returns_bind.mp h
      obtain ⟨rfl, -⟩ := returns_pure.mp h
      obtain ⟨_, _, hlo'⟩ := getVerifiedHeader_lookup htags.1 hlo
      obtain ⟨_, _, hhi'⟩ := getVerifiedHeader_lookup htags.2 hhi
      exact ⟨rfl, rfl, rfl, fun _ => ⟨anchors, lo, (hsound.lookup _ _ _ _ _ hlo').1, hi,
        (hsound.lookup _ _ _ _ _ hhi').1, rfl, rfl, ⟨_, _, hlo'⟩, ⟨_, _, hhi'⟩⟩⟩

/-- The fields of a receipt object that its payload does not hold. -/
structure ReceiptFields (keccak : Hashes) (chain : CanonicalChain) (hd : Header) (i : Nat)
    (rec : ReceiptObject) : Prop where
  transactionHash : (chain.txHashes hd)[i]? = some rec.transactionHash
  transactionIndex : rec.transactionIndex.toNat = i
  blockHash : rec.blockHash = keccak.computeBlockHash hd
  blockNumber : rec.blockNumber = hd.number
  status : ∀ n, rec.status = some n → n ≤ 1
  logs : ∀ j lg, rec.logs[j]? = some lg → LogFields keccak chain hd i j lg

/-- The receipt object is the receipt of the transaction `i`. -/
structure ReceiptOf (keccak : Hashes) (chain : CanonicalChain) (hd : Header) (i : Nat)
    (rec : ReceiptObject) : Prop where
  fields : ReceiptFields keccak chain hd i rec
  payload : ((chain.receipts hd)[i]?).map (·.payload) = some rec.toReceipt.payload
  logs : ∀ j lg, rec.logs[j]? = some lg → LogOf keccak chain hd i j lg

theorem receiptOf_iff (hrooted : Rooted chain hd rxs) {i : Nat} {rec : ReceiptObject}
    (hget : rxs[i]? = some rec) :
    ReceiptOf keccak chain hd i rec ↔ ReceiptFields keccak chain hd i rec := by
  constructor
  · exact fun h => h.fields
  · intro hfields
    refine ⟨hfields, ?_, fun j lg hlg => ⟨hfields.logs j lg hlg, ?_⟩⟩
    · rw [← hrooted.get, hget, Option.map_some]
    · rw [← hrooted.logs, hget, Option.bind_some]
      unfold toLogs
      rw [List.getElem?_map, hlg, Option.map_some]

/-- Whatever a backend answers: a log that `getLogs` returns is one of the canonical chain that
the filter asks for if and only if the fields that no test reads are right, and a receipt that
`getReceipts` returns for a number or a tag is the one of its position if and only if the
fields outside its payload are right. -/
theorem logs_and_receipts_verified (hsound : Sound engine chain) :
    (∀ filter w logs w', TaskM.Returns (engine.getLogs filter) w logs w' →
      ∃ resolved w₁ w₂, TaskM.Returns (engine.resolveFilterTags filter) w resolved w₁ ∧
        Resolves engine chain filter resolved ∧
        TaskM.Returns (engine.backend.eth_getLogs resolved) w₁ logs w₂ ∧
        ∀ i lg, logs[i]? = some lg → ∃ st w₃,
          TaskM.Returns (engine.verifyLogs resolved (logs.take (i + 1))) w₂ st w₃ ∧
          (Delivered keccak chain resolved lg ↔ Unforged keccak chain st.rxs lg)) ∧
    (∀ tag w rxs w', (∀ hash, tag ≠ .bidHash hash false) →
      TaskM.Returns (engine.getReceipts tag) w rxs w' →
      ∃ hd ∈ chain.canonical, (∀ n, tag = .bidNumber n → hd.number = n) ∧
        rxs.length = (chain.receipts hd).length ∧ ∀ i rec, rxs[i]? = some rec →
          (ReceiptOf keccak chain hd i rec ↔ ReceiptFields keccak chain hd i rec)) := by
  constructor
  · intro filter w logs w' h
    obtain ⟨resolved, w₁, hresolve, h⟩ := returns_bind.mp h
    obtain ⟨logObjs, w₂, hlogs, h⟩ := returns_bind.mp h
    obtain ⟨st, w₃, hverify, h⟩ := returns_bind.mp h
    obtain ⟨rfl, -⟩ := returns_pure.mp h
    refine ⟨resolved, w₁, w₂, hresolve, resolveFilterTags_resolves hsound hresolve, hlogs, ?_⟩
    intro i lg hget
    obtain ⟨s₁, w₄, s₂, w₅, hbefore, hturn, hprefix⟩ := foldlM_turn hverify hget
    have hheld : Held keccak s₁ := by
      refine foldlM_invariant (Held keccak) ?_ (.inl rfl) hbefore
      exact fun st lg w st' w' hst h => (verifyLog_compared hst h).held
    exact ⟨s₂, w₅, hprefix, delivered_iff hsound (verifyLog_compared hheld hturn)⟩
  · intro tag w rxs w' htag h
    obtain ⟨hd, w₁, hheader, h⟩ := returns_bind.mp h
    obtain ⟨hhd, hnumber⟩ := getVerifiedHeader_canonical hsound htag hheader
    have hrooted := hsound.rooted hhd (getReceiptsOf_root h)
    have hlength := congrArg List.length hrooted.payload
    simp only [toReceipts, List.length_map] at hlength
    exact ⟨hd, hhd, hnumber, hlength, fun i rec hget => receiptOf_iff hrooted hget⟩

end

/-! A chain of one block, with a transaction that has left one log. -/

def onlyHeader : Header :=
  { parentHash := 0, number := 1, stateRoot := 0, txRoot := 7, receiptsRoot := 8, ommersHash := 0,
    withdrawalsRoot := none }

def onlyReceipt : Receipt :=
  { hash := 0, isHash := false, status := true, cumulativeGasUsed := 30000,
    logs := [⟨5, [6], [1]⟩], logsBloom := 0, receiptType := 2 }

def onlyKeccak : Hashes where
  computeBlockHash hd := if hd = onlyHeader then 9 else 10
  hash_ne_zero hd := by split <;> exact fun h => nomatch h
  transactionsRoot _ := 0
  withdrawalsRoot _ := 0
  receiptsRoot rs := if rs.map (·.payload) = [onlyReceipt.payload] then 8 else 0

def onlyChain : CanonicalChain where
  canonical := {onlyHeader}
  txHashes _ := [4]
  receipts _ := [onlyReceipt]
  length _ _ := rfl

def onlyLog : LogObject :=
  { logIndex := some 0, transactionIndex := some 0, transactionHash := some 4, blockHash := some 9,
    blockNumber := some 1, address := 5, data := [1], topics := [6] }

/-- A log that no block holds, without its block hash and indices. -/
def forgedLog : LogObject :=
  { onlyLog with logIndex := none, transactionIndex := none, blockHash := none, address := 3 }

def onlyWorld : World onlyKeccak Unit where
  headerStore := (HeaderStore.new onlyKeccak).putHash 9 .optimistic
  rest := ()

def onlyReceiptObject : ReceiptObject :=
  { transactionHash := 4, transactionIndex := 0, blockHash := 9, blockNumber := 1,
    cumulativeGasUsed := 30000, logs := [onlyLog], logsBloom := 0, type := some 2,
    status := some 1 }

/-- The backend answers a request for logs with `logs`, and else tells the truth. -/
def onlyEngine (logs : List LogObject) : RpcVerificationEngine onlyKeccak Unit where
  backend :=
    { blocks := fun _ => return .ok (.block ⟨onlyHeader, 9, [], none⟩)
      eth_getBlockReceipts := fun _ => return some [onlyReceiptObject]
      eth_getLogs := fun _ => return logs }
  blocks :=
    { eip2935ForkTime := none, maxWindowJumps := 0, maxBlockWalk := 0,
      parallelBlockDownloads := 1, archive := false, evicted := fun _ _ => none }
  getCanonicalHeader tag _ :=
    if tag = .bidNumber 1 ∨ tag = .bidAlias "latest" then return onlyHeader else throw .defect

theorem onlyEngine_sound (logs : List LogObject) : Sound (onlyEngine logs) onlyChain where
  hash hd hhd hd' h := by
    rw [Set.mem_singleton_iff.mp hhd] at h ⊢
    by_contra hne
    simp [onlyKeccak, hne] at h
  root hd hhd rs h := by
    rw [Set.mem_singleton_iff.mp hhd] at h
    by_contra hne
    have hzero : onlyKeccak.receiptsRoot rs = 0 := if_neg hne
    rw [hzero] at h
    exact absurd h (by decide)
  lookup tag anchors w hd w' h := by
    have hcases : (tag = .bidNumber 1 ∨ tag = .bidAlias "latest") ∧ onlyHeader = hd := by
      unfold onlyEngine at h
      dsimp only at h
      split at h
      · next htag => exact ⟨htag, (returns_pure.mp h).1⟩
      · exact absurd h returns_throw
    obtain ⟨htag, rfl⟩ := hcases
    refine ⟨rfl, ?_⟩
    rintro n rfl
    rcases htag with htag | htag
    · cases htag
      rfl
    · cases htag

/-- A filter for logs of the block with a topic. -/
def onlyFilter : FilterOptions :=
  { fromBlock := some (.bidNumber 1), toBlock := some (.bidNumber 1), topics := [.slkSingle 6] }

theorem logs_and_receipts_verified_onlyLog : Delivered onlyKeccak onlyChain onlyFilter onlyLog := by
  have hverified := (logs_and_receipts_verified (onlyEngine_sound [onlyLog])).1 onlyFilter
    onlyWorld [onlyLog]
  have hrun : ∃ w₁ w₂ st w₃ w',
      TaskM.Returns ((onlyEngine [onlyLog]).resolveFilterTags onlyFilter) onlyWorld onlyFilter w₁ ∧
      TaskM.Returns ((onlyEngine [onlyLog]).backend.eth_getLogs onlyFilter) w₁ [onlyLog] w₂ ∧
      TaskM.Returns ((onlyEngine [onlyLog]).verifyLogs onlyFilter [onlyLog]) w₂ st w₃ ∧
      st.rxs = [onlyReceiptObject] ∧
      TaskM.Returns ((onlyEngine [onlyLog]).getLogs onlyFilter) onlyWorld [onlyLog] w' :=
    ⟨_, _, _, _, _, rfl, rfl, rfl, rfl, rfl⟩
  obtain ⟨w₁, w₂, st, w₃, w', hresolve, hanswer, hverify, hrxs, hreturns⟩ := hrun
  obtain ⟨resolved, w₁', w₂', hresolve', -, hanswer', hlogs⟩ := hverified w' hreturns
  obtain ⟨rfl, rfl⟩ := hresolve'.unique hresolve
  obtain ⟨-, rfl⟩ := hanswer'.unique hanswer
  obtain ⟨st', w₃', hverify', hiff⟩ := hlogs 0 onlyLog rfl
  obtain ⟨rfl, -⟩ := hverify'.unique hverify
  apply hiff.mpr
  rw [hrxs]
  exact ⟨onlyHeader, rfl, 0, 0, 0, 0, ⟨rfl, rfl, rfl, rfl, rfl⟩, rfl, rfl, rfl⟩

/-- The forged log is returned as it is. -/
theorem getLogs_forgedLog :
    ¬ ∀ (keccak : Hashes) (β : Type) (engine : RpcVerificationEngine keccak β)
      (chain : CanonicalChain), Sound engine chain →
      ∀ filter w logs w', TaskM.Returns (engine.getLogs filter) w logs w' →
        ∀ lg ∈ logs, ∃ resolved, Delivered keccak chain resolved lg := by
  intro hall
  have hreturns : ∃ w', TaskM.Returns ((onlyEngine [forgedLog]).getLogs {}) onlyWorld [forgedLog] w' :=
    ⟨_, rfl⟩
  obtain ⟨w', hreturns⟩ := hreturns
  obtain ⟨resolved, hd, hhd, i, j, hlog, -⟩ := hall onlyKeccak Unit _ onlyChain
    (onlyEngine_sound [forgedLog]) {} onlyWorld _ w' hreturns forgedLog List.mem_cons_self
  cases hlog.fields.blockHash

end Nimbus.Spec.VerifiedProxy
