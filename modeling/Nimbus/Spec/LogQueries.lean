import Nimbus.Native.LogQueries
import Nimbus.Spec.ChainLookups

/-!
# Log queries against a scan of the receipts

The logs of a block are numbered through, over all its receipts. A scan takes those that the
filter asks for and gives each one its number, and the index and the hash of its transaction.
`eth_getLogs` is such a scan of every block of its range, as long as these can be read; the
receipts of a block show the same logs, but not their numbers.
-/

namespace Nimbus.Spec.ForkedChain

open Nimbus.Native.ForkedChain
open ParentTree LookupNode

/-! ## Filters -/

/-- Null and the empty list ask for anything. -/
def Asks {α : Type} : SingleOrList α → α → Prop
  | .slkNull, _ => True
  | .slkSingle single, a => a = single
  | .slkList list, a => list = [] ∨ a ∈ list

/-- The filter asks for the address, and for the topic at each of its positions. -/
def Selects (opts : FilterOptions) (log : Log) : Prop :=
  Asks opts.address log.address ∧ opts.topics.length ≤ log.topics.length ∧
    ∀ (i : Nat) sub topic, opts.topics[i]? = some sub → log.topics[i]? = some topic →
      Asks sub topic

theorem matchTopic_iff {topic : Hash32} {sub : TopicOrList} :
    matchTopic (some topic) sub = true ↔ Asks sub topic := by
  cases sub with
  | slkNull => simp [matchTopic, Asks]
  | slkSingle single => simp [matchTopic, Asks]
  | slkList list => simp [matchTopic, Asks]

theorem matchTopics_iff {topics : List Hash32} {filter : List TopicOrList}
    (hlen : filter.length ≤ topics.length) :
    matchTopics topics filter = true ↔ ∀ (i : Nat) sub topic, filter[i]? = some sub →
      topics[i]? = some topic → Asks sub topic := by
  induction filter generalizing topics with
  | nil => simp [matchTopics]
  | cons sub filter ih =>
    cases topics with
    | nil => exact absurd hlen (Nat.not_succ_le_zero _)
    | cons topic topics =>
      have hlen' : filter.length ≤ topics.length := Nat.le_of_succ_le_succ hlen
      simp only [matchTopics, List.head?_cons, List.tail_cons, Bool.and_eq_true, matchTopic_iff,
        ih hlen']
      constructor
      · rintro ⟨hfirst, hrest⟩ i sub' topic' hsub htopic
        cases i with
        | zero =>
          cases hsub
          cases htopic
          exact hfirst
        | succ i => exact hrest i sub' topic' hsub htopic
      · intro hall
        exact ⟨hall 0 sub topic rfl rfl, fun i => hall (i + 1)⟩

theorem Log.matches_iff {log : Log} {opts : FilterOptions} :
    log.matches opts.address opts.topics = true ↔ Selects opts log := by
  have haddress : matchAddress log.address opts.address = true ↔
      Asks opts.address log.address := by
    cases opts.address with
    | slkNull => simp [matchAddress, Asks]
    | slkSingle single =>
      simp only [matchAddress, Asks, beq_iff_eq]
      exact eq_comm
    | slkList list => simp [matchAddress, Asks]
  unfold Log.matches Selects
  rw [← haddress]
  split
  · next hno =>
    rw [Bool.not_eq_true'] at hno
    rw [hno]
    simp
  · next hyes =>
    rw [Bool.not_eq_true', Bool.not_eq_false] at hyes
    rw [hyes]
    split
    · next hlen =>
      simp only [Bool.false_eq_true, true_and, false_iff, not_and]
      intro hle
      omega
    · next hlen =>
      have hle : opts.topics.length ≤ log.topics.length := by omega
      rw [matchTopics_iff hle]
      simp [hle]

instance (opts : FilterOptions) (log : Log) : Decidable (Selects opts log) :=
  decidable_of_iff _ Log.matches_iff

/-- The receipts of a block are those of its transactions, and the bloom of its header answers
for the address and the topics of every log. -/
structure BlockOk (contains : BloomFilter) (contents : Contents) (hd : Header) : Prop where
  length : (contents.receipts hd.receiptsRoot).length = (contents.transactions hd.txRoot).length
  address : ∀ r ∈ contents.receipts hd.receiptsRoot, ∀ log ∈ r.logs,
    contains hd.logsBloom (.address log.address) = true
  topic : ∀ r ∈ contents.receipts hd.receiptsRoot, ∀ log ∈ r.logs, ∀ topic ∈ log.topics,
    contains hd.logsBloom (.topic topic) = true

/-- The shortcut over the bloom of the header drops no log that the filter selects. -/
theorem headerBloomFilter_of_selects {contains : BloomFilter} {contents : Contents} {hd : Header}
    (hok : BlockOk contains contents hd) {opts : FilterOptions} {r : Receipt} {log : Log}
    (hr : r ∈ contents.receipts hd.receiptsRoot) (hlog : log ∈ r.logs)
    (hsel : Selects opts log) : headerBloomFilter contains hd opts.address opts.topics = true := by
  obtain ⟨haddress, hlen, htopics⟩ := hsel
  have hbloom := hok.address r hr log hlog
  have hfirst : (participateInFilter opts.address &&
      !addrIncluded contains hd.logsBloom opts.address) = false := by
    cases hopts : opts.address with
    | slkNull => rfl
    | slkSingle single =>
      rw [hopts] at haddress
      have heq : log.address = single := haddress
      rw [heq] at hbloom
      simp [addrIncluded, hbloom]
    | slkList list =>
      rw [hopts] at haddress
      rcases haddress with hnil | hmem
      · simp [participateInFilter, hnil]
      · have hany : (list.any fun address => contains hd.logsBloom (.address address)) = true :=
          List.any_eq_true.mpr ⟨_, hmem, hbloom⟩
        simp [addrIncluded, hany]
  unfold headerBloomFilter bloomFilter
  rw [hfirst]
  apply List.all_eq_true.mpr
  intro sub hsub
  obtain ⟨i, hi, hget⟩ := List.mem_iff_getElem.mp hsub
  have hi' : i < log.topics.length := by omega
  have hask := htopics i sub log.topics[i] (by rw [List.getElem?_eq_getElem hi, hget])
    (List.getElem?_eq_getElem hi')
  have hcontains := hok.topic r hr log hlog log.topics[i] (List.getElem_mem hi')
  cases sub with
  | slkNull => rfl
  | slkSingle single =>
    have heq : log.topics[i] = single := hask
    rw [heq] at hcontains
    exact hcontains
  | slkList list =>
    rcases hask with hnil | hmem
    · simp [topicIncluded, hnil]
    · have hany : (list.any fun topic => contains hd.logsBloom (.topic topic)) = true :=
        List.any_eq_true.mpr ⟨_, hmem, hcontains⟩
      simp [topicIncluded, hany]

/-! ## The scan -/

/-- The logs of the receipts from the index `i` on, each with the index of its transaction. -/
def indexedLogs (i : Nat) (receipts : List Receipt) : List (Log × Nat) :=
  (receipts.zipIdx i).flatMap fun r => r.1.logs.map (·, r.2)

/-- The logs of a block, numbered through. -/
def numberedLogs (contents : Contents) (hd : Header) : List ((Log × Nat) × Nat) :=
  (indexedLogs 0 (contents.receipts hd.receiptsRoot)).zipIdx

/-- The log object for the log of the transaction `p.1.2` with the number `p.2`. -/
def scanLog (com : CommonRef) (contents : Contents) (hd : Header) (p : (Log × Nat) × Nat) :
    FilterLog where
  removed := false
  logIndex := some p.2
  transactionIndex := some p.1.2
  transactionHash := ((contents.transactions hd.txRoot)[p.1.2]?).map (·.hash)
  blockHash := some (com.computeBlockHash hd)
  blockNumber := some hd.number
  blockTimestamp := some hd.timestamp
  address := p.1.1.address
  data := p.1.1.data
  topics := p.1.1.topics

/-- The scan of the receipts of a block. -/
def scanBlock (com : CommonRef) (contents : Contents) (opts : FilterOptions) (hd : Header) :
    List FilterLog :=
  ((numberedLogs contents hd).filter fun p => Selects opts p.1.1).map (scanLog com contents hd)

section

variable {s : LookupNode} {hd : Header} {opts : FilterOptions} {i k : Nat} {receipts : List Receipt}

/-- The log objects of the logs that the filter selects, the first of them with the number `k`. -/
def scanLogs (s : LookupNode) (opts : FilterOptions) (hd : Header) (k : Nat)
    (logs : List (Log × Nat)) : List FilterLog :=
  ((logs.zipIdx k).filter fun p => Selects opts p.1.1).map (scanLog s.chain.com s.contents hd)

theorem scanLogs_cons (k : Nat) (log : Log × Nat) (logs : List (Log × Nat)) :
    scanLogs s opts hd k (log :: logs) =
      if Selects opts log.1 then
        scanLog s.chain.com s.contents hd (log, k) :: scanLogs s opts hd (k + 1) logs
      else scanLogs s opts hd (k + 1) logs := by
  unfold scanLogs
  rw [List.zipIdx_cons, List.filter_cons]
  by_cases hsel : Selects opts log.1
  · simp only [hsel, decide_true, if_true, List.map_cons]
  · simp only [hsel, decide_false, if_false, Bool.false_eq_true]

theorem scanLogs_append (k : Nat) (logs logs' : List (Log × Nat)) :
    scanLogs s opts hd k (logs ++ logs') =
      scanLogs s opts hd k logs ++ scanLogs s opts hd (k + logs.length) logs' := by
  unfold scanLogs
  rw [List.zipIdx_append, List.filter_append, List.map_append]

theorem indexedLogs_cons (i : Nat) (r : Receipt) (receipts : List Receipt) :
    indexedLogs i (r :: receipts) = r.logs.map (·, i) ++ indexedLogs (i + 1) receipts := rfl

theorem filterLog_eq {txHash : Hash32} {log : Log} (htx : Carries s.contents hd i txHash) :
    s.filterLog hd i k txHash log = scanLog s.chain.com s.contents hd ((log, i), k) := by
  unfold filterLog scanLog
  rw [show ((s.contents.transactions hd.txRoot)[i]?).map (·.hash) = some txHash from htx]

/-! ## One block -/

/-- What the node takes for the hash of a transaction of the block is that hash. -/
def ResolvesRight (s : LookupNode) (hd : Header) : Prop :=
  ∀ i txHash, s.resolveTxHash (s.chain.com.computeBlockHash hd) i = some txHash →
    Carries s.contents hd i txHash

theorem logsOfReceipt_sound (hright : ResolvesRight s hd) {cached : Option Hash32}
    (hcached : ∀ txHash, cached = some txHash → Carries s.contents hd i txHash) {logs : List Log}
    {res : List FilterLog} (h : s.logsOfReceipt hd opts i k cached logs = some res) :
    res = scanLogs s opts hd k (logs.map (·, i)) := by
  induction logs generalizing k cached res with
  | nil =>
    cases h
    rfl
  | cons log logs ih =>
    rw [List.map_cons, scanLogs_cons]
    unfold logsOfReceipt at h
    by_cases hsel : Selects opts log
    · rw [if_pos (Log.matches_iff.mpr hsel)] at h
      simp only [Option.bind_eq_bind, Option.bind_eq_some_iff] at h
      obtain ⟨txHash, hhash, rest, hrest, heq⟩ := h
      cases heq
      have htx : Carries s.contents hd i txHash := by
        cases hc : cached with
        | none =>
          rw [hc] at hhash
          exact hright i txHash hhash
        | some txHash' =>
          rw [hc] at hhash
          cases hhash
          exact hcached _ hc
      have hrest' := ih (fun _ heq => by cases heq; exact htx) hrest
      rw [if_pos hsel, filterLog_eq htx, hrest']
    · rw [if_neg fun hm => hsel (Log.matches_iff.mp hm)] at h
      rw [if_neg hsel]
      exact ih hcached h

theorem logsOfReceipts_sound (hright : ResolvesRight s hd)
    {res : List FilterLog} (h : s.logsOfReceipts hd opts i k receipts = some res) :
    res = scanLogs s opts hd k (indexedLogs i receipts) := by
  induction receipts generalizing i k res with
  | nil =>
    cases h
    rfl
  | cons r receipts ih =>
    unfold logsOfReceipts at h
    simp only [Option.bind_eq_bind, Option.bind_eq_some_iff] at h
    obtain ⟨first, hfirst, rest, hrest, heq⟩ := h
    cases heq
    have hnone : ∀ txHash, (none : Option Hash32) = some txHash →
        Carries s.contents hd i txHash := fun _ heq => nomatch heq
    have hfirst' := logsOfReceipt_sound hright hnone hfirst
    rw [indexedLogs_cons, scanLogs_append, List.length_map, hfirst', ih hrest]

theorem logsOfReceipt_isSome {i k : Nat} {cached : Option Hash32} {logs : List Log}
    (hres : ∀ log ∈ logs, Selects opts log →
      ∃ txHash, s.resolveTxHash (s.chain.com.computeBlockHash hd) i = some txHash) :
    ∃ res, s.logsOfReceipt hd opts i k cached logs = some res := by
  induction logs generalizing k cached with
  | nil => exact ⟨[], rfl⟩
  | cons log logs ih =>
    have hlater := fun l hl => hres l (.tail _ hl)
    unfold logsOfReceipt
    by_cases hsel : Selects opts log
    · rw [if_pos (Log.matches_iff.mpr hsel)]
      obtain ⟨txHash, hresolve⟩ := hres log List.mem_cons_self hsel
      have hask : ∃ txHash, s.askTxHash (s.chain.com.computeBlockHash hd) i cached =
          some txHash := by
        cases cached with
        | none => exact ⟨txHash, hresolve⟩
        | some txHash' => exact ⟨txHash', rfl⟩
      obtain ⟨txHash', hask⟩ := hask
      obtain ⟨rest, hrest⟩ := @ih (k + 1) (some txHash') hlater
      simp only [hask, Option.bind_eq_bind, Option.bind_some, hrest]
      exact ⟨_, rfl⟩
    · rw [if_neg fun hm => hsel (Log.matches_iff.mp hm)]
      exact ih hlater

theorem logsOfReceipts_isSome
    (hres : ∀ j r, receipts[j]? = some r → ∀ log ∈ r.logs, Selects opts log →
      ∃ txHash, s.resolveTxHash (s.chain.com.computeBlockHash hd) (i + j) = some txHash) :
    ∃ res, s.logsOfReceipts hd opts i k receipts = some res := by
  induction receipts generalizing i k with
  | nil => exact ⟨[], rfl⟩
  | cons r receipts ih =>
    obtain ⟨first, hfirst⟩ :=
      @logsOfReceipt_isSome s hd opts i k none r.logs fun log hlog hsel => hres 0 r rfl log hlog hsel
    have hlater : ∀ j r', receipts[j]? = some r' → ∀ log ∈ r'.logs, Selects opts log →
        ∃ txHash, s.resolveTxHash (s.chain.com.computeBlockHash hd) (i + 1 + j) = some txHash := by
      intro j r' hget log hlog hsel
      have hfound := hres (j + 1) r' hget log hlog hsel
      rw [show i + 1 + j = i + (j + 1) by omega]
      exact hfound
    obtain ⟨rest, hrest⟩ := @ih (i + 1) (k + r.logs.length) hlater
    unfold logsOfReceipts
    simp only [hfirst, hrest, Option.bind_eq_bind, Option.bind_some]
    exact ⟨_, rfl⟩

variable {n₀ : Nat} {contains : BloomFilter}

/-- The transactions of the block are in the store. -/
def TxsReadable (s : LookupNode) (hd : Header) : Prop :=
  hd.txRoot = EMPTY_ROOT_HASH ∨ s.hasPayload (.indexed hd.txRoot) = true

/-- A block of the tree, or one of the canonical chain up to the base with its header record. -/
def Listed (s : LookupNode) (hd : Header) : Prop :=
  (∃ b, InTree s.chain b ∧ s.header b = hd) ∨
  (hd.number ≤ s.chain.number s.chain.base ∧
    s.chain.canonical hd.number = some (s.chain.com.computeBlockHash hd) ∧
    s.db.header (s.chain.com.computeBlockHash hd) = true)

section

variable (hf : Filed n₀ s)
include hf

theorem Filed.header_of_lookup {b : BlockRef}
    (hb : s.chain.hashToBlock (s.chain.com.computeBlockHash hd) = some b) : s.header b = hd :=
  hf.inj (hf.known_of_lookup hb).1

theorem Filed.lookup_of_inTree {b : BlockRef} (hb : InTree s.chain b) :
    s.chain.hashToBlock (s.chain.com.computeBlockHash (s.header b)) = some b := by
  show s.chain.hashToBlock (s.chain.com.computeBlockHash (s.chain.blocks b).header) = some b
  rw [← hf.inv.linked.hash_eq hb]
  exact hb

theorem Filed.persistedHeaderByHash_of_canonical
    (hn : hd.number ≤ s.chain.number s.chain.base)
    (hcan : s.chain.canonical hd.number = some (s.chain.com.computeBlockHash hd))
    (hrecord : s.db.header (s.chain.com.computeBlockHash hd) = true) :
    s.persistedHeaderByHash (s.chain.com.computeBlockHash hd) = some hd := by
  unfold persistedHeaderByHash getBlockHeader getBlockHash
  rw [if_pos hrecord, hf.law]
  simp only [Option.bind_eq_bind, Option.bind_some, hcan, Option.getD_some, ne_eq,
    not_true_eq_false, or_false, Nat.not_lt_of_le hn, gt_iff_lt, if_false]
  rfl

theorem Filed.listed_base : s.chain.canonical (s.header s.chain.base).number =
        some (s.chain.com.computeBlockHash (s.header s.chain.base)) ∧
      s.db.header (s.chain.com.computeBlockHash (s.header s.chain.base)) = true := by
  obtain ⟨P, hanchored, -⟩ := hf.kept
  have hl := hf.inv.linked
  have hash : s.chain.hash s.chain.base =
      s.chain.com.computeBlockHash (s.header s.chain.base) := hl.hash_eq hl.base_mem
  have hsaved : s.chain.canonical (s.chain.number s.chain.base) = _ := hf.inv.saved
  have hrecord : s.db.header (s.chain.hash s.chain.base) = true :=
    (hanchored.backed.recorded hl.base_mem).1
  rw [hash] at hsaved hrecord
  exact ⟨hsaved, hrecord⟩

/-- Whatever way the code takes to the block, it gets to its header. -/
theorem Filed.headers_of_listed (hlisted : Listed s hd) :
    s.payloadHeader (s.chain.com.computeBlockHash hd) = some hd ∧
      (if s.chain.com.computeBlockHash hd ≠ s.chain.hash s.chain.base then
        s.headerByHash (s.chain.com.computeBlockHash hd)
      else s.persistedHeaderByHash (s.chain.com.computeBlockHash hd)) = some hd := by
  have hl := hf.inv.linked
  by_cases hbase : s.chain.com.computeBlockHash hd = s.chain.hash s.chain.base
  · have heq : hd = s.header s.chain.base := hf.inj (hbase.trans (hl.hash_eq hl.base_mem))
    obtain ⟨hcan, hrecord⟩ := hf.listed_base
    have hread : s.persistedHeaderByHash (s.chain.com.computeBlockHash (s.header s.chain.base)) =
        some (s.header s.chain.base) :=
      hf.persistedHeaderByHash_of_canonical (Nat.le_refl _) hcan hrecord
    rw [← heq] at hread
    unfold payloadHeader
    rw [if_neg (not_not.mpr hbase), if_neg (not_not.mpr hbase)]
    exact ⟨hread, hread⟩
  · unfold payloadHeader headerByHash
    rw [if_pos hbase, if_pos hbase]
    cases hb : s.chain.hashToBlock (s.chain.com.computeBlockHash hd) with
    | some b =>
      have heq := hf.header_of_lookup hb
      have hread := hf.getBlockHeader_inTree (hl.inTree_of_lookup hb)
      rw [heq] at hread
      exact ⟨hread, congrArg some heq⟩
    | none =>
      rcases hlisted with ⟨b, hbt, rfl⟩ | ⟨hn, hcan, hrecord⟩
      · rw [hf.lookup_of_inTree hbt] at hb
        cases hb
      · have hread := hf.persistedHeaderByHash_of_canonical hn hcan hrecord
        exact ⟨hread, hread⟩

theorem Filed.resolvesRight (hd : Header) : ResolvesRight s hd := by
  intro i txHash h
  unfold resolveTxHash at h
  split at h
  · next hmem =>
    cases h
    obtain ⟨txHashes, hlist, hget⟩ := Option.bind_eq_some_iff.mp hmem
    unfold memoryTxHashesForBlock at hlist
    cases hb : s.chain.hashToBlock (s.chain.com.computeBlockHash hd) with
    | none =>
      rw [hb] at hlist
      cases hlist
    | some b =>
      simp only [hb] at hlist
      split at hlist
      · cases hlist
      · next hlen =>
        cases hlist
        have hne : b ≠ 0 := by
          intro h0
          unfold txHashes at hlen
          rw [if_pos h0] at hlen
          exact hlen rfl
        have hcarries := (txHashes_getElem hne).mp hget
        rw [← hf.header_of_lookup hb]
        exact hcarries
  · obtain ⟨tx, htx, rfl⟩ := Option.map_eq_some_iff.mp h
    obtain ⟨hd', hknown, hget⟩ := hf.txByBlockHashAndIndex_known htx
    have heq : hd' = hd := hf.inj hknown.1
    unfold Carries
    rw [← heq, hget]
    rfl

theorem Filed.resolveTxHash_isSome (hlisted : Listed s hd)
    (hread : TxsReadable s hd) {i : Nat} (hi : i < (s.contents.transactions hd.txRoot).length) :
    ∃ txHash, s.resolveTxHash (s.chain.com.computeBlockHash hd) i = some txHash := by
  have hpayload : s.hasPayload (.indexed hd.txRoot) = true := by
    apply hread.resolve_left
    intro hroot
    rw [(s.contents.transactions_nil _).mpr hroot] at hi
    exact Nat.not_lt_zero _ hi
  have hget : s.txByBlockHashAndIndex (s.chain.com.computeBlockHash hd) i =
      (s.contents.transactions hd.txRoot)[i]? := by
    have hheader := (hf.headers_of_listed hlisted).2
    have hindex : s.getTransactionByIndex hd.txRoot i =
        (s.contents.transactions hd.txRoot)[i]? := by
      unfold getTransactionByIndex
      rw [if_pos hpayload]
    unfold txByBlockHashAndIndex
    split at hheader
    · next hbase =>
      rw [if_pos hbase, hheader]
      exact hindex
    · next hbase =>
      rw [if_neg hbase, hheader]
      exact hindex
  unfold resolveTxHash
  split
  · exact ⟨_, rfl⟩
  · rw [hget, List.getElem?_eq_getElem hi]
    exact ⟨_, rfl⟩

end

theorem mem_indexedLogs {i : Nat} {p : Log × Nat}
    (h : p ∈ indexedLogs i receipts) : ∃ r ∈ receipts, p.1 ∈ r.logs := by
  obtain ⟨⟨r, j⟩, hr, hp⟩ := List.mem_flatMap.mp h
  obtain ⟨log, hlog, heq⟩ := List.mem_map.mp hp
  subst heq
  exact ⟨r, List.fst_mem_of_mem_zipIdx hr, hlog⟩

theorem scanBlock_of_bloom (hok : BlockOk contains s.contents hd)
    (hbloom : headerBloomFilter contains hd opts.address opts.topics ≠ true) :
    scanBlock s.chain.com s.contents opts hd = [] := by
  unfold scanBlock
  rw [List.map_eq_nil_iff, List.filter_eq_nil_iff]
  intro p hp hsel
  obtain ⟨r, hr, hlog⟩ := mem_indexedLogs (List.fst_mem_of_mem_zipIdx hp)
  exact hbloom (headerBloomFilter_of_selects hok hr hlog (of_decide_eq_true hsel))

/-- If the bloom lets the filter through, the receipts can be read, and if a log is selected, so
can the transactions. -/
structure BlockReadable (contains : BloomFilter) (s : LookupNode) (opts : FilterOptions)
    (hd : Header) : Prop where
  receipts : headerBloomFilter contains hd opts.address opts.topics = true → ReceiptsReadable s hd
  transactions : (∃ r ∈ s.contents.receipts hd.receiptsRoot, ∃ log ∈ r.logs, Selects opts log) →
    TxsReadable s hd

theorem Filed.getLogsForBlock_sound (hf : Filed n₀ s) (hok : BlockOk contains s.contents hd)
    (hread : headerBloomFilter contains hd opts.address opts.topics = true →
      ReceiptsReadable s hd) {logs : List FilterLog}
    (h : s.getLogsForBlock contains hd opts = some logs) :
    logs = scanBlock s.chain.com s.contents opts hd := by
  unfold getLogsForBlock at h
  by_cases hbloom : headerBloomFilter contains hd opts.address opts.topics = true
  · rw [hbloom] at h
    simp only [Bool.not_true, Bool.false_eq_true, if_false, receiptsByBlockHash,
      Option.bind_eq_bind, Option.bind_eq_some_iff] at h
    obtain ⟨receipts, ⟨hd', hp, hreceipts⟩, h⟩ := h
    have heq : hd' = hd := hf.inj (hf.payloadHeader_known hp).1
    subst heq
    rw [getReceipts_of_readable (hread hbloom)] at hreceipts
    cases hreceipts
    exact logsOfReceipts_sound (hf.resolvesRight hd') h
  · rw [scanBlock_of_bloom hok hbloom]
    rw [Bool.not_eq_true] at hbloom
    rw [hbloom] at h
    exact (Option.some.inj h).symm

theorem Filed.getLogsForBlock_listed (hf : Filed n₀ s) (hlisted : Listed s hd)
    (hok : BlockOk contains s.contents hd) (hread : BlockReadable contains s opts hd) :
    s.getLogsForBlock contains hd opts = some (scanBlock s.chain.com s.contents opts hd) := by
  have hsome : ∃ logs, s.getLogsForBlock contains hd opts = some logs := by
    unfold getLogsForBlock
    by_cases hbloom : headerBloomFilter contains hd opts.address opts.topics = true
    · rw [hbloom]
      simp only [Bool.not_true, Bool.false_eq_true, if_false, receiptsByBlockHash,
        (hf.headers_of_listed hlisted).1, Option.bind_eq_bind, Option.bind_some,
        getReceipts_of_readable (hread.receipts hbloom)]
      apply logsOfReceipts_isSome
      intro j r hget log hlog hsel
      rw [Nat.zero_add]
      have hj : j < (s.contents.receipts hd.receiptsRoot).length :=
        (List.getElem?_eq_some_iff.mp hget).1
      have hr := List.mem_of_getElem? hget
      apply hf.resolveTxHash_isSome hlisted (hread.transactions ⟨r, hr, log, hlog, hsel⟩)
      rw [← hok.length]
      exact hj
    · rw [Bool.not_eq_true] at hbloom
      rw [hbloom]
      exact ⟨[], rfl⟩
  obtain ⟨logs, hlogs⟩ := hsome
  rw [hlogs, hf.getLogsForBlock_sound hok hread.receipts hlogs]

/-! ## Ranges -/

theorem Filed.listed_of_headerByNumber (hf : Filed n₀ s) {n : Nat}
    (hget : s.headerByNumber n = some hd) : Listed s hd := by
  have hl := hf.inv.linked
  unfold headerByNumber at hget
  split at hget
  · cases hget
  · split at hget
    · next hlt =>
      have hn := Nat.le_of_lt hlt
      obtain ⟨hnum, hcan, -⟩ := (hf.getBlockHeaderByNumber_iff hn).mp hget
      unfold getBlockHeaderByNumber getBlockHash getBlockHeader
        at hget
      simp only [Option.bind_eq_bind, hcan, Option.bind_some] at hget
      split at hget
      · next hrecord =>
        rw [← hnum] at hn hcan
        exact .inr ⟨hn, hcan, hrecord⟩
      · cases hget
    · obtain ⟨b, hfind, rfl⟩ := Option.map_eq_some_iff.mp hget
      have hanc := (hl.mem_ancestors hf.inTree_latest).mp (List.mem_of_find?_eq_some hfind)
      exact .inl ⟨b, hl.inTree_anc hf.inTree_latest hanc, rfl⟩

/-- Every number of the range leads to a block that can be read. -/
def RangeReadable (contains : BloomFilter) (s : LookupNode) (opts : FilterOptions)
    (start count : Nat) : Prop :=
  ∀ n, start ≤ n → n < start + count →
    ∃ hd, s.headerByNumber n = some hd ∧ BlockReadable contains s opts hd

theorem Filed.logsFrom_eq (hf : Filed n₀ s)
    (hblocks : ∀ hd, Lineage s.chain.com s.latestHeader hd → BlockOk contains s.contents hd)
    {start count : Nat} (hread : RangeReadable contains s opts start count) :
    ∃ hds : List Header, hds.map (·.number) = List.range' start count ∧
      (∀ hd ∈ hds, Lineage s.chain.com s.latestHeader hd) ∧
      s.logsFrom contains opts count start =
        hds.flatMap (scanBlock s.chain.com s.contents opts) := by
  induction count generalizing start with
  | zero => exact ⟨[], rfl, fun _ h => absurd h List.not_mem_nil, rfl⟩
  | succ count ih =>
    obtain ⟨hd, hget, hblock⟩ := hread start (Nat.le_refl _) (by omega)
    obtain ⟨hline, hnum⟩ := hf.headerByNumber_ancestorAt hget
    have hlater : RangeReadable contains s opts (start + 1) count :=
      fun n hlo hhi => hread n (by omega) (by omega)
    obtain ⟨hds, hnums, hlines, hrest⟩ := ih hlater
    refine ⟨hd :: hds, ?_, ?_, ?_⟩
    · rw [List.map_cons, hnum, hnums, List.range'_succ]
    · intro hd' hmem
      rcases List.mem_cons.mp hmem with rfl | hmem
      · exact hline
      · exact hlines hd' hmem
    · unfold logsFrom
      simp only [hget, hf.getLogsForBlock_listed (hf.listed_of_headerByNumber hget)
        (hblocks hd hline) hblock, hrest, List.flatMap_cons]

end

end Nimbus.Spec.ForkedChain
