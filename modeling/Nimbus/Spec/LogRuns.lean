import Nimbus.Spec.LogQueries

/-!
# Logs of receipts, and log queries over whole runs

A receipt shows the logs of its transaction as a scan of the block does, except that every log
has the index of the transaction for its number. So the numbers are right exactly where each
log of the block has the number of its transaction.
-/

namespace Nimbus.Spec.ForkedChain

open Nimbus.Native.ForkedChain
open ParentTree LookupNode

/-! ## What receipts show -/

/-- The log object with the index of the transaction for the number of the log. -/
def receiptLog (com : CommonRef) (contents : Contents) (hd : Header) (p : (Log × Nat) × Nat) :
    FilterLog :=
  scanLog com contents hd (p.1, p.1.2)

section

variable {n₀ : Nat} {s s' : LookupNode} {hd : Header} {com : CommonRef} {contents : Contents}
  {blk : Header × BlockBody} {receipts : List Receipt}

theorem receiptLog_eq_scanLog {p : (Log × Nat) × Nat} :
    receiptLog com contents hd p = scanLog com contents hd p ↔ p.2 = p.1.2 := by
  constructor
  · intro h
    have hindex : some p.1.2 = some p.2 := congrArg FilterLog.logIndex h
    exact (Option.some.inj hindex).symm
  · intro h
    unfold receiptLog
    rw [← h]

/-- The two agree on a list of logs if and only if each log has the number of its
transaction. -/
theorem map_receiptLog_eq {logs : List ((Log × Nat) × Nat)} :
    logs.map (receiptLog com contents hd) = logs.map (scanLog com contents hd) ↔
      ∀ p ∈ logs, p.2 = p.1.2 := by
  rw [List.map_inj_left]
  exact forall₂_congr fun _ _ => receiptLog_eq_scanLog

theorem map_receiptLog (logs : List ((Log × Nat) × Nat)) :
    logs.map (receiptLog com contents hd) =
      (logs.map Prod.fst).map fun p => scanLog com contents hd (p, p.2) := by
  rw [List.map_map]
  rfl

theorem le_of_mem_indexedLogs {i : Nat} {p : Log × Nat}
    (h : p ∈ indexedLogs i receipts) : i ≤ p.2 := by
  induction receipts generalizing i with
  | nil => exact nomatch h
  | cons r receipts ih =>
    rw [indexedLogs_cons, List.mem_append] at h
    rcases h with h | h
    · obtain ⟨log, -, rfl⟩ := List.mem_map.mp h
      exact Nat.le_refl _
    · have hle := ih h
      omega

/-- Of the logs of a block those of one transaction are the logs of its receipt. -/
theorem indexedLogs_filter {i j : Nat} {r : Receipt} (hget : receipts[j]? = some r) :
    (indexedLogs i receipts).filter (·.2 = i + j) = r.logs.map (·, i + j) := by
  induction receipts generalizing i j with
  | nil => exact nomatch hget
  | cons r' receipts ih =>
    rw [indexedLogs_cons, List.filter_append]
    cases j with
    | zero =>
      cases hget
      have hfirst : (r.logs.map (·, i)).filter (·.2 = i + 0) = r.logs.map (·, i) := by
        apply List.filter_eq_self.mpr
        intro p hp
        obtain ⟨log, -, rfl⟩ := List.mem_map.mp hp
        exact decide_eq_true rfl
      have hrest : (indexedLogs (i + 1) receipts).filter (·.2 = i + 0) = [] := by
        apply List.filter_eq_nil_iff.mpr
        intro p hp heq
        have hle := le_of_mem_indexedLogs hp
        have heq' := of_decide_eq_true heq
        omega
      rw [hfirst, hrest, List.append_nil]
      rfl
    | succ j =>
      have hfirst : (r'.logs.map (·, i)).filter (·.2 = i + (j + 1)) = [] := by
        apply List.filter_eq_nil_iff.mpr
        intro p hp heq
        obtain ⟨log, -, rfl⟩ := List.mem_map.mp hp
        have heq' := of_decide_eq_true heq
        omega
      have hrest := ih (i := i + 1) (j := j) hget
      rw [show i + 1 + j = i + (j + 1) by omega] at hrest
      rw [hfirst, List.nil_append, hrest]

theorem numberedLogs_filter {i : Nat} {r : Receipt}
    (hget : (contents.receipts hd.receiptsRoot)[i]? = some r) :
    ((numberedLogs contents hd).filter (·.1.2 = i)).map (receiptLog com contents hd) =
      r.logs.map fun log => scanLog com contents hd ((log, i), i) := by
  have hlogs := indexedLogs_filter (i := 0) hget
  rw [Nat.zero_add] at hlogs
  have hfilter : ((numberedLogs contents hd).filter (·.1.2 = i)).map Prod.fst =
      (indexedLogs 0 (contents.receipts hd.receiptsRoot)).filter (·.2 = i) := by
    unfold numberedLogs
    rw [← List.zipIdx_map_fst 0 (indexedLogs 0 (contents.receipts hd.receiptsRoot)),
      List.filter_map, List.zipIdx_map_fst]
    rfl
  rw [map_receiptLog, hfilter, hlogs, List.map_map]
  rfl

/-! ## Blocks of receipts -/

/-- The block of a tag is known, and its transactions are those of its root. -/
structure TagBlock (s : LookupNode) (blk : Header × BlockBody) : Prop where
  known : Known s (s.chain.com.computeBlockHash blk.1) blk.1
  transactions : blk.2.transactions = s.contents.transactions blk.1.txRoot

theorem tagBlock_of_body {body : BlockBody} (hknown : Known s (s.chain.com.computeBlockHash hd) hd)
    (h : s.getBlockBody hd = some body) : TagBlock s (hd, body) := by
  obtain ⟨transactions, hget, heq⟩ := Option.bind_eq_some_iff.mp h
  cases heq
  exact ⟨hknown, (getTransactions_iff.mp hget).2.symm⟩

theorem Filed.getEthBlock_tagBlock (hf : Filed n₀ s) {b : BlockRef} (hb : InTree s.chain b)
    (h : s.getEthBlock (s.chain.hash b) = some blk) : TagBlock s blk := by
  unfold getEthBlock at h
  rw [hf.getBlockHeader_inTree hb] at h
  simp only [Option.bind_eq_bind, Option.bind_some, Option.bind_eq_some_iff] at h
  obtain ⟨body, hbody, heq⟩ := h
  cases heq
  exact tagBlock_of_body ⟨rfl, .inl ⟨b, hb, rfl⟩⟩ hbody

theorem Filed.blockByNumber_tagBlock (hf : Filed n₀ s) {n : Nat}
    (h : s.blockByNumber n = some blk) : TagBlock s blk := by
  rcases hf.byNumber_cases h with ⟨hd, -, hknown, h⟩ | ⟨b, hb, -, h⟩
  · obtain ⟨body, hbody, heq⟩ := Option.bind_eq_some_iff.mp h
    cases heq
    exact tagBlock_of_body hknown hbody
  · exact hf.getEthBlock_tagBlock hb h

theorem Filed.blockByHash_tagBlock (hf : Filed n₀ s) {h : Hash32}
    (hget : s.blockByHash h = some blk) : TagBlock s blk := by
  unfold blockByHash at hget
  cases hb : s.chain.hashToBlock h with
  | some b =>
    simp only [hb] at hget
    exact hf.getEthBlock_tagBlock (hf.inv.linked.inTree_of_lookup hb) hget
  | none =>
    simp only [hb, Option.bind_eq_bind, Option.bind_eq_some_iff] at hget
    obtain ⟨hd, hp, body, hbody, heq⟩ := hget
    cases heq
    have hknown := hf.persistedHeaderByHash_known hp
    rw [← hknown.1] at hknown
    exact tagBlock_of_body hknown hbody

theorem Filed.blockFromTag_tagBlock (hf : Filed n₀ s) {noHash : Bool} {tag : LookupNode.BlockTag}
    (h : s.blockFromTag noHash tag = some blk) : TagBlock s blk := by
  have hl := hf.inv.linked
  cases tag with
  | latest => exact hf.getEthBlock_tagBlock hf.inTree_latest h
  | pending => exact hf.getEthBlock_tagBlock hf.inTree_latest h
  | finalized =>
    simp only [blockFromTag, finalizedBlock] at h
    split at h
    · next b hb => exact hf.getEthBlock_tagBlock (hl.inTree_of_lookup hb) h
    · exact hf.getEthBlock_tagBlock hl.base_mem h
  | safe =>
    simp only [blockFromTag, safeBlock] at h
    split at h
    · next b hb => exact hf.getEthBlock_tagBlock (hl.inTree_of_lookup hb) h
    · exact hf.getEthBlock_tagBlock hl.base_mem h
  | earliest => exact hf.blockByNumber_tagBlock h
  | unsupported => exact nomatch h
  | number n => exact hf.blockByNumber_tagBlock h
  | hash hash =>
    simp only [blockFromTag] at h
    split at h
    · cases h
    · exact hf.blockByHash_tagBlock h

theorem populateReceipts_logs {transactions : List Transaction}
    (htx : transactions = s.contents.transactions hd.txRoot) {i prevGasUsed : Nat}
    {recs : List LookupNode.ReceiptObject}
    (h : s.populateReceipts hd transactions i prevGasUsed receipts = some recs) :
    recs.flatMap (·.logs) =
      (indexedLogs i receipts).map fun p => scanLog s.chain.com s.contents hd (p, p.2) := by
  induction receipts generalizing i prevGasUsed recs with
  | nil =>
    cases h
    rfl
  | cons r receipts ih =>
    unfold populateReceipts at h
    simp only [Option.bind_eq_bind, Option.bind_eq_some_iff] at h
    obtain ⟨tx, hget, rest, hrest, heq⟩ := h
    cases heq
    have hcarries : Carries s.contents hd i tx.hash := by
      unfold Carries
      rw [← htx, hget]
      rfl
    have hfirst : (s.populateReceipt r (r.cumulativeGasUsed - prevGasUsed) tx i hd).logs =
        (r.logs.map (·, i)).map fun p => scanLog s.chain.com s.contents hd (p, p.2) := by
      rw [List.map_map]
      exact List.map_congr_left fun log _ => filterLog_eq hcarries
    rw [List.flatMap_cons, indexedLogs_cons, List.map_append, hfirst, ih hrest]

/-! ## What every run keeps -/

/-- Every block of the lineage of a block of the tree has as many receipts as transactions, and
a bloom for their logs. -/
structure Scannable (contains : BloomFilter) (n₀ : Nat) (s : LookupNode) : Prop where
  filed : Filed n₀ s
  vetted : Vetted (fun hd => ∀ a, Lineage s.chain.com hd a → BlockOk contains s.contents a) s.chain

/-- The step keeps the tree in shape, and what it attaches has the receipts and the bloom that
its validation has compared. -/
structure LogStepOk (contains : BloomFilter) (s : LookupNode) (x : Env × Event) : Prop where
  inv : InvStepOk s.chain x.1 x.2
  block : ∀ parent blk, Attaches s.chain x.1 x.2 parent blk →
    BlockOk contains s.contents blk.header

variable {contains : BloomFilter} {env : Env} {e : Event}

section

variable (hs : Scannable contains n₀ s)
include hs

theorem Scannable.step (hok : LogStepOk contains s (env, e))
    (h : s.step env e = .ok s') : Scannable contains n₀ s' := by
  have hf := hs.filed
  have hf' := hf.step hok.inv h
  obtain ⟨hnode, hcontents, -, -⟩ := LookupNode_step_eq h
  obtain ⟨P, hanchored, -⟩ := hf.kept
  have hchain := hanchored.backed.step_chain_ok hnode
  have hcom : s'.chain.com = s.chain.com := step_com hchain
  refine ⟨hf', ?_⟩
  rw [hcom, hcontents]
  apply hs.vetted.step hf.inv hf'.inv ?_ hchain
  intro parent blk hatt a hline
  rcases Relation.ReflTransGen.cases_head hline with rfl | ⟨p, hp, hrest⟩
  · exact hok.block parent blk hatt
  · -- the parent of the block is in the tree
    obtain ⟨finalized, hattempt, -⟩ := hatt
    obtain ⟨hparent, hph⟩ := hanchored.backed.wired.attempt_parent hattempt
    have hhash : s.chain.com.computeBlockHash p =
        s.chain.com.computeBlockHash (s.chain.blocks parent).header :=
      hp.1.symm.trans (hph.trans (hf.inv.linked.hash_eq hparent))
    rw [hf.inj hhash] at hrest
    exact hs.vetted parent hparent a hrest

theorem Scannable.blockOk_of_known {h : Hash32}
    (hknown : Known s h hd) : BlockOk contains s.contents hd := by
  obtain ⟨hash, ⟨b, hb, rfl⟩ | ⟨hn, hcan⟩⟩ := hknown
  · exact hs.vetted b hb _ Relation.ReflTransGen.refl
  · rw [← hash] at hcan
    have hat := hs.filed.ancestorAt_of_canonical hn rfl hcan
    exact hs.vetted _ hs.filed.inTree_latest hd hat.1

/-! ## Answers -/

/-- The answers of `eth_getLogs`: a scan of the block, or of the blocks of the range on the
lineage of `latest`, if these can be read. -/
structure LogAnswers (contains : BloomFilter) (s : LookupNode) : Prop where
  byHash : ∀ opts h logs, opts.blockHash = some h → s.eth_getLogs contains opts = some logs →
    ∃ hd, Known s h hd ∧
      ((headerBloomFilter contains hd opts.address opts.topics = true → ReceiptsReadable s hd) →
        logs = scanBlock s.chain.com s.contents opts hd)
  byRange : ∀ opts logs, opts.blockHash = none → s.eth_getLogs contains opts = some logs →
    ∃ blockFrom blockTo, s.headerFromTag (opts.fromBlock.getD .latest) = some blockFrom ∧
      s.headerFromTag (opts.toBlock.getD .latest) = some blockTo ∧
      blockFrom.number ≤ blockTo.number ∧
      (RangeReadable contains s opts blockFrom.number (blockTo.number + 1 - blockFrom.number) →
        ∃ hds : List Header, hds.map (·.number) =
            List.range' blockFrom.number (blockTo.number + 1 - blockFrom.number) ∧
          (∀ hd ∈ hds, Lineage s.chain.com s.latestHeader hd) ∧
          logs = hds.flatMap (scanBlock s.chain.com s.contents opts))

/-- The logs of receipts: those of the scan if and only if every log has the number of its
transaction. -/
structure ReceiptAnswers (s : LookupNode) : Prop where
  block : ∀ tag requireCanonical recs, s.eth_getBlockReceipts tag requireCanonical = some recs →
    ∃ blk, s.blockFromTag false tag = some blk ∧
      Known s (s.chain.com.computeBlockHash blk.1) blk.1 ∧
      (ReceiptsReadable s blk.1 →
        (recs.flatMap (·.logs) =
            (numberedLogs s.contents blk.1).map (scanLog s.chain.com s.contents blk.1) ↔
          ∀ p ∈ numberedLogs s.contents blk.1, p.2 = p.1.2))
  transaction : ∀ txHash receipt, s.eth_getTransactionReceipt txHash = some receipt →
    ∃ hd, Known s receipt.blockHash hd ∧
      Carries s.contents hd receipt.transactionIndex receipt.transactionHash ∧
      (receipt.logs = ((numberedLogs s.contents hd).filter
            (·.1.2 = receipt.transactionIndex)).map (scanLog s.chain.com s.contents hd) ↔
        ∀ p ∈ numberedLogs s.contents hd, p.1.2 = receipt.transactionIndex → p.2 = p.1.2)

theorem Scannable.logAnswers : LogAnswers contains s where
  byHash opts h logs hopts hget := by
    unfold eth_getLogs at hget
    simp only [hopts] at hget
    split at hget
    · cases hget
    · obtain ⟨hd, hheader, hlogs⟩ := Option.bind_eq_some_iff.mp hget
      have hknown := hs.filed.headerByHash_known hheader
      exact ⟨hd, hknown, fun hread =>
        hs.filed.getLogsForBlock_sound (hs.blockOk_of_known hknown) hread hlogs⟩
  byRange opts logs hopts hget := by
    unfold eth_getLogs at hget
    simp only [hopts] at hget
    split at hget
    · cases hget
    · simp only [Option.bind_eq_bind, Option.bind_eq_some_iff] at hget
      obtain ⟨blockFrom, hfrom, blockTo, hto, hget⟩ := hget
      split at hget
      · cases hget
      · next hle =>
        cases hget
        refine ⟨blockFrom, blockTo, hfrom, hto, Nat.le_of_not_lt hle, ?_⟩
        exact hs.filed.logsFrom_eq (hs.vetted _ hs.filed.inTree_latest)

theorem Scannable.receiptAnswers : ReceiptAnswers s where
  block tag requireCanonical recs hget := by
    have hblk : ∃ blk, s.blockFromTag false tag = some blk ∧
        ∃ receipts, s.receiptsByBlockHash (s.chain.com.computeBlockHash blk.1) = some receipts ∧
          (if blk.2.transactions.length = 0 then some []
            else s.populateReceipts blk.1 blk.2.transactions 0 0 receipts) = some recs := by
      unfold eth_getBlockReceipts at hget
      split at hget
      · cases hget
      · simp only [Option.bind_eq_bind, Option.bind_eq_some_iff] at hget
        exact hget
    obtain ⟨blk, htag, receipts, hreceipts, hrecs⟩ := hblk
    have hblock := hs.filed.blockFromTag_tagBlock htag
    refine ⟨blk, htag, hblock.known, fun hread => ?_⟩
    have hall : receipts = s.contents.receipts blk.1.receiptsRoot := by
      obtain ⟨hd, hp, heq⟩ := Option.bind_eq_some_iff.mp hreceipts
      have hsame : hd = blk.1 := hs.filed.inj (hs.filed.payloadHeader_known hp).1
      rw [hsame, Option.pure_def, Option.some.injEq, getReceipts_of_readable hread] at heq
      exact heq.symm
    have hlogs : recs.flatMap (·.logs) =
        (numberedLogs s.contents blk.1).map (receiptLog s.chain.com s.contents blk.1) := by
      rw [map_receiptLog, numberedLogs, List.zipIdx_map_fst, ← hall]
      split at hrecs
      · next hlen =>
        -- a block without transactions has no receipts
        cases hrecs
        have hok := (hs.blockOk_of_known hblock.known).length
        rw [← hblock.transactions, hlen, ← hall] at hok
        rw [List.length_eq_zero_iff.mp hok]
        rfl
      · exact populateReceipts_logs hblock.transactions hrecs
    rw [hlogs]
    exact map_receiptLog_eq
  transaction txHash receipt hget := by
    unfold eth_getTransactionReceipt at hget
    simp only [Option.bind_eq_bind, Option.bind_eq_some_iff] at hget
    obtain ⟨⟨h, i⟩, -, hd, hheader, tx, htx, r, hr, hgas⟩ := hget
    have hpopulated : ∃ prevGasUsed,
        s.populateReceipt r (r.cumulativeGasUsed - prevGasUsed) tx i hd = receipt := by
      split at hgas
      · exact ⟨0, Option.some.inj hgas⟩
      · obtain ⟨prevGasUsed, -, heq⟩ := Option.bind_eq_some_iff.mp hgas
        exact ⟨prevGasUsed, Option.some.inj heq⟩
    obtain ⟨prevGasUsed, rfl⟩ := hpopulated
    have hknown := hs.filed.headerByHash_known hheader
    obtain ⟨hd', hknown', htx⟩ := hs.filed.txByBlockHashAndIndex_known htx
    obtain ⟨hd'', hknown'', hr⟩ := hs.filed.receiptByBlockHashAndIndex_known hr
    rw [hknown'.unique hs.filed hknown] at htx
    rw [hknown''.unique hs.filed hknown] at hr
    have hcarries : Carries s.contents hd i tx.hash := by
      unfold Carries
      rw [htx]
      rfl
    have hhash : s.chain.com.computeBlockHash hd = h := hknown.1
    rw [← hhash] at hknown
    refine ⟨hd, hknown, hcarries, ?_⟩
    have hlogs : (s.populateReceipt r (r.cumulativeGasUsed - prevGasUsed) tx i hd).logs =
        ((numberedLogs s.contents hd).filter (·.1.2 = i)).map
          (receiptLog s.chain.com s.contents hd) := by
      rw [numberedLogs_filter hr]
      exact List.map_congr_left fun log _ => filterLog_eq hcarries
    rw [hlogs]
    show _ = ((numberedLogs s.contents hd).filter (·.1.2 = i)).map _ ↔ _
    rw [map_receiptLog_eq]
    simp only [List.mem_filter, decide_eq_true_eq, and_imp]
    rfl

end

end

/-! ## Runs -/

section

variable {com : CommonRef} {db : SavedState com}

theorem filed_init (saved : SavedBlocks com db) {contents : Contents}
    (hlaw : ∀ hd, contents.header (com.computeBlockHash hd) = hd)
    (hcanonical : CanonicalBelow com db.canonical db.baseHeader)
    (hzero : saved.blocks.header zeroHash32 = false)
    (txKeys : Hash32 → Option TransactionKey) (accessLists : Hash32 → Option BlockAccessList)
    (baseDistance : Nat) (persistBatchSize : { size : Nat // size > 0 }) (dynamicBatchSize : Bool) :
    Filed db.baseHeader.number (LookupNode.init saved contents txKeys accessLists baseDistance
      persistBatchSize dynamicBatchSize) := by
  obtain ⟨hinv, -, -⟩ := inv_init com db baseDistance persistBatchSize dynamicBatchSize
  refine ⟨hlaw, ∅, ⟨hinv, ?_, ?_⟩, ⟨fun hd h => h.elim, hzero⟩⟩
  · exact backed_init saved baseDistance persistBatchSize dynamicBatchSize
      (Function.LeftInverse.injective hlaw)
  · exact hcanonical

theorem scannable_init (saved : SavedBlocks com db) {contents : Contents}
    {contains : BloomFilter} (hlaw : ∀ hd, contents.header (com.computeBlockHash hd) = hd)
    (hcanonical : CanonicalBelow com db.canonical db.baseHeader)
    (hzero : saved.blocks.header zeroHash32 = false)
    (hblocks : ∀ a, Lineage com db.baseHeader a → BlockOk contains contents a)
    (txKeys : Hash32 → Option TransactionKey) (accessLists : Hash32 → Option BlockAccessList)
    (baseDistance : Nat) (persistBatchSize : { size : Nat // size > 0 }) (dynamicBatchSize : Bool) :
    Scannable contains db.baseHeader.number (LookupNode.init saved contents txKeys accessLists
      baseDistance persistBatchSize dynamicBatchSize) := by
  refine ⟨filed_init saved hlaw hcanonical hzero txKeys accessLists baseDistance persistBatchSize
    dynamicBatchSize, ?_⟩
  intro b hb
  rw [(init_inTree saved baseDistance persistBatchSize dynamicBatchSize).mp hb]
  exact hblocks

end

/-! A child of block 0, with two logs in its only receipt. -/

noncomputable def twoLogs : Contents :=
  { pairContents with
    receipts := fun root => if root = EMPTY_ROOT_HASH then []
      else [{ logs := [⟨5, [], []⟩, ⟨5, [], []⟩] }]
    receipts_nil := fun root => emptyRoot_iff root _ }

theorem twoLogs_header (hd : Header) : twoLogs.header (pairCom.computeBlockHash hd) = hd :=
  pairContents_header hd

/-- A bloom filter that never says no. -/
def fullBloom : BloomFilter := fun _ _ => true

theorem twoLogs_blockOk {hd : Header}
    (h : hd.txRoot = EMPTY_ROOT_HASH ↔ hd.receiptsRoot = EMPTY_ROOT_HASH) :
    BlockOk fullBloom twoLogs hd where
  length := by
    show (if hd.receiptsRoot = EMPTY_ROOT_HASH then [] else [_]).length =
      (if hd.txRoot = EMPTY_ROOT_HASH then [] else [_]).length
    by_cases hroot : hd.txRoot = EMPTY_ROOT_HASH
    · rw [if_pos hroot, if_pos (h.mp hroot)]
      rfl
    · rw [if_neg hroot, if_neg fun hr => hroot (h.mpr hr)]
      rfl
  address _ _ _ _ := rfl
  topic _ _ _ _ _ _ := rfl

def logHeader : Header :=
  { sampleHeader pairDb.baseHash 1 1 with txRoot := 7, receiptsRoot := 8 }

noncomputable def logStart : LookupNode :=
  LookupNode.init recordSaved twoLogs (fun _ => none) (fun _ => none) 3 ⟨1, Nat.zero_lt_one⟩ false

theorem logStart_importOk :
    StepRun.StepsOk (fun s (env, e) => LookupNode.step s env e) (LogStepOk fullBloom) logStart
      [(sampleEnv, .importBlock ⟨logHeader⟩ false)] := by
  have hattempt : attempt recordChain (.importBlock ⟨logHeader⟩ false) =
      some (0, ⟨logHeader⟩, false) := by decide +kernel
  have hforward : (resolvePending recordChain ⟨logHeader⟩).autoForward = false := by
    decide +kernel
  refine ⟨⟨recordChain_importOk hattempt hforward, ?_⟩, fun _ _ => trivial⟩
  intro parent blk hatt
  obtain ⟨finalized, hatt, -⟩ := hatt
  cases hatt
  exact twoLogs_blockOk (by decide)

theorem baseLineage_blockOk {a : Header} (h : Lineage pairCom pairDb.baseHeader a) :
    BlockOk fullBloom twoLogs a := by
  rw [lineage_base h]
  exact twoLogs_blockOk (by decide)

theorem logStart_zero : recordSaved.blocks.header zeroHash32 = false :=
  beq_false_of_ne (Ne.symm (pairCom.hash_ne_zero _))

end Nimbus.Spec.ForkedChain
