import Nimbus.Spec.TxLookups

/-!
# Lookups over whole runs

A lookup by number leads to the ancestor of `latest` with that number, a lookup by hash to the
block with that hash, if it is one of the tree or of the canonical chain up to the base, and a
lookup of a transaction to the block of either that carries it.
-/

namespace Nimbus.Spec.ForkedChain

open Nimbus.Native.ForkedChain
open ParentTree

/-! ## The records -/

/-- What a lookup finds is the block that it is asked for. -/
structure Filed (n₀ : Nat) (s : LookupNode) : Prop where
  /-- the record under a block hash is the header it is the hash of -/
  law : ∀ hd, s.contents.header (s.chain.com.computeBlockHash hd) = hd
  kept : ∃ P, Anchored n₀ P s.node ∧ Headed P s.node

/-- The node with another store. -/
def onStore (s : LookupNode) (db : BlockDb) : LookupNode :=
  { s with node := { s.node with db := db } }

/-- What the lookups rely on. -/
structure Catalogued (n₀ : Nat) (s : LookupNode) : Prop where
  /-- the record under a block hash is the header it is the hash of -/
  law : ∀ hd, s.contents.header (s.chain.com.computeBlockHash hd) = hd
  archived : ∃ P, Archived n₀ P s.node
  first : FirstIsBase s.chain
  repeats : Vetted (NoRepeat s.chain.com s.contents) s.chain
  indexed : Indexed s
  genesis : ∀ hd, hd.number = 0 →
    s.chain.canonical 0 = some (s.chain.com.computeBlockHash hd) →
    ∀ i txHash, ¬ Carries s.contents hd i txHash

/-- The step keeps the tree in shape, and attaches no block that repeats a transaction of its
lineage. -/
structure LookupStepOk (s : LookupNode) (x : Env × Event) : Prop where
  inv : InvStepOk s.chain x.1 x.2
  nonce : ∀ parent blk, Attaches s.chain x.1 x.2 parent blk →
    NoRepeat s.chain.com s.contents blk.header

section

variable {n₀ : Nat} {s s' : LookupNode} {env : Env} {e : Event}

theorem Filed.inv (hf : Filed n₀ s) : Inv s.chain := by
  obtain ⟨P, hanchored, -⟩ := hf.kept
  exact hanchored.inv

theorem Filed.inj (hf : Filed n₀ s) : Function.Injective s.chain.com.computeBlockHash :=
  Function.LeftInverse.injective hf.law

theorem Filed.canonicalBelow (hf : Filed n₀ s) :
    CanonicalBelow s.chain.com s.chain.canonical (s.chain.blocks s.chain.base).header := by
  obtain ⟨P, hanchored, -⟩ := hf.kept
  exact hanchored.canonical

theorem Filed.step (hf : Filed n₀ s) (hok : InvStepOk s.chain env e) (h : s.step env e = .ok s') :
    Filed n₀ s' := by
  obtain ⟨hnode, hcontents, -, -⟩ := LookupNode_step_eq h
  obtain ⟨P, hanchored, hheaded⟩ := hf.kept
  have hchain := hanchored.backed.step_chain_ok hnode
  refine ⟨?_, _, hanchored.step hok hnode, hheaded.step hanchored.backed hnode⟩
  rw [show s'.chain.com = s.chain.com from step_com hchain, hcontents]
  exact hf.law

theorem Catalogued.filed (hc : Catalogued n₀ s) : Filed n₀ s := by
  obtain ⟨P, harchived⟩ := hc.archived
  exact ⟨hc.law, P, harchived.anchored, harchived.headed⟩

theorem canonical_zero_step {c c' : ForkedChainRef} (hi : Inv c) (h : step c env e = .ok c') :
    c'.canonical 0 = c.canonical 0 := by
  rcases step_trace h with ⟨hthin, -⟩ | ⟨-, parent, blk, -, hgrow⟩ | ⟨-, it, rest, hq, -, hre⟩
  · rw [hthin.canonical]
  · rw [hgrow.canonical]
  · rw [hre.canonical]
    apply writeCanonicalMappings_of_le hi _ (Nat.zero_le _)
    apply (hi.queued it _).1
    rw [hq]
    exact List.mem_cons_self

theorem Catalogued.step (hc : Catalogued n₀ s) (hok : LookupStepOk s (env, e))
    (h : s.step env e = .ok s') : Catalogued n₀ s' := by
  obtain ⟨hnode, hcontents, hkeys, -⟩ := LookupNode_step_eq h
  obtain ⟨P, harchived⟩ := hc.archived
  have hf := hc.filed
  have hf' := hf.step hok.inv h
  have hchain : Native.ForkedChain.step s.chain env e = .ok s'.chain :=
    harchived.anchored.backed.step_chain_ok hnode
  have hcom := step_com hchain
  have hindexed := hc.indexed.step hf.inv hf'.inv hf.canonicalBelow hf.inj hc.first hc.repeats
    hchain hcontents hkeys
  refine ⟨hf'.law, ⟨_, harchived.step hok.inv hnode⟩, hc.first.step hf.inv hf'.inv hchain, ?_,
    hindexed, ?_⟩
  · rw [hcom, hcontents]
    exact hc.repeats.step hf.inv hf'.inv hok.nonce hchain
  · rw [hcom, hcontents, canonical_zero_step hf.inv hchain]
    exact hc.genesis

end

/-! ## Blocks that are known -/

/-- The block with this hash is one of the tree, or of the canonical chain up to the base. -/
def Known (s : LookupNode) (h : Hash32) (hd : Header) : Prop :=
  s.chain.com.computeBlockHash hd = h ∧
    ((∃ b, InTree s.chain b ∧ (s.chain.blocks b).header = hd) ∨
      (hd.number ≤ s.chain.number s.chain.base ∧ s.chain.canonical hd.number = some h))

/-- The body that the roots of a header are roots of. -/
def bodyOf (contents : Contents) (hd : Header) : BlockBody where
  transactions := contents.transactions hd.txRoot
  uncles := contents.uncles hd.ommersHash
  withdrawals := hd.withdrawalsRoot.map contents.withdrawals

section

variable {n₀ : Nat} {s : LookupNode} {h : Hash32} {hd : Header} {b : BlockRef} {n : Nat}

section

variable (hf : Filed n₀ s)
include hf

theorem Filed.known_of_lookup {b : BlockRef}
    (hb : s.chain.hashToBlock h = some b) : Known s h (s.header b) := by
  have hl := hf.inv.linked
  have hbt := hl.inTree_of_lookup hb
  exact ⟨(hl.hash_eq hbt).symm.trans (hl.key hb), .inl ⟨b, hbt, rfl⟩⟩

theorem Filed.getBlockHeader_inTree {b : BlockRef}
    (hb : InTree s.chain b) : s.getBlockHeader (s.chain.hash b) = some (s.header b) := by
  obtain ⟨P, hanchored, -⟩ := hf.kept
  have hrecord : s.db.header (s.chain.hash b) = true := (hanchored.backed.recorded hb).1
  unfold LookupNode.getBlockHeader
  rw [if_pos hrecord, hf.inv.linked.hash_eq hb, hf.law]
  rfl

/-- What a number up to the base leads to is an ancestor of the base. -/
theorem Filed.canonical_lineage {n : Nat}
    (hn : n ≤ s.chain.number s.chain.base) (hcan : s.chain.canonical n = some h) :
    ∃ hd, s.chain.com.computeBlockHash hd = h ∧ hd.number = n ∧
      Lineage s.chain.com (s.chain.blocks s.chain.base).header hd := by
  have hl := hf.inv.linked
  rcases Nat.lt_or_eq_of_le hn with hlt | rfl
  · exact hf.canonicalBelow n hlt h hcan
  · have hsaved : s.chain.canonical (s.chain.number s.chain.base) = _ := hf.inv.saved
    rw [hcan, Option.some.injEq] at hsaved
    refine ⟨_, (hl.hash_eq hl.base_mem).symm.trans hsaved.symm, rfl, Relation.ReflTransGen.refl⟩

theorem Filed.getBlockHeaderByNumber_iff {db : BlockDb} {n : Nat}
    (hn : n ≤ s.chain.number s.chain.base) :
    (onStore s db).getBlockHeaderByNumber n = some hd ↔ hd.number = n ∧
      s.chain.canonical n = some (s.chain.com.computeBlockHash hd) ∧
      db.header (s.chain.com.computeBlockHash hd) = true := by
  have hget : (onStore s db).getBlockHeaderByNumber n = (s.chain.canonical n).bind fun h =>
      if db.header h then some (s.contents.header h) else none := rfl
  rw [hget, Option.bind_eq_some_iff]
  constructor
  · rintro ⟨h, hcan, hrecord⟩
    obtain ⟨hheader, heq⟩ := Option.ite_none_right_eq_some.mp hrecord
    obtain ⟨hd', rfl, hnum, -⟩ := hf.canonical_lineage hn hcan
    rw [hf.law, Option.some.injEq] at heq
    subst heq
    exact ⟨hnum, hcan, hheader⟩
  · rintro ⟨-, hcan, hheader⟩
    exact ⟨_, hcan, by rw [if_pos hheader, hf.law]⟩

theorem Filed.persistedHeaderByHash_known
    (hp : s.persistedHeaderByHash h = some hd) : Known s h hd := by
  obtain ⟨P, -, hheaded⟩ := hf.kept
  unfold LookupNode.persistedHeaderByHash at hp
  simp only [Option.bind_eq_bind, Option.bind_eq_some_iff] at hp
  obtain ⟨header, hrecord, hp⟩ := hp
  split at hp
  · cases hp
  · next hguard =>
    cases hp
    simp only [not_or, Nat.not_lt, not_not] at hguard
    obtain ⟨hle, hcan⟩ := hguard
    unfold LookupNode.getBlockHeader at hrecord
    unfold LookupNode.getBlockHash at hcan
    split at hrecord
    · next hheader =>
      cases hlookup : s.chain.canonical hd.number with
      | none =>
        -- no header is on record under the zero hash
        rw [hlookup] at hcan
        rw [← hcan] at hheader
        exact absurd (hheader.symm.trans hheaded.zero) (by decide)
      | some h' =>
        rw [hlookup, Option.getD_some] at hcan
        subst hcan
        obtain ⟨hd', hash, -, -⟩ := hf.canonical_lineage hle hlookup
        rw [Option.some.injEq, ← hash, hf.law] at hrecord
        subst hrecord
        exact ⟨hash, .inr ⟨hle, hlookup⟩⟩
    · cases hrecord

theorem Filed.headerByHash_known (hget : s.headerByHash h = some hd) : Known s h hd := by
  unfold LookupNode.headerByHash at hget
  cases hb : s.chain.hashToBlock h with
  | some b =>
    rw [hb] at hget
    cases hget
    exact hf.known_of_lookup hb
  | none =>
    rw [hb] at hget
    exact hf.persistedHeaderByHash_known hget

theorem Filed.payloadHeader_known (hget : s.payloadHeader h = some hd) : Known s h hd := by
  unfold LookupNode.payloadHeader at hget
  split at hget
  · cases hb : s.chain.hashToBlock h with
    | some b =>
      rw [hb] at hget
      simp only [hf.getBlockHeader_inTree (hf.inv.linked.inTree_of_lookup hb),
        Option.some.injEq] at hget
      rw [← hget]
      exact hf.known_of_lookup hb
    | none =>
      rw [hb] at hget
      exact hf.persistedHeaderByHash_known hget
  · exact hf.persistedHeaderByHash_known hget

end

/-- A canonical block up to the base has its header record and its payloads. -/
theorem Catalogued.canonical (hc : Catalogued n₀ s)
    (hn : n ≤ s.chain.number s.chain.base) (hcan : s.chain.canonical n = some h) :
    ∃ hd, s.chain.com.computeBlockHash hd = h ∧ s.db.header h = true ∧ Stored s.db h hd := by
  obtain ⟨P, harchived⟩ := hc.archived
  have hk := harchived.anchored.backed
  have hl := hc.filed.inv.linked
  rcases Nat.lt_or_eq_of_le hn with hlt | rfl
  · obtain ⟨hd, hhd, rfl⟩ := harchived.passed n hlt h hcan
    exact ⟨hd, rfl, harchived.headed.header hd hhd, hk.persisted hd hhd⟩
  · have hsaved : s.chain.canonical (s.chain.number s.chain.base) = _ := hc.filed.inv.saved
    rw [hcan, Option.some.injEq] at hsaved
    subst hsaved
    exact ⟨_, (hl.hash_eq hl.base_mem).symm, (hk.recorded hl.base_mem).1, hk.stored hl.base_mem⟩

theorem Catalogued.known_stored (hc : Catalogued n₀ s) (hknown : Known s h hd) :
    BodiesStored s.db hd := by
  obtain ⟨hash, ⟨b, hb, rfl⟩ | ⟨hn, hcan⟩⟩ := hknown
  · obtain ⟨P, harchived⟩ := hc.archived
    exact fun key hkey => (harchived.anchored.backed.stored hb key hkey).1
  · obtain ⟨hd', hash', -, hstored⟩ := hc.canonical hn hcan
    have heq : hd' = hd := hc.filed.inj (hash'.trans hash.symm)
    rw [← heq]
    exact fun key hkey => (hstored key hkey).1

theorem Catalogued.getBlockHeaderByNumber_of_canonical (hc : Catalogued n₀ s)
    (hn : hd.number ≤ s.chain.number s.chain.base)
    (hcan : s.chain.canonical hd.number = some (s.chain.com.computeBlockHash hd)) :
    s.getBlockHeaderByNumber hd.number = some hd := by
  obtain ⟨hd', -, hheader, -⟩ := hc.canonical hn hcan
  have hiff := @Filed.getBlockHeaderByNumber_iff _ _ hd hc.filed s.db _ hn
  exact hiff.mpr ⟨rfl, hcan, hheader⟩

/-! ## Payloads -/

/-- The receipts of the block are in the store. -/
def ReceiptsReadable (s : LookupNode) (hd : Header) : Prop :=
  hd.receiptsRoot = EMPTY_ROOT_HASH ∨ s.hasPayload (.indexed hd.receiptsRoot) = true

theorem getReceipts_of_readable (hread : ReceiptsReadable s hd) :
    s.getReceipts hd.receiptsRoot = s.contents.receipts hd.receiptsRoot := by
  unfold LookupNode.getReceipts
  by_cases hroot : hd.receiptsRoot = EMPTY_ROOT_HASH
  · simp [hroot, (s.contents.receipts_nil EMPTY_ROOT_HASH).mpr rfl]
  · rw [if_pos ⟨hroot, hread.resolve_left hroot⟩]

/-- The transactions of the block are in the store. -/
def TransactionsReadable (s : LookupNode) (hd : Header) : Prop :=
  hd.txRoot = EMPTY_ROOT_HASH ∨ s.hasPayload (.indexed hd.txRoot) = true

def WithdrawalsReadable (s : LookupNode) (hd : Header) : Prop :=
  ∀ root, hd.withdrawalsRoot = some root →
    root = EMPTY_ROOT_HASH ∨ s.hasPayload (.withdrawals root) = true

theorem getTransactions_iff {root : Hash32} {transactions : List Transaction} :
    s.getTransactions root = some transactions ↔
      (root = EMPTY_ROOT_HASH ∨ s.hasPayload (.indexed root) = true) ∧
        s.contents.transactions root = transactions := by
  unfold LookupNode.getTransactions LookupNode.getBlockTransactionData
  by_cases hroot : root = EMPTY_ROOT_HASH
  · simp [hroot, (s.contents.transactions_nil EMPTY_ROOT_HASH).mpr rfl]
  · by_cases hpayload : s.hasPayload (.indexed root) = true
    · have hne : (s.contents.transactions root).length ≠ 0 := by
        intro hlen
        exact hroot ((s.contents.transactions_nil _).mp (List.length_eq_zero_iff.mp hlen))
      simp [hroot, hpayload, hne]
    · simp [hroot, hpayload]

theorem WithdrawalsReadable.map_eq (h : WithdrawalsReadable s hd) :
    hd.withdrawalsRoot.map s.getWithdrawals = hd.withdrawalsRoot.map s.contents.withdrawals := by
  apply Option.map_congr
  intro root hroot
  unfold LookupNode.getWithdrawals
  rcases h root hroot with rfl | hpayload
  · rw [s.contents.withdrawals_empty, ite_self]
  · rw [if_pos hpayload]

theorem getExecutionPayloadBodyV1_of_readable (ht : TransactionsReadable s hd)
    (hw : WithdrawalsReadable s hd) :
    s.getExecutionPayloadBodyV1 hd = some (toPayloadBodyV1 (bodyOf s.contents hd)) := by
  -- an empty root reads back without withdrawals as well
  have hempty : (fun root => if root = EMPTY_ROOT_HASH then [] else s.getWithdrawals root) =
      s.getWithdrawals := by
    funext root
    unfold LookupNode.getWithdrawals
    split
    · next h => rw [h, s.contents.withdrawals_empty, ite_self]
    · rfl
  unfold LookupNode.getExecutionPayloadBodyV1 toPayloadBodyV1 bodyOf
  rw [getTransactions_iff.mpr ⟨ht, rfl⟩, hempty, hw.map_eq]
  rfl

section Payloads

variable (hstored : BodiesStored s.db hd)
include hstored

theorem transactionsReadable_of_stored : TransactionsReadable s hd := by
  by_cases hroot : hd.txRoot = EMPTY_ROOT_HASH
  · exact .inl hroot
  · right
    apply hstored
    simp [bodyData, hroot]

theorem receiptsReadable_of_stored : ReceiptsReadable s hd := by
  by_cases hroot : hd.receiptsRoot = EMPTY_ROOT_HASH
  · exact .inl hroot
  · right
    apply hstored
    simp [bodyData, hroot]

theorem withdrawalsReadable_of_stored : WithdrawalsReadable s hd := by
  intro root hroot
  by_cases hempty : root = EMPTY_ROOT_HASH
  · exact .inl hempty
  · right
    apply hstored
    simp [bodyData, hroot, hempty]

theorem getUncles_of_stored : s.getUncles hd.ommersHash = s.contents.uncles hd.ommersHash := by
  unfold LookupNode.getUncles
  by_cases hroot : hd.ommersHash = EMPTY_UNCLE_HASH
  · simp [hroot, s.contents.uncles_empty]
  · have hpayload : s.hasPayload (.ommers hd.ommersHash) = true := by
      apply hstored
      simp [bodyData, hroot]
    simp [hroot, hpayload]

theorem getBlockBody_of_stored : s.getBlockBody hd = some (bodyOf s.contents hd) := by
  unfold LookupNode.getBlockBody bodyOf
  rw [getTransactions_iff.mpr ⟨transactionsReadable_of_stored hstored, rfl⟩,
    getUncles_of_stored hstored, (withdrawalsReadable_of_stored hstored).map_eq]
  rfl

theorem getExecutionPayloadBodyV1_of_stored :
    s.getExecutionPayloadBodyV1 hd = some (toPayloadBodyV1 (bodyOf s.contents hd)) :=
  getExecutionPayloadBodyV1_of_readable (transactionsReadable_of_stored hstored)
    (withdrawalsReadable_of_stored hstored)

theorem getExecutionPayloadBodyV2_of_stored {h : Hash32} {p : ExecutionPayloadBodyV2}
    (hash : s.chain.com.computeBlockHash hd = h) (hget : s.getExecutionPayloadBodyV2 hd = some p) :
    ∃ bal, p = toPayloadBodyV2 (bodyOf s.contents hd) bal ∧
      (bal = none ∨ bal = s.accessLists h) := by
  unfold LookupNode.getExecutionPayloadBodyV2 at hget
  rw [getExecutionPayloadBodyV1_of_stored hstored] at hget
  cases hget
  refine ⟨_, rfl, ?_⟩
  by_cases hsome : hd.blockAccessListHash.isSome = true
  · rw [if_pos hsome, hash]
    exact .inr rfl
  · rw [if_neg hsome]
    exact .inl rfl

end Payloads

/-! ## Lookups by hash -/

/-- The block of a successful lookup by hash, with its own data. -/
structure HashAnswers (s : LookupNode) : Prop where
  header : ∀ h hd, s.headerByHash h = some hd → Known s h hd
  body : ∀ h body, s.blockBodyByHash h = some body →
    ∃ hd, Known s h hd ∧ body = bodyOf s.contents hd
  block : ∀ h blk, s.blockByHash h = some blk →
    ∃ hd, Known s h hd ∧ blk = (hd, bodyOf s.contents hd)
  payloadV1 : ∀ h p, s.payloadBodyV1ByHash h = some p →
    ∃ hd, Known s h hd ∧ p = toPayloadBodyV1 (bodyOf s.contents hd)
  payloadV2 : ∀ h p, s.payloadBodyV2ByHash h = some p →
    ∃ hd, Known s h hd ∧ ∃ bal, p = toPayloadBodyV2 (bodyOf s.contents hd) bal ∧
      (bal = none ∨ bal = s.accessLists h)
  receipts : ∀ h rs, s.receiptsByBlockHash h = some rs →
    ∃ hd, Known s h hd ∧ rs = s.contents.receipts hd.receiptsRoot
  receipt : ∀ h i r, s.receiptByBlockHashAndIndex h i = some r →
    ∃ hd, Known s h hd ∧ (s.contents.receipts hd.receiptsRoot)[i]? = some r
  transaction : ∀ h i tx, s.txByBlockHashAndIndex h i = some tx →
    ∃ hd, Known s h hd ∧ (s.contents.transactions hd.txRoot)[i]? = some tx

theorem Catalogued.getEthBlock_inTree (hc : Catalogued n₀ s) (hb : InTree s.chain b) :
    s.getEthBlock (s.chain.hash b) = some (s.header b, bodyOf s.contents (s.header b)) := by
  have hknown : Known s (s.chain.hash b) (s.header b) := hc.filed.known_of_lookup hb
  unfold LookupNode.getEthBlock
  rw [hc.filed.getBlockHeader_inTree hb]
  simp only [Option.bind_eq_bind, Option.bind_some,
    getBlockBody_of_stored (hc.known_stored hknown)]
  rfl

theorem Catalogued.getEthBlock_lookup (hc : Catalogued n₀ s) (hb : s.chain.hashToBlock h = some b) :
    s.getEthBlock (s.chain.hash b) = some (s.header b, bodyOf s.contents (s.header b)) :=
  hc.getEthBlock_inTree (hc.filed.inv.linked.inTree_of_lookup hb)

theorem Known.unique (hf : Filed n₀ s) {hd' : Header} (hknown : Known s h hd)
    (hknown' : Known s h hd') : hd = hd' :=
  hf.inj (hknown.1.trans hknown'.1.symm)

theorem Filed.receiptByBlockHashAndIndex_known (hf : Filed n₀ s) {i : Nat} {r : Receipt}
    (hget : s.receiptByBlockHashAndIndex h i = some r) :
    ∃ hd, Known s h hd ∧ (s.contents.receipts hd.receiptsRoot)[i]? = some r := by
  simp only [LookupNode.receiptByBlockHashAndIndex, Option.bind_eq_bind,
    Option.bind_eq_some_iff] at hget
  obtain ⟨hd, hp, hget⟩ := hget
  refine ⟨hd, hf.payloadHeader_known hp, ?_⟩
  unfold LookupNode.getReceiptByIndex at hget
  split at hget
  · exact hget
  · cases hget

theorem Filed.txByBlockHashAndIndex_known (hf : Filed n₀ s) {i : Nat} {tx : Transaction}
    (hget : s.txByBlockHashAndIndex h i = some tx) :
    ∃ hd, Known s h hd ∧ (s.contents.transactions hd.txRoot)[i]? = some tx := by
  have hread : ∀ hd, Known s h hd → s.getTransactionByIndex hd.txRoot i = some tx →
      ∃ hd, Known s h hd ∧ (s.contents.transactions hd.txRoot)[i]? = some tx := by
    intro hd hknown hread
    refine ⟨hd, hknown, ?_⟩
    unfold LookupNode.getTransactionByIndex at hread
    split at hread
    · exact hread
    · cases hread
  unfold LookupNode.txByBlockHashAndIndex at hget
  split at hget
  · obtain ⟨hd, hp, hget⟩ := Option.bind_eq_some_iff.mp hget
    exact hread hd (hf.headerByHash_known hp) hget
  · obtain ⟨hd, hp, hget⟩ := Option.bind_eq_some_iff.mp hget
    exact hread hd (hf.persistedHeaderByHash_known hp) hget

theorem Catalogued.hashAnswers (hc : Catalogued n₀ s) : HashAnswers s where
  header _ _ hget := hc.filed.headerByHash_known hget
  body h body hget := by
    unfold LookupNode.blockBodyByHash at hget
    cases hb : s.chain.hashToBlock h with
    | some b =>
      have hknown := hc.filed.known_of_lookup hb
      simp only [hb, getBlockBody_of_stored (hc.known_stored hknown), Option.some.injEq] at hget
      exact ⟨_, hknown, hget.symm⟩
    | none =>
      simp only [hb, Option.bind_eq_bind, Option.bind_eq_some_iff] at hget
      obtain ⟨hd, hp, hget⟩ := hget
      have hknown := hc.filed.persistedHeaderByHash_known hp
      rw [getBlockBody_of_stored (hc.known_stored hknown), Option.some.injEq] at hget
      exact ⟨hd, hknown, hget.symm⟩
  block h blk hget := by
    unfold LookupNode.blockByHash at hget
    cases hb : s.chain.hashToBlock h with
    | some b =>
      simp only [hb, hc.getEthBlock_lookup hb, Option.some.injEq] at hget
      exact ⟨_, hc.filed.known_of_lookup hb, hget.symm⟩
    | none =>
      simp only [hb, Option.bind_eq_bind, Option.bind_eq_some_iff] at hget
      obtain ⟨hd, hp, body, hbody, hget⟩ := hget
      have hknown := hc.filed.persistedHeaderByHash_known hp
      rw [getBlockBody_of_stored (hc.known_stored hknown), Option.some.injEq] at hbody
      cases hget
      exact ⟨hd, hknown, by rw [hbody]⟩
  payloadV1 h p hget := by
    unfold LookupNode.payloadBodyV1ByHash at hget
    cases hb : s.chain.hashToBlock h with
    | some b =>
      simp only [hb, hc.getEthBlock_lookup hb, Option.map_some, Option.some.injEq] at hget
      exact ⟨_, hc.filed.known_of_lookup hb, hget.symm⟩
    | none =>
      simp only [hb, Option.bind_eq_bind, Option.bind_eq_some_iff] at hget
      obtain ⟨hd, hp, hget⟩ := hget
      have hknown := hc.filed.persistedHeaderByHash_known hp
      rw [getExecutionPayloadBodyV1_of_stored (hc.known_stored hknown), Option.some.injEq] at hget
      exact ⟨hd, hknown, hget.symm⟩
  payloadV2 h p hget := by
    unfold LookupNode.payloadBodyV2ByHash at hget
    cases hb : s.chain.hashToBlock h with
    | some b =>
      simp only [hb, hc.getEthBlock_lookup hb, Option.map_some, Option.some.injEq] at hget
      refine ⟨_, hc.filed.known_of_lookup hb, s.accessLists h, ?_, .inr rfl⟩
      rw [← hget, hc.filed.inv.linked.key hb]
    | none =>
      simp only [hb, Option.bind_eq_bind, Option.bind_eq_some_iff] at hget
      obtain ⟨hd, hp, hget⟩ := hget
      have hknown := hc.filed.persistedHeaderByHash_known hp
      exact ⟨hd, hknown, getExecutionPayloadBodyV2_of_stored (hc.known_stored hknown) hknown.1 hget⟩
  receipts h rs hget := by
    simp only [LookupNode.receiptsByBlockHash, Option.bind_eq_bind, Option.bind_eq_some_iff] at hget
    obtain ⟨hd, hp, hget⟩ := hget
    have hknown := hc.filed.payloadHeader_known hp
    rw [getReceipts_of_readable (receiptsReadable_of_stored (hc.known_stored hknown))] at hget
    exact ⟨hd, hknown, (Option.some.inj hget).symm⟩
  receipt _ _ _ hget := hc.filed.receiptByBlockHashAndIndex_known hget
  transaction _ _ _ hget := hc.filed.txByBlockHashAndIndex_known hget

/-! ## Lookups by number -/

/-- The ancestor of `latest` with the number. -/
def AncestorAt (s : LookupNode) (n : Nat) (hd : Header) : Prop :=
  Lineage s.chain.com s.latestHeader hd ∧ hd.number = n

/-- The block of a successful lookup by number, with its own data. -/
structure NumberAnswers (s : LookupNode) : Prop where
  header : ∀ n hd, s.headerByNumber n = some hd → AncestorAt s n hd
  block : ∀ n blk, s.blockByNumber n = some blk →
    ∃ hd, AncestorAt s n hd ∧ blk = (hd, bodyOf s.contents hd)
  payloadV1 : ∀ n p, s.payloadBodyV1ByNumber n = some p →
    ∃ hd, AncestorAt s n hd ∧ p = toPayloadBodyV1 (bodyOf s.contents hd)
  payloadV2 : ∀ n p, s.payloadBodyV2ByNumber n = some p →
    ∃ hd, AncestorAt s n hd ∧ ∃ bal, p = toPayloadBodyV2 (bodyOf s.contents hd) bal ∧
      (bal = none ∨ bal = s.accessLists (s.chain.com.computeBlockHash hd))

theorem Filed.inTree_latest (hf : Filed n₀ s) : InTree s.chain s.chain.latest :=
  hf.inv.heads.inTree hf.inv.heads.latest_mem

theorem Filed.ancestorAt_of_anc (hf : Filed n₀ s)
    (hanc : Anc s.chain.parent s.chain.latest b) : AncestorAt s (s.chain.number b) (s.header b) :=
  ⟨hf.inv.linked.lineage hf.inTree_latest hanc, rfl⟩

theorem Filed.ancestorAt_of_canonical (hf : Filed n₀ s)
    (hn : n ≤ s.chain.number s.chain.base) (hnum : hd.number = n)
    (hcan : s.chain.canonical n = some (s.chain.com.computeBlockHash hd)) : AncestorAt s n hd := by
  have hl := hf.inv.linked
  obtain ⟨hd', hash, -, hline⟩ := hf.canonical_lineage hn hcan
  have heq : hd' = hd := hf.inj hash
  subst heq
  exact ⟨(hl.lineage hf.inTree_latest (hl.anc_base hf.inTree_latest)).trans hline, hnum⟩

/-- On the way down from a block at or above a number, the first block at or below the number
is the one with this number. -/
theorem find_chain {c : ForkedChainRef} (hl : Linked c) {n fuel it b : Nat} (hit : InTree c it)
    (hn : n ≤ c.number it)
    (hfind : (chain c.parent fuel (some it)).find? (c.number · ≤ n) = some b) :
    Anc c.parent it b ∧ c.number b = n := by
  induction fuel generalizing it with
  | zero => cases hfind
  | succ fuel ih =>
    rw [chain, List.find?_cons] at hfind
    by_cases hle : c.number it ≤ n
    · simp only [hle, decide_true, Option.some.injEq] at hfind
      subst hfind
      exact ⟨Anc.refl _, Nat.le_antisymm hle hn⟩
    · simp only [hle, decide_false] at hfind
      cases hp : c.parent it with
      | none =>
        rw [hp] at hfind
        cases fuel <;> cases hfind
      | some p =>
        rw [hp] at hfind
        have hnum := hl.number_parent hit hp
        obtain ⟨hanc, heq⟩ := ih (hl.inTree_parent hit hp) (by omega) hfind
        exact ⟨Anc.head hp hanc, heq⟩

theorem Filed.firstFromLatest_anc (hf : Filed n₀ s) {n b : Nat}
    (hn : n ≤ s.chain.number s.chain.latest) (hfind : s.firstFromLatest n = some b) :
    InTree s.chain b ∧ AncestorAt s n (s.header b) := by
  have hl := hf.inv.linked
  obtain ⟨hanc, heq⟩ := find_chain hl hf.inTree_latest hn hfind
  rw [← heq]
  exact ⟨hl.inTree_anc hf.inTree_latest hanc, hf.ancestorAt_of_anc hanc⟩

theorem known_of_canonical (hn : n ≤ s.chain.number s.chain.base) (hnum : hd.number = n)
    (hcan : s.chain.canonical n = some (s.chain.com.computeBlockHash hd)) :
    Known s (s.chain.com.computeBlockHash hd) hd := by
  subst hnum
  exact ⟨rfl, .inr ⟨hn, hcan⟩⟩

theorem Filed.headerByNumber_ancestorAt (hf : Filed n₀ s)
    (hget : s.headerByNumber n = some hd) : AncestorAt s n hd := by
  have hl := hf.inv.linked
  unfold LookupNode.headerByNumber at hget
  split at hget
  · cases hget
  · split at hget
    · next hlt =>
      have hn := Nat.le_of_lt hlt
      obtain ⟨hnum, hcan, -⟩ := (hf.getBlockHeaderByNumber_iff hn).mp hget
      exact hf.ancestorAt_of_canonical hn hnum hcan
    · obtain ⟨b, hfind, rfl⟩ := Option.map_eq_some_iff.mp hget
      have hanc := (hl.mem_ancestors hf.inTree_latest).mp (List.mem_of_find?_eq_some hfind)
      have hnum : n = s.chain.number b := by simpa using List.find?_some hfind
      rw [hnum]
      exact hf.ancestorAt_of_anc hanc

/-- A block is looked up by its number on the canonical chain, and in the tree above base. -/
theorem Filed.byNumber_cases {α : Type} {mem : BlockRef → Option α} {db : Header → Option α}
    {a : α} (hf : Filed n₀ s) (hget : (if n > s.chain.number s.chain.latest then none
      else if n ≤ s.chain.number s.chain.base then s.getBlockHeaderByNumber n >>= db
      else s.firstFromLatest n >>= mem) = some a) :
    (∃ hd, AncestorAt s n hd ∧ Known s (s.chain.com.computeBlockHash hd) hd ∧ db hd = some a) ∨
    (∃ b, InTree s.chain b ∧ AncestorAt s n (s.header b) ∧ mem b = some a) := by
  split at hget
  · cases hget
  · next hn =>
    split at hget
    · next hle =>
      obtain ⟨hd, hrecord, hget⟩ := Option.bind_eq_some_iff.mp hget
      obtain ⟨hnum, hcan, -⟩ := (hf.getBlockHeaderByNumber_iff hle).mp hrecord
      exact .inl ⟨hd, hf.ancestorAt_of_canonical hle hnum hcan,
        known_of_canonical hle hnum hcan, hget⟩
    · obtain ⟨b, hfind, hget⟩ := Option.bind_eq_some_iff.mp hget
      obtain ⟨hb, hat⟩ := hf.firstFromLatest_anc (Nat.le_of_not_lt hn) hfind
      exact .inr ⟨b, hb, hat, hget⟩

theorem Catalogued.numberAnswers (hc : Catalogued n₀ s) : NumberAnswers s where
  header _ _ hget := hc.filed.headerByNumber_ancestorAt hget
  block n blk hget := by
    rcases hc.filed.byNumber_cases hget with ⟨hd, hat, hknown, hget⟩ | ⟨b, hb, hat, hget⟩
    · rw [getBlockBody_of_stored (hc.known_stored hknown)] at hget
      cases hget
      exact ⟨hd, hat, rfl⟩
    · rw [hc.getEthBlock_inTree hb, Option.some.injEq] at hget
      exact ⟨_, hat, hget.symm⟩
  payloadV1 n p hget := by
    rcases hc.filed.byNumber_cases hget with ⟨hd, hat, hknown, hget⟩ | ⟨b, hb, hat, hget⟩
    · rw [getExecutionPayloadBodyV1_of_stored (hc.known_stored hknown), Option.some.injEq] at hget
      exact ⟨hd, hat, hget.symm⟩
    · rw [hc.getEthBlock_inTree hb] at hget
      cases hget
      exact ⟨_, hat, rfl⟩
  payloadV2 n p hget := by
    rcases hc.filed.byNumber_cases hget with ⟨hd, hat, hknown, hget⟩ | ⟨b, hb, hat, hget⟩
    · exact ⟨hd, hat, getExecutionPayloadBodyV2_of_stored (hc.known_stored hknown) rfl hget⟩
    · rw [hc.getEthBlock_inTree hb] at hget
      cases hget
      refine ⟨_, hat, s.accessLists (s.chain.hash b), rfl, .inr ?_⟩
      rw [hc.filed.inv.linked.hash_eq hb]
      rfl

/-! ## Lookups of transactions -/

/-- The block is on the lineage of `latest` in the tree, or canonical at or below the base. -/
def OnChain (s : LookupNode) (hd : Header) : Prop :=
  (∃ b, Anc s.chain.parent s.chain.latest b ∧ s.header b = hd) ∨
  (hd.number ≤ s.chain.number s.chain.base ∧
    s.chain.canonical hd.number = some (s.chain.com.computeBlockHash hd))

variable {txHash : Hash32} {i : Nat}

section

variable (hc : Catalogued n₀ s)
include hc

theorem Catalogued.findInMemory_some (hfind : s.findInMemory txHash = some (h, i)) :
    ∃ b, Anc s.chain.parent s.chain.latest b ∧ s.chain.hash b = h ∧
      Carries s.contents (s.header b) i txHash := by
  have hl := hc.filed.inv.linked
  obtain ⟨b, hb, hindex⟩ := List.exists_of_findSome?_eq_some hfind
  obtain ⟨index, hidx, heq⟩ := Option.map_eq_some_iff.mp hindex
  cases heq
  obtain ⟨hlt, hget, -⟩ := List.idxOf?_eq_some_iff.mp hidx
  have hne : b ≠ 0 := by
    intro h0
    unfold LookupNode.txHashes at hlt
    rw [if_pos h0] at hlt
    exact Nat.not_lt_zero _ hlt
  refine ⟨b, (hl.mem_ancestors hc.filed.inTree_latest).mp hb, rfl, (txHashes_getElem hne).mp ?_⟩
  rw [List.getElem?_eq_getElem hlt, hget]

theorem Catalogued.findInMemory_none (hfind : s.findInMemory txHash = none)
    (hanc : Anc s.chain.parent s.chain.latest b) (hne : b ≠ 0) :
    ¬ Carries s.contents (s.header b) i txHash := by
  have hl := hc.filed.inv.linked
  intro hcarries
  have hnone := List.findSome?_eq_none_iff.mp hfind b ((hl.mem_ancestors hc.filed.inTree_latest).mpr hanc)
  rw [Option.map_eq_none_iff, List.idxOf?_eq_none_iff] at hnone
  exact hnone (List.mem_of_getElem? ((txHashes_getElem hne).mpr hcarries))

/-- The blocks of the chain are those of the lineage of `latest`. -/
theorem Catalogued.onChain_lineage (hon : OnChain s hd) :
    Lineage s.chain.com s.latestHeader hd := by
  rcases hon with ⟨b, hanc, rfl⟩ | ⟨hn, hcan⟩
  · exact (hc.filed.ancestorAt_of_anc hanc).1
  · exact (hc.filed.ancestorAt_of_canonical hn rfl hcan).1

theorem Catalogued.headerByNumber_of_canonical
    (hn : hd.number ≤ s.chain.number s.chain.base)
    (hcan : s.chain.canonical hd.number = some (s.chain.com.computeBlockHash hd)) :
    s.headerByNumber hd.number = some hd := by
  have hl := hc.filed.inv.linked
  have hle := hl.number_base_le hc.filed.inTree_latest
  unfold LookupNode.headerByNumber
  rw [if_neg (by omega)]
  rcases Nat.lt_or_eq_of_le hn with hlt | heq
  · rw [if_pos hlt]
    exact hc.getBlockHeaderByNumber_of_canonical hn hcan
  · rw [if_neg (by omega)]
    have hbase : s.header s.chain.base = hd := by
      rw [heq, show s.chain.canonical _ = _ from hc.filed.inv.saved, Option.some.injEq,
        hl.hash_eq hl.base_mem] at hcan
      exact hc.filed.inj hcan
    -- only the base has this number on the lineage
    have hmem : s.chain.base ∈ s.ancestors s.chain.latest :=
      (hl.mem_ancestors hc.filed.inTree_latest).mpr (hl.anc_base hc.filed.inTree_latest)
    cases hfind : (s.ancestors s.chain.latest).find? (hd.number == s.chain.number ·) with
    | none =>
      have hno := List.find?_eq_none.mp hfind s.chain.base hmem
      rw [heq] at hno
      exact absurd (beq_self_eq_true _) hno
    | some b =>
      have hanc := (hl.mem_ancestors hc.filed.inTree_latest).mp (List.mem_of_find?_eq_some hfind)
      have hnum : hd.number = s.chain.number b := by simpa using List.find?_some hfind
      have hb := hl.eq_base_of_number (hl.inTree_anc hc.filed.inTree_latest hanc) (by omega)
      rw [Option.map_some, hb, hbase]

/-- A transaction is found in the block of the chain that carries it, at its index there. -/
theorem Catalogued.txDetailsByTxHash_iff :
    s.txDetailsByTxHash txHash = some (h, i) ↔
      ∃ hd, s.chain.com.computeBlockHash hd = h ∧ Carries s.contents hd i txHash ∧
        OnChain s hd := by
  have hl := hc.filed.inv.linked
  unfold LookupNode.txDetailsByTxHash
  cases hfind : s.findInMemory txHash with
  | some details =>
    obtain ⟨h', i'⟩ := details
    obtain ⟨b, hanc, rfl, hcarries⟩ := hc.findInMemory_some hfind
    have hb := hl.inTree_anc hc.filed.inTree_latest hanc
    have hhash : s.chain.com.computeBlockHash (s.header b) = s.chain.hash b := (hl.hash_eq hb).symm
    constructor
    · intro heq
      cases heq
      exact ⟨s.header b, hhash, hcarries, .inl ⟨b, hanc, rfl⟩⟩
    · rintro ⟨hd, rfl, hcarries', hon⟩
      -- the transaction is on the lineage once
      obtain ⟨hheader, hindex⟩ := hc.repeats _ hc.filed.inTree_latest _ _ _ _ _
        (hc.filed.ancestorAt_of_anc hanc).1 (hc.onChain_lineage hon) hcarries hcarries'
      rw [← hheader, hhash, hindex]
  | none =>
    simp only [Option.bind_eq_bind]
    constructor
    · intro hget
      split at hget
      · cases hget
      · next hnum =>
        obtain ⟨header, hheader, heq⟩ := Option.bind_eq_some_iff.mp hget
        cases heq
        unfold LookupNode.getTransactionKey at hnum hheader ⊢
        cases hkey : s.txKeys txHash with
        | none =>
          rw [hkey] at hnum
          exact absurd rfl hnum
        | some key =>
          rw [hkey] at hheader
          simp only [Option.getD_some] at hheader ⊢
          obtain ⟨hn, hd, hhd, hcan, hcarries⟩ := hc.indexed.sound txHash key hkey
          rw [← hhd] at hn hcan hheader
          rw [hc.headerByNumber_of_canonical hn hcan, Option.some.injEq] at hheader
          subst hheader
          exact ⟨hd, rfl, hcarries, .inr ⟨hn, hcan⟩⟩
    · rintro ⟨hd, rfl, hcarries, hon⟩
      have hcanonical : hd.number ≤ s.chain.number s.chain.base ∧
          s.chain.canonical hd.number = some (s.chain.com.computeBlockHash hd) := by
        rcases hon with ⟨b, hanc, rfl⟩ | hcanonical
        · have hb : b = 0 := by
            by_contra hne
            exact hc.findInMemory_none hfind hanc hne hcarries
          subst hb
          -- the first block does not keep its transactions, but it is the base
          have hbt := hl.inTree_anc hc.filed.inTree_latest hanc
          have hbase := hc.first hbt
          have hsaved : s.chain.canonical (s.chain.number s.chain.base) = _ := hc.filed.inv.saved
          rw [hbase, hl.hash_eq hbt] at hsaved
          exact ⟨by rw [hbase]; exact Nat.le_refl _, hsaved⟩
        · exact hcanonical
      obtain ⟨hn, hcan⟩ := hcanonical
      have hkey := hc.indexed.complete hd i txHash hn hcan hcarries
      have hnum : hd.number ≠ 0 := by
        intro hzero
        rw [hzero] at hcan
        exact hc.genesis hd hzero hcan i txHash hcarries
      unfold LookupNode.getTransactionKey
      rw [hkey, Option.getD_some, if_neg hnum]
      simp only [hc.headerByNumber_of_canonical hn hcan, Option.bind_some]
      rfl

end

end

/-! ## Runs -/

/-- The records that the node finds on disk: the number lookups below the saved block are those
of its ancestors, these have their header records and payloads, and the transaction lookups
are complete, and right where they lead to one of these blocks. -/
structure History {com : CommonRef} {db : SavedState com} (saved : SavedBlocks com db)
    (contents : Contents) (txKeys : Hash32 → Option TransactionKey) : Prop where
  law : ∀ hd, contents.header (com.computeBlockHash hd) = hd
  canonical : CanonicalBelow com db.canonical db.baseHeader
  header : ∀ n < db.baseHeader.number, ∀ h, db.canonical n = some h → saved.blocks.header h = true
  zero : saved.blocks.header zeroHash32 = false
  bodies : ∀ n < db.baseHeader.number, ∀ h, db.canonical n = some h →
    Stored saved.blocks h (contents.header h)
  repeats : NoRepeat com contents db.baseHeader
  genesis : ∀ hd, hd.number = 0 → db.canonical 0 = some (com.computeBlockHash hd) →
    ∀ i txHash, ¬ Carries contents hd i txHash
  sound : ∀ txHash key, txKeys txHash = some key → key.blockNumber ≤ db.baseHeader.number →
    ∃ hd, hd.number = key.blockNumber ∧
      db.canonical key.blockNumber = some (com.computeBlockHash hd) ∧
      Carries contents hd key.index txHash
  complete : ∀ hd i txHash, hd.number ≤ db.baseHeader.number →
    db.canonical hd.number = some (com.computeBlockHash hd) → Carries contents hd i txHash →
    txKeys txHash = some ⟨hd.number, i⟩

section

variable {com : CommonRef} {db : SavedState com} {saved : SavedBlocks com db}
  {contents : Contents} {txKeys : Hash32 → Option TransactionKey}

theorem catalogued_init (history : History saved contents txKeys)
    (hkeys : ∀ txHash key, txKeys txHash = some key → key.blockNumber ≤ db.baseHeader.number)
    (accessLists : Hash32 → Option BlockAccessList) (baseDistance : Nat)
    (persistBatchSize : { size : Nat // size > 0 }) (dynamicBatchSize : Bool) :
    Catalogued db.baseHeader.number (LookupNode.init saved contents txKeys accessLists
      baseDistance persistBatchSize dynamicBatchSize) := by
  have hinj : Function.Injective com.computeBlockHash := Function.LeftInverse.injective history.law
  obtain ⟨hzero, -⟩ := init_blocks saved baseDistance persistBatchSize dynamicBatchSize
  have hmem := fun {b} =>
    init_inTree saved baseDistance persistBatchSize dynamicBatchSize (b := b)
  obtain ⟨hinv, -, -⟩ := inv_init com db baseDistance persistBatchSize dynamicBatchSize
  -- the blocks that the number lookups below the saved block lead to
  let H : Set Header := {hd | hd.number < db.baseHeader.number ∧
    db.canonical hd.number = some (com.computeBlockHash hd)}
  have hstored : ∀ hd ∈ H, Stored saved.blocks (com.computeBlockHash hd) hd := by
    rintro hd ⟨hlt, hcan⟩
    have hbodies := history.bodies hd.number hlt _ hcan
    rw [history.law] at hbodies
    exact hbodies
  have hbacked := backed_init_history saved baseDistance persistBatchSize dynamicBatchSize hinj
    (fun hd hhd => hhd.1) hstored
  generalize hs : ChainNode.init saved baseDistance persistBatchSize dynamicBatchSize = s at *
  have hchain : s.chain = ForkedChainRef.init com db baseDistance persistBatchSize
    dynamicBatchSize := by rw [← hs]; rfl
  have hbase : (s.chain.blocks s.chain.base).header = db.baseHeader := by
    rw [show s.chain.base = 0 by rw [hchain]; rfl, hzero]
  have hnumber : s.chain.number s.chain.base = db.baseHeader.number := congrArg Header.number hbase
  have hcanonical : s.chain.canonical = db.canonical := by rw [hchain]; rfl
  have hcom : s.chain.com = com := by rw [hchain]; rfl
  have hdb : s.db = saved.blocks := by rw [← hs]; rfl
  have hinit : LookupNode.init saved contents txKeys accessLists baseDistance persistBatchSize
      dynamicBatchSize = ⟨s, contents, txKeys, accessLists⟩ := by rw [← hs]; rfl
  rw [← hchain] at hinv
  rw [hinit]
  constructor
  · show ∀ hd, contents.header (s.chain.com.computeBlockHash hd) = hd
    rw [hcom]
    exact history.law
  · refine ⟨H, ⟨hinv, hbacked, ?_⟩, ⟨?_, ?_⟩, ?_⟩
    · rw [hcom, hcanonical, hbase]
      exact history.canonical
    · rw [hcom, hdb]
      exact fun hd hhd => history.header hd.number hhd.1 _ hhd.2
    · rw [hdb]
      exact history.zero
    · rw [hcom, hcanonical, hnumber]
      intro n hn h hcan
      obtain ⟨hd, rfl, rfl, -⟩ := history.canonical n hn h hcan
      exact ⟨hd, ⟨hn, hcan⟩, rfl⟩
  · intro _
    show s.chain.base = 0
    rw [hchain]
    rfl
  · intro b hb
    have hb0 := hmem.mp hb
    show NoRepeat s.chain.com contents (s.chain.blocks b).header
    rw [hb0, hzero, hcom]
    exact history.repeats
  · constructor
    · show ∀ txHash key, txKeys txHash = some key → key.blockNumber ≤ s.chain.number s.chain.base ∧ _
      intro txHash key hkey
      have hn := hkeys txHash key hkey
      obtain ⟨hd, hhd, hcan, hcarries⟩ := history.sound txHash key hkey hn
      refine ⟨by rw [hnumber]; exact hn, hd, hhd, ?_, hcarries⟩
      show s.chain.canonical _ = some (s.chain.com.computeBlockHash hd)
      rw [hcanonical, hcom]
      exact hcan
    · show ∀ hd i txHash, hd.number ≤ s.chain.number s.chain.base →
        s.chain.canonical hd.number = some (s.chain.com.computeBlockHash hd) → _
      rw [hnumber, hcanonical, hcom]
      exact history.complete
  · show ∀ hd, hd.number = 0 → s.chain.canonical 0 = some (s.chain.com.computeBlockHash hd) → _
    rw [hcanonical, hcom]
    exact history.genesis

theorem LookupNode_run_keeps {n₀ : Nat} {P : Set Header} {s s' : LookupNode}
    {events : List (Env × Event)} (hk : Backed n₀ P s.node) (hrun : s.run events = .ok s') :
    s'.chain.com = s.chain.com ∧ s'.contents = s.contents := by
  have hstep : ∀ (t : LookupNode) (x : Env × Event) (t' : LookupNode),
      (t.chain.com = s.chain.com ∧ t.contents = s.contents ∧ ∃ P, Backed n₀ P t.node) → True →
      t.step x.1 x.2 = .ok t' →
      t'.chain.com = s.chain.com ∧ t'.contents = s.contents ∧ ∃ P, Backed n₀ P t'.node := by
    intro t x t' ⟨hcom, hcontents, P, hk⟩ _ h
    obtain ⟨hnode, hcontents', -, -⟩ := LookupNode_step_eq h
    exact ⟨(step_com (hk.step_chain_ok hnode)).trans hcom, hcontents'.trans hcontents, _,
      hk.step hnode⟩
  have hend := StepRun.invariant
    (fun t => t.chain.com = s.chain.com ∧ t.contents = s.contents ∧ ∃ P, Backed n₀ P t.node)
    hstep ⟨rfl, rfl, P, hk⟩ StepRun.stepsOk_true hrun
  exact ⟨hend.1, hend.2.1⟩

end

def recordSaved : SavedBlocks pairCom pairDb where
  blocks := { bodies := fun _ => {}, header := (· == pairDb.baseHash),
              score := (· == pairDb.baseHash), startOfHistory := zeroHash32 }
  header_base := beq_self_eq_true _
  score_base := beq_self_eq_true _
  bodies_base _ hk := nomatch hk

variable {hd : Header}

theorem pairContents_carries {i : Nat} {txHash : Hash32} :
    Carries pairContents hd i txHash ↔ hd.txRoot ≠ EMPTY_ROOT_HASH ∧ i = 0 ∧ hd.txRoot = txHash := by
  show (((if hd.txRoot = EMPTY_ROOT_HASH then [] else [⟨hd.txRoot⟩]) : List Transaction)[i]?).map
    (·.hash) = some txHash ↔ _
  by_cases hroot : hd.txRoot = EMPTY_ROOT_HASH
  · simp [hroot]
  · cases i with
    | zero => simp [hroot]
    | succ i => simp [hroot]

theorem lineage_base {a : Header} (h : Lineage pairCom pairDb.baseHeader a) :
    a = pairDb.baseHeader := by
  rcases Relation.ReflTransGen.cases_head h with heq | ⟨p, hp, -⟩
  · exact heq.symm
  · exact absurd hp.2 (Nat.succ_ne_zero _).symm

theorem baseHeader_carries {i : Nat} {txHash : Hash32} :
    ¬ Carries pairContents pairDb.baseHeader i txHash := fun h =>
  (pairContents_carries.mp h).1 rfl

/-- A child of block 0 carries no transaction twice, nor does block 0. -/
theorem noRepeat_child (hline : ∀ a, Lineage pairCom hd a →
    a = hd ∨ a = pairDb.baseHeader) : NoRepeat pairCom pairContents hd := by
  intro a a' i i' txHash ha ha' hcarries hcarries'
  rcases hline a ha with rfl | rfl
  · rcases hline a' ha' with rfl | rfl
    · exact ⟨rfl, (pairContents_carries.mp hcarries).2.1.trans
        (pairContents_carries.mp hcarries').2.1.symm⟩
    · exact absurd hcarries' baseHeader_carries
  · exact absurd hcarries baseHeader_carries

theorem lineage_child {a : Header} (hparent : hd.parentHash = pairDb.baseHash)
    (h : Lineage pairCom hd a) : a = hd ∨ a = pairDb.baseHeader := by
  rcases Relation.ReflTransGen.cases_head h with heq | ⟨p, hp, hrest⟩
  · exact .inl heq.symm
  · have heq : p = pairDb.baseHeader := pairCom_injective (hp.1.symm.trans hparent)
    subst heq
    exact .inr (lineage_base hrest)

theorem canonical_base {n : Nat}
    (h : pairDb.canonical n = some (pairCom.computeBlockHash hd)) : hd = pairDb.baseHeader :=
  (pairCom_injective (Option.some.inj h)).symm

/-- The history of block 0, with whatever lookups for blocks above it. -/
theorem recordSaved_history {txKeys : Hash32 → Option TransactionKey}
    (hkeys : ∀ txHash key, txKeys txHash = some key → key.blockNumber ≠ 0) :
    History recordSaved pairContents txKeys where
  law := pairContents_header
  canonical := pairDb_canonicalBelow
  header n hn := absurd hn (Nat.not_lt_zero n)
  zero := beq_false_of_ne (Ne.symm (pairCom.hash_ne_zero _))
  bodies n hn := absurd hn (Nat.not_lt_zero n)
  repeats := noRepeat_child fun a ha => .inr (lineage_base ha)
  genesis hd _ hcan i txHash hcarries := by
    rw [canonical_base hcan] at hcarries
    exact baseHeader_carries hcarries
  sound txHash key hkey hn := absurd (Nat.le_zero.mp hn) (hkeys txHash key hkey)
  complete hd i txHash _ hcan hcarries := by
    rw [canonical_base hcan] at hcarries
    exact absurd hcarries baseHeader_carries

noncomputable def recordStart (txKeys : Hash32 → Option TransactionKey) : LookupNode :=
  LookupNode.init recordSaved pairContents txKeys (fun _ => none) 3 ⟨1, Nat.zero_lt_one⟩ false

def recordChain : ForkedChainRef :=
  (ChainNode.init recordSaved 3 ⟨1, Nat.zero_lt_one⟩ false).chain

/-- Nothing has been finalized yet, so the import prunes nothing and moves no base. -/
theorem recordChain_importOk
    (hattempt : attempt recordChain (.importBlock ⟨hd⟩ false) = some (0, ⟨hd⟩, false))
    (hforward : (resolvePending recordChain ⟨hd⟩).autoForward = false) :
    InvStepOk recordChain sampleEnv (.importBlock ⟨hd⟩ false) := by
  constructor
  · intro _ _ _ _ _ h
    cases h
  · intro parent blk hatt harm
    obtain ⟨finalized, hatt, -⟩ := hatt
    rw [hattempt] at hatt
    cases hatt
    cases harm
  · intro ⟨i, h, _⟩
    cases h

theorem recordStart_importOk (txKeys : Hash32 → Option TransactionKey)
    (hparent : hd.parentHash = pairDb.baseHash)
    (hattempt : attempt recordChain (.importBlock ⟨hd⟩ false) = some (0, ⟨hd⟩, false))
    (hforward : (resolvePending recordChain ⟨hd⟩).autoForward = false) :
    StepRun.StepsOk (fun s (env, e) => LookupNode.step s env e) LookupStepOk (recordStart txKeys)
      [(sampleEnv, .importBlock ⟨hd⟩ false)] := by
  have hchain : (recordStart txKeys).chain = recordChain := rfl
  refine ⟨⟨recordChain_importOk hattempt hforward, ?_⟩, fun _ _ => trivial⟩
  intro parent blk hatt
  obtain ⟨finalized, hatt, -⟩ := hatt
  rw [hchain, hattempt] at hatt
  cases hatt
  exact noRepeat_child fun a => lineage_child hparent

/-- A crash before the base moved has left the lookup of a transaction of a block 1. -/
def crashedKeys : Hash32 → Option TransactionKey := fun txHash =>
  if txHash = 7 then some ⟨1, 0⟩ else none

/-- After the restart another block 1 comes in, which carries no transaction. -/
def emptyHeader : Header := sampleHeader pairDb.baseHash 1 0

end Nimbus.Spec.ForkedChain
