import Nimbus.Spec.TxPoolPack

/-!
# Runs of the transaction pool

In every run the tables of the pool fit together and keep their limits, and no entry of the
blob table outlives its transaction. That every blob of the pool is found is another matter.
`removeLookup` deletes the entry of a blob hash no matter which transaction it leads to. So
when a transaction leaves the pool, its blobs get lost for those that still carry them.
-/

namespace Nimbus.Spec.TxPool

open Nimbus.Native.TxPool
open Nimbus.Native.Aristo (Hash32)
open KeyIndex (Complete Dropped)
open TxPoolRef

section
variable [TxVm] [TxRules] {xp xp' : TxPoolRef} {item : TxItem}

/-- The blob at the given index has the hash `v`. -/
def HasBlob (item : TxItem) (blobIndex : Nat) (v : Hash32) : Prop :=
  ∃ bundle, item.ptx.blobsBundle = some bundle ∧ blobIndex < bundle.blobs.length ∧
    bundle.commitments[blobIndex]?.map TxRules.kzgToVersionedHash = some v

/-- Every versioned hash is that of a blob. -/
def Vetted (item : TxItem) : Prop :=
  ∀ (i : Nat) (v : Hash32), (hashes item)[i]? = some v → HasBlob item i v

/-- The invariant of a pool with default flags. -/
structure PoolWf (xp : TxPoolRef) : Prop where
  flags : xp.flags = []
  tabs : Wf xp.toTxTabs
  vetted : ∀ item ∈ Pooled xp.toTxTabs, Vetted item

/-- The blob hashes of all transactions are on the blob table. -/
def Found (xp : TxPoolRef) : Prop := Complete hashes (Pooled xp.toTxTabs) xp.blobTab

/-- Transactions have left the pool. -/
structure Purged (xp xp' : TxPoolRef) : Prop where
  flags : xp'.flags = xp.flags
  shrunk : Shrunk xp.toTxTabs xp'.toTxTabs

namespace Purged

omit [TxRules] in
theorem refl (h : Wf xp.toTxTabs) : Purged xp xp := ⟨rfl, .refl h⟩

omit [TxRules] in
theorem trans {xp'' : TxPoolRef} (h : Purged xp xp') (h' : Purged xp' xp'') : Purged xp xp'' :=
  ⟨h'.flags.trans h.flags, h.shrunk.trans h'.shrunk⟩

theorem wf (h : Purged xp xp') (hw : PoolWf xp) : PoolWf xp' where
  flags := h.flags.trans hw.flags
  tabs := h.shrunk.wf
  vetted item hitem := hw.vetted item (h.shrunk.subset hitem)

omit [TxRules] in
theorem found (h : Purged xp xp') (hf : Found xp)
    (hshare : ∀ x y, x ∈ Pooled xp.toTxTabs → x ∉ Pooled xp'.toTxTabs → y ∈ Pooled xp'.toTxTabs →
      ∀ v ∈ hashes x, v ∉ hashes y) : Found xp' :=
  (h.shrunk.dropped.complete_iff hf).mpr hshare

end Purged

/-! ## Removing transactions -/

omit [TxRules] in
theorem removeTx_spec (hflags : xp.flags = []) (hw : Wf xp.toTxTabs) (id : Hash32) :
    Purged xp (xp.removeTx id) ∧
      ∀ x, x ∈ Pooled (xp.removeTx id).toTxTabs ↔ x ∈ Pooled xp.toTxTabs ∧ x.id ≠ id := by
  unfold removeTx
  split
  next hnone =>
    refine ⟨.refl hw, fun x => ⟨fun hx => ⟨hx, ?_⟩, fun hx => hx.1⟩⟩
    rintro rfl
    have hx' : xp.idTab.lookup x.id = some x := hx
    rw [hnone] at hx'
    cases hx'
  next item hlook =>
    have hid := hw.id id item hlook
    have hitem := hw.pooled_of_lookup hlook
    have hnot : TxPoolFlag.XP_ORDERED ∉ xp.flags := by simp [hflags]
    rw [if_neg hnot, ← hid]
    dsimp only
    have hrem := removeFromSenderTab_spec (hw.filed item hitem)
    have hblob : (xp.toTxTabs.removeFromSenderTab item).blobTab = xp.blobTab ∧
        (xp.toTxTabs.removeFromSenderTab item).idTab = xp.idTab := by
      unfold TxTabs.removeFromSenderTab
      split
      · exact ⟨rfl, rfl⟩
      · dsimp only
        split
        · exact ⟨rfl, rfl⟩
        · exact ⟨rfl, rfl⟩
    rw [hblob.1, hblob.2]
    refine ⟨⟨rfl, hrem.shrunk hw hitem⟩, fun x => ?_⟩
    rw [show x ∈ Pooled _ ↔ _ from hrem.pooled hitem x]
    apply and_congr_right
    intro hx
    constructor
    · exact fun hne hxid => hne (eq_of_id _ hx hitem hxid)
    · rintro hne rfl
      exact hne rfl

omit [TxRules] in
theorem removeTxs_spec (hflags : xp.flags = []) (hw : Wf xp.toTxTabs) (ids : List Hash32) :
    Purged xp (xp.removeTxs ids) ∧
      ∀ x, x ∈ Pooled (xp.removeTxs ids).toTxTabs ↔ x ∈ Pooled xp.toTxTabs ∧ x.id ∉ ids := by
  unfold removeTxs
  induction ids generalizing xp with
  | nil => exact ⟨.refl hw, fun x => by simp⟩
  | cons id ids ih =>
    obtain ⟨hone, hmem⟩ := removeTx_spec hflags hw id
    obtain ⟨hrest, hmem'⟩ := ih (hone.flags.trans hflags) hone.shrunk.wf
    rw [List.foldl_cons]
    refine ⟨hone.trans hrest, fun x => ?_⟩
    rw [hmem', hmem, List.mem_cons, not_or, and_assoc]

/-- Too old at the time `now`. -/
def Expired (lifeTime now : Int) (item : TxItem) : Prop := lifeTime < now - item.time

omit [TxRules] in
theorem removeExpiredTxs_spec (hflags : xp.flags = []) (hw : Wf xp.toTxTabs) (lifeTime now : Int) :
    Purged xp (xp.removeExpiredTxs lifeTime now) ∧
      ∀ x, x ∈ Pooled (xp.removeExpiredTxs lifeTime now).toTxTabs ↔
        x ∈ Pooled xp.toTxTabs ∧ ¬ Expired lifeTime now x := by
  obtain ⟨hpurged, hmem⟩ := removeTxs_spec hflags hw (xp.expired lifeTime now)
  refine ⟨hpurged, fun x => (hmem x).trans (and_congr_right fun hx => not_congr ?_)⟩
  unfold expired
  rw [List.mem_map]
  constructor
  · rintro ⟨⟨id, y⟩, hent, hid⟩
    rw [List.mem_filter] at hent
    have hy : xp.idTab.lookup id = some y := AList.mem_lookup_iff.mpr hent.1
    have hx' : xp.idTab.lookup x.id = some x := hx
    have hid' : id = x.id := hid
    rw [hid', hx'] at hy
    have hold : lifeTime < now - y.time := of_decide_eq_true hent.2
    rw [← Option.some.inj hy] at hold
    exact hold
  · intro hold
    exact ⟨⟨x.id, x⟩, List.mem_filter.mpr ⟨AList.mem_lookup_iff.mp hx, decide_eq_true hold⟩, rfl⟩

/-! ## Adding transactions -/

theorem validateWrapper_spec {ptx : PooledTransaction} {fork : Nimbus.Native.Evm.EVMFork}
    (h : validateBlobTransactionWrapper ptx fork = true) : ∃ bundle, ptx.blobsBundle = some bundle ∧
      ptx.tx.versionedHashes.length = bundle.blobs.length ∧
      ptx.tx.versionedHashes = bundle.commitments.map TxRules.kzgToVersionedHash := by
  unfold validateBlobTransactionWrapper at h
  split at h
  · cases h
  next bundle hbundle =>
    have hof : ∃ n, validateBlobTransactionWrapperOf ptx.tx bundle n = true := by
      split at h
      · split at h
        · cases h
        · exact ⟨_, h⟩
      · split at h
        · cases h
        · exact ⟨_, h⟩
    obtain ⟨n, hn⟩ := hof
    unfold validateBlobTransactionWrapperOf at hn
    rw [decide_eq_true_eq] at hn
    exact ⟨bundle, hbundle, hn.2.1, hn.2.2.2.2.2⟩

theorem vetTx_spec (hflags : xp.flags = []) {ptx : PooledTransaction} {now : Int}
    (h : xp.vetTx ptx now = .ok item) : Vetted item ∧ xp.idTab.lookup item.id = none ∧
      item.ptx = ptx ∧ TxRules.recoverSender ptx.tx = some item.sender := by
  unfold vetTx at h
  dsimp only at h
  generalize (if ptx.tx.txType = .TxEip4844 then BLOB_TX_MAX_SIZE else TX_MAX_SIZE) = limit at h
  split at h
  · cases h
  split at h
  · cases h
  split at h
  · cases h
  next hknown =>
    split at h
    · cases h
    next sender hsender =>
      split at h
      · cases h
      split at h
      · cases h
      split at h
      · cases h
      next hblob =>
        split at h
        · cases h
        cases h
        refine ⟨?_, by simpa using hknown, rfl, hsender⟩
        intro i v hv
        -- only a blob transaction has hashes, and its wrapper was checked
        have hne : ptx.tx.versionedHashes ≠ [] := by
          intro hnil
          have hv' : ptx.tx.versionedHashes[i]? = some v := hv
          rw [hnil] at hv'
          cases hv'
        have hwrap : validateBlobTransactionWrapper ptx xp.vmState.fork = true := by
          by_contra hno
          exact hblob ⟨ptx.tx.hashes_eip4844 hne, by simp [hflags], by simpa using hno⟩
        obtain ⟨bundle, hbundle, hlen, hhashes⟩ := validateWrapper_spec hwrap
        refine ⟨bundle, hbundle, ?_, ?_⟩
        · rw [← hlen]
          exact (List.getElem?_eq_some_iff.mp hv).1
        · rw [← List.getElem?_map, ← hhashes]
          exact hv

section

omit [TxRules]

theorem insert_spec (hflags : xp.flags = []) (hw : Wf xp.toTxTabs)
    (hnew : xp.idTab.lookup item.id = none) : (xp.insert item).1 = xp ∨
      Inserted xp.toTxTabs (xp.insert item).1.toTxTabs item
        (slot xp.toTxTabs item.sender item.nonce) ∧ (xp.insert item).1.flags = xp.flags := by
  have hnot : TxPoolFlag.XP_ORDERED ∉ xp.flags := by simp [hflags]
  unfold TxPoolRef.insert
  rw [if_neg hnot]
  cases hins : xp.insertToSenderTab item with
  | error e => exact .inl rfl
  | ok tabs => exact .inr ⟨insertToSenderTab_spec hw hnew hins, rfl⟩

theorem anchor_toTxTabs (xp : TxPoolRef) :
    xp.anchor.toTxTabs = xp.toTxTabs ∧ xp.anchor.flags = xp.flags := by
  unfold anchor
  split
  · exact ⟨rfl, rfl⟩
  · split
    · exact ⟨rfl, rfl⟩
    · exact ⟨rfl, rfl⟩

theorem purge_spec (hflags : xp.flags = []) (hw : Wf xp.toTxTabs) (now : Int) :
    Purged xp (xp.purge now) ∧ ∀ x, x ∈ Pooled (xp.purge now).toTxTabs ↔ x ∈ Pooled xp.toTxTabs ∧
      ¬ (MAX_POOL_SIZE ≤ xp.len ∧ Expired TX_ITEM_LIFETIME now x) := by
  unfold purge
  split
  next hfull =>
    obtain ⟨hpurged, hmem⟩ := removeExpiredTxs_spec hflags hw TX_ITEM_LIFETIME now
    refine ⟨hpurged, fun x => ?_⟩
    rw [hmem, and_iff_right hfull]
  next hroom => exact ⟨.refl hw, fun x => by simp [hroom]⟩

end

/-! ## Blocks -/

/-- The ledger on which `assembleBlock` starts to pack. -/
def packLedger (xp : TxPoolRef) (parentHash : Hash32) (gasLimit : Option Nat) : TxVm.Ledger :=
  TxVm.vmExecInit gasLimit (xp.chain.setupVMState parentHash xp.timestamp).ledger

omit [TxRules] in
theorem assembleBlock_spec (hflags : xp.flags = []) (hw : Wf xp.toTxTabs) (parentHash : Hash32)
    (gasLimit : Option Nat) : Purged xp (xp.assembleBlock parentHash gasLimit) ∧
      (∀ x ∈ Pooled xp.toTxTabs, x ∉ Pooled (xp.assembleBlock parentHash gasLimit).toTxTabs →
        xp.chain.hasHeader parentHash = true ∧ (Stale (packLedger xp parentHash gasLimit) x ∨
          Outdated (xp.chain.setupVMState parentHash xp.timestamp).fork x)) ∧
      (xp.chain.hasHeader parentHash = true →
        ∀ y ∈ Pooled (xp.assembleBlock parentHash gasLimit).toTxTabs,
          ¬ Stale (packLedger xp parentHash gasLimit) y) := by
  have hnot : TxPoolFlag.XP_ORDERED ∉ xp.flags := by simp [hflags]
  unfold assembleBlock
  split
  next hheader =>
    obtain ⟨hheads, hnone⟩ := heads_spec hw (packLedger xp parentHash gasLimit)
      (xp.chain.setupVMState parentHash xp.timestamp).fork
    have hpack := packByPrice_spec (xp.chain.setupVMState parentHash xp.timestamp).fork
      hheads.shrunk.wf (xp.chain.setupVMState parentHash xp.timestamp).baseFee xp.total
      (packLedger xp parentHash gasLimit)
      (heads xp.toTxTabs (packLedger xp parentHash gasLimit)
        (xp.chain.setupVMState parentHash xp.timestamp).fork).2
    have hleft := hheads.trans (hpack.mono fun x => .inr)
    have htabs : ((xp.updateVmState parentHash).packerVmExec gasLimit).toTxTabs =
        (packByPrice (xp.chain.setupVMState parentHash xp.timestamp).baseFee
          (xp.chain.setupVMState parentHash xp.timestamp).fork xp.total
          (heads xp.toTxTabs (packLedger xp parentHash gasLimit)
            (xp.chain.setupVMState parentHash xp.timestamp).fork).1
          (packLedger xp parentHash gasLimit)
          (heads xp.toTxTabs (packLedger xp parentHash gasLimit)
            (xp.chain.setupVMState parentHash xp.timestamp).fork).2).1 := by
      show (if TxPoolFlag.XP_ORDERED ∈ xp.flags then _ else _ : TxTabs × TxVm.Ledger).1 = _
      rw [if_neg hnot]
      rfl
    rw [htabs]
    refine ⟨⟨rfl, ?_⟩, fun x hx hno => ⟨hheader, hleft.why x hx hno⟩, fun _ y hy => ?_⟩
    · rw [htabs]
      exact hleft.shrunk
    · exact hnone y (hpack.shrunk.subset hy)
  next hheader =>
    exact ⟨.refl hw, fun x hx hno => absurd hx hno, fun h => absurd h hheader⟩

/-! ## Steps -/

/-- No transaction that may leave carries a blob of another one that may stay. -/
def Apart (xp : TxPoolRef) (leaves stays : TxItem → Prop) : Prop :=
  ∀ x ∈ Pooled xp.toTxTabs, ∀ y ∈ Pooled xp.toTxTabs, leaves x → stays y → x ≠ y →
    ∀ v ∈ hashes x, v ∉ hashes y

/-- The transaction with the sender and the nonce of `ptx` carries no blob of any other one,
unless `ptx` carries it too. -/
def ReplacesApart (xp : TxPoolRef) (ptx : PooledTransaction) : Prop :=
  ∀ x ∈ Pooled xp.toTxTabs, ∀ y ∈ Pooled xp.toTxTabs, TxRules.recoverSender ptx.tx = some x.sender →
    ptx.tx.nonce = x.nonce → x ≠ y → ∀ v ∈ hashes x, v ∈ hashes y → v ∈ ptx.tx.versionedHashes

/-- The step takes away no blob that a transaction which stays in the pool carries. -/
def Unshared (xp : TxPoolRef) : Event → Prop
  | .chain _ => True
  | .timestamp _ => True
  | .addTx ptx now =>
    (MAX_POOL_SIZE ≤ xp.len →
      Apart xp (Expired TX_ITEM_LIFETIME now) fun y => ¬ Expired TX_ITEM_LIFETIME now y) ∧
    ReplacesApart xp ptx
  | .removeTx id => Apart xp (fun x => x.id = id) fun y => y.id ≠ id
  | .removeExpiredTxs lifeTime now =>
    Apart xp (Expired lifeTime now) fun y => ¬ Expired lifeTime now y
  | .removeNewBlockTxs blk optHash =>
    Apart xp (fun x => x.id ∈ xp.newBlockTxs blk optHash) fun y => y.id ∉ xp.newBlockTxs blk optHash
  | .assembleBlock parentHash gasLimit =>
    xp.chain.hasHeader parentHash = true →
      Apart xp (fun x => Stale (packLedger xp parentHash gasLimit) x ∨
          Outdated (xp.chain.setupVMState parentHash xp.timestamp).fork x)
        fun y => ¬ Stale (packLedger xp parentHash gasLimit) y

omit [TxRules] in
/-- Transactions leave, and none of their blobs is carried by one that stays. -/
theorem Purged.found_of_apart {leaves stays : TxItem → Prop} (h : Purged xp xp') (hf : Found xp)
    (hapart : Apart xp leaves stays)
    (hleaves : ∀ x ∈ Pooled xp.toTxTabs, x ∉ Pooled xp'.toTxTabs → leaves x)
    (hstays : ∀ y ∈ Pooled xp'.toTxTabs, stays y) : Found xp' := by
  apply h.found hf
  intro x y hx hno hy
  refine hapart x hx y (h.shrunk.subset hy) (hleaves x hx hno) (hstays y hy) ?_
  rintro rfl
  exact hno hy

theorem addTx_spec (h : PoolWf xp) (ptx : PooledTransaction) (now : Int) :
    PoolWf (xp.addTx ptx now).1 ∧
      (Unshared xp (.addTx ptx now) → Found xp → Found (xp.addTx ptx now).1) := by
  obtain ⟨htabs, hflags⟩ := anchor_toTxTabs xp
  have hw : PoolWf xp.anchor := ⟨hflags.trans h.flags, htabs ▸ h.tabs, htabs ▸ h.vetted⟩
  have hfound : Found xp → Found xp.anchor := fun hf => by
    unfold Found
    rw [htabs]
    exact hf
  unfold addTx
  dsimp only
  cases hvet : xp.anchor.vetTx ptx now with
  | error e => exact ⟨hw, fun _ => hfound⟩
  | ok item =>
    obtain ⟨hvetted, hnew, rfl, hsender⟩ := vetTx_spec hw.flags hvet
    obtain ⟨hpurged, hmem⟩ := purge_spec hw.flags hw.tabs now
    have hw' := hpurged.wf hw
    have hfound' : Unshared xp (.addTx item.ptx now) → Found xp → Found (xp.anchor.purge now) := by
      intro hun hf
      by_cases hfull : MAX_POOL_SIZE ≤ xp.anchor.len
      · have hlen : xp.anchor.len = xp.len := congrArg (fun tabs : TxTabs => Table.len tabs.idTab) htabs
        have hapart := hun.1 (hlen ▸ hfull)
        unfold Apart at hapart
        rw [← htabs] at hapart
        apply hpurged.found_of_apart (hfound hf) hapart
        · intro x hx hno
          by_contra hexp
          exact hno ((hmem x).mpr ⟨hx, fun hboth => hexp hboth.2⟩)
        · intro y hy hexp
          exact ((hmem y).mp hy).2 ⟨hfull, hexp⟩
      · have hsame : xp.anchor.purge now = xp.anchor := if_neg hfull
        rw [hsame]
        exact hfound hf
    dsimp only
    split
    · exact ⟨hw', hfound'⟩
    next hroom =>
      have hnew' : (xp.anchor.purge now).idTab.lookup item.id = none := by
        by_contra hsome
        obtain ⟨y, hy⟩ := Option.ne_none_iff_exists'.mp hsome
        have hyid := hw'.tabs.id _ y hy
        have hy' : xp.anchor.idTab.lookup y.id = some y :=
          hpurged.shrunk.subset (hw'.tabs.pooled_of_lookup hy)
        rw [hyid, hnew] at hy'
        cases hy'
      obtain hsame | ⟨hins, hflags'⟩ := insert_spec hw'.flags hw'.tabs hnew'
      · rw [hsame]
        exact ⟨hw', hfound'⟩
      · refine ⟨⟨hflags'.trans hw'.flags, hins.wf hw'.tabs hnew' (not_le.mp hroom), fun x hx => ?_⟩,
          fun hun hf => ?_⟩
        · obtain rfl | ⟨hx', -⟩ := (hins.pooled hw'.tabs hnew' x).mp hx
          · exact hvetted
          · exact hw'.vetted x hx'
        · apply hins.complete hw'.tabs hnew' (hfound' hun hf)
          intro x hx y hy hne
          -- `x` is the one that `item` replaces
          obtain ⟨hs, hn, hx'⟩ := hw'.tabs.own _ _ x hx
          have hin : ∀ z, z ∈ Pooled (xp.anchor.purge now).toTxTabs → z ∈ Pooled xp.toTxTabs := by
            intro z hz
            rw [← htabs]
            exact hpurged.shrunk.subset hz
          exact hun.2 x (hin x hx') y (hin y hy) (hs ▸ hsender) hn.symm (Ne.symm hne)

/-- What a step keeps, and when it keeps the blobs of all transactions. -/
theorem step_spec (h : PoolWf xp) (event : Event) :
    PoolWf (xp.step event) ∧ (Unshared xp event → Found xp → Found (xp.step event)) := by
  cases event with
  | chain chain => exact ⟨⟨h.flags, h.tabs, h.vetted⟩, fun _ hf => hf⟩
  | timestamp timestamp => exact ⟨⟨h.flags, h.tabs, h.vetted⟩, fun _ hf => hf⟩
  | addTx ptx now => exact addTx_spec h ptx now
  | removeTx id =>
    obtain ⟨hpurged, hmem⟩ := removeTx_spec h.flags h.tabs id
    refine ⟨hpurged.wf h, fun hun hf => hpurged.found_of_apart hf hun ?_ ?_⟩
    · intro x hx hno
      by_contra hne
      exact hno ((hmem x).mpr ⟨hx, hne⟩)
    · exact fun y hy => ((hmem y).mp hy).2
  | removeExpiredTxs lifeTime now =>
    obtain ⟨hpurged, hmem⟩ := removeExpiredTxs_spec h.flags h.tabs lifeTime now
    refine ⟨hpurged.wf h, fun hun hf => hpurged.found_of_apart hf hun ?_ ?_⟩
    · intro x hx hno
      by_contra hne
      exact hno ((hmem x).mpr ⟨hx, hne⟩)
    · exact fun y hy => ((hmem y).mp hy).2
  | removeNewBlockTxs blk optHash =>
    obtain ⟨hpurged, hmem⟩ := removeTxs_spec h.flags h.tabs (xp.newBlockTxs blk optHash)
    have hpurged' : Purged xp (xp.removeNewBlockTxs blk optHash) := ⟨hpurged.flags, hpurged.shrunk⟩
    refine ⟨hpurged'.wf h, fun hun hf => hpurged'.found_of_apart hf hun ?_ ?_⟩
    · intro x hx hno
      by_contra hne
      exact hno ((hmem x).mpr ⟨hx, hne⟩)
    · exact fun y hy => ((hmem y).mp hy).2
  | assembleBlock parentHash gasLimit =>
    obtain ⟨hpurged, hleaves, hstays⟩ := assembleBlock_spec h.flags h.tabs parentHash gasLimit
    refine ⟨hpurged.wf h, fun hun hf => ?_⟩
    by_cases hheader : xp.chain.hasHeader parentHash = true
    · apply hpurged.found_of_apart hf (hun hheader)
      · exact fun x hx hno => (hleaves x hx hno).2
      · exact hstays hheader
    · have hsame : xp.assembleBlock parentHash gasLimit = xp := if_neg hheader
      show Found (xp.assembleBlock parentHash gasLimit)
      rw [hsame]
      exact hf

/-! ## Runs -/

/-- All steps of the run are `Unshared`. -/
def AllUnshared (xp : TxPoolRef) : List Event → Prop
  | [] => True
  | event :: events => Unshared xp event ∧ AllUnshared (xp.step event) events

theorem run_spec (h : PoolWf xp) (events : List Event) : PoolWf (xp.run events) ∧
    (AllUnshared xp events → Found xp → Found (xp.run events)) := by
  induction events generalizing xp with
  | nil => exact ⟨h, fun _ => id⟩
  | cons event events ih =>
    obtain ⟨hstep, hfound⟩ := step_spec h event
    obtain ⟨hrun, hfound'⟩ := ih hstep
    exact ⟨hrun, fun hun hf => hfound' hun.2 (hfound hun.1 hf)⟩

theorem AllUnshared.take {events : List Event} (h : AllUnshared xp events) (n : Nat) :
    AllUnshared xp (events.take n) := by
  induction events generalizing xp n with
  | nil =>
    rw [List.take_nil]
    exact h
  | cons event events ih =>
    cases n with
    | zero => trivial
    | succ n => exact ⟨h.1, ih h.2 n⟩

theorem PoolWf.init (chain : Chain) : PoolWf (TxPoolRef.init chain) where
  flags := rfl
  tabs := Wf.empty
  vetted item hitem := by
    have hlook : AList.lookup item.id (∅ : Table Hash32 TxItem) = some item := hitem
    cases hlook

omit [TxRules] in
theorem Found.init (chain : Chain) : Found (TxPoolRef.init chain) := by
  intro item hitem
  have hlook : AList.lookup item.id (∅ : Table Hash32 TxItem) = some item := hitem
  cases hlook

/-- The tables of the pool agree. -/
structure Coherent (xp : TxPoolRef) : Prop where
  /-- the same transactions by hash, and by sender and nonce -/
  same : ∀ item, (∃ id, xp.idTab.lookup id = some item) ↔
    ∃ a nonce, slot xp.toTxTabs a nonce = some item
  byId : ∀ id item, xp.idTab.lookup id = some item → item.id = id
  bySender : ∀ a nonce item, slot xp.toTxTabs a nonce = some item →
    item.sender = a ∧ item.nonce = nonce
  unique : ∀ id id' x y, xp.idTab.lookup id = some x → xp.idTab.lookup id' = some y →
    x.sender = y.sender → x.nonce = y.nonce → x = y
  size : xp.len ≤ MAX_POOL_SIZE
  senderSize : ∀ a sn, xp.senderTab.lookup a = some sn → Table.len sn ≤ TxTabs.MAX_TXS_PER_ACCOUNT
  /-- every blob of a transaction is found with a transaction of the pool -/
  found : ∀ id item v, xp.idTab.lookup id = some item → v ∈ hashes item →
    ∃ l, xp.blobTab.lookup v = some l ∧ xp.idTab.lookup l.item.id = some l.item ∧
      (hashes l.item)[l.blobIndex]? = some v ∧ HasBlob l.item l.blobIndex v
  /-- no entry is left of a transaction that is gone -/
  live : ∀ v l, xp.blobTab.lookup v = some l → xp.idTab.lookup l.item.id = some l.item

theorem PoolWf.coherent (h : PoolWf xp) (hf : Found xp) : Coherent xp where
  same item := by
    constructor
    · rintro ⟨id, hlook⟩
      exact ⟨item.sender, item.nonce, h.tabs.filed item (h.tabs.pooled_of_lookup hlook)⟩
    · rintro ⟨a, nonce, hslot⟩
      exact ⟨item.id, (h.tabs.own a nonce item hslot).2.2⟩
  byId := h.tabs.id
  bySender a nonce item hslot := by
    obtain ⟨hsender, hnonce, -⟩ := h.tabs.own a nonce item hslot
    exact ⟨hsender, hnonce⟩
  unique id id' x y hx hy :=
    h.tabs.eq_of_slot (h.tabs.pooled_of_lookup hx) (h.tabs.pooled_of_lookup hy)
  size := h.tabs.size
  senderSize := h.tabs.senderSize
  found id item v hlook hv := by
    obtain ⟨l, hl⟩ := hf item (h.tabs.pooled_of_lookup hlook) v hv
    obtain ⟨hpooled, hpos⟩ := h.tabs.live v l hl
    exact ⟨l, hl, hpooled, hpos, h.vetted l.item hpooled _ v hpos⟩
  live v l hl := (h.tabs.live v l hl).1

end

/-! ## Two transactions with one blob -/

namespace OneBlob

/-- Nothing is ever executed. -/
@[reducible] def vm : TxVm where
  Ledger := Unit
  getNonce _ _ := 0
  vmExecInit _ ledger := ledger
  vmExecGrabItem ledger _ := (ledger, true)
  vmExecCommit ledger := (ledger, true)

/-- A transaction is known by its first byte, and all blobs are the same. -/
@[reducible] def rules : @TxRules vm :=
  letI := vm
  { validateChainId := fun _ => true
    rlpHash := fun tx => Vector.replicate 32 (tx.others.headD 0)
    encodedLength := fun tx => tx.others.length
    recoverSender := fun tx => some (Vector.replicate 20 (tx.others.headD 0))
    validateTxBasic := fun _ _ _ => true
    kzgToVersionedHash := fun _ => Vector.replicate 32 1
    verifyKzgProofs := fun _ => true }

attribute [local instance] vm rules

def chain : Chain where
  latestHash := Vector.replicate 32 0
  latestTimestamp := 0
  setupVMState _ _ := { ledger := (), baseFee := 1, fork := .FkCancun, blobBaseFee := 1 }
  hasHeader _ := true
  txHashInRange _ _ := []

/-- A blob transaction of the sender `sender`. -/
def ptx (sender : UInt8) : PooledTransaction where
  tx := {
    txType := .TxEip4844
    maxFeePerGas := 1
    maxFeePerBlobGas := 1
    versionedHashes := [Vector.replicate 32 1]
    others := [sender] }
  blobsBundle := some {
    wrapperVersion := .WrapperVersionEIP4844
    blobs := [[]]
    commitments := [[]]
    proofs := [[]] }

def item (sender : UInt8) : TxItem where
  ptx := ptx sender
  id := Vector.replicate 32 sender
  time := 0
  sender := Vector.replicate 20 sender

end OneBlob

end Nimbus.Spec.TxPool
