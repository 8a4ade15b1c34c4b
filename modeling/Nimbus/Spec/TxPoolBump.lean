import Nimbus.Spec.TxPool

/-!
# Replacing a pooled transaction

A transaction takes the place of another one with the same sender and nonce only if it pays
more. The pool computes the least fees that it asks for with the width of the fees themselves.
Ten times the old fee may not fit, and then the pool asks for less than it should, even for
less than the old fee.
-/

namespace Nimbus.Spec.TxPool

open Nimbus.Native.TxPool
open Nimbus.Native.HeaderChainCache (u64)

/-! ## The least fee -/

/-- Ten percent more, rounded down. -/
def bumped (fee : Nat) : Nat := fee + fee * MIN_GAS_PRICE_BUMP_PERCENT / 100

/-- `bumped`, in unsigned arithmetic modulo `m`. -/
def wrapped (m fee : Nat) : Nat := (fee + fee * MIN_GAS_PRICE_BUMP_PERCENT % m / 100) % m

theorem wrapped_eq {m fee : Nat} (h : fee * MIN_GAS_PRICE_BUMP_PERCENT < m) :
    wrapped m fee = bumped fee := by
  have hsum : fee + fee * MIN_GAS_PRICE_BUMP_PERCENT / 100 < m := by
    unfold MIN_GAS_PRICE_BUMP_PERCENT at h ⊢
    omega
  unfold wrapped bumped
  rw [Nat.mod_eq_of_lt h, Nat.mod_eq_of_lt hsum]

theorem wrapped_lt {m fee : Nat} (hm : 100 ≤ m) (h : m ≤ fee * MIN_GAS_PRICE_BUMP_PERCENT) :
    wrapped m fee < bumped fee := by
  -- at least `m` is lost in the product, which is one percent of `m` in the quotient
  have hmod : fee * MIN_GAS_PRICE_BUMP_PERCENT % m ≤ fee * MIN_GAS_PRICE_BUMP_PERCENT - m := by
    rw [Nat.mod_eq_sub_mod h]
    exact Nat.mod_le _ _
  have hquot : fee * MIN_GAS_PRICE_BUMP_PERCENT % m / 100 <
      fee * MIN_GAS_PRICE_BUMP_PERCENT / 100 := by
    omega
  calc wrapped m fee ≤ fee + fee * MIN_GAS_PRICE_BUMP_PERCENT % m / 100 := Nat.mod_le _ _
    _ < bumped fee := Nat.add_lt_add_left hquot fee

theorem bumped_le_wrapped {m fee : Nat} (hm : 100 ≤ m) :
    bumped fee ≤ wrapped m fee ↔ fee * MIN_GAS_PRICE_BUMP_PERCENT < m := by
  constructor
  · intro hle
    by_contra hwraps
    exact absurd (wrapped_lt hm (not_lt.mp hwraps)) (not_lt.mpr hle)
  · intro hfits
    exact (wrapped_eq hfits).ge

/-! ## Transactions -/

/-- The fees have the width of their types. -/
structure FeesInRange (tx : Transaction) : Prop where
  gasPrice : tx.gasPrice < 2 ^ 64
  maxPriorityFeePerGas : tx.maxPriorityFeePerGas < 2 ^ 64
  maxFeePerGas : tx.maxFeePerGas < 2 ^ 64
  maxFeePerBlobGas : tx.maxFeePerBlobGas < 2 ^ 256

/-- `added` pays at least ten percent more than `current`. -/
structure Bumped (current added : Transaction) : Prop where
  tip : bumped (txGasPrice current).tip ≤ (txGasPrice added).tip
  maxFee : bumped (txGasPrice current).maxFee ≤ (txGasPrice added).maxFee
  blobFee : current.txType = .TxEip4844 → added.txType = .TxEip4844 →
    bumped current.maxFeePerBlobGas ≤ added.maxFeePerBlobGas

/-- Ten times a fee fits into its type. -/
structure BumpFits (tx : Transaction) : Prop where
  tip : (txGasPrice tx).tip * MIN_GAS_PRICE_BUMP_PERCENT < 2 ^ 64
  maxFee : (txGasPrice tx).maxFee * MIN_GAS_PRICE_BUMP_PERCENT < 2 ^ 64
  blobFee : tx.txType = .TxEip4844 → tx.maxFeePerBlobGas * MIN_GAS_PRICE_BUMP_PERCENT < 2 ^ 256

/-- The fees that `validateTxGasBump` asks for. -/
theorem validateTxGasBump_ok {current added : TxItem} :
    validateTxGasBump current added = .ok () ↔
      wrapped (2 ^ 64) (txGasPrice current.tx).tip ≤ (txGasPrice added.tx).tip ∧
      wrapped (2 ^ 64) (txGasPrice current.tx).maxFee ≤ (txGasPrice added.tx).maxFee ∧
      (current.tx.txType = .TxEip4844 → added.tx.txType = .TxEip4844 →
        wrapped (2 ^ 256) current.tx.maxFeePerBlobGas ≤ added.tx.maxFeePerBlobGas) := by
  have htip : u64 ((txGasPrice current.tx).tip + u64 ((txGasPrice current.tx).tip *
      MIN_GAS_PRICE_BUMP_PERCENT) / 100) = wrapped (2 ^ 64) (txGasPrice current.tx).tip := rfl
  have hmax : u64 ((txGasPrice current.tx).maxFee + u64 ((txGasPrice current.tx).maxFee *
      MIN_GAS_PRICE_BUMP_PERCENT) / 100) = wrapped (2 ^ 64) (txGasPrice current.tx).maxFee := rfl
  have hblob : (current.tx.maxFeePerBlobGas + current.tx.maxFeePerBlobGas *
      MIN_GAS_PRICE_BUMP_PERCENT % 2 ^ 256 / 100) % 2 ^ 256 =
        wrapped (2 ^ 256) current.tx.maxFeePerBlobGas := rfl
  unfold validateTxGasBump
  simp only [htip, hmax, hblob]
  by_cases hgas : (txGasPrice added.tx).tip < wrapped (2 ^ 64) (txGasPrice current.tx).tip ∨
      (txGasPrice added.tx).maxFee < wrapped (2 ^ 64) (txGasPrice current.tx).maxFee
  · rw [if_pos hgas]
    constructor
    · exact nofun
    · rintro ⟨ht, hm, -⟩
      omega
  · rw [if_neg hgas]
    rw [not_or, not_lt, not_lt] at hgas
    rw [and_iff_right hgas.1, and_iff_right hgas.2]
    by_cases htypes : added.tx.txType = .TxEip4844 ∧ current.tx.txType = .TxEip4844
    · rw [if_pos htypes]
      split
      next hlow =>
        constructor
        · exact nofun
        · intro h
          exact absurd hlow (not_lt.mpr (h htypes.2 htypes.1))
      next henough => exact ⟨fun _ _ _ => not_lt.mp henough, fun _ => rfl⟩
    · rw [if_neg htypes]
      exact ⟨fun _ hc ha => absurd ⟨ha, hc⟩ htypes, fun _ => rfl⟩

theorem validateTxGasBump_bumped {current added : TxItem} (hfits : BumpFits current.tx)
    (h : validateTxGasBump current added = .ok ()) : Bumped current.tx added.tx := by
  obtain ⟨htip, hmax, hblob⟩ := validateTxGasBump_ok.mp h
  constructor
  · rwa [wrapped_eq hfits.tip] at htip
  · rwa [wrapped_eq hfits.maxFee] at hmax
  · intro hc ha
    have henough := hblob hc ha
    rwa [wrapped_eq (hfits.blobFee hc)] at henough

/-- A transaction with the least fees that are accepted in place of `current`. -/
def cheapest (current : TxItem) : TxItem where
  ptx := { tx := {
    txType := if current.tx.txType = .TxEip4844 then .TxEip4844 else .TxEip1559
    nonce := current.nonce
    maxPriorityFeePerGas := wrapped (2 ^ 64) (txGasPrice current.tx).tip
    maxFeePerGas := wrapped (2 ^ 64) (txGasPrice current.tx).maxFee
    maxFeePerBlobGas := wrapped (2 ^ 256) current.tx.maxFeePerBlobGas } }
  id := current.id
  time := current.time
  sender := current.sender

theorem txGasPrice_cheapest (current : TxItem) : txGasPrice (cheapest current).tx =
    { maxFee := wrapped (2 ^ 64) (txGasPrice current.tx).maxFee
      tip := wrapped (2 ^ 64) (txGasPrice current.tx).tip } := by
  unfold txGasPrice
  by_cases hc : current.tx.txType = .TxEip4844
  · have htype : (cheapest current).tx.txType = .TxEip4844 := if_pos hc
    rw [htype]
    rfl
  · have htype : (cheapest current).tx.txType = .TxEip1559 := if_neg hc
    rw [htype]
    rfl

theorem cheapest_feesInRange (current : TxItem) : FeesInRange (cheapest current).tx where
  gasPrice := Nat.two_pow_pos 64
  maxPriorityFeePerGas := Nat.mod_lt _ (Nat.two_pow_pos 64)
  maxFeePerGas := Nat.mod_lt _ (Nat.two_pow_pos 64)
  maxFeePerBlobGas := Nat.mod_lt _ (Nat.two_pow_pos 256)

theorem validateTxGasBump_cheapest (current : TxItem) :
    validateTxGasBump current (cheapest current) = .ok () := by
  rw [validateTxGasBump_ok, txGasPrice_cheapest]
  exact ⟨le_refl _, le_refl _, fun _ _ => le_refl _⟩

theorem bumpFits_of_cheapest {current : TxItem} (h : Bumped current.tx (cheapest current).tx) :
    BumpFits current.tx := by
  obtain ⟨htip, hmax, hblob⟩ := h
  rw [txGasPrice_cheapest] at htip hmax
  constructor
  · exact (bumped_le_wrapped (by decide)).mp htip
  · exact (bumped_le_wrapped (by decide)).mp hmax
  · intro hc
    exact (bumped_le_wrapped (by decide)).mp (hblob hc (if_pos hc))

/-! ## The pool -/

section
variable [TxVm] {xp : TxPoolRef} {current item : TxItem}

theorem insert_replaces (hflags : xp.flags = [])
    (hslot : slot xp.toTxTabs current.sender current.nonce = some current)
    (hsender : item.sender = current.sender) (hnonce : item.nonce = current.nonce) :
    (xp.insert item).2 = .ok () ↔ validateTxGasBump current item = .ok () := by
  have hnot : TxPoolFlag.XP_ORDERED ∉ xp.flags := by simp [hflags]
  unfold slot at hslot
  rw [← hsender, ← hnonce, Option.bind_eq_some_iff] at hslot
  obtain ⟨sn, hsn, hcur⟩ := hslot
  unfold TxPoolRef.insert TxTabs.insertToSenderTab
  rw [if_neg hnot, hsn]
  simp only [hcur]
  cases validateTxGasBump current item with
  | error e =>
    constructor
    · exact nofun
    · exact nofun
  | ok u => exact ⟨fun _ => rfl, fun _ => rfl⟩

/-- For a pooled transaction, all that take its place pay ten percent more in each of their
fees, exactly when ten times its own fees fit. -/
theorem insert_bumped_iff (xp : TxPoolRef) (current : TxItem) (hflags : xp.flags = [])
    (hslot : slot xp.toTxTabs current.sender current.nonce = some current) :
    (∀ item : TxItem, item.sender = current.sender → item.nonce = current.nonce →
      FeesInRange item.tx → (xp.insert item).2 = .ok () → Bumped current.tx item.tx) ↔
      BumpFits current.tx := by
  constructor
  · intro h
    apply bumpFits_of_cheapest
    have hsender : (cheapest current).sender = current.sender := rfl
    have hnonce : (cheapest current).nonce = current.nonce := rfl
    apply h (cheapest current) hsender hnonce (cheapest_feesInRange current)
    exact (insert_replaces hflags hslot hsender hnonce).mpr (validateTxGasBump_cheapest current)
  · intro hfits item hsender hnonce _ hok
    exact validateTxGasBump_bumped hfits ((insert_replaces hflags hslot hsender hnonce).mp hok)

end

/-! ## An underpriced replacement -/

namespace Underpriced

/-- All transactions are of one sender, and known by their first byte. -/
@[reducible] def rules : @TxRules OneBlob.vm :=
  letI := OneBlob.vm
  { OneBlob.rules with recoverSender := fun _ => some (Vector.replicate 20 0) }

attribute [local instance] OneBlob.vm rules

/-- A transaction whose tip and fee cap are `fee`. -/
def ptx (id : UInt8) (fee : Nat) : PooledTransaction where
  tx := {
    txType := .TxEip1559
    maxPriorityFeePerGas := fee
    maxFeePerGas := fee
    others := [id] }

def item (id : UInt8) (fee : Nat) : TxItem where
  ptx := ptx id fee
  id := Vector.replicate 32 id
  time := 0
  sender := Vector.replicate 20 0

/-- A pool with one transaction. -/
def pool (fee : Nat) : TxPoolRef := ((TxPoolRef.init OneBlob.chain).addTx (ptx 1 fee) 0).1

theorem insert_bumped_hundred :
    (∀ added : TxItem, added.sender = (item 1 100).sender → added.nonce = (item 1 100).nonce →
      FeesInRange added.tx → ((pool 100).insert added).2 = .ok () →
        Bumped (item 1 100).tx added.tx) ↔ BumpFits (item 1 100).tx := by
  apply insert_bumped_iff (pool 100) (item 1 100)
  · rfl
  · decide +kernel

/-- A transaction that pays the highest fee there is gives way to one with a hundredth of it. -/
theorem addTx_not_bumped :
    slot (pool (2 ^ 64 - 1)).toTxTabs (item 1 0).sender 0 = some (item 1 (2 ^ 64 - 1)) ∧
      ((pool (2 ^ 64 - 1)).addTx (ptx 2 (2 ^ 64 / 100)) 0).2 = .ok () ∧
      ¬ Bumped (ptx 1 (2 ^ 64 - 1)).tx (ptx 2 (2 ^ 64 / 100)).tx := by
  refine ⟨by decide +kernel, by decide +kernel, fun h => ?_⟩
  have htip := h.tip
  revert htip
  decide

end Underpriced

end Nimbus.Spec.TxPool
