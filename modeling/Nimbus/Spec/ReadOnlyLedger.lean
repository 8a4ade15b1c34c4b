import Nimbus.Native.ReadOnlyLedger

/-!
# What the read-only view of a ledger answers

The queries of the view pass on to the ledger, so they answer what the ledger answers and leave
the same ledger behind. The query for an address and a slot is the exception: it asks for the
address alone. It agrees with the ledger where the savepoints list the address just if they
list the pair.
-/

namespace Nimbus.Spec.ReadOnlyLedger

open Native Native.Ledger
open Native.Aristo (UInt256)

variable (ledger : LedgerRef) (address : Address) (slot : UInt256)

/-- Some savepoint lists the address. -/
def Listed : Prop :=
  ∃ sp ∈ ledger.savePoint :: ledger.parentSavePoints, address ∈ sp.accessList.addresses

/-- Some savepoint lists the slot of the address. -/
def ListedPair : Prop :=
  ∃ sp ∈ ledger.savePoint :: ledger.parentSavePoints,
    ∃ slots, sp.accessList.storageKeys.lookup address = some slots ∧ slot ∈ slots

theorem inAccessList_iff : ledger.inAccessList address = true ↔ Listed ledger address := by
  unfold LedgerRef.inAccessList Listed AccessList.contains
  rw [List.any_eq_true]
  simp only [decide_eq_true_eq]

theorem inAccessListSlot_iff :
    ledger.inAccessListSlot address slot = true ↔ ListedPair ledger address slot := by
  unfold LedgerRef.inAccessListSlot ListedPair
  rw [List.any_eq_true]
  refine exists_congr fun sp => and_congr_right fun _ => ?_
  unfold AccessList.containsSlot
  cases h : sp.accessList.storageKeys.lookup address with
  | none => simp
  | some slots => simp

section
variable [Keccak] {ledger address slot}

/-! ## One query -/

theorem answer_of_ne {q : Query} (hq : q ≠ .inAccessListSlot) :
    (ReadOnlyLedger.mk ledger).answer address slot q =
      viewed (ledger.answer address slot q) := by
  cases q with
  | inAccessListSlot => exact absurd rfl hq
  | _ => rfl

theorem answer_slot_iff : (ReadOnlyLedger.mk ledger).answer address slot .inAccessListSlot =
        viewed (ledger.answer address slot .inAccessListSlot) ↔
      (Listed ledger address ↔ ListedPair ledger address slot) := by
  rw [← inAccessList_iff, ← inAccessListSlot_iff]
  show (Answer.flag (ledger.inAccessList address), ReadOnlyLedger.mk ledger) =
    (Answer.flag (ledger.inAccessListSlot address slot), ReadOnlyLedger.mk ledger) ↔ _
  rw [Prod.mk.injEq, Answer.flag.injEq, and_iff_left rfl]
  exact Bool.eq_iff_iff

/-- The queries about an address and a slot answer what the ledger answers, on every ledger,
just if the address and the pair are both listed or both not. -/
theorem agrees_iff (ledger : LedgerRef) (address : Address) (slot : UInt256) :
    (∀ q, (ReadOnlyLedger.mk ledger).answer address slot q =
        viewed (ledger.answer address slot q)) ↔
      (Listed ledger address ↔ ListedPair ledger address slot) := by
  rw [← answer_slot_iff]
  constructor
  · exact fun h => h .inAccessListSlot
  · intro h q
    by_cases hq : q = .inAccessListSlot
    · rw [hq]
      exact h
    · exact answer_of_ne hq

end

/-! ## A warm address with a cold slot -/

section

/-- A hash that is the same for all bytes. -/
@[reducible] def constHash : Keccak := ⟨fun _ => Vector.replicate 32 0⟩

/-- A new ledger whose access list has one address, and no slot of it. -/
def warmAddress : LedgerRef :=
  (LedgerRef.init { accounts := ∅, code := ∅ }).accessList (Vector.replicate 20 1)

/-- The view finds a slot in the access list that the ledger does not find there. -/
theorem warmAddress_disagrees : letI := constHash
    ¬ ∀ q, (ReadOnlyLedger.mk warmAddress).answer (Vector.replicate 20 1) 0 q =
        viewed (warmAddress.answer (Vector.replicate 20 1) 0 q) := by
  intro h
  have hslot : (Answer.flag true, ReadOnlyLedger.mk warmAddress) =
      (Answer.flag false, ReadOnlyLedger.mk warmAddress) := h .inAccessListSlot
  exact Bool.noConfusion (Answer.flag.inj (congrArg Prod.fst hslot))

end

end Nimbus.Spec.ReadOnlyLedger
