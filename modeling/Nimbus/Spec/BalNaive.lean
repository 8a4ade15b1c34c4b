import Nimbus.Spec.BalJournal

/-!
# What a transaction reports, from full copies of the state

The specification keeps a full copy of the state for each frame, the accounts and slots that
were touched, and compares the last state of the transaction with the first.
-/

namespace Nimbus.Spec.BalTracker

open Nimbus.Native Nimbus.Native.BalTracker Function
open Aristo (Hash32 UInt256 Defect)

/-! ## The specification -/

/-- A full copy of the state, with the accounts that were created and destructed in the
transaction. -/
structure Copy where
  world : World
  destroyed : Address → Bool := fun _ => false

structure Naive where
  now : Copy
  /-- the copies at the open frames, the innermost first -/
  saved : List Copy := []
  /-- the touched accounts, the first touched first -/
  touched : List Address := []
  slots : List SlotKey := []
  builder : BlockAccessListBuilder := {}
  currentBlockAccessIndex : Nat := 0

section
variable [Keccak] (before : World) (after : Copy)

/-- Whether a slot counts as changed. A self-destructed account has no storage writes. -/
def slotChanged (key : SlotKey) : Bool :=
  !after.destroyed key.address &&
    before.storage key.address key.slot != after.world.storage key.address key.slot

def balanceChanged (a : Address) : Bool := before.balance a != after.world.balance a

def nonceChanged (a : Address) : Bool :=
  !after.destroyed a && before.nonce a != after.world.nonce a

def codeChanged (a : Address) : Bool :=
  !after.destroyed a && before.readOnly.getCodeHash a != after.world.readOnly.getCodeHash a

/-- What EIP-7928 asks of a transaction that took `before` to `after`, for a builder that has
`first` accounts at this index already. -/
def report (touched : List Address) (slots : List SlotKey) (first : Nat) : BalIndexData :=
  let id a := first + touched.idxOf a
  { accounts := touched
    storageChanges := (slots.filter (slotChanged before after)).map fun k =>
      ⟨id k.address, k.slot, after.world.storage k.address k.slot⟩
    storageReads := (slots.filter (!slotChanged before after ·)).map fun k =>
      ⟨id k.address, k.slot⟩
    balanceChanges := (touched.filter (balanceChanged before after)).map fun a =>
      ⟨id a, after.world.balance a⟩
    nonceChanges := (touched.filter (nonceChanged before after)).map fun a =>
      ⟨id a, after.world.nonce a⟩
    codeChanges := (touched.filter (codeChanged before after)).map fun a =>
      ⟨id a, after.world.code a⟩ }

end

def appendData (d e : BalIndexData) : BalIndexData where
  accounts := d.accounts ++ e.accounts
  storageChanges := d.storageChanges ++ e.storageChanges
  storageReads := d.storageReads ++ e.storageReads
  balanceChanges := d.balanceChanges ++ e.balanceChanges
  nonceChanges := d.nonceChanges ++ e.nonceChanges
  codeChanges := d.codeChanges ++ e.codeChanges

namespace Naive

variable (n : Naive)

def init (world : World) : Naive where
  now := { world }

/-- A call outside of all frames is an error. -/
def inFrame (n' : Naive) : Except Defect Naive :=
  if n.saved.isEmpty then .error .assertion else .ok n'

def touch (a : Address) : Naive :=
  { n with touched := if a ∈ n.touched then n.touched else n.touched ++ [a] }

def touchSlot (key : SlotKey) : Naive :=
  { n.touch key.address with
    slots := if key ∈ n.slots then n.slots else n.slots ++ [key] }

def setWorld (world : World) : Naive := { n with now.world := world }

/-- The transaction is over. -/
def clear : Naive :=
  { n with now.destroyed := fun _ => false, saved := [], touched := [], slots := [] }

variable [Keccak]

/-- Hands the transaction to the builder. -/
def record (before : World) : Except Defect Naive :=
  if n.touched = [] then .ok n
  else
    match n.builder.perIndex[n.currentBlockAccessIndex]? with
    | none => .error .assertion
    | some d => .ok { n with
        builder.perIndex := n.builder.perIndex.set n.currentBlockAccessIndex
          (appendData d (report before n.now n.touched n.slots d.accounts.length)) }

def step (n : Naive) : Cmd → Except Defect Naive
  | .setBlockAccessIndex i =>
    .ok { n.clear with
      builder := n.builder.ensureIndexCount (i + 1), currentBlockAccessIndex := i }
  | .beginCallFrame => .ok { n with saved := n.now :: n.saved }
  | .commitCallFrame =>
    match n.saved with
    | [] => .error .assertion
    | [before] => (n.record before.world).map clear
    | _ :: saved => .ok { n with saved }
  | .rollbackCallFrame =>
    match n.saved with
    | [] => .error .assertion
    | [before] => .ok { n.clear with now := { world := before.world } }
    | before :: saved => .ok { n with now := before, saved }
  | .addressAccess a => n.inFrame (n.touch a)
  | .storageRead a slot => n.inFrame (n.touchSlot ⟨a, slot⟩)
  | .storageWrite a slot v =>
    n.inFrame ((n.touchSlot ⟨a, slot⟩).setWorld (n.now.world.setStorage a slot v))
  | .setBalance a v => n.inFrame ((n.touch a).setWorld (n.now.world.setBalance a v))
  | .addBalance a delta =>
    n.inFrame ((n.touch a).setWorld (n.now.world.setBalance a (n.now.world.balance a + delta)))
  | .subBalance a delta =>
    -- an empty transfer does not touch its sender
    if delta = 0 then .ok n
    else
      n.inFrame ((n.touch a).setWorld (n.now.world.setBalance a (n.now.world.balance a - delta)))
  | .setNonce a v => n.inFrame ((n.touch a).setWorld (n.now.world.setNonce a v))
  | .incNonce a =>
    n.inFrame ((n.touch a).setWorld (n.now.world.setNonce a (n.now.world.nonce a + 1)))
  | .setCode a code => n.inFrame ((n.touch a).setWorld (n.now.world.setCode a code))
  | .selfDestruct a =>
    n.inFrame { n.touch a with now.destroyed := update n.now.destroyed a true }

def run (n : Naive) (cmds : List Cmd) : Except Defect Naive := cmds.foldlM step n

end Naive

/-! ## The written values and a state -/

/-- The value of a field, given what it was before the transaction. -/
def CellVal.get (v : CellVal) (before : UInt256) : UInt256 := if v.written then v.value else before

def CellVal.getNonce (v : CellVal) (before : AccountNonce) : AccountNonce :=
  if v.written then v.nonce else before

/-- The written values lead from the first state of the transaction to the copy `c`. -/
structure Tracks (addrs : List Address) (keys : List SlotKey) (w0 : World) (val : Cell → CellVal)
    (c : Copy) : Prop where
  storage : ∀ k : SlotKey, c.world.storage k.address k.slot =
    (val (.storage (keys.idxOf k))).get (w0.storage k.address k.slot)
  balance : ∀ a, c.world.balance a =
    (val (.account .balance (addrs.idxOf a))).get (w0.balance a)
  nonce : ∀ a, c.world.nonce a =
    (val (.account .nonce (addrs.idxOf a))).getNonce (w0.nonce a)
  code : ∀ a, (val (.account .code (addrs.idxOf a))).written = false →
    c.world.code a = w0.code a
  destroyed : ∀ a, c.destroyed a = (val (.account .selfDestruct (addrs.idxOf a))).written
  freshSlot : ∀ i, keys.length ≤ i → val (.storage i) = {}
  freshAccount : ∀ kind i, addrs.length ≤ i → val (.account kind i) = {}

variable {addrs : List Address} {keys : List SlotKey} {w0 : World} {val : Cell → CellVal}
  {c : Copy} {a : Address}

/-- A cell that is not there yet looks the same after an element is added. -/
theorem idxOf_concat {E : Type} [BEq E] [LawfulBEq E] {l : List E} {B : Type} {f : Nat → B} {d : B}
    (hfresh : ∀ i, l.length ≤ i → f i = d) (x y : E) : f ((l ++ [x]).idxOf y) = f (l.idxOf y) := by
  by_cases hy : y ∈ l
  · rw [List.idxOf_append_of_mem hy]
  · rw [List.idxOf_append_of_notMem hy, List.idxOf_eq_length hy, hfresh _ (Nat.le_refl _),
      hfresh _ (Nat.le_add_right _ _)]

theorem Tracks.addAccount (h : Tracks addrs keys w0 val c) (a : Address) :
    Tracks (addrs ++ [a]) keys w0 val c where
  storage := h.storage
  balance b := by
    rw [idxOf_concat (f := fun i => val (.account .balance i)) (h.freshAccount _)]
    exact h.balance b
  nonce b := by
    rw [idxOf_concat (f := fun i => val (.account .nonce i)) (h.freshAccount _)]
    exact h.nonce b
  code b := by
    rw [idxOf_concat (f := fun i => val (.account .code i)) (h.freshAccount _)]
    exact h.code b
  destroyed b := by
    rw [idxOf_concat (f := fun i => val (.account .selfDestruct i)) (h.freshAccount _)]
    exact h.destroyed b
  freshSlot := h.freshSlot
  freshAccount kind i hi := by
    apply h.freshAccount
    rw [List.length_append] at hi
    exact Nat.le_of_add_right_le hi

theorem Tracks.addSlot (h : Tracks addrs keys w0 val c) (k : SlotKey) :
    Tracks addrs (keys ++ [k]) w0 val c where
  storage k' := by
    rw [idxOf_concat (f := fun i => val (.storage i)) h.freshSlot]
    exact h.storage k'
  balance := h.balance
  nonce := h.nonce
  code := h.code
  destroyed := h.destroyed
  freshSlot i hi := by
    apply h.freshSlot
    rw [List.length_append] at hi
    exact Nat.le_of_add_right_le hi
  freshAccount := h.freshAccount

theorem update_account {kind : AccountKind} (v : CellVal) (ha : a ∈ addrs) (b : Address) :
    update val (.account kind (addrs.idxOf a)) v (.account kind (addrs.idxOf b)) =
      if b = a then v else val (.account kind (addrs.idxOf b)) := by
  split
  · next h => rw [h, update_self]
  · next h =>
    rw [update_of_ne]
    intro he
    injection he with _ he
    exact h ((List.idxOf_inj ha).mp he.symm).symm

section

variable (h : Tracks addrs keys w0 val c)
include h

theorem Tracks.fresh_update (kind : AccountKind) (v : CellVal)
    (ha : a ∈ addrs) (kind' : AccountKind) (i : Nat) (hi : addrs.length ≤ i) :
    update val (.account kind (addrs.idxOf a)) v (.account kind' i) = {} := by
  rw [update_of_ne, h.freshAccount kind' i hi]
  intro he
  injection he with _ he
  have hlt : addrs.idxOf a < addrs.length := List.idxOf_lt_length_of_mem ha
  omega

theorem Tracks.setBalance (ha : a ∈ addrs) (v : UInt256) :
    Tracks addrs keys w0
      (update val (.account .balance (addrs.idxOf a)) { written := true, value := v })
      { c with world := c.world.setBalance a v } where
  storage := h.storage
  balance b := by
    rw [update_account _ ha]
    show update c.world.balance a v b = _
    split
    · next hb => rw [hb, update_self]; rfl
    · next hb => rw [update_of_ne hb, h.balance b]
  nonce b := by
    exact h.nonce b
  code b := by
    exact h.code b
  destroyed b := by
    exact h.destroyed b
  freshSlot := h.freshSlot
  freshAccount := h.fresh_update _ _ ha

theorem Tracks.setNonce (ha : a ∈ addrs) (v : AccountNonce) :
    Tracks addrs keys w0
      (update val (.account .nonce (addrs.idxOf a)) { written := true, nonce := v })
      { c with world := c.world.setNonce a v } where
  storage := h.storage
  balance b := by
    exact h.balance b
  nonce b := by
    rw [update_account _ ha]
    show update c.world.nonce a v b = _
    split
    · next hb => rw [hb, update_self]; rfl
    · next hb => rw [update_of_ne hb, h.nonce b]
  code b := by
    exact h.code b
  destroyed b := by
    exact h.destroyed b
  freshSlot := h.freshSlot
  freshAccount := h.fresh_update _ _ ha

theorem Tracks.setCode (ha : a ∈ addrs) (code : List UInt8) :
    Tracks addrs keys w0
      (update val (.account .code (addrs.idxOf a)) { written := true })
      { c with world := c.world.setCode a code } where
  storage := h.storage
  balance b := by
    exact h.balance b
  nonce b := by
    exact h.nonce b
  code b := by
    rw [update_account _ ha]
    show _ → update c.world.code a code b = _
    split
    · intro hw
      cases hw
    · next hb =>
      rw [update_of_ne hb]
      exact h.code b
  destroyed b := by
    exact h.destroyed b
  freshSlot := h.freshSlot
  freshAccount := h.fresh_update _ _ ha

theorem Tracks.selfDestruct (ha : a ∈ addrs) :
    Tracks addrs keys w0
      (update val (.account .selfDestruct (addrs.idxOf a)) { written := true })
      { c with destroyed := update c.destroyed a true } where
  storage := h.storage
  balance b := by
    exact h.balance b
  nonce b := by
    exact h.nonce b
  code b := by
    exact h.code b
  destroyed b := by
    rw [update_account _ ha]
    show update c.destroyed a true b = _
    split
    · next hb => rw [hb, update_self]
    · next hb => rw [update_of_ne hb, h.destroyed b]
  freshSlot := h.freshSlot
  freshAccount := h.fresh_update _ _ ha

theorem Tracks.setStorage {k : SlotKey} (hk : k ∈ keys) (v : UInt256) :
    Tracks addrs keys w0
      (update val (.storage (keys.idxOf k)) { written := true, value := v })
      { c with world := c.world.setStorage k.address k.slot v } where
  storage k' := by
    show update c.world.storage k.address
      (update (c.world.storage k.address) k.slot v) k'.address k'.slot = _
    by_cases hkk : k' = k
    · subst hkk
      rw [update_self, update_self, update_self]
      rfl
    · have hcell : update val (.storage (keys.idxOf k)) { written := true, value := v }
          (.storage (keys.idxOf k')) = val (.storage (keys.idxOf k')) := by
        apply update_of_ne
        intro he
        injection he with he
        exact hkk ((List.idxOf_inj hk).mp he.symm).symm
      rw [hcell, ← h.storage k']
      by_cases ha : k'.address = k.address
      · rw [ha, update_self]
        apply update_of_ne
        intro hs
        obtain ⟨b, s⟩ := k
        cases ha
        cases hs
        exact hkk rfl
      · rw [update_of_ne ha]
  balance := h.balance
  nonce := h.nonce
  code := h.code
  destroyed := h.destroyed
  freshSlot i hi := by
    rw [update_of_ne, h.freshSlot i hi]
    intro he
    injection he with he
    have hlt : keys.idxOf k < keys.length := List.idxOf_lt_length_of_mem hk
    omega
  freshAccount := h.freshAccount

end

end Nimbus.Spec.BalTracker
