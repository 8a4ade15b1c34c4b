import Nimbus.ForStd.TwosComplement
import Nimbus.Native.WordOps

/-!
# The values of the word operations

Every handler leaves on the stack the value that the Yellow Paper gives for its operands, and
below it what was there. The result goes to the slot of the second operand, and the signs are
stripped from the operands in their slots; so a body is described by what it leaves in the slot
of the result, when the slot above may hold anything.
-/

namespace Nimbus.Spec.WordOps

open Native Native.Evm Native.Evm.WordOps
open Aristo (UInt256)
open Function

/-! ### The definitions of the Yellow Paper -/

/-- How many operands are taken from the stack. -/
def arity : WordOp → Nat
  | .Addmod | .Mulmod => 3
  | _ => 2

/-- The result `r` of an operation on the given operands, the top of the stack first. Words are
numbers without a sign (`toNat`) or in two's complement (`toInt`); for `SignExtend`, bit 0 is
the highest one. -/
def YellowPaper : WordOp → List UInt256 → UInt256 → Prop
  | .Div, [a, b], r => r.toNat = if b.toNat = 0 then 0 else a.toNat / b.toNat
  | .Sdiv, [a, b], r => r.toInt =
      if b.toInt = 0 then 0
      else if a.toInt = -2 ^ 255 ∧ b.toInt = -1 then -2 ^ 255
      else a.toInt.sign * b.toInt.sign * (a.toInt.natAbs / b.toInt.natAbs : Nat)
  | .Mod, [a, b], r => r.toNat = if b.toNat = 0 then 0 else a.toNat % b.toNat
  | .Smod, [a, b], r => r.toInt =
      if b.toInt = 0 then 0 else a.toInt.sign * (a.toInt.natAbs % b.toInt.natAbs : Nat)
  | .Addmod, [a, b, n], r =>
      r.toNat = if n.toNat = 0 then 0 else (a.toNat + b.toNat) % n.toNat
  | .Mulmod, [a, b, n], r => r.toNat = if n.toNat = 0 then 0 else a.toNat * b.toNat % n.toNat
  | .Exp, [a, e], r => r.toNat = a.toNat ^ e.toNat % 2 ^ 256
  | .SignExtend, [k, x], r => ∀ i < 256, r.getMsbD i =
      if i + 8 * (k.toNat + 1) ≤ 256 then x.getMsbD (256 - 8 * (k.toNat + 1)) else x.getMsbD i
  | .Slt, [a, b], r => r.toNat = if a.toInt < b.toInt then 1 else 0
  | .Sgt, [a, b], r => r.toNat = if a.toInt > b.toInt then 1 else 0
  | .Byte, [i, x], r =>
      r.toNat = if i.toNat < 32 then x.toNat / 256 ^ (31 - i.toNat) % 256 else 0
  | .Shl, [k, x], r => r.toNat = x.toNat * 2 ^ k.toNat % 2 ^ 256
  | .Shr, [k, x], r => r.toNat = x.toNat / 2 ^ k.toNat
  | .Sar, [k, x], r => r.toInt = x.toInt / 2 ^ k.toNat
  | _, _, _ => False

/-- The gas that an operation charges by its operands. -/
def dynamicGas (fork : EVMFork) : WordOp → List UInt256 → Nat
  | .Exp, [_, e] => gasExp fork e
  | _, _ => 0

def charged (amount : Nat) (gasMeter : GasMeter) : GasMeter :=
  { gasMeter with
    executionGasUsed := gasMeter.executionGasUsed + amount
    executionGasLeft := gasMeter.executionGasLeft - amount }

/-! ### Words -/

variable (x : UInt256)

theorem max_lt_iff : decide (INT_256_MAX_AS_UINT256 < x) = x.msb := by
  have hmax : INT_256_MAX_AS_UINT256.toNat = 2 ^ 255 - 1 := by decide +kernel
  rw [BitVec.msb_eq_decide, decide_eq_decide, BitVec.lt_def]
  omega

theorem toInt_eq_zero_iff : x.toInt = 0 ↔ x = 0 :=
  ⟨fun h => BitVec.eq_of_toInt_eq h, fun h => by rw [h]; rfl⟩

theorem toNat_eq_zero_iff : x.toNat = 0 ↔ x = 0 :=
  ⟨fun h => BitVec.eq_of_toNat_eq h, fun h => by rw [h]; rfl⟩

/-- The minimum divided by −1 is the one quotient that is no word. -/
theorem toInt_sdiv (a b : UInt256) : (a.sdiv b).toInt =
    if a.toInt = -2 ^ 255 ∧ b.toInt = -1 then -2 ^ 255
    else a.toInt.sign * b.toInt.sign * (a.toInt.natAbs / b.toInt.natAbs : Nat) := by
  split
  · rename_i h
    rw [BitVec.toInt_sdiv, h.1, h.2]
    decide +kernel
  · rename_i h
    rw [BitVec.toInt_sdiv_of_ne_or_ne, Int.tdiv_eq_sign_mul]
    by_contra hmin
    simp only [not_or, not_not] at hmin
    exact h ⟨by rw [hmin.1]; decide +kernel, by rw [hmin.2]; decide +kernel⟩

theorem toNat_powBy (base : UInt256) (e : Nat) :
    (powBy base e).toNat = base.toNat ^ e % 2 ^ 256 := by
  induction e using Nat.strongRecOn with
  | _ e ih =>
    rw [powBy]
    by_cases h0 : e = 0
    · simp [h0]
    · have hroot := ih (e / 2) (by omega)
      rw [if_neg h0]
      by_cases h2 : e % 2 = 0
      · rw [if_pos h2, BitVec.toNat_mul, hroot, ← Nat.mul_mod, ← Nat.pow_add]
        congr 2
        omega
      · rw [if_neg h2, BitVec.toNat_mul, BitVec.toNat_mul, hroot, ← Nat.mul_mod, ← Nat.pow_add,
          Nat.mod_mul_mod, ← Nat.pow_succ]
        congr 2
        omega

theorem slt_eq (x y : UInt256) : slt x y = decide (x.toInt < y.toInt) := by
  have hx := BitVec.toInt_eq_msb_cond x
  have hy := BitVec.toInt_eq_msb_cond y
  unfold slt
  rw [hx, hy]
  cases x.msb <;> cases y.msb <;> simp [BitVec.lt_def] <;> omega

theorem toNat_ofBool (b : Bool) : (ofBool b).toNat = if b then 1 else 0 := by
  cases b <;> rfl

theorem toNat_addmod (a b : UInt256) {n : UInt256} (hn : n.toNat ≠ 0) :
    (addmod a b n).toNat = (a.toNat + b.toNat) % n.toNat := by
  have := Nat.mod_lt (a.toNat + b.toNat) (Nat.pos_of_ne_zero hn)
  unfold addmod
  rw [BitVec.toNat_ofNat, Nat.mod_eq_of_lt (a := (a.toNat + b.toNat) % n.toNat) (by omega)]

theorem toNat_mulmod (a b : UInt256) {n : UInt256} (hn : n.toNat ≠ 0) :
    (mulmod a b n).toNat = a.toNat * b.toNat % n.toNat := by
  have := Nat.mod_lt (a.toNat * b.toNat) (Nat.pos_of_ne_zero hn)
  unfold mulmod
  rw [BitVec.toNat_ofNat, Nat.mod_eq_of_lt (a := a.toNat * b.toNat % n.toNat) (by omega)]

theorem toNat_byte (n : Nat) : ((x >>> (8 * n)) &&& 0xff).toNat = x.toNat / 256 ^ n % 256 := by
  have hpow : 2 ^ (8 * n) = 256 ^ n := Nat.pow_mul 2 8 n
  rw [BitVec.toNat_and, BitVec.toNat_ushiftRight, Nat.shiftRight_eq_div_pow, hpow]
  exact Nat.and_two_pow_sub_one_eq_mod _ 8

/-- A length of a shift that is cut to an `int` is still too long. -/
theorem safeInt_cases (k : UInt256) :
    safeInt k < 256 ∧ safeInt k = k.toNat ∨ 256 ≤ safeInt k ∧ 256 ≤ k.toNat := by
  unfold safeInt
  split <;> omega

theorem truncate_eq {k : UInt256} (hk : k.toNat ≤ 31) : truncate k = k.toNat :=
  Nat.mod_eq_of_lt (by omega)

/-- The word with the bits above bit `t` as bit `t` is. -/
def extended (t : Nat) : UInt256 :=
  let bitPos := (1 : UInt256) <<< t
  let mask := bitPos - 1
  if x &&& bitPos ≠ 0 then x ||| ~~~mask else x &&& mask

theorem getLsbD_extended {t j : Nat} (ht : t < 256) (hj : j < 256) :
    (extended x t).getLsbD j = if j < t then x.getLsbD j else x.getLsbD t := by
  have hmask := BitVec.getLsbD_one_shiftLeft_sub_one ht j
  have hbit := BitVec.and_one_shiftLeft_ne_zero ht x
  show BitVec.getLsbD (if x &&& (1#256 <<< t) ≠ 0#256 then x ||| ~~~(1#256 <<< t - 1#256)
    else x &&& (1#256 <<< t - 1#256)) j = _
  by_cases hset : x.getLsbD t = true
  · rw [if_pos (hbit.mpr hset), BitVec.getLsbD_or, BitVec.getLsbD_not, hmask, hset]
    by_cases hlt : j < t <;> simp [hlt, hj]
  · rw [if_neg (fun h => hset (hbit.mp h)), BitVec.getLsbD_and, hmask]
    by_cases hlt : j < t <;> simp [hlt, hset]

theorem signExtend_low {k x r : UInt256} (hk : k.toNat ≤ 31) (hr : ∀ j < 256, r.getLsbD j =
      if j < k.toNat * 8 + 7 then x.getLsbD j else x.getLsbD (k.toNat * 8 + 7)) :
    YellowPaper .SignExtend [k, x] r := by
  intro i hi
  rw [BitVec.getMsbD_eq_getLsbD, hr _ (by omega)]
  -- counted from above, the bit to copy is bit `256 - 8 * (k + 1)`
  by_cases hle : i + 8 * (k.toNat + 1) ≤ 256
  · rw [if_pos hle, if_neg (by omega), BitVec.getMsbD_eq_getLsbD,
      show 256 - 1 - (256 - 8 * (k.toNat + 1)) = k.toNat * 8 + 7 by omega]
    simp only [hi, show 256 - 8 * (k.toNat + 1) < 256 by omega]
  · rw [if_neg hle, if_pos (by omega), BitVec.getMsbD_eq_getLsbD]

theorem signExtend_high {k x : UInt256} (hk : 31 < k.toNat) : YellowPaper .SignExtend [k, x] x := by
  intro i _
  rw [if_neg (by omega)]

/-! ### The stack -/

theorem items_succ (values : Nat → UInt256) (n : Nat) :
    EvmStack.items ⟨values, n + 1⟩ = values n :: EvmStack.items ⟨values, n⟩ := by
  simp [EvmStack.items, List.range_succ]

theorem items_congr {values values' : Nat → UInt256} {n : Nat} (h : ∀ i < n, values' i = values i) :
    EvmStack.items ⟨values', n⟩ = EvmStack.items ⟨values, n⟩ := by
  apply List.map_congr_left
  intro i hi
  exact h i (List.mem_range.mp (List.mem_reverse.mp hi))

theorem length_items (stack : EvmStack) : stack.items.length = stack.len := by
  simp [EvmStack.items]

/-- The element at the reference `i` replaced. -/
def put (c : VmCpt) (i : Ref) (value : UInt256) : VmCpt :=
  { c with stack := { c.stack with values := update c.stack.values i value } }

@[simp] theorem put_self (c : VmCpt) (i : Ref) (value : UInt256) :
    (put c i value).stack.values i = value := update_self ..

@[simp] theorem put_of_ne (c : VmCpt) {i j : Ref} (h : j ≠ i) (value : UInt256) :
    (put c i value).stack.values j = c.stack.values j := update_of_ne h ..

@[simp] theorem put_values (c : VmCpt) (i : Ref) : put c i (c.stack.values i) = c := by
  unfold put
  rw [update_eq_self]

/-! ### Steps of the handlers -/

theorem bind_ok {α β : Type} {x : CptM α} {f : α → CptM β} {c c' : VmCpt} {a : α}
    (h : x c = .ok a c') : (x >>= f) c = f a c' := by
  show EStateM.bind x f c = _
  simp only [EStateM.bind, h]

@[simp] theorem load_bind {α : Type} (i : Ref) (f : UInt256 → CptM α) (c : VmCpt) :
    (load i >>= f) c = f (c.stack.values i) c := rfl

@[simp] theorem store_bind {α : Type} (i : Ref) (value : UInt256) (f : Unit → CptM α)
    (c : VmCpt) : (store i value >>= f) c = f () (put c i value) := rfl

@[simp] theorem put_put (c : VmCpt) (i : Ref) (value value' : UInt256) :
    put (put c i value) i value' = put c i value' := by
  simp only [put, update_idem]

/-- `flipSign` negates the element, the minimum to itself. -/
theorem flipSign_bind {α : Type} (i : Ref) (f : Unit → CptM α) (c : VmCpt) :
    (load i >>= fun v => store i (~~~v) >>= fun _ => load i >>= fun v => store i (v + 1) >>= f) c
      = f () (put c i (-c.stack.values i)) := by
  have hneg : ~~~c.stack.values i + 1 = -c.stack.values i :=
    (BitVec.neg_eq_not_add (c.stack.values i)).symm
  rw [load_bind, store_bind, load_bind, put_self, store_bind, put_put, hneg]

/-- The sign is taken off the element; the minimum is its own absolute value, as a number
without a sign. -/
theorem extractSign_run (i : Ref) (c : VmCpt) :
    extractSign i c = .ok (c.stack.values i).msb
      (put c i (if (c.stack.values i).msb then -c.stack.values i else c.stack.values i)) := by
  unfold extractSign
  rw [load_bind, max_lt_iff]
  cases hs : (c.stack.values i).msb with
  | false =>
    show EStateM.Result.ok false c = .ok false (put c i (c.stack.values i))
    rw [put_values]
  | true => exact flipSign_bind i (fun _ => pure true) c

theorem setSign_run (i : Ref) (sign : Bool) (c : VmCpt) :
    setSign i sign c =
      .ok () (put c i (if sign then -c.stack.values i else c.stack.values i)) := by
  cases sign with
  | false =>
    show EStateM.Result.ok () c = .ok () (put c i (c.stack.values i))
    rw [put_values]
  | true => exact flipSign_bind i pure c

/-! ### Bodies -/

/-- What a body leaves behind that has the slots `l1` and `l2` of its operands: the result, and
below it what was there. -/
structure Leaves (l2 : Ref) (amount : Nat) (r : UInt256) (c c' : VmCpt) : Prop where
  len : c'.stack.len = c.stack.len
  top : c'.stack.values l2 = r
  below : ∀ i < l2, c'.stack.values i = c.stack.values i
  gasMeter : c'.gasMeter = charged amount c.gasMeter

section

variable {l1 l2 : Ref} {c : VmCpt}

theorem Leaves.put (r : UInt256) : Leaves l2 0 r c (put c l2 r) where
  len := rfl
  top := put_self c l2 r
  below _ hi := put_of_ne c (Nat.ne_of_lt hi) r
  gasMeter := rfl

theorem Leaves.rfl' : Leaves l2 0 (c.stack.values l2) c c where
  len := rfl
  top := rfl
  below _ _ := rfl
  gasMeter := rfl

theorem Leaves.of_put {amount : Nat} {r value : UInt256} {i : Ref} {c' : VmCpt} (hi : l2 ≤ i)
    (h : Leaves l2 amount r (WordOps.put c i value) c') : Leaves l2 amount r c c' where
  len := h.len
  top := h.top
  below j hj := by rw [h.below j hj, put_of_ne c (Nat.ne_of_lt (Nat.lt_of_lt_of_le hj hi))]
  gasMeter := h.gasMeter

theorem div256_leaves : ∃ c', div256 l2 l1 l2 c = .ok () c' ∧
    Leaves l2 0 (c.stack.values l1 / c.stack.values l2) c c' := by
  unfold div256
  rw [load_bind]
  split
  · exact ⟨_, rfl, .put _⟩
  · rename_i h0
    -- the divisor in the slot of the result is the zero to be left
    have hb : c.stack.values l2 = 0 := by simpa using h0
    refine ⟨c, rfl, ?_⟩
    rw [show c.stack.values l1 / c.stack.values l2 = c.stack.values l2 by
      rw [hb]; exact BitVec.udiv_zero]
    exact .rfl'

theorem sdiv256_leaves (hl : l2 < l1) : ∃ c', sdiv256 l2 l1 l2 c = .ok () c' ∧
    Leaves l2 0 ((c.stack.values l1).sdiv (c.stack.values l2)) c c' := by
  unfold sdiv256
  rw [load_bind]
  split
  · rw [bind_ok (extractSign_run l1 c), bind_ok (extractSign_run l2 _), load_bind, load_bind,
      store_bind, setSign_run, put_put, put_put, put_self, put_self,
      put_of_ne _ (Nat.ne_of_gt hl), put_self, put_of_ne c (Nat.ne_of_lt hl),
      BitVec.sdiv_eq_strip]
    exact ⟨_, rfl, (Leaves.put _).of_put (Nat.le_of_lt hl)⟩
  · rename_i h0
    have hb : c.stack.values l2 = 0 := by simpa using h0
    refine ⟨c, rfl, ?_⟩
    rw [show (c.stack.values l1).sdiv (c.stack.values l2) = c.stack.values l2 by
      rw [hb]; exact BitVec.sdiv_zero]
    exact .rfl'

theorem mod256_leaves : ∃ c', mod256 l2 l1 l2 c = .ok () c' ∧
    Leaves l2 0 (if c.stack.values l2 = 0 then 0 else c.stack.values l1 % c.stack.values l2)
      c c' := by
  unfold mod256
  rw [load_bind]
  split <;> exact ⟨_, rfl, .put _⟩

theorem smod256_leaves (hl : l2 < l1) : ∃ c', smod256 l2 l1 l2 c = .ok () c' ∧
    Leaves l2 0 (if c.stack.values l2 = 0 then 0
      else (c.stack.values l1).srem (c.stack.values l2)) c c' := by
  unfold smod256
  rw [load_bind]
  by_cases hb : c.stack.values l2 = 0
  · rw [if_neg (not_not.mpr hb), if_pos hb]
    refine ⟨c, rfl, ?_⟩
    rw [← hb]
    exact .rfl'
  · rw [if_pos hb, if_neg hb, bind_ok (extractSign_run l2 c), bind_ok (extractSign_run l1 _),
      load_bind, load_bind, store_bind, setSign_run, put_put, put_self, put_self,
      put_of_ne _ (Nat.ne_of_lt hl), put_self, put_of_ne c (Nat.ne_of_gt hl),
      BitVec.srem_eq_strip]
    exact ⟨_, rfl, ((Leaves.put _).of_put (Nat.le_of_lt hl)).of_put (Nat.le_refl l2)⟩

theorem exp256_leaves (fork : EVMFork)
    (hgas : gasExp fork (c.stack.values l2) ≤ c.gasMeter.executionGasLeft) :
    ∃ c', exp256 fork l2 l1 l2 c = .ok () c' ∧
      Leaves l2 (gasExp fork (c.stack.values l2)) (pow (c.stack.values l1) (c.stack.values l2))
        c c' := by
  have hgas' : consumeGas (gasExp fork (c.stack.values l2)) c =
      .ok () { c with gasMeter := charged (gasExp fork (c.stack.values l2)) c.gasMeter } := by
    show (if _ then throw _ else set _ : CptM Unit) c = _
    rw [if_neg (Nat.not_lt.mpr hgas)]
    rfl
  have hleaves (r : UInt256) : Leaves l2 (gasExp fork (c.stack.values l2)) r c
      (put { c with gasMeter := charged (gasExp fork (c.stack.values l2)) c.gasMeter } l2 r) :=
    ⟨rfl, put_self .., fun _ hi => put_of_ne _ (Nat.ne_of_lt hi) _, rfl⟩
  unfold exp256
  rw [load_bind, bind_ok hgas', load_bind]
  split
  · exact ⟨_, rfl, hleaves _⟩
  · rename_i h0
    have ha : c.stack.values l1 = 0 := by simpa using h0
    have hpow : (pow (c.stack.values l1) (c.stack.values l2)).toNat =
        0 ^ (c.stack.values l2).toNat % 2 ^ 256 := by
      rw [pow, toNat_powBy, ha]
      rfl
    rw [load_bind]
    split
    · rename_i he
      have hone : pow (c.stack.values l1) (c.stack.values l2) = 1 := by
        apply BitVec.eq_of_toNat_eq
        rw [hpow, he]
        rfl
      rw [hone]
      exact ⟨_, rfl, hleaves _⟩
    · rename_i he
      have he : (c.stack.values l2).toNat ≠ 0 := fun h => he ((toNat_eq_zero_iff _).mp h)
      have hzero : pow (c.stack.values l1) (c.stack.values l2) = 0 := by
        apply BitVec.eq_of_toNat_eq
        rw [hpow, Nat.zero_pow (Nat.pos_of_ne_zero he)]
        rfl
      rw [hzero]
      exact ⟨_, rfl, hleaves _⟩

theorem se256_leaves : ∃ r, se256 l2 l1 l2 c = .ok () (put c l2 r) ∧
    YellowPaper .SignExtend [c.stack.values l1, c.stack.values l2] r := by
  unfold se256
  rw [load_bind]
  split
  · rename_i hle
    have hk : (c.stack.values l1).toNat ≤ 31 := hle
    rw [load_bind, load_bind, truncate_eq hk]
    refine ⟨extended (c.stack.values l2) ((c.stack.values l1).toNat * 8 + 7), ?_,
      signExtend_low hk fun j hj => getLsbD_extended _ (by omega) hj⟩
    unfold extended
    dsimp only
    split <;> rfl
  · rename_i hgt
    exact ⟨_, rfl, signExtend_high (Nat.lt_of_not_le hgt)⟩

theorem byte256_leaves : ∃ r, byte256 l2 l1 l2 c = .ok () (put c l2 r) ∧
    YellowPaper .Byte [c.stack.values l1, c.stack.values l2] r := by
  unfold byte256
  rw [load_bind]
  split
  · rename_i hge
    have hge : 32 ≤ (c.stack.values l1).toNat := hge
    refine ⟨_, rfl, ?_⟩
    show (0 : Nat) = if _ then _ else _
    rw [if_neg (by omega)]
  · rename_i hlt
    have hlt : (c.stack.values l1).toNat < 32 := Nat.lt_of_not_le hlt
    rw [load_bind, truncate_eq (by omega)]
    refine ⟨_, rfl, ?_⟩
    show BitVec.toNat _ = if _ then _ else _
    rw [if_pos hlt, toNat_byte]

theorem shl256_leaves : ∃ r, shl256 l2 l1 l2 c = .ok () (put c l2 r) ∧
    YellowPaper .Shl [c.stack.values l1, c.stack.values l2] r := by
  unfold shl256
  rw [load_bind]
  obtain ⟨hlt, hk⟩ | ⟨hge, hk⟩ := safeInt_cases (c.stack.values l1)
  · rw [if_neg (Nat.not_le.mpr hlt), hk]
    refine ⟨_, rfl, ?_⟩
    show BitVec.toNat _ = _
    rw [BitVec.toNat_shiftLeft, Nat.shiftLeft_eq]
  · rw [if_pos hge]
    refine ⟨_, rfl, ?_⟩
    exact (Nat.mod_eq_zero_of_dvd (Nat.dvd_mul_left_of_dvd (Nat.pow_dvd_pow 2 hk) _)).symm

theorem shr256_leaves : ∃ r, shr256 l2 l1 l2 c = .ok () (put c l2 r) ∧
    YellowPaper .Shr [c.stack.values l1, c.stack.values l2] r := by
  unfold shr256
  rw [load_bind]
  obtain ⟨hlt, hk⟩ | ⟨hge, hk⟩ := safeInt_cases (c.stack.values l1)
  · rw [if_neg (Nat.not_le.mpr hlt), hk]
    refine ⟨_, rfl, ?_⟩
    show BitVec.toNat _ = _
    rw [BitVec.toNat_ushiftRight, Nat.shiftRight_eq_div_pow]
  · rw [if_pos hge]
    refine ⟨_, rfl, ?_⟩
    have hpow : 2 ^ 256 ≤ 2 ^ (c.stack.values l1).toNat := Nat.pow_le_pow_right (by decide) hk
    exact (Nat.div_eq_of_lt (Nat.lt_of_lt_of_le (c.stack.values l2).isLt hpow)).symm

theorem sar256_leaves : ∃ r, sar256 l2 l1 l2 c = .ok () (put c l2 r) ∧
    YellowPaper .Sar [c.stack.values l1, c.stack.values l2] r := by
  unfold sar256
  rw [load_bind, load_bind]
  obtain ⟨hlt, hk⟩ | ⟨hge, hk⟩ := safeInt_cases (c.stack.values l1)
  · rw [if_neg (Nat.not_le.mpr hlt), hk]
    refine ⟨_, rfl, ?_⟩
    show BitVec.toInt _ = _
    rw [BitVec.toInt_sshiftRight, Int.shiftRight_eq_div_pow]
    norm_cast
  · rw [if_pos hge]
    refine ⟨if (c.stack.values l2).msb then -1 else 0, ?_, ?_⟩
    · split <;> rfl
    · exact BitVec.toInt_sign_eq_div (c.stack.values l2) (by decide) hk

end

/-! ### Handlers -/

/-- The handler is done: `r` is on the stack above the items `rest`. -/
def Returns (amount : Nat) (r : UInt256) (rest : List UInt256) (c : VmCpt)
    (res : EStateM.Result EvmErrorCode VmCpt Unit) : Prop :=
  ∃ c', res = .ok () c' ∧ c'.stack.items = r :: rest ∧ c'.gasMeter = charged amount c.gasMeter

theorem items_cons {stack : EvmStack} {a : UInt256} {rest : List UInt256}
    (h : stack.items = a :: rest) :
    0 < stack.len ∧ stack.values (stack.len - 1) = a ∧
      EvmStack.items ⟨stack.values, stack.len - 1⟩ = rest := by
  obtain ⟨values, len⟩ := stack
  cases len with
  | zero => exact nomatch h
  | succ n =>
    rw [items_succ] at h
    injection h with ha hrest
    exact ⟨Nat.succ_pos n, ha, hrest⟩

section

variable {c : VmCpt} {a b : UInt256} {rest : List UInt256}

theorem items_two (h : c.stack.items = a :: b :: rest) :
    2 ≤ c.stack.len ∧ c.stack.values (c.stack.len - 1) = a ∧
      c.stack.values (c.stack.len - 2) = b ∧
      EvmStack.items ⟨c.stack.values, c.stack.len - 2⟩ = rest := by
  obtain ⟨hlen, ha, htail⟩ := items_cons h
  obtain ⟨hlen', hb, hrest⟩ := items_cons htail
  exact ⟨Nat.lt_of_sub_pos hlen', ha, hb, hrest⟩

theorem items_result {values values' : Nat → UInt256} {n : Nat} {r : UInt256}
    (htop : values' n = r) (hbelow : ∀ i < n, values' i = values i) :
    EvmStack.items ⟨values', n + 1⟩ = r :: EvmStack.items ⟨values, n⟩ := by
  rw [items_succ, htop, items_congr hbelow]

theorem binaryWithTop_spec {binOp : Ref → Ref → Ref → CptM Unit} {amount : Nat} {r : UInt256}
    (h : c.stack.items = a :: b :: rest)
    (hbody : ∃ c', binOp (c.stack.len - 2) (c.stack.len - 1) (c.stack.len - 2) c = .ok () c' ∧
      Leaves (c.stack.len - 2) amount r c c') :
    Returns amount r rest c (binaryWithTop binOp c) := by
  obtain ⟨hlen, -, -, hrest⟩ := items_two h
  obtain ⟨c', hrun, hl⟩ := hbody
  refine ⟨{ c' with stack := { c'.stack with len := c.stack.len - 1 } }, ?_, ?_, hl.gasMeter⟩
  · show (if c.stack.len ≥ 2 then _ else _ : CptM Unit) c = _
    rw [if_pos hlen, bind_ok hrun]
    rfl
  · have hone : c.stack.len - 1 = c.stack.len - 2 + 1 := by omega
    rw [hone, items_result hl.top hl.below, hrest]

theorem binaryOp_spec (binOp : UInt256 → UInt256 → UInt256) (h : c.stack.items = a :: b :: rest) :
    Returns 0 (binOp a b) rest c (binaryOp binOp c) := by
  obtain ⟨hlen, ha, hb, hrest⟩ := items_two h
  refine ⟨{ c with stack := { (put c (c.stack.len - 2) (binOp a b)).stack with
    len := c.stack.len - 1 } }, ?_, ?_, rfl⟩
  · show (if c.stack.len ≥ 2 then _ else _ : CptM Unit) c = _
    rw [if_pos hlen, load_bind, load_bind, ha, hb]
    rfl
  · have hone : c.stack.len - 1 = c.stack.len - 2 + 1 := by omega
    rw [hone, items_result (put_self c _ _) (fun i hi => put_of_ne c (Nat.ne_of_lt hi) _), hrest]

theorem modularOp_spec (op : UInt256 → UInt256 → UInt256 → UInt256) {n : UInt256}
    (h : c.stack.items = a :: b :: n :: rest) :
    Returns 0 (if n = 0 then 0 else op a b n) rest c (modularOp op c) := by
  obtain ⟨hlen, ha, htail⟩ := items_cons h
  obtain ⟨hlen', hb, htail'⟩ := items_cons htail
  obtain ⟨hlen'', hn, hrest⟩ := items_cons htail'
  have hthree : 3 ≤ c.stack.len := by
    have : 0 < c.stack.len - 1 - 1 := hlen''
    omega
  have hb : c.stack.values (c.stack.len - 2) = b := hb
  have hn : c.stack.values (c.stack.len - 3) = n := hn
  have hcheck : lsCheck 3 c = .ok () c := by
    show (if c.stack.len < 3 then _ else _ : CptM Unit) c = _
    rw [if_neg (by omega)]
    rfl
  refine ⟨put { c with stack := { c.stack with len := c.stack.len - 2 } } (c.stack.len - 3)
    (if n = 0 then 0 else op a b n), ?_, ?_, rfl⟩
  · unfold modularOp
    rw [bind_ok hcheck]
    show EStateM.Result.ok () (put _ (c.stack.len - 2 - 1) (if c.stack.values (c.stack.len - 3) = 0
      then 0 else op (c.stack.values (c.stack.len - 1)) (c.stack.values (c.stack.len - 2))
        (c.stack.values (c.stack.len - 3)))) = _
    rw [ha, hb, hn]
    rfl
  · have hone : c.stack.len - 2 = c.stack.len - 3 + 1 := by omega
    show EvmStack.items ⟨(put _ (c.stack.len - 3) _).stack.values, c.stack.len - 2⟩ = _
    rw [hone, items_result (put_self _ _ _) (fun i hi => put_of_ne _ (Nat.ne_of_lt hi) _)]
    exact congrArg _ hrest

/-- A body that stores the value of the operation in the slot of the result. -/
theorem returns_of_put {op : WordOp} {binOp : Ref → Ref → Ref → CptM Unit}
    (h : c.stack.items = a :: b :: rest)
    (hbody : ∃ r, binOp (c.stack.len - 2) (c.stack.len - 1) (c.stack.len - 2) c =
        .ok () (put c (c.stack.len - 2) r) ∧
      YellowPaper op [c.stack.values (c.stack.len - 1), c.stack.values (c.stack.len - 2)] r) :
    ∃ r, YellowPaper op [a, b] r ∧ Returns 0 r rest c (binaryWithTop binOp c) := by
  obtain ⟨-, ha, hb, -⟩ := items_two h
  obtain ⟨r, hrun, hr⟩ := hbody
  rw [ha, hb] at hr
  exact ⟨r, hr, binaryWithTop_spec h ⟨_, hrun, .put r⟩⟩

theorem exec_two (fork : EVMFork) (op : WordOp) (harity : arity op = 2)
    (h : c.stack.items = a :: b :: rest)
    (hgas : dynamicGas fork op [a, b] ≤ c.gasMeter.executionGasLeft) :
    ∃ r, YellowPaper op [a, b] r ∧
      Returns (dynamicGas fork op [a, b]) r rest c (exec fork op c) := by
  obtain ⟨hlen, ha, hb, -⟩ := items_two h
  have hlt : c.stack.len - 2 < c.stack.len - 1 := by omega
  cases op with
  | Div =>
    have hbody := binaryWithTop_spec h div256_leaves
    rw [ha, hb] at hbody
    refine ⟨_, ?_, hbody⟩
    show (a / b).toNat = _
    rw [BitVec.toNat_udiv]
    split
    · rename_i h0; rw [h0, Nat.div_zero]
    · rfl
  | Sdiv =>
    have hbody := binaryWithTop_spec h (sdiv256_leaves hlt)
    rw [ha, hb] at hbody
    refine ⟨_, ?_, hbody⟩
    show (a.sdiv b).toInt = _
    split
    · rename_i h0
      have hb0 : b = 0#256 := (toInt_eq_zero_iff b).mp h0
      rw [hb0, BitVec.sdiv_zero]
      rfl
    · exact toInt_sdiv a b
  | Mod =>
    have hbody := binaryWithTop_spec h mod256_leaves
    rw [ha, hb] at hbody
    refine ⟨_, ?_, hbody⟩
    show BitVec.toNat _ = if b.toNat = 0 then 0 else _
    simp only [toNat_eq_zero_iff]
    split
    · rfl
    · exact BitVec.toNat_umod
  | Smod =>
    have hbody := binaryWithTop_spec h (smod256_leaves hlt)
    rw [ha, hb] at hbody
    refine ⟨_, ?_, hbody⟩
    show BitVec.toInt _ = if b.toInt = 0 then 0 else _
    simp only [toInt_eq_zero_iff]
    split
    · rfl
    · rw [BitVec.toInt_srem, Int.tmod_eq_sign_mul]
  | Exp =>
    have hgas' : gasExp fork (c.stack.values (c.stack.len - 2)) ≤ c.gasMeter.executionGasLeft := by
      rw [hb]
      exact hgas
    have hbody := binaryWithTop_spec h (exp256_leaves fork hgas')
    rw [ha, hb] at hbody
    exact ⟨_, toNat_powBy a b.toNat, hbody⟩
  | SignExtend => exact returns_of_put h se256_leaves
  | Slt =>
    refine ⟨_, ?_, binaryOp_spec _ h⟩
    show BitVec.toNat _ = _
    rw [slt_eq, toNat_ofBool]
    simp only [decide_eq_true_eq]
  | Sgt =>
    refine ⟨_, ?_, binaryOp_spec _ h⟩
    show BitVec.toNat _ = _
    rw [slt_eq, toNat_ofBool]
    simp only [decide_eq_true_eq, gt_iff_lt]
  | Byte => exact returns_of_put h byte256_leaves
  | Shl => exact returns_of_put h shl256_leaves
  | Shr => exact returns_of_put h shr256_leaves
  | Sar => exact returns_of_put h sar256_leaves
  | Addmod => exact nomatch harity
  | Mulmod => exact nomatch harity

theorem exec_three (fork : EVMFork) (op : WordOp) (harity : arity op = 3) {n : UInt256}
    (h : c.stack.items = a :: b :: n :: rest) :
    ∃ r, YellowPaper op [a, b, n] r ∧ Returns 0 r rest c (exec fork op c) := by
  cases op with
  | Addmod =>
    refine ⟨_, ?_, modularOp_spec addmod h⟩
    show BitVec.toNat _ = if n.toNat = 0 then 0 else _
    simp only [toNat_eq_zero_iff]
    split
    · rfl
    · rename_i hn; exact toNat_addmod a b (fun h0 => hn ((toNat_eq_zero_iff n).mp h0))
  | Mulmod =>
    refine ⟨_, ?_, modularOp_spec mulmod h⟩
    show BitVec.toNat _ = if n.toNat = 0 then 0 else _
    simp only [toNat_eq_zero_iff]
    split
    · rfl
    · rename_i hn; exact toNat_mulmod a b (fun h0 => hn ((toNat_eq_zero_iff n).mp h0))
  | _ => exact nomatch harity

end

theorem exec_few (fork : EVMFork) (op : WordOp) {c : VmCpt} (h : c.stack.len < arity op) :
    exec fork op c = .error .StackInsufficient c := by
  have hwith (binOp) (h2 : c.stack.len < 2) :
      binaryWithTop binOp c = .error .StackInsufficient c := by
    show (if c.stack.len ≥ 2 then _ else _ : CptM Unit) c = _
    rw [if_neg (by omega)]
    rfl
  have hop (binOp) (h2 : c.stack.len < 2) : binaryOp binOp c = .error .StackInsufficient c := by
    show (if c.stack.len ≥ 2 then _ else _ : CptM Unit) c = _
    rw [if_neg (by omega)]
    rfl
  have hmodular (f) (h3 : c.stack.len < 3) : modularOp f c = .error .StackInsufficient c := by
    have hcheck : lsCheck 3 c = .error .StackInsufficient c := by
      show (if c.stack.len < 3 then _ else _ : CptM Unit) c = _
      rw [if_pos h3]
      rfl
    show EStateM.bind _ _ c = _
    simp only [EStateM.bind, hcheck]
  cases op with
  | Slt | Sgt => exact hop _ h
  | Addmod | Mulmod => exact hmodular _ h
  | _ => exact hwith _ h

/-- An exponentiation for which there is too little gas does nothing. -/
theorem exec_outOfGas (fork : EVMFork) {op : WordOp} {c : VmCpt} {args rest : List UInt256}
    (h : c.stack.items = args ++ rest) (hargs : args.length = arity op)
    (hgas : c.gasMeter.executionGasLeft < dynamicGas fork op args) :
    exec fork op c = .error .OutOfGas c := by
  obtain ⟨rfl, a, e, rfl⟩ : op = .Exp ∧ ∃ a e, args = [a, e] := by
    unfold dynamicGas at hgas
    split at hgas
    · exact ⟨rfl, _, _, rfl⟩
    · exact absurd hgas (Nat.not_lt_zero _)
  obtain ⟨hlen, -, hb, -⟩ := items_two h
  show (if c.stack.len ≥ 2 then _ else _ : CptM Unit) c = _
  have hgas' : WordOps.consumeGas (gasExp fork e) c = .error .OutOfGas c := by
    show (if _ then throw _ else set _ : CptM Unit) c = _
    rw [if_pos (show gasExp fork e > c.gasMeter.executionGasLeft from hgas)]
    rfl
  rw [if_pos hlen]
  show EStateM.bind (EStateM.bind (WordOps.consumeGas (gasExp fork (c.stack.values _))) _) _ c = _
  rw [hb]
  simp only [EStateM.bind, hgas']

/-- Every operation leaves its value in the place of its operands and nothing else changes, when
there are enough items and, for an exponentiation, enough gas. -/
theorem exec_yellowPaper (fork : EVMFork) (op : WordOp) (c : VmCpt) :
    (c.stack.items.length < arity op → exec fork op c = .error .StackInsufficient c) ∧
    ∀ args rest, c.stack.items = args ++ rest → args.length = arity op →
      (c.gasMeter.executionGasLeft < dynamicGas fork op args →
        exec fork op c = .error .OutOfGas c) ∧
      (dynamicGas fork op args ≤ c.gasMeter.executionGasLeft →
        ∃ r, YellowPaper op args r ∧
          Returns (dynamicGas fork op args) r rest c (exec fork op c)) := by
  refine ⟨fun hfew => exec_few fork op (length_items c.stack ▸ hfew), ?_⟩
  intro args rest h hargs
  refine ⟨exec_outOfGas fork h hargs, fun hgas => ?_⟩
  match args with
  | [a, b] => exact exec_two fork op hargs.symm h hgas
  | [a, b, n] =>
    have hzero : dynamicGas fork op [a, b, n] = 0 := by
      cases op <;> rfl
    rw [hzero]
    exact exec_three fork op hargs.symm h
  | [] | [_] | _ :: _ :: _ :: _ :: _ => cases op <;> simp [arity] at hargs

end Nimbus.Spec.WordOps
