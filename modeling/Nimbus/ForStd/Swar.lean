import Mathlib.Data.Nat.Bitwise
import Mathlib.Data.Nat.Digits.Lemmas

/-!
# Words as lanes

A word is a list of lanes of `w` bits each, the lowest one first. As long as no lane overflows,
the arithmetic of the word is that of its lanes. This is what it takes to look at many bytes
with a few operations on a word.
-/

namespace Nimbus.Swar

variable {α : Type*} {w : Nat}

/-- The word with the given lanes. -/
abbrev word (w : Nat) (ds : List Nat) : Nat := Nat.ofDigits (2 ^ w) ds

theorem word_cons (w d : Nat) (ds : List Nat) : word w (d :: ds) = d + 2 ^ w * word w ds := by
  simp [word, Nat.ofDigits_cons]

theorem word_lt {ds : List Nat} (h : ∀ d ∈ ds, d < 2 ^ w) : word w ds < 2 ^ (w * ds.length) := by
  induction ds with
  | nil => simp [word]
  | cons d ds ih =>
    have hd := h d List.mem_cons_self
    have hrest := ih fun e he => h e (.tail _ he)
    rw [List.length_cons, Nat.mul_succ, Nat.add_comm _ w, Nat.pow_add]
    calc d + 2 ^ w * word w ds < 2 ^ w + 2 ^ w * word w ds := Nat.add_lt_add_right hd _
      _ = 2 ^ w * (word w ds + 1) := by ring
      _ ≤ 2 ^ w * 2 ^ (w * ds.length) := Nat.mul_le_mul_left _ hrest

/-- The lowest lane and the other ones do not meet. -/
theorem bitwise_lane {f : Bool → Bool → Bool} (hf : f false false = false) {a b : Nat}
    (ha : a < 2 ^ w) (hb : b < 2 ^ w) (x y : Nat) :
    Nat.bitwise f (a + 2 ^ w * x) (b + 2 ^ w * y) =
      Nat.bitwise f a b + 2 ^ w * Nat.bitwise f x y := by
  have hlane : Nat.bitwise f a b < 2 ^ w := Nat.bitwise_lt_two_pow ha hb
  apply Nat.eq_of_testBit_eq
  intro i
  rw [Nat.testBit_bitwise hf, Nat.add_comm a, Nat.add_comm b, Nat.add_comm (Nat.bitwise f a b),
    Nat.testBit_two_pow_mul_add _ ha, Nat.testBit_two_pow_mul_add _ hb,
    Nat.testBit_two_pow_mul_add _ hlane]
  split
  · rw [Nat.testBit_bitwise hf]
  · rw [Nat.testBit_bitwise hf]

theorem word_bitwise {f : Bool → Bool → Bool} (hf : f false false = false) {g h : α → Nat}
    {xs : List α} (hg : ∀ a ∈ xs, g a < 2 ^ w) (hh : ∀ a ∈ xs, h a < 2 ^ w) :
    Nat.bitwise f (word w (xs.map g)) (word w (xs.map h)) =
      word w (xs.map fun a => Nat.bitwise f (g a) (h a)) := by
  induction xs with
  | nil => simp [word]
  | cons a xs ih =>
    have hrest := ih (fun b hb => hg b (.tail _ hb))
      fun b hb => hh b (.tail _ hb)
    simp only [List.map_cons, word_cons]
    rw [bitwise_lane hf (hg a List.mem_cons_self) (hh a List.mem_cons_self), hrest]

section

variable {g h : α → Nat} {xs : List α} (hg : ∀ a ∈ xs, g a < 2 ^ w) (hh : ∀ a ∈ xs, h a < 2 ^ w)
include g h hg hh

theorem word_and : word w (xs.map g) &&& word w (xs.map h) = word w (xs.map fun a => g a &&& h a) :=
  word_bitwise rfl hg hh

theorem word_or : word w (xs.map g) ||| word w (xs.map h) = word w (xs.map fun a => g a ||| h a) :=
  word_bitwise rfl hg hh

theorem word_xor : word w (xs.map g) ^^^ word w (xs.map h) = word w (xs.map fun a => g a ^^^ h a) :=
  word_bitwise rfl hg hh

end

theorem word_add (g h : α → Nat) (xs : List α) :
    word w (xs.map g) + word w (xs.map h) = word w (xs.map fun a => g a + h a) := by
  induction xs with
  | nil => rfl
  | cons a xs ih =>
    simp only [List.map_cons, word_cons]
    rw [← ih]
    ring

theorem word_mul (g : α → Nat) (k : Nat) (xs : List α) :
    word w (xs.map fun a => k * g a) = k * word w (xs.map g) := by
  induction xs with
  | nil => simp [word]
  | cons a xs ih =>
    simp only [List.map_cons, word_cons]
    rw [ih]
    ring

theorem word_compl {g : α → Nat} {xs : List α} (hg : ∀ a ∈ xs, g a < 2 ^ w) :
    2 ^ (w * xs.length) - 1 - word w (xs.map g) = word w (xs.map fun a => 2 ^ w - 1 - g a) := by
  have hsum : word w (xs.map g) + word w (xs.map fun a => 2 ^ w - 1 - g a) + 1 =
      2 ^ (w * xs.length) := by
    rw [word_add]
    induction xs with
    | nil => simp [word]
    | cons a xs ih =>
      have ha := hg a List.mem_cons_self
      have hrest := ih fun b hb => hg b (.tail _ hb)
      have hlane : g a + (2 ^ w - 1 - g a) = 2 ^ w - 1 := by omega
      rw [List.map_cons, word_cons, List.length_cons, Nat.mul_succ, Nat.add_comm _ w, Nat.pow_add,
        ← hrest, Nat.mul_add]
      omega
  omega

/-! ## Lanes that are zero -/

/-- A one in each of `n` lanes. -/
abbrev ones (w n : Nat) : Nat := word w (List.replicate n 1)

/-- The highest bit of each of `n` lanes. -/
abbrev highs (w n : Nat) : Nat := word w (List.replicate n (2 ^ (w - 1)))

/-- `(v - ones) and not v and highs`, in words of `n` lanes. -/
def zeroTest (w n v : Nat) : Nat :=
  (v + 2 ^ (w * n) - ones w n) % 2 ^ (w * n) &&& (2 ^ (w * n) - 1 - v) &&& highs w n

theorem ones_lt (hw : 0 < w) (n : Nat) : ones w n < 2 ^ (w * n) := by
  have hlanes : ∀ d ∈ List.replicate n 1, d < 2 ^ w := by
    intro d hd
    rw [List.eq_of_mem_replicate hd]
    exact Nat.one_lt_two_pow hw.ne'
  have hlt := word_lt hlanes
  rwa [List.length_replicate] at hlt

/-- A lane that is not zero does not borrow, and its high bit does not appear. -/
theorem zeroTest_cons_pos (hw : 0 < w) {d n x : Nat} (hpos : 0 < d) (hd : d < 2 ^ w)
    (hx : x < 2 ^ (w * n)) : zeroTest w (n + 1) (d + 2 ^ w * x) = 2 ^ w * zeroTest w n x := by
  have hones := ones_lt hw n
  have hB := Nat.two_pow_pos w
  have hhigh : 2 ^ (w - 1) < 2 ^ w := Nat.pow_lt_pow_right (by decide) (by omega)
  have hM : 2 ^ (w * (n + 1)) = 2 ^ w * 2 ^ (w * n) := by
    rw [Nat.mul_succ, Nat.add_comm, Nat.pow_add]
  have honesCons : ones w (n + 1) = 1 + 2 ^ w * ones w n := word_cons w 1 _
  have hhighsCons : highs w (n + 1) = 2 ^ (w - 1) + 2 ^ w * highs w n := word_cons w _ _
  unfold zeroTest
  rw [honesCons, hhighsCons, hM]
  generalize 2 ^ (w * n) = M at *
  generalize ones w n = o at *
  generalize highs w n = hi at *
  -- the difference, lane by lane
  have hsub : d + 2 ^ w * x + 2 ^ w * M - (1 + 2 ^ w * o) = (d - 1) + 2 ^ w * (x + M - o) := by
    have hsum : 2 ^ w * (x + M - o) + 2 ^ w * o = 2 ^ w * x + 2 ^ w * M := by
      rw [← Nat.mul_add, ← Nat.mul_add, Nat.sub_add_cancel (by omega)]
    omega
  have hmod : (d - 1 + 2 ^ w * (x + M - o)) % (2 ^ w * M) = (d - 1) + 2 ^ w * ((x + M - o) % M) := by
    rw [Nat.mod_mul, Nat.add_mul_mod_self_left, Nat.mod_eq_of_lt (by omega),
      Nat.add_mul_div_left _ _ hB, Nat.div_eq_of_lt (by omega), Nat.zero_add]
  have hcompl : 2 ^ w * M - 1 - (d + 2 ^ w * x) = (2 ^ w - 1 - d) + 2 ^ w * (M - 1 - x) := by
    have hsum : 2 ^ w * (M - 1 - x) + 2 ^ w * x + 2 ^ w = 2 ^ w * M := by
      rw [← Nat.mul_add, ← Nat.mul_succ]
      congr 1
      omega
    omega
  have hlane : (d - 1) &&& (2 ^ w - 1 - d) &&& 2 ^ (w - 1) = 0 := by
    apply Nat.eq_of_testBit_eq
    intro i
    rw [Nat.testBit_and, Nat.testBit_and, Nat.zero_testBit]
    by_cases hi : w - 1 = i
    · subst hi
      -- the high bit of `d - 1` is one of `d`
      have htop : 2 ^ w = 2 ^ (w - 1) + 2 ^ (w - 1) := by
        rw [← Nat.two_mul, ← Nat.pow_succ', Nat.succ_eq_add_one, Nat.sub_add_cancel hw]
      rw [Nat.testBit_eq_decide_div_mod_eq, Nat.testBit_eq_decide_div_mod_eq]
      by_cases hhalf : d - 1 < 2 ^ (w - 1)
      · rw [Nat.div_eq_of_lt hhalf]
        rfl
      · have hlow : 2 ^ w - 1 - d < 2 ^ (w - 1) := by omega
        rw [Nat.div_eq_of_lt hlow]
        simp
    · simp [hi]
  rw [hsub, hmod, hcompl]
  have hand := bitwise_lane (f := and) (w := w) rfl (a := d - 1) (b := 2 ^ w - 1 - d) (by omega)
    (by omega) ((x + M - o) % M) (M - 1 - x)
  have hand' := bitwise_lane (f := and) (w := w) rfl (a := (d - 1) &&& (2 ^ w - 1 - d))
    (b := 2 ^ (w - 1)) (Nat.lt_of_le_of_lt Nat.and_le_left (by omega)) hhigh
    ((x + M - o) % M &&& (M - 1 - x)) hi
  calc _ = Nat.bitwise and (Nat.bitwise and (d - 1 + 2 ^ w * ((x + M - o) % M))
        (2 ^ w - 1 - d + 2 ^ w * (M - 1 - x))) (2 ^ (w - 1) + 2 ^ w * hi) := rfl
    _ = _ := by
      rw [hand]
      refine hand'.trans ?_
      rw [show Nat.bitwise and _ (2 ^ (w - 1)) = 0 from hlane, Nat.zero_add]
      rfl

theorem zeroTest_cons_zero (hw : 0 < w) {n x : Nat} (hx : x < 2 ^ (w * n)) :
    zeroTest w (n + 1) (0 + 2 ^ w * x) ≠ 0 := by
  have hones := ones_lt hw n
  have hB := Nat.two_pow_pos w
  have hhigh : 2 ^ (w - 1) < 2 ^ w := Nat.pow_lt_pow_right (by decide) (by omega)
  have hM : 2 ^ (w * (n + 1)) = 2 ^ w * 2 ^ (w * n) := by
    rw [Nat.mul_succ, Nat.add_comm, Nat.pow_add]
  have honesCons : ones w (n + 1) = 1 + 2 ^ w * ones w n := word_cons w 1 _
  have hhighsCons : highs w (n + 1) = 2 ^ (w - 1) + 2 ^ w * highs w n := word_cons w _ _
  unfold zeroTest
  rw [honesCons, hhighsCons, hM]
  generalize 2 ^ (w * n) = M at *
  generalize ones w n = o at *
  generalize highs w n = hi at *
  have hsub : 0 + 2 ^ w * x + 2 ^ w * M - (1 + 2 ^ w * o) =
      (2 ^ w - 1) + 2 ^ w * (x + M - 1 - o) := by
    have hsum : 2 ^ w * (x + M - 1 - o) + 2 ^ w * o + 2 ^ w = 2 ^ w * x + 2 ^ w * M := by
      rw [← Nat.mul_add, ← Nat.mul_add, ← Nat.mul_succ]
      congr 1
      omega
    omega
  have hcompl : 2 ^ w * M - 1 - (0 + 2 ^ w * x) = (2 ^ w - 1) + 2 ^ w * (M - 1 - x) := by
    have hsum : 2 ^ w * (M - 1 - x) + 2 ^ w * x + 2 ^ w = 2 ^ w * M := by
      rw [← Nat.mul_add, ← Nat.mul_succ]
      congr 1
      omega
    omega
  have hmod : (2 ^ w - 1 + 2 ^ w * (x + M - 1 - o)) % (2 ^ w * M) =
      (2 ^ w - 1) + 2 ^ w * ((x + M - 1 - o) % M) := by
    rw [Nat.mod_mul, Nat.add_mul_mod_self_left, Nat.mod_eq_of_lt (by omega),
      Nat.add_mul_div_left _ _ hB, Nat.div_eq_of_lt (by omega), Nat.zero_add]
  rw [hsub, hcompl, hmod]
  -- the high bit of the lowest lane
  intro hzero
  have hbit := congrArg (Nat.testBit · (w - 1)) hzero
  simp only [Nat.testBit_and, Nat.zero_testBit] at hbit
  rw [Nat.add_comm, Nat.testBit_two_pow_mul_add _ (by omega), Nat.add_comm (2 ^ w - 1),
    Nat.testBit_two_pow_mul_add _ (by omega), Nat.add_comm (2 ^ (w - 1)),
    Nat.testBit_two_pow_mul_add _ hhigh] at hbit
  have hlt : w - 1 < w := by omega
  simp [hlt, Nat.testBit_two_pow_sub_one, Nat.testBit_two_pow_self] at hbit

/-- The test finds out whether there is a lane that is zero. -/
theorem zeroTest_ne_zero (hw : 0 < w) {ds : List Nat} (h : ∀ d ∈ ds, d < 2 ^ w) :
    zeroTest w ds.length (word w ds) ≠ 0 ↔ 0 ∈ ds := by
  induction ds with
  | nil => simp [zeroTest, word]
  | cons d ds ih =>
    have hd := h d List.mem_cons_self
    have hrest := fun e he => h e (List.mem_cons_of_mem d he)
    rw [List.length_cons, word_cons]
    by_cases hzero : d = 0
    · subst hzero
      exact iff_of_true (zeroTest_cons_zero hw (word_lt hrest)) List.mem_cons_self
    · rw [zeroTest_cons_pos hw (Nat.pos_of_ne_zero hzero) hd (word_lt hrest), List.mem_cons,
        or_iff_right (Ne.symm hzero), ← ih hrest]
      simp
 
end Nimbus.Swar
