import Mathlib.Data.List.Basic
import Mathlib.Algebra.Group.Nat.Defs

/-!
# Bytes at a position

Little-endian numbers, and parts of a list at a position, which stay where they are when the
list grows.
-/

namespace Nimbus

/-- The `n` low bytes of a number, the lowest one first. -/
def toBytesLE : Nat → Nat → List UInt8
  | 0, _ => []
  | n + 1, x => UInt8.ofNat x :: toBytesLE n (x / 256)

def fromBytesLE (bytes : List UInt8) : Nat :=
  bytes.foldr (fun byte x => byte.toNat + 256 * x) 0

@[simp] theorem toBytesLE_length (n x : Nat) : (toBytesLE n x).length = n := by
  induction n generalizing x with
  | zero => rfl
  | succ n ih => simp [toBytesLE, ih]

theorem fromBytesLE_toBytesLE (n x : Nat) : fromBytesLE (toBytesLE n x) = x % 256 ^ n := by
  induction n generalizing x with
  | zero => simp [toBytesLE, fromBytesLE, Nat.mod_one]
  | succ n ih =>
    have hrest : fromBytesLE (toBytesLE (n + 1) x) =
        x % 256 + 256 * fromBytesLE (toBytesLE n (x / 256)) := by
      simp [toBytesLE, fromBytesLE]
    rw [hrest, ih, Nat.pow_succ, Nat.mul_comm (256 ^ n), Nat.mod_mul]

theorem toBytesLE_fromBytesLE (bytes : List UInt8) :
    toBytesLE bytes.length (fromBytesLE bytes) = bytes := by
  induction bytes with
  | nil => rfl
  | cons byte bytes ih =>
    have hcons : fromBytesLE (byte :: bytes) = byte.toNat + 256 * fromBytesLE bytes := rfl
    have hlow : UInt8.ofNat (byte.toNat + 256 * fromBytesLE bytes) = byte := by
      apply UInt8.toNat.inj
      simp
    have hhigh : (byte.toNat + 256 * fromBytesLE bytes) / 256 = fromBytesLE bytes := by
      have hbyte := byte.toNat_lt
      omega
    rw [List.length_cons, toBytesLE, hcons, hlow, hhigh, ih]

theorem fromBytesLE_lt (bytes : List UInt8) : fromBytesLE bytes < 256 ^ bytes.length := by
  induction bytes with
  | nil => decide
  | cons byte bytes ih =>
    have hcons : fromBytesLE (byte :: bytes) = byte.toNat + 256 * fromBytesLE bytes := rfl
    have hbyte := byte.toNat_lt
    rw [List.length_cons]
    omega

variable {α : Type*}

theorem length_flatMap_le {β : Type*} {xs : List α} {f : α → List β} {k : Nat}
    (h : ∀ x ∈ xs, (f x).length ≤ k) : (xs.flatMap f).length ≤ xs.length * k := by
  induction xs with
  | nil => exact Nat.zero_le _
  | cons x xs ih =>
    have hfirst := h x List.mem_cons_self
    have hrest := ih fun y hy => h y (.tail _ hy)
    rw [List.flatMap_cons, List.length_append, List.length_cons, Nat.succ_mul]
    omega

/-- `ys` is the part of `xs` that begins at the position. -/
def SliceAt (xs : List α) (pos : Nat) (ys : List α) : Prop :=
  ∃ before after, xs = before ++ (ys ++ after) ∧ before.length = pos

namespace SliceAt

variable {xs ys zs : List α} {pos : Nat}

theorem of_append (before ys after : List α) :
    SliceAt (before ++ (ys ++ after)) before.length ys := ⟨before, after, rfl, rfl⟩

section

variable (h : SliceAt xs pos ys)
include h

theorem append (more : List α) : SliceAt (xs ++ more) pos ys := by
  obtain ⟨before, after, rfl, hpos⟩ := h
  exact ⟨before, after ++ more, by simp, hpos⟩

theorem drop : ∃ after, xs.drop pos = ys ++ after := by
  obtain ⟨before, after, rfl, rfl⟩ := h
  exact ⟨after, List.drop_left⟩

theorem take : (xs.drop pos).take ys.length = ys := by
  obtain ⟨after, hafter⟩ := h.drop
  rw [hafter]
  exact List.take_left

theorem le_length : pos + ys.length ≤ xs.length := by
  obtain ⟨before, after, rfl, rfl⟩ := h
  simp only [List.length_append]
  omega

end

theorem left (h : SliceAt xs pos (ys ++ zs)) : SliceAt xs pos ys := by
  obtain ⟨before, after, rfl, hpos⟩ := h
  exact ⟨before, zs ++ after, by simp, hpos⟩

theorem right (h : SliceAt xs pos (ys ++ zs)) : SliceAt xs (pos + ys.length) zs := by
  obtain ⟨before, after, rfl, rfl⟩ := h
  exact ⟨before ++ ys, after, by simp, by simp⟩

theorem concat (hleft : SliceAt xs pos ys) (hright : SliceAt xs (pos + ys.length) zs) :
    SliceAt xs pos (ys ++ zs) := by
  obtain ⟨before, after, rfl, rfl⟩ := hleft
  obtain ⟨rest, hrest⟩ := hright.drop
  rw [← List.drop_drop, List.drop_left, List.drop_left] at hrest
  rw [hrest]
  exact ⟨before, rest, by simp, rfl⟩

end SliceAt

end Nimbus
