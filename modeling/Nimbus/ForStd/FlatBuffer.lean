import Nimbus.ForStd.Bytes

/-!
# A buffer that is written and read by position

A writer copies parts into a buffer of a fixed size and moves its position behind each of them;
a reader copies parts out and moves the same way. Both stop with no value when a part would reach
past the end of the buffer. The buffer holds anything at first, so what is behind the position of
the writer is arbitrary.
-/

namespace Nimbus.FlatBuffer

variable {α β : Type}

structure Writer (α : Type) where
  packed : List α
  pos : Nat

abbrev PutM (α : Type) := StateT (Writer α) Option

/-- Copies a part to the position. -/
def put (src : List α) : PutM α Unit := fun w =>
  if w.pos + src.length ≤ w.packed.length then
    some ((), ⟨w.packed.take w.pos ++ (src ++ w.packed.drop (w.pos + src.length)),
      w.pos + src.length⟩)
  else none

/-- Copies a part of `n` items, where there are any. -/
def putUnlessEmpty (n : Nat) (src : List α) : PutM α Unit :=
  if n > 0 then put src else pure ()

abbrev GetM := StateT Nat Option

/-- Copies the next `n` elements out. -/
def get (buf : List α) (n : Nat) : GetM (List α) := fun pos =>
  if pos + n ≤ buf.length then some ((buf.drop pos).take n, pos + n) else none

/-- Copies the next `n` elements out, where there are any. -/
def getUnlessEmpty (buf : List α) (n : Nat) : GetM (List α) :=
  if n > 0 then get buf n else pure []

/-! ### Writing -/

/-- The writer that has written the first part of its buffer. -/
def Writer.behind (done free : List α) : Writer α := ⟨done ++ free, done.length⟩

/-- The writer writes these elements, and nothing else. -/
def Writes (m : PutM α Unit) (bytes : List α) : Prop :=
  ∀ done free : List α, bytes.length ≤ free.length →
    m.run (.behind done free) = some ((), .behind (done ++ bytes) (free.drop bytes.length))

namespace Writes

theorem pure : Writes (Pure.pure () : PutM α Unit) [] := by
  intro done free _
  show some ((), Writer.behind done free) = _
  rw [List.append_nil, List.length_nil, List.drop_zero]

theorem put (src : List α) : Writes (put src) src := by
  intro done free hfits
  have hlen : done.length + src.length ≤ (done ++ free).length := by
    rw [List.length_append]
    omega
  show (if done.length + src.length ≤ (done ++ free).length then _ else _) = _
  rw [if_pos hlen]
  simp only [Writer.behind, List.take_left, List.append_assoc, List.length_append,
    ← List.drop_drop, List.drop_left]

theorem bind {m : PutM α Unit} {k : Unit → PutM α Unit} {bytes bytes' : List α}
    (hm : Writes m bytes) (hk : Writes (k ()) bytes') : Writes (m >>= k) (bytes ++ bytes') := by
  intro done free hfits
  rw [List.length_append] at hfits
  have hfirst := hm done free (by omega)
  have hsecond := hk (done ++ bytes) (free.drop bytes.length) (by
    rw [List.length_drop]
    omega)
  rw [StateT.run_bind, hfirst]
  show (k ()).run _ = _
  rw [hsecond, List.append_assoc, List.drop_drop, List.length_append]

/-- A loop over a list writes what its body writes for each element. -/
theorem forM {xs : List β} {body : β → PutM α Unit} {bytes : β → List α}
    (h : ∀ x, Writes (body x) (bytes x)) : Writes (xs.forM body) (xs.flatMap bytes) := by
  induction xs with
  | nil => exact pure
  | cons x xs ih =>
    exact (h x).bind ih

theorem putUnlessEmpty {n : Nat} {src : List α} (hempty : n = 0 → src = []) :
    Writes (putUnlessEmpty n src) src := by
  unfold FlatBuffer.putUnlessEmpty
  by_cases hn : n > 0
  · rw [if_pos hn]
    exact put src
  · rw [if_neg hn, hempty (by omega)]
    exact pure

/-- A buffer that is just as long as what is written ends up holding just that. -/
theorem fill {m : PutM α Unit} {bytes fresh : List α} (h : Writes m bytes)
    (hlen : fresh.length = bytes.length) : m.run ⟨fresh, 0⟩ = some ((), ⟨bytes, bytes.length⟩) := by
  have hrun := h [] fresh (by omega)
  rw [← hlen, List.drop_length] at hrun
  simpa [Writer.behind, hlen] using hrun

end Writes

/-! ### Reading -/

theorem bind_run {γ δ : Type} {m : GetM γ} {f : γ → GetM δ} {pos p : Nat} {d : δ} :
    (m >>= f).run pos = some (d, p) ↔
      ∃ c q, m.run pos = some (c, q) ∧ (f c).run q = some (d, p) := by
  rw [StateT.run_bind, Option.bind_eq_bind, Option.bind_eq_some_iff]
  exact Prod.exists

theorem pure_run {γ : Type} {c d : γ} {pos p : Nat} :
    (pure c : GetM γ).run pos = some (d, p) ↔ c = d ∧ pos = p := by
  show some (c, pos) = some (d, p) ↔ _
  rw [Option.some.injEq, Prod.mk.injEq]

section
variable {buf part : List α} {n pos p : Nat}

theorem get_run (h : SliceAt buf pos part) (hn : part.length = n) :
    (get buf n).run pos = some (part, pos + n) := by
  have hle := h.le_length
  have htake := h.take
  show (if pos + n ≤ buf.length then _ else _) = _
  rw [if_pos (by omega), ← hn, htake]

theorem get_length (h : (get buf n).run pos = some (part, p)) : part.length = n := by
  change (if pos + n ≤ buf.length then some ((buf.drop pos).take n, pos + n) else none) = _ at h
  split at h
  · cases h
    rw [List.length_take, List.length_drop]
    omega
  · cases h

theorem getUnlessEmpty_run (h : SliceAt buf pos part) (hn : part.length = n) :
    (getUnlessEmpty buf n).run pos = some (part, pos + n) := by
  unfold getUnlessEmpty
  by_cases hpos : n > 0
  · rw [if_pos hpos]
    exact get_run h hn
  · obtain rfl : n = 0 := by omega
    rw [List.length_eq_zero_iff.mp hn]
    rfl

theorem getUnlessEmpty_length (h : (getUnlessEmpty buf n).run pos = some (part, p)) :
    part.length = n := by
  unfold getUnlessEmpty at h
  by_cases hpos : n > 0
  · rw [if_pos hpos] at h
    exact get_length h
  · rw [if_neg hpos] at h
    obtain ⟨rfl, -⟩ := pure_run.mp h
    rw [List.length_nil]
    omega

end

end Nimbus.FlatBuffer
