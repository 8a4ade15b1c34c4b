import Mathlib.Data.Nat.ModEq
import Nimbus.Native.ConcurrentQueue

/-!
# The queue between two threads

A side looks at the index of the other side without the lock first, and goes to sleep only
under it, so that no wake-up gets lost.
-/

namespace Nimbus.Spec.Queue

open Nimbus.Native.Queue
open Function (update)

variable {T : Type} [Inhabited T] {E : Nat} {q q' : ConcurrentQueue T} {s : Side}

/-! ## The lock and the sleepers -/

/-- The places behind the lock. -/
def holds (t : Thread T) : Bool :=
  match t.pc with
  | .signal | .unlock | .setWaiting | .clearWaiting | .wait => true
  | .load | .refresh | .access | .publish => t.mode = .locked
  | _ => false

/-- The places where the flag of a thread is set, until it has found what it waits for. -/
def waits (t : Thread T) : Bool :=
  match t.pc with
  | .wait | .asleep | .woken => true
  | .load | .refresh => t.mode = .locked
  | _ => false

/-- The places between the move of an index and the signal. -/
def waking : Pc → Bool
  | .peer | .lockSignal | .clearWaiting | .signal => true
  | _ => false

def behind : Pc → Bool
  | .wait | .asleep | .woken => true
  | _ => false

def sleeps : Pc → Bool
  | .wait | .asleep => true
  | _ => false

/-- How far the index of a side may go beyond the other one. -/
def gap (E : Nat) : Side → Nat
  | .producer => capacity E
  | .consumer => 0

def count (q : ConcurrentQueue T) (s : Side) : Nat := (q.moved s).length

structure Control (E : Nat) (q : ConcurrentQueue T) : Prop where
  lock : ∀ s, q.lock = some s ↔ holds (q.thread s) = true
  mode : ∀ s, behind (q.thread s).pc = true → (q.thread s).mode = .locked
  waiting : ∀ s, waits (q.thread s) = true → q.waiting s = true
  wake : ∀ s, sleeps (q.thread s).pc = true →
    count q s = count q s.other + gap E s ∨ waking (q.thread s.other).pc = true

theorem side_cases (s : Side) {P : Side → Prop} (h : P s) (h' : P s.other) : ∀ s', P s' := by
  intro s'
  cases s <;> cases s' <;> assumption

theorem other_ne (s : Side) : s.other ≠ s := by cases s <;> nofun

theorem other_other (s : Side) : s.other.other = s := by cases s <;> rfl

variable {t : Thread T} {seen : Side → Nat}

omit [Inhabited T] in
/-- A step of one thread. If it moves an index, a signal is still to come. -/
theorem Control.move (hc : Control E q) (hthread : q'.thread = update q.thread s t)
    (hmoved : q'.moved = q.moved ∨ waking t.pc = true) (hlock : q'.lock = some s ↔ holds t = true)
    (hother : q'.lock = some s.other ↔ q.lock = some s.other)
    (hmode : behind t.pc = true → t.mode = .locked) (hwaits : waits t = true → q'.waiting s = true)
    (hwaiting : q'.waiting s.other = q.waiting s.other) (hsleep : sleeps t.pc = true →
      count q s = count q s.other + gap E s ∨ waking (q.thread s.other).pc = true)
    (hwake : waking (q.thread s).pc = true → waking t.pc = true ∨
      sleeps (q.thread s.other).pc = false) : Control E q' := by
  have hself : q'.thread s = t := by rw [hthread, Function.update_self]
  have hrest : q'.thread s.other = q.thread s.other := by
    rw [hthread, Function.update_of_ne (other_ne s)]
  refine ⟨side_cases s ?_ ?_, side_cases s ?_ ?_, side_cases s ?_ ?_, side_cases s ?_ ?_⟩
  · rwa [hself]
  · rw [hother, hrest]
    exact hc.lock _
  · rwa [hself]
  · rw [hrest]
    exact hc.mode _
  · rwa [hself]
  · rw [hrest, hwaiting]
    exact hc.waiting _
  · rw [hself, hrest]
    intro hasleep
    rcases hmoved with hmoved | hmoved
    · unfold count
      rw [hmoved]
      exact hsleep hasleep
    · revert hmoved hasleep
      cases t.pc <;> simp [sleeps, waking]
  · rw [other_other, hself, hrest]
    intro hasleep
    have hold := hc.wake _ hasleep
    rw [other_other] at hold
    rcases hmoved with hmoved | hmoved
    · rcases hold with hold | hold
      · unfold count
        rw [hmoved]
        exact .inl hold
      · refine .inr ((hwake hold).resolve_right fun hno => ?_)
        rw [hasleep] at hno
        cases hno
    · exact .inr hmoved

omit [Inhabited T] in
theorem Control.woken (hc : Control E q) (hpc : (q.thread s).pc = .asleep) :
    Control E (goto q s .woken) := by
  have hlock := hc.lock s
  have hmode := hc.mode s
  have hwaiting := hc.waiting s
  refine hc.move (s := s) rfl (.inl rfl) ?_ Iff.rfl ?_ ?_ rfl ?_ ?_ <;>
    simp_all [holds, waits, waking, behind, sleeps, goto]

theorem runThread_control (hc : Control E q) (h : runThread E q s = some q')
    (hstuck : (q.thread s).pc = .refresh → probe E s (q.thread s).index = q.index s.other →
      count q s = count q s.other + gap E s) : Control E q' := by
  have hlock := hc.lock s
  have hmode := hc.mode s
  have hwaiting := hc.waiting s
  have hwake := hc.wake s
  have hne := (other_ne s).symm
  -- the other thread is not asleep if its flag is not set, or if it has the lock
  have hflag : q.waiting s.other = false → sleeps (q.thread s.other).pc = false := by
    intro hclear
    have hset := hc.waiting s.other
    rw [hclear] at hset
    revert hset
    cases hpc : (q.thread s.other).pc <;> simp [waits, sleeps, hpc]
  have hwait : q.lock = some s → (q.thread s.other).pc ≠ .wait := by
    intro hheld hpc
    have hother := (hc.lock s.other).mpr (by simp [holds, hpc])
    rw [hheld] at hother
    exact hne (Option.some.inj hother)
  unfold runThread acquire at h
  cases hpc : (q.thread s).pc with
  | signal =>
    simp only [hpc] at h
    cases h
    unfold signal
    split
    · next hasleep =>
      refine (hc.woken hasleep).move (s := s) rfl (.inl rfl) ?_ Iff.rfl ?_ ?_ rfl ?_ ?_ <;>
        simp_all [holds, waits, waking, behind, sleeps, goto]
    · next hawake =>
      refine hc.move (s := s) rfl (.inl rfl) ?_ Iff.rfl ?_ ?_ rfl ?_ fun _ => .inr ?_
      · simp_all [holds, goto]
      · simp_all [behind]
      · simp_all [waits, goto]
      · simp_all [sleeps]
      · revert hawake hwait
        cases hother : (q.thread s.other).pc <;> simp_all [sleeps, holds]
  | refresh =>
    simp only [hpc] at h
    cases h
    unfold refresh
    cases hmode : (q.thread s).mode <;>
      refine hc.move (s := s) rfl (.inl rfl) ?_ Iff.rfl ?_ ?_ rfl ?_ ?_ <;>
      simp_all [holds, waits, waking, behind, sleeps, goto] <;> grind
  | access =>
    simp only [hpc] at h
    cases h
    unfold access
    cases s <;> refine hc.move rfl (.inl rfl) ?_ Iff.rfl ?_ ?_ rfl ?_ ?_ <;>
      simp_all [holds, waits, waking, behind, sleeps, goto]
  | publish =>
    simp only [hpc] at h
    cases h
    unfold publish
    cases hmode : (q.thread s).mode <;>
      refine hc.move (s := s) rfl (.inr ?_) ?_ Iff.rfl ?_ ?_ rfl ?_ ?_ <;>
      simp_all [holds, waits, waking, behind, sleeps, goto]
  | idle | asleep =>
    simp only [hpc] at h
    cases h
  | lockSignal | lock | woken =>
    simp only [hpc] at h
    split at h
    · cases h
      refine hc.move (s := s) rfl (.inl rfl) ?_ ?_ ?_ ?_ rfl ?_ ?_ <;>
        simp_all [holds, waits, waking, behind, sleeps, goto]
    · cases h
  | load =>
    simp only [hpc] at h
    cases h
    unfold load
    dsimp only
    split
    · refine hc.move (s := s) rfl (.inl rfl) ?_ Iff.rfl ?_ ?_ rfl ?_ ?_ <;>
        simp_all [holds, waits, waking, behind, sleeps]
    · refine hc.move (s := s) rfl (.inl rfl) ?_ Iff.rfl ?_ ?_ rfl ?_ ?_ <;>
        simp_all [holds, waits, waking, behind, sleeps]
  | peer =>
    simp only [hpc] at h
    cases h
    split
    · refine hc.move (s := s) rfl (.inl rfl) ?_ Iff.rfl ?_ ?_ rfl ?_ ?_ <;>
        simp_all [holds, waits, waking, behind, sleeps, goto]
    · refine hc.move (s := s) rfl (.inl rfl) ?_ Iff.rfl ?_ ?_ rfl ?_ ?_ <;>
        simp_all [holds, waits, waking, behind, sleeps, goto]
  | unlock | wait =>
    simp only [hpc] at h
    cases h
    refine hc.move (s := s) rfl (.inl rfl) ?_ ?_ ?_ ?_ rfl ?_ ?_ <;>
      simp_all [holds, waits, waking, behind, sleeps, goto]
  | setWaiting | clearWaiting =>
    simp only [hpc] at h
    cases h
    refine hc.move (s := s) rfl (.inl rfl) ?_ Iff.rfl ?_ ?_
      (Function.update_of_ne (other_ne s) _ _) ?_ ?_ <;>
      simp_all [holds, waits, waking, behind, sleeps, goto]

/-! ## The values -/

def indexed : Pc → Bool
  | .refresh | .access | .publish => true
  | _ => false

/-- The values that a side has moved, and the one that is in its slot or out of it but not counted
yet. -/
def inHand (q : ConcurrentQueue T) (s : Side) : List T :=
  q.moved s ++ if (q.thread s).pc = .publish then [(q.thread s).value] else []

/-- Indices are counts modulo the number of slots. `seen` has the counts behind the cached ones. -/
structure Fifo (E : Nat) (q : ConcurrentQueue T) (seen : Side → Nat) : Prop where
  index : ∀ s, q.index s = count q s % 2 ^ E
  cached : ∀ s, q.cached s = seen s % 2 ^ E
  seen_le : ∀ s, seen s ≤ count q s.other
  room : ∀ s, count q s ≤ seen s + gap E s
  reg : ∀ s, indexed (q.thread s).pc = true → (q.thread s).index = q.index s
  free : ∀ s, (q.thread s).pc = .access ∨ (q.thread s).pc = .publish →
    count q s < seen s + gap E s
  order : inHand q .consumer <+: q.moved .producer
  slots : ∀ k v, (inHand q .consumer).length ≤ k → (inHand q .producer)[k]? = some v →
    q.data (k % 2 ^ E) = v

theorem capacity_succ (E : Nat) : capacity E + 1 = 2 ^ E := by
  have hpos := Nat.two_pow_pos E
  rw [capacity]
  omega

theorem and_maskOf (E i : Nat) : i &&& maskOf E = i % 2 ^ E := by
  rw [maskOf, Nat.one_shiftLeft, Nat.and_two_pow_sub_one_eq_mod]

theorem mod_inj {a b n : Nat} (hle : a ≤ b) (hlt : b < a + n) (h : a % n = b % n) : a = b := by
  have hsub := Nat.sub_mod_eq_zero_of_mod_eq h.symm
  rw [Nat.mod_eq_of_lt (by omega)] at hsub
  omega

omit [Inhabited T] in
theorem concat_prefix {l m : List T} {v : T} (h : l <+: m) (hv : m[l.length]? = some v) :
    l ++ [v] <+: m := by
  obtain ⟨r, rfl⟩ := h
  rw [List.getElem?_append_right (Nat.le_refl _), Nat.sub_self] at hv
  cases r with
  | nil => cases hv
  | cons w r =>
    cases hv
    exact ⟨r, by simp⟩

namespace Fifo

omit [Inhabited T]

section

variable (hf : Fifo E q seen)
include hf

theorem bounds : count q .consumer ≤ count q .producer ∧
    count q .producer < count q .consumer + 2 ^ E := by
  have hp : seen .producer ≤ count q .consumer := hf.seen_le .producer
  have hc : seen .consumer ≤ count q .producer := hf.seen_le .consumer
  have hp' : _ ≤ _ + capacity E := hf.room .producer
  have hc' : _ ≤ _ + 0 := hf.room .consumer
  have hsize := capacity_succ E
  omega

/-- The comparison with an index that the other side has had since. -/
theorem probe_iff {c : Nat} (hle : c ≤ count q s.other) (hroom : count q s ≤ c + gap E s) :
    probe E s (q.index s) = c % 2 ^ E ↔ count q s = c + gap E s := by
  obtain ⟨hcp, hpc⟩ := hf.bounds
  have hsize := capacity_succ E
  rw [hf.index]
  cases s with
  | producer =>
    have hle : c ≤ count q .consumer := hle
    have hroom : _ ≤ c + capacity E := hroom
    show _ &&& _ = _ ↔ _ = c + capacity E
    rw [and_maskOf, Nat.mod_add_mod, ← Nat.add_mod_right c]
    refine ⟨fun h => ?_, fun h => by rw [h, Nat.add_assoc, hsize]⟩
    have heq := mod_inj (by omega) (by omega) h
    omega
  | consumer =>
    have hle : c ≤ count q .producer := hle
    have hlt : c < count q .consumer + 2 ^ E := by omega
    exact ⟨mod_inj hroom hlt, congrArg (· % 2 ^ E)⟩

/-- A step that is about one thread alone. -/
theorem move (hthread : q'.thread = update q.thread s t)
    (hindex : q'.index = q.index) (hcached : q'.cached = q.cached) (hdata : q'.data = q.data)
    (hmoved : q'.moved = q.moved) (hpc : (q.thread s).pc ≠ .publish) (hnot : t.pc ≠ .publish)
    (hreg : indexed t.pc = true → t.index = q.index s)
    (hfree : t.pc = .access → count q s < seen s + gap E s) : Fifo E q' seen := by
  have hcount : count q' = count q := by
    unfold count
    rw [hmoved]
  have hself : q'.thread s = t := by rw [hthread, Function.update_self]
  have hrest : q'.thread s.other = q.thread s.other := by
    rw [hthread, Function.update_of_ne (other_ne s)]
  have hhand : inHand q' = inHand q := by
    unfold inHand
    rw [hmoved]
    refine funext (side_cases s ?_ ?_)
    · rw [hself, if_neg hnot, if_neg hpc]
    · rw [hrest]
  refine ⟨?_, ?_, ?_, ?_, side_cases s ?_ ?_, side_cases s ?_ ?_, ?_, ?_⟩
  · rw [hindex, hcount]
    exact hf.index
  · rw [hcached]
    exact hf.cached
  · rw [hcount]
    exact hf.seen_le
  · rw [hcount]
    exact hf.room
  · rw [hself, hindex]
    exact hreg
  · rw [hrest, hindex]
    exact hf.reg _
  · rw [hself, hcount]
    exact fun h => hfree (h.resolve_right hnot)
  · rw [hrest, hcount]
    exact hf.free _
  · rw [hhand, hmoved]
    exact hf.order
  · rw [hhand, hdata]
    exact hf.slots

theorem refreshed (s : Side) : Fifo E { q with cached := update q.cached s (q.index s.other) }
      (update seen s (count q s.other)) := by
  have hself := Function.update_self s (count q s.other) seen
  have hrest := Function.update_of_ne (other_ne s) (count q s.other) seen
  refine { hf with
    cached := side_cases s ?_ ?_, seen_le := side_cases s ?_ ?_, room := side_cases s ?_ ?_
    free := side_cases s ?_ ?_ }
  · rw [hself, ← hf.index]
    exact Function.update_self ..
  · rw [hrest, ← hf.cached]
    exact Function.update_of_ne (other_ne s) ..
  · exact hself.le
  · exact hrest.le.trans (hf.seen_le _)
  · rw [hself]
    exact (hf.room s).trans (Nat.add_le_add_right (hf.seen_le s) _)
  · rw [hrest]
    exact hf.room _
  · rw [hself]
    exact fun h => (hf.free s h).trans_le (Nat.add_le_add_right (hf.seen_le s) _)
  · rw [hrest]
    exact hf.free _

theorem of_load (hpc : (q.thread s).pc = .load) : Fifo E (load E q s) seen := by
  refine hf.move (s := s) rfl rfl rfl rfl rfl (by rw [hpc]; nofun) ?_ (fun _ => rfl) ?_
  · split <;> nofun
  · split
    · next h =>
      intro _
      have hne := h.2
      rw [hf.cached, Ne, hf.probe_iff (hf.seen_le s) (hf.room s)] at hne
      exact lt_of_le_of_ne (hf.room s) hne
    · nofun

theorem of_refresh (hpc : (q.thread s).pc = .refresh) :
    Fifo E (refresh E q s) (update seen s (count q s.other)) := by
  have hindex := hf.reg s (by rw [hpc]; rfl)
  have hroom := (hf.room s).trans (Nat.add_le_add_right (hf.seen_le s) _)
  refine (hf.refreshed s).move (s := s) rfl rfl rfl rfl rfl ?_ ?_ (fun _ => hindex) ?_
  · rw [hpc]
    nofun
  · split
    · nofun
    · split <;> nofun
  · rw [Function.update_self]
    split
    · next hne =>
      intro _
      rw [hindex, hf.index s.other, Ne, hf.probe_iff (Nat.le_refl _) hroom] at hne
      exact lt_of_le_of_ne hroom hne
    · split <;> nofun

/-- The slot that the producer writes is not one of those that are still to be read. -/
theorem fresh (hlt : count q .producer < seen .producer + gap E .producer)
    {k : Nat} (hle : count q .consumer ≤ k) (hk : k < count q .producer) :
    k % 2 ^ E ≠ count q .producer % 2 ^ E := by
  have hseen : seen .producer ≤ count q .consumer := hf.seen_le .producer
  have hlt : _ < _ + capacity E := hlt
  have hsize := capacity_succ E
  intro h
  have heq := mod_inj (Nat.le_of_lt hk) (by omega) h
  omega

theorem written (hlt : count q .consumer < seen .consumer + gap E .consumer) :
    count q .consumer < count q .producer :=
  Nat.lt_of_lt_of_le hlt (hf.seen_le .consumer)

theorem inHand_length : (inHand q .producer).length < count q .consumer + 2 ^ E := by
  unfold inHand
  split
  · next hpc =>
    have hseen : seen .producer ≤ count q .consumer := hf.seen_le .producer
    have hfree : (q.moved .producer).length < _ + capacity E := hf.free _ (.inr hpc)
    have hsize := capacity_succ E
    rw [List.length_append, List.length_singleton]
    omega
  · rw [List.append_nil]
    exact hf.bounds.2

end

omit [Inhabited T] in
theorem inHand_of_ne (hpc : (q.thread s).pc ≠ .publish) : inHand q s = q.moved s := by
  rw [inHand, if_neg hpc, List.append_nil]

/-- The value that the consumer takes is the next one. -/
theorem next (hf : Fifo E q seen) (hpc : (q.thread .consumer).pc = .access) :
    (q.moved .producer)[count q .consumer]? = some (q.data (q.thread .consumer).index) := by
  have hlt := hf.written (hf.free .consumer (.inl hpc))
  have hhand : inHand q .consumer = q.moved .consumer := inHand_of_ne (by rw [hpc]; nofun)
  have hget := List.getElem?_eq_getElem hlt
  rw [hf.reg .consumer (by rw [hpc]; rfl), hf.index, hget]
  refine congrArg some (hf.slots _ _ (by rw [hhand]; rfl) ?_).symm
  exact (List.getElem?_append_left hlt).trans hget

theorem of_access [Inhabited T] (hf : Fifo E q seen) (hpc : (q.thread s).pc = .access) :
    Fifo E (access q s) seen := by
  have hindex := hf.reg s (by rw [hpc]; rfl)
  have hfree := hf.free s (.inl hpc)
  have hhand : inHand q s = q.moved s := inHand_of_ne (by rw [hpc]; nofun)
  rw [hf.index] at hindex
  cases s with
  | producer =>
    refine { hf with
      reg := side_cases .producer (fun _ => hf.reg .producer (by rw [hpc]; rfl)) (hf.reg .consumer)
      free := side_cases .producer (fun _ => hfree) (hf.free .consumer)
      slots := fun k v hk hv => ?_ }
    have hv : (q.moved .producer ++ [(q.thread .producer).value])[k]? = some v := hv
    show update q.data _ _ _ = v
    rcases Nat.lt_or_ge k (count q .producer) with hlt | hge
    · have hle : count q .consumer ≤ k := by
        rw [inHand, List.length_append] at hk
        exact (Nat.le_add_right _ _).trans hk
      have hne := hf.fresh hfree hle hlt
      rw [← hindex] at hne
      rw [List.getElem?_append_left hlt] at hv
      rw [Function.update_of_ne hne]
      exact hf.slots k v hk (hhand ▸ hv)
    · rw [List.getElem?_append_right hge, List.getElem?_singleton] at hv
      split at hv
      · next hzero =>
        rw [Nat.le_antisymm (Nat.le_of_sub_eq_zero hzero) hge, ← Option.some.inj hv]
        exact hindex ▸ Function.update_self ..
      · cases hv
  | consumer =>
    refine { hf with
      reg := side_cases .consumer (fun _ => hf.reg .consumer (by rw [hpc]; rfl)) (hf.reg .producer)
      free := side_cases .consumer (fun _ => hfree) (hf.free .producer)
      order := concat_prefix (hhand ▸ hf.order) (hf.next hpc)
      slots := fun k v hk hv => ?_ }
    have hk : (q.moved .consumer ++ [_]).length ≤ k := hk
    rw [List.length_append, List.length_singleton] at hk
    have hlt := (List.getElem?_eq_some_iff.mp hv).1
    have hlength := hf.inHand_length
    have hne : k % 2 ^ E ≠ (q.thread .consumer).index := by
      rw [hindex]
      intro h
      have heq := mod_inj (Nat.le_of_lt hk) (hlt.trans hlength) h.symm
      omega
    exact (Function.update_of_ne hne ..).trans (hf.slots k v (by rw [hhand]; omega) hv)

theorem of_publish (hf : Fifo E q seen) (hpc : (q.thread s).pc = .publish) :
    Fifo E (publish E q s) seen := by
  have hindex := hf.reg s (by rw [hpc]; rfl)
  have hfree := hf.free s (.inr hpc)
  have hnext : (publish E q s).index s = (count q s + 1) % 2 ^ E := by
    refine (Function.update_self ..).trans ?_
    rw [hindex, hf.index, and_maskOf, Nat.mod_add_mod]
  have hnot : indexed ((publish E q s).thread s).pc = false := by
    rw [show (publish E q s).thread s = _ from Function.update_self ..]
    split <;> rfl
  have hmoved : (publish E q s).moved s = inHand q s := by
    rw [inHand, if_pos hpc]
    exact Function.update_self ..
  have hcount : count (publish E q s) s = count q s + 1 := by
    rw [count, hmoved, inHand, if_pos hpc, List.length_append]
    rfl
  have hmoved' : (publish E q s).moved s.other = q.moved s.other :=
    Function.update_of_ne (other_ne s) ..
  have hother : count (publish E q s) s.other = count q s.other := congrArg List.length hmoved'
  have hrest : (publish E q s).thread s.other = q.thread s.other :=
    Function.update_of_ne (other_ne s) ..
  have hidx : (publish E q s).index s.other = q.index s.other :=
    Function.update_of_ne (other_ne s) ..
  have hhand : inHand (publish E q s) = inHand q := by
    refine funext (side_cases s ?_ ?_)
    · rw [inHand_of_ne (fun h => by rw [h] at hnot; cases hnot), hmoved]
    · rw [inHand, inHand, hrest, hmoved']
  have hseen := hf.seen_le s.other
  rw [other_other] at hseen
  refine ⟨side_cases s ?_ ?_, hf.cached, side_cases s ?_ ?_, side_cases s ?_ ?_,
    side_cases s ?_ ?_, side_cases s ?_ ?_, ?_, ?_⟩
  · rw [hnext, hcount]
  · rw [hidx, hother]
    exact hf.index _
  · rw [hother]
    exact hf.seen_le s
  · rw [other_other]
    omega
  · rw [hcount]
    exact hfree
  · rw [hother]
    exact hf.room _
  · rw [hnot]
    nofun
  · rw [hrest, hidx]
    exact hf.reg _
  · intro h
    rcases h with h | h <;> rw [h] at hnot <;> cases hnot
  · rw [hrest, hother]
    exact hf.free _
  · rw [hhand]
    cases s with
    | producer =>
      exact hf.order.trans (List.prefix_append _ _)
    | consumer => exact hf.order
  · rw [hhand]
    exact hf.slots

end Fifo

/-! ## Runs -/

def Inv (E : Nat) (q : ConcurrentQueue T) : Prop := Control E q ∧ ∃ seen, Fifo E q seen

theorem runThread_fifo (hf : Fifo E q seen) (h : runThread E q s = some q') :
    ∃ seen, Fifo E q' seen := by
  unfold runThread acquire at h
  cases hpc : (q.thread s).pc with
  | load =>
    simp only [hpc] at h
    cases h
    exact ⟨_, hf.of_load hpc⟩
  | refresh =>
    simp only [hpc] at h
    cases h
    exact ⟨_, hf.of_refresh hpc⟩
  | access =>
    simp only [hpc] at h
    cases h
    exact ⟨_, hf.of_access hpc⟩
  | publish =>
    simp only [hpc] at h
    cases h
    exact ⟨_, hf.of_publish hpc⟩
  | idle | asleep =>
    simp only [hpc] at h
    cases h
  | signal =>
    have hnot : (q.thread s).pc ≠ .publish := by rw [hpc]; nofun
    simp only [hpc] at h
    cases h
    unfold signal
    split
    · next hasleep =>
      have hwoken : Fifo E (goto q s.other .woken) seen :=
        hf.move (s := s.other) rfl rfl rfl rfl rfl (by rw [hasleep]; nofun) nofun nofun nofun
      refine ⟨_, hwoken.move (s := s) rfl rfl rfl rfl rfl ?_ nofun nofun nofun⟩
      rwa [show (goto q s.other .woken).thread s = _ from Function.update_of_ne (other_ne s).symm ..]
    · exact ⟨_, hf.move (s := s) rfl rfl rfl rfl rfl hnot nofun nofun nofun⟩
  | peer =>
    have hnot : (q.thread s).pc ≠ .publish := by rw [hpc]; nofun
    simp only [hpc] at h
    cases h
    split
    · exact ⟨_, hf.move (s := s) rfl rfl rfl rfl rfl hnot nofun nofun nofun⟩
    · exact ⟨_, hf.move (s := s) rfl rfl rfl rfl rfl hnot nofun nofun nofun⟩
  | lockSignal | lock | woken =>
    have hnot : (q.thread s).pc ≠ .publish := by rw [hpc]; nofun
    simp only [hpc] at h
    split at h
    · cases h
      exact ⟨_, hf.move (s := s) rfl rfl rfl rfl rfl hnot nofun nofun nofun⟩
    · cases h
  | unlock | setWaiting | clearWaiting | wait =>
    have hnot : (q.thread s).pc ≠ .publish := by rw [hpc]; nofun
    simp only [hpc] at h
    cases h
    exact ⟨_, hf.move (s := s) rfl rfl rfl rfl rfl hnot nofun nofun nofun⟩

omit [Inhabited T] in
theorem begin_inv {mode : Mode} {value : T} (hi : Inv E q) (hmode : mode ≠ .locked)
    (h : begin q s mode value = some q') : Inv E q' := by
  obtain ⟨hc, seen, hf⟩ := hi
  unfold begin at h
  split at h
  · next hpc =>
    cases h
    have hlock := hc.lock s
    refine ⟨?_, seen, hf.move (s := s) rfl rfl rfl rfl rfl (by rw [hpc]; nofun) nofun nofun nofun⟩
    refine hc.move (s := s) rfl (.inl rfl) ?_ Iff.rfl ?_ ?_ rfl ?_ ?_ <;>
      simp_all [holds, waits, waking, behind, sleeps]
  · cases h

theorem step_inv {a : Act T} (hi : Inv E q) (h : step E q a = some q') : Inv E q' := by
  cases a with
  | tryPush | tryPop => exact begin_inv hi Mode.noConfusion h
  | push | pop => exact begin_inv hi Mode.noConfusion h
  | run s =>
    obtain ⟨hc, seen, hf⟩ := hi
    refine ⟨runThread_control hc h fun hpc hprobe => ?_, runThread_fifo hf h⟩
    rw [hf.reg s (by rw [hpc]; rfl), hf.index s.other] at hprobe
    exact (hf.probe_iff (Nat.le_refl _)
      ((hf.room s).trans (Nat.add_le_add_right (hf.seen_le s) _))).mp hprobe
  | wake s =>
    obtain ⟨hc, seen, hf⟩ := hi
    simp only [step] at h
    split at h
    · next hpc =>
      cases h
      exact ⟨hc.woken hpc, seen,
        hf.move (s := s) rfl rfl rfl rfl rfl (by rw [hpc]; nofun) nofun nofun nofun⟩
    · cases h

theorem init_inv : Inv E (init : ConcurrentQueue T) := by
  refine ⟨⟨?_, ?_, ?_, ?_⟩, fun _ => 0, ?_⟩
  · simp [init, holds]
  · simp [init, behind]
  · simp [init, waits]
  · simp [init, sleeps]
  · constructor <;> simp [init, count, indexed, inHand]

/-- What holds in a state of the queue. -/
structure Correct (E : Nat) (q : ConcurrentQueue T) : Prop where
  /-- the values come out in the order in which they went in, each once -/
  order : q.moved .consumer <+: q.moved .producer
  length_le : (q.moved .producer).length ≤ (q.moved .consumer).length + capacity E
  drained : isEmpty q = true → q.moved .consumer = q.moved .producer
  /-- a slot that is about to be written has been read -/
  write : (q.thread .producer).pc = .access → ∀ k, (q.moved .consumer).length ≤ k →
    k < (q.moved .producer).length → k % 2 ^ E ≠ (q.thread .producer).index
  /-- a slot that is about to be read has the next value -/
  read : (q.thread .consumer).pc = .access →
    (q.moved .producer)[(q.moved .consumer).length]? = some (q.data (q.thread .consumer).index)
  consumerAwake : (q.thread .consumer).pc = .asleep → (q.thread .producer).pc = .idle →
    isEmpty q = true
  producerAwake : (q.thread .producer).pc = .asleep → (q.thread .consumer).pc = .idle →
    isFull E q = true

omit [Inhabited T] in
theorem Inv.correct (hi : Inv E q) : Correct E q := by
  obtain ⟨hc, seen, hf⟩ := hi
  have hprobe (s : Side) : probe E s (q.index s) = q.index s.other ↔
      count q s = count q s.other + gap E s := by
    rw [hf.index s.other]
    exact hf.probe_iff (Nat.le_refl _) ((hf.room s).trans (Nat.add_le_add_right (hf.seen_le s) _))
  have hasleep (s : Side) (hs : (q.thread s).pc = .asleep) (ho : (q.thread s.other).pc = .idle) :
      probe E s (q.index s) = q.index s.other := by
    refine (hprobe s).mpr ((hc.wake s (by rw [hs]; rfl)).resolve_right ?_)
    rw [ho]
    nofun
  obtain ⟨hle, hlt⟩ := hf.bounds
  have hsize := capacity_succ E
  have horder := (List.prefix_append _ _).trans hf.order
  refine ⟨horder, ?_, fun hempty => ?_, fun hpc k hk hlen => ?_, hf.next, fun hs ho => ?_,
    fun hs ho => ?_⟩
  · show count q .producer ≤ count q .consumer + _
    omega
  · exact horder.eq_of_length ((hprobe .consumer).mp (of_decide_eq_true hempty))
  · rw [hf.reg _ (by rw [hpc]; rfl), hf.index]
    exact hf.fresh (hf.free _ (.inl hpc)) hk hlen
  · exact decide_eq_true (hasleep .consumer hs ho)
  · exact decide_eq_true (hasleep .producer hs ho)

/-- The consumer sleeps on an empty queue with one place, and a push wakes it. -/
def sleeperWoken : List (Act Nat) :=
  .pop :: List.replicate 7 (.run .consumer) ++ .tryPush 7 :: List.replicate 7 (.run .producer) ++
    List.replicate 8 (.run .consumer)

end Nimbus.Spec.Queue
