import Mathlib.Computability.Language
import Nimbus.ForStd.Bytes

/-!
# What a reader reads

A reader starts at a position of a list of tokens. It returns a value and the position behind what
it read, or it stops for a reason. Here a reader is described by two languages: the words that it
reads, and the words on which it stops for a reason that is bad. Of the value only a part may
matter for what is read next.
-/

namespace Nimbus.Reader

variable {τ σ α β γ δ : Type}

/-- `step` is run a number of times, with its own result. -/
def iterate {m : Type → Type} [Monad m] (step : α → m α) : Nat → α → m α
  | 0, res => pure res
  | n + 1, res => step res >>= iterate step n

/-- From where there are tokens left or none: what is read is a word, for the part `view` of the
value; and the reader stops for a bad reason just at the start of a word of `crashes`. -/
structure Reads (data : List τ) (bad : σ → Prop) (view : α → γ) (m : StateT Nat (Except σ) α)
    (words : γ → Language τ) (crashes : Language τ) : Prop where
  ok : ∀ {pos}, pos ≤ data.length → ∀ c q, (∃ a, view a = c ∧ m.run pos = .ok (a, q)) ↔
    ∃ w ∈ words c, SliceAt data pos w ∧ q = pos + w.length
  crash : ∀ {pos}, pos ≤ data.length → ((∃ s, bad s ∧ m.run pos = .error s) ↔
    ∃ w ∈ crashes, SliceAt data pos w)

section
variable {data : List τ} {bad : σ → Prop} {view : α → γ} {view' : β → δ}
  {m : StateT Nat (Except σ) α} {f : α → StateT Nat (Except σ) β}

/-! ## One reader after the other -/

theorem bind_ok_iff {pos q : Nat} {b : β} : (m >>= f).run pos = .ok (b, q) ↔
    ∃ a p, m.run pos = .ok (a, p) ∧ (f a).run p = .ok (b, q) := by
  rw [StateT.run_bind]
  cases hm : m.run pos with
  | error s => exact ⟨fun h => (nomatch h), fun ⟨_, _, h, _⟩ => (nomatch h)⟩
  | ok ap =>
    constructor
    · intro h
      exact ⟨ap.1, ap.2, rfl, h⟩
    · rintro ⟨a, p, heq, h⟩
      cases heq
      exact h

theorem bind_error_iff {pos : Nat} {s : σ} : (m >>= f).run pos = .error s ↔
    m.run pos = .error s ∨ ∃ a p, m.run pos = .ok (a, p) ∧ (f a).run p = .error s := by
  rw [StateT.run_bind]
  cases hm : m.run pos with
  | error t =>
    constructor
    · intro h
      exact .inl (congrArg _ (Except.error.inj h))
    · rintro (h | ⟨_, _, h, _⟩)
      · exact congrArg _ (Except.error.inj h)
      · cases h
  | ok ap =>
    constructor
    · intro h
      exact .inr ⟨ap.1, ap.2, rfl, h⟩
    · rintro (h | ⟨a, p, heq, h⟩)
      · cases h
      · cases heq
        exact h

namespace Reads

variable {words : γ → Language τ} {crashes : Language τ} {words' : γ → δ → Language τ}
  {crashes' : γ → Language τ}

theorem congr {words₂ : γ → Language τ} {crashes₂ : Language τ}
    (h : Reads data bad view m words crashes) (hwords : words = words₂)
    (hcrashes : crashes = crashes₂) : Reads data bad view m words₂ crashes₂ := by
  subst hwords hcrashes
  exact h

/-- Where a word begins with one that is read, the next reader goes on behind it. -/
theorem mem_mul_iff {L : Language τ} {pos q : Nat} {M : Language τ} :
    (∃ w ∈ L * M, SliceAt data pos w ∧ q = pos + w.length) ↔
      ∃ u ∈ L, SliceAt data pos u ∧ ∃ v ∈ M, SliceAt data (pos + u.length) v ∧
        q = pos + u.length + v.length := by
  constructor
  · rintro ⟨w, hw, hslice, rfl⟩
    obtain ⟨u, hu, v, hv, rfl⟩ := Language.mem_mul.mp hw
    exact ⟨u, hu, hslice.left, v, hv, hslice.right, by rw [List.length_append]; omega⟩
  · rintro ⟨u, hu, hslice, v, hv, hslice', rfl⟩
    exact ⟨u ++ v, Language.mem_mul.mpr ⟨u, hu, v, hv, rfl⟩, hslice.concat hslice',
      by rw [List.length_append]; omega⟩

theorem bind (hm : Reads data bad view m words crashes)
    (hf : ∀ a, Reads data bad view' (f a) (words' (view a)) (crashes' (view a))) :
    Reads data bad view' (m >>= f) (fun d => {w | ∃ c, w ∈ words c * words' c d})
      {w | w ∈ crashes ∨ ∃ c, w ∈ words c * crashes' c} where
  ok {pos} hpos d q := by
    constructor
    · rintro ⟨b, hview, hrun⟩
      obtain ⟨a, p, ha, hb⟩ := bind_ok_iff.mp hrun
      obtain ⟨u, hu, hslice, rfl⟩ := (hm.ok hpos (view a) p).mp ⟨a, rfl, ha⟩
      obtain ⟨v, hv, hslice', rfl⟩ := ((hf a).ok hslice.le_length d q).mp ⟨b, hview, hb⟩
      obtain ⟨w, hw, hwslice, hlen⟩ := mem_mul_iff.mpr ⟨u, hu, hslice, v, hv, hslice', rfl⟩
      exact ⟨w, ⟨view a, hw⟩, hwslice, hlen⟩
    · rintro ⟨w, ⟨c, hw⟩, hslice, hlen⟩
      obtain ⟨u, hu, huslice, v, hv, hvslice, rfl⟩ := mem_mul_iff.mp ⟨w, hw, hslice, hlen⟩
      obtain ⟨a, rfl, ha⟩ := (hm.ok hpos c _).mpr ⟨u, hu, huslice, rfl⟩
      obtain ⟨b, hview, hb⟩ := ((hf a).ok huslice.le_length d _).mpr ⟨v, hv, hvslice, rfl⟩
      exact ⟨b, hview, bind_ok_iff.mpr ⟨a, _, ha, hb⟩⟩
  crash {pos} hpos := by
    constructor
    · rintro ⟨s, hbad, hrun⟩
      rcases bind_error_iff.mp hrun with hrun | ⟨a, p, ha, hb⟩
      · obtain ⟨w, hw, hslice⟩ := (hm.crash hpos).mp ⟨s, hbad, hrun⟩
        exact ⟨w, .inl hw, hslice⟩
      · obtain ⟨u, hu, hslice, rfl⟩ := (hm.ok hpos (view a) p).mp ⟨a, rfl, ha⟩
        obtain ⟨v, hv, hslice'⟩ := ((hf a).crash hslice.le_length).mp ⟨s, hbad, hb⟩
        obtain ⟨w, hw, hwslice, -⟩ := mem_mul_iff.mpr ⟨u, hu, hslice, v, hv, hslice', rfl⟩
        exact ⟨w, .inr ⟨view a, hw⟩, hwslice⟩
    · rintro ⟨w, hw | ⟨c, hw⟩, hslice⟩
      · obtain ⟨s, hbad, hrun⟩ := (hm.crash hpos).mpr ⟨w, hw, hslice⟩
        exact ⟨s, hbad, bind_error_iff.mpr (.inl hrun)⟩
      · obtain ⟨u, hu, huslice, v, hv, hvslice, -⟩ := mem_mul_iff.mp ⟨w, hw, hslice, rfl⟩
        obtain ⟨a, rfl, ha⟩ := (hm.ok hpos c _).mpr ⟨u, hu, huslice, rfl⟩
        obtain ⟨s, hbad, hb⟩ := ((hf a).crash huslice.le_length).mpr ⟨v, hv, hvslice⟩
        exact ⟨s, hbad, bind_error_iff.mpr (.inr ⟨a, _, ha, hb⟩)⟩

/-! ## Readers that take no tokens -/

/-- A value, or a reason to stop, that depends on no tokens. -/
theorem ofExcept (d : Except σ α) (h : ∀ pos, m.run pos = d.map fun a => (a, pos)) :
    Reads data bad view m (fun c => {w | w = [] ∧ ∃ a, view a = c ∧ d = .ok a})
      {w | w = [] ∧ ∃ s, bad s ∧ d = .error s} where
  ok {pos} hpos c q := by
    have hempty : SliceAt data pos [] :=
      ⟨data.take pos, data.drop pos, by simp, List.length_take_of_le hpos⟩
    rw [h]
    cases d with
    | error s =>
      exact ⟨fun ⟨_, _, h⟩ => (nomatch h), fun ⟨_, ⟨_, _, _, h⟩, _⟩ => (nomatch h)⟩
    | ok a =>
      constructor
      · rintro ⟨b, hview, hrun⟩
        cases hrun
        exact ⟨[], ⟨rfl, a, hview, rfl⟩, hempty, rfl⟩
      · rintro ⟨_, ⟨rfl, b, hview, heq⟩, -, rfl⟩
        cases heq
        exact ⟨a, hview, rfl⟩
  crash {pos} hpos := by
    have hempty : SliceAt data pos [] :=
      ⟨data.take pos, data.drop pos, by simp, List.length_take_of_le hpos⟩
    rw [h]
    cases d with
    | ok a => exact ⟨fun ⟨_, _, h⟩ => (nomatch h), fun ⟨_, ⟨_, _, _, h⟩, _⟩ => (nomatch h)⟩
    | error s =>
      constructor
      · rintro ⟨t, hbad, hrun⟩
        cases hrun
        exact ⟨[], ⟨rfl, s, hbad, rfl⟩, hempty⟩
      · rintro ⟨_, ⟨rfl, t, hbad, heq⟩, -⟩
        cases heq
        exact ⟨s, hbad, rfl⟩

theorem lift (d : Except σ α) : Reads data bad view (liftM d)
    (fun c => {w | w = [] ∧ ∃ a, view a = c ∧ d = .ok a})
    {w | w = [] ∧ ∃ s, bad s ∧ d = .error s} :=
  ofExcept d fun _ => by cases d <;> rfl

variable {words : α → Language τ} {words' : α → δ → Language τ}

/-- The value is looked at as it is. -/
theorem bindValue {crashes : Language τ}
    {crashes' : α → Language τ} (hm : Reads data bad id m words crashes)
    (hf : ∀ a, Reads data bad view' (f a) (words' a) (crashes' a)) :
    Reads data bad view' (m >>= f) (fun d => {w | ∃ a, w ∈ words a * words' a d})
      {w | w ∈ crashes ∨ ∃ a, w ∈ words a * crashes' a} :=
  @bind τ σ α β α δ data bad id view' m f words crashes words' crashes' hm hf

/-- The first reader does not stop for a bad reason. -/
theorem bindFirst
    {crashes' : α → Language τ} (hm : Reads data bad id m words 0)
    (hf : ∀ a, Reads data bad view' (f a) (words' a) (crashes' a)) :
    Reads data bad view' (m >>= f) (fun d => {w | ∃ a, w ∈ words a * words' a d})
      {w | ∃ a, w ∈ words a * crashes' a} :=
  (hm.bindValue hf).congr rfl (Language.ext fun _ => or_iff_right (Language.notMem_zero _))

/-- Neither reader stops for a bad reason. -/
theorem bindSafe
    (hm : Reads data bad id m words 0) (hf : ∀ a, Reads data bad view' (f a) (words' a) 0) :
    Reads data bad view' (m >>= f) (fun d => {w | ∃ a, w ∈ words a * words' a d}) 0 := by
  refine (hm.bindFirst hf).congr rfl (Language.ext fun w => ⟨fun h => ?_, fun h => ?_⟩)
  · obtain ⟨a, hw⟩ := h
    rwa [mul_zero] at hw
  · exact absurd h (Language.notMem_zero w)

end Reads

end

/-! ## Repetition -/

section
variable {data : List τ} {bad : σ → Prop}

/-- Where nothing of the value matters. -/
abbrev nothing (_ : α) : Unit := ()

theorem Reads.erase {m : StateT Nat (Except σ) α} {words : α → Language τ} {crashes : Language τ}
    (h : Reads data bad id m words crashes) :
    Reads data bad nothing m (fun _ => {w | ∃ a, w ∈ words a}) crashes where
  ok {pos} hpos c q := by
    constructor
    · rintro ⟨a, -, hrun⟩
      obtain ⟨w, hw, hslice, hlen⟩ := (h.ok hpos a q).mp ⟨a, rfl, hrun⟩
      exact ⟨w, ⟨a, hw⟩, hslice, hlen⟩
    · rintro ⟨w, ⟨a, hw⟩, hslice, hlen⟩
      obtain ⟨b, -, hrun⟩ := (h.ok hpos a q).mpr ⟨w, hw, hslice, hlen⟩
      exact ⟨b, rfl, hrun⟩
  crash := h.crash

/-- One reader after the other, where the second one does not look at what the first one read. -/
theorem Reads.seq {view : β → δ} {m : StateT Nat (Except σ) α}
    {f : α → StateT Nat (Except σ) β} {L C : Language τ} {words : δ → Language τ}
    {crashes : Language τ} (hm : Reads data bad nothing m (fun _ => L) C)
    (hf : ∀ a, Reads data bad view (f a) words crashes) :
    Reads data bad view (m >>= f) (fun d => L * words d) (C + L * crashes) := by
  refine (@bind τ σ α β Unit δ data bad nothing view m f (fun _ => L) C (fun _ => words)
    (fun _ => crashes) hm hf).congr (funext fun d => Language.ext fun w => ?_)
    (Language.ext fun w => ?_)
  · exact ⟨fun ⟨_, h⟩ => h, fun h => ⟨(), h⟩⟩
  · exact or_congr_right ⟨fun ⟨_, h⟩ => h, fun h => ⟨(), h⟩⟩

theorem Reads.value {view : α → γ} (a : α) :
    Reads data bad view (Pure.pure a) (fun c => {w | w = [] ∧ view a = c}) 0 := by
  refine (Reads.ofExcept (.ok a) fun _ => rfl).congr
    (funext fun c => Language.ext fun w => and_congr_right fun _ => ?_) (Language.ext fun w => ?_)
  · exact ⟨fun ⟨_, h, heq⟩ => Except.ok.inj heq ▸ h, fun h => ⟨a, h, rfl⟩⟩
  · exact ⟨fun ⟨_, _, _, h⟩ => (nomatch h), fun h => absurd h (Language.notMem_zero w)⟩

theorem Reads.done (res : α) : Reads data bad nothing (Pure.pure res) (fun _ => 1) 0 :=
  (Reads.value res).congr (funext fun _ => Language.ext fun _ => and_iff_left rfl) rfl

/-- A number of words are read, and a word to stop on may follow any smaller number of them. -/
theorem Reads.iterate {step : α → StateT Nat (Except σ) α} {L C : Language τ}
    (hstep : ∀ res, Reads data bad nothing (step res) (fun _ => L) C) (n : Nat) (res : α) :
    Reads data bad nothing (iterate step n res) (fun _ => L ^ n)
      {w | ∃ k, k < n ∧ w ∈ L ^ k * C} := by
  induction n generalizing res with
  | zero =>
    refine (Reads.done res).congr (funext fun _ => (pow_zero L).symm) (Language.ext fun w => ?_)
    exact ⟨fun h => absurd h (Language.notMem_zero w),
      fun ⟨_, h, _⟩ => absurd h (Nat.not_lt_zero _)⟩
  | succ n ih =>
    refine ((hstep res).seq ih).congr (funext fun _ => (pow_succ' L n).symm)
      (Language.ext fun w => ?_)
    constructor
    · rintro (hw | hw)
      · exact ⟨0, Nat.succ_pos n, by rwa [pow_zero, one_mul]⟩
      · obtain ⟨u, hu, v, ⟨k, hk, hv⟩, rfl⟩ := Language.mem_mul.mp hw
        refine ⟨k + 1, Nat.succ_lt_succ hk, ?_⟩
        rw [pow_succ', mul_assoc]
        exact Language.mem_mul.mpr ⟨u, hu, v, hv, rfl⟩
    · rintro ⟨k, hk, hw⟩
      cases k with
      | zero =>
        rw [pow_zero, one_mul] at hw
        exact .inl hw
      | succ k =>
        rw [pow_succ', mul_assoc] at hw
        obtain ⟨u, hu, v, hv, rfl⟩ := Language.mem_mul.mp hw
        exact .inr (Language.mem_mul.mpr ⟨u, hu, v, ⟨k, Nat.lt_of_succ_lt_succ hk, hv⟩, rfl⟩)

end

end Nimbus.Reader
