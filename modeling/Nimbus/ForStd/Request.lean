import Nimbus.ForStd.StepRun
import Nimbus.ForStd.TaskM

/-!
# Requests over a shared state

A request reads and changes a state that it shares with other requests, and waits for answers
from outside, whatever these are. A pool runs any number of requests, their accesses to the
state and the answers that they wait for in any order, with changes from outside in between.

A contract names what every access keeps, whatever has happened to the state before. So what a
request that meets it ends with does not depend on the order. A request may rely on what it sees
of the state beyond that, if the run keeps to it where the request has its turn.
-/

namespace Nimbus

variable {W Q A E α β ι V X : Type}

inductive Request (W Q A E α : Type) where
  | done (r : Except E α)
  /-- Change the state with `f`, and go on with what it was. -/
  | access (f : W → W) (k : W → Request W Q A E α)
  | call (q : Q) (k : A → Request W Q A E α)

namespace Request

def bind : Request W Q A E α → (α → Request W Q A E β) → Request W Q A E β
  | done (.ok a), g => g a
  | done (.error e), _ => done (.error e)
  | access f k, g => access f fun w => (k w).bind g
  | call q k, g => call q fun a => (k a).bind g

instance : Monad (Request W Q A E) where
  pure a := done (.ok a)
  bind := bind

def fail (e : E) : Request W Q A E α := done (.error e)

def get : Request W Q A E W := access id fun w => done (.ok w)

def modify (f : W → W) : Request W Q A E Unit := access f fun _ => done (.ok ())

def ask (q : Q) : Request W Q A E A := call q fun a => done (.ok a)

def mapError (f : E → E) : Request W Q A E α → Request W Q A E α
  | done (.ok a) => done (.ok a)
  | done (.error e) => done (.error (f e))
  | access g k => access g fun w => (k w).mapError f
  | call q k => call q fun a => (k a).mapError f

/-! ## Contracts -/

/-- What every access keeps, which answers are given, and which errors may end a request. -/
structure Contract (W Q A E : Type) where
  inv : W → Prop
  allowed : Q → A → Prop
  fails : E → Prop

/-- The request keeps the contract, and what it returns meets `P`, if each of its accesses sees
a state that meets `seen`. -/
def Meets (c : Contract W Q A E) (seen : W → Prop) (P : α → Prop) : Request W Q A E α → Prop
  | done (.ok a) => P a
  | done (.error e) => c.fails e
  | access f k => ∀ w, c.inv w → seen w → c.inv (f w) ∧ (k w).Meets c seen P
  | call q k => ∀ a, c.allowed q a → (k a).Meets c seen P

variable {c : Contract W Q A E} {seen : W → Prop} {P R : α → Prop} {x : Request W Q A E α}

theorem Meets.pure {a : α} (h : P a) : Meets c seen P (Pure.pure a : Request W Q A E α) := h

theorem Meets.get {P : W → Prop} (h : ∀ w, c.inv w → seen w → P w) :
    Meets c seen P (get : Request W Q A E W) :=
  fun w hw hseen => ⟨hw, h w hw hseen⟩

theorem Meets.modify {f : W → W} {P : Unit → Prop} (h : ∀ w, c.inv w → c.inv (f w))
    (hP : P ()) : Meets c seen P (modify f : Request W Q A E Unit) :=
  fun w hw _ => ⟨h w hw, hP⟩

theorem Meets.ask {q : Q} {P : A → Prop} (h : ∀ a, c.allowed q a → P a) :
    Meets c seen P (ask q : Request W Q A E A) := h

theorem Meets.mono (h : Meets c seen P x) (hPR : ∀ a, P a → R a) : Meets c seen R x := by
  induction x with
  | done r =>
    cases r with
    | ok a => exact hPR a h
    | error e => exact h
  | access f k ih => exact fun w hw hseen => ⟨(h w hw hseen).1, ih w (h w hw hseen).2⟩
  | call q k ih => exact fun a ha => ih a (h a ha)

theorem Meets.bind {S : β → Prop} {g : α → Request W Q A E β} (h : Meets c seen P x)
    (hg : ∀ a, P a → Meets c seen S (g a)) : Meets c seen S (x >>= g) := by
  induction x with
  | done r =>
    cases r with
    | ok a => exact hg a h
    | error e => exact h
  | access f k ih => exact fun w hw hseen => ⟨(h w hw hseen).1, ih w (h w hw hseen).2⟩
  | call q k ih => exact fun a ha => ih a (h a ha)

theorem Meets.mapError {f : E → E} (hf : ∀ e, c.fails e → c.fails (f e)) (h : Meets c seen P x) :
    Meets c seen P (x.mapError f) := by
  induction x with
  | done r =>
    cases r with
    | ok a => exact h
    | error e => exact hf e h
  | access g k ih => exact fun w hw hseen => ⟨(h w hw hseen).1, ih w (h w hw hseen).2⟩
  | call q k ih => exact fun a ha => ih a (h a ha)

/-- The contract that every request meets. -/
def anything (W Q A E : Type) : Contract W Q A E where
  inv _ := True
  allowed _ _ := True
  fails _ := True

theorem meets_anything (x : Request W Q A E α) :
    Meets (anything W Q A E) seen (fun _ => True) x := by
  induction x with
  | done r => cases r <;> trivial
  | access f k ih => exact fun w _ _ => ⟨trivial, ih w⟩
  | call q k ih => exact fun a _ => ih a

/-- What a request may end with. -/
def Ends (c : Contract W Q A E) (P : α → Prop) : Except E α → Prop
  | .ok a => P a
  | .error e => c.fails e

/-! ## Alone -/

/-- The request as a task, with a task for the answer to each call. -/
def toTask {W' : Type} (answer : Q → TaskM W' E A) (state : W' → W)
    (setState : W → W' → W') : Request W Q A E α → TaskM W' E α
  | done (.ok a) => pure a
  | done (.error e) => throw e
  | access f k => do
    let w ← MonadState.get
    set (setState (f (state w)) w)
    (k (state w)).toTask answer state setState
  | call q k => do
    let a ← answer q
    (k a).toTask answer state setState

/-- With a contract that any state and any answer meet, the request alone returns what it
promises. -/
theorem returns_toTask {W' : Type} {answer : Q → TaskM W' E A} {state : W' → W}
    {setState : W → W' → W'} (hinv : ∀ w, c.inv w) (hseen : ∀ w, seen w)
    (hallowed : ∀ q a, c.allowed q a) (h : Meets c seen P x) {w w' : W'} {a : α}
    (hret : (x.toTask answer state setState).Returns w a w') : P a := by
  induction x generalizing w with
  | done r =>
    cases r with
    | ok b =>
      rw [← (TaskM.returns_pure.mp hret).1]
      exact h
    | error e => exact absurd hret TaskM.returns_throw
  | access f k ih =>
    obtain ⟨w₁, w₂, -, hret⟩ := TaskM.returns_bind.mp hret
    exact ih (state w₁) (h (state w₁) (hinv _) (hseen _)).2 hret
  | call q k ih =>
    obtain ⟨b, w₁, -, hret⟩ := TaskM.returns_bind.mp hret
    exact ih b (h b (hallowed q b)) hret

end Request

/-! ## Pools -/

open Request

/-- Requests that share a state, each with a label, and what those that have ended have ended
with. -/
structure Pool (W Q A E α ι : Type) where
  world : W
  running : List (ι × Request W Q A E α) := []
  finished : List (ι × Except E α) := []

inductive PoolEvent (V X A : Type) where
  /-- The state changes from outside. -/
  | outside (v : V)
  | start (x : X)
  /-- The request `i` accesses the state, or ends. -/
  | turn (i : Nat)
  /-- The request `i` gets the answer that it waits for. -/
  | answer (i : Nat) (a : A)

namespace Pool

variable (outside : V → W → W) (start : X → W → ι × Request W Q A E α)

def step (p : Pool W Q A E α ι) : PoolEvent V X A → Except Unit (Pool W Q A E α ι)
  | .outside v => .ok { p with world := outside v p.world }
  | .start x => .ok { p with running := p.running ++ [start x p.world] }
  | .turn i =>
    match p.running[i]? with
    | some (l, .done r) =>
      .ok { p with running := p.running.eraseIdx i, finished := p.finished ++ [(l, r)] }
    | some (l, .access f k) =>
      .ok { p with world := f p.world, running := p.running.set i (l, k p.world) }
    | _ => .error ()
  | .answer i a =>
    match p.running[i]? with
    | some (l, .call _ k) => .ok { p with running := p.running.set i (l, k a) }
    | _ => .error ()

def run : Pool W Q A E α ι → List (PoolEvent V X A) → Except Unit (Pool W Q A E α ι) :=
  StepRun.run (step outside start)

/-- The event meets the contract: a change from outside keeps the state in order, a request that
starts meets it, an access sees a state that the request relies on, and an answer is one that may
be given. -/
def EventOk (c : Contract W Q A E) (seen : ι → W → Prop) (P : ι → α → Prop)
    (p : Pool W Q A E α ι) : PoolEvent V X A → Prop
  | .outside v => c.inv p.world → c.inv (outside v p.world)
  | .start x => c.inv p.world →
      Request.Meets c (seen (start x p.world).1) (P (start x p.world).1) (start x p.world).2
  | .turn i => ∀ l f k, p.running[i]? = some (l, .access f k) → c.inv p.world → seen l p.world
  | .answer i a => ∀ l q k, p.running[i]? = some (l, .call q k) → c.allowed q a

structure Ok (c : Contract W Q A E) (seen : ι → W → Prop) (P : ι → α → Prop)
    (p : Pool W Q A E α ι) : Prop where
  inv : c.inv p.world
  running : ∀ l x, (l, x) ∈ p.running → Request.Meets c (seen l) (P l) x
  finished : ∀ l r, (l, r) ∈ p.finished → Ends c (P l) r

variable {outside start} {c : Contract W Q A E} {seen : ι → W → Prop} {P : ι → α → Prop}
  {p p' : Pool W Q A E α ι}

theorem Ok.set (h : Ok c seen P p) {i : Nat} {l : ι} {x : Request W Q A E α} {world : W}
    (hworld : c.inv world) (hx : Request.Meets c (seen l) (P l) x) :
    Ok c seen P { p with world := world, running := p.running.set i (l, x) } where
  inv := hworld
  running l' x' hmem := by
    rcases List.mem_or_eq_of_mem_set hmem with hmem | heq
    · exact h.running l' x' hmem
    · cases heq
      exact hx
  finished := h.finished

theorem Ok.step {ev : PoolEvent V X A} (h : Ok c seen P p) (hev : EventOk outside start c seen P p ev)
    (hstep : step outside start p ev = .ok p') : Ok c seen P p' := by
  cases ev with
  | outside v =>
    cases hstep
    exact ⟨hev h.inv, h.running, h.finished⟩
  | start x =>
    cases hstep
    refine ⟨h.inv, ?_, h.finished⟩
    intro l y hmem
    rcases List.mem_append.mp hmem with hmem | hmem
    · exact h.running l y hmem
    · have heq := List.mem_singleton.mp hmem
      have hmeets := hev h.inv
      rw [← heq] at hmeets
      exact hmeets
  | turn i =>
    unfold Pool.step at hstep
    dsimp only at hstep
    split at hstep
    · next l r hget =>
      cases hstep
      have hends : Ends c (P l) r := by
        have hmeets := h.running l _ (List.mem_of_getElem? hget)
        cases r with
        | ok a => exact hmeets
        | error e => exact hmeets
      refine ⟨h.inv, fun l' x hmem => h.running l' x (List.mem_of_mem_eraseIdx hmem), ?_⟩
      intro l' r' hmem
      rcases List.mem_append.mp hmem with hmem | hmem
      · exact h.finished l' r' hmem
      · cases List.mem_singleton.mp hmem
        exact hends
    · next l f k hget =>
      cases hstep
      have hmeets := h.running l _ (List.mem_of_getElem? hget) p.world h.inv (hev l f k hget h.inv)
      exact h.set hmeets.1 hmeets.2
    · cases hstep
  | answer i a =>
    unfold Pool.step at hstep
    dsimp only at hstep
    split at hstep
    · next l q k hget =>
      cases hstep
      exact h.set h.inv (h.running l _ (List.mem_of_getElem? hget) a (hev l q k hget))
    · cases hstep

/-- In every run, what the requests of the pool have ended with is what they promise. -/
theorem run_ends {events : List (PoolEvent V X A)} (h : Ok c seen P p)
    (hok : StepRun.StepsOk (step outside start) (EventOk outside start c seen P) p events)
    (hrun : run outside start p events = .ok p') : Ok c seen P p' :=
  StepRun.invariant (Ok c seen P) (fun _ _ _ h hev hstep => h.step hev hstep) h hok hrun

end Pool

end Nimbus
