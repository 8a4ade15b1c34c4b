import Mathlib.Logic.Function.Basic

/-!
# The queue between a producer and a consumer

Model of `execution_chain/concurrency/queue.nim`. A step is one access to memory that both threads
reach, or one operation on the lock or on a condition variable. What a thread does with variables
that only it touches goes with the access before. The sides mirror each other: `head`,
`cachedTail`, `waitingPush` and `condFull` are to the producer what `tail`, `cachedHead`,
`waitingPop` and `condEmpty` are to the consumer. Indices stay below `2 ^ 30`, so that no `uint32`
sum wraps.
-/

namespace Nimbus.Native.Queue

open Function (update)

inductive Side where
  | producer
  | consumer
  deriving DecidableEq

def Side.other : Side → Side
  | .producer => .consumer
  | .consumer => .producer

/-- How far a call has come. `push` and `pop` begin with a `tryPush` or a `tryPop`. -/
inductive Mode where
  /-- in `tryPush` or `tryPop` -/
  | once
  /-- in the call of `tryPush` or `tryPop` that `push` or `pop` begins with -/
  | first
  /-- in the loop of `push` or `pop` -/
  | locked
  deriving DecidableEq

/-- What a thread does next. -/
inductive Pc where
  | idle
  /-- `q.head.load()`, and the comparison of `next` with the cached index -/
  | load
  /-- `q.cachedTail = q.tail.load()`, and the comparison of `next` with it -/
  | refresh
  /-- `q.data[h] = value` or `value = move(q.data[t])` -/
  | access
  /-- `q.head.store(next)` -/
  | publish
  /-- `if q.waitingPop.load()` -/
  | peer
  /-- `withLock` before the signal of `tryPush` -/
  | lockSignal
  | signal
  | unlock
  /-- `withLock` of `push` -/
  | lock
  /-- `q.waitingPush.store(true)` -/
  | setWaiting
  /-- `q.waitingPush.store(false)` -/
  | clearWaiting
  /-- `q.condFull.wait(q.lock)`, which releases the lock -/
  | wait
  | asleep
  /-- takes the lock again -/
  | woken
  deriving DecidableEq

structure Thread (T : Type) where
  pc : Pc
  mode : Mode
  /-- `h` or `t` -/
  index : Nat
  value : T

structure ConcurrentQueue (T : Type) where
  /-- `head` and `tail` -/
  index : Side → Nat
  /-- `cachedTail` and `cachedHead` -/
  cached : Side → Nat
  /-- `waitingPush` and `waitingPop` -/
  waiting : Side → Bool
  lock : Option Side
  data : Nat → T
  thread : Side → Thread T
  /-- the values that have been pushed and popped, from the store of the index on -/
  moved : Side → List T

variable {T : Type} [Inhabited T] (E : Nat)

def init : ConcurrentQueue T where
  index _ := 0
  cached _ := 0
  waiting _ := false
  lock := none
  data _ := default
  thread _ := ⟨.idle, .once, 0, default⟩
  moved _ := []

def maskOf : Nat := (1 <<< E) - 1

def capacity : Nat := (1 <<< E) - 1

/-- What is compared with the cached index: `next` of the producer, `t` of the consumer. -/
def probe : Side → Nat → Nat
  | .producer, h => (h + 1) &&& maskOf E
  | .consumer, t => t

variable (q : ConcurrentQueue T) (s : Side)

def isEmpty : Bool := q.index .consumer = q.index .producer

def isFull : Bool := (q.index .producer + 1) &&& maskOf E = q.index .consumer

def goto (pc : Pc) : ConcurrentQueue T :=
  { q with thread := update q.thread s { q.thread s with pc } }

def acquire (pc : Pc) : Option (ConcurrentQueue T) :=
  if q.lock = none then some (goto { q with lock := some s } s pc) else none

def begin (mode : Mode) (value : T) : Option (ConcurrentQueue T) :=
  if (q.thread s).pc = .idle then
    some { q with thread := update q.thread s { q.thread s with pc := .load, mode, value } }
  else none

def load : ConcurrentQueue T :=
  let t := q.thread s
  let i := q.index s
  -- behind the lock the cached index is not looked at
  let pc := if t.mode ≠ .locked ∧ probe E s i ≠ q.cached s then .access else .refresh
  { q with thread := update q.thread s { t with index := i, pc } }

def refresh : ConcurrentQueue T :=
  let t := q.thread s
  let i := q.index s.other
  let pc := if probe E s t.index ≠ i then Pc.access else
    match t.mode with
    | .once => .idle -- returns `false`
    | .first => .lock
    | .locked => .wait
  goto { q with cached := update q.cached s i } s pc

def access : ConcurrentQueue T :=
  let t := q.thread s
  match s with
  | .producer => goto { q with data := update q.data t.index t.value } s .publish
  | .consumer =>
    let t' := { t with value := q.data t.index, pc := .publish }
    { q with data := update q.data t.index default, thread := update q.thread s t' }

def publish : ConcurrentQueue T :=
  let t := q.thread s
  let q := { q with
    index := update q.index s ((t.index + 1) &&& maskOf E)
    moved := update q.moved s (q.moved s ++ [t.value]) }
  goto q s (if t.mode = .locked then .clearWaiting else .peer)

/-- One waiter at most is there to be woken: the thread of the other side. -/
def signal : ConcurrentQueue T :=
  let q := if (q.thread s.other).pc = .asleep then goto q s.other .woken else q
  goto q s .unlock

/-- The next step of a thread, if it is in a call and can go on. -/
def runThread : Option (ConcurrentQueue T) :=
  match (q.thread s).pc with
  | .idle | .asleep => none
  | .load => some (load E q s)
  | .refresh => some (refresh E q s)
  | .access => some (access q s)
  | .publish => some (publish E q s)
  | .peer => some (goto q s (if q.waiting s.other then .lockSignal else .idle))
  | .lockSignal => acquire q s .signal
  | .signal => some (signal q s)
  | .unlock => some (goto { q with lock := none } s .idle)
  | .lock => acquire q s .setWaiting
  | .setWaiting => some { q with
    waiting := update q.waiting s true
    thread := update q.thread s { q.thread s with pc := .load, mode := .locked } }
  | .clearWaiting => some (goto { q with waiting := update q.waiting s false } s .signal)
  | .wait => some (goto { q with lock := none } s .asleep)
  | .woken => acquire q s .load

inductive Act (T : Type) where
  | tryPush (value : T)
  | push (value : T)
  | tryPop
  | pop
  | run (s : Side)
  /-- a wake-up without a signal -/
  | wake (s : Side)

def step (q : ConcurrentQueue T) : Act T → Option (ConcurrentQueue T)
  | .tryPush value => begin q .producer .once value
  | .push value => begin q .producer .first value
  | .tryPop => begin q .consumer .once default
  | .pop => begin q .consumer .first default
  | .run s => runThread E q s
  | .wake s => if (q.thread s).pc = .asleep then some (goto q s .woken) else none

def run (acts : List (Act T)) : Option (ConcurrentQueue T) :=
  acts.foldlM (step E) init

end Nimbus.Native.Queue
