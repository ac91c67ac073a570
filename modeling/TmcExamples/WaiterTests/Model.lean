import Mathlib.Data.Finset.Card
import Mathlib.Data.Fintype.Basic
import TmcExamples.Sync.Primitive
import TmcExamples.Transition.System

/-!
# Tasks that wait on a synchronization primitive

The tests of the semaphore, the mutex, the events, the latch and the condition variable have one
shape: tasks suspend on a primitive and increment an `atomic_awaitable` when they are woken, while
the test waits until enough of them are suspended, wakes some, waits again, and compares what it
finds with what it expects.

A test is a list of commands. `Command.exec` is what a command does when all tasks that have been
woken are left out of account: it needs only the state of the primitive and the number of tasks
that are suspended. `Test.system` is what happens, with the tasks arriving at the primitive and
proceeding behind it when they like.

A call of a primitive wakes as many of the suspended tasks as it says, and any of them; a destructor
wakes all of them.
-/

namespace TmcExamples

namespace WaiterTests

open Sync

/-! ### The commands of a test -/

/-- What a test does once it has forked the tasks. -/
inductive Command (σ ω : Type*)
  /-- `co_await wait_for_waiter_count(p, expected)` -/
  | waitForWaiterCount (expected : ℕ)
  /-- `EXPECT_EQ(aa.load(), expected)` -/
  | expectLoad (expected : ℕ)
  /-- An expectation about the primitive and its number of waiters. -/
  | expectState (p : σ → ℕ → Bool)
  /-- A call, perhaps with an expectation about the number that it returns. -/
  | call (o : ω) (expected : Option ℕ)
  /-- `p.reset()`, where `p` is a `std::optional` -/
  | destroy
  /-- `co_await aa` -/
  | awaitValue
  /-- `co_await std::move(t)` -/
  | awaitTasks

variable {σ ω : Type*}

/-- What the commands depend on: the primitive, unless it has been destroyed, the number of its
waiters, and whether all tasks have been awaited. -/
structure Config (σ : Type*) where
  prim : Option σ
  waiters : ℕ
  awaited : Bool

/-- What is found behind a command; nothing, if the test does not get past it or if it would use a
primitive that has been destroyed. -/
def Command.exec (P : Primitive σ ω) : Command σ ω → Config σ → Option (Config σ)
  | .waitForWaiterCount expected, c =>
    if c.prim.isSome ∧ c.waiters = expected then some c else none
  | .expectLoad _, c => some c
  | .expectState _, c => if c.prim.isSome then some c else none
  | .call o _, c => c.prim.map fun q =>
    ⟨some (P.call o c.waiters q).2, c.waiters - (P.call o c.waiters q).1, c.awaited⟩
  | .destroy, c => if c.prim.isSome then some ⟨none, 0, c.awaited⟩ else none
  | .awaitValue, c | .awaitTasks, c =>
    if c.waiters = 0 then some { c with awaited := true } else none

/-- What a command expects is what it finds, for `n` tasks. -/
def Command.holds (P : Primitive σ ω) (n : ℕ) : Command σ ω → Config σ → Bool
  | .expectLoad v, c => v = 0 ∧ c.waiters = n ∨ v = n ∧ c.awaited
  | .expectState p, c => c.prim.all fun q => p q c.waiters
  | .call o expected, c => c.prim.all fun q => expected.all fun k => k = (P.call o c.waiters q).1
  | _, _ => true

/-- What is found behind all commands. -/
def exec (P : Primitive σ ω) : List (Command σ ω) → Config σ → Option (Config σ)
  | [], c => some c
  | cmd :: cmds, c => (cmd.exec P c).bind (exec P cmds)

/-- No expectation of the commands fails, as far as the test gets. -/
def allHold (P : Primitive σ ω) (n : ℕ) : List (Command σ ω) → Config σ → Bool
  | [], _ => true
  | cmd :: cmds, c => cmd.holds P n c && (cmd.exec P c).all (allHold P n cmds)

/-- A test: the primitive, on which a `co_await` suspends, the number of the tasks, and the commands
behind `wait_for_waiter_count` for all of them. -/
structure Test (σ ω : Type*) where
  prim : Primitive σ ω
  initial : σ
  waiters : ℕ
  commands : List (Command σ ω)
  suspends : prim.await initial = none

variable {T : Test σ ω}

/-- The configuration in which all tasks are suspended. -/
def Test.suspended (T : Test σ ω) : Config σ := ⟨some T.initial, T.waiters, false⟩

/-- The test gets past all commands, and no task is left. -/
def Test.Fits (T : Test σ ω) : Prop :=
  ∃ c, exec T.prim T.commands T.suspended = some c ∧ c.waiters = 0

/-- No expectation fails. -/
def Test.Holds (T : Test σ ω) : Prop := allHold T.prim T.waiters T.commands T.suspended

instance (T : Test σ ω) : Decidable T.Fits :=
  decidable_of_iff ((exec T.prim T.commands T.suspended).any fun c => c.waiters = 0) <| by
    cases h : exec T.prim T.commands T.suspended <;> simp [Test.Fits, h]

instance (T : Test σ ω) : Decidable T.Holds := inferInstanceAs (Decidable (_ = true))

/-! ### The tests -/

/-- `resume_in_destructor`, with what the test does while the task waits. -/
def resumeInDestructor (P : Primitive σ ω) (initial : σ) (waiting : List (Command σ ω))
    (suspends : P.await initial = none) : Test σ ω where
  prim := P
  initial := initial
  waiters := 1
  commands := waiting ++ [.destroy, .awaitValue, .awaitTasks]
  suspends := suspends

namespace AtomicCondvar

/-- `resume_in_destructor`, where the value has not changed -/
def resumeInDestructor : Test (BitVec 32) Notify :=
  WaiterTests.resumeInDestructor (atomicCondvar 1) 1
    [.expectLoad 0, .call (.notifyN 0) none, .call (.notifyN 0) none, .call (.notifyN 1) none,
      .call (.notifyN 1) none, .call .notifyAll none, .call (.notifyN 1) none,
      .call (.notifyN 1) none, .call .notifyAll none, .expectState fun _ m => m = 1,
      .expectLoad 0] rfl

end AtomicCondvar

namespace ManualResetEvent

/-- `resume_in_destructor` -/
def resumeInDestructor : Test Bool Signal :=
  WaiterTests.resumeInDestructor manualResetEvent false
    [.expectLoad 0, .expectState fun isSet _ => !isSet] rfl

end ManualResetEvent

namespace AutoResetEvent

/-- `resume_in_destructor` -/
def resumeInDestructor : Test Bool Signal :=
  WaiterTests.resumeInDestructor autoResetEvent false
    [.expectLoad 0, .expectState fun isSet _ => !isSet] rfl

end AutoResetEvent

namespace Semaphore

/-- A test with the count zero, and its releases. -/
def released (n : ℕ) (releases : List (Command ℕ ℕ)) : Test ℕ ℕ where
  prim := semaphore
  initial := 0
  waiters := n
  commands := [.expectState fun count _ => count = 0, .expectLoad 0] ++ releases ++
    [.awaitValue, .awaitTasks]
  suspends := rfl

/-- `resume_in_destructor` -/
def resumeInDestructor : Test ℕ ℕ :=
  WaiterTests.resumeInDestructor semaphore 0 [.expectLoad 0] rfl

end Semaphore

namespace Mutex

/-- `resume_in_destructor` -/
def resumeInDestructor : Test Bool Unit :=
  WaiterTests.resumeInDestructor mutex true [.expectLoad 0] rfl

end Mutex

namespace Latch

/-- A test with a count that is not zero, and what counts it down; the latch is ready when its count
is zero. -/
def counted (count n : ℕ) (countDowns : List (Command ℕ Unit)) : Test ℕ Unit where
  prim := latch
  initial := count + 1
  waiters := n
  commands := [.expectState fun count _ => count ≠ 0, .expectLoad 0] ++ countDowns ++
    [.awaitValue, .expectLoad n, .awaitTasks]
  suspends := rfl

/-- `once` -/
def once : Test ℕ Unit :=
  counted 0 1 [.call () none, .expectState fun count _ => count = 0]

/-- `resume_in_destructor` -/
def resumeInDestructor : Test ℕ Unit :=
  WaiterTests.resumeInDestructor latch 100 [.expectLoad 0] rfl

end Latch

/-! ### The system -/

/-- A task: in front of its `co_await`, suspended, behind it and in front of `AA.inc()`, and at its
end. -/
inductive Waiter
  | created
  | suspended
  | resumed
  | returned
  deriving DecidableEq

/-- The state of a test; `rest` are the commands that are left. -/
structure State (T : Test σ ω) where
  prim : Option σ
  waiter : Fin T.waiters → Waiter
  value : ℕ
  rest : List (Command σ ω)
  failures : ℕ

/-- The tasks at a point. -/
def tasksAt {n : ℕ} (waiter : Fin n → Waiter) (w : Waiter) : Finset (Fin n) :=
  Finset.univ.filter fun i => waiter i = w

/-- The suspended tasks. -/
def State.waiting (s : State T) : Finset (Fin T.waiters) := tasksAt s.waiter .suspended

/-- The tasks `W` are woken. -/
def State.wake (s : State T) (W : Finset (Fin T.waiters)) : State T :=
  { s with waiter := fun i => if i ∈ W then .resumed else s.waiter i }

/-- An expectation fails unless `b`. -/
def State.expect (s : State T) (b : Bool) : State T :=
  { s with failures := if b then s.failures else s.failures + 1 }

/-- The steps of the tasks, and those of the test: a poll in `wait_for_waiter_count` that fails, and
the commands. -/
inductive Action (T : Test σ ω)
  | await (i : Fin T.waiters)
  | suspend (i : Fin T.waiters)
  | inc (i : Fin T.waiters)
  | poll
  | command

/-- The steps of a test. -/
inductive Step (T : Test σ ω) : State T → Action T → State T → Prop
  | await {s : State T} {i : Fin T.waiters} {q q' : σ} (h : s.waiter i = .created)
      (hq : s.prim = some q) (hawait : T.prim.await q = some q') :
      Step T s (.await i)
        { s with prim := some q', waiter := Function.update s.waiter i .resumed }
  | suspend {s : State T} {i : Fin T.waiters} {q : σ} (h : s.waiter i = .created)
      (hq : s.prim = some q) (hawait : T.prim.await q = none) :
      Step T s (.suspend i)
        { s with waiter := Function.update s.waiter i .suspended }
  | inc {s : State T} {i : Fin T.waiters} (h : s.waiter i = .resumed) :
      Step T s (.inc i)
        { s with value := s.value + 1, waiter := Function.update s.waiter i .returned }
  | poll {s : State T} {expected : ℕ} {cmds : List (Command σ ω)}
      (h : s.rest = .waitForWaiterCount expected :: cmds) (hq : s.prim.isSome)
      (hlen : s.waiting.card ≠ expected) : Step T s .poll s
  | found {s : State T} {expected : ℕ} {cmds : List (Command σ ω)}
      (h : s.rest = .waitForWaiterCount expected :: cmds) (hq : s.prim.isSome)
      (hlen : s.waiting.card = expected) : Step T s .command { s with rest := cmds }
  | expectLoad {s : State T} {expected : ℕ} {cmds : List (Command σ ω)}
      (h : s.rest = .expectLoad expected :: cmds) :
      Step T s .command { s.expect (s.value = expected) with rest := cmds }
  | expectState {s : State T} {p : σ → ℕ → Bool} {cmds : List (Command σ ω)} {q : σ}
      (h : s.rest = .expectState p :: cmds) (hq : s.prim = some q) :
      Step T s .command { s.expect (p q s.waiting.card) with rest := cmds }
  | call {s : State T} {o : ω} {expected : Option ℕ} {cmds : List (Command σ ω)} {q : σ}
      {W : Finset (Fin T.waiters)} (h : s.rest = .call o expected :: cmds) (hq : s.prim = some q)
      (hW : W ⊆ s.waiting)
      (hcard : W.card = min (T.prim.call o s.waiting.card q).1 s.waiting.card) :
      Step T s .command
        { (s.wake W).expect (expected.all fun k => k = (T.prim.call o s.waiting.card q).1) with
          prim := some (T.prim.call o s.waiting.card q).2
          rest := cmds }
  | destroy {s : State T} {cmds : List (Command σ ω)} (h : s.rest = .destroy :: cmds)
      (hq : s.prim.isSome) :
      Step T s .command { s.wake s.waiting with prim := none, rest := cmds }
  | awaitValue {s : State T} {cmds : List (Command σ ω)} (h : s.rest = .awaitValue :: cmds)
      (hvalue : s.value = T.waiters) : Step T s .command { s with rest := cmds }
  | awaitTasks {s : State T} {cmds : List (Command σ ω)} (h : s.rest = .awaitTasks :: cmds)
      (hall : ∀ i, s.waiter i = .returned) : Step T s .command { s with rest := cmds }

/-- A test, from where the tasks have been forked. -/
def Test.system (T : Test σ ω) : LTS (State T) (Action T) where
  init :=
    { prim := some T.initial
      waiter := fun _ => .created
      value := 0
      rest := .waitForWaiterCount T.waiters :: T.commands
      failures := 0 }
  step := Step T

end WaiterTests

end TmcExamples
