import Mathlib.Logic.Function.Basic
import TmcExamples.Transition.System

/-!
# Awaitables that complete from a thread of their own

`external_awaitable`, `atomic_awaitable` and `mux_rvalue_async_op` start a helper thread when they
are initiated, which waits until an atomic variable has the right value and then resumes the
continuation. The thread is assigned to a member under a lock, and the destructor joins it under
the same lock. The differences are in what the helper waits for (`Awaitable`).

The parties are the threads that call `inc()` or `complete()`, the helpers, the thread that
initiates the awaitable and the coroutine that awaits it. The coroutine awaits the same object any
number of times and then runs the destructor (`script`); it is resumed on another thread than
the helper. A thread that initiates the awaitable waits for the lock first (`Control.lock`); from
then on it runs next to the resumed coroutine (`Initiator`), until it unlocks.

`wait(old)` compares the value and blocks in one step, as the standard has it that no notification
after a later change is lost. A blocked helper may also wake up spuriously; it then compares again.
An assignment to a thread object that is joinable, or its destruction, ends the program
(`terminated`).
-/

namespace TmcExamples

namespace HelperThread

/-- What an awaitable waits for: how often its atomic variable is updated and what value it has
after `k` updates, when the loop of the helper ends, and when `await_ready()` is true. -/
structure Awaitable where
  updates : ℕ
  value : ℕ → ℕ
  ended : ℕ → Bool
  awaitReady : ℕ → Bool
  ended_final : ended (value updates) = true
  ended_stable : ∀ k < updates, ended (value k) = true → ended (value (k + 1)) = true

/-- `external_awaitable`: the helper does not wait for anything. -/
def externalAwaitable : Awaitable where
  updates := 0
  value := fun _ => 0
  ended := fun _ => true
  awaitReady := fun _ => false
  ended_final := rfl
  ended_stable := fun _ _ _ => rfl

/-- `atomic_awaitable` with `Until` calls of `inc()`. -/
def atomicAwaitable (untilValue : ℕ) : Awaitable where
  updates := untilValue
  value := id
  ended := fun v => v = untilValue
  awaitReady := fun v => v = untilValue
  ended_final := decide_eq_true rfl
  ended_stable := fun _ hk hended => (hk.ne (of_decide_eq_true hended)).elim

/-- `mux_rvalue_async_op` with one call of `complete()` or more. It is always initiated. -/
def muxRvalueAsyncOp (more : ℕ) : Awaitable where
  updates := more + 1
  value := fun k => if k = 0 then 0 else 1
  ended := fun old => old ≠ 0
  awaitReady := fun _ => false
  ended_final := rfl
  ended_stable := fun _ _ _ => rfl

/-- An await of the object: directly, or through a utility function that calls
`awaitable_traits::async_initiate()`. -/
inductive Await
  | direct
  | wrapped
  deriving DecidableEq, Repr

/-- The coroutine: it runs, or it is suspended while the thread that has suspended it waits for the
lock, or it is suspended until it is resumed. The other program points are in the destructor. -/
inductive Control
  | running
  | lock
  | suspended
  | joinable
  | join
  | unlock
  | destroy
  | destroyed
  deriving DecidableEq, Repr

/-- The thread that has the lock in `async_initiate()`. -/
inductive Initiator
  | idle
  | create
  | assign (helper : ℕ)
  | unlock
  deriving DecidableEq, Repr

/-- A helper thread: before a load of the atomic variable, before `wait(old)` or blocked in it, and
before and after the resumption of the continuation. -/
inductive Helper
  | notCreated
  | load
  | wait (old : ℕ)
  | blocked (old : ℕ)
  | resume
  | exiting
  | finished
  deriving DecidableEq, Repr

/-- `notify_all` unblocks the helper. -/
def Helper.wake : Helper → Helper
  | .blocked old => .wait old
  | h => h

/-- The state of the object and of the parties. `assigned` and `joined` count assignments to the
thread member and joins of it. -/
structure State where
  script : List Await
  control : Control
  initiator : Initiator
  locked : Bool
  thread : Option ℕ
  helper : ℕ → Helper
  created : ℕ
  updates : ℕ
  notifies : ℕ
  assigned : ℕ
  joined : ℕ
  terminated : Bool

/-- The steps of the parties. -/
inductive Action
  | update
  | notifyAll
  | load (helper : ℕ)
  | wait (helper : ℕ)
  | changed (helper : ℕ)
  | spurious (helper : ℕ)
  | resume (helper : ℕ)
  | exit (helper : ℕ)
  | ready
  | suspend (await : Await)
  | lock
  | create
  | assign
  | unlock
  | destruct
  | joinable
  | join
  | unlockDestructor
  | destroy
  deriving DecidableEq, Repr

/-- A wakeup without a notification. -/
def Action.IsSpurious : Action → Prop
  | .spurious _ => True
  | _ => False

namespace State

variable (s : State)

/-- Move a helper. -/
def setHelper (i : ℕ) (h : Helper) : State :=
  { s with helper := Function.update s.helper i h }

/-- The value of the atomic variable. -/
def value (A : Awaitable) : ℕ := A.value s.updates

end State

/-- The object is new. -/
def initial (script : List Await) : State where
  script := script
  control := .running
  initiator := .idle
  locked := false
  thread := none
  helper := fun _ => .notCreated
  created := 0
  updates := 0
  notifies := 0
  assigned := 0
  joined := 0
  terminated := false

/-- The steps of a program that has not been terminated. -/
inductive Move (A : Awaitable) : State → Action → State → Prop
  /- `inc()` and `complete()` -/
  | update {s : State} : s.updates < A.updates →
      Move A s .update { s with updates := s.updates + 1, notifies := s.notifies + 1 }
  | notifyAll {s : State} : 0 < s.notifies →
      Move A s .notifyAll
        { s with notifies := s.notifies - 1, helper := fun i => (s.helper i).wake }
  /- The helper thread -/
  | load {s : State} {i : ℕ} : s.helper i = .load →
      Move A s (.load i)
        (s.setHelper i (if A.ended (s.value A) then .resume else .wait (s.value A)))
  | wait {s : State} {i old : ℕ} : s.helper i = .wait old → s.value A = old →
      Move A s (.wait i) (s.setHelper i (.blocked old))
  | changed {s : State} {i old : ℕ} : s.helper i = .wait old → s.value A ≠ old →
      Move A s (.changed i) (s.setHelper i .load)
  | spurious {s : State} {i old : ℕ} : s.helper i = .blocked old →
      Move A s (.spurious i) (s.setHelper i (.wait old))
  | resume {s : State} {i : ℕ} : s.helper i = .resume → s.control = .suspended →
      Move A s (.resume i) { s.setHelper i .exiting with control := .running }
  | exit {s : State} {i : ℕ} : s.helper i = .exiting →
      Move A s (.exit i) (s.setHelper i .finished)
  /- An await: with `await_ready()` true the coroutine goes on. -/
  | ready {s : State} {rest : List Await} : s.control = .running →
      s.script = .direct :: rest → A.awaitReady (s.value A) = true →
      Move A s .ready { s with script := rest }
  | suspendDirect {s : State} {rest : List Await} : s.control = .running →
      s.script = .direct :: rest → A.awaitReady (s.value A) = false →
      Move A s (.suspend .direct) { s with script := rest, control := .lock }
  | suspendWrapped {s : State} {rest : List Await} : s.control = .running →
      s.script = .wrapped :: rest →
      Move A s (.suspend .wrapped) { s with script := rest, control := .lock }
  /- `async_initiate()` -/
  | lock {s : State} : s.control = .lock → s.locked = false →
      Move A s .lock { s with control := .suspended, initiator := .create, locked := true }
  | create {s : State} : s.initiator = .create →
      Move A s .create
        { s.setHelper s.created .load with
          initiator := .assign s.created
          created := s.created + 1 }
  | assign {s : State} {i : ℕ} : s.initiator = .assign i → s.thread = none →
      Move A s .assign
        { s with thread := some i, initiator := .unlock, assigned := s.assigned + 1 }
  | assignJoinable {s : State} {i j : ℕ} : s.initiator = .assign i → s.thread = some j →
      Move A s .assign { s with terminated := true }
  | unlock {s : State} : s.initiator = .unlock →
      Move A s .unlock { s with initiator := .idle, locked := false }
  /- The destructor -/
  | destruct {s : State} : s.control = .running → s.script = [] → s.locked = false →
      Move A s .destruct { s with control := .joinable, locked := true }
  | joinable {s : State} : s.control = .joinable →
      Move A s .joinable
        { s with control := if s.thread.isSome then .join else .unlock }
  | join {s : State} {i : ℕ} : s.control = .join → s.thread = some i →
      s.helper i = .finished →
      Move A s .join { s with thread := none, control := .unlock, joined := s.joined + 1 }
  | unlockDestructor {s : State} : s.control = .unlock →
      Move A s .unlockDestructor { s with control := .destroy, locked := false }
  | destroy {s : State} : s.control = .destroy →
      Move A s .destroy
        { s with control := .destroyed, terminated := s.thread.isSome }

/-- The steps of the program. -/
def Step (A : Awaitable) (s : State) (a : Action) (s' : State) : Prop :=
  s.terminated = false ∧ Move A s a s'

/-- The awaitable and its users as a transition system. -/
def system (A : Awaitable) (script : List Await) : LTS State Action := ⟨initial script, Step A⟩

end HelperThread

end TmcExamples
