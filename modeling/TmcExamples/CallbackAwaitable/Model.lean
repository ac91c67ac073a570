import Mathlib.Logic.Function.Basic
import TmcExamples.Transition.System

/-!
# The awaitable of `callback_awaitable.hpp`

`await_callback()` turns an operation that reports its results to a callback into an awaitable.
Any number of operations may be pending. Those with the same result tuple share one static
callback, which finds its awaitable by the `user_data` pointer alone, and writes the results
through the pointers that the awaitable's customizer holds at that moment.

A coroutine awaits one operation directly, or any number of them at once through a utility function
such as `tmc::spawn_tuple()`, which configures and initiates each of them by `awaitable_traits`.

The result tuples of the program are given by `R`; an object that belongs to result tuple `t` has
an address `(t, n)`, so a pointer to such an object is the number `n`. The awaitable at `(t, n)` and
the storage for its result have the same number, and so have a coroutine and the counter of the
operations that it awaits. An address is used again when its operation is over.

The customizer is part of the library. `resume_continuation()` is taken to yield the stored
continuation, or to post it and to yield `std::noop_coroutine()`. Where there is a `done_count` it
counts down first, and yields `std::noop_coroutine()` unless it is the last one to do so. What the
program must not do, such as to write through a null pointer or to resume a coroutine that is not
suspended, sets `undefined`.
-/

namespace TmcExamples

namespace CallbackAwaitable

/-- A type `std::tuple<ResultArgs...>`. -/
inductive ResultTuple
  | defaultConstructible (α : Type) (default : α)
  | notDefaultConstructible (α : Type)

namespace ResultTuple

/-- The values of the tuple. -/
def Value : ResultTuple → Type
  | .defaultConstructible α _ | .notDefaultConstructible α => α

/-- `result_storage_t`: the tuple itself, or an optional one. -/
def Storage : ResultTuple → Type
  | .defaultConstructible α _ => α
  | .notDefaultConstructible α => Option α

/-- A storage that has not been written. -/
def fresh : (R : ResultTuple) → R.Storage
  | .defaultConstructible _ default => default
  | .notDefaultConstructible _ => none

/-- The assignment of the callback to `*result_ptr`, or its `result_ptr->emplace()`. -/
def store : (R : ResultTuple) → R.Value → R.Storage
  | .defaultConstructible _ _, results => results
  | .notDefaultConstructible _, results => some results

/-- `await_resume()`, which must not find an empty optional. -/
def awaitResume : (R : ResultTuple) → R.Storage → Option R.Value
  | .defaultConstructible _ _, result => some result
  | .notDefaultConstructible _, result => result

@[simp] theorem awaitResume_store (R : ResultTuple) (results : R.Value) :
    R.awaitResume (R.store results) = some results := by
  cases R <;> rfl

end ResultTuple

/-- The part of `awaitable_customizer` that the awaitable sets. -/
structure Customizer where
  continuation : Option ℕ
  continuationExecutor : Option ℕ
  resultPtr : Option ℕ
  doneCount : Option ℕ
  flags : ℕ
  deriving DecidableEq, Repr

/-- The customizer of a new awaitable. -/
def Customizer.initial : Customizer := ⟨none, none, none, none, 0⟩

/-- The setters of `awaitable_traits`. -/
inductive Setter
  | continuation (continuation : ℕ)
  | continuationExecutor (contExec : ℕ)
  | resultPtr (resultPtr : ℕ)
  | doneCount (doneCount : ℕ)
  | flags (flags : ℕ)
  deriving DecidableEq, Repr

/-- What a setter does to the customizer. -/
def Setter.apply : Setter → Customizer → Customizer
  | .continuation c, a => { a with continuation := some c }
  | .continuationExecutor e, a => { a with continuationExecutor := some e }
  | .resultPtr p, a => { a with resultPtr := some p }
  | .doneCount d, a => { a with doneCount := some d }
  | .flags f, a => { a with flags := f }

/-- What setters, called one after the other, do to the customizer. -/
def Customizer.configured (a : Customizer) (setters : List Setter) : Customizer :=
  setters.foldl (fun a f => f.apply a) a

/-- What the customizer of one of `n` operations has to hold before it is initiated: the coroutine
that awaits them, the storage for the result, and the counter of that coroutine, which a single
operation can do without. -/
structure Customizer.Ready (a : Customizer) (outer resultPtr n : ℕ) : Prop where
  continuation : a.continuation = some outer
  resultPtr : a.resultPtr = some resultPtr
  doneCount : a.doneCount = some outer ∨ a.doneCount = none ∧ n = 1

/-- The assignments of `await_suspend()` -/
def awaitSuspend (outer result : ℕ) : List Setter := [.continuation outer, .resultPtr result]

/-- An operation: the setters that are still to be called before it is initiated, then what its
callback has done. -/
inductive Phase
  | absent
  | configuring (setters : List Setter)
  | pending
  | written
  | posted (continuation : Option ℕ)
  | done
  deriving DecidableEq, Repr

/-- A coroutine, with the operations that it awaits. -/
inductive Coro (ι : Type)
  | running
  | suspended (ops : List (ι × ℕ))
  | resumed (ops : List (ι × ℕ))
  deriving DecidableEq, Repr

variable {ι : Type} (R : ι → ResultTuple)

/-- The state of the awaitables, of the storages for their results, of the counters of pending
operations and of the coroutines. -/
structure State where
  customizer : ι × ℕ → Customizer
  result : (op : ι × ℕ) → (R op.1).Storage
  phase : ι × ℕ → Phase
  doneCount : ℕ → ℕ
  coro : ℕ → Coro ι
  undefined : Bool

/-- What `await_resume()` returns for each operation. -/
abbrev Results := List (Σ op : ι × ℕ, Option (R op.1).Value)

/-- The steps of coroutines, of utility functions, of callbacks and of executors. -/
inductive Action
  | await (coro : ℕ) (ops : List (ι × ℕ))
  | set (op : ι × ℕ) (setter : Setter)
  | asyncInitiate (op : ι × ℕ)
  | callback (op : ι × ℕ) (results : (R op.1).Value)
  | count (op : ι × ℕ)
  | post (op : ι × ℕ)
  | resume (op : ι × ℕ) (continuation : Option ℕ)
  | resumePosted (op : ι × ℕ) (continuation : Option ℕ)
  | awaitResume (coro : ℕ) (results : Results R)

variable {R}

section

variable [DecidableEq ι] (s : State R)

/-- Set the phase of an operation. -/
def State.setPhase (op : ι × ℕ) (p : Phase) : State R :=
  { s with phase := Function.update s.phase op p }

/-- Call a setter of an awaitable. -/
def State.set (op : ι × ℕ) (f : Setter) : State R :=
  { s with customizer := Function.update s.customizer op (f.apply (s.customizer op)) }

/-- The coroutine `c` awaits new operations. Since `await_ready()` is false, it is suspended. -/
def State.begin (c : ℕ) (ops : List (ι × ℕ)) (setters : ι × ℕ → List Setter) : State R where
  customizer op := if op ∈ ops then .initial else s.customizer op
  result op := if op ∈ ops then (R op.1).fresh else s.result op
  phase op := if op ∈ ops then .configuring (setters op) else s.phase op
  doneCount := Function.update s.doneCount c ops.length
  coro := Function.update s.coro c (.suspended ops)
  undefined := s.undefined

/-- The callback writes its arguments to `result_ptr`. -/
def State.write (op : ι × ℕ) (results : (R op.1).Value) : State R :=
  match (s.customizer op).resultPtr with
  | some p => { s with
      result := Function.update s.result (op.1, p) ((R op.1).store results) }
  | none => { s with undefined := true }

/-- `resume_continuation()` yields or posts the continuation: there is no counter, or the callback
is the last one to count down. -/
def State.Last (op : ι × ℕ) : Prop := ∀ d ∈ (s.customizer op).doneCount, s.doneCount d = 1

instance (op : ι × ℕ) : Decidable (s.Last op) :=
  inferInstanceAs (Decidable (∀ d ∈ (s.customizer op).doneCount, s.doneCount d = 1))

/-- `resume_continuation()` counts down. -/
def State.countDown (op : ι × ℕ) : State R :=
  match (s.customizer op).doneCount with
  | some d => { s with doneCount := Function.update s.doneCount d (s.doneCount d - 1) }
  | none => s

/-- A coroutine is resumed by its handle. -/
def State.resume (continuation : Option ℕ) : State R :=
  match continuation with
  | some c =>
    match s.coro c with
    | .suspended ops => { s with coro := Function.update s.coro c (.resumed ops) }
    | .running | .resumed _ => { s with undefined := true }
  | none => { s with undefined := true }

/-- The awaitables of the coroutine `c` are destroyed. -/
def State.finish (c : ℕ) (ops : List (ι × ℕ)) : State R :=
  { s with
    phase := fun op => if op ∈ ops then .absent else s.phase op
    coro := Function.update s.coro c .running }

/-- What `await_resume()` finds in the storages. -/
def State.results (ops : List (ι × ℕ)) : Results R :=
  ops.map fun op => ⟨op, (R op.1).awaitResume (s.result op)⟩

end

variable (R) in
/-- Nothing is awaited. -/
def initial : State R where
  customizer := fun _ => .initial
  result := fun op => (R op.1).fresh
  phase := fun _ => .absent
  doneCount := fun _ => 0
  coro := fun _ => .running
  undefined := false

/-- The steps of the program. -/
inductive Step [DecidableEq ι] : State R → Action R → State R → Prop
  /- `co_await` of an operation: `await_suspend()` makes its assignments and then initiates. -/
  | await {s : State R} {c : ℕ} {op : ι × ℕ} : s.coro c = .running → s.phase op = .absent →
      Step s (.await c [op]) (s.begin c [op] fun op => awaitSuspend c op.2)
  /- `co_await` of a utility function, which calls the setters of `awaitable_traits` for each
  operation in any order, and any of them again, and then initiates. -/
  | spawn {s : State R} {c : ℕ} {ops : List (ι × ℕ)} {setters : ι × ℕ → List Setter} :
      s.coro c = .running → ops ≠ [] → ops.Nodup → (∀ op ∈ ops, s.phase op = .absent) →
      (∀ op ∈ ops, (Customizer.initial.configured (setters op)).Ready c op.2 ops.length) →
      Step s (.await c ops) (s.begin c ops setters)
  | set {s : State R} {op : ι × ℕ} {f : Setter} {fs : List Setter} :
      s.phase op = .configuring (f :: fs) →
      Step s (.set op f) ((s.set op f).setPhase op (.configuring fs))
  | asyncInitiate {s : State R} {op : ι × ℕ} : s.phase op = .configuring [] →
      Step s (.asyncInitiate op) (s.setPhase op .pending)
  /- `callback()`, inside of the initiation function or later -/
  | callback {s : State R} {op : ι × ℕ} {results : (R op.1).Value} : s.phase op = .pending →
      Step s (.callback op results) ((s.write op results).setPhase op .written)
  | count {s : State R} {op : ι × ℕ} : s.phase op = .written → ¬ s.Last op →
      Step s (.count op) ((s.countDown op).setPhase op .done)
  | post {s : State R} {op : ι × ℕ} : s.phase op = .written → s.Last op →
      Step s (.post op)
        ((s.countDown op).setPhase op (.posted (s.customizer op).continuation))
  | resume {s : State R} {op : ι × ℕ} : s.phase op = .written → s.Last op →
      Step s (.resume op (s.customizer op).continuation)
        (((s.countDown op).resume (s.customizer op).continuation).setPhase op .done)
  | resumePosted {s : State R} {op : ι × ℕ} {k : Option ℕ} : s.phase op = .posted k →
      Step s (.resumePosted op k) ((s.resume k).setPhase op .done)
  /- `await_resume()`, after which the awaitables are destroyed -/
  | awaitResume {s : State R} {c : ℕ} {ops : List (ι × ℕ)} : s.coro c = .resumed ops →
      Step s (.awaitResume c (s.results ops)) (s.finish c ops)

variable (R) in
/-- The awaitables as a transition system. -/
def system [DecidableEq ι] : LTS (State R) (Action R) := ⟨initial R, Step⟩

end CallbackAwaitable

end TmcExamples
