import Mathlib.Data.Nat.Notation
import Mathlib.Order.Basic

/-!
# Process functions and forked tasks

The pipelines call process functions that are regular functions or coroutines, and the FIFO
pipeline runs them in tasks forked onto the executor. A coroutine may suspend any number of
times before it completes, but always completes, with a result that is determined by its
argument (`ProcessFunc`).

A forked task is a small state machine (`ProcessFunc.Advance`) behind its handle `Fork`: it
can always take a step until it has finished (`exists_advance`), its result is the one of its
function on its argument (`Advance.ready?_eq`), and every step of it does work or uses up a
suspension (`Advance.work_lt`).
-/

namespace TmcExamples

/-- A stage's function is a regular function, or a coroutine (its invoke result is an
awaitable). -/
inductive FuncKind
  | regular
  | coroutine
  deriving DecidableEq, Repr

/-- How often the body of a function may suspend before it completes: a regular function
runs through, a coroutine may suspend any number of times. -/
def FuncKind.MaySuspend : FuncKind → ℕ → Prop
  | .regular, n => n = 0
  | .coroutine, _ => True

instance (f : FuncKind) : DecidablePred f.MaySuspend := fun n =>
  match f with
  | .regular => inferInstanceAs (Decidable (n = 0))
  | .coroutine => isTrue trivial

theorem FuncKind.maySuspend_zero (f : FuncKind) : f.MaySuspend 0 := by cases f <;> trivial

/-- A process function: its kind and the result it returns for each input. -/
structure ProcessFunc (α β : Type) where
  kind : FuncKind
  result : α → β

/-- The first `k` of a sequence of process functions, one after the other. -/
def ProcessFunc.compose {Val : ℕ → Type} (func : (k : ℕ) → ProcessFunc (Val k) (Val (k + 1))) :
    (k : ℕ) → Val 0 → Val k
  | 0, x => x
  | k + 1, x => (func k).result (compose func k x)

/-- How far a forked task has come. -/
inductive Progress (β : Type)
  | queued
  | running (suspensions : ℕ)
  | finished (result : β)
  deriving Repr

/-- A forked task together with its handle `aw_spawn_fork`: the argument it was forked with,
how far it has come and how many times its handle has been awaited. -/
structure Fork (α β : Type) where
  arg : α
  progress : Progress β
  awaited : ℕ
  deriving Repr

/-- What the executor may do with a forked task: start its body, resume it after a
suspension, or run it to its end. -/
inductive TaskEvent
  | start (suspensions : ℕ)
  | resume
  | finish
  deriving DecidableEq, Repr

/-- The event is the start of the task's body. -/
def TaskEvent.isStart : TaskEvent → Bool
  | .start _ => true
  | _ => false

namespace Fork

variable {α β : Type}

/-- `tmc::spawn(...).fork()` on `data`: the task waits to be started by the executor. -/
def spawn (data : α) : Fork α β := ⟨data, .queued, 0⟩

/-- The result that `co_await` of the handle yields, once the task has finished. -/
def ready? (t : Fork α β) : Option β :=
  match t.progress with
  | .finished r => some r
  | _ => none

/-- The handle after one more `co_await` of it. -/
def await (t : Fork α β) : Fork α β := { t with awaited := t.awaited + 1 }

/-- The body of the task has been started. -/
def isStarted (t : Fork α β) : Bool :=
  match t.progress with
  | .queued => false
  | _ => true

/-- The body of the task has been started and has not finished. -/
def isRunning (t : Fork α β) : Bool :=
  match t.progress with
  | .running _ => true
  | _ => false

/-- A task with a result has been started. -/
theorem isStarted_of_ready {t : Fork α β} {r : β} (h : t.ready? = some r) : t.isStarted = true := by
  obtain ⟨a, p, c⟩ := t
  cases p with
  | finished => rfl
  | _ => nomatch h

/-- A running task has no result yet. -/
theorem ready?_of_isRunning {t : Fork α β} (h : t.isRunning = true) : t.ready? = none := by
  obtain ⟨a, p, c⟩ := t
  cases p with
  | running => rfl
  | _ => nomatch h

end Fork

/-- The steps a task has to take, without its resumptions. -/
def Progress.work {β : Type} : Progress β → ℕ
  | .queued => 2
  | .running _ => 1
  | .finished _ => 0

/-- The suspensions a task has before it. -/
def Progress.suspensions {β : Type} : Progress β → ℕ
  | .running n => n
  | _ => 0

/-! ### The steps of a forked task -/

namespace ProcessFunc

variable {α β : Type}

/-- The steps of a forked task that runs the function's body. A coroutine is the task itself
and may suspend; a regular function is called inside a task that returns its result. -/
inductive Advance (f : ProcessFunc α β) : TaskEvent → Fork α β → Fork α β → Prop
  | start {a : α} {n c : ℕ} : f.kind.MaySuspend n →
      Advance f (.start n) ⟨a, .queued, c⟩ ⟨a, .running n, c⟩
  | resume {a : α} {n c : ℕ} : Advance f .resume ⟨a, .running (n + 1), c⟩ ⟨a, .running n, c⟩
  | finish {a : α} {c : ℕ} :
      Advance f .finish ⟨a, .running 0, c⟩ ⟨a, .finished (f.result a), c⟩

variable {f : ProcessFunc α β} {e : TaskEvent} {t t' : Fork α β}

theorem Advance.arg_eq (h : f.Advance e t t') : t'.arg = t.arg := by cases h <;> rfl

theorem Advance.awaited_eq (h : f.Advance e t t') : t'.awaited = t.awaited := by cases h <;> rfl

/-- A task that advances has not finished before. -/
theorem Advance.ready?_eq_none (h : f.Advance e t t') : t.ready? = none := by cases h <;> rfl

/-- The result of a task after a step of it is the result of its function on its argument. -/
theorem Advance.ready?_eq (h : f.Advance e t t') {r : β} (hr : t'.ready? = some r) :
    r = f.result t'.arg := by
  cases h with
  | start => cases hr
  | resume => cases hr
  | finish => exact (Option.some.inj hr).symm

/-- A task that has not finished can always take a step. -/
theorem exists_advance (f : ProcessFunc α β) {t : Fork α β} (h : t.ready? = none) :
    ∃ e t', f.Advance e t t' := by
  obtain ⟨a, p, c⟩ := t
  cases p with
  | queued => exact ⟨_, _, .start f.kind.maySuspend_zero⟩
  | running n =>
    cases n with
    | zero => exact ⟨_, _, .finish⟩
    | succ n => exact ⟨_, _, .resume⟩
  | finished r => cases h

/-- A step of a task does work, or is a resumption. -/
theorem Advance.work_lt (h : f.Advance e t t') :
    t'.progress.work < t.progress.work ∨ t'.progress.work = t.progress.work ∧
      t'.progress.suspensions < t.progress.suspensions := by
  cases h with
  | start => exact Or.inl (Nat.lt_succ_self 1)
  | resume => exact Or.inr ⟨rfl, Nat.lt_succ_self _⟩
  | finish => exact Or.inl Nat.one_pos

end ProcessFunc

end TmcExamples
