import Mathlib.Data.BitVec
import TmcExamples.Transition.System

/-!
# The functions of `braid.cpp`

Each of the functions runs `TASK_COUNT` tasks that increment one variable, `value`, and uses a
braid as the lock that the increment needs: `v++` is not atomic, and reads the variable before
it stores the new value. A task is a list of statements. It runs on an executor until it returns
or suspends, and a `co_await` that moves it to an executor puts it into the queue of that one.
The braid resumes one task at a time; the tasks on `tmc::cpu_executor()` run in parallel.

`tmc::enter(braid)` moves the task to the braid, and the exit of the scope back to the executor
that the task was on before. Awaiting `spawn_func(f).run_on(braid)` runs `f` on the braid, and the
task continues behind it on its own executor. All functions run their tasks on the braid `br`
from the start, with `run_on(br)`. The order of the queues is left open.
-/

namespace TmcExamples

namespace Braid

/-- The executors of the tasks. -/
inductive Executor
  | braid
  | cpu
  deriving DecidableEq, Repr

/-- The statements of the tasks. `spawnFunc` awaits the function that increments on the braid. -/
inductive Stmt
  | increment
  | enter
  | exit
  | resumeOn (ex : Executor)
  | spawnFunc
  deriving DecidableEq, Repr

/-- `child_tasks_run_on_braid` -/
def childTasksRunOnBraid : List Stmt := [.increment]

/-- `child_funcs_run_on_braid` -/
def childFuncsRunOnBraid : List Stmt := [.increment]

/-- `braid_lock` -/
def braidLock : List Stmt := [.enter, .increment]

/-- `braid_lock_middle` -/
def braidLockMiddle : List Stmt := [.enter, .increment, .exit]

/-- `braid_lock_middle_resume_on` -/
def braidLockMiddleResumeOn : List Stmt := [.resumeOn .braid, .increment, .resumeOn .cpu]

/-- `braid_lock_middle_child` -/
def braidLockMiddleChild : List Stmt := [.spawnFunc]

/-- The functions that `async_main` awaits, by what their tasks do. -/
def functions : List (List Stmt) :=
  [childTasksRunOnBraid, childFuncsRunOnBraid, braidLock, braidLockMiddle, braidLockMiddleResumeOn,
    braidLockMiddleChild]

/-- Where a task is: in the queue of its executor, running, between the two halves of an
increment, or at its end. -/
inductive Status
  | queued
  | running
  | incrementing
  | returned
  deriving DecidableEq, Repr

variable {w n : ℕ}

/-- A task: its executor, the executors that its scopes return to, the statements that are left,
and the value that it has read last. -/
structure Task (w : ℕ) where
  ex : Executor
  scopes : List Executor
  body : List Stmt
  status : Status
  read : BitVec w

/-- The task runs on the braid. -/
def Task.OnBraid (t : Task w) : Prop :=
  t.ex = .braid ∧ (t.status = .running ∨ t.status = .incrementing)

/-- Where a task continues that suspends in the statement: its executor, its scopes and the
statements that are left. An increment does not suspend. -/
def Stmt.suspend (ex : Executor) (scopes : List Executor) (rest : List Stmt) :
    Stmt → Option (Executor × List Executor × List Stmt)
  | .increment => none
  | .enter => some (.braid, ex :: scopes, rest)
  | .exit =>
    match scopes with
    | [] => none
    | ex' :: scopes' => some (ex', scopes', rest)
  | .resumeOn ex' => some (ex', scopes, rest)
  | .spawnFunc => some (.braid, ex :: scopes, .increment :: .exit :: rest)

/-- The program points of the function itself, behind the fork. -/
inductive Main
  | awaitTasks
  | finished
  deriving DecidableEq, Repr

/-- The line `FAIL: expected %zu but got %zu`. -/
structure Failure (w : ℕ) where
  expected : BitVec w
  got : BitVec w

/-- The state of a function with `n` tasks. -/
structure State (w n : ℕ) where
  main : Main
  task : Fin n → Task w
  value : BitVec w
  output : List (Failure w)

/-- The steps of the tasks and of the function. -/
inductive Action (n : ℕ)
  | resume (t : Fin n)
  | load (t : Fin n)
  | store (t : Fin n)
  | suspend (t : Fin n)
  | ret (t : Fin n)
  | join

/-- The steps of a function. -/
inductive Step : State w n → Action n → State w n → Prop
  | resume {s : State w n} {t : Fin n} (h : (s.task t).status = .queued)
      (hbraid : (s.task t).ex = .braid → ∀ u, u ≠ t → ¬ (s.task u).OnBraid) :
      Step s (.resume t)
        { s with task := Function.update s.task t { s.task t with status := .running } }
  | load {s : State w n} {t : Fin n} {rest : List Stmt} (h : (s.task t).status = .running)
      (hbody : (s.task t).body = .increment :: rest) :
      Step s (.load t)
        { s with
          task := Function.update s.task t
            { s.task t with status := .incrementing, read := s.value } }
  | store {s : State w n} {t : Fin n} {rest : List Stmt} (h : (s.task t).status = .incrementing)
      (hbody : (s.task t).body = .increment :: rest) :
      Step s (.store t)
        { s with
          task := Function.update s.task t { s.task t with status := .running, body := rest }
          value := (s.task t).read + 1 }
  | suspend {s : State w n} {t : Fin n} {st : Stmt} {rest : List Stmt} {ex : Executor}
      {scopes : List Executor} {body : List Stmt} (h : (s.task t).status = .running)
      (hbody : (s.task t).body = st :: rest)
      (hsuspend : st.suspend (s.task t).ex (s.task t).scopes rest = some (ex, scopes, body)) :
      Step s (.suspend t)
        { s with
          task := Function.update s.task t ⟨ex, scopes, body, .queued, (s.task t).read⟩ }
  | ret {s : State w n} {t : Fin n} (h : (s.task t).status = .running)
      (hbody : (s.task t).body = []) :
      Step s (.ret t)
        { s with task := Function.update s.task t { s.task t with status := .returned } }
  | join {s : State w n} (h : s.main = .awaitTasks) (hjoin : ∀ t, (s.task t).status = .returned) :
      Step s .join
        { s with
          main := .finished
          output := if s.value = BitVec.ofNat w n then s.output
            else s.output ++ [⟨BitVec.ofNat w n, s.value⟩] }

/-- A function with `n` tasks that run `body`, from behind the fork. -/
def system (w n : ℕ) (body : List Stmt) : LTS (State w n) (Action n) where
  init := ⟨.awaitTasks, fun _ => ⟨.braid, [], body, .queued, 0⟩, 0, []⟩
  step := Step

end Braid

end TmcExamples
