import Mathlib.Data.List.Nodup
import Mathlib.Logic.Function.Basic
import TmcExamples.Transition.System

/-!
# The thread pool of `external_executor.hpp`

`threads` many calls of `run()` share one queue under a mutex and a condition variable. The
program points of a call follow the statements of `run()` (`Thread`); the mutex is held from
`test`, `drain` and `stopCheck` on, and `owner` says by which call. Any number of other
threads call `post()` and `request_stop()`, and so may the work items while they run.

The critical section of `post()` and of `request_stop()` is one step, since nothing else
happens while the mutex is held; the notification is a later step, outside of it. The calls of
other threads that are between the two are counted in `notifyOnes` and `notifyAlls`.
`notify_one` wakes some waiting call, if there is one, and a waiting call may also wake up
spuriously.

Every item gets a serial number at its `post()`, so that two items with the same work are
told apart. `dequeued` and `executed` are histories.
-/

namespace TmcExamples

namespace ExternalExecutor

/-- A work item with the number of its `post()`. -/
abbrev Item (α : Type) : Type := α × ℕ

/-- The program points of a call of `run()`. From `working` to `notifyAll` the call executes a
work item, without the mutex; in `notifyOne` and `notifyAll` the item is inside `post()` or
`request_stop()`, after the critical section. -/
inductive Thread (α : Type)
  | outside
  | lock
  | test
  | waiting
  | woken
  | drain
  | working (item : Item α)
  | notifyOne (item : Item α)
  | notifyAll (item : Item α)
  | relock
  | stopCheck
  | returned
  deriving DecidableEq, Repr

namespace Thread

variable {α : Type}

/-- The call holds the mutex. -/
def Locked : Thread α → Prop
  | .test | .drain | .stopCheck => True
  | _ => False

/-- The call is inside `run()`. -/
def InRun : Thread α → Prop
  | .outside | .returned => False
  | _ => True

/-- A waiting call that is notified. -/
def wake : Thread α → Thread α
  | .waiting => .woken
  | t => t

end Thread

/-- The state of the pool, of the calls of `run()` and of the pending notifications. -/
structure State (α : Type) where
  thread : ℕ → Thread α
  owner : Option ℕ
  queue : List (Item α)
  stopRequested : Bool
  notifyOnes : ℕ
  notifyAlls : ℕ
  serial : ℕ
  dequeued : List (Item α)
  executed : List (Item α)

/-- The steps of call `t` of `run()`, of the item that it executes, and of other threads. -/
inductive Action (α : Type)
  | enter (t : ℕ)
  | lock (t : ℕ)
  | wait (t : ℕ)
  | pass (t : ℕ)
  | spurious (t : ℕ)
  | reacquire (t : ℕ)
  | pop (t : ℕ)
  | finish (t : ℕ)
  | relock (t : ℕ)
  | drained (t : ℕ)
  | again (t : ℕ)
  | ret (t : ℕ)
  | itemPost (t : ℕ) (work : α)
  | itemNotifyOne (t : ℕ) (woken : Option ℕ)
  | itemRequestStop (t : ℕ)
  | itemNotifyAll (t : ℕ)
  | post (work : α)
  | notifyOne (woken : Option ℕ)
  | requestStop
  | notifyAll
  deriving DecidableEq, Repr

namespace Action

variable {α : Type}

/-- The work posted by the action. -/
def posted? : Action α → Option α
  | .itemPost _ v | .post v => some v
  | _ => none

/-- The action is the critical section of a `request_stop()`. -/
def IsStop : Action α → Prop
  | .itemRequestStop _ | .requestStop => True
  | _ => False

/-- The action is the `post()` of a work item. -/
def IsItemPost : Action α → Prop
  | .itemPost _ _ => True
  | _ => False

end Action

variable {α : Type}

namespace State

variable (s : State α)

/-- Move call `t` of `run()`. -/
def setThread (t : ℕ) (x : Thread α) : State α :=
  { s with thread := Function.update s.thread t x }

/-- The critical section of `post(Work)`. -/
def enqueue (work : α) : State α :=
  { s with queue := s.queue ++ [(work, s.serial)], serial := s.serial + 1 }

/-- `notify_one` wakes the chosen call. -/
def wakeOne : Option ℕ → State α
  | some u => s.setThread u .woken
  | none => s

/-- `notify_all` wakes every waiting call. -/
def wakeAll : State α := { s with thread := fun t => (s.thread t).wake }

/-- The choice of `notify_one` among `threads` calls: a waiting one, or none when no call is
waiting. -/
def MayWake (threads : ℕ) : Option ℕ → Prop
  | some u => u < threads ∧ s.thread u = .waiting
  | none => ∀ u < threads, s.thread u ≠ .waiting

end State

/-- Before any call of `run()`. -/
def initial (α : Type) : State α where
  thread := fun _ => .outside
  owner := none
  queue := []
  stopRequested := false
  notifyOnes := 0
  notifyAlls := 0
  serial := 0
  dequeued := []
  executed := []

/-- The steps of the pool with `threads` calls of `run()`. -/
inductive Step (threads : ℕ) : State α → Action α → State α → Prop
  | enter {s : State α} {t : ℕ} : t < threads → s.thread t = .outside →
      Step threads s (.enter t) (s.setThread t .lock)
  /- `unique_lock`, and `work_available.wait` with its predicate -/
  | lock {s : State α} {t : ℕ} : t < threads → s.thread t = .lock → s.owner = none →
      Step threads s (.lock t) { s.setThread t .test with owner := some t }
  | wait {s : State α} {t : ℕ} : t < threads → s.thread t = .test → s.stopRequested = false →
      s.queue = [] → Step threads s (.wait t) { s.setThread t .waiting with owner := none }
  | pass {s : State α} {t : ℕ} : t < threads → s.thread t = .test →
      s.stopRequested = true ∨ s.queue ≠ [] → Step threads s (.pass t) (s.setThread t .drain)
  | spurious {s : State α} {t : ℕ} : t < threads → s.thread t = .waiting →
      Step threads s (.spurious t) (s.setThread t .woken)
  | reacquire {s : State α} {t : ℕ} : t < threads → s.thread t = .woken → s.owner = none →
      Step threads s (.reacquire t) { s.setThread t .test with owner := some t }
  /- `while (!queue.empty())` -/
  | pop {s : State α} {t : ℕ} {x : Item α} {rest : List (Item α)} : t < threads →
      s.thread t = .drain → s.queue = x :: rest →
      Step threads s (.pop t)
        { s.setThread t (.working x) with
          owner := none
          queue := rest
          dequeued := s.dequeued ++ [x] }
  | finish {s : State α} {t : ℕ} {x : Item α} : t < threads → s.thread t = .working x →
      Step threads s (.finish t) { s.setThread t .relock with executed := s.executed ++ [x] }
  | relock {s : State α} {t : ℕ} : t < threads → s.thread t = .relock → s.owner = none →
      Step threads s (.relock t) { s.setThread t .drain with owner := some t }
  | drained {s : State α} {t : ℕ} : t < threads → s.thread t = .drain → s.queue = [] →
      Step threads s (.drained t) (s.setThread t .stopCheck)
  /- `if (stop_requested)` -/
  | again {s : State α} {t : ℕ} : t < threads → s.thread t = .stopCheck →
      s.stopRequested = false → Step threads s (.again t) (s.setThread t .test)
  | ret {s : State α} {t : ℕ} : t < threads → s.thread t = .stopCheck →
      s.stopRequested = true →
      Step threads s (.ret t) { s.setThread t .returned with owner := none }
  /- `post()` and `request_stop()` called by a work item -/
  | itemPost {s : State α} {t : ℕ} {x : Item α} {v : α} : t < threads →
      s.thread t = .working x → s.owner = none →
      Step threads s (.itemPost t v) ((s.enqueue v).setThread t (.notifyOne x))
  | itemNotifyOne {s : State α} {t : ℕ} {x : Item α} {u : Option ℕ} : t < threads →
      s.thread t = .notifyOne x → s.MayWake threads u →
      Step threads s (.itemNotifyOne t u) ((s.wakeOne u).setThread t (.working x))
  | itemRequestStop {s : State α} {t : ℕ} {x : Item α} : t < threads →
      s.thread t = .working x → s.owner = none →
      Step threads s (.itemRequestStop t)
        { s.setThread t (.notifyAll x) with stopRequested := true }
  | itemNotifyAll {s : State α} {t : ℕ} {x : Item α} : t < threads →
      s.thread t = .notifyAll x →
      Step threads s (.itemNotifyAll t) (s.wakeAll.setThread t (.working x))
  /- `post()` and `request_stop()` called by other threads -/
  | post {s : State α} {v : α} : s.owner = none →
      Step threads s (.post v) { s.enqueue v with notifyOnes := s.notifyOnes + 1 }
  | notifyOne {s : State α} {u : Option ℕ} : 0 < s.notifyOnes → s.MayWake threads u →
      Step threads s (.notifyOne u) { s.wakeOne u with notifyOnes := s.notifyOnes - 1 }
  | requestStop {s : State α} : s.owner = none →
      Step threads s .requestStop
        { s with stopRequested := true, notifyAlls := s.notifyAlls + 1 }
  | notifyAll {s : State α} : 0 < s.notifyAlls →
      Step threads s .notifyAll { s.wakeAll with notifyAlls := s.notifyAlls - 1 }

/-- The pool with `threads` calls of `run()` as a transition system. -/
def system (α : Type) (threads : ℕ) : LTS (State α) (Action α) := ⟨initial α, Step threads⟩

end ExternalExecutor

end TmcExamples
