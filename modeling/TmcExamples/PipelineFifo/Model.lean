import Mathlib.Logic.Function.Basic
import TmcExamples.Queue.LogQueue
import TmcExamples.Task.Fork
import TmcExamples.Transition.System

/-!
# The FIFO pipeline of `pipeline_fifo.hpp`

A pipeline has `stages` processing stages, numbered from `0`, and an end stage. Queue `0` is
the start stage's `input_queue`, and queue `k + 1` is the `output_queue` of stage `k`; the
worker of stage `k` pulls from queue `k`, and the end stage pulls from queue `stages`. The
values in queue `k` have the type `Val k`, so every stage has its own input and output type.

Every coroutine of the program is a party with an explicit program point:

* `Main`: the driver, which constructs the stages, pushes the inputs, closes the input queue
  and joins the `fork_group`;
* `Worker`: `pipeline_stage::worker` of each stage;
* `Consumer`: `pipeline_end_stage::inline_worker` or `pipeline_end_stage::worker`;
* the forked tasks, which live in the queue elements that hold their handles.

A step of a party is what it does between two points where it may suspend. Reads and writes
of a coroutine's own local variables belong to the queue operation before them.

The library's part is taken as documented: `qu_spsc_bounded(n)` is a FIFO of at most `n` live
slots, a slot stays live until the scope returned by its `pull()` is destroyed, `push()`
constructs the element (and so forks the task) only once it has a free slot, `pull()` returns
an empty scope only when the queue is closed and drained, and awaiting the handle of a fork
waits for that task and yields its result.
-/

namespace TmcExamples

namespace PipelineFifo

/-! ### Queue elements -/

/-- The elements of queue `k`: the input queue holds values, every output queue holds the
handles of the tasks its stage has forked. A value counts how many times it has been moved
out of its slot, as a handle counts how many times it has been awaited. -/
inductive Element (Val : ℕ → Type) : ℕ → Type
  | value (v : Val 0) (moved : ℕ) : Element Val 0
  | fork {k : ℕ} (task : Fork (Val k) (Val (k + 1))) : Element Val (k + 1)

namespace Element

variable {Val : ℕ → Type}

/-- The data a worker gets from a pulled element: a value is read, a handle is awaited. -/
def ready? : {k : ℕ} → Element Val k → Option (Val k)
  | _, .value v _ => some v
  | _, .fork t => t.ready?

/-- The element after a worker has got its data. -/
def take : {k : ℕ} → Element Val k → Element Val k
  | _, .value v m => .value v (m + 1)
  | _, .fork t => .fork t.await

/-- How many times the data of the element has been taken. -/
def taken : {k : ℕ} → Element Val k → ℕ
  | _, .value _ m => m
  | _, .fork t => t.awaited

end Element

/-! ### The parties -/

/-- The program points of the driver in `main`. -/
inductive Main
  | construct (k : ℕ)
  | push (i : ℕ)
  | close
  | join
  | finished
  deriving DecidableEq, Repr

/-- The program points of `pipeline_stage::worker`. At `take`, `push` and `release` it holds
the scope of the element it has pulled. -/
inductive Worker (α : Type)
  | unstarted
  | pull
  | take
  | push (data : α)
  | release
  | close
  | done
  deriving DecidableEq, Repr

/-- The program points of the end stage. `call` and `calling` belong to `inline_worker`;
`push` and the `drain` points belong to `worker`, where the argument of the latter tells the
final drain from the one inside the loop. -/
inductive Consumer (α : Type)
  | unstarted
  | pull
  | take
  | call (data : α)
  | calling (suspensions : ℕ)
  | push (data : α)
  | drainTest
  | drainPull (final : Bool)
  | drainAwait (final : Bool)
  | drainRelease (final : Bool)
  | release
  | done
  deriving DecidableEq, Repr

/-- The two bodies of the end stage. -/
inductive EndStage
  | inlineWorker
  | worker (parallelism : ℕ) (pos : 0 < parallelism)
  deriving DecidableEq

/-- The choice made by the constructor of `pipeline_end_stage`. -/
def pipelineEndStage (parallelism : ℕ) (pos : 0 < parallelism) : EndStage :=
  if parallelism = 1 then .inlineWorker else .worker parallelism pos

/-- A pipeline: its stages, its end stage and the inputs the driver pushes. -/
structure Pipeline where
  Val : ℕ → Type
  stages : ℕ
  func : (k : ℕ) → ProcessFunc (Val k) (Val (k + 1))
  parallelism : ℕ → ℕ
  parallelism_pos : ∀ k, 0 < parallelism k
  endStage : EndStage
  consumeKind : FuncKind
  inputs : List (Val 0)

namespace Pipeline

variable (pl : Pipeline)

/-- The number of slots of each queue: both queues of the start stage and the output queue
of every later stage are sized to the parallelism of their stage. -/
def capacity (k : ℕ) : ℕ := pl.parallelism (k - 1)

/-- The values the consume function takes. -/
abbrev Out : Type := pl.Val pl.stages

/-- The consume function as a process function; its result is ignored. -/
def consume : ProcessFunc pl.Out Unit := ⟨pl.consumeKind, fun _ => ()⟩

/-- The process functions of the first `k` stages, one after the other. -/
abbrev compose (k : ℕ) : pl.Val 0 → pl.Val k := ProcessFunc.compose pl.func k

theorem capacity_pos (k : ℕ) : 0 < pl.capacity k := pl.parallelism_pos _

end Pipeline

/-- The state of the whole program. `internalQueue` and `active` are the local variables of
`pipeline_end_stage::worker`, and `consumed` lists the values that the consume function has
been called with, in the order of the calls. -/
structure State (pl : Pipeline) where
  main : Main
  queue : (k : ℕ) → LogQueue (Element pl.Val k)
  worker : (k : ℕ) → Worker (pl.Val k)
  consumer : Consumer pl.Out
  internalQueue : LogQueue (Fork pl.Out Unit)
  active : ℕ
  consumed : List pl.Out

/-- One action for each step of each party. -/
inductive Action
  | construct
  | constructEnd
  | driverPush
  | driverLoopExit
  | driverClose
  | driverJoin
  | pull (k : ℕ)
  | pullEmpty (k : ℕ)
  | take (k : ℕ)
  | push (k : ℕ)
  | release (k : ℕ)
  | close (k : ℕ)
  | task (k i : ℕ) (e : TaskEvent)
  | endPull
  | endPullEmpty
  | endTake
  | endCall (suspensions : ℕ)
  | endResume
  | endReturn
  | endPush
  | endDrainTest
  | endDrainPull
  | endDrainAwait
  | endDrainRelease
  | endRelease
  | consumeTask (i : ℕ) (e : TaskEvent)
  deriving DecidableEq, Repr

section Step

variable {pl : Pipeline}

namespace State

variable (s : State pl)

/-- Replace queue `k`. -/
def setQueue (k : ℕ) (q : LogQueue (Element pl.Val k)) : State pl :=
  { s with queue := Function.update s.queue k q }

/-- Move the worker of stage `k`. -/
def setWorker (k : ℕ) (w : Worker (pl.Val k)) : State pl :=
  { s with worker := Function.update s.worker k w }

/-- The `fork_group` has completed: every coroutine forked into it has returned. -/
def ForkGroupDone : Prop := (∀ k < pl.stages, s.worker k = .done) ∧ s.consumer = .done

end State

/-- Before `main` starts: no stage constructed, every queue empty. -/
def initial (pl : Pipeline) : State pl where
  main := .construct 0
  queue := fun _ => .empty
  worker := fun _ => .unstarted
  consumer := .unstarted
  internalQueue := .empty
  active := 0
  consumed := []

/-- Where `inline_worker` and `worker` go with the data of an element. -/
def EndStage.onData {α : Type} : EndStage → α → Consumer α
  | .inlineWorker, v => .call v
  | .worker _ _, v => .push v

/-- Where `inline_worker` and `worker` go when their input is closed and drained. -/
def EndStage.onClosed {α : Type} : EndStage → Consumer α
  | .inlineWorker => .done
  | .worker _ _ => .drainTest

/-- The steps of the program. -/
inductive Step : State pl → Action → State pl → Prop
  /- `main`. The constructor of stage `k` forks its worker into the `fork_group`. -/
  | construct {s : State pl} {k : ℕ} : s.main = .construct k → k < pl.stages →
      Step s .construct { s.setWorker k .pull with main := .construct (k + 1) }
  | constructEnd {s : State pl} : s.main = .construct pl.stages →
      Step s .constructEnd { s with main := .push 0, consumer := .pull }
  | driverPush {s : State pl} {i : ℕ} {v : pl.Val 0} : s.main = .push i →
      pl.inputs[i]? = some v → (s.queue 0).HasRoom (pl.capacity 0) →
      Step s .driverPush
        { s.setQueue 0 ((s.queue 0).push (.value v 0)) with main := .push (i + 1) }
  | driverLoopExit {s : State pl} {i : ℕ} : s.main = .push i → pl.inputs[i]? = none →
      Step s .driverLoopExit { s with main := .close }
  | driverClose {s : State pl} : s.main = .close →
      Step s .driverClose { s.setQueue 0 (s.queue 0).close with main := .join }
  | driverJoin {s : State pl} : s.main = .join → s.ForkGroupDone →
      Step s .driverJoin { s with main := .finished }
  /- `pipeline_stage::worker` of stage `k`. -/
  | pull {s : State pl} {k : ℕ} {e : Element pl.Val k} : k < pl.stages → s.worker k = .pull →
      (s.queue k).front? = some e → Step s (.pull k) (s.setWorker k .take)
  | pullEmpty {s : State pl} {k : ℕ} : k < pl.stages → s.worker k = .pull →
      (s.queue k).front? = none → (s.queue k).closed = true →
      Step s (.pullEmpty k) (s.setWorker k .close)
  | take {s : State pl} {k : ℕ} {e : Element pl.Val k} {v : pl.Val k} : k < pl.stages →
      s.worker k = .take → (s.queue k).front? = some e → e.ready? = some v →
      Step s (.take k)
        ((s.setQueue k ((s.queue k).modify (s.queue k).head Element.take)).setWorker k (.push v))
  | push {s : State pl} {k : ℕ} {v : pl.Val k} : k < pl.stages → s.worker k = .push v →
      (s.queue (k + 1)).HasRoom (pl.capacity (k + 1)) →
      Step s (.push k)
        ((s.setQueue (k + 1) ((s.queue (k + 1)).push (.fork (.spawn v)))).setWorker k
          .release)
  | release {s : State pl} {k : ℕ} : k < pl.stages → s.worker k = .release →
      Step s (.release k) ((s.setQueue k (s.queue k).pop).setWorker k .pull)
  | close {s : State pl} {k : ℕ} : k < pl.stages → s.worker k = .close →
      Step s (.close k) ((s.setQueue (k + 1) (s.queue (k + 1)).close).setWorker k .done)
  /- The tasks forked by stage `k`. -/
  | task {s : State pl} {k i : ℕ} {e : TaskEvent} {t t' : Fork (pl.Val k) (pl.Val (k + 1))} :
      k < pl.stages → (s.queue (k + 1)).log[i]? = some (.fork t) → (pl.func k).Advance e t t' →
      Step s (.task k i e)
        (s.setQueue (k + 1) ((s.queue (k + 1)).modify i fun _ => .fork t'))
  /- The loop of the end stage. -/
  | endPull {s : State pl} {e : Element pl.Val pl.stages} : s.consumer = .pull →
      (s.queue pl.stages).front? = some e → Step s .endPull { s with consumer := .take }
  | endPullEmpty {s : State pl} : s.consumer = .pull → (s.queue pl.stages).front? = none →
      (s.queue pl.stages).closed = true →
      Step s .endPullEmpty { s with consumer := pl.endStage.onClosed }
  | endTake {s : State pl} {e : Element pl.Val pl.stages} {v : pl.Out} : s.consumer = .take →
      (s.queue pl.stages).front? = some e → e.ready? = some v →
      Step s .endTake
        { s.setQueue pl.stages
            ((s.queue pl.stages).modify (s.queue pl.stages).head Element.take) with
          consumer := pl.endStage.onData v }
  | endRelease {s : State pl} : s.consumer = .release →
      Step s .endRelease
        { s.setQueue pl.stages (s.queue pl.stages).pop with consumer := .pull }
  /- `inline_worker`: the call of the consume function, awaited when it is a coroutine. -/
  | endCall {s : State pl} {v : pl.Out} {n : ℕ} : s.consumer = .call v →
      pl.consumeKind.MaySuspend n →
      Step s (.endCall n) { s with consumer := .calling n, consumed := s.consumed ++ [v] }
  | endResume {s : State pl} {n : ℕ} : s.consumer = .calling (n + 1) →
      Step s .endResume { s with consumer := .calling n }
  | endReturn {s : State pl} : s.consumer = .calling 0 →
      Step s .endReturn { s with consumer := .release }
  /- `worker`: the push of the forked consume task, `++active` and the test that follows. -/
  | endPush {s : State pl} {v : pl.Out} {p : ℕ} {hp : 0 < p} : s.consumer = .push v →
      pl.endStage = .worker p hp → s.internalQueue.HasRoom p →
      Step s .endPush
        { s with
          internalQueue := s.internalQueue.push (.spawn v)
          active := s.active + 1
          consumer := if p ≤ s.active + 1 then .drainPull false else .release }
  | endDrainTest {s : State pl} : s.consumer = .drainTest →
      Step s .endDrainTest
        { s with consumer := if 0 < s.active then .drainPull true else .done }
  | endDrainPull {s : State pl} {b : Bool} {t : Fork pl.Out Unit} : s.consumer = .drainPull b →
      s.internalQueue.front? = some t →
      Step s .endDrainPull { s with consumer := .drainAwait b }
  | endDrainAwait {s : State pl} {b : Bool} {t : Fork pl.Out Unit} :
      s.consumer = .drainAwait b → s.internalQueue.front? = some t → t.ready? = some () →
      Step s .endDrainAwait
        { s with
          internalQueue := s.internalQueue.modify s.internalQueue.head Fork.await
          active := s.active - 1
          consumer := .drainRelease b }
  | endDrainRelease {s : State pl} {b : Bool} : s.consumer = .drainRelease b →
      Step s .endDrainRelease
        { s with
          internalQueue := s.internalQueue.pop
          consumer := if b then .drainTest else .release }
  /- The forked consume tasks: the call of the consume function is their start. -/
  | consumeTask {s : State pl} {i : ℕ} {e : TaskEvent} {t t' : Fork pl.Out Unit} :
      s.internalQueue.log[i]? = some t → pl.consume.Advance e t t' →
      Step s (.consumeTask i e)
        { s with
          internalQueue := s.internalQueue.modify i fun _ => t'
          consumed := s.consumed ++ if e.isStart then [t.arg] else [] }

/-- The program as a transition system. -/
def system (pl : Pipeline) : LTS (State pl) Action := ⟨initial pl, Step⟩

end Step

end PipelineFifo

end TmcExamples
