import Mathlib.Logic.Function.Basic
import TmcExamples.Queue.LogQueue
import TmcExamples.Task.Fork
import TmcExamples.Transition.System

/-!
# The channel pipeline of `pipeline.hpp`

A pipeline has `stages` processing stages, numbered from `0`, and an end stage with number
`stages`. Channel `0` is the driver's `in`, and channel `k + 1` is `outChan_` of stage `k`;
semaphore `0` is the driver's `inputSem`, and semaphore `k + 1` is `outSem_` of stage `k`. So
stage `k` has `inChan` and `inSem` with index `k`, and `outChan` and `outSem` with index
`k + 1`.

Every coroutine of the program is a party with an explicit program point:

* `Main`: the driver, which constructs the stages, posts the inputs, drains `in` and joins
  the `fork_group`;
* `Worker`: `pipeline_stage::worker`, `workerCount k` times for each stage, and
  `pipeline_end_stage::worker`, `workerCount stages` times;
* `Closer`: the task that each `pipeline_stage` forks to await its `spawn_group` and drain
  its output channel.

The library's part is taken as documented: a channel is a linearizable unbounded queue whose
`pull()` returns empty only when it is closed and drained, whose `post()` is refused when it
is closed, and whose `drain()` closes it and waits until it is empty; a semaphore counts its
permits; the workers of a `spawn_group` are started when it is awaited or forked, and awaiting
it waits for all of them.
-/

namespace TmcExamples

namespace PipelineChannel

/-! ### The parties -/

/-- The program points of the driver in `main`: for each stage the constructor grants the
permits of its input semaphore and then forks into the `fork_group`; for each input the
driver acquires `inputSem` and then posts. -/
inductive Main
  | grant (k : ℕ)
  | fork (k : ℕ)
  | acquire (i : ℕ)
  | post (i : ℕ)
  | drain
  | drainWait
  | join
  | finished
  deriving DecidableEq, Repr

/-- The program points of `pipeline_stage::worker` and of `pipeline_end_stage::worker`; the
latter has neither `acquire` nor `post`. From `release` to `running` the worker holds an
element that it has pulled, and from `call` to `post` it holds a permit of `outSem`. -/
inductive Worker (α β : Type)
  | unstarted
  | pull
  | release (input : α)
  | acquire (input : α)
  | call (input : α)
  | running (input : α) (suspensions : ℕ)
  | post (output : β)
  | exited
  deriving DecidableEq, Repr

/-- The program points of the task that closes the output channel of a stage. -/
inductive Closer
  | unstarted
  | spawn
  | join
  | drain
  | drainWait
  | done
  deriving DecidableEq, Repr

/-- A pipeline: its stages, its end stage and the inputs the driver posts. -/
structure Pipeline where
  Val : ℕ → Type
  stages : ℕ
  func : (k : ℕ) → ProcessFunc (Val k) (Val (k + 1))
  workerCount : ℕ → ℕ
  workerCount_pos : ∀ k, 0 < workerCount k
  consumeKind : FuncKind
  inputs : List (Val 0)

namespace Pipeline

variable (pl : Pipeline)

/-- The values the consume function takes. -/
abbrev Out : Type := pl.Val pl.stages

/-- The process functions of the first `k` stages, one after the other. -/
abbrev compose (k : ℕ) : pl.Val 0 → pl.Val k := ProcessFunc.compose pl.func k

/-- Where a worker of stage `k` goes after `inSem->release()`: the end stage has no output
semaphore to wait for. -/
def afterRelease (k : ℕ) (v : pl.Val k) : Worker (pl.Val k) (pl.Val (k + 1)) :=
  if k < pl.stages then .acquire v else .call v

end Pipeline

/-- The state of the whole program. `consumed` lists the values that the consume function has
been called with, in the order of the calls. -/
structure State (pl : Pipeline) where
  main : Main
  chan : (k : ℕ) → LogQueue (pl.Val k)
  sem : ℕ → ℕ
  worker : (k : ℕ) → ℕ → Worker (pl.Val k) (pl.Val (k + 1))
  closer : ℕ → Closer
  consumed : List pl.Out

/-- One action for each step of each party. -/
inductive Action
  | grant
  | fork
  | forkEnd
  | driverAcquire
  | driverPost
  | driverLoopExit
  | driverDrain
  | driverDrainWait
  | driverJoin
  | spawn (k : ℕ)
  | join (k : ℕ)
  | drain (k : ℕ)
  | drainWait (k : ℕ)
  | pull (k w : ℕ)
  | pullEmpty (k w : ℕ)
  | release (k w : ℕ)
  | acquire (k w : ℕ)
  | call (k w suspensions : ℕ)
  | resume (k w : ℕ)
  | finish (k w : ℕ)
  | post (k w : ℕ)
  | endCall (w suspensions : ℕ)
  | endFinish (w : ℕ)
  deriving DecidableEq, Repr

section Step

variable {pl : Pipeline}

namespace State

variable (s : State pl)

/-- Replace channel `k`. -/
def setChan (k : ℕ) (q : LogQueue (pl.Val k)) : State pl :=
  { s with chan := Function.update s.chan k q }

/-- Set the count of semaphore `k`. -/
def setSem (k n : ℕ) : State pl := { s with sem := Function.update s.sem k n }

/-- Move worker `w` of stage `k`. -/
def setWorker (k w : ℕ) (x : Worker (pl.Val k) (pl.Val (k + 1))) : State pl :=
  { s with worker := Function.update s.worker k (Function.update (s.worker k) w x) }

/-- Start the `spawn_group` of stage `k`. -/
def startWorkers (k : ℕ) : State pl :=
  { s with worker := Function.update s.worker k fun _ => .pull }

/-- Move the closer of stage `k`. -/
def setCloser (k : ℕ) (c : Closer) : State pl :=
  { s with closer := Function.update s.closer k c }

/-- All workers of stage `k` have returned, so its `spawn_group` has completed. -/
def WorkersExited (k : ℕ) : Prop := ∀ w < pl.workerCount k, s.worker k w = .exited

/-- The `fork_group` has completed: the closer of every stage and the `spawn_group` of the end
stage were forked into it. -/
def ForkGroupDone : Prop := (∀ k < pl.stages, s.closer k = .done) ∧ s.WorkersExited pl.stages

end State

/-- Before `main` starts: no stage constructed, every channel empty, no permit granted. -/
def initial (pl : Pipeline) : State pl where
  main := .grant 0
  chan := fun _ => .empty
  sem := fun _ => 0
  worker := fun _ _ => .unstarted
  closer := fun _ => .unstarted
  consumed := []

/-- The steps of the program. -/
inductive Step : State pl → Action → State pl → Prop
  /- `main`. The constructor of stage `k` sets the capacity of its input channel, and forks. -/
  | grant {s : State pl} {k : ℕ} : s.main = .grant k →
      Step s .grant { s.setSem k (s.sem k + 2 * pl.workerCount k) with main := .fork k }
  | fork {s : State pl} {k : ℕ} : s.main = .fork k → k < pl.stages →
      Step s .fork { s.setCloser k .spawn with main := .grant (k + 1) }
  | forkEnd {s : State pl} : s.main = .fork pl.stages →
      Step s .forkEnd { s.startWorkers pl.stages with main := .acquire 0 }
  | driverAcquire {s : State pl} {i : ℕ} {v : pl.Val 0} : s.main = .acquire i →
      pl.inputs[i]? = some v → 0 < s.sem 0 →
      Step s .driverAcquire { s.setSem 0 (s.sem 0 - 1) with main := .post i }
  | driverPost {s : State pl} {i : ℕ} {v : pl.Val 0} : s.main = .post i →
      pl.inputs[i]? = some v →
      Step s .driverPost { s.setChan 0 ((s.chan 0).post v) with main := .acquire (i + 1) }
  | driverLoopExit {s : State pl} {i : ℕ} : s.main = .acquire i → pl.inputs[i]? = none →
      Step s .driverLoopExit { s with main := .drain }
  | driverDrain {s : State pl} : s.main = .drain →
      Step s .driverDrain { s.setChan 0 (s.chan 0).close with main := .drainWait }
  | driverDrainWait {s : State pl} : s.main = .drainWait → (s.chan 0).front? = none →
      Step s .driverDrainWait { s with main := .join }
  | driverJoin {s : State pl} : s.main = .join → s.ForkGroupDone →
      Step s .driverJoin { s with main := .finished }
  /- The task that `pipeline_stage` forks for stage `k`. -/
  | spawn {s : State pl} {k : ℕ} : k < pl.stages → s.closer k = .spawn →
      Step s (.spawn k) ((s.startWorkers k).setCloser k .join)
  | join {s : State pl} {k : ℕ} : k < pl.stages → s.closer k = .join → s.WorkersExited k →
      Step s (.join k) (s.setCloser k .drain)
  | drain {s : State pl} {k : ℕ} : k < pl.stages → s.closer k = .drain →
      Step s (.drain k) ((s.setChan (k + 1) (s.chan (k + 1)).close).setCloser k .drainWait)
  | drainWait {s : State pl} {k : ℕ} : k < pl.stages → s.closer k = .drainWait →
      (s.chan (k + 1)).front? = none → Step s (.drainWait k) (s.setCloser k .done)
  /- Worker `w` of stage `k`, up to the release of `inSem`; the end stage is `k = stages`. -/
  | pull {s : State pl} {k w : ℕ} {v : pl.Val k} : k ≤ pl.stages → w < pl.workerCount k →
      s.worker k w = .pull → (s.chan k).front? = some v →
      Step s (.pull k w) ((s.setChan k (s.chan k).pop).setWorker k w (.release v))
  | pullEmpty {s : State pl} {k w : ℕ} : k ≤ pl.stages → w < pl.workerCount k →
      s.worker k w = .pull → (s.chan k).front? = none → (s.chan k).closed = true →
      Step s (.pullEmpty k w) (s.setWorker k w .exited)
  | release {s : State pl} {k w : ℕ} {v : pl.Val k} : k ≤ pl.stages → w < pl.workerCount k →
      s.worker k w = .release v →
      Step s (.release k w) ((s.setSem k (s.sem k + 1)).setWorker k w (pl.afterRelease k v))
  | resume {s : State pl} {k w n : ℕ} {v : pl.Val k} : k ≤ pl.stages → w < pl.workerCount k →
      s.worker k w = .running v (n + 1) → Step s (.resume k w) (s.setWorker k w (.running v n))
  /- `pipeline_stage::worker`: the wait for a permit of `outSem`, the call of the process
  function and the post of its result, which is dropped when the channel refuses it. -/
  | acquire {s : State pl} {k w : ℕ} {v : pl.Val k} : k < pl.stages → w < pl.workerCount k →
      s.worker k w = .acquire v → 0 < s.sem (k + 1) →
      Step s (.acquire k w) ((s.setSem (k + 1) (s.sem (k + 1) - 1)).setWorker k w (.call v))
  | call {s : State pl} {k w n : ℕ} {v : pl.Val k} : k < pl.stages → w < pl.workerCount k →
      s.worker k w = .call v → (pl.func k).kind.MaySuspend n →
      Step s (.call k w n) (s.setWorker k w (.running v n))
  | finish {s : State pl} {k w : ℕ} {v : pl.Val k} : k < pl.stages → w < pl.workerCount k →
      s.worker k w = .running v 0 →
      Step s (.finish k w) (s.setWorker k w (.post ((pl.func k).result v)))
  | post {s : State pl} {k w : ℕ} {r : pl.Val (k + 1)} : k < pl.stages → w < pl.workerCount k →
      s.worker k w = .post r →
      Step s (.post k w) ((s.setChan (k + 1) ((s.chan (k + 1)).post r)).setWorker k w .pull)
  /- `pipeline_end_stage::worker`: the call of the consume function; its result is ignored. -/
  | endCall {s : State pl} {w n : ℕ} {v : pl.Out} : w < pl.workerCount pl.stages →
      s.worker pl.stages w = .call v → pl.consumeKind.MaySuspend n →
      Step s (.endCall w n)
        { s.setWorker pl.stages w (.running v n) with consumed := s.consumed ++ [v] }
  | endFinish {s : State pl} {w : ℕ} {v : pl.Out} : w < pl.workerCount pl.stages →
      s.worker pl.stages w = .running v 0 →
      Step s (.endFinish w) (s.setWorker pl.stages w .pull)

/-- The program as a transition system. -/
def system (pl : Pipeline) : LTS (State pl) Action := ⟨initial pl, Step⟩

end Step

end PipelineChannel

end TmcExamples
