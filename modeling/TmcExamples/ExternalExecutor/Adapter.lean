import TmcExamples.ExternalExecutor.Model
import TmcExamples.Transition.Refinement

/-!
# The adapter of `external_executor.cpp`

`tmc_external_executor` owns a pool and one worker thread, which is in `run()`. Work is given to it
by `post`, `post_bulk` and `dispatch`, from any thread and from the work items themselves. Each
item is wrapped in a functor that installs its priority into the thread-local of the worker and
then runs it. A running item may leave any value in the thread-local.

The steps of the pool are those of its own model with one call of `run()`; here are added what the
worker does while it executes a functor (`Phase`), the calls of the adapter that are in progress,
and the destructor. Agent `0` is the work item that runs on the worker; the other agents are other
threads. A work item carries the number of its call and its place in the call, which the code does
not have, to tell calls apart. `started` lists the items that have been started, with the priority
that they found in the thread-local, and `inlined` the handles that a caller has resumed itself.
-/

namespace TmcExamples

namespace ExternalExecutor

namespace Adapter

/-- A functor in the queue of the pool, which captures the priority and the work item. -/
structure Work (α : Type) where
  item : α
  prio : ℕ
  call : ℕ
  index : ℕ
  deriving DecidableEq, Repr

/-- The calls of the adapter. -/
inductive Request (α : Type)
  | post (item : α) (prio : ℕ)
  | postBulk (it : ℕ → α) (count prio : ℕ)
  | dispatch (outer : α) (prio : ℕ)

namespace Request

variable {α : Type}

/-- The items that the call posts, one after the other. -/
def items : Request α → List α
  | .post item _ => [item]
  | .postBulk it count _ => (List.range count).map it
  | .dispatch outer _ => [outer]

/-- The priority that the call posts them with. -/
def prio : Request α → ℕ
  | .post _ prio | .postBulk _ _ prio | .dispatch _ prio => prio

/-- The coroutine that the caller goes on with: that of `dispatch` is `std::noop_coroutine()`. -/
def resumed : Request α → Option α
  | .post _ _ | .postBulk _ _ _ | .dispatch _ _ => none

/-- The functors of call number `n`. -/
def works (r : Request α) (n : ℕ) : List (Work α) :=
  r.items.zipIdx.map fun (item, i) => ⟨item, r.prio, n, i⟩

end Request

/-- A call in progress: its number, how many items it has posted, and whether the notification
of the last one is still to come. -/
structure Call (α : Type) where
  number : ℕ
  request : Request α
  index : ℕ
  notifying : Bool

/-- The functor that the call posts next. -/
def Call.next? {α : Type} (c : Call α) : Option (Work α) := (c.request.works c.number)[c.index]?

/-- The worker, while the pool executes a functor: before it installs the priority, before it calls
the item, and in the item. -/
inductive Phase
  | idle
  | install
  | start
  | running
  deriving DecidableEq, Repr

/-- The destructor of the adapter. -/
inductive Destructor
  | notCalled
  | notify
  | join
  | returned
  deriving DecidableEq, Repr

/-- The state of the adapter. -/
structure State (α : Type) where
  pool : ExternalExecutor.State (Work α)
  phase : Phase
  prio : ℕ
  call : ℕ → Option (Call α)
  requests : List (Request α)
  destructor : Destructor
  started : List (Item (Work α) × ℕ)
  inlined : List α

/-- The steps of the worker in `run()`, of the functor that it executes, of the agents in the
calls of the adapter, and of the destructor. -/
inductive Action (α : Type)
  | worker (a : ExternalExecutor.Action (Work α))
  | install
  | start
  | setPrio (prio : ℕ)
  | finish
  | call (agent : ℕ) (request : Request α)
  | post (agent : ℕ) (work : Work α)
  | notify (agent : ℕ) (woken : Option ℕ)
  | ret (agent : ℕ)
  | requestStop
  | notifyAll
  | join

variable {α : Type}

/-- The steps of `run()` outside of the functor, other than taking it from the queue. -/
def IsRun : ExternalExecutor.Action (Work α) → Prop
  | .enter _ | .lock _ | .wait _ | .pass _ | .spurious _ | .reacquire _ | .relock _ | .drained _
  | .again _ | .ret _ => True
  | _ => False

/-- `pool.post()` as called by an agent. -/
def postAction : ℕ → Work α → ExternalExecutor.Action (Work α)
  | 0, w => .itemPost 0 w
  | _ + 1, w => .post w

/-- `notify_one` at the end of `pool.post()`. -/
def notifyAction : ℕ → Option ℕ → ExternalExecutor.Action (Work α)
  | 0, u => .itemNotifyOne 0 u
  | _ + 1, u => .notifyOne u

/-- The step of the pool in a step of the adapter. -/
def Action.pool? : Action α → Option (ExternalExecutor.Action (Work α))
  | .worker a => some a
  | .finish => some (.finish 0)
  | .post agent w => some (postAction agent w)
  | .notify agent u => some (notifyAction agent u)
  | .requestStop => some .requestStop
  | .notifyAll => some .notifyAll
  | .install | .start | .setPrio _ | .call _ _ | .ret _ | .join => none

/-- Set the call that an agent is in. -/
def State.setCall (s : State α) (agent : ℕ) (c : Option (Call α)) : State α :=
  { s with call := Function.update s.call agent c }

/-- Before the constructor has started the worker. -/
def initial (α : Type) : State α where
  pool := ExternalExecutor.initial (Work α)
  phase := .idle
  prio := 0
  call := fun _ => none
  requests := []
  destructor := .notCalled
  started := []
  inlined := []

/-- The steps of the adapter. -/
inductive Step : State α → Action α → State α → Prop
  /- The worker thread in `pool.run()` -/
  | worker {s : State α} {a : ExternalExecutor.Action (Work α)}
      {p : ExternalExecutor.State (Work α)} :
      IsRun a → ExternalExecutor.Step 1 s.pool a p → Step s (.worker a) { s with pool := p }
  | pop {s : State α} {p : ExternalExecutor.State (Work α)} :
      ExternalExecutor.Step 1 s.pool (.pop 0) p →
      Step s (.worker (.pop 0)) { s with pool := p, phase := .install }
  /- The functor: the priority is installed, and the item is called. -/
  | install {s : State α} {x : Item (Work α)} : s.phase = .install →
      s.pool.thread 0 = .working x →
      Step s .install { s with prio := x.1.prio, phase := .start }
  | start {s : State α} {x : Item (Work α)} : s.phase = .start → s.pool.thread 0 = .working x →
      Step s .start { s with started := s.started ++ [(x, s.prio)], phase := .running }
  | setPrio {s : State α} {prio : ℕ} : s.phase = .running →
      Step s (.setPrio prio) { s with prio := prio }
  | finish {s : State α} {p : ExternalExecutor.State (Work α)} : s.phase = .running →
      s.call 0 = none → ExternalExecutor.Step 1 s.pool (.finish 0) p →
      Step s .finish { s with pool := p, phase := .idle }
  /- The calls of the adapter: an agent is in at most one call, and the item is one of them while
  it runs. -/
  | call {s : State α} {agent : ℕ} {r : Request α} : s.call agent = none →
      (agent = 0 → s.phase = .running) → s.destructor ≠ .returned →
      Step s (.call agent r)
        { s.setCall agent (some ⟨s.requests.length, r, 0, false⟩) with
          requests := s.requests ++ [r] }
  | post {s : State α} {agent : ℕ} {c : Call α} {w : Work α}
      {p : ExternalExecutor.State (Work α)} : s.call agent = some c → c.notifying = false →
      c.next? = some w → ExternalExecutor.Step 1 s.pool (postAction agent w) p →
      Step s (.post agent w)
        { s.setCall agent (some { c with index := c.index + 1, notifying := true }) with pool := p }
  | notify {s : State α} {agent : ℕ} {c : Call α} {u : Option ℕ}
      {p : ExternalExecutor.State (Work α)} : s.call agent = some c → c.notifying = true →
      ExternalExecutor.Step 1 s.pool (notifyAction agent u) p →
      Step s (.notify agent u)
        { s.setCall agent (some { c with notifying := false }) with pool := p }
  | ret {s : State α} {agent : ℕ} {c : Call α} : s.call agent = some c → c.notifying = false →
      c.next? = none →
      Step s (.ret agent)
        { s.setCall agent none with inlined := s.inlined ++ c.request.resumed.toList }
  /- The destructor: `request_stop()` and the join of the worker -/
  | requestStop {s : State α} {p : ExternalExecutor.State (Work α)} :
      s.destructor = .notCalled → ExternalExecutor.Step 1 s.pool .requestStop p →
      Step s .requestStop { s with pool := p, destructor := .notify }
  | notifyAll {s : State α} {p : ExternalExecutor.State (Work α)} : s.destructor = .notify →
      ExternalExecutor.Step 1 s.pool .notifyAll p →
      Step s .notifyAll { s with pool := p, destructor := .join }
  | join {s : State α} : s.destructor = .join → s.pool.thread 0 = .returned →
      Step s .join { s with destructor := .returned }

/-- The adapter as a transition system. -/
def system (α : Type) : LTS (State α) (Action α) := ⟨initial α, Step⟩

/-- The adapter is built over the pool. -/
def pool (α : Type) : (system α).Refinement (ExternalExecutor.system (Work α) 1) where
  state := State.pool
  action := Action.pool?
  init := rfl
  hidden hs ha := by
    cases hs with
    | install | start | setPrio | call | ret | join => rfl
    | _ => nomatch ha
  visible hs ha := by
    cases hs with
    | install | start | setPrio | call | ret | join => nomatch ha
    | worker _ hp | pop hp | finish _ _ hp | post _ _ _ hp | notify _ _ hp | requestStop _ hp
    | notifyAll _ hp =>
      obtain rfl := Option.some.inj ha
      exact hp

end Adapter

end ExternalExecutor

end TmcExamples
