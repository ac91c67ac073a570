import Mathlib.Data.BitVec
import TmcExamples.Queue.LogQueue
import TmcExamples.Transition.System

/-!
# The channel fuzzer of `test_fuzz_chan.cpp`

`run_one_test` makes a number of random actions, each of which forks a producer or a consumer of
one channel, and counts in `base` the numbers that it has given to the producers. It then
awaits the producers (if `wait_on_producers`), closes the channel, pulls what is left in it, drains
it, awaits the consumers and compares `full_sum`, to which every consumer and the main task
itself have added the numbers that they have pulled, with the sum of the numbers below `base`.

The random actions are the list `actions`; task `k` is the one that the `k`-th of them forks.
Numbers are of the type `size_t`, here the bit vectors of a width `w`. The channel is a linearizable
queue: a post is refused only by a closed channel, `pull()` waits while the channel is empty
and open, and `try_pull()` does not wait but tells whether it is closed. `post_bulk()` posts its
elements in order, and other tasks may take steps in between.
-/

namespace TmcExamples

namespace FuzzChan

variable {w : ℕ}

/-- An action of `do_action` with its random count. -/
inductive RandAction (w : ℕ)
  | producer (count : BitVec w)
  | bulkProducer (count : BitVec w)
  | consumer (count : BitVec w)
  | tryPullConsumer (count : BitVec w)

/-- How a consumer gets its elements. -/
inductive PullKind
  | pull
  | tryPull
  deriving DecidableEq

/-- The program points of a forked task. A producer posts `base + i` for the `i` below `len`;
a consumer is in iteration `i` of `count`, and has added up `sum`. -/
inductive Task (w : ℕ)
  | notForked
  | posting (base : BitVec w) (len i : ℕ)
  | consuming (kind : PullKind) (count i : ℕ) (sum : BitVec w)
  | returned

/-- The number of elements of `iota(bound₁, bound₂)`. -/
def iotaSize (bound₁ bound₂ : BitVec w) : ℕ := (bound₂ - bound₁).toNat

namespace RandAction

/-- The task that the action forks, with the present value of `base`. -/
def task (base : BitVec w) : RandAction w → Task w
  | .producer count => .posting base count.toNat 0
  | .bulkProducer count => .posting base (iotaSize base (base + count)) 0
  | .consumer count => .consuming .pull count.toNat 0 0
  | .tryPullConsumer count => .consuming .tryPull count.toNat 0 0

/-- `base` after the action. -/
def nextBase (base : BitVec w) : RandAction w → BitVec w
  | .producer count | .bulkProducer count => base + count
  | .consumer _ | .tryPullConsumer _ => base

/-- The action forks its task into the group `Consumers`. -/
def consumes : RandAction w → Bool
  | .producer _ | .bulkProducer _ => false
  | .consumer _ | .tryPullConsumer _ => true

end RandAction

/-- The program points of `run_one_test`. The loop over the actions is in `act`, the loop that
pulls the remaining data in `pull`, with its local `sum`. -/
inductive Main (w : ℕ)
  | act (tick : ℕ)
  | awaitProducers
  | close
  | pull (sum : BitVec w)
  | add (sum : BitVec w)
  | drain
  | drainWait
  | awaitConsumers
  | compare
  | awaitLateProducers
  | finished

/-- The parties that pull: the consumers, and the main task in its loop (`none`). -/
abbrev Agent (n : ℕ) : Type := Option (Fin n)

/-- The state of the test. -/
structure State (actions : List (RandAction w)) where
  main : Main w
  task : Fin actions.length → Task w
  chan : LogQueue (BitVec w)
  base : BitVec w
  fullSum : BitVec w
  failures : ℕ

/-- The steps of the main task, of the producers and of the parties that pull. `pull` gets a value,
`noValue` is a call that comes back without one, and `add` is a `full_sum.fetch_add`. -/
inductive Action (w n : ℕ)
  | fork (k : Fin n)
  | endActions
  | joinProducers
  | close
  | drain
  | drained
  | joinConsumers
  | compare
  | joinLateProducers
  | post (k : Fin n) (value : BitVec w)
  | producerReturn (k : Fin n)
  | pull (agent : Agent n) (value : BitVec w)
  | noValue (agent : Agent n)
  | add (agent : Agent n) (sum : BitVec w)

/-- `expectedSum` -/
def expectedSum (base : BitVec w) : BitVec w :=
  (List.range base.toNat).foldl (fun sum i => sum + BitVec.ofNat w i) 0

variable {actions : List (RandAction w)}

/-- The tasks of one of the two groups have returned. -/
def State.Joined (s : State actions) (consumes : Bool) : Prop :=
  ∀ k, (actions.get k).consumes = consumes → s.task k = .returned

/-- The steps of the test. -/
inductive Step (actions : List (RandAction w)) (waitOnProducers : Bool) :
    State actions → Action w actions.length → State actions → Prop
  | fork {s : State actions} {k : Fin actions.length} (h : s.main = .act k) :
      Step actions waitOnProducers s (.fork k)
        { s with
          main := .act (k + 1)
          task := Function.update s.task k ((actions.get k).task s.base)
          base := (actions.get k).nextBase s.base }
  | endActions {s : State actions} (h : s.main = .act actions.length) :
      Step actions waitOnProducers s .endActions
        { s with main := if waitOnProducers then .awaitProducers else .close }
  | joinProducers {s : State actions} (h : s.main = .awaitProducers) (hjoin : s.Joined false) :
      Step actions waitOnProducers s .joinProducers { s with main := .close }
  | close {s : State actions} (h : s.main = .close) :
      Step actions waitOnProducers s .close { s with main := .pull 0, chan := s.chan.close }
  | mainPull {s : State actions} {sum data : BitVec w} (h : s.main = .pull sum)
      (hfront : s.chan.front? = some data) :
      Step actions waitOnProducers s (.pull none data)
        { s with main := .pull (sum + data), chan := s.chan.pop }
  | mainClosed {s : State actions} {sum : BitVec w} (h : s.main = .pull sum)
      (hdrained : s.chan.Drained) :
      Step actions waitOnProducers s (.noValue none) { s with main := .add sum }
  | mainAdd {s : State actions} {sum : BitVec w} (h : s.main = .add sum) :
      Step actions waitOnProducers s (.add none sum)
        { s with main := .drain, fullSum := s.fullSum + sum }
  | drain {s : State actions} (h : s.main = .drain) :
      Step actions waitOnProducers s .drain { s with main := .drainWait, chan := s.chan.close }
  | drained {s : State actions} (h : s.main = .drainWait) (hempty : s.chan.front? = none) :
      Step actions waitOnProducers s .drained { s with main := .awaitConsumers }
  | joinConsumers {s : State actions} (h : s.main = .awaitConsumers) (hjoin : s.Joined true) :
      Step actions waitOnProducers s .joinConsumers
        { s with main := if waitOnProducers then .compare else .awaitLateProducers }
  | compare {s : State actions} (h : s.main = .compare) :
      Step actions waitOnProducers s .compare
        { s with
          main := .finished
          failures := if expectedSum s.base = s.fullSum then s.failures else s.failures + 1 }
  | joinLateProducers {s : State actions} (h : s.main = .awaitLateProducers)
      (hjoin : s.Joined false) :
      Step actions waitOnProducers s .joinLateProducers { s with main := .finished }
  | post {s : State actions} {k : Fin actions.length} {base : BitVec w} {len i : ℕ}
      (h : s.task k = .posting base len i) (hi : i < len) :
      Step actions waitOnProducers s (.post k (base + BitVec.ofNat w i))
        { s with
          task := Function.update s.task k (.posting base len (i + 1))
          chan := s.chan.post (base + BitVec.ofNat w i) }
  | producerReturn {s : State actions} {k : Fin actions.length} {base : BitVec w} {len i : ℕ}
      (h : s.task k = .posting base len i) (hi : ¬ i < len) :
      Step actions waitOnProducers s (.producerReturn k)
        { s with task := Function.update s.task k .returned }
  | pull {s : State actions} {k : Fin actions.length} {kind : PullKind} {count i : ℕ}
      {sum data : BitVec w} (h : s.task k = .consuming kind count i sum) (hi : i < count)
      (hfront : s.chan.front? = some data) :
      Step actions waitOnProducers s (.pull (some k) data)
        { s with
          task := Function.update s.task k (.consuming kind count (i + 1) (sum + data))
          chan := s.chan.pop }
  | closed {s : State actions} {k : Fin actions.length} {kind : PullKind} {count i : ℕ}
      {sum : BitVec w} (h : s.task k = .consuming kind count i sum) (hi : i < count)
      (hdrained : s.chan.Drained) :
      Step actions waitOnProducers s (.noValue (some k))
        { s with task := Function.update s.task k (.consuming kind count (i + 1) sum) }
  | tryPullEmpty {s : State actions} {k : Fin actions.length} {count i : ℕ} {sum : BitVec w}
      (h : s.task k = .consuming .tryPull count i sum) (hi : i < count)
      (hempty : s.chan.front? = none) (hopen : s.chan.closed = false) :
      Step actions waitOnProducers s (.noValue (some k))
        { s with task := Function.update s.task k (.consuming .tryPull count (i + 1) sum) }
  | add {s : State actions} {k : Fin actions.length} {kind : PullKind} {count i : ℕ}
      {sum : BitVec w} (h : s.task k = .consuming kind count i sum) (hi : ¬ i < count) :
      Step actions waitOnProducers s (.add (some k) sum)
        { s with
          task := Function.update s.task k .returned
          fullSum := s.fullSum + sum }

/-- `run_one_test(wait_on_producers)` behind `reset()`. -/
def system (actions : List (RandAction w)) (waitOnProducers : Bool) :
    LTS (State actions) (Action w actions.length) where
  init := ⟨.act 0, fun _ => .notForked, .empty, 0, 0, 0⟩
  step := Step actions waitOnProducers

end FuzzChan

end TmcExamples
