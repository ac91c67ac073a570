import Mathlib.Data.BitVec
import Mathlib.Data.Fintype.Card
import TmcExamples.Queue.LogQueue
import TmcExamples.Transition.System

/-!
# One round of `chan_bench.cpp`

The benchmark deals the numbers below `NELEMS` out to `prodCount` producers, which push them into
one channel, and `consCount` consumers pull them, each counting and adding up what it gets. The
main task forks the consumers, awaits the producers, closes and drains the channel,
awaits the consumers and compares the totals with what they should be. `queue_bench.cpp` deals
the numbers out in the same loop and makes the same two checks.

Numbers are of the type `size_t`, here the bit vectors of a width `w`. The channel is a
linearizable queue: a push is refused only by a closed channel, and a pull that finds the channel
empty waits, or returns nothing if the channel is closed. `drain()` closes the channel
and waits until it is empty.
-/

namespace TmcExamples

namespace ChanBench

variable {w : ℕ}

/-- The parameters of a round. -/
structure Bench (w : ℕ) where
  nelems : BitVec w
  prodCount : BitVec w
  consCount : BitVec w
  prodCount_pos : 0 < prodCount
  consCount_pos : 0 < consCount

namespace Bench

variable (B : Bench w)

/-- `per_task` -/
def perTask : BitVec w := B.nelems / B.prodCount

/-- `rem` -/
def rem : BitVec w := B.nelems % B.prodCount

/-- The `count` that producer `i` is called with. -/
def count (i : ℕ) : BitVec w := if BitVec.ofNat w i < B.rem then B.perTask + 1 else B.perTask

/-- The value of `base` after `i` iterations of the loop, with which producer `i` is called. -/
def base : ℕ → BitVec w
  | 0 => 0
  | i + 1 => base i + B.count i

/-- `expectedSum` -/
def expectedSum : BitVec w :=
  (List.range B.nelems.toNat).foldl (fun sum i => sum + BitVec.ofNat w i) 0

end Bench

/-- The program points of a producer. -/
inductive Producer
  | unstarted
  | running (i : ℕ)
  | assertFailed
  | returned

/-- The program points of a consumer, with its local variables. -/
inductive Consumer (w : ℕ)
  | unstarted
  | pulling (count sum : BitVec w)
  | returned (count sum : BitVec w)

/-- The `count` of a consumer. -/
def Consumer.count : Consumer w → BitVec w
  | .unstarted => 0
  | .pulling count _ | .returned count _ => count

/-- The `sum` of a consumer. -/
def Consumer.sum : Consumer w → BitVec w
  | .unstarted => 0
  | .pulling _ sum | .returned _ sum => sum

/-- The program points of the main task. -/
inductive Main
  | fork
  | spawn
  | awaitProducers
  | close
  | drain
  | drainWait
  | awaitConsumers
  | checkCount
  | checkSum
  | finished
  deriving DecidableEq, Repr

/-- The lines that start with `FAIL`. -/
inductive Failure (w : ℕ)
  | count (expected consumed : BitVec w)
  | sum (expected got : BitVec w)

/-- The state of the round. -/
structure State (B : Bench w) where
  main : Main
  producer : Fin B.prodCount.toNat → Producer
  consumer : Fin B.consCount.toNat → Consumer w
  chan : LogQueue (BitVec w)
  output : List (Failure w)

/-- The loop that adds up a member of `consResults`. -/
def total {n : ℕ} (results : Fin n → BitVec w) : BitVec w :=
  (List.finRange n).foldl (fun sum i => sum + results i) 0

/-- The steps of the main task, of the producers and of the consumers. -/
inductive Action (B : Bench w)
  | fork
  | spawn
  | joinProducers
  | close
  | drain
  | drained
  | joinConsumers
  | checkCount
  | checkSum
  | push (p : Fin B.prodCount.toNat)
  | refused (p : Fin B.prodCount.toNat)
  | producerReturn (p : Fin B.prodCount.toNat)
  | pull (c : Fin B.consCount.toNat)
  | consumerReturn (c : Fin B.consCount.toNat)

/-- The steps of the round. -/
inductive Step (B : Bench w) : State B → Action B → State B → Prop
  | fork {s : State B} (h : s.main = .fork) :
      Step B s .fork { s with main := .spawn, consumer := fun _ => .pulling 0 0 }
  | spawn {s : State B} (h : s.main = .spawn) :
      Step B s .spawn { s with main := .awaitProducers, producer := fun _ => .running 0 }
  | joinProducers {s : State B} (h : s.main = .awaitProducers)
      (hreturned : ∀ p, s.producer p = .returned) :
      Step B s .joinProducers { s with main := .close }
  | close {s : State B} (h : s.main = .close) :
      Step B s .close { s with main := .drain, chan := s.chan.close }
  | drain {s : State B} (h : s.main = .drain) :
      Step B s .drain { s with main := .drainWait, chan := s.chan.close }
  | drained {s : State B} (h : s.main = .drainWait) (hempty : s.chan.front? = none) :
      Step B s .drained { s with main := .awaitConsumers }
  | joinConsumers {s : State B} (h : s.main = .awaitConsumers)
      (hreturned : ∀ c, ∃ count sum, s.consumer c = .returned count sum) :
      Step B s .joinConsumers { s with main := .checkCount }
  | checkCount {s : State B} {count : BitVec w} (h : s.main = .checkCount)
      (hcount : count = total fun c => (s.consumer c).count) :
      Step B s .checkCount
        { s with
          main := .checkSum
          output := if count = B.nelems then s.output
            else s.output ++ [.count B.nelems count] }
  | checkSum {s : State B} {sum : BitVec w} (h : s.main = .checkSum)
      (hsum : sum = total fun c => (s.consumer c).sum) :
      Step B s .checkSum
        { s with
          main := .finished
          output := if sum = B.expectedSum then s.output
            else s.output ++ [.sum B.expectedSum sum] }
  | push {s : State B} {p : Fin B.prodCount.toNat} {i : ℕ} (h : s.producer p = .running i)
      (hi : i < (B.count p).toNat) (hopen : s.chan.closed = false) :
      Step B s (.push p)
        { s with
          producer := Function.update s.producer p (.running (i + 1))
          chan := s.chan.push (B.base p + BitVec.ofNat w i) }
  | refused {s : State B} {p : Fin B.prodCount.toNat} {i : ℕ} (h : s.producer p = .running i)
      (hi : i < (B.count p).toNat) (hclosed : s.chan.closed = true) :
      Step B s (.refused p)
        { s with producer := Function.update s.producer p .assertFailed }
  | producerReturn {s : State B} {p : Fin B.prodCount.toNat} {i : ℕ}
      (h : s.producer p = .running i) (hi : ¬ i < (B.count p).toNat) :
      Step B s (.producerReturn p)
        { s with producer := Function.update s.producer p .returned }
  | pull {s : State B} {c : Fin B.consCount.toNat} {count sum data : BitVec w}
      (h : s.consumer c = .pulling count sum) (hfront : s.chan.front? = some data) :
      Step B s (.pull c)
        { s with
          consumer := Function.update s.consumer c (.pulling (count + 1) (sum + data))
          chan := s.chan.pop }
  | consumerReturn {s : State B} {c : Fin B.consCount.toNat} {count sum : BitVec w}
      (h : s.consumer c = .pulling count sum) (hdrained : s.chan.Drained) :
      Step B s (.consumerReturn c)
        { s with consumer := Function.update s.consumer c (.returned count sum) }

/-- One round, from behind the loops that construct the tasks. -/
def system (B : Bench w) : LTS (State B) (Action B) where
  init := ⟨.fork, fun _ => .unstarted, fun _ => .unstarted, .empty, []⟩
  step := Step B

end ChanBench

end TmcExamples
