import TmcExamples.ChanBench.Totals

/-!
# The queue benchmark

`queue_bench.cpp` deals the numbers below `NELEMS` out to its producers as `chan_bench.cpp` does,
but its queue has a single consumer and is never closed: the consumer stops by itself when it has
counted `NELEMS` elements. Of the consumer there are two versions; `consumer` waits in `pull()`
while the queue is empty, `consumer_try_pull` asks again. The main task forks the consumer, awaits
the producers and then the consumer, and makes the two checks.

The queue is unbounded, and linearizable: a post always succeeds. Of a `Bench` only the elements and
the producers play a role.
-/

namespace TmcExamples

namespace QueueBench

open ChanBench (Bench Failure total)

variable {w : ℕ}

/-- The two versions of the consumer. -/
inductive Pulling
  | consumer
  | consumerTryPull

/-- The program points of a producer. -/
inductive Producer
  | unstarted
  | running (i : ℕ)
  | returned

/-- The program points of the consumer, with its local variables. -/
inductive Consumer (w : ℕ)
  | unstarted
  | running (count sum : BitVec w)
  | returned (count sum : BitVec w)

/-- The `count` of the consumer. -/
def Consumer.count : Consumer w → BitVec w
  | .unstarted => 0
  | .running count _ | .returned count _ => count

/-- The `sum` of the consumer. -/
def Consumer.sum : Consumer w → BitVec w
  | .unstarted => 0
  | .running _ sum | .returned _ sum => sum

/-- The program points of the main task. -/
inductive Main
  | fork
  | spawn
  | awaitProducers
  | awaitConsumers
  | checkCount
  | checkSum
  | finished
  deriving DecidableEq, Repr

/-- `CONSUMER_COUNT` -/
def consumerCount : ℕ := 1

/-- The state of the benchmark. -/
structure State (B : Bench w) where
  main : Main
  producer : Fin B.prodCount.toNat → Producer
  consumer : Consumer w
  queue : LogQueue (BitVec w)
  output : List (Failure w)

/-- The steps of the main task, of the producers and of the consumer. `empty` is a `try_pull()`
that finds the queue empty. -/
inductive Action (B : Bench w)
  | fork
  | spawn
  | joinProducers
  | joinConsumers
  | checkCount
  | checkSum
  | post (p : Fin B.prodCount.toNat)
  | producerReturn (p : Fin B.prodCount.toNat)
  | pull
  | empty
  | consumerReturn

/-- The steps of the benchmark. -/
inductive Step (B : Bench w) (pulling : Pulling) : State B → Action B → State B → Prop
  | fork {s : State B} (h : s.main = .fork) :
      Step B pulling s .fork { s with main := .spawn, consumer := .running 0 0 }
  | spawn {s : State B} (h : s.main = .spawn) :
      Step B pulling s .spawn { s with main := .awaitProducers, producer := fun _ => .running 0 }
  | joinProducers {s : State B} (h : s.main = .awaitProducers)
      (hreturned : ∀ p, s.producer p = .returned) :
      Step B pulling s .joinProducers { s with main := .awaitConsumers }
  | joinConsumers {s : State B} {count sum : BitVec w} (h : s.main = .awaitConsumers)
      (hreturned : s.consumer = .returned count sum) :
      Step B pulling s .joinConsumers { s with main := .checkCount }
  | checkCount {s : State B} {count : BitVec w} (h : s.main = .checkCount)
      (hcount : count = total fun _ : Fin consumerCount => s.consumer.count) :
      Step B pulling s .checkCount
        { s with
          main := .checkSum
          output := if count = B.nelems then s.output
            else s.output ++ [.count B.nelems count] }
  | checkSum {s : State B} {sum : BitVec w} (h : s.main = .checkSum)
      (hsum : sum = total fun _ : Fin consumerCount => s.consumer.sum) :
      Step B pulling s .checkSum
        { s with
          main := .finished
          output := if sum = B.expectedSum then s.output
            else s.output ++ [.sum B.expectedSum sum] }
  | post {s : State B} {p : Fin B.prodCount.toNat} {i : ℕ} (h : s.producer p = .running i)
      (hi : i < (B.count p).toNat) :
      Step B pulling s (.post p)
        { s with
          producer := Function.update s.producer p (.running (i + 1))
          queue := s.queue.post (B.base p + BitVec.ofNat w i) }
  | producerReturn {s : State B} {p : Fin B.prodCount.toNat} {i : ℕ}
      (h : s.producer p = .running i) (hi : ¬ i < (B.count p).toNat) :
      Step B pulling s (.producerReturn p)
        { s with producer := Function.update s.producer p .returned }
  | pull {s : State B} {count sum data : BitVec w} (h : s.consumer = .running count sum)
      (hcount : count < B.nelems) (hfront : s.queue.front? = some data) :
      Step B pulling s .pull
        { s with consumer := .running (count + 1) (sum + data), queue := s.queue.pop }
  | empty {s : State B} {count sum : BitVec w} (h : s.consumer = .running count sum)
      (hcount : count < B.nelems) (hempty : s.queue.front? = none)
      (htry : pulling = .consumerTryPull) :
      Step B pulling s .empty s
  | consumerReturn {s : State B} {count sum : BitVec w} (h : s.consumer = .running count sum)
      (hcount : ¬ count < B.nelems) :
      Step B pulling s .consumerReturn { s with consumer := .returned count sum }

/-- The benchmark, from behind the loop that constructs the producers. -/
def system (B : Bench w) (pulling : Pulling) : LTS (State B) (Action B) where
  init := ⟨.fork, fun _ => .unstarted, .unstarted, .empty, []⟩
  step := Step B pulling

end QueueBench

end TmcExamples
