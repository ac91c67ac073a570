import Mathlib.Data.BitVec
import Mathlib.Data.Fintype.Card
import TmcExamples.Queue.LogQueue
import TmcExamples.Transition.System

/-!
# The tests of the bounded queue

In `many_producers`, `tiny_capacity_many_producers`, `stress_many_producers_small_capacity` and
`push_race_with_close` of `test_qu_mpsc_bounded.cpp` several producers push consecutive numbers
into a queue of fixed capacity, and one consumer pulls a fixed number of times. In the first three
tests it then returns; in the last one it closes the queue in mid-stream and drains it, so that
some pushes are refused.

The queue is linearizable. A push takes effect while the queue is open, in the order of the log,
and returns `true` when there is room for its element, that is, when fewer than `capacity`
elements before it are left; until then its producer is suspended. A push that finds the queue
closed returns `false`. A push that is under way when the queue is closed has its place in
the log, and returns `true` when the consumer has come near enough.
-/

namespace TmcExamples

namespace MpscBounded

variable {w : ℕ}

/-- The parameters of a test: `NPRODUCERS`, `ITEMS_PER_PRODUCER`, the pulls of the consumer in its
first loop, and whether it closes the queue behind that loop. -/
structure Test where
  capacity : ℕ
  nproducers : ℕ
  items : ℕ
  pulls : ℕ
  closes : Bool
  capacity_pos : 0 < capacity

/-- `TOTAL` -/
def Test.total (T : Test) : ℕ := T.nproducers * T.items

variable {T : Test}

/-- The element that producer `e.1` pushes in iteration `e.2`. -/
abbrev Element (T : Test) : Type := Fin T.nproducers × ℕ

/-- `Base + i`, where `Base` is `p * ITEMS_PER_PRODUCER`. -/
def Element.value (w : ℕ) (e : Element T) : BitVec w := BitVec.ofNat w (e.1 * T.items + e.2)

/-- The program points of a producer, with the results of its pushes so far. A suspended producer
has pushed the element at position `pos` of the log. -/
inductive Producer
  | pushing (results : List Bool)
  | suspended (results : List Bool) (pos : ℕ)
  | returned (results : List Bool)

/-- The results of the pushes of a producer. -/
def Producer.results : Producer → List Bool
  | .pushing results | .suspended results _ | .returned results => results

/-- The program points of the consumer, with its `count` or `drained` and its `sum`: the first loop,
`close`, the loop that drains the queue, the end, and undefined behaviour, where the consumer
looks into an empty scope. -/
inductive Consumer (w : ℕ)
  | pulling (count : ℕ) (sum : BitVec w)
  | closing (count : ℕ) (sum : BitVec w)
  | draining (count : ℕ) (sum : BitVec w)
  | returned (count : ℕ) (sum : BitVec w)
  | undefined (count : ℕ) (sum : BitVec w)

/-- The `count` of the consumer. -/
def Consumer.count : Consumer w → ℕ
  | .pulling n _ | .closing n _ | .draining n _ | .returned n _ | .undefined n _ => n

/-- The `sum` of the consumer. -/
def Consumer.sum : Consumer w → BitVec w
  | .pulling _ x | .closing _ x | .draining _ x | .returned _ x | .undefined _ x => x

/-- The state of a test. -/
structure State (w : ℕ) (T : Test) where
  producer : Fin T.nproducers → Producer
  consumer : Consumer w
  chan : LogQueue (Element T)

/-- All tasks have returned. -/
def State.Finished (s : State w T) : Prop :=
  (∀ p, ∃ results, s.producer p = .returned results) ∧ ∃ count sum, s.consumer = .returned count sum

/-- The steps of the producers and of the consumer. -/
inductive Action (T : Test)
  | push (p : Fin T.nproducers)
  | refused (p : Fin T.nproducers)
  | pushed (p : Fin T.nproducers)
  | producerReturn (p : Fin T.nproducers)
  | pull
  | empty
  | loopEnd
  | close
  | drain
  | drained

/-- The steps of a test. -/
inductive Step (w : ℕ) (T : Test) : State w T → Action T → State w T → Prop
  | push {s : State w T} {p : Fin T.nproducers} {results : List Bool}
      (h : s.producer p = .pushing results) (hi : results.length < T.items)
      (hopen : s.chan.closed = false) :
      Step w T s (.push p)
        { s with
          producer := Function.update s.producer p (.suspended results s.chan.log.length)
          chan := s.chan.push (p, results.length) }
  | refused {s : State w T} {p : Fin T.nproducers} {results : List Bool}
      (h : s.producer p = .pushing results) (hi : results.length < T.items)
      (hclosed : s.chan.closed = true) :
      Step w T s (.refused p)
        { s with producer := Function.update s.producer p (.pushing (results ++ [false])) }
  | pushed {s : State w T} {p : Fin T.nproducers} {results : List Bool} {pos : ℕ}
      (h : s.producer p = .suspended results pos) (hroom : pos < s.chan.head + T.capacity) :
      Step w T s (.pushed p)
        { s with producer := Function.update s.producer p (.pushing (results ++ [true])) }
  | producerReturn {s : State w T} {p : Fin T.nproducers} {results : List Bool}
      (h : s.producer p = .pushing results) (hi : ¬ results.length < T.items) :
      Step w T s (.producerReturn p)
        { s with producer := Function.update s.producer p (.returned results) }
  | pull {s : State w T} {count : ℕ} {sum : BitVec w} {e : Element T}
      (h : s.consumer = .pulling count sum) (hcount : count < T.pulls)
      (hfront : s.chan.front? = some e) :
      Step w T s .pull
        { s with consumer := .pulling (count + 1) (sum + e.value w), chan := s.chan.pop }
  | empty {s : State w T} {count : ℕ} {sum : BitVec w}
      (h : s.consumer = .pulling count sum) (hcount : count < T.pulls) (hdrained : s.chan.Drained) :
      -- `push_race_with_close` tests the scope, the other tests do not.
      Step w T s .empty
        { s with consumer := if T.closes then .returned count sum else .undefined count sum }
  | loopEnd {s : State w T} {count : ℕ} {sum : BitVec w}
      (h : s.consumer = .pulling count sum) (hcount : ¬ count < T.pulls) :
      Step w T s .loopEnd
        { s with consumer := if T.closes then .closing count sum else .returned count sum }
  | close {s : State w T} {count : ℕ} {sum : BitVec w} (h : s.consumer = .closing count sum) :
      Step w T s .close { s with consumer := .draining count sum, chan := s.chan.close }
  | drain {s : State w T} {count : ℕ} {sum : BitVec w} {e : Element T}
      (h : s.consumer = .draining count sum) (hfront : s.chan.front? = some e) :
      Step w T s .drain
        { s with consumer := .draining (count + 1) (sum + e.value w), chan := s.chan.pop }
  | drained {s : State w T} {count : ℕ} {sum : BitVec w} (h : s.consumer = .draining count sum)
      (hdrained : s.chan.Drained) :
      Step w T s .drained { s with consumer := .returned count sum }

/-- A test, from where `spawn_tuple` has started the tasks. -/
def system (w : ℕ) (T : Test) : LTS (State w T) (Action T) where
  init := ⟨fun _ => .pushing [], .pulling 0 0, .empty⟩
  step := Step w T

end MpscBounded

end TmcExamples
