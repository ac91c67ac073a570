import Mathlib.Data.BitVec
import TmcExamples.Queue.LogQueue
import TmcExamples.Transition.System

/-!
# The configuration sweeps of the queues

The tests of the channel and of the other queues begin with the same two general tests, for each
configuration. One producer puts the numbers below `NITEMS` into the queue, one by one or in bulks
of `NITEMS / 10`, and one consumer counts them and adds them up. They differ in how the consumer
learns of the end: from a sentinel behind the numbers, from the channel being drained, from a queue
that has been closed, or because it counts to `NITEMS` itself.

The queue is FIFO. A bulk is put in element by element, so that the consumer may see a part of
it. Where the queue is bounded, the producer is suspended as long as there is no room, for the next
element or for all that is left of the bulk; `push_bulk` requires that a bulk is no longer than the
capacity. `try_pull` returns at once when the queue is empty, `pull` waits. The index of the
producer is taken not to overflow.
-/

namespace TmcExamples

namespace QueueSweep

variable {w : ℕ}

/-- `SPSC_TEST_SENTINEL`, `MPSC_TEST_SENTINEL`: `static_cast<size_t>(-1)` -/
def sentinel (w : ℕ) : BitVec w := BitVec.allOnes w

/-- What the producer does behind its loop. -/
inductive Ending
  | sentinel
  | drain
  | close
  | none
  deriving DecidableEq

/-- A test: `NITEMS`, the length of a bulk, the elements, the queue, whether the producer waits
until there is room for a whole bulk, and the consumer. A bulk fits into the queue, and no element
is mistaken for the sentinel. -/
structure Test (w : ℕ) where
  items : ℕ
  stride : ℕ
  value : ℕ → BitVec w
  capacity : Option ℕ
  wholeBulks : Bool
  ending : Ending
  tryPull : Bool
  capacity_pos : ∀ c, capacity = some c → 0 < c
  stride_le : ∀ c, capacity = some c → stride ≤ c
  value_ne : ending = .sentinel → ∀ i < items, value i ≠ sentinel w

/-- The general test with a single push and a sentinel. -/
def singlePush (w items : ℕ) (capacity : Option ℕ) (hcap : ∀ c, capacity = some c → 0 < c)
    (hitems : items < 2 ^ w) : Test w where
  items := items
  stride := 1
  value i := BitVec.ofNat w i
  capacity := capacity
  wholeBulks := false
  ending := .sentinel
  tryPull := false
  capacity_pos := hcap
  stride_le := hcap
  value_ne _ i hi he := by
    have hval := congrArg BitVec.toNat he
    rw [sentinel, BitVec.toNat_allOnes, BitVec.toNat_ofNat, Nat.mod_eq_of_lt (by omega)] at hval
    omega

/-- The general test with bulks, where the consumer counts. -/
def bulk (w items : ℕ) (capacity : Option ℕ) (wholeBulks : Bool)
    (hcap : ∀ c, capacity = some c → 0 < c ∧ items / 10 ≤ c) : Test w where
  items := items
  stride := items / 10
  value i := BitVec.ofNat w i
  capacity := capacity
  wholeBulks := wholeBulks
  ending := .none
  tryPull := true
  capacity_pos c hc := (hcap c hc).1
  stride_le c hc := (hcap c hc).2
  value_ne h := by cases h

variable {T : Test w}

/-- `j`, the end of the bulk that begins at `i` -/
def Test.bulkEnd (T : Test w) (i : ℕ) : ℕ :=
  if i + T.stride > T.items then T.items else i + T.stride

/-- The queue has `slots` slots that are not taken. -/
def Test.HasRoom (T : Test w) (q : LogQueue (BitVec w)) (slots : ℕ) : Prop :=
  ∀ c, T.capacity = some c → q.size + slots ≤ c

/-- The slots that the producer waits for in front of the element `k` of the bulk at `i`. -/
def Test.slots (T : Test w) (i k : ℕ) : ℕ := if T.wholeBulks then T.bulkEnd i - k else 1

/-- The consumer goes on to pull. -/
def Test.Wants (T : Test w) (count : ℕ) : Prop := T.ending = .none → count < T.items

instance (T : Test w) (count : ℕ) : Decidable (T.Wants count) := by
  unfold Test.Wants
  infer_instance

/-- The program points of the producer with its `i`: the head of its loop, a bulk with the element
that is next, the wait for the channel to be drained, and the end. -/
inductive Producer
  | loop (i : ℕ)
  | push (i k : ℕ)
  | draining (i : ℕ)
  | returned (i : ℕ)

/-- The program points of the consumer, with its `count` and its `sum`. It looks into an empty
scope where the behaviour is undefined. -/
inductive Consumer (w : ℕ)
  | pulling (count : ℕ) (sum : BitVec w)
  | returned (count : ℕ) (sum : BitVec w)
  | undefined

/-- The consumer behind the pull of an element. -/
def Test.received (T : Test w) (count : ℕ) (sum e : BitVec w) : Consumer w :=
  if T.ending = .sentinel ∧ e = sentinel w then .returned count sum
  else .pulling (count + 1) (sum + e)

/-- The state of a test, with the number of elements that the queue has refused. -/
structure State (w : ℕ) where
  producer : Producer
  consumer : Consumer w
  queue : LogQueue (BitVec w)
  refused : ℕ

/-- The steps of the producer and of the consumer; `empty` is a `try_pull` without a result. -/
inductive Action
  | enter
  | push
  | refused
  | next
  | sentinel
  | drain
  | drained
  | close
  | finish
  | pull
  | empty
  | closed
  | loopEnd
  deriving DecidableEq

/-- The steps of a test. -/
inductive Step (T : Test w) : State w → Action → State w → Prop
  | enter {s : State w} {i : ℕ} (h : s.producer = .loop i) (hi : i < T.items) :
      Step T s .enter { s with producer := .push i i }
  | push {s : State w} {i k : ℕ} (h : s.producer = .push i k) (hk : k < T.bulkEnd i)
      (hopen : s.queue.closed = false) (hroom : T.HasRoom s.queue (T.slots i k)) :
      Step T s .push { s with producer := .push i (k + 1), queue := s.queue.push (T.value k) }
  | refused {s : State w} {i k : ℕ} (h : s.producer = .push i k) (hk : k < T.bulkEnd i)
      (hclosed : s.queue.closed = true) :
      Step T s .refused { s with producer := .push i (k + 1), refused := s.refused + 1 }
  | next {s : State w} {i k : ℕ} (h : s.producer = .push i k) (hk : ¬ k < T.bulkEnd i) :
      Step T s .next { s with producer := .loop (i + T.stride) }
  | sentinel {s : State w} {i : ℕ} (h : s.producer = .loop i) (hi : ¬ i < T.items)
      (hending : T.ending = .sentinel) (hopen : s.queue.closed = false)
      (hroom : T.HasRoom s.queue 1) :
      Step T s .sentinel
        { s with producer := .returned i, queue := s.queue.push (QueueSweep.sentinel w) }
  | drain {s : State w} {i : ℕ} (h : s.producer = .loop i) (hi : ¬ i < T.items)
      (hending : T.ending = .drain) :
      Step T s .drain { s with producer := .draining i, queue := s.queue.close }
  | drained {s : State w} {i : ℕ} (h : s.producer = .draining i) (hdrained : s.queue.Drained) :
      Step T s .drained { s with producer := .returned i }
  | close {s : State w} {i : ℕ} (h : s.producer = .loop i) (hi : ¬ i < T.items)
      (hending : T.ending = .close) :
      Step T s .close { s with producer := .returned i, queue := s.queue.close }
  | finish {s : State w} {i : ℕ} (h : s.producer = .loop i) (hi : ¬ i < T.items)
      (hending : T.ending = .none) :
      Step T s .finish { s with producer := .returned i }
  | pull {s : State w} {count : ℕ} {sum e : BitVec w} (h : s.consumer = .pulling count sum)
      (hwants : T.Wants count) (hfront : s.queue.front? = some e) :
      Step T s .pull { s with consumer := T.received count sum e, queue := s.queue.pop }
  | empty {s : State w} {count : ℕ} {sum : BitVec w} (h : s.consumer = .pulling count sum)
      (hwants : T.Wants count) (htry : T.tryPull = true) (hfront : s.queue.front? = none)
      (hopen : s.queue.closed = true → T.ending = .none) :
      -- Only the loop that counts does not tell a closed queue from an empty one.
      Step T s .empty s
  | closed {s : State w} {count : ℕ} {sum : BitVec w} (h : s.consumer = .pulling count sum)
      (hending : T.ending ≠ .none) (hdrained : s.queue.Drained) :
      -- The consumers that look for a sentinel do not test the result of the pull.
      Step T s .closed
        { s with
          consumer := if T.ending = .sentinel then .undefined else .returned count sum }
  | loopEnd {s : State w} {count : ℕ} {sum : BitVec w} (h : s.consumer = .pulling count sum)
      (hwants : ¬ T.Wants count) :
      Step T s .loopEnd { s with consumer := .returned count sum }

/-- A test, from where `spawn_tuple` has started both tasks. -/
def Test.system (T : Test w) : LTS (State w) Action where
  init := ⟨.loop 0, .pulling 0 0, .empty, 0⟩
  step := Step T

end QueueSweep

end TmcExamples
