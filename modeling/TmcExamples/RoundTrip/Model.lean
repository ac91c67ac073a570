import TmcExamples.ChanBench.Partition
import TmcExamples.Transition.Parties

/-!
# The round trip benchmark

`run_bench` of `exec_st_roundtrip_bench.cpp` deals `NELEMS` consumers out to `prodCount` producers,
in the loop of `chan_bench.cpp`. A producer runs its consumers one after the other. `producer` posts
each to an executor with a single thread and awaits it there; `mutex_producer` runs it in a scope
of a mutex that all producers lock. Either way one consumer runs at a time, and those that have
been asked for wait. The executors take the waiting consumers in the order of the posts
("FIFO/fair"), the mutex goes to any of those that wait for it ("LIFO/unfair").

Of a `Bench` only the elements and the producers play a role.
-/

namespace TmcExamples

namespace RoundTrip

open ChanBench (Bench)

variable {w : ℕ}

/-- What runs the consumers one after the other: an executor with one thread (`producer`) or the
mutex (`mutex_producer`). -/
inductive Serializer
  | executor
  | mutex

/-- Consumer `i` of producer `p`. -/
abbrev Consumer (B : Bench w) : Type := Fin B.prodCount.toNat × ℕ

variable {B : Bench w}

/-- The serializer takes `c` out of the consumers that wait, and the others are left. -/
def Serializer.Takes : Serializer → List (Consumer B) → Consumer B → List (Consumer B) → Prop
  | .executor, waiting, c, rest => waiting = c :: rest
  | .mutex, waiting, c, rest => c ∈ waiting ∧ rest = waiting.erase c

/-- The program points of a producer, in iteration `i` of its loop. -/
inductive Producer
  | ready (i : ℕ)
  | awaiting (i : ℕ)
  | returned

/-- The state of the benchmark. -/
structure State (B : Bench w) where
  producer : Fin B.prodCount.toNat → Producer
  waiting : List (Consumer B)
  running : Option (Consumer B)

/-- The steps of the producers and of the consumers. -/
inductive Action (B : Bench w)
  | post (c : Consumer B)
  | producerReturn (p : Fin B.prodCount.toNat)
  | start (c : Consumer B)
  | finish (c : Consumer B)

/-- The steps of the benchmark. -/
inductive Step (B : Bench w) (serializer : Serializer) : State B → Action B → State B → Prop
  | post {s : State B} {p : Fin B.prodCount.toNat} {i : ℕ} (h : s.producer p = .ready i)
      (hi : i < (B.count p).toNat) :
      Step B serializer s (.post (p, i))
        { s with
          producer := Function.update s.producer p (.awaiting i)
          waiting := s.waiting ++ [(p, i)] }
  | producerReturn {s : State B} {p : Fin B.prodCount.toNat} {i : ℕ} (h : s.producer p = .ready i)
      (hi : ¬ i < (B.count p).toNat) :
      Step B serializer s (.producerReturn p)
        { s with producer := Function.update s.producer p .returned }
  | start {s : State B} {c : Consumer B} {rest : List (Consumer B)} (h : s.running = none)
      (htake : serializer.Takes s.waiting c rest) :
      Step B serializer s (.start c) { s with waiting := rest, running := some c }
  | finish {s : State B} {p : Fin B.prodCount.toNat} {i : ℕ} (h : s.running = some (p, i)) :
      Step B serializer s (.finish (p, i))
        { s with
          producer := Function.update s.producer p (.ready (i + 1))
          running := none }

/-- `run_bench`, from `spawn_many(prod)` on. -/
def system (B : Bench w) (serializer : Serializer) : LTS (State B) (Action B) where
  init := ⟨fun _ => .ready 0, [], none⟩
  step := Step B serializer

/-! ### What the trace tells -/

/-- The consumer that the action starts. -/
def Action.started? : Action B → Option (Consumer B)
  | .start c => some c
  | _ => none

/-- The consumers that are started in a trace. -/
def starts (tr : List (Action B)) : List (Consumer B) := tr.filterMap Action.started?

theorem starts_snoc (tr : List (Action B)) (a : Action B) :
    starts (tr ++ [a]) = starts tr ++ a.started?.toList := by
  rw [starts, starts, List.filterMap_append]
  cases ha : a.started? <;> simp [ha]

theorem starts_snoc_of_none {a : Action B} (tr : List (Action B)) (ha : a.started? = none) :
    starts (tr ++ [a]) = starts tr := by
  rw [starts_snoc, ha, Option.toList_none, List.append_nil]

/-- The consumers that have been started, as the trace has them. -/
theorem mem_starts {tr : List (Action B)} {c : Consumer B} : c ∈ starts tr ↔ .start c ∈ tr := by
  rw [starts, List.mem_filterMap]
  constructor
  · rintro ⟨a, ha, hc⟩
    cases a with
    | start c' => exact Option.some.inj hc ▸ ha
    | post | producerReturn | finish => cases hc
  · exact fun h => ⟨_, h, rfl⟩

end RoundTrip

end TmcExamples
