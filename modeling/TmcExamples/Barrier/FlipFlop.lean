import Mathlib.Data.Fintype.Card
import TmcExamples.Transition.System

/-!
# `flip_flop_waiter` of `test_barrier.cpp`

`n` tasks share a `tmc::barrier` of count `n` and the array `DoneArray` of `n` flags, and each has
an index of its own. In every round a task sets its flag, verifies that all flags are set, clears
its flag and verifies that all flags are cleared, and awaits the barrier after each of the four.

The barrier counts its arrivals. The last one releases all waiting tasks, itself included,
and resets the count; a released task goes on in a step of its own, so that it may be arbitrarily
late, while others are already ahead. A verification loop reads one flag a step, and
counts an expectation that fails in `failures`.
-/

namespace TmcExamples

namespace Barrier

/-- The tasks of the test: their number, the number of rounds of the loop, and `DoneIdx` of each
task. -/
structure FlipFlop where
  n : ℕ
  n_pos : 0 < n
  rounds : ℕ
  doneIdx : Fin n → Fin n
  doneIdx_injective : Function.Injective doneIdx

/-- The program points of `flip_flop_waiter` in round `i`: before `DoneArray[DoneIdx].store(value)`;
before, in and behind the `co_await B` that follows the store of `value` (`verified = false`)
or the loop that expects `value` (`verified = true`); in that loop, before the load of entry
`d`; and at the end. -/
inductive Point (n : ℕ)
  | store (i : ℕ) (value : Bool)
  | await (i : ℕ) (value verified : Bool)
  | waiting (i : ℕ) (value verified : Bool)
  | released (i : ℕ) (value verified : Bool)
  | verify (i : ℕ) (value : Bool) (d : Fin n)
  | finished
  deriving DecidableEq

namespace Point

variable {n : ℕ}

/-- The task is suspended in the barrier. -/
def Waiting : Point n → Prop
  | .waiting .. => True
  | _ => False

instance : DecidablePred (Waiting (n := n)) := fun p => by
  cases p <;> unfold Waiting <;> infer_instance

/-- The task is executing a verification loop. -/
def Verifying : Point n → Prop
  | .verify .. => True
  | _ => False

/-- A waiting task that the barrier releases. -/
def release : Point n → Point n
  | .waiting i value verified => .released i value verified
  | p => p

end Point

/-- The point behind the loop head for round `i`: the body, or the end. -/
def FlipFlop.loop (F : FlipFlop) (i : ℕ) : Point F.n :=
  if i < F.rounds then .store i true else .finished

/-- The point behind a `co_await B`. -/
def FlipFlop.resume (F : FlipFlop) (i : ℕ) (value verified : Bool) : Point F.n :=
  match value, verified with
  | value, false => .verify i value ⟨0, F.n_pos⟩
  | true, true => .store i false
  | false, true => F.loop (i + 1)

/-- The point behind the load of entry `d`. -/
def FlipFlop.loaded (F : FlipFlop) (i : ℕ) (value : Bool) (d : Fin F.n) : Point F.n :=
  if h : d.val + 1 < F.n then .verify i value ⟨d.val + 1, h⟩ else .await i value true

/-- The tasks, `DoneArray`, the count of the barrier and the number of failed expectations. -/
structure State (n : ℕ) where
  point : Fin n → Point n
  done : Fin n → Bool
  arrived : ℕ
  failures : ℕ

/-- The steps of task `t`; `release` is the arrival of the last task. -/
inductive Action (n : ℕ)
  | store (t : Fin n)
  | arrive (t : Fin n)
  | release (t : Fin n)
  | resume (t : Fin n)
  | load (t : Fin n)

/-- The steps of the tasks. -/
inductive Step (F : FlipFlop) : State F.n → Action F.n → State F.n → Prop
  | store {s : State F.n} {t : Fin F.n} {i : ℕ} {value : Bool}
      (h : s.point t = .store i value) :
      Step F s (.store t)
        { s with
          point := Function.update s.point t (.await i value false)
          done := Function.update s.done (F.doneIdx t) value }
  | arrive {s : State F.n} {t : Fin F.n} {i : ℕ} {value verified : Bool}
      (h : s.point t = .await i value verified) (hlt : s.arrived + 1 < F.n) :
      Step F s (.arrive t)
        { s with
          point := Function.update s.point t (.waiting i value verified)
          arrived := s.arrived + 1 }
  | release {s : State F.n} {t : Fin F.n} {i : ℕ} {value verified : Bool}
      (h : s.point t = .await i value verified) (hlast : s.arrived + 1 = F.n) :
      Step F s (.release t)
        { s with
          point := fun u => (Function.update s.point t (.waiting i value verified) u).release
          arrived := 0 }
  | resume {s : State F.n} {t : Fin F.n} {i : ℕ} {value verified : Bool}
      (h : s.point t = .released i value verified) :
      Step F s (.resume t)
        { s with point := Function.update s.point t (F.resume i value verified) }
  | load {s : State F.n} {t : Fin F.n} {i : ℕ} {value : Bool} {d : Fin F.n}
      (h : s.point t = .verify i value d) :
      Step F s (.load t)
        { s with
          point := Function.update s.point t (F.loaded i value d)
          failures := if s.done d = value then s.failures else s.failures + 1 }

/-- The test: all flags are cleared and no task has started its loop. -/
def FlipFlop.system (F : FlipFlop) : LTS (State F.n) (Action F.n) where
  init := ⟨fun _ => F.loop 0, fun _ => false, 0, 0⟩
  step := Step F

end Barrier

end TmcExamples
