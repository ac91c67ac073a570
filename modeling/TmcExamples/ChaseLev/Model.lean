import Mathlib.Data.Fintype.Basic
import Mathlib.Data.List.Basic
import Mathlib.Logic.Function.Basic
import TmcExamples.Transition.System

/-!
# An owner and stealers

The tests `concurrent_owner_and_stealers` and `concurrent_post_bulk_with_stealers` of
`test_chase_lev_deque.cpp`. The owner thread pushes the numbers below `N` at the tail of a deque and
pops some of them back there, drains the tail and says that it is done; the other threads steal at
the head, until they find that the owner is done and the deque is empty.

The deque is linearizable: a list with its head at the front. `steal` may lose a race, so it
may fail at any time; `try_pop` and `empty` tell whether there is an element.
-/

namespace TmcExamples

namespace ChaseLev

/-- The operations of the owner: `push`, which posts one element, `post_bulk`, and `try_pop`. -/
inductive Op
  | post (count : ℕ)
  | tryPop
  deriving DecidableEq, Repr

/-- The operations of the owner in `concurrent_owner_and_stealers`. -/
def pushAndPop (N : ℕ) : List Op :=
  (List.range N).flatMap fun i => if i % 17 = 0 then [.post 1, .tryPop] else [.post 1]

/-- The operations of the owner in `concurrent_post_bulk_with_stealers`, from `next` on. The number
of iterations is given with it. -/
def postChunks (N chunk : ℕ) : ℕ → ℕ → List Op
  | 0, _ => []
  | fuel + 1, next =>
    if next < N then
      .post (min chunk (N - next)) :: postChunks N chunk fuel (next + min chunk (N - next))
    else []

/-- The operations of the owner in `concurrent_post_bulk_with_stealers`. -/
def postBulk (N chunk : ℕ) : List Op := postChunks N chunk N 0

/-- The program points of the owner: its operations, the loop that drains the tail, and the store to
`producer_done`. -/
inductive Owner
  | running (ops : List Op)
  | draining
  | storing
  | returned

/-- The program points of a stealer: `steal`, the load of `producer_done`, `empty`, and the loop
that drains the remainder. -/
inductive Stealer
  | stealing
  | loading
  | testing
  | draining
  | returned
  deriving DecidableEq, Repr

/-- The state of a test with `k` stealers. The owner pushes `next` next. -/
structure State (k : ℕ) where
  owner : Owner
  next : ℕ
  popped : List ℕ
  deque : List ℕ
  done : Bool
  stealer : Fin k → Stealer
  stolen : Fin k → List ℕ

/-- All threads have returned. -/
def State.Finished {k : ℕ} (s : State k) : Prop :=
  s.owner = .returned ∧ ∀ t, s.stealer t = .returned

/-- The steps of the owner and of the stealers. -/
inductive Action (k : ℕ)
  | post
  | tryPop
  | tryPopEmpty
  | opsEnd
  | drain
  | drained
  | store
  | steal (t : Fin k)
  | stealFails (t : Fin k)
  | notDone (t : Fin k)
  | isDone (t : Fin k)
  | notEmpty (t : Fin k)
  | isEmpty (t : Fin k)
  | remainderSteal (t : Fin k)
  | remainderFails (t : Fin k)
  deriving DecidableEq, Repr

/-- The step is one of the owner. -/
def Action.ByOwner {k : ℕ} : Action k → Prop
  | .post | .tryPop | .tryPopEmpty | .opsEnd | .drain | .drained | .store => True
  | _ => False

/-- The steps of a test. -/
inductive Step (k : ℕ) : State k → Action k → State k → Prop
  | post {s : State k} {count : ℕ} {ops : List Op} (h : s.owner = .running (.post count :: ops)) :
      Step k s .post
        { s with
          owner := .running ops
          next := s.next + count
          deque := s.deque ++ List.range' s.next count }
  | tryPop {s : State k} {ops : List Op} {xs : List ℕ} {x : ℕ}
      (h : s.owner = .running (.tryPop :: ops)) (hdeque : s.deque = xs ++ [x]) :
      Step k s .tryPop
        { s with owner := .running ops, popped := s.popped ++ [x], deque := xs }
  | tryPopEmpty {s : State k} {ops : List Op} (h : s.owner = .running (.tryPop :: ops))
      (hdeque : s.deque = []) :
      Step k s .tryPopEmpty { s with owner := .running ops }
  | opsEnd {s : State k} (h : s.owner = .running []) :
      Step k s .opsEnd { s with owner := .draining }
  | drain {s : State k} {xs : List ℕ} {x : ℕ} (h : s.owner = .draining)
      (hdeque : s.deque = xs ++ [x]) :
      Step k s .drain { s with popped := s.popped ++ [x], deque := xs }
  | drained {s : State k} (h : s.owner = .draining) (hdeque : s.deque = []) :
      Step k s .drained { s with owner := .storing }
  | store {s : State k} (h : s.owner = .storing) :
      Step k s .store { s with owner := .returned, done := true }
  | steal {s : State k} {t : Fin k} {x : ℕ} {xs : List ℕ} (h : s.stealer t = .stealing)
      (hdeque : s.deque = x :: xs) :
      Step k s (.steal t)
        { s with
          deque := xs
          stolen := Function.update s.stolen t (s.stolen t ++ [x]) }
  | stealFails {s : State k} {t : Fin k} (h : s.stealer t = .stealing) :
      Step k s (.stealFails t) { s with stealer := Function.update s.stealer t .loading }
  | notDone {s : State k} {t : Fin k} (h : s.stealer t = .loading) (hdone : s.done = false) :
      Step k s (.notDone t) { s with stealer := Function.update s.stealer t .stealing }
  | isDone {s : State k} {t : Fin k} (h : s.stealer t = .loading) (hdone : s.done = true) :
      Step k s (.isDone t) { s with stealer := Function.update s.stealer t .testing }
  | notEmpty {s : State k} {t : Fin k} (h : s.stealer t = .testing) (hdeque : s.deque ≠ []) :
      Step k s (.notEmpty t) { s with stealer := Function.update s.stealer t .stealing }
  | isEmpty {s : State k} {t : Fin k} (h : s.stealer t = .testing) (hdeque : s.deque = []) :
      Step k s (.isEmpty t) { s with stealer := Function.update s.stealer t .draining }
  | remainderSteal {s : State k} {t : Fin k} {x : ℕ} {xs : List ℕ}
      (h : s.stealer t = .draining) (hdeque : s.deque = x :: xs) :
      Step k s (.remainderSteal t)
        { s with
          deque := xs
          stolen := Function.update s.stolen t (s.stolen t ++ [x]) }
  | remainderFails {s : State k} {t : Fin k} (h : s.stealer t = .draining) :
      Step k s (.remainderFails t) { s with stealer := Function.update s.stealer t .returned }

/-- A test with `k` stealers, from where all threads have been started. -/
def system (k : ℕ) (ops : List Op) : LTS (State k) (Action k) where
  init := ⟨.running ops, 0, [], [], false, fun _ => .stealing, fun _ => []⟩
  step := Step k

end ChaseLev

end TmcExamples
