import Mathlib.Data.Nat.Notation
import Mathlib.Order.Basic

/-!
# Synchronization primitives

The primitives of the library as the tests know them: a state that can be read, what `co_await`
does in that state, and how many of the suspended tasks a call wakes. Which of them are woken is
left open. A primitive that one task at a time can own is a `Lock`.
-/

namespace TmcExamples

namespace Sync

/-- A synchronization primitive with states `σ` and calls `ω`. A `co_await` goes on and changes the
state, or suspends; a call tells how many of the waiting tasks it wakes. -/
structure Primitive (σ ω : Type*) where
  await : σ → Option σ
  call : ω → ℕ → σ → ℕ × σ

/-- `tmc::semaphore`, with its count; a call is `release(n)`. -/
def semaphore : Primitive ℕ ℕ where
  await count := if count = 0 then none else some (count - 1)
  call n m count := (min n m, count + (n - m))

/-- `tmc::mutex`, with `is_locked()`; the call is `unlock()`, which hands the lock over. -/
def mutex : Primitive Bool Unit where
  await locked := if locked then none else some true
  call _ m _ := (min 1 m, decide (m ≠ 0))

/-- `tmc::latch`, with the count that is left; the call is `count_down()`. -/
def latch : Primitive ℕ Unit where
  await count := if count = 0 then some count else none
  call _ m count := (if count ≤ 1 then m else 0, count - 1)

/-- The calls of an event. -/
inductive Signal
  | set
  | reset

/-- `tmc::manual_reset_event`, with `is_set()`. -/
def manualResetEvent : Primitive Bool Signal where
  await isSet := if isSet then some isSet else none
  call
    | .set, m, _ => (m, true)
    | .reset, _, _ => (0, false)

/-- `tmc::auto_reset_event`, with `is_set()`; `set()` wakes one task, or the next one finds it. -/
def autoResetEvent : Primitive Bool Signal where
  await isSet := if isSet then some false else none
  call
    | .set, m, isSet => (min 1 m, isSet || decide (m = 0))
    | .reset, _, _ => (0, false)

/-- The accesses to a condition variable: `ref()++` and the notifications. -/
inductive Notify
  | increment
  | notifyN (n : ℕ)
  | notifyAll

/-- `tmc::atomic_condvar<int>`, with its value, for tasks in `await(old)`. A notification wakes no
task as long as the value has not changed. -/
def atomicCondvar (old : BitVec 32) : Primitive (BitVec 32) Notify where
  await value := if value = old then none else some value
  call
    | .increment, _, value => (0, value + 1)
    | .notifyN n, m, value => (if value = old then 0 else min n m, value)
    | .notifyAll, m, value => (if value = old then 0 else m, value)

/-! ### Locks -/

/-- A primitive that is used as a lock: the state that it starts in, and the call that gives it
back. -/
structure Lock (σ ω : Type*) where
  prim : Primitive σ ω
  initial : σ
  release : ω

/-- A lock that one task at a time can own. A `co_await` of the free lock goes on, and one of the
lock that is owned does not; the call that gives it back frees it, or wakes one of the tasks that
wait, which then owns it. -/
structure Lock.Exclusive {σ ω : Type*} (L : Lock σ ω) (owned : σ) : Prop where
  await_initial : L.prim.await L.initial = some owned
  await_owned : L.prim.await owned = none
  release_nobody : L.prim.call L.release 0 owned = (0, L.initial)
  release_waiter : ∀ m, L.prim.call L.release (m + 1) owned = (1, owned)

/-- `tmc::mutex mut;` -/
def mutexLock : Lock Bool Unit := ⟨mutex, false, ()⟩

/-- `tmc::semaphore sem(count);` with `release()` -/
def semaphoreLock (count : ℕ) : Lock ℕ ℕ := ⟨semaphore, count, 1⟩

/-- `tmc::auto_reset_event event(1);` with `set()` -/
def autoResetEventLock : Lock Bool Signal := ⟨autoResetEvent, true, .set⟩

/-- `tmc::tiny_mutex mut;`, which is released where its owner suspends. -/
def tinyMutexLock : Lock Bool Unit := ⟨mutex, false, ()⟩

/-- The flag of a mutex lets one task in. -/
theorem mutexLock_exclusive : mutexLock.Exclusive true :=
  ⟨rfl, rfl, rfl, fun m => by simp [mutexLock, mutex]⟩

/-- A semaphore is a lock if and only if its count is one. -/
theorem semaphoreLock_exclusive_iff {count owned : ℕ} :
    (semaphoreLock count).Exclusive owned ↔ count = 1 ∧ owned = 0 := by
  constructor
  · intro h
    have hawait := h.await_initial
    have howned := h.await_owned
    change (if count = 0 then none else some (count - 1)) = some owned at hawait
    change (if owned = 0 then none else some (owned - 1)) = none at howned
    split at hawait
    · cases hawait
    · obtain rfl := Option.some.inj hawait
      split at howned
      · omega
      · cases howned
  · rintro ⟨rfl, rfl⟩
    exact ⟨rfl, rfl, rfl, fun m => by simp [semaphoreLock, semaphore]⟩

/-- An event that starts out set and is reset by whoever it lets in is a lock. -/
theorem autoResetEventLock_exclusive : autoResetEventLock.Exclusive false :=
  ⟨rfl, rfl, rfl, fun m => by simp [autoResetEventLock, autoResetEvent]⟩

theorem tinyMutexLock_exclusive : tinyMutexLock.Exclusive true := mutexLock_exclusive

end Sync

end TmcExamples
