import Mathlib.Algebra.BigOperators.Intervals
import Mathlib.Data.BitVec
import TmcExamples.Locking.Guarded
import TmcExamples.Locking.Serial

/-!
# Counters under a mutex

The tests `access_control` of `test_mutex.cpp`, of `test_semaphore.cpp` and of
`test_auto_reset_event.cpp` and the workers of `test_tiny_mutex.cpp` increment a plain variable
under a lock, from any number of tasks. The lock is the primitive of the test, with the state that
it is constructed in: a semaphore with a count of one, an event that is set. That one task at a
time is inside of it is a theorem.

`++Count` is two steps, a load into a register of the task and a store. A task is the list of
its sections under the lock, and what it does outside of them on its own variables. An `int` is
32 bits wide and wraps.
-/

namespace TmcExamples

namespace LockTests

open Locking (Section)
open Locking.Guarded (Protects)
open Sync (Lock mutexLock semaphoreLock autoResetEventLock tinyMutexLock)

section Increments

variable {w : ℕ}

/-- `++Count`, with a register of the task. -/
def increment : Section (BitVec w) (BitVec w) :=
  .writing [fun x => (x.1, x.1), fun x => (x.2 + 1, x.2)]

/-- The body of `access_control`: `co_await Mut; ++Count; Mut.unlock();` and the same with
`Sem.release()` or with `Event.set()`. -/
def accessControl (w : ℕ) : List (Section (BitVec w) (BitVec w)) := [increment]

/-- `access_control` with `n` tasks, behind a lock. -/
abbrev accessing {κ ω : Type*} (L : Lock κ ω) (w n : ℕ) :
    LTS (Locking.Guarded.State κ (Fin n) (BitVec w) (BitVec w)) (Locking.Guarded.Action (Fin n)) :=
  Locking.Guarded.system L (fun _ => false) 0 (fun _ => 0) fun _ => accessControl w

/-- `relock_worker`: in each iteration one increment before and one behind the second lock. -/
def relockWorker (iterations : ℕ) : List (Section (BitVec 32) (BitVec 32)) :=
  (List.replicate iterations [increment, increment]).flatten

/-- The second `co_await Mut` of an iteration comes without a `co_unlock()` before it. -/
def relocks (rest : List (Section (BitVec 32) (BitVec 32))) : Bool := rest.length % 2 = 1

/-- `relock` with `n` tasks. -/
abbrev relocking (n iterations : ℕ) :
    LTS (Locking.Guarded.State Bool (Fin n) (BitVec 32) (BitVec 32))
      (Locking.Guarded.Action (Fin n)) :=
  Locking.Guarded.system tinyMutexLock relocks 0 (fun _ => 0) fun _ => relockWorker iterations

private theorem adds_increment :
    (increment : Section (BitVec w) (BitVec w)).Adds (fun _ => True) id 1 :=
  fun _ _ _ => ⟨trivial, rfl⟩

/-- Tasks that only increment the counter, each in a section of its own, leave
it at the number of the sections. -/
private theorem counter_eq {n : ℕ} {code : List (Section (BitVec w) (BitVec w))}
    (hcode : ∀ c ∈ code, c = increment) {s : Locking.State (Fin n) (BitVec w) (BitVec w)}
    (hr : (Locking.system 0 (fun _ => 0) fun _ => code).Reachable s) (hfin : s.Finished) :
    s.store = BitVec.ofNat w (n * code.length) := by
  obtain ⟨tr, hrun⟩ := hr
  have hadds : ∀ _t : Fin n, ∀ c ∈ code, c.Adds (fun _ => True) id 1 := fun _ c hc => by
    rw [hcode c hc]
    exact adds_increment
  obtain ⟨-, htotal⟩ := Locking.total_of_finished hadds trivial hrun hfin
  rw [List.map_const', List.sum_replicate, nsmul_one, Finset.sum_const, Finset.card_univ,
    Fintype.card_fin, nsmul_eq_mul, ← Nat.cast_mul, BitVec.natCast_eq_ofNat] at htotal
  rw [← zero_add (BitVec.ofNat w _)]
  exact htotal

private theorem accessControl_eq {n : ℕ} {s : Locking.State (Fin n) (BitVec w) (BitVec w)}
    (hr : (Locking.system 0 (fun _ => 0) fun _ => accessControl w).Reachable s)
    (hfin : s.Finished) : s.store = BitVec.ofNat w n := by
  have hcount := counter_eq (fun c hc => List.mem_singleton.mp hc) hr hfin
  rwa [List.length_singleton, mul_one] at hcount

private theorem eq_increment_of_mem_relockWorker {iterations : ℕ}
    {c : Section (BitVec 32) (BitVec 32)} (hc : c ∈ relockWorker iterations) : c = increment := by
  obtain ⟨_, hmem, hc⟩ := List.mem_flatten.mp hc
  obtain rfl := List.eq_of_mem_replicate hmem
  exact List.eq_of_mem_replicate (n := 2) hc

private theorem length_relockWorker (iterations : ℕ) :
    (relockWorker iterations).length = 2 * iterations := by
  induction iterations with
  | zero => rfl
  | succ m ih =>
    rw [relockWorker, List.replicate_succ, List.flatten_cons, List.length_append]
    change 2 + (relockWorker m).length = _
    rw [ih]
    omega

end Increments

/-! ### The test `mutual_exclusion` -/

section Exclusion

/-- What the workers of `mutual_exclusion` share, with the number of failed expectations. -/
structure Shared where
  counter : BitVec 32
  inCs : BitVec 32
  failures : ℕ

/-- The critical section of `excl_worker`. `InCs` is atomic, so its updates are one step each. -/
def criticalSection : Section Shared (BitVec 32) := .writing
  [fun x => ({ x.1 with
      inCs := x.1.inCs + 1
      failures := if x.1.inCs = 0 then x.1.failures else x.1.failures + 1 }, x.2),
    fun x => (x.1, x.1.counter),
    fun x => ({ x.1 with counter := x.2 + 1 }, x.2),
    fun x => ({ x.1 with inCs := x.1.inCs - 1 }, x.2)]

/-- `excl_worker` -/
def exclWorker (iterations : ℕ) : List (Section Shared (BitVec 32)) :=
  List.replicate iterations criticalSection

/-- `mutual_exclusion` with `n` tasks. -/
abbrev exclusion (n iterations : ℕ) :
    LTS (Locking.Guarded.State Bool (Fin n) Shared (BitVec 32))
      (Locking.Guarded.Action (Fin n)) :=
  Locking.Guarded.system tinyMutexLock (fun _ => false) ⟨0, 0, 0⟩ (fun _ => 0) fun _ =>
    exclWorker iterations

private theorem adds_criticalSection :
    criticalSection.Adds (fun s => s.inCs = 0 ∧ s.failures = 0) Shared.counter 1 := by
  rintro ⟨counter, inCs, failures⟩ l ⟨rfl, rfl⟩
  have hinCs : (0 + 1 - 1 : BitVec 32) = 0 := by decide
  exact ⟨⟨hinCs, rfl⟩, rfl⟩

private theorem exclusion_counter_eq {n iterations : ℕ}
    {s : Locking.State (Fin n) Shared (BitVec 32)}
    (hr : (Locking.system ⟨0, 0, 0⟩ (fun _ => 0) fun _ => exclWorker iterations).Reachable s)
    (hfin : s.Finished) :
    s.store.counter = BitVec.ofNat 32 (n * iterations) ∧ s.store.failures = 0 := by
  obtain ⟨tr, hrun⟩ := hr
  have hadds : ∀ _t : Fin n, ∀ c ∈ exclWorker iterations,
      c.Adds (fun s => s.inCs = 0 ∧ s.failures = 0) Shared.counter 1 := fun _ c hc => by
    rw [List.eq_of_mem_replicate hc]
    exact adds_criticalSection
  obtain ⟨⟨-, hfailures⟩, htotal⟩ := Locking.total_of_finished hadds ⟨rfl, rfl⟩ hrun hfin
  rw [exclWorker, List.map_const', List.length_replicate, List.sum_replicate, nsmul_one,
    Finset.sum_const, Finset.card_univ, Fintype.card_fin, nsmul_eq_mul, zero_add,
    ← Nat.cast_mul, BitVec.natCast_eq_ofNat] at htotal
  exact ⟨htotal, hfailures⟩

/-- **Increments under a lock.** With any number of tasks and iterations, in `access_control` with
each of the primitives, in `relock` and in `mutual_exclusion`, one task at a time is inside a
section; every run ends with all tasks done, the lock free and all increments counted, and no
worker has met another one in its critical section. -/
theorem increments_are_counted (w n iterations : ℕ) :
    Protects (accessing mutexLock w n) mutexLock (fun s => s.store = BitVec.ofNat w n) ∧
      Protects (accessing (semaphoreLock 1) w n) (semaphoreLock 1)
        (fun s => s.store = BitVec.ofNat w n) ∧
      Protects (accessing autoResetEventLock w n) autoResetEventLock
        (fun s => s.store = BitVec.ofNat w n) ∧
      Protects (relocking n iterations) tinyMutexLock
        (fun s => s.store = BitVec.ofNat 32 (n * (2 * iterations))) ∧
      Protects (exclusion n iterations) tinyMutexLock fun s =>
        s.store.counter = BitVec.ofNat 32 (n * iterations) ∧ s.store.failures = 0 := by
  refine ⟨?_, ?_, ?_, ?_, ?_⟩
  · exact Locking.Guarded.protects Sync.mutexLock_exclusive fun _ => accessControl_eq
  · have hexclusive := Sync.semaphoreLock_exclusive_iff.mpr ⟨rfl, rfl⟩
    exact Locking.Guarded.protects hexclusive fun _ => accessControl_eq
  · exact Locking.Guarded.protects Sync.autoResetEventLock_exclusive fun _ => accessControl_eq
  · refine Locking.Guarded.protects Sync.tinyMutexLock_exclusive fun s hr hfin => ?_
    rw [counter_eq (fun c hc => eq_increment_of_mem_relockWorker hc) hr hfin, length_relockWorker]
  · exact Locking.Guarded.protects Sync.tinyMutexLock_exclusive fun _ => exclusion_counter_eq

/-- With a count of two, two tasks are inside at once. -/
example : ∃ s, (accessing (semaphoreLock 2) 64 2).Reachable s ∧ s.Inside 0 ∧ s.Inside 1 := by
  have hnone : ∀ p : Fin 2, p ∉ (∅ : Finset (Fin 2)) := fun p => Finset.notMem_empty p
  have hfirst := (LTS.Reachable.init (T := accessing (semaphoreLock 2) 64 2)).step
    (Locking.Guarded.Step.acquire (q := 1)
      (show Locking.Guarded.State.At _ (0 : Fin 2) increment [] from
        ⟨rfl, rfl, hnone 0, hnone 0⟩) nofun rfl)
  have hsecond := hfirst.step (Locking.Guarded.Step.acquire (q := 0)
    (show Locking.Guarded.State.At _ (1 : Fin 2) increment [] from
      ⟨rfl, rfl, hnone 1, hnone 1⟩) nofun rfl)
  exact ⟨_, hsecond, ⟨increment, rfl, nofun⟩, ⟨increment, rfl, nofun⟩⟩

end Exclusion

/-! ### The test `co_unlock_return_contended` -/

section Values

/-- A `value_worker`: its local `v`, the values that `locked_return_lvalue` has returned to it, and
what it has added to `Sum`. -/
structure Worker where
  v : BitVec 32
  returned : List (BitVec 32)
  added : BitVec 32

/-- `locked_return_lvalue`: `int v = ++Counter;` and `co_unlock_return(v)`. -/
def lockedReturn : Section (BitVec 32) Worker := .writing
  [fun x => (x.1, { x.2 with v := x.1 }),
    fun x => (x.2.v + 1, { x.2 with v := x.2.v + 1 }),
    fun x => (x.1, { x.2 with returned := x.2.returned ++ [x.2.v] })]

/-- `Sum.fetch_add(v)`, outside of the lock. -/
def fetchAdd : Section (BitVec 32) Worker := .locally [fun l => { l with added := l.added + l.v }]

/-- `value_worker` -/
def valueWorker (iterations : ℕ) : List (Section (BitVec 32) Worker) :=
  (List.replicate iterations [lockedReturn, fetchAdd]).flatten

/-- `co_unlock_return_contended` with `n` tasks. -/
abbrev returning (n iterations : ℕ) :
    LTS (Locking.Guarded.State Bool (Fin n) (BitVec 32) Worker)
      (Locking.Guarded.Action (Fin n)) :=
  Locking.Guarded.system tinyMutexLock (fun _ => false) 0 (fun _ => ⟨0, [], 0⟩) fun _ =>
    valueWorker iterations

/-- `Sum`: the updates of an atomic variable commute, so that it is what each task has added. -/
def sum {n : ℕ} (s : Locking.State (Fin n) (BitVec 32) Worker) : BitVec 32 :=
  ∑ t, (s.party t).loc.added

/-- The values `1, ..., k` -/
def valuesTo (k : ℕ) : Multiset (BitVec 32) :=
  (Multiset.range k).map fun i => BitVec.ofNat 32 (i + 1)

/-- A task between two sections: it has added all values that were returned to it, or all but the
one that it is about to add. -/
def Between (iterations : ℕ) (p : Locking.Party (BitVec 32) Worker) : Prop :=
  ∃ m, p.loc.returned.length + m = iterations ∧
    (p.rest = valueWorker m ∧ p.loc.added = p.loc.returned.sum ∨
      p.rest = fetchAdd :: valueWorker m ∧ p.loc.added + p.loc.v = p.loc.returned.sum)

/-- Between two sections the values returned so far are those from one to the counter. -/
structure ValuesInv {n : ℕ} (iterations : ℕ) (s : Locking.State (Fin n) (BitVec 32) Worker)
    (k : ℕ) : Prop where
  counter : s.store = BitVec.ofNat 32 k
  returned : ∑ t, ((s.party t).loc.returned : Multiset (BitVec 32)) = valuesTo k
  between : ∀ t, Between iterations (s.party t)

private theorem valuesTo_succ (k : ℕ) :
    valuesTo (k + 1) = valuesTo k + {BitVec.ofNat 32 (k + 1)} := by
  rw [valuesTo, Multiset.range_succ, Multiset.map_cons, ← Multiset.singleton_add, add_comm]
  rfl

private theorem card_valuesTo (k : ℕ) : (valuesTo k).card = k := by
  rw [valuesTo, Multiset.card_map, Multiset.card_range]

private theorem sum_valuesTo (k : ℕ) : (valuesTo k).sum = BitVec.ofNat 32 (k * (k + 1) / 2) := by
  induction k with
  | zero => rfl
  | succ k ih =>
    have htriangle : (k + 1) * (k + 2) / 2 = k * (k + 1) / 2 + (k + 1) := by
      have h := Nat.triangle_succ (k + 1)
      rwa [Nat.add_sub_cancel, Nat.add_sub_cancel, mul_comm, mul_comm (k + 1) k] at h
    rw [valuesTo_succ, Multiset.sum_add, Multiset.sum_singleton, ih, htriangle,
      ← BitVec.ofNat_add]

private theorem valueWorker_succ (m : ℕ) :
    valueWorker (m + 1) = lockedReturn :: fetchAdd :: valueWorker m := rfl

private theorem valuesInv_step {n iterations k : ℕ} {s : Locking.State (Fin n) (BitVec 32) Worker}
    {t : Fin n} {c : Section (BitVec 32) Worker} {cs : List (Section (BitVec 32) Worker)}
    (h : ValuesInv iterations s k) (hrest : (s.party t).rest = c :: cs) :
    ∃ k, ValuesInv iterations
      { store := (c.run (s.store, (s.party t).loc)).1
        party := Function.update s.party t
          ⟨(c.run (s.store, (s.party t).loc)).2, none, cs⟩ } k := by
  have hsum := fun x => sum_update_add (Finset.mem_univ t) s.party x
    fun p => (p.loc.returned : Multiset (BitVec 32))
  obtain ⟨m, hm, ⟨hcode, hadded⟩ | ⟨hcode, hadded⟩⟩ := h.between t
  · cases m with
    | zero => rw [hcode] at hrest; cases hrest
    | succ m =>
      -- `locked_return_lvalue`: the new value is the next one.
      rw [hcode, valueWorker_succ] at hrest
      obtain ⟨rfl, rfl⟩ := List.cons.inj hrest
      have hnext : s.store + 1 = BitVec.ofNat 32 (k + 1) := by
        rw [h.counter, BitVec.ofNat_add]
        rfl
      refine ⟨k + 1, hnext, ?_, forall_update h.between ⟨m, ?_, .inr ⟨rfl, ?_⟩⟩⟩
      · have hnew := hsum ⟨(lockedReturn.run (s.store, (s.party t).loc)).2, none,
          fetchAdd :: valueWorker m⟩
        change _ = _ + (((s.party t).loc.returned ++ [s.store + 1] : List (BitVec 32)) :
          Multiset (BitVec 32)) at hnew
        rw [h.returned, ← Multiset.coe_add, ← add_assoc, add_right_comm] at hnew
        rw [valuesTo_succ, add_right_cancel hnew, hnext]
        rfl
      · change ((s.party t).loc.returned ++ [s.store + 1]).length + m = iterations
        rw [List.length_append, List.length_singleton, add_assoc, add_comm 1 m]
        exact hm
      · change (s.party t).loc.added + (s.store + 1) =
          ((s.party t).loc.returned ++ [s.store + 1]).sum
        rw [List.sum_append, List.sum_singleton, hadded]
  · -- `Sum.fetch_add(v)`: the value that was returned last has been added as well.
    rw [hcode] at hrest
    obtain ⟨rfl, rfl⟩ := List.cons.inj hrest
    refine ⟨k, h.counter, ?_, forall_update h.between ⟨m, hm, .inl ⟨rfl, hadded⟩⟩⟩
    have hnew := hsum ⟨(fetchAdd.run (s.store, (s.party t).loc)).2, none, valueWorker m⟩
    rw [add_right_cancel hnew, h.returned]

private theorem valuesInv_serial {n iterations : ℕ} (order : List (Fin n)) :
    ∃ k, ValuesInv iterations (Locking.serial order
      (Locking.start 0 (fun _ => ⟨0, [], 0⟩) fun _ => valueWorker iterations)) k := by
  refine Locking.serial_induct (P := fun s => ∃ k, ValuesInv iterations s k) ?_ ?_ order
  · refine ⟨0, rfl, ?_, fun _ => ⟨iterations, Nat.zero_add _, .inl ⟨rfl, rfl⟩⟩⟩
    exact Finset.sum_eq_zero fun _ _ => rfl
  · rintro s t c cs ⟨k, h⟩ hrest
    exact valuesInv_step h hrest

/-- A task that has come to its end has added all values that were returned to it. -/
theorem Between.finished {iterations : ℕ} {p : Locking.Party (BitVec 32) Worker}
    (h : Between iterations p) (hrest : p.rest = []) :
    p.loc.returned.length = iterations ∧ p.loc.added = p.loc.returned.sum := by
  obtain ⟨m, hm, ⟨hcode, hadded⟩ | ⟨hcode, -⟩⟩ := h
  · cases m with
    | zero => exact ⟨hm, hadded⟩
    | succ m => rw [hcode] at hrest; cases hrest
  · rw [hcode] at hrest
    cases hrest

private theorem returned_eq {n iterations : ℕ} {s : Locking.State (Fin n) (BitVec 32) Worker}
    (hr : (Locking.system 0 (fun _ => ⟨0, [], 0⟩) fun _ => valueWorker iterations).Reachable s)
    (hfin : s.Finished) :
    s.store = BitVec.ofNat 32 (n * iterations) ∧
      ∑ t, ((s.party t).loc.returned : Multiset (BitVec 32)) = valuesTo (n * iterations) ∧
      sum s = BitVec.ofNat 32 (n * iterations * (n * iterations + 1) / 2) := by
  obtain ⟨tr, hrun⟩ := hr
  have hserial := Locking.eq_serial_of_finished hrun hfin
  obtain ⟨k, hinv⟩ : ∃ k, ValuesInv iterations s k := hserial ▸ valuesInv_serial _
  have hend := fun t => (hinv.between t).finished (hfin t).2
  obtain rfl : n * iterations = k := by
    have hcard := congrArg Multiset.card hinv.returned
    rw [Multiset.card_sum, card_valuesTo] at hcard
    simpa [hend] using hcard
  refine ⟨hinv.counter, hinv.returned, ?_⟩
  rw [sum, Finset.sum_congr rfl fun t _ => (hend t).2, ← sum_valuesTo, ← hinv.returned,
    Multiset.sum_sum]
  rfl

/-- **Values that the lock returns.** With any number of tasks and iterations, one
`locked_return_lvalue` at a time is inside of the lock, and every run of the `value_worker`s ends
with the counter at the number `N` of the calls; the values returned are `1, ..., N`, each to one
caller, and `Sum` is `N * (N + 1) / 2`. -/
theorem values_are_returned_once (n iterations : ℕ) :
    Protects (returning n iterations) tinyMutexLock fun s =>
      s.store = BitVec.ofNat 32 (n * iterations) ∧
      ∑ t, ((s.party t).loc.returned : Multiset (BitVec 32)) = valuesTo (n * iterations) ∧
      sum s = BitVec.ofNat 32 (n * iterations * (n * iterations + 1) / 2) :=
  Locking.Guarded.protects Sync.tinyMutexLock_exclusive fun _ => returned_eq

end Values

end LockTests

end TmcExamples
