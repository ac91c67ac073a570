import Mathlib.Data.BitVec
import TmcExamples.Locking.Progress
import TmcExamples.Locking.Serial

/-!
# Readers and writers

The tests `access_control` and `stress` of `test_rw_lock.cpp`: of any number of tasks each fourth
one increments two variables under a write lock, first `a` and then `b`, and the others compare
the two under a read lock. Between the increments of a writer the variables differ, but no reader
is there to see it. `access_control` is the case of one iteration.
-/

namespace TmcExamples

namespace LockTests

open Locking (Section)

variable {w : ℕ}

/-- The variables `a` and `b` -/
structure Pair (w : ℕ) where
  a : BitVec w
  b : BitVec w

/-- A task: a register for the value it has loaded last, and its failed expectations. -/
structure Tester (w : ℕ) where
  loaded : BitVec w
  failures : ℕ

/-- `lock_write_scope`, `++A` and `++B` -/
def incrementBoth : Section (Pair w) (Tester w) := .writing
  [fun x => (x.1, { x.2 with loaded := x.1.a }),
    fun x => ({ x.1 with a := x.2.loaded + 1 }, x.2),
    fun x => (x.1, { x.2 with loaded := x.1.b }),
    fun x => ({ x.1 with b := x.2.loaded + 1 }, x.2)]

/-- `lock_read_scope` and `EXPECT_EQ(A, B)` -/
def expectEqual : Section (Pair w) (Tester w) := .reading
  [fun s l => { l with loaded := s.a },
    fun s l => if l.loaded = s.b then l else { l with failures := l.failures + 1 }]

/-- The section of task `i`, a writer if `i % 4 == 0`. -/
def taskSection (i : ℕ) : Section (Pair w) (Tester w) :=
  if i % 4 = 0 then incrementBoth else expectEqual

/-- The test with `n` tasks. -/
abbrev stress (w n iters : ℕ) :
    LTS (Locking.State (Fin n) (Pair w) (Tester w)) (Locking.Action (Fin n)) :=
  Locking.system ⟨0, 0⟩ (fun _ => ⟨0, 0⟩) fun i => List.replicate iters (taskSection i)

/-- The number of writers among `n` tasks. -/
def writers (n : ℕ) : ℕ := (n + 3) / 4

/-- What a section adds to `a` -/
def incremented (c : Section (Pair w) (Tester w)) : BitVec w := if c.access = .write then 1 else 0

private theorem incremented_taskSection (i : ℕ) :
    incremented (taskSection i : Section (Pair w) (Tester w)) = if i % 4 = 0 then 1 else 0 := by
  unfold taskSection
  split <;> rfl

private theorem adds_taskSection (i : ℕ) : (taskSection i : Section (Pair w) (Tester w)).Adds
    (fun s => s.a = s.b) Pair.a (incremented (taskSection i : Section (Pair w) (Tester w))) := by
  rw [incremented_taskSection]
  unfold taskSection
  split
  · exact fun s _ h => ⟨congrArg (· + 1) h, rfl⟩
  · exact fun s l h => ⟨h, (add_zero s.a).symm⟩

/-- No expectation fails from a store in which the variables are equal. -/
private theorem run_taskSection_failures {s : Pair w} (h : s.a = s.b) (i : ℕ) (l : Tester w) :
    ((taskSection i).run (s, l)).2.failures = l.failures := by
  unfold taskSection
  split
  · rfl
  · change (if s.a = s.b then _ else _ : Tester w).failures = l.failures
    rw [if_pos h]

/-- Whole sections keep the variables equal, and their expectations are met. -/
private theorem failures_serial {n iters : ℕ} (order : List (Fin n)) (i : Fin n) :
    ((Locking.serial order (stress w n iters).init).party i).loc.failures = 0 := by
  have hserial := Locking.serial_induct (x := (stress w n iters).init)
    (P := fun s => s.store.a = s.store.b ∧ ∀ i : Fin n,
      (s.party i).loc.failures = 0 ∧ ∀ c ∈ (s.party i).rest, c = taskSection i) ?_ ?_ order
  · exact (hserial.2 i).1
  · exact ⟨rfl, fun i => ⟨rfl, fun c hc => List.eq_of_mem_replicate hc⟩⟩
  · rintro s i c cs ⟨heq, hparty⟩ hrest
    obtain ⟨hfailures, hcode⟩ := hparty i
    rw [hrest] at hcode
    obtain rfl := hcode c List.mem_cons_self
    refine ⟨(adds_taskSection i s.store _ heq).1, ?_⟩
    refine forall_update (P := fun (i : Fin n) (p : Locking.Party (Pair w) (Tester w)) =>
      p.loc.failures = 0 ∧ ∀ c ∈ p.rest, c = taskSection i) hparty ⟨?_, ?_⟩
    · rw [run_taskSection_failures heq i _, hfailures]
    · exact fun c hc => hcode c (List.mem_cons_of_mem _ hc)

private theorem sum_writers (n : ℕ) :
    ∑ i ∈ Finset.range n, (if i % 4 = 0 then 1 else 0) = writers n := by
  induction n with
  | zero => rfl
  | succ n ih =>
    rw [Finset.sum_range_succ, ih, writers, writers]
    split <;> omega

private theorem sum_incremented (n iters : ℕ) :
    ∑ i : Fin n, ((List.replicate iters (taskSection i : Section (Pair w) (Tester w))).map
      incremented).sum = BitVec.ofNat w (writers n * iters) := by
  have hone : ∀ i : Fin n, ((List.replicate iters
      (taskSection i : Section (Pair w) (Tester w))).map incremented).sum =
        iters • (((if (i : ℕ) % 4 = 0 then 1 else 0 : ℕ)) : BitVec w) := by
    intro i
    rw [List.map_replicate, List.sum_replicate, incremented_taskSection, Nat.cast_ite,
      Nat.cast_one, Nat.cast_zero]
  rw [Finset.sum_congr rfl fun i _ => hone i, Finset.sum_nsmul, ← Nat.cast_sum,
    Fin.sum_univ_eq_sum_range fun i => if i % 4 = 0 then 1 else 0, sum_writers, nsmul_eq_mul,
    ← Nat.cast_mul, mul_comm, BitVec.natCast_eq_ofNat]

/-- **Readers and writers.** With any number of tasks and iterations, every run ends with all tasks
done, no reader has ever seen the variables differ, and both count the sections of the writers. -/
theorem readers_see_whole_writes (w n iters : ℕ) :
    (stress w n iters).EndsIn fun s => s.Finished ∧
      (∀ i, (s.party i).loc.failures = 0) ∧
      s.store.a = BitVec.ofNat w (writers n * iters) ∧ s.store.b = s.store.a := by
  refine Locking.endsIn fun s ⟨tr, hrun⟩ hfin => ⟨fun i => ?_, ?_⟩
  · have hserial : s = Locking.serial (Locking.entries tr) (stress w n iters).init :=
      Locking.eq_serial_of_finished hrun hfin
    rw [hserial]
    exact failures_serial _ i
  · have hadds : ∀ i : Fin n, ∀ c ∈ List.replicate iters (taskSection i),
        c.Adds (fun s : Pair w => s.a = s.b) Pair.a (incremented c) := fun i c hc => by
      rw [List.eq_of_mem_replicate hc]
      exact adds_taskSection i
    obtain ⟨heq, htotal⟩ := Locking.total_of_finished hadds rfl hrun hfin
    rw [sum_incremented, zero_add] at htotal
    exact ⟨htotal, heq.symm⟩

/-- The expectation of `stress`, for a number of tasks that four divides. -/
example : writers 64 = 64 / 4 := rfl

end LockTests

end TmcExamples
