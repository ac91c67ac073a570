import Mathlib.Algebra.Order.BigOperators.Group.Finset
import TmcExamples.Barrier.Phases

/-!
# All tasks of `flip_flop_waiter` complete

The rank of a task is what is left of its phases, and within the phase the way to the barrier.
A waiting task is at the end of its way; its release starts the next phase, so the release
decreases the rank of every task at once. A state in which no task has a step left is one in which
all tasks have finished: as the tasks are in lockstep and not all of them wait, one that is
behind the barrier is finished, and then so are the others.
-/

namespace TmcExamples

namespace Barrier

variable {F : FlipFlop} {s s' : State F.n} {a : Action F.n}

/-! ### The rank -/

/-- How far a task is from waiting in the barrier, within one phase. -/
def Point.toBarrier {n : ℕ} : Point n → ℕ
  | .released .. => n + 4
  | .store .. => n + 3
  | .verify _ _ d => n - d + 2
  | .await .. => 1
  | .waiting .. => 0
  | .finished => 0

/-- How far a task is from its end. -/
def FlipFlop.rank (F : FlipFlop) (p : Point F.n) : ℕ :=
  (4 * F.rounds - F.phase p) * (F.n + 5) + p.toBarrier

/-- The rank of a state. -/
def State.rank (s : State F.n) : ℕ := ∑ t, F.rank (s.point t)

/-- A step within a phase decreases the rank of the task. -/
private theorem rank_lt_of_phase {x p : Point F.n} (hphase : F.phase x = F.phase p)
    (h : x.toBarrier < p.toBarrier) : F.rank x < F.rank p := by
  rw [FlipFlop.rank, FlipFlop.rank, hphase]
  omega

/-- A release decreases the rank of the task. -/
private theorem rank_release {i : ℕ} (hi : i < F.rounds) (value verified : Bool) :
    F.rank (.released i value verified) < F.rank (.waiting i value verified) := by
  have hle := awaitsBefore_le value verified
  simp only [FlipFlop.rank, FlipFlop.phase, Point.toBarrier]
  obtain ⟨k, hk⟩ : ∃ k, 4 * F.rounds - (4 * i + awaitsBefore value verified) = k + 1 :=
    ⟨4 * F.rounds - (4 * i + awaitsBefore value verified) - 1, by omega⟩
  have hk' : 4 * F.rounds - (4 * i + awaitsBefore value verified + 1) = k := by omega
  rw [hk, hk', Nat.add_mul, Nat.one_mul]
  omega

private theorem rank_update_lt {t : Fin F.n} {x : Point F.n} (h : F.rank x < F.rank (s.point t)) :
    ∑ u, F.rank (Function.update s.point t x u) < s.rank := by
  have hsum := sum_update_add (Finset.mem_univ t) s.point x F.rank
  rw [State.rank]
  omega

/-- **Every step decreases the rank.** -/
theorem rank_step (h : Inv F s) (hs : Step F s a s') : s'.rank < s.rank := by
  cases hs with
  | store ht | arrive ht hlt =>
    refine rank_update_lt (rank_lt_of_phase ?_ ?_) <;> rw [ht]
    · rfl
    · simp only [Point.toBarrier]
      omega
  | @release t i value verified ht hlast =>
    have hwait : ∀ u, (Function.update s.point t (.waiting i value verified) u).Waiting :=
      h.lockstep.waiting_of_last (by rw [ht]; exact id) trivial (by rwa [Fintype.card_fin])
    refine Finset.sum_lt_sum_of_nonempty ⟨t, Finset.mem_univ t⟩ fun u _ => ?_
    dsimp only
    have hround := h.inRounds u
    by_cases hu : u = t
    · subst hu
      rw [ht] at hround
      rw [Function.update_self, ht]
      exact (rank_release hround value verified).trans (rank_lt_of_phase rfl Nat.zero_lt_one)
    · have hu' := hwait u
      rw [Function.update_of_ne hu] at hu' ⊢
      cases hp : s.point u with
      | waiting j v b =>
        rw [hp] at hround
        exact rank_release hround v b
      | _ =>
        rw [hp] at hu'
        exact hu'.elim
  | @resume t i value verified ht =>
    have hround := h.inRounds t
    rw [ht] at hround
    refine rank_update_lt (rank_lt_of_phase ?_ ?_) <;> rw [ht]
    · exact phase_resume hround value verified
    · match value, verified with
      | true, false | false, false | true, true =>
        simp only [FlipFlop.resume, Point.toBarrier]
        omega
      | false, true =>
        simp only [FlipFlop.resume, FlipFlop.loop]
        split <;> simp only [Point.toBarrier] <;> omega
  | @load t i value d ht =>
    rcases loaded_cases i value d with ⟨hd, hload⟩ | hload
    all_goals
      refine rank_update_lt (rank_lt_of_phase ?_ ?_) <;> rw [ht, hload]
      · rfl
      · simp only [Point.toBarrier]
        omega

/-- Each task has finitely many awaits left, so every run ends. -/
theorem system_terminating (F : FlipFlop) : F.system.Terminating :=
  LTS.terminating_of_rank State.rank fun _ _ _ hr hs => rank_step (inv_of_reachable hr) hs

/-! ### Progress -/

/-- A task that neither waits nor is finished has a step. -/
private theorem enabled_of_point (h : Inv F s) {t : Fin F.n} (hwait : ¬ (s.point t).Waiting)
    (hfin : s.point t ≠ .finished) : F.system.Enabled s := by
  cases ht : s.point t with
  | store i value => exact ⟨_, _, Step.store ht⟩
  | await i value verified =>
    have hlt := h.lockstep.arrived_lt
    rw [Fintype.card_fin] at hlt
    rcases Nat.lt_or_ge (s.arrived + 1) F.n with hlt' | hge
    · exact ⟨_, _, Step.arrive ht hlt'⟩
    · exact ⟨_, _, Step.release ht (by omega)⟩
  | waiting i value verified =>
    rw [ht] at hwait
    exact (hwait trivial).elim
  | released i value verified => exact ⟨_, _, Step.resume ht⟩
  | verify i value d => exact ⟨_, _, Step.load ht⟩
  | finished => exact (hfin ht).elim

/-- A task in the phase behind the last barrier does not wait any more. -/
private theorem not_waiting_of_phase {p : Point F.n} (hround : p.InRounds F.rounds)
    (h : F.phase p = 4 * F.rounds) : ¬ p.Waiting := by
  intro hwait
  cases p with
  | waiting i value verified =>
    have hle := awaitsBefore_le value verified
    have hi : i < F.rounds := hround
    simp only [FlipFlop.phase] at h
    omega
  | _ => exact hwait.elim

/-- **No deadlock.** Where no step is left, all tasks have finished. -/
theorem finished_of_not_enabled (h : Inv F s) (hend : ¬ F.system.Enabled s) (u : Fin F.n) :
    s.point u = .finished := by
  obtain ⟨t, ht⟩ := h.lockstep.exists_not_waiting
  have hfin : s.point t = .finished := by
    by_contra hne
    exact hend (enabled_of_point h ht hne)
  by_contra hne
  refine hend (enabled_of_point h (not_waiting_of_phase (h.inRounds u) ?_) hne)
  rw [h.lockstep.phase_eq u t, hfin]
  rfl

/-! ### The test -/

/-- **The phases never overlap.** For any number of tasks and of rounds: while a task verifies,
all flags have the value that its loop expects, and no task stores to its flag; no expectation
fails; and the tasks all finish. -/
theorem flip_flop_phases (F : FlipFlop) :
    (∀ s, F.system.Reachable s →
      (∀ t i value d, s.point t = .verify i value d → ∀ k, s.done k = value) ∧
      ((∃ t, (s.point t).Verifying) → ∀ u s', ¬ F.system.step s (.store u) s') ∧
      s.failures = 0) ∧
    F.system.Terminating ∧
    ∀ s, F.system.Reachable s → ¬ F.system.Enabled s → ∀ t, s.point t = .finished := by
  refine ⟨fun s hr => ?_, system_terminating F, fun s hr hend =>
    finished_of_not_enabled (inv_of_reachable hr) hend⟩
  have h := inv_of_reachable hr
  refine ⟨fun t i value d ht => h.done_of_verify ht, ?_, h.failures_eq⟩
  rintro ⟨t, ht⟩ u s' hs
  cases hp : s.point t with
  | verify i value d =>
    cases hs with
    | store hu => exact h.store_ne_of_verify hp hu
  | _ =>
    rw [hp] at ht
    exact ht

end Barrier

end TmcExamples
