import Mathlib.Data.Fintype.EquivFin
import TmcExamples.Barrier.FlipFlop
import TmcExamples.Barrier.Lockstep
import TmcExamples.Transition.Parties

/-!
# The phases of `flip_flop_waiter` never overlap

A round has four phases, one before each `co_await B`. The tasks are in lockstep (`Lockstep`):
a released task counts as being in the next phase already, so all tasks are in the same one.
What a task has last stored in its flag is a function of its program point (`Point.entry`),
and in the phases with a verification loop this is the value that the loop expects, wherever
in the phase the task is.
-/

namespace TmcExamples

namespace Barrier

variable {F : FlipFlop}

/-! ### What a program point tells -/

/-- The number of awaits in a round before the one that follows the store of `value` or the loop
that expects `value`. -/
def awaitsBefore : (value verified : Bool) → ℕ
  | true, false => 0
  | true, true => 1
  | false, false => 2
  | false, true => 3

/-- The number of times the barrier has released the task. -/
def FlipFlop.phase (F : FlipFlop) : Point F.n → ℕ
  | .store i value => 4 * i + awaitsBefore value false
  | .await i value verified | .waiting i value verified => 4 * i + awaitsBefore value verified
  | .released i value verified => 4 * i + awaitsBefore value verified + 1
  | .verify i value _ => 4 * i + awaitsBefore value true
  | .finished => 4 * F.rounds

namespace Point

variable {n : ℕ}

/-- The flag of the task. -/
def entry : Point n → Bool
  | .store _ value => !value
  | .await _ value _ | .waiting _ value _ | .released _ value _ | .verify _ value _ => value
  | .finished => false

/-- The task is in one of the rounds, or has left the loop. -/
def InRounds (rounds : ℕ) : Point n → Prop
  | .store i _ | .await i _ _ | .waiting i _ _ | .released i _ _ | .verify i _ _ => i < rounds
  | .finished => True

end Point

/-- A task awaits the barrier at most three times in a round. -/
theorem awaitsBefore_le (value verified : Bool) : awaitsBefore value verified ≤ 3 := by
  revert value verified
  decide

/-- In a phase with a verification loop a flag has the value that the loop expects. -/
private theorem entry_of_phase {p : Point F.n} {i : ℕ} {value : Bool}
    (h : F.phase p = 4 * i + awaitsBefore value true) : p.entry = value := by
  cases p with
  | store j v => cases v <;> cases value <;> simp only [FlipFlop.phase, awaitsBefore] at h <;> omega
  | await j v b | waiting j v b | released j v b =>
    cases v <;> cases b <;> cases value <;>
      simp only [FlipFlop.phase, awaitsBefore] at h <;> first | rfl | omega
  | verify j v d =>
    cases v <;> cases value <;>
      simp only [FlipFlop.phase, awaitsBefore] at h <;> first | rfl | omega
  | finished => cases value <;> simp only [FlipFlop.phase, awaitsBefore] at h <;> omega

/-- No task is at a store in a phase with a verification loop. -/
private theorem phase_store_ne (i j : ℕ) (v value : Bool) (d : Fin F.n) :
    F.phase (.store j v) ≠ F.phase (.verify i value d) := by
  cases v <;> cases value <;> simp only [FlipFlop.phase, awaitsBefore] <;> omega

/-- Going on behind a barrier is no change of phase. -/
theorem phase_resume {i : ℕ} (hi : i < F.rounds) (value verified : Bool) :
    F.phase (F.resume i value verified) = F.phase (.released i value verified) := by
  match value, verified with
  | true, false | false, false | true, true => rfl
  | false, true =>
    simp only [FlipFlop.resume, FlipFlop.loop]
    split <;> simp only [FlipFlop.phase, awaitsBefore] <;> omega

private theorem inRounds_loop (i : ℕ) : (F.loop i).InRounds F.rounds := by
  unfold FlipFlop.loop
  split
  · assumption
  · trivial

private theorem inRounds_resume {i : ℕ} (hi : i < F.rounds) (value verified : Bool) :
    (F.resume i value verified).InRounds F.rounds := by
  match value, verified with
  | true, false | false, false | true, true => exact hi
  | false, true => exact inRounds_loop (i + 1)

private theorem entry_loop (i : ℕ) : (F.loop i).entry = false := by
  unfold FlipFlop.loop
  split <;> rfl

private theorem entry_resume (i : ℕ) (value verified : Bool) :
    (F.resume i value verified).entry = value := by
  match value, verified with
  | true, false | false, false | true, true => rfl
  | false, true => exact entry_loop (i + 1)

private theorem not_waiting_resume (i : ℕ) (value verified : Bool) :
    ¬ (F.resume i value verified).Waiting := by
  match value, verified with
  | true, false | false, false | true, true => exact id
  | false, true =>
    simp only [FlipFlop.resume, FlipFlop.loop]
    split <;> exact id

/-- A released task has left the phase in which it waited. -/
private theorem phase_release {p : Point F.n} (h : p.Waiting) :
    F.phase p.release = F.phase p + 1 ∧ ¬ p.release.Waiting := by
  cases p with
  | waiting => exact ⟨rfl, id⟩
  | _ => exact h.elim

private theorem inRounds_release {p : Point F.n} (h : p.InRounds F.rounds) :
    p.release.InRounds F.rounds := by
  cases p <;> exact h

private theorem entry_release (p : Point F.n) : p.release.entry = p.entry := by
  cases p <;> rfl

/-- Behind a load the task is still in the same phase of the same round. -/
theorem loaded_cases (i : ℕ) (value : Bool) (d : Fin F.n) :
    (∃ h : d.val + 1 < F.n, F.loaded i value d = .verify i value ⟨d.val + 1, h⟩) ∨
      F.loaded i value d = .await i value true := by
  unfold FlipFlop.loaded
  split
  · rename_i hd
    exact Or.inl ⟨hd, rfl⟩
  · exact Or.inr rfl

/-! ### The invariant -/

/-- The tasks are in lockstep, each flag is what the program point of its task tells, and no
expectation has failed. -/
structure Inv (F : FlipFlop) (s : State F.n) : Prop where
  lockstep : Lockstep F.phase Point.Waiting s.point s.arrived
  inRounds : ∀ t, (s.point t).InRounds F.rounds
  done_eq : ∀ t, s.done (F.doneIdx t) = (s.point t).entry
  failures_eq : s.failures = 0

variable {s s' : State F.n} {a : Action F.n}

/-- Every flag is the flag of some task. -/
private theorem exists_doneIdx (F : FlipFlop) (k : Fin F.n) : ∃ t, F.doneIdx t = k :=
  Finite.injective_iff_surjective.mp F.doneIdx_injective k

/-- While a task is in a verification loop, all flags have the value that the loop expects. -/
theorem Inv.done_of_verify (h : Inv F s) {t : Fin F.n} {i : ℕ} {value : Bool} {d : Fin F.n}
    (ht : s.point t = .verify i value d) (k : Fin F.n) : s.done k = value := by
  obtain ⟨u, rfl⟩ := exists_doneIdx F k
  rw [h.done_eq u]
  refine entry_of_phase (i := i) ?_
  rw [h.lockstep.phase_eq u t, ht]
  rfl

/-- While a task is in a verification loop, no task is at a store. -/
theorem Inv.store_ne_of_verify (h : Inv F s) {t u : Fin F.n} {i j : ℕ} {value v : Bool}
    {d : Fin F.n} (ht : s.point t = .verify i value d) : s.point u ≠ .store j v := by
  intro hu
  have hphase := h.lockstep.phase_eq u t
  rw [hu, ht] at hphase
  exact phase_store_ne i j v value d hphase

/-- A step of one task between two awaits that stores nothing. -/
theorem Inv.move (h : Inv F s) {t : Fin F.n} {x : Point F.n} (ht : ¬ (s.point t).Waiting)
    (hx : ¬ x.Waiting) (hphase : F.phase x = F.phase (s.point t)) (hround : x.InRounds F.rounds)
    (hentry : x.entry = (s.point t).entry) :
    Inv F { s with point := Function.update s.point t x } where
  lockstep := h.lockstep.move ht hphase hx
  inRounds := forall_update (P := fun _ (p : Point F.n) => p.InRounds F.rounds) h.inRounds hround
  done_eq := by
    refine forall_update (P := fun u (p : Point F.n) => s.done (F.doneIdx u) = p.entry) h.done_eq ?_
    rw [h.done_eq t, hentry]
  failures_eq := h.failures_eq

theorem inv_init : Inv F F.system.init where
  lockstep := by
    refine ⟨fun _ _ => rfl, ?_, by rw [Fintype.card_fin]; exact F.n_pos⟩
    refine (Finset.card_eq_zero.mpr ?_).symm
    rw [waiters, Finset.filter_eq_empty_iff]
    intro t _
    simp only [FlipFlop.system, FlipFlop.loop]
    split <;> exact id
  inRounds _ := inRounds_loop 0
  done_eq _ := (entry_loop 0).symm
  failures_eq := rfl

/-- Every step keeps all tasks within one phase of each other. -/
theorem inv_step (h : Inv F s) (hs : Step F s a s') : Inv F s' := by
  cases hs with
  | @store t i value ht =>
    have hphase : F.phase (.await i value false) = F.phase (s.point t) := by rw [ht]; rfl
    have hi := h.inRounds t
    rw [ht] at hi
    refine ⟨h.lockstep.move (by rw [ht]; exact id) hphase id,
      forall_update (P := fun _ (p : Point F.n) => p.InRounds F.rounds) h.inRounds hi, fun u => ?_,
      h.failures_eq⟩
    -- The indexes are distinct, so the flags of the other tasks are left alone.
    dsimp only
    by_cases hu : u = t
    · subst hu
      rw [Function.update_self, Function.update_self]
      rfl
    · rw [Function.update_of_ne hu, Function.update_of_ne (F.doneIdx_injective.ne hu)]
      exact h.done_eq u
  | @arrive t i value verified ht hlt =>
    have hphase : F.phase (.waiting i value verified) = F.phase (s.point t) := by rw [ht]; rfl
    have hi := h.inRounds t
    have hdone := h.done_eq t
    rw [ht] at hi hdone
    exact ⟨h.lockstep.arrive (by rw [ht]; exact id) hphase trivial (by rwa [Fintype.card_fin]),
      forall_update (P := fun _ (p : Point F.n) => p.InRounds F.rounds) h.inRounds hi,
      forall_update (P := fun u (p : Point F.n) => s.done (F.doneIdx u) = p.entry) h.done_eq hdone,
      h.failures_eq⟩
  | @release t i value verified ht hlast =>
    have hphase : F.phase (.waiting i value verified) = F.phase (s.point t) := by rw [ht]; rfl
    have hi := h.inRounds t
    have hdone := h.done_eq t
    rw [ht] at hi hdone
    refine ⟨h.lockstep.release (by rw [ht]; exact id) hphase trivial (by rwa [Fintype.card_fin])
      fun _ => phase_release, fun u => inRounds_release ?_, fun u => ?_, h.failures_eq⟩
    · exact forall_update (P := fun _ (p : Point F.n) => p.InRounds F.rounds)
        (x := Point.waiting i value verified) h.inRounds hi u
    · rw [entry_release]
      exact forall_update (P := fun u (p : Point F.n) => s.done (F.doneIdx u) = p.entry)
        (x := Point.waiting i value verified) h.done_eq hdone u
  | @resume t i value verified ht =>
    have hi := h.inRounds t
    rw [ht] at hi
    refine h.move (by rw [ht]; exact id) (not_waiting_resume i value verified) ?_
      (inRounds_resume hi value verified) ?_
    · rw [ht]
      exact phase_resume hi value verified
    · rw [ht]
      exact entry_resume i value verified
  | @load t i value d ht =>
    have hi := h.inRounds t
    rw [ht] at hi
    -- The load finds what it expects.
    rw [if_pos (h.done_of_verify ht d)]
    rcases loaded_cases i value d with ⟨hd, hload⟩ | hload <;> rw [hload]
    all_goals exact h.move (by rw [ht]; exact id) id (by rw [ht]; rfl) hi (by rw [ht]; rfl)

theorem inv_of_reachable (h : F.system.Reachable s) : Inv F s :=
  h.induct inv_init fun _ _ _ _ hinv hs => inv_step hinv hs

end Barrier

end TmcExamples
