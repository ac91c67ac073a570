import Mathlib.Algebra.Order.BigOperators.Group.Finset
import TmcExamples.Barrier.Lockstep
import TmcExamples.Transition.System

/-!
# `waiter` of `test_barrier.cpp`

The tests `once` and `auto_reset` start as many tasks as the barrier counts, join them, and do so
again on the same barrier, with cleared flags. A task sets its flag, awaits the barrier and
then expects all flags to be set. The barrier is that of `flip_flop_waiter`: the last arrival
releases all tasks, itself included, and resets the count.

In each round the tasks are in lockstep (`Lockstep`), with one phase before the barrier and one
behind it.
-/

namespace TmcExamples

namespace AutoReset

/-- A test with `n` tasks: `once` makes one round, `auto_reset` two. -/
structure Test where
  n : ℕ
  n_pos : 0 < n
  rounds : ℕ

/-- The program points of `waiter`. In the verification loop it loads the flag `d` next. -/
inductive Point (n : ℕ)
  | store
  | await
  | waiting
  | released
  | verify (d : Fin n)
  | finished
  deriving DecidableEq

/-- The program points of the test, in the given round. -/
inductive Main
  | spawn (round : ℕ)
  | join (round : ℕ)
  | returned
  deriving DecidableEq

namespace Point

variable {n : ℕ}

/-- The task is suspended in the barrier. -/
def Waiting : Point n → Prop
  | .waiting => True
  | _ => False

instance : DecidablePred (Waiting (n := n)) := fun p => by
  cases p <;> unfold Waiting <;> infer_instance

/-- A waiting task that the barrier releases. -/
def release : Point n → Point n
  | .waiting => .released
  | p => p

/-- How often the barrier has released the task. -/
def phase : Point n → ℕ
  | .store | .await | .waiting => 0
  | .released | .verify _ | .finished => 1

private theorem phase_release {p : Point n} (h : p.Waiting) :
    p.release.phase = p.phase + 1 ∧ ¬ p.release.Waiting := by
  cases p with
  | waiting => exact ⟨rfl, id⟩
  | _ => exact h.elim

end Point

/-- The point behind the load of flag `d`. -/
def Test.loaded (T : Test) (d : Fin T.n) : Point T.n :=
  if h : d.val + 1 < T.n then .verify ⟨d.val + 1, h⟩ else .finished

/-- The test and its tasks, `dones`, the count of the barrier and the number of failed
expectations. -/
structure State (n : ℕ) where
  main : Main
  point : Fin n → Point n
  done : Fin n → Bool
  arrived : ℕ
  failures : ℕ

/-- The steps of the test and those of task `t`; `release` is the arrival of the last task. -/
inductive Action (n : ℕ)
  | spawn
  | join
  | return
  | store (t : Fin n)
  | arrive (t : Fin n)
  | release (t : Fin n)
  | resume (t : Fin n)
  | load (t : Fin n)

/-- The steps of the test. -/
inductive Step (T : Test) : State T.n → Action T.n → State T.n → Prop
  | spawn {s : State T.n} {r : ℕ} (h : s.main = .spawn r) (hr : r < T.rounds) :
      Step T s .spawn { s with main := .join r, point := fun _ => .store, done := fun _ => false }
  | join {s : State T.n} {r : ℕ} (h : s.main = .join r)
      (hfinished : ∀ t, s.point t = .finished) :
      Step T s .join { s with main := .spawn (r + 1) }
  | return {s : State T.n} {r : ℕ} (h : s.main = .spawn r) (hr : ¬ r < T.rounds) :
      Step T s .return { s with main := .returned }
  | store {s : State T.n} {t : Fin T.n} (h : s.point t = .store) :
      Step T s (.store t)
        { s with
          point := Function.update s.point t .await
          done := Function.update s.done t true }
  | arrive {s : State T.n} {t : Fin T.n} (h : s.point t = .await) (hlt : s.arrived + 1 < T.n) :
      Step T s (.arrive t)
        { s with point := Function.update s.point t .waiting, arrived := s.arrived + 1 }
  | release {s : State T.n} {t : Fin T.n} (h : s.point t = .await) (hlast : s.arrived + 1 = T.n) :
      Step T s (.release t)
        { s with point := fun u => (Function.update s.point t .waiting u).release, arrived := 0 }
  | resume {s : State T.n} {t : Fin T.n} (h : s.point t = .released) :
      Step T s (.resume t) { s with point := Function.update s.point t (.verify ⟨0, T.n_pos⟩) }
  | load {s : State T.n} {t d : Fin T.n} (h : s.point t = .verify d) :
      Step T s (.load t)
        { s with
          point := Function.update s.point t (T.loaded d)
          failures := if s.done d = true then s.failures else s.failures + 1 }

/-- The test. Before the first round there are no tasks. -/
def Test.system (T : Test) : LTS (State T.n) (Action T.n) where
  init := ⟨.spawn 0, fun _ => .finished, fun _ => false, 0, 0⟩
  step := Step T

/-! ### The invariant -/

variable {T : Test} {s s' : State T.n} {a : Action T.n}

/-- The test is not in `co_await tmc::spawn_many(tasks)`. -/
def Main.Alone : Main → Prop
  | .join _ => False
  | _ => True

/-- The tasks are in lockstep, those that are behind their store have their flag set, and no
expectation has failed. Outside of the rounds there is no task. -/
structure Inv (s : State T.n) : Prop where
  lockstep : Lockstep Point.phase Point.Waiting s.point s.arrived
  done : ¬ s.main.Alone → ∀ t, s.point t ≠ .store → s.done t = true
  finished : s.main.Alone → ∀ t, s.point t = .finished
  failures : s.failures = 0

/-- Tasks that are all at the same point are in lockstep. -/
private theorem lockstep_const (T : Test) {p : Point T.n} (hp : ¬ p.Waiting) :
    Lockstep Point.phase Point.Waiting (fun _ : Fin T.n => p) 0 where
  phase_eq _ _ := rfl
  arrived_eq := by
    symm
    rw [Finset.card_eq_zero, waiters, Finset.filter_eq_empty_iff]
    exact fun _ _ => hp
  arrived_lt := by
    rw [Fintype.card_fin]
    exact T.n_pos

theorem inv_init (T : Test) : Inv T.system.init where
  lockstep := lockstep_const T id
  done h := (h trivial).elim
  finished _ _ := rfl
  failures := rfl

/-- When all tasks have finished, the count of the barrier has been reset. -/
private theorem Inv.arrived_eq_zero (h : Inv s) (hfinished : ∀ t, s.point t = .finished) :
    s.arrived = 0 := by
  rw [h.lockstep.arrived_eq, Finset.card_eq_zero, waiters, Finset.filter_eq_empty_iff]
  intro t _
  rw [hfinished t]
  exact id

/-- A task that has not finished is one of the present round. -/
private theorem Inv.not_alone (h : Inv s) {t : Fin T.n} (ht : s.point t ≠ .finished) :
    ¬ s.main.Alone :=
  fun hm => ht (h.finished hm t)

/-- **The flags behind the barrier.** While a task verifies, all flags are set. -/
theorem Inv.done_of_verify (h : Inv s) {t d : Fin T.n} (ht : s.point t = .verify d)
    (k : Fin T.n) : s.done k = true := by
  refine h.done (h.not_alone (t := t) fun he => by rw [ht] at he; cases he) k fun hk => ?_
  have hphase := h.lockstep.phase_eq t k
  rw [ht, hk] at hphase
  cases hphase

/-- A step of a task in a round that sets no flag. -/
theorem Inv.move (h : Inv s) {t : Fin T.n} {x : Point T.n} (ht : ¬ (s.point t).Waiting)
    (hx : ¬ x.Waiting) (hphase : x.phase = (s.point t).phase) (hstore : s.point t ≠ .store)
    (hfinished : s.point t ≠ .finished) :
    Inv { s with point := Function.update s.point t x } where
  lockstep := h.lockstep.move ht hphase hx
  done hm u hu := by
    by_cases hut : u = t
    · exact hut ▸ h.done hm t hstore
    · exact h.done hm u fun he => hu ((Function.update_of_ne hut x s.point).trans he)
  finished hm := absurd hm (h.not_alone hfinished)
  failures := h.failures

/-- Every step keeps the rounds in lockstep. -/
theorem inv_step (h : Inv s) (hs : Step T s a s') : Inv s' := by
  cases hs with
  | spawn hm hr =>
    have harrived := h.arrived_eq_zero (h.finished (by rw [hm]; trivial))
    refine ⟨?_, fun _ t ht => absurd rfl ht, fun hm => hm.elim, h.failures⟩
    rw [harrived]
    exact lockstep_const T id
  | join hm hfinished =>
    exact ⟨h.lockstep, fun hm => (hm trivial).elim, fun _ => hfinished, h.failures⟩
  | «return» hm hr =>
    exact ⟨h.lockstep, fun hm => (hm trivial).elim, fun _ => h.finished (by rw [hm]; trivial),
      h.failures⟩
  | @store t ht =>
    have hround : ¬ s.main.Alone := h.not_alone (t := t) fun he => by rw [ht] at he; cases he
    refine ⟨h.lockstep.move (by rw [ht]; exact id) (by rw [ht]; rfl) id, fun hm u hu => ?_,
      fun hm => absurd hm hround, h.failures⟩
    dsimp only
    by_cases hut : u = t
    · subst hut
      rw [Function.update_self]
    · rw [Function.update_of_ne hut]
      exact h.done hm u fun he => hu ((Function.update_of_ne hut .await s.point).trans he)
  | @arrive t ht hlt =>
    have hround : ¬ s.main.Alone := h.not_alone (t := t) fun he => by rw [ht] at he; cases he
    refine ⟨h.lockstep.arrive (by rw [ht]; exact id) (by rw [ht]; rfl) trivial
      (by rwa [Fintype.card_fin]), fun hm u hu => ?_, fun hm => absurd hm hround, h.failures⟩
    by_cases hut : u = t
    · exact hut ▸ h.done hm t fun he => by rw [ht] at he; cases he
    · exact h.done hm u fun he => hu ((Function.update_of_ne hut .waiting s.point).trans he)
  | @release t ht hlast =>
    have hround : ¬ s.main.Alone := h.not_alone (t := t) fun he => by rw [ht] at he; cases he
    have hnot : ¬ (s.point t).Waiting := by rw [ht]; exact id
    have hwaiting : (Point.waiting : Point T.n).Waiting := trivial
    refine ⟨h.lockstep.release hnot (by rw [ht]; rfl) hwaiting (by rwa [Fintype.card_fin])
      fun _ => Point.phase_release, fun hm u _ => ?_, fun hm => absurd hm hround, h.failures⟩
    by_cases hut : u = t
    · exact hut ▸ h.done hm t fun he => by rw [ht] at he; cases he
    · -- The others wait, and so are behind their store.
      have hwait := h.lockstep.waiting_of_last hnot hwaiting (by rwa [Fintype.card_fin]) u
      rw [Function.update_of_ne hut] at hwait
      exact h.done hm u fun he => by rw [he] at hwait; exact hwait
  | resume ht =>
    refine h.move ?_ id ?_ ?_ ?_ <;> rw [ht]
    · exact id
    · rfl
    · exact fun he => by cases he
    · exact fun he => by cases he
  | @load t d ht =>
    -- The load finds what it expects.
    rw [if_pos (h.done_of_verify ht d)]
    have hloaded : (T.loaded d).phase = 1 ∧ ¬ (T.loaded d).Waiting := by
      unfold Test.loaded
      split <;> exact ⟨rfl, id⟩
    refine h.move ?_ hloaded.2 ?_ ?_ ?_ <;> rw [ht]
    · exact id
    · exact hloaded.1
    · exact fun he => by cases he
    · exact fun he => by cases he

theorem inv_of_reachable (h : T.system.Reachable s) : Inv s :=
  h.induct (inv_init T) fun _ _ _ _ hinv hs => inv_step hinv hs

/-! ### Every run ends -/

/-- How far a task is from its end. -/
def Point.rank {n : ℕ} : Point n → ℕ
  | .store => n + 5
  | .await => n + 4
  | .waiting => n + 3
  | .released => n + 2
  | .verify d => n - d + 1
  | .finished => 0

/-- More than a round takes. -/
def Test.roundRank (T : Test) : ℕ := T.n * (T.n + 5) + 3

/-- How far the test is from its end, apart from the tasks of the present round. -/
def Test.rank (T : Test) : Main → ℕ
  | .spawn r => (T.rounds - r) * T.roundRank + 1
  | .join r => (T.rounds - (r + 1)) * T.roundRank + 2
  | .returned => 0

/-- The rank of a state. -/
def State.rank (s : State T.n) : ℕ := T.rank s.main + ∑ t, (s.point t).rank

private theorem rank_update_lt {t : Fin T.n} {x : Point T.n} (h : x.rank < (s.point t).rank) :
    ∑ u, (Function.update s.point t x u).rank < ∑ u, (s.point u).rank := by
  have hsum := sum_update_add (Finset.mem_univ t) s.point x Point.rank
  omega

/-- A round pays for its tasks. -/
private theorem rank_spawn {r : ℕ} (hr : r < T.rounds) :
    T.rank (.join r) + ∑ _t : Fin T.n, (Point.store : Point T.n).rank < T.rank (.spawn r) := by
  obtain ⟨k, hk⟩ : ∃ k, T.rounds - r = k + 1 := ⟨T.rounds - r - 1, by omega⟩
  have hk' : T.rounds - (r + 1) = k := by omega
  simp only [Test.rank, Point.rank, Finset.sum_const, Finset.card_univ, Fintype.card_fin,
    smul_eq_mul, hk, hk', Nat.succ_mul]
  rw [Test.roundRank]
  omega

/-- **Every step decreases the rank.** -/
theorem rank_step (h : Inv s) (hs : Step T s a s') : s'.rank < s.rank := by
  cases hs with
  | spawn hm hr =>
    have hlt := rank_spawn hr
    simp only [State.rank, hm]
    omega
  | join hm | «return» hm =>
    simp only [State.rank, hm, Test.rank]
    omega
  | @store t ht =>
    have hlt := rank_update_lt (t := t) (s := s) (x := .await) (by
      rw [ht]
      exact Nat.lt_succ_self _)
    simp only [State.rank]
    omega
  | @arrive t ht =>
    have hlt := rank_update_lt (t := t) (s := s) (x := .waiting) (by
      rw [ht]
      exact Nat.lt_succ_self _)
    simp only [State.rank]
    omega
  | @release t ht hlast =>
    have hwaiting : (Point.waiting : Point T.n).Waiting := trivial
    have hwait := h.lockstep.waiting_of_last (t := t) (by rw [ht]; exact id) hwaiting
      (by rwa [Fintype.card_fin])
    have hlt : ∑ u, (Function.update s.point t .waiting u).release.rank <
        ∑ u, (s.point u).rank := by
      refine Finset.sum_lt_sum_of_nonempty ⟨t, Finset.mem_univ t⟩ fun u _ => ?_
      have hu := hwait u
      by_cases hut : u = t
      · subst hut
        rw [Function.update_self, ht]
        simp only [Point.release, Point.rank]
        omega
      · rw [Function.update_of_ne hut] at hu ⊢
        cases hp : s.point u with
        | waiting => exact Nat.lt_succ_self _
        | _ =>
          rw [hp] at hu
          exact hu.elim
    simp only [State.rank]
    omega
  | @resume t ht =>
    have hlt := rank_update_lt (t := t) (s := s) (x := .verify ⟨0, T.n_pos⟩) (by
      rw [ht]
      exact Nat.lt_succ_self _)
    simp only [State.rank]
    omega
  | @load t d ht =>
    have hlt := rank_update_lt (t := t) (s := s) (x := T.loaded d) (by
      rw [ht]
      unfold Test.loaded
      split <;> simp only [Point.rank] <;> omega)
    simp only [State.rank]
    omega

/-- The tasks that a round still has before it bound the run. -/
theorem system_terminating (T : Test) : T.system.Terminating :=
  LTS.terminating_of_rank State.rank fun _ _ _ hr hs => rank_step (inv_of_reachable hr) hs

/-- A task that neither waits nor has finished has a step. -/
private theorem enabled_of_point (h : Inv s) {t : Fin T.n} (hwait : ¬ (s.point t).Waiting)
    (hfin : s.point t ≠ .finished) : T.system.Enabled s := by
  cases ht : s.point t with
  | store => exact ⟨_, _, Step.store ht⟩
  | await =>
    have hlt := h.lockstep.arrived_lt
    rw [Fintype.card_fin] at hlt
    rcases Nat.lt_or_ge (s.arrived + 1) T.n with hlt' | hge
    · exact ⟨_, _, Step.arrive ht hlt'⟩
    · exact ⟨_, _, Step.release ht (by omega)⟩
  | waiting =>
    rw [ht] at hwait
    exact (hwait trivial).elim
  | released => exact ⟨_, _, Step.resume ht⟩
  | verify d => exact ⟨_, _, Step.load ht⟩
  | finished => exact (hfin ht).elim

/-- The tasks of a round have all finished, or one of them has a step. -/
private theorem finished_or_enabled (h : Inv s) :
    (∀ t, s.point t = .finished) ∨ T.system.Enabled s := by
  by_contra hnot
  push Not at hnot
  obtain ⟨⟨u, hu⟩, hend⟩ := hnot
  obtain ⟨t, ht⟩ := h.lockstep.exists_not_waiting
  have hfin : s.point t = .finished := by
    by_contra hne
    exact hend (enabled_of_point h ht hne)
  -- Behind the barrier no task waits.
  refine hend (enabled_of_point h (fun hwait => ?_) hu)
  have hphase := h.lockstep.phase_eq u t
  rw [hfin] at hphase
  cases hp : s.point u with
  | waiting =>
    rw [hp] at hphase
    cases hphase
  | _ =>
    rw [hp] at hwait
    exact hwait

private theorem returned_of_not_enabled (h : Inv s) (hend : ¬ T.system.Enabled s) :
    s.main = .returned := by
  cases hm : s.main with
  | returned => rfl
  | spawn r =>
    by_cases hr : r < T.rounds
    · exact absurd ⟨_, _, Step.spawn hm hr⟩ hend
    · exact absurd ⟨_, _, Step.return hm hr⟩ hend
  | join r =>
    rcases finished_or_enabled h with hfinished | he
    · exact absurd ⟨_, _, Step.join hm hfinished⟩ hend
    · exact absurd he hend

/-- **A barrier that is used again.** For any number of tasks and of rounds: a task behind the
barrier finds all flags of its round set, so no expectation fails. Whenever the tasks of a round
have finished, the count of the barrier has been reset, and every run ends with the test
returned. -/
theorem waiters_see_all_done (T : Test) :
    (∀ s, T.system.Reachable s → s.failures = 0 ∧
      (∀ t d, s.point t = .verify d → ∀ k, s.done k = true) ∧
      ((∀ t, s.point t = .finished) → s.arrived = 0)) ∧
    T.system.EndsIn fun s => s.main = .returned ∧ ∀ t, s.point t = .finished := by
  refine ⟨fun s hr => ?_, system_terminating T, fun s hr hend => ?_⟩
  · have h := inv_of_reachable hr
    exact ⟨h.failures, fun t d ht => h.done_of_verify ht, h.arrived_eq_zero⟩
  · have h := inv_of_reachable hr
    have hm := returned_of_not_enabled h hend
    exact ⟨hm, h.finished (by rw [hm]; trivial)⟩

end AutoReset

end TmcExamples
