import TmcExamples.HelperThread.Handshake

/-!
# Only spurious wakeups can go on forever

The rank of a state weighs what is left of the script, of the initiation, of the updates and of the
notifications, and the way of the helper to its end. An update makes a blocked helper go round its
loop once more, and leaves a notification, so the updates weigh more than both.
-/

namespace TmcExamples

namespace HelperThread

variable {A : Awaitable} {script : List Await} {s s' : State} {a : Action}

/-- How far the coroutine is from its next await or from the end of the destructor. -/
def Control.rank : Control → ℕ
  | .lock => 7
  | .suspended => 6
  | .running => 5
  | .joinable => 4
  | .join => 3
  | .unlock => 2
  | .destroy => 1
  | .destroyed => 0

/-- How far a thread is from the end of `async_initiate()`. -/
def Initiator.rank : Initiator → ℕ
  | .create => 3
  | .assign _ => 2
  | .unlock => 1
  | .idle => 0

/-- How far a helper is from its end, or from being blocked, while the atomic variable has
value `v`. -/
def Helper.rank (v : ℕ) : Helper → ℕ
  | .load => 5
  | .wait old => if v = old then 4 else 6
  | .blocked _ => 3
  | .resume => 2
  | .exiting => 1
  | .notCreated | .finished => 0

/-- The rank of a state. -/
def State.rank (A : Awaitable) (s : State) : ℕ :=
  40 * (4 * s.script.length + s.control.rank) + 10 * s.initiator.rank +
    20 * (A.updates - s.updates) + 8 * s.notifies + (s.helper 0).rank (s.value A)

private theorem Helper.rank_le (v w : ℕ) (h : Helper) : h.rank v ≤ h.rank w + 2 := by
  cases h with
  | wait old =>
    simp only [Helper.rank]
    split <;> split <;> omega
  | _ => exact Nat.le_add_right _ _

private theorem Helper.rank_wake_le (v : ℕ) (h : Helper) : h.wake.rank v ≤ h.rank v + 3 := by
  cases h with
  | blocked old =>
    simp only [Helper.wake, Helper.rank]
    split <;> omega
  | _ => exact Nat.le_add_right _ _

/-- A step of the helper towards its end. -/
private theorem rank_setHelper (h : OwnerInv s) {i : ℕ} {x : Helper} (hi : s.helper i ≠ .notCreated)
    (hx : x.rank (s.value A) < (s.helper i).rank (s.value A)) :
    (s.setHelper i x).rank A < s.rank A := by
  obtain rfl := h.eq_zero hi
  have hself : (Function.update s.helper 0 x 0).rank (s.value A) = x.rank (s.value A) := by
    rw [Function.update_self]
  rw [← hself] at hx
  exact Nat.add_lt_add_left hx _

/-- **Every step but a spurious wakeup decreases the rank.** -/
theorem rank_step (h : OwnerInv s) (hs : Step A s a s') (hone : s'.created ≤ 1)
    (ha : ¬ a.IsSpurious) : s'.rank A < s.rank A := by
  obtain ⟨-, hs⟩ := hs
  cases hs with
  | update hlt =>
    -- It adds a notification, and the helper may find a value that it has not loaded.
    have hhelper := Helper.rank_le (A.value (s.updates + 1)) (s.value A) (s.helper 0)
    simp only [State.rank, State.value] at hhelper ⊢
    omega
  | notifyAll hpos =>
    -- A blocked helper has to load again, at the cost of a notification.
    have hhelper := Helper.rank_wake_le (s.value A) (s.helper 0)
    simp only [State.rank, State.value] at hhelper ⊢
    omega
  | @load i hi =>
    refine rank_setHelper h (by simp [hi]) ?_
    rw [hi]
    split
    · simp [Helper.rank]
    · simp [Helper.rank]
  | @wait i old hi hvalue =>
    refine rank_setHelper h (by simp [hi]) ?_
    simp [hi, Helper.rank, hvalue]
  | @changed i old hi hvalue =>
    refine rank_setHelper h (by simp [hi]) ?_
    simp [hi, Helper.rank, hvalue]
  | spurious => exact (ha trivial).elim
  | @resume i hi hcontrol =>
    obtain rfl := h.eq_zero (i := i) (by simp [hi])
    simp only [State.rank, State.value, State.setHelper, hcontrol, Control.rank,
      Function.update_self, Helper.rank]
    omega
  | @exit i hi =>
    refine rank_setHelper h (by simp [hi]) ?_
    simp [hi, Helper.rank]
  | ready hcontrol hscript =>
    simp only [State.rank, State.value, hscript, List.length_cons]
    omega
  | suspendDirect hcontrol hscript | suspendWrapped hcontrol hscript =>
    simp only [State.rank, State.value, hscript, hcontrol, List.length_cons, Control.rank]
    omega
  | lock hcontrol =>
    simp only [State.rank, State.value, hcontrol, Control.rank, Initiator.rank]
    omega
  | create hinitiator =>
    have hzero : s.created = 0 := Nat.le_zero.mp (Nat.le_of_succ_le_succ hone)
    simp only [State.rank, State.value, State.setHelper, hinitiator, hzero, Initiator.rank,
      Function.update_self, Helper.rank]
    omega
  | assign hinitiator | unlock hinitiator =>
    simp only [State.rank, State.value, hinitiator, Initiator.rank]
    omega
  | assignJoinable hinitiator hthread =>
    obtain ⟨-, -, hnone, -, -⟩ := h.assign _ hinitiator
    rw [hnone] at hthread
    cases hthread
  | destruct hcontrol | unlockDestructor hcontrol | destroy hcontrol | join hcontrol =>
    simp only [State.rank, State.value, hcontrol, Control.rank]
    omega
  | joinable hcontrol =>
    simp only [State.rank, State.value, hcontrol]
    split <;> simp only [Control.rank] <;> omega

/-- The program without spurious wakeups, from a state on. -/
def withoutSpurious (A : Awaitable) (s : State) : LTS State Action :=
  ⟨s, fun s a s' => Step A s a s' ∧ ¬ a.IsSpurious⟩

private theorem reachable_withoutSpurious (h : (system A script).Reachable s)
    (hs : (withoutSpurious A s).Reachable s') : (system A script).Reachable s' := by
  refine LTS.Reachable.induct (T := withoutSpurious A s) (P := (system A script).Reachable) h
    ?_ hs
  intro t a t' _ hr hstep
  exact hr.step hstep.1

/-- An object that is initiated once at most cannot keep its users busy without end, except by
spurious wakeups. -/
theorem terminating_withoutSpurious (h : (system A script).Reachable s)
    (hone : ∀ s, (system A script).Reachable s → s.created ≤ 1) :
    (withoutSpurious A s).Terminating := by
  refine LTS.terminating_of_rank (State.rank A) fun t a t' ht hs => ?_
  have hreach := reachable_withoutSpurious h ht
  exact rank_step (ownerInv_reachable hreach (hone t hreach)) hs.1
    (hone t' (hreach.step hs.1)) hs.2

end HelperThread

end TmcExamples
