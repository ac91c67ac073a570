import TmcExamples.HelperThread.Model

/-!
# Neither lost nor early wakeups

A helper leaves its loop when it has read a value that it waits for, and the updates to come keep
such a value (`Helper.Sound`). While it is blocked, either the atomic variable still has the value
that it has compared, or the notification of a later update is still to come.
-/

namespace TmcExamples

namespace HelperThread

variable {A : Awaitable} {script : List Await} {s s' : State} {a : Action}

/-- What a helper knows of the atomic variable. -/
def Helper.Sound (A : Awaitable) (s : State) : Helper → Prop
  | .notCreated | .load => True
  | .wait old => A.ended old = false
  | .blocked old => A.ended old = false ∧ (s.value A = old ∨ 0 < s.notifies)
  | .resume | .exiting | .finished => A.ended (s.value A) = true

/-- The invariant of the atomic variable and of the helpers. -/
structure WaitInv (A : Awaitable) (s : State) : Prop where
  updates : s.updates ≤ A.updates
  helper : ∀ i, (s.helper i).Sound A s

/-- A wakeup takes nothing from what a helper may rely on. -/
theorem Helper.Sound.wake {h : Helper} (hh : h.Sound A s) (hvalue : s'.value A = s.value A) :
    h.wake.Sound A s' := by
  cases h with
  | blocked old => exact hh.1
  | resume | exiting | finished =>
    change A.ended (s'.value A) = true
    rw [hvalue]
    exact hh
  | notCreated | load => trivial
  | wait old => exact hh

/-- An update leaves a notification to come. -/
theorem Helper.Sound.update {h : Helper} (hh : h.Sound A s) (hlt : s.updates < A.updates)
    (hupdates : s'.updates = s.updates + 1) (hnotifies : 0 < s'.notifies) : h.Sound A s' := by
  cases h with
  | blocked old => exact ⟨hh.1, .inr hnotifies⟩
  | resume | exiting | finished =>
    have hended := A.ended_stable _ hlt hh
    rwa [← hupdates] at hended
  | notCreated | load => trivial
  | wait old => exact hh

namespace WaitInv

theorem initial (A : Awaitable) (script : List Await) : WaitInv A (initial script) where
  updates := Nat.zero_le _
  helper := fun _ => trivial

/-- A step that leaves the atomic variable and the helpers alone. -/
theorem frame (h : WaitInv A s) (hupdates : s'.updates = s.updates)
    (hnotifies : s'.notifies = s.notifies) (hhelper : s'.helper = s.helper) : WaitInv A s' := by
  have hvalue : s'.value A = s.value A := congrArg A.value hupdates
  constructor
  · rw [hupdates]
    exact h.updates
  · intro i
    have hold := h.helper i
    rw [hhelper]
    cases hi : s.helper i <;> rw [hi] at hold <;>
      simp only [Helper.Sound, hvalue, hnotifies] at hold ⊢ <;> exact hold

/-- A step of one helper. -/
theorem setHelper (h : WaitInv A s) {i : ℕ} {x : Helper} (hx : x.Sound A s)
    (hupdates : s'.updates = s.updates) (hnotifies : s'.notifies = s.notifies)
    (hhelper : s'.helper = Function.update s.helper i x) : WaitInv A s' := by
  have hset : WaitInv A (s.setHelper i x) := by
    refine ⟨h.updates, fun j => ?_⟩
    by_cases hj : j = i
    · subst hj
      change (Function.update s.helper j x j).Sound A s
      rw [Function.update_self]
      exact hx
    · change (Function.update s.helper i x j).Sound A s
      rw [Function.update_of_ne hj]
      exact h.helper j
  exact hset.frame hupdates hnotifies hhelper

/-- Every step keeps what the blocked helpers rely on. -/
theorem step (h : WaitInv A s) (hs : Step A s a s') : WaitInv A s' := by
  obtain ⟨-, hs⟩ := hs
  cases hs with
  | update hlt =>
    exact ⟨hlt, fun i => (h.helper i).update hlt rfl (Nat.succ_pos _)⟩
  | notifyAll => exact ⟨h.updates, fun i => (h.helper i).wake rfl⟩
  | load =>
    refine h.setHelper ?_ rfl rfl rfl
    cases hended : A.ended (s.value A) with
    | true => exact hended
    | false => exact hended
  | @wait i old hi hvalue =>
    have hold := h.helper i
    rw [hi] at hold
    exact h.setHelper (x := .blocked old) ⟨hold, .inl hvalue⟩ rfl rfl rfl
  | changed => exact h.setHelper (x := .load) trivial rfl rfl rfl
  | @spurious i old hi =>
    have hold := h.helper i
    rw [hi] at hold
    exact h.setHelper (x := .wait old) hold.1 rfl rfl rfl
  | @resume i hi =>
    have hold := h.helper i
    rw [hi] at hold
    exact h.setHelper (x := .exiting) hold rfl rfl rfl
  | @exit i hi =>
    have hold := h.helper i
    rw [hi] at hold
    exact h.setHelper (x := .finished) hold rfl rfl rfl
  | create => exact h.setHelper (x := .load) trivial rfl rfl rfl
  | _ => exact h.frame rfl rfl rfl

end WaitInv

theorem waitInv_reachable (h : (system A script).Reachable s) : WaitInv A s :=
  h.induct (P := WaitInv A) (.initial A script) fun _ _ _ _ hi hstep => hi.step hstep

/-- A helper resumes its continuation when the atomic variable has a value that it waits for. -/
theorem WaitInv.ended_of_resume (h : WaitInv A s) {i : ℕ} (hs : Step A s (.resume i) s') :
    A.ended (s.value A) = true := by
  obtain ⟨-, hs⟩ := hs
  cases hs with
  | resume hi =>
    have hold := h.helper i
    rw [hi] at hold
    exact hold

/-- A blocked helper will be notified, or the atomic variable will be updated. -/
theorem WaitInv.update_or_notify (h : WaitInv A s) {i old : ℕ} (hi : s.helper i = .blocked old) :
    s.updates < A.updates ∨ 0 < s.notifies := by
  have hold := h.helper i
  rw [hi] at hold
  obtain ⟨hended, hvalue | hnotify⟩ := hold
  · refine .inl (h.updates.lt_of_ne fun hall => ?_)
    have hfinal : A.ended (s.value A) = true := by
      rw [State.value, hall]
      exact A.ended_final
    rw [← hvalue, hfinal] at hended
    cases hended
  · exact .inr hnotify

/-- **`atomic_awaitable` has no lost or early wakeup.** For any number of awaits and in every
interleaving with the `Until` calls of `inc()`, the coroutine is resumed, or goes on at once, only
when the counter is `Until`; and when all increments and notifications are done, no helper is
blocked in `wait()`. -/
theorem no_lost_or_early_wakeup (untilValue : ℕ) (script : List Await)
    (h : (system (atomicAwaitable untilValue) script).Reachable s) :
    (∀ i s', Step (atomicAwaitable untilValue) s (.resume i) s' → s.updates = untilValue) ∧
      (∀ s', Step (atomicAwaitable untilValue) s .ready s' → s.updates = untilValue) ∧
      (s.updates = untilValue → s.notifies = 0 → ∀ i old, s.helper i ≠ .blocked old) := by
  have hinv := waitInv_reachable h
  refine ⟨fun i s' hs => of_decide_eq_true (hinv.ended_of_resume hs), fun s' hs => ?_,
    fun hall hnone i old hi => ?_⟩
  · obtain ⟨-, hs⟩ := hs
    cases hs with
    | ready _ _ hready => exact of_decide_eq_true hready
  · rcases hinv.update_or_notify hi with hlt | hpos
    · exact hlt.ne hall
    · exact hpos.ne' hnone

/-- The helper blocks and wakes up spuriously before the increment. When it wakes up from the
notification, the counter has its value. -/
theorem no_lost_or_early_wakeup_sample : ∃ (tr : List Action) (s : State),
    (system (atomicAwaitable 1) [.wrapped]).Run (initial [.wrapped]) tr s ∧
      .spurious 0 ∈ tr ∧ s.helper 0 = .resume ∧ s.updates = 1 := by
  have h := LTS.Run.nil (T := system (atomicAwaitable 1) [.wrapped]) (s := initial [.wrapped])
  have h := h.snoc ⟨rfl, .suspendWrapped rfl rfl⟩
  have h := h.snoc ⟨rfl, .lock rfl rfl⟩
  have h := h.snoc ⟨rfl, .create rfl⟩
  have h := h.snoc ⟨rfl, .load (i := 0) rfl⟩
  have h := h.snoc ⟨rfl, .wait (i := 0) rfl rfl⟩
  have h := h.snoc ⟨rfl, .spurious (i := 0) rfl⟩
  have h := h.snoc ⟨rfl, .wait (i := 0) rfl rfl⟩
  have h := h.snoc ⟨rfl, .assign rfl rfl⟩
  have h := h.snoc ⟨rfl, .update Nat.one_pos⟩
  have h := h.snoc ⟨rfl, .notifyAll Nat.one_pos⟩
  have h := h.snoc ⟨rfl, .changed (i := 0) rfl nofun⟩
  have h := h.snoc ⟨rfl, .load (i := 0) rfl⟩
  exact ⟨_, _, h, by simp, rfl,
    (no_lost_or_early_wakeup 1 [.wrapped] h.reachable).1 0 _ ⟨rfl, .resume rfl rfl⟩⟩

end HelperThread

end TmcExamples
