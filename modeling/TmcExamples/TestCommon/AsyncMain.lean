import Mathlib.Data.BitVec
import TmcExamples.Transition.System

/-!
# `test_async_main`

Every test runs in a coroutine that `test_async_main` or `test_async_main_int` posts to the
executor. The calling thread waits until the exit code is no longer `INT_MIN`; the coroutine stores
it and notifies. The exit code is a local variable of the calling thread, which may return as soon
as it sees the new value, also before the coroutine calls `notify_all()`.

As in `HelperThread`, `wait(old)` compares the value and blocks in one step, and a blocked thread
may wake up spuriously. `test_async_main` is the case where the exit code is zero; it does not load
it.
-/

namespace TmcExamples

namespace TestCommon

/-- `INT_MIN` -/
def intMin : BitVec 32 := BitVec.intMin 32

/-- The program points of `test_async_main_int`. -/
inductive Caller
  | post
  | wait
  | blocked
  | load
  | returned (exitCode : BitVec 32)

/-- The program points of `test_async_main_int_task_`. -/
inductive Task
  | notPosted
  | running
  | store
  | notify
  | finished
  deriving DecidableEq

/-- `notify_all` unblocks the thread. -/
def Caller.wake : Caller → Caller
  | .blocked => .wait
  | c => c

/-- `test_async_main_int` has returned, and its `exitCode` is out of scope. -/
def Caller.Returned : Caller → Prop
  | .returned _ => True
  | _ => False

instance : DecidablePred Caller.Returned := fun c => by
  cases c <;> unfold Caller.Returned <;> infer_instance

/-- What the coroutine does with `ExitCode_out`. -/
inductive Access
  | store
  | notifyAll
  deriving DecidableEq

/-- The state, with the accesses through `ExitCode_out` to a variable that is out of scope. -/
structure State where
  caller : Caller
  task : Task
  exitCode : BitVec 32
  late : List Access

/-- The accesses after another one. -/
def State.access (s : State) (x : Access) : List Access :=
  if s.caller.Returned then s.late ++ [x] else s.late

/-- The steps of both sides. -/
inductive Action
  | post
  | run
  | store
  | notify
  | block
  | spurious
  | changed
  | load
  deriving DecidableEq

/-- The steps when `ClientMainTask` returns `code`. -/
inductive Step (code : BitVec 32) : State → Action → State → Prop
  | post {s : State} (h : s.caller = .post) :
      Step code s .post { s with caller := .wait, task := .running }
  | run {s : State} (h : s.task = .running) : Step code s .run { s with task := .store }
  | store {s : State} (h : s.task = .store) :
      Step code s .store { s with task := .notify, exitCode := code, late := s.access .store }
  | notify {s : State} (h : s.task = .notify) :
      Step code s .notify
        { s with caller := s.caller.wake, task := .finished, late := s.access .notifyAll }
  | block {s : State} (h : s.caller = .wait) (hold : s.exitCode = intMin) :
      Step code s .block { s with caller := .blocked }
  | spurious {s : State} (h : s.caller = .blocked) :
      Step code s .spurious { s with caller := .wait }
  | changed {s : State} (h : s.caller = .wait) (hnew : s.exitCode ≠ intMin) :
      Step code s .changed { s with caller := .load }
  | load {s : State} (h : s.caller = .load) :
      Step code s .load { s with caller := .returned s.exitCode }

/-- A call of `test_async_main_int`. -/
def system (code : BitVec 32) : LTS State Action where
  init := ⟨.post, .notPosted, intMin, []⟩
  step := Step code

/-- A call without spurious wakeups. -/
def systemWithoutSpurious (code : BitVec 32) : LTS State Action where
  init := (system code).init
  step s a s' := a ≠ .spurious ∧ Step code s a s'

variable {code : BitVec 32} {s s' : State} {a : Action}

/-! ### The invariant -/

/-- The coroutine has stored the exit code. -/
def Task.Stored : Task → Prop
  | .notify | .finished => True
  | _ => False

/-- What the program point of the caller says. A thread that is blocked behind `notify_all` has
found that the exit code is `INT_MIN`. -/
def CallerInv (code : BitVec 32) (t : Task) : Caller → Prop
  | .post => t = .notPosted
  | .wait => t ≠ .notPosted
  | .blocked => t ≠ .notPosted ∧ (t = .finished → code = intMin)
  | .load => t.Stored ∧ code ≠ intMin
  | .returned exitCode => t.Stored ∧ code ≠ intMin ∧ exitCode = code

/-- The invariant of a call. -/
structure Inv (code : BitVec 32) (s : State) : Prop where
  stored : s.task.Stored → s.exitCode = code
  unstored : ¬ s.task.Stored → s.exitCode = intMin
  caller : CallerInv code s.task s.caller
  late : s.late = [] ∨ s.late = [.notifyAll] ∧ s.task = .finished ∧ code ≠ intMin

theorem inv_init (code : BitVec 32) : Inv code (system code).init where
  stored h := h.elim
  unstored _ := rfl
  caller := rfl
  late := Or.inl rfl

/-- A caller that has seen another value than `INT_MIN` has seen the exit code. -/
private theorem Inv.of_changed (h : Inv code s) (hnew : s.exitCode ≠ intMin) :
    s.task.Stored ∧ code ≠ intMin := by
  have hstored : s.task.Stored := by
    by_contra hnot
    exact hnew (h.unstored hnot)
  exact ⟨hstored, fun he => hnew ((h.stored hstored).trans he)⟩

/-- No access has come late before the last one. -/
private theorem Inv.late_eq_nil (h : Inv code s) (ht : s.task ≠ .finished) : s.late = [] :=
  h.late.resolve_right fun hl => ht hl.2.1

/-- The caller has returned behind the store, and another value than `INT_MIN`. -/
private theorem Inv.of_returned (h : Inv code s) (hr : s.caller.Returned) :
    s.task.Stored ∧ code ≠ intMin := by
  have hcaller := h.caller
  cases hc : s.caller with
  | returned exitCode =>
    rw [hc] at hcaller
    exact ⟨hcaller.1, hcaller.2.1⟩
  | _ =>
    rw [hc] at hr
    exact hr.elim

/-- The coroutine goes on before it has notified. -/
theorem CallerInv.advance {t t' : Task} {c : Caller} (h : CallerInv code t c)
    (hposted : t ≠ .notPosted) (hstored : ¬ t.Stored) (hposted' : t' ≠ .notPosted)
    (hfinished : t' ≠ .finished) : CallerInv code t' c := by
  cases c with
  | post => exact (hposted h).elim
  | wait => exact hposted'
  | blocked => exact ⟨hposted', fun he => (hfinished he).elim⟩
  | load | returned => exact (hstored h.1).elim

/-- Every step keeps the exit code to that of the task. -/
theorem inv_step (h : Inv code s) (hs : Step code s a s') : Inv code s' := by
  have hcaller := h.caller
  cases hs with
  | post hc =>
    rw [hc] at hcaller
    have hnot : ¬ s.task.Stored := fun ht => by
      rw [(hcaller : s.task = .notPosted)] at ht
      exact ht
    refine ⟨fun ht => ht.elim, fun _ => h.unstored hnot, fun ht => (by cases ht), Or.inl ?_⟩
    exact h.late_eq_nil fun ht => hnot (by rw [ht]; trivial)
  | run ht =>
    have hnot : ¬ s.task.Stored := fun hs => by rw [ht] at hs; exact hs
    refine ⟨fun hs => hs.elim, fun _ => h.unstored hnot, ?_, Or.inl ?_⟩
    · exact hcaller.advance (by rw [ht]; decide) hnot (fun he => by cases he) fun he => by cases he
    · exact h.late_eq_nil fun he => hnot (by rw [he]; trivial)
  | store ht =>
    have hnot : ¬ s.task.Stored := fun hs => by rw [ht] at hs; exact hs
    have hlate : s.late = [] := h.late_eq_nil fun he => hnot (by rw [he]; trivial)
    refine ⟨fun _ => rfl, fun hs => (hs trivial).elim, ?_, Or.inl ?_⟩
    · exact hcaller.advance (by rw [ht]; decide) hnot (fun he => by cases he) fun he => by cases he
    · -- The store never comes late.
      rw [State.access, if_neg fun hr => hnot (h.of_returned hr).1, hlate]
  | notify ht =>
    have hstored : s.task.Stored := by rw [ht]; trivial
    have hlate : s.late = [] := h.late_eq_nil fun he => by rw [ht] at he; cases he
    refine ⟨fun _ => h.stored hstored, fun hs => (hs trivial).elim, ?_, ?_⟩
    · cases hc : s.caller with
      | post =>
        rw [hc] at hcaller
        rw [(hcaller : s.task = .notPosted)] at ht
        cases ht
      | wait | blocked => exact fun he => by cases he
      | load | returned =>
        rw [hc] at hcaller
        exact ⟨trivial, hcaller.2⟩
    · rw [State.access, hlate]
      by_cases hr : s.caller.Returned
      · rw [if_pos hr]
        exact Or.inr ⟨rfl, rfl, (h.of_returned hr).2⟩
      · rw [if_neg hr]
        exact Or.inl rfl
  | block hc hold =>
    rw [hc] at hcaller
    refine ⟨h.stored, h.unstored, ⟨hcaller, fun ht => ?_⟩, h.late⟩
    rw [← h.stored (by rw [ht]; trivial), hold]
  | spurious hc =>
    rw [hc] at hcaller
    exact ⟨h.stored, h.unstored, hcaller.1, h.late⟩
  | changed hc hnew => exact ⟨h.stored, h.unstored, h.of_changed hnew, h.late⟩
  | load hc =>
    rw [hc] at hcaller
    exact ⟨h.stored, h.unstored, ⟨hcaller.1, hcaller.2, h.stored hcaller.1⟩, h.late⟩

theorem inv_of_reachable (h : (system code).Reachable s) : Inv code s :=
  h.induct (inv_init code) fun _ _ _ _ hinv hs => inv_step hinv hs

/-! ### The end of a call -/

def Caller.rank : Caller → ℕ
  | .post => 3
  | .wait => 2
  | .blocked | .load => 1
  | .returned _ => 0

def Task.rank : Task → ℕ
  | .notPosted => 5
  | .running => 4
  | .store => 3
  | .notify => 2
  | .finished => 0

private theorem Caller.rank_wake_le (c : Caller) : c.wake.rank ≤ c.rank + 1 := by
  cases c <;> simp [Caller.wake, Caller.rank]

/-- Every step but a spurious wakeup decreases the rank. -/
private theorem rank_step (h : Inv code s) (hs : Step code s a s') (ha : a ≠ .spurious) :
    s'.caller.rank + s'.task.rank < s.caller.rank + s.task.rank := by
  have hcaller := h.caller
  cases hs with
  | post hc =>
    rw [hc] at hcaller
    have ht : s.task = .notPosted := hcaller
    simp only [hc, ht, Caller.rank, Task.rank]
    omega
  | run ht | store ht =>
    simp only [ht, Task.rank]
    omega
  | notify ht =>
    have hwake := s.caller.rank_wake_le
    simp only [ht, Task.rank]
    omega
  | block hc | changed hc | load hc =>
    simp only [hc, Caller.rank]
    omega
  | spurious => exact (ha rfl).elim

private theorem reachable_of_withoutSpurious (h : (systemWithoutSpurious code).Reachable s) :
    (system code).Reachable s :=
  h.induct .init fun _ _ _ _ ih hs => ih.step hs.2

/-- Without spurious wakeups the caller wakes at most once for each notification. -/
theorem terminating_withoutSpurious (code : BitVec 32) :
    (systemWithoutSpurious code).Terminating :=
  LTS.terminating_of_rank (fun s => s.caller.rank + s.task.rank) fun _ _ _ hr hs =>
    rank_step (inv_of_reachable (reachable_of_withoutSpurious hr)) hs.2 hs.1

/-- **No lost wakeup.** Where only spurious wakeups are left, the coroutine has finished and the
caller has returned its exit code, unless that is `INT_MIN`. -/
theorem end_of_stuck (h : Inv code s) (hend : ∀ a s', a ≠ .spurious → ¬ Step code s a s') :
    s.task = .finished ∧
      (code ≠ intMin ∧ s.caller = .returned code ∨ code = intMin ∧ s.caller = .blocked) := by
  have hcaller := h.caller
  have htask : s.task = .finished := by
    cases ht : s.task with
    | finished => rfl
    | running => exact (hend _ _ (by decide) (.run ht)).elim
    | store => exact (hend _ _ (by decide) (.store ht)).elim
    | notify => exact (hend _ _ (by decide) (.notify ht)).elim
    | notPosted =>
      cases hc : s.caller with
      | post => exact (hend _ _ (by decide) (.post hc)).elim
      | wait =>
        rw [hc] at hcaller
        exact (hcaller ht).elim
      | blocked =>
        rw [hc] at hcaller
        exact (hcaller.1 ht).elim
      | load => exact (hend _ _ (by decide) (.load hc)).elim
      | returned =>
        rw [hc, ht] at hcaller
        exact hcaller.1.elim
  refine ⟨htask, ?_⟩
  cases hc : s.caller with
  | post => exact (hend _ _ (by decide) (.post hc)).elim
  | wait =>
    by_cases hold : s.exitCode = intMin
    · exact (hend _ _ (by decide) (.block hc hold)).elim
    · exact (hend _ _ (by decide) (.changed hc hold)).elim
  | blocked =>
    rw [hc] at hcaller
    exact Or.inr ⟨hcaller.2 htask, rfl⟩
  | load => exact (hend _ _ (by decide) (.load hc)).elim
  | returned exitCode =>
    rw [hc] at hcaller
    exact Or.inl ⟨hcaller.2.1, by rw [hcaller.2.2]⟩

/-- The caller may return between the store and the notification. -/
private theorem exists_late (hcode : code ≠ intMin) :
    ∃ s, (system code).Reachable s ∧ s.late = [.notifyAll] := by
  have hpost : (system code).Reachable ⟨.wait, .running, intMin, []⟩ :=
    LTS.Reachable.init.step (.post rfl)
  have hstore : (system code).Reachable ⟨.wait, .notify, code, []⟩ :=
    (hpost.step (.run rfl)).step (.store rfl)
  have hreturn : (system code).Reachable ⟨.returned code, .notify, code, []⟩ :=
    (hstore.step (.changed rfl hcode)).step (.load rfl)
  exact ⟨_, hreturn.step (.notify rfl), rfl⟩

/-- **The exit code.** A call returns nothing but the exit code of its task. Unless that is
`INT_MIN`, with which the caller stays blocked, every run without spurious wakeups ends with the
caller returned. The store is always in time; `notify_all()` may be called on an exit code that is
out of scope, and is the only such access. -/
theorem exit_code_is_returned (code : BitVec 32) :
    (∀ s, (system code).Reachable s →
      (∀ exitCode, s.caller = .returned exitCode → exitCode = code) ∧
      (s.late = [] ∨ s.late = [.notifyAll]) ∧
      ((∀ a s', a ≠ .spurious → ¬ Step code s a s') → s.task = .finished ∧
        (code ≠ intMin ∧ s.caller = .returned code ∨ code = intMin ∧ s.caller = .blocked))) ∧
    (systemWithoutSpurious code).Terminating ∧
    ((∃ s, (system code).Reachable s ∧ s.late = [.notifyAll]) ↔ code ≠ intMin) := by
  refine ⟨fun s hr => ?_, terminating_withoutSpurious code, ?_, exists_late⟩
  · have h := inv_of_reachable hr
    refine ⟨fun exitCode hc => ?_, h.late.imp_right And.left, end_of_stuck h⟩
    have hcaller := h.caller
    rw [hc] at hcaller
    exact hcaller.2.2
  · rintro ⟨s, hr, hlate⟩
    rcases (inv_of_reachable hr).late with hnil | hlate'
    · rw [hlate] at hnil
      cases hnil
    · exact hlate'.2.2

end TestCommon

end TmcExamples
