import TmcExamples.ExternalExecutor.Invariant

/-!
# No lost wakeup

A notification is sent after the mutex has been released, so between a `post()` and its
`notify_one` a call of `run()` may find the queue empty no more, or another one may already have
taken the item. `WakeInv` says what there is to hope for a waiting call: when a stop is
requested, the `notify_all` of some `request_stop()` is still to come; when there is work and
no stop is requested, a `notify_one` is still to come or some call of `run()` is awake, and it
goes back to waiting only after it has found the queue empty.
-/

namespace TmcExamples

namespace ExternalExecutor

variable {α : Type} {threads : ℕ} {s s' : State α}

/-- Some `post()` or `request_stop()` has left its critical section and not notified yet. -/
def State.NotificationPending (threads : ℕ) (s : State α) : Prop :=
  0 < s.notifyOnes ∨ 0 < s.notifyAlls ∨
    ∃ t < threads, ∃ x, s.thread t = .notifyOne x ∨ s.thread t = .notifyAll x

/-- Every call that is inside `run()` is blocked in `wait()` and not notified, and there is
such a call. -/
def State.AllAsleep (threads : ℕ) (s : State α) : Prop :=
  (∃ t < threads, s.thread t = .waiting) ∧
    ∀ t < threads, (s.thread t).InRun → s.thread t = .waiting

/-- A call of `run()` is not blocked in `wait()`. -/
def Thread.Awake : Thread α → Prop
  | .outside | .returned | .waiting => False
  | _ => True

/-- What waiting calls may rely on. -/
structure WakeInv (threads : ℕ) (s : State α) : Prop where
  stop : s.stopRequested = true → ∀ u < threads, s.thread u = .waiting →
    0 < s.notifyAlls ∨ ∃ t < threads, ∃ x, s.thread t = .notifyAll x
  queue : s.stopRequested = false → s.queue ≠ [] → ∀ u < threads, s.thread u = .waiting →
    0 < s.notifyOnes ∨ ∃ t < threads, (s.thread t).Awake

namespace WakeInv

theorem initial (threads : ℕ) : WakeInv threads (initial α) := ⟨nofun, fun _ h => (h rfl).elim⟩

/-- No call waits. -/
private theorem of_no_waiting (h : ∀ u < threads, s.thread u ≠ .waiting) : WakeInv threads s :=
  ⟨fun _ u hu hw => (h u hu hw).elim, fun _ _ u hu hw => (h u hu hw).elim⟩

/-- A move of a call that does not owe a `notify_all` and does not begin to wait leaves the
waiting calls what they can rely on after a stop. -/
private theorem stop_of_move (h : WakeInv threads s) {t : ℕ} {x : Thread α}
    (hthread : s'.thread = (s.setThread t x).thread) (hx : x ≠ .waiting)
    (howes : ∀ y, s.thread t ≠ .notifyAll y) (hstop : s'.stopRequested = s.stopRequested)
    (halls : s'.notifyAlls = s.notifyAlls) (hs : s'.stopRequested = true) {u : ℕ}
    (hu : u < threads) (hw : s'.thread u = .waiting) :
    0 < s'.notifyAlls ∨ ∃ t < threads, ∃ x, s'.thread t = .notifyAll x := by
  have hut : u ≠ t := by
    rintro rfl
    rw [hthread, setThread_self] at hw
    exact hx hw
  rw [hthread, setThread_of_ne _ _ hut] at hw
  rcases h.stop (hstop ▸ hs) u hu hw with hpos | ⟨v, hv, y, hy⟩
  · exact Or.inl (halls ▸ hpos)
  · refine Or.inr ⟨v, hv, y, ?_⟩
    have hvt : v ≠ t := by
      rintro rfl
      exact howes y hy
    rw [hthread, setThread_of_ne _ _ hvt]
    exact hy

/-- A step of a call that is awake afterwards and did not owe a `notify_all`. -/
private theorem thread_step (h : WakeInv threads s) {t : ℕ} (ht : t < threads) {x : Thread α}
    (hthread : s'.thread = (s.setThread t x).thread) (hawake : x.Awake)
    (howes : ∀ y, s.thread t ≠ .notifyAll y) (hstop : s'.stopRequested = s.stopRequested)
    (halls : s'.notifyAlls = s.notifyAlls) : WakeInv threads s' := by
  have hself : s'.thread t = x := by rw [hthread, setThread_self]
  have hx : x ≠ .waiting := by
    rintro rfl
    exact hawake
  exact ⟨fun hs u hu hw => h.stop_of_move hthread hx howes hstop halls hs hu hw,
    fun _ _ u hu hw => Or.inr ⟨t, ht, hself ▸ hawake⟩⟩

/-- The choice of `notify_one` leaves no call asleep alone. -/
private theorem exists_awake_of_wakeOne {w : Option ℕ} (hw : s.MayWake threads w) {u : ℕ}
    (hu : u < threads) (hwait : (s.wakeOne w).thread u = .waiting) :
    ∃ t < threads, ((s.wakeOne w).thread t).Awake := by
  cases w with
  | none => exact (hw u hu hwait).elim
  | some v =>
    refine ⟨v, hw.1, ?_⟩
    change ((s.setThread v .woken).thread v).Awake
    rw [setThread_self]
    trivial

/-- The call that a notification wakes is awake for those that it does not wake. -/
theorem wakeOne (h : WakeInv threads s) {w : Option ℕ} (hw : s.MayWake threads w) :
    WakeInv threads (s.wakeOne w) := by
  have hsame : ∀ u, (s.wakeOne w).thread u = .waiting → s.thread u = .waiting := fun u hu =>
    (thread_wakeOne s hw u).elim (fun heq => heq ▸ hu) fun h => h.1
  refine ⟨?_, fun _ _ u hu hwait => Or.inr (exists_awake_of_wakeOne hw hu hwait)⟩
  intro hs u hu hwait
  have hs' : s.stopRequested = true := by cases w <;> exact hs
  rcases h.stop hs' u hu (hsame u hwait) with hpos | ⟨t, ht, y, hy⟩
  · exact Or.inl (by cases w <;> exact hpos)
  · refine Or.inr ⟨t, ht, y, ?_⟩
    rcases thread_wakeOne s hw t with heq | ⟨hwaits, -⟩
    · rw [heq, hy]
    · rw [hy] at hwaits
      cases hwaits

end WakeInv

private theorem wakeAll_ne_waiting (s : State α) (u : ℕ) : s.wakeAll.thread u ≠ .waiting := by
  rcases thread_wakeAll s u with heq | ⟨-, hwoken⟩
  · intro hw
    have hwait : s.thread u = .waiting := heq ▸ hw
    rw [show s.wakeAll.thread u = .woken from congrArg Thread.wake hwait] at hw
    cases hw
  · rw [hwoken]
    nofun

/-- Every step keeps what waiting calls may rely on. -/
private theorem wakeInv_step {a : Action α} (h : WakeInv threads s) (hs : Step threads s a s') :
    WakeInv threads s' := by
  cases hs with
  | enter ht hx | lock ht hx | pass ht hx | spurious ht hx | reacquire ht hx | pop ht hx
  | finish ht hx | relock ht hx | drained ht hx | again ht hx | itemPost ht hx =>
    exact h.thread_step ht rfl trivial (fun y hy => by rw [hx] at hy; cases hy) rfl rfl
  | wait ht hx hs hq =>
    refine ⟨fun hs' => ?_, fun _ hq' => (hq' hq).elim⟩
    change s.stopRequested = true at hs'
    rw [hs] at hs'
    cases hs'
  | ret ht hx hs =>
    refine ⟨fun hs' u hu hw => h.stop_of_move rfl nofun (fun y hy => ?_) rfl rfl hs' hu hw,
      fun hs' => absurd (hs.symm.trans hs') (by simp)⟩
    rw [hx] at hy
    cases hy
  | @itemNotifyOne t x u ht hx hw =>
    have hself : (s.wakeOne u).thread t = .notifyOne x := thread_wakeOne_eq s hw hx nofun
    exact (h.wakeOne hw).thread_step ht rfl trivial (fun y hy => by rw [hself] at hy; cases hy)
      rfl rfl
  | @itemRequestStop t x ht hx =>
    exact ⟨fun _ _ _ _ => Or.inr ⟨t, ht, x, setThread_self s (.notifyAll x)⟩,
      fun hs => by cases hs⟩
  | @itemNotifyAll t x ht hx =>
    refine .of_no_waiting fun u _ hu => ?_
    by_cases hut : u = t
    · subst hut
      rw [setThread_self] at hu
      cases hu
    · rw [setThread_of_ne _ _ hut] at hu
      exact wakeAll_ne_waiting s u hu
  | post =>
    exact ⟨h.stop, fun _ _ _ _ _ => Or.inl (Nat.succ_pos _)⟩
  | notifyOne _ hw =>
    have hwake := h.wakeOne hw
    exact ⟨hwake.stop, fun _ _ u hu hwait => Or.inr (WakeInv.exists_awake_of_wakeOne hw hu hwait)⟩
  | requestStop =>
    exact ⟨fun _ _ _ _ => Or.inl (Nat.succ_pos _), fun hs => by cases hs⟩
  | notifyAll => exact .of_no_waiting fun u _ => wakeAll_ne_waiting s u

theorem wakeInv_reachable (hs : (system α threads).Reachable s) : WakeInv threads s :=
  hs.induct (P := WakeInv threads) (.initial threads) fun _ _ _ _ h hstep => wakeInv_step h hstep

/-- While all calls are asleep although there is work or a stop is requested, a notification is
pending. -/
theorem WakeInv.notificationPending (h : WakeInv threads s)
    (hwork : s.queue ≠ [] ∨ s.stopRequested = true) (hasleep : s.AllAsleep threads) :
    s.NotificationPending threads := by
  obtain ⟨⟨u, hu, hwait⟩, hall⟩ := hasleep
  cases hs : s.stopRequested with
  | true =>
    rcases h.stop hs u hu hwait with hpos | ⟨t, ht, x, hx⟩
    · exact Or.inr (Or.inl hpos)
    · exact Or.inr (Or.inr ⟨t, ht, x, Or.inr hx⟩)
  | false =>
    have hq : s.queue ≠ [] := hwork.resolve_right (by simp [hs])
    rcases h.queue hs hq u hu hwait with hpos | ⟨t, ht, hawake⟩
    · exact Or.inl hpos
    · have hrun : (s.thread t).InRun := by
        cases hx : s.thread t <;> rw [hx] at hawake <;> trivial
      rw [hall t ht hrun] at hawake
      exact hawake.elim

/-- **No lost wakeup, no lost and no duplicated work.** Along every run the items are dequeued
in the order of the critical sections that have posted them, each at most once, and the rest of
them is in the queue. In no reachable state there is work, or a stop requested, while every
call inside `run()` is blocked in `wait()` and no notification is pending. -/
theorem no_lost_wakeup {tr : List (Action α)} (h : (system α threads).Run (initial α) tr s) :
    s.dequeued ++ s.queue = postedIn tr ∧ s.dequeued.Nodup ∧
      ¬ ((s.queue ≠ [] ∨ s.stopRequested = true) ∧ s.AllAsleep threads ∧
        ¬ s.NotificationPending threads) := by
  have hitems := itemInv_run h
  refine ⟨hitems.posted, ?_, fun ⟨hwork, hasleep, hnone⟩ => ?_⟩
  · have hnodup : (s.dequeued ++ s.queue).Nodup := hitems.posted ▸ nodup_postedIn tr
    exact hnodup.of_append_left
  · exact hnone ((wakeInv_reachable h.reachable).notificationPending hwork hasleep)

/-- Two calls are asleep when an item is posted; it wakes one of them, posts another item and is
executed. -/
theorem no_lost_wakeup_sample : ∃ (tr : List (Action ℕ)) (s : State ℕ),
    (system ℕ 2).Run (initial ℕ) tr s ∧ s.thread 1 = .waiting ∧
      s.dequeued = [(7, 0)] ∧ s.queue = [(9, 1)] ∧ s.dequeued ++ s.queue = postedIn tr := by
  have h := LTS.Run.nil (T := system ℕ 2) (s := initial ℕ)
  have h := h.snoc (Step.enter (t := 0) Nat.two_pos rfl)
  have h := h.snoc (Step.enter (t := 1) Nat.one_lt_two rfl)
  have h := h.snoc (Step.lock (t := 0) Nat.two_pos rfl rfl)
  have h := h.snoc (Step.wait (t := 0) Nat.two_pos rfl rfl rfl)
  have h := h.snoc (Step.lock (t := 1) Nat.one_lt_two rfl rfl)
  have h := h.snoc (Step.wait (t := 1) Nat.one_lt_two rfl rfl rfl)
  have h := h.snoc (Step.post (v := 7) rfl)
  have h := h.snoc (Step.notifyOne (u := some 0) Nat.one_pos ⟨Nat.two_pos, rfl⟩)
  have h := h.snoc (Step.reacquire (t := 0) Nat.two_pos rfl rfl)
  have h := h.snoc (Step.pass (t := 0) Nat.two_pos rfl (Or.inr nofun))
  have h := h.snoc (Step.pop (t := 0) Nat.two_pos rfl rfl)
  have h := h.snoc (Step.itemPost (t := 0) (v := 9) Nat.two_pos rfl rfl)
  exact ⟨_, _, h, rfl, rfl, rfl, (no_lost_wakeup h).1⟩

end ExternalExecutor

end TmcExamples
