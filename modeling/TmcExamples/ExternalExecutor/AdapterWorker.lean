import TmcExamples.ExternalExecutor.Adapter
import TmcExamples.ExternalExecutor.Shutdown

/-!
# The worker of the adapter

With one call of `run()`, the pool takes the items from its queue one at a time (`item?_step`,
`pop_spec`, `finish_spec`). The functor that it executes installs the priority and then calls the
item, so that the items are started in the order of the queue, and each finds its own priority,
whatever the item before it has left in the thread-local (`WorkerInv`).
-/

namespace TmcExamples

namespace ExternalExecutor

variable {α : Type}

/-- The item that a call of `run()` executes. -/
def Thread.item? : Thread α → Option (Item α)
  | .working x | .notifyOne x | .notifyAll x => some x
  | _ => none

/-! ### A pool with one call of `run()` -/

section Pool

variable {s s' : State α} {a : Action α}

private theorem item?_wake {t u : Thread α} (h : u = t ∨ t = .waiting ∧ u = .woken) :
    u.item? = t.item? := by
  rcases h with rfl | ⟨rfl, rfl⟩
  · rfl
  · rfl

/-- Only `pop` and `finish` change what the call executes, and what has been executed. -/
private theorem item?_step (hs : Step 1 s a s') (hpop : a ≠ .pop 0) (hfinish : a ≠ .finish 0) :
    (s'.thread 0).item? = (s.thread 0).item? ∧ s'.dequeued = s.dequeued ∧
      s'.executed = s.executed := by
  have hzero {t : ℕ} (ht : t < 1) : t = 0 := Nat.lt_one_iff.mp ht
  cases hs with
  | enter ht hx | lock ht hx | wait ht hx | pass ht hx | spurious ht hx | reacquire ht hx
  | relock ht hx | drained ht hx | again ht hx | ret ht hx =>
    obtain rfl := hzero ht
    refine ⟨?_, rfl, rfl⟩
    simp [hx, Thread.item?]
  | pop ht => exact (hpop (by rw [hzero ht])).elim
  | finish ht => exact (hfinish (by rw [hzero ht])).elim
  | itemPost ht hx | itemRequestStop ht hx =>
    obtain rfl := hzero ht
    refine ⟨?_, rfl, rfl⟩
    simp [hx, Thread.item?]
  | @itemNotifyOne t x u ht hx hw =>
    obtain rfl := hzero ht
    refine ⟨?_, by cases u <;> rfl, by cases u <;> rfl⟩
    simp [hx, Thread.item?]
  | itemNotifyAll ht hx =>
    obtain rfl := hzero ht
    refine ⟨?_, rfl, rfl⟩
    simp [hx, Thread.item?]
  | post | requestStop => exact ⟨rfl, rfl, rfl⟩
  | @notifyOne u _ hw =>
    exact ⟨item?_wake (thread_wakeOne s hw 0), by cases u <;> rfl, by cases u <;> rfl⟩
  | notifyAll => exact ⟨item?_wake (thread_wakeAll s 0), rfl, rfl⟩

private theorem pop_spec (hs : Step 1 s (.pop 0) s') :
    ∃ x, (s.thread 0).item? = none ∧ (s'.thread 0).item? = some x ∧
      s'.dequeued = s.dequeued ++ [x] ∧ s'.executed = s.executed := by
  cases hs with
  | @pop _ x rest ht hx hq => exact ⟨x, by rw [hx]; rfl, by simp [Thread.item?], rfl, rfl⟩

private theorem finish_spec (hs : Step 1 s (.finish 0) s') :
    ∃ x, (s.thread 0).item? = some x ∧ (s'.thread 0).item? = none ∧ s'.dequeued = s.dequeued ∧
      s'.executed = s.executed ++ [x] := by
  cases hs with
  | @finish _ x ht hx => exact ⟨x, by rw [hx]; rfl, by simp [Thread.item?], rfl, rfl⟩

end Pool

namespace Adapter

variable {s s' : State α} {a : Action α}

/-- The item that the worker executes. -/
def State.item? (s : State α) : Option (Item (Work α)) := (s.pool.thread 0).item?

/-- The item that has been taken from the queue and not been started. -/
def State.unstarted (s : State α) : List (Item (Work α)) :=
  match s.phase with
  | .install | .start => s.item?.toList
  | .idle | .running => []

/-- The invariant of the worker. -/
structure WorkerInv (s : State α) : Prop where
  idle : s.phase = .idle ↔ s.item? = none
  started : s.started.map Prod.fst ++ s.unstarted = s.pool.dequeued
  executed : s.pool.executed ++ s.item?.toList = s.pool.dequeued
  installed : s.phase = .start → ∀ x, s.item? = some x → s.prio = x.1.prio
  prio : ∀ e ∈ s.started, e.2 = e.1.1.prio

namespace WorkerInv

theorem initial (α : Type) : WorkerInv (initial α) where
  idle := ⟨fun _ => rfl, fun _ => rfl⟩
  started := rfl
  executed := rfl
  installed := nofun
  prio := nofun

/-- A step that leaves the functor of the worker alone. -/
theorem frame (h : WorkerInv s) (hphase : s'.phase = s.phase) (hprio : s'.prio = s.prio)
    (hstarted : s'.started = s.started)
    (hpool : s'.item? = s.item? ∧ s'.pool.dequeued = s.pool.dequeued ∧
      s'.pool.executed = s.pool.executed) : WorkerInv s' := by
  obtain ⟨hitem, hdequeued, hexecuted⟩ := hpool
  have hunstarted : s'.unstarted = s.unstarted := by
    rw [State.unstarted, State.unstarted, hphase, hitem]
  constructor
  · rw [hphase, hitem]
    exact h.idle
  · rw [hstarted, hunstarted, hdequeued]
    exact h.started
  · rw [hexecuted, hitem, hdequeued]
    exact h.executed
  · rw [hphase, hprio, hitem]
    exact h.installed
  · rw [hstarted]
    exact h.prio

/-- A step of the pool other than `pop` and `finish`. -/
private theorem pool_step (h : WorkerInv s) {t : State α} {b : ExternalExecutor.Action (Work α)}
    (hs : ExternalExecutor.Step 1 s.pool b t.pool) (hpop : b ≠ .pop 0) (hfinish : b ≠ .finish 0)
    (hphase : t.phase = s.phase) (hprio : t.prio = s.prio) (hstarted : t.started = s.started) :
    WorkerInv t :=
  h.frame hphase hprio hstarted (item?_step hs hpop hfinish)

/-- The worker takes an item, which it then has in its hands. -/
theorem pop (h : WorkerInv s) {p : ExternalExecutor.State (Work α)}
    (hs : ExternalExecutor.Step 1 s.pool (.pop 0) p) :
    WorkerInv { s with pool := p, phase := .install } := by
  obtain ⟨x, hnone, hsome, hdequeued, hexecuted⟩ := pop_spec hs
  have hnone' : s.item? = none := hnone
  have hidle := h.idle.mpr hnone'
  have hitem : ({ s with pool := p, phase := .install } : State α).item? = some x := hsome
  constructor
  · rw [hitem]
    exact iff_of_false nofun nofun
  · have hstarted := h.started
    rw [State.unstarted, hidle, List.append_nil] at hstarted
    rw [State.unstarted, hitem, hdequeued, ← hstarted]
    rfl
  · have hexec := h.executed
    rw [hnone', Option.toList_none, List.append_nil] at hexec
    rw [hitem, hdequeued, hexecuted, hexec]
    rfl
  · exact nofun
  · exact h.prio

/-- The priority of the item is installed before the item starts. -/
theorem install (h : WorkerInv s) {x : Item (Work α)} (hphase : s.phase = .install)
    (hx : s.pool.thread 0 = .working x) :
    WorkerInv { s with prio := x.1.prio, phase := .start } := by
  have hitem : s.item? = some x := congrArg Thread.item? hx
  constructor
  · exact iff_of_false nofun (by
      change s.item? ≠ none
      rw [hitem]
      nofun)
  · have hstarted := h.started
    rw [State.unstarted, hphase] at hstarted
    exact hstarted
  · exact h.executed
  · intro _ y hy
    change s.item? = some y at hy
    rw [hitem] at hy
    cases hy
    rfl
  · exact h.prio

/-- The item starts with the installed priority. -/
theorem start (h : WorkerInv s) {x : Item (Work α)} (hphase : s.phase = .start)
    (hx : s.pool.thread 0 = .working x) :
    WorkerInv { s with started := s.started ++ [(x, s.prio)], phase := .running } := by
  have hitem : s.item? = some x := congrArg Thread.item? hx
  constructor
  · exact iff_of_false nofun (by
      change s.item? ≠ none
      rw [hitem]
      nofun)
  · have hstarted := h.started
    rw [State.unstarted, hphase, hitem] at hstarted
    rw [State.unstarted, List.append_nil, List.map_append]
    exact hstarted
  · exact h.executed
  · exact nofun
  · intro e he
    rcases List.mem_append.mp he with he | he
    · exact h.prio e he
    · obtain rfl := List.mem_singleton.mp he
      exact h.installed hphase x hitem

/-- A finished item leaves the worker's hands. -/
theorem finish (h : WorkerInv s) {p : ExternalExecutor.State (Work α)} (hphase : s.phase = .running)
    (hs : ExternalExecutor.Step 1 s.pool (.finish 0) p) :
    WorkerInv { s with pool := p, phase := .idle } := by
  obtain ⟨x, hsome, hnone, hdequeued, hexecuted⟩ := finish_spec hs
  have hsome' : s.item? = some x := hsome
  have hnone' : ({ s with pool := p, phase := .idle } : State α).item? = none := hnone
  constructor
  · exact iff_of_true rfl hnone'
  · have hstarted := h.started
    rw [State.unstarted, hphase] at hstarted
    change s.started.map Prod.fst ++ [] = p.dequeued
    rw [hdequeued, ← hstarted]
  · have hexec := h.executed
    rw [hsome'] at hexec
    rw [hnone', hdequeued, hexecuted]
    change s.pool.executed ++ [x] ++ [] = s.pool.dequeued
    rw [List.append_nil]
    exact hexec
  · exact nofun
  · exact h.prio

theorem step (h : WorkerInv s) (hs : Step s a s') : WorkerInv s' := by
  cases hs with
  | worker hrun hp =>
    refine h.pool_step hp ?_ ?_ rfl rfl rfl
    · rintro rfl
      exact hrun
    · rintro rfl
      exact hrun
  | pop hp => exact h.pop hp
  | install hphase hx => exact h.install hphase hx
  | start hphase hx => exact h.start hphase hx
  | setPrio hphase =>
    exact ⟨h.idle, h.started, h.executed, by rw [hphase]; nofun, h.prio⟩
  | finish hphase _ hp => exact h.finish hphase hp
  | call | ret | join => exact h.frame rfl rfl rfl ⟨rfl, rfl, rfl⟩
  | @post agent _ _ _ _ _ _ hp =>
    refine h.pool_step (t := { s.setCall _ _ with pool := _ }) hp ?_ ?_ rfl rfl rfl
    · cases agent <;> nofun
    · cases agent <;> nofun
  | @notify agent _ _ _ _ _ hp =>
    refine h.pool_step (t := { s.setCall _ _ with pool := _ }) hp ?_ ?_ rfl rfl rfl
    · cases agent <;> nofun
    · cases agent <;> nofun
  | requestStop _ hp | notifyAll _ hp => exact h.pool_step hp nofun nofun rfl rfl rfl

end WorkerInv

theorem workerInv_reachable (hs : (system α).Reachable s) : WorkerInv s :=
  hs.induct (P := WorkerInv) (.initial α) fun _ _ _ _ h hstep => h.step hstep

/-- The items are started in the order in which the pool takes them. -/
theorem WorkerInv.started_prefix_dequeued (h : WorkerInv s) :
    s.started.map Prod.fst <+: s.pool.dequeued := ⟨_, h.started⟩

/-- What has been executed has been started. -/
theorem WorkerInv.executed_prefix_started (h : WorkerInv s) :
    s.pool.executed <+: s.started.map Prod.fst := by
  have hsame : s.pool.executed ++ s.item?.toList = s.started.map Prod.fst ++ s.unstarted := by
    rw [h.executed, h.started]
  cases hphase : s.phase with
  | idle =>
    rw [h.idle.mp hphase, State.unstarted, hphase] at hsame
    exact (List.append_cancel_right hsame).symm ▸ List.prefix_refl _
  | install | start =>
    rw [State.unstarted, hphase] at hsame
    exact List.append_cancel_right hsame ▸ List.prefix_refl _
  | running =>
    rw [State.unstarted, hphase, List.append_nil] at hsame
    exact ⟨_, hsame⟩

end Adapter

end ExternalExecutor

end TmcExamples
