import TmcExamples.Queue.LogQueue
import TmcExamples.Transition.System

/-!
# The timed batch processor of `batch_processor.cpp`

`timedBatchProcessor` waits on a `mux_tuple` of two slots: a pull from a queue and a timer. It
collects pulled elements into a batch, starts the timer with the first one, and processes the
batch when the timer completes. The coroutine is modelled statement by statement (`Point`).
Everything else happens around it at any time: other threads post to the queue and close it,
a pull becomes ready, and a timer that is pending expires or, after `cancel()`, is aborted.

The library's part is taken as documented: `co_await mux` returns the index of some slot that
has completed and deactivates it, or `end()` exactly when no slot is active; a slot that has
completed stays active until then; pulls deliver the elements in queue order, and an empty
scope only when the queue is closed and drained.

The main results are `batch_invariant`, which relates the batch, the timer slot and the
elements at every program point, and `batches_lossless`.
-/

namespace TmcExamples

namespace BatchProcessor

/-! ### The state -/

/-- A slot of the mux: inactive, or holding an awaitable that is pending or has completed. -/
inductive Slot (ρ : Type)
  | inactive
  | pending
  | ready (result : ρ)
  deriving DecidableEq, Repr

/-- `mux.is_active` of the slot. -/
def Slot.isActive {ρ : Type} : Slot ρ → Bool
  | .inactive => false
  | _ => true

/-- The `error_code` that `async_wait` completes with. -/
inductive TimerResult
  | expired
  | aborted
  deriving DecidableEq, Repr

/-- The program points of `timedBatchProcessor`, each before the statement it is named for.
`case0` holds the scope that the pull has returned. -/
inductive Point (α : Type)
  | start
  | awaitMux
  | case0 (elem : Option α)
  | forkPull
  | testTimer
  | expiresAfter
  | forkTimer
  | case1
  | clear
  | returned
  deriving DecidableEq, Repr

/-- The state of the coroutine, its mux, its timer and its queue. `pulled` and `processed`
are histories: the elements that `co_await mux` has handed to the coroutine, and the batches
that `process` has been called with. -/
structure State (α : Type) where
  point : Point α
  pullSlot : Slot (Option α)
  timerSlot : Slot TimerResult
  cancelled : Bool
  queue : LogQueue α
  batch : List α
  pulled : List α
  processed : List (List α)

/-- The statements of the coroutine, the completions of the two slots, and what other threads
do to the queue. -/
inductive Action (α : Type)
  | start
  | awaitPull
  | awaitTimer
  | awaitEnd
  | pushBack
  | cancel
  | forkPull
  | testTimer
  | expiresAfter
  | forkTimer
  | process
  | clear
  | pullReady
  | pullEmpty
  | timerExpire
  | timerAbort
  | post (v : α)
  | close
  deriving DecidableEq, Repr

/-- An action of another thread on the queue. -/
def Action.IsExternal {α : Type} : Action α → Prop
  | .post _ | .close => True
  | _ => False

variable {α : Type}

/-- Before the coroutine starts. -/
def initial (α : Type) : State α where
  point := .start
  pullSlot := .inactive
  timerSlot := .inactive
  cancelled := false
  queue := .empty
  batch := []
  pulled := []
  processed := []

/-- The timer after `cancel()`: a wait that is pending will complete as aborted. -/
def State.cancelTimer (s : State α) : State α :=
  { s with cancelled := s.cancelled || s.timerSlot == .pending }

/-- The steps of the system. -/
inductive Step : State α → Action α → State α → Prop
  | start {s : State α} : s.point = .start →
      Step s .start { s with point := .awaitMux, pullSlot := .pending }
  /- `size_t idx = co_await mux` -/
  | awaitPull {s : State α} {r : Option α} : s.point = .awaitMux → s.pullSlot = .ready r →
      Step s .awaitPull
        { s with point := .case0 r, pullSlot := .inactive, pulled := s.pulled ++ r.toList }
  | awaitTimer {s : State α} {e : TimerResult} : s.point = .awaitMux → s.timerSlot = .ready e →
      Step s .awaitTimer { s with point := .case1, timerSlot := .inactive }
  | awaitEnd {s : State α} : s.point = .awaitMux → s.pullSlot.isActive = false →
      s.timerSlot.isActive = false → Step s .awaitEnd { s with point := .returned }
  /- `case 0`, with an element and without -/
  | pushBack {s : State α} {v : α} : s.point = .case0 (some v) →
      Step s .pushBack { s with point := .forkPull, batch := s.batch ++ [v] }
  | forkPull {s : State α} : s.point = .forkPull →
      Step s .forkPull { s with point := .testTimer, pullSlot := .pending }
  | testTimer {s : State α} : s.point = .testTimer →
      Step s .testTimer
        { s with point := if s.timerSlot.isActive then .awaitMux else .expiresAfter }
  | expiresAfter {s : State α} : s.point = .expiresAfter →
      Step s .expiresAfter { s.cancelTimer with point := .forkTimer }
  | forkTimer {s : State α} : s.point = .forkTimer →
      Step s .forkTimer { s with point := .awaitMux, timerSlot := .pending, cancelled := false }
  | cancel {s : State α} : s.point = .case0 none →
      Step s .cancel { s.cancelTimer with point := .awaitMux }
  /- `case 1`: `process` takes the batch by value, and the move leaves it empty. -/
  | process {s : State α} : s.point = .case1 →
      Step s .process
        { s with point := .clear, processed := s.processed ++ [s.batch], batch := [] }
  | clear {s : State α} : s.point = .clear →
      Step s .clear { s with point := .awaitMux, batch := [] }
  /- The completions of the slots -/
  | pullReady {s : State α} {v : α} : s.pullSlot = .pending → s.queue.front? = some v →
      Step s .pullReady { s with pullSlot := .ready (some v), queue := s.queue.pop }
  | pullEmpty {s : State α} : s.pullSlot = .pending → s.queue.front? = none →
      s.queue.closed = true → Step s .pullEmpty { s with pullSlot := .ready none }
  | timerExpire {s : State α} : s.timerSlot = .pending →
      Step s .timerExpire { s with timerSlot := .ready .expired }
  | timerAbort {s : State α} : s.timerSlot = .pending → s.cancelled = true →
      Step s .timerAbort { s with timerSlot := .ready .aborted }
  /- Other threads -/
  | post {s : State α} {v : α} : Step s (.post v) { s with queue := s.queue.post v }
  | close {s : State α} : Step s .close { s with queue := s.queue.close }

/-- The batch processor with its surroundings as a transition system. -/
def system (α : Type) : LTS (State α) (Action α) := ⟨initial α, Step⟩

/-! ### The invariant -/

/-- The element that the pull slot has completed with and not delivered yet. -/
def Slot.element : Slot (Option α) → List α
  | .ready (some v) => [v]
  | _ => []

/-- A slot that is not active holds no element. -/
theorem Slot.element_of_inactive {p : Slot (Option α)} (h : p.isActive = false) :
    p.element = [] := by
  cases p with
  | inactive => rfl
  | pending => cases h
  | ready r => cases h

/-- The element that the coroutine has received and not put into the batch yet. -/
def Point.element : Point α → List α
  | .case0 (some v) => [v]
  | _ => []

/-- What holds of the batch and the timer slot at a program point. At the head of the loop the
batch is non-empty exactly when the timer slot is active. -/
def Point.TimerOk (batch : List α) (active : Bool) : Point α → Prop
  | .start | .clear | .returned => active = false ∧ batch = []
  | .awaitMux | .case0 _ => batch ≠ [] ↔ active = true
  | .forkPull | .testTimer => batch ≠ []
  | .expiresAfter | .forkTimer | .case1 => active = false ∧ batch ≠ []

/-- What holds of the pull slot at a program point. The pull is restarted after every element,
so that it is inactive at the head of the loop only when the queue is drained. -/
def Point.PullOk (active : Bool) (drained : Prop) : Point α → Prop
  | .start | .case0 (some _) | .forkPull => active = false
  | .testTimer | .expiresAfter | .forkTimer => active = true
  | .awaitMux | .case1 | .clear => active = false → drained
  | .case0 none | .returned => active = false ∧ drained

private theorem Point.PullOk.mono {p : Point α} {active : Bool} {d d' : Prop}
    (h : p.PullOk active d) (hd : d → d') : p.PullOk active d' := by
  cases p with
  | case0 r =>
    cases r with
    | none => exact ⟨h.1, hd h.2⟩
    | some v => exact h
  | returned => exact ⟨h.1, hd h.2⟩
  | awaitMux | case1 | clear => exact fun hi => hd (h hi)
  | _ => exact h

/-- The invariant of the batch processor. -/
structure BatchInv (s : State α) : Prop where
  timer : s.point.TimerOk s.batch s.timerSlot.isActive
  pull : s.point.PullOk s.pullSlot.isActive s.queue.Drained
  exhausted : s.pullSlot = .ready none → s.queue.Drained
  batches : ∀ b ∈ s.processed, b ≠ []
  balance : s.processed.flatten ++ s.batch ++ s.point.element = s.pulled
  delivered : s.pulled ++ s.pullSlot.element = s.queue.taken

namespace BatchInv

variable {s : State α}

/-- Before the first pull nothing has been posted, taken or processed. -/
theorem initial (α : Type) : BatchInv (initial α) :=
  ⟨⟨rfl, rfl⟩, rfl, nofun, by simp [BatchProcessor.initial], rfl, rfl⟩

/-- What other threads do to the queue takes no element out of it and does not refill it. -/
private theorem queue_step (h : BatchInv s) {q : LogQueue α} (hd : s.queue.Drained → q.Drained)
    (ht : q.taken = s.queue.taken) : BatchInv { s with queue := q } :=
  ⟨h.timer, h.pull.mono hd, fun hr => hd (h.exhausted hr), h.batches, h.balance,
    by rw [h.delivered, ht]⟩

/-- A completion of the timer does not change whether its slot is active. -/
private theorem timer_step (h : BatchInv s) (ht : s.timerSlot = .pending) (e : TimerResult) :
    BatchInv { s with timerSlot := .ready e } := by
  refine ⟨?_, h.pull, h.exhausted, h.batches, h.balance, h.delivered⟩
  have htimer := h.timer
  rw [ht] at htimer
  exact htimer

/-- A completion of the pull with an element takes it out of the queue. -/
theorem pullReady (h : BatchInv s) (hp : s.pullSlot = .pending) {v : α}
    (hf : s.queue.front? = some v) :
    BatchInv { s with pullSlot := .ready (some v), queue := s.queue.pop } := by
  have hpull := h.pull
  have hdelivered := h.delivered
  rw [hp] at hpull hdelivered
  refine ⟨h.timer, hpull.mono LogQueue.Drained.pop, nofun, h.batches, h.balance, ?_⟩
  rw [LogQueue.taken_pop hf, ← hdelivered]
  simp only [Slot.element, List.append_nil]

/-- A completion of the pull with an empty scope. -/
theorem pullEmpty (h : BatchInv s) (hp : s.pullSlot = .pending) (hd : s.queue.Drained) :
    BatchInv { s with pullSlot := .ready none } := by
  have hpull := h.pull
  have hdelivered := h.delivered
  rw [hp] at hpull hdelivered
  exact ⟨h.timer, hpull, fun _ => hd, h.batches, h.balance, hdelivered⟩

/-- A move of the coroutine to another program point that receives no element. -/
private theorem move (h : BatchInv s) {p : Point α} (he : p.element = s.point.element)
    (ht : p.TimerOk s.batch s.timerSlot.isActive)
    (hp : p.PullOk s.pullSlot.isActive s.queue.Drained) : BatchInv { s with point := p } :=
  ⟨ht, hp, h.exhausted, h.batches, by rw [he]; exact h.balance, h.delivered⟩

/-- Cancelling the timer touches no element. -/
theorem cancelTimer (h : BatchInv s) : BatchInv s.cancelTimer :=
  ⟨h.timer, h.pull, h.exhausted, h.batches, h.balance, h.delivered⟩

end BatchInv

/-- Every step keeps the invariant. -/
private theorem batchInv_step {s s' : State α} {a : Action α} (h : BatchInv s) (hs : Step s a s') :
    BatchInv s' := by
  have htimer := h.timer
  have hpull := h.pull
  have hbalance := h.balance
  have hdelivered := h.delivered
  cases hs with
  | start hp =>
    rw [hp] at htimer hpull hbalance
    obtain ⟨hoff, hnil⟩ := htimer
    refine ⟨?_, nofun, nofun, h.batches, hbalance, ?_⟩
    · exact iff_of_false (not_not.mpr hnil) (by simp [hoff])
    · rw [Slot.element_of_inactive hpull] at hdelivered
      exact hdelivered
  | @awaitPull r hp hr =>
    rw [hp] at htimer hbalance
    rw [hr] at hdelivered
    have hnil : s.processed.flatten ++ s.batch = s.pulled := by simpa [Point.element] using hbalance
    -- The element moves from the slot of the pull to the coroutine.
    cases r with
    | none =>
      refine ⟨htimer, ⟨rfl, h.exhausted hr⟩, nofun, h.batches, ?_, ?_⟩
      · simpa [Point.element] using hnil
      · simpa [Slot.element] using hdelivered
    | some v =>
      refine ⟨htimer, rfl, nofun, h.batches, ?_, ?_⟩
      · simp only [Point.element, Option.toList_some, hnil]
      · simpa [Slot.element] using hdelivered
  | awaitTimer hp ht =>
    rw [hp, ht] at htimer
    rw [hp] at hpull hbalance
    exact ⟨⟨rfl, htimer.mpr rfl⟩, hpull, h.exhausted, h.batches, hbalance, hdelivered⟩
  | awaitEnd hp hpi hti =>
    rw [hp] at htimer hpull
    -- A batch that is not empty would have its timer running.
    refine h.move (by rw [hp]; rfl) ⟨hti, ?_⟩ ⟨hpi, hpull hpi⟩
    by_contra hne
    rw [htimer.mp hne] at hti
    cases hti
  | pushBack hp =>
    rw [hp] at hpull hbalance
    refine ⟨by simp [Point.TimerOk], hpull, h.exhausted, h.batches, ?_, hdelivered⟩
    simpa [Point.element, List.append_assoc] using hbalance
  | forkPull hp =>
    rw [hp] at htimer hpull hbalance
    rw [Slot.element_of_inactive hpull] at hdelivered
    exact ⟨htimer, rfl, nofun, h.batches, hbalance, hdelivered⟩
  | testTimer hp =>
    rw [hp] at htimer hpull
    have hactive : s.pullSlot.isActive = true := hpull
    split
    · next ht =>
      refine h.move (by rw [hp]; rfl) (iff_of_true htimer ht) fun hoff => ?_
      rw [hactive] at hoff
      cases hoff
    · next ht => exact h.move (by rw [hp]; rfl) ⟨Bool.eq_false_of_not_eq_true ht, htimer⟩ hpull
  | expiresAfter hp =>
    rw [hp] at htimer hpull
    exact h.cancelTimer.move (by change _ = s.point.element; rw [hp]; rfl) htimer hpull
  | forkTimer hp =>
    rw [hp] at htimer hpull hbalance
    have hactive : s.pullSlot.isActive = true := hpull
    refine ⟨iff_of_true htimer.2 rfl, fun hoff => ?_, h.exhausted, h.batches, hbalance, hdelivered⟩
    rw [hactive] at hoff
    cases hoff
  | cancel hp =>
    rw [hp] at htimer hpull
    exact h.cancelTimer.move (by change _ = s.point.element; rw [hp]; rfl) htimer fun _ => hpull.2
  | process hp =>
    rw [hp] at htimer hpull hbalance
    refine ⟨⟨htimer.1, rfl⟩, hpull, h.exhausted, fun b hb => ?_, ?_, hdelivered⟩
    · rcases List.mem_append.mp hb with hb | hb
      · exact h.batches b hb
      · rw [List.mem_singleton.mp hb]
        exact htimer.2
    · simpa [Point.element] using hbalance
  | clear hp =>
    rw [hp] at htimer hpull hbalance
    obtain ⟨hoff, hnil⟩ := htimer
    rw [hnil] at hbalance
    exact ⟨iff_of_false (not_not.mpr rfl) (by simp [hoff]), hpull, h.exhausted, h.batches,
      hbalance, hdelivered⟩
  | pullReady hp hf => exact h.pullReady hp hf
  | pullEmpty hp hf hc => exact h.pullEmpty hp ⟨hc, LogQueue.front?_eq_none_iff.mp hf⟩
  | timerExpire ht => exact h.timer_step ht _
  | timerAbort ht => exact h.timer_step ht _
  | post => exact h.queue_step (fun hd => hd.post _) (LogQueue.taken_post _ _)
  | close => exact h.queue_step LogQueue.Drained.close (LogQueue.taken_close _)

/-- **The invariant of the batch processor.** -/
theorem batch_invariant {s : State α} (hs : (system α).Reachable s) : BatchInv s :=
  hs.induct (P := BatchInv) (.initial α) fun _ _ _ _ h hstep => batchInv_step h hstep

/-! ### Progress -/

/-- Once the queue is closed, the coroutine or one of its slots can take a step until the
coroutine has returned: a pending pull finds an element or the end of the queue, and a pending
timer completes. -/
theorem exists_step_of_closed {s : State α} (hc : s.queue.closed = true)
    (hp : s.point ≠ .returned) : ∃ a s', Step s a s' ∧ ¬ a.IsExternal := by
  cases hpoint : s.point with
  | start => exact ⟨_, _, .start hpoint, not_false⟩
  | case0 r =>
    cases r with
    | none => exact ⟨_, _, .cancel hpoint, not_false⟩
    | some v => exact ⟨_, _, .pushBack hpoint, not_false⟩
  | forkPull => exact ⟨_, _, .forkPull hpoint, not_false⟩
  | testTimer => exact ⟨_, _, .testTimer hpoint, not_false⟩
  | expiresAfter => exact ⟨_, _, .expiresAfter hpoint, not_false⟩
  | forkTimer => exact ⟨_, _, .forkTimer hpoint, not_false⟩
  | case1 => exact ⟨_, _, .process hpoint, not_false⟩
  | clear => exact ⟨_, _, .clear hpoint, not_false⟩
  | returned => exact (hp hpoint).elim
  | awaitMux =>
    cases hpull : s.pullSlot with
    | ready r => exact ⟨_, _, .awaitPull hpoint hpull, not_false⟩
    | pending =>
      cases hf : s.queue.front? with
      | none => exact ⟨_, _, .pullEmpty hpull hf hc, not_false⟩
      | some v => exact ⟨_, _, .pullReady hpull hf, not_false⟩
    | inactive =>
      cases htimer : s.timerSlot with
      | ready e => exact ⟨_, _, .awaitTimer hpoint htimer, not_false⟩
      | pending => exact ⟨_, _, .timerExpire htimer, not_false⟩
      | inactive =>
        refine ⟨_, _, .awaitEnd hpoint ?_ ?_, not_false⟩
        · rw [hpull]
          rfl
        · rw [htimer]
          rfl

/-- **The batch processor loses nothing.** At the head of the loop the batch is non-empty
exactly when the timer slot is active, and the processed batches followed by the current one
are the elements received so far; these are the elements taken out of the queue but for one
that the pull slot may hold. No processed batch is empty. The coroutine returns only when the
queue is closed and drained, and then the processed batches are exactly the accepted elements
in their order. Once the queue is closed the coroutine is not stuck before it returns. -/
theorem batches_lossless {s : State α} (hs : (system α).Reachable s) :
    (s.point = .awaitMux →
        (s.batch ≠ [] ↔ s.timerSlot.isActive = true) ∧
          s.processed.flatten ++ s.batch = s.pulled ∧
          s.pulled ++ s.pullSlot.element = s.queue.taken) ∧
      (∀ b ∈ s.processed, b ≠ []) ∧
      (s.point = .returned → s.queue.closed = true ∧ s.queue.pending = [] ∧
        s.processed.flatten = s.queue.log) ∧
      (s.queue.closed = true → s.point ≠ .returned → ∃ a s', Step s a s' ∧ ¬ a.IsExternal) := by
  have h := batch_invariant hs
  have htimer := h.timer
  have hpull := h.pull
  have hbalance := h.balance
  refine ⟨?_, h.batches, ?_, exists_step_of_closed⟩
  · intro hp
    rw [hp] at htimer hbalance
    exact ⟨htimer, by simpa [Point.element] using hbalance, h.delivered⟩
  · intro hp
    rw [hp] at htimer hpull hbalance
    obtain ⟨-, hnil⟩ := htimer
    obtain ⟨hoff, hdrained⟩ := hpull
    refine ⟨hdrained.1, LogQueue.pending_eq_nil_iff.mpr hdrained.2, ?_⟩
    have hdelivered := h.delivered
    rw [Slot.element_of_inactive hoff, List.append_nil, hdrained.taken_eq] at hdelivered
    rw [hnil] at hbalance
    simpa [Point.element, hdelivered] using hbalance

/-- A run with two elements: the timer expires after the first one, and the close cancels it
after the second one. -/
theorem batches_lossless_sample : ∃ s : State ℕ, (system ℕ).Reachable s ∧
    s.processed = [[1], [2]] ∧ s.processed.flatten = s.queue.log := by
  have h := LTS.Reachable.init (T := system ℕ)
  have h := h.step (Step.post (v := 1))
  have h := h.step (Step.post (v := 2))
  have h := h.step (Step.start rfl)
  have h := h.step (Step.pullReady (v := 1) rfl rfl)
  have h := h.step (Step.awaitPull rfl rfl)
  have h := h.step (Step.pushBack rfl)
  have h := h.step (Step.forkPull rfl)
  have h := h.step (Step.testTimer rfl)
  have h := h.step (Step.expiresAfter rfl)
  have h := h.step (Step.forkTimer rfl)
  have h := h.step (Step.timerExpire rfl)
  have h := h.step (Step.awaitTimer rfl rfl)
  have h := h.step (Step.process rfl)
  have h := h.step (Step.clear rfl)
  have h := h.step (Step.pullReady (v := 2) rfl rfl)
  have h := h.step (Step.awaitPull rfl rfl)
  have h := h.step (Step.pushBack rfl)
  have h := h.step (Step.forkPull rfl)
  have h := h.step (Step.testTimer rfl)
  have h := h.step (Step.expiresAfter rfl)
  have h := h.step (Step.forkTimer rfl)
  have h := h.step Step.close
  have h := h.step (Step.pullEmpty rfl rfl rfl)
  have h := h.step (Step.awaitPull rfl rfl)
  have h := h.step (Step.cancel rfl)
  have h := h.step (Step.timerAbort rfl rfl)
  have h := h.step (Step.awaitTimer rfl rfl)
  have h := h.step (Step.process rfl)
  have h := h.step (Step.clear rfl)
  have h := h.step (Step.awaitEnd rfl rfl rfl)
  exact ⟨_, h, rfl, ((batches_lossless h).2.2.1 rfl).2.2⟩

end BatchProcessor

end TmcExamples
