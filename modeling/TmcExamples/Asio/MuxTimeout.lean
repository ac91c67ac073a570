import TmcExamples.Asio.BatchProcessor

/-!
# The timeout of `mux_timeout.cpp`

In each iteration of its loop `main` starts an operation, which a timer stands for, and a task that
sleeps for the timeout, and awaits both through a `mux_tuple`. When the timeout is reported it
cancels the operation. Each result is logged when it is reported.

The slots of the mux and the results of the timer are those of the batch processor. The
operation may complete before the timeout, and it may complete between the report of the timeout
and the cancellation, which then comes too late. So an iteration logs one of three things
(`Outcome`); `outputs_are_outcomes` shows that every run ends with a log made up of these, and
that each such log is that of a run. The times of the events are left out.
-/

namespace TmcExamples

namespace MuxTimeout

open BatchProcessor (Slot TimerResult)

/-- The lines of the log. -/
inductive Line
  | operationCompleted
  | operationCanceled
  | timeoutOccurred
  | cancellationSignaled
  | newline
  deriving DecidableEq, Repr

/-- What `log_error_code` prints. -/
def logErrorCode : TimerResult → Line
  | .expired => .operationCompleted
  | .aborted => .operationCanceled

/-- The program points of `main`, each before the statement it is named for. `case0` holds the error
code that the mux has returned. -/
inductive Point
  | head
  | awaitMux
  | case0 (ec : TimerResult)
  | case1
  | cancel
  | logSignaled
  | newline
  | returned
  deriving DecidableEq, Repr

/-- The state of `main` in iteration `i`, its mux and its timer, and the log. -/
structure State where
  point : Point
  i : ℕ
  operation : Slot TimerResult
  timeout : Slot Unit
  cancelled : Bool
  output : List Line

/-- The statements of `main` and the completions of the two slots. -/
inductive Action
  | start
  | awaitOperation
  | awaitTimeout
  | awaitEnd
  | logErrorCode
  | logTimeout
  | cancel
  | logSignaled
  | newline
  | return
  | operationExpires
  | operationAborts
  | timeoutExpires
  deriving DecidableEq, Repr

/-- The steps of the program with `n` iterations. -/
inductive Step (n : ℕ) : State → Action → State → Prop
  | start {s : State} (h : s.point = .head) (hi : s.i < n) :
      Step n s .start
        { s with
          point := .awaitMux
          operation := .pending
          timeout := .pending
          cancelled := false }
  | return {s : State} (h : s.point = .head) (hi : ¬ s.i < n) :
      Step n s .return { s with point := .returned }
  /- `readyIdx = co_await eachResult` -/
  | awaitOperation {s : State} {ec : TimerResult} (h : s.point = .awaitMux)
      (hready : s.operation = .ready ec) :
      Step n s .awaitOperation { s with point := .case0 ec, operation := .inactive }
  | awaitTimeout {s : State} (h : s.point = .awaitMux) (hready : s.timeout = .ready ()) :
      Step n s .awaitTimeout { s with point := .case1, timeout := .inactive }
  | awaitEnd {s : State} (h : s.point = .awaitMux) (hoperation : s.operation = .inactive)
      (htimeout : s.timeout = .inactive) : Step n s .awaitEnd { s with point := .newline }
  /- `case 0` and `case 1` -/
  | logErrorCode {s : State} {ec : TimerResult} (h : s.point = .case0 ec) :
      Step n s .logErrorCode
        { s with point := .awaitMux, output := s.output ++ [MuxTimeout.logErrorCode ec] }
  | logTimeout {s : State} (h : s.point = .case1) :
      Step n s .logTimeout { s with point := .cancel, output := s.output ++ [.timeoutOccurred] }
  | cancel {s : State} (h : s.point = .cancel) :
      Step n s .cancel
        { s with point := .logSignaled, cancelled := s.cancelled || s.operation == .pending }
  | logSignaled {s : State} (h : s.point = .logSignaled) :
      Step n s .logSignaled
        { s with point := .awaitMux, output := s.output ++ [.cancellationSignaled] }
  | newline {s : State} (h : s.point = .newline) :
      Step n s .newline { s with point := .head, i := s.i + 1, output := s.output ++ [.newline] }
  /- The completions of the slots -/
  | operationExpires {s : State} (h : s.operation = .pending) :
      Step n s .operationExpires { s with operation := .ready .expired }
  | operationAborts {s : State} (h : s.operation = .pending) (hcancelled : s.cancelled = true) :
      Step n s .operationAborts { s with operation := .ready .aborted }
  | timeoutExpires {s : State} (h : s.timeout = .pending) :
      Step n s .timeoutExpires { s with timeout := .ready () }

/-- The program with `n` iterations. -/
def system (n : ℕ) : LTS State Action where
  init := ⟨.head, 0, .inactive, .inactive, false, []⟩
  step := Step n

/-! ### The log of an iteration -/

/-- How an iteration goes. -/
inductive Outcome
  | completedInTime
  | canceled
  | completedLate
  deriving DecidableEq, Repr

/-- What an iteration logs. -/
def Outcome.lines : Outcome → List Line
  | .completedInTime => [.operationCompleted, .timeoutOccurred, .cancellationSignaled]
  | .canceled => [.timeoutOccurred, .cancellationSignaled, .operationCanceled]
  | .completedLate => [.timeoutOccurred, .cancellationSignaled, .operationCompleted]

/-- What has been logged in an iteration before the timeout, if the operation is active or not. -/
def beforeTimeout (operation : Bool) : List Line :=
  if operation then [] else [.operationCompleted]

/-- What has been logged in the iteration at the head of the loop over the results. -/
def Logged (operation timeout : Bool) (log : List Line) : Prop :=
  if timeout then log = beforeTimeout operation
  else if operation then log = [.timeoutOccurred, .cancellationSignaled]
  else ∃ o : Outcome, log = o.lines

/-- What has been logged in the iteration at a program point. As long as the timeout is active, the
operation has not been cancelled. -/
def Point.Logged (operation timeout cancelled : Bool) (log : List Line) : Point → Prop
  | .head | .returned => log = []
  | .awaitMux => MuxTimeout.Logged operation timeout log ∧ (timeout = true → cancelled = false)
  | .case0 ec => operation = false ∧ (timeout = true → cancelled = false ∧ ec = .expired) ∧
    log = if timeout then [] else [.timeoutOccurred, .cancellationSignaled]
  | .case1 => timeout = false ∧ log = beforeTimeout operation
  | .cancel | .logSignaled => timeout = false ∧ log = beforeTimeout operation ++ [.timeoutOccurred]
  | .newline => ∃ o : Outcome, log = o.lines

/-- The iteration has begun. -/
def Point.InLoop : Point → Prop
  | .head | .returned => False
  | _ => True

/-- What the iterations log together. -/
def logOf (outcomes : List Outcome) : List Line := outcomes.flatMap fun o => o.lines ++ [.newline]

/-- The invariant of the program. -/
structure Inv (n : ℕ) (s : State) : Prop where
  output : ∃ outcomes log, s.output = logOf outcomes ++ log ∧ outcomes.length = s.i ∧
    s.point.Logged s.operation.isActive s.timeout.isActive s.cancelled log
  aborted : s.operation = .ready .aborted → s.cancelled = true
  lt : s.point.InLoop → s.i < n
  le : s.i ≤ n
  returned : s.point = .returned → s.i = n

theorem inv_init (n : ℕ) : Inv n (system n).init where
  output := ⟨[], [], rfl, rfl, rfl⟩
  aborted h := by cases h
  lt h := h.elim
  le := Nat.zero_le n
  returned h := by cases h

variable {n : ℕ} {s s' : State} {a : Action}

/-- A step that prints `lines` and stays in the iteration. -/
theorem Inv.move (h : Inv n s) {s' : State} {lines : List Line} (hi : s'.i = s.i)
    (hout : s'.output = s.output ++ lines)
    (hlog : ∀ log, s.point.Logged s.operation.isActive s.timeout.isActive s.cancelled log →
      s'.point.Logged s'.operation.isActive s'.timeout.isActive s'.cancelled (log ++ lines))
    (haborted : s'.operation = .ready .aborted → s'.cancelled = true)
    (hlt : s'.point.InLoop → s.i < n) (hreturned : s'.point = .returned → s.i = n) :
    Inv n s' := by
  obtain ⟨outcomes, log, hout', hlength, hlog'⟩ := h.output
  refine ⟨⟨outcomes, log ++ lines, ?_, by rw [hlength, hi], hlog log hlog'⟩, haborted, ?_, ?_, ?_⟩
  · rw [hout, hout', List.append_assoc]
  · exact fun hloop => hi ▸ hlt hloop
  · exact hi ▸ h.le
  · exact fun hret => hi.trans (hreturned hret)

/-- A slot completes. -/
theorem Inv.complete (h : Inv n s) {operation : Slot TimerResult} {timeout : Slot Unit}
    (hoperation : operation.isActive = s.operation.isActive)
    (htimeout : timeout.isActive = s.timeout.isActive)
    (haborted : operation = .ready .aborted → s.cancelled = true) :
    Inv n { s with operation := operation, timeout := timeout } :=
  h.move rfl (List.append_nil _).symm
    (fun log hlog => by rwa [List.append_nil, hoperation, htimeout]) haborted h.lt h.returned

/-- A statement of the loop over the results, which prints `lines`. -/
private theorem Inv.stay (h : Inv n s) {s' : State} {lines : List Line} (hloop : s.point.InLoop)
    (hi : s'.i = s.i) (hout : s'.output = s.output ++ lines)
    (hlog : ∀ log, s.point.Logged s.operation.isActive s.timeout.isActive s.cancelled log →
      s'.point.Logged s'.operation.isActive s'.timeout.isActive s'.cancelled (log ++ lines))
    (haborted : s'.operation = .ready .aborted → s'.cancelled = true)
    (hreturned : s'.point ≠ .returned) : Inv n s' :=
  h.move hi hout hlog haborted (fun _ => h.lt hloop) fun he => absurd he hreturned

/-! ### The statements of `main` -/

section Main

variable {ec : TimerResult}

/-- An iteration starts with both forks running and nothing logged. -/
theorem Inv.start (h : Inv n s) (hp : s.point = .head) (hi : s.i < n) :
    Inv n { s with
      point := .awaitMux
      operation := .pending
      timeout := .pending
      cancelled := false } := by
  refine h.move rfl (List.append_nil _).symm (fun log hlog => ?_) nofun (fun _ => hi) nofun
  rw [hp] at hlog
  rw [List.append_nil, show log = [] from hlog]
  exact ⟨rfl, fun _ => rfl⟩

theorem Inv.return (h : Inv n s) (hp : s.point = .head) (hi : ¬ s.i < n) :
    Inv n { s with point := .returned } := by
  refine h.move rfl (List.append_nil _).symm (fun log hlog => ?_) h.aborted (fun he => he.elim)
    fun _ => Nat.le_antisymm h.le (Nat.le_of_not_lt hi)
  rw [hp] at hlog
  rw [List.append_nil]
  exact hlog

private theorem Inv.awaitOperation (h : Inv n s) (hp : s.point = .awaitMux)
    (hready : s.operation = .ready ec) :
    Inv n { s with point := .case0 ec, operation := .inactive } := by
  refine h.stay (by rw [hp]; trivial) rfl (List.append_nil _).symm (fun log hlog => ?_) nofun nofun
  rw [hp, hready] at hlog
  obtain ⟨hlog, hcancelled⟩ := hlog
  rw [List.append_nil]
  refine ⟨rfl, fun ht => ⟨hcancelled ht, ?_⟩, ?_⟩
  · cases ec with
    | expired => rfl
    | aborted =>
      -- An operation that has not been cancelled does not abort.
      have habort := h.aborted hready
      rw [hcancelled ht] at habort
      cases habort
  · cases ht : s.timeout.isActive <;> rw [ht] at hlog <;> exact hlog

private theorem Inv.awaitTimeout (h : Inv n s) (hp : s.point = .awaitMux)
    (hready : s.timeout = .ready ()) : Inv n { s with point := .case1, timeout := .inactive } := by
  refine h.stay (by rw [hp]; trivial) rfl (List.append_nil _).symm (fun log hlog => ?_) h.aborted
    nofun
  rw [hp, hready] at hlog
  rw [List.append_nil]
  exact ⟨rfl, hlog.1⟩

/-- When neither fork is active, the lines of the iteration are those of an outcome. -/
theorem Inv.awaitEnd (h : Inv n s) (hp : s.point = .awaitMux) (hoperation : s.operation = .inactive)
    (htimeout : s.timeout = .inactive) : Inv n { s with point := .newline } := by
  refine h.stay (by rw [hp]; trivial) rfl (List.append_nil _).symm (fun log hlog => ?_) h.aborted
    nofun
  rw [hp, hoperation, htimeout] at hlog
  rw [List.append_nil]
  exact hlog.1

private theorem Inv.logErrorCode (h : Inv n s) (hp : s.point = .case0 ec) :
    Inv n { s with point := .awaitMux, output := s.output ++ [MuxTimeout.logErrorCode ec] } := by
  refine h.stay (by rw [hp]; trivial) rfl rfl (fun log hlog => ?_) h.aborted nofun
  rw [hp] at hlog
  obtain ⟨hoperation, hcancelled, hlog⟩ := hlog
  refine ⟨?_, fun ht => (hcancelled ht).1⟩
  dsimp only
  rw [hoperation]
  cases ht : s.timeout.isActive with
  | true =>
    rw [ht, if_pos rfl] at hlog
    rw [(hcancelled ht).2, hlog]
    rfl
  | false =>
    rw [ht, if_neg Bool.false_ne_true] at hlog
    rw [hlog]
    cases ec with
    | expired => exact ⟨.completedLate, rfl⟩
    | aborted => exact ⟨.canceled, rfl⟩

private theorem Inv.logTimeout (h : Inv n s) (hp : s.point = .case1) :
    Inv n { s with point := .cancel, output := s.output ++ [.timeoutOccurred] } := by
  refine h.stay (by rw [hp]; trivial) rfl rfl (fun log hlog => ?_) h.aborted nofun
  rw [hp] at hlog
  exact ⟨hlog.1, by rw [hlog.2]⟩

/-- The cancellation is signaled only behind the timeout. -/
theorem Inv.cancel (h : Inv n s) (hp : s.point = .cancel) :
    Inv n { s with
      point := .logSignaled
      cancelled := s.cancelled || s.operation == .pending } := by
  refine h.stay (by rw [hp]; trivial) rfl (List.append_nil _).symm (fun log hlog => ?_)
    (fun he => ?_) nofun
  · rw [hp] at hlog
    rw [List.append_nil]
    exact hlog
  · rw [h.aborted he, Bool.true_or]

private theorem Inv.logSignaled (h : Inv n s) (hp : s.point = .logSignaled) :
    Inv n { s with point := .awaitMux, output := s.output ++ [.cancellationSignaled] } := by
  refine h.stay (by rw [hp]; trivial) rfl rfl (fun log hlog => ?_) h.aborted nofun
  rw [hp] at hlog
  obtain ⟨htimeout, hlog⟩ := hlog
  dsimp only
  rw [hlog, htimeout]
  refine ⟨?_, nofun⟩
  cases s.operation.isActive with
  | true => rfl
  | false => exact ⟨.completedInTime, rfl⟩

/-- The end of an iteration: its lines are those of an outcome. -/
private theorem Inv.newline (h : Inv n s) (hp : s.point = .newline) :
    Inv n { s with point := .head, i := s.i + 1, output := s.output ++ [.newline] } := by
  have hi := h.lt (by rw [hp]; trivial)
  obtain ⟨outcomes, log, hout, hlength, hlog⟩ := h.output
  rw [hp] at hlog
  obtain ⟨o, rfl⟩ := hlog
  refine ⟨⟨outcomes ++ [o], [], ?_, ?_, rfl⟩, h.aborted, fun he => he.elim, hi, nofun⟩
  · dsimp only
    rw [hout, logOf, logOf, List.flatMap_append, List.flatMap_singleton, List.append_assoc,
      List.append_nil]
  · rw [List.length_append, List.length_singleton, hlength]

end Main

/-- Every step keeps the account of the log. -/
theorem inv_step (h : Inv n s) (hs : Step n s a s') : Inv n s' := by
  cases hs with
  | start hp hi => exact h.start hp hi
  | «return» hp hi => exact h.return hp hi
  | awaitOperation hp hready => exact h.awaitOperation hp hready
  | awaitTimeout hp hready => exact h.awaitTimeout hp hready
  | awaitEnd hp hoperation htimeout => exact h.awaitEnd hp hoperation htimeout
  | logErrorCode hp => exact h.logErrorCode hp
  | logTimeout hp => exact h.logTimeout hp
  | cancel hp => exact h.cancel hp
  | logSignaled hp => exact h.logSignaled hp
  | newline hp => exact h.newline hp
  | operationExpires hpending => exact h.complete (by rw [hpending]; rfl) rfl nofun
  | operationAborts hpending hcancelled =>
    exact h.complete (by rw [hpending]; rfl) rfl fun _ => hcancelled
  | timeoutExpires hpending => exact h.complete rfl (by rw [hpending]; rfl) h.aborted

theorem inv_of_reachable (h : (system n).Reachable s) : Inv n s :=
  h.induct (inv_init n) fun _ _ _ _ hinv hs => inv_step hinv hs

/-! ### Every run ends -/

def operationRank : Slot TimerResult → ℕ
  | .inactive => 0
  | .ready _ => 2
  | .pending => 3

def timeoutRank : Slot Unit → ℕ
  | .inactive => 0
  | .ready _ => 4
  | .pending => 5

/-- How far a program point is from the end of its iteration, apart from the results that are not
reported yet. -/
def Point.rank : Point → ℕ
  | .newline | .returned => 0
  | .awaitMux => 1
  | .logSignaled | .case0 _ => 2
  | .cancel => 3
  | .case1 => 4
  | .head => 10

/-- The rank of a state. -/
def State.rank (n : ℕ) (s : State) : ℕ :=
  20 * (n - s.i) + s.point.rank + operationRank s.operation + timeoutRank s.timeout

/-- **Every step decreases the rank.** -/
theorem rank_step (h : Inv n s) (hs : Step n s a s') : s'.rank n < s.rank n := by
  cases hs with
  | start hp | «return» hp =>
    simp only [State.rank, hp, Point.rank, operationRank, timeoutRank]
    omega
  | awaitOperation hp hready | awaitTimeout hp hready =>
    simp only [State.rank, hp, hready, Point.rank, operationRank, timeoutRank]
    omega
  | awaitEnd hp | logErrorCode hp | logTimeout hp | cancel hp | logSignaled hp =>
    simp only [State.rank, hp, Point.rank]
    omega
  | newline hp =>
    have hi := h.lt (by rw [hp]; trivial)
    simp only [State.rank, hp, Point.rank]
    omega
  | operationExpires hpending | operationAborts hpending | timeoutExpires hpending =>
    simp only [State.rank, hpending, operationRank, timeoutRank]
    omega

/-- Each iteration takes finitely many steps, whoever completes first. -/
theorem system_terminating (n : ℕ) : (system n).Terminating :=
  LTS.terminating_of_rank (State.rank n) fun _ _ _ hr hs => rank_step (inv_of_reachable hr) hs

/-- **No deadlock.** Where no step is left, `main` has returned. -/
theorem returned_of_not_enabled (hend : ¬ (system n).Enabled s) : s.point = .returned := by
  cases hp : s.point with
  | returned => rfl
  | head =>
    by_cases hi : s.i < n
    · exact absurd ⟨_, _, .start hp hi⟩ hend
    · exact absurd ⟨_, _, .return hp hi⟩ hend
  | case0 ec => exact absurd ⟨_, _, .logErrorCode hp⟩ hend
  | case1 => exact absurd ⟨_, _, .logTimeout hp⟩ hend
  | cancel => exact absurd ⟨_, _, .cancel hp⟩ hend
  | logSignaled => exact absurd ⟨_, _, .logSignaled hp⟩ hend
  | newline => exact absurd ⟨_, _, .newline hp⟩ hend
  | awaitMux =>
    cases hoperation : s.operation with
    | pending => exact absurd ⟨_, _, .operationExpires hoperation⟩ hend
    | ready ec => exact absurd ⟨_, _, .awaitOperation hp hoperation⟩ hend
    | inactive =>
      cases htimeout : s.timeout with
      | pending => exact absurd ⟨_, _, .timeoutExpires htimeout⟩ hend
      | ready u => exact absurd ⟨_, _, .awaitTimeout hp htimeout⟩ hend
      | inactive => exact absurd ⟨_, _, .awaitEnd hp hoperation htimeout⟩ hend

/-! ### The possible logs -/

/-- An iteration in which the timeout comes first; the operation may then be aborted or not. -/
private theorem exists_timeout (ec : TimerResult) (h : (system n).Reachable s)
    (hp : s.point = .head) (hi : s.i < n) :
    ∃ s', (system n).Reachable s' ∧ s'.point = .head ∧ s'.i = s.i + 1 ∧
      s'.output = s.output ++
        [.timeoutOccurred, .cancellationSignaled, logErrorCode ec, .newline] := by
  have h := h.step (Step.start hp hi)
  have h := h.step (Step.timeoutExpires rfl)
  have h := h.step (Step.awaitTimeout rfl rfl)
  have h := h.step (Step.logTimeout rfl)
  have h := h.step (Step.cancel rfl)
  have h := h.step (Step.logSignaled rfl)
  have h : (system n).Reachable ⟨.awaitMux, s.i, .ready ec, .inactive, true,
      s.output ++ [.timeoutOccurred] ++ [.cancellationSignaled]⟩ := by
    cases ec with
    | expired => exact h.step (Step.operationExpires rfl)
    | aborted => exact h.step (Step.operationAborts rfl rfl)
  have h := h.step (Step.awaitOperation rfl rfl)
  have h := h.step (Step.logErrorCode rfl)
  have h := h.step (Step.awaitEnd rfl rfl rfl)
  have h := h.step (Step.newline rfl)
  exact ⟨_, h, rfl, rfl, by simp⟩

/-- An iteration can have each of the outcomes. -/
private theorem exists_iteration (o : Outcome) (h : (system n).Reachable s) (hp : s.point = .head)
    (hi : s.i < n) : ∃ s', (system n).Reachable s' ∧ s'.point = .head ∧ s'.i = s.i + 1 ∧
      s'.output = s.output ++ (o.lines ++ [.newline]) := by
  cases o with
  | canceled => exact exists_timeout .aborted h hp hi
  | completedLate => exact exists_timeout .expired h hp hi
  | completedInTime =>
    have h := h.step (Step.start hp hi)
    have h := h.step (Step.operationExpires rfl)
    have h := h.step (Step.awaitOperation rfl rfl)
    have h := h.step (Step.logErrorCode rfl)
    have h := h.step (Step.timeoutExpires rfl)
    have h := h.step (Step.awaitTimeout rfl rfl)
    have h := h.step (Step.logTimeout rfl)
    have h := h.step (Step.cancel rfl)
    have h := h.step (Step.logSignaled rfl)
    have h := h.step (Step.awaitEnd rfl rfl rfl)
    have h := h.step (Step.newline rfl)
    exact ⟨_, h, rfl, rfl, by simp [Outcome.lines, logErrorCode]⟩

private theorem exists_iterations (outcomes : List Outcome) (hlength : outcomes.length ≤ n) :
    ∃ s, (system n).Reachable s ∧ s.point = .head ∧ s.i = outcomes.length ∧
      s.output = logOf outcomes := by
  induction outcomes using List.reverseRecOn with
  | nil => exact ⟨_, .init, rfl, rfl, rfl⟩
  | append_singleton outcomes o ih =>
    rw [List.length_append, List.length_singleton] at hlength
    obtain ⟨s, h, hp, hi, hout⟩ := ih (by omega)
    obtain ⟨s', h', hp', hi', hout'⟩ := exists_iteration o h hp (by omega)
    refine ⟨s', h', hp', ?_, ?_⟩
    · rw [hi', hi, List.length_append, List.length_singleton]
    · rw [hout', hout, logOf, logOf, List.flatMap_append, List.flatMap_singleton]

/-- **The log of the timeout.** With any number of iterations every run ends, whichever of the
operation and the timeout completes first. In each iteration both results are logged once, and the
operation is logged as canceled only behind the cancellation, which is behind the timeout. Every
log of this form is that of a run. -/
theorem outputs_are_outcomes (n : ℕ) :
    ((system n).EndsIn fun s => s.point = .returned ∧
      ∃ outcomes : List Outcome, outcomes.length = n ∧ s.output = logOf outcomes) ∧
    ∀ outcomes : List Outcome, outcomes.length = n →
      ∃ s, (system n).Reachable s ∧ s.point = .returned ∧ s.output = logOf outcomes := by
  refine ⟨⟨system_terminating n, fun s hr hend => ?_⟩, fun outcomes hlength => ?_⟩
  · have hp := returned_of_not_enabled hend
    have hinv := inv_of_reachable hr
    obtain ⟨outcomes, log, hout, hlength, hlog⟩ := hinv.output
    rw [hp] at hlog
    rw [show log = [] from hlog, List.append_nil] at hout
    exact ⟨hp, outcomes, by rw [hlength, hinv.returned hp], hout⟩
  · obtain ⟨s, h, hp, hi, hout⟩ := exists_iterations outcomes hlength.le
    exact ⟨_, h.step (Step.return hp (by omega)), rfl, hout⟩

end MuxTimeout

end TmcExamples
