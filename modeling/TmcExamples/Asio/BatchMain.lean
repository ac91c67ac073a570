import TmcExamples.Asio.BatchProcessor
import TmcExamples.Transition.Refinement

/-!
# The program of `batch_processor.cpp`

`main` forks the batch processor, posts its data, closes the queue and awaits the processor. It is
one of the surroundings that `BatchProcessor.system` allows, so a run of the program contains a run
of the processor (`refinement`), and what holds of the processor holds here. In these
surroundings the processor also comes to its end: every element is pulled once and starts the timer
once at most, so each step of the processor decreases a rank, and behind the close it is not
stuck.
-/

namespace TmcExamples

namespace BatchProcessor

variable {α : Type} {data : List α}

/-- The program points of `main`; it has posted `i` elements. -/
inductive Main
  | posting (i : ℕ)
  | await
  | returned

/-- The state of the program. -/
structure Program (α : Type) where
  main : Main
  processor : State α

/-- The statements of `main`, and the steps of the batch processor. -/
inductive ProgramAction (α : Type)
  | post (v : α)
  | close
  | join
  | processor (a : Action α)

/-- The steps of the program. -/
inductive ProgramStep (data : List α) : Program α → ProgramAction α → Program α → Prop
  | post {s : Program α} {i : ℕ} {v : α} (h : s.main = .posting i) (hv : data[i]? = some v) :
      ProgramStep data s (.post v)
        { main := .posting (i + 1)
          processor := { s.processor with queue := s.processor.queue.post v } }
  | close {s : Program α} {i : ℕ} (h : s.main = .posting i) (hend : data[i]? = none) :
      ProgramStep data s .close
        { main := .await
          processor := { s.processor with queue := s.processor.queue.close } }
  | join {s : Program α} (h : s.main = .await) (hreturned : s.processor.point = .returned) :
      ProgramStep data s .join { s with main := .returned }
  | processor {s : Program α} {a : Action α} {p : State α} (h : Step s.processor a p)
      (ha : ¬ a.IsExternal) : ProgramStep data s (.processor a) { s with processor := p }

/-- The program, from behind the fork of the batch processor. -/
def program (data : List α) : LTS (Program α) (ProgramAction α) where
  init := ⟨.posting 0, initial α⟩
  step := ProgramStep data

/-- What an action of the program is for the batch processor. -/
def ProgramAction.action : ProgramAction α → Option (Action α)
  | .post v => some (.post v)
  | .close => some .close
  | .join => none
  | .processor a => some a

/-- A run of the program contains one of the batch processor. -/
def refinement (data : List α) : (program data).Refinement (system α) where
  state := Program.processor
  action := ProgramAction.action
  init := rfl
  hidden hs ha := by
    cases hs with
    | join => rfl
    | post | close | processor => cases ha
  visible hs ha := by
    cases hs with
    | join => cases ha
    | post =>
      obtain rfl := Option.some.inj ha
      exact .post
    | close =>
      obtain rfl := Option.some.inj ha
      exact .close
    | processor hs =>
      obtain rfl := Option.some.inj ha
      exact hs

/-! ### What has been posted -/

variable {s s' : Program α} {a : ProgramAction α}

/-- What `main` has done to the queue. -/
def Main.Posted (data : List α) (q : LogQueue α) : Main → Prop
  | .posting i => q.closed = false ∧ q.log = data.take i
  | .await | .returned => q.closed = true ∧ q.log = data

/-- The batch processor neither puts an element into its queue nor closes it. -/
private theorem queue_of_not_external {s s' : State α} {a : Action α} (hs : Step s a s')
    (ha : ¬ a.IsExternal) : s'.queue.closed = s.queue.closed ∧ s'.queue.log = s.queue.log := by
  cases hs with
  | post | close => exact absurd trivial ha
  | _ => exact ⟨rfl, rfl⟩

private theorem posted_step (h : s.main.Posted data s.processor.queue)
    (hs : ProgramStep data s a s') : s'.main.Posted data s'.processor.queue := by
  cases hs with
  | @post i v hm hv =>
    rw [hm] at h
    obtain ⟨hopen, hlog⟩ := h
    refine ⟨by rw [LogQueue.post_closed, hopen], ?_⟩
    dsimp only
    obtain ⟨hi, rfl⟩ := List.getElem?_eq_some_iff.mp hv
    rw [LogQueue.post_of_open hopen, LogQueue.push_log, hlog, List.take_succ_eq_append_getElem hi]
  | close hm hend =>
    rw [hm] at h
    refine ⟨rfl, h.2.trans ?_⟩
    exact List.take_of_length_le (List.getElem?_eq_none_iff.mp hend)
  | join hm hreturned =>
    rw [hm] at h
    exact h
  | processor hstep ha =>
    obtain ⟨hclosed, hlog⟩ := queue_of_not_external hstep ha
    dsimp only
    cases hm : s.main with
    | posting | await | returned =>
      rw [hm] at h
      exact ⟨by rw [hclosed, h.1], by rw [hlog, h.2]⟩

private theorem posted_of_reachable (h : (program data).Reachable s) :
    s.main.Posted data s.processor.queue :=
  h.induct (P := fun s => s.main.Posted data s.processor.queue) ⟨rfl, rfl⟩
    fun _ _ _ _ hp hs => posted_step hp hs

/-! ### The rank -/

/-- How far the pull slot is from its end, apart from the element. -/
def pullRank : Slot (Option α) → ℕ
  | .inactive => 0
  | .ready _ => 2
  | .pending => 3

def timerRank : Slot TimerResult → ℕ
  | .inactive => 0
  | .ready _ => 3
  | .pending => 4

/-- How far a program point is from the head of the loop, and this one from the return. The slots
that are activated on the way are paid for in advance. -/
def Point.rank : Point α → ℕ
  | .returned => 0
  | .awaitMux => 1
  | .clear | .case0 _ => 2
  | .case1 => 3
  | .start => 5
  | .forkTimer => 6
  | .expiresAfter => 7
  | .testTimer => 8
  | .forkPull => 12

/-- The rank of the batch processor. An element that has not been put into the batch yet pays for
the rest of its iteration, and for its timer. -/
def State.rank (s : State α) : ℕ :=
  16 * (s.queue.size + s.pullSlot.element.length + s.point.element.length) +
    pullRank s.pullSlot + timerRank s.timerSlot + s.point.rank

/-- How far `main` is from its end; an element that is posted pays for the batch processor. -/
def Main.rank (n : ℕ) : Main → ℕ
  | .posting i => 17 * (n - i) + 2
  | .await => 1
  | .returned => 0

/-- **Every step of the batch processor decreases its rank.** -/
theorem processor_rank_step {s s' : State α} {a : Action α} (hs : Step s a s')
    (ha : ¬ a.IsExternal) : s'.rank < s.rank := by
  cases hs with
  | post | close => exact absurd trivial ha
  | @awaitPull r hp hslot =>
    cases r with
    | none | some v =>
      simp only [State.rank, hp, hslot, Slot.element, Point.element, pullRank, Point.rank,
        List.length_nil, List.length_singleton]
      omega
  | testTimer hp =>
    simp only [State.rank, hp]
    split <;> simp only [Point.element, Point.rank] <;> omega
  | pullReady hslot hfront =>
    have hsize := LogQueue.size_pop (LogQueue.head_lt_of_front? hfront)
    simp only [State.rank, hslot, Slot.element, pullRank, List.length_nil, List.length_singleton]
    omega
  | pullEmpty hslot =>
    simp only [State.rank, hslot, Slot.element, pullRank]
    omega
  | awaitTimer hp hslot =>
    simp only [State.rank, hp, hslot, Point.element, timerRank, Point.rank]
    omega
  | timerExpire hslot | timerAbort hslot =>
    simp only [State.rank, hslot, timerRank]
    omega
  | start hp | forkPull hp =>
    simp only [State.rank, hp, Slot.element, Point.element, pullRank, Point.rank, List.length_nil]
    omega
  | forkTimer hp =>
    simp only [State.rank, hp, Point.element, timerRank, Point.rank]
    omega
  | awaitEnd hp | cancel hp | process hp | clear hp | expiresAfter hp =>
    simp only [State.rank, State.cancelTimer, hp, Point.element, Point.rank]
    omega
  | pushBack hp =>
    simp only [State.rank, hp, Point.element, Point.rank, List.length_nil, List.length_singleton]
    omega

/-- The rank of the program. -/
def Program.rank (data : List α) (s : Program α) : ℕ := s.main.rank data.length + s.processor.rank

/-- **Every step of the program decreases the rank.** -/
theorem program_rank_step (h : s.main.Posted data s.processor.queue)
    (hs : ProgramStep data s a s') : s'.rank data < s.rank data := by
  cases hs with
  | @post i v hm hv =>
    rw [hm] at h
    have hi : i < data.length := (List.getElem?_eq_some_iff.mp hv).1
    simp only [Program.rank, State.rank, hm, Main.rank, LogQueue.post_of_open h.1,
      LogQueue.size_push]
    omega
  | close hm hend =>
    simp only [Program.rank, State.rank, hm, Main.rank, LogQueue.size_close]
    omega
  | join hm hreturned =>
    simp only [Program.rank, hm, Main.rank]
    omega
  | processor hstep ha =>
    have hlt := processor_rank_step hstep ha
    simp only [Program.rank]
    omega

private theorem program_terminating (data : List α) : (program data).Terminating :=
  LTS.terminating_of_rank (Program.rank data) fun _ _ _ hr hs =>
    program_rank_step (posted_of_reachable hr) hs

/-! ### The end of the program -/

/-- A batch processor that has returned has processed what was put into its queue. -/
private theorem BatchInv.processed_of_returned {s : State α} (h : BatchInv s)
    (hp : s.point = .returned) : s.processed.flatten = s.queue.log := by
  have htimer := h.timer
  have hpull := h.pull
  rw [hp] at htimer hpull
  calc s.processed.flatten
      = s.processed.flatten ++ s.batch ++ s.point.element := by
        rw [htimer.2, hp, List.append_nil]
        exact (List.append_nil _).symm
    _ = s.pulled := h.balance
    _ = s.pulled ++ s.pullSlot.element := by
        rw [Slot.element_of_inactive hpull.1, List.append_nil]
    _ = s.queue.taken := h.delivered
    _ = s.queue.log := hpull.2.taken_eq

/-- **No deadlock.** Where no step is left, `main` and the batch processor have returned. -/
theorem returned_of_not_enabled (h : s.main.Posted data s.processor.queue)
    (hend : ¬ (program data).Enabled s) :
    s.main = .returned ∧ s.processor.point = .returned := by
  have hprocessor : s.processor.queue.closed = true → s.processor.point = .returned := by
    intro hclosed
    by_contra hp
    obtain ⟨a, p, hstep, ha⟩ := exists_step_of_closed hclosed hp
    exact hend ⟨_, _, .processor hstep ha⟩
  cases hm : s.main with
  | returned =>
    rw [hm] at h
    exact ⟨rfl, hprocessor h.1⟩
  | await =>
    rw [hm] at h
    exact absurd ⟨_, _, .join hm (hprocessor h.1)⟩ hend
  | posting i =>
    cases hv : data[i]? with
    | none => exact absurd ⟨_, _, .close hm hv⟩ hend
    | some v => exact absurd ⟨_, _, .post hm hv⟩ hend

/-- **The program processes its data.** For any data: every run of the program ends with `main` and
the batch processor returned, whenever the timer expires or is aborted. The processed batches are
then the data in order, and none of them is empty. -/
theorem main_processes_all (data : List α) :
    (program data).EndsIn fun s =>
      s.main = .returned ∧ s.processor.point = .returned ∧
      s.processor.processed.flatten = data ∧ ∀ b ∈ s.processor.processed, b ≠ [] := by
  refine ⟨program_terminating data, fun s hr hend => ?_⟩
  have hposted := posted_of_reachable hr
  obtain ⟨hmain, hpoint⟩ := returned_of_not_enabled hposted hend
  have hinv := batch_invariant ((refinement data).reachable hr)
  rw [hmain] at hposted
  refine ⟨hmain, hpoint, ?_, hinv.batches⟩
  calc s.processor.processed.flatten = s.processor.queue.log := hinv.processed_of_returned hpoint
    _ = data := hposted.2

end BatchProcessor

end TmcExamples
