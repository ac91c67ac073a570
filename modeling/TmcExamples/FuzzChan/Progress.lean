import Mathlib.Algebra.Order.BigOperators.Group.Finset
import TmcExamples.FuzzChan.Control

/-!
# Every run of the fuzzer ends

The loops of the tasks are bounded by their counts, also that of a `try_pull_consumer` that finds
the channel empty, and the loop of the main task takes an element out of the channel in every
iteration; a post adds one. So every step decreases a rank. A consumer that waits in `pull()`
can go on when the channel is closed, so where no step is left the main task has finished.
-/

namespace TmcExamples

namespace FuzzChan

variable {w : ℕ} {actions : List (RandAction w)} {wait : Bool}
variable {s s' : State actions} {a : Action w actions.length}

/-! ### The rank -/

/-- How far the main task is from its end, when there are `n` actions. -/
def Main.rank (n : ℕ) : Main w → ℕ
  | .act tick => n - tick + 10
  | .awaitProducers => 9
  | .close => 8
  | .pull _ => 7
  | .add _ => 6
  | .drain => 5
  | .drainWait => 4
  | .awaitConsumers => 3
  | .compare => 2
  | .awaitLateProducers => 1
  | .finished => 0

/-- How far a forked task is from its end. -/
def Task.rank : Task w → ℕ
  | .posting _ len i => 2 * (len - i) + 1
  | .consuming _ count i _ => count - i + 1
  | .notForked | .returned => 0

/-- How far task `k` is from its end; before its fork, from that of the task that is forked. -/
def taskRank (actions : List (RandAction w)) (k : Fin actions.length) : Task w → ℕ
  | .notForked => ((actions.get k).task 0).rank
  | t => t.rank

/-- The rank of a state. -/
def State.rank (s : State actions) : ℕ :=
  s.main.rank actions.length + ∑ k, taskRank actions k (s.task k) + s.chan.size

/-- The rank of a new task does not depend on `base`. -/
private theorem rank_task (a : RandAction w) (base : BitVec w) :
    (a.task base).rank = (a.task 0).rank := by
  cases a with
  | bulkProducer count =>
    simp only [RandAction.task, iotaSize_add]
    rfl
  | _ => rfl

private theorem taskRank_fork (k : Fin actions.length) (base : BitVec w) :
    taskRank actions k ((actions.get k).task base) = taskRank actions k .notForked := by
  have hrank := rank_task (actions.get k) base
  simp only [taskRank]
  cases hk : actions.get k <;> rw [hk] at hrank <;> exact hrank

/-- A step of a task that decreases its rank, by more than it puts into the channel. -/
private theorem rank_lt_of_task {k : Fin actions.length} {t : Task w} {q : LogQueue (BitVec w)}
    {m : ℕ} (h : taskRank actions k t + m < taskRank actions k (s.task k))
    (hsize : q.size ≤ s.chan.size + m) (x : BitVec w) :
    State.rank { s with task := Function.update s.task k t, chan := q, fullSum := x } < s.rank := by
  have hsum := sum_update_apply_add (Finset.mem_univ k) s.task t fun j => taskRank actions j
  simp only [State.rank]
  omega

/-- An iteration of the loop of a consumer. -/
private theorem taskRank_consuming_lt {k : Fin actions.length} {kind : PullKind} {count i : ℕ}
    {sum : BitVec w} (ht : s.task k = .consuming kind count i sum) (hi : i < count)
    (sum' : BitVec w) :
    taskRank actions k (.consuming kind count (i + 1) sum') + 0 <
      taskRank actions k (s.task k) := by
  rw [ht]
  simp only [taskRank, Task.rank]
  omega

private theorem size_post_le (q : LogQueue (BitVec w)) (x : BitVec w) :
    (q.post x).size ≤ q.size + 1 := by
  unfold LogQueue.post
  split
  · exact Nat.le_succ _
  · exact (q.size_push x).le

/-- **Every step decreases the rank.** -/
theorem rank_step (h : ControlInv wait s) (hs : Step actions wait s a s') : s'.rank < s.rank := by
  cases hs with
  | @fork k hm =>
    have hk := h.notForked k
    rw [hm] at hk
    have hsum := sum_update_apply_add (Finset.mem_univ k) s.task ((actions.get k).task s.base)
      fun j => taskRank actions j
    rw [hk le_rfl, taskRank_fork] at hsum
    have hlt := k.isLt
    simp only [State.rank, hm, Main.rank]
    omega
  | endActions hm | joinConsumers hm =>
    cases wait <;> simp only [State.rank, hm, Main.rank, if_true, Bool.false_eq_true, if_false] <;>
      omega
  | joinProducers hm | mainClosed hm | mainAdd hm | drained hm | compare hm
  | joinLateProducers hm =>
    simp only [State.rank, hm, Main.rank]
    omega
  | close hm | drain hm =>
    simp only [State.rank, hm, Main.rank, LogQueue.size_close]
    omega
  | mainPull hm hfront =>
    have hsize := LogQueue.size_pop (LogQueue.head_lt_of_front? hfront)
    simp only [State.rank, hm, Main.rank]
    omega
  | @post k base len i ht hi =>
    have hlt : taskRank actions k (.posting base len (i + 1)) + 1 <
        taskRank actions k (s.task k) := by
      rw [ht]
      simp only [taskRank, Task.rank]
      omega
    exact rank_lt_of_task hlt (size_post_le _ _) _
  | @producerReturn k base len i ht hi =>
    have hlt : taskRank actions k .returned + 0 < taskRank actions k (s.task k) := by
      rw [ht]
      exact Nat.succ_pos _
    exact rank_lt_of_task hlt le_rfl _
  | @pull k kind count i sum data ht hi hfront =>
    exact rank_lt_of_task (taskRank_consuming_lt ht hi _) s.chan.size_pop_le _
  | closed ht hi hdrained => exact rank_lt_of_task (taskRank_consuming_lt ht hi _) le_rfl _
  | tryPullEmpty ht hi hempty hopen =>
    exact rank_lt_of_task (taskRank_consuming_lt ht hi _) le_rfl _
  | @add k kind count i sum ht hi =>
    have hlt : taskRank actions k .returned + 0 < taskRank actions k (s.task k) := by
      rw [ht]
      exact Nat.succ_pos _
    exact rank_lt_of_task hlt le_rfl _

/-- What the test and its tasks have before them bounds the run. -/
theorem system_terminating (actions : List (RandAction w)) (wait : Bool) :
    (system actions wait).Terminating :=
  LTS.terminating_of_rank State.rank fun _ _ _ hr hs => rank_step (controlInv_of_reachable hr) hs

/-! ### Progress -/

/-- A task that posts has a step. -/
private theorem enabled_of_posting {k : Fin actions.length} {base : BitVec w} {len i : ℕ}
    (ht : s.task k = .posting base len i) : (system actions wait).Enabled s := by
  by_cases hi : i < len
  · exact ⟨_, _, Step.post ht hi⟩
  · exact ⟨_, _, Step.producerReturn ht hi⟩

/-- A consumer has a step when the channel is closed. -/
private theorem enabled_of_consuming {k : Fin actions.length} {kind : PullKind} {count i : ℕ}
    {sum : BitVec w} (ht : s.task k = .consuming kind count i sum)
    (hclosed : s.chan.closed = true) : (system actions wait).Enabled s := by
  by_cases hi : i < count
  · cases hfront : s.chan.front? with
    | none => exact ⟨_, _, Step.closed ht hi ⟨hclosed, LogQueue.front?_eq_none_iff.mp hfront⟩⟩
    | some data => exact ⟨_, _, Step.pull ht hi hfront⟩
  · exact ⟨_, _, Step.add ht hi⟩

/-- When all actions have been made, a task of a group that has not returned is in its loop. -/
theorem ControlInv.at_of_act (h : ControlInv wait s)
    (hm : s.main.forked actions.length = actions.length) (k : Fin actions.length) :
    (s.task k).At (actions.get k) (s.main.joined wait) :=
  h.task k (hm.symm ▸ k.isLt)

/-- The main task can join a group, or one of its tasks has a step. The consumers need the channel
to be closed. -/
private theorem joined_or_enabled (h : ControlInv wait s)
    (hm : s.main.forked actions.length = actions.length) {b : Bool}
    (hclosed : b = true → s.chan.closed = true) : s.Joined b ∨ (system actions wait).Enabled s := by
  by_cases hjoin : s.Joined b
  · exact Or.inl hjoin
  · right
    simp only [State.Joined, not_forall] at hjoin
    obtain ⟨k, hk, hreturned⟩ := hjoin
    have hat := h.at_of_act hm k
    cases ht : s.task k with
    | notForked =>
      rw [ht] at hat
      exact hat.elim
    | posting base len i => exact enabled_of_posting ht
    | consuming kind count i sum =>
      rw [ht] at hat
      exact enabled_of_consuming ht (hclosed (hk.symm.trans hat.1))
    | returned => exact absurd ht hreturned

/-- **No deadlock.** Where no step is left, the main task has finished. -/
theorem finished_of_not_enabled (h : ControlInv wait s)
    (hend : ¬ (system actions wait).Enabled s) : s.main = .finished := by
  have hclosed := h.closed
  have hdrained := h.drained
  have hforked := h.forked_le
  by_contra hne
  apply hend
  cases hm : s.main with
  | act tick =>
    rw [hm] at hforked
    have hle : tick ≤ actions.length := hforked
    rcases Nat.lt_or_eq_of_le hle with hlt | heq
    · let k : Fin actions.length := ⟨tick, hlt⟩
      have hk : s.main = .act k := hm
      exact ⟨_, _, Step.fork hk⟩
    · rw [heq] at hm
      exact ⟨_, _, Step.endActions hm⟩
  | awaitProducers =>
    rcases joined_or_enabled h (by rw [hm]; rfl) (b := false) nofun with hjoin | he
    · exact ⟨_, _, Step.joinProducers hm hjoin⟩
    · exact he
  | close => exact ⟨_, _, Step.close hm⟩
  | pull sum =>
    rw [hm] at hclosed
    cases hfront : s.chan.front? with
    | none =>
      exact ⟨_, _, Step.mainClosed hm ⟨hclosed, LogQueue.front?_eq_none_iff.mp hfront⟩⟩
    | some data => exact ⟨_, _, Step.mainPull hm hfront⟩
  | add sum => exact ⟨_, _, Step.mainAdd hm⟩
  | drain => exact ⟨_, _, Step.drain hm⟩
  | drainWait =>
    rw [hm] at hdrained
    exact ⟨_, _, Step.drained hm (LogQueue.front?_eq_none_iff.mpr (hdrained rfl).2)⟩
  | awaitConsumers =>
    rw [hm] at hclosed
    rcases joined_or_enabled h (by rw [hm]; rfl) (b := true) (fun _ => hclosed) with hjoin | he
    · exact ⟨_, _, Step.joinConsumers hm hjoin⟩
    · exact he
  | compare => exact ⟨_, _, Step.compare hm⟩
  | awaitLateProducers =>
    rcases joined_or_enabled h (by rw [hm]; rfl) (b := false) nofun with hjoin | he
    · exact ⟨_, _, Step.joinLateProducers hm hjoin⟩
    · exact he
  | finished => exact absurd hm hne

end FuzzChan

end TmcExamples
