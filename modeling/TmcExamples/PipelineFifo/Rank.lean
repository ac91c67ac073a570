import TmcExamples.PipelineFifo.Values
import TmcExamples.Transition.Parties

/-!
# Every run of the FIFO pipeline is finite

The rank of a state is a pair in the lexicographic order. Its first component, `State.work`,
counts the steps that the driver, the workers and the end stage still have to take for the
inputs that are left, and the starts and ends of the tasks that are forked; every step but a
resumption decreases it. The second one, `State.suspensions`, counts the suspensions that
running coroutines still have before them. It has to come second because a coroutine may
suspend any number of times, so that no bound on it is known before the coroutine starts.
-/

namespace TmcExamples

namespace PipelineFifo

/-! ### The work of each party -/

/-- The work of the task whose handle is in the element. -/
def Element.work {Val : ℕ → Type} : {k : ℕ} → Element Val k → ℕ
  | _, .value _ _ => 0
  | _, .fork t => t.progress.work

/-- The suspensions of the task whose handle is in the element. -/
def Element.suspensions {Val : ℕ → Type} : {k : ℕ} → Element Val k → ℕ
  | _, .value _ _ => 0
  | _, .fork t => t.progress.suspensions

/-- The work of the driver, for `stages` stages and `n` inputs. -/
def Main.work (stages n : ℕ) : Main → ℕ
  | .construct k => n + 4 + (stages - k)
  | .push i => 3 + (n - i)
  | .close => 2
  | .join => 1
  | .finished => 0

/-- The work of a worker for the element in its hand. The push adds a task, which has work
of its own. -/
def Worker.work {α : Type} : Worker α → ℕ
  | .unstarted => 8
  | .pull => 7
  | .take => 6
  | .push _ => 5
  | .release => 1
  | .close => 1
  | .done => 0

/-- The work of the end stage for the element in its hand. -/
def Consumer.work {α : Type} : Consumer α → ℕ
  | .unstarted => 15
  | .pull => 14
  | .take => 13
  | .call _ => 12
  | .calling _ => 2
  | .push _ => 12
  | .drainPull false => 4
  | .drainAwait false => 3
  | .drainRelease false => 2
  | .release => 1
  | .drainPull true => 3
  | .drainAwait true => 2
  | .drainRelease true => 5
  | .drainTest => 4
  | .done => 0

/-- The suspensions of the call of the consume function in `inline_worker`. -/
def Consumer.suspensions {α : Type} : Consumer α → ℕ
  | .calling n => n
  | _ => 0

variable {pl : Pipeline}

namespace State

variable (s : State pl)

/-- The work of the worker of stage `k`: a round of its loop for every element to come, and
the rest of the round it is in. -/
def workerWork (k : ℕ) : ℕ :=
  7 * (pl.inputs.length - (s.queue k).head) + (s.worker k).work

/-- The work of the end stage; every handle that `worker` has not awaited costs one more
round of a drain. -/
def consumerWork : ℕ :=
  14 * (pl.inputs.length - (s.queue pl.stages).head) + s.consumer.work + 5 * s.active

/-- The work of the tasks whose handles are in queue `k`. -/
def taskWork (k : ℕ) : ℕ := ((s.queue k).log.map Element.work).sum

/-- The work of the consume tasks. -/
def consumeTaskWork : ℕ := (s.internalQueue.log.map fun t => t.progress.work).sum

/-- The first component of the rank. -/
def work : ℕ :=
  s.main.work pl.stages pl.inputs.length + s.consumerWork +
    ∑ k ∈ Finset.range pl.stages, s.workerWork k +
    ∑ k ∈ Finset.range (pl.stages + 1), s.taskWork k + s.consumeTaskWork

/-- The suspensions of the tasks whose handles are in queue `k`. -/
def taskSuspensions (k : ℕ) : ℕ := ((s.queue k).log.map Element.suspensions).sum

/-- The second component of the rank. -/
def suspensions : ℕ :=
  s.consumer.suspensions + ∑ k ∈ Finset.range (pl.stages + 1), s.taskSuspensions k +
    (s.internalQueue.log.map fun t => t.progress.suspensions).sum

/-- The rank of a state. -/
def rank : ℕ ×ₗ ℕ := toLex (s.work, s.suspensions)

private theorem rank_lt_of_work {s s' : State pl} (h : s'.work < s.work) : s'.rank < s.rank :=
  Prod.Lex.toLex_lt_toLex.mpr (Or.inl h)

private theorem rank_lt_of_suspensions {s s' : State pl} (h : s'.work = s.work)
    (hs : s'.suspensions < s.suspensions) : s'.rank < s.rank :=
  Prod.Lex.toLex_lt_toLex.mpr (Or.inr ⟨h, hs⟩)

end State

/-! ### Totals under an update -/

private theorem work_take {k : ℕ} (e : Element pl.Val k) : e.take.work = e.work := by
  cases e <;> rfl

section Update

variable (s : State pl) {j m : ℕ} (q₂ : LogQueue (Element pl.Val m)) (w : Worker (pl.Val j))

/-- Replacing queue `m` trades the work of its tasks. -/
private theorem sum_taskWork_setQueue (hm : m ≤ pl.stages) :
    ∑ k ∈ Finset.range (pl.stages + 1), (s.setQueue m q₂).taskWork k + s.taskWork m =
      ∑ k ∈ Finset.range (pl.stages + 1), s.taskWork k + (q₂.log.map Element.work).sum := by
  have hself : (s.setQueue m q₂).taskWork m = (q₂.log.map Element.work).sum := by
    rw [State.taskWork, setQueue_self]
  rw [← hself]
  refine sum_add_eq_of_eq_off (Finset.mem_range.mpr (Nat.lt_succ_of_le hm)) fun k _ hk => ?_
  rw [State.taskWork, State.taskWork, setQueue_of_ne _ _ hk]

private theorem sum_taskSuspensions_setQueue (hm : m ≤ pl.stages) :
    ∑ k ∈ Finset.range (pl.stages + 1), (s.setQueue m q₂).taskSuspensions k +
        s.taskSuspensions m =
      ∑ k ∈ Finset.range (pl.stages + 1), s.taskSuspensions k +
        (q₂.log.map Element.suspensions).sum := by
  have hself : (s.setQueue m q₂).taskSuspensions m = (q₂.log.map Element.suspensions).sum := by
    rw [State.taskSuspensions, setQueue_self]
  rw [← hself]
  refine sum_add_eq_of_eq_off (Finset.mem_range.mpr (Nat.lt_succ_of_le hm)) fun k _ hk => ?_
  rw [State.taskSuspensions, State.taskSuspensions, setQueue_of_ne _ _ hk]

/-- The other workers do not notice a step of worker `j` that leaves their queues at the
same position. -/
private theorem sum_workerWork_setWorker (hj : j < pl.stages)
    (hh : m ≠ j → q₂.head = (s.queue m).head) :
    ∑ k ∈ Finset.range pl.stages, ((s.setQueue m q₂).setWorker j w).workerWork k +
        s.workerWork j =
      ∑ k ∈ Finset.range pl.stages, s.workerWork k +
        ((s.setQueue m q₂).setWorker j w).workerWork j := by
  refine sum_add_eq_of_eq_off (Finset.mem_range.mpr hj) fun k _ hk => ?_
  rw [State.workerWork, State.workerWork, setWorker_of_ne _ _ hk, setWorker_queue]
  by_cases hkm : k = m
  · subst hkm
    rw [setQueue_self, hh hk]
    rfl
  · rw [setQueue_of_ne _ _ hkm]
    rfl

private theorem sum_workerWork_setQueue
    (hh : m < pl.stages → q₂.head = (s.queue m).head) :
    ∑ k ∈ Finset.range pl.stages, (s.setQueue m q₂).workerWork k =
      ∑ k ∈ Finset.range pl.stages, s.workerWork k := by
  refine Finset.sum_congr rfl fun k hk => ?_
  rw [State.workerWork, State.workerWork]
  by_cases hkm : k = m
  · subst hkm
    rw [setQueue_self, hh (Finset.mem_range.mp hk)]
    rfl
  · rw [setQueue_of_ne _ _ hkm]
    rfl

/-- The end stage does not notice a step that leaves its queue at the same position. -/
private theorem consumerWork_setQueue (hh : m = pl.stages → q₂.head = (s.queue m).head) :
    (s.setQueue m q₂).consumerWork = s.consumerWork := by
  rw [State.consumerWork, State.consumerWork]
  by_cases hm : pl.stages = m
  · subst hm
    rw [setQueue_self, hh rfl]
    rfl
  · rw [setQueue_of_ne _ _ hm]
    rfl

/-- The work after a step that replaces queue `m` and leaves it at the same position. -/
private theorem work_setQueue (hm : m ≤ pl.stages) (hh : q₂.head = (s.queue m).head) :
    (s.setQueue m q₂).work + s.taskWork m = s.work + (q₂.log.map Element.work).sum := by
  have htasks := sum_taskWork_setQueue s q₂ hm
  have hworkers := sum_workerWork_setQueue s q₂ fun _ => hh
  have hconsumer := consumerWork_setQueue s q₂ fun _ => hh
  have hinternal : (s.setQueue m q₂).consumeTaskWork = s.consumeTaskWork := rfl
  rw [State.work, State.work, hworkers, hconsumer, hinternal, setQueue_main]
  omega

/-- A step of the driver. -/
private theorem work_main_lt {m n : Main} (hm : s.main = m)
    (h : n.work pl.stages pl.inputs.length < m.work pl.stages pl.inputs.length) :
    ({ s with main := n } : State pl).work < s.work := by
  subst hm
  change n.work pl.stages pl.inputs.length + s.consumerWork +
    ∑ j ∈ Finset.range pl.stages, s.workerWork j +
    ∑ j ∈ Finset.range (pl.stages + 1), s.taskWork j + s.consumeTaskWork < s.work
  rw [State.work]
  omega

/-- A step of worker `j` on queue `m`. -/
private theorem work_setWorker_lt (hj : j < pl.stages) (hm : m ≤ pl.stages)
    (hh : m ≠ j → q₂.head = (s.queue m).head)
    (h : 7 * (pl.inputs.length - ((s.setQueue m q₂).queue j).head) + w.work +
        (q₂.log.map Element.work).sum <
      7 * (pl.inputs.length - (s.queue j).head) + (s.worker j).work + s.taskWork m) :
    ((s.setQueue m q₂).setWorker j w).work < s.work := by
  have hworkers := sum_workerWork_setWorker s q₂ w hj hh
  have htasks := sum_taskWork_setQueue s q₂ hm
  have hconsumer := consumerWork_setQueue s q₂ fun he => hh (by omega)
  have hself : ((s.setQueue m q₂).setWorker j w).workerWork j =
      7 * (pl.inputs.length - ((s.setQueue m q₂).queue j).head) + w.work := by
    rw [State.workerWork, setWorker_self, setWorker_queue]
  -- The move of the worker concerns no other party.
  have htasks' : ∑ k ∈ Finset.range (pl.stages + 1), ((s.setQueue m q₂).setWorker j w).taskWork k =
      ∑ k ∈ Finset.range (pl.stages + 1), (s.setQueue m q₂).taskWork k := rfl
  have hconsumer' : ((s.setQueue m q₂).setWorker j w).consumerWork =
      (s.setQueue m q₂).consumerWork := rfl
  have hinternal : ((s.setQueue m q₂).setWorker j w).consumeTaskWork = s.consumeTaskWork := rfl
  have hmain : ((s.setQueue m q₂).setWorker j w).main = s.main := rfl
  rw [hself, State.workerWork] at hworkers
  rw [State.work, State.work, htasks', hconsumer', hconsumer, hinternal, hmain]
  omega

/-- A step of worker `j` alone. -/
private theorem work_setWorker_alone_lt {w' : Worker (pl.Val j)} (hj : j < pl.stages)
    (hw : s.worker j = w') (h : w.work < w'.work) : (s.setWorker j w).work < s.work := by
  subst hw
  have hsame : s.setQueue j (s.queue j) = s := by
    rw [State.setQueue, Function.update_eq_self]
  have hlt := work_setWorker_lt s (s.queue j) w hj (Nat.le_of_lt hj) (fun _ => rfl) (by
    rw [hsame, State.taskWork]
    omega)
  rwa [hsame] at hlt

end Update

/-! ### The steps -/

variable {s : State pl}

/-- A step of a task of stage `k`. -/
private theorem rank_task {k i : ℕ} (hk : k < pl.stages) {e : TaskEvent}
    {t t' : Fork (pl.Val k) (pl.Val (k + 1))} (ht : (s.queue (k + 1)).log[i]? = some (.fork t))
    (hadv : (pl.func k).Advance e t t') :
    (s.setQueue (k + 1) ((s.queue (k + 1)).modify i fun _ => .fork t')).rank < s.rank := by
  set q₂ := (s.queue (k + 1)).modify i fun _ => .fork t' with hq₂
  have hwork := LogQueue.sum_log_modify ht (fun _ => .fork t') Element.work
  have hsusp := LogQueue.sum_log_modify ht (fun _ => .fork t') Element.suspensions
  rw [← hq₂] at hwork hsusp
  have htotal : (s.setQueue (k + 1) q₂).work + t.progress.work =
      s.work + t'.progress.work := by
    have hqueue := work_setQueue s q₂ hk rfl
    rw [State.taskWork] at hqueue
    change (q₂.log.map Element.work).sum + t.progress.work = _ + t'.progress.work at hwork
    omega
  rcases hadv.work_lt with hlt | ⟨heq, hlt⟩
  · exact State.rank_lt_of_work (by omega)
  · refine State.rank_lt_of_suspensions (by omega) ?_
    have htasks := sum_taskSuspensions_setQueue s q₂ hk
    rw [State.taskSuspensions] at htasks
    change (q₂.log.map Element.suspensions).sum + t.progress.suspensions =
      _ + t'.progress.suspensions at hsusp
    have hrest : (s.setQueue (k + 1) q₂).suspensions =
        s.consumer.suspensions +
          ∑ k' ∈ Finset.range (pl.stages + 1), (s.setQueue (k + 1) q₂).taskSuspensions k' +
          (s.internalQueue.log.map fun t => t.progress.suspensions).sum := rfl
    rw [hrest, State.suspensions]
    omega

/-- A step of a consume task. -/
private theorem rank_consumeTask {i : ℕ} {e : TaskEvent} {t t' : Fork pl.Out Unit}
    (ht : s.internalQueue.log[i]? = some t) (hadv : pl.consume.Advance e t t')
    (l : List pl.Out) :
    ({ s with internalQueue := s.internalQueue.modify i fun _ => t', consumed := l } :
      State pl).rank < s.rank := by
  have hwork := LogQueue.sum_log_modify ht (fun _ => t') fun t => t.progress.work
  have hsusp := LogQueue.sum_log_modify ht (fun _ => t') fun t => t.progress.suspensions
  rcases hadv.work_lt with hlt | ⟨heq, hlt⟩
  · refine State.rank_lt_of_work ?_
    change s.main.work pl.stages pl.inputs.length + s.consumerWork +
      ∑ k ∈ Finset.range pl.stages, s.workerWork k +
      ∑ k ∈ Finset.range (pl.stages + 1), s.taskWork k +
      ((s.internalQueue.modify i fun _ => t').log.map fun t => t.progress.work).sum < s.work
    rw [State.work, State.consumeTaskWork]
    omega
  · refine State.rank_lt_of_suspensions ?_ ?_
    · change s.main.work pl.stages pl.inputs.length + s.consumerWork +
        ∑ k ∈ Finset.range pl.stages, s.workerWork k +
        ∑ k ∈ Finset.range (pl.stages + 1), s.taskWork k +
        ((s.internalQueue.modify i fun _ => t').log.map fun t => t.progress.work).sum = s.work
      rw [State.work, State.consumeTaskWork]
      omega
    · change s.consumer.suspensions +
        ∑ k ∈ Finset.range (pl.stages + 1), s.taskSuspensions k +
        ((s.internalQueue.modify i fun _ => t').log.map fun t => t.progress.suspensions).sum <
        s.suspensions
      rw [State.suspensions]
      omega

/-- A step of the end stage on its own variables and `internalQueue`. -/
private theorem work_consumer_lt {c : Consumer pl.Out} {iq : LogQueue (Fork pl.Out Unit)}
    {a : ℕ} {l : List pl.Out}
    (h : c.work + 5 * a + (iq.log.map fun t => t.progress.work).sum <
      s.consumer.work + 5 * s.active + s.consumeTaskWork) :
    ({ s with consumer := c, internalQueue := iq, active := a, consumed := l } :
      State pl).work < s.work := by
  change s.main.work pl.stages pl.inputs.length +
    (14 * (pl.inputs.length - (s.queue pl.stages).head) + c.work + 5 * a) +
    ∑ k ∈ Finset.range pl.stages, s.workerWork k +
    ∑ k ∈ Finset.range (pl.stages + 1), s.taskWork k +
    (iq.log.map fun t => t.progress.work).sum < s.work
  rw [State.work, State.consumerWork]
  omega

/-- A step of the end stage on its input queue. -/
private theorem work_consumer_setQueue_lt {c : Consumer pl.Out}
    {q₂ : LogQueue (Element pl.Val pl.stages)}
    (hq : (q₂.log.map Element.work).sum = s.taskWork pl.stages)
    (h : 14 * (pl.inputs.length - q₂.head) + c.work <
      14 * (pl.inputs.length - (s.queue pl.stages).head) + s.consumer.work) :
    ({ s.setQueue pl.stages q₂ with consumer := c } : State pl).work < s.work := by
  have htasks := sum_taskWork_setQueue s q₂ (Nat.le_refl _)
  have hworkers := sum_workerWork_setQueue s q₂ fun hlt => (Nat.lt_irrefl _ hlt).elim
  have hconsumer : ({ s.setQueue pl.stages q₂ with consumer := c } : State pl).consumerWork =
      14 * (pl.inputs.length - q₂.head) + c.work + 5 * s.active := by
    rw [State.consumerWork]
    simp only [setQueue_self]
    rfl
  change s.main.work pl.stages pl.inputs.length +
    ({ s.setQueue pl.stages q₂ with consumer := c } : State pl).consumerWork +
    ∑ k ∈ Finset.range pl.stages, (s.setQueue pl.stages q₂).workerWork k +
    ∑ k ∈ Finset.range (pl.stages + 1), (s.setQueue pl.stages q₂).taskWork k +
    s.consumeTaskWork < s.work
  rw [hconsumer, hworkers, State.work, State.consumerWork]
  omega

/-! ### The driver -/

section Driver

variable {k i : ℕ} {v : pl.Val 0}

private theorem rank_construct (h : Inv s) (hm : s.main = .construct k) (hk : k < pl.stages) :
    ({ s.setWorker k .pull with main := .construct (k + 1) } : State pl).rank < s.rank := by
  have hun : s.worker k = .unstarted := (h.main.worker k hk).mpr ⟨k, Nat.le_refl k, hm⟩
  have hlt : (s.setWorker k .pull).work < s.work :=
    work_setWorker_alone_lt s _ hk hun (Nat.lt_succ_self _)
  refine State.rank_lt_of_work ?_
  calc ({ s.setWorker k .pull with main := .construct (k + 1) } : State pl).work
      < (s.setWorker k .pull).work := work_main_lt _ hm (by rw [Main.work, Main.work]; omega)
    _ < s.work := hlt

private theorem rank_constructEnd (h : Inv s) (hm : s.main = .construct pl.stages) :
    ({ s with main := .push 0, consumer := .pull } : State pl).rank < s.rank := by
  have hun : s.consumer = .unstarted := h.main.consumer.mpr ⟨_, hm⟩
  have hlt : ({ s with consumer := .pull } : State pl).work < s.work :=
    work_consumer_lt (by
      rw [hun]
      exact Nat.add_lt_add_right (Nat.add_lt_add_right (Nat.lt_succ_self _) _) _)
  refine State.rank_lt_of_work ((work_main_lt { s with consumer := .pull } hm ?_).trans hlt)
  rw [Main.work, Main.work]
  omega

private theorem rank_driverPush (hm : s.main = .push i) (hv : pl.inputs[i]? = some v) :
    ({ s.setQueue 0 ((s.queue 0).push (.value v 0)) with main := .push (i + 1) } :
      State pl).rank < s.rank := by
  have hi : i < pl.inputs.length := (List.getElem?_eq_some_iff.mp hv).1
  have hsum : (((s.queue 0).push (.value v 0)).log.map Element.work).sum = s.taskWork 0 := by
    rw [LogQueue.push_log, List.map_append, List.sum_append]
    rfl
  have hqueue := work_setQueue s ((s.queue 0).push (.value v 0)) (Nat.zero_le _) rfl
  have hmain := work_main_lt (s.setQueue 0 ((s.queue 0).push (.value v 0)))
    (n := .push (i + 1)) hm (by
      rw [Main.work, Main.work]
      omega)
  exact State.rank_lt_of_work (hmain.trans_le (by omega))

private theorem rank_driverLoopExit (hm : s.main = .push i) :
    ({ s with main := .close } : State pl).rank < s.rank := by
  refine State.rank_lt_of_work (work_main_lt s hm ?_)
  rw [Main.work, Main.work]
  omega

private theorem rank_driverClose (hm : s.main = .close) :
    ({ s.setQueue 0 (s.queue 0).close with main := .join } : State pl).rank < s.rank := by
  have hqueue := work_setQueue s (s.queue 0).close (Nat.zero_le _) rfl
  have hsum : ((s.queue 0).close.log.map Element.work).sum = s.taskWork 0 := rfl
  have hmain := work_main_lt (s.setQueue 0 (s.queue 0).close) (n := .join) hm
    (Nat.lt_succ_self _)
  exact State.rank_lt_of_work (hmain.trans_le (by omega))

end Driver

/-! ### The workers -/

section Workers

variable {k : ℕ}

private theorem rank_pullEmpty (hk : k < pl.stages) (hw : s.worker k = .pull) :
    (s.setWorker k .close).rank < s.rank := by
  refine State.rank_lt_of_work (work_setWorker_alone_lt s _ hk hw ?_)
  rw [Worker.work, Worker.work]
  omega

private theorem rank_take {v : pl.Val k} (hk : k < pl.stages) (hw : s.worker k = .take) :
    ((s.setQueue k ((s.queue k).modify (s.queue k).head Element.take)).setWorker k
      (.push v)).rank < s.rank := by
  have hsum : (((s.queue k).modify (s.queue k).head Element.take).log.map Element.work).sum =
      s.taskWork k :=
    congrArg List.sum (LogQueue.map_log_modify fun x _ => work_take x)
  refine State.rank_lt_of_work
    (work_setWorker_lt s _ _ hk (Nat.le_of_lt hk) (fun hne => (hne rfl).elim) ?_)
  rw [hsum, setQueue_self, LogQueue.modify_head, hw, Worker.work, Worker.work]
  omega

/-- The handle that is pushed stands for a task of work `2`. -/
private theorem rank_push {v : pl.Val k} (hk : k < pl.stages) (hw : s.worker k = .push v) :
    ((s.setQueue (k + 1) ((s.queue (k + 1)).push (.fork (.spawn v)))).setWorker k
      .release).rank < s.rank := by
  have hsum : (((s.queue (k + 1)).push (.fork (.spawn v))).log.map Element.work).sum =
      s.taskWork (k + 1) + 2 := by
    rw [LogQueue.push_log, List.map_append, List.sum_append]
    rfl
  refine State.rank_lt_of_work (work_setWorker_lt s _ _ hk hk (fun _ => rfl) ?_)
  rw [hsum, setQueue_of_ne _ _ (Nat.succ_ne_self k).symm, hw, Worker.work, Worker.work]
  omega

/-- The queue has not passed the last input, so the pop takes a round off the rank. -/
private theorem rank_release (h : Inv s) (hk : k < pl.stages) (hw : s.worker k = .release) :
    ((s.setQueue k (s.queue k).pop).setWorker k .pull).rank < s.rank := by
  have hlt := (h.stage_at hk hw).holds trivial
  have hN := h.log_length_le (Nat.le_of_lt hk)
  refine State.rank_lt_of_work
    (work_setWorker_lt s _ _ hk (Nat.le_of_lt hk) (fun hne => (hne rfl).elim) ?_)
  rw [setQueue_self, hw, LogQueue.pop_head hlt, LogQueue.pop_log, State.taskWork, Worker.work,
    Worker.work]
  omega

private theorem rank_close (hk : k < pl.stages) (hw : s.worker k = .close) :
    ((s.setQueue (k + 1) (s.queue (k + 1)).close).setWorker k .done).rank < s.rank := by
  refine State.rank_lt_of_work (work_setWorker_lt s _ _ hk hk (fun _ => rfl) ?_)
  rw [setQueue_of_ne _ _ (Nat.succ_ne_self k).symm, hw, LogQueue.close_log, State.taskWork,
    Worker.work, Worker.work]
  omega

end Workers

/-! ### The end stage -/

section EndStage

variable {b : Bool}

/-- A statement of the end stage that leaves the queues and `active`. -/
private theorem rank_consumer {c : Consumer pl.Out} (h : c.work < s.consumer.work)
    (l : List pl.Out) :
    ({ s with consumer := c, consumed := l } : State pl).rank < s.rank := by
  refine State.rank_lt_of_work (work_consumer_lt ?_)
  rw [State.consumeTaskWork]
  omega

private theorem rank_endTake (hc : s.consumer = .take) (v : pl.Out) :
    ({ s.setQueue pl.stages
        ((s.queue pl.stages).modify (s.queue pl.stages).head Element.take) with
        consumer := pl.endStage.onData v } : State pl).rank < s.rank := by
  refine State.rank_lt_of_work (work_consumer_setQueue_lt
    (congrArg List.sum (LogQueue.map_log_modify fun x _ => work_take x)) ?_)
  rw [hc, LogQueue.modify_head]
  cases pl.endStage <;> simp only [EndStage.onData, Consumer.work] <;> omega

private theorem rank_endRelease (h : Inv s) (hc : s.consumer = .release) :
    ({ s.setQueue pl.stages (s.queue pl.stages).pop with consumer := .pull } : State pl).rank <
      s.rank := by
  have hlt := (h.ending_at hc).holds trivial
  have hN := h.log_length_le (Nat.le_refl _)
  refine State.rank_lt_of_work (work_consumer_setQueue_lt rfl ?_)
  rw [hc, LogQueue.pop_head hlt, Consumer.work, Consumer.work]
  omega

/-- The only statement that leaves the work as it is. -/
private theorem rank_endResume {n : ℕ} (hc : s.consumer = .calling (n + 1)) :
    ({ s with consumer := .calling n } : State pl).rank < s.rank := by
  refine State.rank_lt_of_suspensions ?_ ?_
  · rw [State.work, State.work, State.consumerWork, State.consumerWork, hc]
    rfl
  · rw [State.suspensions, State.suspensions, hc]
    exact Nat.add_lt_add_right (Nat.add_lt_add_right (Nat.lt_succ_self _) _) _

/-- The handle costs a round of a drain and the work of its task. -/
private theorem rank_endPush {v : pl.Out} {p : ℕ} (hc : s.consumer = .push v) :
    ({ s with
        internalQueue := s.internalQueue.push (.spawn v)
        active := s.active + 1
        consumer := if p ≤ s.active + 1 then .drainPull false else .release } :
      State pl).rank < s.rank := by
  refine State.rank_lt_of_work (work_consumer_lt ?_)
  rw [hc, State.consumeTaskWork, LogQueue.push_log, List.map_append, List.sum_append]
  split <;> simp only [Consumer.work, Fork.spawn, Progress.work, List.map_cons, List.map_nil,
    List.sum_cons, List.sum_nil] <;> omega

private theorem rank_endDrainTest (hc : s.consumer = .drainTest) :
    ({ s with consumer := if 0 < s.active then .drainPull true else .done } : State pl).rank <
      s.rank := by
  refine State.rank_lt_of_work (work_consumer_lt ?_)
  rw [hc, State.consumeTaskWork]
  split <;> simp only [Consumer.work] <;> omega

private theorem rank_endDrainAwait (h : Inv s) (hc : s.consumer = .drainAwait b) :
    ({ s with
        internalQueue := s.internalQueue.modify s.internalQueue.head Fork.await
        active := s.active - 1
        consumer := .drainRelease b } : State pl).rank < s.rank := by
  obtain ⟨hpos, -⟩ := (h.ending_at hc).exists_front?_of_drain (Or.inr rfl)
  have hsum : ((s.internalQueue.modify s.internalQueue.head Fork.await).log.map
      fun t => t.progress.work).sum = s.consumeTaskWork :=
    congrArg List.sum (LogQueue.map_log_modify fun x _ => rfl)
  refine State.rank_lt_of_work (work_consumer_lt ?_)
  rw [hc, hsum]
  cases b <;> simp only [Consumer.work] <;> omega

private theorem rank_endDrainRelease (hc : s.consumer = .drainRelease b) :
    ({ s with
        internalQueue := s.internalQueue.pop
        consumer := if b then .drainTest else .release } : State pl).rank < s.rank := by
  refine State.rank_lt_of_work (work_consumer_lt ?_)
  rw [hc, State.consumeTaskWork, LogQueue.pop_log]
  cases b <;> simp [Consumer.work]

end EndStage

/-- Every step decreases the rank. -/
private theorem rank_step {s s' : State pl} {a : Action} (h : Inv s) (hs : Step s a s') :
    s'.rank < s.rank := by
  cases hs with
  | construct hm hk => exact rank_construct h hm hk
  | constructEnd hm => exact rank_constructEnd h hm
  | driverPush hm hv => exact rank_driverPush hm hv
  | driverLoopExit hm => exact rank_driverLoopExit hm
  | driverClose hm => exact rank_driverClose hm
  | driverJoin hm => exact State.rank_lt_of_work (work_main_lt s hm Nat.one_pos)
  | pull hk hw =>
    exact State.rank_lt_of_work (work_setWorker_alone_lt s _ hk hw (Nat.lt_succ_self _))
  | pullEmpty hk hw => exact rank_pullEmpty hk hw
  | take hk hw => exact rank_take hk hw
  | push hk hw => exact rank_push hk hw
  | release hk hw => exact rank_release h hk hw
  | close hk hw => exact rank_close hk hw
  | task hk ht hadv => exact rank_task hk ht hadv
  | endPull hc | endCall hc | endReturn hc =>
    refine rank_consumer ?_ _
    rw [hc, Consumer.work, Consumer.work]
    omega
  | @endDrainPull b t hc =>
    refine rank_consumer ?_ _
    rw [hc]
    cases b <;> exact Nat.lt_succ_self _
  | endPullEmpty hc =>
    refine rank_consumer ?_ _
    rw [hc]
    cases pl.endStage <;> simp only [EndStage.onClosed, Consumer.work] <;> omega
  | endTake hc => exact rank_endTake hc _
  | endRelease hc => exact rank_endRelease h hc
  | endResume hc => exact rank_endResume hc
  | endPush hc => exact rank_endPush hc
  | endDrainTest hc => exact rank_endDrainTest hc
  | endDrainAwait hc => exact rank_endDrainAwait h hc
  | endDrainRelease hc => exact rank_endDrainRelease hc
  | consumeTask ht hadv => exact rank_consumeTask ht hadv _

/-- **Termination.** Every run of the program is finite. -/
theorem terminating (pl : Pipeline) : (system pl).Terminating :=
  LTS.terminating_of_rank State.rank fun _ _ _ hr hs => rank_step (inv_reachable hr) hs

end PipelineFifo

end TmcExamples
