import TmcExamples.PipelineFifo.Values

/-!
# The FIFO pipeline does not get stuck

A worker can wait for an element of its input queue, for the task behind a handle and for a
free slot of its output queue. Forked tasks always complete, so in a stuck state every
handle is ready. Going up from the end of the pipeline, a party that is still in its loop can
then only wait at the pull from an empty open queue (`consumer_idle`, `worker_idle`): the
queue it pushes into is empty, so its push has a free slot. The input queue is empty too, so
the driver is not blocked, and the close of the input queue propagates to the end
(`enabled`).
-/

namespace TmcExamples

namespace PipelineFifo

variable {pl : Pipeline} {s : State pl}

/-- No step of a forked task is enabled. -/
structure TasksStuck (s : State pl) : Prop where
  task : ∀ k i e s', ¬ Step s (.task k i e) s'
  consumeTask : ∀ i e s', ¬ Step s (.consumeTask i e) s'

namespace TasksStuck

/-- When no task can take a step, the data of every element can be taken. -/
private theorem exists_ready? (h : TasksStuck s) {k : ℕ} (hk : k ≤ pl.stages) {e : Element pl.Val k}
    (he : (s.queue k).front? = some e) : ∃ v, e.ready? = some v := by
  cases e with
  | value v m => exact ⟨v, rfl⟩
  | @fork k t =>
    by_contra hne
    have hnone : t.ready? = none := Option.eq_none_iff_forall_ne_some.mpr fun r hr => hne ⟨r, hr⟩
    obtain ⟨e, t', hadv⟩ := (pl.func k).exists_advance hnone
    exact h.task _ _ _ _ (.task hk he hadv)

private theorem exists_ready?_consume (h : TasksStuck s) {t : Fork pl.Out Unit}
    (ht : s.internalQueue.front? = some t) : t.ready? = some () := by
  cases hr : t.ready? with
  | some r => rfl
  | none =>
    obtain ⟨e, t', hadv⟩ := pl.consume.exists_advance hr
    exact (h.consumeTask _ _ _ (.consumeTask ht hadv)).elim

end TasksStuck

namespace Inv

/-- An end stage that can take no step waits for its input queue or is done. -/
private theorem consumer_idle (h : Inv s) (hn : ¬ (system pl).Enabled s)
    (hm : s.consumer ≠ .unstarted) :
    (s.queue pl.stages).head = (s.queue pl.stages).log.length ∧
      ((s.queue pl.stages).closed = true → s.consumer = .done) := by
  have hno : ∀ a s', ¬ Step s a s' := fun a s' hs => hn ⟨a, s', hs⟩
  have htasks : TasksStuck s := ⟨fun _ _ _ => hno _, fun _ _ => hno _⟩
  have hend := h.ending
  cases hc : s.consumer with
  | unstarted => exact (hm hc).elim
  | pull =>
    cases he : (s.queue pl.stages).front? with
    | some e => exact (hno _ _ (.endPull hc he)).elim
    | none =>
      refine ⟨LogQueue.front?_eq_none_iff.mp he, fun hcl => ?_⟩
      exact (hno _ _ (.endPullEmpty hc he hcl)).elim
  | take =>
    rw [hc] at hend
    obtain ⟨e, he⟩ := LogQueue.exists_front? (hend.holds trivial)
    obtain ⟨v, hv⟩ := htasks.exists_ready? (Nat.le_refl _) he
    exact (hno _ _ (.endTake hc he hv)).elim
  | call v =>
    -- The consume function may always complete without a suspension.
    have h0 := pl.consumeKind.maySuspend_zero
    exact (hno _ _ (.endCall hc h0)).elim
  | calling n =>
    cases n with
    | zero => exact (hno _ _ (.endReturn hc)).elim
    | succ n => exact (hno _ _ (.endResume hc)).elim
  | push v =>
    rw [hc] at hend
    obtain ⟨p, hp, hw, -⟩ := hend.exists_worker id
    exact (hno _ _ (.endPush hc hw (hend.hasRoom_of_push hw))).elim
  | drainTest => exact (hno _ _ (.endDrainTest hc)).elim
  | drainPull b =>
    rw [hc] at hend
    obtain ⟨-, t, ht⟩ := hend.exists_front?_of_drain (Or.inl rfl)
    exact (hno _ _ (.endDrainPull hc ht)).elim
  | drainAwait b =>
    rw [hc] at hend
    obtain ⟨-, t, ht⟩ := hend.exists_front?_of_drain (Or.inr rfl)
    exact (hno _ _ (.endDrainAwait hc ht (htasks.exists_ready?_consume ht))).elim
  | drainRelease b => exact (hno _ _ (.endDrainRelease hc)).elim
  | release => exact (hno _ _ (.endRelease hc)).elim
  | done =>
    rw [hc] at hend
    exact ⟨(hend.left trivial).2, fun _ => rfl⟩

/-- A worker that can take no step although its output queue is empty waits for its input
queue or is done. -/
private theorem worker_idle (h : Inv s) (hn : ¬ (system pl).Enabled s) {k : ℕ} (hk : k < pl.stages)
    (hm : s.worker k ≠ .unstarted)
    (hout : (s.queue (k + 1)).head = (s.queue (k + 1)).log.length) :
    (s.queue k).head = (s.queue k).log.length ∧
      ((s.queue k).closed = true → s.worker k = .done) := by
  have hno : ∀ a s', ¬ Step s a s' := fun a s' hs => hn ⟨a, s', hs⟩
  have htasks : TasksStuck s := ⟨fun _ _ _ => hno _, fun _ _ => hno _⟩
  have hst := h.stage k hk
  cases hw : s.worker k with
  | unstarted => exact (hm hw).elim
  | pull =>
    cases he : (s.queue k).front? with
    | some e => exact (hno _ _ (.pull hk hw he)).elim
    | none =>
      refine ⟨LogQueue.front?_eq_none_iff.mp he, fun hcl => ?_⟩
      exact (hno _ _ (.pullEmpty hk hw he hcl)).elim
  | take =>
    rw [hw] at hst
    obtain ⟨e, he⟩ := LogQueue.exists_front? (hst.holds trivial)
    obtain ⟨v, hv⟩ := htasks.exists_ready? (Nat.le_of_lt hk) he
    exact (hno _ _ (.take hk hw he hv)).elim
  | push v =>
    have hroom : (s.queue (k + 1)).HasRoom (pl.capacity (k + 1)) := by
      have := pl.capacity_pos (k + 1)
      unfold LogQueue.HasRoom LogQueue.size
      omega
    exact (hno _ _ (.push hk hw hroom)).elim
  | release => exact (hno _ _ (.release hk hw)).elim
  | close => exact (hno _ _ (.close hk hw)).elim
  | done =>
    rw [hw] at hst
    exact ⟨(hst.left trivial).2, fun _ => rfl⟩

/-- In a stuck state in which all stages are constructed, every queue is empty. -/
private theorem drained_of_stuck (h : Inv s) (hn : ¬ (system pl).Enabled s)
    (hm : ∀ j, s.main ≠ .construct j) {k : ℕ} (hk : k ≤ pl.stages) :
    (s.queue k).head = (s.queue k).log.length := by
  have hc : s.consumer ≠ .unstarted := fun hc => by
    obtain ⟨j, hj⟩ := h.main.consumer.mp hc
    exact hm j hj
  have hw : ∀ j < pl.stages, s.worker j ≠ .unstarted := fun j hj hw => by
    obtain ⟨i, -, hi⟩ := (h.main.worker j hj).mp hw
    exact hm i hi
  -- From the end of the pipeline upwards.
  induction hk using Nat.decreasingInduction with
  | self => exact (h.consumer_idle hn hc).1
  | of_succ j hj ih => exact (h.worker_idle hn hj (hw j hj) ih).1

/-- In a stuck state in which all stages are constructed and the input queue is closed, every
queue is closed, so that every worker is done. -/
private theorem closed_of_stuck (h : Inv s) (hn : ¬ (system pl).Enabled s)
    (hm : s.main.Closed) {k : ℕ} (hk : k ≤ pl.stages) : (s.queue k).closed = true := by
  have hcon : ∀ j, s.main ≠ .construct j := fun j hj => by rw [hj] at hm; exact hm
  induction k with
  | zero => exact h.main.closed.mpr hm
  | succ k ih =>
    have hw : s.worker k ≠ .unstarted := fun hw => by
      obtain ⟨i, -, hi⟩ := (h.main.worker k hk).mp hw
      exact hcon i hi
    exact (h.stage k hk).closed.mpr
      ((h.worker_idle hn hk hw (h.drained_of_stuck hn hcon hk)).2 (ih (Nat.le_of_lt hk)))

/-- **No deadlock.** As long as `main` has not joined the `fork_group`, some step is
enabled. -/
theorem enabled (h : Inv s) (hm : s.main ≠ .finished) : (system pl).Enabled s := by
  by_contra hn
  have hno : ∀ a s', ¬ Step s a s' := fun a s' hs => hn ⟨a, s', hs⟩
  cases hmain : s.main with
  | construct k =>
    rcases Nat.lt_or_eq_of_le (h.main.construct_le k hmain) with hlt | rfl
    · exact hno _ _ (.construct hmain hlt)
    · exact hno _ _ (.constructEnd hmain)
  | push i =>
    cases hv : pl.inputs[i]? with
    | none => exact hno _ _ (.driverLoopExit hmain hv)
    | some v =>
      have hempty := h.drained_of_stuck hn (fun j hj => by rw [hmain] at hj; cases hj)
        (Nat.zero_le _)
      have hroom : (s.queue 0).HasRoom (pl.capacity 0) := by
        have := pl.capacity_pos 0
        unfold LogQueue.HasRoom LogQueue.size
        omega
      exact hno _ _ (.driverPush hmain hv hroom)
  | close => exact hno _ _ (.driverClose hmain)
  | join =>
    have hclosed : s.main.Closed := by rw [hmain]; trivial
    have hcon : ∀ j, s.main ≠ .construct j := fun j hj => by rw [hmain] at hj; cases hj
    have hc : s.consumer ≠ .unstarted := fun hc => by
      obtain ⟨j, hj⟩ := h.main.consumer.mp hc
      exact hcon j hj
    refine hno _ _ (.driverJoin hmain ⟨fun k hk => ?_, ?_⟩)
    · exact (h.stage k hk).closed.mp (h.closed_of_stuck hn hclosed hk)
    · exact (h.consumer_idle hn hc).2 (h.closed_of_stuck hn hclosed (Nat.le_refl _))
  | finished => exact hm hmain

end Inv

end PipelineFifo

end TmcExamples
