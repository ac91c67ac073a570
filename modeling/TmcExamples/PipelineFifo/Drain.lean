import TmcExamples.PipelineFifo.Order

/-!
# The accounting of the end stage

`pipeline_end_stage::worker` pushes the handles of its consume tasks into `internalQueue` and
pulls them out again, and nobody else does. It never suspends in a push, since it counts the
handles that it has not awaited and drains one when there are as many as slots; it never waits for
a handle that is not there, since it pulls only when the count is positive. `DrainAccounting`
says this of the states of a run, for every parallelism.
-/

namespace TmcExamples

namespace PipelineFifo

variable {pl : Pipeline} {s : State pl} {p : ℕ} {hp : 0 < p}

/-- The handles in `internalQueue` that have not been awaited. -/
def State.unawaited (s : State pl) : List (Fork pl.Out Unit) :=
  s.internalQueue.pending.filter fun t => t.awaited = 0

/-- The accounting of `worker` with parallelism `p`. -/
structure DrainAccounting (p : ℕ) (s : State pl) : Prop where
  active_eq : s.active = s.unawaited.length
  active_le : s.active ≤ p
  /-- At the heads of both loops. -/
  active_lt : s.consumer = .pull ∨ s.consumer = .drainTest → s.active < p
  push_hasRoom : ∀ v, s.consumer = .push v → s.internalQueue.HasRoom p
  pull_valid : ∀ b, s.consumer = .drainPull b ∨ s.consumer = .drainAwait b →
    ∃ t, s.internalQueue.front? = some t ∧ t.awaited = 0
  not_closed : s.internalQueue.closed = false
  no_underflow : ∀ b, s.consumer = .drainAwait b → 0 < s.active
  /-- The handles have been awaited in the order of the queue, the last `active` not yet. -/
  awaited : ∀ i t, s.internalQueue.log[i]? = some t →
    t.awaited = onceBelow (s.internalQueue.log.length - s.active) i
  returned : s.consumer = .done → s.active = 0 ∧
    s.internalQueue.log.map Fork.arg = pl.inputs.map (pl.compose pl.stages) ∧
    ∀ t ∈ s.internalQueue.log, t.awaited = 1 ∧ t.ready? = some ()

/-- Of elements that have been counted once up to position `n`, those that have not been counted
are the ones from `n` on. -/
private theorem filter_drop_eq_of_onceBelow {α : Type*} {l : List α} {count : α → ℕ} {m n : ℕ}
    (hcount : ∀ i x, l[i]? = some x → count x = onceBelow n i) (hle : m ≤ n) :
    (l.drop m).filter (fun x => count x = 0) = l.drop n := by
  have hsplit : l.drop m = (l.drop m).take (n - m) ++ l.drop n := by
    have hdrop : (l.drop m).drop (n - m) = l.drop n := by rw [List.drop_drop]; congr 1; omega
    rw [← hdrop, List.take_append_drop]
  rw [hsplit, List.filter_append, List.filter_eq_nil_iff.mpr, List.filter_eq_self.mpr,
    List.nil_append]
  · intro x hx
    obtain ⟨i, hi⟩ := List.mem_iff_getElem?.mp hx
    rw [List.getElem?_drop] at hi
    rw [decide_eq_true_eq, hcount _ x hi, onceBelow_of_le (Nat.le_add_right n i)]
  · intro x hx
    obtain ⟨i, hi⟩ := List.mem_iff_getElem?.mp hx
    have hlt : i < n - m := (List.getElem?_eq_some_iff.mp hi).1.trans_le (List.length_take_le _ _)
    rw [List.getElem?_take_of_lt hlt, List.getElem?_drop] at hi
    rw [decide_eq_true_eq, hcount _ x hi, onceBelow_of_lt (by omega)]
    exact Nat.one_ne_zero

namespace Inv

/-- The stages return in order: a closed queue has only stages that are done before it. -/
private theorem done_of_closed (h : Inv s) {k : ℕ} (hk : k ≤ pl.stages)
    (hc : (s.queue k).closed = true) : ∀ j < k, s.worker j = .done := by
  induction k with
  | zero => intro j hj; exact absurd hj (Nat.not_lt_zero j)
  | succ k ih =>
    intro j hj
    have hdone : s.worker k = .done := (h.stage k hk).closed.mp hc
    rcases Nat.lt_succ_iff_lt_or_eq.mp hj with hlt | rfl
    · have hleft : (s.worker k).Left := by rw [hdone]; trivial
      exact ih (by omega) ((h.stage k hk).left hleft).1 j hlt
    · exact hdone

/-- The end stage returns last. -/
theorem forkGroupDone_of_done (h : Inv s) (hdone : s.consumer = .done) : s.ForkGroupDone := by
  have hleft : s.consumer.Left := by rw [hdone]; trivial
  exact ⟨h.done_of_closed (Nat.le_refl _) (h.ending.left hleft).1, hdone⟩

/-- `worker` has pushed a consume task for every value when it returns. -/
theorem consumeTask_args_of_done (h : Inv s) (hm : pl.endStage = .worker p hp)
    (hdone : s.consumer = .done) :
    s.internalQueue.log.map Fork.arg = pl.inputs.map (pl.compose pl.stages) := by
  have hd := h.forkGroupDone_of_done hdone
  have hw := h.ending.worker p hp hm
  rw [← h.values_of_done hd (Nat.le_refl _)]
  refine hw.args.eq_of_length ?_
  have hlen := hw.length
  rw [hdone] at hlen
  rw [List.length_map, hlen, Pipeline.length_values, (h.drained_of_done hd (Nat.le_refl _)).2]
  rfl

end Inv

/-- Between the push and the end of the drain the counter may be as large as the parallelism. -/
theorem Inv.active_le (h : Inv s) (hm : pl.endStage = .worker p hp) : s.active ≤ p := by
  have hok := (h.ending.worker p hp hm).activeOk
  cases hc : s.consumer with
  | drainPull b | drainAwait b =>
    rw [hc] at hok
    cases b with
    | false => exact (show s.active = p from hok).le
    | true => exact (show 0 < s.active ∧ s.active < p from hok).2.le
  | call | calling =>
    rw [hc] at hok
    exact hok.elim
  | done =>
    rw [hc] at hok
    exact (show s.active = 0 from hok).trans_le (Nat.zero_le _)
  | _ =>
    rw [hc] at hok
    exact Nat.le_of_lt hok

/-- **Drain accounting.** In every state of every run, `worker` counts the handles that it has
not awaited, and the count keeps it from waiting for itself. -/
theorem drain_accounting (hm : pl.endStage = .worker p hp) (hs : (system pl).Reachable s) :
    DrainAccounting p s := by
  have h := inv_reachable hs
  have hw := h.ending.worker p hp hm
  have hok := hw.activeOk
  have hlen := hw.active
  have hsub : s.internalQueue.log.length - s.active =
      s.internalQueue.head + s.consumer.drained := by
    omega
  have hawaited : ∀ i t, s.internalQueue.log[i]? = some t →
      t.awaited = onceBelow (s.internalQueue.log.length - s.active) i := by
    intro i t ht
    rw [hsub]
    exact hw.awaited i t ht
  constructor
  · rw [State.unawaited, LogQueue.pending,
      filter_drop_eq_of_onceBelow hw.awaited (Nat.le_add_right _ _), List.length_drop]
    omega
  · exact h.active_le hm
  · rintro (hc | hc)
    · rw [hc] at hok
      exact hok
    · rw [hc] at hok
      exact hok
  · intro v hv
    exact (h.ending_at hv).hasRoom_of_push hm
  · -- Nothing has been drained at these points, so the front has not been awaited.
    intro b hb
    obtain ⟨-, t, ht⟩ := h.ending.exists_front?_of_drain hb
    refine ⟨t, ht, ?_⟩
    have hdrained : s.consumer.drained = 0 := by
      rcases hb with hb | hb
      · rw [hb]; rfl
      · rw [hb]; rfl
    rw [hw.awaited _ t ht, hdrained]
    exact onceBelow_of_le (Nat.le_refl _)
  · exact hw.closed
  · intro b hb
    exact (h.ending.exists_front?_of_drain (Or.inr hb)).1
  · exact hawaited
  · intro hdone
    have hzero : s.active = 0 := by
      rw [hdone] at hok
      exact hok
    exact ⟨hzero, h.consumeTask_args_of_done hm hdone,
      (h.completed_of_done (h.forkGroupDone_of_done hdone)).consumeTask⟩

/-- The boundary: `worker` with parallelism `1`, at the end of a complete run. -/
theorem drain_accounting_sample :
    ∃ s : State { sample 1 Nat.one_pos with endStage := .worker 1 Nat.one_pos },
      (system _).Reachable s ∧ s.ForkGroupDone ∧ DrainAccounting 1 s := by
  obtain ⟨s, hr, -, hd⟩ :=
    exists_finished { sample 1 Nat.one_pos with endStage := .worker 1 Nat.one_pos }
  exact ⟨s, hr, hd, drain_accounting rfl hr⟩

end PipelineFifo

end TmcExamples
