import TmcExamples.PipelineFifo.Progress
import TmcExamples.PipelineFifo.Rank

/-!
# Shutdown of the FIFO pipeline

The close of the input queue propagates from stage to stage: `close_step` says which step
closes which queue, so each stage closes its output queue at most once, and pushes nothing
afterwards (`count_close_eq`, `push_not_mem_of_close`). The element counters of `StageInv`
and `EndInv` say that no handle is awaited twice, and that at the end every handle has been
awaited and every task has finished (`completed_of_done`). With progress and termination this
is `deadlock_free_and_joined`.
-/

namespace TmcExamples

namespace PipelineFifo

variable {pl : Pipeline} {s s' : State pl}

/-! ### Which step closes which queue -/

private theorem closed_setQueue (s : State pl) (m : ℕ) (q : LogQueue (Element pl.Val m))
    (h : q.closed = (s.queue m).closed) (k : ℕ) :
    ((s.setQueue m q).queue k).closed = (s.queue k).closed := by
  by_cases hk : k = m
  · subst hk
    rw [setQueue_self, h]
  · rw [setQueue_of_ne _ _ hk]

/-- An output queue is closed by the close of its stage and by no other step. -/
private theorem close_step {a : Action} (hs : Step s a s') (k : ℕ) :
    (s'.queue (k + 1)).closed = if a = .close k then true else (s.queue (k + 1)).closed := by
  cases hs with
  | driverPush | take | push | release | task | endTake | endRelease =>
    refine .trans ?_ (if_neg (by simp)).symm
    refine closed_setQueue s _ _ ?_ (k + 1)
    rfl
  | driverClose =>
    refine .trans ?_ (if_neg (by simp)).symm
    exact congrArg LogQueue.closed (setQueue_of_ne s (s.queue 0).close (Nat.succ_ne_zero k))
  | @close j _ _ =>
    rw [setWorker_queue]
    by_cases hjk : j = k
    · subst hjk
      rw [setQueue_self, if_pos rfl, LogQueue.close_closed]
    · rw [setQueue_of_ne _ _ (by omega), if_neg (by simpa using hjk)]
  | _ => exact (if_neg (by simp)).symm

/-- The number of closes of an output queue is one when it is closed and zero before. -/
private theorem count_close_eq {tr : List Action} (h : (system pl).Run (initial pl) tr s) {k : ℕ}
    (hk : k < pl.stages) : tr.count (.close k) = (s.queue (k + 1)).closed.toNat := by
  refine LTS.Run.count_eq (n := fun s => (s.queue (k + 1)).closed.toNat) rfl ?_ h
  intro s a s' hr hs
  have hst := (inv_reachable hr).stage k hk
  rw [close_step hs k]
  split
  · next ha =>
    subst ha
    cases hs with
    | close _ hw =>
      have hopen : (s.queue (k + 1)).closed = false := by
        rw [Bool.eq_false_iff, ne_eq, hst.closed, hw]
        simp
      rw [hopen]
      rfl
  · rfl

/-- A stage pushes nothing after it has closed its output queue. -/
private theorem push_not_mem_of_close {pre post : List Action} {k : ℕ}
    (h : (system pl).Run (initial pl) (pre ++ .close k :: post) s) : Action.push k ∉ post := by
  obtain ⟨s₁, h₁, h₂⟩ := h.split
  obtain ⟨s₂, hclose, h₃⟩ := h₂.split_cons
  have hr₂ : (system pl).Reachable s₂ := h₁.reachable.step hclose
  have hclosed : (s₂.queue (k + 1)).closed = true := by rw [close_step hclose k, if_pos rfl]
  refine h₃.not_mem (P := fun s => (system pl).Reachable s ∧ (s.queue (k + 1)).closed = true)
    (fun s a s' hp hs => ⟨hp.1.step hs, ?_⟩) (fun s s' hp hs => ?_) ⟨hr₂, hclosed⟩
  · rw [close_step hs k, hp.2, ite_self]
  · cases hs with
    | push hk hw _ =>
      have hdone := ((inv_reachable hp.1).stage k hk).closed.mp hp.2
      rw [hw] at hdone
      cases hdone

/-! ### Every handle is awaited, every task has finished -/

/-- No data has been taken twice from an element, and no handle awaited twice. -/
structure State.TakenAtMostOnce (s : State pl) : Prop where
  queue : ∀ k ≤ pl.stages, ∀ e ∈ (s.queue k).log, e.taken ≤ 1
  internalQueue : ∀ t ∈ s.internalQueue.log, t.awaited ≤ 1

/-- Every queue is closed and drained, the data of every element has been taken exactly once,
and every forked task, process task or consume task, has finished. -/
structure State.Completed (s : State pl) : Prop where
  closed : ∀ k ≤ pl.stages, (s.queue k).closed = true
  drained : ∀ k ≤ pl.stages, (s.queue k).pending = []
  element : ∀ k ≤ pl.stages, ∀ e ∈ (s.queue k).log, e.taken = 1 ∧ ∃ v, e.ready? = some v
  internalDrained : s.internalQueue.pending = []
  consumeTask : ∀ t ∈ s.internalQueue.log, t.awaited = 1 ∧ t.ready? = some ()

namespace Inv

/-- The values of a queue have been taken once up to a point, and none behind it. -/
theorem taken_eq (h : Inv s) {k : ℕ} (hk : k ≤ pl.stages) :
    ∃ n, (s.queue k).head ≤ n ∧
      ∀ i e, (s.queue k).log[i]? = some e → e.taken = onceBelow n i := by
  rcases Nat.lt_or_eq_of_le hk with hlt | rfl
  · exact ⟨_, Nat.le_add_right _ _, (h.stage k hlt).taken⟩
  · exact ⟨_, Nat.le_add_right _ _, h.ending.taken⟩

private theorem takenAtMostOnce (h : Inv s) : s.TakenAtMostOnce where
  queue k hk e he := by
    obtain ⟨n, -, hn⟩ := h.taken_eq hk
    obtain ⟨i, hi⟩ := List.mem_iff_getElem?.mp he
    rw [hn i e hi]
    exact onceBelow_le_one n i
  internalQueue t ht := by
    obtain ⟨i, hi⟩ := List.mem_iff_getElem?.mp ht
    cases hm : pl.endStage with
    | inlineWorker =>
      rw [(h.ending.inline hm).internal] at ht
      simp at ht
    | worker p hp =>
      rw [(h.ending.worker p hp hm).awaited i t hi]
      exact onceBelow_le_one _ i

/-- When the fork group is done, everything has been closed, awaited and drained. -/
theorem completed_of_done (h : Inv s) (hd : s.ForkGroupDone) : s.Completed where
  closed k hk := (h.drained_of_done hd hk).1
  drained k hk := LogQueue.pending_eq_nil_iff.mpr (h.drained_of_done hd hk).2
  element k hk e he := by
    obtain ⟨n, hle, hn⟩ := h.taken_eq hk
    obtain ⟨i, hi⟩ := List.mem_iff_getElem?.mp he
    have hlt : i < (s.queue k).log.length := (List.getElem?_eq_some_iff.mp hi).1
    have htaken : e.taken = 1 := by
      rw [hn i e hi]
      refine onceBelow_of_lt ?_
      have := (h.drained_of_done hd hk).2
      omega
    exact ⟨htaken, (h.sound k e he).ready (htaken ▸ Nat.one_pos)⟩
  internalDrained := by
    refine LogQueue.pending_eq_nil_iff.mpr ?_
    cases hm : pl.endStage with
    | inlineWorker =>
      have hnil := (h.ending.inline hm).internal
      have := s.internalQueue.head_le
      rw [hnil] at this ⊢
      exact Nat.le_antisymm this (Nat.zero_le _)
    | worker p hp =>
      have hw := h.ending.worker p hp hm
      rw [hd.2] at hw
      have hzero : s.active = 0 := hw.activeOk
      have := hw.active
      rw [hzero] at this
      exact this
  consumeTask t ht := by
    obtain ⟨i, hi⟩ := List.mem_iff_getElem?.mp ht
    have hlt : i < s.internalQueue.log.length := (List.getElem?_eq_some_iff.mp hi).1
    cases hm : pl.endStage with
    | inlineWorker =>
      rw [(h.ending.inline hm).internal] at ht
      simp at ht
    | worker p hp =>
      have hw := h.ending.worker p hp hm
      rw [hd.2] at hw
      have hzero : s.active = 0 := hw.activeOk
      have hactive := hw.active
      have hone : t.awaited = 1 := by
        rw [hw.awaited i t hi]
        exact onceBelow_of_lt (by omega)
      exact ⟨hone, hw.ready t ht (hone ▸ Nat.one_pos)⟩

end Inv

/-- A run without a next step is complete: the driver has joined the `fork_group`. -/
theorem finished_of_not_enabled (hs : (system pl).Reachable s) (hend : ¬ (system pl).Enabled s) :
    s.main = .finished ∧ s.ForkGroupDone := by
  have h := inv_reachable hs
  have hf : s.main = .finished := by
    by_contra hne
    exact hend (h.enabled hne)
  exact ⟨hf, h.main.finished hf⟩

/-- The program has a complete run. -/
theorem exists_finished (pl : Pipeline) :
    ∃ s, (system pl).Reachable s ∧ s.main = .finished ∧ s.ForkGroupDone := by
  obtain ⟨s, hr, hn⟩ := (terminating pl).exists_not_enabled
  obtain ⟨hf, hd⟩ := finished_of_not_enabled hr hn
  exact ⟨s, hr, hf, hd⟩

/-- In a run to the completion of the `fork_group` each stage has closed its output queue. -/
private theorem count_close_of_done {tr : List Action} (h : (system pl).Run (initial pl) tr s)
    (hd : s.ForkGroupDone) {k : ℕ} (hk : k < pl.stages) : tr.count (.close k) = 1 := by
  rw [count_close_eq h hk, ((inv_reachable h.reachable).drained_of_done hd hk).1]
  rfl

/-- **Deadlock freedom, close propagation and join.** As long as the driver or the `fork_group`
has not completed some step is enabled, and every run is finite. Where no step is enabled the
driver has joined the `fork_group`, each stage has closed its output queue exactly once, every
queue is drained, every handle has been awaited exactly once and every forked task has finished.
In every run each stage closes its output queue at most once, and after its last push, and no
handle is ever awaited twice. -/
theorem deadlock_free_and_joined (pl : Pipeline) :
    (∀ s, (system pl).Reachable s → s.main ≠ .finished ∨ ¬ s.ForkGroupDone →
        (system pl).Enabled s) ∧
      (system pl).Terminating ∧
      (∀ tr s, (system pl).Run (initial pl) tr s → ¬ (system pl).Enabled s →
        s.main = .finished ∧ s.ForkGroupDone ∧ s.Completed ∧
          ∀ k < pl.stages, tr.count (.close k) = 1) ∧
      (∀ tr s, (system pl).Run (initial pl) tr s → ∀ k < pl.stages,
        tr.count (.close k) ≤ 1 ∧
          (∀ pre post, tr = pre ++ .close k :: post → Action.push k ∉ post) ∧
          (s.ForkGroupDone → tr.count (.close k) = 1)) ∧
      ∀ s, (system pl).Reachable s →
        s.TakenAtMostOnce ∧ (s.ForkGroupDone → s.Completed) := by
  refine ⟨fun s hr hopen => ?_, terminating pl, fun tr s hrun hend => ?_,
    fun tr s hrun k hk => ⟨?_, ?_, fun hd => count_close_of_done hrun hd hk⟩, fun s hr => ?_⟩
  · by_contra hend
    obtain ⟨hf, hd⟩ := finished_of_not_enabled hr hend
    rcases hopen with hne | hnd
    · exact hne hf
    · exact hnd hd
  · obtain ⟨hf, hd⟩ := finished_of_not_enabled hrun.reachable hend
    exact ⟨hf, hd, (inv_reachable hrun.reachable).completed_of_done hd,
      fun k hk => count_close_of_done hrun hd hk⟩
  · rw [count_close_eq hrun hk]
    exact Bool.toNat_le _
  · rintro pre post rfl
    exact push_not_mem_of_close hrun
  · exact ⟨(inv_reachable hr).takenAtMostOnce, (inv_reachable hr).completed_of_done⟩

/-- A pipeline of one stage with parallelism `2`, which adds one to each of two inputs. -/
def sample (parallelism : ℕ) (pos : 0 < parallelism) : Pipeline where
  Val := fun _ => ℕ
  stages := 1
  func := fun _ => ⟨.coroutine, fun (n : ℕ) => n + 1⟩
  parallelism := fun _ => 2
  parallelism_pos := fun _ => Nat.two_pos
  endStage := pipelineEndStage parallelism pos
  consumeKind := .regular
  inputs := ([5, 7] : List ℕ)

/-- A run of the sample pipeline to its end, where the driver has returned and the one stage has
closed its output queue. -/
theorem deadlock_free_and_joined_sample :
    ∃ (tr : List Action) (s : State (sample 2 Nat.two_pos)),
      (system (sample 2 Nat.two_pos)).Run (initial (sample 2 Nat.two_pos)) tr s ∧
        s.main = .finished ∧ s.Completed ∧ tr.count (.close 0) = 1 := by
  obtain ⟨-, hterm, hend, -, -⟩ := deadlock_free_and_joined (sample 2 Nat.two_pos)
  obtain ⟨s, ⟨tr, hrun⟩, hn⟩ := hterm.exists_not_enabled
  obtain ⟨hf, -, hcompleted, hclose⟩ := hend tr s hrun hn
  exact ⟨tr, s, hrun, hf, hcompleted, hclose 0 Nat.one_pos⟩

end PipelineFifo

end TmcExamples
