import Mathlib.Algebra.BigOperators.Group.Finset.Basic
import Mathlib.Algebra.Order.BigOperators.Group.Finset
import Mathlib.Order.Interval.Finset.Nat
import TmcExamples.PipelineFifo.Order

/-!
# Bounded parallelism and bounded memory

No queue ever holds more live slots than it was constructed with (`size_le_capacity`). A
forked task that has not been both awaited and released occupies a slot of its queue, so
the parallelism of a stage bounds its live tasks. An input in flight is in a live slot of
some queue, or its consume task is in a live slot of `internalQueue`, and
`bounded_parallelism` adds up the slots.
-/

namespace TmcExamples

namespace PipelineFifo

open Finset

variable {pl : Pipeline} {s s' : State pl}

/-! ### The capacity of the queues -/

private theorem size_setQueue_le {m n k : ℕ} {q₂ : LogQueue (Element pl.Val m)}
    (h : k = m → q₂.size ≤ n) (hk : (s.queue k).size ≤ n) :
    ((s.setQueue m q₂).queue k).size ≤ n := by
  by_cases hkm : k = m
  · subst hkm
    rw [setQueue_self]
    exact h rfl
  · rw [setQueue_of_ne _ _ hkm]
    exact hk

/-- A step keeps every queue within its capacity: a push waits for a free slot. -/
private theorem size_le_capacity_step {a : Action} (hs : Step s a s') {k : ℕ}
    (h : (s.queue k).size ≤ pl.capacity k) : (s'.queue k).size ≤ pl.capacity k := by
  cases hs with
  | driverPush _ _ hroom =>
    refine size_setQueue_le (fun hk => ?_) h
    subst hk
    rw [LogQueue.size_push]
    exact hroom
  | push _ _ hroom =>
    refine size_setQueue_le (fun hk => ?_) h
    subst hk
    rw [LogQueue.size_push]
    exact hroom
  | release | endRelease =>
    refine size_setQueue_le (fun hk => ?_) h
    subst hk
    exact (LogQueue.size_pop_le _).trans h
  | driverClose | close =>
    refine size_setQueue_le (fun hk => ?_) h
    subst hk
    exact h
  | take | task | endTake =>
    refine size_setQueue_le (fun hk => ?_) h
    subst hk
    rw [LogQueue.size_modify]
    exact h
  | _ => exact h

private theorem size_le_capacity (hs : (system pl).Reachable s) (k : ℕ) :
    (s.queue k).size ≤ pl.capacity k :=
  hs.induct (P := fun s => (s.queue k).size ≤ pl.capacity k) (Nat.zero_le _)
    fun _ _ _ _ h hstep => size_le_capacity_step hstep h

/-! ### What is live and what is in flight -/

/-- The parallelism that the end stage was constructed with. -/
def EndStage.parallelism : EndStage → ℕ
  | .inlineWorker => 1
  | .worker p _ => p

namespace State

variable (s)

/-- The tasks forked by stage `k` whose handle has not been both awaited and released. -/
def liveTasks (k : ℕ) : Finset ℕ :=
  (range (s.queue (k + 1)).log.length).filter fun i =>
    ¬ (i < (s.queue (k + 1)).head ∧ (s.queue (k + 1)).log[i]?.any fun e => 0 < e.taken)

/-- The consume tasks of `worker` whose handle has not been both awaited and released. -/
def liveConsumeTasks : Finset ℕ :=
  (range s.internalQueue.log.length).filter fun i =>
    ¬ (i < s.internalQueue.head ∧ s.internalQueue.log[i]?.any fun t => 0 < t.awaited)

/-- `inline_worker` is inside a call of the consume function. -/
def calling : ℕ :=
  match s.consumer with
  | .calling _ => 1
  | _ => 0

/-- The consume function has finished on input `i`: `inline_worker` makes one call for each
input in turn, and `worker` forks one task for each input in turn. -/
def consumeFinished (i : ℕ) : Bool :=
  match pl.endStage with
  | .inlineWorker => i + s.calling < s.consumed.length
  | .worker _ _ => s.internalQueue.log[i]?.any fun t => t.ready?.isSome

/-- The inputs whose push has completed and whose consume has not finished. -/
def inFlight : Finset ℕ :=
  (range (s.queue 0).log.length).filter fun i => ¬ s.consumeFinished i

end State

/-! ### The slots that they occupy -/

/-- Positions that all lie at or above `a`, below `n`. -/
private theorem card_filter_range_le {n a : ℕ} {P : ℕ → Prop} [DecidablePred P]
    (h : ∀ i < a, ¬ P i) : ((range n).filter P).card ≤ n - a := by
  have hsub : (range n).filter P ⊆ Ico a n := by
    intro i hi
    obtain ⟨hin, hP⟩ := mem_filter.mp hi
    rw [mem_Ico]
    refine ⟨?_, mem_range.mp hin⟩
    by_contra hlt
    exact h i (by omega) hP
  exact (card_le_card hsub).trans_eq (Nat.card_Ico a n)

namespace Inv

/-- Every element below the head of an output queue has been awaited. -/
private theorem card_liveTasks_le (h : Inv s) {k : ℕ} (hk : k < pl.stages) :
    (s.liveTasks k).card ≤ (s.queue (k + 1)).size := by
  refine card_filter_range_le fun i hi hlive => hlive ⟨hi, ?_⟩
  obtain ⟨n, hle, hn⟩ := h.taken_eq (k := k + 1) hk
  have hlen : i < (s.queue (k + 1)).log.length := lt_of_lt_of_le hi (s.queue (k + 1)).head_le
  rw [List.getElem?_eq_getElem hlen, Option.any_some, decide_eq_true_eq,
    hn i _ (List.getElem?_eq_getElem hlen), onceBelow_of_lt (lt_of_lt_of_le hi hle)]
  exact Nat.one_pos

section Worker

variable {p : ℕ} {hp : 0 < p}

/-- `active` bounds the live slots of `internalQueue`, so it never holds more than `p`. -/
private theorem internalQueue_size_le (h : Inv s) (hm : pl.endStage = .worker p hp) :
    s.internalQueue.size ≤ p := by
  have hw := h.ending.worker p hp hm
  have hactive := hw.active
  have hok := hw.activeOk
  unfold LogQueue.size
  cases hc : s.consumer with
  | call | calling =>
    rw [hc] at hok
    exact hok.elim
  | drainPull b | drainAwait b | drainRelease b =>
    rw [hc] at hok hactive
    cases b <;> simp only [Consumer.ActiveOk, Consumer.drained] at hok hactive <;> omega
  | _ =>
    rw [hc] at hok hactive
    simp only [Consumer.ActiveOk, Consumer.drained] at hok hactive
    omega

/-- A consume task below the head of `internalQueue` has finished and has been awaited. -/
private theorem consumeTask_of_lt_head (h : Inv s) (hm : pl.endStage = .worker p hp) {i : ℕ}
    (hi : i < s.internalQueue.head) :
    ∃ t, s.internalQueue.log[i]? = some t ∧ 0 < t.awaited ∧ t.ready? = some () := by
  have hw := h.ending.worker p hp hm
  have hlen : i < s.internalQueue.log.length := lt_of_lt_of_le hi s.internalQueue.head_le
  refine ⟨_, List.getElem?_eq_getElem hlen, ?_⟩
  have hpos : 0 < (s.internalQueue.log[i]).awaited := by
    rw [hw.awaited i _ (List.getElem?_eq_getElem hlen), onceBelow_of_lt (by omega)]
    exact Nat.one_pos
  exact ⟨hpos, hw.ready _ (List.getElem_mem hlen) hpos⟩

end Worker

private theorem card_liveConsumeTasks_le (h : Inv s) :
    s.liveConsumeTasks.card ≤ s.internalQueue.size := by
  refine card_filter_range_le fun i hi hlive => hlive ⟨hi, ?_⟩
  cases hm : pl.endStage with
  | inlineWorker =>
    have hle := s.internalQueue.head_le
    rw [(h.ending.inline hm).internal, List.length_nil] at hle
    omega
  | worker p hp =>
    obtain ⟨t, ht, hpos, -⟩ := h.consumeTask_of_lt_head hm hi
    rw [ht]
    exact decide_eq_true hpos

/-- No more than the parallelism of the end stage: `inline_worker` is one coroutine, which
forks nothing, and `worker` has at most `p` live slots. -/
private theorem liveConsume_le (h : Inv s) :
    s.calling + s.liveConsumeTasks.card ≤ pl.endStage.parallelism := by
  have hcard := h.card_liveConsumeTasks_le
  cases hm : pl.endStage with
  | inlineWorker =>
    have hzero : s.internalQueue.size = 0 := by
      rw [LogQueue.size, (h.ending.inline hm).internal, List.length_nil, Nat.zero_sub]
    have hone : s.calling ≤ 1 := by
      unfold State.calling
      split <;> omega
    change _ ≤ 1
    omega
  | worker p hp =>
    have hzero : s.calling = 0 := by
      have hok := (h.ending.worker p hp hm).activeOk
      unfold State.calling
      split
      · next hc =>
        rw [hc] at hok
        exact hok.elim
      · rfl
    have hsize := h.internalQueue_size_le hm
    change _ ≤ p
    omega

/-! ### The inputs in flight -/

/-- Between the input queue and queue `k` an element is in a live slot of a queue. -/
private theorem log_length_le_add_sum (h : Inv s) (hcap : ∀ k, (s.queue k).size ≤ pl.capacity k)
    {k : ℕ} (hk : k ≤ pl.stages) :
    (s.queue 0).log.length ≤ (s.queue k).head + ∑ j ∈ range (k + 1), pl.capacity j := by
  induction k with
  | zero =>
    have hsize := hcap 0
    unfold LogQueue.size at hsize
    rw [sum_range_one]
    omega
  | succ k ih =>
    have hlen := (h.stage k hk).length
    have hsize := hcap (k + 1)
    have hle := ih (by omega)
    unfold LogQueue.size at hsize
    rw [sum_range_succ]
    omega

/-- The end stage has called the consume function, or forked a consume task, for every
element that it has released. -/
private theorem card_inFlight_le (h : Inv s) :
    s.inFlight.card ≤ (s.queue 0).log.length - (s.queue pl.stages).head +
      match pl.endStage with
      | .inlineWorker => 0
      | .worker p _ => p := by
  cases hm : pl.endStage with
  | inlineWorker =>
    refine card_filter_range_le fun i hi hlive => hlive ?_
    have hlen := (h.ending.inline hm).length
    have hcall : s.calling ≤ s.consumer.handled := by
      unfold State.calling
      split
      · next hc => rw [hc]; exact Nat.le_refl 1
      · exact Nat.zero_le _
    rw [State.consumeFinished, hm]
    exact decide_eq_true (by omega)
  | worker p hp =>
    have hcard : s.inFlight.card ≤ (s.queue 0).log.length - s.internalQueue.head := by
      refine card_filter_range_le fun i hi hlive => hlive ?_
      obtain ⟨t, ht, -, hready⟩ := h.consumeTask_of_lt_head hm hi
      rw [State.consumeFinished, hm]
      simp only [ht, Option.any_some, hready, Option.isSome_some]
    have hlen := (h.ending.worker p hp hm).length
    have hsize := h.internalQueue_size_le hm
    unfold LogQueue.size at hsize
    dsimp only
    omega

end Inv

/-- **Bounded parallelism and bounded memory.** At every moment each stage has at most as
many live tasks as its parallelism, the end stage has at most as many consume functions
running or forked as its parallelism, and the inputs in flight are bounded by the slots of
all queues; an end stage of parallelism `1` adds none. -/
theorem bounded_parallelism {p : ℕ} {hp : 0 < p} (hend : pl.endStage = pipelineEndStage p hp)
    (hs : (system pl).Reachable s) :
    (∀ k < pl.stages, (s.liveTasks k).card ≤ pl.parallelism k) ∧
      s.calling + s.liveConsumeTasks.card ≤ p ∧
      s.inFlight.card ≤ pl.parallelism 0 + ∑ k ∈ range pl.stages, pl.parallelism k +
        if 1 < p then p else 0 := by
  have h := inv_reachable hs
  have hcap := size_le_capacity hs
  have hslots : ∑ j ∈ range (pl.stages + 1), pl.capacity j =
      pl.parallelism 0 + ∑ k ∈ range pl.stages, pl.parallelism k := by
    rw [sum_range_succ', Nat.add_comm]
    rfl
  have hpar : pl.endStage.parallelism = p := by
    rw [hend, pipelineEndStage]
    split
    · next h1 => exact h1.symm
    · rfl
  refine ⟨fun k hk => (h.card_liveTasks_le hk).trans (hcap (k + 1)), hpar ▸ h.liveConsume_le, ?_⟩
  have hflight := h.card_inFlight_le
  have hchain := h.log_length_le_add_sum hcap (Nat.le_refl _)
  rw [hslots] at hchain
  rw [hend, pipelineEndStage] at hflight
  by_cases h1 : p = 1
  · simp only [h1, if_true] at hflight
    rw [if_neg (by omega)]
    omega
  · simp only [h1, if_false] at hflight
    rw [if_pos (by omega)]
    omega

/-- In the middle of a run of the sample pipeline with three consume tasks: both tasks of the stage
are live, and the end stage has forked the consume task of the first value. -/
theorem bounded_parallelism_sample :
    ∃ s : State (sample 3 (by decide)), (system (sample 3 (by decide))).Reachable s ∧
      ((s.liveTasks 0).card = 2 ∧ s.liveConsumeTasks.card = 1 ∧ s.inFlight.card = 2) ∧
      (s.liveTasks 0).card ≤ 2 ∧ s.calling + s.liveConsumeTasks.card ≤ 3 ∧
      s.inFlight.card ≤ 7 := by
  have hinit : (system (sample 3 (by decide))).Reachable (initial _) := .init
  have hconstruct := hinit.step (.construct rfl Nat.one_pos) |>.step (.constructEnd rfl)
  -- The driver pushes both inputs, and the worker of the stage forks a task for each.
  have hdriver := hconstruct.step (.driverPush (i := 0) (v := (5 : ℕ)) rfl rfl (by decide))
    |>.step (.driverPush (i := 1) (v := (7 : ℕ)) rfl rfl (by decide))
  have hfirst := hdriver.step (.pull Nat.one_pos rfl rfl)
    |>.step (.take (v := (5 : ℕ)) Nat.one_pos rfl rfl rfl)
    |>.step (.push (v := (5 : ℕ)) Nat.one_pos rfl (by decide))
  have hsecond := hfirst.step (.release Nat.one_pos rfl) |>.step (.pull Nat.one_pos rfl rfl)
    |>.step (.take (v := (7 : ℕ)) Nat.one_pos rfl rfl rfl)
    |>.step (.push (v := (7 : ℕ)) Nat.one_pos rfl (by decide))
  -- The first task runs to its end, and its result goes to a consume task.
  have htask := hsecond.step (.task (i := 0) Nat.one_pos rfl (.start (n := 0) trivial))
    |>.step (.task (i := 0) Nat.one_pos rfl .finish)
  have hend := htask.step (.endPull rfl rfl) |>.step (.endTake (v := (6 : ℕ)) rfl rfl rfl)
    |>.step (.endPush rfl rfl (by decide))
  obtain ⟨hlive, hconsume, hflight⟩ := bounded_parallelism (p := 3) rfl hend
  exact ⟨_, hend, ⟨rfl, rfl, rfl⟩, hlive 0 Nat.one_pos, hconsume, hflight⟩

end PipelineFifo

end TmcExamples
