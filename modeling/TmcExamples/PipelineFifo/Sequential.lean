import TmcExamples.PipelineFifo.Drain

/-!
# The two bodies of an end stage of parallelism one

The constructor of `pipeline_end_stage` chooses `inline_worker` when the parallelism is `1`. With
`worker` in its place the consume function would be called in a forked task, and since `active`
is at most one, not before the task that was forked before has been awaited. So with either body
the consume function is called on the values in order, and its bodies do not overlap
(`Consumes`, `consumption_run`). What can be observed of the two programs is the same
(`observes_iff`).
-/

namespace TmcExamples

namespace PipelineFifo

/-- The start and the end of a body of the consume function. -/
inductive ConsumeEvent
  | start
  | finish
  deriving DecidableEq, Repr

/-- The event of a step, in `inline_worker` or in a forked consume task. -/
def Action.consumeEvent : Action → Option ConsumeEvent
  | .endCall _ | .consumeTask _ (.start _) => some .start
  | .endReturn | .consumeTask _ .finish => some .finish
  | _ => none

/-- The events of a run. -/
def consumeEvents (tr : List Action) : List ConsumeEvent := tr.filterMap Action.consumeEvent

/-- The events of `n` bodies, one after the other. -/
def oneByOne : ℕ → List ConsumeEvent
  | 0 => []
  | n + 1 => oneByOne n ++ [.start, .finish]

/-- `inline_worker` is inside a call of the consume function. -/
def Consumer.isCalling {α : Type} : Consumer α → Bool
  | .calling _ => true
  | _ => false

/-- The bodies that process one value at a time. -/
inductive EndStage.OneAtATime : EndStage → Prop
  | inlineWorker : OneAtATime .inlineWorker
  | worker {hp : 0 < 1} : OneAtATime (.worker 1 hp)

variable {pl : Pipeline} {s s' : State pl} {a : Action} {tr : List Action}

/-- A body of the consume function is running. -/
def State.consuming (s : State pl) : Bool :=
  s.consumer.isCalling || s.internalQueue.log.any Fork.isRunning

/-- What a step does to the calls: nothing, it starts one while none is running, or it ends the
one that is running. -/
inductive Consumes (s s' : State pl) : Option ConsumeEvent → Prop
  | none : s'.consumed = s.consumed → s'.consuming = s.consuming → Consumes s s' none
  | start {v : pl.Out} : s.consuming = false → s'.consuming = true →
      s'.consumed = s.consumed ++ [v] → Consumes s s' (some .start)
  | finish : s.consuming = true → s'.consuming = false → s'.consumed = s.consumed →
      Consumes s s' (some .finish)

/-! ### `worker` with parallelism one -/

/-- The consume tasks that have been started are the first ones. -/
structure StartedInv (s : State pl) : Prop where
  started : ∀ i t, s.internalQueue.log[i]? = some t → (t.isStarted = true ↔ i < s.consumed.length)
  consumed : s.consumed <+: s.internalQueue.log.map Fork.arg

section Worker

variable {hp : 0 < 1} {t t' : Fork pl.Out Unit} {e : TaskEvent} {i : ℕ}

/-- A task that has not finished is the last one that has been pushed. -/
private theorem Inv.last_of_not_ready (h : Inv s) (hm : pl.endStage = .worker 1 hp)
    (ht : s.internalQueue.log[i]? = some t) (hready : t.ready? = none) :
    i + 1 = s.internalQueue.log.length := by
  have hw := h.ending.worker 1 hp hm
  have hle := h.active_le hm
  have hlt := (List.getElem?_eq_some_iff.mp ht).1
  have hnot : t.awaited = 0 := by
    by_contra hne
    rw [hw.ready t (List.mem_of_getElem? ht) (Nat.pos_of_ne_zero hne)] at hready
    nomatch hready
  rw [hw.awaited i t ht] at hnot
  have hge : ¬ i < s.internalQueue.head + s.consumer.drained := by
    intro hi
    rw [onceBelow_of_lt hi] at hnot
    nomatch hnot
  have hlen := hw.active
  omega

/-- So it is the only one that may be running. -/
private theorem Inv.eq_of_isRunning (h : Inv s) (hm : pl.endStage = .worker 1 hp)
    (ht : s.internalQueue.log[i]? = some t) (hready : t.ready? = none) {j : ℕ}
    (ht' : s.internalQueue.log[j]? = some t') (hrun : t'.isRunning = true) : j = i := by
  have hi := h.last_of_not_ready hm ht hready
  have hj := h.last_of_not_ready hm ht' (Fork.ready?_of_isRunning hrun)
  omega

end Worker

/-! ### The steps -/

/-- When a property can hold only at position `i`, it holds of some element if it does there. -/
private theorem any_eq_of_only {α : Type*} {l : List α} {f : α → Bool} {i : ℕ} {x : α}
    (hx : l[i]? = some x) (honly : ∀ j y, l[j]? = some y → f y = true → j = i) :
    l.any f = f x := by
  rw [Bool.eq_iff_iff, List.any_eq_true]
  constructor
  · rintro ⟨y, hy, hf⟩
    obtain ⟨j, hj⟩ := List.mem_iff_getElem?.mp hy
    obtain rfl := honly j y hj hf
    rw [hx] at hj
    obtain rfl := Option.some.inj hj
    exact hf
  · intro hf
    exact ⟨x, List.mem_of_getElem? hx, hf⟩

private theorem any_congr_of_map {α : Type*} {l l' : List α} {f : α → Bool}
    (h : l'.map f = l.map f) : l'.any f = l.any f := by
  have hany := congrArg (fun l : List Bool => l.any id) h
  rwa [List.any_map, List.any_map] at hany

private theorem consuming_congr (hc : s'.consumer.isCalling = s.consumer.isCalling)
    (hq : s'.internalQueue.log.map Fork.isRunning = s.internalQueue.log.map Fork.isRunning) :
    s'.consuming = s.consuming := by
  rw [State.consuming, State.consuming, hc, any_congr_of_map hq]

private theorem isCalling_onData {α : Type} (e : EndStage) (v : α) :
    (e.onData v).isCalling = false := by
  cases e <;> rfl

private theorem isCalling_onClosed {α : Type} (e : EndStage) :
    (e.onClosed : Consumer α).isCalling = false := by
  cases e <;> rfl

/-- A call of the consume function in `inline_worker` is the only one. -/
private theorem Inv.internal_of_inline (h : Inv s) {c : Consumer pl.Out} (hc : s.consumer = c)
    (hactive : ∀ p, ¬ c.ActiveOk p s.active) : s.internalQueue.log = [] := by
  cases hm : pl.endStage with
  | inlineWorker => exact (h.ending.inline hm).internal
  | worker p hp => exact (hactive p (hc ▸ (h.ending.worker p hp hm).activeOk)).elim

/-- In `worker` no call is made by the end stage itself. -/
private theorem Inv.isCalling_of_worker (h : Inv s) {p : ℕ} {hp : 0 < p}
    (hm : pl.endStage = .worker p hp) : s.consumer.isCalling = false := by
  have hok := (h.ending.worker p hp hm).activeOk
  cases hc : s.consumer with
  | calling n =>
    rw [hc] at hok
    exact hok.elim
  | _ => rfl

private theorem consumes_consumeTask (hseq : pl.endStage.OneAtATime) (h : Inv s) {i : ℕ}
    {e : TaskEvent} {t t' : Fork pl.Out Unit} (ht : s.internalQueue.log[i]? = some t)
    (hadv : pl.consume.Advance e t t')
    (hs' : s' = { s with
      internalQueue := s.internalQueue.modify i fun _ => t'
      consumed := s.consumed ++ if e.isStart then [t.arg] else [] }) :
    Consumes s s' (Action.consumeTask i e).consumeEvent := by
  have hready : t.ready? = none := hadv.ready?_eq_none
  cases hm : pl.endStage with
  | inlineWorker =>
    rw [(h.ending.inline hm).internal] at ht
    nomatch ht
  | worker p hp =>
    obtain rfl : p = 1 := by
      rw [hm] at hseq
      cases hseq
      rfl
    have hlog : s'.internalQueue.log[i]? = some t' := by
      rw [hs', LogQueue.modify_log, List.getElem?_modify_eq, ht]
      rfl
    have hcalling : s.consumer.isCalling = false := h.isCalling_of_worker hm
    -- Before the step only task `i` may be running, and the others are as before.
    have hbefore : s.consuming = t.isRunning := by
      rw [State.consuming, hcalling, Bool.false_or]
      exact any_eq_of_only ht fun j x hx hrun => h.eq_of_isRunning hm ht hready hx hrun
    have hafter : s'.consuming = t'.isRunning := by
      have hcalling' : s'.consumer.isCalling = false := by rw [hs']; exact hcalling
      rw [State.consuming, hcalling', Bool.false_or]
      refine any_eq_of_only hlog fun j x hx hrun => ?_
      by_contra hne
      rw [hs', LogQueue.modify_log, List.getElem?_modify_ne _ _ (Ne.symm hne)] at hx
      exact hne (h.eq_of_isRunning hm ht hready hx hrun)
    cases hadv with
    | start hmay => exact .start hbefore hafter (by rw [hs']; rfl)
    | resume => exact .none (by rw [hs']; exact List.append_nil _) (by rw [hbefore, hafter]; rfl)
    | finish => exact .finish hbefore hafter (by rw [hs']; exact List.append_nil _)

/-- **The calls do not overlap.** -/
theorem consumes_step (hseq : pl.endStage.OneAtATime) (h : Inv s) (hs : Step s a s') :
    Consumes s s' a.consumeEvent := by
  cases hs with
  | constructEnd hmain =>
    have hc := h.main.consumer.mpr ⟨_, hmain⟩
    exact .none rfl (consuming_congr (by rw [hc]; rfl) rfl)
  | endPull hc | endRelease hc | endResume hc =>
    exact .none rfl (consuming_congr (by rw [hc]; rfl) rfl)
  | endPullEmpty hc =>
    exact .none rfl (consuming_congr (by rw [hc, isCalling_onClosed]; rfl) rfl)
  | endTake hc => exact .none rfl (consuming_congr (by rw [hc, isCalling_onData]; rfl) rfl)
  | endCall hc =>
    have hnil := h.internal_of_inline hc fun _ => id
    refine .start ?_ rfl rfl
    rw [State.consuming, hc, hnil]
    rfl
  | endReturn hc =>
    have hnil := h.internal_of_inline hc fun _ => id
    refine .finish ?_ ?_ rfl
    · rw [State.consuming, hc]
      rfl
    · change (false || s.internalQueue.log.any Fork.isRunning) = false
      rw [hnil]
      rfl
  | endPush hc =>
    refine .none rfl ?_
    rw [State.consuming, State.consuming, hc, LogQueue.push_log, List.any_append]
    simp only [List.any_cons, List.any_nil, Bool.or_false]
    split <;> exact Bool.or_false _
  | endDrainTest hc => exact .none rfl (consuming_congr (by rw [hc]; dsimp only; split <;> rfl) rfl)
  | endDrainPull hc => exact .none rfl (consuming_congr (by rw [hc]; rfl) rfl)
  | endDrainAwait hc =>
    refine .none rfl (consuming_congr (by rw [hc]; rfl) ?_)
    exact LogQueue.map_log_modify fun _ _ => rfl
  | @endDrainRelease b hc => exact .none rfl (consuming_congr (by rw [hc]; cases b <;> rfl) rfl)
  | consumeTask ht hadv => exact consumes_consumeTask hseq h ht hadv rfl
  | _ => exact .none rfl rfl

/-! ### The values that are consumed -/

section Worker

variable {hp : 0 < 1} {t t' : Fork pl.Out Unit} {e : TaskEvent} {i : ℕ}

/-- A task that is about to be started is the first one that has not been started. -/
private theorem StartedInv.length_consumed (hst : StartedInv s) (h : Inv s)
    (hm : pl.endStage = .worker 1 hp) (ht : s.internalQueue.log[i]? = some t)
    (hqueued : t.isStarted = false) (hready : t.ready? = none) : s.consumed.length = i := by
  have hle : s.consumed.length ≤ i := by
    by_contra hlt
    rw [(hst.started i t ht).mpr (by omega)] at hqueued
    nomatch hqueued
  refine Nat.le_antisymm hle ?_
  cases i with
  | zero => exact Nat.zero_le _
  | succ i =>
    -- The task before it is not the last one, so it has finished.
    have hlast := h.last_of_not_ready hm ht hready
    obtain ⟨t₀, ht₀⟩ : ∃ t₀, s.internalQueue.log[i]? = some t₀ :=
      ⟨_, List.getElem?_eq_getElem (by omega)⟩
    have hready₀ : t₀.ready? ≠ none := by
      intro hnone
      have hlast₀ := h.last_of_not_ready hm ht₀ hnone
      omega
    obtain ⟨r, hr⟩ := Option.ne_none_iff_exists'.mp hready₀
    exact (hst.started i t₀ ht₀).mp (Fork.isStarted_of_ready hr)

/-- A task that starts is the next one that has not been consumed. -/
theorem StartedInv.consumeTask (hst : StartedInv s) (h : Inv s) (hm : pl.endStage = .worker 1 hp)
    (ht : s.internalQueue.log[i]? = some t) (hadv : pl.consume.Advance e t t')
    (hs' : s' = { s with
      internalQueue := s.internalQueue.modify i fun _ => t'
      consumed := s.consumed ++ if e.isStart then [t.arg] else [] }) : StartedInv s' := by
  have hargs : s'.internalQueue.log.map Fork.arg = s.internalQueue.log.map Fork.arg := by
    rw [hs']
    refine LogQueue.map_log_modify fun x hx => ?_
    rw [ht] at hx
    cases hx
    exact hadv.arg_eq
  have hget : ∀ j x, s'.internalQueue.log[j]? = some x →
      j = i ∧ x = t' ∨ j ≠ i ∧ s.internalQueue.log[j]? = some x := by
    intro j x hx
    rw [hs'] at hx
    obtain ⟨x₀, hx₀, rfl⟩ := LogQueue.getElem?_modify_eq_some hx
    by_cases hij : i = j
    · rw [if_pos hij]
      exact Or.inl ⟨hij.symm, rfl⟩
    · rw [if_neg hij]
      exact Or.inr ⟨Ne.symm hij, hx₀⟩
  have harg : (s.internalQueue.log.map Fork.arg)[i]? = some t.arg := by
    rw [List.getElem?_map, ht]
    rfl
  have hstarted := hst.started i t ht
  have hready := hadv.ready?_eq_none
  cases hadv with
  | @start v _ _ hmay =>
    have hlen : s.consumed.length = i := hst.length_consumed h hm ht rfl hready
    have hconsumed : s'.consumed = s.consumed ++ [v] := by rw [hs']; rfl
    constructor
    · intro j x hx
      rw [hconsumed, List.length_append, hlen, List.length_singleton]
      obtain ⟨rfl, rfl⟩ | ⟨hne, hx⟩ := hget j x hx
      · exact iff_of_true rfl (Nat.lt_succ_self j)
      · rw [hst.started j x hx, hlen]
        omega
    · rw [hargs, hconsumed]
      exact prefix_concat hst.consumed (hlen ▸ harg)
  | resume | finish =>
    have hconsumed : s'.consumed = s.consumed := by rw [hs']; exact List.append_nil _
    refine ⟨?_, by rw [hargs, hconsumed]; exact hst.consumed⟩
    intro j x hx
    rw [hconsumed]
    obtain ⟨rfl, rfl⟩ | ⟨hne, hx⟩ := hget j x hx
    · exact hstarted
    · exact hst.started j x hx

/-- Every step keeps the consume tasks starting in their order. -/
theorem StartedInv.step (hst : StartedInv s) (h : Inv s) (hm : pl.endStage = .worker 1 hp)
    (hs : Step s a s') : StartedInv s' := by
  cases hs with
  | endCall hc =>
    rw [(h.ending_at hc).inlineWorker_of_call] at hm
    nomatch hm
  | @endPush _ v _ _ hc =>
    refine ⟨?_, hst.consumed.trans ?_⟩
    · intro j x hx
      rcases LogQueue.getElem?_push_eq_some hx with hx | ⟨rfl, rfl⟩
      · exact hst.started j x hx
      · have hle := hst.consumed.length_le
        rw [List.length_map] at hle
        exact iff_of_false Bool.false_ne_true (Nat.not_lt_of_le hle)
    · rw [LogQueue.push_log, List.map_append]
      exact List.prefix_append _ _
  | endDrainAwait hc =>
    refine ⟨?_, ?_⟩
    · intro j x hx
      obtain ⟨x₀, hx₀, rfl⟩ := LogQueue.getElem?_modify_eq_some hx
      rw [← hst.started j x₀ hx₀]
      split <;> rfl
    · have hargs : (s.internalQueue.modify s.internalQueue.head Fork.await).log.map Fork.arg =
          s.internalQueue.log.map Fork.arg := LogQueue.map_log_modify fun _ _ => rfl
      exact hargs ▸ hst.consumed
  | consumeTask ht hadv => exact hst.consumeTask h hm ht hadv rfl
  | _ => exact ⟨hst.started, hst.consumed⟩

private theorem startedInv_reachable (hm : pl.endStage = .worker 1 hp)
    (hs : (system pl).Reachable s) : StartedInv s := by
  refine hs.induct (P := StartedInv) ⟨?_, List.prefix_refl _⟩ ?_
  · intro i t ht
    nomatch ht
  · intro s a s' hr hst hstep
    exact hst.step (inv_reachable hr) hm hstep

end Worker

/-! ### Every run -/

/-- The values that the end stage gets. -/
def Pipeline.outputs (pl : Pipeline) : List pl.Out := pl.inputs.map (pl.compose pl.stages)

/-- They do not depend on the body of the end stage. -/
private theorem Pipeline.outputs_endStage (pl : Pipeline) (e : EndStage) :
    ({ pl with endStage := e } : Pipeline).outputs = pl.outputs := rfl

private theorem Pipeline.length_outputs (pl : Pipeline) : pl.outputs.length = pl.inputs.length :=
  List.length_map _

private theorem consumed_prefix_outputs (hseq : pl.endStage.OneAtATime)
    (hs : (system pl).Reachable s) : s.consumed <+: pl.outputs := by
  have h := inv_reachable hs
  have hvalues := h.values_prefix_compose (Nat.le_refl pl.stages)
  cases hm : pl.endStage with
  | inlineWorker => exact (h.ending.inline hm).consumed.trans hvalues
  | worker p hp =>
    rw [hm] at hseq
    cases hseq
    calc s.consumed <+: s.internalQueue.log.map Fork.arg := (startedInv_reachable hm hs).consumed
      _ <+: pl.values (s.queue pl.stages) := (h.ending.worker 1 _ hm).args
      _ <+: pl.outputs := hvalues

/-- At its end the end stage has consumed all outputs. -/
theorem consumed_of_done (hseq : pl.endStage.OneAtATime) (hs : (system pl).Reachable s)
    (hdone : s.consumer = .done) : s.consumed = pl.outputs := by
  have h := inv_reachable hs
  have hd := h.forkGroupDone_of_done hdone
  refine (consumed_prefix_outputs hseq hs).eq_of_length ?_
  cases hm : pl.endStage with
  | inlineWorker =>
    have hlen := (h.ending.inline hm).length
    rw [hdone] at hlen
    rw [hlen, (h.drained_of_done hd (Nat.le_refl _)).2, h.log_length_of_done hd (Nat.le_refl _),
      pl.length_outputs]
    rfl
  | worker p hp =>
    rw [hm] at hseq
    cases hseq
    -- All consume tasks have finished, so that all of them have been started.
    have hst := startedInv_reachable hm hs
    have hlen : s.internalQueue.log.length ≤ s.consumed.length := by
      by_contra hlt
      have ht := List.getElem?_eq_getElem (l := s.internalQueue.log) (Nat.lt_of_not_le hlt)
      have hready := ((h.completed_of_done hd).consumeTask _ (List.mem_of_getElem? ht)).2
      exact Nat.lt_irrefl _ ((hst.started _ _ ht).mp (Fork.isStarted_of_ready hready))
    have hall : s.consumed = s.internalQueue.log.map Fork.arg :=
      hst.consumed.eq_of_length_le (by rwa [List.length_map])
    rw [hall, h.consumeTask_args_of_done hm hdone, pl.length_outputs, List.length_map]

private theorem consuming_of_done (hs : (system pl).Reachable s) (hdone : s.consumer = .done) :
    s.consuming = false := by
  have h := inv_reachable hs
  have hcompleted := h.completed_of_done (h.forkGroupDone_of_done hdone)
  have hany : s.internalQueue.log.any Fork.isRunning = false := by
    rw [List.any_eq_false]
    intro t ht hrun
    have hready := (hcompleted.consumeTask t ht).2
    rw [Fork.ready?_of_isRunning hrun] at hready
    nomatch hready
  rw [State.consuming, hdone, hany]
  rfl

private theorem consumeEvents_concat (tr : List Action) (a : Action) :
    consumeEvents (tr ++ [a]) = consumeEvents tr ++ a.consumeEvent.toList := by
  rw [consumeEvents, List.filterMap_append, consumeEvents]
  cases h : a.consumeEvent <;> simp [h]

/-- **The bodies follow each other.** What is missing from the events is the end of the body that
is running. -/
theorem consumeEvents_run (hseq : pl.endStage.OneAtATime)
    (h : (system pl).Run (initial pl) tr s) :
    consumeEvents tr ++ (if s.consuming then [.finish] else []) = oneByOne s.consumed.length := by
  refine LTS.Run.induct (P := fun tr s =>
    consumeEvents tr ++ (if s.consuming then [.finish] else []) = oneByOne s.consumed.length)
    rfl ?_ h
  intro tr s a s' hrun ih hstep
  have hconsumes := consumes_step hseq (inv_reachable hrun.reachable) hstep
  rw [consumeEvents_concat]
  generalize a.consumeEvent = event at hconsumes
  cases hconsumes with
  | none hconsumed hconsuming => rw [hconsumed, hconsuming]; simpa using ih
  | start hbefore hafter hconsumed =>
    rw [hbefore, if_neg Bool.false_ne_true, List.append_nil] at ih
    rw [hafter, if_pos rfl, hconsumed, List.length_append, List.length_singleton, oneByOne, ih,
      List.append_assoc]
    rfl
  | finish hbefore hafter hconsumed =>
    rw [hbefore, if_pos rfl] at ih
    rw [hafter, if_neg Bool.false_ne_true, hconsumed, List.append_nil]
    exact ih

/-! ### What can be observed -/

private theorem oneByOne_mono {m n : ℕ} (h : m ≤ n) : oneByOne m <+: oneByOne n := by
  induction h with
  | refl => exact List.prefix_refl _
  | @step n _ ih =>
    calc oneByOne m <+: oneByOne n := ih
      _ <+: oneByOne (n + 1) := List.prefix_append _ _

private theorem count_start_oneByOne (n : ℕ) : (oneByOne n).count .start = n := by
  induction n with
  | zero => rfl
  | succ n ih => rw [oneByOne, List.count_append, ih]; rfl

/-- The values that the consume function is called with, its events, and whether the end stage has
returned, at the end of some run. -/
def Observes (pl : Pipeline) (values : List pl.Out) (events : List ConsumeEvent)
    (returned : Prop) : Prop :=
  ∃ tr s, (system pl).Run (initial pl) tr s ∧ s.consumed = values ∧ consumeEvents tr = events ∧
    (s.consumer = .done ↔ returned)

/-- The step of an event does not return from the end stage. -/
private theorem consumer_of_consumeEvent (hs : Step s a s') {e : ConsumeEvent}
    (he : a.consumeEvent = some e) : s'.consumer ≠ .done ∨ s'.consumer = s.consumer := by
  cases hs with
  | endCall | endReturn => exact Or.inl (by nofun)
  | consumeTask => exact Or.inr rfl
  | _ => nomatch he

private theorem ne_done_of_consumeEvent (hseq : pl.endStage.OneAtATime)
    (hr : (system pl).Reachable s)
    (hs : Step s a s') {e : ConsumeEvent} (he : a.consumeEvent = some e) : s'.consumer ≠ .done := by
  intro hdone
  have hbefore : s.consumer = .done := by
    rcases consumer_of_consumeEvent hs he with hne | heq
    · exact (hne hdone).elim
    · exact heq ▸ hdone
  have hidle := consuming_of_done hr hbefore
  have hidle' := consuming_of_done (hr.step hs) hdone
  have hconsumes := consumes_step hseq (inv_reachable hr) hs
  rw [he] at hconsumes
  cases hconsumes with
  | start _ hafter _ =>
    rw [hidle'] at hafter
    cases hafter
  | finish hbusy _ _ =>
    rw [hidle] at hbusy
    cases hbusy

/-- Whatever has been seen of the events in a run is seen in a state in which the end stage has
not returned. -/
private theorem exists_run_of_prefix (hseq : pl.endStage.OneAtATime)
    (h : (system pl).Run (initial pl) tr s) {events : List ConsumeEvent}
    (hpre : events <+: consumeEvents tr) :
    ∃ tr' s', (system pl).Run (initial pl) tr' s' ∧ consumeEvents tr' = events ∧
      s'.consumer ≠ .done := by
  induction h with
  | nil => exact ⟨[], initial pl, .nil, (List.prefix_nil.mp hpre).symm, by nofun⟩
  | @snoc tr s s' a hrun hstep ih =>
    rw [consumeEvents_concat] at hpre
    cases he : a.consumeEvent with
    | none =>
      rw [he, Option.toList_none, List.append_nil] at hpre
      exact ih hpre
    | some e =>
      rw [he, Option.toList_some] at hpre
      rcases List.prefix_concat_iff.mp hpre with rfl | hpre
      · -- The run ends with the last of the events.
        refine ⟨_, s', hrun.snoc hstep, ?_, ne_done_of_consumeEvent hseq hrun.reachable hstep he⟩
        rw [consumeEvents_concat, he, Option.toList_some]
      · exact ih hpre

/-- In every run the values are the first outputs, one for each body that has been started. -/
private theorem consumed_eq_take (hseq : pl.endStage.OneAtATime)
    (h : (system pl).Run (initial pl) tr s) :
    s.consumed = pl.outputs.take ((consumeEvents tr).count .start) := by
  have hcount : (consumeEvents tr).count .start = s.consumed.length := by
    rw [← count_start_oneByOne s.consumed.length, ← consumeEvents_run hseq h, List.count_append]
    cases s.consuming <;> rfl
  rw [hcount]
  exact List.prefix_iff_eq_take.mp (consumed_prefix_outputs hseq h.reachable)

private theorem consumeEvents_prefix_oneByOne (hseq : pl.endStage.OneAtATime)
    (h : (system pl).Run (initial pl) tr s) :
    consumeEvents tr <+: oneByOne pl.inputs.length := by
  have hlen := (consumed_prefix_outputs hseq h.reachable).length_le
  rw [pl.length_outputs] at hlen
  have hpre : consumeEvents tr <+: oneByOne s.consumed.length := by
    rw [← consumeEvents_run hseq h]
    exact List.prefix_append _ _
  calc consumeEvents tr <+: oneByOne s.consumed.length := hpre
    _ <+: oneByOne pl.inputs.length := oneByOne_mono hlen

private theorem consumeEvents_of_done (hseq : pl.endStage.OneAtATime)
    (h : (system pl).Run (initial pl) tr s) (hdone : s.consumer = .done) :
    consumeEvents tr = oneByOne pl.inputs.length := by
  have hevents := consumeEvents_run hseq h
  rw [consuming_of_done h.reachable hdone, if_neg Bool.false_ne_true, List.append_nil,
    consumed_of_done hseq h.reachable hdone, pl.length_outputs] at hevents
  exact hevents

/-- **The observations of an end stage that processes one value at a time.** -/
theorem observes_iff (hseq : pl.endStage.OneAtATime) (values : List pl.Out)
    (events : List ConsumeEvent) (returned : Prop) :
    Observes pl values events returned ↔
      events <+: oneByOne pl.inputs.length ∧ values = pl.outputs.take (events.count .start) ∧
        (returned → events = oneByOne pl.inputs.length) := by
  constructor
  · rintro ⟨tr, s, hrun, rfl, rfl, hreturned⟩
    exact ⟨consumeEvents_prefix_oneByOne hseq hrun, consumed_eq_take hseq hrun,
      fun hr => consumeEvents_of_done hseq hrun (hreturned.mpr hr)⟩
  · rintro ⟨hpre, rfl, hreturned⟩
    obtain ⟨s, ⟨tr, hrun⟩, -, hd⟩ := exists_finished pl
    have hall := consumeEvents_of_done hseq hrun hd.2
    by_cases hr : returned
    · obtain rfl := hreturned hr
      exact ⟨tr, s, hrun, hall ▸ consumed_eq_take hseq hrun, hall, iff_of_true hd.2 hr⟩
    · obtain ⟨tr', s', hrun', rfl, hne⟩ := exists_run_of_prefix hseq hrun (hall ▸ hpre)
      exact ⟨tr', s', hrun', consumed_eq_take hseq hrun', rfl, iff_of_false hne hr⟩

/-- What an end stage of parallelism one does under every schedule. -/
structure ConsumesInOrder (pl : Pipeline) : Prop where
  consumed : ∀ s, (system pl).Reachable s → s.consumed <+: pl.outputs
  /-- No body of the consume function is started before the previous one has finished. -/
  events : ∀ tr s, (system pl).Run (initial pl) tr s →
    consumeEvents tr <+: oneByOne pl.inputs.length
  returned : ∀ tr s, (system pl).Run (initial pl) tr s → s.consumer = .done →
    s.consumed = pl.outputs ∧ consumeEvents tr = oneByOne pl.inputs.length
  terminating : (system pl).Terminating
  ends : ∀ s, (system pl).Reachable s → ¬ (system pl).Enabled s → s.consumer = .done

private theorem consumesInOrder (hseq : pl.endStage.OneAtATime) : ConsumesInOrder pl where
  consumed _ hs := consumed_prefix_outputs hseq hs
  events _ _ h := consumeEvents_prefix_oneByOne hseq h
  returned _ _ h hdone :=
    ⟨consumed_of_done hseq h.reachable hdone, consumeEvents_of_done hseq h hdone⟩
  terminating := PipelineFifo.terminating pl
  ends s hs hend := by
    have h := inv_reachable hs
    have hfinished : s.main = .finished := by
      by_contra hne
      exact hend (h.enabled hne)
    exact (h.main.finished hfinished).2

/-- **The fast path is the slow path.** For the same stages, inputs and consume function,
`inline_worker` and `worker` with parallelism `1` call the consume function on the same values in
order, one call after the other, and return after the same inputs; and nothing else can be
observed of the one than of the other. -/
theorem inline_worker_equiv_worker (pl : Pipeline) :
    ConsumesInOrder { pl with endStage := .inlineWorker } ∧
      ConsumesInOrder { pl with endStage := .worker 1 Nat.one_pos } ∧
      ∀ (values : List pl.Out) events returned,
        Observes { pl with endStage := .inlineWorker } values events returned ↔
          Observes { pl with endStage := .worker 1 Nat.one_pos } values events returned := by
  refine ⟨consumesInOrder .inlineWorker, consumesInOrder .worker, ?_⟩
  intro values events returned
  have hobserves {e : EndStage} (he : e.OneAtATime) :
      Observes { pl with endStage := e } values events returned ↔
        events <+: oneByOne pl.inputs.length ∧ values = pl.outputs.take (events.count .start) ∧
          (returned → events = oneByOne pl.inputs.length) := by
    rw [← pl.outputs_endStage e]
    exact @observes_iff { pl with endStage := e } he values events returned
  rw [hobserves .inlineWorker, ← hobserves .worker]

end PipelineFifo

end TmcExamples
