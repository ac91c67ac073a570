import TmcExamples.PipelineFifo.Queues

/-!
# The invariant of the end stage

The end stage pulls from queue `stages` like every worker, and `EndInv` says of that queue
what `StageInv` says of a worker's input queue. What it does with the values depends on the
body that the constructor has chosen:

* `InlineInv`: `inline_worker` has called the consume function once for every released
  element, plus once for the element in its hand when it is past the call, in queue order.
* `WorkerInv`: `worker` has pushed one consume task for every released element, plus one for
  the element in its hand when it is past the push. `active` is the number of handles of
  `internalQueue` that have not been awaited, and stays within the bounds of
  `Consumer.ActiveOk`: at the loop head it is below the parallelism, so that the push finds a
  free slot, and where the worker pulls from `internalQueue` it is positive, so that the pull
  finds a handle.
-/

namespace TmcExamples

namespace PipelineFifo

namespace Consumer

variable {α : Type}

/-- The end stage holds the scope of an element pulled from its input queue. -/
def Holds : Consumer α → Prop
  | .take | .call _ | .calling _ | .push _ | .release => True
  | .drainPull false | .drainAwait false | .drainRelease false => True
  | _ => False

/-- The number of elements whose data has been taken and whose slot is still held. -/
def acquired : Consumer α → ℕ
  | .call _ | .calling _ | .push _ | .release => 1
  | .drainPull false | .drainAwait false | .drainRelease false => 1
  | _ => 0

/-- The end stage has left its loop. -/
def Left : Consumer α → Prop
  | .drainTest | .drainPull true | .drainAwait true | .drainRelease true | .done => True
  | _ => False

/-- The number of elements the consume function has been called with, or a consume task
pushed for, and whose slot is still held. -/
def handled : Consumer α → ℕ
  | .calling _ | .release => 1
  | .drainPull false | .drainAwait false | .drainRelease false => 1
  | _ => 0

/-- The number of handles that `worker` has awaited and whose slot of `internalQueue` it
still holds. -/
def drained : Consumer α → ℕ
  | .drainRelease _ => 1
  | _ => 0

/-- The program points of `inline_worker`. -/
def Inline : Consumer α → Prop
  | .push _ | .drainTest | .drainPull _ | .drainAwait _ | .drainRelease _ => False
  | _ => True

/-- The program points of `worker`, with the values of `active` that occur there. -/
def ActiveOk (p active : ℕ) : Consumer α → Prop
  | .call _ | .calling _ => False
  | .drainPull false | .drainAwait false => active = p
  | .drainPull true | .drainAwait true => 0 < active ∧ active < p
  | .done => active = 0
  | _ => active < p

end Consumer

variable {pl : Pipeline}

/-- `inline_worker`: the consume function has been called on a prefix of the values. -/
structure InlineInv (q : LogQueue (Element pl.Val pl.stages)) (c : Consumer pl.Out)
    (iq : LogQueue (Fork pl.Out Unit)) (active : ℕ) (consumed : List pl.Out) : Prop where
  point : c.Inline
  internal : iq.log = []
  active : active = 0
  length : consumed.length = q.head + c.handled
  consumed : consumed <+: pl.values q

/-- `worker`: consume tasks have been forked for a prefix of the values, and `active` counts
the handles that have not been awaited. -/
structure WorkerInv (p : ℕ) (q : LogQueue (Element pl.Val pl.stages)) (c : Consumer pl.Out)
    (iq : LogQueue (Fork pl.Out Unit)) (active : ℕ) : Prop where
  activeOk : c.ActiveOk p active
  active : iq.head + c.drained + active = iq.log.length
  length : iq.log.length = q.head + c.handled
  args : iq.log.map Fork.arg <+: pl.values q
  awaited : ∀ i t, iq.log[i]? = some t → t.awaited = onceBelow (iq.head + c.drained) i
  ready : ∀ t ∈ iq.log, 0 < t.awaited → t.ready? = some ()
  closed : iq.closed = false

/-- The invariant of the end stage. -/
structure EndInv (q : LogQueue (Element pl.Val pl.stages)) (c : Consumer pl.Out)
    (iq : LogQueue (Fork pl.Out Unit)) (active : ℕ) (consumed : List pl.Out) : Prop where
  holds : c.Holds → q.head < q.log.length
  data : ∀ v, c = .call v ∨ c = .push v → (pl.values q)[q.head]? = some v
  taken : ∀ i e, q.log[i]? = some e → e.taken = onceBelow (q.head + c.acquired) i
  left : c.Left → q.closed = true ∧ q.head = q.log.length
  inline : pl.endStage = .inlineWorker → InlineInv q c iq active consumed
  worker : ∀ p hp, pl.endStage = .worker p hp → WorkerInv p q c iq active

namespace EndInv

variable {q q₂ : LogQueue (Element pl.Val pl.stages)} {c : Consumer pl.Out}
  {iq : LogQueue (Fork pl.Out Unit)} {active : ℕ} {consumed : List pl.Out}

theorem initial :
    EndInv (.empty : LogQueue (Element pl.Val pl.stages)) .unstarted .empty 0 [] where
  holds h := h.elim
  data v h := by simp at h
  taken i e h := by simp at h
  left h := h.elim
  inline _ := ⟨trivial, rfl, rfl, rfl, List.prefix_refl _⟩
  worker p hp _ := ⟨hp, rfl, rfl, List.prefix_refl _, by simp, by simp, rfl⟩

/-- The invariant when the end stage is `inline_worker`. -/
private theorem of_inlineWorker (hm : pl.endStage = .inlineWorker)
    (hh : c.Holds → q.head < q.log.length)
    (hd : ∀ v, c = .call v ∨ c = .push v → (pl.values q)[q.head]? = some v)
    (ht : ∀ i e, q.log[i]? = some e → e.taken = onceBelow (q.head + c.acquired) i)
    (hl : c.Left → q.closed = true ∧ q.head = q.log.length)
    (hi : InlineInv q c iq active consumed) : EndInv q c iq active consumed :=
  ⟨hh, hd, ht, hl, fun _ => hi, by simp [hm]⟩

/-- The invariant when the end stage is `worker`. -/
private theorem of_worker {p : ℕ} {hp : 0 < p} (hm : pl.endStage = .worker p hp)
    (hh : c.Holds → q.head < q.log.length)
    (hd : ∀ v, c = .call v ∨ c = .push v → (pl.values q)[q.head]? = some v)
    (ht : ∀ i e, q.log[i]? = some e → e.taken = onceBelow (q.head + c.acquired) i)
    (hl : c.Left → q.closed = true ∧ q.head = q.log.length)
    (hw : WorkerInv p q c iq active) : EndInv q c iq active consumed := by
  refine ⟨hh, hd, ht, hl, by simp [hm], ?_⟩
  intro p' hp' hm'
  rw [hm] at hm'
  cases hm'
  exact hw

private theorem head_add_acquired_le (h : EndInv q c iq active consumed) :
    q.head + c.acquired ≤ q.log.length := by
  cases c with
  | call | calling | push | release => exact h.holds trivial
  | drainPull b | drainAwait b | drainRelease b =>
    cases b with
    | false => exact h.holds trivial
    | true => exact q.head_le
  | _ => exact q.head_le

/-- The steps of the others on the input queue. -/
theorem upstream (h : EndInv q c iq active consumed) (hu : Upstream q q₂) :
    EndInv q₂ c iq active consumed where
  holds hc := by
    have := h.holds hc
    have := hu.length_le
    rw [hu.head]
    omega
  data v hv := by
    rw [hu.head]
    exact getElem?_of_prefix hu.values (h.data v hv)
  taken i e₂ he₂ := by
    rw [hu.head]
    rcases hu.taken i e₂ he₂ with ⟨e, he, ht⟩ | ⟨hi, ht⟩
    · rw [ht]
      exact h.taken i e he
    · have := h.head_add_acquired_le
      rw [ht, onceBelow_of_le (by omega)]
  left hc := by
    obtain ⟨hcl, hh⟩ := h.left hc
    obtain ⟨hcl₂, hl⟩ := hu.closed hcl
    exact ⟨hcl₂, by rw [hu.head, hl, hh]⟩
  inline hm :=
    have hi := h.inline hm
    ⟨hi.point, hi.internal, hi.active, by rw [hu.head]; exact hi.length,
      hi.consumed.trans hu.values⟩
  worker p hp hm :=
    have hw := h.worker p hp hm
    ⟨hw.activeOk, hw.active, by rw [hu.head]; exact hw.length, hw.args.trans hu.values,
      hw.awaited, hw.ready, hw.closed⟩

/-- A move of the end stage that touches no queue. -/
private theorem move {c' : Consumer pl.Out} (h : EndInv q c iq active consumed)
    (hacq : c'.acquired = c.acquired) (hhan : c'.handled = c.handled)
    (hdra : c'.drained = c.drained) (hh : c'.Holds → q.head < q.log.length)
    (hd : ∀ v, ¬ (c' = .call v ∨ c' = .push v))
    (hl : c'.Left → q.closed = true ∧ q.head = q.log.length)
    (hi : pl.endStage = .inlineWorker → c'.Inline)
    (hw : ∀ p hp, pl.endStage = .worker p hp → c.ActiveOk p active → c'.ActiveOk p active) :
    EndInv q c' iq active consumed where
  holds := hh
  data v hv := (hd v hv).elim
  taken := by rw [hacq]; exact h.taken
  left := hl
  inline hm :=
    have hin := h.inline hm
    ⟨hi hm, hin.internal, hin.active, by rw [hhan]; exact hin.length, hin.consumed⟩
  worker p hp hm :=
    have hwk := h.worker p hp hm
    ⟨hw p hp hm hwk.activeOk, by rw [hdra]; exact hwk.active, by rw [hhan]; exact hwk.length,
      hwk.args, by rw [hdra]; exact hwk.awaited, hwk.ready, hwk.closed⟩

/-! ### The loop -/

theorem start (h : EndInv q .unstarted iq active consumed) : EndInv q .pull iq active consumed :=
  h.move rfl rfl rfl (fun hc => hc.elim) (by simp) (fun hc => hc.elim) (fun _ => trivial)
    fun _ _ _ ha => ha

/-- The end stage looks at the front element of its queue. -/
theorem pull (h : EndInv q .pull iq active consumed) {e : Element pl.Val pl.stages}
    (he : q.front? = some e) : EndInv q .take iq active consumed :=
  h.move rfl rfl rfl (fun _ => LogQueue.head_lt_of_front? he) (by simp) (fun hc => hc.elim)
    (fun _ => trivial) fun _ _ _ ha => ha

/-- With the queue closed and drained, the end stage goes on to its own end. -/
theorem pullEmpty (h : EndInv q .pull iq active consumed) (he : q.front? = none)
    (hc : q.closed = true) : EndInv q pl.endStage.onClosed iq active consumed := by
  have hleft : q.closed = true ∧ q.head = q.log.length :=
    ⟨hc, LogQueue.front?_eq_none_iff.mp he⟩
  cases hm : pl.endStage with
  | inlineWorker =>
    refine h.move rfl rfl rfl (fun hc => hc.elim) (by simp [EndStage.onClosed]) (fun _ => hleft)
      (fun _ => trivial) fun p hp hm' => ?_
    rw [hm] at hm'
    cases hm'
  | worker p hp =>
    refine h.move rfl rfl rfl (fun hc => hc.elim) (by simp [EndStage.onClosed]) (fun _ => hleft)
      (fun hm' => ?_) fun _ _ _ ha => ha
    rw [hm] at hm'
    cases hm'

/-- The front element gives its value, which it does once. -/
theorem take (h : EndInv q .take iq active consumed) {e : Element pl.Val pl.stages}
    (he : q.front? = some e) :
    EndInv (q.modify q.head Element.take) (pl.endStage.onData (pl.denote e)) iq active
      consumed := by
  have hv : pl.values (q.modify q.head Element.take) = pl.values q :=
    (Downstream.take q q.head).values
  have hlt : q.head < (q.modify q.head Element.take).log.length := by
    rw [LogQueue.modify_log, List.length_modify]
    exact h.holds trivial
  have hdata : (pl.values (q.modify q.head Element.take))[q.head]? = some (pl.denote e) := by
    rw [hv]
    exact Pipeline.values_getElem? he
  have htaken : ∀ i x, (q.modify q.head Element.take).log[i]? = some x →
      x.taken = onceBelow (q.head + 1) i := by
    intro i x hx
    obtain ⟨x₀, hx₀, rfl⟩ := LogQueue.getElem?_modify_eq_some hx
    have ht : x₀.taken = onceBelow q.head i := h.taken i x₀ hx₀
    split
    · next hi => rw [Element.taken_take, ht, ← hi, onceBelow_succ_self]
    · next hi => rw [ht, onceBelow_succ_of_ne hi]
  cases hm : pl.endStage with
  | inlineWorker =>
    have hi := h.inline hm
    refine of_inlineWorker hm (fun _ => hlt) ?_ htaken (fun hc => hc.elim)
      ⟨trivial, hi.internal, hi.active, hi.length, hv ▸ hi.consumed⟩
    rintro v (hv' | hv')
    · obtain rfl := Consumer.call.inj hv'
      exact hdata
    · cases hv'
  | worker p hp =>
    have hw := h.worker p hp hm
    refine of_worker hm (fun _ => hlt) ?_ htaken (fun hc => hc.elim)
      ⟨hw.activeOk, hw.active, hw.length, hv ▸ hw.args, hw.awaited, hw.ready, hw.closed⟩
    rintro v (hv' | hv')
    · cases hv'
    · obtain rfl := Consumer.push.inj hv'
      exact hdata

/-- The front element is taken off the queue when its value has been handed on. -/
theorem release (h : EndInv q .release iq active consumed) :
    EndInv q.pop .pull iq active consumed := by
  have hh : q.pop.head = q.head + 1 := LogQueue.pop_head (h.holds trivial)
  refine ⟨fun hc => hc.elim, by simp, ?_, fun hc => hc.elim, ?_, ?_⟩
  · intro i e he
    rw [hh]
    exact h.taken i e he
  · intro hm
    have hi := h.inline hm
    exact ⟨trivial, hi.internal, hi.active, by rw [hh]; exact hi.length, hi.consumed⟩
  · intro p hp hm
    have hw := h.worker p hp hm
    exact ⟨hw.activeOk, hw.active, by rw [hh]; exact hw.length, hw.args, hw.awaited, hw.ready,
      hw.closed⟩

/-! ### `inline_worker` -/

/-- The points of `inline_worker` are not reached by `worker`. -/
theorem inlineWorker_of_call {v : pl.Out} (h : EndInv q (.call v) iq active consumed) :
    pl.endStage = .inlineWorker := by
  cases hm : pl.endStage with
  | inlineWorker => rfl
  | worker p hp => exact (h.worker p hp hm).activeOk.elim

/-- An inline consume function starts on the value. -/
theorem call {v : pl.Out} (h : EndInv q (.call v) iq active consumed) (n : ℕ) :
    EndInv q (.calling n) iq active (consumed ++ [v]) := by
  have hm := h.inlineWorker_of_call
  have hi := h.inline hm
  have hlen : consumed.length = q.head := hi.length
  refine of_inlineWorker hm (fun _ => h.holds trivial) (by simp) h.taken (fun hc => hc.elim)
    ⟨trivial, hi.internal, hi.active, ?_, ?_⟩
  · rw [List.length_append, hlen]
    rfl
  · exact prefix_concat hi.consumed (hlen ▸ h.data v (Or.inl rfl))

theorem resume {n : ℕ} (h : EndInv q (.calling (n + 1)) iq active consumed) :
    EndInv q (.calling n) iq active consumed :=
  h.move rfl rfl rfl (fun _ => h.holds trivial) (by simp) (fun hc => hc.elim) (fun _ => trivial)
    fun _ _ _ ha => ha

theorem return_ (h : EndInv q (.calling 0) iq active consumed) :
    EndInv q .release iq active consumed :=
  h.move rfl rfl rfl (fun _ => h.holds trivial) (by simp) (fun hc => hc.elim) (fun _ => trivial)
    fun _ _ _ ha => ha.elim

/-! ### `worker` -/

/-- The points of `worker` are not reached by `inline_worker`. -/
theorem exists_worker (h : EndInv q c iq active consumed) (hc : ¬ c.Inline) :
    ∃ p hp, pl.endStage = .worker p hp ∧ WorkerInv p q c iq active := by
  cases hm : pl.endStage with
  | inlineWorker => exact (hc (h.inline hm).point).elim
  | worker p hp => exact ⟨p, hp, rfl, h.worker p hp hm⟩

/-- At the push, `internalQueue` has a free slot. -/
theorem hasRoom_of_push {v : pl.Out} {p : ℕ} {hp : 0 < p}
    (h : EndInv q (.push v) iq active consumed) (hm : pl.endStage = .worker p hp) :
    iq.HasRoom p := by
  have hw := h.worker p hp hm
  have hact : active < p := hw.activeOk
  have hlen : iq.head + active = iq.log.length := hw.active
  unfold LogQueue.HasRoom LogQueue.size
  omega

/-- A consume task is forked for the value; at the bound the oldest one is awaited first. -/
theorem push {v : pl.Out} {p : ℕ} {hp : 0 < p} (h : EndInv q (.push v) iq active consumed)
    (hm : pl.endStage = .worker p hp) :
    EndInv q (if p ≤ active + 1 then .drainPull false else .release) (iq.push (.spawn v))
      (active + 1) consumed := by
  have hw := h.worker p hp hm
  have hact : active < p := hw.activeOk
  have hlen : iq.head + active = iq.log.length := hw.active
  have hfork : iq.log.length = q.head := hw.length
  have hargs : (iq.push (.spawn v)).log.map Fork.arg <+: pl.values q := by
    rw [LogQueue.push_log, List.map_append]
    refine prefix_concat hw.args ?_
    rw [List.length_map, hfork]
    exact h.data v (Or.inr rfl)
  have hawaited : ∀ i t, (iq.push (.spawn v)).log[i]? = some t →
      t.awaited = onceBelow iq.head i := by
    intro i t ht
    rcases LogQueue.getElem?_push_eq_some ht with ht | ⟨rfl, rfl⟩
    · exact hw.awaited i t ht
    · exact (onceBelow_of_le iq.head_le).symm
  have hready : ∀ t ∈ (iq.push (.spawn v)).log, 0 < t.awaited → t.ready? = some () := by
    intro t ht hpos
    rcases List.mem_append.mp ht with ht | ht
    · exact hw.ready t ht hpos
    · obtain rfl := List.mem_singleton.mp ht
      exact (Nat.lt_irrefl 0 hpos).elim
  have hlen' : (iq.push (.spawn v)).log.length = iq.log.length + 1 := by
    rw [LogQueue.push_log, List.length_append, List.length_singleton]
  have hworker : ∀ c' : Consumer pl.Out, c'.handled = 1 → c'.drained = 0 →
      c'.ActiveOk p (active + 1) → WorkerInv p q c' (iq.push (.spawn v)) (active + 1) := by
    intro c' hhandled hdrained hok
    refine ⟨hok, ?_, ?_, hargs, ?_, hready, hw.closed⟩
    · rw [hlen', ← hlen, hdrained]
      rfl
    · rw [hlen', hfork, hhandled]
    · rw [hdrained]
      exact hawaited
  -- Reaching the limit is what the test after `++active` detects.
  split
  · next hlim =>
    have hfull : active + 1 = p := by omega
    exact of_worker hm (fun _ => h.holds trivial) (by simp) h.taken (fun hc => hc.elim)
      (hworker _ rfl rfl hfull)
  · next hlim =>
    have hroom : active + 1 < p := by omega
    exact of_worker hm (fun _ => h.holds trivial) (by simp) h.taken (fun hc => hc.elim)
      (hworker _ rfl rfl hroom)

/-- The loop of the drain ends when no consume task is active. -/
theorem drainTest (h : EndInv q .drainTest iq active consumed) :
    EndInv q (if 0 < active then .drainPull true else .done) iq active consumed := by
  obtain ⟨p, hp, hm, hw⟩ := h.exists_worker id
  have hne : pl.endStage ≠ .inlineWorker := by rw [hm]; simp
  split
  · next ha =>
    exact h.move rfl rfl rfl (fun hc => hc.elim) (by simp) (fun _ => h.left trivial)
      (fun hi => (hne hi).elim) fun _ _ _ hlt => ⟨ha, hlt⟩
  · next ha =>
    exact h.move rfl rfl rfl (fun hc => hc.elim) (by simp) (fun _ => h.left trivial)
      (fun _ => trivial) fun _ _ _ _ => Nat.eq_zero_of_not_pos ha

/-- A move within the drain, from the pull to the await of the pulled handle. -/
theorem drainPull {b : Bool} (h : EndInv q (.drainPull b) iq active consumed) :
    EndInv q (.drainAwait b) iq active consumed := by
  obtain ⟨p, hp, hm, hw⟩ := h.exists_worker id
  have hne : pl.endStage ≠ .inlineWorker := by rw [hm]; simp
  cases b with
  | false =>
    exact h.move rfl rfl rfl (fun _ => h.holds trivial) (by simp) (fun hc => hc.elim)
      (fun hi => (hne hi).elim) fun _ _ _ ha => ha
  | true =>
    exact h.move rfl rfl rfl (fun hc => hc.elim) (by simp) (fun _ => h.left trivial)
      (fun hi => (hne hi).elim) fun _ _ _ ha => ha

/-- Where `worker` waits for a handle of `internalQueue`, there is one. -/
theorem exists_front?_of_drain {b : Bool} (h : EndInv q c iq active consumed)
    (hc : c = .drainPull b ∨ c = .drainAwait b) : 0 < active ∧ ∃ t, iq.front? = some t := by
  have hni : ¬ c.Inline := by rcases hc with rfl | rfl <;> exact id
  obtain ⟨p, hp, hm, hw⟩ := h.exists_worker hni
  have hact : 0 < active := by
    have ha := hw.activeOk
    rcases hc with rfl | rfl <;> cases b
    · exact ha ▸ hp
    · exact ha.1
    · exact ha ▸ hp
    · exact ha.1
  have hlen := hw.active
  exact ⟨hact, LogQueue.exists_front? (by omega)⟩

/-- The oldest consume task has finished and its handle is awaited. -/
theorem drainAwait {b : Bool} (h : EndInv q (.drainAwait b) iq active consumed)
    {t : Fork pl.Out Unit} (ht : iq.front? = some t) (hr : t.ready? = some ()) :
    EndInv q (.drainRelease b) (iq.modify iq.head Fork.await) (active - 1) consumed := by
  obtain ⟨p, hp, hm, hw⟩ := h.exists_worker id
  obtain ⟨hpos, -⟩ := h.exists_front?_of_drain (Or.inr rfl)
  have hlen : iq.head + active = iq.log.length := hw.active
  have hargs : (iq.modify iq.head Fork.await).log.map Fork.arg = iq.log.map Fork.arg :=
    LogQueue.map_log_modify fun _ _ => rfl
  have hawaited : ∀ i x, (iq.modify iq.head Fork.await).log[i]? = some x →
      x.awaited = onceBelow (iq.head + 1) i := by
    intro i x hx
    obtain ⟨x₀, hx₀, rfl⟩ := LogQueue.getElem?_modify_eq_some hx
    have ha : x₀.awaited = onceBelow iq.head i := hw.awaited i x₀ hx₀
    split
    · next hi =>
      change x₀.awaited + 1 = _
      rw [ha, ← hi, onceBelow_succ_self]
    · next hi => rw [ha, onceBelow_succ_of_ne hi]
  have hready : ∀ x ∈ (iq.modify iq.head Fork.await).log, 0 < x.awaited → x.ready? = some () := by
    intro x hx hxpos
    obtain ⟨i, hi⟩ := List.mem_iff_getElem?.mp hx
    obtain ⟨x₀, hx₀, rfl⟩ := LogQueue.getElem?_modify_eq_some hi
    split
    · next hih =>
      subst hih
      have hsame : some t = some x₀ := by
        rw [← ht, ← hx₀]
        rfl
      cases hsame
      exact hr
    · next hih =>
      rw [if_neg hih] at hxpos
      exact hw.ready x₀ (List.mem_of_getElem? hx₀) hxpos
  have hworker : WorkerInv p q (.drainRelease b) (iq.modify iq.head Fork.await) (active - 1) := by
    refine ⟨?_, ?_, ?_, hargs ▸ hw.args, hawaited, hready, hw.closed⟩
    · have ha := hw.activeOk
      cases b with
      | false =>
        obtain rfl : active = p := ha
        exact Nat.sub_lt hpos Nat.one_pos
      | true => exact lt_of_le_of_lt (Nat.sub_le _ _) ha.2
    · rw [LogQueue.modify_log, List.length_modify, ← hlen]
      change iq.head + 1 + (active - 1) = _
      omega
    · rw [LogQueue.modify_log, List.length_modify, hw.length]
      cases b <;> rfl
  cases b with
  | false =>
    exact of_worker hm (fun _ => h.holds trivial) (by simp) h.taken (fun hc => hc.elim) hworker
  | true =>
    exact of_worker hm (fun hc => hc.elim) (by simp) h.taken (fun _ => h.left trivial) hworker

/-- The awaited handle is taken off the internal queue. -/
theorem drainRelease {b : Bool} (h : EndInv q (.drainRelease b) iq active consumed) :
    EndInv q (if b then .drainTest else .release) iq.pop active consumed := by
  obtain ⟨p, hp, hm, hw⟩ := h.exists_worker id
  have hlen : iq.head + 1 + active = iq.log.length := hw.active
  have hh : iq.pop.head = iq.head + 1 := LogQueue.pop_head (by omega)
  have hawaited : ∀ i t, iq.pop.log[i]? = some t → t.awaited = onceBelow (iq.pop.head + 0) i := by
    rw [hh]
    exact hw.awaited
  cases b with
  | false =>
    exact of_worker hm (fun _ => h.holds trivial) (by simp) h.taken (fun hc => hc.elim)
      ⟨hw.activeOk, by rw [hh]; exact hlen, hw.length, hw.args, hawaited, hw.ready, hw.closed⟩
  | true =>
    exact of_worker hm (fun hc => hc.elim) (by simp) h.taken (fun _ => h.left trivial)
      ⟨hw.activeOk, by rw [hh]; exact hlen, hw.length, hw.args, hawaited, hw.ready, hw.closed⟩

/-- A step of a consume task changes neither what it was forked with nor its awaits. -/
theorem consumeTask (h : EndInv q c iq active consumed) {i : ℕ} {e : TaskEvent}
    {t t' : Fork pl.Out Unit} (ht : iq.log[i]? = some t) (hadv : pl.consume.Advance e t t')
    (consumed' : List pl.Out) : EndInv q c (iq.modify i fun _ => t') active consumed' := by
  have hlog : ∀ x, iq.log[i]? = some x → t = x := by
    intro x hx
    rwa [ht, Option.some.injEq] at hx
  refine ⟨h.holds, h.data, h.taken, h.left, ?_, ?_⟩
  · intro hm
    have hnil := (h.inline hm).internal
    rw [hnil] at ht
    simp at ht
  · intro p hp hm
    have hw := h.worker p hp hm
    refine ⟨hw.activeOk, ?_, ?_, ?_, ?_, ?_, hw.closed⟩
    · rw [LogQueue.modify_log, List.length_modify]
      exact hw.active
    · rw [LogQueue.modify_log, List.length_modify]
      exact hw.length
    · rw [LogQueue.map_log_modify fun x hx => ?_]
      · exact hw.args
      · rw [← hlog x hx]
        exact hadv.arg_eq
    · intro j x hx
      obtain ⟨x₀, hx₀, rfl⟩ := LogQueue.getElem?_modify_eq_some hx
      split
      · next hij =>
        subst hij
        rw [hadv.awaited_eq, hlog x₀ hx₀]
        exact hw.awaited i x₀ hx₀
      · exact hw.awaited j x₀ hx₀
    · intro x hx hpos
      obtain ⟨j, hj⟩ := List.mem_iff_getElem?.mp hx
      obtain ⟨x₀, hx₀, rfl⟩ := LogQueue.getElem?_modify_eq_some hj
      split
      · next hij =>
        -- The task that advances has not finished, so its handle has not been awaited.
        rw [if_pos hij, hadv.awaited_eq] at hpos
        have hr := hw.ready t (List.mem_of_getElem? ht) hpos
        rw [hadv.ready?_eq_none] at hr
        cases hr
      · next hij =>
        rw [if_neg hij] at hpos
        exact hw.ready x₀ (List.mem_of_getElem? hx₀) hpos

end EndInv

end PipelineFifo

end TmcExamples
