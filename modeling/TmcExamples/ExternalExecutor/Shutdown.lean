import TmcExamples.ExternalExecutor.Wakeup

/-!
# Shutdown of the thread pool

A call of `run()` returns in a critical section in which it has found the queue empty and a stop
requested. Work items that run at that moment in other calls may still post, but these calls
come back to look at the queue, so what counts is the last call that returns: at its final
check no item is in anybody's hands, and everything posted before has been executed
(`executed_of_last_ret`). After it no call dequeues anything, so the queue collects what is
posted from then on.
-/

namespace TmcExamples

namespace ExternalExecutor

open Finset

variable {α : Type} {threads : ℕ} {s s' : State α}

/-! ### The last return -/

/-- The action is the return of a call of `run()`. -/
def Action.IsRet : Action α → Prop
  | .ret _ => True
  | _ => False

/-- A list with a marked element has a last one. -/
private theorem exists_last {β : Type} {P : β → Prop} {l : List β} (h : ∃ x ∈ l, P x) :
    ∃ pre x post, l = pre ++ x :: post ∧ P x ∧ ∀ y ∈ post, ¬ P y := by
  induction l with
  | nil =>
    obtain ⟨x, hx, -⟩ := h
    cases hx
  | cons y l ih =>
    by_cases hl : ∃ x ∈ l, P x
    · obtain ⟨pre, x, post, rfl, hx, hpost⟩ := ih hl
      exact ⟨y :: pre, x, post, rfl, hx, hpost⟩
    · obtain ⟨x, hx, hPx⟩ := h
      rcases List.mem_cons.mp hx with rfl | hx
      · exact ⟨[], x, l, rfl, hPx, fun z hz hPz => hl ⟨z, hz, hPz⟩⟩
      · exact (hl ⟨x, hx, hPx⟩).elim

/-- Only a return brings a call to `returned`. -/
private theorem returned_of_step {a : Action α} (hs : Step threads s a s') (ha : ¬ a.IsRet) {t : ℕ}
    (ht : s'.thread t = .returned) : s.thread t = .returned := by
  have hmove : ∀ {s : State α} {u x}, x ≠ Thread.returned →
      (s.setThread u x).thread t = .returned → s.thread t = .returned := by
    intro s u x hx h
    by_cases htu : t = u
    · subst htu
      rw [setThread_self] at h
      exact (hx h).elim
    · rwa [setThread_of_ne _ _ htu] at h
  have hwake : ∀ {s' : State α}, (s'.thread t = s.thread t ∨
      s.thread t = .waiting ∧ s'.thread t = .woken) → s'.thread t = .returned →
      s.thread t = .returned := by
    rintro s' (heq | ⟨-, hwoken⟩) h
    · rwa [heq] at h
    · rw [hwoken] at h
      cases h
  cases hs with
  | ret => exact (ha trivial).elim
  | itemNotifyOne _ _ hw => exact hwake (thread_wakeOne s hw t) (hmove (by nofun) ht)
  | itemNotifyAll => exact hwake (thread_wakeAll s t) (hmove (by nofun) ht)
  | post | requestStop => exact ht
  | notifyOne _ hw => exact hwake (thread_wakeOne s hw t) ht
  | notifyAll => exact hwake (thread_wakeAll s t) ht
  | itemPost => exact hmove (s := s) (by nofun) ht
  | _ => exact hmove (by nofun) ht

private theorem returned_of_run {tr : List (Action α)} (h : (system α threads).Run s tr s')
    (hno : ∀ a ∈ tr, ¬ a.IsRet) {t : ℕ} (ht : s'.thread t = .returned) :
    s.thread t = .returned := by
  induction h with
  | nil => exact ht
  | snoc _ hstep ih =>
    refine ih (fun a ha => hno a (List.mem_append_left _ ha)) (returned_of_step hstep ?_ ht)
    exact hno _ (List.mem_append_right _ (List.mem_singleton_self _))

/-- The return of a call is in the trace. -/
private theorem exists_ret {tr : List (Action α)} (h : (system α threads).Run (initial α) tr s)
    {t : ℕ} (hret : s.thread t = .returned) : ∃ a ∈ tr, a.IsRet := by
  by_contra hno
  have hinit := returned_of_run h (fun a ha hr => hno ⟨a, ha, hr⟩) hret
  cases hinit

/-! ### After the last return -/

/-- Every call of `run()` has returned. -/
def State.AllReturned (threads : ℕ) (s : State α) : Prop := ∀ t < threads, s.thread t = .returned

/-- When every call has returned, nothing is dequeued or executed any more, and no work item
posts. -/
theorem step_of_allReturned (hall : s.AllReturned threads) {a : Action α}
    (hs : Step threads s a s') :
    s'.AllReturned threads ∧ s'.dequeued = s.dequeued ∧ s'.executed = s.executed ∧
      ¬ a.IsItemPost := by
  have hno : ∀ {t x}, t < threads → s.thread t = x → x ≠ .returned → False := by
    rintro t _ ht rfl hne
    exact hne (hall t ht)
  cases hs with
  | enter ht hx | lock ht hx | wait ht hx | pass ht hx | spurious ht hx | reacquire ht hx
  | pop ht hx | finish ht hx | relock ht hx | drained ht hx | again ht hx | ret ht hx
  | itemPost ht hx | itemNotifyOne ht hx | itemRequestStop ht hx | itemNotifyAll ht hx =>
    exact (hno ht hx nofun).elim
  | post | requestStop => exact ⟨hall, rfl, rfl, not_false⟩
  | @notifyOne u _ hw =>
    cases u with
    | none => exact ⟨hall, rfl, rfl, not_false⟩
    | some u => exact (hno hw.1 hw.2 nofun).elim
  | notifyAll =>
    refine ⟨fun t ht => ?_, rfl, rfl, not_false⟩
    exact congrArg Thread.wake (hall t ht)

private theorem run_of_allReturned {tr : List (Action α)} (h : (system α threads).Run s tr s')
    (hall : s.AllReturned threads) :
    s'.AllReturned threads ∧ s'.dequeued = s.dequeued ∧ s'.executed = s.executed ∧
      ∀ a ∈ tr, ¬ a.IsItemPost := by
  induction h with
  | nil => exact ⟨hall, rfl, rfl, nofun⟩
  | snoc _ hstep ih =>
    obtain ⟨hall₁, hdeq, hexec, hno⟩ := ih
    obtain ⟨hall₂, hdeq₂, hexec₂, hno₂⟩ := step_of_allReturned hall₁ hstep
    refine ⟨hall₂, by rw [hdeq₂, hdeq], by rw [hexec₂, hexec], fun a ha => ?_⟩
    rcases List.mem_append.mp ha with ha | ha
    · exact hno a ha
    · rw [List.mem_singleton.mp ha]
      exact hno₂

/-! ### What has been executed -/

/-- A call returns holding the mutex, with a stop requested and the queue empty. -/
private theorem ret_spec (h : PoolInv threads s) {t : ℕ} (hs : Step threads s (.ret t) s') :
    s.owner = some t ∧ s.stopRequested = true ∧ s.queue = [] ∧ s'.dequeued = s.dequeued := by
  cases hs with
  | ret ht hx hstop =>
    refine ⟨h.locked t ?_, hstop, h.empty t hx, rfl⟩
    rw [hx]
    trivial

/-- With all calls returned, the executed items are the dequeued ones. -/
private theorem executed_perm_dequeued {tr : List (Action α)} (h : ItemInv threads tr s)
    (hall : s.AllReturned threads) : s.executed.Perm s.dequeued := by
  have hheld : s.held threads = 0 := sum_eq_zero fun t ht => by
    rw [hall t (mem_range.mp ht)]
    rfl
  have hexec := h.executed
  rw [hheld, add_zero] at hexec
  exact Multiset.coe_eq_coe.mp hexec

/-- A run in which all calls have returned splits at the final check of the last one: what has been
posted before it has been executed, and what is posted after it stays in the queue. -/
theorem executed_of_last_ret (hpos : 0 < threads) {tr : List (Action α)}
    (hrun : (system α threads).Run (initial α) tr s) (hall : s.AllReturned threads) :
    ∃ pre t post, tr = pre ++ .ret t :: post ∧ (∀ u, .ret u ∉ post) ∧
      (∀ a c b, tr = a ++ c :: b → c.IsStop → (∀ x ∈ a, ¬ x.IsStop) → a <+: pre) ∧
      (∀ a ∈ post, ¬ a.IsItemPost) ∧
      s.executed.Perm (postedIn pre) ∧ s.executed.Nodup ∧
      s.queue.map Prod.fst = post.filterMap Action.posted? := by
  obtain ⟨pre, a, post, rfl, hret, hpost⟩ := exists_last (exists_ret hrun (hall 0 hpos))
  obtain ⟨t, rfl⟩ : ∃ t, a = .ret t := by
    cases a with
    | ret t => exact ⟨t, rfl⟩
    | _ => exact hret.elim
  obtain ⟨s₁, hpre, hrest⟩ := hrun.split
  obtain ⟨s₂, hcheck, hafter⟩ := hrest.split_cons
  -- At the final check the queue is empty, so everything posted so far has been dequeued.
  obtain ⟨-, hstop, hqueue, hdeq⟩ := ret_spec (poolInv_reachable hpre.reachable) hcheck
  have hitems₁ := itemInv_run hpre
  have hposted₁ : s₁.dequeued = postedIn pre := by
    have h := hitems₁.posted
    rwa [hqueue, List.append_nil] at h
  -- No call returns afterwards, so all of them have returned by then.
  have hall₂ : s₂.AllReturned threads := fun u hu => returned_of_run hafter hpost (hall u hu)
  obtain ⟨-, hdeq₂, -, hnoPost⟩ := run_of_allReturned hafter hall₂
  have hdequeued : s.dequeued = postedIn pre := by
    calc s.dequeued = s₂.dequeued := hdeq₂
      _ = s₁.dequeued := hdeq
      _ = postedIn pre := hposted₁
  have hitems := itemInv_run hrun
  have hperm := executed_perm_dequeued hitems hall
  refine ⟨pre, t, post, rfl, fun u hu => hpost _ hu trivial, fun a c b hsplit hc ha => ?_,
    hnoPost, hdequeued ▸ hperm, ?_, ?_⟩
  · obtain ⟨x, hx, hxs⟩ := hitems₁.stop.mp hstop
    rcases List.prefix_or_prefix_of_prefix ⟨c :: b, hsplit.symm⟩
      (List.prefix_append pre (.ret t :: post)) with h | h
    · exact h
    · exact (ha x (h.subset hx) hxs).elim
  · rw [hperm.nodup_iff, hdequeued]
    exact nodup_postedIn pre
  · have hwork := congrArg (List.map Prod.fst) hitems.posted
    rw [List.map_append, hdequeued, map_fst_postedIn, map_fst_postedIn, List.filterMap_append]
      at hwork
    exact List.append_cancel_left hwork

/-- **Shutdown.** A call of `run()` returns only in a critical section in which a stop is
requested and the queue is empty. Once all calls have returned, the trace splits at the final
check of the last one. Everything before the first `request_stop()`, and every `post()` of a
work item, comes before that check. The items posted before it have been executed, each exactly
once, and the queue consists of the items posted after it. -/
theorem shutdown_executes_all (hpos : 0 < threads) :
    (∀ s t s', (system α threads).Reachable s → Step threads s (.ret t) s' →
        s.owner = some t ∧ s.stopRequested = true ∧ s.queue = []) ∧
      ∀ tr s, (system α threads).Run (initial α) tr s → s.AllReturned threads →
        ∃ pre t post, tr = pre ++ .ret t :: post ∧ (∀ u, .ret u ∉ post) ∧
          (∀ a c b, tr = a ++ c :: b → c.IsStop → (∀ x ∈ a, ¬ x.IsStop) → a <+: pre) ∧
          (∀ a ∈ post, ¬ a.IsItemPost) ∧
          s.executed.Perm (postedIn pre) ∧ s.executed.Nodup ∧
          s.queue.map Prod.fst = post.filterMap Action.posted? := by
  refine ⟨?_, fun tr s hrun hall => executed_of_last_ret hpos hrun hall⟩
  intro s t s' hr hs
  obtain ⟨howner, hstop, hqueue, -⟩ := ret_spec (poolInv_reachable hr) hs
  exact ⟨howner, hstop, hqueue⟩

/-- One call of `run()` executes the posted item, which posts another one after the stop has
been requested; a third item is posted after the call has returned. -/
theorem shutdown_executes_all_sample : ∃ (tr : List (Action ℕ)) (s : State ℕ),
    (system ℕ 1).Run (initial ℕ) tr s ∧ s.executed = [(7, 0), (9, 1)] ∧ s.queue = [(3, 2)] ∧
      ∃ pre t post, tr = pre ++ .ret t :: post ∧ s.executed.Perm (postedIn pre) ∧
        s.queue.map Prod.fst = post.filterMap Action.posted? := by
  have h := LTS.Run.nil (T := system ℕ 1) (s := initial ℕ)
  have h := h.snoc (Step.post (v := 7) rfl)
  have h := h.snoc (Step.enter (t := 0) Nat.one_pos rfl)
  have h := h.snoc (Step.lock (t := 0) Nat.one_pos rfl rfl)
  have h := h.snoc (Step.pass (t := 0) Nat.one_pos rfl (Or.inr nofun))
  have h := h.snoc (Step.pop (t := 0) Nat.one_pos rfl rfl)
  have h := h.snoc (Step.requestStop rfl)
  have h := h.snoc (Step.itemPost (t := 0) (v := 9) Nat.one_pos rfl rfl)
  have h := h.snoc (Step.itemNotifyOne (t := 0) (u := none) Nat.one_pos rfl (by
    intro u hu
    obtain rfl : u = 0 := by omega
    nofun))
  have h := h.snoc (Step.finish (t := 0) Nat.one_pos rfl)
  have h := h.snoc (Step.relock (t := 0) Nat.one_pos rfl rfl)
  have h := h.snoc (Step.pop (t := 0) Nat.one_pos rfl rfl)
  have h := h.snoc (Step.finish (t := 0) Nat.one_pos rfl)
  have h := h.snoc (Step.relock (t := 0) Nat.one_pos rfl rfl)
  have h := h.snoc (Step.drained (t := 0) Nat.one_pos rfl rfl)
  have h := h.snoc (Step.ret (t := 0) Nat.one_pos rfl rfl)
  have h := h.snoc (Step.post (v := 3) rfl)
  obtain ⟨pre, t, post, hsplit, -, -, -, hexec, -, hqueue⟩ :=
    (@shutdown_executes_all ℕ 1 Nat.one_pos).2 _ _ h (by
      intro t ht
      obtain rfl : t = 0 := by omega
      rfl)
  exact ⟨_, _, h, rfl, rfl, pre, t, post, hsplit, hexec, hqueue⟩

end ExternalExecutor

end TmcExamples
