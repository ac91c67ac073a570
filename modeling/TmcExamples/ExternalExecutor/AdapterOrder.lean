import Mathlib.Data.List.Perm.Subperm
import TmcExamples.ExternalExecutor.AdapterWorker

/-!
# The order of the adapter

Every call of the adapter puts its items into the queue of the pool one at a time, in their order,
interleaved with those of other calls (`CallsInv`). The run of the pool that a run of the adapter
contains tells which of them have been executed when the destructor returns (`DestructorInv`).
-/

namespace TmcExamples

namespace ExternalExecutor

namespace Adapter

variable {α : Type} {s s' : State α} {a : Action α} {tr : List (Action α)}

/-! ### What has been enqueued -/

/-- The functor that the action puts into the queue. -/
def Action.enqueued? : Action α → Option (Work α)
  | .post _ w => some w
  | _ => none

/-- The functors that have been put into the queue, in their order. -/
def enqueued (tr : List (Action α)) : List (Work α) := tr.filterMap Action.enqueued?

private theorem enqueued_snoc (tr : List (Action α)) (a : Action α) :
    enqueued (tr ++ [a]) = enqueued tr ++ a.enqueued?.toList := by
  rw [enqueued, enqueued, List.filterMap_append]
  cases ha : a.enqueued? <;> simp [ha]

/-- Most actions do not concern the queue. -/
private theorem enqueued_of_none (h : a.enqueued? = none) : enqueued (tr ++ [a]) = enqueued tr := by
  rw [enqueued_snoc, h, Option.toList_none, List.append_nil]

private theorem posted?_postAction (agent : ℕ) (w : Work α) :
    (postAction agent w).posted? = some w := by
  cases agent <;> rfl

private theorem posted?_notifyAction (agent : ℕ) (u : Option ℕ) :
    (notifyAction (α := α) agent u).posted? = none := by
  cases agent <;> rfl

/-- The pool is given what the calls of the adapter enqueue. -/
private theorem posted?_pool (hs : Step s a s') :
    a.pool?.bind ExternalExecutor.Action.posted? = a.enqueued? := by
  cases hs with
  | @worker b _ hrun =>
    cases b with
    | itemPost | post => exact hrun.elim
    | _ => rfl
  | post => exact posted?_postAction ..
  | notify => exact posted?_notifyAction ..
  | _ => rfl

/-- The run of the pool in a run of the adapter. -/
private theorem pool_run (h : (system α).Run (initial α) tr s) :
    (ExternalExecutor.system (Work α) 1).Run (ExternalExecutor.initial (Work α))
      (tr.filterMap Action.pool?) s.pool :=
  (pool α).run h

private theorem posted_run (h : (system α).Run (initial α) tr s) :
    (tr.filterMap Action.pool?).filterMap ExternalExecutor.Action.posted? = enqueued tr := by
  rw [List.filterMap_filterMap]
  induction h with
  | nil => rfl
  | @snoc tr _ _ a _ hstep ih =>
    rw [List.filterMap_append, ih, enqueued_snoc, ← posted?_pool hstep]
    cases hposted : a.pool?.bind ExternalExecutor.Action.posted? <;> simp [hposted]

/-- Everything enqueued has been taken from the queue or is in it, in the same order. -/
private theorem dequeued_append_queue (h : (system α).Run (initial α) tr s) :
    s.pool.dequeued ++ s.pool.queue = (enqueued tr).zipIdx := by
  rw [(itemInv_run (pool_run h)).posted, postedIn, posted_run h]

/-! ### The calls -/

/-- The functors of call `n`. -/
def callWorks (n : ℕ) (ws : List (Work α)) : List (Work α) := ws.filter fun w => w.call = n

private theorem callWorks_append (n : ℕ) (ws vs : List (Work α)) :
    callWorks n (ws ++ vs) = callWorks n ws ++ callWorks n vs := List.filter_append ws vs

/-- Functors of call `m` show up in call `m`. -/
private theorem callWorks_self {m : ℕ} {ws : List (Work α)} (h : ∀ w ∈ ws, w.call = m) :
    callWorks m ws = ws :=
  List.filter_eq_self.mpr fun w hw => decide_eq_true (h w hw)

/-- Functors of call `m` do not show up in another call. -/
private theorem callWorks_of_ne {m n : ℕ} {ws : List (Work α)} (h : ∀ w ∈ ws, w.call = m)
    (hn : n ≠ m) : callWorks n ws = [] := by
  refine List.filter_eq_nil_iff.mpr fun w hw => ?_
  rw [h w hw, decide_eq_true_iff]
  exact hn.symm

private theorem Request.call_of_mem_works {r : Request α} {n : ℕ} {w : Work α}
    (hw : w ∈ r.works n) : w.call = n ∧ w.prio = r.prio := by
  obtain ⟨⟨item, i⟩, -, rfl⟩ := List.mem_map.mp hw
  exact ⟨rfl, rfl⟩

private theorem update_cases {β : Type} {f : ℕ → β} {g g' : ℕ} {x y : β}
    (h : Function.update f g x g' = y) : g' = g ∧ x = y ∨ g' ≠ g ∧ f g' = y := by
  by_cases hg : g' = g
  · subst hg
    rw [Function.update_self] at h
    exact Or.inl ⟨rfl, h⟩
  · rw [Function.update_of_ne hg] at h
    exact Or.inr ⟨hg, h⟩

/-- What the calls of the adapter have done. -/
structure CallsInv (tr : List (Action α)) (s : State α) : Prop where
  current : ∀ agent c, s.call agent = some c → s.requests[c.number]? = some c.request ∧
    callWorks c.number (enqueued tr) = (c.request.works c.number).take c.index
  distinct : ∀ g g' c c', s.call g = some c → s.call g' = some c' → c.number = c'.number → g = g'
  ended : ∀ n r, s.requests[n]? = some r → (∀ agent c, s.call agent = some c → c.number ≠ n) →
    callWorks n (enqueued tr) = r.works n
  fresh : ∀ w ∈ enqueued tr, w.call < s.requests.length

namespace CallsInv

theorem initial (α : Type) : CallsInv [] (initial α) where
  current := nofun
  distinct := nofun
  ended := by
    intro n r hr
    cases hr
  fresh := nofun

/-- A step outside of the calls. -/
theorem frame (h : CallsInv tr s) (henqueued : a.enqueued? = none) (hcall : s'.call = s.call)
    (hrequests : s'.requests = s.requests) : CallsInv (tr ++ [a]) s' := by
  have hsame : enqueued (tr ++ [a]) = enqueued tr := enqueued_of_none henqueued
  constructor
  · rw [hsame, hcall, hrequests]
    exact h.current
  · rw [hcall]
    exact h.distinct
  · rw [hsame, hcall, hrequests]
    exact h.ended
  · rw [hsame, hrequests]
    exact h.fresh

/-- The call of an agent has a number that has been given out. -/
private theorem number_lt (h : CallsInv tr s) {agent : ℕ} {c : Call α}
    (hc : s.call agent = some c) : c.number < s.requests.length :=
  (List.getElem?_eq_some_iff.mp (h.current agent c hc).1).1

/-- A new call has enqueued nothing yet. -/
theorem call (h : CallsInv tr s) {agent : ℕ} {r : Request α} (henqueued : a.enqueued? = none)
    (hnone : s.call agent = none)
    (hcall : s'.call = Function.update s.call agent (some ⟨s.requests.length, r, 0, false⟩))
    (hrequests : s'.requests = s.requests ++ [r]) : CallsInv (tr ++ [a]) s' := by
  have hsame : enqueued (tr ++ [a]) = enqueued tr := enqueued_of_none henqueued
  -- The number of the call is new.
  have hnew : callWorks s.requests.length (enqueued tr) = [] := by
    refine List.filter_eq_nil_iff.mpr fun w hw => ?_
    rw [decide_eq_true_iff]
    exact (h.fresh w hw).ne
  constructor
  · intro g c hc
    rw [hsame, hrequests]
    rw [hcall] at hc
    rcases update_cases hc with ⟨rfl, heq⟩ | ⟨-, hc⟩
    · obtain rfl := Option.some.inj heq
      exact ⟨List.getElem?_concat_length, by rw [hnew, List.take_zero]⟩
    · obtain ⟨hrequest, hworks⟩ := h.current g c hc
      exact ⟨by rw [List.getElem?_append_left (h.number_lt hc), hrequest], hworks⟩
  · intro g g' c c' hc hc' hnumber
    rw [hcall] at hc hc'
    rcases update_cases hc with ⟨hg, heq⟩ | ⟨-, hold⟩
    · obtain rfl := Option.some.inj heq
      rcases update_cases hc' with ⟨hg', -⟩ | ⟨-, hold'⟩
      · rw [hg, ← hg']
      · exact ((h.number_lt hold').ne hnumber.symm).elim
    · rcases update_cases hc' with ⟨-, heq⟩ | ⟨-, hold'⟩
      · obtain rfl := Option.some.inj heq
        exact ((h.number_lt hold).ne hnumber).elim
      · exact h.distinct g g' c c' hold hold' hnumber
  · -- The new call is in progress, so a call that has ended is an old one.
    intro n r' hr' hno
    rw [hsame]
    rw [hrequests] at hr'
    rw [hcall] at hno
    have hn : s.requests.length ≠ n := hno agent _ (Function.update_self ..)
    have hlt : n < s.requests.length := by
      have hlen := (List.getElem?_eq_some_iff.mp hr').1
      rw [List.length_append, List.length_singleton] at hlen
      omega
    rw [List.getElem?_append_left hlt] at hr'
    refine h.ended n r' hr' fun g c hc => ?_
    have hg : g ≠ agent := by
      rintro rfl
      rw [hnone] at hc
      cases hc
    exact hno g c ((Function.update_of_ne hg ..).trans hc)
  · intro w hw
    rw [hsame] at hw
    rw [hrequests, List.length_append]
    exact Nat.lt_add_right _ (h.fresh w hw)

/-- A step inside of a call, which may enqueue the next functor of the call. -/
theorem move (h : CallsInv tr s) {agent : ℕ} {c c' : Call α} (hc : s.call agent = some c)
    (hcall : s'.call = Function.update s.call agent (some c'))
    (hrequests : s'.requests = s.requests) (hnumber : c'.number = c.number)
    (hrequest : c'.request = c.request) (henqueued : ∀ w ∈ a.enqueued?.toList, w.call = c.number)
    (hindex : (c.request.works c.number).take c.index ++ a.enqueued?.toList =
      (c.request.works c.number).take c'.index) : CallsInv (tr ++ [a]) s' := by
  obtain ⟨hgiven, hworks⟩ := h.current agent c hc
  have hother {n : ℕ} (hn : n ≠ c.number) :
      callWorks n (enqueued (tr ++ [a])) = callWorks n (enqueued tr) := by
    rw [enqueued_snoc, callWorks_append, callWorks_of_ne henqueued hn, List.append_nil]
  -- A call in progress after the step is the call of the same agent before it.
  have hback {g : ℕ} {d : Call α} (hd : s'.call g = some d) :
      ∃ e, s.call g = some e ∧ d.number = e.number := by
    rw [hcall] at hd
    rcases update_cases hd with ⟨rfl, heq⟩ | ⟨-, hold⟩
    · obtain rfl := Option.some.inj heq
      exact ⟨c, hc, hnumber⟩
    · exact ⟨d, hold, rfl⟩
  constructor
  · intro g d hd
    rw [hrequests]
    rw [hcall] at hd
    rcases update_cases hd with ⟨rfl, heq⟩ | ⟨hg, hold⟩
    · obtain rfl := Option.some.inj heq
      refine ⟨by rw [hnumber, hrequest, hgiven], ?_⟩
      rw [hnumber, hrequest, enqueued_snoc, callWorks_append, hworks, callWorks_self henqueued,
        hindex]
    · -- Two agents are in different calls.
      have hn : d.number ≠ c.number := fun hn => hg (h.distinct g agent d c hold hc hn)
      rw [hother hn]
      exact h.current g d hold
  · intro g g' d d' hd hd' hsame
    obtain ⟨e, he, hde⟩ := hback hd
    obtain ⟨e', he', hde'⟩ := hback hd'
    exact h.distinct g g' e e' he he' (by rw [← hde, hsame, hde'])
  · intro n r hr hno
    rw [hrequests] at hr
    rw [hcall] at hno
    have hn : n ≠ c.number := by
      rw [← hnumber]
      exact (hno agent c' (Function.update_self ..)).symm
    rw [hother hn]
    refine h.ended n r hr fun g d hd => ?_
    by_cases hg : g = agent
    · subst hg
      rw [hc] at hd
      obtain rfl := Option.some.inj hd
      exact hn.symm
    · exact hno g d ((Function.update_of_ne hg ..).trans hd)
  · intro w hw
    rw [hrequests]
    rw [enqueued_snoc] at hw
    rcases List.mem_append.mp hw with hw | hw
    · exact h.fresh w hw
    · rw [henqueued w hw]
      exact h.number_lt hc

/-- A call enqueues the next work of its request. -/
theorem post (h : CallsInv tr s) {agent : ℕ} {c : Call α} {w : Work α}
    (hc : s.call agent = some c) (hw : c.next? = some w) (henqueued : a.enqueued? = some w)
    (hcall : s'.call =
      Function.update s.call agent (some { c with index := c.index + 1, notifying := true }))
    (hrequests : s'.requests = s.requests) : CallsInv (tr ++ [a]) s' := by
  refine h.move hc hcall hrequests rfl rfl ?_ ?_
  · intro v hv
    rw [henqueued] at hv
    obtain rfl := List.mem_singleton.mp hv
    exact (Request.call_of_mem_works (List.mem_of_getElem? hw)).1
  · rw [henqueued, List.take_add_one, ← hw]
    rfl

/-- At its return a call has posted all of its items. -/
theorem ret (h : CallsInv tr s) {agent : ℕ} {c : Call α} (hc : s.call agent = some c)
    (hnext : c.next? = none) (henqueued : a.enqueued? = none)
    (hcall : s'.call = Function.update s.call agent none)
    (hrequests : s'.requests = s.requests) : CallsInv (tr ++ [a]) s' := by
  have hsame : enqueued (tr ++ [a]) = enqueued tr := enqueued_of_none henqueued
  have hkept {g : ℕ} {d : Call α} (hd : s'.call g = some d) : g ≠ agent ∧ s.call g = some d := by
    rw [hcall] at hd
    rcases update_cases hd with ⟨-, heq⟩ | hold
    · cases heq
    · exact hold
  constructor
  · intro g d hd
    rw [hsame, hrequests]
    exact h.current g d (hkept hd).2
  · intro g g' d d' hd hd' hnumber
    exact h.distinct g g' d d' (hkept hd).2 (hkept hd').2 hnumber
  · intro n r hr hno
    rw [hsame]
    rw [hrequests] at hr
    by_cases hn : n = c.number
    · -- The call that returns has reached the end of its items.
      subst hn
      obtain ⟨hgiven, hworks⟩ := h.current agent c hc
      rw [hgiven] at hr
      obtain rfl := Option.some.inj hr
      rw [hworks]
      exact List.take_of_length_le (List.getElem?_eq_none_iff.mp hnext)
    · refine h.ended n r hr fun g d hd => ?_
      by_cases hg : g = agent
      · subst hg
        rw [hc] at hd
        obtain rfl := Option.some.inj hd
        exact fun h => hn h.symm
      · refine hno g d ?_
        rw [hcall]
        rw [Function.update_of_ne hg, hd]
  · intro w hw
    rw [hsame] at hw
    rw [hrequests]
    exact h.fresh w hw

theorem step (h : CallsInv tr s) (hs : Step s a s') : CallsInv (tr ++ [a]) s' := by
  cases hs with
  | call hnone => exact h.call rfl hnone rfl rfl
  | post hc _ hw => exact h.post hc hw rfl rfl rfl
  | notify hc => exact h.move hc rfl rfl rfl rfl (by nofun) (List.append_nil _)
  | ret hc _ hnext => exact h.ret hc hnext rfl rfl rfl
  | _ => exact h.frame rfl rfl rfl

end CallsInv

private theorem callsInv_run (h : (system α).Run (initial α) tr s) : CallsInv tr s :=
  LTS.Run.induct (P := CallsInv) (.initial α) (fun _ _ _ _ _ hi hstep => hi.step hstep) h

/-- The functors of a call are enqueued in its order. -/
private theorem CallsInv.callWorks_prefix (h : CallsInv tr s) {n : ℕ} {r : Request α}
    (hr : s.requests[n]? = some r) : callWorks n (enqueued tr) <+: r.works n := by
  by_cases hno : ∀ agent c, s.call agent = some c → c.number ≠ n
  · rw [h.ended n r hr hno]
  · push Not at hno
    obtain ⟨agent, c, hc, rfl⟩ := hno
    obtain ⟨hgiven, hworks⟩ := h.current agent c hc
    rw [hgiven] at hr
    obtain rfl := Option.some.inj hr
    rw [hworks]
    exact List.take_prefix ..

/-! ### The destructor -/

/-- The stop of the pool is the one of the destructor. -/
private theorem requestStop_of_isStop (hs : Step s a s') {c : ExternalExecutor.Action (Work α)}
    (hc : a.pool? = some c) (hstop : c.IsStop) : a = .requestStop := by
  cases hs with
  | @worker b _ hrun =>
    obtain rfl := Option.some.inj hc
    cases b with
    | itemRequestStop | requestStop => exact hrun.elim
    | _ => exact hstop.elim
  | requestStop => rfl
  | @post agent | @notify agent =>
    obtain rfl := Option.some.inj hc
    cases agent with
    | zero => exact hstop.elim
    | succ => exact hstop.elim
  | install | start | setPrio | call | ret | join => cases hc
  | _ =>
    obtain rfl := Option.some.inj hc
    exact hstop.elim

/-- In the run of the pool there is no other stop. -/
private theorem eq_requestStop (h : (system α).Run (initial α) tr s)
    {c : ExternalExecutor.Action (Work α)} (hc : c ∈ tr.filterMap Action.pool?)
    (hstop : c.IsStop) : c = .requestStop ∧ .requestStop ∈ tr := by
  obtain ⟨b, hb, hbc⟩ := List.mem_filterMap.mp hc
  obtain ⟨s₁, s₂, hstep⟩ := h.exists_step hb
  obtain rfl := requestStop_of_isStop hstep hbc hstop
  exact ⟨(Option.some.inj hbc).symm, hb⟩

/-- What the destructor has done. -/
structure DestructorInv (tr : List (Action α)) (s : State α) : Prop where
  stopped : s.destructor ≠ .notCalled → .requestStop ∈ tr
  returned : s.destructor = .returned → s.pool.AllReturned 1

private theorem allReturned_step (h : s.pool.AllReturned 1) (hs : Step s a s') :
    s'.pool.AllReturned 1 := by
  cases ha : a.pool? with
  | none =>
    have hsame : s'.pool = s.pool := (pool α).hidden hs ha
    rw [hsame]
    exact h
  | some b => exact (step_of_allReturned h ((pool α).visible hs ha)).1

namespace DestructorInv

theorem initial (α : Type) : DestructorInv [] (initial α) where
  stopped := fun h => (h rfl).elim
  returned := nofun

theorem step (h : DestructorInv tr s) (hs : Step s a s') : DestructorInv (tr ++ [a]) s' := by
  have hstopped : s.destructor ≠ .notCalled → .requestStop ∈ tr ++ [a] := fun hd =>
    List.mem_append_left _ (h.stopped hd)
  have hreturned : s.destructor = .returned → s'.pool.AllReturned 1 := fun hd =>
    allReturned_step (h.returned hd) hs
  cases hs with
  | requestStop => exact ⟨fun _ => List.mem_append_right _ (List.mem_singleton_self _), nofun⟩
  | notifyAll hd =>
    refine ⟨fun _ => hstopped ?_, nofun⟩
    rw [hd]
    nofun
  | join hd hret =>
    refine ⟨fun _ => hstopped ?_, fun _ t ht => ?_⟩
    · rw [hd]
      nofun
    · obtain rfl : t = 0 := Nat.lt_one_iff.mp ht
      exact hret
  | _ => exact ⟨hstopped, hreturned⟩

end DestructorInv

private theorem destructorInv_run (h : (system α).Run (initial α) tr s) : DestructorInv tr s :=
  LTS.Run.induct (P := DestructorInv) (.initial α) (fun _ _ _ _ _ hi hstep => hi.step hstep) h

/-- When the destructor has returned, the worker has executed what had been enqueued when it last
looked at the queue, after the `request_stop()` and after the last post of an item. -/
private theorem executed_of_returned (h : (system α).Run (initial α) tr s)
    (hd : s.destructor = .returned) :
    ∃ pre post, tr = pre ++ post ∧ .requestStop ∈ pre ∧ (∀ w, .post 0 w ∉ post) ∧
      s.pool.executed = (enqueued pre).zipIdx := by
  have hdestructor := destructorInv_run h
  obtain ⟨pre', t, post', hsplit, -, hstop, hitems, hperm, -, -⟩ :=
    executed_of_last_ret Nat.one_pos (pool_run h) (hdestructor.returned hd)
  obtain ⟨pre, post, rfl, hpre, hpost⟩ := List.filterMap_eq_append_iff.mp hsplit
  obtain ⟨s₁, hrun₁, -⟩ := h.split
  refine ⟨pre, post, rfl, ?_, fun w hw => ?_, ?_⟩
  · -- The first stop of the pool comes before the last check.
    have hmem : ExternalExecutor.Action.requestStop ∈ pre' ++ .ret t :: post' := by
      rw [← hsplit]
      refine List.mem_filterMap.mpr ⟨.requestStop, hdestructor.stopped ?_, rfl⟩
      rw [hd]
      nofun
    obtain ⟨x, y, hxy, hx⟩ := List.eq_append_cons_of_mem hmem
    obtain ⟨z, rfl⟩ := hstop x .requestStop y (hsplit.trans hxy) trivial fun c hc hcs => by
      have hcmem : c ∈ (pre ++ post).filterMap Action.pool? := by
        rw [hsplit, hxy]
        exact List.mem_append_left _ hc
      exact hx ((eq_requestStop h hcmem hcs).1 ▸ hc)
    rw [List.append_assoc] at hxy
    cases z with
    | nil => cases (List.cons.inj (List.append_cancel_left hxy)).1
    | cons c z =>
      obtain rfl := (List.cons.inj (List.append_cancel_left hxy)).1
      refine (eq_requestStop hrun₁ (c := .requestStop) ?_ trivial).2
      rw [hpre]
      exact List.mem_append_right _ List.mem_cons_self
  · -- A post by an item is a post in the run of the pool.
    have hmem : ExternalExecutor.Action.itemPost 0 w ∈ .ret t :: post' := by
      rw [← hpost]
      exact List.mem_filterMap.mpr ⟨.post 0 w, hw, rfl⟩
    exact hitems _ ((List.mem_cons.mp hmem).resolve_left nofun) trivial
  · -- Both are the beginning of what has been enqueued, of the same length.
    have hworker := workerInv_reachable h.reachable
    have hexecuted : s.pool.executed <+: (enqueued (pre ++ post)).zipIdx := by
      calc s.pool.executed <+: s.started.map Prod.fst := hworker.executed_prefix_started
        _ <+: s.pool.dequeued := hworker.started_prefix_dequeued
        _ <+: (enqueued (pre ++ post)).zipIdx := ⟨_, dequeued_append_queue h⟩
    have henqueued : (enqueued pre).zipIdx <+: (enqueued (pre ++ post)).zipIdx := by
      rw [enqueued, enqueued, List.filterMap_append, List.zipIdx_append]
      exact List.prefix_append ..
    have hlength : s.pool.executed.length = (enqueued pre).zipIdx.length := by
      have hposted : postedIn pre' = (enqueued pre).zipIdx := by
        rw [postedIn, ← hpre, posted_run hrun₁]
      rw [← hposted]
      exact hperm.length_eq
    exact (List.prefix_of_prefix_length_le hexecuted henqueued hlength.le).eq_of_length hlength

/-! ### The guarantees of the adapter -/

/-- No caller resumes a handle itself. -/
private theorem inlined_eq_nil (h : (system α).Reachable s) : s.inlined = [] := by
  refine h.induct (P := fun s => s.inlined = []) rfl fun _ _ _ _ hnil hs => ?_
  cases hs with
  | @ret _ c =>
    have hresumed : c.request.resumed = none := by cases c.request <;> rfl
    simpa only [hresumed, Option.toList_none, List.append_nil] using hnil
  | _ => exact hnil

/-- When the worker starts an item, it has executed all those that it has started before. -/
private theorem WorkerInv.executed_of_start (h : WorkerInv s) (hs : Step s .start s') :
    s.pool.executed = s.started.map Prod.fst := by
  cases hs with
  | @start x hphase hx =>
    have hitem : s.item? = some x := congrArg Thread.item? hx
    have hunstarted : s.unstarted = s.item?.toList := by rw [State.unstarted, hphase]
    have hsame : s.pool.executed ++ s.item?.toList = s.started.map Prod.fst ++ s.item?.toList := by
      rw [h.executed, ← h.started, hunstarted]
    exact List.append_cancel_right hsame

/-- The adapter is a first-in first-out queue of items with priorities. -/
structure FifoPriority (tr : List (Action α)) (s : State α) : Prop where
  /-- The items are started in the order in which they have been enqueued; the rest is in the hands
  of the worker or in the queue. -/
  fifo : s.started.map Prod.fst ++ s.unstarted ++ s.pool.queue = (enqueued tr).zipIdx
  /-- The items of a call are started in its order. -/
  calls : ∀ n r, s.requests[n]? = some r →
    callWorks n (s.started.map fun e => e.1.1) <+: r.works n
  /-- A call that is no longer in progress has enqueued each of its items once. -/
  complete : ∀ n r, s.requests[n]? = some r → (∀ g c, s.call g = some c → c.number ≠ n) →
    callWorks n (enqueued tr) = r.works n
  /-- An item finds the priority of its call when it is started. -/
  prio : ∀ e ∈ s.started, ∃ r, s.requests[e.1.1.call]? = some r ∧
    e.1.1 ∈ r.works e.1.1.call ∧ e.2 = r.prio
  /-- One item is executed at a time. -/
  single : ∀ s', Step s .start s' → s.pool.executed = s.started.map Prod.fst
  inlined : s.inlined = []
  /-- While the worker is asleep and there is work, a notification is pending. -/
  pending : s.pool.queue ≠ [] → s.pool.thread 0 = .waiting → s.pool.NotificationPending 1
  /-- When the destructor has returned, everything that had been enqueued before its
  `request_stop()`, or by an item, has been executed. -/
  returned : s.destructor = .returned → ∃ pre post, tr = pre ++ post ∧ .requestStop ∈ pre ∧
    (∀ w, .post 0 w ∉ post) ∧ s.pool.executed = (enqueued pre).zipIdx

/-- **The adapter refines a queue of items with priorities**, in every interleaving of its
calls with the worker, the items and the destructor. -/
theorem adapter_refines_fifo (h : (system α).Run (initial α) tr s) : FifoPriority tr s := by
  have hworker := workerInv_reachable h.reachable
  have hcalls := callsInv_run h
  have hfifo : s.started.map Prod.fst ++ s.unstarted ++ s.pool.queue = (enqueued tr).zipIdx := by
    rw [hworker.started, dequeued_append_queue h]
  have hstarted : (s.started.map fun e => e.1.1) <+: enqueued tr := by
    have hwork := congrArg (List.map Prod.fst) hfifo
    rw [List.append_assoc, List.map_append, List.map_map, List.zipIdx_map_fst] at hwork
    exact ⟨_, hwork⟩
  refine ⟨hfifo, fun n r hr => ?_, hcalls.ended, fun e he => ?_,
    fun _ hs => hworker.executed_of_start hs, inlined_eq_nil h.reachable, fun hqueue hwait => ?_,
    executed_of_returned h⟩
  · calc (s.started.map fun e => e.1.1).filter (fun w => w.call = n)
        <+: callWorks n (enqueued tr) := hstarted.filter _
      _ <+: r.works n := hcalls.callWorks_prefix hr
  · have hmem : e.1.1 ∈ enqueued tr := hstarted.subset (List.mem_map_of_mem he)
    obtain ⟨r, hr⟩ : ∃ r, s.requests[e.1.1.call]? = some r :=
      ⟨_, List.getElem?_eq_getElem (hcalls.fresh _ hmem)⟩
    have hcall : e.1.1 ∈ callWorks e.1.1.call (enqueued tr) :=
      List.mem_filter.mpr ⟨hmem, decide_eq_true rfl⟩
    have hwork := (hcalls.callWorks_prefix hr).subset hcall
    have hprio : e.2 = r.prio := by
      rw [hworker.prio e he, (Request.call_of_mem_works hwork).2]
    exact ⟨r, hr, hwork, hprio⟩
  · refine (wakeInv_reachable (pool_run h).reachable).notificationPending (.inl hqueue) ⟨?_, ?_⟩
    · exact ⟨0, Nat.one_pos, hwait⟩
    · intro t ht _
      rw [Nat.lt_one_iff.mp ht]
      exact hwait

/-- Two items are posted in bulk. The first one leaves another priority in the thread-local and
dispatches a third item. The destructor is called meanwhile, and returns. -/
theorem adapter_refines_fifo_sample : ∃ (tr : List (Action ℕ)) (s : State ℕ),
    (system ℕ).Run (initial ℕ) tr s ∧ s.destructor = .returned ∧
      s.started.map (fun e => (e.1.1.item, e.2)) = [(1, 5), (2, 5), (7, 3)] ∧
      FifoPriority tr s := by
  -- The first item runs.
  have h := LTS.Run.nil (T := system ℕ) (s := initial ℕ)
  have h := h.snoc (@Step.call ℕ _ 1 (.postBulk (fun i => i + 1) 2 5) rfl nofun nofun)
  have h := h.snoc (@Step.post ℕ _ 1 _ _ _ rfl rfl rfl (.post rfl))
  have h := h.snoc (@Step.notify ℕ _ 1 _ none _ rfl rfl (.notifyOne Nat.one_pos fun _ _ => nofun))
  have h := h.snoc (@Step.post ℕ _ 1 _ _ _ rfl rfl rfl (.post rfl))
  have h := h.snoc (@Step.notify ℕ _ 1 _ none _ rfl rfl (.notifyOne Nat.one_pos fun _ _ => nofun))
  have h := h.snoc (@Step.ret ℕ _ 1 _ rfl rfl rfl)
  have h := h.snoc (@Step.worker ℕ _ (.enter 0) _ trivial (.enter Nat.one_pos rfl))
  have h := h.snoc (@Step.worker ℕ _ (.lock 0) _ trivial (.lock Nat.one_pos rfl rfl))
  have h := h.snoc (@Step.worker ℕ _ (.pass 0) _ trivial (.pass Nat.one_pos rfl (Or.inr nofun)))
  have h := h.snoc (@Step.pop ℕ _ _ (.pop Nat.one_pos rfl rfl))
  have h := h.snoc (@Step.install ℕ _ _ rfl rfl)
  have h := h.snoc (@Step.start ℕ _ _ rfl rfl)
  have h := h.snoc (@Step.setPrio ℕ _ 9 rfl)
  obtain ⟨tr, s, h, hs, hthread, hcall⟩ : ∃ (tr : List (Action ℕ)) (s : State ℕ),
      (system ℕ).Run (initial ℕ) tr s ∧
        s = ⟨⟨s.pool.thread, none, [(⟨2, 5, 0, 1⟩, 1)], false, 0, 0, 2, [(⟨1, 5, 0, 0⟩, 0)], []⟩,
          .running, 9, s.call, [.postBulk (fun i => i + 1) 2 5], .notCalled,
          [((⟨1, 5, 0, 0⟩, 0), 5)], []⟩ ∧
        s.pool.thread 0 = .working (⟨1, 5, 0, 0⟩, 0) ∧ s.call 0 = none := ⟨_, _, h, rfl, rfl, rfl⟩
  generalize s.pool.thread = thread at hs hthread
  generalize s.call = call at hs hcall
  subst hs
  have h := h.snoc (@Step.requestStop ℕ _ _ rfl (.requestStop rfl))
  have h := h.snoc (@Step.call ℕ _ 0 (.dispatch 7 3) hcall (fun _ => rfl) nofun)
  have h := h.snoc (@Step.post ℕ _ 0 _ _ _ rfl rfl rfl (.itemPost Nat.one_pos hthread rfl))
  have h := h.snoc (@Step.notify ℕ _ 0 _ none _ rfl rfl (.itemNotifyOne Nat.one_pos rfl (by
    intro u hu
    obtain rfl : u = 0 := by omega
    nofun)))
  have h := h.snoc (@Step.ret ℕ _ 0 _ rfl rfl rfl)
  have h := h.snoc (@Step.finish ℕ _ _ rfl rfl (.finish Nat.one_pos rfl))
  have h := h.snoc (@Step.notifyAll ℕ _ _ rfl (.notifyAll Nat.one_pos))
  have h := h.snoc (@Step.worker ℕ _ (.relock 0) _ trivial (.relock Nat.one_pos rfl rfl))
  have h := h.snoc (@Step.pop ℕ _ _ (.pop Nat.one_pos rfl rfl))
  have h := h.snoc (@Step.install ℕ _ _ rfl rfl)
  have h := h.snoc (@Step.start ℕ _ _ rfl rfl)
  have h := h.snoc (@Step.finish ℕ _ _ rfl rfl (.finish Nat.one_pos rfl))
  have h := h.snoc (@Step.worker ℕ _ (.relock 0) _ trivial (.relock Nat.one_pos rfl rfl))
  have h := h.snoc (@Step.pop ℕ _ _ (.pop Nat.one_pos rfl rfl))
  have h := h.snoc (@Step.install ℕ _ _ rfl rfl)
  have h := h.snoc (@Step.start ℕ _ _ rfl rfl)
  have h := h.snoc (@Step.finish ℕ _ _ rfl rfl (.finish Nat.one_pos rfl))
  have h := h.snoc (@Step.worker ℕ _ (.relock 0) _ trivial (.relock Nat.one_pos rfl rfl))
  have h := h.snoc (@Step.worker ℕ _ (.drained 0) _ trivial (.drained Nat.one_pos rfl rfl))
  have h := h.snoc (@Step.worker ℕ _ (.ret 0) _ trivial (.ret Nat.one_pos rfl rfl))
  have h := h.snoc (@Step.join ℕ _ rfl rfl)
  exact ⟨_, _, h, rfl, rfl, adapter_refines_fifo h⟩

end Adapter

end ExternalExecutor

end TmcExamples
