import TmcExamples.ExternalExecutor.Model
import TmcExamples.Transition.Parties

/-!
# The mutex and the work items

`PoolInv` says that a call that is past its lock owns the mutex, so that two calls are never in
their critical sections together, and that the queue is still empty when a call checks
`stop_requested`: it has found it empty in the same critical section.

`ItemInv` relates a state to the trace that has led to it: what has been dequeued and what is
still in the queue is what has been posted, in order, and every dequeued item is executed or in
the hands of one call.
-/

namespace TmcExamples

namespace ExternalExecutor

open Finset

variable {α : Type} {threads : ℕ} {s s' : State α}

/-! ### Updates of the state -/

section Update

variable (s : State α) {t u : ℕ} (x : Thread α)

@[simp] theorem setThread_self : (s.setThread t x).thread t = x := Function.update_self ..

@[simp] theorem setThread_of_ne (h : u ≠ t) : (s.setThread t x).thread u = s.thread u :=
  Function.update_of_ne h ..

private theorem wake_eq_of_ne {y : Thread α} (h : y ≠ .waiting) : y.wake = y := by
  cases y <;> first | rfl | exact (h rfl).elim

/-- A notified call was waiting, so it does not own the mutex and executes nothing. -/
theorem thread_wakeOne {threads : ℕ} {w : Option ℕ} (hw : s.MayWake threads w) (u : ℕ) :
    (s.wakeOne w).thread u = s.thread u ∨
      s.thread u = .waiting ∧ (s.wakeOne w).thread u = .woken := by
  cases w with
  | none => exact Or.inl rfl
  | some v =>
    by_cases huv : u = v
    · subst huv
      exact Or.inr ⟨hw.2, setThread_self s .woken⟩
    · exact Or.inl (setThread_of_ne s .woken huv)

/-- A thread that does not wait does not notice a notification. -/
theorem thread_wakeOne_eq {threads : ℕ} {w : Option ℕ} (hw : s.MayWake threads w) {u : ℕ}
    {x : Thread α} (hx : s.thread u = x) (hne : x ≠ .waiting) : (s.wakeOne w).thread u = x := by
  subst hx
  exact (thread_wakeOne s hw u).resolve_right fun h => hne h.1

/-- A notification of all wakes those that wait, and nobody else. -/
theorem thread_wakeAll (u : ℕ) :
    s.wakeAll.thread u = s.thread u ∨ s.thread u = .waiting ∧ s.wakeAll.thread u = .woken := by
  by_cases hu : s.thread u = .waiting
  · exact Or.inr ⟨hu, congrArg Thread.wake hu⟩
  · exact Or.inl (wake_eq_of_ne hu)

end Update

/-! ### Mutual exclusion -/

/-- The invariant of the mutex. -/
structure PoolInv (threads : ℕ) (s : State α) : Prop where
  locked : ∀ t, (s.thread t).Locked → s.owner = some t
  empty : ∀ t, s.thread t = .stopCheck → s.queue = []
  outside : ∀ t, threads ≤ t → s.thread t = .outside

namespace PoolInv

theorem initial (threads : ℕ) : PoolInv threads (initial α) :=
  ⟨fun _ h => h.elim, nofun, fun _ _ => rfl⟩

/-- Only one call is in its critical section. -/
theorem exclusive (h : PoolInv threads s) {t u : ℕ} (ht : (s.thread t).Locked)
    (hu : (s.thread u).Locked) : u = t := by
  have hsame : some u = some t := by rw [← h.locked u hu, ← h.locked t ht]
  exact Option.some.inj hsame

/-- A move of one call: it may take the free mutex, keep it or release it, and change the queue
while it has it. -/
private theorem thread_step (h : PoolInv threads s) {t : ℕ} (ht : t < threads) {x : Thread α}
    (hthread : s'.thread = (s.setThread t x).thread)
    (hlocked : x.Locked → s'.owner = some t)
    (hother : s'.owner = s.owner ∨ s.owner = none ∨ (s.thread t).Locked)
    (hempty : x = .stopCheck → s'.queue = [])
    (hqueue : s'.queue = s.queue ∨ s.owner = none ∨ (s.thread t).Locked) :
    PoolInv threads s' := by
  -- Another call in its critical section rules out that `t` could have touched anything.
  have hfree : ∀ u, u ≠ t → (s.thread u).Locked → ¬ (s.owner = none ∨ (s.thread t).Locked) := by
    rintro u hut hu (hnone | ht')
    · rw [h.locked u hu] at hnone
      cases hnone
    · exact hut (h.exclusive ht' hu)
  refine ⟨?_, ?_, ?_⟩
  · intro u hu
    rw [hthread] at hu
    by_cases hut : u = t
    · subst hut
      rw [setThread_self] at hu
      exact hlocked hu
    · rw [setThread_of_ne _ _ hut] at hu
      rw [hother.resolve_right (hfree u hut hu)]
      exact h.locked u hu
  · intro u hu
    rw [hthread] at hu
    by_cases hut : u = t
    · subst hut
      rw [setThread_self] at hu
      exact hempty hu
    · rw [setThread_of_ne _ _ hut] at hu
      have hlock : (s.thread u).Locked := by
        rw [hu]
        trivial
      rw [hqueue.resolve_right (hfree u hut hlock)]
      exact h.empty u hu
  · intro u hu
    rw [hthread, setThread_of_ne _ _ (by omega)]
    exact h.outside u hu

/-- Waking calls that wait changes no critical section. -/
theorem wake (h : PoolInv threads s)
    (hthread : ∀ u, s'.thread u = s.thread u ∨ s.thread u = .waiting ∧ s'.thread u = .woken)
    (howner : s'.owner = s.owner) (hqueue : s'.queue = s.queue) : PoolInv threads s' := by
  refine ⟨?_, ?_, ?_⟩
  · intro u hu
    rcases hthread u with heq | ⟨-, heq⟩
    · rw [howner]
      exact h.locked u (heq ▸ hu)
    · rw [heq] at hu
      exact hu.elim
  · intro u hu
    rcases hthread u with heq | ⟨-, heq⟩
    · rw [hqueue]
      exact h.empty u (heq ▸ hu)
    · rw [heq] at hu
      cases hu
  · intro u hu
    rcases hthread u with heq | ⟨hwait, -⟩
    · rw [heq]
      exact h.outside u hu
    · rw [h.outside u hu] at hwait
      cases hwait

/-- A critical section of another thread: the mutex was free. -/
theorem external (h : PoolInv threads s) (hfree : s.owner = none)
    (hthread : s'.thread = s.thread) : PoolInv threads s' := by
  have hno : ∀ u, ¬ (s.thread u).Locked := fun u hu => by
    rw [h.locked u hu] at hfree
    cases hfree
  refine ⟨?_, ?_, ?_⟩
  · intro u hu
    rw [hthread] at hu
    exact (hno u hu).elim
  · intro u hu
    rw [hthread] at hu
    exact (hno u (by rw [hu]; trivial)).elim
  · intro u hu
    rw [hthread]
    exact h.outside u hu

/-- A wakeup leaves the mutex alone. -/
theorem wakeOne (h : PoolInv threads s) {w : Option ℕ} (hw : s.MayWake threads w) :
    PoolInv threads (s.wakeOne w) :=
  h.wake (thread_wakeOne s hw) (by cases w <;> rfl) (by cases w <;> rfl)

theorem wakeAll (h : PoolInv threads s) : PoolInv threads s.wakeAll :=
  h.wake (thread_wakeAll s) rfl rfl

end PoolInv

/-- Every step keeps the invariant of the mutex. -/
private theorem poolInv_step {a : Action α} (h : PoolInv threads s) (hs : Step threads s a s') :
    PoolInv threads s' := by
  have hlock : ∀ {t x}, s.thread t = x → x.Locked → (s.thread t).Locked := fun ht hx => by
    rw [ht]
    exact hx
  cases hs with
  | enter ht hx | finish ht hx | spurious ht hx =>
    exact h.thread_step ht rfl (fun hl => hl.elim) (Or.inl rfl) nofun (Or.inl rfl)
  | lock ht hx hfree | reacquire ht hx hfree | relock ht hx hfree =>
    exact h.thread_step ht rfl (fun _ => rfl) (Or.inr (Or.inl hfree)) nofun (Or.inl rfl)
  | wait ht hx | ret ht hx =>
    have hown := hlock hx trivial
    exact h.thread_step ht rfl (fun hl => hl.elim) (Or.inr (Or.inr hown)) nofun (Or.inl rfl)
  | pass ht hx | again ht hx =>
    have hown := h.locked _ (hlock hx trivial)
    exact h.thread_step ht rfl (fun _ => hown) (Or.inl rfl) nofun (Or.inl rfl)
  | pop ht hx =>
    have hown := hlock hx trivial
    exact h.thread_step ht rfl (fun hl => hl.elim) (Or.inr (Or.inr hown)) nofun
      (Or.inr (Or.inr hown))
  | drained ht hx hq =>
    have hown := h.locked _ (hlock hx trivial)
    exact h.thread_step ht rfl (fun _ => hown) (Or.inl rfl) (fun _ => hq) (Or.inl rfl)
  | itemPost ht hx hfree =>
    exact h.thread_step ht rfl (fun hl => hl.elim) (Or.inl rfl) nofun (Or.inr (Or.inl hfree))
  | itemNotifyOne ht hx hw =>
    exact (h.wakeOne hw).thread_step ht rfl (fun hl => hl.elim) (Or.inl rfl) nofun (Or.inl rfl)
  | itemRequestStop ht hx hfree =>
    exact h.thread_step ht rfl (fun hl => hl.elim) (Or.inl rfl) nofun (Or.inl rfl)
  | itemNotifyAll ht hx =>
    exact h.wakeAll.thread_step ht rfl (fun hl => hl.elim) (Or.inl rfl) nofun (Or.inl rfl)
  | post hfree | requestStop hfree => exact h.external hfree rfl
  | @notifyOne u _ hw =>
    have hwake := h.wakeOne hw
    exact ⟨hwake.locked, hwake.empty, hwake.outside⟩
  | notifyAll =>
    have hwake := h.wakeAll
    exact ⟨hwake.locked, hwake.empty, hwake.outside⟩

theorem poolInv_reachable (hs : (system α threads).Reachable s) : PoolInv threads s :=
  hs.induct (P := PoolInv threads) (.initial threads) fun _ _ _ _ h hstep => poolInv_step h hstep

/-! ### The work items -/

/-- The items posted in a trace, with their numbers. -/
def postedIn (tr : List (Action α)) : List (Item α) := (tr.filterMap Action.posted?).zipIdx

/-- Numbering the posts keeps them. -/
theorem map_fst_postedIn (tr : List (Action α)) :
    (postedIn tr).map Prod.fst = tr.filterMap Action.posted? := by
  rw [postedIn, List.zipIdx_map_fst]

/-- Posts are told apart by their numbers. -/
theorem nodup_postedIn (tr : List (Action α)) : (postedIn tr).Nodup := by
  refine List.Nodup.of_map Prod.snd ?_
  rw [postedIn, List.zipIdx_map_snd]
  exact List.nodup_range'

/-- The item that a call executes, as a multiset. -/
def Thread.held : Thread α → Multiset (Item α)
  | .working x | .notifyOne x | .notifyAll x => {x}
  | _ => 0

/-- The items in the hands of all calls. -/
def State.held (threads : ℕ) (s : State α) : Multiset (Item α) :=
  ∑ t ∈ range threads, (s.thread t).held

/-- The invariant of the work items along a trace. -/
structure ItemInv (threads : ℕ) (tr : List (Action α)) (s : State α) : Prop where
  serial : s.serial = (tr.filterMap Action.posted?).length
  posted : s.dequeued ++ s.queue = postedIn tr
  stop : s.stopRequested = true ↔ ∃ a ∈ tr, a.IsStop
  executed : ↑s.executed + s.held threads = (↑s.dequeued : Multiset (Item α))

section Held

variable (s : State α) {t : ℕ}

private theorem held_setThread (ht : t < threads) (x : Thread α) :
    (s.setThread t x).held threads + (s.thread t).held = s.held threads + x.held :=
  sum_update_add (mem_range.mpr ht) s.thread x Thread.held

/-- A call that moves with the item in its hands, or without one. -/
private theorem held_setThread_eq (ht : t < threads) {x : Thread α}
    (hx : x.held = (s.thread t).held) : (s.setThread t x).held threads = s.held threads := by
  have h := held_setThread s ht x
  rw [hx] at h
  exact add_right_cancel h

variable {s}

/-- Waking a call changes nobody's items. -/
private theorem held_wake (h : ∀ u, s'.thread u = s.thread u ∨
    s.thread u = .waiting ∧ s'.thread u = .woken) : s'.held threads = s.held threads := by
  refine sum_congr rfl fun u _ => ?_
  rcases h u with heq | ⟨hwait, hwoken⟩
  · rw [heq]
  · rw [hwait, hwoken]
    rfl

end Held

namespace ItemInv

variable {tr : List (Action α)}

theorem initial (threads : ℕ) : ItemInv threads [] (initial α) where
  serial := rfl
  posted := rfl
  stop := ⟨nofun, nofun⟩
  executed := by
    have hheld : (ExternalExecutor.initial α).held threads = 0 := sum_eq_zero fun _ _ => rfl
    rw [hheld]
    rfl

/-- One more action in the trace. -/
theorem snoc (h : ItemInv threads tr s) {a : Action α}
    (hserial : s'.serial = s.serial + a.posted?.toList.length)
    (hqueue : s'.dequeued ++ s'.queue =
      s.dequeued ++ s.queue ++ a.posted?.toList.map fun v => (v, s.serial))
    (hstop : s'.stopRequested = true ↔ s.stopRequested = true ∨ a.IsStop)
    (hexecuted : ↑s'.executed + s'.held threads = (↑s'.dequeued : Multiset (Item α))) :
    ItemInv threads (tr ++ [a]) s' := by
  have hposted : (tr ++ [a]).filterMap Action.posted? =
      tr.filterMap Action.posted? ++ a.posted?.toList := by
    rw [List.filterMap_append]
    cases ha : a.posted? <;> simp [ha]
  refine ⟨?_, ?_, ?_, hexecuted⟩
  · rw [hserial, hposted, List.length_append, h.serial]
  · rw [hqueue, h.posted, postedIn, postedIn, hposted, List.zipIdx_append, h.serial]
    cases a.posted? <;> simp
  · rw [hstop, h.stop]
    constructor
    · rintro (⟨b, hb, hbs⟩ | ha)
      · exact ⟨b, List.mem_append_left _ hb, hbs⟩
      · exact ⟨a, List.mem_append_right _ (List.mem_singleton_self a), ha⟩
    · rintro ⟨b, hb, hbs⟩
      rcases List.mem_append.mp hb with hb | hb
      · exact Or.inl ⟨b, hb, hbs⟩
      · rw [List.mem_singleton.mp hb] at hbs
        exact Or.inr hbs

/-- One more action that neither posts nor stops and moves no item. -/
theorem quiet (h : ItemInv threads tr s) {a : Action α} (hposted : a.posted? = none)
    (hstop : ¬ a.IsStop) (hserial : s'.serial = s.serial) (hqueue : s'.queue = s.queue)
    (hdequeued : s'.dequeued = s.dequeued) (hexecuted : s'.executed = s.executed)
    (hrequested : s'.stopRequested = s.stopRequested)
    (hheld : s'.held threads = s.held threads) : ItemInv threads (tr ++ [a]) s' := by
  refine h.snoc ?_ ?_ ?_ ?_
  · rw [hposted, hserial]
    rfl
  · rw [hposted, hqueue, hdequeued]
    exact (List.append_nil _).symm
  · rw [hrequested]
    exact (or_iff_left hstop).symm
  · rw [hexecuted, hheld, hdequeued]
    exact h.executed

end ItemInv

/-- Every step keeps the invariant of the work items. -/
private theorem itemInv_step {tr : List (Action α)} {a : Action α} (h : ItemInv threads tr s)
    (hs : Step threads s a s') : ItemInv threads (tr ++ [a]) s' := by
  cases hs with
  | enter ht hx | lock ht hx | wait ht hx | pass ht hx | spurious ht hx | reacquire ht hx
  | relock ht hx | drained ht hx | again ht hx | ret ht hx =>
    exact h.quiet rfl not_false rfl rfl rfl rfl rfl (held_setThread_eq s ht (by rw [hx]; rfl))
  | @finish t x ht hx =>
    have hheld : (s.setThread t .relock).held threads + {x} = s.held threads := by
      have hmove := held_setThread s ht .relock
      rw [hx] at hmove
      simpa only [Thread.held, add_zero] using hmove
    refine h.snoc rfl (List.append_nil _).symm (or_iff_left not_false).symm ?_
    change Multiset.ofList (s.executed ++ [x]) + (s.setThread t .relock).held threads =
      Multiset.ofList s.dequeued
    rw [← h.executed, ← hheld, ← Multiset.coe_add, Multiset.coe_singleton]
    ac_rfl
  | @pop t x rest ht hx hq =>
    have hheld : (s.setThread t (.working x)).held threads = s.held threads + {x} := by
      have hmove := held_setThread s ht (.working x)
      rw [hx] at hmove
      simpa only [Thread.held, add_zero] using hmove
    refine h.snoc rfl ?_ (or_iff_left not_false).symm ?_
    · change s.dequeued ++ [x] ++ rest = s.dequeued ++ s.queue ++ []
      rw [hq, List.append_nil, List.append_assoc]
      rfl
    · change ↑s.executed + (s.setThread t (.working x)).held threads =
        (↑(s.dequeued ++ [x]) : Multiset (Item α))
      rw [hheld, ← add_assoc, h.executed]
      rfl
  | @itemPost t x v ht hx =>
    refine h.snoc rfl (List.append_assoc _ _ _).symm (or_iff_left not_false).symm ?_
    have hheld := held_setThread_eq (s.enqueue v) (x := .notifyOne x) ht (by
      change _ = (s.thread t).held
      rw [hx]
      rfl)
    change ↑s.executed + ((s.enqueue v).setThread t (.notifyOne x)).held threads = ↑s.dequeued
    rw [hheld]
    exact h.executed
  | @itemNotifyOne t x u ht hx hw =>
    -- The call that notifies is not one of those that wait.
    have hself : (s.wakeOne u).thread t = .notifyOne x := thread_wakeOne_eq s hw hx nofun
    have hheld : ((s.wakeOne u).setThread t (.working x)).held threads = s.held threads := by
      rw [held_setThread_eq _ ht (by rw [hself]; rfl), held_wake (thread_wakeOne s hw)]
    cases u <;> exact h.quiet rfl not_false rfl rfl rfl rfl rfl hheld
  | @itemRequestStop t x ht hx =>
    refine h.snoc rfl (List.append_nil _).symm (iff_of_true rfl (Or.inr trivial)) ?_
    have hheld := held_setThread_eq s (x := .notifyAll x) ht (by rw [hx]; rfl)
    change ↑s.executed + (s.setThread t (.notifyAll x)).held threads = ↑s.dequeued
    rw [hheld]
    exact h.executed
  | @itemNotifyAll t x ht hx =>
    have hself : s.wakeAll.thread t = .notifyAll x := congrArg Thread.wake hx
    have hheld : (s.wakeAll.setThread t (.working x)).held threads = s.held threads := by
      rw [held_setThread_eq _ ht (by rw [hself]; rfl), held_wake (thread_wakeAll s)]
    exact h.quiet rfl not_false rfl rfl rfl rfl rfl hheld
  | post =>
    exact h.snoc rfl (List.append_assoc _ _ _).symm (or_iff_left not_false).symm h.executed
  | @notifyOne u _ hw =>
    have hheld : (s.wakeOne u).held threads = s.held threads := held_wake (thread_wakeOne s hw)
    cases u <;> exact h.quiet rfl not_false rfl rfl rfl rfl rfl hheld
  | requestStop =>
    exact h.snoc rfl (List.append_nil _).symm (iff_of_true rfl (Or.inr trivial)) h.executed
  | notifyAll =>
    exact h.quiet rfl not_false rfl rfl rfl rfl rfl (held_wake (thread_wakeAll s))

theorem itemInv_run {tr : List (Action α)} (h : (system α threads).Run (initial α) tr s) :
    ItemInv threads tr s :=
  LTS.Run.induct (P := ItemInv threads) (.initial threads)
    (fun _ _ _ _ _ hi hstep => itemInv_step hi hstep) h

end ExternalExecutor

end TmcExamples
