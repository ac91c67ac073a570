import TmcExamples.PipelineChannel.Shutdown

/-!
# The channel pipeline processes every input exactly once

The workers of a stage work concurrently, so the order of the values is lost, but no value is
lost or doubled: `FlowInv` says that what a stage has posted, together with what its workers
have in hand, is the multiset of the images of what has been pulled from its input channel.
No post is refused, because a channel is closed only after all workers of its stage have
returned. When everything has been drained, the multisets are those of the inputs.
-/

namespace TmcExamples

namespace PipelineChannel

open Finset

/-! ### What the workers have in hand -/

namespace Worker

variable {α β : Type}

/-- The value that a worker of a stage with function `f` will post for the element in its
hand. -/
def item (f : α → β) : Worker α β → Multiset β
  | .release v | .acquire v | .call v | .running v _ => {f v}
  | .post r => {r}
  | _ => 0

/-- The value in the hand of a worker of the end stage that it has not consumed yet. -/
def endItem : Worker α β → Multiset α
  | .release v | .acquire v | .call v => {v}
  | _ => 0

end Worker

/-- The number of inputs, of `n`, that the driver has posted. -/
def Main.posted (n : ℕ) : Main → ℕ
  | .grant _ | .fork _ => 0
  | .acquire i | .post i => i
  | .drain | .drainWait | .join | .finished => n

variable {pl : Pipeline} {s s' : State pl}

namespace State

variable (s : State pl)

/-- The values that the workers of stage `k` will post for the elements in their hands. -/
def held (k : ℕ) : Multiset (pl.Val (k + 1)) := s.total k (Worker.item (pl.func k).result)

/-- The values in the hands of the workers of the end stage that have not been consumed. -/
def endHeld : Multiset pl.Out := s.total pl.stages Worker.endItem

end State

/-! ### Multisets of values -/

private theorem coe_concat {α : Type} (l : List α) (v : α) :
    (↑(l ++ [v]) : Multiset α) = ↑l + {v} := (Multiset.coe_add l [v]).symm

private theorem map_coe_concat {α β : Type} (f : α → β) (l : List α) (v : α) :
    Multiset.map f ↑(l ++ [v]) = Multiset.map f ↑l + {f v} := by
  rw [coe_concat, Multiset.map_add, Multiset.map_singleton]

private theorem log_setChan (s : State pl) {j : ℕ} {q : LogQueue (pl.Val j)}
    (h : q.log = (s.chan j).log) (k : ℕ) : ((s.setChan j q).chan k).log = (s.chan k).log :=
  setChan_congr s q (fun _ q => q.log) h k

private theorem taken_setChan (s : State pl) {j : ℕ} {q : LogQueue (pl.Val j)}
    (h : q.taken = (s.chan j).taken) (k : ℕ) :
    ((s.setChan j q).chan k).taken = (s.chan k).taken :=
  setChan_congr s q (fun _ q => q.taken) h k

/-- The invariant of the values. -/
structure FlowInv (s : State pl) : Prop where
  main : (s.chan 0).log = pl.inputs.take (s.main.posted pl.inputs.length)
  stage : ∀ k < pl.stages, ↑(s.chan (k + 1)).log + s.held k =
    Multiset.map (pl.func k).result ↑(s.chan k).taken
  ending : ↑s.consumed + s.endHeld = (↑(s.chan pl.stages).taken : Multiset pl.Out)

namespace FlowInv

theorem initial (pl : Pipeline) : FlowInv (initial pl) where
  main := (List.take_zero).symm
  stage k _ := by
    rw [State.held, total_initial pl k _ rfl]
    rfl
  ending := by
    rw [State.endHeld, total_initial pl pl.stages _ rfl]
    rfl

/-- A move of the driver that posts nothing. -/
private theorem main_step (h : FlowInv s) {m : Main}
    (hm : pl.inputs.take (m.posted pl.inputs.length) =
      pl.inputs.take (s.main.posted pl.inputs.length)) :
    FlowInv { s with main := m } :=
  ⟨by rw [h.main, hm], h.stage, h.ending⟩

private theorem sem_step (h : FlowInv s) (k n : ℕ) : FlowInv (s.setSem k n) :=
  ⟨h.main, h.stage, h.ending⟩

private theorem closer_step (h : FlowInv s) (k : ℕ) (c : Closer) : FlowInv (s.setCloser k c) :=
  ⟨h.main, h.stage, h.ending⟩

/-- A move of a worker that keeps the element in its hand. -/
private theorem worker_step (h : FlowInv s) {j w : ℕ} {x : Worker (pl.Val j) (pl.Val (j + 1))}
    (hw : w < pl.workerCount j)
    (hitem : j < pl.stages → x.item (pl.func j).result =
      (s.worker j w).item (pl.func j).result)
    (hend : j = pl.stages → x.endItem = (s.worker j w).endItem) :
    FlowInv (s.setWorker j w x) := by
  refine ⟨h.main, fun k hk => ?_, ?_⟩
  · have hheld : (s.setWorker j w x).held k = s.held k := by
      by_cases hkj : k = j
      · subst hkj
        have htotal := total_setWorker s hw x (Worker.item (pl.func k).result)
        rw [hitem hk] at htotal
        exact add_right_cancel htotal
      · exact total_setWorker_of_ne s hkj x _
    rw [hheld]
    exact h.stage k hk
  · have hheld : (s.setWorker j w x).endHeld = s.endHeld := by
      by_cases hkj : pl.stages = j
      · subst hkj
        have htotal := total_setWorker s hw x Worker.endItem
        rw [hend rfl] at htotal
        exact add_right_cancel htotal
      · exact total_setWorker_of_ne s hkj x _
    rw [hheld]
    exact h.ending

/-- A change of a channel that adds no element and takes none. -/
private theorem chan_step (h : FlowInv s) {j : ℕ} {q : LogQueue (pl.Val j)}
    (hlog : q.log = (s.chan j).log) (htaken : q.taken = (s.chan j).taken) :
    FlowInv (s.setChan j q) := by
  refine ⟨?_, fun k hk => ?_, ?_⟩
  · rw [log_setChan s hlog, h.main]
    rfl
  · rw [log_setChan s hlog, taken_setChan s htaken]
    exact h.stage k hk
  · rw [taken_setChan s htaken]
    exact h.ending

/-- Starting workers, which have nothing in hand. -/
theorem startWorkers (h : FlowInv s) {j : ℕ}
    (hnew : ∀ w < pl.workerCount j, s.worker j w = .unstarted) : FlowInv (s.startWorkers j) := by
  refine ⟨h.main, fun k hk => ?_, ?_⟩
  · have hheld : (s.startWorkers j).held k = s.held k :=
      total_startWorkers _ (fun hkj => hkj ▸ hnew) rfl
    rw [hheld]
    exact h.stage k hk
  · have hheld : (s.startWorkers j).endHeld = s.endHeld :=
      total_startWorkers _ (fun hkj => hkj ▸ hnew) rfl
    rw [hheld]
    exact h.ending

/-- The driver posts the next input. -/
theorem driverPost (h : FlowInv s) {i : ℕ} {v : pl.Val 0} (hm : s.main = .post i)
    (hi : pl.inputs[i]? = some v) :
    FlowInv { s.setChan 0 ((s.chan 0).push v) with main := .acquire (i + 1) } := by
  have htaken := taken_setChan s (LogQueue.taken_push (s.chan 0) v)
  refine ⟨?_, fun k hk => ?_, ?_⟩
  · have hlog := h.main
    rw [hm] at hlog
    change ((s.setChan 0 ((s.chan 0).push v)).chan 0).log = pl.inputs.take (i + 1)
    rw [setChan_self, LogQueue.push_log, hlog, List.take_add_one, hi]
    rfl
  · change ↑((s.setChan 0 ((s.chan 0).push v)).chan (k + 1)).log + s.held k = _
    rw [htaken, setChan_of_ne _ _ (Nat.succ_ne_zero k)]
    exact h.stage k hk
  · rw [htaken]
    exact h.ending

/-- A pulled value goes into the hands of the worker. -/
theorem pull (h : FlowInv s) {j w : ℕ} {v : pl.Val j} (hw : w < pl.workerCount j)
    (hx : s.worker j w = .pull) (hf : (s.chan j).front? = some v) :
    FlowInv ((s.setChan j (s.chan j).pop).setWorker j w (.release v)) := by
  have hlog := log_setChan s (LogQueue.pop_log (s.chan j))
  have htotal : ∀ {M : Type} [AddCommMonoid M] (g : Worker (pl.Val j) (pl.Val (j + 1)) → M),
      g .pull = 0 → ((s.setChan j (s.chan j).pop).setWorker j w (.release v)).total j g =
        s.total j g + g (.release v) := fun g hg => by
    have hmove := total_setWorker (s.setChan j (s.chan j).pop) hw (.release v) g
    rw [setChan_worker, hx, hg, add_zero] at hmove
    exact hmove
  refine ⟨?_, fun k hk => ?_, ?_⟩
  · change ((s.setChan j (s.chan j).pop).chan 0).log = _
    rw [hlog, h.main]
    rfl
  · change (↑((s.setChan j (s.chan j).pop).chan (k + 1)).log : Multiset (pl.Val (k + 1))) + _ =
      Multiset.map _ (↑((s.setChan j (s.chan j).pop).chan k).taken : Multiset (pl.Val k))
    rw [hlog]
    by_cases hkj : k = j
    · -- The worker holds what its process function will make of the value.
      subst hkj
      rw [setChan_self, LogQueue.taken_pop hf, State.held, htotal _ rfl, ← add_assoc]
      rw [← State.held, h.stage k hk, map_coe_concat]
      rfl
    · rw [setChan_of_ne _ _ hkj, State.held, total_setWorker_of_ne _ hkj]
      exact h.stage k hk
  · change ↑s.consumed + _ =
      (↑((s.setChan j (s.chan j).pop).chan pl.stages).taken : Multiset pl.Out)
    by_cases hkj : pl.stages = j
    · subst hkj
      rw [setChan_self, LogQueue.taken_pop hf, State.endHeld, htotal _ rfl, ← add_assoc]
      rw [← State.endHeld, h.ending, coe_concat]
      rfl
    · rw [setChan_of_ne _ _ hkj, State.endHeld, total_setWorker_of_ne _ hkj]
      exact h.ending

/-- A posted value goes from the hands of the worker into the next channel. -/
theorem post (h : FlowInv s) {j w : ℕ} {r : pl.Val (j + 1)} (hw : w < pl.workerCount j)
    (hx : s.worker j w = .post r) (hj : j < pl.stages) :
    FlowInv ((s.setChan (j + 1) ((s.chan (j + 1)).push r)).setWorker j w .pull) := by
  have htaken := taken_setChan s (LogQueue.taken_push (s.chan (j + 1)) r)
  refine ⟨?_, fun k hk => ?_, ?_⟩
  · change ((s.setChan (j + 1) ((s.chan (j + 1)).push r)).chan 0).log = _
    rw [setChan_of_ne _ _ (Nat.succ_ne_zero j).symm]
    exact h.main
  · change (↑((s.setChan (j + 1) ((s.chan (j + 1)).push r)).chan (k + 1)).log :
        Multiset (pl.Val (k + 1))) + _ =
      Multiset.map _
        (↑((s.setChan (j + 1) ((s.chan (j + 1)).push r)).chan k).taken : Multiset (pl.Val k))
    rw [htaken]
    by_cases hkj : k = j
    · subst hkj
      -- The posted value leaves the hands of the worker and enters the channel.
      have hmove := total_setWorker (s.setChan (k + 1) ((s.chan (k + 1)).push r)) hw .pull
        (Worker.item (pl.func k).result)
      rw [setChan_worker, hx] at hmove
      have hheld : ((s.setChan (k + 1) ((s.chan (k + 1)).push r)).setWorker k w .pull).held k +
          {r} = s.held k := by
        simp only [Worker.item, add_zero] at hmove
        exact hmove
      rw [setChan_self, LogQueue.push_log, coe_concat, add_assoc,
        add_comm ({r} : Multiset (pl.Val (k + 1))), hheld]
      exact h.stage k hk
    · rw [setChan_of_ne _ _ (by omega), State.held, total_setWorker_of_ne _ hkj]
      exact h.stage k hk
  · change ↑s.consumed + _ =
      (↑((s.setChan (j + 1) ((s.chan (j + 1)).push r)).chan pl.stages).taken : Multiset pl.Out)
    rw [htaken, State.endHeld, total_setWorker_of_ne _ (Nat.ne_of_gt hj)]
    exact h.ending

/-- A value at the end stage is consumed when its call starts. -/
theorem endCall (h : FlowInv s) {w n : ℕ} {v : pl.Out} (hw : w < pl.workerCount pl.stages)
    (hx : s.worker pl.stages w = .call v) :
    FlowInv { s.setWorker pl.stages w (.running v n) with consumed := s.consumed ++ [v] } := by
  refine ⟨h.main, fun k hk => ?_, ?_⟩
  · have hheld : (s.setWorker pl.stages w (.running v n)).held k = s.held k :=
      total_setWorker_of_ne s (Nat.ne_of_lt hk) _ _
    change ↑(s.chan (k + 1)).log + (s.setWorker pl.stages w (.running v n)).held k = _
    rw [hheld]
    exact h.stage k hk
  · have hheld : (s.setWorker pl.stages w (.running v n)).endHeld + {v} = s.endHeld := by
      have hmove := total_setWorker s hw (.running v n) Worker.endItem
      rw [hx] at hmove
      simp only [Worker.endItem, add_zero] at hmove
      exact hmove
    change ↑(s.consumed ++ [v]) + (s.setWorker pl.stages w (.running v n)).endHeld = _
    rw [coe_concat, add_assoc, add_comm ({v} : Multiset pl.Out), hheld]
    exact h.ending

end FlowInv

/-- Every step keeps the invariant of the values. -/
private theorem flowInv_step (hc : ControlInv s) {a : Action} (h : FlowInv s) (hs : Step s a s') :
    FlowInv s' := by
  cases hs with
  | grant hm => exact (h.sem_step _ _).main_step (by rw [setSem_main, hm]; rfl)
  | fork hm => exact (h.closer_step _ _).main_step (by rw [setCloser_main, hm]; rfl)
  | forkEnd hm =>
    exact (h.startWorkers (hc.unstarted_of_fork hm)).main_step (by rw [startWorkers_main, hm]; rfl)
  | driverAcquire hm => exact (h.sem_step _ _).main_step (by rw [setSem_main, hm]; rfl)
  | driverPost hm hi =>
    rw [LogQueue.post_of_open (hc.chan_zero_open hm)]
    exact h.driverPost hm hi
  | driverLoopExit hm hi =>
    refine h.main_step ?_
    rw [hm, Main.posted, Main.posted, List.take_length,
      List.take_of_length_le (List.getElem?_eq_none_iff.mp hi)]
  | driverDrain hm =>
    exact (h.chan_step (LogQueue.close_log _) (LogQueue.taken_close _)).main_step
      (by rw [setChan_main, hm]; rfl)
  | driverDrainWait hm | driverJoin hm => exact h.main_step (by rw [hm]; rfl)
  | spawn hj hcl =>
    exact (h.startWorkers (hc.unstarted_of_spawn hj hcl)).closer_step _ _
  | join | drainWait => exact h.closer_step _ _
  | drain =>
    exact (h.chan_step (LogQueue.close_log _) (LogQueue.taken_close _)).closer_step _ _
  | pull _ hw hx hf => exact h.pull hw hx hf
  | pullEmpty _ hw hx | resume _ hw hx =>
    exact h.worker_step hw (fun _ => by rw [hx]; rfl) fun _ => by rw [hx]; rfl
  | @release j w v _ hw hx =>
    -- The value is still in the hands of the worker, in the end stage too.
    refine (h.sem_step _ _).worker_step hw (fun hlt => ?_) fun heq => ?_
    · rw [setSem_worker, hx, Pipeline.afterRelease, if_pos hlt]
      rfl
    · rw [setSem_worker, hx, Pipeline.afterRelease, if_neg (by omega)]
      rfl
  | @acquire j w v hj hw hx =>
    refine (h.sem_step _ _).worker_step hw (fun _ => ?_) fun _ => ?_
    · rw [setSem_worker, hx]
      rfl
    · rw [setSem_worker, hx]
      rfl
  | call hj hw hx | finish hj hw hx =>
    refine h.worker_step hw (fun _ => ?_) fun heq => absurd hj (by omega)
    rw [hx]
    rfl
  | post hj hw hx =>
    rw [LogQueue.post_of_open (hc.chan_open hj hw (by simp [hx]))]
    exact h.post hw hx hj
  | endCall hw hx => exact h.endCall hw hx
  | endFinish hw hx =>
    refine h.worker_step hw (fun hlt => absurd hlt (Nat.lt_irrefl _)) fun _ => ?_
    rw [hx]
    rfl

theorem flowInv_reachable (hs : (system pl).Reachable s) : FlowInv s :=
  hs.induct (P := FlowInv) (.initial pl) fun _ _ _ hr h hstep =>
    flowInv_step (controlInv_reachable hr) h hstep

/-! ### Exactly once -/

namespace FlowInv

/-- When the `fork_group` has completed, the driver has posted all inputs. -/
theorem log_zero_of_done (h : FlowInv s) (hc : ControlInv s) (hd : s.ForkGroupDone) :
    (s.chan 0).log = pl.inputs := by
  have hclosed := hc.mainClosed.mp (hc.drained_of_done hd (Nat.zero_le _)).1
  have hposted : s.main.posted pl.inputs.length = pl.inputs.length := by
    cases hm : s.main with
    | drainWait | join | finished => rfl
    | _ => rw [hm] at hclosed; exact hclosed.elim
  rw [h.main, hposted, List.take_length]

/-- A share that workers which have returned do not have. -/
private theorem total_eq_zero_of_exited {M : Type} [AddCommMonoid M] {k : ℕ}
    (hw : s.WorkersExited k) (g : Worker (pl.Val k) (pl.Val (k + 1)) → M) (hg : g .exited = 0) :
    s.total k g = 0 :=
  sum_eq_zero fun w hmem => by rw [hw w (mem_range.mp hmem), hg]

/-- When the `fork_group` has completed, the values that went through channel `k` are the
images of the inputs. -/
private theorem log_of_done (h : FlowInv s) (hc : ControlInv s) (hd : s.ForkGroupDone) {k : ℕ}
    (hk : k ≤ pl.stages) :
    (↑(s.chan k).log : Multiset (pl.Val k)) = Multiset.map (pl.compose k) ↑pl.inputs := by
  induction k with
  | zero => rw [h.log_zero_of_done hc hd]; exact (Multiset.map_id _).symm
  | succ k ih =>
    have hlt : k ≤ pl.stages := Nat.le_of_succ_le hk
    have hstage := h.stage k hk
    rw [State.held, total_eq_zero_of_exited (hc.workersExited_of_done hd hlt) _ rfl, add_zero,
      (hc.drained_of_done hd hlt).taken_eq, ih hlt, Multiset.map_map] at hstage
    exact hstage

end FlowInv

/-- **Exactly once.** No value is ever posted to a closed channel, neither by a worker nor by
the driver. When the `fork_group` has completed, the consume function has been called with
the images of the inputs under all process functions, each as often as it occurs. -/
theorem exactly_once (hs : (system pl).Reachable s) :
    (∀ k w s', Step s (.post k w) s' → (s.chan (k + 1)).closed = false) ∧
      (∀ s', Step s .driverPost s' → (s.chan 0).closed = false) ∧
      (s.ForkGroupDone →
        (↑s.consumed : Multiset pl.Out) = Multiset.map (pl.compose pl.stages) ↑pl.inputs) := by
  have hc := controlInv_reachable hs
  have h := flowInv_reachable hs
  refine ⟨?_, ?_, ?_⟩
  · intro k w s' hstep
    cases hstep with
    | post hk hw hx => exact hc.chan_open hk hw (by rw [hx]; nofun)
  · intro s' hstep
    cases hstep with
    | driverPost hm => exact hc.chan_zero_open hm
  · intro hd
    have hending := h.ending
    rw [State.endHeld, FlowInv.total_eq_zero_of_exited hd.2 _ rfl, add_zero,
      (hc.drained_of_done hd (Nat.le_refl _)).taken_eq, h.log_of_done hc hd (Nat.le_refl _)]
      at hending
    exact hending

/-- A complete run of the sample pipeline consumes `6`, `8` and `10`, in some order. -/
theorem exactly_once_sample :
    ∃ s : State sample, (system sample).Reachable s ∧ s.ForkGroupDone ∧
      Multiset.ofList s.consumed = ({6, 8, 10} : Multiset ℕ) := by
  obtain ⟨s, hr, -, hd⟩ := exists_finished sample
  exact ⟨s, hr, hd, (exactly_once hr).2.2 hd⟩

end PipelineChannel

end TmcExamples
