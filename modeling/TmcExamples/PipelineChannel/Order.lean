import TmcExamples.PipelineChannel.ExactlyOnce

/-!
# Stages with one worker keep the order

A stage with a single worker posts its results in the order in which it pulls: the values that it
has posted, followed by the one that it will post for the element in its hand, are the images of
the values that it has taken (`OrderInv`). When every stage has a single worker, the consume
function is called with the images of the inputs in their order (`consumed_of_done`).
-/

namespace TmcExamples

namespace PipelineChannel

namespace Worker

variable {α β : Type}

/-- The value that a worker of a stage with function `f` will post for the element in its hand. -/
def itemList (f : α → β) : Worker α β → List β
  | .release v | .acquire v | .call v | .running v _ => [f v]
  | .post r => [r]
  | _ => []

/-- The value in the hand of a worker of the end stage that it has not consumed yet. -/
def endItemList : Worker α β → List α
  | .release v | .acquire v | .call v => [v]
  | _ => []

end Worker

variable {pl : Pipeline} {s s' : State pl}

/-- The order of the values at the stages that have a single worker. -/
structure OrderInv (s : State pl) : Prop where
  stage : ∀ k < pl.stages, pl.workerCount k = 1 →
    (s.chan (k + 1)).log ++ (s.worker k 0).itemList (pl.func k).result =
      (s.chan k).taken.map (pl.func k).result
  ending : pl.workerCount pl.stages = 1 →
    s.consumed ++ (s.worker pl.stages 0).endItemList = (s.chan pl.stages).taken

/-- A view of the first workers that the moved worker does not change is the same after it. -/
private theorem setWorker_congr (s : State pl) {β : ℕ → Type*} {j w : ℕ}
    (g : ∀ k, Worker (pl.Val k) (pl.Val (k + 1)) → β k) {x : Worker (pl.Val j) (pl.Val (j + 1))}
    (h : g j x = g j (s.worker j w)) (k : ℕ) :
    g k ((s.setWorker j w x).worker k 0) = g k (s.worker k 0) := by
  by_cases hk : k = j
  · subst hk
    by_cases hw : 0 = w
    · subst hw
      rw [setWorker_self, h]
    · rw [setWorker_of_ne _ _ hw]
  · rw [setWorker_of_ne_stage _ _ hk]

namespace OrderInv

theorem initial (pl : Pipeline) : OrderInv (initial pl) :=
  ⟨fun _ _ _ => rfl, fun _ => rfl⟩

/-- A step that takes nothing from a channel, posts nothing between stages and consumes
nothing. -/
theorem frame (h : OrderInv s) (hlog : ∀ k, (s'.chan (k + 1)).log = (s.chan (k + 1)).log)
    (htaken : ∀ k, (s'.chan k).taken = (s.chan k).taken)
    (hitem : ∀ k < pl.stages, (s'.worker k 0).itemList (pl.func k).result =
      (s.worker k 0).itemList (pl.func k).result)
    (hend : (s'.worker pl.stages 0).endItemList = (s.worker pl.stages 0).endItemList)
    (hconsumed : s'.consumed = s.consumed) : OrderInv s' := by
  constructor
  · intro k hk hone
    rw [hlog, htaken, hitem k hk]
    exact h.stage k hk hone
  · intro hone
    rw [htaken, hend, hconsumed]
    exact h.ending hone

/-- A move of a worker that keeps the element in its hand. -/
private theorem worker_step (h : OrderInv s) {j w : ℕ} {x : Worker (pl.Val j) (pl.Val (j + 1))}
    (hitem : j < pl.stages →
      x.itemList (pl.func j).result = (s.worker j w).itemList (pl.func j).result)
    (hend : j = pl.stages → x.endItemList = (s.worker j w).endItemList) :
    OrderInv (s.setWorker j w x) := by
  refine h.frame (fun _ => rfl) (fun _ => rfl) ?_ ?_ rfl
  · intro k hk
    by_cases hkj : k = j
    · subst hkj
      exact setWorker_congr s (fun k y => y.itemList (pl.func k).result) (hitem hk) k
    · rw [setWorker_of_ne_stage _ _ hkj]
  · by_cases hkj : pl.stages = j
    · subst hkj
      exact setWorker_congr s (fun _ y => y.endItemList) (hend rfl) pl.stages
    · rw [setWorker_of_ne_stage _ _ hkj]

/-- A change of a channel that takes nothing, and posts nothing unless it is the first one. -/
private theorem chan_step (h : OrderInv s) {j : ℕ} {q : LogQueue (pl.Val j)}
    (hlog : j = 0 ∨ q.log = (s.chan j).log) (htaken : q.taken = (s.chan j).taken) :
    OrderInv (s.setChan j q) := by
  refine h.frame ?_ (setChan_congr s q (fun _ q => q.taken) htaken) (fun _ _ => rfl) rfl rfl
  intro k
  rcases hlog with rfl | hlog
  · rw [setChan_of_ne _ _ (Nat.succ_ne_zero k)]
  · exact setChan_congr s q (fun _ q => q.log) hlog (k + 1)

/-- Starting workers, which have nothing in hand. -/
theorem startWorkers (h : OrderInv s) {j : ℕ}
    (hnew : ∀ w < pl.workerCount j, s.worker j w = .unstarted) : OrderInv (s.startWorkers j) := by
  refine h.frame (fun _ => rfl) (fun _ => rfl) ?_ ?_ rfl
  · intro k _
    by_cases hkj : k = j
    · subst hkj
      rw [startWorkers_self, hnew 0 (pl.workerCount_pos k)]
      rfl
    · rw [startWorkers_of_ne _ hkj]
  · by_cases hkj : pl.stages = j
    · subst hkj
      rw [startWorkers_self, hnew 0 (pl.workerCount_pos pl.stages)]
      rfl
    · rw [startWorkers_of_ne _ hkj]

/-- The only worker of a stage takes the next value. -/
theorem pull (h : OrderInv s) {j w : ℕ} {v : pl.Val j} (hw : w < pl.workerCount j)
    (hx : s.worker j w = .pull) (hf : (s.chan j).front? = some v) :
    OrderInv ((s.setChan j (s.chan j).pop).setWorker j w (.release v)) := by
  have hlog : ∀ k, ((s.setChan j (s.chan j).pop).chan k).log = (s.chan k).log :=
    setChan_congr s _ (fun _ q => q.log) (LogQueue.pop_log (s.chan j))
  constructor
  · intro k hk hone
    change ((s.setChan j (s.chan j).pop).chan (k + 1)).log ++ _ =
      ((s.setChan j (s.chan j).pop).chan k).taken.map _
    have hstage := h.stage k hk hone
    rw [hlog]
    by_cases hkj : k = j
    · -- The only worker of the stage had nothing in its hands.
      subst hkj
      obtain rfl : w = 0 := by omega
      rw [hx] at hstage
      have hposted : (s.chan (k + 1)).log = (s.chan k).taken.map (pl.func k).result := by
        simpa only [Worker.itemList, List.append_nil] using hstage
      rw [setChan_self, setWorker_self, LogQueue.taken_pop hf, List.map_append, ← hposted]
      rfl
    · rw [setChan_of_ne _ _ hkj, setWorker_of_ne_stage _ _ hkj]
      exact hstage
  · intro hone
    change s.consumed ++ _ = ((s.setChan j (s.chan j).pop).chan pl.stages).taken
    have hending := h.ending hone
    by_cases hkj : pl.stages = j
    · subst hkj
      obtain rfl : w = 0 := by omega
      rw [hx] at hending
      have hconsumed : s.consumed = (s.chan pl.stages).taken := by
        simpa only [Worker.endItemList, List.append_nil] using hending
      rw [setChan_self, setWorker_self, LogQueue.taken_pop hf, ← hconsumed]
      rfl
    · rw [setChan_of_ne _ _ hkj, setWorker_of_ne_stage _ _ hkj]
      exact hending

/-- It posts the image of the value behind the others. -/
theorem post (h : OrderInv s) {j w : ℕ} {r : pl.Val (j + 1)} (hw : w < pl.workerCount j)
    (hx : s.worker j w = .post r) (hj : j < pl.stages) :
    OrderInv ((s.setChan (j + 1) ((s.chan (j + 1)).push r)).setWorker j w .pull) := by
  have htaken : ∀ k, ((s.setChan (j + 1) ((s.chan (j + 1)).push r)).chan k).taken =
      (s.chan k).taken :=
    setChan_congr s _ (fun _ q => q.taken) (LogQueue.taken_push (s.chan (j + 1)) r)
  constructor
  · intro k hk hone
    change ((s.setChan (j + 1) ((s.chan (j + 1)).push r)).chan (k + 1)).log ++ _ =
      ((s.setChan (j + 1) ((s.chan (j + 1)).push r)).chan k).taken.map _
    have hstage := h.stage k hk hone
    rw [htaken]
    by_cases hkj : k = j
    · subst hkj
      obtain rfl : w = 0 := by omega
      rw [hx] at hstage
      rw [setChan_self, setWorker_self, LogQueue.push_log, ← hstage]
      exact List.append_nil _
    · rw [setChan_of_ne _ _ (by omega), setWorker_of_ne_stage _ _ hkj]
      exact hstage
  · intro hone
    change s.consumed ++ _ = ((s.setChan (j + 1) ((s.chan (j + 1)).push r)).chan pl.stages).taken
    rw [htaken, setWorker_of_ne_stage _ _ (Nat.ne_of_gt hj)]
    exact h.ending hone

/-- The only worker of the end stage consumes the values as it takes them. -/
theorem endCall (h : OrderInv s) {w n : ℕ} {v : pl.Out} (hw : w < pl.workerCount pl.stages)
    (hx : s.worker pl.stages w = .call v) :
    OrderInv { s.setWorker pl.stages w (.running v n) with consumed := s.consumed ++ [v] } := by
  constructor
  · intro k hk hone
    change (s.chan (k + 1)).log ++
      ((s.setWorker pl.stages w (.running v n)).worker k 0).itemList _ = _
    rw [setWorker_of_ne_stage _ _ (Nat.ne_of_lt hk)]
    exact h.stage k hk hone
  · intro hone
    change (s.consumed ++ [v]) ++
      ((s.setWorker pl.stages w (.running v n)).worker pl.stages 0).endItemList = _
    have hending := h.ending hone
    obtain rfl : w = 0 := by omega
    rw [hx] at hending
    rw [setWorker_self]
    simp only [Worker.endItemList, List.append_nil] at hending ⊢
    exact hending

end OrderInv

/-- Every step keeps the order. -/
private theorem orderInv_step (hc : ControlInv s) {a : Action} (h : OrderInv s) (hs : Step s a s') :
    OrderInv s' := by
  cases hs with
  | forkEnd hm =>
    exact (h.startWorkers (hc.unstarted_of_fork hm)).frame (fun _ => rfl) (fun _ => rfl)
      (fun _ _ => rfl) rfl rfl
  | driverPost hm hi =>
    rw [LogQueue.post_of_open (hc.chan_zero_open hm)]
    exact (h.chan_step (Or.inl rfl) (LogQueue.taken_push _ _)).frame (fun _ => rfl) (fun _ => rfl)
      (fun _ _ => rfl) rfl rfl
  | driverDrain =>
    exact (h.chan_step (Or.inl rfl) (LogQueue.taken_close _)).frame (fun _ => rfl) (fun _ => rfl)
      (fun _ _ => rfl) rfl rfl
  | spawn hj hcl =>
    exact (h.startWorkers (hc.unstarted_of_spawn hj hcl)).frame (fun _ => rfl) (fun _ => rfl)
      (fun _ _ => rfl) rfl rfl
  | drain =>
    exact (h.chan_step (Or.inr (LogQueue.close_log _)) (LogQueue.taken_close _)).frame
      (fun _ => rfl) (fun _ => rfl) (fun _ _ => rfl) rfl rfl
  | pull _ hw hx hf => exact h.pull hw hx hf
  | pullEmpty _ _ hx | resume _ _ hx =>
    refine h.worker_step (fun _ => ?_) fun _ => ?_
    · rw [hx]; rfl
    · rw [hx]; rfl
  | @release j w v _ _ hx =>
    have hsem : OrderInv (s.setSem j (s.sem j + 1)) := ⟨h.stage, h.ending⟩
    refine hsem.worker_step (fun hlt => ?_) fun heq => ?_
    · rw [setSem_worker, hx, Pipeline.afterRelease, if_pos hlt]
      rfl
    · rw [setSem_worker, hx, Pipeline.afterRelease, if_neg (by omega)]
      rfl
  | @acquire j w v hj _ hx =>
    have hsem : OrderInv (s.setSem (j + 1) (s.sem (j + 1) - 1)) := ⟨h.stage, h.ending⟩
    refine hsem.worker_step (fun _ => ?_) fun heq => absurd hj (by omega)
    rw [setSem_worker, hx]
    rfl
  | call hj _ hx | finish hj _ hx =>
    refine h.worker_step (fun _ => ?_) fun heq => absurd hj (by omega)
    rw [hx]
    rfl
  | post hj hw hx =>
    rw [LogQueue.post_of_open (hc.chan_open hj hw (by simp [hx]))]
    exact h.post hw hx hj
  | endCall hw hx => exact h.endCall hw hx
  | endFinish _ hx =>
    refine h.worker_step (fun hlt => absurd hlt (Nat.lt_irrefl _)) fun _ => ?_
    rw [hx]
    rfl
  | _ => exact h.frame (fun _ => rfl) (fun _ => rfl) (fun _ _ => rfl) rfl rfl

private theorem orderInv_reachable (hs : (system pl).Reachable s) : OrderInv s :=
  hs.induct (P := OrderInv) (.initial pl) fun _ _ _ hr h hstep =>
    orderInv_step (controlInv_reachable hr) h hstep

/-! ### The order of all stages -/

/-- When the `fork_group` has completed, the values that went through channel `k` are the images
of the inputs, in their order. -/
private theorem log_eq_of_done (hone : ∀ k, pl.workerCount k = 1) (hs : (system pl).Reachable s)
    (hd : s.ForkGroupDone) {k : ℕ} (hk : k ≤ pl.stages) :
    (s.chan k).log = pl.inputs.map (pl.compose k) := by
  have hc := controlInv_reachable hs
  induction k with
  | zero =>
    rw [(flowInv_reachable hs).log_zero_of_done hc hd]
    exact (List.map_id _).symm
  | succ k ih =>
    have hlt : k ≤ pl.stages := Nat.le_of_succ_le hk
    have hstage := (orderInv_reachable hs).stage k hk (hone k)
    rw [hc.workersExited_of_done hd hlt 0 (pl.workerCount_pos k),
      (hc.drained_of_done hd hlt).taken_eq, ih hlt, List.map_map] at hstage
    simp only [Worker.itemList, List.append_nil] at hstage
    exact hstage

/-- With a single worker in every stage, the consume function is called with the images of the
inputs in their order. -/
theorem consumed_of_done (hone : ∀ k, pl.workerCount k = 1) (hs : (system pl).Reachable s)
    (hd : s.ForkGroupDone) : s.consumed = pl.inputs.map (pl.compose pl.stages) := by
  have hc := controlInv_reachable hs
  have hending := (orderInv_reachable hs).ending (hone _)
  rw [hd.2 0 (pl.workerCount_pos _), (hc.drained_of_done hd (Nat.le_refl _)).taken_eq,
    log_eq_of_done hone hs hd (Nat.le_refl _)] at hending
  simpa only [Worker.endItemList, List.append_nil] using hending

end PipelineChannel

end TmcExamples
