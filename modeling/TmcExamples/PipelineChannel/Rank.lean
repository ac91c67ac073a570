import TmcExamples.PipelineChannel.Permits

/-!
# Every run of the channel pipeline is finite

The rank of a state is a pair in the lexicographic order. Its first component, `State.work`,
weighs an element by the steps it still has to cause: an element of channel `k` carries
`Pipeline.weight k`, which is what the workers of stage `k` and of all later stages do with
it, and an input that has not been posted carries the weight of channel `0` and the two steps
of the driver. Every step but a resumption decreases it. The second one,
`State.suspensions`, counts the suspensions that running coroutines have before them.
-/

namespace TmcExamples

namespace PipelineChannel

open Finset

/-! ### The work of each party -/

/-- The work of a worker that has pulled an element of weight `c`. -/
def Worker.work {α β : Type} (c : ℕ) : Worker α β → ℕ
  | .unstarted => 1
  | .pull => 1
  | .release _ => c
  | .acquire _ => c - 1
  | .call _ => c - 2
  | .running _ _ => c - 3
  | .post _ => c - 4
  | .exited => 0

/-- The suspensions a worker has before it. -/
def Worker.suspensions {α β : Type} : Worker α β → ℕ
  | .running _ n => n
  | _ => 0

/-- The work of the driver, for `stages` stages, `n` inputs and an input of weight `c`. -/
def Main.work (stages n c : ℕ) : Main → ℕ
  | .grant k => n * (c + 2) + 5 + 2 * (stages + 1 - k)
  | .fork k => n * (c + 2) + 4 + 2 * (stages + 1 - k)
  | .acquire i => (n - i) * (c + 2) + 4
  | .post i => (n - (i + 1)) * (c + 2) + 4 + (c + 1)
  | .drain => 3
  | .drainWait => 2
  | .join => 1
  | .finished => 0

/-- The work of a closer. -/
def Closer.work : Closer → ℕ
  | .unstarted => 5
  | .spawn => 4
  | .join => 3
  | .drain => 2
  | .drainWait => 1
  | .done => 0

variable {pl : Pipeline}

/-- The work that an element of channel `k` stands for. -/
def Pipeline.weight (pl : Pipeline) (k : ℕ) : ℕ := 8 * (pl.stages + 1 - k)

namespace State

variable (s : State pl)

/-- The work of all workers. -/
def workerWork : ℕ := ∑ k ∈ range (pl.stages + 1), s.total k (Worker.work (pl.weight k))

/-- The work that the elements in the channels stand for. -/
def chanWork : ℕ := ∑ k ∈ range (pl.stages + 1), pl.weight k * (s.chan k).size

/-- The work of all closers. -/
def closerWork : ℕ := ∑ k ∈ range pl.stages, (s.closer k).work

/-- The first component of the rank. -/
def work : ℕ :=
  s.main.work pl.stages pl.inputs.length (pl.weight 0) + s.workerWork + s.chanWork + s.closerWork

/-- The second component of the rank. -/
def suspensions : ℕ := ∑ k ∈ range (pl.stages + 1), s.total k Worker.suspensions

/-- The rank of a state. -/
def rank : ℕ ×ₗ ℕ := toLex (s.work, s.suspensions)

private theorem rank_lt_of_work {s s' : State pl} (h : s'.work < s.work) : s'.rank < s.rank :=
  Prod.Lex.toLex_lt_toLex.mpr (Or.inl h)

private theorem rank_lt_of_suspensions {s s' : State pl} (h : s'.work = s.work)
    (hs : s'.suspensions < s.suspensions) : s'.rank < s.rank :=
  Prod.Lex.toLex_lt_toLex.mpr (Or.inr ⟨h, hs⟩)

end State

/-! ### Totals under an update -/

section Update

variable (s : State pl) {j w : ℕ}

/-- A worker that moves trades its old share of a total over all stages for its new one. -/
private theorem sum_total_setWorker (hj : j ≤ pl.stages) (hw : w < pl.workerCount j)
    (x : Worker (pl.Val j) (pl.Val (j + 1)))
    (g : (k : ℕ) → Worker (pl.Val k) (pl.Val (k + 1)) → ℕ) :
    ∑ k ∈ range (pl.stages + 1), (s.setWorker j w x).total k (g k) + g j (s.worker j w) =
      ∑ k ∈ range (pl.stages + 1), s.total k (g k) + g j x := by
  have hoff : ∑ k ∈ range (pl.stages + 1), (s.setWorker j w x).total k (g k) + s.total j (g j) =
      ∑ k ∈ range (pl.stages + 1), s.total k (g k) + (s.setWorker j w x).total j (g j) :=
    sum_add_eq_of_eq_off (mem_range.mpr (Nat.lt_succ_of_le hj))
      fun k _ hk => total_setWorker_of_ne s hk x (g k)
  have hon := total_setWorker s hw x (g j)
  omega

private theorem workerWork_setWorker (hj : j ≤ pl.stages) (hw : w < pl.workerCount j)
    (x : Worker (pl.Val j) (pl.Val (j + 1))) :
    (s.setWorker j w x).workerWork + (s.worker j w).work (pl.weight j) =
      s.workerWork + x.work (pl.weight j) :=
  sum_total_setWorker s hj hw x fun k => Worker.work (pl.weight k)

private theorem chanWork_setChan (hj : j ≤ pl.stages) (q : LogQueue (pl.Val j)) :
    (s.setChan j q).chanWork + pl.weight j * (s.chan j).size =
      s.chanWork + pl.weight j * q.size := by
  have hagree : ∀ k ∈ range (pl.stages + 1), k ≠ j →
      pl.weight k * ((s.setChan j q).chan k).size = pl.weight k * (s.chan k).size :=
    fun k _ hk => by rw [setChan_of_ne _ _ hk]
  have hoff := sum_add_eq_of_eq_off (mem_range.mpr (Nat.lt_succ_of_le hj)) hagree
  rw [setChan_self] at hoff
  exact hoff

private theorem closerWork_setCloser (hj : j < pl.stages) (c : Closer) :
    (s.setCloser j c).closerWork + (s.closer j).work = s.closerWork + c.work :=
  sum_update_add (mem_range.mpr hj) s.closer c Closer.work

private theorem workerWork_startWorkers
    (hnew : ∀ w < pl.workerCount j, s.worker j w = .unstarted) :
    (s.startWorkers j).workerWork = s.workerWork :=
  sum_congr rfl fun _ _ => total_startWorkers _ (fun hk => hk ▸ hnew) rfl

end Update

private theorem weight_eq {k : ℕ} (hk : k < pl.stages) : pl.weight k = pl.weight (k + 1) + 8 := by
  unfold Pipeline.weight
  omega

private theorem weight_ge {k : ℕ} (hk : k ≤ pl.stages) : 8 ≤ pl.weight k := by
  unfold Pipeline.weight
  omega

/-! ### The steps -/

variable {s s' : State pl}

/-- A move of the driver. -/
private theorem work_main_lt {m m' : Main} (hm : s.main = m)
    (h : m'.work pl.stages pl.inputs.length (pl.weight 0) <
      m.work pl.stages pl.inputs.length (pl.weight 0)) :
    ({ s with main := m' } : State pl).work < s.work := by
  subst hm
  change m'.work _ _ _ + s.workerWork + s.chanWork + s.closerWork < _
  unfold State.work
  omega

/-- A move of a worker that leaves the channels. -/
private theorem work_setWorker_lt {j w : ℕ} (hj : j ≤ pl.stages) (hw : w < pl.workerCount j)
    {x y : Worker (pl.Val j) (pl.Val (j + 1))} (hx : s.worker j w = x)
    (h : y.work (pl.weight j) < x.work (pl.weight j)) : (s.setWorker j w y).work < s.work := by
  subst hx
  have hworker := workerWork_setWorker s hj hw y
  change s.main.work _ _ _ + (s.setWorker j w y).workerWork + s.chanWork + s.closerWork < _
  unfold State.work
  omega

/-- A move of a closer. -/
private theorem work_setCloser_lt {j : ℕ} (hj : j < pl.stages) {c c' : Closer}
    (hc : s.closer j = c) (h : c'.work < c.work) : (s.setCloser j c').work < s.work := by
  subst hc
  have hcloser := closerWork_setCloser s hj c'
  change s.main.work _ _ _ + s.workerWork + s.chanWork + (s.setCloser j c').closerWork < _
  unfold State.work
  omega

/-- Closing a channel takes no element out of it. -/
private theorem chanWork_close {j : ℕ} (hj : j ≤ pl.stages) :
    (s.setChan j (s.chan j).close).chanWork = s.chanWork := by
  have hchan := chanWork_setChan s hj (s.chan j).close
  rw [LogQueue.size_close] at hchan
  omega

private theorem chanWork_push {j : ℕ} (hj : j ≤ pl.stages) (v : pl.Val j) :
    (s.setChan j ((s.chan j).push v)).chanWork = s.chanWork + pl.weight j := by
  have hchan := chanWork_setChan s hj ((s.chan j).push v)
  rw [LogQueue.size_push, Nat.mul_succ] at hchan
  omega

private theorem chanWork_pop {j : ℕ} (hj : j ≤ pl.stages) {v : pl.Val j}
    (hf : (s.chan j).front? = some v) :
    (s.setChan j (s.chan j).pop).chanWork + pl.weight j = s.chanWork := by
  have hchan := chanWork_setChan s hj (s.chan j).pop
  rw [← LogQueue.size_pop (LogQueue.head_lt_of_front? hf), Nat.mul_succ] at hchan
  omega

/-! ### The driver -/

section Driver

variable {k i : ℕ} {v : pl.Val 0}

private theorem rank_fork (hc : ControlInv s) (hm : s.main = .fork k) (hk : k < pl.stages) :
    ({ s.setCloser k .spawn with main := .grant (k + 1) } : State pl).rank < s.rank := by
  have hnew : s.closer k = .unstarted := (hc.closer k hk).mpr (by
    rw [hm]
    exact Nat.lt_irrefl k)
  have hcloser : (s.setCloser k .spawn).work < s.work := work_setCloser_lt hk hnew (by decide)
  refine State.rank_lt_of_work (lt_trans (work_main_lt hm ?_) hcloser)
  change _ + 5 + 2 * (pl.stages + 1 - (k + 1)) < _ + 4 + 2 * (pl.stages + 1 - k)
  omega

private theorem rank_forkEnd (hc : ControlInv s) (hm : s.main = .fork pl.stages) :
    ({ s.startWorkers pl.stages with main := .acquire 0 } : State pl).rank < s.rank := by
  have hstart : (s.startWorkers pl.stages).work = s.work :=
    congrArg (s.main.work _ _ _ + · + s.chanWork + s.closerWork)
      (workerWork_startWorkers s (hc.unstarted_of_fork hm))
  refine State.rank_lt_of_work (lt_of_lt_of_eq (work_main_lt hm ?_) hstart)
  rw [Main.work, Main.work, Nat.sub_zero]
  omega

private theorem rank_driverAcquire (hm : s.main = .acquire i) (hi : pl.inputs[i]? = some v) :
    ({ s.setSem 0 (s.sem 0 - 1) with main := .post i } : State pl).rank < s.rank := by
  refine State.rank_lt_of_work (work_main_lt (s := s.setSem _ _) hm ?_)
  have hlt := (List.getElem?_eq_some_iff.mp hi).1
  have hsplit : pl.inputs.length - i = pl.inputs.length - (i + 1) + 1 := by omega
  rw [Main.work, Main.work, hsplit, Nat.succ_mul]
  omega

/-- The weight of the input moves from the driver into the channel. -/
private theorem rank_driverPost (hc : ControlInv s) (hm : s.main = .post i) :
    ({ s.setChan 0 ((s.chan 0).post v) with main := .acquire (i + 1) } : State pl).rank <
      s.rank := by
  rw [LogQueue.post_of_open (hc.chan_zero_open hm)]
  have hchan := chanWork_push (s := s) (Nat.zero_le _) v
  refine State.rank_lt_of_work ?_
  change Main.work _ _ _ (.acquire (i + 1)) + s.workerWork +
    (s.setChan 0 ((s.chan 0).push v)).chanWork + s.closerWork < _
  rw [hchan, State.work, hm, Main.work, Main.work]
  omega

private theorem rank_driverDrain (hm : s.main = .drain) :
    ({ s.setChan 0 (s.chan 0).close with main := .drainWait } : State pl).rank < s.rank := by
  refine State.rank_lt_of_work (lt_of_lt_of_eq (work_main_lt (s := s.setChan _ _) hm ?_) ?_)
  · exact Nat.lt_succ_self 2
  · exact congrArg (s.main.work _ _ _ + s.workerWork + · + s.closerWork)
      (chanWork_close (Nat.zero_le _))

end Driver

/-! ### The closers -/

section Closers

variable {k : ℕ}

private theorem rank_spawn (hc : ControlInv s) (hk : k < pl.stages) (hcl : s.closer k = .spawn) :
    ((s.startWorkers k).setCloser k .join).rank < s.rank := by
  have hstart : (s.startWorkers k).work = s.work :=
    congrArg (s.main.work _ _ _ + · + s.chanWork + s.closerWork)
      (workerWork_startWorkers s (hc.unstarted_of_spawn hk hcl))
  refine State.rank_lt_of_work (lt_of_lt_of_eq (work_setCloser_lt hk hcl ?_) hstart)
  decide

private theorem rank_drain (hk : k < pl.stages) (hcl : s.closer k = .drain) :
    ((s.setChan (k + 1) (s.chan (k + 1)).close).setCloser k .drainWait).rank < s.rank := by
  have hchan : (s.setChan (k + 1) (s.chan (k + 1)).close).work = s.work :=
    congrArg (s.main.work _ _ _ + s.workerWork + · + s.closerWork) (chanWork_close hk)
  refine State.rank_lt_of_work (lt_of_lt_of_eq (work_setCloser_lt hk hcl ?_) hchan)
  decide

end Closers

/-! ### The workers -/

section Workers

variable {k w n : ℕ} {v : pl.Val k}

/-- The weight of the element moves from the channel to the worker. -/
private theorem rank_pull (hk : k ≤ pl.stages) (hw : w < pl.workerCount k)
    (hx : s.worker k w = .pull) (hf : (s.chan k).front? = some v) :
    ((s.setChan k (s.chan k).pop).setWorker k w (.release v)).rank < s.rank := by
  have hchan := chanWork_pop hk hf
  have hworker := workerWork_setWorker (s.setChan k (s.chan k).pop) hk hw (.release v)
  rw [setChan_worker, hx] at hworker
  change _ + 1 = s.workerWork + pl.weight k at hworker
  refine State.rank_lt_of_work ?_
  change s.main.work _ _ _ +
    ((s.setChan k (s.chan k).pop).setWorker k w (.release v)).workerWork +
    (s.setChan k (s.chan k).pop).chanWork + s.closerWork < _
  unfold State.work
  omega

private theorem rank_release (hk : k ≤ pl.stages) (hw : w < pl.workerCount k)
    (hx : s.worker k w = .release v) :
    ((s.setSem k (s.sem k + 1)).setWorker k w (pl.afterRelease k v)).rank < s.rank := by
  refine State.rank_lt_of_work (work_setWorker_lt (s := s.setSem _ _) hk hw hx ?_)
  have hge := weight_ge hk
  unfold Pipeline.afterRelease
  split <;> simp only [Worker.work] <;> omega

/-- The only step that leaves the work as it is. -/
private theorem rank_resume (hk : k ≤ pl.stages) (hw : w < pl.workerCount k)
    (hx : s.worker k w = .running v (n + 1)) :
    (s.setWorker k w (.running v n)).rank < s.rank := by
  refine State.rank_lt_of_suspensions ?_ ?_
  · have hworker := workerWork_setWorker s hk hw (.running v n)
    rw [hx] at hworker
    have heq : (s.setWorker k w (.running v n)).workerWork = s.workerWork :=
      Nat.add_right_cancel hworker
    exact congrArg (s.main.work _ _ _ + · + s.chanWork + s.closerWork) heq
  · have hsum : (s.setWorker k w (.running v n)).suspensions + (s.worker k w).suspensions =
        s.suspensions + n :=
      sum_total_setWorker s hk hw (.running v n) fun _ => Worker.suspensions
    rw [hx] at hsum
    change _ + (n + 1) = _ at hsum
    omega

/-- A worker that goes on with its element alone. -/
private theorem rank_element {x y : Worker (pl.Val k) (pl.Val (k + 1))} (hk : k ≤ pl.stages)
    (hw : w < pl.workerCount k) (hx : s.worker k w = x)
    (h : ∀ c, 8 ≤ c → y.work c < x.work c) : (s.setWorker k w y).rank < s.rank :=
  State.rank_lt_of_work (work_setWorker_lt hk hw hx (h _ (weight_ge hk)))

private theorem rank_acquire (hk : k < pl.stages) (hw : w < pl.workerCount k)
    (hx : s.worker k w = .acquire v) :
    ((s.setSem (k + 1) (s.sem (k + 1) - 1)).setWorker k w (.call v)).rank < s.rank := by
  refine State.rank_lt_of_work (work_setWorker_lt (s := s.setSem _ _) hk.le hw hx ?_)
  have hge := weight_ge hk.le
  simp only [Worker.work]
  omega

/-- The element is one stage further, which is worth more than the rest of this round. -/
private theorem rank_post (hc : ControlInv s) {r : pl.Val (k + 1)} (hk : k < pl.stages)
    (hw : w < pl.workerCount k) (hx : s.worker k w = .post r) :
    ((s.setChan (k + 1) ((s.chan (k + 1)).post r)).setWorker k w .pull).rank < s.rank := by
  rw [LogQueue.post_of_open (hc.chan_open hk hw (by rw [hx]; nofun))]
  have hchan := chanWork_push (s := s) (j := k + 1) hk r
  have hworker :=
    workerWork_setWorker (s.setChan (k + 1) ((s.chan (k + 1)).push r)) hk.le hw .pull
  rw [setChan_worker, hx] at hworker
  change _ + (pl.weight k - 4) = s.workerWork + 1 at hworker
  have hweight := weight_eq hk
  refine State.rank_lt_of_work ?_
  change s.main.work _ _ _ +
    ((s.setChan (k + 1) ((s.chan (k + 1)).push r)).setWorker k w .pull).workerWork +
    (s.setChan (k + 1) ((s.chan (k + 1)).push r)).chanWork + s.closerWork < _
  unfold State.work
  omega

/-- What is consumed does not count. -/
private theorem rank_endCall {v : pl.Out} (hw : w < pl.workerCount pl.stages)
    (hx : s.worker pl.stages w = .call v) (l : List pl.Out) :
    ({ s.setWorker pl.stages w (.running v n) with consumed := l } : State pl).rank < s.rank := by
  have hcall : (s.setWorker pl.stages w (.running v n)).work < s.work := by
    refine work_setWorker_lt (Nat.le_refl _) hw hx ?_
    have hge := weight_ge (Nat.le_refl pl.stages)
    simp only [Worker.work]
    omega
  exact State.rank_lt_of_work hcall

end Workers

/-- Every step decreases the rank. -/
private theorem rank_step (hc : ControlInv s) {a : Action} (hs : Step s a s') :
    s'.rank < s.rank := by
  cases hs with
  | grant hm =>
    exact State.rank_lt_of_work (work_main_lt (s := s.setSem _ _) hm
      (Nat.add_lt_add_right (Nat.lt_succ_self _) _))
  | fork hm hk => exact rank_fork hc hm hk
  | forkEnd hm => exact rank_forkEnd hc hm
  | driverAcquire hm hi => exact rank_driverAcquire hm hi
  | driverPost hm => exact rank_driverPost hc hm
  | driverLoopExit hm =>
    refine State.rank_lt_of_work (work_main_lt hm ?_)
    exact Nat.lt_of_lt_of_le (Nat.lt_succ_self 3) (Nat.le_add_left _ _)
  | driverDrain hm => exact rank_driverDrain hm
  | driverDrainWait hm => exact State.rank_lt_of_work (work_main_lt hm (Nat.lt_succ_self 1))
  | driverJoin hm => exact State.rank_lt_of_work (work_main_lt hm Nat.one_pos)
  | spawn hk hcl => exact rank_spawn hc hk hcl
  | drain hk hcl => exact rank_drain hk hcl
  | join hk hcl | drainWait hk hcl =>
    exact State.rank_lt_of_work (work_setCloser_lt hk hcl (by decide))
  | pull hk hw hx hf => exact rank_pull hk hw hx hf
  | pullEmpty hk hw hx => exact State.rank_lt_of_work (work_setWorker_lt hk hw hx Nat.one_pos)
  | release hk hw hx => exact rank_release hk hw hx
  | resume hk hw hx => exact rank_resume hk hw hx
  | acquire hk hw hx => exact rank_acquire hk hw hx
  | call hk hw hx | finish hk hw hx =>
    refine rank_element hk.le hw hx fun c hc => ?_
    simp only [Worker.work]
    omega
  | endCall hw hx => exact rank_endCall hw hx _
  | endFinish hw hx =>
    refine rank_element (Nat.le_refl _) hw hx fun c hc => ?_
    simp only [Worker.work]
    omega
  | post hk hw hx => exact rank_post hc hk hw hx

/-- **Termination.** Every run of the channel pipeline is finite. -/
theorem terminating (pl : Pipeline) : (system pl).Terminating :=
  LTS.terminating_of_rank State.rank fun _ _ _ hr hs => rank_step (controlInv_reachable hr) hs

end PipelineChannel

end TmcExamples
