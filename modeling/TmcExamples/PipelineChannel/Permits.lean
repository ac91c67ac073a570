import TmcExamples.PipelineChannel.Control
import TmcExamples.Transition.Parties

/-!
# Conservation of the permits

A permit of semaphore `k` is in one of four places: in the count of the semaphore, with a
producer that has acquired it and not yet posted, with an element of channel `k`, or with a
worker of stage `k` that has pulled an element and not yet released it. `State.permits` adds
them up. Every step moves permits between these places, and only the constructor of stage `k`
makes new ones (`permits_step`). So in every reachable state there are as many of them as
were granted (`permits_eq`), and the channel holds no more elements than that
(`size_chan_le`).
-/

namespace TmcExamples

namespace PipelineChannel

open Finset

namespace Worker

variable {α β : Type}

/-- A permit of the output semaphore that the worker has acquired for the value in its hand,
which it has not posted yet. -/
def acquired : Worker α β → ℕ
  | .call _ | .running _ _ | .post _ => 1
  | _ => 0

/-- An element that the worker has pulled and for which it has not released its input
semaphore yet. -/
def pulled : Worker α β → ℕ
  | .release _ => 1
  | _ => 0

end Worker

/-- A permit of `inputSem` that the driver has acquired for an input that it has not posted
yet. -/
def Main.acquired : Main → ℕ
  | .post _ => 1
  | _ => 0

variable {pl : Pipeline} {s s' : State pl}

/-- The permits of semaphore `k` that the constructors have granted. -/
def Pipeline.granted (pl : Pipeline) (m : Main) (k : ℕ) : ℕ :=
  match m with
  | .grant j => if k < j then 2 * pl.workerCount k else 0
  | .fork j => if k ≤ j then 2 * pl.workerCount k else 0
  | _ => 2 * pl.workerCount k

namespace State

variable (s : State pl)

/-- The sum of a quantity over the workers of stage `k`. -/
def total {M : Type*} [AddCommMonoid M] (k : ℕ) (g : Worker (pl.Val k) (pl.Val (k + 1)) → M) : M :=
  ∑ w ∈ range (pl.workerCount k), g (s.worker k w)

/-- The permits of semaphore `k` in the hands of the parties that post to channel `k`: the
driver, or the workers of the stage before. -/
def producers : ℕ → ℕ
  | 0 => s.main.acquired
  | k + 1 => s.total k Worker.acquired

/-- The permits of semaphore `k` in the hands of the workers of stage `k`. -/
def consumers (k : ℕ) : ℕ := s.total k Worker.pulled

/-- The permits of semaphore `k`, wherever they are. -/
def permits (k : ℕ) : ℕ := s.sem k + s.producers k + (s.chan k).size + s.consumers k

end State

/-! ### Totals over the workers of a stage -/

section Total

variable {M : Type*} [AddCommMonoid M] (s : State pl) {j k w : ℕ}

/-- A sum over the workers of a stage changes by what changes at the one worker. -/
theorem total_setWorker (hw : w < pl.workerCount k) (x : Worker (pl.Val k) (pl.Val (k + 1)))
    (g : Worker (pl.Val k) (pl.Val (k + 1)) → M) :
    (s.setWorker k w x).total k g + g (s.worker k w) = s.total k g + g x := by
  have hk : (s.setWorker k w x).worker k = Function.update (s.worker k) w x :=
    Function.update_self ..
  rw [State.total, hk]
  exact sum_update_add (mem_range.mpr hw) _ x g

theorem total_setWorker_of_ne (h : k ≠ j) (x : Worker (pl.Val j) (pl.Val (j + 1)))
    (g : Worker (pl.Val k) (pl.Val (k + 1)) → M) :
    (s.setWorker j w x).total k g = s.total k g := by
  rw [State.total, setWorker_of_ne_stage _ _ h]
  rfl

theorem total_initial (pl : Pipeline) (k : ℕ) (g : Worker (pl.Val k) (pl.Val (k + 1)) → M)
    (hg : g .unstarted = 0) : (initial pl).total k g = 0 :=
  sum_eq_zero fun _ _ => hg

variable {s}

/-- Starting workers that have no share yet changes no total in which `pull` has none. -/
theorem total_startWorkers (g : Worker (pl.Val k) (pl.Val (k + 1)) → M)
    (hs : k = j → ∀ w < pl.workerCount k, s.worker k w = .unstarted)
    (hg : g .unstarted = g .pull) : (s.startWorkers j).total k g = s.total k g := by
  refine sum_congr rfl fun w hw => ?_
  by_cases hkj : k = j
  · subst hkj
    rw [startWorkers_self, hs rfl w (mem_range.mp hw), hg]
  · rw [startWorkers_of_ne _ hkj]

end Total

/-! ### How the updates move the permits -/

section Update

variable (s : State pl) (j k : ℕ)

private theorem permits_setSem (n : ℕ) :
    (s.setSem j n).permits k + (if k = j then s.sem j else 0) =
      s.permits k + if k = j then n else 0 := by
  have hsem : (s.setSem j n).sem k = if k = j then n else s.sem k := Function.update_apply ..
  have hrest : (s.setSem j n).permits k =
      (s.setSem j n).sem k + s.producers k + (s.chan k).size + s.consumers k := by
    cases k <;> rfl
  rw [hrest, hsem, State.permits]
  by_cases hk : k = j
  · subst hk
    rw [if_pos rfl, if_pos rfl, if_pos rfl]
    omega
  · rw [if_neg hk, if_neg hk, if_neg hk]

private theorem permits_setChan (q : LogQueue (pl.Val j)) :
    (s.setChan j q).permits k + (if k = j then (s.chan j).size else 0) =
      s.permits k + if k = j then q.size else 0 := by
  have hrest : (s.setChan j q).permits k =
      s.sem k + s.producers k + ((s.setChan j q).chan k).size + s.consumers k := by
    cases k <;> rfl
  rw [hrest, State.permits]
  by_cases hk : k = j
  · subst hk
    rw [if_pos rfl, if_pos rfl, setChan_self]
    omega
  · rw [if_neg hk, if_neg hk, setChan_of_ne _ _ hk]

private theorem permits_main (m : Main) :
    ({ s with main := m } : State pl).permits k + (if k = 0 then s.main.acquired else 0) =
      s.permits k + if k = 0 then m.acquired else 0 := by
  cases k with
  | zero =>
    rw [if_pos rfl, if_pos rfl]
    change s.sem 0 + m.acquired + (s.chan 0).size + s.consumers 0 + s.main.acquired =
      s.sem 0 + s.main.acquired + (s.chan 0).size + s.consumers 0 + m.acquired
    omega
  | succ k => rfl

private theorem permits_setWorker {w : ℕ} (hw : w < pl.workerCount j)
    (x : Worker (pl.Val j) (pl.Val (j + 1))) :
    (s.setWorker j w x).permits k + (if k = j then (s.worker j w).pulled else 0) +
        (if k = j + 1 then (s.worker j w).acquired else 0) =
      s.permits k + (if k = j then x.pulled else 0) + if k = j + 1 then x.acquired else 0 := by
  have hcons : (s.setWorker j w x).consumers k + (if k = j then (s.worker j w).pulled else 0) =
      s.consumers k + if k = j then x.pulled else 0 := by
    by_cases hk : k = j
    · subst hk
      rw [if_pos rfl, if_pos rfl]
      exact total_setWorker s hw x _
    · rw [if_neg hk, if_neg hk]
      exact total_setWorker_of_ne s hk x _
  have hprod : (s.setWorker j w x).producers k +
        (if k = j + 1 then (s.worker j w).acquired else 0) =
      s.producers k + if k = j + 1 then x.acquired else 0 := by
    cases k with
    | zero => rfl
    | succ k =>
      by_cases hk : k = j
      · subst hk
        rw [if_pos rfl, if_pos rfl]
        exact total_setWorker s hw x _
      · rw [if_neg (by omega), if_neg (by omega)]
        exact total_setWorker_of_ne s hk x _
  have hrest : (s.setWorker j w x).permits k = s.sem k + (s.setWorker j w x).producers k +
      (s.chan k).size + (s.setWorker j w x).consumers k := rfl
  rw [hrest, State.permits]
  omega

/-- A worker that moves with its permits. -/
private theorem permits_worker_keep {w : ℕ} (hw : w < pl.workerCount j)
    {x y : Worker (pl.Val j) (pl.Val (j + 1))} (hx : s.worker j w = x)
    (hp : y.pulled = x.pulled) (ha : k = j + 1 → y.acquired = x.acquired) :
    (s.setWorker j w y).permits k = s.permits k := by
  subst hx
  have h := permits_setWorker s j k hw y
  rw [hp] at h
  split_ifs at h <;> omega

/-- The driver moves with its permit, and grants none. -/
private theorem permits_main_keep {m n : Main} (hm : s.main = m) (ha : n.acquired = m.acquired)
    (hg : pl.granted n k = pl.granted m k) :
    ({ s with main := n } : State pl).permits k + pl.granted s.main k =
      s.permits k + pl.granted n k := by
  subst hm
  have h := permits_main s k n
  rw [ha] at h
  rw [hg]
  omega

private theorem permits_startWorkers
    (hs : ∀ w < pl.workerCount j, s.worker j w = .unstarted) :
    (s.startWorkers j).permits k = s.permits k := by
  have hcons : (s.startWorkers j).consumers k = s.consumers k :=
    total_startWorkers _ (fun hk => hk ▸ hs) rfl
  have hprod : (s.startWorkers j).producers k = s.producers k := by
    cases k with
    | zero => rfl
    | succ k => exact total_startWorkers _ (fun hk => hk ▸ hs) rfl
  have hrest : (s.startWorkers j).permits k = s.sem k + (s.startWorkers j).producers k +
      (s.chan k).size + (s.startWorkers j).consumers k := rfl
  rw [hrest, hcons, hprod]
  rfl

end Update

/-! ### The steps -/

private theorem acquired_afterRelease {k : ℕ} (hk : k < pl.stages) (v : pl.Val k) :
    (pl.afterRelease k v).acquired = 0 := by
  rw [Pipeline.afterRelease, if_pos hk]
  rfl

private theorem pulled_afterRelease (k : ℕ) (v : pl.Val k) : (pl.afterRelease k v).pulled = 0 := by
  unfold Pipeline.afterRelease
  split <;> rfl

/-- **No permit is lost or made up.** A step changes the number of permits only by those that
the constructor of the stage grants. -/
theorem permits_step (hc : ControlInv s) {a : Action} (hs : Step s a s') {k : ℕ}
    (hk : k ≤ pl.stages) :
    s'.permits k + pl.granted s.main k = s.permits k + pl.granted s'.main k := by
  cases hs with
  | @grant j hm =>
    have hsem := permits_setSem s j k (s.sem j + 2 * pl.workerCount j)
    have hmain := permits_main (s.setSem j (s.sem j + 2 * pl.workerCount j)) k (.fork j)
    simp only [setSem_main, hm, Main.acquired, Pipeline.granted] at hmain ⊢
    by_cases hkj : k = j
    · subst hkj
      simp only [if_true, Nat.le_refl, Nat.lt_irrefl, if_false] at hsem ⊢
      omega
    · simp only [hkj, if_false] at hsem
      have hlt : k ≤ j ↔ k < j := ⟨fun h => Nat.lt_of_le_of_ne h hkj, Nat.le_of_lt⟩
      simp only [hlt]
      omega
  | @fork j hm hj =>
    have hmain := permits_main (s.setCloser j .spawn) k (.grant (j + 1))
    have hcloser : (s.setCloser j .spawn).permits k = s.permits k := rfl
    simp only [setCloser_main, hm, Main.acquired, Pipeline.granted, Nat.lt_succ_iff] at hmain ⊢
    omega
  | forkEnd hm =>
    have hstart := permits_startWorkers s pl.stages k (hc.unstarted_of_fork hm)
    have hmain := permits_main (s.startWorkers pl.stages) k (.acquire 0)
    simp only [startWorkers_main, hm, Main.acquired, Pipeline.granted, hk, if_true] at hmain ⊢
    omega
  | @driverAcquire i v hm hi hpos =>
    have hsem := permits_setSem s 0 k (s.sem 0 - 1)
    have hmain := permits_main (s.setSem 0 (s.sem 0 - 1)) k (.post i)
    simp only [setSem_main, hm, Main.acquired, Pipeline.granted] at hmain ⊢
    split_ifs at hsem hmain <;> omega
  | @driverPost i v hm hi =>
    rw [LogQueue.post_of_open (hc.chan_zero_open hm)]
    have hchan := permits_setChan s 0 k ((s.chan 0).push v)
    have hmain := permits_main (s.setChan 0 ((s.chan 0).push v)) k (.acquire (i + 1))
    simp only [setChan_main, hm, Main.acquired, Pipeline.granted, LogQueue.size_push]
      at hchan hmain ⊢
    split_ifs at hchan hmain <;> omega
  | driverLoopExit hm | driverDrainWait hm | driverJoin hm =>
    exact permits_main_keep s k hm rfl rfl
  | driverDrain hm =>
    have hchan := permits_setChan s 0 k (s.chan 0).close
    rw [LogQueue.size_close, Nat.add_right_cancel_iff] at hchan
    rw [← hchan]
    exact permits_main_keep (s.setChan 0 (s.chan 0).close) k hm rfl rfl
  | @spawn j hj hcl =>
    exact congrArg (· + _) (permits_startWorkers s j k (hc.unstarted_of_spawn hj hcl))
  | join | drainWait => rfl
  | @drain j hj hcl =>
    have hchan := permits_setChan s (j + 1) k (s.chan (j + 1)).close
    rw [LogQueue.size_close, Nat.add_right_cancel_iff] at hchan
    exact congrArg (· + _) hchan
  | @pull j w v hj hw hx hf =>
    have hsize := LogQueue.size_pop (LogQueue.head_lt_of_front? hf)
    have hchan := permits_setChan s j k (s.chan j).pop
    have hworker := permits_setWorker (s.setChan j (s.chan j).pop) j k hw (.release v)
    simp only [setChan_worker, hx, Worker.acquired, Worker.pulled] at hworker
    simp only [setWorker_main, setChan_main]
    split_ifs at hchan hworker <;> omega
  | @release j w v hj hw hx =>
    have hsem := permits_setSem s j k (s.sem j + 1)
    have hworker := permits_setWorker (s.setSem j (s.sem j + 1)) j k hw (pl.afterRelease j v)
    have hacq : k = j + 1 → (pl.afterRelease j v).acquired = 0 := fun hkj =>
      acquired_afterRelease (by omega) v
    have hold : (s.worker j w).pulled = 1 ∧ (s.worker j w).acquired = 0 := by
      rw [hx]
      exact ⟨rfl, rfl⟩
    simp only [setSem_worker, hold, pulled_afterRelease] at hworker
    simp only [setWorker_main, setSem_main]
    split_ifs at hsem hworker <;> omega
  | @acquire j w v hj hw hx hpos =>
    have hsem := permits_setSem s (j + 1) k (s.sem (j + 1) - 1)
    have hworker := permits_setWorker (s.setSem (j + 1) (s.sem (j + 1) - 1)) j k hw (.call v)
    simp only [setSem_worker, hx, Worker.acquired, Worker.pulled] at hworker
    simp only [setWorker_main, setSem_main]
    split_ifs at hsem hworker <;> omega
  | @post j w r hj hw hx =>
    rw [LogQueue.post_of_open (hc.chan_open hj hw (by rw [hx]; nofun))]
    have hchan := permits_setChan s (j + 1) k ((s.chan (j + 1)).push r)
    have hworker := permits_setWorker (s.setChan (j + 1) ((s.chan (j + 1)).push r)) j k hw .pull
    simp only [setChan_worker, hx, Worker.acquired, Worker.pulled] at hworker
    simp only [setWorker_main, setChan_main]
    rw [LogQueue.size_push] at hchan
    split_ifs at hchan hworker <;> omega
  | pullEmpty _ hw hx | resume _ hw hx | call _ hw hx | finish _ hw hx =>
    exact congrArg (· + _) (permits_worker_keep s _ k hw hx rfl fun _ => rfl)
  | endCall hw hx =>
    exact congrArg (· + _) (permits_worker_keep s _ k hw hx rfl fun _ => rfl)
  | endFinish hw hx =>
    -- No semaphore follows the end stage, so its workers hold no permit of one.
    refine congrArg (· + _) (permits_worker_keep s _ k hw hx rfl fun hks => ?_)
    omega

/-- In every reachable state there are as many permits as have been granted. -/
theorem permits_eq (hs : (system pl).Reachable s) {k : ℕ} (hk : k ≤ pl.stages) :
    s.permits k = pl.granted s.main k := by
  refine hs.induct (P := fun s => s.permits k = pl.granted s.main k) ?_ fun s a s' hr h hstep => ?_
  · have hinit : ((system pl).init).permits k = 0 := by
      have hcons : (initial pl).consumers k = 0 := total_initial pl k _ rfl
      have hprod : (initial pl).producers k = 0 := by
        cases k with
        | zero => rfl
        | succ k => exact total_initial pl k _ rfl
      change 0 + (initial pl).producers k + 0 + (initial pl).consumers k = 0
      rw [hprod, hcons]
    rw [hinit]
    change 0 = if k < 0 then 2 * pl.workerCount k else 0
    rw [if_neg (Nat.not_lt_zero k)]
  · have hkeep := permits_step (controlInv_reachable hr) hstep hk
    omega

private theorem granted_le (pl : Pipeline) (m : Main) (k : ℕ) :
    pl.granted m k ≤ 2 * pl.workerCount k := by
  unfold Pipeline.granted
  split
  · split <;> omega
  · split <;> omega
  · exact Nat.le_refl _

/-- No channel ever holds more elements than twice the number of workers that pull from it. -/
theorem size_chan_le (hs : (system pl).Reachable s) {k : ℕ} (hk : k ≤ pl.stages) :
    (s.chan k).size ≤ 2 * pl.workerCount k := by
  have h := permits_eq hs hk
  have hle := granted_le pl s.main k
  unfold State.permits at h
  omega

end PipelineChannel

end TmcExamples
