import TmcExamples.PipelineChannel.Model

/-!
# Who has started, who has returned and what is closed

`ControlInv` is the part of the invariant that speaks of the life of the parties and not of
their data. The workers of a stage are started after its closer, and the closer after the
constructor; an output channel is closed exactly when the closer of its stage has joined the
workers of the stage and gone on to `drain()`; a worker returns only when its input channel
is closed and drained.

Most steps change no worker's `Phase` and close nothing, and `ControlInv.frame` covers all of
them; what is left are the steps of the driver and of the closers, and the return of a worker
(`controlInv_step`).
-/

namespace TmcExamples

namespace PipelineChannel

/-- The phases in the life of a worker. -/
inductive Phase
  | unstarted
  | active
  | exited
  deriving DecidableEq, Repr

namespace Worker

variable {α β : Type}

/-- The phase a worker is in. -/
def phase : Worker α β → Phase
  | .unstarted => .unstarted
  | .exited => .exited
  | _ => .active

private theorem phase_eq_unstarted {x : Worker α β} : x.phase = .unstarted ↔ x = .unstarted := by
  cases x <;> simp [phase]

private theorem phase_eq_exited {x : Worker α β} : x.phase = .exited ↔ x = .exited := by
  cases x <;> simp [phase]

end Worker

namespace Main

/-- The constructor of stage `k` has forked into the `fork_group`. -/
def Forked (k : ℕ) : Main → Prop
  | .grant j | .fork j => k < j
  | _ => True

/-- The driver has closed `in`. -/
def Closed : Main → Prop
  | .drainWait | .join | .finished => True
  | _ => False

end Main

namespace Closer

/-- The closer has joined the workers of its stage. -/
def Joined : Closer → Prop
  | .drain | .drainWait | .done => True
  | _ => False

/-- The closer has closed the output channel of its stage. -/
def Closed : Closer → Prop
  | .drainWait | .done => True
  | _ => False

/-- The closer has started the workers of its stage. -/
def Spawned : Closer → Prop
  | .unstarted | .spawn => False
  | _ => True

end Closer

variable {pl : Pipeline} {s s' : State pl}

/-! ### Updates of the state -/

section Update

variable (s : State pl) {k j w v : ℕ} (q : LogQueue (pl.Val j)) (c : Closer)
  (x : Worker (pl.Val j) (pl.Val (j + 1)))

@[simp] theorem setChan_self : (s.setChan j q).chan j = q := Function.update_self ..

@[simp] theorem setChan_of_ne (h : k ≠ j) : (s.setChan j q).chan k = s.chan k :=
  Function.update_of_ne h ..

@[simp] theorem setWorker_self : (s.setWorker j w x).worker j w = x := by
  simp only [State.setWorker, Function.update_self]

/-- A worker of one stage is none of another's. -/
theorem setWorker_of_ne_stage (h : k ≠ j) : (s.setWorker j w x).worker k = s.worker k :=
  Function.update_of_ne h ..

theorem setWorker_of_ne (h : v ≠ w) : (s.setWorker j w x).worker j v = s.worker j v := by
  simp only [State.setWorker, Function.update_self, Function.update_of_ne h]

@[simp] theorem startWorkers_self : (s.startWorkers j).worker j = fun _ => .pull :=
  Function.update_self ..

@[simp] theorem startWorkers_of_ne (h : k ≠ j) : (s.startWorkers j).worker k = s.worker k :=
  Function.update_of_ne h ..

@[simp] theorem setCloser_self : (s.setCloser j c).closer j = c := Function.update_self ..

@[simp] theorem setCloser_of_ne (h : k ≠ j) : (s.setCloser j c).closer k = s.closer k :=
  Function.update_of_ne h ..

@[simp] theorem setChan_main : (s.setChan j q).main = s.main := rfl
@[simp] theorem setSem_main (n : ℕ) : (s.setSem j n).main = s.main := rfl
@[simp] theorem setWorker_main : (s.setWorker j w x).main = s.main := rfl
@[simp] theorem startWorkers_main : (s.startWorkers j).main = s.main := rfl
@[simp] theorem setCloser_main : (s.setCloser j c).main = s.main := rfl
@[simp] theorem setChan_worker : (s.setChan j q).worker = s.worker := rfl
@[simp] theorem setSem_worker (n : ℕ) : (s.setSem j n).worker = s.worker := rfl

/-- A worker that moves within its phase leaves all phases as they are. -/
private theorem phase_setWorker (h : x.phase = (s.worker j w).phase) (k v : ℕ) :
    ((s.setWorker j w x).worker k v).phase = (s.worker k v).phase := by
  by_cases hk : k = j
  · subst hk
    by_cases hv : v = w
    · rw [hv, setWorker_self, h]
    · rw [setWorker_of_ne _ _ hv]
  · rw [setWorker_of_ne_stage _ _ hk]

/-- A view of the channels that the new channel does not change is the same after it. -/
theorem setChan_congr {β : ℕ → Type*} (g : ∀ k, LogQueue (pl.Val k) → β k)
    (h : g j q = g j (s.chan j)) (k : ℕ) : g k ((s.setChan j q).chan k) = g k (s.chan k) := by
  by_cases hk : k = j
  · subst hk
    rw [setChan_self, h]
  · rw [setChan_of_ne _ _ hk]

private theorem drained_setChan (h : (s.chan j).Drained → q.Drained) (k : ℕ)
    (hk : (s.chan k).Drained) : ((s.setChan j q).chan k).Drained := by
  by_cases hkj : k = j
  · subst hkj
    rw [setChan_self]
    exact h hk
  · rw [setChan_of_ne _ _ hkj]
    exact hk

end Update

/-! ### The invariant -/

/-- The invariant of the life of the parties. -/
structure ControlInv (s : State pl) : Prop where
  stage_le : ∀ k, s.main = .grant k ∨ s.main = .fork k → k ≤ pl.stages
  post_lt : ∀ i, s.main = .post i → i < pl.inputs.length
  closer : ∀ k < pl.stages, s.closer k = .unstarted ↔ ¬ s.main.Forked k
  worker : ∀ k < pl.stages, ∀ w < pl.workerCount k,
    s.worker k w = .unstarted ↔ ¬ (s.closer k).Spawned
  endWorker : ∀ w < pl.workerCount pl.stages,
    s.worker pl.stages w = .unstarted ↔ ¬ s.main.Forked pl.stages
  joined : ∀ k < pl.stages, (s.closer k).Joined → s.WorkersExited k
  closed : ∀ k < pl.stages, (s.chan (k + 1)).closed = true ↔ (s.closer k).Closed
  exited : ∀ k ≤ pl.stages, ∀ w < pl.workerCount k,
    s.worker k w = .exited → (s.chan k).Drained
  mainClosed : (s.chan 0).closed = true ↔ s.main.Closed
  finished : s.main = .finished → s.ForkGroupDone

namespace ControlInv

/-- Before the first step nothing has been forked. -/
theorem initial (pl : Pipeline) : ControlInv (initial pl) where
  stage_le k h := by
    have hk : k = 0 := by simpa [PipelineChannel.initial, eq_comm] using h
    omega
  post_lt _ := nofun
  closer k _ := ⟨fun _ h => absurd h (Nat.not_lt_zero k), fun _ => rfl⟩
  worker _ _ _ _ := ⟨fun _ h => h, fun _ => rfl⟩
  endWorker _ _ := ⟨fun _ h => absurd h (Nat.not_lt_zero _), fun _ => rfl⟩
  joined _ _ h := h.elim
  closed _ _ := ⟨nofun, fun h => h.elim⟩
  exited _ _ _ _ := nofun
  mainClosed := ⟨nofun, fun h => h.elim⟩
  finished := nofun

/-- A step that moves no party to another phase and closes no channel. -/
theorem frame (h : ControlInv s) (hmain : s'.main = s.main) (hcloser : s'.closer = s.closer)
    (hphase : ∀ k w, (s'.worker k w).phase = (s.worker k w).phase)
    (hclosed : ∀ k, (s'.chan k).closed = (s.chan k).closed)
    (hdrained : ∀ k, (s.chan k).Drained → (s'.chan k).Drained) : ControlInv s' := by
  have hun : ∀ k w, s'.worker k w = .unstarted ↔ s.worker k w = .unstarted := by
    intro k w
    rw [← Worker.phase_eq_unstarted, hphase, Worker.phase_eq_unstarted]
  have hex : ∀ k w, s'.worker k w = .exited ↔ s.worker k w = .exited := by
    intro k w
    rw [← Worker.phase_eq_exited, hphase, Worker.phase_eq_exited]
  refine ⟨?_, ?_, ?_, ?_, ?_, ?_, ?_, ?_, ?_, ?_⟩
  · rw [hmain]
    exact h.stage_le
  · rw [hmain]
    exact h.post_lt
  · rw [hmain, hcloser]
    exact h.closer
  · intro k hk w hw
    rw [hun, hcloser]
    exact h.worker k hk w hw
  · intro w hw
    rw [hun, hmain]
    exact h.endWorker w hw
  · intro k hk hj w hw
    rw [hcloser] at hj
    exact (hex k w).mpr (h.joined k hk hj w hw)
  · intro k hk
    rw [hclosed, hcloser]
    exact h.closed k hk
  · intro k hk w hw hx
    exact hdrained k (h.exited k hk w hw ((hex k w).mp hx))
  · rw [hclosed, hmain]
    exact h.mainClosed
  · intro hf
    rw [hmain] at hf
    obtain ⟨hd, he⟩ := h.finished hf
    exact ⟨hcloser ▸ hd, fun w hw => (hex _ w).mpr (he w hw)⟩

/-- A move of the driver that forks nothing and closes nothing. -/
private theorem main_step (h : ControlInv s) {m m' : Main} (hm : s.main = m)
    (hle : ∀ k, m' = .grant k ∨ m' = .fork k → k ≤ pl.stages)
    (hforked : ∀ k, m'.Forked k ↔ m.Forked k) (hclosed : m'.Closed ↔ m.Closed)
    (hpost : ∀ i, m' = .post i → i < pl.inputs.length)
    (hfin : m' = .finished → s.ForkGroupDone) : ControlInv { s with main := m' } := by
  subst hm
  exact ⟨hle, hpost, fun k hk => (h.closer k hk).trans (not_congr (hforked k).symm), h.worker,
    fun w hw => (h.endWorker w hw).trans (not_congr (hforked _).symm), h.joined, h.closed,
    h.exited, by rw [h.mainClosed, hclosed], hfin⟩

/-- A move of a closer that starts nothing. The channel that it closes is as closed as its program
point says. -/
private theorem closer_chan_step (h : ControlInv s) {j : ℕ} {c : Closer}
    {q : LogQueue (pl.Val (j + 1))}
    (hj : j < pl.stages) (hspawned : (s.closer j).Spawned) (hfin : s.closer j ≠ .done)
    (hc : c.Spawned) (hjoined : c.Joined → s.WorkersExited j)
    (hclosed : q.closed = true ↔ c.Closed) (hdrained : (s.chan (j + 1)).Drained → q.Drained) :
    ControlInv ((s.setChan (j + 1) q).setCloser j c) := by
  have hun : ∀ c : Closer, c.Spawned → c ≠ .unstarted := by
    rintro c hc rfl
    exact hc
  have hmain : ((s.setChan (j + 1) q).chan 0).closed = true ↔ s.main.Closed := by
    rw [setChan_of_ne _ _ (Nat.succ_ne_zero j).symm]
    exact h.mainClosed
  refine ⟨h.stage_le, h.post_lt, fun k hk => ?_, fun k hk w hw => ?_, h.endWorker,
    fun k hk hkj => ?_, fun k hk => ?_,
    fun k hk w hw hx => drained_setChan s q hdrained k (h.exited k hk w hw hx), hmain,
    fun hf => (hfin ((h.finished hf).1 j hj)).elim⟩
  -- Each of the four goals is about the closer of one stage: the one that moves, or another.
  all_goals by_cases hkj' : k = j
  · subst hkj'
    rw [setCloser_self, iff_false_left (hun c hc), not_not]
    exact not_not.mp fun hn => hun _ hspawned ((h.closer k hk).mpr hn)
  · rw [setCloser_of_ne _ _ hkj']
    exact h.closer k hk
  · subst hkj'
    rw [setCloser_self, iff_false_right (not_not.mpr hc)]
    exact fun hw' => (h.worker k hk w hw).mp hw' hspawned
  · rw [setCloser_of_ne _ _ hkj']
    exact h.worker k hk w hw
  · subst hkj'
    rw [setCloser_self] at hkj
    exact hjoined hkj
  · rw [setCloser_of_ne _ _ hkj'] at hkj
    exact h.joined k hk hkj
  · subst hkj'
    change ((s.setChan (k + 1) q).chan (k + 1)).closed = true ↔ _
    rw [setChan_self, setCloser_self]
    exact hclosed
  · change ((s.setChan (j + 1) q).chan (k + 1)).closed = true ↔ _
    rw [setChan_of_ne _ _ (by omega), setCloser_of_ne _ _ hkj']
    exact h.closed k hk

/-- A move of a closer that starts nothing and closes nothing. -/
private theorem closer_step (h : ControlInv s) {j : ℕ} {c c' : Closer} (hj : j < pl.stages)
    (hc : s.closer j = c) (hspawned : c.Spawned) (hspawned' : c'.Spawned)
    (hjoined : c'.Joined → s.WorkersExited j) (hclosed : c.Closed ↔ c'.Closed)
    (hfin : c ≠ .done) : ControlInv (s.setCloser j c') := by
  subst hc
  have hsame : s.setChan (j + 1) (s.chan (j + 1)) = s := by
    rw [State.setChan, Function.update_eq_self]
  have hstep := h.closer_chan_step (q := s.chan (j + 1)) hj hspawned hfin hspawned' hjoined
    ((h.closed j hj).trans hclosed) id
  rwa [hsame] at hstep

/-! ### The steps that start, close or return -/

/-- The driver forks the closer of a stage, which will spawn its workers. -/
theorem fork (h : ControlInv s) {j : ℕ} (hm : s.main = .fork j) (hj : j < pl.stages) :
    ControlInv { s.setCloser j .spawn with main := .grant (j + 1) } := by
  have hforked : ∀ k, s.main.Forked k ↔ k < j := by
    intro k
    rw [hm]
    exact Iff.rfl
  -- The closer of stage `j` is not started yet, since the driver has not forked it.
  have hnew : s.closer j = .unstarted := (h.closer j hj).mpr fun hf =>
    absurd ((hforked j).mp hf) (Nat.lt_irrefl j)
  refine ⟨?_, nofun, ?_, ?_, ?_, ?_, ?_, h.exited, ?_, nofun⟩
  · intro k hk
    obtain rfl : j + 1 = k := by simpa using hk
    exact hj
  · intro k hk
    change (s.setCloser j .spawn).closer k = .unstarted ↔ ¬ k < j + 1
    by_cases hkj : k = j
    · subst hkj
      rw [setCloser_self]
      simp
    · rw [setCloser_of_ne _ _ hkj, h.closer k hk, hforked]
      omega
  · intro k hk w hw
    change s.worker k w = .unstarted ↔ ¬ ((s.setCloser j .spawn).closer k).Spawned
    by_cases hkj : k = j
    · subst hkj
      rw [setCloser_self, h.worker k hk w hw, hnew]
      rfl
    · rw [setCloser_of_ne _ _ hkj]
      exact h.worker k hk w hw
  · intro w hw
    rw [← show ¬ s.main.Forked pl.stages ↔ ¬ (Main.grant (j + 1)).Forked pl.stages by
      rw [hforked]; change ¬ pl.stages < j ↔ ¬ pl.stages < j + 1; omega]
    exact h.endWorker w hw
  · intro k hk hkj
    change ((s.setCloser j .spawn).closer k).Joined at hkj
    by_cases hkj' : k = j
    · subst hkj'
      rw [setCloser_self] at hkj
      exact hkj.elim
    · rw [setCloser_of_ne _ _ hkj'] at hkj
      exact h.joined k hk hkj
  · intro k hk
    change (s.chan (k + 1)).closed = true ↔ ((s.setCloser j .spawn).closer k).Closed
    by_cases hkj : k = j
    · subst hkj
      rw [setCloser_self, h.closed k hk, hnew]
      rfl
    · rw [setCloser_of_ne _ _ hkj]
      exact h.closed k hk
  · exact h.mainClosed.trans (by rw [hm]; exact Iff.rfl)

/-- The workers of the end stage are forked by the driver itself. -/
theorem forkEnd (h : ControlInv s) (hm : s.main = .fork pl.stages) :
    ControlInv { s.startWorkers pl.stages with main := .acquire 0 } := by
  have hne : ∀ k, k < pl.stages → k ≠ pl.stages := fun k hk => Nat.ne_of_lt hk
  refine ⟨by simp, nofun, ?_, ?_, ?_, ?_, h.closed, ?_, ?_, nofun⟩
  · intro k hk
    refine (h.closer k hk).trans (not_congr ?_)
    rw [hm]
    exact iff_of_true hk trivial
  · intro k hk w hw
    change (s.startWorkers pl.stages).worker k w = _ ↔ _
    rw [startWorkers_of_ne _ (hne k hk)]
    exact h.worker k hk w hw
  · intro w hw
    change (s.startWorkers pl.stages).worker pl.stages w = _ ↔ _
    rw [startWorkers_self]
    exact iff_of_false nofun (not_not.mpr trivial)
  · intro k hk hkj w hw
    change (s.startWorkers pl.stages).worker k w = _
    rw [startWorkers_of_ne _ (hne k hk)]
    exact h.joined k hk hkj w hw
  · intro k hk w hw hx
    change (s.startWorkers pl.stages).worker k w = _ at hx
    by_cases hks : k = pl.stages
    · subst hks
      rw [startWorkers_self] at hx
      cases hx
    · rw [startWorkers_of_ne _ hks] at hx
      exact h.exited k hk w hw hx
  · exact h.mainClosed.trans (by rw [hm]; exact Iff.rfl)

/-- The driver closes the first channel behind its last post. -/
theorem driverDrain (h : ControlInv s) (hm : s.main = .drain) :
    ControlInv { s.setChan 0 (s.chan 0).close with main := .drainWait } := by
  have hforked : ∀ k, s.main.Forked k ↔ True := by
    intro k
    rw [hm]
    exact Iff.rfl
  refine ⟨by simp, nofun, fun k hk => (h.closer k hk).trans (not_congr (hforked k)), h.worker,
    fun w hw => (h.endWorker w hw).trans (not_congr (hforked _)), h.joined, ?_, ?_, ?_, nofun⟩
  · intro k hk
    change ((s.setChan 0 (s.chan 0).close).chan (k + 1)).closed = true ↔ _
    rw [setChan_of_ne _ _ (Nat.succ_ne_zero k)]
    exact h.closed k hk
  · intro k hk w hw hx
    exact drained_setChan s _ LogQueue.Drained.close k (h.exited k hk w hw hx)
  · change ((s.setChan 0 (s.chan 0).close).chan 0).closed = true ↔ _
    rw [setChan_self]
    exact iff_of_true rfl trivial

/-- A closer spawns the workers of its stage. -/
theorem spawn (h : ControlInv s) {j : ℕ} (hj : j < pl.stages) (hc : s.closer j = .spawn) :
    ControlInv ((s.startWorkers j).setCloser j .join) := by
  have hne : ∀ {k}, k ≠ j → ((s.startWorkers j).setCloser j .join).worker k = s.worker k :=
    fun hk => startWorkers_of_ne s hk
  have hself : ((s.startWorkers j).setCloser j .join).worker j = fun _ => .pull :=
    startWorkers_self s
  have hclosed : ∀ k, k ≠ j → ((s.startWorkers j).setCloser j .join).closer k = s.closer k := by
    intro k hk
    exact setCloser_of_ne _ _ hk
  refine ⟨h.stage_le, h.post_lt, ?_, ?_, ?_, ?_, ?_, ?_, h.mainClosed, ?_⟩
  · intro k hk
    by_cases hkj : k = j
    · subst hkj
      rw [setCloser_self, iff_false_left nofun]
      exact fun hn => absurd ((h.closer k hk).mpr hn) (by simp [hc])
    · rw [hclosed k hkj]
      exact h.closer k hk
  · intro k hk w hw
    by_cases hkj : k = j
    · subst hkj
      rw [hself, setCloser_self]
      exact iff_of_false nofun (not_not.mpr trivial)
    · rw [hne hkj, hclosed k hkj]
      exact h.worker k hk w hw
  · intro w hw
    rw [hne (Nat.ne_of_gt hj)]
    exact h.endWorker w hw
  · intro k hk hkj w hw
    by_cases hkj' : k = j
    · subst hkj'
      rw [setCloser_self] at hkj
      exact hkj.elim
    · rw [hclosed k hkj'] at hkj
      rw [hne hkj']
      exact h.joined k hk hkj w hw
  · intro k hk
    by_cases hkj : k = j
    · subst hkj
      rw [setCloser_self]
      exact (h.closed k hk).trans (by rw [hc]; exact Iff.rfl)
    · rw [hclosed k hkj]
      exact h.closed k hk
  · intro k hk w hw hx
    by_cases hkj : k = j
    · subst hkj
      rw [hself] at hx
      cases hx
    · rw [hne hkj] at hx
      exact h.exited k hk w hw hx
  · intro hf
    have hdone := (h.finished hf).1 j hj
    rw [hc] at hdone
    cases hdone

/-- A closer closes the channel behind its stage once its workers have exited. -/
theorem drain (h : ControlInv s) {j : ℕ} (hj : j < pl.stages) (hc : s.closer j = .drain) :
    ControlInv ((s.setChan (j + 1) (s.chan (j + 1)).close).setCloser j .drainWait) := by
  refine h.closer_chan_step hj ?_ ?_ trivial (fun _ => h.joined j hj ?_) (iff_of_true rfl trivial)
    LogQueue.Drained.close
  · rw [hc]
    trivial
  · rw [hc]
    nofun
  · rw [hc]
    trivial

/-- A worker exits when its channel is drained. -/
theorem pullEmpty (h : ControlInv s) {j v : ℕ} (hx : s.worker j v = .pull)
    (hd : (s.chan j).Drained) : ControlInv (s.setWorker j v .exited) := by
  have hun : ∀ k w, (s.setWorker j v .exited).worker k w = .unstarted ↔
      s.worker k w = .unstarted := by
    intro k w
    by_cases hk : k = j
    · subst hk
      by_cases hw : w = v
      · rw [hw, setWorker_self, hx]
        simp
      · rw [setWorker_of_ne _ _ hw]
    · rw [setWorker_of_ne_stage _ _ hk]
  have hex : ∀ k w, s.worker k w = .exited → (s.setWorker j v .exited).worker k w = .exited := by
    intro k w hkw
    by_cases hk : k = j
    · subst hk
      by_cases hw : w = v
      · rw [hw, setWorker_self]
      · rw [setWorker_of_ne _ _ hw, hkw]
    · rw [setWorker_of_ne_stage _ _ hk, hkw]
  refine ⟨h.stage_le, h.post_lt, h.closer, fun k hk w hw => (hun k w).trans (h.worker k hk w hw),
    fun w hw => (hun _ w).trans (h.endWorker w hw),
    fun k hk hj w hw => hex k w (h.joined k hk hj w hw), h.closed, ?_, h.mainClosed, ?_⟩
  · intro k hk w hw hkw
    by_cases hkj : k = j
    · subst hkj
      exact hd
    · rw [setWorker_of_ne_stage _ _ hkj] at hkw
      exact h.exited k hk w hw hkw
  · intro hf
    obtain ⟨hdone, hexited⟩ := h.finished hf
    exact ⟨hdone, fun w hw => hex _ w (hexited w hw)⟩

/-- A move of a worker within its phase, with no effect on the channels. -/
private theorem worker_step (h : ControlInv s) {j v : ℕ} {x : Worker (pl.Val j) (pl.Val (j + 1))}
    (hx : x.phase = (s.worker j v).phase) : ControlInv (s.setWorker j v x) :=
  h.frame rfl rfl (phase_setWorker s x hx) (fun _ => rfl) fun _ hd => hd

/-- A change of the elements of a channel. -/
private theorem chan_step (h : ControlInv s) {j : ℕ} {q : LogQueue (pl.Val j)}
    (hclosed : q.closed = (s.chan j).closed) (hdrained : (s.chan j).Drained → q.Drained) :
    ControlInv (s.setChan j q) :=
  h.frame rfl rfl (fun _ _ => rfl) (setChan_congr s q (fun _ q => q.closed) hclosed)
    (drained_setChan s q hdrained)

/-- A change of the count of a semaphore. -/
private theorem sem_step (h : ControlInv s) (k n : ℕ) : ControlInv (s.setSem k n) :=
  h.frame rfl rfl (fun _ _ => rfl) (fun _ => rfl) fun _ hd => hd

end ControlInv

private theorem phase_afterRelease (k : ℕ) (v : pl.Val k) :
    (pl.afterRelease k v).phase = .active := by
  unfold Pipeline.afterRelease
  split <;> rfl

/-- Every step keeps the invariant of the life of the parties. -/
theorem controlInv_step {a : Action} (h : ControlInv s) (hs : Step s a s') : ControlInv s' := by
  cases hs with
  | grant hm =>
    refine (h.sem_step _ _).main_step hm (fun j hj => ?_) (fun _ => Iff.rfl) Iff.rfl nofun nofun
    obtain rfl := Main.fork.inj (hj.resolve_left nofun)
    exact h.stage_le _ (Or.inl hm)
  | fork hm hk => exact h.fork hm hk
  | forkEnd hm => exact h.forkEnd hm
  | driverAcquire hm hi =>
    refine (h.sem_step _ _).main_step hm (by simp) (fun _ => Iff.rfl) Iff.rfl (fun j hj => ?_) nofun
    obtain rfl := Main.post.inj hj
    exact (List.getElem?_eq_some_iff.mp hi).1
  | driverPost hm =>
    exact (h.chan_step (LogQueue.post_closed _ _) fun hd => hd.post _).main_step hm (by simp)
      (fun _ => Iff.rfl) Iff.rfl nofun nofun
  | driverLoopExit hm => exact h.main_step hm (by simp) (fun _ => Iff.rfl) Iff.rfl nofun nofun
  | driverDrain hm => exact h.driverDrain hm
  | driverDrainWait hm => exact h.main_step hm (by simp) (fun _ => Iff.rfl) Iff.rfl nofun nofun
  | driverJoin hm hd => exact h.main_step hm (by simp) (fun _ => Iff.rfl) Iff.rfl nofun fun _ => hd
  | spawn hk hc => exact h.spawn hk hc
  | join hk hc hw => exact h.closer_step hk hc trivial trivial (fun _ => hw) Iff.rfl nofun
  | drain hk hc => exact h.drain hk hc
  | drainWait hk hc =>
    refine h.closer_step hk hc trivial trivial (fun _ => h.joined _ hk ?_) Iff.rfl nofun
    rw [hc]
    trivial
  | pull _ _ hx =>
    refine (h.chan_step (LogQueue.pop_closed _) LogQueue.Drained.pop).worker_step ?_
    exact (congrArg Worker.phase hx).symm
  | pullEmpty _ _ hx he hc => exact h.pullEmpty hx ⟨hc, LogQueue.front?_eq_none_iff.mp he⟩
  | release _ _ hx =>
    refine (h.sem_step _ _).worker_step ((phase_afterRelease _ _).trans ?_)
    exact (congrArg Worker.phase hx).symm
  | acquire _ _ hx => exact (h.sem_step _ _).worker_step (congrArg Worker.phase hx).symm
  | resume _ _ hx | call _ _ hx | finish _ _ hx =>
    exact h.worker_step (congrArg Worker.phase hx).symm
  | endFinish _ hx => exact h.worker_step (congrArg Worker.phase hx).symm
  | post _ _ hx =>
    refine (h.chan_step (LogQueue.post_closed _ _) fun hd => hd.post _).worker_step ?_
    exact (congrArg Worker.phase hx).symm
  | endCall _ hx =>
    exact h.frame rfl rfl (phase_setWorker s _ (congrArg Worker.phase hx).symm) (fun _ => rfl)
      fun _ hd => hd

theorem controlInv_reachable (hs : (system pl).Reachable s) : ControlInv s :=
  hs.induct (P := ControlInv) (.initial pl) fun _ _ _ _ h hstep => controlInv_step h hstep

/-! ### The program points of the end stage -/

/-- A program point of `pipeline_end_stage::worker`. -/
def Worker.EndPoint {α β : Type} : Worker α β → Prop
  | .acquire _ | .post _ => False
  | _ => True

private theorem endPoint_setWorker (h : ∀ w, (s.worker pl.stages w).EndPoint) {j v : ℕ}
    {x : Worker (pl.Val j) (pl.Val (j + 1))} (hx : j = pl.stages → x.EndPoint) (w : ℕ) :
    ((s.setWorker j v x).worker pl.stages w).EndPoint := by
  by_cases hj : j = pl.stages
  · subst hj
    by_cases hw : w = v
    · rw [hw, setWorker_self]
      exact hx rfl
    · rw [setWorker_of_ne _ _ hw]
      exact h w
  · rw [setWorker_of_ne_stage _ _ (Ne.symm hj)]
    exact h w

private theorem endPoint_startWorkers (h : ∀ w, (s.worker pl.stages w).EndPoint) (j w : ℕ) :
    ((s.startWorkers j).worker pl.stages w).EndPoint := by
  by_cases hj : pl.stages = j
  · subst hj
    rw [startWorkers_self]
    trivial
  · rw [startWorkers_of_ne _ hj]
    exact h w

/-- A worker of the end stage waits for no permit and posts nothing. -/
theorem endPoint_reachable (hs : (system pl).Reachable s) (w : ℕ) :
    (s.worker pl.stages w).EndPoint := by
  refine hs.induct (P := fun s => ∀ w, (s.worker pl.stages w).EndPoint) (fun _ => trivial)
    (fun s a s' _ h hstep => ?_) w
  cases hstep with
  | forkEnd => exact endPoint_startWorkers h _
  | spawn => exact endPoint_startWorkers h _
  | pull | pullEmpty | resume | endCall | endFinish | post =>
    exact endPoint_setWorker h fun _ => trivial
  | release =>
    refine endPoint_setWorker h fun hk => ?_
    rw [Pipeline.afterRelease, if_neg (by omega)]
    trivial
  | acquire hk | call hk | finish hk =>
    exact endPoint_setWorker h fun hks => absurd hk (by omega)
  | _ => exact h

/-! ### Consequences -/

namespace ControlInv

/-- The driver is about to start the workers of the end stage. -/
theorem unstarted_of_fork (h : ControlInv s) (hm : s.main = .fork pl.stages) :
    ∀ w < pl.workerCount pl.stages, s.worker pl.stages w = .unstarted := by
  intro w hw
  refine (h.endWorker w hw).mpr ?_
  rw [hm]
  exact Nat.lt_irrefl _

/-- The closer of a stage is about to start the workers of the stage. -/
theorem unstarted_of_spawn (h : ControlInv s) {j : ℕ} (hj : j < pl.stages)
    (hc : s.closer j = .spawn) : ∀ w < pl.workerCount j, s.worker j w = .unstarted := by
  intro w hw
  refine (h.worker j hj w hw).mpr ?_
  rw [hc]
  exact not_false

/-- While a worker of a stage has not returned, the output channel of the stage is open. -/
theorem chan_open (h : ControlInv s) {k w : ℕ} (hk : k < pl.stages) (hw : w < pl.workerCount k)
    (hx : s.worker k w ≠ .exited) : (s.chan (k + 1)).closed = false := by
  rw [Bool.eq_false_iff, ne_eq, h.closed k hk]
  intro hc
  refine hx (h.joined k hk ?_ w hw)
  cases hcl : s.closer k <;> rw [hcl] at hc <;> trivial

/-- While the driver posts, `in` is open. -/
theorem chan_zero_open (h : ControlInv s) {i : ℕ} (hm : s.main = .post i) :
    (s.chan 0).closed = false := by
  rw [Bool.eq_false_iff, ne_eq, h.mainClosed, hm]
  exact not_false

/-- When the `fork_group` has completed, every worker has returned. -/
theorem workersExited_of_done (h : ControlInv s) (hd : s.ForkGroupDone) {k : ℕ}
    (hk : k ≤ pl.stages) : s.WorkersExited k := by
  rcases Nat.lt_or_eq_of_le hk with hlt | rfl
  · exact h.joined k hlt (by rw [hd.1 k hlt]; trivial)
  · exact hd.2

/-- When the `fork_group` has completed, every channel is closed and drained: a worker that
pulls from it has returned. -/
theorem drained_of_done (h : ControlInv s) (hd : s.ForkGroupDone) {k : ℕ} (hk : k ≤ pl.stages) :
    (s.chan k).Drained :=
  h.exited k hk 0 (pl.workerCount_pos k)
    (h.workersExited_of_done hd hk 0 (pl.workerCount_pos k))

end ControlInv

end PipelineChannel

end TmcExamples
