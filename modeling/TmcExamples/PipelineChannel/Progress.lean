import TmcExamples.PipelineChannel.Permits

/-!
# The channel pipeline does not get stuck

A worker can wait for an element of its input channel and for a permit of its output
semaphore. In a stuck state no permit is in the hands of a party that could go on, so by
conservation the permits of a semaphore that has none left are all in its channel. Going up
from the end of the pipeline every channel is therefore empty (`chan_empty_of_stuck`): the
end stage waits for no permit, and a worker that waits for one would find the next channel
empty. With the channels empty no worker and no driver waits for a permit, and the close of
`in` goes through to the end (`enabled`).
-/

namespace TmcExamples

namespace PipelineChannel

open Finset

variable {pl : Pipeline} {s : State pl}

/-- All stages have been constructed. -/
def Main.Constructed : Main → Prop
  | .grant _ | .fork _ => False
  | _ => True

/-- Once constructed, every semaphore has been given all of its permits. -/
theorem granted_of_constructed {m : Main} (h : m.Constructed) (k : ℕ) :
    pl.granted m k = 2 * pl.workerCount k := by
  cases m <;> first | rfl | exact h.elim

private theorem forked_of_constructed {m : Main} (h : m.Constructed) (k : ℕ) : m.Forked k := by
  cases m <;> trivial

/-- A state of a run in which no party can take a step. -/
structure Stuck (s : State pl) : Prop where
  reachable : (system pl).Reachable s
  no_step : ∀ a s', ¬ Step s a s'

namespace Stuck

/-- The stages have been constructed, and the driver holds no permit. -/
theorem main (h : Stuck s) : s.main.Constructed ∧ s.main.acquired = 0 := by
  have hc := controlInv_reachable h.reachable
  cases hm : s.main with
  | grant k => exact (h.no_step _ _ (.grant hm)).elim
  | fork k =>
    rcases Nat.lt_or_eq_of_le (hc.stage_le k (Or.inr hm)) with hlt | rfl
    · exact (h.no_step _ _ (.fork hm hlt)).elim
    · exact (h.no_step _ _ (.forkEnd hm)).elim
  | post i =>
    have hi := List.getElem?_eq_getElem (hc.post_lt i hm)
    exact (h.no_step _ _ (.driverPost hm hi)).elim
  | drain => exact (h.no_step _ _ (.driverDrain hm)).elim
  | acquire i | drainWait | join | finished => exact ⟨trivial, rfl⟩

/-- A worker waits at `pull` for an empty open channel, or for a permit, or has returned. -/
theorem worker (h : Stuck s) {k w : ℕ} (hk : k ≤ pl.stages) (hw : w < pl.workerCount k) :
    (s.worker k w = .pull ∧ (s.chan k).front? = none ∧ (s.chan k).closed = false) ∨
      (∃ v, s.worker k w = .acquire v ∧ k < pl.stages ∧ s.sem (k + 1) = 0) ∨
      s.worker k w = .exited := by
  have hc := controlInv_reachable h.reachable
  cases hx : s.worker k w with
  | unstarted =>
    -- Its stage has been forked, so its closer can still spawn it.
    exfalso
    have hforked := fun j => forked_of_constructed h.main.1 j
    rcases Nat.lt_or_eq_of_le hk with hlt | rfl
    · have hns := (hc.worker k hlt w hw).mp hx
      cases hcl : s.closer k with
      | unstarted => exact (hc.closer k hlt).mp hcl (hforked k)
      | spawn => exact h.no_step _ _ (.spawn hlt hcl)
      | _ => exact hns (by rw [hcl]; trivial)
    · exact (hc.endWorker w hw).mp hx (hforked _)
  | pull =>
    cases hf : (s.chan k).front? with
    | some v => exact (h.no_step _ _ (.pull hk hw hx hf)).elim
    | none =>
      cases hcl : (s.chan k).closed with
      | true => exact (h.no_step _ _ (.pullEmpty hk hw hx hf hcl)).elim
      | false => exact Or.inl ⟨rfl, rfl, rfl⟩
  | release v => exact (h.no_step _ _ (.release hk hw hx)).elim
  | acquire v =>
    rcases Nat.lt_or_eq_of_le hk with hlt | rfl
    · refine Or.inr (Or.inl ⟨v, rfl, hlt, Nat.eq_zero_of_not_pos fun hpos => ?_⟩)
      exact h.no_step _ _ (.acquire hlt hw hx hpos)
    · -- The end stage acquires nothing.
      have hend := endPoint_reachable h.reachable w
      rw [hx] at hend
      exact hend.elim
  | call v =>
    rcases Nat.lt_or_eq_of_le hk with hlt | rfl
    · exact (h.no_step _ _ (.call hlt hw hx (pl.func k).kind.maySuspend_zero)).elim
    · exact (h.no_step _ _ (.endCall hw hx pl.consumeKind.maySuspend_zero)).elim
  | running v n =>
    cases n with
    | succ n => exact (h.no_step _ _ (.resume hk hw hx)).elim
    | zero =>
      rcases Nat.lt_or_eq_of_le hk with hlt | rfl
      · exact (h.no_step _ _ (.finish hlt hw hx)).elim
      · exact (h.no_step _ _ (.endFinish hw hx)).elim
  | post r =>
    rcases Nat.lt_or_eq_of_le hk with hlt | rfl
    · exact (h.no_step _ _ (.post hlt hw hx)).elim
    · have hend := endPoint_reachable h.reachable w
      rw [hx] at hend
      exact hend.elim
  | exited => exact Or.inr (Or.inr rfl)

/-- The workers hold no permits. -/
private theorem total_eq_zero (h : Stuck s) {k : ℕ} (hk : k ≤ pl.stages)
    {g : Worker (pl.Val k) (pl.Val (k + 1)) → ℕ} (hpull : g .pull = 0)
    (hacq : ∀ v, g (.acquire v) = 0) (hex : g .exited = 0) : s.total k g = 0 := by
  refine sum_eq_zero fun w hw => ?_
  rcases h.worker hk (mem_range.mp hw) with ⟨hx, -⟩ | ⟨v, hx, -⟩ | hx
  · rw [hx, hpull]
  · rw [hx, hacq]
  · rw [hx, hex]

/-- All permits of a semaphore are in its count or in its channel. -/
private theorem sem_add_size (h : Stuck s) {k : ℕ} (hk : k ≤ pl.stages) :
    s.sem k + (s.chan k).size = 2 * pl.workerCount k := by
  have hpermits := permits_eq h.reachable hk
  rw [granted_of_constructed h.main.1] at hpermits
  have hcons : s.consumers k = 0 := h.total_eq_zero hk rfl (fun _ => rfl) rfl
  have hprod : s.producers k = 0 := by
    cases k with
    | zero => exact h.main.2
    | succ k => exact h.total_eq_zero (Nat.le_of_succ_le hk) rfl (fun _ => rfl) rfl
  unfold State.permits at hpermits
  omega

/-- Every channel is empty. -/
private theorem chan_empty (h : Stuck s) {k : ℕ} (hk : k ≤ pl.stages) :
    (s.chan k).front? = none := by
  have hc := controlInv_reachable h.reachable
  -- By induction on the distance to the end stage, which waits for no permit.
  obtain ⟨d, hd⟩ := Nat.exists_eq_add_of_le hk
  induction d generalizing k with
  | zero =>
    rcases h.worker hk (pl.workerCount_pos k) with ⟨-, hf, -⟩ | ⟨v, -, hlt, -⟩ | hx
    · exact hf
    · omega
    · exact LogQueue.front?_eq_none_iff.mpr (hc.exited k hk 0 (pl.workerCount_pos k) hx).2
  | succ d ih =>
    rcases h.worker hk (pl.workerCount_pos k) with ⟨-, hf, -⟩ | ⟨v, -, hlt, hzero⟩ | hx
    · exact hf
    · have hnext := LogQueue.front?_eq_none_iff.mp (ih (k := k + 1) hlt (by omega))
      have hsem := h.sem_add_size (k := k + 1) hlt
      have hpos := pl.workerCount_pos (k + 1)
      unfold LogQueue.size at hsem
      omega
    · exact LogQueue.front?_eq_none_iff.mpr (hc.exited k hk 0 (pl.workerCount_pos k) hx).2

private theorem sem_eq (h : Stuck s) {k : ℕ} (hk : k ≤ pl.stages) :
    s.sem k = 2 * pl.workerCount k := by
  have hempty := LogQueue.front?_eq_none_iff.mp (h.chan_empty hk)
  have hsem := h.sem_add_size hk
  unfold LogQueue.size at hsem
  omega

/-- The workers of a stage whose input channel is closed have returned: no permit is missing. -/
private theorem workersExited (h : Stuck s) {k : ℕ} (hk : k ≤ pl.stages)
    (hclosed : (s.chan k).closed = true) : s.WorkersExited k := by
  intro w hw
  rcases h.worker hk hw with ⟨-, -, hopen⟩ | ⟨v, -, hlt, hzero⟩ | hx
  · rw [hclosed] at hopen
    cases hopen
  · have hsem := h.sem_eq (k := k + 1) hlt
    have hpos := pl.workerCount_pos (k + 1)
    omega
  · exact hx

private theorem closer_done (h : Stuck s) {k : ℕ} (hk : k < pl.stages) (hw : s.WorkersExited k) :
    s.closer k = .done := by
  cases hcl : s.closer k with
  | unstarted =>
    have hc := controlInv_reachable h.reachable
    exact ((hc.closer k hk).mp hcl (forked_of_constructed h.main.1 k)).elim
  | spawn => exact (h.no_step _ _ (.spawn hk hcl)).elim
  | join => exact (h.no_step _ _ (.join hk hcl hw)).elim
  | drain => exact (h.no_step _ _ (.drain hk hcl)).elim
  | drainWait => exact (h.no_step _ _ (.drainWait hk hcl (h.chan_empty hk))).elim
  | done => rfl

/-- Once `in` is closed, every channel is. -/
private theorem chan_closed (h : Stuck s) (h0 : (s.chan 0).closed = true) {k : ℕ}
    (hk : k ≤ pl.stages) : (s.chan k).closed = true := by
  have hc := controlInv_reachable h.reachable
  induction k with
  | zero => exact h0
  | succ k ih =>
    have hexited := h.workersExited (Nat.le_of_succ_le hk) (ih (Nat.le_of_succ_le hk))
    rw [hc.closed k hk, h.closer_done hk hexited]
    trivial

private theorem forkGroupDone (h : Stuck s) (h0 : (s.chan 0).closed = true) : s.ForkGroupDone := by
  refine ⟨fun k hk => h.closer_done hk ?_, ?_⟩
  · exact h.workersExited (Nat.le_of_lt hk) (h.chan_closed h0 (Nat.le_of_lt hk))
  · exact h.workersExited (Nat.le_refl _) (h.chan_closed h0 (Nat.le_refl _))

end Stuck

/-- **Progress.** Until the driver has finished some step is enabled. -/
theorem enabled (hs : (system pl).Reachable s) (hm : s.main ≠ .finished) :
    (system pl).Enabled s := by
  by_contra hn
  have h : Stuck s := ⟨hs, fun a s' hstep => hn ⟨a, s', hstep⟩⟩
  have hc := controlInv_reachable hs
  have hjoin : s.main = .join := by
    obtain ⟨hcons, hacq⟩ := h.main
    cases hmain : s.main with
    | grant | fork => rw [hmain] at hcons; exact hcons.elim
    | post => rw [hmain] at hacq; cases hacq
    | acquire i =>
      have hpos : 0 < s.sem 0 := by
        have := pl.workerCount_pos 0
        rw [h.sem_eq (Nat.zero_le _)]
        omega
      cases hi : pl.inputs[i]? with
      | none => exact (h.no_step _ _ (.driverLoopExit hmain hi)).elim
      | some v => exact (h.no_step _ _ (.driverAcquire hmain hi hpos)).elim
    | drain => exact (h.no_step _ _ (.driverDrain hmain)).elim
    | drainWait =>
      exact (h.no_step _ _ (.driverDrainWait hmain (h.chan_empty (Nat.zero_le _)))).elim
    | join => rfl
    | finished => exact (hm hmain).elim
  have h0 : (s.chan 0).closed = true := hc.mainClosed.mpr (by rw [hjoin]; trivial)
  exact h.no_step _ _ (.driverJoin hjoin (h.forkGroupDone h0))

end PipelineChannel

end TmcExamples
