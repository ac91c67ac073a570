import TmcExamples.PipelineChannel.Progress
import TmcExamples.PipelineChannel.Rank

/-!
# Backpressure and shutdown of the channel pipeline

`backpressure` reads the conservation of the permits in a constructed pipeline.
`deadlock_free_and_drained` puts progress and termination together and says what the final
state looks like: by then the workers hold no permit and the channels hold no element, so all
permits are back in the semaphores (`completed_of_finished`).
-/

namespace TmcExamples

namespace PipelineChannel

open Finset

variable {pl : Pipeline} {s : State pl}

/-- Every worker has returned, every channel is closed and empty, and every semaphore is back
at the capacity that the consumer stage has granted. -/
structure State.Completed (s : State pl) : Prop where
  forkGroup : s.ForkGroupDone
  workers : ∀ k ≤ pl.stages, s.WorkersExited k
  chan : ∀ k ≤ pl.stages, (s.chan k).closed = true ∧ (s.chan k).pending = []
  sem : ∀ k ≤ pl.stages, s.sem k = 2 * pl.workerCount k

/-- The state after the driver's last step. -/
private theorem completed_of_finished (hs : (system pl).Reachable s) (hm : s.main = .finished) :
    s.Completed := by
  have hc := controlInv_reachable hs
  have hd := hc.finished hm
  have hexited : ∀ k ≤ pl.stages, s.WorkersExited k := fun k hk => hc.workersExited_of_done hd hk
  have htotal : ∀ k ≤ pl.stages, ∀ g : Worker (pl.Val k) (pl.Val (k + 1)) → ℕ,
      g .exited = 0 → s.total k g = 0 := fun k hk g hg =>
    sum_eq_zero fun w hw => by rw [hexited k hk w (mem_range.mp hw), hg]
  refine ⟨hd, hexited, ?_, ?_⟩
  · intro k hk
    obtain ⟨hclosed, hhead⟩ := hc.drained_of_done hd hk
    exact ⟨hclosed, LogQueue.pending_eq_nil_iff.mpr hhead⟩
  · intro k hk
    have hpermits := permits_eq hs hk
    rw [granted_of_constructed (by rw [hm]; trivial)] at hpermits
    have hcons : s.consumers k = 0 := htotal k hk _ rfl
    have hprod : s.producers k = 0 := by
      cases k with
      | zero => rw [State.producers, hm]; rfl
      | succ k => exact htotal k (Nat.le_of_succ_le hk) _ rfl
    have hhead := (hc.drained_of_done hd hk).2
    unfold State.permits LogQueue.size at hpermits
    omega

/-- The program has a complete run. -/
theorem exists_finished (pl : Pipeline) :
    ∃ s, (system pl).Reachable s ∧ s.main = .finished ∧ s.ForkGroupDone := by
  obtain ⟨s, hr, hn⟩ := (terminating pl).exists_not_enabled
  have hf : s.main = .finished := by
    by_contra hne
    exact hn (enabled hr hne)
  exact ⟨s, hr, hf, (controlInv_reachable hr).finished hf⟩

/-- **Deadlock freedom and shutdown.** As long as the driver or the `fork_group` has not
completed some step is enabled, every run is finite, and where no step is enabled the driver
has finished and the pipeline is completed. -/
theorem deadlock_free_and_drained (pl : Pipeline) :
    (∀ s, (system pl).Reachable s → s.main ≠ .finished ∨ ¬ s.ForkGroupDone →
        (system pl).Enabled s) ∧
      (system pl).Terminating ∧
      ∀ s, (system pl).Reachable s → ¬ (system pl).Enabled s →
        s.main = .finished ∧ s.Completed := by
  refine ⟨fun s hr hopen => enabled hr ?_, terminating pl, fun s hr hn => ?_⟩
  · rintro hm
    rcases hopen with hne | hnd
    · exact hne hm
    · exact hnd ((controlInv_reachable hr).finished hm)
  · have hf : s.main = .finished := by
      by_contra hne
      exact hn (enabled hr hne)
    exact ⟨hf, completed_of_finished hr hf⟩

/-- **Backpressure.** Once all stages are constructed, the permits of a semaphore are in its
count, with the producers that have acquired one and not yet posted, with the elements of the
channel, and with the workers that have pulled an element and not yet released its permit, and
together they are twice the number of workers that pull from the channel. No channel ever
holds more elements than that. -/
theorem backpressure (hs : (system pl).Reachable s) :
    (s.main.Constructed → ∀ k ≤ pl.stages,
        s.sem k + s.producers k + (s.chan k).size + s.consumers k = 2 * pl.workerCount k) ∧
      ∀ k ≤ pl.stages, (s.chan k).size ≤ 2 * pl.workerCount k :=
  ⟨fun hm k hk => (permits_eq hs hk).trans (granted_of_constructed hm k),
    fun _ hk => size_chan_le hs hk⟩

/-- A pipeline of one stage with two workers that adds one to each of three inputs, and an end
stage with one worker. -/
def sample : Pipeline where
  Val := fun _ => ℕ
  stages := 1
  func := fun _ => ⟨.coroutine, fun (n : ℕ) => n + 1⟩
  workerCount := fun k => if k = 0 then 2 else 1
  workerCount_pos := fun k => by split <;> omega
  consumeKind := .regular
  inputs := ([5, 7, 9] : List ℕ)

/-- In the middle of a run of the sample pipeline: one value is in the output channel, and the other
worker of the stage has a permit for the next one, so that none is left in the semaphore. -/
theorem backpressure_sample :
    ∃ s : State sample, (system sample).Reachable s ∧
      (s.sem 1 = 0 ∧ s.producers 1 = 1 ∧ (s.chan 1).size = 1) ∧
      s.sem 1 + s.producers 1 + (s.chan 1).size + s.consumers 1 = 2 ∧ (s.chan 1).size ≤ 2 := by
  have hinit : (system sample).Reachable (initial sample) := .init
  have hconstruct := hinit.step (.grant rfl) |>.step (.fork rfl Nat.one_pos)
    |>.step (.grant rfl) |>.step (.forkEnd rfl) |>.step (.spawn Nat.one_pos rfl)
  have hdriver := hconstruct.step (.driverAcquire (i := 0) (v := (5 : ℕ)) rfl rfl (by decide))
    |>.step (.driverPost (v := (5 : ℕ)) rfl rfl)
    |>.step (.driverAcquire (i := 1) (v := (7 : ℕ)) rfl rfl (by decide))
    |>.step (.driverPost (v := (7 : ℕ)) rfl rfl)
  have hfirst := hdriver.step (.pull (w := 0) (v := (5 : ℕ)) (Nat.zero_le 1) Nat.two_pos rfl rfl)
    |>.step (.release (Nat.zero_le 1) Nat.two_pos rfl)
    |>.step (.acquire Nat.one_pos Nat.two_pos rfl (by decide))
    |>.step (.call (n := 0) Nat.one_pos Nat.two_pos rfl trivial)
    |>.step (.finish Nat.one_pos Nat.two_pos rfl)
    |>.step (.post Nat.one_pos Nat.two_pos rfl)
  have hsecond := hfirst.step (.pull (w := 1) (v := (7 : ℕ)) (Nat.zero_le 1) Nat.one_lt_two rfl rfl)
    |>.step (.release (Nat.zero_le 1) Nat.one_lt_two rfl)
    |>.step (.acquire Nat.one_pos Nat.one_lt_two rfl (by decide))
  obtain ⟨hpermits, hsize⟩ := backpressure hsecond
  exact ⟨_, hsecond, ⟨rfl, rfl, rfl⟩, hpermits trivial 1 le_rfl, hsize 1 le_rfl⟩

end PipelineChannel

end TmcExamples
