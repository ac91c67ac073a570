import TmcExamples.PipelineFifo.Shutdown

/-!
# The FIFO pipeline processes in order, and exactly once

With an end stage of parallelism `1` the calls of the consume function follow the values of
its queue, which follow the inputs (`Inv.values_prefix_compose`).
-/

namespace TmcExamples

namespace PipelineFifo

variable {pl : Pipeline} {s : State pl}

/-- **Order and exactly-once.** With an end stage of parallelism `1`, the values passed to
the consume function are at every moment a prefix of the images of the inputs under all
process functions, and exactly these images once the `fork_group` has completed. -/
theorem consumed_in_order (hend : pl.endStage = pipelineEndStage 1 Nat.one_pos)
    (hs : (system pl).Reachable s) :
    s.consumed <+: pl.inputs.map (pl.compose pl.stages) ∧
      (s.ForkGroupDone → s.consumed = pl.inputs.map (pl.compose pl.stages)) := by
  have h := inv_reachable hs
  have hi := h.ending.inline hend
  have hpre : s.consumed <+: pl.inputs.map (pl.compose pl.stages) :=
    hi.consumed.trans (h.values_prefix_compose (Nat.le_refl _))
  refine ⟨hpre, fun hd => hpre.eq_of_length ?_⟩
  have hlen := hi.length
  rw [hd.2] at hlen
  rw [hlen, (h.drained_of_done hd (Nat.le_refl _)).2, h.log_length_of_done hd (Nat.le_refl _),
    List.length_map]
  rfl

/-- A complete run of the sample pipeline consumes `6` and then `8`. -/
theorem consumed_in_order_sample :
    ∃ s : State (sample 1 Nat.one_pos), (system (sample 1 Nat.one_pos)).Reachable s ∧
      s.ForkGroupDone ∧ s.consumed = ([6, 8] : List ℕ) := by
  obtain ⟨s, hr, -, hd⟩ := exists_finished (sample 1 Nat.one_pos)
  exact ⟨s, hr, hd, (consumed_in_order rfl hr).2 hd⟩

end PipelineFifo

end TmcExamples
