import TmcExamples.PipelineFifo.Invariant

/-!
# What has gone through the queues

The tasks of one stage may finish in any order, but the next stage awaits their handles in
the order of its queue. So the values of queue `k` are at every moment a prefix of the images
of the inputs under the first `k` process functions (`Inv.values_prefix_compose`), and they
are all of these images when the `fork_group` has completed (`Inv.values_of_done`).
-/

namespace TmcExamples

namespace PipelineFifo

variable {pl : Pipeline} {s : State pl}

namespace Inv

/-- The values of queue `k` are the images of the first inputs, in their order. -/
theorem values_prefix_compose (h : Inv s) {k : ℕ} (hk : k ≤ pl.stages) :
    pl.values (s.queue k) <+: pl.inputs.map (pl.compose k) := by
  induction k with
  | zero =>
    rw [h.main.values]
    have hid : pl.compose 0 = id := rfl
    rw [hid, List.map_id]
    exact List.take_prefix _ _
  | succ k ih =>
    have hcomp : pl.inputs.map (pl.compose (k + 1)) =
        (pl.inputs.map (pl.compose k)).map (pl.func k).result := by
      rw [List.map_map]
      rfl
    rw [hcomp]
    exact (h.stage k hk).values.trans ((ih (by omega)).map _)

/-- No stage pushes more elements than there are inputs. -/
theorem log_length_le (h : Inv s) {k : ℕ} (hk : k ≤ pl.stages) :
    (s.queue k).log.length ≤ pl.inputs.length := by
  simpa using (h.values_prefix_compose hk).length_le

/-- The party that pulls from queue `k` has left its loop when the `fork_group` has
completed, so that the queue is closed and all its elements are released. -/
theorem drained_of_done (h : Inv s) (hd : s.ForkGroupDone) {k : ℕ} (hk : k ≤ pl.stages) :
    (s.queue k).closed = true ∧ (s.queue k).head = (s.queue k).log.length := by
  rcases Nat.lt_or_eq_of_le hk with hlt | rfl
  · refine (h.stage k hlt).left ?_
    rw [hd.1 k hlt]
    trivial
  · refine h.ending.left ?_
    rw [hd.2]
    trivial

/-- Every input has gone through every queue when the `fork_group` has completed. -/
theorem log_length_of_done (h : Inv s) (hd : s.ForkGroupDone) {k : ℕ} (hk : k ≤ pl.stages) :
    (s.queue k).log.length = pl.inputs.length := by
  induction k with
  | zero =>
    have hclosed := h.main.closed.mp (h.drained_of_done hd hk).1
    have hpushed : s.main.pushed pl.inputs.length = pl.inputs.length := by
      cases hm : s.main with
      | join => rfl
      | finished => rfl
      | _ => rw [hm] at hclosed; exact hclosed.elim
    rw [← Pipeline.length_values, h.main.values, hpushed, List.take_length]
  | succ k ih =>
    have hlen := (h.stage k hk).length
    rw [hd.1 k hk] at hlen
    rw [hlen, ← ih (by omega), (h.drained_of_done hd (by omega)).2]
    rfl

/-- At the end every queue has held the images of all inputs. -/
theorem values_of_done (h : Inv s) (hd : s.ForkGroupDone) {k : ℕ} (hk : k ≤ pl.stages) :
    pl.values (s.queue k) = pl.inputs.map (pl.compose k) := by
  refine (h.values_prefix_compose hk).eq_of_length ?_
  rw [Pipeline.length_values, h.log_length_of_done hd hk, List.length_map]

end Inv

end PipelineFifo

end TmcExamples
