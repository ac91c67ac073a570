import TmcExamples.PipelineChannel.Order
import TmcExamples.PipelineFifo.Sequential

/-!
# The two pipelines compute the same

`pipeline.hpp` and `pipeline_fifo.hpp` are two designs for one task: to apply a list of process
functions to a sequence of inputs, and to consume the results. The task is a `Program`, and what
is consumed is the list of its `outputs`. The channel pipeline refines it in order when every
stage has a single worker, and the FIFO pipeline when its end stage processes one value at a time.
-/

namespace TmcExamples

namespace Pipelines

/-- The process functions of a pipeline, the kind of its consume function and its inputs. -/
structure Program where
  Val : ℕ → Type
  stages : ℕ
  func : (k : ℕ) → ProcessFunc (Val k) (Val (k + 1))
  consumeKind : FuncKind
  inputs : List (Val 0)

namespace Program

variable (P : Program)

/-- The process functions of the first `k` stages, one after the other. -/
abbrev compose (k : ℕ) : P.Val 0 → P.Val k := ProcessFunc.compose P.func k

/-- The values to be consumed. -/
def outputs : List (P.Val P.stages) := P.inputs.map (P.compose P.stages)

/-- The pipeline of `pipeline.hpp` with one worker in every stage. -/
def channel : PipelineChannel.Pipeline where
  Val := P.Val
  stages := P.stages
  func := P.func
  workerCount := fun _ => 1
  workerCount_pos := fun _ => Nat.one_pos
  consumeKind := P.consumeKind
  inputs := P.inputs

/-- The pipeline of `pipeline_fifo.hpp` with parallelism `1` at its end. -/
def fifo (parallelism : ℕ → ℕ) (pos : ∀ k, 0 < parallelism k) : PipelineFifo.Pipeline where
  Val := P.Val
  stages := P.stages
  func := P.func
  parallelism := parallelism
  parallelism_pos := pos
  endStage := PipelineFifo.pipelineEndStage 1 Nat.one_pos
  consumeKind := P.consumeKind
  inputs := P.inputs

end Program

variable {P : Program} {parallelism : ℕ → ℕ} {pos : ∀ k, 0 < parallelism k}

private theorem channel_consumed {s : PipelineChannel.State P.channel}
    (hs : (PipelineChannel.system P.channel).Reachable s) (hd : s.ForkGroupDone) :
    s.consumed = P.outputs := by
  exact PipelineChannel.consumed_of_done (fun _ => rfl) hs hd

private theorem fifo_consumed {s : PipelineFifo.State (P.fifo parallelism pos)}
    (hs : (PipelineFifo.system (P.fifo parallelism pos)).Reachable s) (hd : s.ForkGroupDone) :
    s.consumed = P.outputs := by
  exact PipelineFifo.consumed_of_done .inlineWorker hs hd.2

/-- **The pipelines agree.** Every completed run of the channel pipeline with one worker in every
stage and every completed run of the FIFO pipeline with parallelism `1` at its end call the consume
function on the same sequence of values. -/
theorem consumed_agree (P : Program) (parallelism : ℕ → ℕ) (pos : ∀ k, 0 < parallelism k)
    {s₁ : PipelineChannel.State P.channel} {s₂ : PipelineFifo.State (P.fifo parallelism pos)}
    (hs₁ : (PipelineChannel.system P.channel).Reachable s₁) (hd₁ : s₁.ForkGroupDone)
    (hs₂ : (PipelineFifo.system (P.fifo parallelism pos)).Reachable s₂) (hd₂ : s₂.ForkGroupDone) :
    s₁.consumed = s₂.consumed :=
  (channel_consumed hs₁ hd₁).trans (fifo_consumed hs₂ hd₂).symm

/-- A program of one stage, which adds one to each of three inputs. -/
def sample : Program where
  Val := fun _ => ℕ
  stages := 1
  func := fun _ => ⟨.coroutine, fun (n : ℕ) => n + 1⟩
  consumeKind := .regular
  inputs := ([5, 7, 9] : List ℕ)

/-- Both pipelines have a complete run of the sample program. -/
theorem consumed_agree_sample :
    ∃ (s₁ : PipelineChannel.State sample.channel)
      (s₂ : PipelineFifo.State (sample.fifo (fun _ => 2) fun _ => Nat.two_pos)),
      (PipelineChannel.system sample.channel).Reachable s₁ ∧ s₁.ForkGroupDone ∧
        (PipelineFifo.system (sample.fifo (fun _ => 2) fun _ => Nat.two_pos)).Reachable s₂ ∧
        s₂.ForkGroupDone ∧ s₁.consumed = s₂.consumed := by
  obtain ⟨s₁, hr₁, -, hd₁⟩ := PipelineChannel.exists_finished sample.channel
  obtain ⟨s₂, hr₂, -, hd₂⟩ :=
    PipelineFifo.exists_finished (sample.fifo (fun _ => 2) fun _ => Nat.two_pos)
  exact ⟨s₁, s₂, hr₁, hd₁, hr₂, hd₂, consumed_agree sample _ _ hr₁ hd₁ hr₂ hd₂⟩

end Pipelines

end TmcExamples
