import TmcExamples.Transition.System

/-!
# Refinement maps

A system `T` is built over a system `U` when a part of its state is a state of `U`, and each of
its steps either is a step of `U` on that part or leaves it alone. Then every run of `T` contains
a run of `U` (`Refinement.run`), so that what holds of the runs of `U` can be used for `T`.

Where only the states that keep an invariant refine, the map starts from `T.restrict`, the system
whose states carry the invariant: every run of `T` is a run of it (`Run.restrict`).
-/

namespace TmcExamples

universe u v w x

namespace LTS

variable {σ : Type u} {α : Type v} {τ : Type w} {β : Type x}

/-- A refinement map from `T` to `U`: the state of `U` in a state of `T`, and the step of `U` in a
step of `T`, if there is one. -/
structure Refinement (T : LTS σ α) (U : LTS τ β) where
  state : σ → τ
  action : α → Option β
  init : state T.init = U.init
  hidden : ∀ {s a s'}, T.step s a s' → action a = none → state s' = state s
  visible : ∀ {s a s' b}, T.step s a s' → action a = some b → U.step (state s) b (state s')

namespace Refinement

variable {T : LTS σ α} {U : LTS τ β} (R : T.Refinement U)

/-- **A run of `T` contains a run of `U`.** -/
theorem run {tr : List α} {s : σ} (h : T.Run T.init tr s) :
    U.Run U.init (tr.filterMap R.action) (R.state s) := by
  induction h with
  | nil =>
    rw [R.init]
    exact .nil
  | @snoc tr s₁ s₂ a _ hstep ih =>
    rw [List.filterMap_append]
    cases ha : R.action a with
    | none =>
      rw [R.hidden hstep ha, List.filterMap_cons_none ha, List.filterMap_nil, List.append_nil]
      exact ih
    | some b =>
      rw [List.filterMap_cons_some ha, List.filterMap_nil]
      exact ih.snoc (R.visible hstep ha)

/-- What the refining system reaches is seen as something that the refined one reaches. -/
theorem reachable {s : σ} (h : T.Reachable s) : U.Reachable (R.state s) := by
  obtain ⟨tr, hrun⟩ := h
  exact (R.run hrun).reachable

end Refinement

/-! ### Systems with an invariant -/

/-- The system on the states that keep the invariant `I`. -/
def restrict (T : LTS σ α) (I : σ → Prop) (h : I T.init) : LTS {s // I s} α where
  init := ⟨T.init, h⟩
  step s a s' := T.step s a s'

/-- A run passes through states that keep an invariant. -/
theorem Run.restrict {T : LTS σ α} {I : σ → Prop} (h0 : I T.init)
    (hs : ∀ s a s', I s → T.step s a s' → I s') {tr : List α} {s : σ} (h : T.Run T.init tr s) :
    ∃ hI : I s, (T.restrict I h0).Run (T.restrict I h0).init tr ⟨s, hI⟩ := by
  induction h with
  | nil => exact ⟨h0, .nil⟩
  | @snoc tr s₁ s₂ a _ hstep ih =>
    obtain ⟨hI, hrun⟩ := ih
    have hI' : I s₂ := hs s₁ a s₂ hI hstep
    have hstep' : (T.restrict I h0).step ⟨s₁, hI⟩ a ⟨s₂, hI'⟩ := hstep
    exact ⟨hI', hrun.snoc hstep'⟩

end LTS

end TmcExamples
