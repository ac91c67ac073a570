import TmcExamples.Locking.Sections

/-!
# Progress of sections under a lock

A party inside a section is never held up, and where all parties are outside the lock admits any
of them: no deadlock is possible, whatever the sections are (`enabled_of_not_finished`). Each step
takes one off the number of steps that are still to be taken, so every run ends.
-/

namespace TmcExamples

universe u v w

namespace Locking

variable {σ : Type u} {ℓ : Type v} {ι : Type w} [DecidableEq ι]
variable {store : σ} {loc : ι → ℓ} {code : ι → List (Section σ ℓ)} {s s' : State ι σ ℓ}

/-- Who is inside a section can go on in it or leave it. -/
theorem enabled_of_inside {p : ι} {c : Section σ ℓ} (hin : (s.party p).inside = some c) :
    (system store loc code).Enabled s := by
  cases hsteps : c.steps with
  | nil => exact ⟨_, _, .leave hin hsteps⟩
  | cons f fs => exact ⟨_, _, .act hin hsteps⟩

/-- **No deadlock.** -/
theorem enabled_of_not_finished (h : ¬ s.Finished) : (system store loc code).Enabled s := by
  by_cases hin : ∃ p c, (s.party p).inside = some c
  · obtain ⟨p, c, hin⟩ := hin
    exact enabled_of_inside hin
  · have hout : ∀ p, (s.party p).inside = none := fun p =>
      Option.eq_none_iff_forall_ne_some.mpr fun c hc => hin ⟨p, c, hc⟩
    obtain ⟨p, hp⟩ := not_forall.mp h
    obtain ⟨c, cs, hrest⟩ := List.exists_cons_of_ne_nil fun hrest => hp ⟨hout p, hrest⟩
    refine ⟨_, _, .enter (hout p) hrest fun q => ?_⟩
    rw [Party.access, hout q]
    exact admits_none _

namespace Party

/-- The number of steps of a section that is still to be entered. -/
private def sectionWork (c : Section σ ℓ) : ℕ := c.steps.length + 2

/-- The number of steps that the party has still to take. -/
def work (p : Party σ ℓ) : ℕ :=
  (match p.inside with
    | none => 0
    | some c => c.steps.length + 1) + (p.rest.map sectionWork).sum

end Party

/-- Each step takes one from the work of its party. -/
theorem rank_step [Fintype ι] {a : Action ι} (hs : Step s a s') :
    ∑ p, (s'.party p).work < ∑ p, (s.party p).work := by
  have hmove : ∀ p x, Party.work x < (s.party p).work →
      ∑ q, (Function.update s.party p x q).work < ∑ q, (s.party q).work := by
    intro p x hlt
    have hsum := sum_update_add (Finset.mem_univ p) s.party x Party.work
    omega
  cases hs with
  | enter hout hrest hadmits =>
    refine hmove _ _ ?_
    simp only [Party.work, hout, hrest, List.map_cons, List.sum_cons, Party.sectionWork]
    omega
  | act hin hsteps =>
    refine hmove _ _ ?_
    simp only [Party.work, hin, Section.tail_steps hsteps, hsteps, List.length_cons]
    omega
  | leave hin hsteps =>
    refine hmove _ _ ?_
    simp only [Party.work, hin, hsteps, List.length_nil]
    omega

/-- The sections that are left bound the run. -/
theorem system_terminating [Fintype ι] (store : σ) (loc : ι → ℓ) (code : ι → List (Section σ ℓ)) :
    (system store loc code).Terminating :=
  LTS.terminating_of_rank (fun s => ∑ p, (s.party p).work) fun _ _ _ _ hs => rank_step hs

/-- Every run ends, and it ends with all parties at their ends. -/
theorem endsIn [Fintype ι] {P : State ι σ ℓ → Prop}
    (h : ∀ s, (system store loc code).Reachable s → s.Finished → P s) :
    (system store loc code).EndsIn fun s => s.Finished ∧ P s := by
  refine ⟨system_terminating store loc code, fun s hr hend => ?_⟩
  have hfin := of_not_not (mt enabled_of_not_finished hend)
  exact ⟨hfin, h s hr hfin⟩

end Locking

end TmcExamples
