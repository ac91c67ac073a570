import TmcExamples.Braid.Sections

/-!
# No update is lost

A run of a function is a run of sections under a lock, so that the increments are executed as if
one after the other, and the variable has counted them all when the tasks have returned. The
function then finds the number of its tasks in it. No task is held up for ever: a task that runs
can go on, and where none runs the braid can resume any of its own.
-/

namespace TmcExamples

namespace Braid

open Locking (Party Section)

variable {w n : ℕ} {s s' : State w n} {a : Action n} {body : List Stmt}

/-! ### The value -/

/-- The parties under the lock that the tasks of a function are. -/
abbrev locked (w n : ℕ) (body : List Stmt) :
    LTS (Locking.State (Fin n) (BitVec w) (BitVec w)) (Locking.Action (Fin n)) :=
  Locking.system 0 (fun _ => 0) fun _ => sections w .braid [] body

/-- A function whose tasks are guarded refines its sections under a lock. -/
def refinement (h : Guarded .braid [] body) :
    ((system w n body).restrict Inv (inv_init h)).Refinement (locked w n body) where
  state s := s.1.view
  action := Action.toLocking
  init := rfl
  hidden {s a s'} hs ha := by
    obtain ⟨s', hs'⟩ := s'
    cases hs with
    | join => rfl
    | _ => cases ha
  visible {s a s' b} hs hb := view_step s.2 hs hb

private theorem locked_run (h : Guarded .braid [] body) {tr : List (Action n)}
    (hrun : (system w n body).Run (system w n body).init tr s) :
    Inv s ∧
      (locked w n body).Run (locked w n body).init (tr.filterMap Action.toLocking) s.view := by
  obtain ⟨hinv, hrun'⟩ := hrun.restrict (inv_init h) fun _ _ _ => inv_step
  exact ⟨hinv, (refinement h).run hrun'⟩

/-- The number of increments of a section. -/
def amount (c : Section (BitVec w) (BitVec w)) : BitVec w := BitVec.ofNat w (c.steps.length / 2)

@[simp] theorem amount_braid (k : ℕ) :
    amount (stretchSection w .braid k) = BitVec.ofNat w k := by
  have hlength : (stretchSection w .braid k).steps.length = k * 2 := by
    simp [stretchSection, Section.writing]
  rw [amount, hlength, Nat.mul_div_cancel k (by decide)]

@[simp] theorem amount_cpu (k : ℕ) : amount (stretchSection w .cpu k) = 0 := by
  simp [amount, stretchSection, Section.locally]

/-- A stretch without increments adds nothing. -/
private theorem sum_amount_cons_zero (ex : Executor) (cs : List (Section (BitVec w) (BitVec w))) :
    ((stretchSection w ex 0 :: cs).map amount).sum = (cs.map amount).sum := by
  cases ex <;> simp

private theorem adds_stretchSection (ex : Executor) (k : ℕ) :
    (stretchSection w ex k).Adds (fun _ => True) id (amount (stretchSection w ex k)) := by
  intro v l _
  refine ⟨trivial, ?_⟩
  cases ex with
  | cpu =>
    rw [amount_cpu]
    exact (add_zero v).symm
  | braid =>
    rw [amount_braid]
    induction k generalizing v l with
    | zero => simp [stretchSection, Section.writing, Section.run]
    | succ k ih =>
      -- The first increment leads to the value that the others start from.
      have hfirst : (stretchSection w .braid (k + 1)).run (v, l) =
          (stretchSection w .braid k).run (v + 1, v) := rfl
      rw [hfirst, ih (v + 1) v, BitVec.ofNat_add]
      change v + 1 + BitVec.ofNat w k = v + (BitVec.ofNat w k + 1)
      ac_rfl

private theorem exists_of_mem_later {ex : Executor} {scopes : List Executor}
    {c : Section (BitVec w) (BitVec w)} (h : c ∈ later w ex scopes body) :
    ∃ ex' k, c = stretchSection w ex' k := by
  induction body generalizing ex scopes with
  | nil => cases h
  | cons st rest ih =>
    cases st with
    | increment => exact ih h
    | enter | resumeOn ex' =>
      rcases List.mem_cons.mp h with rfl | h
      · exact ⟨_, _, rfl⟩
      · exact ih h
    | exit =>
      cases scopes with
      | nil => cases h
      | cons ex' scopes' =>
        rcases List.mem_cons.mp h with rfl | h
        · exact ⟨_, _, rfl⟩
        · exact ih h
    | spawnFunc =>
      rcases List.mem_cons.mp h with rfl | h
      · exact ⟨_, _, rfl⟩
      rcases List.mem_cons.mp h with rfl | h
      · exact ⟨_, _, rfl⟩
      · exact ih h

/-- The sections of a guarded text contain all of its increments. -/
private theorem sum_amount_sections {ex : Executor} {scopes : List Executor}
    (h : Guarded ex scopes body) :
    ((sections w ex scopes body).map amount).sum = BitVec.ofNat w (increments body) := by
  induction body generalizing ex scopes with
  | nil => exact sum_amount_cons_zero ex []
  | cons st rest ih =>
    cases st with
    | increment =>
      obtain ⟨rfl, hrest⟩ := h
      have hsum := ih hrest
      rw [sections, List.map_cons, List.sum_cons, amount_braid] at hsum
      rw [sections, List.map_cons, List.sum_cons, amount_braid, stretch, later, increments,
        BitVec.ofNat_add, BitVec.ofNat_add, ← hsum]
      ac_rfl
    | enter | resumeOn ex' => exact (sum_amount_cons_zero ex _).trans (ih h)
    | exit =>
      cases scopes with
      | nil => exact h.elim
      | cons ex' scopes' => exact (sum_amount_cons_zero ex _).trans (ih h)
    | spawnFunc =>
      refine (sum_amount_cons_zero ex _).trans ?_
      rw [later, List.map_cons, List.sum_cons, amount_braid, increments, BitVec.ofNat_add, ← ih h,
        add_comm]
      rfl

/-- **Serialization.** When all tasks have returned, `value` has counted their increments. -/
theorem value_eq (h : Guarded .braid [] body) (hr : (system w n body).Reachable s)
    (hend : ∀ t, (s.task t).status = .returned) :
    s.value = BitVec.ofNat w (n * increments body) := by
  obtain ⟨tr, hrun⟩ := hr
  obtain ⟨-, hlocked⟩ := locked_run h hrun
  have hfin : s.view.Finished := fun t => by
    simp only [State.view, Task.party, hend t]
    exact ⟨rfl, rfl⟩
  have hcode : ∀ _t : Fin n, ∀ c ∈ sections w .braid [] body,
      c.Adds (fun _ => True) id (amount c) := by
    intro _ c hc
    rcases List.mem_cons.mp hc with rfl | hc
    · exact adds_stretchSection _ _
    · obtain ⟨ex, k, rfl⟩ := exists_of_mem_later hc
      exact adds_stretchSection _ _
  obtain ⟨-, htotal⟩ := Locking.total_of_finished hcode trivial hlocked hfin
  rw [id, id, sum_amount_sections h, Finset.sum_const, Finset.card_univ, Fintype.card_fin,
    zero_add, nsmul_eq_mul, BitVec.natCast_eq_ofNat, ← BitVec.ofNat_mul] at htotal
  exact htotal

/-! ### Progress -/

/-- A task that runs can go on. -/
private theorem enabled_of_running (h : Inv s) {t : Fin n}
    (ht : (s.task t).status = .running ∨ (s.task t).status = .incrementing) :
    (system w n body).Enabled s := by
  rcases ht with ht | ht
  · have hguarded := (h t).guarded
    cases hbody : (s.task t).body with
    | nil => exact ⟨_, _, .ret ht hbody⟩
    | cons st rest =>
      rw [hbody] at hguarded
      cases st with
      | increment => exact ⟨_, _, .load ht hbody⟩
      | enter | resumeOn _ | spawnFunc => exact ⟨_, _, .suspend ht hbody rfl⟩
      | exit =>
        cases hscopes : (s.task t).scopes with
        | nil =>
          rw [hscopes] at hguarded
          exact hguarded.elim
        | cons ex scopes =>
          have hsuspend : Stmt.exit.suspend (s.task t).ex (s.task t).scopes rest =
              some (ex, scopes, rest) := by
            rw [hscopes]
            rfl
          exact ⟨_, _, .suspend ht hbody hsuspend⟩
  · obtain ⟨rest, hbody⟩ := (h t).body_eq ht
    exact ⟨_, _, .store ht hbody⟩

private theorem enabled_of_awaiting (h : Inv s) (hm : s.main = .awaitTasks) :
    (system w n body).Enabled s := by
  by_cases hall : ∀ t, (s.task t).status = .returned
  · exact ⟨_, _, .join hm hall⟩
  by_cases hrunning : ∃ t, (s.task t).status = .running ∨ (s.task t).status = .incrementing
  · obtain ⟨t, ht⟩ := hrunning
    exact enabled_of_running h ht
  · -- Nothing runs, so that the braid is free for any of the tasks that have not returned.
    obtain ⟨t, ht⟩ := not_forall.mp hall
    have hqueued : (s.task t).status = .queued := by
      cases hstatus : (s.task t).status with
      | queued => rfl
      | running => exact (hrunning ⟨t, Or.inl hstatus⟩).elim
      | incrementing => exact (hrunning ⟨t, Or.inr hstatus⟩).elim
      | returned => exact (ht hstatus).elim
    exact ⟨_, _, .resume hqueued fun _ u _ hu => hrunning ⟨u, hu.2⟩⟩

/-- The number of steps of the function itself that are left. -/
def Main.work : Main → ℕ
  | .awaitTasks => 1
  | .finished => 0

/-- The number of steps that are left. -/
def State.rank (s : State w n) : ℕ := s.main.work + ∑ t, (s.task t).party.work

private theorem rank_step (h : Inv s) (hs : Step s a s') : s'.rank < s.rank := by
  cases hb : a.toLocking with
  | some b =>
    have hlt := Locking.rank_step (view_step h hs hb)
    have hmain : s'.main = s.main := by
      cases hs with
      | join => cases hb
      | _ => rfl
    rw [State.rank, State.rank, hmain]
    exact Nat.add_lt_add_left hlt _
  | none =>
    cases hs with
    | join hm => simp [State.rank, Main.work, hm]
    | _ => cases hb

theorem inv_of_reachable (h : Guarded .braid [] body) (hr : (system w n body).Reachable s) :
    Inv s :=
  hr.induct (inv_init h) fun _ _ _ _ ih hs => inv_step ih hs

/-- The statements that are left bound the run. -/
theorem system_terminating (h : Guarded .braid [] body) : (system w n body).Terminating :=
  LTS.terminating_of_rank State.rank fun _ _ _ hr hs => rank_step (inv_of_reachable h hr) hs

/-- Where no step is left, the function has got past its join. -/
theorem finished_of_not_enabled (h : Inv s) (hend : ¬ (system w n body).Enabled s) :
    s.main = .finished := by
  cases hm : s.main with
  | awaitTasks => exact (hend (enabled_of_awaiting h hm)).elim
  | finished => rfl

/-- The function is behind its join only when all tasks have returned. -/
private theorem returned_of_finished (hr : (system w n body).Reachable s)
    (hm : s.main = .finished) : ∀ t, (s.task t).status = .returned := by
  revert hm
  refine hr.induct (P := fun s => s.main = .finished → ∀ t, (s.task t).status = .returned)
    (fun hm => by cases hm) ?_
  intro s a s' _ ih hs hm
  -- A task that has returned takes no step.
  cases hs with
  | join _ hjoin => exact hjoin
  | @resume t h | @load t _ h | @store t _ h | @suspend t _ _ _ _ _ h | @ret t h =>
    rw [ih hm t] at h
    cases h

private theorem output_eq_nil (h : Guarded .braid [] body) (hone : increments body = 1)
    (hr : (system w n body).Reachable s) : s.output = [] := by
  refine hr.induct (P := fun s => s.output = []) rfl ?_
  intro s a s' hr ih hs
  cases hs with
  | join _ hjoin =>
    have hvalue := value_eq h hr hjoin
    rw [hone, mul_one] at hvalue
    rw [if_pos hvalue, ih]
  | _ => exact ih

private theorem access_of_incrementing (h : Inv s) {t : Fin n}
    (ht : (s.task t).status = .incrementing) : (s.view.party t).access = some .write := by
  obtain ⟨rest, hbody⟩ := (h t).body_eq ht
  change (s.task t).party.access = some .write
  rw [Task.party_incrementing ht, (h.increment hbody).1]
  rfl

/-- Two tasks are not within an increment at once. -/
private theorem eq_of_incrementing (h : Guarded .braid [] body) (hr : (system w n body).Reachable s)
    {t u : Fin n} (ht : (s.task t).status = .incrementing)
    (hu : (s.task u).status = .incrementing) : t = u := by
  obtain ⟨tr, hrun⟩ := hr
  obtain ⟨hinv, hlocked⟩ := locked_run h hrun
  by_contra hne
  have hadmits := Locking.exclusive_of_reachable hlocked.reachable t u .write hne
    (access_of_incrementing hinv ht)
  rw [access_of_incrementing hinv hu] at hadmits
  exact hadmits

/-! ### The functions -/

/-- **No update is lost.** In each of the six functions of `braid.cpp`, with any number of tasks:
no two tasks are within an increment at once, no `FAIL` line is printed, every run ends, and at
its end all tasks have returned and `value` is their number. -/
theorem braid_functions_lose_no_update (w n : ℕ) : ∀ body ∈ functions,
    (∀ s, (system w n body).Reachable s →
      (∀ t u, (s.task t).status = .incrementing → (s.task u).status = .incrementing → t = u) ∧
      s.output = []) ∧
    (system w n body).Terminating ∧
    ∀ s, (system w n body).Reachable s → ¬ (system w n body).Enabled s →
      s.main = .finished ∧ (∀ t, (s.task t).status = .returned) ∧ s.value = BitVec.ofNat w n := by
  intro body hbody
  have hguarded : ∀ body ∈ functions, Guarded .braid [] body := by decide
  have hone : ∀ body ∈ functions, increments body = 1 := by decide
  have h := hguarded body hbody
  refine ⟨fun s hr => ⟨fun t u => eq_of_incrementing h hr, output_eq_nil h (hone body hbody) hr⟩,
    system_terminating h, fun s hr hend => ?_⟩
  have hm := finished_of_not_enabled (inv_of_reachable h hr) hend
  have hreturned := returned_of_finished hr hm
  have hvalue := value_eq h hr hreturned
  rw [hone body hbody, mul_one] at hvalue
  exact ⟨hm, hreturned, hvalue⟩

/-- `braid_lock_middle` with its `TASK_COUNT`. -/
theorem braid_functions_lose_no_update_middle :
    (system 64 10000 braidLockMiddle).Terminating ∧
    ∀ s, (system 64 10000 braidLockMiddle).Reachable s →
      ¬ (system 64 10000 braidLockMiddle).Enabled s →
      s.main = .finished ∧ (∀ t, (s.task t).status = .returned) ∧ s.value = 10000#64 :=
  (braid_functions_lose_no_update 64 10000 braidLockMiddle (by decide)).2

end Braid

end TmcExamples
