import TmcExamples.Braid.Model
import TmcExamples.Locking.Serial
import TmcExamples.Locking.Progress
import TmcExamples.Transition.Refinement

/-!
# The braid as a lock

Between two suspensions a task runs on one executor: this stretch is a section, which may write
to `value` if the executor is the braid. `Guarded` is a check of a task's text that follows the
executors through it: every increment is on the braid, and every exit has a scope to leave. Where
it holds the functions refine the sections under a lock (`refinement`): a task that is resumed
enters its section, the halves of an increment are steps of it, and a task that suspends or returns
leaves it.
-/

namespace TmcExamples

namespace Braid

open Locking (Party Section)

variable {w n : ℕ}

/-! ### The text of a task -/

/-- Every increment is on the braid, and every exit leaves a scope. -/
def Guarded (ex : Executor) (scopes : List Executor) : List Stmt → Prop
  | [] => True
  | .increment :: rest => ex = .braid ∧ Guarded ex scopes rest
  | .enter :: rest => Guarded .braid (ex :: scopes) rest
  | .exit :: rest =>
    match scopes with
    | [] => False
    | ex' :: scopes' => Guarded ex' scopes' rest
  | .resumeOn ex' :: rest => Guarded ex' scopes rest
  | .spawnFunc :: rest => Guarded ex scopes rest

instance decidableGuarded (ex : Executor) (scopes : List Executor) :
    ∀ body, Decidable (Guarded ex scopes body)
  | [] => isTrue trivial
  | .increment :: rest =>
    have := decidableGuarded ex scopes rest
    inferInstanceAs (Decidable (ex = .braid ∧ Guarded ex scopes rest))
  | .enter :: rest => decidableGuarded .braid (ex :: scopes) rest
  | .exit :: rest =>
    match scopes with
    | [] => isFalse not_false
    | ex' :: scopes' => decidableGuarded ex' scopes' rest
  | .resumeOn ex' :: rest => decidableGuarded ex' scopes rest
  | .spawnFunc :: rest => decidableGuarded ex scopes rest

/-- The number of increments in the text of a task. -/
def increments : List Stmt → ℕ
  | [] => 0
  | .increment :: rest | .spawnFunc :: rest => increments rest + 1
  | .enter :: rest | .exit :: rest | .resumeOn _ :: rest => increments rest

/-- The number of increments up to the next suspension. -/
def stretch : List Stmt → ℕ
  | .increment :: rest => stretch rest + 1
  | _ => 0

/-- The first half of an increment reads the variable. -/
def load (x : BitVec w × BitVec w) : BitVec w × BitVec w := (x.1, x.1)

/-- The second half stores the new value. -/
def store (x : BitVec w × BitVec w) : BitVec w × BitVec w := (x.2 + 1, x.2)

/-- A stretch of `k` increments on an executor. -/
def stretchSection (w : ℕ) (ex : Executor) (k : ℕ) : Section (BitVec w) (BitVec w) :=
  match ex with
  | .braid => .writing (List.replicate k [load, store]).flatten
  | .cpu => .locally []

/-- The sections behind the present stretch. -/
def later (w : ℕ) (ex : Executor) (scopes : List Executor) :
    List Stmt → List (Section (BitVec w) (BitVec w))
  | [] => []
  | .increment :: rest => later w ex scopes rest
  | .enter :: rest => stretchSection w .braid (stretch rest) :: later w .braid (ex :: scopes) rest
  | .exit :: rest =>
    match scopes with
    | [] => []
    | ex' :: scopes' => stretchSection w ex' (stretch rest) :: later w ex' scopes' rest
  | .resumeOn ex' :: rest => stretchSection w ex' (stretch rest) :: later w ex' scopes rest
  | .spawnFunc :: rest =>
    stretchSection w .braid 1 :: stretchSection w ex (stretch rest) :: later w ex scopes rest

/-- The sections of a task that is queued before `body`. -/
def sections (w : ℕ) (ex : Executor) (scopes : List Executor) (body : List Stmt) :
    List (Section (BitVec w) (BitVec w)) :=
  stretchSection w ex (stretch body) :: later w ex scopes body

/-- A task that suspends continues with the sections behind its present stretch. -/
private theorem Stmt.suspend_spec {st : Stmt} {ex ex' : Executor} {scopes scopes' : List Executor}
    {rest body : List Stmt} (h : st.suspend ex scopes rest = some (ex', scopes', body))
    (hguarded : Guarded ex scopes (st :: rest)) :
    Guarded ex' scopes' body ∧ stretch (st :: rest) = 0 ∧
      later w ex scopes (st :: rest) = sections w ex' scopes' body := by
  cases st with
  | increment => cases h
  | enter | resumeOn =>
    obtain ⟨rfl, rfl, rfl⟩ := Option.some.inj h
    exact ⟨hguarded, rfl, rfl⟩
  | exit =>
    cases scopes with
    | nil => cases h
    | cons ex'' scopes'' =>
      obtain ⟨rfl, rfl, rfl⟩ := Option.some.inj h
      exact ⟨hguarded, rfl, rfl⟩
  | spawnFunc =>
    obtain ⟨rfl, rfl, rfl⟩ := Option.some.inj h
    exact ⟨⟨rfl, hguarded⟩, rfl, rfl⟩

/-! ### The refinement -/

/-- A task as a party under the lock. -/
def Task.party (t : Task w) : Party (BitVec w) (BitVec w) :=
  match t.status with
  | .queued => ⟨t.read, none, sections w t.ex t.scopes t.body⟩
  | .running =>
    ⟨t.read, some (stretchSection w t.ex (stretch t.body)), later w t.ex t.scopes t.body⟩
  | .incrementing =>
    ⟨t.read, some (stretchSection w t.ex (stretch t.body)).tail, later w t.ex t.scopes t.body⟩
  | .returned => ⟨t.read, none, []⟩

/-- The tasks as parties under the lock, with `value` as the store. -/
def State.view (s : State w n) : Locking.State (Fin n) (BitVec w) (BitVec w) :=
  ⟨s.value, fun t => (s.task t).party⟩

/-- The rest of the text of a task is guarded, and within an increment it is in front of it. -/
structure Task.Ok (t : Task w) : Prop where
  guarded : Guarded t.ex t.scopes t.body
  body_eq : t.status = .incrementing → ∃ rest, t.body = .increment :: rest

/-- All tasks are such. -/
def Inv (s : State w n) : Prop := ∀ t, (s.task t).Ok

/-- An increment is reached on the braid only. -/
theorem Inv.increment {s : State w n} (h : Inv s) {t : Fin n} {rest : List Stmt}
    (hbody : (s.task t).body = .increment :: rest) :
    (s.task t).ex = .braid ∧ Guarded (s.task t).ex (s.task t).scopes rest := by
  have hguarded := (h t).guarded
  rwa [hbody] at hguarded

/-- A suspension leaves a task where its remaining statements expect it. -/
theorem Inv.suspend {s : State w n} (h : Inv s) {t : Fin n} {st : Stmt} {rest : List Stmt}
    {ex : Executor} {scopes : List Executor} {body : List Stmt}
    (hbody : (s.task t).body = st :: rest)
    (hsuspend : st.suspend (s.task t).ex (s.task t).scopes rest = some (ex, scopes, body)) :
    Guarded ex scopes body ∧ stretch (st :: rest) = 0 ∧
      later w (s.task t).ex (s.task t).scopes (st :: rest) = sections w ex scopes body := by
  have hguarded := (h t).guarded
  rw [hbody] at hguarded
  exact Stmt.suspend_spec hsuspend hguarded

/-- Every step keeps the braid to one task at a time. -/
theorem inv_step {s s' : State w n} {a : Action n} (h : Inv s) (hs : Step s a s') : Inv s' := by
  cases hs with
  | @resume t | @ret t =>
    exact forall_update (P := fun _ => Task.Ok) h ⟨(h t).guarded, fun heq => by cases heq⟩
  | @load t rest _ hbody =>
    exact forall_update (P := fun _ => Task.Ok) h ⟨(h t).guarded, fun _ => ⟨rest, hbody⟩⟩
  | @store t rest _ hbody =>
    exact forall_update (P := fun _ => Task.Ok) h
      ⟨(h.increment hbody).2, fun heq => by cases heq⟩
  | suspend _ hbody hsuspend =>
    exact forall_update (P := fun _ => Task.Ok) h
      ⟨(h.suspend hbody hsuspend).1, fun heq => by cases heq⟩
  | join => exact h

theorem inv_init {body : List Stmt} (h : Guarded .braid [] body) : Inv (system w n body).init :=
  fun _ => ⟨h, fun heq => by cases heq⟩

/-! The steps of the tasks are steps of the parties. -/

private theorem Task.party_queued {t : Task w} (h : t.status = .queued) :
    t.party = ⟨t.read, none, sections w t.ex t.scopes t.body⟩ := by
  simp only [Task.party, h]

private theorem Task.party_running {t : Task w} (h : t.status = .running) :
    t.party =
      ⟨t.read, some (stretchSection w t.ex (stretch t.body)), later w t.ex t.scopes t.body⟩ := by
  simp only [Task.party, h]

/-- Within an increment, the task is inside the section that starts with it. -/
theorem Task.party_incrementing {t : Task w} (h : t.status = .incrementing) :
    t.party = ⟨t.read, some (stretchSection w t.ex (stretch t.body)).tail,
      later w t.ex t.scopes t.body⟩ := by
  simp only [Task.party, h]

/-- The section of a task that may be resumed is admitted beside any other task. -/
theorem Task.admits {t u : Task w} (k : ℕ) (h : t.ex = .braid → ¬ u.OnBraid) :
    Locking.Admits (stretchSection w t.ex k).access u.party.access := by
  cases ht : t.ex with
  | cpu => exact trivial
  | braid =>
    have hu := h ht
    obtain ⟨ex, scopes, body, status, read⟩ := u
    cases status with
    | queued | returned => exact trivial
    | running =>
      cases ex with
      | cpu => exact trivial
      | braid => exact (hu ⟨rfl, Or.inl rfl⟩).elim
    | incrementing =>
      cases ex with
      | cpu => exact trivial
      | braid => exact (hu ⟨rfl, Or.inr rfl⟩).elim

private theorem view_update (s : State w n) (t : Fin n) (x : Task w) (value : BitVec w) :
    (State.view { s with task := Function.update s.task t x, value := value }) =
      ⟨value, Function.update s.view.party t x.party⟩ := by
  refine congrArg (Locking.State.mk value) (funext fun u => ?_)
  exact Function.apply_update (fun _ => Task.party) s.task t x u

/-- A step of a task as a step of a party under the lock. -/
def Action.toLocking : Action n → Option (Locking.Action (Fin n))
  | .resume t => some (.enter t)
  | .load t | .store t => some (.act t)
  | .suspend t | .ret t => some (.leave t)
  | .join => none

/-- A step of the program that enters, acts or leaves is that step of the lock. -/
theorem view_step {s s' : State w n} {a : Action n} {b : Locking.Action (Fin n)} (h : Inv s)
    (hs : Step s a s') (hb : a.toLocking = some b) : Locking.Step s.view b s'.view := by
  cases hs with
  | @resume t hqueued hbraid =>
    obtain rfl := Option.some.inj hb
    rw [view_update s t _ s.value, Task.party_running rfl]
    refine Locking.Step.enter_of_eq (Task.party_queued hqueued) fun u => ?_
    refine Task.admits _ fun hex => ?_
    by_cases hu : u = t
    · rintro ⟨-, hrunning⟩
      simp [hu, hqueued] at hrunning
    · exact hbraid hex u hu
  | @load t rest hrunning hbody =>
    obtain rfl := Option.some.inj hb
    have hsteps : (stretchSection w (s.task t).ex (stretch (s.task t).body)).steps =
        load :: store :: (stretchSection w .braid (stretch rest)).steps := by
      rw [hbody, (h.increment hbody).1]
      rfl
    rw [view_update s t _ s.value, Task.party_incrementing rfl]
    exact Locking.Step.act_of_eq (f := load) (Task.party_running hrunning) hsteps
  | @store t rest hincrementing hbody =>
    obtain rfl := Option.some.inj hb
    obtain ⟨hex, -⟩ := h.increment hbody
    have hsteps : (stretchSection w (s.task t).ex (stretch (s.task t).body)).tail.steps =
        store :: (stretchSection w .braid (stretch rest)).steps := by
      rw [hbody, hex]
      rfl
    have htail : (stretchSection w (s.task t).ex (stretch (s.task t).body)).tail.tail =
        stretchSection w (s.task t).ex (stretch rest) := by
      rw [hbody, hex]
      rfl
    have hlater : later w (s.task t).ex (s.task t).scopes (s.task t).body =
        later w (s.task t).ex (s.task t).scopes rest := by rw [hbody, later]
    have hparty := Task.party_incrementing hincrementing
    rw [view_update, Task.party_running rfl, ← htail, ← hlater]
    exact Locking.Step.act_of_eq (f := store) hparty hsteps
  | @suspend t st rest ex scopes body hrunning hbody hsuspend =>
    obtain rfl := Option.some.inj hb
    obtain ⟨-, hstretch, hlater⟩ := h.suspend (w := w) hbody hsuspend
    have hsteps : (stretchSection w (s.task t).ex (stretch (s.task t).body)).steps = [] := by
      rw [hbody, hstretch]
      cases (s.task t).ex <;> rfl
    rw [view_update s t _ s.value, Task.party_queued rfl, ← hlater, ← hbody]
    exact Locking.Step.leave_of_eq (Task.party_running hrunning) hsteps
  | @ret t hrunning hbody =>
    obtain rfl := Option.some.inj hb
    have hsteps : (stretchSection w (s.task t).ex (stretch (s.task t).body)).steps = [] := by
      rw [hbody]
      cases (s.task t).ex <;> rfl
    have hparty := Task.party_running hrunning
    rw [hbody, later] at hparty
    rw [view_update s t _ s.value]
    rw [hbody] at hsteps
    exact Locking.Step.leave_of_eq hparty hsteps
  | join => cases hb

end Braid

end TmcExamples
