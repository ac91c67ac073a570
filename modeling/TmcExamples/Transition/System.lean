import Mathlib.Data.List.Count
import Mathlib.Data.Prod.Lex
import Mathlib.Order.OrderIsoNat

/-!
# Labelled transition systems

A concurrent program is presented as an `LTS`: a state that holds every party's program
point together with what the parties share, and a step relation with one action for each
atomic step of one party. An interleaving is a `Run`, which keeps the trace of its actions;
the states at the end of runs from the initial state are the `Reachable` ones.

The rules the developments over it use:

* `LTS.Reachable.induct` and `LTS.Run.induct`: a property of the initial state that every
  step keeps holds at every reachable state; the second form also sees the trace.
* `LTS.Run.stable` and `LTS.Run.not_mem`: what can no longer happen once a stable
  condition holds, does not happen in the rest of the run.
* `LTS.Run.count_eq`: a counter of the state that moves exactly with one action counts
  that action in the trace.
* `LTS.Deterministic.eq_of_ended`: a deterministic system has one maximal run.
* `LTS.terminating_of_rank`: a rank in a well-founded order that every step decreases
  excludes infinite runs; `LTS.Terminating.exists_not_enabled` then gives a maximal run, and
  `LTS.EndsIn` says what holds at the end of each. `LTS.Run.length_add_rank_le` is the form for
  runs in which only some of the actions are taken.
-/

namespace TmcExamples

universe u v w

/-- A labelled transition system with one initial state: `step s a s'` says that action
`a` may take state `s` to state `s'`. -/
structure LTS (σ : Type u) (α : Type v) where
  init : σ
  step : σ → α → σ → Prop

namespace LTS

variable {σ : Type u} {α : Type v} {T : LTS σ α}

variable (T) in
/-- Finite runs from a state, with the trace of their actions. -/
inductive Run (s : σ) : List α → σ → Prop
  | nil : Run s [] s
  | snoc {tr : List α} {s₁ s₂ : σ} {a : α} :
      Run s tr s₁ → T.step s₁ a s₂ → Run s (tr ++ [a]) s₂

variable (T) in
/-- A state is reachable when a run from the initial state ends in it. -/
def Reachable (s : σ) : Prop := ∃ tr, T.Run T.init tr s

variable (T) in
/-- A state is enabled when some action can be taken in it. -/
def Enabled (s : σ) : Prop := ∃ a s', T.step s a s'

variable (T) in
/-- In every state at most one step can be taken. -/
def Deterministic : Prop :=
  ∀ s a₁ s₁ a₂ s₂, T.step s a₁ s₁ → T.step s a₂ s₂ → a₁ = a₂ ∧ s₁ = s₂

variable (T) in
/-- Every run from the initial state is finite. -/
def Terminating : Prop :=
  ∀ f : ℕ → σ, f 0 = T.init → ¬ ∀ n, ∃ a, T.step (f n) a (f (n + 1))

variable (T) in
/-- Every run from the initial state is finite, and a maximal one ends in a state with `P`. -/
def EndsIn (P : σ → Prop) : Prop :=
  T.Terminating ∧ ∀ s, T.Reachable s → ¬ T.Enabled s → P s

/-! ### Reachable states -/

theorem Reachable.init : T.Reachable T.init := ⟨[], .nil⟩

theorem Reachable.step {s s' : σ} {a : α} (h : T.Reachable s) (hs : T.step s a s') :
    T.Reachable s' := by
  obtain ⟨tr, hr⟩ := h
  exact ⟨tr ++ [a], hr.snoc hs⟩

/-- **Trace invariants.** A property of traces and states that holds of the empty run and
that every step from a reachable state keeps, holds of every run. -/
theorem Run.induct {P : List α → σ → Prop} (h0 : P [] T.init)
    (hs : ∀ tr s a s', T.Run T.init tr s → P tr s → T.step s a s' → P (tr ++ [a]) s')
    {tr : List α} {s : σ} (h : T.Run T.init tr s) : P tr s := by
  induction h with
  | nil => exact h0
  | snoc hr hstep ih => exact hs _ _ _ _ hr ih hstep

/-- **Invariants.** A property of the initial state that every step from a reachable state
keeps, holds at every reachable state. -/
theorem Reachable.induct {P : σ → Prop} (h0 : P T.init)
    (hs : ∀ s a s', T.Reachable s → P s → T.step s a s' → P s')
    {s : σ} (h : T.Reachable s) : P s := by
  obtain ⟨tr, hr⟩ := h
  exact Run.induct (P := fun _ s => P s) h0 (fun tr s a s' hr hp => hs s a s' ⟨tr, hr⟩ hp) hr

/-! ### Splitting runs -/

theorem Run.reachable {tr : List α} {s : σ} (h : T.Run T.init tr s) : T.Reachable s := ⟨tr, h⟩

/-- A run over an appended trace passes through a state in between. -/
theorem Run.split {s s' : σ} {tr₁ tr₂ : List α} (h : T.Run s (tr₁ ++ tr₂) s') :
    ∃ m, T.Run s tr₁ m ∧ T.Run m tr₂ s' := by
  generalize htr : tr₁ ++ tr₂ = tr at h
  induction h generalizing tr₂ with
  | nil =>
    obtain ⟨rfl, rfl⟩ := List.append_eq_nil_iff.mp htr
    exact ⟨s, .nil, .nil⟩
  | @snoc tr s₁ s₂ a hr hstep ih =>
    rcases List.eq_nil_or_concat tr₂ with rfl | ⟨tr₂', b, rfl⟩
    · rw [List.append_nil] at htr
      exact ⟨s₂, htr ▸ hr.snoc hstep, .nil⟩
    · rw [List.concat_eq_append, ← List.append_assoc] at htr
      obtain ⟨rfl, hb⟩ := List.append_inj' htr rfl
      obtain rfl : b = a := List.singleton_inj.mp hb
      obtain ⟨m, h₁, h₂⟩ := ih rfl
      exact ⟨m, h₁, List.concat_eq_append ▸ h₂.snoc hstep⟩

/-- A run over a trace that starts with `a` starts with a step by `a`. -/
theorem Run.split_cons {s s' : σ} {a : α} {tr : List α} (h : T.Run s (a :: tr) s') :
    ∃ m, T.step s a m ∧ T.Run m tr s' := by
  have happ : T.Run s ([a] ++ tr) s' := h
  obtain ⟨m, h₁, h₂⟩ := happ.split
  generalize hl : [a] = l at h₁
  cases h₁ with
  | nil => cases hl
  | @snoc tr₁ s₁ _ b hr hstep =>
    have hsplit : [] ++ [a] = tr₁ ++ [b] := hl
    obtain ⟨rfl, hb⟩ := List.append_inj' hsplit rfl
    obtain rfl : a = b := List.singleton_inj.mp hb
    generalize hl' : ([] : List α) = l' at hr
    cases hr with
    | nil => exact ⟨m, hstep, h₂⟩
    | snoc => simp at hl'

/-- Every action of a trace is the action of a step. -/
theorem Run.exists_step {s s' : σ} {a : α} {tr : List α} (h : T.Run s tr s') (ha : a ∈ tr) :
    ∃ s₁ s₂, T.step s₁ a s₂ := by
  induction h with
  | nil => cases ha
  | snoc _ hstep ih =>
    rcases List.mem_append.mp ha with ha | ha
    · exact ih ha
    · obtain rfl := List.mem_singleton.mp ha
      exact ⟨_, _, hstep⟩

/-- A condition that every step keeps holds from where it holds on. -/
theorem Run.stable {P : σ → Prop} (hs : ∀ s a s', P s → T.step s a s' → P s')
    {s s' : σ} {tr : List α} (h : T.Run s tr s') (hp : P s) : P s' := by
  induction h with
  | nil => exact hp
  | snoc _ hstep ih => exact hs _ _ _ ih hstep

/-- Under a stable condition that disables an action, the action does not occur. -/
theorem Run.not_mem {P : σ → Prop} {b : α} (hs : ∀ s a s', P s → T.step s a s' → P s')
    (hb : ∀ s s', P s → ¬ T.step s b s') {s s' : σ} {tr : List α} (h : T.Run s tr s')
    (hp : P s) : b ∉ tr := by
  induction h with
  | nil => exact List.not_mem_nil
  | @snoc tr s₁ s₂ a hr hstep ih =>
    have hp₁ : P s₁ := hr.stable hs hp
    intro hmem
    rcases List.mem_append.mp hmem with h | h
    · exact ih h
    · obtain rfl := List.mem_singleton.mp h
      exact hb _ _ hp₁ hstep

/-- A counter of the state that starts at zero, goes up by one with action `b` and is
unchanged by every other action counts the occurrences of `b` in the trace. -/
theorem Run.count_eq [DecidableEq α] {n : σ → ℕ} {b : α} (h0 : n T.init = 0)
    (hs : ∀ s a s', T.Reachable s → T.step s a s' → n s' = n s + if a = b then 1 else 0)
    {tr : List α} {s : σ} (h : T.Run T.init tr s) : tr.count b = n s := by
  refine Run.induct (P := fun tr s => tr.count b = n s) (by simp [h0]) ?_ h
  intro tr s a s' hr ih hstep
  rw [List.count_append, List.count_singleton, ih, hs s a s' hr.reachable hstep]
  simp only [beq_iff_eq]

/-! ### Composing runs -/

theorem Run.single {s s' : σ} {a : α} (h : T.step s a s') : T.Run s [a] s' := Run.nil.snoc h

/-- Two runs that meet make one. -/
theorem Run.trans {s₁ s₂ s₃ : σ} {tr₁ tr₂ : List α} (h₁ : T.Run s₁ tr₁ s₂)
    (h₂ : T.Run s₂ tr₂ s₃) : T.Run s₁ (tr₁ ++ tr₂) s₃ := by
  induction h₂ with
  | nil => rwa [List.append_nil]
  | snoc _ hstep ih => exact List.append_assoc .. ▸ ih.snoc hstep

theorem Run.cons {s₁ s₂ s₃ : σ} {a : α} {tr : List α} (h₁ : T.step s₁ a s₂)
    (h₂ : T.Run s₂ tr s₃) : T.Run s₁ (a :: tr) s₃ := (Run.single h₁).trans h₂

/-! ### Deterministic systems -/

private theorem Run.eq_of_nil {s s' : σ} (h : T.Run s [] s') : s = s' := by
  generalize htr : ([] : List α) = tr at h
  cases h with
  | nil => rfl
  | snoc => simp at htr

/-- In a deterministic system two runs from a state to states without a further step are the
same run. -/
theorem Deterministic.eq_of_ended (hT : T.Deterministic) {s s₁ s₂ : σ} {tr₁ tr₂ : List α}
    (h₁ : T.Run s tr₁ s₁) (hend₁ : ¬ T.Enabled s₁) (h₂ : T.Run s tr₂ s₂)
    (hend₂ : ¬ T.Enabled s₂) : tr₁ = tr₂ ∧ s₁ = s₂ := by
  induction tr₁ generalizing s tr₂ with
  | nil =>
    obtain rfl := h₁.eq_of_nil
    cases tr₂ with
    | nil => exact ⟨rfl, h₂.eq_of_nil⟩
    | cons a tr₂ =>
      obtain ⟨m, hstep, -⟩ := h₂.split_cons
      exact (hend₁ ⟨a, m, hstep⟩).elim
  | cons a tr₁ ih =>
    obtain ⟨m₁, hstep₁, hrest₁⟩ := h₁.split_cons
    cases tr₂ with
    | nil =>
      obtain rfl := h₂.eq_of_nil
      exact (hend₂ ⟨a, m₁, hstep₁⟩).elim
    | cons b tr₂ =>
      obtain ⟨m₂, hstep₂, hrest₂⟩ := h₂.split_cons
      obtain ⟨rfl, rfl⟩ := hT _ _ _ _ _ hstep₁ hstep₂
      obtain ⟨rfl, hs⟩ := ih hrest₁ hrest₂
      exact ⟨rfl, hs⟩

/-! ### Termination -/

/-- The states of an infinite run are reachable. -/
theorem reachable_of_infinite {f : ℕ → σ} (h0 : f 0 = T.init)
    (hf : ∀ n, ∃ a, T.step (f n) a (f (n + 1))) (n : ℕ) : T.Reachable (f n) := by
  induction n with
  | zero => rw [h0]; exact .init
  | succ n ih =>
    obtain ⟨a, ha⟩ := hf n
    exact ih.step ha

/-- **Ranking.** If every step from a reachable state decreases a rank in a well-founded
order, then every run is finite. -/
theorem terminating_of_rank {β : Type w} [Preorder β] [WellFoundedLT β] (r : σ → β)
    (hr : ∀ s a s', T.Reachable s → T.step s a s' → r s' < r s) : T.Terminating := by
  intro f h0 hf
  have hanti : StrictAnti fun n => r (f n) := strictAnti_nat_of_succ_lt fun n => by
    obtain ⟨a, ha⟩ := hf n
    exact hr _ a _ (reachable_of_infinite h0 hf n) ha
  exact not_strictAnti_of_wellFoundedLT _ hanti

/-- A run is no longer than a rank that each of its steps decreases, as long as it passes through
states with `I` and takes actions with `Q`. -/
theorem Run.length_add_rank_le {I : σ → Prop} {Q : α → Prop} (r : σ → ℕ)
    (hr : ∀ s a s', I s → Q a → T.step s a s' → I s' ∧ r s' < r s) {s s' : σ} {tr : List α}
    (h : T.Run s tr s') (hI : I s) (hQ : ∀ a ∈ tr, Q a) : I s' ∧ tr.length + r s' ≤ r s := by
  induction h with
  | nil => exact ⟨hI, (Nat.zero_add _).le⟩
  | @snoc tr s₁ s₂ a _ hstep ih =>
    obtain ⟨hI₁, hle⟩ := ih fun b hb => hQ b (List.mem_append_left _ hb)
    obtain ⟨hI₂, hlt⟩ := hr s₁ a s₂ hI₁ (hQ a (List.mem_append_right _ List.mem_cons_self)) hstep
    refine ⟨hI₂, ?_⟩
    rw [List.length_append, List.length_singleton]
    omega

/-- In an infinite run only the steps that do not decrease a rank are left from some point on. -/
theorem eventually_of_rank {Q : σ → σ → Prop} (r : σ → ℕ)
    (hr : ∀ s a s', T.Reachable s → T.step s a s' → r s' < r s ∨ r s' = r s ∧ Q s s')
    {f : ℕ → σ} (h0 : f 0 = T.init) (hf : ∀ n, ∃ a, T.step (f n) a (f (n + 1))) :
    ∃ m, ∀ n, m ≤ n → Q (f n) (f (n + 1)) := by
  have hstep : ∀ n, r (f (n + 1)) < r (f n) ∨ r (f (n + 1)) = r (f n) ∧ Q (f n) (f (n + 1)) :=
    fun n => by
      obtain ⟨a, ha⟩ := hf n
      exact hr _ a _ (reachable_of_infinite h0 hf n) ha
  have hanti : Antitone fun n => r (f n) := antitone_nat_of_succ_le fun n => by
    rcases hstep n with hlt | ⟨heq, -⟩
    · exact hlt.le
    · exact heq.le
  -- Behind a state of the least rank no step decreases it.
  obtain ⟨m, hm⟩ : ∃ m, ∀ n, r (f m) ≤ r (f n) :=
    ⟨Function.argmin fun n => r (f n), fun n => Function.argmin_le (fun n => r (f n)) n⟩
  refine ⟨m, fun n hn => ?_⟩
  rcases hstep n with hlt | ⟨-, hQ⟩
  · exact absurd (hlt.trans_le (hanti hn)) (Nat.not_lt_of_le (hm (n + 1)))
  · exact hQ

/-- An infinite run whose other steps decrease a rank does not leave some state any more. -/
theorem eventually_const_of_rank (r : σ → ℕ)
    (hr : ∀ s a s', T.Reachable s → T.step s a s' → r s' < r s ∨ s' = s) {f : ℕ → σ}
    (h0 : f 0 = T.init) (hf : ∀ n, ∃ a, T.step (f n) a (f (n + 1))) :
    ∃ m, ∀ n, m ≤ n → f n = f m := by
  obtain ⟨m, hm⟩ := eventually_of_rank (Q := fun s s' => s' = s) r
    (fun s a s' hs hstep => (hr s a s' hs hstep).imp_right fun he => ⟨congrArg r he, he⟩) h0 hf
  refine ⟨m, fun n hn => ?_⟩
  induction n, hn using Nat.le_induction with
  | base => rfl
  | succ n hn ih => exact (hm n hn).trans ih

/-- A terminating system has a reachable state in which no step is enabled: the end of a
maximal run. -/
theorem Terminating.exists_not_enabled (h : T.Terminating) :
    ∃ s, T.Reachable s ∧ ¬ T.Enabled s := by
  by_contra hne
  push Not at hne
  choose act next hnext using hne
  -- Otherwise every reachable state has a next one, and choosing it again and again is a run.
  let f : ℕ → {s // T.Reachable s} := fun n =>
    Nat.rec ⟨T.init, .init⟩ (fun _ s => ⟨next s.1 s.2, s.2.step (hnext s.1 s.2)⟩) n
  exact h (fun n => (f n).1) rfl fun n => ⟨act (f n).1 (f n).2, hnext (f n).1 (f n).2⟩

end LTS

end TmcExamples
