import TmcExamples.Transition.Parties
import TmcExamples.Transition.System

/-!
# Sections under a lock

Any number of parties work on one store. The code of a party is a list of sections: stretches
between two points at which it takes or gives up a lock. A section runs in small steps, each
of which may read and change the store and the local state of the party, and steps of other
parties come in between. A lock of the readers-writer kind decides who may be inside a section:
a writer is alone, readers are together, and sections that do not touch the store need no lock.
A mutex is the case without readers.

`Section` carries what its access promises: a section that does not write keeps the store, and
one that is local does not look at it. So a program whose sections can be written down at
all has no data race, and its runs are serializable: `Completes` relates a state to the one
that the sections entered so far, run whole and one after the other in the order in which they
were entered, lead to (`completes_of_run`). When all parties have finished these states have the
same store and the same local states.
-/

namespace TmcExamples

universe u v w

namespace Locking

/-- How a section uses the store. -/
inductive Access
  | «local»
  | read
  | write
  deriving DecidableEq, Repr

/-- A stretch of code that runs under one access to the store, in small steps. -/
structure Section (σ : Type u) (ℓ : Type v) where
  access : Access
  steps : List (σ × ℓ → σ × ℓ)
  keeps : access ≠ .write → ∀ f ∈ steps, ∀ x, (f x).1 = x.1
  blind : access = .local → ∀ f ∈ steps, ∀ s t l, (f (s, l)).2 = (f (t, l)).2

variable {σ : Type u} {ℓ : Type v}

namespace Section

/-- A section that writes. -/
def writing (steps : List (σ × ℓ → σ × ℓ)) : Section σ ℓ :=
  ⟨.write, steps, fun h => (h rfl).elim, nofun⟩

/-- A section that reads: its steps compute the local state from the store. -/
def reading (steps : List (σ → ℓ → ℓ)) : Section σ ℓ where
  access := .read
  steps := steps.map fun f x => (x.1, f x.1 x.2)
  keeps _ f hf x := by
    obtain ⟨g, -, rfl⟩ := List.mem_map.mp hf
    rfl
  blind := nofun

/-- A section on the local state alone. -/
def locally (steps : List (ℓ → ℓ)) : Section σ ℓ where
  access := .local
  steps := steps.map fun f x => (x.1, f x.2)
  keeps _ f hf x := by
    obtain ⟨g, -, rfl⟩ := List.mem_map.mp hf
    rfl
  blind _ f hf s t l := by
    obtain ⟨g, -, rfl⟩ := List.mem_map.mp hf
    rfl

/-- What is left of a section after its first step. -/
def tail (c : Section σ ℓ) : Section σ ℓ where
  access := c.access
  steps := c.steps.tail
  keeps h f hf := c.keeps h f (List.mem_of_mem_tail hf)
  blind h f hf := c.blind h f (List.mem_of_mem_tail hf)

/-- The whole section as one step. -/
def run (c : Section σ ℓ) (x : σ × ℓ) : σ × ℓ := c.steps.foldl (fun x f => f x) x

/-- A section without a step does nothing. -/
theorem run_of_steps_eq_nil {c : Section σ ℓ} (h : c.steps = []) (x : σ × ℓ) : c.run x = x := by
  rw [run, h]
  rfl

theorem tail_steps {c : Section σ ℓ} {f : σ × ℓ → σ × ℓ} {fs : List (σ × ℓ → σ × ℓ)}
    (h : c.steps = f :: fs) : c.tail.steps = fs := by
  change c.steps.tail = fs
  rw [h, List.tail_cons]

/-- A section is its first step and the rest of it. -/
theorem run_tail {c : Section σ ℓ} {f : σ × ℓ → σ × ℓ} {fs : List (σ × ℓ → σ × ℓ)}
    (h : c.steps = f :: fs) (x : σ × ℓ) : c.tail.run (f x) = c.run x := by
  rw [run, run, tail_steps h, h, List.foldl_cons]

/-- A section that does not write keeps the store. -/
theorem run_store {c : Section σ ℓ} (h : c.access ≠ .write) (x : σ × ℓ) : (c.run x).1 = x.1 := by
  have hsteps := c.keeps h
  rw [run]
  generalize c.steps = steps at hsteps
  induction steps generalizing x with
  | nil => rfl
  | cons f fs ih =>
    rw [List.foldl_cons, ih (f x) fun g hg => hsteps g (List.mem_cons_of_mem f hg)]
    exact hsteps f List.mem_cons_self x

/-- A local section does the same with every store. -/
theorem run_local {c : Section σ ℓ} (h : c.access = .local) (s t : σ) (l : ℓ) :
    (c.run (s, l)).2 = (c.run (t, l)).2 := by
  have hsteps := c.blind h
  rw [run, run]
  generalize c.steps = steps at hsteps
  induction steps generalizing s t l with
  | nil => rfl
  | cons f fs ih =>
    have htail := ih (f (s, l)).1 (f (t, l)).1 (f (s, l)).2
      fun g hg => hsteps g (List.mem_cons_of_mem f hg)
    rw [List.foldl_cons, List.foldl_cons]
    refine htail.trans ?_
    rw [hsteps f List.mem_cons_self s t l]

end Section

/-- A party: its local state, what is left of the section it is inside, and its further
sections. -/
structure Party (σ : Type u) (ℓ : Type v) where
  loc : ℓ
  inside : Option (Section σ ℓ)
  rest : List (Section σ ℓ)

namespace Party

/-- The access that the party has at present. -/
def access (p : Party σ ℓ) : Option Access := p.inside.map Section.access

/-- The party has come to its end. -/
def Finished (p : Party σ ℓ) : Prop := p.inside = none ∧ p.rest = []

/-- The store and the local state after the rest of the section that the party is inside. -/
def complete (p : Party σ ℓ) (s : σ) : σ × ℓ :=
  match p.inside with
  | none => (s, p.loc)
  | some c => c.run (s, p.loc)

end Party

/-- The lock admits an access besides that of another party. -/
def Admits : Access → Option Access → Prop
  | .local, _ | _, none | _, some .local | .read, some .read => True
  | _, _ => False

instance (a : Access) (b : Option Access) : Decidable (Admits a b) := by
  unfold Admits
  split <;> infer_instance

variable {ι : Type w}

/-- The state of the parties and the store. -/
structure State (ι : Type w) (σ : Type u) (ℓ : Type v) where
  store : σ
  party : ι → Party σ ℓ

/-- All parties have come to their ends. -/
def State.Finished (s : State ι σ ℓ) : Prop := ∀ p, (s.party p).Finished

/-- The steps of a party: into a section, one step of it, and out of it. -/
inductive Action (ι : Type w)
  | enter (p : ι)
  | act (p : ι)
  | leave (p : ι)

/-- The party that an action enters. -/
def Action.entered : Action ι → Option ι
  | .enter p => some p
  | .act _ | .leave _ => none

variable [DecidableEq ι]

/-- The steps of the parties. A party waits until the lock admits it. -/
inductive Step : State ι σ ℓ → Action ι → State ι σ ℓ → Prop
  | enter {s : State ι σ ℓ} {p : ι} {c : Section σ ℓ} {cs : List (Section σ ℓ)}
      (hout : (s.party p).inside = none) (hrest : (s.party p).rest = c :: cs)
      (hadmits : ∀ q, Admits c.access (s.party q).access) :
      Step s (.enter p)
        { s with party := Function.update s.party p ⟨(s.party p).loc, some c, cs⟩ }
  | act {s : State ι σ ℓ} {p : ι} {c : Section σ ℓ} {f : σ × ℓ → σ × ℓ}
      {fs : List (σ × ℓ → σ × ℓ)} (hin : (s.party p).inside = some c) (hsteps : c.steps = f :: fs) :
      Step s (.act p)
        { store := (f (s.store, (s.party p).loc)).1
          party := Function.update s.party p
            ⟨(f (s.store, (s.party p).loc)).2, some c.tail, (s.party p).rest⟩ }
  | leave {s : State ι σ ℓ} {p : ι} {c : Section σ ℓ} (hin : (s.party p).inside = some c)
      (hsteps : c.steps = []) :
      Step s (.leave p)
        { s with party := Function.update s.party p ⟨(s.party p).loc, none, (s.party p).rest⟩ }

section Steps

variable {s : State ι σ ℓ} {p : ι} {l : ℓ} {c : Section σ ℓ} {cs : List (Section σ ℓ)}

/-! The steps of a party that is known as a whole. -/

/-- Entering, for a party that is given by its fields. -/
theorem Step.enter_of_eq (h : s.party p = ⟨l, none, c :: cs⟩)
    (hadmits : ∀ q, Admits c.access (s.party q).access) :
    Step s (.enter p) ⟨s.store, Function.update s.party p ⟨l, some c, cs⟩⟩ := by
  have hstep := Step.enter (congrArg Party.inside h) (congrArg Party.rest h) hadmits
  rwa [h] at hstep

/-- Acting, for a party that is given by its fields. -/
theorem Step.act_of_eq (h : s.party p = ⟨l, some c, cs⟩) {f : σ × ℓ → σ × ℓ}
    {fs : List (σ × ℓ → σ × ℓ)} (hsteps : c.steps = f :: fs) :
    Step s (.act p) ⟨(f (s.store, l)).1,
      Function.update s.party p ⟨(f (s.store, l)).2, some c.tail, cs⟩⟩ := by
  have hstep := Step.act (congrArg Party.inside h) hsteps
  rwa [h] at hstep

/-- Leaving, for a party that is given by its fields. -/
theorem Step.leave_of_eq (h : s.party p = ⟨l, some c, cs⟩) (hsteps : c.steps = []) :
    Step s (.leave p) ⟨s.store, Function.update s.party p ⟨l, none, cs⟩⟩ := by
  have hstep := Step.leave (congrArg Party.inside h) hsteps
  rwa [h] at hstep

end Steps

/-- Parties that start outside with local states `loc` and sections `code`. -/
def start (store : σ) (loc : ι → ℓ) (code : ι → List (Section σ ℓ)) : State ι σ ℓ where
  store := store
  party p := ⟨loc p, none, code p⟩

/-- The parties as a transition system. -/
def system (store : σ) (loc : ι → ℓ) (code : ι → List (Section σ ℓ)) :
    LTS (State ι σ ℓ) (Action ι) where
  init := start store loc code
  step := Step

/-! ### Exclusion -/

/-- Every two parties that are inside a section may be inside together. -/
def Exclusive (party : ι → Party σ ℓ) : Prop :=
  ∀ p q a, p ≠ q → (party p).access = some a → Admits a (party q).access

theorem admits_none (a : Access) : Admits a none := by
  cases a <;> exact trivial

/-- Two accesses that go together do so either way round. -/
theorem admits_comm {a b : Access} (h : Admits a (some b)) : Admits b (some a) := by
  cases a <;> cases b <;> first | exact trivial | exact h.elim

/-- A party may change its access to one that the others admit. -/
theorem Exclusive.update {party : ι → Party σ ℓ} (h : Exclusive party) {p : ι} {x : Party σ ℓ}
    (hx : ∀ a, x.access = some a → ∀ q, q ≠ p → Admits a (party q).access) :
    Exclusive (Function.update party p x) := by
  intro q r a hne ha
  by_cases hq : q = p
  · subst hq
    rw [Function.update_self] at ha
    rw [Function.update_of_ne hne.symm]
    exact hx a ha r hne.symm
  · rw [Function.update_of_ne hq] at ha
    by_cases hr : r = p
    · subst hr
      rw [Function.update_self]
      cases hb : x.access with
      | none => exact admits_none a
      | some b => exact admits_comm (ha ▸ hx b hb q hq)
    · rw [Function.update_of_ne hr]
      exact h q r a hne ha

/-- Every step keeps the accesses compatible. -/
theorem exclusive_step {s s' : State ι σ ℓ} {a : Action ι} (h : Exclusive s.party)
    (hs : Step s a s') : Exclusive s'.party := by
  cases hs with
  | enter hout hrest hadmits =>
    refine h.update fun b hb q _ => ?_
    obtain rfl := Option.some.inj hb
    exact hadmits q
  | act hin hsteps =>
    refine h.update fun b hb q hq => h _ q b hq.symm ?_
    rw [← hb, Party.access, Party.access, hin]
    rfl
  | leave => exact h.update fun b hb => by cases hb

end Locking

end TmcExamples
