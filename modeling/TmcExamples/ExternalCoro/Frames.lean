import TmcExamples.ExternalCoro.Calls

/-!
# The machine refines the calls

As long as no `external_coro<void>` is awaited, the machine of frames does what the calls say:
from a state in which a coroutine is about to execute a body, it takes the steps of the `trace`
of the body and gets to the `co_return` of its `value` (`run_body`). The frames that have been
created on the way are destroyed, and those that exist otherwise are as before (`Completes`).
The induction is on the body. For a `co_await` the awaited body is executed in a new frame, and
`run_return` takes its value to the awaiter, over the steps of `return_value`, `final_suspend`
and `await_resume`.

If an `external_coro<void>` is awaited, then the first one that returns ends the run, and its
awaiter is still suspended (`run_lost`).
-/

namespace TmcExamples

namespace ExternalCoro

variable {V : Type}

namespace State

variable (s : State V) {f g : ℕ}

@[simp] theorem setPoint_self (p : Point V) :
    (s.setPoint f p).frame f = { s.frame f with point := p } := Function.update_self ..

theorem setPoint_of_ne (p : Point V) (h : g ≠ f) : (s.setPoint f p).frame g = s.frame g :=
  Function.update_of_ne h ..

@[simp] theorem setPoint_next (p : Point V) : (s.setPoint f p).next = s.next := rfl

@[simp] theorem setPoint_control (p : Point V) : (s.setPoint f p).control = s.control := rfl

@[simp] theorem setPoint_promised (p : Point V) : (s.setPoint f p).promised = s.promised := rfl

end State

/-- What `await_suspend` puts into the promise of a coroutine. -/
def CoroType.resultPtr (outer : ℕ) : CoroType → Option ℕ
  | .externalVoid => none
  | .external | .task => some outer

/-- The state after a `co_await`: the awaited coroutine has control, in the new frame. -/
structure Awaited (s : State V) (f : ℕ) (type : CoroType) (child : Body V) (v : V)
    (rest : type.Result V → Body V) (s' : State V) : Prop where
  control : s'.control = .running s.next
  inner : s'.frame s.next = ⟨type, .active child, some f, type.resultPtr f⟩
  outer : s'.frame f = { s.frame f with point := .awaiting ⟨type, s.next, v⟩ rest }
  others : ∀ g, g ≠ s.next → g ≠ f → s'.frame g = s.frame g
  next : s'.next = s.next + 1
  promised : s'.promised = s.promised

/-- A `co_await` makes a frame for the child and remembers who awaits it. -/
theorem awaited_coAwait (s : State V) {f : ℕ} (hf : f ≠ s.next) (type : CoroType)
    (child : Body V) (v : V) (rest : type.Result V → Body V) :
    Awaited s f type child v rest (s.coAwait f type child v rest) := by
  cases type <;> constructor <;>
    simp +contextual [State.coAwait, State.create, State.setPoint, State.setFrame,
      State.awaitSuspend, State.resume, CoroType.resultPtr, hf, hf.symm, Function.update_of_ne]

variable [Inhabited V] (entry : Entry) (body : Body V)

/-- **Return.** An awaited coroutine with a result that is about to return hands its value to
the awaiter, which then has control, and is destroyed. -/
theorem run_return {s : State V} {n f : ℕ} {type : CoroType} {v d : V}
    {rest : type.Result V → Body V} (htype : type ≠ .externalVoid) (hne : n ≠ f)
    (hctl : s.control = .running n)
    (hn : s.frame n = ⟨type, .active (.coReturn v), some f, some f⟩)
    (hf : (s.frame f).point = .awaiting ⟨type, n, d⟩ rest) :
    ∃ s', (system entry body).Run s [.coReturn n, .transfer n (some f), .destroy n] s' ∧
      s'.control = .running f ∧
      s'.frame f = { s.frame f with point := .active (rest (type.get v)) } ∧
      (s'.frame n).point = .destroyed ∧ (∀ g, g ≠ n → g ≠ f → s'.frame g = s.frame g) ∧
      s'.next = s.next ∧ s'.promised = s.promised := by
  -- The states after the return, after the transfer and after the destruction.
  let aw : Awaiter V := ⟨type, n, v⟩
  let s₁ : State V := (s.setPoint f (.awaiting aw rest)).setPoint n .finalSuspend
  let s₂ : State V :=
    { (s₁.setPoint n .suspended).setPoint f (.awaitResume aw rest) with control := .running f }
  let s₃ : State V := (s₂.setPoint n .destroyed).setPoint f (.active (rest (type.get v)))
  have hn₁ : s₁.frame n = ⟨type, .finalSuspend, some f, some f⟩ := by
    simp [s₁, State.setPoint_of_ne _ _ hne, hn]
  have hf₁ : (s₁.frame f).point = .awaiting aw rest := by
    simp [s₁, State.setPoint_of_ne _ _ hne.symm]
  have hn₂ : (s₂.frame n).point = .suspended := by
    simp [s₂, State.setPoint_of_ne _ _ hne]
  have hf₂ : (s₂.frame f).point = .awaitResume aw rest := by simp [s₂]
  have hret : s.returnValue n v = s.setPoint f (.awaiting aw rest) := by
    cases type with
    | externalVoid => exact (htype rfl).elim
    | external | task => simp [State.returnValue, State.writeResult, hn, hf, aw]
  have hfinal : s₁.finalSuspend n = (.transfer n (some f), s₂) := by
    have htransfer : s₁.transfer n = s₂ := by
      simp [State.transfer, State.resume, hn₁, State.setPoint_of_ne _ _ hne.symm, hf₁, s₂]
    cases type with
    | externalVoid => exact (htype rfl).elim
    | external | task => simp [State.finalSuspend, hn₁, htransfer]
  have hstep₁ : step s = some (.coReturn n, s₁) := by
    simp [step, hctl, hn, hret, s₁]
  have hstep₂ : step s₁ = some (.transfer n (some f), s₂) := by
    have hctl₁ : s₁.control = .running n := hctl
    simp [step, hctl₁, hn₁, hfinal]
  have hstep₃ : step s₂ = some (.destroy n, s₃) := by
    have hctl₂ : s₂.control = .running f := rfl
    simp [step, hctl₂, hf₂, State.awaitResume, State.destroy, aw, hn₂, s₃]
  refine ⟨s₃, ((LTS.Run.nil.snoc hstep₁).snoc hstep₂).snoc hstep₃, rfl, ?_, ?_, ?_, rfl, rfl⟩
  · simp [s₃, s₂, s₁, State.setPoint_of_ne _ _ hne.symm]
  · simp [s₃, State.setPoint_of_ne _ _ hne]
  · intro g hgn hgf
    simp [s₃, s₂, s₁, State.setPoint_of_ne _ _ hgn, State.setPoint_of_ne _ _ hgf]

/-- At its end the coroutine is destroyed at once, and nothing is resumed: it is an
`external_coro<void>`, or a `tmc::task` that is not awaited. -/
def Frame.Detached (x : Frame V) : Prop :=
  x.type = .externalVoid ∨ x.type = .task ∧ x.continuation = none ∧ x.resultPtr = none

/-- What such a coroutine of the type puts into a promise when it returns. -/
def CoroType.promise (v : V) : CoroType → List V
  | .task => [v]
  | .external | .externalVoid => []

/-- **Finish.** When such a coroutine returns, control returns. -/
theorem run_finish {s : State V} {f : ℕ} {v : V} (hctl : s.control = .running f)
    (hpoint : (s.frame f).point = .active (.coReturn v)) (hdetached : (s.frame f).Detached) :
    ∃ s', (system entry body).Run s [.coReturn f, .destroy f] s' ∧ s'.control = .returned ∧
      (s'.frame f).point = .destroyed ∧ (∀ g, g ≠ f → s'.frame g = s.frame g) ∧
      s'.next = s.next ∧ s'.promised = s.promised ++ (s.frame f).type.promise v := by
  let s₁ : State V := (s.returnValue f v).setPoint f .finalSuspend
  have hstep₁ : step s = some (.coReturn f, s₁) := by simp [step, hctl, hpoint, s₁]
  have hframe : (s.returnValue f v).frame = s.frame ∧ (s.returnValue f v).next = s.next ∧
      (s.returnValue f v).control = .running f ∧
      (s.returnValue f v).promised = s.promised ++ (s.frame f).type.promise v := by
    rcases hdetached with htype | ⟨htype, -, hptr⟩
    · simp [State.returnValue, CoroType.promise, htype, hctl]
    · simp [State.returnValue, CoroType.promise, htype, hptr, hctl]
  obtain ⟨hframe, hnext, hctl₁, hpromised⟩ := hframe
  have hfinal : s₁.finalSuspend f = (.destroy f, s₁.finish f) := by
    rcases hdetached with htype | ⟨htype, hcont, -⟩
    · simp [State.finalSuspend, s₁, hframe, htype]
    · simp [State.finalSuspend, s₁, hframe, htype, hcont]
  have hstep₂ : step s₁ = some (.destroy f, s₁.finish f) := by
    have hctl₁' : s₁.control = .running f := hctl₁
    have hpoint₁ : (s₁.frame f).point = .finalSuspend := by simp [s₁]
    simp only [step, hctl₁', hpoint₁, hfinal]
  refine ⟨s₁.finish f, (LTS.Run.single hstep₁).snoc hstep₂, rfl, by simp [State.finish],
    fun g hg => ?_, hnext, hpromised⟩
  simp [State.finish, s₁, State.setPoint_of_ne _ _ hg, hframe]

/-! ### Proceeding in a body -/

section Proceeds

omit [Inhabited V]

/-- Coroutine `f` has gone on to body `b`. On the way `k` coroutines have been called and
destroyed and the values `vs` have been put into a promise; the other frames are unchanged. -/
structure Proceeds (s : State V) (f : ℕ) (b : Body V) (k : ℕ) (vs : List V) (s' : State V) :
    Prop where
  control : s'.control = .running f
  self : s'.frame f = { s.frame f with point := .active b }
  others : ∀ g < s.next, g ≠ f → s'.frame g = s.frame g
  destroyed : ∀ g, s.next ≤ g → g < s'.next → (s'.frame g).point = .destroyed
  next : s'.next = s.next + k
  promised : s'.promised = s.promised ++ vs

theorem Proceeds.refl {s : State V} {f : ℕ} {b : Body V} (hctl : s.control = .running f)
    (hpoint : (s.frame f).point = .active b) : Proceeds s f b 0 [] s where
  control := hctl
  self := hpoint ▸ rfl
  others _ _ _ := rfl
  destroyed _ hle hlt := absurd hlt (Nat.not_lt_of_le hle)
  next := rfl
  promised := (List.append_nil _).symm

/-- Two stretches of one coroutine make a longer one. -/
theorem Proceeds.trans {s₁ s₂ s₃ : State V} {f k₁ k₂ : ℕ} {b₁ b₂ : Body V} {vs₁ vs₂ : List V}
    (h₁ : Proceeds s₁ f b₁ k₁ vs₁ s₂) (h₂ : Proceeds s₂ f b₂ k₂ vs₂ s₃) (hf : f < s₁.next) :
    Proceeds s₁ f b₂ (k₁ + k₂) (vs₁ ++ vs₂) s₃ where
  control := h₂.control
  self := by rw [h₂.self, h₁.self]
  others g hg hne := by
    have hlt : g < s₂.next := by
      have := h₁.next
      omega
    rw [h₂.others g hlt hne, h₁.others g hg hne]
  destroyed g hle hlt := by
    rcases Nat.lt_or_ge g s₂.next with hg | hg
    · have hne : g ≠ f := by omega
      rw [h₂.others g hg hne]
      exact h₁.destroyed g hle hg
    · exact h₂.destroyed g hg hlt
  next := by rw [h₂.next, h₁.next, Nat.add_assoc]
  promised := by rw [h₂.promised, h₁.promised, List.append_assoc]

end Proceeds

section Await

variable {s s₁ s₂ : State V} {f : ℕ} {type : CoroType} {child : Body V}
  {rest : type.Result V → Body V}

/-- The frames when an awaited coroutine is about to return. -/
private theorem Awaited.about_to_return (h₁ : Awaited s f type child default rest s₁)
    (hf : f < s.next)
    (h₂ : Proceeds s₁ s.next (.coReturn child.value) child.awaits.length child.promised s₂) :
    s₂.frame s.next = ⟨type, .active (.coReturn child.value), some f, type.resultPtr f⟩ ∧
      s₂.frame f = { s.frame f with point := .awaiting ⟨type, s.next, default⟩ rest } := by
  refine ⟨by rw [h₂.self, h₁.inner], ?_⟩
  have hlt : f < s₁.next := by
    rw [h₁.next]
    omega
  rw [h₂.others f hlt (Nat.ne_of_lt hf), h₁.outer]

/-- **Await.** When the awaited coroutine with a result gets to its `co_return`, the awaiter
proceeds with the value. -/
theorem Awaited.run_return (h₁ : Awaited s f type child default rest s₁) (hf : f < s.next)
    (h₂ : Proceeds s₁ s.next (.coReturn child.value) child.awaits.length child.promised s₂)
    (htype : type ≠ .externalVoid) :
    ∃ s₃, (system entry body).Run s₂
        [.coReturn s.next, .transfer s.next (some f), .destroy s.next] s₃ ∧
      Proceeds s f (rest (type.get child.value)) (child.awaits.length + 1) child.promised s₃ := by
  have hne : s.next ≠ f := (Nat.ne_of_lt hf).symm
  obtain ⟨hinner, houter⟩ := h₁.about_to_return hf h₂
  have hptr : type.resultPtr f = some f := by
    cases type with
    | externalVoid => exact (htype rfl).elim
    | external | task => rfl
  rw [hptr] at hinner
  obtain ⟨s₃, hrun, hctl, hself, hgone, hothers, hnext, hpromised⟩ :=
    ExternalCoro.run_return entry body htype hne h₂.control hinner (congrArg Frame.point houter)
  have hnext₁ := h₁.next
  have hnext₂ := h₂.next
  refine ⟨s₃, hrun, hctl, by rw [hself, houter], ?_, ?_, by omega,
    by rw [hpromised, h₂.promised, h₁.promised]⟩
  · intro g hg hgf
    rw [hothers g (by omega) hgf, h₂.others g (by omega) (by omega), h₁.others g (by omega) hgf]
  · intro g hle hlt
    rcases Nat.eq_or_lt_of_le hle with rfl | hlt'
    · exact hgone
    · rw [hothers g (by omega) (by omega)]
      exact h₂.destroyed g (by omega) (by omega)

end Await

/-- **Refinement.** A body under which no `external_coro<void>` is awaited takes the steps of its
trace and gets to the `co_return` of its value. -/
theorem run_body (b : Body V) {s : State V} {f : ℕ} (hctl : s.control = .running f)
    (hpoint : (s.frame f).point = .active b) (hf : f < s.next)
    (hvoid : .externalVoid ∉ b.awaits) :
    ∃ s', (system entry body).Run s (b.trace f s.next) s' ∧
      Proceeds s f (.coReturn b.value) b.awaits.length b.promised s' := by
  induction b generalizing s f with
  | coReturn v => exact ⟨s, .nil, .refl hctl hpoint⟩
  | setValue v rest ih =>
    let s₁ : State V := { s.setPoint f (.active rest) with promised := s.promised ++ [v] }
    have hstep : step s = some (.setValue f, s₁) := by simp [step, hctl, hpoint, s₁]
    have hpoint₁ : (s₁.frame f).point = .active rest := by simp [s₁]
    obtain ⟨s', hrun, hend⟩ := ih (s := s₁) hctl hpoint₁ hf hvoid
    have hfirst : Proceeds s f rest 0 [v] s₁ :=
      ⟨hctl, s.setPoint_self _, fun g _ hg => s.setPoint_of_ne _ hg,
        fun g hle hlt => absurd hlt (Nat.not_lt_of_le hle), rfl, rfl⟩
    exact ⟨s', hrun.cons hstep, Nat.zero_add rest.awaits.length ▸ hfirst.trans hend hf⟩
  | coAwait type child rest ihc ihr =>
    obtain ⟨htype, hchild, hrest⟩ : type ≠ .externalVoid ∧ .externalVoid ∉ child.awaits ∧
        .externalVoid ∉ (rest (type.get child.value)).awaits := by
      simpa [Body.awaits, eq_comm] using hvoid
    have haw := awaited_coAwait s (Nat.ne_of_lt hf) type child default rest
    have hstep : step s = some (.coAwait f s.next, s.coAwait f type child default rest) := by
      simp [step, hctl, hpoint]
    have hpoint₁ := congrArg Frame.point haw.inner
    -- The awaited coroutine runs to its return and hands over its value; then the awaiter proceeds.
    obtain ⟨s₂, hrun₂, hend₂⟩ := ihc haw.control hpoint₁ (by rw [haw.next]; omega) hchild
    obtain ⟨s₃, hrun₃, hend₃⟩ := haw.run_return entry body hf hend₂ htype
    have hnext₃ := hend₃.next
    obtain ⟨s₄, hrun₄, hend₄⟩ :=
      ihr _ hend₃.control (congrArg Frame.point hend₃.self) (by omega) hrest
    refine ⟨s₄, ?_, ?_⟩
    · have hfree : s.next + (child.awaits.length + 1) = s.next + 1 + child.awaits.length := by
        omega
      have hrun := (((LTS.Run.single hstep).trans hrun₂).trans hrun₃).trans hrun₄
      rw [haw.next, hnext₃, hfree] at hrun
      simpa [Body.trace, List.append_assoc] using hrun
    · have hlength : child.awaits.length + 1 + (rest (type.get child.value)).awaits.length =
          (Body.coAwait type child rest).awaits.length := by
        simp only [Body.awaits, List.length_cons, List.length_append]
        omega
      exact hlength ▸ hend₃.trans hend₄ hf

/-- **Lost continuation.** A body under which an `external_coro<void>` is awaited gets to a state
in which control has returned and a coroutine is still suspended in its `co_await`. -/
theorem run_lost (b : Body V) {s : State V} {f : ℕ} (hctl : s.control = .running f)
    (hpoint : (s.frame f).point = .active b) (hf : f < s.next)
    (hvoid : .externalVoid ∈ b.awaits) :
    ∃ tr s' g, (system entry body).Run s tr s' ∧ s'.control = .returned ∧ g < s'.next ∧
      (s'.frame g).point.Awaiting := by
  induction b generalizing s f with
  | coReturn v => exact absurd hvoid List.not_mem_nil
  | setValue v rest ih =>
    let s₁ : State V := { s.setPoint f (.active rest) with promised := s.promised ++ [v] }
    have hstep : step s = some (.setValue f, s₁) := by simp [step, hctl, hpoint, s₁]
    have hpoint₁ : (s₁.frame f).point = .active rest := by simp [s₁]
    obtain ⟨tr, s', g, hrun, hend⟩ := ih (s := s₁) hctl hpoint₁ hf hvoid
    exact ⟨_, s', g, hrun.cons hstep, hend⟩
  | coAwait type child rest ihc ihr =>
    have haw := awaited_coAwait s (Nat.ne_of_lt hf) type child default rest
    have hstep : step s = some (.coAwait f s.next, s.coAwait f type child default rest) := by
      simp [step, hctl, hpoint]
    have hpoint₁ := congrArg Frame.point haw.inner
    have hlt₁ : s.next < (s.coAwait f type child default rest).next := by
      rw [haw.next]
      omega
    by_cases hchild : .externalVoid ∈ child.awaits
    · -- The continuation is lost below the awaited coroutine.
      obtain ⟨tr, s', g, hrun, hend⟩ := ihc haw.control hpoint₁ hlt₁ hchild
      exact ⟨_, s', g, hrun.cons hstep, hend⟩
    obtain ⟨s₂, hrun₂, hend₂⟩ := run_body entry body child haw.control
      hpoint₁ hlt₁ hchild
    by_cases htype : type = .externalVoid
    · -- The awaited coroutine is the one that does not resume its continuation.
      subst htype
      obtain ⟨hinner, houter⟩ := haw.about_to_return hf hend₂
      obtain ⟨s₃, hrun₃, hctl₃, -, hothers, hnext₃, -⟩ := run_finish entry body
        hend₂.control (congrArg Frame.point hinner) (Or.inl (congrArg Frame.type hinner))
      have hlt₃ : f < s₃.next := by
        rw [hnext₃, hend₂.next, haw.next]
        omega
      refine ⟨_, s₃, f, (hrun₂.cons hstep).trans hrun₃, hctl₃, hlt₃, ?_⟩
      rw [hothers f (Nat.ne_of_lt hf), houter]
      trivial
    · -- The awaiter proceeds, and the continuation is lost in the rest of its body.
      have hrest : .externalVoid ∈ (rest (type.get child.value)).awaits := by
        simpa [Body.awaits, hchild, eq_comm, htype] using hvoid
      obtain ⟨s₃, hrun₃, hend₃⟩ := haw.run_return entry body hf hend₂ htype
      obtain ⟨tr, s', g, hrun, hend⟩ := ihr _ hend₃.control (congrArg Frame.point hend₃.self)
        (by rw [hend₃.next]; omega) hrest
      exact ⟨_, s', g, ((hrun₂.cons hstep).trans hrun₃).trans hrun, hend⟩

end ExternalCoro

end TmcExamples
