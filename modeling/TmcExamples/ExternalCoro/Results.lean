import TmcExamples.ExternalCoro.Frames

/-!
# Results are written before they are read

When all the coroutines of a nesting return one value `v` (`Body.Returns`), the awaiter of a
coroutine that is about to transfer to its continuation has `v` for its `result`: the value has
been written through `result_ptr`, by the coroutine that has just returned. The invariant
(`Written`) keeps what every frame promises to return, and that the two members of a promise lead
to the same frame.
-/

namespace TmcExamples

namespace ExternalCoro

variable {V : Type}

/-- The coroutine of type `c` with this body, and those that it awaits, return `v`, if those that
it awaits do. -/
def Body.Returns (v : V) : CoroType → Body V → Prop
  | c, .coReturn x => c ≠ .externalVoid → x = v
  | c, .setValue _ rest => rest.Returns v c
  | c, .coAwait type child rest => child.Returns v type ∧ (rest (type.get v)).Returns v c

/-- The same of the point that a coroutine is at. -/
def Point.Returns (v : V) (c : CoroType) : Point V → Prop
  | .initialSuspend body | .active body => body.Returns v c
  | .awaiting aw rest => (rest (aw.type.get v)).Returns v c
  | .awaitResume aw rest => aw.result = v ∧ (rest (aw.type.get v)).Returns v c
  | .finalSuspend | .suspended | .destroyed => True

/-- A frame that will return `v` to the awaiter that its continuation is suspended in. -/
structure Frame.Returns (v : V) (x : Frame V) : Prop where
  point : x.point.Returns v x.type
  resultPtr : x.type ≠ .externalVoid → x.resultPtr = x.continuation

/-- The coroutine that is about to transfer to its continuation has written `v`. -/
def FinalWritten (v : V) (s : State V) : Prop :=
  ∀ f outer, s.control = .running f → (s.frame f).point = .finalSuspend →
    (s.frame f).type ≠ .externalVoid → (s.frame f).continuation = some outer →
    ∃ aw rest, (s.frame outer).point = .awaiting aw rest ∧ aw.result = v

/-- The frames of a nesting in which all coroutines return `v`. -/
structure Consistent (v : V) (s : State V) : Prop where
  frames : ∀ f, (s.frame f).Returns v
  fresh : ∀ f, s.next ≤ f → (s.frame f).point = .destroyed

variable {s s' : State V} {v x : V} {f g : ℕ} {p : Point V}

/-! ### The operations -/

namespace Consistent

/-- Consistency is about the frames alone. -/
theorem congr (h : Consistent v s) (hframe : s'.frame = s.frame) (hnext : s'.next = s.next) :
    Consistent v s' :=
  ⟨hframe ▸ h.frames, hframe ▸ hnext ▸ h.fresh⟩

private theorem lt_next (h : Consistent v s) (hf : (s.frame f).point ≠ .destroyed) : f < s.next :=
  Nat.lt_of_not_le fun hle => hf (h.fresh f hle)

/-- Moving one coroutine keeps what the frames promise. -/
theorem setPoint (h : Consistent v s) (hf : f < s.next)
    (hp : p.Returns v (s.frame f).type) : Consistent v (s.setPoint f p) := by
  constructor
  · intro g
    by_cases hg : g = f
    · rw [hg, State.setPoint_self]
      exact ⟨hp, (h.frames f).resultPtr⟩
    · rw [State.setPoint_of_ne _ _ hg]
      exact h.frames g
  · intro g hle
    have hg : g ≠ f := by
      rintro rfl
      exact Nat.not_lt_of_le hle hf
    rw [State.setPoint_of_ne _ _ hg]
    exact h.fresh g hle

/-- The frame of a child that is gone is in nobody's way. -/
theorem destroy (h : Consistent v s) (f : ℕ) : Consistent v (s.destroy f) := by
  rw [State.destroy]
  split
  case h_4 => exact h.congr rfl rfl
  all_goals
    rename_i hpoint
    exact h.setPoint (h.lt_next (by simp [hpoint])) trivial

theorem writeResult (h : Consistent v s) (f : ℕ) (x : V) : Consistent v (s.writeResult f x) := by
  rw [State.writeResult]
  split
  · rename_i aw rest hpoint
    have hreturns := (h.frames f).point
    rw [hpoint] at hreturns
    exact h.setPoint (h.lt_next (by simp [hpoint])) hreturns
  · exact h.congr rfl rfl

theorem returnValue (h : Consistent v s) (f : ℕ) (x : V) : Consistent v (s.returnValue f x) := by
  rw [State.returnValue]
  split
  · exact h
  · exact h.writeResult _ x
  · exact h.writeResult _ x
  · exact h.congr rfl rfl
  · exact h.congr rfl rfl

/-- A coroutine is resumed from a `co_await` only when its result has been written. -/
theorem resume (h : Consistent v s)
    (hwritten : ∀ aw rest, (s.frame f).point = .awaiting aw rest → aw.result = v) :
    Consistent v (s.resume f) := by
  have hreturns := (h.frames f).point
  rw [State.resume]
  split
  · rename_i body hpoint
    rw [hpoint] at hreturns
    exact (h.setPoint (p := .active body) (h.lt_next (by simp [hpoint]))
      hreturns).congr rfl rfl
  · rename_i aw rest hpoint
    rw [hpoint] at hreturns
    exact (h.setPoint (p := .awaitResume aw rest) (h.lt_next (by simp [hpoint]))
      ⟨hwritten aw rest hpoint, hreturns⟩).congr rfl rfl
  · exact h.congr rfl rfl

end Consistent

/-! ### What is about to be transferred -/

private theorem finalWritten_of_not_running (h : ∀ f, s.control ≠ .running f) : FinalWritten v s :=
  fun f _ hctl => (h f hctl).elim

private theorem finalWritten_of_point (hctl : s.control = .running f)
    (hpoint : (s.frame f).point ≠ .finalSuspend) : FinalWritten v s := by
  intro g outer hg hfinal
  rw [hctl] at hg
  obtain rfl := Control.running.inj hg
  exact (hpoint hfinal).elim

private theorem finalWritten_setPoint (hctl : s.control = .running f)
    (h : (s.frame f).type ≠ .externalVoid → ∀ outer, (s.frame f).continuation = some outer →
      outer ≠ f ∧ ∃ aw rest, (s.frame outer).point = .awaiting aw rest ∧ aw.result = v) :
    FinalWritten v (s.setPoint f .finalSuspend) := by
  intro g outer hg hfinal htype hcont
  change s.control = .running g at hg
  rw [hctl] at hg
  cases hg
  rw [State.setPoint_self] at htype hcont
  obtain ⟨hne, haw⟩ := h htype outer hcont
  rwa [State.setPoint_of_ne _ _ hne]

/-- A coroutine that has been resumed is not at its end. -/
private theorem finalWritten_resume (s : State V) (f : ℕ) : FinalWritten v (s.resume f) := by
  rw [State.resume]
  split
  · exact finalWritten_of_point (f := f) rfl (by simp)
  · exact finalWritten_of_point (f := f) rfl (by simp)
  · exact finalWritten_of_not_running (by simp)

/-! ### What the coroutine that has control does -/

/-- `co_return` writes the result before it transfers to the continuation. -/
theorem Consistent.coReturn (h : Consistent v s)
    (hpoint : (s.frame f).point = .active (.coReturn x)) :
    Consistent v ((s.returnValue f x).setPoint f .finalSuspend) := by
  have hnext : (s.returnValue f x).next = s.next := by
    simp only [State.returnValue, State.writeResult]
    split <;> first | rfl | split <;> rfl
  refine (h.returnValue f x).setPoint ?_ trivial
  rw [hnext]
  exact h.lt_next (by simp [hpoint])

/-- A coroutine that is about to transfer has written its result to the awaiter that its
continuation is suspended in. -/
private theorem finalWritten_coReturn (h : Consistent v s) (hctl : s.control = .running f)
    (hpoint : (s.frame f).point = .active (.coReturn x)) :
    FinalWritten v ((s.returnValue f x).setPoint f .finalSuspend) := by
  have hreturns := (h.frames f).point
  rw [hpoint] at hreturns
  -- `result_ptr` leads to the frame that `continuation` leads to.
  have hptr := (h.frames f).resultPtr
  have hwrite (htype : (s.frame f).type ≠ .externalVoid) (o : ℕ)
      (ho : (s.frame f).resultPtr = some o) :
      FinalWritten v ((s.writeResult o x).setPoint f .finalSuspend) := by
    rw [State.writeResult]
    split
    · rename_i aw rest hawaiting
      have hne : f ≠ o := by
        rintro rfl
        rw [hpoint] at hawaiting
        cases hawaiting
      refine finalWritten_setPoint hctl fun _ outer hcont => ?_
      rw [State.setPoint_of_ne _ _ hne, ← hptr htype, ho] at hcont
      obtain rfl := Option.some.inj hcont
      exact ⟨hne.symm, { aw with result := x }, rest, by rw [State.setPoint_self], hreturns htype⟩
    · exact finalWritten_of_not_running (by simp)
  rw [State.returnValue]
  split
  · rename_i htype
    exact finalWritten_setPoint hctl fun hne => (hne htype).elim
  · rename_i htype ho
    exact hwrite (by simp [htype]) _ ho
  · rename_i htype ho
    exact hwrite (by simp [htype]) _ ho
  · rename_i htype ho
    refine finalWritten_setPoint hctl fun hne outer hcont => ?_
    rw [← hptr hne, ho] at hcont
    cases hcont
  · exact finalWritten_of_not_running (by simp)

/-- Setting the promise leaves the frames alone. -/
theorem Consistent.setValue {rest : Body V} (h : Consistent v s) (hctl : s.control = .running f)
    (hpoint : (s.frame f).point = .active (.setValue x rest)) :
    Consistent v { s.setPoint f (.active rest) with promised := s.promised ++ [x] } ∧
      FinalWritten v { s.setPoint f (.active rest) with promised := s.promised ++ [x] } := by
  have hreturns := (h.frames f).point
  rw [hpoint] at hreturns
  have hlt : f < s.next := h.lt_next (by simp [hpoint])
  exact ⟨(h.setPoint (p := .active rest) hlt hreturns).congr rfl rfl,
    finalWritten_of_point (f := f) hctl (by simp)⟩

/-- The new child finds its continuation in place. -/
theorem Consistent.coAwait {type : CoroType} {child : Body V} {rest : type.Result V → Body V}
    (h : Consistent v s) (hpoint : (s.frame f).point = .active (.coAwait type child rest)) (d : V) :
    Consistent v (s.coAwait f type child d rest) ∧
      FinalWritten v (s.coAwait f type child d rest) := by
  have hlt : f < s.next := h.lt_next (by simp [hpoint])
  have haw := awaited_coAwait s (Nat.ne_of_lt hlt) type child d rest
  have hreturns := (h.frames f).point
  rw [hpoint] at hreturns
  refine ⟨⟨?_, ?_⟩, finalWritten_of_point haw.control (by simp [haw.inner])⟩
  · intro g
    by_cases hgn : g = s.next
    · subst hgn
      rw [haw.inner]
      exact ⟨hreturns.1, by cases type <;> simp [CoroType.resultPtr]⟩
    by_cases hgf : g = f
    · subst hgf
      rw [haw.outer]
      exact ⟨hreturns.2, (h.frames g).resultPtr⟩
    rw [haw.others g hgn hgf]
    exact h.frames g
  · intro g hle
    rw [haw.next] at hle
    rw [haw.others g (by omega) (by omega)]
    exact h.fresh g (by omega)

private theorem destroy_cases (s : State V) (f : ℕ) :
    s.destroy f = s.setPoint f .destroyed ∨ s.destroy f = { s with control := .undefined } := by
  rw [State.destroy]
  split <;> simp

/-- The awaiter reads the result and destroys the frame it came from. -/
theorem Consistent.awaitResume {aw : Awaiter V} {rest : aw.type.Result V → Body V}
    (h : Consistent v s) (hctl : s.control = .running f)
    (hpoint : (s.frame f).point = .awaitResume aw rest) :
    Consistent v (s.awaitResume f aw rest) ∧ FinalWritten v (s.awaitResume f aw rest) := by
  have hlt : f < s.next := h.lt_next (by simp [hpoint])
  obtain ⟨hresult, hreturns⟩ :
      aw.result = v ∧ (rest (aw.type.get v)).Returns v (s.frame f).type := by
    have hreturns := (h.frames f).point
    rwa [hpoint] at hreturns
  rw [State.awaitResume, hresult]
  rcases destroy_cases s aw.handle with hdestroy | hdestroy
  · have htype : ((s.setPoint aw.handle .destroyed).frame f).type = (s.frame f).type := by
      by_cases hf : f = aw.handle
      · rw [hf, State.setPoint_self]
      · rw [State.setPoint_of_ne _ _ hf]
    rw [hdestroy]
    exact ⟨(hdestroy ▸ h.destroy aw.handle).setPoint hlt (htype ▸ hreturns),
      finalWritten_of_point (f := f) hctl (by simp)⟩
  · rw [hdestroy]
    exact ⟨(hdestroy ▸ h.destroy aw.handle).setPoint hlt hreturns,
      finalWritten_of_not_running (by simp)⟩

/-- The transfer goes to a coroutine whose awaiter has the result. -/
theorem Consistent.finalSuspend (h : Consistent v s) (hfinal : FinalWritten v s)
    (hctl : s.control = .running f) (hpoint : (s.frame f).point = .finalSuspend) :
    Consistent v (s.finalSuspend f).2 ∧ FinalWritten v (s.finalSuspend f).2 := by
  have hlt : f < s.next := h.lt_next (by simp [hpoint])
  have hfinish : Consistent v (s.finish f) ∧ FinalWritten v (s.finish f) :=
    ⟨(h.setPoint hlt (p := .destroyed) trivial).congr rfl rfl,
      finalWritten_of_not_running (by simp [State.finish])⟩
  have htransfer (htype : (s.frame f).type ≠ .externalVoid) :
      Consistent v (s.transfer f) ∧ FinalWritten v (s.transfer f) := by
    rw [State.transfer]
    split
    · rename_i outer hcont
      obtain ⟨aw, rest, houter, hresult⟩ := hfinal f outer hctl hpoint htype hcont
      have hne : outer ≠ f := by
        rintro rfl
        rw [houter] at hpoint
        cases hpoint
      refine ⟨(h.setPoint hlt (p := .suspended) trivial).resume ?_, finalWritten_resume _ _⟩
      intro aw' rest' hpoint'
      rw [State.setPoint_of_ne _ _ hne, houter] at hpoint'
      cases hpoint'
      exact hresult
    · exact ⟨h.congr rfl rfl, finalWritten_of_not_running (by simp)⟩
  rw [State.finalSuspend]
  split
  · exact hfinish
  · rename_i htype
    exact htransfer (by simp [htype])
  · rename_i htype _
    exact htransfer (by simp [htype])
  · exact hfinish

/-! ### The steps -/

variable [Inhabited V] {a : Action}

/-- What a step can be. -/
private theorem step_cases (h : step s = some (a, s')) :
    ∃ f, s.control = .running f ∧
      ((∃ x, (s.frame f).point = .active (.coReturn x) ∧ a = .coReturn f ∧
          s' = (s.returnValue f x).setPoint f .finalSuspend) ∨
        (∃ x rest, (s.frame f).point = .active (.setValue x rest) ∧ a = .setValue f ∧
          s' = { s.setPoint f (.active rest) with promised := s.promised ++ [x] }) ∨
        (∃ type child rest, (s.frame f).point = .active (.coAwait type child rest) ∧
          a = .coAwait f s.next ∧ s' = s.coAwait f type child default rest) ∨
        (∃ aw rest, (s.frame f).point = .awaitResume aw rest ∧ a = .destroy aw.handle ∧
          s' = s.awaitResume f aw rest) ∨
        (s.frame f).point = .finalSuspend ∧ (a, s') = s.finalSuspend f) := by
  rw [step] at h
  split at h
  case h_2 => cases h
  rename_i f hctl
  refine ⟨f, hctl, ?_⟩
  split at h
  case h_6 => cases h
  all_goals
    rename_i hpoint
    simp only [Option.some.injEq, Prod.mk.injEq] at h
  · exact Or.inl ⟨_, hpoint, h.1.symm, h.2.symm⟩
  · exact Or.inr (Or.inl ⟨_, _, hpoint, h.1.symm, h.2.symm⟩)
  · exact Or.inr (Or.inr (Or.inl ⟨_, _, _, hpoint, h.1.symm, h.2.symm⟩))
  · exact Or.inr (Or.inr (Or.inr (Or.inl ⟨_, _, hpoint, h.1.symm, h.2.symm⟩)))
  · exact Or.inr (Or.inr (Or.inr (Or.inr ⟨hpoint, h.symm⟩)))

/-- **What a coroutine reads has been written.** Every step keeps the invariant. -/
theorem written_step (h : Consistent v s) (hfinal : FinalWritten v s)
    (hstep : step s = some (a, s')) : Consistent v s' ∧ FinalWritten v s' := by
  obtain ⟨f, hctl, hcases⟩ := step_cases hstep
  obtain ⟨x, hpoint, -, rfl⟩ | ⟨x, rest, hpoint, -, rfl⟩ | ⟨type, child, rest, hpoint, -, rfl⟩ |
    ⟨aw, rest, hpoint, -, rfl⟩ | ⟨hpoint, hs'⟩ := hcases
  · exact ⟨h.coReturn hpoint, finalWritten_coReturn h hctl hpoint⟩
  · exact h.setValue hctl hpoint
  · exact h.coAwait hpoint default
  · exact h.awaitResume hctl hpoint
  · obtain rfl : s' = (s.finalSuspend f).2 := congrArg Prod.snd hs'
    exact h.finalSuspend hfinal hctl hpoint

variable {entry : Entry} {body : Body V}

private theorem reachable_written (hbody : body.Returns v entry.type)
    (h : (system entry body).Reachable s) : Consistent v s ∧ FinalWritten v s := by
  have hinit : Consistent v (initial entry body) := by
    constructor
    · intro f
      simp only [initial]
      split_ifs with hf
      · exact ⟨hbody, fun _ => rfl⟩
      · exact ⟨trivial, fun _ => rfl⟩
    · intro f hf
      have hne : f ≠ 0 := Nat.ne_of_gt hf
      simp [initial, hne]
  have hfinal : FinalWritten v (initial entry body) :=
    finalWritten_of_point (f := 0) rfl (by simp [initial])
  refine LTS.Reachable.induct (P := fun s => Consistent v s ∧ FinalWritten v s)
    ⟨hinit, hfinal⟩ ?_ h
  intro s a s' _ hs hstep
  exact written_step hs.1 hs.2 hstep

/-! ### What the steps of such a nesting do -/

omit [Inhabited V] in
private theorem finalSuspend_fst (s : State V) (f : ℕ) :
    (s.finalSuspend f).1 = .destroy f ∧ (s.frame f).type ≠ .external ∨
      (s.finalSuspend f).1 = .transfer f (s.frame f).continuation ∧
        (s.frame f).type ≠ .externalVoid := by
  rw [State.finalSuspend]
  split <;> simp [*]

/-- When a coroutine transfers to its awaiter, the awaiter holds the result. -/
theorem transfer_written (hbody : body.Returns v entry.type)
    (h : (system entry body).Reachable s) {outer : ℕ}
    (hstep : step s = some (.transfer f (some outer), s')) :
    ∃ aw rest, (s.frame outer).point = .awaiting aw rest ∧ aw.result = v := by
  obtain ⟨g, hctl, hcases⟩ := step_cases hstep
  obtain ⟨_, _, ha, _⟩ | ⟨_, _, _, ha, _⟩ | ⟨_, _, _, _, ha, _⟩ | ⟨_, _, _, ha, _⟩ |
    ⟨hpoint, hs'⟩ := hcases
  iterate 4 nomatch ha
  have hfst := congrArg Prod.fst hs'
  obtain ⟨hdestroy, -⟩ | ⟨htransfer, htype⟩ := finalSuspend_fst s g
  · rw [hdestroy] at hfst
    nomatch hfst
  · rw [htransfer] at hfst
    obtain ⟨rfl, hcont⟩ := Action.transfer.inj hfst
    exact (reachable_written hbody h).2 f outer hctl hpoint htype hcont.symm

/-- Only `await_resume` destroys the frame of an `external_coro<Result>`. -/
theorem destroy_external (hstep : step s = some (.destroy f, s'))
    (htype : (s.frame f).type = .external) :
    ∃ g aw rest, s.control = .running g ∧ (s.frame g).point = .awaitResume aw rest ∧
      aw.handle = f := by
  obtain ⟨g, hctl, hcases⟩ := step_cases hstep
  obtain ⟨_, _, ha, _⟩ | ⟨_, _, _, ha, _⟩ | ⟨_, _, _, _, ha, _⟩ | ⟨aw, rest, hpoint, ha, _⟩ |
    ⟨hpoint, hs'⟩ := hcases
  iterate 3 nomatch ha
  · exact ⟨g, aw, rest, hctl, hpoint, (Action.destroy.inj ha).symm⟩
  · have hfst := congrArg Prod.fst hs'
    obtain ⟨hdestroy, hne⟩ | ⟨htransfer, -⟩ := finalSuspend_fst s g
    · rw [hdestroy] at hfst
      obtain rfl := Action.destroy.inj hfst
      exact (hne htype).elim
    · rw [htransfer] at hfst
      nomatch hfst

end ExternalCoro

end TmcExamples
