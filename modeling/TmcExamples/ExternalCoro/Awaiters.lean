import TmcExamples.ExternalCoro.Frames

/-!
# Are awaiters resumed?

A nesting of coroutines is finite and runs to its end, since the machine is deterministic and the
bodies are trees. What a `co_await` promises of such a run is `Settled`: control is back at the
caller, every coroutine that has been awaited and has returned has resumed its continuation once,
every frame has been destroyed once, and no coroutine is left in a `co_await`.

The promise is kept exactly by the nestings in which no `external_coro<void>` is awaited
(`awaiters_resumed_iff`). The posted coroutine itself may be one.
-/

namespace TmcExamples

namespace ExternalCoro

variable {V : Type} [Inhabited V] {entry : Entry} {body : Body V} {s : State V}

/-- What is promised of a run `tr` that ends in `s`. -/
structure Settled (tr : List Action) (s : State V) : Prop where
  returned : s.control = .returned
  resumed : ∀ outer inner, .coAwait outer inner ∈ tr → .coReturn inner ∈ tr →
    tr.count (.transfer inner (some outer)) = 1
  destroyed : ∀ f < s.next, tr.count (.destroy f) = 1
  not_awaiting : ∀ f < s.next, ¬ (s.frame f).point.Awaiting

/-- The nesting runs to an end, and every run to an end is as promised. -/
def AwaitersResumed (entry : Entry) (body : Body V) : Prop :=
  (∃ tr s, (system entry body).Run (initial entry body) tr s ∧ ¬ (system entry body).Enabled s) ∧
    ∀ tr s, (system entry body).Run (initial entry body) tr s →
      ¬ (system entry body).Enabled s → Settled tr s

/-- One coroutine has control, so the next step is determined. -/
theorem deterministic (entry : Entry) (body : Body V) : (system entry body).Deterministic := by
  intro s a₁ s₁ a₂ s₂ h₁ h₂
  have hsame : some (a₁, s₁) = some (a₂, s₂) := by rw [← h₁, ← h₂]
  exact Prod.ext_iff.mp (Option.some.inj hsame)

theorem not_enabled_of_returned (h : s.control = .returned) :
    ¬ (system entry body).Enabled s := by
  rintro ⟨a, s', hstep⟩
  change step s = some (a, s') at hstep
  simp [step, h] at hstep

theorem not_enabled_of_undefined (h : s.control = .undefined) :
    ¬ (system entry body).Enabled s := by
  rintro ⟨a, s', hstep⟩
  change step s = some (a, s') at hstep
  simp [step, h] at hstep

/-! ### The run of a nesting without awaited `external_coro<void>` -/

/-- Without an external coroutine of type void the whole nesting runs to its end. -/
theorem run_nesting (entry : Entry) (hvoid : .externalVoid ∉ body.awaits) :
    ∃ s, (system entry body).Run (initial entry body) body.run s ∧ s.control = .returned ∧
      s.next = 1 + body.awaits.length ∧ (∀ f < s.next, (s.frame f).point = .destroyed) ∧
      s.promised = body.promised ++ entry.type.promise body.value := by
  obtain ⟨s₁, hrun₁, hend₁⟩ := run_body entry body (s := initial entry body) (f := 0) body
    rfl rfl Nat.one_pos hvoid
  have hdetached : (s₁.frame 0).Detached := by
    rw [hend₁.self]
    cases entry with
    | postWaitable => exact Or.inr ⟨rfl, rfl, rfl⟩
    | post => exact Or.inl rfl
  obtain ⟨s₂, hrun₂, hctl, hgone, hothers, hnext, hpromised⟩ := run_finish entry body
    hend₁.control (congrArg Frame.point hend₁.self) hdetached
  refine ⟨s₂, hrun₁.trans hrun₂, hctl, hnext.trans hend₁.next, ?_, ?_⟩
  · intro f hf
    rcases Nat.eq_zero_or_pos f with rfl | hpos
    · exact hgone
    · rw [hothers f (Nat.ne_of_gt hpos)]
      exact hend₁.destroyed f hpos (hnext ▸ hf)
  · rw [hpromised, hend₁.promised, hend₁.self]
    rfl

omit [Inhabited V] in
/-- The end of that run has all that a settled nesting needs. -/
theorem settled_run (hreturned : s.control = .returned) (hnext : s.next = 1 + body.awaits.length)
    (hgone : ∀ f < s.next, (s.frame f).point = .destroyed) : Settled body.run s where
  returned := hreturned
  resumed _ _ hawait _ := body.count_transfer_run hawait
  destroyed f hf := body.count_destroy_run (hnext ▸ hf)
  not_awaiting f hf := by
    rw [hgone f hf]
    exact id

/-- **Awaiters are resumed exactly when no `external_coro<void>` is awaited.** -/
theorem awaiters_resumed_iff (entry : Entry) (body : Body V) :
    AwaitersResumed entry body ↔ .externalVoid ∉ body.awaits := by
  constructor
  · rintro ⟨-, hsettled⟩ hvoid
    obtain ⟨tr, s, f, hrun, hctl, hlt, hf⟩ := run_lost entry body (s := initial entry body)
      (f := 0) body rfl rfl Nat.one_pos hvoid
    exact (hsettled tr s hrun (not_enabled_of_returned hctl)).not_awaiting f hlt hf
  · intro hvoid
    obtain ⟨s, hrun, hctl, hnext, hgone, -⟩ := run_nesting entry hvoid
    have hend : ¬ (system entry body).Enabled s := not_enabled_of_returned hctl
    refine ⟨⟨_, s, hrun, hend⟩, fun tr s' hrun' hend' => ?_⟩
    obtain ⟨rfl, rfl⟩ := (deterministic entry body).eq_of_ended hrun hend hrun' hend'
    exact settled_run hctl hnext hgone

/-- A posted `external_coro<void>` that awaits another one. -/
def awaitVoid : Body ℕ := .coAwait .externalVoid (.coReturn 0) fun _ => .coReturn 0

/-- The posted coroutine is never resumed. -/
theorem awaitVoid_not_resumed : ¬ AwaitersResumed .post awaitVoid := by
  rintro ⟨-, hsettled⟩
  have h := LTS.Run.nil (T := system .post awaitVoid) (s := initial .post awaitVoid)
  have h := h.snoc (show step _ = some (.coAwait 0 1, _) from rfl)
  have h := h.snoc (show step _ = some (.coReturn 1, _) from rfl)
  have h := h.snoc (show step _ = some (.destroy 1, _) from rfl)
  exact (hsettled _ _ h (not_enabled_of_returned rfl)).not_awaiting 0 Nat.two_pos trivial

end ExternalCoro

end TmcExamples
