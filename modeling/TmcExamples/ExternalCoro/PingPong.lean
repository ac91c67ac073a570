import TmcExamples.ExternalCoro.Awaiters
import TmcExamples.ExternalCoro.Results

/-!
# The ping-pong of `external_coro.cpp`

`internal` is a `tmc::task<int>` and `external` an `external_coro<int>`. Each counts up by one
and awaits the other, until `Max` is reached; `external_result_by_promise` does the same on top of
`internal` and puts the result into a promise. The count stays between two integers, so that it
is given by unbounded ones.

The depth of the nesting is the induction: a body at whose end the count is reached is a `Chain`
of as many awaits as counts are left. What such a nesting does is `Completes`.
-/

namespace TmcExamples

namespace ExternalCoro

private theorem lt_of_add_one_ne {count max : ℤ} (h : count < max) (hne : count + 1 ≠ max) :
    count + 1 < max := lt_of_le_of_ne h hne

mutual

/-- `internal(Count, Max)` -/
def internal (count max : ℤ) (h : count < max) : Body ℤ :=
  if hend : count + 1 = max then .coReturn (count + 1)
  else .coAwait .external (external (count + 1) max (lt_of_add_one_ne h hend))
    fun result => .coReturn result
termination_by (max - count).toNat

/-- `external(Count, Max)` -/
def external (count max : ℤ) (h : count < max) : Body ℤ :=
  if hend : count + 1 = max then .coReturn (count + 1)
  else .coAwait .task (internal (count + 1) max (lt_of_add_one_ne h hend))
    fun result => .coReturn result
termination_by (max - count).toNat

end

/-- `external_result_by_promise(Count, Max, promise)` -/
def externalResultByPromise (count max : ℤ) (h : count < max) : Body ℤ :=
  if hend : count + 1 = max then .setValue (count + 1) (.coReturn default)
  else .coAwait .task (internal (count + 1) max (lt_of_add_one_ne h hend))
    fun result => .setValue result (.coReturn default)

/-! ### Chains of awaits -/

/-- A body that returns `v` at the end of `n` awaits. -/
structure Chain (v : ℤ) (n : ℕ) (b : Body ℤ) : Prop where
  value : b.value = v
  promised : b.promised = []
  length : b.awaits.length = n
  not_void : .externalVoid ∉ b.awaits
  returns : ∀ c, b.Returns v c

/-- A coroutine that returns at once awaits nobody. -/
theorem Chain.coReturn (v : ℤ) : Chain v 0 (.coReturn v) :=
  ⟨rfl, rfl, rfl, List.not_mem_nil, fun _ _ => rfl⟩

/-- One more coroutine that returns the value of the one it awaits. -/
theorem Chain.await {v : ℤ} {n : ℕ} {type : CoroType} {b : Body ℤ} {rest : type.Result ℤ → Body ℤ}
    (h : Chain v n b) (htype : type ≠ .externalVoid) (hrest : rest (type.get v) = .coReturn v) :
    Chain v (n + 1) (.coAwait type b rest) where
  value := by rw [Body.value, h.value, hrest, Body.value]
  promised := by rw [Body.promised, h.value, hrest, h.promised]; rfl
  length := by rw [Body.awaits, h.value, hrest, List.length_cons, List.length_append, h.length]; rfl
  not_void := by
    rw [Body.awaits, h.value, hrest, Body.awaits, List.append_nil, List.mem_cons, not_or]
    exact ⟨htype.symm, h.not_void⟩
  returns c := by
    rw [Body.Returns, hrest]
    exact ⟨h.returns type, fun _ => rfl⟩

/-- Both coroutines, for both parities of the number of counts that are left. -/
theorem chain_internal_external (max : ℤ) (n : ℕ) :
    ∀ count (h : count < max), max - count = n + 1 →
      Chain max n (internal count max h) ∧ Chain max n (external count max h) := by
  induction n with
  | zero =>
    intro count h hn
    have hend : count + 1 = max := by omega
    rw [internal, external, dif_pos hend, dif_pos hend, hend]
    exact ⟨.coReturn max, .coReturn max⟩
  | succ n ih =>
    intro count h hn
    have hend : count + 1 ≠ max := by omega
    obtain ⟨hinternal, hexternal⟩ := ih (count + 1) (lt_of_add_one_ne h hend) (by omega)
    rw [internal, external, dif_neg hend, dif_neg hend]
    exact ⟨hexternal.await (by decide) rfl, hinternal.await (by decide) rfl⟩

/-- From an internal coroutine on, the chain goes up to the maximum. -/
theorem chain_internal {count max : ℤ} (h : count < max) :
    Chain max (max - count - 1).toNat (internal count max h) :=
  (chain_internal_external max _ count h (by omega)).1

/-- So it does from an external one on. -/
theorem chain_external {count max : ℤ} (h : count < max) :
    Chain max (max - count - 1).toNat (external count max h) :=
  (chain_internal_external max _ count h (by omega)).2

/-! ### What a nesting does -/

/-- What the posted coroutine does: it runs to its end, over `k` frames, and puts `v` into a
promise, once. -/
structure Completes (entry : Entry) (body : Body ℤ) (v : ℤ) (k : ℕ) : Prop where
  ends : ∃ tr s, (system entry body).Run (initial entry body) tr s ∧ ¬ (system entry body).Enabled s
  settled : ∀ tr s, (system entry body).Run (initial entry body) tr s →
    ¬ (system entry body).Enabled s → Settled tr s
  promised : ∀ tr s, (system entry body).Run (initial entry body) tr s →
    ¬ (system entry body).Enabled s → s.promised = [v]
  frames : ∀ tr s, (system entry body).Run (initial entry body) tr s →
    ¬ (system entry body).Enabled s → s.next = k
  /-- Each frame under the posted one is awaited, returns, resumes its awaiter and is destroyed,
  each once and in this order. -/
  handshake : ∀ tr s, (system entry body).Run (initial entry body) tr s →
    ¬ (system entry body).Enabled s → ∀ f, 0 < f → f < k → ∃ outer,
      tr.filter (fun a => a.frame = some f) =
        [.coAwait outer f, .coReturn f, .transfer f (some outer), .destroy f]
  /-- Only suspended coroutines are resumed and destroyed, and results are written only to
  awaiters that are suspended. -/
  defined : ∀ s, (system entry body).Reachable s → s.control ≠ .undefined
  /-- When an awaiter is resumed, its result has been written. -/
  written : ∀ s s' f outer, (system entry body).Reachable s →
    (system entry body).step s (.transfer f (some outer)) s' →
      ∃ aw rest, (s.frame outer).point = .awaiting aw rest ∧ aw.result = v
  /-- The frames of `external` are destroyed by `await_resume`. -/
  await_resume : ∀ s s' f, (system entry body).Reachable s →
    (system entry body).step s (.destroy f) s' → (s.frame f).type = .external →
      ∃ g aw rest, s.control = .running g ∧ (s.frame g).point = .awaitResume aw rest ∧
        aw.handle = f

/-- A nesting completes with the one value that its root sets the promise to. -/
theorem completes_of_awaits {entry : Entry} {body : Body ℤ} {v : ℤ}
    (hvoid : .externalVoid ∉ body.awaits) (hreturns : body.Returns v entry.type)
    (hpromised : body.promised ++ entry.type.promise body.value = [v]) :
    Completes entry body v (1 + body.awaits.length) := by
  obtain ⟨s, hrun, hctl, hnext, hgone, hvalues⟩ := run_nesting entry hvoid
  have hend : ¬ (system entry body).Enabled s := not_enabled_of_returned hctl
  -- The machine is deterministic, so that there is no other run to an end.
  have hall {P : List Action → State ℤ → Prop} (hP : P body.run s) :
      ∀ tr s', (system entry body).Run (initial entry body) tr s' →
        ¬ (system entry body).Enabled s' → P tr s' := by
    intro tr s' hrun' hend'
    obtain ⟨rfl, rfl⟩ := (deterministic entry body).eq_of_ended hrun hend hrun' hend'
    exact hP
  refine ⟨⟨_, s, hrun, hend⟩, hall (settled_run hctl hnext hgone), hall (hvalues.trans hpromised),
    hall hnext, hall ?_, ?_, ?_, ?_⟩
  · intro f hpos hlt
    exact body.filter_run hpos hlt
  · rintro s' ⟨tr, hrun'⟩ hundefined
    have hend' : ¬ (system entry body).Enabled s' := not_enabled_of_undefined hundefined
    have hreturned := hall (P := fun _ s => s.control = .returned) hctl tr s' hrun' hend'
    rw [hreturned] at hundefined
    cases hundefined
  · intro s s' f outer hreach hstep
    exact transfer_written hreturns hreach hstep
  · intro s s' f _ hstep htype
    exact destroy_external hstep htype

/-- A `tmc::task` that awaits `external(Count, Max)`. -/
def awaitExternal (count max : ℤ) (h : count < max) : Body ℤ :=
  .coAwait .external (external count max h) fun result => .coReturn result

/-- A posted `tmc::task` that is a chain completes. -/
theorem Chain.completes {v : ℤ} {n : ℕ} {b : Body ℤ} (h : Chain v n b) :
    Completes .postWaitable b v (1 + n) := by
  rw [← h.length]
  exact completes_of_awaits h.not_void (h.returns _) (by rw [h.promised, h.value]; rfl)

/-- The entry by promise awaits one coroutine more than its chain. -/
theorem externalResultByPromise_completes {count max : ℤ} (h : count < max) :
    Completes .post (externalResultByPromise count max h) max (max - count).toNat := by
  rw [externalResultByPromise]
  split_ifs with hend
  · have hk : (max - count).toNat = 1 := by omega
    rw [hk, hend]
    exact completes_of_awaits List.not_mem_nil (fun hne => (hne rfl).elim) rfl
  · have hchain := chain_internal (lt_of_add_one_ne h hend)
    have hk : (max - count).toNat = 1 + ((max - (count + 1) - 1).toNat + 1) := by omega
    rw [hk, ← hchain.length]
    have hlength : ∀ b : Body ℤ, (Body.coAwait .task b fun result =>
        .setValue result (.coReturn default)).awaits.length = b.awaits.length + 1 := by
      intro b
      simp [Body.awaits]
    rw [← hlength]
    refine completes_of_awaits ?_ ⟨hchain.returns _, fun hne => (hne rfl).elim⟩ ?_
    · simp [Body.awaits, hchain.not_void]
    · simp [Body.promised, hchain.promised, hchain.value, CoroType.promise, Entry.type,
        CoroType.get]

/-- **The ping-pong.** Both coroutines complete with the result `Max` after `Max - Count` frames,
and so does the one that puts it into a promise. -/
theorem ping_pong_completes (count max : ℤ) (h : count < max) :
    Completes .postWaitable (internal count max h) max (max - count).toNat ∧
      Completes .postWaitable (awaitExternal count max h) max (1 + (max - count).toNat) ∧
      Completes .post (externalResultByPromise count max h) max (max - count).toNat := by
  have hk : (max - count).toNat = 1 + (max - count - 1).toNat := by omega
  refine ⟨?_, ?_, externalResultByPromise_completes h⟩
  · rw [hk]
    exact (chain_internal h).completes
  · have hawait : Chain max ((max - count - 1).toNat + 1) (awaitExternal count max h) :=
      (chain_external h).await (by decide) rfl
    rw [hk, Nat.add_comm 1 (max - count - 1).toNat]
    exact hawait.completes

/-- The calls of `main` with an even number of iterations. -/
theorem ping_pong_completes_sample :
    Completes .postWaitable (internal 0 4 (by decide)) 4 4 ∧
      Completes .postWaitable (awaitExternal 0 4 (by decide)) 4 5 ∧
      Completes .post (externalResultByPromise 0 4 (by decide)) 4 4 :=
  ping_pong_completes 0 4 (by decide)

end ExternalCoro

end TmcExamples
