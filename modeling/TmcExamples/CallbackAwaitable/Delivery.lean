import TmcExamples.CallbackAwaitable.Invariant
import TmcExamples.Transition.Parties

/-!
# Delivery of the results

A coroutine stays at its `co_await` until its `await_resume()` (`stays_run`), and as long as it
stays there a step can be taken, unless an initiation function keeps its callback
(`Inv.exists_step`). Each step but a new `co_await` uses up some of the work of the operations, so
without new ones everything comes to rest (`bounded_run`). With the invariant this gives that every
`co_await` is resumed exactly once, with the arguments of the callbacks of its own operations
(`results_delivered`).
-/

namespace TmcExamples

namespace CallbackAwaitable

variable {ι : Type} [DecidableEq ι] {R : ι → ResultTuple} {s s' : State R} {a : Action R}
  {tr : List (Action R)} {op : ι × ℕ} {ops : List (ι × ℕ)} {c : ℕ}

/-! ### What the steps do to the phases and to the coroutines -/

private theorem phase_write (s : State R) (op : ι × ℕ) (r : (R op.1).Value) :
    (s.write op r).phase = s.phase := by
  rw [State.write]
  split <;> rfl

private theorem coro_write (s : State R) (op : ι × ℕ) (r : (R op.1).Value) :
    (s.write op r).coro = s.coro := by
  rw [State.write]
  split <;> rfl

omit [DecidableEq ι] in
private theorem phase_resume (s : State R) (k : Option ℕ) : (s.resume k).phase = s.phase := by
  unfold State.resume
  split
  · split <;> rfl
  · rfl

omit [DecidableEq ι] in
/-- A coroutine that is resumed was suspended at the same operations. -/
private theorem coro_resume (s : State R) (k : Option ℕ) (c : ℕ) :
    (s.resume k).coro c = s.coro c ∨
      ∃ ops, s.coro c = .suspended ops ∧ (s.resume k).coro c = .resumed ops := by
  unfold State.resume
  split
  · next d =>
    split
    · next ops hd =>
      by_cases hcd : c = d
      · subst hcd
        exact .inr ⟨ops, hd, Function.update_self ..⟩
      · exact .inl (Function.update_of_ne hcd ..)
    · exact .inl rfl
    · exact .inl rfl
  · exact .inl rfl

omit [DecidableEq ι] in
private theorem phase_countDown (s : State R) (op : ι × ℕ) : (s.countDown op).phase = s.phase := by
  obtain ⟨n, hn, -⟩ := exists_countDown s op
  rw [hn]

omit [DecidableEq ι] in
private theorem coro_countDown (s : State R) (op : ι × ℕ) : (s.countDown op).coro = s.coro := by
  obtain ⟨n, hn, -⟩ := exists_countDown s op
  rw [hn]

/-! ### Every `co_await` comes to its end -/

/-- The coroutine has come to the `co_await` of the operations, and not to its `await_resume()`. -/
def Coro.StaysAt (x : Coro ι) (ops : List (ι × ℕ)) : Prop := x = .suspended ops ∨ x = .resumed ops

/-- A coroutine stays at its `co_await` until its `await_resume()`. -/
private theorem stays_step (hs : Step s a s') (hc : (s.coro c).StaysAt ops) :
    (s'.coro c).StaysAt ops ∧ a.awaits c = false ∨ ∃ results, a = .awaitResume c results := by
  have hresume {t : State R} {k : Option ℕ} (ht : t.coro = s.coro) :
      ((t.resume k).coro c).StaysAt ops := by
    rcases coro_resume t k c with hsame | ⟨ops', hold, hnew⟩
    · rwa [hsame, ht]
    · rw [ht] at hold
      rcases hc with hc | hc
      · rw [hold] at hc
        cases hc
        exact .inr hnew
      · rw [hold] at hc
        cases hc
  have hrunning {d : ℕ} (hd : s.coro d = .running) : c ≠ d := by
    rintro rfl
    rw [hd] at hc
    rcases hc with hc | hc <;> cases hc
  cases hs with
  | await hd | spawn hd =>
    have hne := hrunning hd
    refine .inl ⟨?_, decide_eq_false hne.symm⟩
    rw [coro_begin_of_ne hne]
    exact hc
  | set | asyncInitiate => exact .inl ⟨hc, rfl⟩
  | callback =>
    refine .inl ⟨?_, rfl⟩
    rw [State.setPhase, coro_write]
    exact hc
  | count | post =>
    refine .inl ⟨?_, rfl⟩
    rw [State.setPhase, coro_countDown]
    exact hc
  | resume => exact .inl ⟨hresume (coro_countDown ..), rfl⟩
  | resumePosted => exact .inl ⟨hresume rfl, rfl⟩
  | @awaitResume d ops' hd =>
    by_cases hcd : c = d
    · subst hcd
      exact .inr ⟨_, rfl⟩
    · refine .inl ⟨?_, rfl⟩
      rw [coro_finish_of_ne hcd]
      exact hc

private theorem stays_run (h : (system R).Run s tr s') (hc : (s.coro c).StaysAt ops) :
    ((s'.coro c).StaysAt ops ∧ ∀ x ∈ tr, x.awaits c = false) ∨
      ∃ b₁ results b₂, tr = b₁ ++ .awaitResume c results :: b₂ ∧ ∀ x ∈ b₁, x.awaits c = false := by
  induction h with
  | nil => exact .inl ⟨hc, nofun⟩
  | @snoc tr s₁ s₂ a _ hstep ih =>
    rcases ih with ⟨hc₁, hawaits⟩ | ⟨b₁, results, b₂, rfl, hb₁⟩
    · rcases stays_step hstep hc₁ with ⟨hc₂, ha⟩ | ⟨results, rfl⟩
      · refine .inl ⟨hc₂, fun x hx => ?_⟩
        rcases List.mem_append.mp hx with hx | hx
        · exact hawaits x hx
        · rw [List.mem_singleton.mp hx]
          exact ha
      · exact .inr ⟨tr, results, [], rfl, hawaits⟩
    · exact .inr ⟨b₁, results, b₂ ++ [a], by rw [List.append_assoc, List.cons_append], hb₁⟩

/-- A new `co_await`. -/
def Action.isAwait : Action R → Bool
  | .await .. => true
  | _ => false

/-- An operation that has been begun has a step to take, or its initiation function keeps its
callback. -/
private theorem exists_step_of_phase (hlive : s.phase op ≠ .absent) (hdone : s.phase op ≠ .done)
    (hcalled : s.phase op ≠ .pending) : ∃ a s', Step s a s' ∧ a.isAwait = false := by
  cases hp : s.phase op with
  | absent => exact absurd hp hlive
  | done => exact absurd hp hdone
  | pending => exact absurd hp hcalled
  | configuring fs =>
    cases fs with
    | nil => exact ⟨_, _, .asyncInitiate hp, rfl⟩
    | cons f fs => exact ⟨_, _, .set hp, rfl⟩
  | written =>
    by_cases hlast : s.Last op
    · exact ⟨_, _, .resume hp hlast, rfl⟩
    · exact ⟨_, _, .count hp hlast, rfl⟩
  | posted k => exact ⟨_, _, .resumePosted hp, rfl⟩

/-- As long as a coroutine stays at a `co_await`, some step can be taken, unless an initiation
function keeps its callback. -/
theorem Inv.exists_step (h : Inv tr s) (hc : (s.coro c).StaysAt ops)
    (hcalled : ∀ op, s.phase op ≠ .pending) : ∃ a s', Step s a s' ∧ a.isAwait = false := by
  rcases hc with hc | hc
  · obtain ⟨hsuspended, -⟩ := (h.coro c).suspended hc
    obtain ⟨op, hop, hdone⟩ := hsuspended.waits
    exact exists_step_of_phase (hsuspended.op op hop).live hdone (hcalled op)
  · exact ⟨_, _, .awaitResume hc, rfl⟩

/-! ### Without a new `co_await` everything comes to rest -/

/-- The steps that an operation has before it, with its part in the `await_resume()`. -/
def Phase.work : Phase → ℕ
  | .absent => 0
  | .configuring fs => fs.length + 5
  | .pending => 4
  | .written => 3
  | .posted _ => 2
  | .done => 1

/-- A step other than a new `co_await` brings one operation forward, or ends those of a
coroutine. -/
private theorem phase_step (hs : Step s a s') (ha : a.isAwait = false) :
    (∃ op p, s'.phase = Function.update s.phase op p ∧ p.work < (s.phase op).work) ∨
      ∃ c ops, s.coro c = .resumed ops ∧
        s'.phase = fun op => if op ∈ ops then .absent else s.phase op := by
  have hmove {t : State R} {op : ι × ℕ} {p : Phase} (ht : t.phase = s.phase)
      (hlt : p.work < (s.phase op).work) : ∃ op' p', (t.setPhase op p).phase =
        Function.update s.phase op' p' ∧ p'.work < (s.phase op').work := by
    refine ⟨op, p, ?_, hlt⟩
    rw [State.setPhase, ht]
  cases hs with
  | await | spawn => cases ha
  | set hp => exact .inl (hmove rfl (by rw [hp]; exact Nat.lt_succ_self _))
  | asyncInitiate hp => exact .inl (hmove rfl (by rw [hp]; decide))
  | callback hp => exact .inl (hmove (phase_write ..) (by rw [hp]; decide))
  | count hp => exact .inl (hmove (phase_countDown ..) (by rw [hp]; decide))
  | post hp => exact .inl (hmove (phase_countDown ..) (by rw [hp]; exact Nat.lt_succ_self 2))
  | resume hp =>
    refine .inl (hmove ?_ (by rw [hp]; decide))
    rw [phase_resume, phase_countDown]
  | resumePosted hp => exact .inl (hmove (phase_resume ..) (by rw [hp]; exact Nat.lt_succ_self 1))
  | awaitResume hc => exact .inr ⟨_, _, hc, rfl⟩

/-- The operations outside of `L` are not in use. -/
def State.LiveIn (s : State R) (L : Finset (ι × ℕ)) : Prop := ∀ op ∉ L, s.phase op = .absent

/-- The work of the operations of `L`. -/
def State.work (s : State R) (L : Finset (ι × ℕ)) : ℕ := ∑ op ∈ L, (s.phase op).work

private theorem liveIn_of_work_pos {L : Finset (ι × ℕ)} (h : s.LiveIn L)
    (hpos : 0 < (s.phase op).work) : op ∈ L := by
  by_contra hop
  rw [h op hop] at hpos
  exact Nat.lt_irrefl 0 hpos

/-- A step other than a new `co_await` decreases the work. -/
theorem Inv.work_lt (h : Inv tr s) {L : Finset (ι × ℕ)} (hL : s.LiveIn L) (hs : Step s a s')
    (ha : a.isAwait = false) : s'.LiveIn L ∧ s'.work L < s.work L := by
  rcases phase_step hs ha with ⟨op, p, hphase, hlt⟩ | ⟨c, ops, hc, hphase⟩
  · have hop : op ∈ L := liveIn_of_work_pos hL (Nat.zero_lt_of_lt hlt)
    have hsum := sum_update_add hop s.phase p Phase.work
    unfold State.LiveIn State.work
    rw [hphase]
    refine ⟨fun o ho => ?_, by omega⟩
    have hne : o ≠ op := fun heq => ho (heq ▸ hop)
    rw [Function.update_of_ne hne]
    exact hL o ho
  · obtain ⟨⟨hawaited, hdone⟩, -⟩ := (h.coro c).resumed hc
    obtain ⟨op, hop⟩ := List.exists_mem_of_ne_nil ops hawaited.nonempty
    have hpos : 0 < (s.phase op).work := by
      rw [hdone op hop]
      exact Nat.one_pos
    unfold State.LiveIn State.work
    rw [hphase]
    refine ⟨fun o ho => ?_, Finset.sum_lt_sum (fun o _ => ?_) ⟨op, liveIn_of_work_pos hL hpos, ?_⟩⟩
    · dsimp only
      rw [hL o ho, ite_self]
    · dsimp only
      split
      · exact Nat.zero_le _
      · exact le_rfl
    · dsimp only
      rw [if_pos hop]
      exact hpos

/-- Only finitely many operations are in use. -/
private theorem exists_liveIn (h : (system R).Reachable s) : ∃ L, s.LiveIn L := by
  refine h.induct (P := fun s => ∃ L, s.LiveIn L) ⟨∅, fun _ _ => rfl⟩ ?_
  rintro s a s' ⟨tr, hrun⟩ ⟨L, hL⟩ hs
  cases ha : a.isAwait with
  | false => exact ⟨L, ((inv_run hrun).work_lt hL hs ha).1⟩
  | true =>
    have hbegin (c : ℕ) (ops : List (ι × ℕ)) (setters : ι × ℕ → List Setter) :
        (s.begin c ops setters).LiveIn (L ∪ ops.toFinset) := by
      intro op hop
      rw [Finset.notMem_union, List.mem_toFinset] at hop
      rw [phase_begin_of_notMem hop.2]
      exact hL op hop.1
    cases hs with
    | await | spawn => exact ⟨_, hbegin _ _ _⟩
    | _ => cases ha

/-- The runs without a new `co_await` are bounded. -/
private theorem bounded_run (h : (system R).Run (initial R) tr s) : ∃ N, ∀ tr' s',
    (system R).Run s tr' s' → (∀ a ∈ tr', a.isAwait = false) → tr'.length ≤ N := by
  obtain ⟨L, hL⟩ := exists_liveIn h.reachable
  refine ⟨s.work L, fun tr' s' hrun ha => ?_⟩
  have hrank := hrun.length_add_rank_le (I := fun s => (system R).Reachable s ∧ s.LiveIn L)
    (Q := fun a => a.isAwait = false) (fun s => s.work L) ?_ ⟨h.reachable, hL⟩ ha
  · exact (Nat.le_add_right _ _).trans hrank.2
  · rintro s a s' ⟨⟨pre, hpre⟩, hL⟩ ha hs
    obtain ⟨hL', hlt⟩ := (inv_run hpre).work_lt hL hs ha
    exact ⟨⟨(hpre.snoc hs).reachable, hL'⟩, hlt⟩

/-! ### The results -/

omit [DecidableEq ι] in
private theorem resumes_append (c : ℕ) {tr post : List (Action R)}
    (h : ∀ x ∈ post, x.awaits c = false) :
    resumes c (tr ++ post) = resumes c tr + post.countP (Action.resumes c) := by
  induction post using List.reverseRecOn with
  | nil => rw [List.append_nil, List.countP_nil, Nat.add_zero]
  | append_singleton post a ih =>
    rw [← List.append_assoc,
      resumes_snoc (h a (List.mem_append_right _ List.mem_cons_self)),
      ih fun x hx => h x (List.mem_append_left _ hx), List.countP_append, List.countP_singleton,
      Nat.add_assoc]

/-- What `await_resume()` returns are the arguments of the callbacks. -/
theorem Inv.results (h : Inv tr s) (hc : s.coro c = .resumed ops) :
    resumes c tr = 1 ∧ (s.results ops).map Sigma.fst = ops ∧
      ∀ e ∈ s.results ops, ∃ r, callbacks e.1 tr = [r] ∧ e.2 = some r := by
  obtain ⟨⟨hawaited, hdone⟩, hone⟩ := (h.coro c).resumed hc
  refine ⟨hone, ?_, fun e he => ?_⟩
  · rw [State.results, List.map_map]
    exact List.map_id ops
  · obtain ⟨op, hop, rfl⟩ := List.mem_map.mp he
    exact (hawaited.op op hop).stored (by rw [hdone op hop]; trivial)

/-- A coroutine is resumed where the arguments of all callbacks are in the storages of their own
operations. -/
private theorem Inv.stored_of_resumes (h : Inv tr s) (hs : Step s a s') (ha : a.resumes c = true) :
    ∃ ops, s.coro c = .suspended ops ∧
      ∀ op ∈ ops, ∃ r, callbacks op tr = [r] ∧ (R op.1).awaitResume (s.result op) = some r := by
  have hall {c : ℕ} {op : ι × ℕ} {ops : List (ι × ℕ)} (hc : s.coro c = .suspended ops)
      (hstored : (s.phase op).Stored) (hdone : ∀ o ∈ ops, o ≠ op → s.phase o = .done) :
      ∀ o ∈ ops, ∃ r, callbacks o tr = [r] ∧ (R o.1).awaitResume (s.result o) = some r := by
    intro o ho
    refine (((h.coro c).suspended hc).1.op o ho).stored ?_
    by_cases hne : o = op
    · exact hne ▸ hstored
    · rw [hdone o ho hne]
      trivial
  cases hs with
  | @resume op hp hlast =>
    obtain ⟨d, ops, hd, hop, hsuspended, hready⟩ := h.of_open hp trivial
    have hcontinuation : (s.customizer op).continuation = some d := hready.continuation
    have hself : (s.customizer op).continuation = some c := of_decide_eq_true ha
    rw [hcontinuation] at hself
    cases hself
    exact ⟨ops, hd, hall hd (by rw [hp]; trivial) (hsuspended.others_done hop hp hlast)⟩
  | @resumePosted op k hp =>
    obtain ⟨d, ops, hd, hop⟩ := h.exists_suspended (by rw [hp]; nofun) (by rw [hp]; nofun)
    obtain ⟨hsuspended, -⟩ := (h.coro d).suspended hd
    obtain rfl := (hsuspended.op op hop).posted k hp
    obtain rfl : d = c := Option.some.inj (of_decide_eq_true ha)
    exact ⟨ops, hd, hall hd (by rw [hp]; trivial) (hsuspended.posted op hop _ hp)⟩
  | _ => cases ha

/-- No step can be taken but a new `co_await`. -/
def State.Quiet (s : State R) : Prop := ∀ a s', Step s a s' → a.isAwait = true

/-- A coroutine stays at the `co_await` that it has just come to. -/
private theorem staysAt_of_await (hs : Step s (.await c ops) s') : (s'.coro c).StaysAt ops := by
  cases hs with
  | await | spawn => exact .inl coro_begin_self

/-- When everything is quiet, every `co_await` has come to its `await_resume()`, and its coroutine
has been resumed once in between. -/
private theorem exists_awaitResume {pre post : List (Action R)}
    (h : (system R).Run (initial R) (pre ++ .await c ops :: post) s)
    (hcalled : ∀ op, s.phase op ≠ .pending) (hquiet : s.Quiet) :
    ∃ b₁ results b₂, post = b₁ ++ .awaitResume c results :: b₂ ∧
      (∀ x ∈ b₁, x.awaits c = false) ∧ b₁.countP (Action.resumes c) = 1 := by
  obtain ⟨s₁, hpre, hrest⟩ := h.split
  obtain ⟨s₂, hawait, hpost⟩ := hrest.split_cons
  rcases stays_run hpost (staysAt_of_await hawait) with ⟨hstays, -⟩ | ⟨b₁, results, b₂, rfl, hb₁⟩
  · -- A coroutine that still waits has a step to take.
    obtain ⟨a, s', hs, ha⟩ := (inv_run h).exists_step hstays hcalled
    rw [hquiet a s' hs] at ha
    cases ha
  · refine ⟨b₁, results, b₂, rfl, hb₁, ?_⟩
    obtain ⟨s₃, hb, hafter⟩ := hpost.split
    obtain ⟨s₄, hresume, -⟩ := hafter.split_cons
    have hrun : (system R).Run (initial R) (pre ++ [.await c ops] ++ b₁) s₃ :=
      (hpre.snoc hawait).trans hb
    cases hresume with
    | awaitResume hc =>
      have hone := ((inv_run hrun).results hc).1
      have hbegun : (Action.await c ops : Action R).awaits c = true := decide_eq_true rfl
      rwa [resumes_append c hb₁, resumes_awaits hbegun, Nat.zero_add] at hone

/-- **Every operation delivers its result to its own awaiter.** In every run, nothing undefined
happens. A coroutine is resumed at most once for each `co_await`, when the callbacks of all the
operations that it awaits have been called, each once, and their arguments are in the storages of
their own operations; and `await_resume()` returns these arguments. Without a new `co_await` every
run comes to rest within a bound. When the initiation functions have called their callbacks and
everything is quiet, every `co_await` has come to its `await_resume()`, and its coroutine has been
resumed exactly once. -/
theorem results_delivered (h : (system R).Run (initial R) tr s) :
    s.undefined = false ∧ (∀ c, resumes c tr ≤ 1) ∧
      (∀ c a s', Step s a s' → a.resumes c = true → ∃ ops, s.coro c = .suspended ops ∧
        ∀ op ∈ ops, ∃ r, callbacks op tr = [r] ∧ (R op.1).awaitResume (s.result op) = some r) ∧
      (∀ c results s', Step s (.awaitResume c results) s' → resumes c tr = 1 ∧
        s.coro c = .resumed (results.map Sigma.fst) ∧
        ∀ e ∈ results, ∃ r, callbacks e.1 tr = [r] ∧ e.2 = some r) ∧
      (∃ N, ∀ tr' s', (system R).Run s tr' s' → (∀ a ∈ tr', a.isAwait = false) →
        tr'.length ≤ N) ∧
      ((∀ op, s.phase op ≠ .pending) → s.Quiet → ∀ pre c ops post,
        tr = pre ++ .await c ops :: post →
        ∃ b₁ results b₂, post = b₁ ++ .awaitResume c results :: b₂ ∧
          (∀ x ∈ b₁, x.awaits c = false) ∧ b₁.countP (Action.resumes c) = 1) := by
  have hinv := inv_run h
  refine ⟨hinv.defined, fun c => ?_, fun c a s' hs ha => hinv.stored_of_resumes hs ha,
    fun c results s' hs => ?_, bounded_run h, fun hcalled hquiet pre c ops post htr => ?_⟩
  · cases hc : s.coro c with
    | running =>
      have hrunning := hinv.coro c
      rwa [CoroInv, hc] at hrunning
    | suspended ops => exact ((hinv.coro c).suspended hc).2.trans_le (Nat.zero_le 1)
    | resumed ops => exact ((hinv.coro c).resumed hc).2.le
  · cases hs with
    | awaitResume hc =>
      obtain ⟨hone, hops, hvalues⟩ := hinv.results hc
      exact ⟨hone, hops.symm ▸ hc, hvalues⟩
  · subst htr
    exact exists_awaitResume h hcalled hquiet

/-- A coroutine awaits two operations with different storages through a utility function, and
another one awaits a third directly. The second operation calls its callback at once, the third
next, and the first, whose callback posts its coroutine, at last. -/
theorem results_delivered_sample :
    ∃ (R : Bool → ResultTuple) (tr : List (Action R)) (s s' : State R) (results : Results R),
      (system R).Run (initial R) tr s ∧ Step s (.awaitResume 0 results) s' ∧
        results.map Sigma.fst = [(true, 0), (false, 0)] ∧ resumes 0 tr = 1 ∧
        ∀ e ∈ results, ∃ r, callbacks e.1 tr = [r] ∧ e.2 = some r := by
  let R : Bool → ResultTuple := fun b =>
    if b then .defaultConstructible ℕ 0 else .notDefaultConstructible ℕ
  let fs : List Setter := [.continuation 0, .flags 0, .doneCount 0, .resultPtr 0]
  have h := LTS.Run.nil (T := system R) (s := initial R)
  have h := h.snoc (@Step.spawn Bool R _ _ 0 [(true, 0), (false, 0)] (fun _ => fs) rfl nofun
    (by decide) (fun _ _ => rfl) (by
      intro op hop
      rcases List.mem_pair.mp hop with rfl | rfl <;> exact ⟨rfl, rfl, .inl rfl⟩))
  have h := h.snoc (@Step.await Bool R _ _ 1 (true, 1) rfl rfl)
  have h := h.snoc (@Step.set Bool R _ _ (true, 0) _ _ rfl)
  have h := h.snoc (@Step.set Bool R _ _ (false, 0) _ _ rfl)
  have h := h.snoc (@Step.set Bool R _ _ (true, 0) _ _ rfl)
  have h := h.snoc (@Step.set Bool R _ _ (true, 1) _ _ rfl)
  have h := h.snoc (@Step.set Bool R _ _ (true, 0) _ _ rfl)
  have h := h.snoc (@Step.set Bool R _ _ (true, 0) _ _ rfl)
  have h := h.snoc (@Step.asyncInitiate Bool R _ _ (true, 0) rfl)
  have h := h.snoc (@Step.set Bool R _ _ (false, 0) _ _ rfl)
  have h := h.snoc (@Step.set Bool R _ _ (false, 0) _ _ rfl)
  have h := h.snoc (@Step.set Bool R _ _ (false, 0) _ _ rfl)
  have h := h.snoc (@Step.asyncInitiate Bool R _ _ (false, 0) rfl)
  have h := h.snoc (@Step.callback Bool R _ _ (false, 0) (7 : ℕ) rfl)
  have h := h.snoc (@Step.count Bool R _ _ (false, 0) rfl (by decide))
  have h := h.snoc (@Step.set Bool R _ _ (true, 1) _ _ rfl)
  have h := h.snoc (@Step.asyncInitiate Bool R _ _ (true, 1) rfl)
  have h := h.snoc (@Step.callback Bool R _ _ (true, 1) (9 : ℕ) rfl)
  have h := h.snoc (@Step.resume Bool R _ _ (true, 1) rfl (by decide))
  have h := h.snoc (@Step.callback Bool R _ _ (true, 0) (5 : ℕ) rfl)
  have h := h.snoc (@Step.post Bool R _ _ (true, 0) rfl (by decide))
  have h := h.snoc (@Step.resumePosted Bool R _ _ (true, 0) _ rfl)
  obtain ⟨hone, -, hresults⟩ := (results_delivered h).2.2.2.1 0 _ _ (.awaitResume rfl)
  exact ⟨R, _, _, _, _, h, .awaitResume rfl, rfl, hone, hresults⟩

end CallbackAwaitable

end TmcExamples
