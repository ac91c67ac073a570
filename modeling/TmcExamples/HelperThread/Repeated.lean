import Mathlib.Data.List.Count
import TmcExamples.HelperThread.Rank

/-!
# Awaiting the same object again

The direct path of `atomic_awaitable` does not initiate the object when the counter has reached its
value, but `awaitable_traits::async_initiate()` always does, and the thread of an earlier initiation
is joined by the destructor only. So an object may be awaited again and again if it is initiated
once at most, in every interleaving (`ScriptInv`). Otherwise there is an interleaving in which
a thread is assigned to a member that is joinable (`exists_terminated`).
-/

namespace TmcExamples

namespace HelperThread

variable {A : Awaitable} {script : List Await} {s s' : State} {a : Action} {untilValue : ℕ}

/-- The awaits of the script and the destructor run to their end, in every interleaving: no
joinable thread is assigned to or destroyed, the users stop only when everything is done, and apart
from spurious wakeups they do stop. -/
structure SafeToAwait (A : Awaitable) (script : List Await) : Prop where
  alive : ∀ s, (system A script).Reachable s → s.terminated = false
  completes : ∀ s, (system A script).Reachable s →
    (∀ a s', Step A s a s' → a.IsSpurious) → s.script = [] ∧ s.control = .destroyed
  finite : ∀ s, (system A script).Reachable s → (withoutSpurious A s).Terminating

/-- In no interleaving is the object initiated twice: no utility function awaits it, or just one
does, and no direct await before that can find the counter short of its value. -/
def InitiatedOnce (untilValue : ℕ) (script : List Await) : Prop :=
  .wrapped ∉ script ∨
    script.count .wrapped = 1 ∧ (untilValue = 0 ∨ script.head? = some .wrapped)

/-! ### Scripts that initiate the object once at most -/

/-- After the destructor has begun, nothing is left of the script. -/
private theorem script_nil (h : (system A script).Reachable s) :
    s.control.InDestructor → s.script = [] := by
  refine h.induct (P := fun s => s.control.InDestructor → s.script = []) False.elim
    fun s a s' _ ih hs hd => ?_
  obtain ⟨-, hs⟩ := hs
  cases hs with
  | ready hcontrol =>
    change s.control.InDestructor at hd
    rw [hcontrol] at hd
    exact hd.elim
  | suspendDirect | suspendWrapped | lock | resume => exact hd.elim
  | destruct _ hscript => exact hscript
  | joinable hcontrol | join hcontrol | unlockDestructor hcontrol | destroy hcontrol =>
    refine ih ?_
    rw [hcontrol]
    trivial
  | _ => exact ih hd

/-- The invariant of a script that initiates the object once at most. -/
structure ScriptInv (untilValue : ℕ) (s : State) : Prop where
  once : s.created ≤ 1
  count : s.script.count .wrapped ≤ 1
  head : untilValue ≠ 0 → .wrapped ∈ s.script → s.script.head? = some .wrapped
  unused : .wrapped ∈ s.script → s.created = 0 ∧ s.initiator = .idle ∧ s.control = .running
  lock : s.control = .lock → s.created = 0
  create : s.initiator = .create → s.created = 0
  reached : s.created = 1 → s.control = .running → s.updates = untilValue

namespace ScriptInv

theorem initial (h : InitiatedOnce untilValue script) : ScriptInv untilValue (initial script) where
  once := Nat.zero_le 1
  count := by
    rcases h with hno | ⟨hone, -⟩
    · exact (List.count_eq_zero.mpr hno).trans_le (Nat.zero_le 1)
    · exact hone.le
  head := by
    intro hpos hmem
    rcases h with hno | ⟨-, hzero | hhead⟩
    · exact (hno hmem).elim
    · exact (hpos hzero).elim
    · exact hhead
  unused := fun _ => ⟨rfl, rfl, rfl⟩
  lock := nofun
  create := nofun
  reached := nofun

/-- A step outside of the awaits. -/
theorem frame (h : ScriptInv untilValue s) (hscript : s'.script = s.script)
    (hcreated : s'.created = s.created) (hupdates : s'.updates = s.updates)
    (hinitiator : s'.initiator = .create → s.initiator = .create)
    (hlock : s'.control = .lock → s.control = .lock)
    (hrunning : s'.control = .running → s.control = .running)
    (hunused : .wrapped ∈ s.script → s'.initiator = .idle ∧ s'.control = .running) :
    ScriptInv untilValue s' := by
  constructor
  · rw [hcreated]
    exact h.once
  · rw [hscript]
    exact h.count
  · rw [hscript]
    exact h.head
  · rw [hscript, hcreated]
    exact fun hmem => ⟨(h.unused hmem).1, hunused hmem⟩
  · rw [hcreated]
    exact fun hc => h.lock (hlock hc)
  · rw [hcreated]
    exact fun hc => h.create (hinitiator hc)
  · rw [hcreated, hupdates]
    exact fun hone hc => h.reached hone (hrunning hc)

/-- A running coroutine that can find the counter short of its value has not initiated the object,
and nobody is doing so. -/
private theorem created_of_running (h : ScriptInv untilValue s) (hrunning : s.control = .running)
    (hshort : s.updates ≠ untilValue) : s.created = 0 := by
  refine Nat.lt_one_iff.mp (h.once.lt_of_ne fun hone => ?_)
  exact hshort (h.reached hone hrunning)

/-- The head of the script is awaited. The awaits that are left do not initiate the object if this
one does. -/
theorem await (h : ScriptInv untilValue s) {rest : List Await} (hcreated : s.created = 0)
    (hinitiator : s.initiator ≠ .create) (hrest : .wrapped ∉ rest) :
    ScriptInv untilValue { s with script := rest, control := .lock } where
  once := h.once
  count := (List.count_eq_zero.mpr hrest).trans_le (Nat.zero_le 1)
  head := fun _ hmem => (hrest hmem).elim
  unused := fun hmem => (hrest hmem).elim
  lock := fun _ => hcreated
  create := fun hc => (hinitiator hc).elim
  reached := fun _ hc => nomatch hc

/-- A direct await that finds the counter at its value. -/
theorem ready (h : ScriptInv untilValue s) {rest : List Await}
    (hscript : s.script = .direct :: rest) : ScriptInv untilValue { s with script := rest } := by
  have hmem {x : Await} (hx : x ∈ rest) : x ∈ s.script := by
    rw [hscript]
    exact List.mem_cons_of_mem _ hx
  refine ⟨h.once, ?_, fun hpos hx => ?_, fun hx => h.unused (hmem hx), h.lock, h.create, h.reached⟩
  · refine le_trans ?_ h.count
    rw [hscript]
    exact (List.sublist_cons_self ..).count_le _
  · -- The wrapped await would have to be the first one.
    have hhead := h.head hpos (hmem hx)
    rw [hscript] at hhead
    cases hhead

/-- Every step of a script that initiates once keeps its account. -/
theorem step (h : ScriptInv untilValue s)
    (hr : (system (atomicAwaitable untilValue) script).Reachable s)
    (hs : Step (atomicAwaitable untilValue) s a s') : ScriptInv untilValue s' := by
  have howner := ownerInv_reachable hr h.once
  have hwait := waitInv_reachable hr
  have hended {i : ℕ} (hres : a = .resume i) : s.updates = untilValue := by
    subst hres
    exact of_decide_eq_true (hwait.ended_of_resume hs)
  have hnotCreate (hrunning : s.control = .running) : s.initiator ≠ .create := by
    intro hc
    have heq := howner.create hc
    rw [hrunning] at heq
    cases heq
  obtain ⟨-, hs⟩ := hs
  cases hs with
  | update hlt =>
    -- A coroutine that runs after the initiation has seen the last update.
    refine ⟨h.once, h.count, h.head, h.unused, h.lock, h.create, fun hone hc => ?_⟩
    exact (hlt.ne (h.reached hone hc)).elim
  | notifyAll | load | wait | changed | spurious | exit =>
    exact h.frame rfl rfl rfl id id id fun hmem => (h.unused hmem).2
  | resume _ hcontrol =>
    refine ⟨h.once, h.count, h.head, fun hmem => ?_, nofun, h.create, fun _ _ => hended rfl⟩
    have heq := (h.unused hmem).2.2
    rw [hcontrol] at heq
    cases heq
  | ready _ hscript => exact h.ready hscript
  | @suspendDirect rest hrunning hscript hready =>
    -- It finds the counter short of its value, so the object has not been initiated, and nothing
    -- that is left initiates it again.
    have hshort : s.updates ≠ untilValue := of_decide_eq_false hready
    refine h.await (h.created_of_running hrunning hshort) (hnotCreate hrunning) ?_
    intro hmem
    have hpos : untilValue ≠ 0 := by
      rintro rfl
      exact hshort (Nat.le_zero.mp hwait.updates)
    have hhead := h.head hpos (by rw [hscript]; exact List.mem_cons_of_mem _ hmem)
    rw [hscript] at hhead
    cases hhead
  | @suspendWrapped rest hrunning hscript =>
    have hmem : .wrapped ∈ s.script := by
      rw [hscript]
      exact List.mem_cons_self
    refine h.await (h.unused hmem).1 (hnotCreate hrunning) ?_
    have hcount := h.count
    rw [hscript, List.count_cons_self] at hcount
    exact List.count_eq_zero.mp (Nat.le_zero.mp (Nat.le_of_succ_le_succ hcount))
  | lock hcontrol =>
    refine ⟨h.once, h.count, h.head, fun hmem => ?_, nofun, fun _ => h.lock hcontrol, nofun⟩
    have heq := (h.unused hmem).2.2
    rw [hcontrol] at heq
    cases heq
  | create hinitiator =>
    have hzero := h.create hinitiator
    have hcontrol := howner.create hinitiator
    refine ⟨(congrArg Nat.succ hzero).le, h.count, h.head, fun hmem => ?_, fun hc => ?_, nofun,
      fun _ hc => ?_⟩
    · have heq := (h.unused hmem).2.1
      rw [hinitiator] at heq
      cases heq
    · change s.control = _ at hc
      rw [hcontrol] at hc
      cases hc
    · change s.control = _ at hc
      rw [hcontrol] at hc
      cases hc
  | assign hinitiator | unlock hinitiator =>
    refine h.frame rfl rfl rfl (by nofun) id id fun hmem => ?_
    have heq := (h.unused hmem).2.1
    rw [hinitiator] at heq
    cases heq
  | assignJoinable => exact h.frame rfl rfl rfl id id id fun hmem => (h.unused hmem).2
  | destruct _ hscript =>
    refine h.frame rfl rfl rfl id (by nofun) (by nofun) fun hmem => ?_
    rw [hscript] at hmem
    cases hmem
  | joinable hcontrol =>
    refine h.frame rfl rfl rfl id ?_ ?_ fun hmem => ?_
    · change (if s.thread.isSome then Control.join else .unlock) = .lock → _
      split <;> nofun
    · change (if s.thread.isSome then Control.join else .unlock) = .running → _
      split <;> nofun
    · have heq := (h.unused hmem).2.2
      rw [hcontrol] at heq
      cases heq
  | join hcontrol | unlockDestructor hcontrol | destroy hcontrol =>
    refine h.frame rfl rfl rfl id (by nofun) (by nofun) fun hmem => ?_
    have heq := (h.unused hmem).2.2
    rw [hcontrol] at heq
    cases heq

end ScriptInv

private theorem scriptInv_reachable (h : InitiatedOnce untilValue script)
    (hs : (system (atomicAwaitable untilValue) script).Reachable s) : ScriptInv untilValue s :=
  hs.induct (P := ScriptInv untilValue) (.initial h) fun _ _ _ hr hi hstep => hi.step hr hstep

/-- A script that initiates the object once at most is safe. -/
private theorem safeToAwait_of_initiatedOnce (h : InitiatedOnce untilValue script) :
    SafeToAwait (atomicAwaitable untilValue) script where
  alive := fun _ hr => (ownerInv_reachable hr (scriptInv_reachable h hr).once).alive
  completes := by
    intro s hr hstuck
    have hone := (scriptInv_reachable h hr).once
    have hdestroyed : s.control = .destroyed := by
      by_contra hlive
      obtain ⟨a, s', hs, ha⟩ :=
        (ownerInv_reachable hr hone).exists_step (waitInv_reachable hr) hone hlive
      exact ha (hstuck a s' hs)
    refine ⟨script_nil hr ?_, hdestroyed⟩
    rw [hdestroyed]
    trivial
  finite := fun _ hr => terminating_withoutSpurious hr fun _ ht => (scriptInv_reachable h ht).once

/-! ### Scripts that may initiate the object twice -/

/-- A helper that reads a value it waits for leaves its loop. -/
private theorem move_load_ended {i : ℕ} (hi : s.helper i = .load)
    (hended : A.ended (s.value A) = true) : Move A s (.load i) (s.setHelper i .resume) := by
  have hload := Move.load (A := A) hi
  rwa [if_pos hended] at hload

/-- The updates can be made one after the other. -/
private theorem run_updates (script : List Await) (halive : s.terminated = false) {n : ℕ}
    (hn : s.updates + n ≤ A.updates) :
    ∃ tr, (system A script).Run s tr
      { s with updates := s.updates + n, notifies := s.notifies + n } := by
  induction n with
  | zero => exact ⟨[], .nil⟩
  | succ n ih =>
    obtain ⟨tr, hrun⟩ := ih (by omega)
    exact ⟨_, hrun.snoc ⟨halive, .update (Nat.lt_of_succ_le hn)⟩⟩

/-- The coroutine runs, nobody has the lock, and a thread is in the member. -/
structure Reusable (untilValue : ℕ) (s : State) : Prop where
  alive : s.terminated = false
  control : s.control = .running
  initiator : s.initiator = .idle
  unlocked : s.locked = false
  thread : s.thread ≠ none
  updates : s.updates = untilValue

/-- The next await through a utility function assigns to a joinable thread. -/
private theorem Reusable.exists_terminated (script : List Await) (h : Reusable untilValue s)
    (hmem : .wrapped ∈ s.script) :
    ∃ tr s', (system (atomicAwaitable untilValue) script).Run s tr s' ∧ s'.terminated = true := by
  generalize hscript : s.script = rest at hmem
  induction rest generalizing s with
  | nil => cases hmem
  | cons await rest ih =>
    cases await with
    | direct =>
      have hready : (atomicAwaitable untilValue).awaitReady (s.value (atomicAwaitable untilValue)) =
          true := decide_eq_true h.updates
      have hnext : Reusable untilValue { s with script := rest } :=
        ⟨h.alive, h.control, h.initiator, h.unlocked, h.thread, h.updates⟩
      have hrest : .wrapped ∈ rest := (List.mem_cons.mp hmem).resolve_left nofun
      obtain ⟨tr, s', hrun, hterminated⟩ := ih hnext rfl hrest
      exact ⟨_, s', LTS.Run.cons ⟨h.alive, .ready h.control hscript hready⟩ hrun, hterminated⟩
    | wrapped =>
      obtain ⟨i, hi⟩ := Option.ne_none_iff_exists'.mp h.thread
      have hrun := LTS.Run.nil (T := system (atomicAwaitable untilValue) script) (s := s)
      have hrun := hrun.snoc ⟨h.alive, .suspendWrapped h.control hscript⟩
      have hrun := hrun.snoc ⟨h.alive, .lock rfl h.unlocked⟩
      have hrun := hrun.snoc ⟨h.alive, .create rfl⟩
      have hrun := hrun.snoc ⟨h.alive, .assignJoinable rfl hi⟩
      exact ⟨_, _, hrun, rfl⟩

/-- The first initiation can run to its end. -/
private theorem exists_reusable (script rest : List Await) :
    ∃ tr s', (system (atomicAwaitable untilValue) script).Run
      { initial rest with control := .lock } tr s' ∧ Reusable untilValue s' ∧ s'.script = rest := by
  have hrun := LTS.Run.nil (T := system (atomicAwaitable untilValue) script)
    (s := { initial rest with control := .lock })
  have hrun := hrun.snoc ⟨rfl, .lock rfl rfl⟩
  have hrun := hrun.snoc ⟨rfl, .create rfl⟩
  have hrun := hrun.snoc ⟨rfl, .assign rfl rfl⟩
  have hrun := hrun.snoc ⟨rfl, .unlock rfl⟩
  obtain ⟨tr, hupdates⟩ := run_updates (A := atomicAwaitable untilValue) script
    (s := { initial rest with
      control := .suspended
      helper := Function.update (fun _ => .notCreated) 0 .load
      thread := some 0
      created := 1
      assigned := 1 }) rfl (n := untilValue) (Nat.zero_add _).le
  have hrun := hrun.trans hupdates
  have hrun := hrun.snoc ⟨rfl, move_load_ended (i := 0) rfl (decide_eq_true (Nat.zero_add _))⟩
  have hrun := hrun.snoc ⟨rfl, .resume (i := 0) rfl rfl⟩
  exact ⟨_, _, hrun, ⟨rfl, rfl, rfl, rfl, nofun, Nat.zero_add _⟩, rfl⟩

/-- While the counter has its value, direct awaits go on at once. -/
private theorem run_to_wrapped (hmem : .wrapped ∈ script) :
    ∃ rest tr, script.count .wrapped = rest.count .wrapped + 1 ∧ ∀ all,
      (system (atomicAwaitable 0) all).Run (initial script) tr
        { initial rest with control := .lock } := by
  induction script with
  | nil => cases hmem
  | cons await l ih =>
    cases await with
    | direct =>
      obtain ⟨rest, tr, hcount, hrun⟩ := ih ((List.mem_cons.mp hmem).resolve_left nofun)
      refine ⟨rest, .ready :: tr, hcount, fun all => LTS.Run.cons ⟨rfl, ?_⟩ (hrun all)⟩
      exact Move.ready rfl rfl rfl
    | wrapped =>
      refine ⟨l, [.suspend .wrapped], List.count_cons_self .., fun all => LTS.Run.single ⟨rfl, ?_⟩⟩
      exact Move.suspendWrapped rfl rfl

/-- When a second initiation is to come, the first one leads to it. -/
private theorem exists_terminated_of_lock {tr : List Action} {rest : List Await}
    (hrun : (system (atomicAwaitable untilValue) script).Run (initial script) tr
      { initial rest with control := .lock }) (hmem : .wrapped ∈ rest) :
    ∃ s, (system (atomicAwaitable untilValue) script).Reachable s ∧ s.terminated = true := by
  obtain ⟨tr₁, s₁, hrun₁, hreusable, hscript⟩ := exists_reusable script rest
  rw [← hscript] at hmem
  obtain ⟨tr₂, s₂, hrun₂, hterminated⟩ := hreusable.exists_terminated script hmem
  exact ⟨s₂, ⟨_, (hrun.trans hrun₁).trans hrun₂⟩, hterminated⟩

/-- An object that may be initiated twice is assigned to while it is joinable, in some
interleaving. -/
private theorem exists_terminated (h : ¬ InitiatedOnce untilValue script) :
    ∃ s, (system (atomicAwaitable untilValue) script).Reachable s ∧ s.terminated = true := by
  obtain ⟨hmem, hmore⟩ := not_or.mp h
  rw [not_not] at hmem
  by_cases hzero : untilValue = 0
  · -- Direct awaits never initiate the object, so there are two others.
    subst hzero
    obtain ⟨rest, tr, hcount, hrun⟩ := run_to_wrapped hmem
    refine exists_terminated_of_lock (hrun script) (List.count_pos_iff.mp ?_)
    have hne : script.count .wrapped ≠ 1 := fun hone => hmore ⟨hone, .inl rfl⟩
    omega
  · -- The first await initiates the object, since nothing has been counted yet.
    cases script with
    | nil => cases hmem
    | cons await rest =>
      cases await with
      | direct =>
        have hshort : (atomicAwaitable untilValue).awaitReady 0 = false :=
          decide_eq_false fun h => hzero h.symm
        have hstep := @Move.suspendDirect _ (initial (.direct :: rest)) rest rfl rfl hshort
        refine exists_terminated_of_lock (LTS.Run.single ⟨rfl, hstep⟩) ?_
        exact (List.mem_cons.mp hmem).resolve_left nofun
      | wrapped =>
        have hstep := @Move.suspendWrapped (atomicAwaitable untilValue)
          (initial (.wrapped :: rest)) rest rfl rfl
        refine exists_terminated_of_lock (LTS.Run.single ⟨rfl, hstep⟩) ?_
        have hne : (Await.wrapped :: rest).count .wrapped ≠ 1 := fun hone =>
          hmore ⟨hone, .inr rfl⟩
        rw [List.count_cons_self] at hne
        exact List.count_pos_iff.mp (by omega)

/-- **When it is safe to await an `atomic_awaitable` several times**: exactly when the script
initiates the object once at most in every interleaving. -/
theorem safe_to_await_iff (untilValue : ℕ) (script : List Await) :
    SafeToAwait (atomicAwaitable untilValue) script ↔ InitiatedOnce untilValue script := by
  refine ⟨fun hsafe => ?_, safeToAwait_of_initiatedOnce⟩
  by_contra hno
  obtain ⟨s, hr, hterminated⟩ := exists_terminated hno
  have heq := hsafe.alive s hr
  rw [hterminated] at heq
  cases heq

/-- Two utility functions await the object, one after the other: the second one assigns a thread to
the member, which still has the thread of the first one. -/
theorem not_safe_to_await_twice : ¬ SafeToAwait (atomicAwaitable 1) [.wrapped, .wrapped] := by
  intro hsafe
  have h := LTS.Run.nil (T := system (atomicAwaitable 1) [.wrapped, .wrapped])
    (s := initial [.wrapped, .wrapped])
  have h := h.snoc ⟨rfl, .suspendWrapped rfl rfl⟩
  have h := h.snoc ⟨rfl, .lock rfl rfl⟩
  have h := h.snoc ⟨rfl, .create rfl⟩
  have h := h.snoc ⟨rfl, .assign rfl rfl⟩
  have h := h.snoc ⟨rfl, .unlock rfl⟩
  have h := h.snoc ⟨rfl, .update Nat.one_pos⟩
  have h := h.snoc ⟨rfl, .load (i := 0) rfl⟩
  have h := h.snoc ⟨rfl, .resume (i := 0) rfl rfl⟩
  have h := h.snoc ⟨rfl, .suspendWrapped rfl rfl⟩
  have h := h.snoc ⟨rfl, .lock rfl rfl⟩
  have h := h.snoc ⟨rfl, .create rfl⟩
  have h := h.snoc ⟨rfl, .assignJoinable rfl rfl⟩
  cases hsafe.alive _ h.reachable

end HelperThread

end TmcExamples
