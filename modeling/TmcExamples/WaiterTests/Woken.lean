import Mathlib.Data.Fintype.Card
import TmcExamples.Transition.Parties
import TmcExamples.WaiterTests.Model

/-!
# What the tests find

Until `wait_for_waiter_count` has found all tasks suspended, no task has passed its `co_await`
(`Arriving`). From then on the configuration of the commands is that of the test (`Past`), whatever
the woken tasks do: a task that has been woken does not come back to the primitive.
-/

namespace TmcExamples

namespace WaiterTests

variable {σ ω : Type*} {T : Test σ ω} {s s' : State T} {a : Action T}

/-- No task has been woken, and the test is at its first command. -/
structure Arriving (s : State T) : Prop where
  rest : s.rest = .waitForWaiterCount T.waiters :: T.commands
  prim : s.prim = some T.initial
  failures : s.failures = 0
  waiter : ∀ i, s.waiter i = .created ∨ s.waiter i = .suspended

/-- All tasks have been suspended, and the commands so far have led to the configuration `c`. -/
structure Past (s : State T) (c : Config σ) : Prop where
  waiter : ∀ i, s.waiter i ≠ .created
  prim : c.prim = s.prim
  waiters : c.waiters = s.waiting.card
  awaited : c.awaited = true → s.value = T.waiters
  exec : WaiterTests.exec T.prim T.commands T.suspended = WaiterTests.exec T.prim s.rest c
  holds : T.Holds → s.failures = 0 ∧ allHold T.prim T.waiters s.rest c = true

/-- The value counts the tasks that have returned, and the test is at its first command or past
it. -/
structure Inv (s : State T) : Prop where
  value : s.value = (tasksAt s.waiter .returned).card
  phase : Arriving s ∨ ∃ c, Past s c

/-! ### The tasks at a point -/

section Points

variable {n : ℕ} {waiter : Fin n → Waiter} {i : Fin n} {v w : Waiter}

@[simp] theorem mem_tasksAt : i ∈ tasksAt waiter w ↔ waiter i = w := by
  rw [tasksAt, Finset.mem_filter]
  exact and_iff_right (Finset.mem_univ i)

/-- The tasks at a point that a task neither leaves nor comes to. -/
private theorem tasksAt_update (hv : v ≠ w) (hi : waiter i ≠ w) :
    tasksAt (Function.update waiter i v) w = tasksAt waiter w := by
  ext j
  rw [mem_tasksAt, mem_tasksAt]
  by_cases hj : j = i
  · rw [hj, Function.update_self]
    exact iff_of_false hv hi
  · rw [Function.update_of_ne hj]

/-- The tasks at the point that a task comes to. -/
private theorem tasksAt_update_self :
    tasksAt (Function.update waiter i w) w = insert i (tasksAt waiter w) := by
  ext j
  rw [Finset.mem_insert, mem_tasksAt, mem_tasksAt]
  by_cases hj : j = i
  · rw [hj, Function.update_self]
    exact iff_of_true rfl (Or.inl rfl)
  · rw [Function.update_of_ne hj]
    exact (or_iff_right hj).symm

private theorem card_tasksAt_eq_iff : (tasksAt waiter w).card = n ↔ ∀ i, waiter i = w := by
  have huniv : (tasksAt waiter w).card = n ↔ tasksAt waiter w = Finset.univ := by
    rw [← Finset.card_eq_iff_eq_univ, Fintype.card_fin]
  rw [huniv, Finset.eq_univ_iff_forall]
  exact forall_congr' fun i => mem_tasksAt

/-- No task is at two points. -/
private theorem card_tasksAt_add_le (hvw : v ≠ w) :
    (tasksAt waiter v).card + (tasksAt waiter w).card ≤ n := by
  have hdisjoint : Disjoint (tasksAt waiter v) (tasksAt waiter w) := by
    refine Finset.disjoint_left.mpr fun i hv hw => hvw ?_
    rw [← mem_tasksAt.mp hv, ← mem_tasksAt.mp hw]
  have hcard := Finset.card_le_univ (tasksAt waiter v ∪ tasksAt waiter w)
  rwa [Finset.card_union_of_disjoint hdisjoint, Fintype.card_fin] at hcard

end Points

/-! ### A wakeup -/

section Wakeup

variable {W : Finset (Fin T.waiters)}

/-- The tasks that are woken do not wait any longer. -/
private theorem waiting_wake : (s.wake W).waiting = s.waiting \ W := by
  ext i
  rw [Finset.mem_sdiff, State.waiting, State.waiting, mem_tasksAt, mem_tasksAt, State.wake]
  dsimp only
  split
  case isTrue hi => exact iff_of_false (fun he => by cases he) fun h => h.2 hi
  case isFalse hi => exact (and_iff_left hi).symm

/-- No task gets to its end by a wakeup. -/
private theorem returned_wake (hW : W ⊆ s.waiting) :
    tasksAt (s.wake W).waiter .returned = tasksAt s.waiter .returned := by
  ext i
  rw [mem_tasksAt, mem_tasksAt, State.wake]
  dsimp only
  split
  case isTrue hi =>
    rw [mem_tasksAt.mp (hW hi)]
    exact iff_of_false (fun he => by cases he) fun he => by cases he
  case isFalse => rfl

/-- A wakeup comes to no task that has not arrived. -/
theorem Past.wake {c : Config σ} (h : Past s c) (i : Fin T.waiters) :
    (s.wake W).waiter i ≠ .created := by
  dsimp only [State.wake]
  split
  · exact fun he => by cases he
  · exact h.waiter i

end Wakeup

/-! ### Counting -/

theorem inv_init (T : Test σ ω) : Inv T.system.init where
  value := by
    refine (Finset.card_eq_zero.mpr (Finset.eq_empty_of_forall_notMem fun i hi => ?_)).symm
    cases mem_tasksAt.mp hi
  phase := Or.inl ⟨rfl, rfl, rfl, fun i => Or.inl rfl⟩

/-- The value has its last value if and only if all tasks are at their end. -/
private theorem Inv.value_eq_iff (h : Inv s) :
    s.value = T.waiters ↔ ∀ i, s.waiter i = .returned := by
  rw [h.value, card_tasksAt_eq_iff]

private theorem Inv.value_add_card_le (h : Inv s) : s.value + s.waiting.card ≤ T.waiters := by
  rw [h.value]
  exact card_tasksAt_add_le (by decide)

private theorem Inv.card_waiting_eq_zero (h : Inv s) (hvalue : s.value = T.waiters) :
    s.waiting.card = 0 := by
  have hle := h.value_add_card_le
  omega

/-! ### The tasks -/

section Tasks

variable {i : Fin T.waiters}

/-- A task that arrives does not find the primitive free. -/
private theorem Inv.not_await (h : Inv s) {q q' : σ} (hi : s.waiter i = .created)
    (hq : s.prim = some q) (hawait : T.prim.await q = some q') : False := by
  rcases h.phase with harriving | ⟨c, hpast⟩
  · rw [harriving.prim] at hq
    cases hq
    rw [T.suspends] at hawait
    cases hawait
  · exact hpast.waiter i hi

/-- A task that arrives suspends; it does so before the commands start. -/
theorem Inv.suspend (h : Inv s) (hi : s.waiter i = .created) :
    Inv { s with waiter := Function.update s.waiter i .suspended } := by
  rcases h.phase with harriving | ⟨c, hpast⟩
  · refine ⟨?_, Or.inl ⟨harriving.rest, harriving.prim, harriving.failures, ?_⟩⟩
    · rw [tasksAt_update (by decide) (by rw [hi]; decide)]
      exact h.value
    · exact forall_update (P := fun _ (w : Waiter) => w = .created ∨ w = .suspended)
        harriving.waiter (Or.inr rfl)
  · exact (hpast.waiter i hi).elim

/-- A task that was woken increments the value and returns. -/
theorem Inv.inc (h : Inv s) (hi : s.waiter i = .resumed) :
    Inv { s with value := s.value + 1, waiter := Function.update s.waiter i .returned } := by
  have hnot : s.waiter i ≠ .returned := by rw [hi]; decide
  rcases h.phase with harriving | ⟨c, hpast⟩
  · rcases harriving.waiter i with he | he <;> rw [hi] at he <;> cases he
  · refine ⟨?_, Or.inr ⟨c, ?_, hpast.prim, ?_, fun ha => ?_, hpast.exec, hpast.holds⟩⟩
    · rw [tasksAt_update_self, Finset.card_insert_of_notMem fun hmem => hnot (mem_tasksAt.mp hmem),
        ← h.value]
    · exact forall_update (P := fun _ (w : Waiter) => w ≠ .created) hpast.waiter
        fun he => by cases he
    · rw [State.waiting, tasksAt_update (by decide) (by rw [hi]; decide)]
      exact hpast.waiters
    · exact (hnot (h.value_eq_iff.mp (hpast.awaited ha) i)).elim

end Tasks

/-! ### The commands -/

section Commands

variable {c c' : Config σ} {cmd : Command σ ω} {cmds : List (Command σ ω)}

/-- The test gets past a command that leads to the configuration `c'`. -/
theorem Past.command (h : Past s c) (hrest : s.rest = cmd :: cmds)
    (hexec : cmd.exec T.prim c = some c') (hrest' : s'.rest = cmds)
    (hwaiter : ∀ i, s'.waiter i ≠ .created) (hprim : c'.prim = s'.prim)
    (hwaiters : c'.waiters = s'.waiting.card) (hawaited : c'.awaited = true → s'.value = T.waiters)
    (hfailures : cmd.holds T.prim T.waiters c = true → s'.failures = s.failures) : Past s' c' where
  waiter := hwaiter
  prim := hprim
  waiters := hwaiters
  awaited := hawaited
  exec := by
    rw [h.exec, hrest, hrest', WaiterTests.exec, hexec]
    rfl
  holds hT := by
    obtain ⟨hfail, hall⟩ := h.holds hT
    rw [hrest, allHold, hexec, Bool.and_eq_true] at hall
    rw [hrest', hfailures hall.1]
    exact ⟨hfail, hall.2⟩

private theorem State.failures_expect {b : Bool} (hb : b = true) :
    (s.expect b).failures = s.failures :=
  if_pos hb

/-- A command that does not touch the tasks and the primitive, and leads to a configuration that
fits the state. -/
theorem Inv.command (h : Inv s) (hpast : Past s c) (hrest : s.rest = cmd :: cmds) (b : Bool)
    (hexec : cmd.exec T.prim c = some c') (hprim : c'.prim = s.prim)
    (hwaiters : c'.waiters = s.waiting.card) (hawaited : c'.awaited = true → s.value = T.waiters)
    (hb : cmd.holds T.prim T.waiters c = true → b = true) :
    Inv { s.expect b with rest := cmds } where
  value := h.value
  phase := Or.inr ⟨c', hpast.command hrest hexec rfl hpast.waiter hprim hwaiters hawaited
    fun hholds => State.failures_expect (hb hholds)⟩

/-- A command that wakes tasks. -/
private theorem Inv.wakeCommand (h : Inv s) (hpast : Past s c) (hrest : s.rest = cmd :: cmds)
    {W : Finset (Fin T.waiters)} (hW : W ⊆ s.waiting) (b : Bool) {q : Option σ}
    (hexec : cmd.exec T.prim c = some c') (hprim : c'.prim = q)
    (hwaiters : c'.waiters = s.waiting.card - W.card) (hawaited : c'.awaited = c.awaited)
    (hb : cmd.holds T.prim T.waiters c = true → b = true) :
    Inv { (s.wake W).expect b with prim := q, rest := cmds } where
  value := by
    have hvalue := h.value
    rw [← returned_wake hW] at hvalue
    exact hvalue
  phase := by
    refine Or.inr ⟨c', hpast.command hrest hexec rfl hpast.wake hprim ?_
      (fun ha => hpast.awaited (hawaited ▸ ha)) fun hholds => State.failures_expect (hb hholds)⟩
    change _ = (s.wake W).waiting.card
    rw [waiting_wake, Finset.card_sdiff_of_subset hW, hwaiters]

/-- Only the first command is taken before all tasks are suspended. -/
private theorem Inv.exists_past (h : Inv s) (hrest : s.rest = cmd :: cmds)
    (hcmd : ∀ k, cmd ≠ .waitForWaiterCount k) : ∃ c, Past s c := by
  rcases h.phase with harriving | hpast
  · rw [harriving.rest] at hrest
    exact (hcmd _ (List.cons.inj hrest).1.symm).elim
  · exact hpast

/-- A poll that finds the number of waiters it is for lets the commands go on. -/
theorem Inv.found (h : Inv s) {k : ℕ} (hrest : s.rest = .waitForWaiterCount k :: cmds)
    (hq : s.prim.isSome) (hcard : s.waiting.card = k) : Inv { s with rest := cmds } := by
  rcases h.phase with harriving | ⟨c, hpast⟩
  · -- All tasks have arrived.
    rw [harriving.rest] at hrest
    obtain ⟨hk, rfl⟩ := List.cons.inj hrest
    obtain rfl : T.waiters = k := Command.waitForWaiterCount.inj hk
    have hsuspended := card_tasksAt_eq_iff.mp hcard
    refine ⟨h.value, Or.inr ⟨T.suspended, fun i => ?_, harriving.prim.symm, hcard.symm,
      (fun ha => by cases ha), rfl, fun hT => ⟨harriving.failures, hT⟩⟩⟩
    dsimp only
    rw [hsuspended i]
    exact fun he => by cases he
  · refine h.command hpast hrest true (if_pos ⟨?_, ?_⟩) hpast.prim hpast.waiters hpast.awaited
      fun _ => rfl
    · rwa [hpast.prim]
    · rw [hpast.waiters, hcard]

/-- An expectation about the value looks at it and changes nothing. -/
theorem Inv.expectLoad (h : Inv s) {v : ℕ} (hrest : s.rest = .expectLoad v :: cmds) :
    Inv { s.expect (s.value = v) with rest := cmds } := by
  obtain ⟨c, hpast⟩ := h.exists_past hrest fun k he => by cases he
  refine h.command hpast hrest _ rfl hpast.prim hpast.waiters hpast.awaited fun hholds => ?_
  have hle := h.value_add_card_le
  rcases of_decide_eq_true hholds with ⟨rfl, hall⟩ | ⟨rfl, hawaited⟩
  · rw [hpast.waiters] at hall
    exact decide_eq_true (by omega)
  · exact decide_eq_true (hpast.awaited hawaited)

/-- An expectation about the primitive looks at its state and changes nothing. -/
theorem Inv.expectState (h : Inv s) {p : σ → ℕ → Bool} {q : σ}
    (hrest : s.rest = .expectState p :: cmds) (hq : s.prim = some q) :
    Inv { s.expect (p q s.waiting.card) with rest := cmds } := by
  obtain ⟨c, hpast⟩ := h.exists_past hrest fun k he => by cases he
  have hprim : c.prim = some q := by rw [hpast.prim, hq]
  refine h.command hpast hrest _ (if_pos ?_) hpast.prim hpast.waiters hpast.awaited
    fun hholds => ?_
  · rw [hprim]
    rfl
  · rw [Command.holds, hprim, hpast.waiters] at hholds
    exact hholds

/-- A call wakes as many tasks as in the execution of the commands alone. -/
theorem Inv.call (h : Inv s) {o : ω} {expected : Option ℕ} {q : σ} {W : Finset (Fin T.waiters)}
    (hrest : s.rest = .call o expected :: cmds) (hq : s.prim = some q) (hW : W ⊆ s.waiting)
    (hcard : W.card = min (T.prim.call o s.waiting.card q).1 s.waiting.card) :
    Inv { (s.wake W).expect (expected.all fun k => k = (T.prim.call o s.waiting.card q).1) with
      prim := some (T.prim.call o s.waiting.card q).2
      rest := cmds } := by
  obtain ⟨c, hpast⟩ := h.exists_past hrest fun k he => by cases he
  have hprim : c.prim = some q := by rw [hpast.prim, hq]
  have hexec : (Command.call o expected).exec T.prim c = some
      ⟨some (T.prim.call o s.waiting.card q).2,
        s.waiting.card - (T.prim.call o s.waiting.card q).1, c.awaited⟩ := by
    rw [Command.exec, hprim, hpast.waiters]
    rfl
  refine h.wakeCommand hpast hrest hW _ hexec rfl ?_ rfl fun hholds => ?_
  · dsimp only
    omega
  · rw [Command.holds, hprim, hpast.waiters] at hholds
    exact hholds

/-- The destructor wakes everyone. -/
theorem Inv.destroy (h : Inv s) (hrest : s.rest = .destroy :: cmds) (hq : s.prim.isSome) :
    Inv { s.wake s.waiting with prim := none, rest := cmds } := by
  obtain ⟨c, hpast⟩ := h.exists_past hrest fun k he => by cases he
  refine h.wakeCommand hpast hrest subset_rfl true (if_pos ?_) rfl (Nat.sub_self _).symm rfl
    fun _ => rfl
  rwa [hpast.prim]

/-- Both ways of awaiting all tasks. -/
private theorem Inv.awaitAll (h : Inv s) (hcmd : cmd = .awaitValue ∨ cmd = .awaitTasks)
    (hrest : s.rest = cmd :: cmds) (hvalue : s.value = T.waiters) :
    Inv { s with rest := cmds } := by
  obtain ⟨c, hpast⟩ := h.exists_past hrest fun k he => by rcases hcmd with rfl | rfl <;> cases he
  have hzero : c.waiters = 0 := by rw [hpast.waiters, h.card_waiting_eq_zero hvalue]
  have hexec : cmd.exec T.prim c = some { c with awaited := true } := by
    rcases hcmd with rfl | rfl <;> exact if_pos hzero
  exact h.command hpast hrest true hexec hpast.prim hpast.waiters (fun _ => hvalue) fun _ => rfl

end Commands

/-- Every step keeps the tasks in step with the execution of the commands alone. -/
theorem inv_step (h : Inv s) (hs : Step T s a s') : Inv s' := by
  cases hs with
  | await hi hq hawait => exact (h.not_await hi hq hawait).elim
  | suspend hi => exact h.suspend hi
  | inc hi => exact h.inc hi
  | poll => exact h
  | found hrest hq hcard => exact h.found hrest hq hcard
  | expectLoad hrest => exact h.expectLoad hrest
  | expectState hrest hq => exact h.expectState hrest hq
  | call hrest hq hW hcard => exact h.call hrest hq hW hcard
  | destroy hrest hq => exact h.destroy hrest hq
  | awaitValue hrest hvalue => exact h.awaitAll (.inl rfl) hrest hvalue
  | awaitTasks hrest hall => exact h.awaitAll (.inr rfl) hrest (h.value_eq_iff.mpr hall)

theorem inv_of_reachable (h : T.system.Reachable s) : Inv s :=
  h.induct (inv_init T) fun _ _ _ _ hinv hs => inv_step hinv hs

/-! ### Where nothing but polls is left -/

/-- How far a task is from its end. -/
def Waiter.rank : Waiter → ℕ
  | .created => 3
  | .suspended => 2
  | .resumed => 1
  | .returned => 0

/-- How far a test is from its end. -/
def State.rank (s : State T) : ℕ := s.rest.length + ∑ i, (s.waiter i).rank

/-- A wakeup takes no task further from its end. -/
private theorem rank_wake_le {W : Finset (Fin T.waiters)} (hW : W ⊆ s.waiting) :
    ∑ i, ((s.wake W).waiter i).rank ≤ ∑ i, (s.waiter i).rank := by
  refine Finset.sum_le_sum fun i _ => ?_
  dsimp only [State.wake]
  split
  case isTrue hi =>
    rw [mem_tasksAt.mp (hW hi)]
    exact Nat.le_succ 1
  case isFalse => exact le_rfl

/-- Every step but a poll brings the test nearer to its end, and a poll changes nothing. -/
private theorem rank_step (hs : Step T s a s') : s'.rank < s.rank ∨ s' = s := by
  have htask : ∀ {i : Fin T.waiters} {w : Waiter}, w.rank < (s.waiter i).rank →
      ∑ j, (Function.update s.waiter i w j).rank < ∑ j, (s.waiter j).rank := fun {i w} hlt => by
    have hsum := sum_update_add (Finset.mem_univ i) s.waiter w Waiter.rank
    omega
  cases hs with
  | await hi =>
    exact Or.inl (Nat.add_lt_add_left (htask (by rw [hi]; decide)) _)
  | suspend hi =>
    exact Or.inl (Nat.add_lt_add_left (htask (by rw [hi]; decide)) _)
  | inc hi => exact Or.inl (Nat.add_lt_add_left (htask (by rw [hi]; decide)) _)
  | poll => exact Or.inr rfl
  | found hrest | expectLoad hrest | expectState hrest | awaitValue hrest | awaitTasks hrest =>
    refine Or.inl (Nat.add_lt_add_right ?_ _)
    rw [hrest]
    exact Nat.lt_succ_self _
  | call hrest _ hW =>
    refine Or.inl (Nat.add_lt_add_of_lt_of_le ?_ (rank_wake_le hW))
    rw [hrest]
    exact Nat.lt_succ_self _
  | destroy hrest =>
    refine Or.inl (Nat.add_lt_add_of_lt_of_le ?_ (rank_wake_le subset_rfl))
    rw [hrest]
    exact Nat.lt_succ_self _

/-- No step but a poll is left. -/
def State.Stuck (s : State T) : Prop := ∀ a s', Step T s a s' → a = .poll

/-- Behind the first command, the tasks that have not returned are suspended. -/
private theorem Past.waiter_of_stuck {c : Config σ} (h : Past s c) (hstuck : s.Stuck)
    (i : Fin T.waiters) : s.waiter i = .suspended ∨ s.waiter i = .returned := by
  cases hi : s.waiter i with
  | created => exact (h.waiter i hi).elim
  | suspended => exact Or.inl rfl
  | resumed => cases hstuck _ _ (.inc hi)
  | returned => exact Or.inr rfl

private theorem Past.returned_of_stuck {c : Config σ} (h : Past s c) (hstuck : s.Stuck)
    (hwaiters : c.waiters = 0) (i : Fin T.waiters) : s.waiter i = .returned := by
  refine (h.waiter_of_stuck hstuck i).resolve_left fun hi => ?_
  have hmem : i ∈ s.waiting := mem_tasksAt.mpr hi
  have hnone : s.waiting.card = 0 := by rw [← h.waiters, hwaiters]
  rw [Finset.card_eq_zero.mp hnone] at hmem
  cases hmem

/-- A test that is stuck in front of a command does not get past it in its configuration either. -/
private theorem Past.exec_of_stuck {c : Config σ} (h : Past s c) (hinv : Inv s) (hstuck : s.Stuck)
    {cmd : Command σ ω} {cmds : List (Command σ ω)} (hrest : s.rest = cmd :: cmds) :
    cmd.exec T.prim c = none := by
  have hno : ∀ s', ¬ Step T s .command s' := fun s' hs => by cases hstuck _ _ hs
  cases cmd with
  | waitForWaiterCount k =>
    refine if_neg fun ⟨hq, hk⟩ => hno _ (.found hrest ?_ (h.waiters.symm.trans hk))
    rwa [← h.prim]
  | expectLoad v => exact (hno _ (.expectLoad hrest)).elim
  | expectState p =>
    refine if_neg fun hq => ?_
    rw [h.prim, Option.isSome_iff_exists] at hq
    obtain ⟨q, hq⟩ := hq
    exact hno _ (.expectState hrest hq)
  | call o expected =>
    rw [Command.exec, h.prim]
    cases hq : s.prim with
    | none => rfl
    | some q =>
      obtain ⟨W, hW, hcard⟩ := Finset.exists_subset_card_eq
        (Nat.min_le_right (T.prim.call o s.waiting.card q).1 s.waiting.card)
      exact (hno _ (.call hrest hq hW hcard)).elim
  | destroy =>
    refine if_neg fun hq => hno _ (.destroy hrest ?_)
    rwa [← h.prim]
  | awaitValue =>
    refine if_neg fun hwaiters => hno _ (.awaitValue hrest (hinv.value_eq_iff.mpr ?_))
    exact h.returned_of_stuck hstuck hwaiters
  | awaitTasks =>
    refine if_neg fun hwaiters => hno _ (.awaitTasks hrest ?_)
    exact h.returned_of_stuck hstuck hwaiters

/-- All tasks arrive, and the first command finds them. -/
private theorem Inv.past_of_stuck (h : Inv s) (hstuck : s.Stuck) : ∃ c, Past s c := by
  rcases h.phase with harriving | hpast
  · have hall : ∀ i, s.waiter i = .suspended := fun i =>
      (harriving.waiter i).resolve_left fun hi => by
        cases hstuck _ _ (.suspend hi harriving.prim T.suspends)
    have hprim : s.prim.isSome := by
      rw [harriving.prim]
      rfl
    cases hstuck _ _ (.found harriving.rest hprim (card_tasksAt_eq_iff.mpr hall))
  · exact hpast

/-- The test has got past all commands, and so have the tasks. -/
def State.Finished (s : State T) : Prop := s.rest = [] ∧ ∀ i, s.waiter i = .returned

/-- A test that is stuck has finished exactly when its commands fit. -/
theorem finished_iff_fits (h : Inv s) (hstuck : s.Stuck) : s.Finished ↔ T.Fits := by
  obtain ⟨c, hpast⟩ := h.past_of_stuck hstuck
  have hexec := hpast.exec
  constructor
  · rintro ⟨hrest, hall⟩
    rw [hrest] at hexec
    exact ⟨c, hexec, by rw [hpast.waiters, h.card_waiting_eq_zero (h.value_eq_iff.mpr hall)]⟩
  · rintro ⟨c', hc', hwaiters⟩
    rw [hc'] at hexec
    cases hrest : s.rest with
    | nil =>
      rw [hrest] at hexec
      obtain rfl : c' = c := Option.some.inj hexec
      exact ⟨hrest, hpast.returned_of_stuck hstuck hwaiters⟩
    | cons cmd cmds =>
      rw [hrest, WaiterTests.exec, hpast.exec_of_stuck h hstuck hrest] at hexec
      cases hexec

/-- Expectations that hold in the execution of the commands alone never fail. -/
theorem failures_eq_zero (h : Inv s) (hT : T.Holds) : s.failures = 0 := by
  rcases h.phase with harriving | ⟨c, hpast⟩
  · exact harriving.failures
  · exact (hpast.holds hT).1

private theorem State.Finished.not_step (hfin : s.Finished) : ¬ Step T s a s' := by
  obtain ⟨hrest, hall⟩ := hfin
  intro hs
  cases hs with
  | await hi | suspend hi | inc hi =>
    rw [hall] at hi
    cases hi
  | poll h | found h | expectLoad h | expectState h | call h | destroy h | awaitValue h
  | awaitTasks h =>
    rw [hrest] at h
    cases h

/-- **The waiters.** For any primitive, any number of tasks and any commands, however the tasks
arrive and proceed, and whichever tasks a call wakes: where nothing but polls is left, the test
and all tasks have finished, and the value is the number of tasks, if and only if the commands fit.
If the expectations hold, none ever fails. A run that does not end polls forever; if the commands
fit, another step is left aside. -/
theorem waiters_are_woken (T : Test σ ω) :
    (∀ s, T.system.Reachable s →
      (s.Stuck → (s.Finished ↔ T.Fits)) ∧ (s.Finished → s.value = T.waiters) ∧
      (T.Holds → s.failures = 0)) ∧
    ∀ f : ℕ → State T, f 0 = T.system.init → (∀ n, ∃ a, Step T (f n) a (f (n + 1))) →
      ∃ m, ∀ n, m ≤ n → f n = f m ∧ (T.Fits → ¬ (f n).Stuck) := by
  refine ⟨fun s hr => ?_, fun f h0 hf => ?_⟩
  · have h := inv_of_reachable hr
    exact ⟨finished_iff_fits h, fun hfin => h.value_eq_iff.mpr hfin.2, failures_eq_zero h⟩
  · have hreach := LTS.reachable_of_infinite (T := T.system) h0 hf
    obtain ⟨m, hm⟩ := LTS.eventually_const_of_rank (T := T.system) State.rank
      (fun _ _ _ _ hs => rank_step hs) h0 hf
    refine ⟨m, fun n hn => ⟨hm n hn, fun hfits hstuck => ?_⟩⟩
    obtain ⟨a, hs⟩ := hf n
    exact ((finished_iff_fits (inv_of_reachable (hreach n)) hstuck).mpr hfits).not_step hs

end WaiterTests

end TmcExamples
