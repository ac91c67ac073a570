import TmcExamples.HelperThread.Wakeup

/-!
# The handshake over the thread member

The lock keeps the creation of a helper and its assignment together, so the destructor, which takes
the same lock, finds the thread in the member (`OwnerInv`). This rests on the object being
initiated once: then the invariant holds in every reachable state, no joinable thread is assigned
to or destroyed, and there is no deadlock (`handshake_safe`).
-/

namespace TmcExamples

namespace HelperThread

variable {A : Awaitable} {script : List Await} {s s' : State} {a : Action}

/-- The destructor has the lock. -/
def Control.Locked : Control → Prop
  | .joinable | .join | .unlock => True
  | _ => False

/-- The destructor has the lock or has had it. -/
def Control.InDestructor : Control → Prop
  | .joinable | .join | .unlock | .destroy | .destroyed => True
  | _ => False

/-- The destructor has joined the thread, if there is one. -/
def Control.Joined : Control → Prop
  | .unlock | .destroy | .destroyed => True
  | _ => False

private theorem Control.Joined.inDestructor {c : Control} (h : c.Joined) : c.InDestructor := by
  cases c with
  | unlock | destroy | destroyed => trivial
  | _ => exact h.elim

private theorem Control.Locked.inDestructor {c : Control} (h : c.Locked) : c.InDestructor := by
  cases c with
  | joinable | join | unlock => trivial
  | _ => exact h.elim

/-- The helper has been created and has not resumed the continuation. -/
def Helper.Unresumed : Helper → Prop
  | .load | .wait _ | .blocked _ | .resume => True
  | _ => False

/-- The invariant as long as one helper has been created at most. -/
structure OwnerInv (s : State) : Prop where
  alive : s.terminated = false
  locked : s.locked = true ↔ s.initiator ≠ .idle ∨ s.control.Locked
  destructor : s.control.InDestructor → s.initiator = .idle
  create : s.initiator = .create → s.control = .suspended
  suspended : s.control = .suspended → s.initiator = .create ∨ (s.helper 0).Unresumed
  unresumed : (s.helper 0).Unresumed → s.control = .suspended ∧ s.initiator ≠ .create
  other : ∀ i, i ≠ 0 → s.helper i = .notCreated
  fresh : s.created = 0 → s.helper 0 = .notCreated ∧ s.thread = none ∧ s.assigned = 0 ∧
    s.joined = 0 ∧ (s.initiator = .idle ∨ s.initiator = .create) ∧ s.control ≠ .join
  helper : s.created = 1 → s.helper 0 ≠ .notCreated
  assign : ∀ i, s.initiator = .assign i → i = 0 ∧ s.created = 1 ∧ s.thread = none ∧
    s.assigned = 0 ∧ s.joined = 0
  owned : s.created = 1 → (∀ i, s.initiator ≠ .assign i) → s.assigned = 1 ∧
    (s.thread = some 0 ∧ s.joined = 0 ∧ ¬ s.control.Joined ∨
      s.thread = none ∧ s.joined = 1 ∧ s.control.Joined)

namespace OwnerInv

theorem initial (script : List Await) : OwnerInv (initial script) where
  alive := rfl
  locked := iff_of_false nofun (by simp [HelperThread.initial, Control.Locked])
  destructor := False.elim
  create := nofun
  suspended := nofun
  unresumed := False.elim
  other := fun _ _ => rfl
  fresh := fun _ => ⟨rfl, rfl, rfl, rfl, .inl rfl, nofun⟩
  helper := nofun
  assign := nofun
  owned := nofun

/-- Whoever gets the lock finds no thread between its creation and its assignment. -/
private theorem of_unlocked (h : OwnerInv s) (hlocked : s.locked = false) :
    s.initiator = .idle ∧ ¬ s.control.Locked := by
  have hnone := mt h.locked.mpr (by rw [hlocked]; nofun)
  rw [not_or, not_not] at hnone
  exact hnone

/-- The coroutine has been resumed, if a helper has been created. -/
private theorem not_unresumed (h : OwnerInv s) (hcontrol : s.control ≠ .suspended) :
    ¬ (s.helper 0).Unresumed := fun hu => hcontrol (h.unresumed hu).1

/-- Only the first helper has been created. -/
theorem eq_zero (h : OwnerInv s) {i : ℕ} (hi : s.helper i ≠ .notCreated) : i = 0 := by
  by_contra hne
  exact hi (h.other i hne)

/-- Before the join, the thread member has the helper, wherever the coroutine goes from there. -/
private theorem owned_of_not_joined (h : OwnerInv s) {c : Control} (hold : ¬ s.control.Joined)
    (hnew : ¬ c.Joined) (hone : s.created = 1) (hassign : ∀ i, s.initiator ≠ .assign i) :
    s.assigned = 1 ∧ (s.thread = some 0 ∧ s.joined = 0 ∧ ¬ c.Joined ∨
      s.thread = none ∧ s.joined = 1 ∧ c.Joined) := by
  obtain ⟨hassigned, ⟨hthread, hzero, -⟩ | ⟨-, -, hj⟩⟩ := h.owned hone hassign
  · exact ⟨hassigned, .inl ⟨hthread, hzero, hnew⟩⟩
  · exact (hold hj).elim

/-- A step of the helpers, or one that does not concern the handshake. -/
theorem frame (h : OwnerInv s) (hcontrol : s'.control = s.control)
    (hinitiator : s'.initiator = s.initiator) (hlocked : s'.locked = s.locked)
    (hthread : s'.thread = s.thread) (hcreated : s'.created = s.created)
    (hassigned : s'.assigned = s.assigned) (hjoined : s'.joined = s.joined)
    (halive : s'.terminated = s.terminated)
    (hunresumed : (s'.helper 0).Unresumed ↔ (s.helper 0).Unresumed)
    (hnotCreated : ∀ i, s'.helper i = .notCreated ↔ s.helper i = .notCreated) : OwnerInv s' := by
  constructor
  · rw [halive]
    exact h.alive
  · rw [hlocked, hinitiator, hcontrol]
    exact h.locked
  · rw [hcontrol, hinitiator]
    exact h.destructor
  · rw [hinitiator, hcontrol]
    exact h.create
  · rw [hcontrol, hinitiator, hunresumed]
    exact h.suspended
  · rw [hunresumed, hcontrol, hinitiator]
    exact h.unresumed
  · intro i hi
    rw [hnotCreated]
    exact h.other i hi
  · rw [hcreated, hnotCreated, hthread, hassigned, hjoined, hinitiator, hcontrol]
    exact h.fresh
  · rw [hcreated, Ne, hnotCreated]
    exact h.helper
  · rw [hinitiator, hcreated, hthread, hassigned, hjoined]
    exact h.assign
  · rw [hcreated, hinitiator, hassigned, hthread, hjoined, hcontrol]
    exact h.owned

/-- A step of the helper that does not resume the continuation. -/
theorem setHelper (h : OwnerInv s) {i : ℕ} {x : Helper} (hx : x ≠ .notCreated)
    (hi : s.helper i ≠ .notCreated) (hu : x.Unresumed ↔ (s.helper i).Unresumed) :
    OwnerInv (s.setHelper i x) := by
  obtain rfl := h.eq_zero hi
  have hself : Function.update s.helper 0 x 0 = x := Function.update_self ..
  refine h.frame rfl rfl rfl rfl rfl rfl rfl rfl ?_ fun j => ?_
  · change (Function.update s.helper 0 x 0).Unresumed ↔ _
    rw [hself, hu]
  · by_cases hj : j = 0
    · subst hj
      exact iff_of_false (fun h => hx (hself.symm.trans h)) hi
    · exact iff_of_eq (congrArg (· = Helper.notCreated) (Function.update_of_ne hj ..))

/-- The coroutine is suspended, and the thread that runs it goes for the lock. -/
theorem suspend (h : OwnerInv s) {rest : List Await} (hcontrol : s.control = .running) :
    OwnerInv { s with script := rest, control := .lock } := by
  have hne : s.control ≠ .suspended := by
    rw [hcontrol]
    nofun
  have hcreate : s.initiator ≠ .create := fun hc => hne (h.create hc)
  refine ⟨h.alive, ?_, False.elim, fun hc => (hcreate hc).elim, nofun,
    fun hu => (h.not_unresumed hne hu).elim, h.other, fun hzero => ?_, h.helper, h.assign,
    fun hone hassign => ?_⟩
  · have hlocked := h.locked
    rw [hcontrol] at hlocked
    exact hlocked
  · obtain ⟨hhelper, hthread, hassigned, hjoined, hinitiator, -⟩ := h.fresh hzero
    exact ⟨hhelper, hthread, hassigned, hjoined, hinitiator, nofun⟩
  · refine h.owned_of_not_joined ?_ id hone hassign
    rw [hcontrol]
    exact id

/-- The awaiting coroutine suspends with the mutex in the hands of the initiator. -/
theorem lock (h : OwnerInv s) (hcontrol : s.control = .lock) (hlocked : s.locked = false) :
    OwnerInv { s with control := .suspended, initiator := .create, locked := true } := by
  have hidle := (h.of_unlocked hlocked).1
  have hne : s.control ≠ .suspended := by
    rw [hcontrol]
    nofun
  refine ⟨h.alive, iff_of_true rfl (.inl nofun), False.elim, fun _ => rfl, fun _ => .inl rfl,
    fun hu => (h.not_unresumed hne hu).elim, h.other, fun hzero => ?_, h.helper, nofun,
    fun hone _ => ?_⟩
  · obtain ⟨hhelper, hthread, hassigned, hjoined, -, -⟩ := h.fresh hzero
    exact ⟨hhelper, hthread, hassigned, hjoined, .inr rfl, nofun⟩
  · refine h.owned_of_not_joined ?_ id hone (by rw [hidle]; nofun)
    rw [hcontrol]
    exact id

private theorem createHelper (h : OwnerInv s) (hinitiator : s.initiator = .create)
    (hone : s.created + 1 ≤ 1) :
    OwnerInv { s.setHelper s.created .load with
      initiator := .assign s.created
      created := s.created + 1 } := by
  have hzero : s.created = 0 := by omega
  have hcontrol := h.create hinitiator
  obtain ⟨hhelper, hthread, hassigned, hjoined, -, -⟩ := h.fresh hzero
  rw [hzero]
  have hself : Function.update s.helper 0 .load 0 = .load := Function.update_self ..
  have hunresumed : (Function.update s.helper 0 .load 0).Unresumed := by
    rw [hself]
    trivial
  refine ⟨h.alive, iff_of_true ?_ (.inl nofun), ?_, nofun, fun _ => .inr hunresumed,
    fun _ => ⟨hcontrol, nofun⟩, fun i hi => (Function.update_of_ne hi ..).trans (h.other i hi),
    nofun, fun _ hnot => ?_, ?_, fun _ hassign => (hassign 0 rfl).elim⟩
  · refine h.locked.mpr (.inl ?_)
    rw [hinitiator]
    nofun
  · intro hd
    rw [h.destructor hd] at hinitiator
    cases hinitiator
  · change Function.update s.helper 0 .load 0 = _ at hnot
    rw [hself] at hnot
    cases hnot
  · rintro i ⟨⟩
    exact ⟨rfl, rfl, hthread, hassigned, hjoined⟩

private theorem assignThread (h : OwnerInv s) {i : ℕ} (hinitiator : s.initiator = .assign i) :
    OwnerInv { s with thread := some i, initiator := .unlock, assigned := s.assigned + 1 } := by
  obtain ⟨rfl, hone, -, hassigned, hjoined⟩ := h.assign i hinitiator
  have hdestructor : ¬ s.control.InDestructor := by
    intro hd
    rw [h.destructor hd] at hinitiator
    cases hinitiator
  refine ⟨h.alive, iff_of_true ?_ (.inl nofun), fun hd => (hdestructor hd).elim, nofun,
    fun hc => ?_, fun hu => ⟨(h.unresumed hu).1, nofun⟩, h.other, fun hzero => ?_, h.helper, nofun,
    fun _ _ => ?_⟩
  · refine h.locked.mpr (.inl ?_)
    rw [hinitiator]
    nofun
  · refine .inr ((h.suspended hc).resolve_left ?_)
    rw [hinitiator]
    nofun
  · rw [hzero] at hone
    cases hone
  · exact ⟨by rw [hassigned], .inl ⟨rfl, hjoined, fun hj => hdestructor hj.inDestructor⟩⟩

/-- The initiator gives the mutex back when the thread has been assigned. -/
theorem unlock (h : OwnerInv s) (hinitiator : s.initiator = .unlock) :
    OwnerInv { s with initiator := .idle, locked := false } := by
  have hdestructor : ¬ s.control.InDestructor := by
    intro hd
    rw [h.destructor hd] at hinitiator
    cases hinitiator
  have hne : s.initiator ≠ .create := by
    rw [hinitiator]
    nofun
  refine ⟨h.alive, iff_of_false nofun ?_, fun _ => rfl, nofun,
    fun hc => .inr ((h.suspended hc).resolve_left hne),
    fun hu => ⟨(h.unresumed hu).1, nofun⟩, h.other, fun hzero => ?_, h.helper, nofun,
    fun hone _ => h.owned hone ?_⟩
  · rintro (hi | hl)
    · exact hi rfl
    · exact hdestructor hl.inDestructor
  · obtain ⟨hhelper, hthread, hassigned, hjoined, -, hjoin⟩ := h.fresh hzero
    exact ⟨hhelper, hthread, hassigned, hjoined, .inl rfl, hjoin⟩
  · rw [hinitiator]
    nofun

/-- The helper resumes the coroutine and has nothing to do but exit. -/
theorem resume (h : OwnerInv s) {i : ℕ} (hhelper : s.helper i = .resume) :
    OwnerInv { s.setHelper i .exiting with control := .running } := by
  obtain rfl := h.eq_zero (by rw [hhelper]; nofun)
  have hu : (s.helper 0).Unresumed := by
    rw [hhelper]
    trivial
  obtain ⟨hcontrol, hcreate⟩ := h.unresumed hu
  have hself : Function.update s.helper 0 .exiting 0 = .exiting := Function.update_self ..
  refine ⟨h.alive, ?_, False.elim, fun hc => (hcreate hc).elim, nofun, fun hu' => ?_,
    fun i hi => (Function.update_of_ne hi ..).trans (h.other i hi), fun hzero => ?_,
    fun _ hnot => ?_, h.assign, fun hone hassign => ?_⟩
  · have hlocked := h.locked
    rw [hcontrol] at hlocked
    exact hlocked
  · change (Function.update s.helper 0 .exiting 0).Unresumed at hu'
    rw [hself] at hu'
    exact hu'.elim
  · rw [(h.fresh hzero).1] at hhelper
    cases hhelper
  · change Function.update s.helper 0 .exiting 0 = _ at hnot
    rw [hself] at hnot
    cases hnot
  · refine h.owned_of_not_joined ?_ id hone hassign
    rw [hcontrol]
    exact id

/-- The destructor takes the mutex, so no initiator is at work. -/
theorem destruct (h : OwnerInv s) (hcontrol : s.control = .running) (hlocked : s.locked = false) :
    OwnerInv { s with control := .joinable, locked := true } := by
  have hidle := (h.of_unlocked hlocked).1
  have hne : s.control ≠ .suspended := by
    rw [hcontrol]
    nofun
  refine ⟨h.alive, iff_of_true rfl (.inr trivial), fun _ => hidle, fun hc => ?_, nofun,
    fun hu => (h.not_unresumed hne hu).elim, h.other, fun hzero => ?_, h.helper, h.assign,
    fun hone hassign => ?_⟩
  · rw [hidle] at hc
    cases hc
  · obtain ⟨hhelper, hthread, hassigned, hjoined, hinitiator, -⟩ := h.fresh hzero
    exact ⟨hhelper, hthread, hassigned, hjoined, hinitiator, nofun⟩
  · refine h.owned_of_not_joined ?_ id hone hassign
    rw [hcontrol]
    exact id

/-- The steps of the destructor once it has the lock. -/
private theorem destructorStep (h : OwnerInv s) {c : Control} {b : Bool} {t : Option ℕ} {n : ℕ}
    (hold : s.control.InDestructor) (hnew : c.InDestructor) (hlocked : b = true ↔ c.Locked)
    (hfresh : s.created = 0 → t = none ∧ n = 0 ∧ c ≠ .join)
    (howned : s.created = 1 → s.assigned = 1 →
      t = some 0 ∧ n = 0 ∧ ¬ c.Joined ∨ t = none ∧ n = 1 ∧ c.Joined) :
    OwnerInv { s with control := c, locked := b, thread := t, joined := n } := by
  have hidle := h.destructor hold
  have hnotSuspended {d : Control} (hd : d.InDestructor) : d ≠ .suspended := by
    rintro rfl
    exact hd
  refine ⟨h.alive, hlocked.trans ?_, fun _ => hidle, fun hc => ?_,
    fun hs => (hnotSuspended hnew hs).elim,
    fun hu => (h.not_unresumed (hnotSuspended hold) hu).elim, h.other, fun hzero => ?_, h.helper,
    fun i hi => ?_, fun hone hassign => ?_⟩
  · constructor
    · exact .inr
    · exact fun hor => hor.resolve_left fun hne => hne hidle
  · rw [hidle] at hc
    cases hc
  · obtain ⟨hhelper, -, hassigned, -, hinitiator, -⟩ := h.fresh hzero
    obtain ⟨ht, hn, hc⟩ := hfresh hzero
    exact ⟨hhelper, ht, hassigned, hn, hinitiator, hc⟩
  · rw [hidle] at hi
    cases hi
  · have hassigned := (h.owned hone hassign).1
    exact ⟨hassigned, howned hone hassigned⟩

/-- In the destructor, nobody is between the creation of a thread and its assignment. -/
private theorem owned_of_destructor (h : OwnerInv s) (hd : s.control.InDestructor)
    (hone : s.created = 1) :
    s.thread = some 0 ∧ s.joined = 0 ∧ ¬ s.control.Joined ∨
      s.thread = none ∧ s.joined = 1 ∧ s.control.Joined := by
  refine (h.owned hone fun i hi => ?_).2
  rw [h.destructor hd] at hi
  cases hi

/-- The destructor joins a thread if there is one. -/
theorem joinable (h : OwnerInv s) (hone : s.created ≤ 1) (hcontrol : s.control = .joinable) :
    OwnerInv { s with control := if s.thread.isSome then .join else .unlock } := by
  have hold : s.control.InDestructor := by
    rw [hcontrol]
    trivial
  have hlocked : s.locked = true := h.locked.mpr (.inr (by rw [hcontrol]; trivial))
  have hjoined : ¬ s.control.Joined := by
    rw [hcontrol]
    exact id
  have howned := h.owned_of_destructor hold
  cases hthread : s.thread with
  | none =>
    -- A helper would be in the member, since nobody has joined it.
    refine h.destructorStep (c := .unlock) hold trivial (iff_of_true hlocked trivial)
      (fun hzero => ⟨rfl, (h.fresh hzero).2.2.2.1, nofun⟩) fun hcreated _ => ?_
    rcases howned hcreated with ⟨hsome, -, -⟩ | ⟨-, -, hj⟩
    · rw [hthread] at hsome
      cases hsome
    · exact (hjoined hj).elim
  | some i =>
    have hcreated : s.created = 1 := by
      refine hone.eq_or_lt.resolve_right fun hlt => ?_
      rw [(h.fresh (Nat.lt_one_iff.mp hlt)).2.1] at hthread
      cases hthread
    refine h.destructorStep (c := .join) hold trivial (iff_of_true hlocked trivial)
      (fun hzero => ?_) fun _ _ => ?_
    · rw [hzero] at hcreated
      cases hcreated
    · rcases howned hcreated with ⟨hsome, hzero, -⟩ | ⟨-, -, hj⟩
      · exact .inl ⟨by rw [← hthread, hsome], hzero, id⟩
      · exact (hjoined hj).elim

/-- The thread has been joined and the member is empty. -/
theorem join (h : OwnerInv s) {i : ℕ} (hcontrol : s.control = .join) (hthread : s.thread = some i) :
    OwnerInv { s with thread := none, control := .unlock, joined := s.joined + 1 } := by
  have hold : s.control.InDestructor := by
    rw [hcontrol]
    trivial
  have hlocked : s.locked = true := h.locked.mpr (.inr (by rw [hcontrol]; trivial))
  refine h.destructorStep (c := .unlock) hold trivial (iff_of_true hlocked trivial)
    (fun hzero => ?_) fun hcreated _ => ?_
  · rw [(h.fresh hzero).2.1] at hthread
    cases hthread
  · rcases h.owned_of_destructor hold hcreated with ⟨-, hzero, -⟩ | ⟨hnone, -, -⟩
    · exact .inr ⟨rfl, by rw [hzero], trivial⟩
    · rw [hnone] at hthread
      cases hthread

/-- After the join the destructor has nothing more to do with the thread. -/
private theorem afterJoin (h : OwnerInv s) {c : Control} {b : Bool} (hold : s.control.Joined)
    (hnew : c.Joined) (hlocked : b = true ↔ c.Locked) :
    OwnerInv { s with control := c, locked := b } := by
  refine h.destructorStep hold.inDestructor hnew.inDestructor hlocked (fun hzero => ?_)
    fun hcreated _ => ?_
  · refine ⟨(h.fresh hzero).2.1, (h.fresh hzero).2.2.2.1, ?_⟩
    rintro rfl
    exact hnew
  · rcases h.owned_of_destructor hold.inDestructor hcreated with ⟨-, -, hno⟩ | ⟨hnone, hn, -⟩
    · exact (hno hold).elim
    · exact .inr ⟨hnone, hn, hnew⟩

/-- The destroyed thread member is empty. -/
private theorem thread_of_joined (h : OwnerInv s) (hone : s.created ≤ 1) (hj : s.control.Joined) :
    s.thread = none ∧ s.joined = s.created := by
  rcases hone.eq_or_lt with hcreated | hlt
  · rcases h.owned_of_destructor hj.inDestructor hcreated with ⟨-, -, hno⟩ | ⟨hnone, hn, -⟩
    · exact (hno hj).elim
    · exact ⟨hnone, by rw [hn, hcreated]⟩
  · have hzero := Nat.lt_one_iff.mp hlt
    exact ⟨(h.fresh hzero).2.1, (h.fresh hzero).2.2.2.1.trans hzero.symm⟩

/-- A notification wakes the helper and changes nothing else. -/
theorem wake (h : OwnerInv s) {n : ℕ} :
    OwnerInv { s with notifies := n, helper := fun i => (s.helper i).wake } := by
  refine h.frame rfl rfl rfl rfl rfl rfl rfl rfl ?_ fun i => ?_
  · change (s.helper 0).wake.Unresumed ↔ _
    cases s.helper 0 <;> exact Iff.rfl
  · change (s.helper i).wake = .notCreated ↔ _
    cases s.helper i <;> simp [Helper.wake]

/-- As long as one thread is created, every step keeps the handshake. -/
theorem step (h : OwnerInv s) (hs : Step A s a s') (hone : s'.created ≤ 1) : OwnerInv s' := by
  obtain ⟨-, hs⟩ := hs
  cases hs with
  | update => exact h.frame rfl rfl rfl rfl rfl rfl rfl rfl Iff.rfl fun _ => Iff.rfl
  | ready => exact h.frame rfl rfl rfl rfl rfl rfl rfl rfl Iff.rfl fun _ => Iff.rfl
  | notifyAll => exact h.wake
  | @load i hi =>
    have hu : (s.helper i).Unresumed := by
      rw [hi]
      trivial
    refine h.setHelper ?_ (by rw [hi]; nofun) (iff_of_true ?_ hu)
    · split <;> nofun
    · split <;> trivial
  | wait hi | changed hi | spurious hi | exit hi =>
    refine h.setHelper (by nofun) (by rw [hi]; nofun) ?_
    rw [hi]
    exact Iff.rfl
  | resume hi => exact h.resume hi
  | suspendDirect hcontrol | suspendWrapped hcontrol => exact h.suspend hcontrol
  | lock hcontrol hlocked => exact h.lock hcontrol hlocked
  | create hinitiator => exact h.createHelper hinitiator hone
  | assign hinitiator => exact h.assignThread hinitiator
  | assignJoinable hinitiator hthread =>
    obtain ⟨-, -, hnone, -, -⟩ := h.assign _ hinitiator
    rw [hnone] at hthread
    cases hthread
  | unlock hinitiator => exact h.unlock hinitiator
  | destruct hcontrol _ hlocked => exact h.destruct hcontrol hlocked
  | joinable hcontrol => exact h.joinable hone hcontrol
  | join hcontrol hthread => exact h.join hcontrol hthread
  | unlockDestructor hcontrol =>
    exact h.afterJoin (by rw [hcontrol]; trivial) trivial (iff_of_false nofun id)
  | destroy hcontrol =>
    have hj : s.control.Joined := by
      rw [hcontrol]
      trivial
    have hlocked : s.locked = true ↔ s.control.Locked := by
      rw [h.locked]
      exact ⟨fun hor => hor.resolve_left fun hne => hne (h.destructor hj.inDestructor), .inr⟩
    rw [hcontrol] at hlocked
    have hterminated : s.thread.isSome = s.terminated := by
      rw [(h.thread_of_joined hone hj).1, h.alive]
      rfl
    rw [hterminated]
    exact h.afterJoin hj trivial hlocked

end OwnerInv

/-- Helpers are not forgotten. -/
private theorem created_le_of_step (hs : Step A s a s') : s.created ≤ s'.created := by
  obtain ⟨-, hs⟩ := hs
  cases hs with
  | create => exact Nat.le_succ _
  | _ => exact le_rfl

theorem ownerInv_reachable (h : (system A script).Reachable s) (hone : s.created ≤ 1) :
    OwnerInv s :=
  h.induct (P := fun s => s.created ≤ 1 → OwnerInv s) (fun _ => .initial script)
    (fun _ _ _ _ hi hs hle => (hi ((created_le_of_step hs).trans hle)).step hs hle) hone

/-! ### Progress -/

/-- The thread that has the lock in `async_initiate()` can go on. -/
private theorem OwnerInv.initiator_step (h : OwnerInv s) (hinitiator : s.initiator ≠ .idle) :
    ∃ a s', Step A s a s' ∧ ¬ a.IsSpurious := by
  cases hi : s.initiator with
  | idle => exact (hinitiator hi).elim
  | create => exact ⟨_, _, ⟨h.alive, .create hi⟩, id⟩
  | assign i => exact ⟨_, _, ⟨h.alive, .assign hi (h.assign i hi).2.2.1⟩, id⟩
  | unlock => exact ⟨_, _, ⟨h.alive, .unlock hi⟩, id⟩

/-- As long as the helper has not resumed the continuation, it can go on, or the atomic variable
is updated, or a notification comes. -/
private theorem OwnerInv.helper_step (h : OwnerInv s) (hwait : WaitInv A s)
    (hunresumed : (s.helper 0).Unresumed) : ∃ a s', Step A s a s' ∧ ¬ a.IsSpurious := by
  cases hi : s.helper 0 with
  | load => exact ⟨_, _, ⟨h.alive, .load hi⟩, id⟩
  | wait old =>
    by_cases hvalue : s.value A = old
    · exact ⟨_, _, ⟨h.alive, .wait hi hvalue⟩, id⟩
    · exact ⟨_, _, ⟨h.alive, .changed hi hvalue⟩, id⟩
  | blocked old =>
    rcases hwait.update_or_notify hi with hlt | hpos
    · exact ⟨_, _, ⟨h.alive, .update hlt⟩, id⟩
    · exact ⟨_, _, ⟨h.alive, .notifyAll hpos⟩, id⟩
  | resume => exact ⟨_, _, ⟨h.alive, .resume hi (h.unresumed hunresumed).1⟩, id⟩
  | notCreated | exiting | finished =>
    rw [hi] at hunresumed
    exact hunresumed.elim

/-- The destructor waits for a helper that has resumed the continuation, so it will end. -/
private theorem OwnerInv.join_step (h : OwnerInv s) (hone : s.created ≤ 1)
    (hcontrol : s.control = .join) : ∃ a s', Step A s a s' ∧ ¬ a.IsSpurious := by
  have hne : s.control ≠ .suspended := by
    rw [hcontrol]
    nofun
  have hcreated : s.created = 1 := by
    refine hone.eq_or_lt.resolve_right fun hlt => ?_
    exact (h.fresh (Nat.lt_one_iff.mp hlt)).2.2.2.2.2 hcontrol
  have howned := h.owned_of_destructor (by rw [hcontrol]; trivial) hcreated
  rw [hcontrol] at howned
  obtain ⟨hthread, -, -⟩ := howned.resolve_right fun hj => hj.2.2
  have hu := h.not_unresumed hne
  cases hi : s.helper 0 with
  | notCreated => exact (h.helper hcreated hi).elim
  | load | wait | blocked | resume =>
    rw [hi] at hu
    exact (hu trivial).elim
  | exiting => exact ⟨_, _, ⟨h.alive, .exit hi⟩, id⟩
  | finished => exact ⟨_, _, ⟨h.alive, .join hcontrol hthread hi⟩, id⟩

/-- As long as the object is not destroyed, a step can be taken. -/
theorem OwnerInv.exists_step (h : OwnerInv s) (hwait : WaitInv A s) (hone : s.created ≤ 1)
    (hlive : s.control ≠ .destroyed) : ∃ a s', Step A s a s' ∧ ¬ a.IsSpurious := by
  by_cases hinitiator : s.initiator = .idle
  · have hfree : ¬ s.control.Locked → s.locked = false := by
      intro hc
      refine Bool.eq_false_iff.mpr fun hlocked => ?_
      exact (h.locked.mp hlocked).elim (fun hne => hne hinitiator) hc
    cases hcontrol : s.control with
    | running =>
      cases hscript : s.script with
      | nil =>
        have hlocked := hfree (by rw [hcontrol]; exact id)
        exact ⟨_, _, ⟨h.alive, .destruct hcontrol hscript hlocked⟩, id⟩
      | cons await rest =>
        cases await with
        | direct =>
          cases hready : A.awaitReady (s.value A) with
          | true => exact ⟨_, _, ⟨h.alive, .ready hcontrol hscript hready⟩, id⟩
          | false => exact ⟨_, _, ⟨h.alive, .suspendDirect hcontrol hscript hready⟩, id⟩
        | wrapped => exact ⟨_, _, ⟨h.alive, .suspendWrapped hcontrol hscript⟩, id⟩
    | lock =>
      exact ⟨_, _, ⟨h.alive, .lock hcontrol (hfree (by rw [hcontrol]; exact id))⟩, id⟩
    | suspended =>
      refine h.helper_step hwait ((h.suspended hcontrol).resolve_left ?_)
      rw [hinitiator]
      nofun
    | joinable => exact ⟨_, _, ⟨h.alive, .joinable hcontrol⟩, id⟩
    | join => exact h.join_step hone hcontrol
    | unlock => exact ⟨_, _, ⟨h.alive, .unlockDestructor hcontrol⟩, id⟩
    | destroy => exact ⟨_, _, ⟨h.alive, .destroy hcontrol⟩, id⟩
    | destroyed => exact (hlive hcontrol).elim
  · exact h.initiator_step hinitiator

/-- **The handshake over the thread member.** As long as the awaitable has been initiated once at
most, and in every interleaving of its users, no joinable thread is assigned to or destroyed.
While the destructor runs, nobody is initiating the awaitable, and every thread has been assigned;
when it has finished with the member, each of them has been joined once, and none of them if the
awaitable has not been initiated. Until the object is destroyed, some party can take a step. -/
theorem handshake_safe (A : Awaitable) (script : List Await)
    (h : (system A script).Reachable s) (hone : s.created ≤ 1) :
    s.terminated = false ∧
      (s.control.InDestructor → s.initiator = .idle ∧ s.assigned = s.created) ∧
      (s.control.Joined → s.thread = none ∧ s.joined = s.created) ∧
      (s.control ≠ .destroyed → ∃ a s', Step A s a s' ∧ ¬ a.IsSpurious) := by
  have hinv := ownerInv_reachable h hone
  refine ⟨hinv.alive, fun hd => ⟨hinv.destructor hd, ?_⟩, hinv.thread_of_joined hone,
    hinv.exists_step (waitInv_reachable h) hone⟩
  rcases hone.eq_or_lt with hcreated | hlt
  · rw [hcreated]
    refine (hinv.owned hcreated fun i hi => ?_).1
    rw [hinv.destructor hd] at hi
    cases hi
  · have hzero := Nat.lt_one_iff.mp hlt
    rw [(hinv.fresh hzero).2.2.1, ← hzero]

/-- The continuation runs before the thread has been assigned; the destructor gets the lock after
that, and joins the thread. -/
theorem handshake_safe_sample : ∃ (tr : List Action) (s : State),
    (system externalAwaitable [.direct]).Run (initial [.direct]) tr s ∧ s.created = 1 ∧
      s.control = .destroyed ∧ s.thread = none ∧ s.joined = 1 := by
  have h := LTS.Run.nil (T := system externalAwaitable [.direct]) (s := initial [.direct])
  have h := h.snoc ⟨rfl, .suspendDirect rfl rfl rfl⟩
  have h := h.snoc ⟨rfl, .lock rfl rfl⟩
  have h := h.snoc ⟨rfl, .create rfl⟩
  have h := h.snoc ⟨rfl, .load (i := 0) rfl⟩
  have h := h.snoc ⟨rfl, .resume (i := 0) rfl rfl⟩
  have h := h.snoc ⟨rfl, .assign rfl rfl⟩
  have h := h.snoc ⟨rfl, .unlock rfl⟩
  have h := h.snoc ⟨rfl, .destruct rfl rfl rfl⟩
  have h := h.snoc ⟨rfl, .joinable rfl⟩
  have h := h.snoc ⟨rfl, .exit (i := 0) rfl⟩
  have h := h.snoc ⟨rfl, .join (i := 0) rfl rfl rfl⟩
  have h := h.snoc ⟨rfl, .unlockDestructor rfl⟩
  have h := h.snoc ⟨rfl, .destroy rfl⟩
  obtain ⟨-, -, hjoined, -⟩ := handshake_safe externalAwaitable [.direct] h.reachable le_rfl
  exact ⟨_, _, h, rfl, rfl, (hjoined trivial).1, (hjoined trivial).2⟩

end HelperThread

end TmcExamples
