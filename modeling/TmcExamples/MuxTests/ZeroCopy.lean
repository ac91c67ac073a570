import TmcExamples.Queue.LogQueue
import TmcExamples.Transition.System

/-!
# Consume and fork with a zero-copy scope

The tests `fork_loop_no_duplication`, `fork_loop_destruct_once` and
`mux_many_fork_loop_no_duplication` of `test_mux_tuple_zerocopy.cpp` drain a queue through a mux
with one slot. Whenever a scope has been consumed, the next pull is forked into its slot.

The queue refers to its front element until the scope is released, and its contract says that
"this scope must be released before the next call to `try_pull()` or `pull()`". A pull begins where
the task that wraps it is started, and its scope gets into the slot where that task returns. So
the scope in the slot has to be released by `fork()` before the task is started; the assignment of
the next scope to the slot would release it too late. `resets` says which of the two `fork()` does.

In the tests the queue is filled and closed before the loop; here this may also happen next to it.
-/

namespace TmcExamples

namespace MuxTests

namespace ZeroCopy

/-- The task in the slot, which wraps a pull: forked, suspended in the pull, and with a scope that
is empty if the queue was drained; `undefined` is a call of `pull()` against its contract. -/
inductive Wrapper (α : Type*)
  | forked
  | pulling
  | holding (scope : Option α)
  | ready
  | idle
  | undefined

/-- The program points of the loop: `co_await mux`, its body, the safety net and the end. -/
inductive Point
  | awaitMux
  | body
  | failed
  | returned

/-- The state: what is left to post, the queue, the task and the scope in the slot, and the loop
with what it got. `destroyed` are the elements that have been destroyed. -/
structure State (α : Type*) where
  rest : List α
  queue : LogQueue α
  wrapper : Wrapper α
  slot : Option α
  point : Point
  got : List α
  destroyed : List α

variable {α : Type*}

/-- The queue when a scope is released. -/
def State.released (s : State α) : LogQueue α := if s.slot.isSome then s.queue.pop else s.queue

/-- The steps of the producer, of the task in the slot and of the loop. -/
inductive Action (α : Type*)
  | post (x : α)
  | close
  | start
  | pull
  | pullClosed
  | store
  | await
  | leave
  | fork
  | safetyNet

/-- The steps of a test that posts `n` values, with the two kinds of `fork()`. -/
inductive Step (n : ℕ) (resets : Bool) : State α → Action α → State α → Prop
  | post {s : State α} {x : α} {rest : List α} (h : s.rest = x :: rest) :
      Step n resets s (.post x) { s with rest := rest, queue := s.queue.push x }
  | close {s : State α} (h : s.rest = []) (hopen : s.queue.closed = false) :
      Step n resets s .close { s with queue := s.queue.close }
  | start {s : State α} (h : s.wrapper = .forked) :
      Step n resets s .start
        { s with wrapper := if s.slot.isSome then .undefined else .pulling }
  | pull {s : State α} {x : α} (h : s.wrapper = .pulling) (hfront : s.queue.front? = some x) :
      Step n resets s .pull { s with wrapper := .holding (some x) }
  | pullClosed {s : State α} (h : s.wrapper = .pulling) (hdrained : s.queue.Drained) :
      Step n resets s .pullClosed { s with wrapper := .holding none }
  | store {s : State α} {scope : Option α} (h : s.wrapper = .holding scope) :
      Step n resets s .store
        { s with
          queue := s.released
          wrapper := .ready
          slot := scope
          destroyed := s.destroyed ++ s.slot.toList }
  | await {s : State α} (h : s.point = .awaitMux) (hready : s.wrapper = .ready) :
      Step n resets s .await { s with point := .body, wrapper := .idle }
  | leave {s : State α} (h : s.point = .body) (hslot : s.slot = none) :
      Step n resets s .leave { s with point := .returned }
  | fork {s : State α} {x : α} (h : s.point = .body) (hslot : s.slot = some x)
      (hnet : ¬ s.got.length + 1 > 4 * n) :
      Step n resets s .fork
        { s with
          queue := if resets then s.released else s.queue
          wrapper := .forked
          slot := if resets then none else s.slot
          point := .awaitMux
          got := s.got ++ [x]
          destroyed := if resets then s.destroyed ++ s.slot.toList else s.destroyed }
  | safetyNet {s : State α} {x : α} (h : s.point = .body) (hslot : s.slot = some x)
      (hnet : s.got.length + 1 > 4 * n) :
      Step n resets s .safetyNet { s with point := .failed, got := s.got ++ [x] }

/-- A test, from where the first pull is forked. -/
def system (values : List α) (resets : Bool) : LTS (State α) (Action α) where
  init := ⟨values, .empty, .forked, none, .awaitMux, [], []⟩
  step := Step values.length resets

variable {values : List α} {resets : Bool} {s s' : State α} {a : Action α}

/-! ### The invariant -/

/-- The scope is that of the front element, or it is empty and so is the queue for good. -/
def Fits (q : LogQueue α) : Option α → Prop
  | some x => q.front? = some x
  | none => q.Drained

/-- Without a reset the loop has got no element before its first fork. -/
def Early (resets : Bool) (got : List α) : Prop := resets = false → got = []

/-- The first fork without a reset leaves the scope in the slot. -/
def Late (resets : Bool) (s : State α) : Prop :=
  resets = false ∧
    ∃ x, s.slot = some x ∧ s.got = [x] ∧ s.queue.taken = [] ∧ s.queue.front? = some x

/-- What has been released has been got, and apart from `Late` there is at most one scope, that of
the front element. -/
def LoopInv (resets : Bool) (s : State α) : Point → Wrapper α → Prop
  | .awaitMux, .forked =>
    s.slot = none ∧ s.got = s.queue.taken ∧ Early resets s.got ∨ Late resets s
  | .awaitMux, .pulling => s.slot = none ∧ s.got = s.queue.taken ∧ Early resets s.got
  | .awaitMux, .holding scope =>
    s.slot = none ∧ s.got = s.queue.taken ∧ Early resets s.got ∧ Fits s.queue scope
  | .awaitMux, .ready | .body, .idle =>
    s.got = s.queue.taken ∧ Early resets s.got ∧ Fits s.queue s.slot
  | .awaitMux, .undefined => Late resets s
  | .returned, .idle =>
    s.slot = none ∧ s.got = s.queue.taken ∧ Early resets s.got ∧ s.queue.Drained
  | _, _ => False

/-- The invariant of a test. -/
structure Inv (values : List α) (resets : Bool) (s : State α) : Prop where
  posted : s.queue.log ++ s.rest = values
  closed : s.queue.closed = true → s.rest = []
  destroyed : s.destroyed = s.queue.taken
  loop : LoopInv resets s s.point s.wrapper

theorem inv_init (values : List α) (resets : Bool) :
    Inv values resets (system values resets).init where
  posted := rfl
  closed h := by cases h
  destroyed := rfl
  loop := Or.inl ⟨rfl, rfl, fun _ => rfl⟩

/-- The front element stays where it is when another one is posted. -/
private theorem front?_push {q : LogQueue α} {x y : α} (h : q.front? = some x) :
    (q.push y).front? = some x := by
  rw [LogQueue.front?, LogQueue.push_log, LogQueue.push_head, List.getElem?_append_left
    (LogQueue.head_lt_of_front? h)]
  exact h

/-- A post to an open queue. -/
theorem LoopInv.post {x : α} {rest : List α} {p : Point} {w : Wrapper α} (h : LoopInv resets s p w)
    (hopen : s.queue.closed = false) :
    LoopInv resets { s with rest := rest, queue := s.queue.push x } p w := by
  have hdrained : ¬ s.queue.Drained := fun hd => by
    have hclosed := hd.1
    rw [hopen] at hclosed
    cases hclosed
  have hfits : ∀ scope, Fits s.queue scope → Fits (s.queue.push x) scope := by
    intro scope hfit
    cases scope with
    | none => exact (hdrained hfit).elim
    | some y => exact front?_push hfit
  have hlate : Late resets s → Late resets { s with rest := rest, queue := s.queue.push x } := by
    rintro ⟨hr, y, hslot, hgot, htaken, hfront⟩
    exact ⟨hr, y, hslot, hgot, by rw [LogQueue.taken_push, htaken], front?_push hfront⟩
  unfold LoopInv at h ⊢
  simp only [LogQueue.taken_push]
  split at h
  · exact h.imp id hlate
  · exact h
  · exact ⟨h.1, h.2.1, h.2.2.1, hfits _ h.2.2.2⟩
  · exact ⟨h.1, h.2.1, hfits _ h.2.2⟩
  · exact ⟨h.1, h.2.1, hfits _ h.2.2⟩
  · exact hlate h
  · exact (hdrained h.2.2.2).elim
  · exact h.elim

/-- The close of the queue. -/
theorem LoopInv.close {p : Point} {w : Wrapper α} (h : LoopInv resets s p w) :
    LoopInv resets { s with queue := s.queue.close } p w := by
  have hfits : ∀ scope, Fits s.queue scope → Fits s.queue.close scope := by
    intro scope hfit
    cases scope with
    | none => exact LogQueue.Drained.close hfit
    | some y => exact hfit
  unfold LoopInv at h ⊢
  split at h
  · exact h
  · exact h
  · exact ⟨h.1, h.2.1, h.2.2.1, hfits _ h.2.2.2⟩
  · exact ⟨h.1, h.2.1, hfits _ h.2.2⟩
  · exact ⟨h.1, h.2.1, hfits _ h.2.2⟩
  · exact h
  · exact ⟨h.1, h.2.1, h.2.2.1, h.2.2.2.close⟩
  · exact h.elim

/-- A loop that has a task in its slot waits for it. -/
theorem Inv.awaitMux (h : Inv values resets s) {w : Wrapper α} (hw : s.wrapper = w)
    (hne : w ≠ .idle) : s.point = .awaitMux ∧ LoopInv resets s .awaitMux w := by
  have hloop := h.loop
  rw [hw] at hloop
  suffices hp : s.point = .awaitMux from ⟨hp, by rwa [hp] at hloop⟩
  unfold LoopInv at hloop
  split at hloop
  · assumption
  · assumption
  · assumption
  · assumption
  · exact absurd rfl hne
  · assumption
  · exact absurd rfl hne
  · exact hloop.elim

/-- The task in the slot takes a step. -/
private theorem Inv.setWrapper (h : Inv values resets s) {w : Wrapper α} (hp : s.point = .awaitMux)
    (hloop : LoopInv resets s .awaitMux w) : Inv values resets { s with wrapper := w } where
  posted := h.posted
  closed := h.closed
  destroyed := h.destroyed
  loop := by
    dsimp only
    rw [hp]
    exact hloop

/-- What the loop finds in its body. -/
theorem LoopInv.body {w : Wrapper α} (h : LoopInv resets s .body w) :
    w = .idle ∧ s.got = s.queue.taken ∧ Early resets s.got ∧ Fits s.queue s.slot := by
  cases w with
  | idle => exact ⟨rfl, h⟩
  | _ => exact h.elim

/-- The loop has got no more elements than there are. -/
private theorem Inv.length_got_lt (h : Inv values resets s) {x : α} (hp : s.point = .body)
    (hslot : s.slot = some x) : s.got.length < values.length := by
  have hloop := h.loop
  rw [hp] at hloop
  obtain ⟨-, hgot, -, hfits⟩ := hloop.body
  rw [hslot] at hfits
  have hlt := LogQueue.head_lt_of_front? hfits
  rw [hgot, ← h.posted, LogQueue.taken, List.length_take, List.length_append]
  omega

/-- Every step keeps the account of the values and the scope in the slot. -/
theorem inv_step (h : Inv values resets s) (hs : Step values.length resets s a s') :
    Inv values resets s' := by
  have hloop := h.loop
  cases hs with
  | @post x rest hrest =>
    have hopen : s.queue.closed = false := by
      rw [Bool.eq_false_iff]
      intro hclosed
      have hnil := h.closed hclosed
      rw [hrest] at hnil
      cases hnil
    refine ⟨?_, fun hclosed => ?_, ?_, hloop.post hopen⟩
    · rw [LogQueue.push_log, List.append_assoc, ← h.posted, hrest]
      rfl
    · rw [LogQueue.push_closed, hopen] at hclosed
      cases hclosed
    · rw [LogQueue.taken_push]
      exact h.destroyed
  | close hrest hopen => exact ⟨h.posted, fun _ => hrest, h.destroyed, hloop.close⟩
  | start hw =>
    obtain ⟨hp, hloop⟩ := h.awaitMux hw (fun he => by cases he)
    refine h.setWrapper hp ?_
    rcases hloop with hfirst | hlate
    · rw [hfirst.1]
      exact hfirst
    · obtain ⟨-, x, hslot, -⟩ := id hlate
      rw [hslot]
      exact hlate
  | pull hw hfront =>
    obtain ⟨hp, hloop⟩ := h.awaitMux hw (fun he => by cases he)
    exact h.setWrapper hp ⟨hloop.1, hloop.2.1, hloop.2.2, hfront⟩
  | pullClosed hw hdrained =>
    obtain ⟨hp, hloop⟩ := h.awaitMux hw (fun he => by cases he)
    exact h.setWrapper hp ⟨hloop.1, hloop.2.1, hloop.2.2, hdrained⟩
  | @store scope hw =>
    obtain ⟨hp, hslot, hgot, hearly, hfits⟩ := h.awaitMux hw (fun he => by cases he)
    -- The slot is empty, so that the assignment releases nothing.
    have hreleased : s.released = s.queue := by rw [State.released, hslot]; rfl
    have hdestroyed : s.destroyed ++ s.slot.toList = s.destroyed := by
      rw [hslot]
      exact List.append_nil _
    rw [hreleased, hdestroyed]
    refine ⟨h.posted, h.closed, h.destroyed, ?_⟩
    dsimp only
    rw [hp]
    exact ⟨hgot, hearly, hfits⟩
  | await hp hready =>
    rw [hp, hready] at hloop
    exact ⟨h.posted, h.closed, h.destroyed, hloop⟩
  | leave hp hslot =>
    rw [hp] at hloop
    obtain ⟨hw, hgot, hearly, hfits⟩ := hloop.body
    rw [hslot] at hfits
    refine ⟨h.posted, h.closed, h.destroyed, ?_⟩
    dsimp only
    rw [hw]
    exact ⟨hslot, hgot, hearly, hfits⟩
  | @fork x hp hslot hnet =>
    rw [hp] at hloop
    obtain ⟨hw, hgot, hearly, hfits⟩ := hloop.body
    rw [hslot] at hfits
    cases resets with
    | true =>
      have hreleased : s.released = s.queue.pop := by rw [State.released, hslot]; rfl
      have htaken := LogQueue.taken_pop hfits
      simp only [if_true, hreleased, hslot]
      refine ⟨h.posted, h.closed, ?_, Or.inl ⟨rfl, ?_, fun he => by cases he⟩⟩
      · rw [htaken, h.destroyed]
        rfl
      · rw [htaken, hgot]
    | false =>
      have hnil := hearly rfl
      refine ⟨h.posted, h.closed, h.destroyed, Or.inr ⟨rfl, x, hslot, ?_, ?_, hfits⟩⟩
      · change s.got ++ [x] = [x]
        rw [hnil]
        rfl
      · exact hgot.symm.trans hnil
  | @safetyNet x hp hslot hnet =>
    have hlt := h.length_got_lt hp hslot
    omega

theorem inv_of_reachable (h : (system values resets).Reachable s) : Inv values resets s :=
  h.induct (inv_init values resets) fun _ _ _ _ hinv hs => inv_step hinv hs

/-! ### Every run ends -/

/-- How far the task in the slot is from the body of the loop. -/
def Wrapper.rank : Wrapper α → ℕ
  | .forked => 5
  | .pulling => 4
  | .holding _ => 3
  | .ready => 2
  | .idle => 1
  | .undefined => 0

/-- How far the loop is from its end, apart from the task. -/
def Point.rank : Point → ℕ
  | .awaitMux | .body => 1
  | .failed | .returned => 0

/-- The rank of a state. -/
def State.rank (n : ℕ) (s : State α) : ℕ :=
  6 * (n - s.got.length) + s.wrapper.rank + s.point.rank + s.rest.length +
    if s.queue.closed then 0 else 1

private theorem rank_step (h : Inv values resets s) (hs : Step values.length resets s a s') :
    s'.rank values.length < s.rank values.length := by
  cases hs with
  | @post x rest hrest =>
    have hclosed : (s.queue.push x).closed = s.queue.closed := rfl
    simp only [State.rank, hrest, List.length_cons, hclosed]
    omega
  | close hrest hopen =>
    simp only [State.rank, LogQueue.close_closed, hopen, if_true, Bool.false_eq_true, if_false]
    omega
  | start hw =>
    simp only [State.rank, hw]
    split <;> simp only [Wrapper.rank] <;> omega
  | pull hw | pullClosed hw =>
    simp only [State.rank, hw, Wrapper.rank]
    omega
  | store hw =>
    obtain ⟨-, hslot, -⟩ := h.awaitMux hw (fun he => by cases he)
    have hreleased : s.released = s.queue := by rw [State.released, hslot]; rfl
    simp only [State.rank, hw, hreleased, Wrapper.rank]
    omega
  | await hp hready =>
    simp only [State.rank, hp, hready, Wrapper.rank, Point.rank]
    omega
  | leave hp =>
    simp only [State.rank, hp, Point.rank]
    omega
  | @fork x hp hslot =>
    have hlt := h.length_got_lt hp hslot
    have hclosed : (if resets then s.released else s.queue).closed = s.queue.closed := by
      unfold State.released
      split <;> [split; skip] <;> rfl
    simp only [State.rank, hp, hclosed, Wrapper.rank, Point.rank, List.length_append,
      List.length_singleton]
    omega
  | safetyNet hp hslot hnet =>
    have hlt := h.length_got_lt hp hslot
    omega

/-- The values that have not been posted, pulled and consumed bound the run. -/
theorem system_terminating (values : List α) (resets : Bool) : (system values resets).Terminating :=
  LTS.terminating_of_rank (State.rank values.length) fun _ _ _ hr hs =>
    rank_step (inv_of_reachable hr) hs

/-- **No deadlock.** A loop that cannot go on has returned, or its pull was against the contract. -/
theorem end_of_not_enabled (h : Inv values resets s) (hend : ¬ (system values resets).Enabled s) :
    s.point = .returned ∨ s.wrapper = .undefined := by
  have hstuck : ∀ a s', ¬ Step values.length resets s a s' := fun a s' hs => hend ⟨a, s', hs⟩
  have hrest : s.rest = [] := by
    cases hr : s.rest with
    | nil => rfl
    | cons x rest => exact (hstuck _ _ (.post hr)).elim
  have hclosed : s.queue.closed = true := by
    by_contra hopen
    exact hstuck _ _ (.close hrest (Bool.eq_false_iff.mpr hopen))
  cases hw : s.wrapper with
  | undefined => exact Or.inr rfl
  | forked => exact (hstuck _ _ (.start hw)).elim
  | pulling =>
    cases hfront : s.queue.front? with
    | some x => exact (hstuck _ _ (.pull hw hfront)).elim
    | none =>
      have hdrained : s.queue.Drained := ⟨hclosed, LogQueue.front?_eq_none_iff.mp hfront⟩
      exact (hstuck _ _ (.pullClosed hw hdrained)).elim
  | holding scope => exact (hstuck _ _ (.store hw)).elim
  | ready =>
    obtain ⟨hp, -⟩ := h.awaitMux hw (fun he => by cases he)
    exact (hstuck _ _ (.await hp hw)).elim
  | idle =>
    have hloop := h.loop
    rw [hw] at hloop
    cases hp : s.point with
    | returned => exact Or.inl rfl
    | awaitMux | failed =>
      rw [hp] at hloop
      exact hloop.elim
    | body =>
      cases hslot : s.slot with
      | none => exact (hstuck _ _ (.leave hp hslot)).elim
      | some x =>
        have hlt := h.length_got_lt hp hslot
        exact (hstuck _ _ (.fork hp hslot (by omega))).elim

/-- What the loop has got where it has returned. -/
private theorem Inv.of_returned (h : Inv values resets s) (hp : s.point = .returned) :
    s.got = values ∧ s.destroyed = values ∧ s.slot = none ∧ (resets = false → values = []) := by
  have hloop := h.loop
  rw [hp] at hloop
  have hidle : s.slot = none ∧ s.got = s.queue.taken ∧ Early resets s.got ∧ s.queue.Drained := by
    cases hw : s.wrapper with
    | idle => rwa [hw] at hloop
    | _ =>
      rw [hw] at hloop
      exact hloop.elim
  obtain ⟨hslot, hgot, hearly, hdrained⟩ := hidle
  have hall : s.queue.taken = values := by
    rw [hdrained.taken_eq, ← h.posted, h.closed hdrained.1, List.append_nil]
  have hvalues : s.got = values := by rw [hgot, hall]
  exact ⟨hvalues, by rw [h.destroyed, hall], hslot, fun hr => by rw [← hvalues, hearly hr]⟩

/-- A pull against the contract is the second one, behind a fork that does not reset the slot. -/
private theorem Inv.of_undefined (h : Inv values resets s) (hw : s.wrapper = .undefined) :
    resets = false ∧ ∃ x rest, values = x :: rest ∧ s.slot = some x ∧ s.got = [x] := by
  obtain ⟨-, hr, x, hslot, hgot, htaken, hfront⟩ := h.awaitMux hw (fun he => by cases he)
  have hlog : s.queue.log = s.queue.pending := by
    conv_lhs => rw [← List.take_append_drop s.queue.head s.queue.log]
    exact congrArg (· ++ s.queue.pending) htaken
  rw [LogQueue.front?_eq_head?] at hfront
  obtain ⟨rest, hpending⟩ := List.head?_eq_some_iff.mp hfront
  refine ⟨hr, x, rest ++ s.rest, ?_, hslot, hgot⟩
  rw [← h.posted, hlog, hpending, List.cons_append]

/-- **Consume and fork.** However the posts, the pulls and the loop interleave: every run ends. If
the slot is reset before the next pull, the loop has got each value once and in order, each has been
destroyed once, and no pull was against its contract. If not, the second pull is, as soon as there
is a value. -/
theorem fork_loop_takes_each_once (values : List α) (resets : Bool) :
    (system values resets).EndsIn fun s =>
      (resets = true ∨ values = [] →
        s.point = .returned ∧ s.got = values ∧ s.destroyed = values ∧ s.slot = none) ∧
      (resets = false → values ≠ [] → s.wrapper = .undefined ∧ s.got = values.take 1) := by
  refine ⟨system_terminating values resets, fun s hr hend => ?_⟩
  have h := inv_of_reachable hr
  rcases end_of_not_enabled h hend with hp | hw
  · obtain ⟨hgot, hdestroyed, hslot, hempty⟩ := h.of_returned hp
    exact ⟨fun _ => ⟨hp, hgot, hdestroyed, hslot⟩, fun hr hne => absurd (hempty hr) hne⟩
  · obtain ⟨hfalse, x, rest, rfl, hslot, hgot⟩ := h.of_undefined hw
    refine ⟨fun hor => ?_, fun _ _ => ⟨hw, hgot⟩⟩
    rcases hor with htrue | hnil
    · rw [hfalse] at htrue
      cases htrue
    · cases hnil

end ZeroCopy

end MuxTests

end TmcExamples
