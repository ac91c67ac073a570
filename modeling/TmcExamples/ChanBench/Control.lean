import Mathlib.Algebra.Order.BigOperators.Group.Finset
import TmcExamples.ChanBench.Model
import TmcExamples.Transition.Parties

/-!
# The order of a round

`ControlInv` says where the producers and the consumers are at each program point of the main
task. The channel is closed behind the last return of a producer, so no push is refused, and a
consumer returns only from a channel that is closed and empty. Every step decreases a rank, and
where no step is left the main task has finished.
-/

namespace TmcExamples

namespace ChanBench

variable {w : ℕ} {B : Bench w} {s s' : State B} {a : Action B}

/-! ### The invariant -/

namespace Main

/-- The main task has closed the channel. -/
def closed : Main → Bool
  | .fork | .spawn | .awaitProducers | .close => false
  | _ => true

/-- Where a producer may be. -/
def ProducerAt : Main → Producer → Prop
  | .fork, p | .spawn, p => p = .unstarted
  | .awaitProducers, p => p = .returned ∨ ∃ i, p = .running i
  | _, p => p = .returned

/-- Where a consumer may be. -/
def ConsumerAt : Main → Consumer w → Prop
  | .fork, c => c = .unstarted
  | .checkCount, c | .checkSum, c | .finished, c => ∃ count sum, c = .returned count sum
  | _, c => c ≠ .unstarted

/-- The main task is behind the join of the consumers. -/
def Joined : Main → Prop
  | .checkCount | .checkSum | .finished => True
  | _ => False

/-- Behind the join every producer has returned. -/
theorem ProducerAt.of_joined {m : Main} {p : Producer} (h : m.ProducerAt p) (hm : m.Joined) :
    p = .returned := by
  cases m with
  | checkCount | checkSum | finished => exact h
  | _ => exact hm.elim

/-- Behind the join every consumer has returned. -/
theorem ConsumerAt.of_joined {m : Main} {c : Consumer w} (h : m.ConsumerAt c) (hm : m.Joined) :
    ∃ count sum, c = .returned count sum := by
  cases m with
  | checkCount | checkSum | finished => exact h
  | _ => exact hm.elim

private theorem eq_of_running {m : Main} {i : ℕ} (h : m.ProducerAt (.running i)) :
    m = .awaitProducers := by
  cases m with
  | awaitProducers => rfl
  | _ => cases h

/-- While a consumer pulls, the consumers may be anywhere but at their start. -/
private theorem ConsumerAt.of_pulling {m : Main} {count sum : BitVec w} {c : Consumer w}
    (h : m.ConsumerAt (.pulling count sum)) (hc : c ≠ .unstarted) : m.ConsumerAt c := by
  cases m with
  | fork => cases h
  | checkCount | checkSum | finished =>
    obtain ⟨_, _, h⟩ := h
    cases h
  | _ => exact hc

end Main

/-- The order of a round. -/
structure ControlInv (s : State B) : Prop where
  closed : s.chan.closed = s.main.closed
  producer : ∀ p, s.main.ProducerAt (s.producer p)
  consumer : ∀ c, s.main.ConsumerAt (s.consumer c)
  drained : ∀ c count sum, s.consumer c = .returned count sum → s.chan.Drained

private theorem controlInv_init (B : Bench w) : ControlInv (system B).init where
  closed := rfl
  producer _ := rfl
  consumer _ := rfl
  drained _ _ _ h := by cases h

/-- A running producer finds the channel open. -/
theorem ControlInv.open_of_running (h : ControlInv s) {p : Fin B.prodCount.toNat} {i : ℕ}
    (hp : s.producer p = .running i) : s.main = .awaitProducers ∧ s.chan.closed = false := by
  have hmain := Main.eq_of_running (hp ▸ h.producer p)
  exact ⟨hmain, by rw [h.closed, hmain]; rfl⟩

/-- Where a consumer has returned, there is nothing in the channel. -/
theorem ControlInv.not_returned (h : ControlInv s) {data : BitVec w}
    (hfront : s.chan.front? = some data) (c : Fin B.consCount.toNat) (count sum : BitVec w) :
    s.consumer c ≠ .returned count sum := by
  intro hc
  have hlt := LogQueue.head_lt_of_front? hfront
  have heq := (h.drained c count sum hc).2
  omega

/-- A step of the main task from `m₀` to `m` that leaves the channel and the tasks alone. -/
private theorem ControlInv.move_main (h : ControlInv s) {m₀ m : Main} (hm : s.main = m₀)
    (hclosed : m.closed = m₀.closed)
    (hproducer : ∀ p, m₀.ProducerAt (s.producer p) → m.ProducerAt (s.producer p))
    (hconsumer : ∀ c, m₀.ConsumerAt (s.consumer c) → m.ConsumerAt (s.consumer c))
    (output : List (Failure w)) : ControlInv { s with main := m, output := output } := by
  subst hm
  exact ⟨by rw [h.closed, hclosed], fun p => hproducer p (h.producer p),
    fun c => hconsumer c (h.consumer c), h.drained⟩

/-- A step of the main task that closes the channel. -/
private theorem ControlInv.move_close (h : ControlInv s) {m₀ m : Main} (hm : s.main = m₀)
    (hclosed : m.closed = true)
    (hproducer : ∀ p, m₀.ProducerAt (s.producer p) → m.ProducerAt (s.producer p))
    (hconsumer : ∀ c, m₀.ConsumerAt (s.consumer c) → m.ConsumerAt (s.consumer c)) :
    ControlInv { s with main := m, chan := s.chan.close } := by
  subst hm
  exact ⟨hclosed.symm, fun p => hproducer p (h.producer p), fun c => hconsumer c (h.consumer c),
    fun c count sum hc => (h.drained c count sum hc).close⟩

/-- Every step keeps the tasks in step with `main`. -/
theorem controlInv_step (h : ControlInv s) (hs : Step B s a s') : ControlInv s' := by
  cases hs with
  | fork hm =>
    have hproducer := h.producer
    have hclosed := h.closed
    rw [hm] at hproducer hclosed
    exact ⟨hclosed, hproducer, fun _ => nofun, fun _ _ _ => nofun⟩
  | spawn hm =>
    have hconsumer := h.consumer
    have hclosed := h.closed
    rw [hm] at hconsumer hclosed
    exact ⟨hclosed, fun _ => Or.inr ⟨0, rfl⟩, hconsumer, h.drained⟩
  | joinProducers hm hreturned =>
    exact h.move_main (m := .close) hm rfl (fun p _ => hreturned p) (fun _ => id) _
  | close hm => exact h.move_close (m := .drain) hm rfl (fun _ => id) fun _ => id
  | drain hm => exact h.move_close (m := .drainWait) hm rfl (fun _ => id) fun _ => id
  | drained hm hempty =>
    exact h.move_main (m := .awaitConsumers) hm rfl (fun _ => id) (fun _ => id) _
  | joinConsumers hm hreturned =>
    exact h.move_main (m := .checkCount) hm rfl (fun _ => id) (fun c _ => hreturned c) _
  | checkCount hm hcount =>
    exact h.move_main (m := .checkSum) hm rfl (fun _ => id) (fun _ => id) _
  | checkSum hm hsum =>
    exact h.move_main (m := .finished) hm rfl (fun _ => id) (fun _ => id) _
  | push hp hi hopen =>
    obtain ⟨hmain, -⟩ := h.open_of_running hp
    have hproducer := h.producer
    rw [hmain] at hproducer
    refine ⟨h.closed, ?_, h.consumer, fun c count sum hc => ?_⟩
    · dsimp only
      rw [hmain]
      exact forall_update (P := fun _ => Main.awaitProducers.ProducerAt) hproducer
        (Or.inr ⟨_, rfl⟩)
    · -- A consumer that has returned has seen the channel closed, but it is open.
      have hclosed := (h.drained c count sum hc).1
      rw [hopen] at hclosed
      cases hclosed
  | refused hp hi hclosed =>
    obtain ⟨-, hopen⟩ := h.open_of_running hp
    rw [hopen] at hclosed
    cases hclosed
  | producerReturn hp hi =>
    obtain ⟨hmain, -⟩ := h.open_of_running hp
    have hproducer := h.producer
    rw [hmain] at hproducer
    refine ⟨h.closed, ?_, h.consumer, h.drained⟩
    dsimp only
    rw [hmain]
    exact forall_update (P := fun _ => Main.awaitProducers.ProducerAt) hproducer (Or.inl rfl)
  | @pull c count sum data hc hfront =>
    refine ⟨h.closed, h.producer, ?_, fun d count' sum' hd => ?_⟩
    · exact forall_update (P := fun _ => s.main.ConsumerAt) h.consumer
        ((hc ▸ h.consumer c).of_pulling nofun)
    · have hnone : ∀ d, Function.update s.consumer c (.pulling (count + 1) (sum + data)) d ≠
          .returned count' sum' :=
        forall_update (P := fun _ (x : Consumer w) => x ≠ .returned count' sum')
          (fun d => h.not_returned hfront d count' sum') nofun
      exact absurd hd (hnone d)
  | @consumerReturn c count sum hc hdrained =>
    refine ⟨h.closed, h.producer, ?_, fun _ _ _ _ => hdrained⟩
    exact forall_update (P := fun _ => s.main.ConsumerAt) h.consumer
      ((hc ▸ h.consumer c).of_pulling nofun)

theorem controlInv_of_reachable (h : (system B).Reachable s) : ControlInv s :=
  h.induct (controlInv_init B) fun _ _ _ _ hinv hs => controlInv_step hinv hs

end ChanBench

end TmcExamples
