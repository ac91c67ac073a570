import TmcExamples.ChanBench.Control

/-!
# Every round ends

A push puts an element into the channel and takes it off the work of its producer, and a pull takes
it out again, so an element is worth less in the channel than in the hands of its producer. Where
no step is left the main task has finished: a producer is never stuck, and the consumers, of which
there is one at least, empty the channel that the main task waits for.
-/

namespace TmcExamples

namespace ChanBench

variable {w : ℕ} {B : Bench w} {s s' : State B} {a : Action B}

/-! ### The rank -/

/-- How far the main task is from its end. -/
def Main.rank : Main → ℕ
  | .fork => 9
  | .spawn => 8
  | .awaitProducers => 7
  | .close => 6
  | .drain => 5
  | .drainWait => 4
  | .awaitConsumers => 3
  | .checkCount => 2
  | .checkSum => 1
  | .finished => 0

/-- How far a producer of `count` elements is from its end. -/
def Producer.rank (count : ℕ) : Producer → ℕ
  | .unstarted => 2 * count + 2
  | .running i => 2 * (count - i) + 1
  | .assertFailed | .returned => 0

/-- How far a consumer is from its end, apart from the elements that it pulls. -/
def Consumer.rank : Consumer w → ℕ
  | .unstarted => 2
  | .pulling .. => 1
  | .returned .. => 0

@[simp] theorem Consumer.rank_pulling (count sum : BitVec w) :
    (Consumer.pulling count sum).rank = 1 := rfl

@[simp] theorem Consumer.rank_returned (count sum : BitVec w) :
    (Consumer.returned count sum).rank = 0 := rfl

/-- The rank of a state. -/
def State.rank (s : State B) : ℕ :=
  s.main.rank + ∑ p, (s.producer p).rank (B.count p).toNat + ∑ c, (s.consumer c).rank + s.chan.size

/-- A step of a producer that decreases its rank by more than `k`. -/
private theorem producers_rank_lt {p : Fin B.prodCount.toNat} {x : Producer} {k : ℕ}
    (h : x.rank (B.count p).toNat + k < (s.producer p).rank (B.count p).toNat) :
    ∑ q, (Function.update s.producer p x q).rank (B.count q).toNat + k <
      ∑ q, (s.producer q).rank (B.count q).toNat := by
  have hsum := sum_update_apply_add (Finset.mem_univ p) s.producer x
    fun q y => y.rank (B.count q).toNat
  omega

/-- **Every step decreases the rank.** -/
theorem rank_step (h : ControlInv s) (hs : Step B s a s') : s'.rank < s.rank := by
  cases hs with
  | fork hm =>
    have hle : ∑ _c : Fin B.consCount.toNat, (Consumer.pulling 0 0 : Consumer w).rank ≤
        ∑ c, (s.consumer c).rank := Finset.sum_le_sum fun c _ => by
      have hc := h.consumer c
      rw [hm] at hc
      rw [hc]
      exact Nat.le_succ 1
    simp only [State.rank, hm, Main.rank]
    omega
  | spawn hm =>
    have hle : ∑ p : Fin B.prodCount.toNat, (Producer.running 0).rank (B.count p).toNat ≤
        ∑ p, (s.producer p).rank (B.count p).toNat := Finset.sum_le_sum fun p _ => by
      have hp := h.producer p
      rw [hm] at hp
      rw [hp]
      exact Nat.le_succ _
    simp only [State.rank, hm, Main.rank]
    omega
  | joinProducers hm | drained hm | joinConsumers hm | checkCount hm | checkSum hm =>
    simp only [State.rank, hm, Main.rank]
    omega
  | close hm | drain hm =>
    simp only [State.rank, hm, Main.rank, LogQueue.size_close]
    omega
  | @push p i hp hi hopen =>
    have hlt : (Producer.running (i + 1)).rank (B.count p).toNat + 1 <
        (s.producer p).rank (B.count p).toNat := by
      rw [hp]
      simp only [Producer.rank]
      omega
    have hsum := producers_rank_lt hlt
    simp only [State.rank, LogQueue.size_push]
    omega
  | @refused p i hp hi hclosed =>
    have hlt : Producer.assertFailed.rank (B.count p).toNat + 0 <
        (s.producer p).rank (B.count p).toNat := by
      rw [hp]
      exact Nat.succ_pos _
    have hsum := producers_rank_lt hlt
    simp only [State.rank]
    omega
  | @producerReturn p i hp hi =>
    have hlt : Producer.returned.rank (B.count p).toNat + 0 <
        (s.producer p).rank (B.count p).toNat := by
      rw [hp]
      exact Nat.succ_pos _
    have hsum := producers_rank_lt hlt
    simp only [State.rank]
    omega
  | @pull c count sum data hc hfront =>
    have hsum := sum_update_add (Finset.mem_univ c) s.consumer (.pulling (count + 1) (sum + data))
      Consumer.rank
    have hsize := LogQueue.size_pop (LogQueue.head_lt_of_front? hfront)
    rw [hc, Consumer.rank_pulling, Consumer.rank_pulling] at hsum
    simp only [State.rank]
    omega
  | @consumerReturn c count sum hc hdrained =>
    have hsum := sum_update_add (Finset.mem_univ c) s.consumer (.returned count sum) Consumer.rank
    rw [hc, Consumer.rank_pulling, Consumer.rank_returned] at hsum
    simp only [State.rank]
    omega

/-- What the tasks still have before them bounds the run. -/
theorem system_terminating (B : Bench w) : (system B).Terminating :=
  LTS.terminating_of_rank State.rank fun _ _ _ hr hs => rank_step (controlInv_of_reachable hr) hs

/-! ### Progress -/

/-- A running producer has a step. -/
private theorem enabled_of_running {p : Fin B.prodCount.toNat} {i : ℕ}
    (hp : s.producer p = .running i) : (system B).Enabled s := by
  by_cases hi : i < (B.count p).toNat
  · by_cases hclosed : s.chan.closed = true
    · exact ⟨_, _, Step.refused hp hi hclosed⟩
    · exact ⟨_, _, Step.push hp hi (Bool.not_eq_true _ ▸ hclosed)⟩
  · exact ⟨_, _, Step.producerReturn hp hi⟩

/-- A pulling consumer has a step when the channel is closed. -/
private theorem enabled_of_pulling {c : Fin B.consCount.toNat} {count sum : BitVec w}
    (hc : s.consumer c = .pulling count sum) (hclosed : s.chan.closed = true) :
    (system B).Enabled s := by
  cases hfront : s.chan.front? with
  | none =>
    exact ⟨_, _, Step.consumerReturn hc ⟨hclosed, LogQueue.front?_eq_none_iff.mp hfront⟩⟩
  | some data => exact ⟨_, _, Step.pull hc hfront⟩

/-- **No deadlock.** Where no step is left, the main task has finished. -/
theorem finished_of_not_enabled (h : ControlInv s) (hend : ¬ (system B).Enabled s) :
    s.main = .finished := by
  have hclosed := h.closed
  have hproducer := h.producer
  have hconsumer := h.consumer
  by_contra hne
  apply hend
  cases hm : s.main with
  | fork => exact ⟨_, _, Step.fork hm⟩
  | spawn => exact ⟨_, _, Step.spawn hm⟩
  | awaitProducers =>
    rw [hm] at hproducer
    by_cases hall : ∀ p, s.producer p = .returned
    · exact ⟨_, _, Step.joinProducers hm hall⟩
    · obtain ⟨p, hp⟩ := not_forall.mp hall
      obtain ⟨i, hi⟩ := (hproducer p).resolve_left hp
      exact enabled_of_running hi
  | close => exact ⟨_, _, Step.close hm⟩
  | drain => exact ⟨_, _, Step.drain hm⟩
  | drainWait =>
    rw [hm] at hclosed hconsumer
    cases hfront : s.chan.front? with
    | none => exact ⟨_, _, Step.drained hm hfront⟩
    | some data =>
      -- Some consumer is there to pull the element.
      let c : Fin B.consCount.toNat := ⟨0, B.consCount_pos⟩
      cases hc : s.consumer c with
      | unstarted => exact absurd hc (hconsumer c)
      | pulling count sum => exact enabled_of_pulling hc hclosed
      | returned count sum => exact absurd hc (h.not_returned hfront c count sum)
  | awaitConsumers =>
    rw [hm] at hclosed hconsumer
    by_cases hall : ∀ c, ∃ count sum, s.consumer c = .returned count sum
    · exact ⟨_, _, Step.joinConsumers hm hall⟩
    · obtain ⟨c, hc⟩ := not_forall.mp hall
      cases hcc : s.consumer c with
      | unstarted => exact absurd hcc (hconsumer c)
      | pulling count sum => exact enabled_of_pulling hcc hclosed
      | returned count sum => exact absurd ⟨count, sum, hcc⟩ hc
  | checkCount => exact ⟨_, _, Step.checkCount hm rfl⟩
  | checkSum => exact ⟨_, _, Step.checkSum hm rfl⟩
  | finished => exact absurd hm hne

end ChanBench

end TmcExamples
