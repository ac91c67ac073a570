import TmcExamples.QueueBench.Flow

/-!
# The totals of the queue benchmark

A consumer that has counted `NELEMS` elements has pulled all of them, so the two checks succeed.
One that has counted less finds an element in the queue, or a producer has one to post: the
benchmark is never stuck, and a consumer that asks again can do so forever only if a step of
another task is possible all the time and never taken.
-/

namespace TmcExamples

namespace QueueBench

open ChanBench (Bench total total_eq_sum expectedSum_eq)

variable {w : ℕ} {B : Bench w} {pulling : Pulling} {s s' : State B} {a : Action B}

/-! ### The checks -/

/-- The main task has joined the producers. -/
def Main.JoinedProducers : Main → Prop
  | .fork | .spawn | .awaitProducers => False
  | _ => True

/-- Behind the join every producer has returned. -/
theorem Inv.returned (h : Inv s) (hm : s.main.JoinedProducers) (p : Fin B.prodCount.toNat) :
    s.producer p = .returned := by
  have hat := h.producer p
  cases hmain : s.main with
  | fork | spawn | awaitProducers =>
    rw [hmain] at hm
    exact hm.elim
  | _ =>
    rw [hmain] at hat
    exact hat

/-- A consumer that has counted `NELEMS` elements has all of them. -/
private theorem Inv.taken_of_counted (h : Inv s) (hcount : s.consumer.count = B.nelems) :
    (s.queue.taken : Multiset (BitVec w)) = B.allElements := by
  -- What has been taken out is a part of the log, which is a part of all elements.
  have hle : (s.queue.taken : Multiset (BitVec w)) ≤ B.allElements := by
    rw [← h.flow.sent]
    exact (Multiset.coe_le.mpr (List.take_sublist _ _).subperm).trans
      (Multiset.le_add_right _ _)
  refine Multiset.eq_of_le_of_card_le hle ?_
  rw [card_allElements, Multiset.coe_card, ← h.count_eq, hcount]

private theorem Inv.sum_of_counted (h : Inv s) (hcount : s.consumer.count = B.nelems) :
    s.consumer.sum = B.expectedSum := by
  rw [h.sum_eq, expectedSum_eq, ← h.taken_of_counted hcount, Multiset.sum_coe]

/-- Behind the join the consumer has returned all elements. -/
private theorem Inv.consumer_of_joined (h : Inv s) (hm : s.main = .checkCount ∨ s.main = .checkSum ∨
    s.main = .finished) : s.consumer = .returned B.nelems B.expectedSum := by
  have hat := h.consumer
  obtain ⟨count, sum, hc⟩ : ∃ count sum, s.consumer = .returned count sum := by
    rcases hm with hm | hm | hm <;> rwa [hm] at hat
  have hcount := h.counted count sum hc
  have hsum := h.sum_of_counted (by rw [hc]; exact hcount)
  rw [hc] at hsum ⊢
  rw [hcount, show sum = B.expectedSum from hsum]

private theorem total_one (x : BitVec w) : (total fun _ : Fin consumerCount => x) = x := by
  rw [total_eq_sum, consumerCount, Fin.sum_const, one_nsmul]

/-- No `FAIL` line is printed. -/
private theorem output_eq_nil (h : (system B pulling).Reachable s) : s.output = [] := by
  refine h.induct (P := fun s => s.output = []) rfl fun s a s' hr hout hs => ?_
  have hinv := inv_of_reachable hr
  cases hs with
  | checkCount hm hcount =>
    have hc := hinv.consumer_of_joined (Or.inl hm)
    rw [total_one, hc] at hcount
    have heq : _ = B.nelems := hcount
    dsimp only
    rw [if_pos heq, hout]
  | checkSum hm hsum =>
    have hc := hinv.consumer_of_joined (Or.inr (Or.inl hm))
    rw [total_one, hc] at hsum
    have heq : _ = B.expectedSum := hsum
    dsimp only
    rw [if_pos heq, hout]
  | _ => exact hout

/-! ### The rank -/

/-- How far the main task is from its end. -/
def Main.rank : Main → ℕ
  | .fork => 6
  | .spawn => 5
  | .awaitProducers => 4
  | .awaitConsumers => 3
  | .checkCount => 2
  | .checkSum => 1
  | .finished => 0

/-- How far a producer of `count` elements is from its end. -/
def Producer.rank (count : ℕ) : Producer → ℕ
  | .unstarted => 2 * count + 2
  | .running i => 2 * (count - i) + 1
  | .returned => 0

/-- How far the consumer is from its end, apart from the elements that it pulls. -/
def Consumer.rank : Consumer w → ℕ
  | .unstarted => 2
  | .running .. => 1
  | .returned .. => 0

/-- The rank of a state. -/
def State.rank (s : State B) : ℕ :=
  s.main.rank + ∑ p, (s.producer p).rank (B.count p).toNat + s.consumer.rank + s.queue.size

/-- A step of a producer that decreases its rank by more than `k`. -/
private theorem producers_rank_lt {p : Fin B.prodCount.toNat} {x : Producer} {k : ℕ}
    (h : x.rank (B.count p).toNat + k < (s.producer p).rank (B.count p).toNat) :
    ∑ q, (Function.update s.producer p x q).rank (B.count q).toNat + k <
      ∑ q, (s.producer q).rank (B.count q).toNat := by
  have hsum := sum_update_apply_add (Finset.mem_univ p) s.producer x
    fun q y => y.rank (B.count q).toNat
  omega

/-- **Every step but an empty `try_pull()` decreases the rank.** -/
theorem rank_step (h : Inv s) (hs : Step B pulling s a s') :
    s'.rank < s.rank ∨ s' = s ∧ a = .empty := by
  cases hs with
  | empty => exact Or.inr ⟨rfl, rfl⟩
  | fork hm =>
    have hc := h.consumer
    rw [hm] at hc
    left
    simp only [State.rank, hm, Main.rank, show s.consumer = .unstarted from hc, Consumer.rank]
    omega
  | spawn hm =>
    have hle : ∑ p : Fin B.prodCount.toNat, (Producer.running 0).rank (B.count p).toNat ≤
        ∑ p, (s.producer p).rank (B.count p).toNat := Finset.sum_le_sum fun p _ => by
      have hp := h.producer p
      rw [hm] at hp
      rw [hp]
      exact Nat.le_succ _
    left
    simp only [State.rank, hm, Main.rank]
    omega
  | joinProducers hm | joinConsumers hm | checkCount hm | checkSum hm =>
    left
    simp only [State.rank, hm, Main.rank]
    omega
  | @post p i hp hi =>
    have hlt : (Producer.running (i + 1)).rank (B.count p).toNat + 1 <
        (s.producer p).rank (B.count p).toNat := by
      rw [hp]
      simp only [Producer.rank]
      omega
    have hsum := producers_rank_lt hlt
    left
    simp only [State.rank, LogQueue.post_of_open h.opened, LogQueue.size_push]
    omega
  | @producerReturn p i hp hi =>
    have hlt : Producer.returned.rank (B.count p).toNat + 0 <
        (s.producer p).rank (B.count p).toNat := by
      rw [hp]
      exact Nat.succ_pos _
    have hsum := producers_rank_lt hlt
    left
    simp only [State.rank]
    omega
  | pull hc hcount hfront =>
    have hsize := LogQueue.size_pop (LogQueue.head_lt_of_front? hfront)
    left
    simp only [State.rank, hc, Consumer.rank]
    omega
  | consumerReturn hc =>
    left
    simp only [State.rank, hc, Consumer.rank]
    omega

/-! ### Progress -/

/-- When the producers have returned and the queue is empty, the consumer has counted all. -/
private theorem Inv.count_of_empty (h : Inv s) (hm : s.main.JoinedProducers)
    (hempty : s.queue.front? = none) : s.consumer.count.toNat = B.nelems.toNat := by
  have hrest : s.rest = 0 := Finset.sum_eq_zero fun p _ => by
    rw [h.returned hm p]
    rfl
  have hsent := h.flow.sent
  rw [hrest, add_zero] at hsent
  rw [h.count_eq, LogQueue.taken, LogQueue.front?_eq_none_iff.mp hempty, List.take_length,
    ← card_allElements, ← hsent, Multiset.coe_card]

/-- Before its end the benchmark has a step that is not an empty `try_pull()`. -/
theorem exists_step (h : Inv s) (hm : s.main ≠ .finished) :
    ∃ a s', a ≠ .empty ∧ Step B pulling s a s' := by
  have hproducer := h.producer
  have hconsumer := h.consumer
  cases hmain : s.main with
  | fork => exact ⟨_, _, (fun he => by cases he), Step.fork hmain⟩
  | spawn => exact ⟨_, _, (fun he => by cases he), Step.spawn hmain⟩
  | awaitProducers =>
    rw [hmain] at hproducer
    by_cases hall : ∀ p, s.producer p = .returned
    · exact ⟨_, _, (fun he => by cases he), Step.joinProducers hmain hall⟩
    · obtain ⟨p, hp⟩ := not_forall.mp hall
      obtain ⟨i, hi⟩ := (hproducer p).resolve_left hp
      by_cases hlt : i < (B.count p).toNat
      · exact ⟨_, _, (fun he => by cases he), Step.post hi hlt⟩
      · exact ⟨_, _, (fun he => by cases he), Step.producerReturn hi hlt⟩
  | awaitConsumers =>
    rw [hmain] at hconsumer
    cases hc : s.consumer with
    | unstarted => exact absurd hc hconsumer
    | returned count sum => exact ⟨_, _, (fun he => by cases he), Step.joinConsumers hmain hc⟩
    | running count sum =>
      by_cases hcount : count < B.nelems
      · cases hfront : s.queue.front? with
        | some data => exact ⟨_, _, (fun he => by cases he), Step.pull hc hcount hfront⟩
        | none =>
          -- The producers have posted all, and the consumer has counted what they posted.
          have hfull := h.count_of_empty (by rw [hmain]; trivial) hfront
          rw [hc] at hfull
          exact absurd hfull (Nat.ne_of_lt hcount)
      · exact ⟨_, _, (fun he => by cases he), Step.consumerReturn hc hcount⟩
  | checkCount => exact ⟨_, _, (fun he => by cases he), Step.checkCount hmain rfl⟩
  | checkSum => exact ⟨_, _, (fun he => by cases he), Step.checkSum hmain rfl⟩
  | finished => exact absurd hmain hm

/-- Where no step is left, `main` has printed its result. -/
theorem finished_of_not_enabled (h : Inv s) (hend : ¬ (system B pulling).Enabled s) :
    s.main = .finished := by
  by_contra hm
  obtain ⟨a, s', -, hs⟩ : ∃ a s', a ≠ .empty ∧ Step B pulling s a s' := exists_step h hm
  exact hend ⟨a, s', hs⟩

private theorem not_step_of_finished (h : Inv s) (hm : s.main = .finished) :
    ¬ Step B pulling s a s' := by
  intro hs
  have hc := h.consumer_of_joined (Or.inr (Or.inr hm))
  have hp := h.returned (by rw [hm]; trivial)
  cases hs with
  | fork h | spawn h | joinProducers h | joinConsumers h | checkCount h | checkSum h =>
    rw [hm] at h
    cases h
  | post h | producerReturn h =>
    rw [hp] at h
    cases h
  | pull h | empty h | consumerReturn h =>
    rw [hc] at h
    cases h

/-- A consumer that waits makes no empty `try_pull()`. -/
theorem system_terminating (B : Bench w) : (system B .consumer).Terminating :=
  LTS.terminating_of_rank State.rank fun s a s' hr hs => by
    rcases rank_step (inv_of_reachable hr) hs with hlt | ⟨-, rfl⟩
    · exact hlt
    · cases hs with
      | empty _ _ _ htry => cases htry

/-- In an infinite run the consumer asks an empty queue forever, while another step is possible. -/
private theorem starved_of_infinite {f : ℕ → State B} (h0 : f 0 = (system B pulling).init)
    (hf : ∀ n, ∃ a, Step B pulling (f n) a (f (n + 1))) :
    ∃ m, ∀ n, m ≤ n → f n = f m ∧ ∃ a s', a ≠ .empty ∧ Step B pulling (f n) a s' := by
  have hreach := LTS.reachable_of_infinite (T := system B pulling) h0 hf
  obtain ⟨m, hm⟩ := LTS.eventually_const_of_rank (T := system B pulling) State.rank
    (fun s a s' hr hs => (rank_step (inv_of_reachable hr) hs).imp_right And.left) h0 hf
  refine ⟨m, fun n hn => ⟨hm n hn, exists_step (inv_of_reachable (hreach n)) fun hfin => ?_⟩⟩
  obtain ⟨a, hs⟩ := hf n
  exact not_step_of_finished (inv_of_reachable (hreach n)) hfin hs

/-- The benchmark has finished: the consumer has returned the number and the sum of all elements,
each of which it has pulled once. -/
structure State.Complete (s : State B) : Prop where
  finished : s.main = .finished
  producer : ∀ p, s.producer p = .returned
  consumer : s.consumer = .returned B.nelems B.expectedSum
  pulled : (s.queue.taken : Multiset (BitVec w)) =
    (Multiset.range B.nelems.toNat).map (BitVec.ofNat w)

private theorem complete_of_finished (h : Inv s) (hm : s.main = .finished) : s.Complete where
  finished := hm
  producer := h.returned (by rw [hm]; trivial)
  consumer := h.consumer_of_joined (Or.inr (Or.inr hm))
  pulled := by
    have hc := h.consumer_of_joined (Or.inr (Or.inr hm))
    rw [h.taken_of_counted (by rw [hc]; rfl), Bench.allElements, rangeItems_from_zero]

/-- **The totals.** For any number of elements and of producers, and with either consumer: no `FAIL`
line is printed, and where no step is left, the consumer has pulled each of the numbers below
`NELEMS` once. With the consumer that waits every run ends; with the one that asks again, a run
that does not end leaves a step of another task aside forever. -/
theorem queue_bench_totals (B : Bench w) :
    (∀ pulling s, (system B pulling).Reachable s →
      s.output = [] ∧ (¬ (system B pulling).Enabled s → s.Complete)) ∧
    (system B .consumer).Terminating ∧
    ∀ f : ℕ → State B, f 0 = (system B .consumerTryPull).init →
      (∀ n, ∃ a, Step B .consumerTryPull (f n) a (f (n + 1))) →
      ∃ m, ∀ n, m ≤ n → f n = f m ∧ ∃ a s', a ≠ .empty ∧ Step B .consumerTryPull (f n) a s' :=
  ⟨fun _ _ hr => ⟨output_eq_nil hr, fun hend =>
    have hinv := inv_of_reachable hr
    complete_of_finished hinv (finished_of_not_enabled hinv hend)⟩,
    system_terminating B, fun _ => starved_of_infinite⟩

end QueueBench

end TmcExamples
