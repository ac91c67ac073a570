import Mathlib.Algebra.BigOperators.Fin
import Mathlib.Algebra.BigOperators.Intervals
import TmcExamples.MpscBounded.Delivery

/-!
# How the tests end

An element is worth less in the queue than in the hands of its producer, so every run ends. At its
end a producer can be suspended only behind a consumer that has returned and left the queue
open, and the consumer can be suspended only when all elements have been pulled and there are
fewer of them than it asks for.
-/

namespace TmcExamples

namespace MpscBounded

variable {w : ℕ} {T : Test} {s s' : State w T} {a : Action T} {p : Fin T.nproducers}

/-! ### Every run ends -/

/-- How far a producer is from its end. -/
def Producer.rank (items : ℕ) : Producer → ℕ
  | .pushing results => 3 * (items - results.length) + 1
  | .suspended results _ => 3 * (items - results.length) - 1
  | .returned _ => 0

/-- How far the consumer is from its end, apart from the elements that it pulls. -/
def Consumer.rank : Consumer w → ℕ
  | .pulling .. => 3
  | .closing .. => 2
  | .draining .. => 1
  | .returned .. | .undefined .. => 0

/-- The rank of a state. -/
def State.rank (s : State w T) : ℕ :=
  ∑ p, (s.producer p).rank T.items + s.consumer.rank + s.chan.size

/-- A step of a producer that decreases its rank by more than `k`. -/
private theorem producers_rank_lt {x : Producer} {k : ℕ}
    (h : x.rank T.items + k < (s.producer p).rank T.items) :
    ∑ q, (Function.update s.producer p x q).rank T.items + k <
      ∑ q, (s.producer q).rank T.items := by
  have hsum := sum_update_add (Finset.mem_univ p) s.producer x (Producer.rank T.items)
  omega

private theorem rank_step (h : Inv s) (hs : Step w T s a s') : s'.rank < s.rank := by
  cases hs with
  | @push p results hp hi hopen =>
    have hlt : (Producer.suspended results s.chan.log.length).rank T.items + 1 <
        (s.producer p).rank T.items := by
      rw [hp]
      simp only [Producer.rank]
      omega
    have hsum := producers_rank_lt hlt
    simp only [State.rank, LogQueue.size_push]
    omega
  | @refused p results hp hi hclosed =>
    have hlt : (Producer.pushing (results ++ [false])).rank T.items + 0 <
        (s.producer p).rank T.items := by
      rw [hp]
      simp only [Producer.rank, List.length_append, List.length_singleton]
      omega
    have hsum := producers_rank_lt hlt
    simp only [State.rank]
    omega
  | @pushed p results pos hp hroom =>
    have hpinv := h.producer p
    rw [hp] at hpinv
    have hi := hpinv.1
    have hlt : (Producer.pushing (results ++ [true])).rank T.items + 0 <
        (s.producer p).rank T.items := by
      rw [hp]
      simp only [Producer.rank, List.length_append, List.length_singleton]
      omega
    have hsum := producers_rank_lt hlt
    simp only [State.rank]
    omega
  | @producerReturn p results hp hi =>
    have hlt : (Producer.returned results).rank T.items + 0 < (s.producer p).rank T.items := by
      rw [hp]
      exact Nat.succ_pos _
    have hsum := producers_rank_lt hlt
    simp only [State.rank]
    omega
  | pull hc hcount hfront | drain hc hfront =>
    have hsize := LogQueue.size_pop (LogQueue.head_lt_of_front? hfront)
    simp only [State.rank, hc, Consumer.rank]
    omega
  | empty hc | loopEnd hc =>
    simp only [State.rank, hc]
    split <;> simp only [Consumer.rank] <;> omega
  | close hc =>
    simp only [State.rank, hc, Consumer.rank, LogQueue.size_close]
    omega
  | drained hc =>
    simp only [State.rank, hc, Consumer.rank]
    omega

/-- The pushes and pulls that are left bound the run. -/
theorem system_terminating (w : ℕ) (T : Test) : (system w T).Terminating :=
  LTS.terminating_of_rank State.rank fun _ _ _ hr hs => rank_step (inv_of_reachable hr) hs

/-! ### Where no step is left -/

/-- A producer that has no step has returned, or it is suspended and there is no room. -/
private theorem producer_of_not_enabled (hend : ¬ (system w T).Enabled s) (p : Fin T.nproducers) :
    (∃ results, s.producer p = .returned results) ∨
      ∃ results pos, s.producer p = .suspended results pos ∧ s.chan.head + T.capacity ≤ pos := by
  cases hp : s.producer p with
  | returned results => exact .inl ⟨results, rfl⟩
  | suspended results pos =>
    refine .inr ⟨results, pos, rfl, Nat.le_of_not_lt fun hroom => hend ⟨_, _, .pushed hp hroom⟩⟩
  | pushing results =>
    refine absurd ?_ hend
    by_cases hi : results.length < T.items
    · cases hclosed : s.chan.closed with
      | false => exact ⟨_, _, .push hp hi hclosed⟩
      | true => exact ⟨_, _, .refused hp hi hclosed⟩
    · exact ⟨_, _, .producerReturn hp hi⟩

/-- The consumer has returned, or it waits for an element in its first loop. -/
theorem consumer_of_not_enabled (h : Inv s) (hend : ¬ (system w T).Enabled s) :
    (∃ count sum, s.consumer = .returned count sum) ∨
      ∃ count sum, s.consumer = .pulling count sum ∧ count < T.pulls ∧ s.chan.front? = none := by
  have hconsumer := h.consumer
  cases hc : s.consumer with
  | returned count sum => exact .inl ⟨count, sum, rfl⟩
  | pulling count sum =>
    refine .inr ⟨count, sum, rfl, ?_⟩
    have hcount : count < T.pulls := by
      by_contra hcount
      exact hend ⟨_, _, .loopEnd hc hcount⟩
    refine ⟨hcount, Option.eq_none_iff_forall_ne_some.mpr fun e hfront => ?_⟩
    exact hend ⟨_, _, .pull hc hcount hfront⟩
  | closing count sum => exact absurd ⟨_, _, .close hc⟩ hend
  | draining count sum =>
    rw [hc] at hconsumer
    refine absurd ?_ hend
    cases hfront : s.chan.front? with
    | some e => exact ⟨_, _, .drain hc hfront⟩
    | none => exact ⟨_, _, .drained hc ⟨hconsumer.2.2, LogQueue.front?_eq_none_iff.mp hfront⟩⟩
  | undefined count sum =>
    rw [hc] at hconsumer
    exact hconsumer.elim

/-- No producer is suspended behind an empty queue. -/
theorem returned_of_empty (h : Inv s) (hend : ¬ (system w T).Enabled s)
    (hempty : s.chan.head = s.chan.log.length) (p : Fin T.nproducers) :
    ∃ results, s.producer p = .returned results := by
  refine (producer_of_not_enabled hend p).resolve_right ?_
  rintro ⟨results, pos, hp, hroom⟩
  have hpinv := h.producer p
  rw [hp] at hpinv
  have hpos := hpinv.2.1
  have hcap := T.capacity_pos
  omega

/-! ### Totals -/

/-- A total over a part of the log is the one over the producers and their iterations. -/
theorem sum_map_iterations {M : Type*} [AddCommMonoid M] (f : Element T → M)
    (log : List (Element T)) :
    (log.map f).sum = ∑ p, ((iterations p log).map fun i => f (p, i)).sum :=
  (sum_entriesOf log fun p i => f (p, i)).symm

private theorem sum_length_iterations (log : List (Element T)) :
    ∑ p, (iterations p log).length = log.length := by
  have hsum := sum_map_iterations (fun _ => 1) log
  simp only [List.map_const', List.sum_replicate, smul_eq_mul, mul_one] at hsum
  exact hsum.symm

/-- As many elements have been put into the queue as pushes are under way or have succeeded. -/
theorem Inv.log_length (h : Inv s) : s.chan.log.length = ∑ p, (s.producer p).sent.length := by
  rw [← sum_length_iterations]
  exact Finset.sum_congr rfl fun p _ => congrArg List.length (h.sent p)

private theorem length_sent_le (h : Inv s) (p : Fin T.nproducers) :
    (s.producer p).sent.length ≤ T.items := by
  have hpinv := h.producer p
  cases hp : s.producer p with
  | pushing results =>
    rw [hp] at hpinv
    rw [Producer.sent, length_accepted]
    calc results.count true ≤ results.length := List.count_le_length
      _ ≤ T.items := hpinv.1
  | returned results =>
    rw [hp] at hpinv
    rw [Producer.sent, length_accepted]
    calc results.count true ≤ results.length := List.count_le_length
      _ = T.items := hpinv.1
  | suspended results pos =>
    rw [hp] at hpinv
    rw [Producer.sent, List.length_append, length_accepted]
    exact Nat.succ_le_of_lt (List.count_le_length.trans_lt hpinv.1)

/-- There are no more elements than the producers have. -/
theorem Inv.log_length_le (h : Inv s) : s.chan.log.length ≤ T.total := by
  rw [h.log_length]
  refine (Finset.sum_le_sum fun p _ => length_sent_le h p).trans_eq ?_
  rw [Finset.sum_const, Finset.card_univ, Fintype.card_fin, smul_eq_mul, Test.total]

/-- As long as the queue is open, no push has been refused. -/
theorem results_of_open (h : Inv s) (hopen : s.chan.closed = false) {results : List Bool}
    (hp : s.producer p = .returned results) : results = List.replicate T.items true := by
  have hpinv := h.producer p
  rw [hp] at hpinv
  refine List.eq_replicate_iff.mpr ⟨hpinv.1, fun b hb => ?_⟩
  cases b with
  | true => rfl
  | false =>
    rw [hpinv.2 hb] at hopen
    cases hopen

/-- With a queue that is never closed, every push is accepted. -/
theorem log_length_of_open (h : Inv s) (hopen : s.chan.closed = false)
    (hreturned : ∀ p, ∃ results, s.producer p = .returned results) :
    s.chan.log.length = T.total := by
  have hone : ∀ p, (s.producer p).sent.length = T.items := by
    intro p
    obtain ⟨results, hp⟩ := hreturned p
    rw [hp, Producer.sent, results_of_open h hopen hp, accepted_replicate, List.length_range]
  rw [h.log_length, Finset.sum_congr rfl fun p _ => hone p, Finset.sum_const, Finset.card_univ,
    Fintype.card_fin, smul_eq_mul, Test.total]

end MpscBounded

end TmcExamples
