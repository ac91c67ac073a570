import TmcExamples.MpscBounded.Progress

/-!
# The checks of the tests

`push_race_with_close` compares what the consumer has drained with the number of successful pushes
(`drained_eq_total_enqueued`), the other tests compare the sum of what was pulled with that of the
numbers below `TOTAL` (`pulled_sum_eq`). Both hold with any capacity, even one.
-/

namespace TmcExamples

namespace MpscBounded

variable {w : ℕ} {T : Test} {s : State w T}

/-- `expectedSum` -/
def expectedSum (w : ℕ) (T : Test) : BitVec w :=
  (List.range T.total).foldl (fun sum i => sum + BitVec.ofNat w i) 0

/-- What holds when the consumer has emptied the queue and no step is left. -/
structure Delivered (s : State w T) : Prop where
  returned : ∀ p, ∃ results, s.producer p = .returned results
  count : s.consumer.count = s.chan.log.length
  taken : s.chan.taken = s.chan.log

private theorem delivered_of_empty (h : Inv s) (hend : ¬ (system w T).Enabled s)
    (hempty : s.chan.head = s.chan.log.length) : Delivered s where
  returned := returned_of_empty h hend hempty
  count := by rw [h.received.count, hempty]
  taken := by rw [LogQueue.taken, hempty, List.take_length]

/-- Each producer finds its accepted elements among those taken, in its own order. -/
private theorem Delivered.iterations_taken (hd : Delivered s) (h : Inv s) (p : Fin T.nproducers) :
    iterations p s.chan.taken = accepted (s.producer p).results := by
  obtain ⟨results, hp⟩ := hd.returned p
  rw [hd.taken, h.sent p, hp]
  rfl

/-- The consumer has counted the pushes that returned true. -/
theorem Delivered.count_eq (hd : Delivered s) (h : Inv s) :
    s.consumer.count = ∑ p, (s.producer p).results.count true := by
  rw [hd.count, h.log_length]
  refine Finset.sum_congr rfl fun p _ => ?_
  obtain ⟨results, hp⟩ := hd.returned p
  rw [hp, Producer.sent, length_accepted]
  rfl

/-- **A race with `close`.** However the pushes and the close come in between each other, every run
ends with all producers returned. What the consumer has drained is the number of the pushes that
returned `true`, and it got the element of each of them once and in the order of its producer. The
consumer returns if and only if there are as many elements as it pulls before it closes. -/
theorem drained_eq_total_enqueued (w : ℕ) (T : Test) (hcloses : T.closes = true) :
    (system w T).EndsIn fun s =>
      (∀ p, ∃ results, s.producer p = .returned results) ∧
      s.consumer.count = ∑ p, (s.producer p).results.count true ∧
      (∀ p, iterations p s.chan.taken = accepted (s.producer p).results) ∧
      (s.Finished ↔ T.pulls ≤ T.total) := by
  refine ⟨system_terminating w T, fun s hr hend => ?_⟩
  have h := inv_of_reachable hr
  have hconsumer := h.consumer
  have hsplit := consumer_of_not_enabled h hend
  rcases hsplit with ⟨count, sum, hc⟩ | ⟨count, sum, hc, hlt, hfront⟩
  · rw [hc] at hconsumer
    rcases hconsumer with ⟨-, hpulls, hdrained⟩ | ⟨hopen, -⟩
    · have hd := delivered_of_empty h hend hdrained.2
      have hcount := hd.count
      rw [hc] at hcount
      refine ⟨hd.returned, hd.count_eq h, hd.iterations_taken h, ?_⟩
      have hle : T.pulls ≤ T.total := by
        calc T.pulls ≤ count := hpulls
          _ = s.chan.log.length := hcount
          _ ≤ T.total := h.log_length_le
      exact iff_of_true ⟨hd.returned, count, sum, hc⟩ hle
    · rw [hcloses] at hopen
      cases hopen
  · rw [hc] at hconsumer
    have hd := delivered_of_empty h hend (LogQueue.front?_eq_none_iff.mp hfront)
    have hcount := hd.count
    rw [hc, log_length_of_open h hconsumer.2 hd.returned] at hcount
    refine ⟨hd.returned, hd.count_eq h, hd.iterations_taken h, ?_⟩
    refine iff_of_false (fun hfin => ?_) (Nat.not_le_of_lt (hcount ▸ hlt))
    obtain ⟨-, count', sum', hc'⟩ := hfin
    rw [hc] at hc'
    cases hc'

/-- The test with four producers, two items each, a capacity of one and a close after three
pulls. -/
theorem drained_eq_total_enqueued_four :
    (system 64 ⟨1, 4, 2, 3, true, Nat.one_pos⟩).EndsIn fun s =>
      (∀ p, ∃ results, s.producer p = .returned results) ∧
      s.consumer.count = ∑ p, (s.producer p).results.count true ∧
      (∀ p, iterations p s.chan.taken = accepted (s.producer p).results) ∧
      (s.Finished ↔ 3 ≤ 8) :=
  drained_eq_total_enqueued 64 ⟨1, 4, 2, 3, true, Nat.one_pos⟩ rfl

/-! ### The sum of what is pulled -/

private theorem sum_range_mul {M : Type*} [AddCommMonoid M] (f : ℕ → M) (n m : ℕ) :
    ∑ p ∈ Finset.range n, ∑ i ∈ Finset.range m, f (p * m + i) =
      ∑ j ∈ Finset.range (n * m), f j := by
  induction n with
  | zero => rw [Nat.zero_mul, Finset.sum_range_zero, Finset.sum_range_zero]
  | succ n ih => rw [Finset.sum_range_succ, ih, Nat.succ_mul, Finset.sum_range_add]

/-- The elements of all producers add up to the expected sum. -/
private theorem sum_value_eq_expectedSum :
    ∑ p : Fin T.nproducers, ((List.range T.items).map fun i => Element.value w (p, i)).sum =
      expectedSum w T := by
  have hone : ∀ p : Fin T.nproducers,
      ((List.range T.items).map fun i => Element.value w ((p, i) : Element T)).sum =
        ∑ i ∈ Finset.range T.items, BitVec.ofNat w (p * T.items + i) := fun p => rfl
  rw [Finset.sum_congr rfl fun p _ => hone p, expectedSum, foldl_range_add, Test.total,
    ← sum_range_mul, Fin.sum_univ_eq_sum_range
      fun p => ∑ i ∈ Finset.range T.items, BitVec.ofNat w (p * T.items + i)]

/-- **Many producers.** With any number of producers and any capacity, every run ends with all tasks
returned. No push was refused, and the consumer got all `TOTAL` elements, those of each producer in
its order; their sum is the expected one. -/
theorem pulled_sum_eq (w : ℕ) (T : Test) (hcloses : T.closes = false) (hpulls : T.pulls = T.total) :
    (system w T).EndsIn fun s =>
      s.Finished ∧
      (∀ p, (s.producer p).results = List.replicate T.items true) ∧
      (∀ p, iterations p s.chan.taken = List.range T.items) ∧
      s.consumer.count = T.total ∧ s.consumer.sum = expectedSum w T := by
  refine ⟨system_terminating w T, fun s hr hend => ?_⟩
  have h := inv_of_reachable hr
  have hconsumer := h.consumer
  rcases consumer_of_not_enabled h hend with ⟨count, sum, hc⟩ | ⟨count, sum, hc, hlt, hfront⟩
  · rw [hc] at hconsumer
    obtain ⟨hclosed, -⟩ | ⟨-, hcount, hopen⟩ := hconsumer
    · rw [hcloses] at hclosed
      cases hclosed
    · -- The consumer has pulled `TOTAL` elements, so there are no others.
      have hhead := h.received.count
      rw [hc] at hhead
      have hle : s.chan.log.length ≤ s.chan.head := by
        calc s.chan.log.length ≤ T.total := h.log_length_le
          _ = T.pulls := hpulls.symm
          _ = count := hcount.symm
          _ = s.chan.head := hhead
      have hempty : s.chan.head = s.chan.log.length := Nat.le_antisymm s.chan.head_le hle
      have hd := delivered_of_empty h hend hempty
      have hresults : ∀ p, (s.producer p).results = List.replicate T.items true := fun p => by
        obtain ⟨results, hp⟩ := hd.returned p
        rw [hp]
        exact results_of_open h hopen hp
      have htaken : ∀ p, iterations p s.chan.taken = List.range T.items := fun p => by
        rw [hd.iterations_taken h, hresults, accepted_replicate]
      refine ⟨⟨hd.returned, count, sum, hc⟩, hresults, htaken, ?_, ?_⟩
      · rw [hc]
        rw [hcount]
        exact hpulls
      · rw [h.received.sum, sum_map_iterations, ← sum_value_eq_expectedSum]
        exact Finset.sum_congr rfl fun p _ => by rw [htaken p]
  · -- All elements have been pulled, and the consumer does not ask for more.
    rw [hc] at hconsumer
    have hd := delivered_of_empty h hend (LogQueue.front?_eq_none_iff.mp hfront)
    have hcount := hd.count
    rw [hc, log_length_of_open h hconsumer.2 hd.returned, ← hpulls] at hcount
    exact absurd hlt (Nat.not_lt_of_ge hcount.ge)

/-- The test with eight producers and a capacity of one. -/
theorem pulled_sum_eq_tiny : (system 64 ⟨1, 8, 200, 1600, false, Nat.one_pos⟩).EndsIn fun s =>
    s.Finished ∧
    (∀ p, (s.producer p).results = List.replicate 200 true) ∧
    (∀ p, iterations p s.chan.taken = List.range 200) ∧
    s.consumer.count = 1600 ∧
    s.consumer.sum = expectedSum 64 ⟨1, 8, 200, 1600, false, Nat.one_pos⟩ :=
  pulled_sum_eq 64 ⟨1, 8, 200, 1600, false, Nat.one_pos⟩ rfl rfl

end MpscBounded

end TmcExamples
