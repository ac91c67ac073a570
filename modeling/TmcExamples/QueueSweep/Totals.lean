import TmcExamples.QueueSweep.Invariant

/-!
# How a sweep ends

Apart from a `try_pull` without a result every step brings a test closer to its end, and until both
tasks have returned there is such a step.
-/

namespace TmcExamples

namespace QueueSweep

variable {w : ℕ} {T : Test w} {s s' : State w} {a : Action}

/-- How far the producer is from its end. -/
def Test.producerRank (T : Test w) : Producer → ℕ
  | .loop i => 5 * (T.items - i) + 3
  | .push i k => 3 * (T.items - k) + 2 * (T.items - i) + 2
  | .draining _ => 1
  | .returned _ => 0

/-- How far the consumer is from its end, apart from the elements that it pulls. -/
def Consumer.rank : Consumer w → ℕ
  | .pulling .. => 1
  | .returned .. | .undefined => 0

private theorem rank_received_le (T : Test w) (count : ℕ) (sum e : BitVec w) :
    (T.received count sum e).rank ≤ 1 := by
  unfold Test.received
  split
  · exact Nat.zero_le _
  · exact le_rfl

/-- The rank of a state. -/
def Test.rank (T : Test w) (s : State w) : ℕ :=
  T.producerRank s.producer + s.consumer.rank + s.queue.size

/-- **Every step that is not an empty `try_pull` decreases the rank.** -/
theorem rank_step (hstride : 0 < T.stride) (h : Inv T s) (hs : Step T s a s') :
    T.rank s' < T.rank s ∨ a = .empty ∧ s' = s := by
  have hproducer := h.producer
  cases hs with
  | empty => exact Or.inr ⟨rfl, rfl⟩
  | @enter i hp hi =>
    left
    simp only [Test.rank, Test.producerRank, hp]
    omega
  | @push i k hp hk =>
    left
    rw [bulkEnd_eq_min] at hk
    simp only [Test.rank, Test.producerRank, hp, LogQueue.size_push]
    omega
  | @refused i k hp hk =>
    left
    rw [bulkEnd_eq_min] at hk
    simp only [Test.rank, Test.producerRank, hp]
    omega
  | @next i k hp hk =>
    left
    rw [hp] at hproducer
    obtain ⟨-, hi, -, hle⟩ := hproducer
    rw [bulkEnd_eq_min] at hk hle
    simp only [Test.rank, Test.producerRank, hp]
    omega
  | sentinel hp =>
    left
    simp only [Test.rank, Test.producerRank, hp, LogQueue.size_push]
    omega
  | drain hp | close hp =>
    left
    simp only [Test.rank, Test.producerRank, hp, LogQueue.size_close]
    omega
  | drained hp | finish hp =>
    left
    simp only [Test.rank, Test.producerRank, hp]
    omega
  | @pull count sum e hc hwants hfront =>
    left
    have hsize := LogQueue.size_pop (LogQueue.head_lt_of_front? hfront)
    have hle := rank_received_le T count sum e
    simp only [Test.rank, hc, Consumer.rank] at hle ⊢
    omega
  | closed hc =>
    left
    simp only [Test.rank, hc]
    split <;> simp only [Consumer.rank] <;> omega
  | loopEnd hc =>
    left
    simp only [Test.rank, hc, Consumer.rank]
    omega

/-- Both tasks have returned. -/
def State.Finished (s : State w) : Prop :=
  (∃ i, s.producer = .returned i) ∧ ∃ count sum, s.consumer = .returned count sum

/-- A consumer without a step other than an empty `try_pull` has returned, or it waits for an
element of an open queue. -/
private theorem consumer_of_stuck (h : Inv T s) (hstuck : ∀ a s', a ≠ .empty → ¬ Step T s a s') :
    (∃ count sum, s.consumer = .returned count sum) ∨
      ∃ count sum, s.consumer = .pulling count sum ∧ T.Wants count ∧
        s.queue.head = s.queue.log.length ∧ (s.queue.closed = true → T.ending = .none) := by
  have hconsumer := h.consumer
  cases hc : s.consumer with
  | returned count sum => exact Or.inl ⟨count, sum, rfl⟩
  | undefined =>
    rw [hc] at hconsumer
    exact hconsumer.elim
  | pulling count sum =>
    refine Or.inr ⟨count, sum, rfl, ?_⟩
    have hwants : T.Wants count := by
      by_contra hwants
      exact hstuck _ _ (by decide) (.loopEnd hc hwants)
    have hempty : s.queue.head = s.queue.log.length := by
      refine LogQueue.front?_eq_none_iff.mp (Option.eq_none_iff_forall_ne_some.mpr ?_)
      intro e hfront
      exact hstuck _ _ (by decide) (.pull hc hwants hfront)
    refine ⟨hwants, hempty, fun hclosed => ?_⟩
    by_contra hending
    exact hstuck _ _ (by decide) (.closed hc hending ⟨hclosed, hempty⟩)

/-- A queue from which the consumer can take nothing is empty. -/
private theorem head_eq_of_stuck (h : Inv T s) (hstuck : ∀ a s', a ≠ .empty → ¬ Step T s a s') :
    s.queue.head = s.queue.log.length := by
  rcases consumer_of_stuck h hstuck with ⟨count, sum, hc⟩ | ⟨count, sum, -, -, hempty, -⟩
  · have hconsumer := h.consumer
    rw [hc] at hconsumer
    have hlen := h.log_length
    have hle := s.queue.head_le
    have hsent := sent_le h
    rw [hconsumer.2.2.1, Test.length] at hle ⊢
    by_cases hending : T.ending = .sentinel
    · rw [if_pos hending] at hle ⊢
      split at hlen <;> omega
    · rw [if_neg fun hand => hending hand.1] at hlen
      rw [if_neg hending] at hle ⊢
      omega
  · exact hempty

/-- An empty queue has room. -/
private theorem hasRoom_of_empty (hempty : s.queue.head = s.queue.log.length) {slots : ℕ}
    (hslots : ∀ c, T.capacity = some c → slots ≤ c) : T.HasRoom s.queue slots := by
  intro c hc
  rw [LogQueue.size, hempty, Nat.sub_self, Nat.zero_add]
  exact hslots c hc

/-- A bulk fits into the queue as a whole. -/
private theorem slots_le {i k c : ℕ} (hk : i ≤ k) (hc : T.capacity = some c) : T.slots i k ≤ c := by
  have hstride := T.stride_le c hc
  unfold Test.slots
  split
  · rw [bulkEnd_eq_min]
    omega
  · exact T.capacity_pos c hc

/-- **No deadlock.** Until both tasks have returned, there is a step that is not an empty
`try_pull`. -/
theorem finished_of_stuck (h : Inv T s) (hstuck : ∀ a s', a ≠ .empty → ¬ Step T s a s') :
    s.Finished := by
  have hempty := head_eq_of_stuck h hstuck
  have hreturned : ∃ i, s.producer = .returned i := by
    cases hp : s.producer with
    | returned i => exact ⟨i, rfl⟩
    | draining i =>
      have hended : s.producer.Ended := by
        rw [hp]
        trivial
      have hproducer := h.producer
      rw [hp] at hproducer
      have hclosed := h.closed.mpr ⟨Or.inl hproducer.2, hended⟩
      exact absurd (.drained hp ⟨hclosed, hempty⟩) (hstuck _ _ (by decide))
    | push i k =>
      have hopen := h.open_of_not_ended (by rw [hp]; exact id)
      have hproducer := h.producer
      rw [hp] at hproducer
      have hroom : T.HasRoom s.queue (T.slots i k) :=
        hasRoom_of_empty hempty fun c hc => slots_le hproducer.2.2.1 hc
      by_cases hk : k < T.bulkEnd i
      · exact absurd (.push hp hk hopen hroom) (hstuck _ _ (by decide))
      · exact absurd (.next hp hk) (hstuck _ _ (by decide))
    | loop i =>
      have hopen := h.open_of_not_ended (by rw [hp]; exact id)
      by_cases hi : i < T.items
      · exact absurd (.enter hp hi) (hstuck _ _ (by decide))
      · cases hending : T.ending with
        | sentinel =>
          have hroom := hasRoom_of_empty hempty T.capacity_pos
          exact absurd (.sentinel hp hi hending hopen hroom) (hstuck _ _ (by decide))
        | drain => exact absurd (.drain hp hi hending) (hstuck _ _ (by decide))
        | close => exact absurd (.close hp hi hending) (hstuck _ _ (by decide))
        | none => exact absurd (.finish hp hi hending) (hstuck _ _ (by decide))
  refine ⟨hreturned, (consumer_of_stuck h hstuck).resolve_right ?_⟩
  -- The producer has said that there is nothing left.
  rintro ⟨count, sum, hc, hwants, -, hopen⟩
  obtain ⟨i, hp⟩ := hreturned
  have hended : s.producer.Ended := by
    rw [hp]
    trivial
  have hconsumer := h.consumer
  rw [hc] at hconsumer
  have hlen := h.log_length
  rw [← hempty, ← hconsumer.1, sent_of_ended hended] at hlen
  cases hending : T.ending with
  | sentinel =>
    rw [if_pos ⟨hending, hended⟩] at hlen
    have hle := hconsumer.2.1
    omega
  | drain =>
    have hnone := hopen (h.closed.mpr ⟨Or.inl hending, hended⟩)
    rw [hending] at hnone
    cases hnone
  | close =>
    have hnone := hopen (h.closed.mpr ⟨Or.inr hending, hended⟩)
    rw [hending] at hnone
    cases hnone
  | none =>
    rw [if_neg fun hand => by rw [hending] at hand; cases hand.1] at hlen
    have hlt := hwants hending
    omega

private theorem not_step_of_finished (hfin : s.Finished) : ¬ Step T s a s' := by
  obtain ⟨⟨i, hp⟩, count, sum, hc⟩ := hfin
  intro hs
  cases hs with
  | enter h | push h | refused h | next h | sentinel h | drain h | drained h | close h | finish h =>
    rw [hp] at h
    cases h
  | pull h | empty h | closed h | loopEnd h =>
    rw [hc] at h
    cases h

/-- What the test checks, and that the elements have come in their order. -/
structure Test.Complete (T : Test w) (s : State w) : Prop where
  producer : ∃ i, s.producer = .returned i ∧ (i = T.items ↔ T.stride ∣ T.items)
  consumer : s.consumer = .returned T.items T.expectedSum
  taken : s.queue.taken = (List.range T.items).map T.value ++
    if T.ending = .sentinel then [sentinel w] else []

private theorem complete_of_finished (h : Inv T s) (hfin : s.Finished) : T.Complete s := by
  obtain ⟨⟨i, hp⟩, count, sum, hc⟩ := hfin
  have hproducer := h.producer
  rw [hp] at hproducer
  have hended : s.producer.Ended := by
    rw [hp]
    trivial
  have hconsumer := h.consumer
  rw [hc] at hconsumer
  obtain ⟨rfl, rfl, hhead, -⟩ := hconsumer
  have hlog : s.queue.log = (List.range T.items).map T.value ++
      if T.ending = .sentinel then [sentinel w] else [] := by
    rw [h.log, Test.log, sent_of_ended hended]
    congr 1
    by_cases hending : T.ending = .sentinel
    · rw [if_pos ⟨hending, hended⟩, if_pos hending]
    · rw [if_neg fun hand => hending hand.1, if_neg hending]
  refine ⟨⟨i, hp, hproducer.eq_items_iff⟩, hc, ?_⟩
  rw [LogQueue.taken, ← hlog, List.take_of_length_le]
  rw [hhead, hlog, Test.length, List.length_append, List.length_map, List.length_range]
  split <;> exact le_rfl

private theorem complete_of_not_enabled (hstride : 0 < T.stride) (hr : T.system.Reachable s)
    (hend : ¬ T.system.Enabled s) : T.Complete s :=
  have h := inv_of_reachable hstride hr
  complete_of_finished h (finished_of_stuck h fun a s' _ hs => hend ⟨a, s', hs⟩)

/-- The producer of the test with bulks has put in as many elements as the consumer counts. -/
example {s : State 64}
    (hr : (bulk 64 1000 none false (fun _ h => by cases h)).system.Reachable s)
    (hend : ¬ (bulk 64 1000 none false (fun _ h => by cases h)).system.Enabled s) :
    s.producer = .returned 1000 := by
  obtain ⟨i, hp, hi⟩ := (complete_of_not_enabled (by decide) hr hend).producer
  rw [hp, hi.mpr ⟨10, rfl⟩]
  rfl

/-- With `pull`, the elements that are left bound the run. -/
theorem system_terminating (hstride : 0 < T.stride) (htry : T.tryPull = false) :
    T.system.Terminating :=
  LTS.terminating_of_rank T.rank fun s a s' hr hs => by
    rcases rank_step hstride (inv_of_reachable hstride hr) hs with hlt | ⟨rfl, -⟩
    · exact hlt
    · cases hs with
      | empty _ _ htrue =>
        rw [htry] at htrue
        cases htrue

/-- In an infinite run the consumer asks an empty queue forever, while another step is possible. -/
private theorem starved_of_infinite (hstride : 0 < T.stride) {f : ℕ → State w}
    (h0 : f 0 = T.system.init) (hf : ∀ n, ∃ a, Step T (f n) a (f (n + 1))) :
    ∃ m, ∀ n, m ≤ n → f n = f m ∧ ∃ a s', a ≠ .empty ∧ Step T (f n) a s' := by
  have hreach := LTS.reachable_of_infinite (T := T.system) h0 hf
  obtain ⟨m, hm⟩ := LTS.eventually_const_of_rank (T := T.system) T.rank
    (fun s a s' hr hs =>
      (rank_step hstride (inv_of_reachable hstride hr) hs).imp_right And.right) h0 hf
  refine ⟨m, fun n hn => ⟨hm n hn, ?_⟩⟩
  by_contra hno
  obtain ⟨a, hs⟩ := hf n
  exact not_step_of_finished (finished_of_stuck (inv_of_reachable hstride (hreach n))
    fun b s' hb hs' => hno ⟨b, s', hb, hs'⟩) hs

/-- **The sweeps.** For any number of elements, any elements, any capacity and any way to end, with
bulks of any positive length up to the capacity: no element is refused, the consumer never looks
into an empty scope, and where no step is left it has returned the number and the sum of all
elements, which it got in their order. The producer returns `NITEMS` if and only if that is a
multiple of the length of a bulk. With `pull` every run ends; with `try_pull`, a run that does not
end leaves a step of another kind aside forever. With empty bulks, those of less than ten elements,
the producer never returns. -/
theorem queue_sweep_totals (T : Test w) :
    (0 < T.stride →
      (∀ s, T.system.Reachable s →
        s.refused = 0 ∧ s.consumer ≠ .undefined ∧ (¬ T.system.Enabled s → T.Complete s)) ∧
      (T.tryPull = false → T.system.Terminating) ∧
      ∀ f : ℕ → State w, f 0 = T.system.init → (∀ n, ∃ a, Step T (f n) a (f (n + 1))) →
        ∃ m, ∀ n, m ≤ n → f n = f m ∧ ∃ a s', a ≠ .empty ∧ Step T (f n) a s') ∧
    (T.stride = 0 → 0 < T.items →
      ∀ s, T.system.Reachable s → ∀ i, s.producer ≠ .returned i) := by
  refine ⟨fun hstride => ⟨fun s hr => ?_, system_terminating hstride, fun f =>
    starved_of_infinite hstride⟩, fun hstride hitems s hr i hp => ?_⟩
  · have h := inv_of_reachable hstride hr
    refine ⟨h.refused, fun hc => ?_, complete_of_not_enabled hstride hr⟩
    have hconsumer := h.consumer
    rw [hc] at hconsumer
    exact hconsumer
  · rcases producer_of_stride_eq_zero hstride hitems hr with he | he <;> rw [hp] at he <;> cases he

/-- A bulk of less than ten elements is empty. -/
example : (bulk 64 9 none false (fun _ h => by cases h)).stride = 0 := rfl

end QueueSweep

end TmcExamples
