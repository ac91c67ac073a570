import TmcExamples.QueueSweep.Model

/-!
# What the consumer gets

The log of the queue is determined by the program point of the producer (`Test.log`), and what the
consumer has by how many elements it has taken out. So the consumer gets the elements in their
order, and it gets all of them before it learns of the end.
-/

namespace TmcExamples

namespace QueueSweep

variable {w : ℕ} {T : Test w} {s s' : State w} {a : Action}

/-! ### The producer -/

/-- How many of the elements have been put into the queue. -/
def Test.sent (T : Test w) : Producer → ℕ
  | .loop i => min i T.items
  | .push _ k => k
  | .draining _ | .returned _ => T.items

/-- The producer is behind its loop. -/
def Producer.Ended : Producer → Prop
  | .loop _ | .push _ _ => False
  | .draining _ | .returned _ => True

instance : DecidablePred Producer.Ended := fun p => by
  cases p <;> unfold Producer.Ended <;> infer_instance

/-- The value of `i` behind the loop: the first multiple of the length of a bulk that is not below
`NITEMS`. -/
structure Test.Stop (T : Test w) (i : ℕ) : Prop where
  dvd : T.stride ∣ i
  le : T.items ≤ i
  lt : i < T.items + T.stride

/-- What the program point of the producer says about its `i` and its `k`. -/
def Test.ProducerInv (T : Test w) : Producer → Prop
  | .loop i => T.stride ∣ i ∧ i < T.items + T.stride
  | .push i k => T.stride ∣ i ∧ i < T.items ∧ i ≤ k ∧ k ≤ T.bulkEnd i
  | .draining i => T.Stop i ∧ T.ending = .drain
  | .returned i => T.Stop i

/-- The last bulk is cut off at the number of the elements. -/
theorem bulkEnd_eq_min (T : Test w) (i : ℕ) : T.bulkEnd i = min (i + T.stride) T.items := by
  unfold Test.bulkEnd
  split <;> omega

/-- The producer returns `NITEMS` if and only if it is divided into bulks without a rest. -/
theorem Test.Stop.eq_items_iff {i : ℕ} (h : T.Stop i) : i = T.items ↔ T.stride ∣ T.items := by
  refine ⟨fun he => he ▸ h.dvd, fun hdvd => ?_⟩
  have hle := h.le
  have hlt := h.lt
  have hrest : T.stride ∣ i - T.items := Nat.dvd_sub h.dvd hdvd
  have hzero := Nat.eq_zero_of_dvd_of_lt hrest (by omega)
  omega

private theorem stop_of_loop {i : ℕ} (h : T.ProducerInv (.loop i)) (hi : ¬ i < T.items) :
    T.Stop i :=
  ⟨h.1, Nat.le_of_not_lt hi, h.2⟩

/-- All that the producer has put into the queue. -/
def Test.log (T : Test w) (p : Producer) : List (BitVec w) :=
  (List.range (T.sent p)).map T.value ++
    if T.ending = .sentinel ∧ p.Ended then [sentinel w] else []

/-- The log of a producer in its loop. -/
private theorem log_of_not_ended {p : Producer} (hp : ¬ p.Ended) :
    T.log p = (List.range (T.sent p)).map T.value := by
  rw [Test.log, if_neg fun h => hp h.2, List.append_nil]

private theorem log_push {i k : ℕ} :
    T.log (.push i (k + 1)) = T.log (.push i k) ++ [T.value k] := by
  rw [log_of_not_ended id, log_of_not_ended id, Test.sent, Test.sent, List.range_succ,
    List.map_append, List.map_singleton]

/-- Behind its loop the producer has sent everything. -/
theorem sent_of_ended {p : Producer} (hp : p.Ended) : T.sent p = T.items := by
  cases p with
  | loop | push => exact hp.elim
  | draining | returned => rfl

/-- The end of the loop changes nothing in a log without a sentinel. -/
private theorem log_ended {i : ℕ} {p : Producer} (hsent : T.sent p = T.items) (hi : ¬ i < T.items)
    (hending : T.ending ≠ .sentinel) : T.log p = T.log (.loop i) := by
  rw [log_of_not_ended (p := .loop i) id, Test.log, if_neg fun h => hending h.1, List.append_nil,
    hsent, Test.sent, min_eq_right (Nat.le_of_not_lt hi)]

/-! ### The consumer -/

/-- The sum of the first `n` elements. -/
def Test.sumBelow (T : Test w) (n : ℕ) : BitVec w :=
  (List.range n).foldl (fun sum i => sum + T.value i) 0

/-- `expectedSum` -/
def Test.expectedSum (T : Test w) : BitVec w := T.sumBelow T.items

private theorem sumBelow_succ (T : Test w) (n : ℕ) :
    T.sumBelow (n + 1) = T.sumBelow n + T.value n := by
  rw [Test.sumBelow, List.range_succ, List.foldl_append]
  rfl

/-- How long the log is in the end. -/
def Test.length (T : Test w) : ℕ := T.items + if T.ending = .sentinel then 1 else 0

/-- What the consumer has counted and added up. When it has returned, it has taken all there is, and
knows that the producer is behind its loop unless it counts itself. -/
def Test.ConsumerInv (T : Test w) (head : ℕ) (p : Producer) : Consumer w → Prop
  | .pulling count sum => count = head ∧ count ≤ T.items ∧ sum = T.sumBelow count
  | .returned count sum =>
    count = T.items ∧ sum = T.expectedSum ∧ head = T.length ∧ (T.ending ≠ .none → p.Ended)
  | .undefined => False

/-- The invariant of a test. -/
structure Inv (T : Test w) (s : State w) : Prop where
  producer : T.ProducerInv s.producer
  log : s.queue.log = T.log s.producer
  closed : s.queue.closed = true ↔ (T.ending = .drain ∨ T.ending = .close) ∧ s.producer.Ended
  consumer : T.ConsumerInv s.queue.head s.producer s.consumer
  refused : s.refused = 0

theorem inv_init (hstride : 0 < T.stride) : Inv T T.system.init where
  producer := ⟨dvd_zero _, Nat.lt_add_left _ hstride⟩
  log := by
    rw [log_of_not_ended (p := T.system.init.producer) id]
    change [] = (List.range (min 0 T.items)).map T.value
    rw [Nat.zero_min]
    rfl
  closed := iff_of_false (fun h => by cases h) fun h => h.2
  consumer := ⟨rfl, Nat.zero_le _, rfl⟩
  refused := rfl

/-- The producer never sends more than there is. -/
theorem sent_le (h : Inv T s) : T.sent s.producer ≤ T.items := by
  have hp := h.producer
  cases hs : s.producer with
  | loop i => exact Nat.min_le_right _ _
  | push i k =>
    rw [hs] at hp
    have hk := hp.2.2.2
    rw [bulkEnd_eq_min] at hk
    calc k ≤ min (i + T.stride) T.items := hk
      _ ≤ T.items := Nat.min_le_right _ _
  | draining i | returned i => exact le_rfl

/-- What is in the queue besides the elements is the sentinel. -/
theorem Inv.log_length (h : Inv T s) :
    s.queue.log.length =
      T.sent s.producer + if T.ending = .sentinel ∧ s.producer.Ended then 1 else 0 := by
  rw [h.log, Test.log, List.length_append, List.length_map, List.length_range]
  congr 1
  split <;> rfl

/-- The queue is open as long as the producer is in its loop. -/
theorem Inv.open_of_not_ended (h : Inv T s) (hp : ¬ s.producer.Ended) : s.queue.closed = false := by
  rw [Bool.eq_false_iff]
  exact fun hclosed => hp (h.closed.mp hclosed).2

/-- What the consumer finds at the front: the element that it expects, or the sentinel when it has
all elements. -/
theorem Inv.front (h : Inv T s) {count : ℕ} {sum e : BitVec w}
    (hc : s.consumer = .pulling count sum) (hfront : s.queue.front? = some e) :
    count < T.items ∧ e = T.value count ∨
      count = T.items ∧ T.ending = .sentinel ∧ s.producer.Ended ∧ e = sentinel w := by
  have hconsumer := h.consumer
  rw [hc] at hconsumer
  have hsent := sent_le h
  rw [LogQueue.front?, ← hconsumer.1, h.log, Test.log] at hfront
  by_cases hlt : count < T.sent s.producer
  · rw [List.getElem?_append_left (by simpa using hlt), List.getElem?_map,
      List.getElem?_range hlt] at hfront
    exact Or.inl ⟨hlt.trans_le hsent, (Option.some.inj hfront).symm⟩
  · rw [List.getElem?_append_right (by simpa using hlt), List.length_map,
      List.length_range] at hfront
    split at hfront
    · rename_i hand
      have hall : T.sent s.producer = T.items := sent_of_ended hand.2
      have hcount := hconsumer.2.1
      have hzero : count - T.sent s.producer = 0 := by omega
      rw [hzero] at hfront
      exact Or.inr ⟨by omega, hand.1, hand.2, (Option.some.inj hfront).symm⟩
    · rw [List.getElem?_nil] at hfront
      cases hfront

/-! ### The steps of the producer -/

section Producer

variable {i k : ℕ} {p : Producer}

/-- A step of the producer that the consumer has not waited for. -/
theorem Test.ConsumerInv.producer {head : ℕ} {p p' : Producer} {c : Consumer w}
    (h : T.ConsumerInv head p c) (hp : p.Ended → p'.Ended) : T.ConsumerInv head p' c := by
  cases c with
  | pulling => exact h
  | returned => exact ⟨h.1, h.2.1, h.2.2.1, fun he => hp (h.2.2.2 he)⟩
  | undefined => exact h

/-- The producer goes on without the queue. -/
theorem Inv.move (h : Inv T s) (hp : T.ProducerInv p) (hlog : T.log s.producer = T.log p)
    (hended : p.Ended ↔ s.producer.Ended) : Inv T { s with producer := p } where
  producer := hp
  log := by rw [h.log, hlog]
  closed := by rw [h.closed, hended]
  consumer := h.consumer.producer hended.mpr
  refused := h.refused

/-- The producer starts on its next bulk. -/
theorem Inv.enter (h : Inv T s) (hp : s.producer = .loop i) (hi : i < T.items) :
    Inv T { s with producer := .push i i } := by
  have hproducer := h.producer
  rw [hp] at hproducer
  refine h.move ⟨hproducer.1, hi, le_rfl, ?_⟩ ?_ (by rw [hp]; exact Iff.rfl)
  · rw [bulkEnd_eq_min]
    exact le_min (Nat.le_add_right _ _) hi.le
  · rw [hp, log_of_not_ended id, log_of_not_ended id, Test.sent, Test.sent, min_eq_left hi.le]

/-- The bulk has been pushed and the index goes on by its length. -/
theorem Inv.next (h : Inv T s) (hp : s.producer = .push i k) (hk : ¬ k < T.bulkEnd i) :
    Inv T { s with producer := .loop (i + T.stride) } := by
  have hproducer := h.producer
  rw [hp] at hproducer
  obtain ⟨hdvd, hi, -, hle⟩ := hproducer
  have hkend : k = min (i + T.stride) T.items := by
    rw [bulkEnd_eq_min] at hk hle
    omega
  refine h.move ⟨Nat.dvd_add hdvd (Nat.dvd_refl _), Nat.add_lt_add_right hi _⟩ ?_
    (by rw [hp]; exact Iff.rfl)
  rw [hp, log_of_not_ended id, log_of_not_ended id, Test.sent, Test.sent, hkend]

theorem Inv.drained (h : Inv T s) (hp : s.producer = .draining i) :
    Inv T { s with producer := .returned i } := by
  have hproducer := h.producer
  rw [hp] at hproducer
  refine h.move hproducer.1 ?_ (by rw [hp]; exact Iff.rfl)
  rw [hp]
  rfl

/-- The elements of a bulk come into the queue in their order. -/
theorem Inv.push (h : Inv T s) (hp : s.producer = .push i k) (hk : k < T.bulkEnd i) :
    Inv T { s with producer := .push i (k + 1), queue := s.queue.push (T.value k) } := by
  obtain ⟨hproducer, hlog, hclosed, hconsumer, hrefused⟩ := id h
  rw [hp] at hproducer hlog hclosed hconsumer
  refine ⟨⟨hproducer.1, hproducer.2.1, Nat.le_succ_of_le hproducer.2.2.1, hk⟩, ?_, hclosed,
    hconsumer.producer id, hrefused⟩
  rw [LogQueue.push_log, hlog, log_push]

/-- An open queue refuses nothing. -/
private theorem Inv.not_refused (h : Inv T s) (hp : s.producer = .push i k)
    (hclosed : s.queue.closed = true) : False := by
  have hopen := h.open_of_not_ended (by rw [hp]; exact id)
  rw [hclosed] at hopen
  cases hopen

/-- The sentinel is pushed behind all elements. -/
theorem Inv.sentinel (h : Inv T s) (hp : s.producer = .loop i) (hi : ¬ i < T.items)
    (hending : T.ending = .sentinel) :
    Inv T { s with producer := .returned i, queue := s.queue.push (QueueSweep.sentinel w) } := by
  have hopen := h.open_of_not_ended (by rw [hp]; exact id)
  obtain ⟨hproducer, hlog, -, hconsumer, hrefused⟩ := id h
  rw [hp] at hproducer hlog hconsumer
  refine ⟨stop_of_loop hproducer hi, ?_, iff_of_false ?_ ?_, hconsumer.producer False.elim,
    hrefused⟩
  · rw [LogQueue.push_log, hlog, log_of_not_ended id, Test.log, if_pos ⟨hending, trivial⟩,
      Test.sent, Test.sent, min_eq_right (Nat.le_of_not_lt hi)]
  · rw [LogQueue.push_closed, hopen]
    exact Bool.false_ne_true
  · rintro ⟨he | he, -⟩ <;> rw [hending] at he <;> cases he

/-- The other ends of the loop: the queue is closed or left as it is. -/
private theorem Inv.endLoop (h : Inv T s) (hp : s.producer = .loop i) (hi : ¬ i < T.items)
    (hending : T.ending ≠ .sentinel) (hinv : T.ProducerInv p) (hended : p.Ended)
    {q : LogQueue (BitVec w)} (hlog : q.log = s.queue.log) (hhead : q.head = s.queue.head)
    (hclosed : q.closed = true ↔ T.ending = .drain ∨ T.ending = .close) :
    Inv T { s with producer := p, queue := q } := by
  refine ⟨hinv, ?_, hclosed.trans (and_iff_left hended).symm, ?_, h.refused⟩
  · change q.log = T.log p
    rw [hlog, h.log, hp, log_ended (sent_of_ended hended) hi hending]
  · change T.ConsumerInv q.head p s.consumer
    rw [hhead]
    exact h.consumer.producer fun _ => hended

theorem Inv.finish (h : Inv T s) (hp : s.producer = .loop i) (hi : ¬ i < T.items)
    (hending : T.ending = .none) : Inv T { s with producer := .returned i } := by
  have hopen := h.open_of_not_ended (by rw [hp]; exact id)
  have hproducer := h.producer
  rw [hp] at hproducer
  refine h.endLoop (p := .returned i) hp hi (by rw [hending]; decide)
    (stop_of_loop hproducer hi) trivial rfl rfl ?_
  rw [hopen, hending]
  decide

/-- The queue is closed behind all elements. -/
theorem Inv.close (h : Inv T s) (hp : s.producer = .loop i) (hi : ¬ i < T.items)
    (hending : T.ending = .drain ∨ T.ending = .close) (hinv : T.ProducerInv p)
    (hended : p.Ended) : Inv T { s with producer := p, queue := s.queue.close } := by
  refine h.endLoop hp hi ?_ hinv hended rfl rfl (iff_of_true rfl hending)
  rcases hending with he | he <;> rw [he] <;> decide

end Producer

/-! ### The steps of the consumer -/

section Consumer

variable {count : ℕ} {sum : BitVec w}

/-- The consumer takes the front element, which may be the sentinel. -/
theorem Inv.pull (h : Inv T s) {e : BitVec w} (hc : s.consumer = .pulling count sum)
    (hfront : s.queue.front? = some e) :
    Inv T { s with consumer := T.received count sum e, queue := s.queue.pop } := by
  have hhead := LogQueue.pop_head (LogQueue.head_lt_of_front? hfront)
  have hcase := h.front hc hfront
  have hconsumer := h.consumer
  rw [hc] at hconsumer
  refine ⟨h.producer, h.log, h.closed, ?_, h.refused⟩
  change T.ConsumerInv s.queue.pop.head s.producer (T.received count sum e)
  rw [hhead, ← hconsumer.1]
  rcases hcase with ⟨hlt, rfl⟩ | ⟨heq, hending, hended, rfl⟩
  · rw [Test.received, if_neg fun hand => T.value_ne hand.1 count hlt hand.2]
    refine ⟨rfl, hlt, ?_⟩
    rw [sumBelow_succ, hconsumer.2.2]
  · rw [Test.received, if_pos ⟨hending, rfl⟩]
    refine ⟨heq, ?_, ?_, fun _ => hended⟩
    · rw [hconsumer.2.2, heq, Test.expectedSum]
    · rw [heq, Test.length, if_pos hending]

/-- The queue has been closed behind all elements, and there is no sentinel. -/
theorem Inv.pullClosed (h : Inv T s) (hc : s.consumer = .pulling count sum)
    (hdrained : s.queue.Drained) :
    Inv T { s with
      consumer := if T.ending = .sentinel then .undefined else .returned count sum } := by
  obtain ⟨hends, hended⟩ := h.closed.mp hdrained.1
  have hnot : T.ending ≠ .sentinel := by
    rcases hends with he | he <;> rw [he] <;> decide
  have hlen := h.log_length
  rw [if_neg fun hand => hnot hand.1, add_zero] at hlen
  have hall : T.sent s.producer = T.items := sent_of_ended hended
  have hconsumer := h.consumer
  rw [hc] at hconsumer
  have hcount : count = T.items := by rw [hconsumer.1, hdrained.2, hlen, hall]
  refine ⟨h.producer, h.log, h.closed, ?_, h.refused⟩
  rw [if_neg hnot]
  refine ⟨hcount, ?_, ?_, fun _ => hended⟩
  · rw [hconsumer.2.2, hcount, Test.expectedSum]
  · rw [hdrained.2, hlen, hall, Test.length, if_neg hnot, add_zero]

/-- A consumer that counts has enough. -/
theorem Inv.loopEnd (h : Inv T s) (hc : s.consumer = .pulling count sum)
    (hwants : ¬ T.Wants count) : Inv T { s with consumer := .returned count sum } := by
  have hconsumer := h.consumer
  rw [hc] at hconsumer
  have hending : T.ending = .none ∧ ¬ count < T.items := by
    simpa only [Test.Wants, Classical.not_imp] using hwants
  have hcount : count = T.items := Nat.le_antisymm hconsumer.2.1 (Nat.le_of_not_lt hending.2)
  refine ⟨h.producer, h.log, h.closed, ⟨hcount, ?_, ?_, fun he => absurd hending.1 he⟩, h.refused⟩
  · rw [hconsumer.2.2, hcount, Test.expectedSum]
  · rw [← hconsumer.1, hcount, Test.length, if_neg fun he => by rw [hending.1] at he; cases he]
    exact (add_zero _).symm

end Consumer

/-- Every step keeps the account of the elements. -/
theorem inv_step (h : Inv T s) (hs : Step T s a s') : Inv T s' := by
  have hproducer := h.producer
  cases hs with
  | enter hp hi => exact h.enter hp hi
  | push hp hk => exact h.push hp hk
  | refused hp _ hclosed => exact (h.not_refused hp hclosed).elim
  | next hp hk => exact h.next hp hk
  | sentinel hp hi hending => exact h.sentinel hp hi hending
  | drain hp hi hending =>
    rw [hp] at hproducer
    exact h.close hp hi (.inl hending) ⟨stop_of_loop hproducer hi, hending⟩ trivial
  | drained hp => exact h.drained hp
  | close hp hi hending =>
    rw [hp] at hproducer
    exact h.close hp hi (.inr hending) (stop_of_loop hproducer hi) trivial
  | finish hp hi hending => exact h.finish hp hi hending
  | pull hc _ hfront => exact h.pull hc hfront
  | empty => exact h
  | closed hc _ hdrained => exact h.pullClosed hc hdrained
  | loopEnd hc hwants => exact h.loopEnd hc hwants

theorem inv_of_reachable (hstride : 0 < T.stride) (h : T.system.Reachable s) : Inv T s :=
  h.induct (inv_init hstride) fun _ _ _ _ hinv hs => inv_step hinv hs

/-- Where the bulks are empty, the loop of the producer never ends. -/
theorem producer_of_stride_eq_zero (hstride : T.stride = 0) (hitems : 0 < T.items)
    (h : T.system.Reachable s) : s.producer = .loop 0 ∨ s.producer = .push 0 0 := by
  have hzero : T.bulkEnd 0 = 0 := by
    rw [bulkEnd_eq_min, hstride]
    exact Nat.zero_min _
  refine h.induct (P := fun s => s.producer = .loop 0 ∨ s.producer = .push 0 0) (.inl rfl) ?_
  intro s a s' _ ih hs
  cases hs with
  | enter hp =>
    rw [hp] at ih
    obtain rfl := Producer.loop.inj (ih.resolve_right nofun)
    exact .inr rfl
  | push hp hk | refused hp hk =>
    rw [hp] at ih
    obtain ⟨rfl, rfl⟩ := Producer.push.inj (ih.resolve_left nofun)
    rw [hzero] at hk
    cases hk
  | next hp =>
    rw [hp] at ih
    obtain ⟨rfl, rfl⟩ := Producer.push.inj (ih.resolve_left nofun)
    rw [hstride]
    exact .inl rfl
  | sentinel hp hi | drain hp hi | close hp hi | finish hp hi =>
    rw [hp] at ih
    obtain rfl := Producer.loop.inj (ih.resolve_right nofun)
    exact absurd hitems hi
  | drained hp =>
    rw [hp] at ih
    rcases ih with he | he <;> cases he
  | pull | empty | closed | loopEnd => exact ih

end QueueSweep

end TmcExamples
