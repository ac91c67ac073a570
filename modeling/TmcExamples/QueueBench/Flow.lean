import TmcExamples.QueueBench.Model

/-!
# What flows through the queue of the benchmark

`Inv` says where the tasks are at each program point of the main task, and that nothing is lost on
the way: what has been posted and what the producers have left are the numbers below `NELEMS`, and
the consumer has counted and added up what it has pulled. Its count does not wrap, because no
more is pulled than there is.
-/

namespace TmcExamples

namespace QueueBench

open ChanBench (Bench Failure countAndSum sum_map_countAndSum)

variable {w : ℕ} {B : Bench w} {pulling : Pulling} {s s' : State B} {a : Action B}

/-! ### The invariant -/

/-- Where a producer may be. -/
def Main.ProducerAt : Main → Producer → Prop
  | .fork, p | .spawn, p => p = .unstarted
  | .awaitProducers, p => p = .returned ∨ ∃ i, p = .running i
  | _, p => p = .returned

/-- Where the consumer may be. -/
def Main.ConsumerAt : Main → Consumer w → Prop
  | .fork, c => c = .unstarted
  | .checkCount, c | .checkSum, c | .finished, c => ∃ count sum, c = .returned count sum
  | _, c => c ≠ .unstarted

/-- The elements that producer `p` has yet to post. -/
def rest (B : Bench w) (p : ℕ) : Producer → Multiset (BitVec w)
  | .unstarted => B.elements p 0
  | .running done => B.elements p done
  | .returned => 0

/-- The elements that the producers have yet to post. -/
def State.rest (s : State B) : Multiset (BitVec w) :=
  ∑ p : Fin B.prodCount.toNat, QueueBench.rest B p (s.producer p)

/-- What the consumer has counted and added up. -/
def Consumer.share (c : Consumer w) : ℕ × BitVec w := (c.count.toNat, c.sum)

/-- The invariant of the benchmark. -/
structure Inv (s : State B) : Prop where
  opened : s.queue.closed = false
  producer : ∀ p, s.main.ProducerAt (s.producer p)
  consumer : s.main.ConsumerAt s.consumer
  flow : Conserved countAndSum B.allElements s.queue s.rest s.consumer.share
  counted : ∀ count sum, s.consumer = .returned count sum → count = B.nelems

theorem inv_init (B : Bench w) (pulling : Pulling) : Inv (system B pulling).init where
  opened := rfl
  producer _ := rfl
  consumer := rfl
  flow := by
    have hrest : (system B pulling).init.rest = B.allElements := B.sum_elements
    rw [hrest]
    exact .empty _ _
  counted _ _ h := by cases h

/-- There are `NELEMS` elements. -/
theorem card_allElements (B : Bench w) : B.allElements.card = B.nelems.toNat :=
  card_rangeItems _ _ _

/-- The consumer has counted and added up what has been taken out. -/
private theorem Inv.share_eq (h : Inv s) :
    s.consumer.share = (s.queue.taken.length, s.queue.taken.sum) := by
  rw [← h.flow.received, ← Multiset.sum_coe, ← Multiset.map_coe, sum_map_countAndSum,
    Multiset.coe_card, Multiset.sum_coe]

/-- The count of the consumer is the number of the elements taken, without a wrap-around. -/
theorem Inv.count_eq (h : Inv s) : s.consumer.count.toNat = s.queue.taken.length :=
  congrArg Prod.fst h.share_eq

theorem Inv.sum_eq (h : Inv s) : s.consumer.sum = s.queue.taken.sum := congrArg Prod.snd h.share_eq

/-- No more is counted than there is. -/
theorem Inv.count_le (h : Inv s) : s.consumer.count.toNat ≤ B.nelems.toNat := by
  rw [h.count_eq, ← card_allElements]
  exact h.flow.taken_length_le

/-- A consumer that pulls an element adds it to its share. -/
private theorem share_pulled {count sum data : BitVec w} (h : count < B.nelems) :
    (Consumer.running (count + 1) (sum + data)).share =
      (Consumer.running count sum).share + countAndSum data := by
  have hlt : count.toNat + 1 < 2 ^ w := (Nat.succ_le_of_lt h).trans_lt B.nelems.isLt
  have hlt₁ : 1 < 2 ^ w := by omega
  have hone : (1 : BitVec w).toNat = 1 := Nat.mod_eq_of_lt hlt₁
  have hcount : (count + 1).toNat = count.toNat + 1 := by
    rw [BitVec.toNat_add, hone, Nat.mod_eq_of_lt hlt]
  exact Prod.ext hcount rfl

/-- What the producers have left when one of them has made a step. -/
private theorem rest_update {p : Fin B.prodCount.toNat} {x : Producer}
    (hs : s'.producer = Function.update s.producer p x) :
    s'.rest + QueueBench.rest B p (s.producer p) = s.rest + QueueBench.rest B p x := by
  rw [State.rest, hs]
  exact sum_update_apply_add (Finset.mem_univ p) s.producer x
    fun q : Fin B.prodCount.toNat => QueueBench.rest B q

/-- A producer runs while the main task awaits the producers. -/
private theorem Inv.main_of_running (h : Inv s) {p : Fin B.prodCount.toNat} {i : ℕ}
    (hp : s.producer p = .running i) : s.main = .awaitProducers := by
  have hat := h.producer p
  rw [hp] at hat
  cases hm : s.main with
  | awaitProducers => rfl
  | _ =>
    rw [hm] at hat
    cases hat

/-- The consumer runs before the main task has joined it. -/
private theorem Inv.consumerAt_of_running (h : Inv s) {count sum : BitVec w}
    (hc : s.consumer = .running count sum) {c : Consumer w} (hne : c ≠ .unstarted) :
    s.main.ConsumerAt c := by
  have hat := h.consumer
  rw [hc] at hat
  cases hm : s.main with
  | fork | checkCount | checkSum | finished =>
    rw [hm] at hat
    simp [Main.ConsumerAt] at hat
  | spawn | awaitProducers | awaitConsumers => exact hne

/-- A step of the main task that the other tasks do not see. -/
private theorem Inv.move_main (h : Inv s) {m₀ m : Main} (hm : s.main = m₀)
    (hproducer : ∀ p, m₀.ProducerAt (s.producer p) → m.ProducerAt (s.producer p))
    (hconsumer : m₀.ConsumerAt s.consumer → m.ConsumerAt s.consumer) (out : List (Failure w)) :
    Inv { s with main := m, output := out } where
  opened := h.opened
  producer p := hproducer p (hm ▸ h.producer p)
  consumer := hconsumer (hm ▸ h.consumer)
  flow := h.flow
  counted := h.counted

/-- Every step keeps the account of the elements. -/
theorem inv_step (h : Inv s) (hs : Step B pulling s a s') : Inv s' := by
  cases hs with
  | fork hm =>
    have hproducer := h.producer
    have hconsumer := h.consumer
    have hflow := h.flow
    rw [hm] at hproducer hconsumer
    rw [hconsumer] at hflow
    exact ⟨h.opened, hproducer, (fun hc => by cases hc), hflow, (fun _ _ hc => by cases hc)⟩
  | spawn hm =>
    have hconsumer := h.consumer
    rw [hm] at hconsumer
    have hrest : State.rest { s with main := .awaitProducers, producer := fun _ => .running 0 } =
        s.rest := Finset.sum_congr rfl fun p _ => by
      have hprod := h.producer p
      rw [hm] at hprod
      rw [hprod]
      rfl
    exact ⟨h.opened, fun _ => Or.inr ⟨0, rfl⟩, hconsumer,
      ⟨by rw [hrest]; exact h.flow.sent, h.flow.received⟩, h.counted⟩
  | joinProducers hm hreturned =>
    exact h.move_main (m := .awaitConsumers) hm (fun p _ => hreturned p) id _
  | joinConsumers hm hreturned =>
    exact h.move_main (m := .checkCount) hm (fun _ => id) (fun _ => ⟨_, _, hreturned⟩) _
  | checkCount hm hcount => exact h.move_main (m := .checkSum) hm (fun _ => id) id _
  | checkSum hm hsum => exact h.move_main (m := .finished) hm (fun _ => id) id _
  | @post p i hp hi =>
    have hmain := h.main_of_running hp
    have hproducer := h.producer
    rw [hmain] at hproducer
    -- The element leaves the rest of its producer.
    have hrest : State.rest { s with
        producer := Function.update s.producer p (.running (i + 1))
        queue := s.queue.post (B.base p + BitVec.ofNat w i) } + QueueBench.rest B p (s.producer p) =
        s.rest + QueueBench.rest B p (.running (i + 1)) := rest_update rfl
    rw [hp, QueueBench.rest, B.elements_succ hi, QueueBench.rest, ← add_assoc, add_right_comm]
      at hrest
    have hflow := h.flow
    rw [← add_right_cancel hrest] at hflow
    refine ⟨by rw [LogQueue.post_closed, h.opened], ?_, h.consumer, ?_, h.counted⟩
    · dsimp only
      rw [hmain]
      exact forall_update (P := fun _ => Main.awaitProducers.ProducerAt) hproducer
        (Or.inr ⟨_, rfl⟩)
    · dsimp only at hflow ⊢
      rw [LogQueue.post_of_open h.opened] at hflow ⊢
      exact hflow.push
  | @producerReturn p i hp hi =>
    have hmain := h.main_of_running hp
    have hproducer := h.producer
    rw [hmain] at hproducer
    have hrest : State.rest { s with producer := Function.update s.producer p .returned } +
        QueueBench.rest B p (s.producer p) = s.rest + QueueBench.rest B p .returned :=
      rest_update rfl
    rw [hp, QueueBench.rest, B.elements_eq_zero hi, QueueBench.rest, add_zero, add_zero] at hrest
    refine ⟨h.opened, ?_, h.consumer, ⟨by rw [hrest]; exact h.flow.sent, h.flow.received⟩,
      h.counted⟩
    dsimp only
    rw [hmain]
    exact forall_update (P := fun _ => Main.awaitProducers.ProducerAt) hproducer (Or.inl rfl)
  | @pull count sum data hc hcount hfront =>
    have hflow := h.flow.pop hfront
    rw [hc, ← share_pulled hcount] at hflow
    exact ⟨h.opened, h.producer, h.consumerAt_of_running hc (fun he => by cases he), hflow,
      (fun _ _ he => by cases he)⟩
  | empty => exact h
  | @consumerReturn count sum hc hcount =>
    have hflow := h.flow
    have hle := h.count_le
    rw [hc] at hflow hle
    refine ⟨h.opened, h.producer, h.consumerAt_of_running hc (fun he => by cases he), hflow,
      fun _ _ he => ?_⟩
    cases he
    exact BitVec.eq_of_toNat_eq (Nat.le_antisymm hle (Nat.le_of_not_lt hcount))

theorem inv_of_reachable (h : (system B pulling).Reachable s) : Inv s :=
  h.induct (inv_init B pulling) fun _ _ _ _ hinv hs => inv_step hinv hs

end QueueBench

end TmcExamples
