import Mathlib.Algebra.BigOperators.Group.Multiset.Basic
import TmcExamples.MpscBounded.Model
import TmcExamples.Transition.Parties

/-!
# What is sent and what is received

The elements of one producer stand in the log in the order of their iterations, one for each push
that returned `true` and one for a push that is suspended (`Producer.sent`). The consumer has
counted and added up what was taken out (`Received`), and its program point says whether the queue
is closed.
-/

namespace TmcExamples

namespace MpscBounded

variable {w : ℕ} {T : Test} {s s' : State w T} {a : Action T} {p : Fin T.nproducers}

/-! ### Results of pushes -/

/-- The iterations whose push returned `true`. -/
def accepted (results : List Bool) : List ℕ :=
  (List.range results.length).filter fun i => results[i]? = some true

private theorem accepted_concat (results : List Bool) (b : Bool) :
    accepted (results ++ [b]) = accepted results ++ if b then [results.length] else [] := by
  have hold : ∀ i ∈ List.range results.length,
      decide ((results ++ [b])[i]? = some true) = decide (results[i]? = some true) := by
    intro i hi
    rw [List.getElem?_append_left (List.mem_range.mp hi)]
  rw [accepted, List.length_append, List.length_singleton, List.range_succ, List.filter_append,
    List.filter_congr hold, accepted]
  congr 1
  cases b <;> simp

/-- As many elements are accepted as pushes have returned true. -/
theorem length_accepted (results : List Bool) :
    (accepted results).length = results.count true := by
  induction results using List.reverseRecOn with
  | nil => rfl
  | append_singleton results b ih =>
    rw [accepted_concat, List.length_append, ih, List.count_append]
    cases b <;> rfl

/-- When all pushes are accepted, so are all iterations. -/
theorem accepted_replicate (n : ℕ) : accepted (List.replicate n true) = List.range n := by
  rw [accepted, List.length_replicate, List.filter_eq_self]
  intro i hi
  rw [List.getElem?_replicate_of_lt (List.mem_range.mp hi)]
  rfl

/-- The iterations of a producer whose elements are in the log. -/
def Producer.sent : Producer → List ℕ
  | .pushing results | .returned results => accepted results
  | .suspended results _ => accepted results ++ [results.length]

/-- The iterations of the elements of producer `p` in a part of the log. -/
def iterations (p : Fin T.nproducers) (log : List (Element T)) : List ℕ :=
  (log.filter fun e => e.1 = p).map Prod.snd

private theorem iterations_push_self (q : LogQueue (Element T)) (i : ℕ) :
    iterations p (q.push (p, i)).log = iterations p q.log ++ [i] := by
  rw [iterations, LogQueue.push_log, List.filter_append, List.map_append]
  simp [iterations]

private theorem iterations_push_of_ne (q : LogQueue (Element T)) {r : Fin T.nproducers} (h : r ≠ p)
    (i : ℕ) : iterations r (q.push (p, i)).log = iterations r q.log := by
  rw [iterations, LogQueue.push_log, List.filter_append, List.map_append]
  simp [iterations, h.symm]

/-! ### The invariant -/

/-- A producer has at most `items` results, its place in the log is taken, and a push of it was
refused only by a closed queue. -/
def ProducerInv (T : Test) (log : List (Element T)) (closed : Bool) : Producer → Prop
  | .pushing results => results.length ≤ T.items ∧ (false ∈ results → closed = true)
  | .suspended results pos =>
    results.length < T.items ∧ pos < log.length ∧ (false ∈ results → closed = true)
  | .returned results => results.length = T.items ∧ (false ∈ results → closed = true)

/-- What the program point of the consumer says about the queue. -/
def ConsumerInv (T : Test) (q : LogQueue (Element T)) : Consumer w → Prop
  | .pulling count _ => count ≤ T.pulls ∧ q.closed = false
  | .closing count _ => T.closes = true ∧ count = T.pulls ∧ q.closed = false
  | .draining count _ => T.closes = true ∧ T.pulls ≤ count ∧ q.closed = true
  | .returned count _ =>
    T.closes = true ∧ T.pulls ≤ count ∧ q.Drained ∨
      T.closes = false ∧ count = T.pulls ∧ q.closed = false
  | .undefined .. => False

/-- What the consumer has counted and added up. -/
structure Received (q : LogQueue (Element T)) (c : Consumer w) : Prop where
  count : c.count = q.head
  sum : c.sum = (q.taken.map (Element.value w)).sum

/-- The invariant of a test. -/
structure Inv (s : State w T) : Prop where
  sent : ∀ p, iterations p s.chan.log = (s.producer p).sent
  producer : ∀ p, ProducerInv T s.chan.log s.chan.closed (s.producer p)
  consumer : ConsumerInv T s.chan s.consumer
  received : Received s.chan s.consumer

theorem inv_init (w : ℕ) (T : Test) : Inv (system w T).init where
  sent _ := rfl
  producer _ := ⟨Nat.zero_le _, fun h => by cases h⟩
  consumer := ⟨Nat.zero_le _, rfl⟩
  received := ⟨rfl, rfl⟩

/-- A result of a push is added. -/
theorem ProducerInv.concat {log : List (Element T)} {closed b : Bool} {results : List Bool}
    (h : false ∈ results → closed = true) (hi : results.length < T.items)
    (hb : b = false → closed = true) :
    ProducerInv T log closed (.pushing (results ++ [b])) := by
  refine ⟨by rwa [List.length_append, List.length_singleton], fun hmem => ?_⟩
  rcases List.mem_append.mp hmem with hmem | hmem
  · exact h hmem
  · exact hb (List.mem_singleton.mp hmem).symm

/-- The push of another producer does not concern this one. -/
theorem ProducerInv.push {q : LogQueue (Element T)} {x : Producer} (e : Element T)
    (h : ProducerInv T q.log q.closed x) : ProducerInv T (q.push e).log q.closed x := by
  cases x with
  | pushing | returned => exact h
  | suspended results pos =>
    refine ⟨h.1, ?_, h.2.2⟩
    rw [LogQueue.push_log, List.length_append]
    exact Nat.lt_add_right _ h.2.1

/-- A close takes back nothing that was accepted. -/
theorem ProducerInv.close {log : List (Element T)} {closed : Bool} {x : Producer}
    (h : ProducerInv T log closed x) : ProducerInv T log true x := by
  cases x with
  | pushing | returned => exact ⟨h.1, fun _ => rfl⟩
  | suspended => exact ⟨h.1, h.2.1, fun _ => rfl⟩

/-- A push into the open queue leaves the consumer where it is. -/
theorem ConsumerInv.push {q : LogQueue (Element T)} {c : Consumer w} (hopen : q.closed = false)
    (h : ConsumerInv T q c) (e : Element T) : ConsumerInv T (q.push e) c := by
  cases c with
  | pulling | closing | draining | undefined => exact h
  | returned =>
    refine h.imp_left fun hdrained => ?_
    have hclosed := hdrained.2.2.1
    rw [hopen] at hclosed
    cases hclosed

/-- The consumer has not got what was pushed just now. -/
theorem Received.push {q : LogQueue (Element T)} {c : Consumer w} (h : Received q c)
    (e : Element T) : Received (q.push e) c where
  count := h.count
  sum := by rw [LogQueue.taken_push]; exact h.sum

/-- The front element is added to the count and the sum. -/
theorem Received.pop {q : LogQueue (Element T)} {c c' : Consumer w} {e : Element T}
    (h : Received q c) (hfront : q.front? = some e) (hcount : c'.count = c.count + 1)
    (hsum : c'.sum = c.sum + e.value w) : Received q.pop c' where
  count := by rw [hcount, h.count, LogQueue.pop_head (LogQueue.head_lt_of_front? hfront)]
  sum := by
    rw [hsum, h.sum, LogQueue.taken_pop hfront, List.map_append, List.sum_append,
      List.map_singleton, List.sum_singleton]

/-- Every step keeps the account of the elements. -/
theorem inv_step (h : Inv s) (hs : Step w T s a s') : Inv s' := by
  obtain ⟨hsent, hproducer, hconsumer, hreceived⟩ := h
  cases hs with
  | @push p results hp hi hopen =>
    have hpinv := hproducer p
    have hpsent := hsent p
    rw [hp] at hpinv hpsent
    refine ⟨fun r => ?_, ?_, hconsumer.push hopen _, hreceived.push _⟩
    · by_cases hr : r = p
      · subst hr
        simp only [Function.update_self, iterations_push_self, hpsent]
        rfl
      · simp only [Function.update_of_ne hr, iterations_push_of_ne _ hr, hsent r]
    · refine forall_update (fun r => (hproducer r).push _) ⟨hi, ?_, hpinv.2⟩
      rw [LogQueue.push_log, List.length_append]
      exact Nat.lt_succ_self _
  | @refused p results hp hi hclosed =>
    have hpinv := hproducer p
    have hpsent := hsent p
    rw [hp] at hpinv hpsent
    refine ⟨?_, forall_update hproducer (.concat hpinv.2 hi fun _ => hclosed), hconsumer, hreceived⟩
    refine forall_update (P := fun r (x : Producer) => iterations r s.chan.log = x.sent) hsent ?_
    rw [hpsent, Producer.sent, Producer.sent, accepted_concat]
    exact (List.append_nil _).symm
  | @pushed p results pos hp hroom =>
    have hpinv := hproducer p
    have hpsent := hsent p
    rw [hp] at hpinv hpsent
    refine ⟨?_, forall_update hproducer (.concat hpinv.2.2 hpinv.1 fun hb => by cases hb),
      hconsumer, hreceived⟩
    refine forall_update (P := fun r (x : Producer) => iterations r s.chan.log = x.sent) hsent ?_
    rw [hpsent, Producer.sent, Producer.sent, accepted_concat]
    rfl
  | @producerReturn p results hp hi =>
    have hpinv := hproducer p
    have hpsent := hsent p
    rw [hp] at hpinv hpsent
    refine ⟨?_, forall_update hproducer ⟨Nat.le_antisymm hpinv.1 (Nat.le_of_not_lt hi), hpinv.2⟩,
      hconsumer, hreceived⟩
    exact forall_update (P := fun r (x : Producer) => iterations r s.chan.log = x.sent) hsent hpsent
  | pull hc hcount hfront =>
    rw [hc] at hconsumer hreceived
    exact ⟨hsent, hproducer, ⟨hcount, hconsumer.2⟩, hreceived.pop hfront rfl rfl⟩
  | empty hc hcount hdrained =>
    -- The consumer is the only one to close the queue, behind the loop.
    rw [hc] at hconsumer
    have hopen := hconsumer.2
    rw [hdrained.1] at hopen
    cases hopen
  | @loopEnd count sum hc hcount =>
    rw [hc] at hconsumer hreceived
    have heq : count = T.pulls := Nat.le_antisymm hconsumer.1 (Nat.le_of_not_lt hcount)
    cases hcloses : T.closes with
    | true =>
      exact ⟨hsent, hproducer, ⟨hcloses, heq, hconsumer.2⟩, ⟨hreceived.count, hreceived.sum⟩⟩
    | false =>
      exact ⟨hsent, hproducer, .inr ⟨hcloses, heq, hconsumer.2⟩, ⟨hreceived.count, hreceived.sum⟩⟩
  | close hc =>
    rw [hc] at hconsumer hreceived
    exact ⟨hsent, fun r => (hproducer r).close, ⟨hconsumer.1, hconsumer.2.1.ge, rfl⟩,
      ⟨hreceived.count, hreceived.sum⟩⟩
  | drain hc hfront =>
    rw [hc] at hconsumer hreceived
    exact ⟨hsent, hproducer, ⟨hconsumer.1, Nat.le_succ_of_le hconsumer.2.1, hconsumer.2.2⟩,
      hreceived.pop hfront rfl rfl⟩
  | drained hc hdrained =>
    rw [hc] at hconsumer hreceived
    exact ⟨hsent, hproducer, .inl ⟨hconsumer.1, hconsumer.2.1, hdrained⟩,
      ⟨hreceived.count, hreceived.sum⟩⟩

theorem inv_of_reachable (h : (system w T).Reachable s) : Inv s :=
  h.induct (inv_init w T) fun _ _ _ _ hinv hs => inv_step hinv hs

end MpscBounded

end TmcExamples
