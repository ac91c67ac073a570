import Mathlib.Algebra.BigOperators.Group.Multiset.Basic
import TmcExamples.Queue.LogQueue

/-!
# Conservation through a queue

Any number of producers put the elements of a fixed multiset `all` into a queue, and any number of
consumers take them out and add up a share `value x` for each. `Conserved` relates the three: what
has been put in together with what the producers still hold (`rest`) is `all`, and the shares of
what has been taken out add up to what the consumers have (`got`), in whatever they are
counted. Pushing moves an element out of `rest`, popping moves a share into `got`, and when nothing
is left anywhere, `got` is the total of `all` (`Conserved.got_eq`).
-/

namespace TmcExamples

universe u v

variable {α : Type u} {M : Type v} [AddCommMonoid M] {value : α → M}

/-- Nothing is lost or doubled between the producers and the consumers of a queue. -/
structure Conserved (value : α → M) (all : Multiset α) (q : LogQueue α) (rest : Multiset α)
    (got : M) : Prop where
  sent : ↑q.log + rest = all
  received : (q.taken.map value).sum = got

namespace Conserved

variable {all rest : Multiset α} {q : LogQueue α} {got : M} {x : α}

theorem empty (value : α → M) (all : Multiset α) : Conserved value all .empty all 0 where
  sent := zero_add all
  received := rfl

/-- A producer puts an element in. -/
theorem push (h : Conserved value all q (rest + {x}) got) :
    Conserved value all (q.push x) rest got where
  sent := by
    rw [LogQueue.push_log, ← Multiset.coe_add, Multiset.coe_singleton, add_assoc,
      add_comm {x} rest]
    exact h.sent
  received := by rw [LogQueue.taken_push]; exact h.received

/-- A consumer takes the front element out. -/
theorem pop (h : Conserved value all q rest got) (hx : q.front? = some x) :
    Conserved value all q.pop rest (got + value x) where
  sent := h.sent
  received := by
    rw [LogQueue.taken_pop hx, List.map_append, List.sum_append, h.received, List.map_singleton,
      List.sum_singleton]

/-- A close moves no element. -/
theorem close (h : Conserved value all q rest got) : Conserved value all q.close rest got where
  sent := h.sent
  received := h.received

/-- When the producers have nothing left and the queue is empty, the consumers have all. -/
theorem got_eq (h : Conserved value all q 0 got) (hend : q.Drained) :
    got = (all.map value).sum := by
  rw [← h.sent, add_zero, ← h.received, hend.taken_eq, Multiset.map_coe, Multiset.sum_coe]

/-- No more is taken out than there is. -/
theorem taken_length_le (h : Conserved value all q rest got) : q.taken.length ≤ all.card := by
  rw [← h.sent, Multiset.card_add, Multiset.coe_card, LogQueue.taken, List.length_take]
  omega

end Conserved

end TmcExamples
