import Mathlib.Algebra.BigOperators.Group.Multiset.Basic
import Mathlib.Data.Multiset.Range
import TmcExamples.ChaseLev.Model
import TmcExamples.Transition.Parties

/-!
# Every value once

The values below `next` are those in the deque, those popped and those stolen, each once
(`Inv.values`). The deque is sorted, with its least value at the head, so what one stealer has
stolen is sorted as well and below the deque (`Inv.sorted`). When the owner is done the deque is
empty and stays so.
-/

namespace TmcExamples

namespace ChaseLev

variable {k N : ℕ} {ops : List Op} {s s' : State k} {a : Action k}

/-! ### The operations of the owner -/

/-- The number of elements that an operation posts. -/
def Op.amount : Op → ℕ
  | .post count => count
  | .tryPop => 0

/-- The number of elements that the operations post. -/
def amount (ops : List Op) : ℕ := (ops.map Op.amount).sum

@[simp] theorem amount_nil : amount [] = 0 := rfl

@[simp] theorem amount_cons (op : Op) (ops : List Op) :
    amount (op :: ops) = op.amount + amount ops := rfl

private theorem amount_append (ops ops' : List Op) :
    amount (ops ++ ops') = amount ops + amount ops' := by
  rw [amount, List.map_append, List.sum_append]
  rfl

/-- The first owner program posts as many values as there are. -/
theorem amount_pushAndPop (N : ℕ) : amount (pushAndPop N) = N := by
  induction N with
  | zero => rfl
  | succ N ih =>
    rw [pushAndPop, List.range_succ, List.flatMap_append, amount_append, List.flatMap_singleton]
    change amount (pushAndPop N) + _ = _
    rw [ih]
    split <;> rfl

private theorem amount_postChunks {chunk fuel next : ℕ} (hchunk : 0 < chunk)
    (hfuel : N - next ≤ fuel) : amount (postChunks N chunk fuel next) = N - next := by
  induction fuel generalizing next with
  | zero => exact (Nat.le_zero.mp hfuel).symm
  | succ fuel ih =>
    rw [postChunks]
    split
    · rw [amount_cons, ih (by omega), Op.amount]
      omega
    · rw [amount_nil]
      omega

/-- So does the second one, in its bulks. -/
theorem amount_postBulk {chunk : ℕ} (hchunk : 0 < chunk) : amount (postBulk N chunk) = N :=
  amount_postChunks hchunk le_rfl

/-- The number of elements that the owner is still to post. -/
def Owner.left : Owner → ℕ
  | .running ops => amount ops
  | .draining | .storing | .returned => 0

/-! ### The invariant -/

/-- The owner has drained the deque. -/
def Owner.Drained : Owner → Prop
  | .storing | .returned => True
  | .running _ | .draining => False

/-- The stealer has found that the owner is done. -/
def Stealer.SeenDone : Stealer → Prop
  | .testing | .draining | .returned => True
  | .stealing | .loading => False

/-- The invariant of a test that posts `N` elements. -/
structure Inv (N : ℕ) (s : State k) : Prop where
  total : s.next + s.owner.left = N
  values : (s.popped : Multiset ℕ) + ∑ t, (s.stolen t : Multiset ℕ) + s.deque =
    Multiset.range s.next
  sorted : ∀ t, (s.stolen t ++ s.deque).Pairwise (· < ·)
  done : s.done = true ↔ s.owner = .returned
  drained : s.owner.Drained → s.deque = []
  seen : ∀ t, (s.stealer t).SeenDone → s.done = true

theorem inv_init (k : ℕ) (ops : List Op) : Inv (amount ops) (system k ops).init where
  total := Nat.zero_add _
  values := by
    have hsum : ∑ t, (((system k ops).init.stolen t : List ℕ) : Multiset ℕ) = 0 :=
      Finset.sum_eq_zero fun _ _ => rfl
    rw [hsum]
    rfl
  sorted _ := .nil
  done := iff_of_false Bool.false_ne_true fun h => by cases h
  drained h := h.elim
  seen _ h := h.elim

private theorem range'_coe (start len : ℕ) :
    ((List.range' start len : List ℕ) : Multiset ℕ) =
      (Multiset.range len).map fun i => start + i := by
  rw [List.range'_eq_map_range]
  rfl

/-- All values handed out so far are below `next`. -/
private theorem Inv.lt_next (h : Inv N s) {t : Fin k} {x : ℕ} (hx : x ∈ s.stolen t ++ s.deque) :
    x < s.next := by
  rw [← Multiset.mem_range, ← h.values]
  rcases List.mem_append.mp hx with hx | hx
  · exact Multiset.mem_add.mpr (.inl (Multiset.mem_add.mpr (.inr
      (Multiset.mem_sum.mpr ⟨t, Finset.mem_univ t, Multiset.mem_coe.mpr hx⟩))))
  · exact Multiset.mem_add.mpr (.inr (Multiset.mem_coe.mpr hx))

/-- The element at the tail goes to the owner. -/
private theorem values_pop {popped xs : List ℕ} {x : ℕ} {m r : Multiset ℕ}
    (h : (popped : Multiset ℕ) + m + (xs ++ [x] : List ℕ) = r) :
    ((popped ++ [x] : List ℕ) : Multiset ℕ) + m + xs = r := by
  rw [← h, ← Multiset.coe_add, ← Multiset.coe_add]
  ac_rfl

/-- The element at the head goes to a stealer. -/
private theorem Inv.values_steal (h : Inv N s) {t : Fin k} {x : ℕ} {xs : List ℕ}
    (hdeque : s.deque = x :: xs) :
    (s.popped : Multiset ℕ) +
        ∑ u, (Function.update s.stolen t (s.stolen t ++ [x]) u : Multiset ℕ) + xs =
      Multiset.range s.next := by
  have hsum := sum_update_add (Finset.mem_univ t) s.stolen (s.stolen t ++ [x])
    fun l => (l : Multiset ℕ)
  rw [← Multiset.coe_add, ← add_assoc, add_right_comm] at hsum
  have hvalues := h.values
  rw [hdeque, ← List.singleton_append, ← Multiset.coe_add] at hvalues
  rw [add_right_cancel hsum, ← hvalues]
  ac_rfl

private theorem Inv.sorted_pop (h : Inv N s) {x : ℕ} {xs : List ℕ} (hdeque : s.deque = xs ++ [x])
    (t : Fin k) : (s.stolen t ++ xs).Pairwise (· < ·) := by
  have hsorted := h.sorted t
  rw [hdeque, ← List.append_assoc] at hsorted
  exact hsorted.sublist (List.sublist_append_left _ _)

private theorem Inv.sorted_steal (h : Inv N s) {t : Fin k} {x : ℕ} {xs : List ℕ}
    (hdeque : s.deque = x :: xs) (u : Fin k) :
    (Function.update s.stolen t (s.stolen t ++ [x]) u ++ xs).Pairwise (· < ·) := by
  have hsorted := h.sorted
  rw [hdeque] at hsorted
  refine forall_update (P := fun _ l => (l ++ xs).Pairwise (· < ·)) (fun u => ?_) ?_ u
  · exact (hsorted u).sublist (List.Sublist.append_left (List.sublist_cons_self x xs) _)
  · rw [List.append_assoc]
    exact hsorted t

/-- The deque is empty where the owner has drained it, also when it loses an element. -/
private theorem Inv.drained_tail (h : Inv N s) {x : ℕ} {xs : List ℕ} (hdeque : s.deque = x :: xs)
    (hdrained : s.owner.Drained) : xs = [] := by
  have hempty := h.drained hdrained
  rw [hdeque] at hempty
  cases hempty

/-- The owner is not done where it goes on. -/
private theorem Inv.done_of_ne (h : Inv N s) {x y : Owner} (howner : s.owner = x)
    (hx : x ≠ .returned) (hy : y ≠ .returned) : s.done = true ↔ y = .returned :=
  iff_of_false (fun hd => hx (howner ▸ h.done.mp hd)) hy

private theorem Inv.seen_update (h : Inv N s) (t : Fin k) {x : Stealer}
    (hx : x.SeenDone → s.done = true)
    (u : Fin k) : (Function.update s.stealer t x u).SeenDone → s.done = true :=
  forall_update (P := fun _ y => Stealer.SeenDone y → s.done = true) h.seen hx u

/-- Every step keeps each value in one place. -/
theorem inv_step (h : Inv N s) (hs : Step k s a s') : Inv N s' := by
  cases hs with
  | @post count ops howner =>
    have htotal := h.total
    rw [howner, Owner.left, amount_cons, Op.amount, ← Nat.add_assoc] at htotal
    refine ⟨htotal, ?_, fun t => ?_, h.done_of_ne howner (by simp) (by simp), fun hr => hr.elim,
      h.seen⟩
    · rw [← Multiset.coe_add, ← add_assoc, h.values, range'_coe, Multiset.range_add]
    · rw [← List.append_assoc, List.pairwise_append]
      refine ⟨h.sorted t, List.pairwise_lt_range', fun x hx y hy => ?_⟩
      exact (h.lt_next hx).trans_le (List.left_le_of_mem_range' hy)
  | @tryPop ops xs x howner hdeque =>
    have htotal := h.total
    rw [howner, Owner.left, amount_cons, Op.amount, Nat.zero_add] at htotal
    have hvalues := h.values
    rw [hdeque] at hvalues
    refine ⟨htotal, values_pop hvalues, h.sorted_pop hdeque,
      h.done_of_ne howner (by simp) (by simp), fun hr => hr.elim, h.seen⟩
  | @tryPopEmpty ops howner hdeque =>
    have htotal := h.total
    rw [howner, Owner.left, amount_cons, Op.amount, Nat.zero_add] at htotal
    exact ⟨htotal, h.values, h.sorted, h.done_of_ne howner (by simp) (by simp), fun hr => hr.elim,
      h.seen⟩
  | opsEnd howner =>
    have htotal := h.total
    rw [howner] at htotal
    exact ⟨htotal, h.values, h.sorted, h.done_of_ne howner (by simp) (by simp), fun hr => hr.elim,
      h.seen⟩
  | @drain xs x howner hdeque =>
    have hvalues := h.values
    rw [hdeque] at hvalues
    refine ⟨h.total, values_pop hvalues, h.sorted_pop hdeque, h.done, fun hr => ?_, h.seen⟩
    rw [howner] at hr
    exact hr.elim
  | drained howner hdeque =>
    have htotal := h.total
    rw [howner] at htotal
    exact ⟨htotal, h.values, h.sorted, h.done_of_ne howner (by simp) (by simp), fun _ => hdeque,
      h.seen⟩
  | store howner =>
    have htotal := h.total
    rw [howner] at htotal
    refine ⟨htotal, h.values, h.sorted, ⟨fun _ => rfl, fun _ => rfl⟩, fun _ => h.drained ?_,
      fun _ _ => rfl⟩
    rw [howner]
    exact trivial
  | steal ht hdeque | remainderSteal ht hdeque =>
    exact ⟨h.total, h.values_steal hdeque, h.sorted_steal hdeque, h.done, h.drained_tail hdeque,
      h.seen⟩
  | stealFails ht | notDone ht | notEmpty ht =>
    exact ⟨h.total, h.values, h.sorted, h.done, h.drained, h.seen_update _ fun hr => hr.elim⟩
  | isDone ht hdone =>
    exact ⟨h.total, h.values, h.sorted, h.done, h.drained, h.seen_update _ fun _ => hdone⟩
  | @isEmpty t ht | @remainderFails t ht =>
    have hdone := h.seen t (by rw [ht]; exact trivial)
    exact ⟨h.total, h.values, h.sorted, h.done, h.drained, h.seen_update _ fun _ => hdone⟩

theorem inv_of_reachable (h : (system k ops).Reachable s) : Inv (amount ops) s :=
  h.induct (inv_init k ops) fun _ _ _ _ hinv hs => inv_step hinv hs

/-- When all threads have returned, each value is in one of their results, and the results of each
stealer are sorted. -/
theorem values_of_finished (h : Inv N s) (hfin : s.Finished) :
    (s.popped : Multiset ℕ) + ∑ t, (s.stolen t : Multiset ℕ) = Multiset.range N ∧
      ∀ t, (s.stolen t).Pairwise (· < ·) := by
  obtain ⟨howner, -⟩ := hfin
  have hempty := h.drained (howner ▸ trivial)
  have htotal := h.total
  have hvalues := h.values
  rw [howner] at htotal
  rw [hempty, show s.next = N from htotal, Multiset.coe_nil, add_zero] at hvalues
  refine ⟨hvalues, fun t => ?_⟩
  have hsorted := h.sorted t
  rwa [hempty, List.append_nil] at hsorted

end ChaseLev

end TmcExamples
