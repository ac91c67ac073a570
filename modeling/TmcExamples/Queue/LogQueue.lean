import Mathlib.Algebra.GroupWithZero.Nat
import Mathlib.Data.List.Basic

/-!
# FIFO queues with their history

A `LogQueue` is a FIFO queue kept as the log of every element ever put into it, together
with the number of elements already taken out at the front. The elements still in the queue
(`pending`) are the rest of the log. The log only ever grows at its end, so a position of
the log names one element for the whole run, and a statement about everything that ever
went through the queue is a statement about one list.

`pending_push`, `pending_pop` and `front?_eq_head?` show that the operations are those of a
FIFO list: elements leave in the order in which they came. `HasRoom` is the bound of a queue
with a fixed number of slots; a slot stays taken until `pop`.
-/

namespace TmcExamples

universe u v

/-- A FIFO queue as the log of all its elements and the number of those already taken. -/
structure LogQueue (α : Type u) where
  log : List α
  head : ℕ
  closed : Bool
  head_le : head ≤ log.length

/-! ### Lists -/

/-- One for the positions below `n`, zero from there on: how often each position of a log has
been visited by a reader that is at position `n`. -/
def onceBelow (n i : ℕ) : ℕ := if i < n then 1 else 0

theorem onceBelow_of_lt {n i : ℕ} (h : i < n) : onceBelow n i = 1 := if_pos h

theorem onceBelow_le_one (n i : ℕ) : onceBelow n i ≤ 1 := by
  unfold onceBelow
  split <;> omega

theorem onceBelow_of_le {n i : ℕ} (h : n ≤ i) : onceBelow n i = 0 := if_neg (by omega)

theorem onceBelow_succ_self (n : ℕ) : onceBelow (n + 1) n = onceBelow n n + 1 := by
  rw [onceBelow_of_lt (Nat.lt_succ_self n), onceBelow_of_le (Nat.le_refl n)]

theorem onceBelow_succ_of_ne {n i : ℕ} (h : n ≠ i) : onceBelow (n + 1) i = onceBelow n i := by
  unfold onceBelow
  split <;> split <;> omega

section Prefix

variable {α : Type u} {l₁ l₂ : List α} {x : α}

/-- What a list has, its extensions have at the same place. -/
theorem getElem?_of_prefix (h : l₁ <+: l₂) {i : ℕ} (hx : l₁[i]? = some x) :
    l₂[i]? = some x := by
  obtain ⟨hi, rfl⟩ := List.getElem?_eq_some_iff.mp hx
  exact List.prefix_iff_getElem?.mp h i hi

/-- A prefix extended by the element that follows it is a prefix. -/
theorem prefix_concat (h : l₁ <+: l₂) (hx : l₂[l₁.length]? = some x) : l₁ ++ [x] <+: l₂ := by
  obtain ⟨hlt, rfl⟩ := List.getElem?_eq_some_iff.mp hx
  rw [List.prefix_iff_eq_take, List.length_append, List.length_singleton,
    List.take_succ_eq_append_getElem hlt]
  congr 1
  exact List.prefix_iff_eq_take.mp h

end Prefix

namespace LogQueue

variable {α : Type u} {β : Type v}

/-- A new queue: open, with nothing put into it. -/
def empty : LogQueue α := ⟨[], 0, false, Nat.le_refl _⟩

/-- The elements in the queue, the oldest first. -/
def pending (q : LogQueue α) : List α := q.log.drop q.head

/-- The elements taken out of the queue, in the order in which they were taken. -/
def taken (q : LogQueue α) : List α := q.log.take q.head

/-- The number of taken slots. -/
def size (q : LogQueue α) : ℕ := q.log.length - q.head

/-- The element at the front, if there is one. -/
def front? (q : LogQueue α) : Option α := q.log[q.head]?

/-- Fewer than `n` slots are taken. -/
def HasRoom (q : LogQueue α) (n : ℕ) : Prop := q.size < n

instance (q : LogQueue α) (n : ℕ) : Decidable (q.HasRoom n) :=
  inferInstanceAs (Decidable (q.size < n))

/-- Put an element at the end. -/
def push (q : LogQueue α) (x : α) : LogQueue α where
  log := q.log ++ [x]
  head := q.head
  closed := q.closed
  head_le := by have := q.head_le; rw [List.length_append]; omega

/-- Take the front element out and free its slot. -/
def pop (q : LogQueue α) : LogQueue α where
  log := q.log
  head := min (q.head + 1) q.log.length
  closed := q.closed
  head_le := Nat.min_le_right _ _

/-- Close the queue: nothing is put into it afterwards. -/
def close (q : LogQueue α) : LogQueue α where
  log := q.log
  head := q.head
  closed := true
  head_le := q.head_le

/-- Put an element at the end, unless the queue is closed and refuses it. -/
def post (q : LogQueue α) (x : α) : LogQueue α := if q.closed then q else q.push x

/-- The queue is closed and nothing is left in it. -/
def Drained (q : LogQueue α) : Prop := q.closed = true ∧ q.head = q.log.length

/-- Change the element at position `i` of the log in place. -/
def modify (q : LogQueue α) (i : ℕ) (f : α → α) : LogQueue α where
  log := q.log.modify i f
  head := q.head
  closed := q.closed
  head_le := by rw [List.length_modify]; exact q.head_le

/-! ### What the operations do to each field -/

@[simp] theorem empty_log : (empty : LogQueue α).log = [] := rfl
@[simp] theorem empty_head : (empty : LogQueue α).head = 0 := rfl
@[simp] theorem empty_closed : (empty : LogQueue α).closed = false := rfl

@[simp] theorem push_log (q : LogQueue α) (x : α) : (q.push x).log = q.log ++ [x] := rfl
@[simp] theorem push_head (q : LogQueue α) (x : α) : (q.push x).head = q.head := rfl
@[simp] theorem push_closed (q : LogQueue α) (x : α) : (q.push x).closed = q.closed := rfl

@[simp] theorem pop_log (q : LogQueue α) : q.pop.log = q.log := rfl
@[simp] theorem pop_closed (q : LogQueue α) : q.pop.closed = q.closed := rfl

theorem pop_head {q : LogQueue α} (h : q.head < q.log.length) : q.pop.head = q.head + 1 :=
  Nat.min_eq_left h

@[simp] theorem close_log (q : LogQueue α) : q.close.log = q.log := rfl
@[simp] theorem close_head (q : LogQueue α) : q.close.head = q.head := rfl
@[simp] theorem close_closed (q : LogQueue α) : q.close.closed = true := rfl

@[simp] theorem post_closed (q : LogQueue α) (x : α) : (q.post x).closed = q.closed := by
  unfold post
  split <;> rfl

/-- An open queue accepts every post. -/
theorem post_of_open {q : LogQueue α} (h : q.closed = false) (x : α) : q.post x = q.push x := by
  rw [post, h]
  rfl

@[simp] theorem modify_log (q : LogQueue α) (i : ℕ) (f : α → α) :
    (q.modify i f).log = q.log.modify i f := rfl
@[simp] theorem modify_head (q : LogQueue α) (i : ℕ) (f : α → α) :
    (q.modify i f).head = q.head := rfl

/-- A view of the elements that the change keeps, is the same after it. -/
theorem map_log_modify {q : LogQueue α} {i : ℕ} {f : α → α} {g : α → β}
    (h : ∀ x, q.log[i]? = some x → g (f x) = g x) :
    (q.modify i f).log.map g = q.log.map g := by
  refine List.ext_getElem? fun j => ?_
  rw [modify_log, List.getElem?_map, List.getElem?_map, List.getElem?_modify]
  by_cases hij : i = j
  · subst hij
    cases hx : q.log[i]? with
    | none => rfl
    | some x => simp [h x hx]
  · simp [hij]

/-- A total over the log trades the share of the changed element for its new one. -/
theorem sum_log_modify {q : LogQueue α} {i : ℕ} {x : α} (h : q.log[i]? = some x) (f : α → α)
    (g : α → ℕ) :
    ((q.modify i f).log.map g).sum + g x = (q.log.map g).sum + g (f x) := by
  rw [modify_log]
  generalize q.log = l at h
  induction l generalizing i with
  | nil => simp at h
  | cons y l ih =>
    cases i with
    | zero =>
      obtain rfl : y = x := by simpa using h
      simp only [List.modify_zero_cons, List.map_cons, List.sum_cons]
      omega
    | succ i =>
      have hl := ih (by simpa using h)
      simp only [List.modify_succ_cons, List.map_cons, List.sum_cons]
      omega

/-- An element of the log after a change is the changed element or an unchanged one. -/
theorem getElem?_modify_eq_some {q : LogQueue α} {i j : ℕ} {f : α → α} {y : α}
    (h : (q.modify i f).log[j]? = some y) :
    ∃ x, q.log[j]? = some x ∧ y = if i = j then f x else x := by
  rw [modify_log, List.getElem?_modify] at h
  obtain ⟨x, hx, rfl⟩ := Option.map_eq_some_iff.mp h
  exact ⟨x, hx, rfl⟩

/-- An element of the log after a push is an old one or the new one, at the end. -/
theorem getElem?_push_eq_some {q : LogQueue α} {x y : α} {j : ℕ}
    (h : (q.push x).log[j]? = some y) :
    q.log[j]? = some y ∨ j = q.log.length ∧ y = x := by
  rw [push_log, List.getElem?_append] at h
  split at h
  · exact Or.inl h
  · right
    have hj : j - q.log.length < 1 := (List.getElem?_eq_some_iff.mp h).1
    obtain rfl : j = q.log.length := by omega
    simpa [eq_comm] using h

/-! ### The front element -/

theorem head_lt_of_front? {q : LogQueue α} {x : α} (h : q.front? = some x) :
    q.head < q.log.length :=
  (List.getElem?_eq_some_iff.mp h).1

/-- There is no front element exactly when everything has been taken. -/
theorem front?_eq_none_iff {q : LogQueue α} : q.front? = none ↔ q.head = q.log.length := by
  have := q.head_le
  rw [front?, List.getElem?_eq_none_iff]
  omega

theorem exists_front? {q : LogQueue α} (h : q.head < q.log.length) :
    ∃ x, q.front? = some x :=
  ⟨q.log[q.head], List.getElem?_eq_getElem h⟩

/-! ### Drained queues -/

/-- A post does not undo that the queue is drained: it is refused. -/
theorem Drained.post {q : LogQueue α} (h : q.Drained) (x : α) : (q.post x).Drained := by
  rw [LogQueue.post, if_pos h.1]
  exact h

theorem Drained.close {q : LogQueue α} (h : q.Drained) : q.close.Drained := ⟨rfl, h.2⟩

/-- A drained queue has nothing to pop. -/
theorem Drained.pop {q : LogQueue α} (h : q.Drained) : q.pop.Drained := by
  refine ⟨h.1, ?_⟩
  have := h.2
  change min (q.head + 1) q.log.length = q.log.length
  omega

/-! ### Taken slots -/

theorem size_push (q : LogQueue α) (x : α) : (q.push x).size = q.size + 1 := by
  have := q.head_le
  rw [size, size, push_log, push_head, List.length_append, List.length_singleton]
  omega

theorem size_pop_le (q : LogQueue α) : q.pop.size ≤ q.size := by
  have := q.head_le
  unfold size pop
  dsimp only
  omega

theorem size_pop {q : LogQueue α} (h : q.head < q.log.length) : q.pop.size + 1 = q.size := by
  rw [size, size, pop_head h, pop_log]
  omega

@[simp] theorem size_close (q : LogQueue α) : q.close.size = q.size := rfl

@[simp] theorem size_modify (q : LogQueue α) (i : ℕ) (f : α → α) :
    (q.modify i f).size = q.size := by
  rw [size, size, modify_log, modify_head, List.length_modify]

/-! ### What has been taken out -/

theorem taken_push (q : LogQueue α) (x : α) : (q.push x).taken = q.taken :=
  List.take_append_of_le_length q.head_le

theorem taken_post (q : LogQueue α) (x : α) : (q.post x).taken = q.taken := by
  unfold post
  split
  · rfl
  · exact taken_push q x

/-- What is popped is the next of the elements that have been taken. -/
theorem taken_pop {q : LogQueue α} {x : α} (h : q.front? = some x) :
    q.pop.taken = q.taken ++ [x] := by
  have hlt := head_lt_of_front? h
  rw [taken, pop_head hlt, pop_log, taken, List.take_succ_eq_append_getElem hlt]
  rw [front?, List.getElem?_eq_getElem hlt] at h
  rw [Option.some.inj h]

@[simp] theorem taken_close (q : LogQueue α) : q.close.taken = q.taken := rfl

/-- From a drained queue everything has been taken. -/
theorem Drained.taken_eq {q : LogQueue α} (h : q.Drained) : q.taken = q.log := by
  rw [taken, h.2, List.take_length]

/-! ### The queue as a FIFO list -/

theorem pending_eq_nil_iff {q : LogQueue α} : q.pending = [] ↔ q.head = q.log.length := by
  have := q.head_le
  rw [pending, List.drop_eq_nil_iff]
  omega

/-- The front element is the first of the pending ones. -/
theorem front?_eq_head? (q : LogQueue α) : q.front? = q.pending.head? := by
  rw [front?, pending, List.head?_drop]

end LogQueue

end TmcExamples
