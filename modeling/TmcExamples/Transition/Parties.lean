import Mathlib.Algebra.BigOperators.Fin
import Mathlib.Algebra.BigOperators.Group.Finset.Piecewise
import Mathlib.Algebra.Order.BigOperators.Group.Finset
import Mathlib.Data.Multiset.AddSub

/-!
# Totals over the parties of a system

A state of an unbounded number of parties is a function from parties to local states, and a
step updates it at one party. A quantity that the parties hold together is a sum over a
finite set of them, in any commutative monoid (a number of permits, a multiset of values).
`sum_update_add` says how one local step moves such a total, and `foldl_finRange_add` that a loop
over the parties computes it. A common history with the party of each entry falls into those of the
parties (`entriesOf`).
-/

namespace TmcExamples

variable {ι β M : Type*} [DecidableEq ι]

/-- What holds of every party holds after one of them has moved, if it holds of that one. -/
theorem forall_update {P : ι → β → Prop} {f : ι → β} {i : ι} {x : β} (h : ∀ j, P j (f j))
    (hx : P i x) (j : ι) : P j (Function.update f i x j) := by
  by_cases hj : j = i
  · subst hj
    rwa [Function.update_self]
  · rw [Function.update_of_ne hj]
    exact h j

/-- Two families of shares that agree off one party have totals that differ by its share. -/
theorem sum_add_eq_of_eq_off [AddCommMonoid M] {s : Finset ι} {i : ι} (hi : i ∈ s) {f f' : ι → M}
    (h : ∀ j ∈ s, j ≠ i → f' j = f j) : ∑ j ∈ s, f' j + f i = ∑ j ∈ s, f j + f' i := by
  have herase : ∑ j ∈ s.erase i, f' j = ∑ j ∈ s.erase i, f j :=
    Finset.sum_congr rfl fun j hj => h j (Finset.mem_of_mem_erase hj) (Finset.ne_of_mem_erase hj)
  rw [← Finset.add_sum_erase s f' hi, ← Finset.add_sum_erase s f hi, herase]
  ac_rfl

/-- **One party moves.** Updating one party of the set trades its old share of the total
for its new one. The share may depend on whose it is. -/
theorem sum_update_apply_add [AddCommMonoid M] {s : Finset ι} {i : ι} (hi : i ∈ s) (f : ι → β)
    (x : β) (g : ι → β → M) :
    ∑ j ∈ s, g j (Function.update f i x j) + g i (f i) = ∑ j ∈ s, g j (f j) + g i x := by
  have hoff : ∀ j ∈ s, j ≠ i → g j (Function.update f i x j) = g j (f j) :=
    fun j _ hj => congrArg (g j) (Function.update_of_ne hj x f)
  have h := sum_add_eq_of_eq_off hi hoff
  rwa [Function.update_self] at h

/-- Updating one party trades its share, where all parties have the same kind of share. -/
theorem sum_update_add [AddCommMonoid M] {s : Finset ι} {i : ι} (hi : i ∈ s) (f : ι → β)
    (x : β) (g : β → M) :
    ∑ j ∈ s, g (Function.update f i x j) + g (f i) = ∑ j ∈ s, g (f j) + g x :=
  sum_update_apply_add hi f x fun _ => g

/-! ### What one party has done -/

/-- The entries of party `i` in a list of entries of all parties. -/
def entriesOf (l : List (ι × β)) (i : ι) : List β := (l.filter (·.1 = i)).map Prod.snd

/-- A further entry is one of its own party alone. -/
theorem entriesOf_concat (l : List (ι × β)) (i j : ι) (x : β) :
    entriesOf (l ++ [(j, x)]) i = entriesOf l i ++ if j = i then [x] else [] := by
  rw [entriesOf, List.filter_append, List.map_append, entriesOf]
  by_cases h : j = i
  · rw [if_pos h, List.filter_cons_of_pos (by simpa using h)]
    rfl
  · rw [if_neg h, List.filter_cons_of_neg (by simpa using h)]
    rfl

/-- A total over the entries of all parties is one over the parties. -/
theorem sum_entriesOf [Fintype ι] [AddCommMonoid M] (l : List (ι × β)) (f : ι → β → M) :
    ∑ i, ((entriesOf l i).map (f i)).sum = (l.map fun e => f e.1 e.2).sum := by
  induction l with
  | nil => exact Finset.sum_const_zero
  | cons e l ih =>
    have hone : ∀ i, ((entriesOf (e :: l) i).map (f i)).sum =
        (if e.1 = i then f e.1 e.2 else 0) + ((entriesOf l i).map (f i)).sum := by
      intro i
      rw [entriesOf]
      by_cases h : e.1 = i
      · rw [List.filter_cons_of_pos (by simpa using h), List.map_cons, List.map_cons,
          List.sum_cons, if_pos h, h, entriesOf]
      · rw [List.filter_cons_of_neg (by simpa using h), if_neg h, zero_add, entriesOf]
    rw [Finset.sum_congr rfl fun i _ => hone i, Finset.sum_add_distrib, Finset.sum_ite_eq,
      if_pos (Finset.mem_univ _), List.map_cons, List.sum_cons, ih]

/-! ### Loops that add up -/

/-- A loop over the parties that adds up is a sum. -/
theorem foldl_finRange_add [AddCommMonoid M] {n : ℕ} (f : Fin n → M) :
    (List.finRange n).foldl (fun sum i => sum + f i) 0 = ∑ i, f i := by
  rw [← List.sum_ofFn, List.ofFn_eq_map, List.sum_eq_foldl, List.foldl_map]

/-- A loop over a range that adds up is a sum. -/
theorem foldl_range_add [AddCommMonoid M] (n : ℕ) (f : ℕ → M) :
    (List.range n).foldl (fun sum i => sum + f i) 0 = ∑ i ∈ Finset.range n, f i := by
  rw [← List.foldl_map, ← List.sum_eq_foldl]
  rfl

end TmcExamples
