import Mathlib.Algebra.BigOperators.Group.Finset.Basic
import Mathlib.Data.Multiset.Range
import Mathlib.Order.Interval.Finset.Nat

/-!
# Consecutive ranges

Work on the numbers below `n` is often dealt out in ranges: `cut` gives the places at which
the interval is cut, and the `i`-th range is from `cut i` to `cut (i + 1)`. Here are the facts
that such a distribution needs: the ranges are disjoint and cover the interval, and the items
of all ranges together are the items of the interval, as multisets (`sum_rangeItems`). The item
of number `i` is `f i`.
-/

namespace TmcExamples

universe u

/-! ### The numbers of the ranges -/

section Cuts

variable {cut : ℕ → ℕ}

/-- Different ranges have no number in common. -/
theorem disjoint_ranges (hcut : Monotone cut) {i j : ℕ} (hij : i < j) :
    Disjoint (Finset.Ico (cut i) (cut (i + 1))) (Finset.Ico (cut j) (cut (j + 1))) := by
  have hle : cut (i + 1) ≤ cut j := hcut hij
  rw [Finset.disjoint_left]
  intro x hi hj
  rw [Finset.mem_Ico] at hi hj
  omega

/-- The first `k` ranges cover what is below `cut k`. -/
theorem exists_range_iff (hcut : Monotone cut) (h0 : cut 0 = 0) {k x : ℕ} :
    x < cut k ↔ ∃ i < k, x ∈ Finset.Ico (cut i) (cut (i + 1)) := by
  simp only [Finset.mem_Ico]
  constructor
  · intro hx
    induction k with
    | zero => omega
    | succ k ih =>
      by_cases hk : x < cut k
      · obtain ⟨i, hi, hmem⟩ := ih hk
        exact ⟨i, Nat.lt_succ_of_lt hi, hmem⟩
      · exact ⟨k, Nat.lt_succ_self k, Nat.le_of_not_lt hk, hx⟩
  · rintro ⟨i, hi, -, hlt⟩
    exact Nat.lt_of_lt_of_le hlt (hcut hi)

end Cuts

/-! ### The items of the ranges -/

section Items

variable {α : Type u} (f : ℕ → α)

/-- The items of the `len` numbers from `start` on. -/
def rangeItems (start len : ℕ) : Multiset α := (Multiset.range len).map fun i => f (start + i)

@[simp] theorem rangeItems_zero (start : ℕ) : rangeItems f start 0 = 0 := rfl

@[simp] theorem card_rangeItems (start len : ℕ) : (rangeItems f start len).card = len := by
  rw [rangeItems, Multiset.card_map, Multiset.card_range]

/-- The items of an interval. -/
theorem rangeItems_from_zero (n : ℕ) : rangeItems f 0 n = (Multiset.range n).map f := by
  rw [rangeItems]
  simp only [Nat.zero_add]

/-- The sum of the items of a range that starts at zero. -/
theorem sum_rangeItems_from_zero {M : Type u} [AddCommMonoid M] (f : ℕ → M) (n : ℕ) :
    (rangeItems f 0 n).sum = ∑ i ∈ Finset.range n, f i := by
  rw [rangeItems_from_zero]
  rfl

/-- A range is cut in two at any point. -/
theorem rangeItems_add (start a b : ℕ) :
    rangeItems f start (a + b) = rangeItems f start a + rangeItems f (start + a) b := by
  rw [rangeItems, Multiset.range_add, Multiset.map_add, Multiset.map_map]
  simp only [Function.comp_apply, rangeItems, Nat.add_assoc]

/-- The first item of a range and the rest. -/
theorem rangeItems_succ (start len : ℕ) :
    rangeItems f start (len + 1) = rangeItems f (start + 1) len + {f start} := by
  rw [Nat.add_comm len 1, rangeItems_add, add_comm]
  rfl

/-- The ranges together have the items of the interval. -/
theorem sum_rangeItems {cut : ℕ → ℕ} (hcut : Monotone cut) (h0 : cut 0 = 0) (k : ℕ) :
    ∑ i ∈ Finset.range k, rangeItems f (cut i) (cut (i + 1) - cut i) = rangeItems f 0 (cut k) := by
  induction k with
  | zero => rw [Finset.sum_range_zero, h0, rangeItems_zero]
  | succ k ih =>
    have hle : cut k ≤ cut (k + 1) := hcut (Nat.le_succ k)
    rw [Finset.sum_range_succ, ih, ← Nat.add_sub_of_le hle, rangeItems_add, Nat.zero_add,
      Nat.add_sub_cancel_left]

end Items

end TmcExamples
