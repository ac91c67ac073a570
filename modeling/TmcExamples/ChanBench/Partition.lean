import Mathlib.Algebra.BigOperators.Fin
import TmcExamples.ChanBench.Model
import TmcExamples.Queue.Ranges

/-!
# The ranges of the producers

The loop gives the first `rem` producers one element more than the others. As natural numbers,
`base` is `i * per_task + min i rem` after `i` iterations (`cut`), which never exceeds `NELEMS`,
so no addition of the loop wraps; after the last one it is `NELEMS`. The ranges are then the
intervals between consecutive values of a monotone function.
-/

namespace TmcExamples

namespace ChanBench

variable {w : ℕ} (B : Bench w)

namespace Bench

/-- The value of `base` after `i` iterations, as a natural number. -/
def cut (i : ℕ) : ℕ := i * B.perTask.toNat + min i B.rem.toNat

private theorem cut_zero : B.cut 0 = 0 := by
  rw [cut, Nat.zero_mul, Nat.zero_min]

private theorem cut_mono : Monotone B.cut := by
  intro i j hij
  have hmul : i * B.perTask.toNat ≤ j * B.perTask.toNat := Nat.mul_le_mul_right _ hij
  unfold cut
  omega

private theorem prodCount_toNat_pos : 0 < B.prodCount.toNat := B.prodCount_pos

/-- All ranges together are as long as the interval. -/
private theorem cut_prodCount : B.cut B.prodCount.toNat = B.nelems.toNat := by
  have hrem : B.rem.toNat = B.nelems.toNat % B.prodCount.toNat := BitVec.toNat_umod
  have hper : B.perTask.toNat = B.nelems.toNat / B.prodCount.toNat := BitVec.toNat_udiv
  have hlt : B.nelems.toNat % B.prodCount.toNat < B.prodCount.toNat :=
    Nat.mod_lt _ B.prodCount_toNat_pos
  rw [cut, hrem, hper, Nat.min_eq_right hlt.le]
  exact Nat.div_add_mod _ _

private theorem cut_le {i : ℕ} (hi : i ≤ B.prodCount.toNat) : B.cut i ≤ B.nelems.toNat :=
  B.cut_prodCount ▸ B.cut_mono hi

/-- The length of the range of producer `i`. -/
private theorem count_toNat {i : ℕ} (hi : i < B.prodCount.toNat) :
    (B.count i).toNat = B.cut (i + 1) - B.cut i := by
  have hw : i < 2 ^ w := hi.trans B.prodCount.isLt
  have hlen : B.cut (i + 1) - B.cut i = B.perTask.toNat + (min (i + 1) B.rem.toNat -
      min i B.rem.toNat) := by
    rw [cut, cut, Nat.succ_mul]
    omega
  have hle : B.cut (i + 1) ≤ B.nelems.toNat := B.cut_le hi
  have hnelems := B.nelems.isLt
  have hremlt := B.rem.isLt
  rw [hlen]
  unfold count
  split <;> rename_i hrem <;> rw [BitVec.lt_def, BitVec.toNat_ofNat, Nat.mod_eq_of_lt hw] at hrem
  · have hlt : 1 < 2 ^ w := by omega
    have hone : (1 : BitVec w).toNat = 1 := Nat.mod_eq_of_lt hlt
    rw [BitVec.toNat_add, hone, Nat.mod_eq_of_lt]
    · omega
    · omega
  · omega

/-- No addition to `base` wraps. -/
private theorem base_toNat {i : ℕ} (hi : i ≤ B.prodCount.toNat) : (B.base i).toNat = B.cut i := by
  induction i with
  | zero => rw [cut_zero]; exact BitVec.toNat_zero
  | succ i ih =>
    have hmono : B.cut i ≤ B.cut (i + 1) := B.cut_mono (Nat.le_succ i)
    have hle : B.cut (i + 1) ≤ B.nelems.toNat := B.cut_le hi
    have hnelems := B.nelems.isLt
    rw [base, BitVec.toNat_add, ih (Nat.le_of_succ_le hi), B.count_toNat hi,
      Nat.add_sub_of_le hmono, Nat.mod_eq_of_lt (Nat.lt_of_le_of_lt hle hnelems)]

private theorem base_add_count {i : ℕ} (hi : i < B.prodCount.toNat) :
    (B.base i).toNat + (B.count i).toNat = B.cut (i + 1) := by
  rw [B.base_toNat hi.le, B.count_toNat hi, Nat.add_sub_of_le (B.cut_mono (Nat.le_succ i))]

/-- The numbers of the range of producer `i`. -/
def range (i : ℕ) : Finset ℕ :=
  Finset.Ico (B.base i).toNat ((B.base i).toNat + (B.count i).toNat)

private theorem range_eq {i : ℕ} (hi : i < B.prodCount.toNat) :
    B.range i = Finset.Ico (B.cut i) (B.cut (i + 1)) := by
  rw [range, B.base_add_count hi, B.base_toNat hi.le]

/-- What the partition loop achieves: the ranges are consecutive from zero to `NELEMS`,
disjoint, of almost the same length, and cover the numbers below `NELEMS`. -/
structure Partitioned : Prop where
  first : B.base 0 = 0
  next : ∀ i < B.prodCount.toNat,
    (B.base (i + 1)).toNat = (B.base i).toNat + (B.count i).toNat
  last : B.base B.prodCount.toNat = B.nelems
  disjoint : ∀ i < B.prodCount.toNat, ∀ j < B.prodCount.toNat, i ≠ j →
    Disjoint (B.range i) (B.range j)
  balanced : ∀ i < B.prodCount.toNat, ∀ j < B.prodCount.toNat,
    (B.count i).toNat ≤ (B.count j).toNat + 1
  covers : ∀ x, x < B.nelems.toNat ↔ ∃ i < B.prodCount.toNat, x ∈ B.range i

/-- The ranges of the producers cover the elements without a gap or an overlap. -/
theorem partitioned : B.Partitioned where
  first := rfl
  next i hi := by rw [B.base_add_count hi, B.base_toNat hi]
  last := BitVec.eq_of_toNat_eq (by rw [B.base_toNat le_rfl, cut_prodCount])
  disjoint i hi j hj hne := by
    rw [B.range_eq hi, B.range_eq hj]
    rcases Nat.lt_or_gt_of_ne hne with hij | hji
    · exact disjoint_ranges B.cut_mono hij
    · exact (disjoint_ranges B.cut_mono hji).symm
  balanced i hi j hj := by
    rw [B.count_toNat hi, B.count_toNat hj, cut, cut, cut, cut, Nat.succ_mul, Nat.succ_mul]
    omega
  covers x := by
    rw [← B.cut_prodCount, exists_range_iff B.cut_mono B.cut_zero]
    constructor
    · rintro ⟨i, hi, hx⟩
      exact ⟨i, hi, B.range_eq hi ▸ hx⟩
    · rintro ⟨i, hi, hx⟩
      exact ⟨i, hi, B.range_eq hi ▸ hx⟩

/-! ### The elements of the ranges -/

/-- The elements that producer `i` has yet to push when it has pushed `done` of them. -/
def elements (i done : ℕ) : Multiset (BitVec w) :=
  rangeItems (fun j => B.base i + BitVec.ofNat w j) done ((B.count i).toNat - done)

/-- All elements, the numbers below `NELEMS`. -/
def allElements : Multiset (BitVec w) := rangeItems (BitVec.ofNat w) 0 B.nelems.toNat

private theorem elements_zero {i : ℕ} (hi : i < B.prodCount.toNat) :
    B.elements i 0 = rangeItems (BitVec.ofNat w) (B.cut i) (B.cut (i + 1) - B.cut i) := by
  have hbase : B.base i = BitVec.ofNat w (B.cut i) := by
    rw [← B.base_toNat hi.le, BitVec.ofNat_toNat, BitVec.setWidth_eq]
  rw [elements, Nat.sub_zero, B.count_toNat hi, rangeItems, rangeItems, hbase]
  refine Multiset.map_congr rfl fun j _ => ?_
  rw [Nat.zero_add, ← BitVec.ofNat_add]

/-- The producers together have all elements. -/
theorem sum_elements : ∑ p : Fin B.prodCount.toNat, B.elements p 0 = B.allElements := by
  rw [Fin.sum_univ_eq_sum_range fun i => B.elements i 0, allElements, ← cut_prodCount,
    ← sum_rangeItems (BitVec.ofNat w) B.cut_mono B.cut_zero]
  exact Finset.sum_congr rfl fun i hi => B.elements_zero (Finset.mem_range.mp hi)

/-- The element that a running producer pushes next, and the others. -/
theorem elements_succ {i done : ℕ} (h : done < (B.count i).toNat) :
    B.elements i done = B.elements i (done + 1) + {B.base i + BitVec.ofNat w done} := by
  obtain ⟨k, hk⟩ : ∃ k, (B.count i).toNat - done = k + 1 := ⟨(B.count i).toNat - done - 1, by omega⟩
  have hk' : (B.count i).toNat - (done + 1) = k := by omega
  rw [elements, hk, rangeItems_succ, elements, hk']

/-- A producer behind its loop has nothing left to push. -/
theorem elements_eq_zero {i done : ℕ} (h : ¬ done < (B.count i).toNat) : B.elements i done = 0 := by
  rw [elements, Nat.sub_eq_zero_of_le (Nat.le_of_not_lt h), rangeItems_zero]

end Bench

end ChanBench

end TmcExamples
