import TmcExamples.Skynet.Model
import TmcExamples.Transition.Parties
import Mathlib.Algebra.BigOperators.Intervals

/-!
# What `skynet_one` computes

The ten children of a call cover ten blocks of equal length that follow each other, so the
numbers at the leaves are those from `BaseNum` on (`leaves_eq`). The sum over a block does not
depend on the order in which its parts complete: the leaves that a task has still to reach and the
result that it will have are functions of the tree of tasks, and a step of any task moves one leaf
from the first to the trace and keeps the second.
-/

namespace TmcExamples

namespace Skynet

variable {w : ℕ} {depthMax baseNum depth : BitVec w}

/-! ### The numbers at the leaves -/

/-- `m` blocks of length `n`. -/
private theorem range_mul (m n : ℕ) :
    List.range (m * n) = (List.range m).flatMap fun i => (List.range n).map (i * n + ·) := by
  induction m with
  | zero => simp
  | succ m ih => rw [Nat.succ_mul, List.range_add, ih, List.range_succ]; simp

private theorem depthOffset_eq (depthMax depth : BitVec w) :
    depthOffset depthMax depth = BitVec.ofNat w (10 ^ levels depthMax (depth + 1)) := by
  have hiter : ∀ n, (fun offset : BitVec w => offset * 10)^[n] 1 = BitVec.ofNat w (10 ^ n) := by
    intro n
    induction n with
    | zero => simp
    | succ n ih =>
      rw [Function.iterate_succ_apply', ih, pow_succ, BitVec.ofNat_mul]
      rfl
  rw [depthOffset, hiter, levels, BitVec.sub_sub]

/-- The number of the `i`-th leaf under the child `idx`. -/
private theorem childNum_add (depthMax baseNum depth : BitVec w) (idx : Fin 10) (i : ℕ) :
    childNum depthMax baseNum depth idx + BitVec.ofNat w i =
      baseNum + BitVec.ofNat w (idx * 10 ^ levels depthMax (depth + 1) + i) := by
  rw [childNum, depthOffset_eq, BitVec.ofNat_add, BitVec.ofNat_mul, mul_comm, add_assoc]

/-- **The leaves in order.** -/
theorem leaves_eq (depthMax baseNum depth : BitVec w) :
    leaves depthMax baseNum depth =
      (List.range (10 ^ levels depthMax depth)).map fun i => baseNum + BitVec.ofNat w i := by
  induction baseNum, depth using leaves.induct depthMax with
  | case1 baseNum => simp [leaves, levels]
  | case2 baseNum depth h ih =>
    have hblock : ∀ idx : Fin 10,
        leaves depthMax (childNum depthMax baseNum depth idx) (depth + 1) =
          (List.range (10 ^ levels depthMax (depth + 1))).map fun i =>
            baseNum + BitVec.ofNat w (idx * 10 ^ levels depthMax (depth + 1) + i) := by
      intro idx
      rw [ih]
      exact List.map_congr_left fun i _ => childNum_add depthMax baseNum depth idx i
    rw [leaves, dif_neg h, levels_eq_succ h, pow_succ', range_mul, List.map_flatMap,
      ← List.map_coe_finRange_eq_range (n := 10), List.flatMap_map]
    simp only [hblock, List.map_map, Function.comp_def]

/-! ### The result -/

private theorem count_eq_sum (results : Fin 10 → BitVec w) : count results = ∑ idx, results idx :=
  foldl_finRange_add results

/-- The result is the sum of the numbers at the leaves. -/
private theorem skynetOne_eq_sum (depthMax baseNum depth : BitVec w) :
    skynetOne depthMax baseNum depth = (leaves depthMax baseNum depth).sum := by
  induction baseNum, depth using leaves.induct depthMax with
  | case1 baseNum => simp [leaves, skynetOne]
  | case2 baseNum depth h ih =>
    rw [leaves, skynetOne, dif_neg h, dif_neg h, count_eq_sum, List.flatMap_def,
      List.sum_flatten, List.map_map, Fin.sum_univ_def]
    simp only [ih, Function.comp_def]

/-- The sum of `n` numbers from `baseNum` on. -/
theorem sum_range_add (baseNum : BitVec w) (n : ℕ) :
    ((List.range n).map fun i => baseNum + BitVec.ofNat w i).sum =
      BitVec.ofNat w (n * baseNum.toNat + n * (n - 1) / 2) := by
  rw [← Finset.sum_range_id]
  induction n with
  | zero => simp
  | succ n ih =>
    rw [List.range_succ, List.map_append, List.sum_append, ih, Finset.sum_range_succ]
    simp only [List.map_singleton, List.sum_singleton, BitVec.ofNat_add, Nat.succ_mul,
      BitVec.ofNat_toNat, BitVec.setWidth_eq]
    ac_rfl

/-- The sum of consecutive numbers in closed form. -/
theorem skynetOne_eq (depthMax baseNum depth : BitVec w) :
    skynetOne depthMax baseNum depth =
      BitVec.ofNat w (10 ^ levels depthMax depth * baseNum.toNat +
        10 ^ levels depthMax depth * (10 ^ levels depthMax depth - 1) / 2) := by
  rw [skynetOne_eq_sum, leaves_eq, sum_range_add]

/-! The check that `skynet<DEPTH>` makes. -/

example : skynetOne 6 0 0 = expectedResult 64 := by rw [skynetOne_eq]; decide

example : skynetOne 6 0 0 = expectedResult 32 := by rw [skynetOne_eq]; decide

/-! ### The tasks in any order -/

/-- The number that a step adds to the leaves that have been reached. -/
def Action.reached : Action w → List (BitVec w)
  | .leaf baseNum => [baseNum]
  | .spawn _ _ | .join => []

namespace Task

variable (depthMax)

/-- The leaves that a task and those under it have still to reach. -/
def remaining : Task w → Multiset (BitVec w)
  | .called baseNum depth => (leaves depthMax baseNum depth : Multiset (BitVec w))
  | .awaiting children => ∑ idx, (children idx).remaining
  | .done _ => 0

/-- The result that a task will have. -/
def result : Task w → BitVec w
  | .called baseNum depth => skynetOne depthMax baseNum depth
  | .awaiting children => count fun idx => (children idx).result
  | .done result => result

/-- The number of steps of a call with `d` levels under it. -/
def steps : ℕ → ℕ
  | 0 => 1
  | d + 1 => 2 + 10 * steps d

/-- The number of steps that a task and those under it have still to take. -/
def work : Task w → ℕ
  | .called _ depth => steps (levels depthMax depth)
  | .awaiting children => 1 + ∑ idx, (children idx).work
  | .done _ => 0

/-- No call is deeper than `depthMax`. -/
def Within : Task w → Prop
  | .called _ depth => depth ≤ depthMax
  | .awaiting children => ∀ idx, (children idx).Within
  | .done _ => True

end Task

variable {t t' : Task w} {a : Action w}

private theorem coe_flatMap {ι β : Type*} (l : List ι) (f : ι → List β) :
    (l.flatMap f : Multiset β) = (l.map fun i => (f i : Multiset β)).sum := by
  induction l with
  | nil => rfl
  | cons i l ih => rw [List.flatMap_cons, ← Multiset.coe_add, ih, List.map_cons, List.sum_cons]

/-- One leaf goes from the leaves to be reached to the trace, or none. -/
theorem Step.remaining (h : Step depthMax t a t') :
    t.remaining depthMax = a.reached + t'.remaining depthMax := by
  induction h with
  | leaf => simp [Task.remaining, Action.reached, leaves]
  | @spawn baseNum depth hdepth =>
    simp only [Task.remaining, Action.reached]
    rw [leaves, dif_neg hdepth, Multiset.coe_nil, zero_add, coe_flatMap, Fin.sum_univ_def]
  | @child children idx a t h ih =>
    have hsum := sum_update_add (Finset.mem_univ idx) children t (Task.remaining depthMax)
    simp only [Task.remaining]
    rw [ih, ← add_assoc] at hsum
    rw [← add_right_cancel hsum, add_comm]
  | join h => simp [Task.remaining, Action.reached, h]

/-- No step changes what the call will return. -/
theorem Step.result (h : Step depthMax t a t') : t'.result depthMax = t.result depthMax := by
  induction h with
  | leaf => simp [Task.result, skynetOne]
  | spawn hdepth => rw [Task.result, Task.result, skynetOne, dif_neg hdepth]; rfl
  | @child children idx a t h ih =>
    have hsame : ∀ j, (Function.update children idx t j).result depthMax =
        (children j).result depthMax := by
      intro j
      by_cases hj : j = idx
      · rw [hj, Function.update_self, ih]
      · rw [Function.update_of_ne hj]
    simp only [Task.result, hsame]
  | join h => simp only [Task.result, h]

/-- Each step takes something from the work of its subtree. -/
theorem Step.work (h : Step depthMax t a t') : t'.work depthMax < t.work depthMax := by
  induction h with
  | leaf => simp [Task.work, Task.steps, levels]
  | spawn hdepth =>
    simp only [Task.work, levels_eq_succ hdepth, Task.steps, Finset.sum_const, Finset.card_univ,
      Fintype.card_fin, smul_eq_mul]
    omega
  | @child children idx a t h ih =>
    have hsum := sum_update_add (Finset.mem_univ idx) children t (Task.work depthMax)
    simp only [Task.work]
    omega
  | join h => simp [Task.work]

private theorem sub_one_of_ne (hle : depth ≤ depthMax) (hne : depth ≠ depthMax) :
    (depthMax - depth - 1).toNat + 1 + depth.toNat = depthMax.toNat := by
  have hlevels := levels_eq_succ hne
  rw [levels, levels, ← BitVec.sub_sub] at hlevels
  rw [← hlevels, BitVec.toNat_sub_of_le hle]
  exact Nat.sub_add_cancel hle

private theorem add_one_le_of_ne (hle : depth ≤ depthMax) (hne : depth ≠ depthMax) :
    depth + 1 ≤ depthMax := by
  have hsub := sub_one_of_ne hle hne
  have hadd : (depth + 1).toNat ≤ depth.toNat + 1 := by
    rw [BitVec.toNat_add]
    calc (depth.toNat + (1 : BitVec w).toNat) % 2 ^ w
        ≤ depth.toNat + (1 : BitVec w).toNat := Nat.mod_le _ _
      _ ≤ depth.toNat + 1 := Nat.add_le_add_left (Nat.mod_le _ _) _
  rw [BitVec.le_def]
  omega

/-- The recursion never goes below its deepest level. -/
theorem Step.within (h : Step depthMax t a t') (ht : t.Within depthMax) : t'.Within depthMax := by
  induction h with
  | leaf => trivial
  | spawn hdepth => exact fun _ => add_one_le_of_ne ht hdepth
  | @child children idx a t h ih =>
    intro j
    by_cases hj : j = idx
    · rw [hj, Function.update_self]
      exact ih (ht idx)
    · rw [Function.update_of_ne hj]
      exact ht j
  | join h => trivial

/-- The calls that spawn are less deep than `depthMax`. -/
private theorem Step.spawn_within {baseNum depth : BitVec w}
    (h : Step depthMax t (.spawn baseNum depth) t') (ht : t.Within depthMax) :
    depth ≤ depthMax ∧ depth ≠ depthMax := by
  generalize ha : Action.spawn baseNum depth = a at h
  induction h with
  | leaf | join => cases ha
  | spawn hdepth =>
    obtain ⟨rfl, rfl⟩ := Action.spawn.inj ha
    exact ⟨ht, hdepth⟩
  | @child children idx a t h ih => exact ih (ht idx) ha

/-- A task that has not completed can take a step, or one under it can. -/
theorem Task.exists_step (depthMax : BitVec w) (t : Task w) :
    (∃ result, t = .done result) ∨ ∃ a t', Step depthMax t a t' := by
  induction t with
  | called baseNum depth =>
    by_cases h : depth = depthMax
    · rw [h]
      exact Or.inr ⟨_, _, .leaf⟩
    · exact Or.inr ⟨_, _, .spawn h⟩
  | awaiting children ih =>
    refine Or.inr ?_
    by_cases h : ∀ idx, ∃ result, children idx = .done result
    · choose results hresults using h
      exact ⟨_, _, .join hresults⟩
    · obtain ⟨idx, hidx⟩ := not_forall.mp h
      obtain ⟨a, t', hstep⟩ := (ih idx).resolve_left hidx
      exact ⟨_, _, .child hstep⟩
  | done result => exact Or.inl ⟨result, rfl⟩

/-! ### Every run -/

variable {tr : List (Action w)}

private theorem run_remaining
    (h : (system depthMax baseNum depth).Run (.called baseNum depth) tr t) :
    (tr.flatMap Action.reached : Multiset (BitVec w)) + t.remaining depthMax =
      leaves depthMax baseNum depth := by
  induction h with
  | nil => exact zero_add _
  | @snoc tr t t' a hrun hstep ih =>
    rw [List.flatMap_append, List.flatMap_singleton, ← Multiset.coe_add, add_assoc,
      ← Step.remaining hstep, ih]

/-- Whatever the order of completion, the call returns the same. -/
theorem run_result (h : (system depthMax baseNum depth).Run (.called baseNum depth) tr t) :
    t.result depthMax = skynetOne depthMax baseNum depth := by
  induction h with
  | nil => rfl
  | snoc hrun hstep ih => rw [Step.result hstep, ih]

private theorem run_within (hle : depth ≤ depthMax)
    (h : (system depthMax baseNum depth).Run (.called baseNum depth) tr t) :
    t.Within depthMax ∧ ∀ base deep, .spawn base deep ∈ tr → deep ≤ depthMax ∧ deep ≠ depthMax := by
  induction h with
  | nil => exact ⟨hle, by simp⟩
  | @snoc tr t t' a hrun hstep ih =>
    obtain ⟨hwithin, hspawn⟩ := ih
    refine ⟨Step.within hstep hwithin, ?_⟩
    intro base deep hmem
    rcases List.mem_append.mp hmem with hmem | hmem
    · exact hspawn base deep hmem
    · obtain rfl := List.mem_singleton.mp hmem
      exact Step.spawn_within hstep hwithin

theorem terminating (depthMax baseNum depth : BitVec w) :
    (system depthMax baseNum depth).Terminating :=
  LTS.terminating_of_rank (Task.work depthMax) fun _ _ _ _ hstep => Step.work hstep

/-- What the call `skynet_one<DepthMax>(BaseNum, Depth)` does, with `d` levels under it. -/
structure Covers (depthMax baseNum depth : BitVec w) (d : ℕ) : Prop where
  /-- The leaves in the order of the children. -/
  leaves_eq : leaves depthMax baseNum depth =
    (List.range (10 ^ d)).map fun i => baseNum + BitVec.ofNat w i
  terminating : (system depthMax baseNum depth).Terminating
  no_underflow : ∀ tr t, (system depthMax baseNum depth).Run (.called baseNum depth) tr t →
    ∀ base deep, .spawn base deep ∈ tr →
      (depthMax - deep - 1).toNat + 1 + deep.toNat = depthMax.toNat
  /-- In a run to the end each of the leaves is reached once. -/
  reached : ∀ tr t, (system depthMax baseNum depth).Run (.called baseNum depth) tr t →
    ¬ (system depthMax baseNum depth).Enabled t →
      (tr.flatMap Action.reached).Perm (leaves depthMax baseNum depth)
  result : ∀ tr t, (system depthMax baseNum depth).Run (.called baseNum depth) tr t →
    ¬ (system depthMax baseNum depth).Enabled t →
      t = .done (BitVec.ofNat w (10 ^ d * baseNum.toNat + 10 ^ d * (10 ^ d - 1) / 2))

/-- **`skynet_one` covers every leaf exactly once**, in whatever order the children complete. -/
theorem skynet_one_covers (depthMax baseNum depth : BitVec w) (hle : depth ≤ depthMax) :
    Covers depthMax baseNum depth (depthMax.toNat - depth.toNat) := by
  have hlevels : depthMax.toNat - depth.toNat = levels depthMax depth :=
    (BitVec.toNat_sub_of_le hle).symm
  have hdone : ∀ tr t, (system depthMax baseNum depth).Run (.called baseNum depth) tr t →
      ¬ (system depthMax baseNum depth).Enabled t → ∃ result, t = .done result :=
    fun _ t _ hend => (t.exists_step depthMax).resolve_right hend
  rw [hlevels]
  refine ⟨Skynet.leaves_eq _ _ _, Skynet.terminating _ _ _, ?_, ?_, ?_⟩
  · intro tr t hrun base deep hmem
    obtain ⟨hdeep, hne⟩ := (run_within hle hrun).2 base deep hmem
    exact sub_one_of_ne hdeep hne
  · intro tr t hrun hend
    obtain ⟨result, rfl⟩ := hdone tr t hrun hend
    have hreached := run_remaining hrun
    rw [Task.remaining, add_zero] at hreached
    exact Multiset.coe_eq_coe.mp hreached
  · intro tr t hrun hend
    obtain ⟨result, rfl⟩ := hdone tr t hrun hend
    rw [← skynetOne_eq, ← run_result hrun, Task.result]

/-- The call that `skynet<DEPTH>` makes. -/
theorem skynet_one_covers_sample : Covers (6 : BitVec 64) 0 0 6 :=
  skynet_one_covers 6 0 0 (by decide)

end Skynet

end TmcExamples
