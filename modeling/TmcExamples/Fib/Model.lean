import Mathlib.Algebra.BigOperators.Group.List.Basic
import Mathlib.Data.BitVec
import Mathlib.Data.Nat.Fib.Basic
import TmcExamples.Transition.System

/-!
# Fork and join in `fib.cpp`

`fib(n)` forks a task for `fib(n - 1)`, awaits `fib(n - 2)` itself, then awaits the fork, and adds
up. A task is the tree of the calls under it; every call of it takes its steps when it likes.
Numbers are of the type `size_t`, here the bit vectors of a width `w`.

In whatever order the calls proceed, the run ends with the Fibonacci number, modulo `2 ^ w`, and
there have been `2 * fib (n + 1) - 1` calls (`fib_computes`).
-/

namespace TmcExamples

namespace Fib

variable {w : ℕ}

/-- A call of `fib`: called, suspended in `co_await fib(n - 2)` with the fork running beside it,
suspended in `co_await std::move(xt)` with the value of `y`, or completed. -/
inductive Task (w : ℕ)
  | called (n : BitVec w)
  | forked (xt : Task w) (callee : Task w)
  | joining (xt : Task w) (y : BitVec w)
  | done (result : BitVec w)

/-- The steps of a call: the return of a small number, the fork, the return of the callee, and
the join. -/
inductive Action
  | small
  | fork
  | resume
  | join
  deriving DecidableEq, Repr

/-- The steps of a call and of those under it. -/
inductive Step : Task w → Action → Task w → Prop
  | small {n : BitVec w} (h : n.toNat < 2) : Step (.called n) .small (.done n)
  | fork {n : BitVec w} (h : ¬ n.toNat < 2) :
      Step (.called n) .fork (.forked (.called (n - 1)) (.called (n - 2)))
  | callee {xt callee callee' : Task w} {a : Action} (h : Step callee a callee') :
      Step (.forked xt callee) a (.forked xt callee')
  | besideCallee {xt xt' callee : Task w} {a : Action} (h : Step xt a xt') :
      Step (.forked xt callee) a (.forked xt' callee)
  | resume {xt : Task w} {y : BitVec w} : Step (.forked xt (.done y)) .resume (.joining xt y)
  | besideJoin {xt xt' : Task w} {y : BitVec w} {a : Action} (h : Step xt a xt') :
      Step (.joining xt y) a (.joining xt' y)
  | join {x y : BitVec w} : Step (.joining (.done x) y) .join (.done (x + y))

/-- A call of `fib` as a transition system. -/
def system (n : BitVec w) : LTS (Task w) Action := ⟨.called n, Step⟩

/-! ### What is left to do -/

/-- The action starts a call. -/
def Action.starts : Action → ℕ
  | .small | .fork => 1
  | .resume | .join => 0

/-- The number of calls that `fib(n)` makes, its own one included. -/
def calls : ℕ → ℕ
  | 0 | 1 => 1
  | n + 2 => calls (n + 1) + calls n + 1

namespace Task

/-- The calls that are still to be started. -/
def calls : Task w → ℕ
  | .called n => Fib.calls n.toNat
  | .forked xt callee => xt.calls + callee.calls
  | .joining xt _ => xt.calls
  | .done _ => 0

/-- The result that a call will have. -/
def result : Task w → BitVec w
  | .called n => BitVec.ofNat w (Nat.fib n.toNat)
  | .forked xt callee => xt.result + callee.result
  | .joining xt y => xt.result + y
  | .done result => result

/-- The steps that are still to be taken. -/
def work : Task w → ℕ
  | .called n => 3 * Fib.calls n.toNat
  | .forked xt callee => xt.work + callee.work + 2
  | .joining xt _ => xt.work + 1
  | .done _ => 0

end Task

private theorem calls_eq (n : ℕ) : calls n + 1 = 2 * Nat.fib (n + 1) := by
  induction n using Nat.twoStepInduction with
  | zero => rfl
  | one => rfl
  | more n ih₀ ih₁ =>
    have hfib : Nat.fib (n + 2 + 1) = Nat.fib (n + 1) + Nat.fib (n + 1 + 1) := Nat.fib_add_two
    rw [calls]
    omega

/-! ### Small numbers and their successors -/

section Arith

variable {n : BitVec w}

/-- The arguments of the calls do not wrap around. -/
theorem toNat_sub_of_le {k : ℕ} (h : k ≤ n.toNat) : (n - BitVec.ofNat w k).toNat = n.toNat - k := by
  have hk : (BitVec.ofNat w k).toNat = k := Nat.mod_eq_of_lt (h.trans_lt n.isLt)
  rw [BitVec.toNat_sub_of_le (by rw [BitVec.le_def, hk]; exact h), hk]

/-- A number that is not small is two more than the argument of the callee, and one more than that
of the fork. -/
private theorem exists_of_not_small (h : ¬ n.toNat < 2) :
    ∃ m, n.toNat = m + 2 ∧ (n - 1).toNat = m + 1 ∧ (n - 2).toNat = m := by
  have h1 : (n - 1).toNat = n.toNat - 1 := toNat_sub_of_le (k := 1) (by omega)
  have h2 : (n - 2).toNat = n.toNat - 2 := toNat_sub_of_le (k := 2) (by omega)
  exact ⟨n.toNat - 2, by omega, by omega, h2⟩

private theorem fib_of_small (h : n.toNat < 2) : BitVec.ofNat w (Nat.fib n.toNat) = n := by
  have hfib : Nat.fib n.toNat = n.toNat := by
    rcases Nat.lt_succ_iff_lt_or_eq.mp h with h0 | h1
    · rw [Nat.lt_one_iff.mp h0]
      rfl
    · rw [h1]
      rfl
  rw [hfib, BitVec.ofNat_toNat, BitVec.setWidth_eq]

private theorem calls_of_small (h : n.toNat < 2) : calls n.toNat = 1 := by
  rcases Nat.lt_succ_iff_lt_or_eq.mp h with h0 | h1
  · rw [Nat.lt_one_iff.mp h0]
    rfl
  · rw [h1]
    rfl

end Arith

/-! ### Steps -/

variable {t t' : Task w} {a : Action} {n : BitVec w}

/-- A step starts as many calls as are missing afterwards. -/
theorem Step.calls (h : Step t a t') : t.calls = a.starts + t'.calls := by
  induction h with
  | small h =>
    simp only [Task.calls, calls_of_small h, Action.starts]
  | fork h =>
    obtain ⟨m, hn, h1, h2⟩ := exists_of_not_small h
    simp only [Task.calls, hn, h1, h2, Action.starts, Fib.calls]
    omega
  | callee h ih | besideCallee h ih =>
    simp only [Task.calls, ih]
    omega
  | besideJoin h ih => simp only [Task.calls, ih]
  | resume => simp only [Task.calls, Action.starts, Nat.zero_add, Nat.add_zero]
  | join => rfl

/-- A step keeps the result. -/
theorem Step.result (h : Step t a t') : t'.result = t.result := by
  induction h with
  | small h => exact (fib_of_small h).symm
  | fork h =>
    obtain ⟨m, hn, h1, h2⟩ := exists_of_not_small h
    simp only [Task.result, hn, h1, h2]
    rw [Nat.fib_add_two, ← BitVec.ofNat_add, Nat.add_comm]
  | callee h ih | besideCallee h ih | besideJoin h ih => simp only [Task.result, ih]
  | resume | join => rfl

/-- Each step takes something from the work of its subtree. -/
theorem Step.work (h : Step t a t') : t'.work < t.work := by
  induction h with
  | small h =>
    simp only [Task.work, calls_of_small h]
    omega
  | fork h =>
    obtain ⟨m, hn, h1, h2⟩ := exists_of_not_small h
    simp only [Task.work, hn, h1, h2, Fib.calls]
    omega
  | callee h ih | besideCallee h ih | besideJoin h ih =>
    simp only [Task.work]
    omega
  | resume | join =>
    simp only [Task.work]
    omega

/-- A call that has not completed can take a step, or one under it can. -/
theorem Task.exists_step (t : Task w) : (∃ result, t = .done result) ∨ ∃ a t', Step t a t' := by
  induction t with
  | called n =>
    by_cases h : n.toNat < 2
    · exact .inr ⟨_, _, .small h⟩
    · exact .inr ⟨_, _, .fork h⟩
  | forked xt callee ihx ihc =>
    obtain ⟨y, rfl⟩ | ⟨a, t', hstep⟩ := ihc
    · exact .inr ⟨_, _, .resume⟩
    · exact .inr ⟨_, _, .callee hstep⟩
  | joining xt y ih =>
    obtain ⟨x, rfl⟩ | ⟨a, t', hstep⟩ := ih
    · exact .inr ⟨_, _, .join⟩
    · exact .inr ⟨_, _, .besideJoin hstep⟩
  | done result => exact .inl ⟨result, rfl⟩

/-! ### Runs -/

private theorem run_calls {tr : List Action} (h : (system n).Run (system n).init tr t) :
    (tr.map Action.starts).sum + t.calls = calls n.toNat := by
  refine LTS.Run.induct (P := fun tr t => (tr.map Action.starts).sum + t.calls = calls n.toNat)
    (Nat.zero_add _) ?_ h
  intro tr t a t' hr ih hs
  have hcalls := Step.calls hs
  rw [List.map_append, List.sum_append, List.map_singleton, List.sum_singleton]
  omega

private theorem result_of_reachable (h : (system n).Reachable t) :
    t.result = BitVec.ofNat w (Nat.fib n.toNat) :=
  h.induct (P := fun t => t.result = BitVec.ofNat w (Nat.fib n.toNat)) rfl
    fun _ _ _ _ ih hs => (Step.result hs).trans ih

/-- **`fib` computes the Fibonacci numbers.** However the forks and the callees interleave, every
run of `fib(n)` ends with the Fibonacci number modulo `2 ^ w`, after `2 * fib (n + 1) - 1` calls. -/
theorem fib_computes (n : BitVec w) :
    (system n).Terminating ∧
      ∀ tr t, (system n).Run (system n).init tr t → ¬ (system n).Enabled t →
        t = .done (BitVec.ofNat w (Nat.fib n.toNat)) ∧
          (tr.map Action.starts).sum + 1 = 2 * Nat.fib (n.toNat + 1) := by
  refine ⟨LTS.terminating_of_rank Task.work fun _ _ _ _ hs => Step.work hs, ?_⟩
  intro tr t hrun hend
  obtain ⟨result, rfl⟩ := t.exists_step.resolve_right hend
  have hresult := result_of_reachable hrun.reachable
  have hcalls := run_calls hrun
  rw [Task.calls, Nat.add_zero] at hcalls
  exact ⟨congrArg Task.done hresult, hcalls ▸ calls_eq n.toNat⟩

end Fib

end TmcExamples
