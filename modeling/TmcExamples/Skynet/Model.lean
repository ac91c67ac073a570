import TmcExamples.Transition.System
import Mathlib.Algebra.BigOperators.Fin
import Mathlib.Data.BitVec

/-!
# The coroutines of `skynet.cpp`

`skynet_one<DepthMax>(BaseNum, Depth)` returns `BaseNum` at depth `DepthMax`, and else the sum
of the results of ten calls one level deeper, whose numbers are `depthOffset` apart. Numbers are
of the type `size_t`, here the bit vectors of a width `w`.

The function is given in two forms. `skynetOne` calls the ten children one after the other,
and `leaves` lists the numbers of the calls at depth `DepthMax` in that order. In `system` the
children of a call are tasks of their own, as `spawn_many` makes them: each takes its steps when
it likes, and the parent goes on when all of them have returned.
-/

namespace TmcExamples

namespace Skynet

variable {w : ℕ}

/-- The number of levels below `depth`. -/
def levels (depthMax depth : BitVec w) : ℕ := (depthMax - depth).toNat

/-- Above the deepest level there is one level more than below. -/
theorem levels_eq_succ {depthMax depth : BitVec w} (h : depth ≠ depthMax) :
    levels depthMax depth = levels depthMax (depth + 1) + 1 := by
  have hne : depthMax - depth ≠ 0 := sub_ne_zero_of_ne h.symm
  have hpos : 0 < (depthMax - depth).toNat :=
    Nat.pos_of_ne_zero fun h0 => hne (BitVec.eq_of_toNat_eq h0)
  have hone : (1 : BitVec w).toNat = 1 :=
    Nat.mod_eq_of_lt (Nat.lt_of_le_of_lt hpos (depthMax - depth).isLt)
  have hle : (1 : BitVec w) ≤ depthMax - depth := by rw [BitVec.le_def, hone]; exact hpos
  rw [levels, levels, ← BitVec.sub_sub, BitVec.toNat_sub_of_le hle, hone]
  exact (Nat.sub_add_cancel hpos).symm

/-- The loop that computes `depthOffset`. -/
def depthOffset (depthMax depth : BitVec w) : BitVec w :=
  (fun offset => offset * 10)^[(depthMax - depth - 1).toNat] 1

/-- The number that the child `idx` is called with. -/
def childNum (depthMax baseNum depth : BitVec w) (idx : Fin 10) : BitVec w :=
  baseNum + depthOffset depthMax depth * BitVec.ofNat w idx

/-- The loop that adds up `results`. -/
def count (results : Fin 10 → BitVec w) : BitVec w :=
  (List.finRange 10).foldl (fun count idx => count + results idx) 0

/-- `EXPECTED_RESULT`, for the two widths that `size_t` has. -/
def expectedResult (w : ℕ) : BitVec w := if w = 64 then 499999500000 else 1783293664

/-! ### The calls one after the other -/

/-- `skynet_one`, with the children called in order. -/
def skynetOne (depthMax baseNum depth : BitVec w) : BitVec w :=
  if _h : depth = depthMax then baseNum
  else count fun idx => skynetOne depthMax (childNum depthMax baseNum depth idx) (depth + 1)
termination_by levels depthMax depth
decreasing_by exact (levels_eq_succ _h).symm ▸ Nat.lt_succ_self _

/-- The numbers of the calls that return their number, in the order of the children. -/
def leaves (depthMax baseNum depth : BitVec w) : List (BitVec w) :=
  if _h : depth = depthMax then [baseNum]
  else (List.finRange 10).flatMap fun idx =>
    leaves depthMax (childNum depthMax baseNum depth idx) (depth + 1)
termination_by levels depthMax depth
decreasing_by exact (levels_eq_succ _h).symm ▸ Nat.lt_succ_self _

/-! ### The calls as tasks -/

/-- A task: called, suspended in `co_await spawn_many` on its ten children, or completed with
a result. -/
inductive Task (w : ℕ)
  | called (baseNum depth : BitVec w)
  | awaiting (children : Fin 10 → Task w)
  | done (result : BitVec w)

/-- The steps of the tasks. -/
inductive Action (w : ℕ)
  | leaf (baseNum : BitVec w)
  | spawn (baseNum depth : BitVec w)
  | join

/-- The steps of a task and of the tasks under it. -/
inductive Step (depthMax : BitVec w) : Task w → Action w → Task w → Prop
  | leaf {baseNum : BitVec w} :
      Step depthMax (.called baseNum depthMax) (.leaf baseNum) (.done baseNum)
  | spawn {baseNum depth : BitVec w} (hdepth : depth ≠ depthMax) :
      Step depthMax (.called baseNum depth) (.spawn baseNum depth)
        (.awaiting fun idx => .called (childNum depthMax baseNum depth idx) (depth + 1))
  | child {children : Fin 10 → Task w} {idx : Fin 10} {a : Action w} {t : Task w}
      (h : Step depthMax (children idx) a t) :
      Step depthMax (.awaiting children) a (.awaiting (Function.update children idx t))
  | join {children : Fin 10 → Task w} {results : Fin 10 → BitVec w}
      (h : ∀ idx, children idx = .done (results idx)) :
      Step depthMax (.awaiting children) .join (.done (count results))

/-- A call of `skynet_one` as a transition system. -/
def system (depthMax baseNum depth : BitVec w) : LTS (Task w) (Action w) :=
  ⟨.called baseNum depth, Step depthMax⟩

end Skynet

end TmcExamples
