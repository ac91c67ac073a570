import Mathlib.Algebra.BigOperators.Fin
import Mathlib.Algebra.BigOperators.Pi
import Mathlib.Algebra.Order.BigOperators.Group.Finset
import Mathlib.Data.BitVec
import TmcExamples.Transition.Parties
import TmcExamples.Transition.System

/-!
# A fixed level of concurrency

The tests `mux_many_fork_maintains_concurrency` and `mux_tuple_fork_maintains_concurrency` fork work
into all slots of a mux. Whenever a result is consumed, they fork the next work into its slot,
until they have consumed `limit` results; then they consume the rest.

`co_await mux` returns some slot that is ready, or `end()` if no slot is active; a slot is active
from its fork until its result is consumed. The work in the slots may complete in any order. The
invariant counts each result with its value, from its fork until it has been consumed, so that
the totals do not depend on the order. Values and their sum are 32 bits wide and wrap; the number
of results is taken not to overflow.
-/

namespace TmcExamples

namespace MuxTests

/-- A test with its number of slots, and the number of results at which it stops to fork. -/
structure Test where
  slots : ℕ
  slots_pos : 0 < slots
  limit : ℕ

/-- A slot of the mux; `work(v)` runs in it, or its result has not been consumed yet. -/
inductive Slot
  | inactive
  | running (v : BitVec 32)
  | ready (v : BitVec 32)
  deriving DecidableEq

/-- The program points of the test: the first forks, the head of the loop, its body with the slot
and its result, and the end. -/
inductive Point (T : Test)
  | fork (j : ℕ)
  | awaitMux
  | consume (i : Fin T.slots) (v : BitVec 32)
  | returned

/-- The value of the first work of slot `j`. -/
def first (j : ℕ) : BitVec 32 := BitVec.ofNat 32 j

/-- `next` -/
def next (produced : ℕ) : BitVec 32 := (BitVec.ofNat 32 produced + 1) * 10

/-- The state of the test, with its local variables. -/
structure State (T : Test) where
  point : Point T
  slot : Fin T.slots → Slot
  produced : ℕ
  sum : BitVec 32

/-- The steps of the test, and the completion of the work in a slot. -/
inductive Action (T : Test)
  | fork (i : Fin T.slots)
  | loop
  | awaitSlot (i : Fin T.slots)
  | awaitEnd
  | consume
  | complete (i : Fin T.slots)

/-- The steps of the test. -/
inductive Step (T : Test) : State T → Action T → State T → Prop
  | fork {s : State T} {i : Fin T.slots} (h : s.point = .fork i) :
      Step T s (.fork i)
        { s with
          point := .fork (i + 1)
          slot := Function.update s.slot i (.running (first i)) }
  | loop {s : State T} (h : s.point = .fork T.slots) : Step T s .loop { s with point := .awaitMux }
  | awaitSlot {s : State T} {i : Fin T.slots} {v : BitVec 32} (h : s.point = .awaitMux)
      (hready : s.slot i = .ready v) :
      Step T s (.awaitSlot i)
        { s with
          point := .consume i v
          slot := Function.update s.slot i .inactive }
  | awaitEnd {s : State T} (h : s.point = .awaitMux) (hend : ∀ i, s.slot i = .inactive) :
      Step T s .awaitEnd { s with point := .returned }
  | consume {s : State T} {i : Fin T.slots} {v : BitVec 32} (h : s.point = .consume i v) :
      Step T s .consume
        { point := .awaitMux
          slot := if s.produced + 1 < T.limit then
              Function.update s.slot i (.running (next (s.produced + 1)))
            else s.slot
          produced := s.produced + 1
          sum := s.sum + v }
  | complete {s : State T} {i : Fin T.slots} {v : BitVec 32} (h : s.slot i = .running v) :
      Step T s (.complete i) { s with slot := Function.update s.slot i (.ready v) }

/-- The test. -/
def Test.system (T : Test) : LTS (State T) (Action T) where
  init := ⟨.fork 0, fun _ => .inactive, 0, 0⟩
  step := Step T

variable {T : Test} {s s' : State T} {a : Action T}

/-! ### The totals -/

/-- A slot that is active counts as one result with its value. -/
def Slot.share : Slot → ℕ × BitVec 32
  | .inactive => 0
  | .running v | .ready v => (1, v)

@[simp]
theorem Slot.share_inactive : Slot.share .inactive = 0 := rfl

@[simp]
theorem Slot.share_running (v : BitVec 32) : (Slot.running v).share = (1, v) := rfl

@[simp]
theorem Slot.share_ready (v : BitVec 32) : (Slot.ready v).share = (1, v) := rfl

/-- The result that the body of the loop has in its hands. -/
def Point.share : Point T → ℕ × BitVec 32
  | .consume _ v => (1, v)
  | _ => 0

/-- The number of the first forks that have been made. -/
def Point.forked : Point T → ℕ
  | .fork j => j
  | _ => T.slots

/-- What has been forked, when `j` of the first forks have been made and `produced` results have
been consumed. -/
def forked (limit j produced : ℕ) : ℕ × BitVec 32 :=
  ∑ i ∈ Finset.range j, (1, first i) +
    ∑ p ∈ Finset.range (min produced (limit - 1)), (1, next (p + 1))

/-- What has been forked is consumed, or in the body of the loop, or in a slot. -/
def State.Balanced (s : State T) : Prop :=
  (s.produced, s.sum) + s.point.share + ∑ i, (s.slot i).share =
    forked T.limit s.point.forked s.produced

/-- The slot `i` need not be active: it has not been forked yet, or the body of the loop has its
result in its hands. -/
def Point.Vacant (i : Fin T.slots) : Point T → Prop
  | .fork j => j ≤ i
  | .consume k _ => k = i
  | .awaitMux | .returned => False

/-- A slot that has been forked is active again at the head of the loop, until `limit` results have
been consumed. -/
def State.Full (s : State T) : Prop :=
  s.produced < T.limit → ∀ i, s.slot i = .inactive → s.point.Vacant i

/-- Slots that have not been forked yet are inactive, so is the one whose result the body of the
loop has in its hands, and at the end all slots are. -/
def Point.Idle (slot : Fin T.slots → Slot) : Point T → Prop
  | .fork j => j ≤ T.slots ∧ ∀ i : Fin T.slots, j ≤ i → slot i = .inactive
  | .consume i _ => slot i = .inactive
  | .awaitMux => True
  | .returned => ∀ i, slot i = .inactive

/-- The invariant of the test. -/
structure Inv (s : State T) : Prop where
  balanced : s.Balanced
  full : s.Full
  idle : s.point.Idle s.slot

theorem inv_init (T : Test) : Inv T.system.init where
  balanced := by
    have hslots : ∑ i : Fin T.slots, (T.system.init.slot i).share = 0 :=
      Finset.sum_eq_zero fun _ _ => rfl
    rw [State.Balanced, hslots]
    change ((0, 0) : ℕ × BitVec 32) + 0 + 0 = forked T.limit 0 0
    rw [forked, Nat.zero_min, Finset.sum_range_zero]
    rfl
  full _ i _ := Nat.zero_le i
  idle := ⟨Nat.zero_le _, fun _ _ => rfl⟩

/-- The shares of the slots when one of them has changed. -/
private theorem sum_share_update (s : State T) (i : Fin T.slots) (x : Slot) :
    ∑ j, (Function.update s.slot i x j).share + (s.slot i).share =
      ∑ j, (s.slot j).share + x.share :=
  sum_update_add (Finset.mem_univ i) s.slot x Slot.share

private theorem forked_succ (limit j produced : ℕ) :
    forked limit (j + 1) produced = forked limit j produced + (1, first j) := by
  rw [forked, Finset.sum_range_succ, add_right_comm, forked]

/-- Another result that is consumed allows for a fork, unless it reaches the limit. -/
private theorem forked_consume (limit j produced : ℕ) :
    forked limit j (produced + 1) =
      forked limit j produced + if produced + 1 < limit then (1, next (produced + 1)) else 0 := by
  rw [forked, forked, add_assoc]
  congr 1
  split
  · rename_i hlt
    have hmin : min (produced + 1) (limit - 1) = min produced (limit - 1) + 1 := by omega
    have hmin' : min produced (limit - 1) = produced := by omega
    rw [hmin, Finset.sum_range_succ, hmin']
  · rename_i hlt
    have hmin : min (produced + 1) (limit - 1) = min produced (limit - 1) := by omega
    rw [hmin, add_zero]

/-! ### One step -/

section Steps

variable {slot : Fin T.slots → Slot} {i j : Fin T.slots} {v : BitVec 32}

/-- A slot that is inactive behind an update with an active one. -/
private theorem inactive_of_update {x : Slot} (h : Function.update slot i x j = .inactive)
    (hx : x ≠ .inactive) : j ≠ i ∧ slot j = .inactive := by
  by_cases hji : j = i
  · rw [hji, Function.update_self] at h
    exact (hx h).elim
  · rw [Function.update_of_ne hji] at h
    exact ⟨hji, h⟩

/-- Work that completes was not in a slot that is idle. -/
theorem Point.Idle.complete {p : Point T} (h : p.Idle slot) (hrun : slot i = .running v) :
    p.Idle (Function.update slot i (.ready v)) := by
  have hne : ∀ j, slot j = .inactive → Function.update slot i (.ready v) j = .inactive := by
    intro j hj
    have hji : j ≠ i := fun he => by
      rw [he, hrun] at hj
      cases hj
    rw [Function.update_of_ne hji, hj]
  cases p with
  | fork j => exact ⟨h.1, fun k hk => hne k (h.2 k hk)⟩
  | awaitMux => trivial
  | consume k w => exact hne k h
  | returned => exact fun k => hne k (h k)

/-- The first results are forked one slot after the other. -/
theorem Inv.fork (h : Inv s) (hp : s.point = .fork i) :
    Inv { s with
      point := .fork (i + 1)
      slot := Function.update s.slot i (.running (first i)) } := by
  obtain ⟨hbalanced, hfull, hidle⟩ := h
  simp only [State.Balanced, hp, Point.share, Point.forked, add_zero] at hbalanced
  rw [hp] at hidle
  have hshare := sum_share_update s i (.running (first i))
  simp only [hidle.2 i le_rfl, Slot.share_inactive, Slot.share_running, add_zero] at hshare
  refine ⟨?_, fun hlt j hj => ?_, i.isLt, fun j hj => ?_⟩
  · simp only [State.Balanced, Point.share, Point.forked, add_zero]
    rw [hshare, ← add_assoc, hbalanced, forked_succ]
  · obtain ⟨hji, hj⟩ := inactive_of_update hj nofun
    have hvacant := hfull hlt j hj
    rw [hp] at hvacant
    exact lt_of_le_of_ne hvacant fun he => hji (Fin.ext he.symm)
  · have hji : j ≠ i := fun he => absurd hj (by rw [he]; exact Nat.not_succ_le_self _)
    change Function.update s.slot i (.running (first i)) j = .inactive
    rw [Function.update_of_ne hji]
    exact hidle.2 j (Nat.le_of_succ_le hj)

/-- When the loop of the forks is over, all slots are active. -/
theorem Inv.loop (h : Inv s) (hp : s.point = .fork T.slots) :
    Inv { s with point := .awaitMux } := by
  obtain ⟨hbalanced, hfull, -⟩ := h
  rw [State.Balanced, hp] at hbalanced
  refine ⟨hbalanced, fun hlt j hj => ?_, trivial⟩
  have hvacant := hfull hlt j hj
  rw [hp] at hvacant
  exact absurd j.isLt (not_lt.mpr hvacant)

private theorem Inv.awaitSlot (h : Inv s) (hp : s.point = .awaitMux)
    (hready : s.slot i = .ready v) :
    Inv { s with
      point := .consume i v
      slot := Function.update s.slot i .inactive } := by
  obtain ⟨hbalanced, hfull, -⟩ := h
  simp only [State.Balanced, hp, Point.share, Point.forked, add_zero] at hbalanced
  have hshare := sum_share_update s i .inactive
  simp only [hready, Slot.share_inactive, Slot.share_ready, add_zero] at hshare
  refine ⟨?_, fun hlt j hj => ?_, Function.update_self i _ _⟩
  · simp only [State.Balanced, Point.share, Point.forked]
    rw [add_assoc, add_comm (1, v), hshare, hbalanced]
  · by_cases hji : j = i
    · exact hji.symm
    · change Function.update _ _ _ j = _ at hj
      rw [Function.update_of_ne hji] at hj
      have hvacant := hfull hlt j hj
      rw [hp] at hvacant
      exact hvacant.elim

/-- The mux is empty only when nothing is to be forked any more. -/
theorem Inv.awaitEnd (h : Inv s) (hp : s.point = .awaitMux) (hend : ∀ i, s.slot i = .inactive) :
    Inv { s with point := .returned } := by
  obtain ⟨hbalanced, hfull, -⟩ := h
  rw [State.Balanced, hp] at hbalanced
  rw [State.Full, hp] at hfull
  exact ⟨hbalanced, hfull, hend⟩

/-- The slot of a consumed result is forked into again, up to the limit. -/
theorem Inv.consume (h : Inv s) (hp : s.point = .consume i v) :
    Inv { point := .awaitMux
          slot := if s.produced + 1 < T.limit then
              Function.update s.slot i (.running (next (s.produced + 1)))
            else s.slot
          produced := s.produced + 1
          sum := s.sum + v } := by
  obtain ⟨hbalanced, hfull, hidle⟩ := h
  simp only [State.Balanced, hp, Point.share, Point.forked] at hbalanced
  rw [hp] at hidle
  have hi : s.slot i = .inactive := hidle
  have hshare := sum_share_update s i (.running (next (s.produced + 1)))
  simp only [hi, Slot.share_inactive, Slot.share_running, add_zero] at hshare
  refine ⟨?_, fun hlt j hj => ?_, trivial⟩
  · have hadd : (s.produced + 1, s.sum + v) = (s.produced, s.sum) + (1, v) := rfl
    simp only [State.Balanced, Point.share, Point.forked, add_zero]
    rw [hadd, forked_consume, ← hbalanced, add_assoc _ _ (ite _ _ _)]
    congr 1
    split
    · exact hshare
    · exact (add_zero _).symm
  · -- The slot whose result was consumed has been forked again.
    dsimp only at hlt hj
    rw [if_pos hlt] at hj
    obtain ⟨hji, hj⟩ := inactive_of_update hj nofun
    have hvacant := hfull (Nat.lt_of_succ_lt hlt) j hj
    rw [hp] at hvacant
    exact hji hvacant.symm

/-- A completion moves a result from the work to the slot. -/
theorem Inv.complete (h : Inv s) (hrun : s.slot i = .running v) :
    Inv { s with slot := Function.update s.slot i (.ready v) } := by
  obtain ⟨hbalanced, hfull, hidle⟩ := h
  have hshare := sum_share_update s i (.ready v)
  rw [hrun] at hshare
  refine ⟨?_, fun hlt j hj => hfull hlt j (inactive_of_update hj nofun).2, hidle.complete hrun⟩
  rw [State.Balanced, ← hbalanced]
  exact congrArg _ (add_right_cancel hshare)

end Steps

/-- Every step keeps the balance of the results and the slots full. -/
theorem inv_step (h : Inv s) (hs : Step T s a s') : Inv s' := by
  cases hs with
  | fork hp => exact h.fork hp
  | loop hp => exact h.loop hp
  | awaitSlot hp hready => exact h.awaitSlot hp hready
  | awaitEnd hp hend => exact h.awaitEnd hp hend
  | consume hp => exact h.consume hp
  | complete hrun => exact h.complete hrun

theorem inv_of_reachable (h : T.system.Reachable s) : Inv s :=
  h.induct (inv_init T) fun _ _ _ _ hinv hs => inv_step hinv hs

/-! ### Every run ends -/

/-- How much a slot has left to do. -/
def Slot.rank : Slot → ℕ
  | .inactive => 0
  | .running _ => 3
  | .ready _ => 2

/-- How far the point is from the end, apart from the results to come. -/
def Point.rank : Point T → ℕ
  | .fork j => 4 * (T.slots - j) + 2
  | .awaitMux => 1
  | .consume _ _ => 2
  | .returned => 0

/-- The rank of a state; a result that may still be followed by a fork pays for it. -/
def State.rank (s : State T) : ℕ :=
  5 * (T.limit - s.produced) + s.point.rank + ∑ i, (s.slot i).rank

private theorem sum_rank_update (s : State T) (i : Fin T.slots) (x : Slot) :
    ∑ j, (Function.update s.slot i x j).rank + (s.slot i).rank =
      ∑ j, (s.slot j).rank + x.rank :=
  sum_update_add (Finset.mem_univ i) s.slot x Slot.rank

/-- **Every step decreases the rank.** -/
theorem rank_step (hs : Step T s a s') : s'.rank < s.rank := by
  cases hs with
  | @fork i hp =>
    have hsum := sum_rank_update s i (.running (first i))
    have hi := i.isLt
    simp only [State.rank, hp, Point.rank, Slot.rank] at hsum ⊢
    omega
  | loop hp | awaitEnd hp =>
    simp only [State.rank, hp, Point.rank]
    omega
  | @awaitSlot i v hp hready =>
    have hsum := sum_rank_update s i .inactive
    simp only [State.rank, hp, hready, Point.rank, Slot.rank] at hsum ⊢
    omega
  | @consume i v hp =>
    have hsum := sum_rank_update s i (.running (next (s.produced + 1)))
    simp only [State.rank, hp, Point.rank, Slot.rank] at hsum ⊢
    split <;> omega
  | @complete i v hrun =>
    have hsum := sum_rank_update s i (.ready v)
    simp only [State.rank, hrun, Slot.rank] at hsum ⊢
    omega

/-- The results that are still to come bound the run. -/
theorem system_terminating (T : Test) : T.system.Terminating :=
  LTS.terminating_of_rank State.rank fun _ _ _ _ hs => rank_step hs

/-- **No deadlock.** A test that cannot go on has returned. -/
theorem returned_of_not_enabled (h : Inv s) (hend : ¬ T.system.Enabled s) :
    s.point = .returned := by
  have hstuck : ∀ a s', ¬ Step T s a s' := fun a s' hs => hend ⟨a, s', hs⟩
  cases hp : s.point with
  | fork j =>
    have hidle := h.idle
    rw [hp] at hidle
    rcases hidle.1.lt_or_eq with hlt | rfl
    · exact (hstuck _ _ (.fork (i := ⟨j, hlt⟩) hp)).elim
    · exact (hstuck _ _ (.loop hp)).elim
  | awaitMux =>
    -- Work that runs may complete, and what is ready is found.
    refine (hstuck _ _ (.awaitEnd hp fun i => ?_)).elim
    cases hi : s.slot i with
    | inactive => rfl
    | running v => exact (hstuck _ _ (.complete hi)).elim
    | ready v => exact (hstuck _ _ (.awaitSlot hp hi)).elim
  | consume i v => exact (hstuck _ _ (.consume hp)).elim
  | returned => rfl

end MuxTests

end TmcExamples
