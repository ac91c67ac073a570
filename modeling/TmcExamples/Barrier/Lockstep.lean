import Mathlib.Data.Fintype.Card
import TmcExamples.Transition.Parties

/-!
# Parties in lockstep behind a barrier

Any finite number of parties run between the awaits of one barrier, which counts the arrivals
and releases all parties with the last of them. `phase` is the number of awaits that a party
has completed, as its local state tells, and `Waiting` says that it has arrived and is suspended.

`Lockstep` is the invariant that the barrier is for: all parties are in the same phase, and
the count of the barrier is the number of those that wait, who are not all. A step of a
party between two awaits keeps it (`Lockstep.move`), and so does an arrival, whether it is not
the last one (`Lockstep.arrive`) or is (`Lockstep.release`).
-/

namespace TmcExamples

universe u v

variable {ι : Type u} {L : Type v} {phase : L → ℕ} {Waiting : L → Prop}
variable {loc : ι → L} {t : ι} {x : L}

private theorem phase_update [DecidableEq ι] (h : ∀ t u, phase (loc t) = phase (loc u))
    (hx : phase x = phase (loc t)) (u v : ι) :
    phase (Function.update loc t x u) = phase (Function.update loc t x v) := by
  have hloc : ∀ u, phase (Function.update loc t x u) = phase (loc t) :=
    forall_update (P := fun _ y => phase y = phase (loc t)) (fun u => h u t) hx
  rw [hloc u, hloc v]

variable [Fintype ι] [DecidablePred Waiting]

/-- The parties that wait. -/
def waiters (Waiting : L → Prop) [DecidablePred Waiting] (loc : ι → L) : Finset ι :=
  Finset.univ.filter fun t => Waiting (loc t)

private theorem mem_waiters : t ∈ waiters Waiting loc ↔ Waiting (loc t) := by
  rw [waiters, Finset.mem_filter]
  exact and_iff_right (Finset.mem_univ t)

/-- All parties are in the same phase, and the barrier has counted those that wait. -/
structure Lockstep (phase : L → ℕ) (Waiting : L → Prop) [DecidablePred Waiting] (loc : ι → L)
    (arrived : ℕ) : Prop where
  phase_eq : ∀ t u, phase (loc t) = phase (loc u)
  arrived_eq : arrived = (waiters Waiting loc).card
  arrived_lt : arrived < Fintype.card ι

variable [DecidableEq ι] {arrived : ℕ}

private theorem waiters_update_of_not_waiting (ht : ¬ Waiting (loc t)) (hx : ¬ Waiting x) :
    waiters Waiting (Function.update loc t x) = waiters Waiting loc := by
  ext u
  rw [mem_waiters, mem_waiters]
  by_cases hu : u = t
  · subst hu
    rw [Function.update_self]
    exact iff_of_false hx ht
  · rw [Function.update_of_ne hu]

private theorem waiters_update_of_waiting (hx : Waiting x) :
    waiters Waiting (Function.update loc t x) = insert t (waiters Waiting loc) := by
  ext u
  rw [Finset.mem_insert, mem_waiters, mem_waiters]
  by_cases hu : u = t
  · subst hu
    rw [Function.update_self]
    exact iff_of_true hx (Or.inl rfl)
  · rw [Function.update_of_ne hu]
    exact (or_iff_right hu).symm

/-- A step of a party that does not go to the barrier. -/
theorem Lockstep.move (h : Lockstep phase Waiting loc arrived) (ht : ¬ Waiting (loc t))
    (hphase : phase x = phase (loc t)) (hx : ¬ Waiting x) :
    Lockstep phase Waiting (Function.update loc t x) arrived where
  phase_eq := phase_update h.phase_eq hphase
  arrived_eq := by rw [waiters_update_of_not_waiting ht hx]; exact h.arrived_eq
  arrived_lt := h.arrived_lt

/-- An arrival that is not the last one. -/
theorem Lockstep.arrive (h : Lockstep phase Waiting loc arrived) (ht : ¬ Waiting (loc t))
    (hphase : phase x = phase (loc t)) (hx : Waiting x) (hlt : arrived + 1 < Fintype.card ι) :
    Lockstep phase Waiting (Function.update loc t x) (arrived + 1) where
  phase_eq := phase_update h.phase_eq hphase
  arrived_eq := by
    have hmem : t ∉ waiters Waiting loc := fun hmem => ht (mem_waiters.mp hmem)
    rw [waiters_update_of_waiting hx, Finset.card_insert_of_notMem hmem, h.arrived_eq]
  arrived_lt := hlt

/-- With the last arrival all parties wait. -/
theorem Lockstep.waiting_of_last (h : Lockstep phase Waiting loc arrived)
    (ht : ¬ Waiting (loc t)) (hx : Waiting x) (hlast : arrived + 1 = Fintype.card ι) (u : ι) :
    Waiting (Function.update loc t x u) := by
  have hmem : t ∉ waiters Waiting loc := fun hmem => ht (mem_waiters.mp hmem)
  have hall : waiters Waiting (Function.update loc t x) = Finset.univ := by
    rw [waiters_update_of_waiting hx, ← Finset.card_eq_iff_eq_univ,
      Finset.card_insert_of_notMem hmem, ← h.arrived_eq, hlast]
  exact mem_waiters.mp (hall ▸ Finset.mem_univ u)

/-- The last arrival: all parties are released into the next phase, and the count is reset. -/
theorem Lockstep.release (h : Lockstep phase Waiting loc arrived) (ht : ¬ Waiting (loc t))
    (hphase : phase x = phase (loc t)) (hx : Waiting x) (hlast : arrived + 1 = Fintype.card ι)
    {f : L → L} (hf : ∀ y, Waiting y → phase (f y) = phase y + 1 ∧ ¬ Waiting (f y)) :
    Lockstep phase Waiting (fun u => f (Function.update loc t x u)) 0 where
  phase_eq u v := by
    have hu := h.waiting_of_last ht hx hlast u
    have hv := h.waiting_of_last ht hx hlast v
    rw [(hf _ hu).1, (hf _ hv).1, phase_update h.phase_eq hphase u v]
  arrived_eq := by
    symm
    rw [Finset.card_eq_zero, waiters, Finset.filter_eq_empty_iff]
    exact fun u _ => (hf _ (h.waiting_of_last ht hx hlast u)).2
  arrived_lt := by omega

omit [DecidableEq ι] in
/-- Some party does not wait. -/
theorem Lockstep.exists_not_waiting (h : Lockstep phase Waiting loc arrived) :
    ∃ t, ¬ Waiting (loc t) := by
  by_contra hall
  push Not at hall
  have huniv : waiters Waiting loc = Finset.univ :=
    Finset.eq_univ_iff_forall.mpr fun t => mem_waiters.mpr (hall t)
  have hlt := h.arrived_lt
  rw [h.arrived_eq, huniv, Finset.card_univ] at hlt
  exact Nat.lt_irrefl _ hlt

end TmcExamples
