import TmcExamples.RoundTrip.Order

/-!
# Every consumer runs once

A post, a start and a finish bring a producer one iteration further, so every run ends; and a
producer that awaits a consumer is not stuck, because the serializer takes the consumers that wait
whenever none runs. At the end all `NELEMS` consumers have run, those of each producer in its order.
-/

namespace TmcExamples

namespace RoundTrip

open ChanBench (Bench)

variable {w : ℕ} {B : Bench w} {serializer : Serializer} {s s' : State B} {a : Action B}

/-! ### The rank -/

/-- How far a producer of `count` consumers is from its end, apart from the consumer that waits. -/
def Producer.rank (count : ℕ) : Producer → ℕ
  | .ready i => 3 * (count - i) + 1
  | .awaiting i => 3 * (count - i) - 1
  | .returned => 0

/-- The rank of a state. -/
def State.rank (s : State B) : ℕ :=
  ∑ p, (s.producer p).rank (B.count p).toNat + s.waiting.length

/-- A step of a producer that decreases its rank by more than `k`. -/
private theorem producers_rank_lt {p : Fin B.prodCount.toNat} {x : Producer} {k : ℕ}
    (h : x.rank (B.count p).toNat + k < (s.producer p).rank (B.count p).toNat) :
    ∑ q, (Function.update s.producer p x q).rank (B.count q).toNat + k <
      ∑ q, (s.producer q).rank (B.count q).toNat := by
  have hsum := sum_update_apply_add (Finset.mem_univ p) s.producer x
    fun q y => y.rank (B.count q).toNat
  omega

/-- **Every step decreases the rank.** -/
theorem rank_step (h : Inv s) (hs : Step B serializer s a s') : s'.rank < s.rank := by
  cases hs with
  | @post p i hp hi =>
    have hlt : (Producer.awaiting i).rank (B.count p).toNat + 1 <
        (s.producer p).rank (B.count p).toNat := by
      rw [hp]
      simp only [Producer.rank]
      omega
    have hsum := producers_rank_lt hlt
    simp only [State.rank, List.length_append, List.length_singleton]
    omega
  | @producerReturn p i hp hi =>
    have hlt : Producer.returned.rank (B.count p).toNat + 0 <
        (s.producer p).rank (B.count p).toNat := by
      rw [hp]
      exact Nat.succ_pos _
    have hsum := producers_rank_lt hlt
    simp only [State.rank]
    omega
  | start hidle htake =>
    have hlength := htake.perm.length_eq
    rw [List.length_cons] at hlength
    simp only [State.rank]
    omega
  | @finish p i hrun =>
    have hp := h.awaiting_of_running hrun
    have hwithin := h.within p
    rw [hp] at hwithin
    have hi : i < (B.count p).toNat := hwithin
    have hlt : (Producer.ready (i + 1)).rank (B.count p).toNat + 0 <
        (s.producer p).rank (B.count p).toNat := by
      rw [hp]
      simp only [Producer.rank]
      omega
    have hsum := producers_rank_lt hlt
    simp only [State.rank]
    omega

/-- The round trips that are left bound the run. -/
theorem system_terminating (B : Bench w) (serializer : Serializer) :
    (system B serializer).Terminating :=
  LTS.terminating_of_rank State.rank fun _ _ _ hr hs => rank_step (inv_of_reachable hr) hs

/-! ### Progress -/

/-- A serializer that is idle takes one of the consumers that wait. -/
private theorem Serializer.exists_takes (serializer : Serializer) {waiting : List (Consumer B)}
    (h : waiting ≠ []) : ∃ c rest, serializer.Takes waiting c rest := by
  obtain ⟨c, rest, rfl⟩ := List.exists_cons_of_ne_nil h
  cases serializer with
  | executor => exact ⟨c, rest, rfl⟩
  | mutex => exact ⟨c, _, List.mem_cons_self, rfl⟩

/-- Where no step is left, nothing is in flight. -/
private theorem inFlight_eq_nil (hend : ¬ (system B serializer).Enabled s) : s.inFlight = [] := by
  rw [State.inFlight]
  cases hrun : s.running with
  | some c => exact absurd ⟨_, _, Step.finish hrun⟩ hend
  | none =>
    by_contra hne
    obtain ⟨c, rest, htake⟩ := serializer.exists_takes hne
    exact hend ⟨_, _, Step.start hrun htake⟩

/-- **No deadlock.** Where no step is left, all producers have returned. -/
theorem returned_of_not_enabled (h : Inv s) (hend : ¬ (system B serializer).Enabled s)
    (p : Fin B.prodCount.toNat) : s.producer p = .returned := by
  cases hp : s.producer p with
  | returned => rfl
  | ready i =>
    refine absurd ?_ hend
    by_cases hi : i < (B.count p).toNat
    · exact ⟨_, _, Step.post hp hi⟩
    · exact ⟨_, _, Step.producerReturn hp hi⟩
  | awaiting i =>
    have hmem := (h.awaiting p i).mpr hp
    rw [inFlight_eq_nil hend] at hmem
    cases hmem

/-! ### The benchmark -/

/-- The producers together run `NELEMS` consumers. -/
private theorem sum_count (B : Bench w) :
    ∑ p : Fin B.prodCount.toNat, (B.count p).toNat = B.nelems.toNat := by
  have hcard : B.allElements.card = B.nelems.toNat := card_rangeItems _ _ _
  rw [← hcard, ← B.sum_elements, Multiset.card_sum]
  exact Finset.sum_congr rfl fun p _ => (card_rangeItems _ _ _).symm

private theorem length_starts {tr : List (Action B)} {n : Fin B.prodCount.toNat → ℕ}
    (h : ∀ p, entriesOf (starts tr) p = List.range (n p)) : (starts tr).length = ∑ p, n p := by
  have hsum := sum_entriesOf (starts tr) fun _ _ => 1
  simp only [List.map_const', List.sum_replicate, smul_eq_mul, mul_one, h, List.length_range]
    at hsum
  exact hsum.symm

/-- **The benchmark.** For any number of elements and of producers: every run ends with all
producers returned and all `NELEMS` consumers run, those of each producer once and in order. While a
consumer waits for an executor, at most one consumer of each producer is started. -/
theorem round_trips_are_made (B : Bench w) :
    (∀ serializer, (system B serializer).Terminating ∧
      ∀ tr s, (system B serializer).Run (system B serializer).init tr s →
        ¬ (system B serializer).Enabled s →
        (∀ p, s.producer p = .returned) ∧ s.inFlight = [] ∧
        (∀ p, entriesOf (starts tr) p = List.range (B.count p).toNat) ∧
        (starts tr).length = B.nelems.toNat) ∧
    ∀ tr s, (system B .executor).Run (system B .executor).init tr s →
      ∀ tr₁ c tr₂, tr = tr₁ ++ .post c :: tr₂ → .start c ∉ tr₂ →
        ((starts tr₂).map Prod.fst).Nodup := by
  refine ⟨fun serializer => ⟨system_terminating B serializer, fun tr s h hend => ?_⟩,
    fun _ _ h _ _ _ htr hc => bypassed_once h htr hc⟩
  have hreturned := returned_of_not_enabled (inv_of_reachable h.reachable) hend
  have horder : ∀ p, entriesOf (starts tr) p = List.range (B.count p).toNat := fun p => by
    rw [inOrder_of_run h p, State.started, hreturned p]
  exact ⟨hreturned, inFlight_eq_nil hend, horder, by rw [length_starts horder, sum_count]⟩

end RoundTrip

end TmcExamples
