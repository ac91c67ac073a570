import TmcExamples.ChaseLev.Values

/-!
# The end of the threads

A stealer that fails tries again, so a run may be infinite. From some point of an infinite run on,
stealers only fail, and the owner, though it has a step, does not take it: were it done, each
stealer would return after at most one more round. So every run ends under a scheduler that lets
the owner go on.
-/

namespace TmcExamples

namespace ChaseLev

variable {k N : ℕ} {ops : List Op} {s s' : State k} {a : Action k}

/-! ### The owner -/

/-- How far the owner is from its end, apart from the elements that it drains. -/
def Owner.rank : Owner → ℕ
  | .running ops => (ops.map fun op => op.amount + 1).sum + 3
  | .draining => 2
  | .storing => 1
  | .returned => 0

/-- What is left to do for the owner, and to take from the deque. -/
def State.rank (s : State k) : ℕ := s.owner.rank + s.deque.length

/-- Only stealers have moved, without an element. -/
def Fruitless (s s' : State k) : Prop := s' = { s with stealer := s'.stealer }

private theorem rank_step (hs : Step k s a s') :
    s'.rank < s.rank ∨ s'.rank = s.rank ∧ Fruitless s s' := by
  cases hs with
  | post howner =>
    left
    simp only [State.rank, howner, Owner.rank, List.map_cons, List.sum_cons, Op.amount,
      List.length_append, List.length_range']
    omega
  | tryPop howner hdeque =>
    left
    simp only [State.rank, howner, hdeque, Owner.rank, List.map_cons, List.sum_cons, Op.amount,
      List.length_append, List.length_singleton]
    omega
  | tryPopEmpty howner =>
    left
    simp only [State.rank, howner, Owner.rank, List.map_cons, List.sum_cons, Op.amount]
    omega
  | opsEnd howner =>
    left
    simp only [State.rank, howner, Owner.rank, List.map_nil, List.sum_nil]
    omega
  | drain howner hdeque =>
    left
    simp only [State.rank, hdeque, List.length_append, List.length_singleton]
    omega
  | drained howner | store howner =>
    left
    simp only [State.rank, howner, Owner.rank]
    omega
  | steal ht hdeque | remainderSteal ht hdeque =>
    left
    simp only [State.rank, hdeque, List.length_cons]
    omega
  | _ => exact .inr ⟨rfl, rfl⟩

/-- The owner is never held up. -/
private theorem owner_enabled (howner : s.owner ≠ .returned) :
    ∃ a s', a.ByOwner ∧ Step k s a s' := by
  cases hs : s.owner with
  | running ops =>
    cases ops with
    | nil => exact ⟨.opsEnd, _, trivial, .opsEnd hs⟩
    | cons op ops =>
      cases op with
      | post count => exact ⟨.post, _, trivial, .post hs⟩
      | tryPop =>
        rcases List.eq_nil_or_concat s.deque with hdeque | ⟨xs, x, hdeque⟩
        · exact ⟨.tryPopEmpty, _, trivial, .tryPopEmpty hs hdeque⟩
        · exact ⟨.tryPop, _, trivial, .tryPop hs (hdeque.trans List.concat_eq_append)⟩
  | draining =>
    rcases List.eq_nil_or_concat s.deque with hdeque | ⟨xs, x, hdeque⟩
    · exact ⟨.drained, _, trivial, .drained hs hdeque⟩
    · exact ⟨.drain, _, trivial, .drain hs (hdeque.trans List.concat_eq_append)⟩
  | storing => exact ⟨.store, _, trivial, .store hs⟩
  | returned => exact absurd hs howner

/-! ### The stealers -/

/-- How far a stealer is from its end when the owner is done. -/
def Stealer.rank : Stealer → ℕ
  | .stealing => 4
  | .loading => 3
  | .testing => 2
  | .draining => 1
  | .returned => 0

/-- A stealer moves on. -/
private theorem stealers_rank_lt {t : Fin k} {x : Stealer} (h : x.rank < (s.stealer t).rank) :
    ∑ u, (Function.update s.stealer t x u).rank < ∑ u, (s.stealer u).rank := by
  have hsum := sum_update_add (Finset.mem_univ t) s.stealer x Stealer.rank
  omega

/-- When the owner is done, every step brings a stealer nearer to its end. -/
private theorem stealers_rank_step (h : Inv N s) (howner : s.owner = .returned)
    (hs : Step k s a s') : ∑ t, (s'.stealer t).rank < ∑ t, (s.stealer t).rank := by
  have hempty : s.deque = [] := h.drained (howner ▸ trivial)
  have hdone : s.done = true := h.done.mpr howner
  cases hs with
  | post h' | tryPop h' | tryPopEmpty h' | opsEnd h' | drain h' | drained h' | store h' =>
    rw [howner] at h'
    cases h'
  | steal ht hdeque | remainderSteal ht hdeque =>
    rw [hempty] at hdeque
    cases hdeque
  | notDone ht hnot =>
    rw [hdone] at hnot
    cases hnot
  | notEmpty ht hdeque => exact absurd hempty hdeque
  | stealFails ht | isDone ht | isEmpty ht | remainderFails ht =>
    exact stealers_rank_lt (by rw [ht]; decide)

private theorem owner_returned_step (howner : s.owner = .returned) (hs : Step k s a s') :
    s'.owner = .returned := by
  cases hs with
  | post h' | tryPop h' | tryPopEmpty h' | opsEnd h' | drain h' | drained h' =>
    rw [howner] at h'
    cases h'
  | store => rfl
  | _ => exact howner

/-- In an infinite run the owner is never done. -/
private theorem not_returned_of_infinite {f : ℕ → State k} (h0 : f 0 = (system k ops).init)
    (hf : ∀ n, ∃ a, Step k (f n) a (f (n + 1))) (n : ℕ) : (f n).owner ≠ .returned := by
  intro hn
  have howner : ∀ m, (f (n + m)).owner = .returned := by
    intro m
    induction m with
    | zero => exact hn
    | succ m ih =>
      obtain ⟨a, ha⟩ := hf (n + m)
      exact owner_returned_step ih ha
  have hanti : StrictAnti fun m => ∑ t, ((f (n + m)).stealer t).rank :=
    strictAnti_nat_of_succ_lt fun m => by
      obtain ⟨a, ha⟩ := hf (n + m)
      have hinv := inv_of_reachable (LTS.reachable_of_infinite h0 hf (n + m))
      exact stealers_rank_step hinv (howner m) ha
  exact not_strictAnti_of_wellFoundedLT _ hanti

/-- A stealer is never held up. -/
private theorem stealer_enabled {t : Fin k} (ht : s.stealer t ≠ .returned) :
    (system k ops).Enabled s := by
  cases hs : s.stealer t with
  | stealing => exact ⟨_, _, .stealFails hs⟩
  | loading =>
    cases hdone : s.done with
    | false => exact ⟨_, _, .notDone hs hdone⟩
    | true => exact ⟨_, _, .isDone hs hdone⟩
  | testing =>
    by_cases hdeque : s.deque = []
    · exact ⟨_, _, .isEmpty hs hdeque⟩
    · exact ⟨_, _, .notEmpty hs hdeque⟩
  | draining => exact ⟨_, _, .remainderFails hs⟩
  | returned => exact absurd hs ht

/-- A run that cannot go on has ended well: all threads have returned. -/
theorem finished_of_not_enabled (hend : ¬ (system k ops).Enabled s) : s.Finished := by
  refine ⟨by_contra fun howner => ?_, fun t => by_contra fun ht => hend (stealer_enabled ht)⟩
  obtain ⟨a, s', -, hs⟩ := owner_enabled howner
  exact hend ⟨a, s', hs⟩

/-- **The owner and the stealers.** In both tests, with any number of stealers, a run can only end
with all threads returned; each of the values below `N` has then been popped or stolen once, and
what a stealer got is sorted. An infinite run is one in which, from some point on, stealers only
fail and the owner, which always has a step, never takes one. -/
theorem values_are_taken_once (k N chunk : ℕ) :
    ∀ ops ∈ [pushAndPop N, postBulk N (chunk + 1)],
      (∀ s, (system k ops).Reachable s → ¬ (system k ops).Enabled s →
        s.Finished ∧
          (s.popped : Multiset ℕ) + ∑ t, (s.stolen t : Multiset ℕ) = Multiset.range N ∧
          ∀ t, (s.stolen t).Pairwise (· < ·)) ∧
      ∀ f : ℕ → State k, f 0 = (system k ops).init →
        (∀ n, ∃ a, (system k ops).step (f n) a (f (n + 1))) →
        (∃ m, ∀ n, m ≤ n → Fruitless (f n) (f (n + 1))) ∧
          ∀ n, ∃ a s', a.ByOwner ∧ (system k ops).step (f n) a s' := by
  intro ops hops
  have hamount : amount ops = N := by
    rcases List.mem_pair.mp hops with rfl | rfl
    · exact amount_pushAndPop N
    · exact amount_postBulk (Nat.succ_pos chunk)
  refine ⟨fun s hr hend => ?_, fun f h0 hf => ⟨?_, fun n => ?_⟩⟩
  · have hfin := finished_of_not_enabled hend
    exact ⟨hfin, values_of_finished (hamount ▸ inv_of_reachable hr) hfin⟩
  · exact LTS.eventually_of_rank State.rank (fun _ _ _ _ hs => rank_step hs) h0 hf
  · exact owner_enabled (not_returned_of_infinite h0 hf n)

/-- The test with four stealers in which the owner posts in chunks of 64. -/
theorem values_are_taken_once_post_bulk :
    (∀ s, (system 4 (postBulk 50000 64)).Reachable s → ¬ (system 4 (postBulk 50000 64)).Enabled s →
      s.Finished ∧
        (s.popped : Multiset ℕ) + ∑ t, (s.stolen t : Multiset ℕ) = Multiset.range 50000 ∧
        ∀ t, (s.stolen t).Pairwise (· < ·)) ∧
    ∀ f : ℕ → State 4, f 0 = (system 4 (postBulk 50000 64)).init →
      (∀ n, ∃ a, (system 4 (postBulk 50000 64)).step (f n) a (f (n + 1))) →
      (∃ m, ∀ n, m ≤ n → Fruitless (f n) (f (n + 1))) ∧
        ∀ n, ∃ a s', a.ByOwner ∧ (system 4 (postBulk 50000 64)).step (f n) a s' :=
  values_are_taken_once 4 50000 63 (postBulk 50000 64)
    (List.mem_cons_of_mem _ (List.mem_singleton_self _))

end ChaseLev

end TmcExamples
