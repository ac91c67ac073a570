import TmcExamples.RoundTrip.Model

/-!
# The order of the consumers

A producer that awaits a consumer has that one in flight, and no other (`Inv`). So each producer has
its consumers run in order, and with an executor no producer is served twice while another waits:
what stands in the queue before a new consumer is at most one of each producer, and what comes
later goes behind it.
-/

namespace TmcExamples

namespace RoundTrip

open ChanBench (Bench)

variable {w : ℕ} {B : Bench w} {serializer : Serializer} {s s' : State B} {a : Action B}
variable {tr : List (Action B)} {p : Fin B.prodCount.toNat}

/-! ### The consumers in flight -/

/-- The consumers that wait or run. -/
def State.inFlight (s : State B) : List (Consumer B) := s.running.toList ++ s.waiting

/-- The iteration of a producer of `count` consumers. -/
def Producer.Within (count : ℕ) : Producer → Prop
  | .ready i => i ≤ count
  | .awaiting i => i < count
  | .returned => True

/-- A producer has the consumer in flight that it awaits, and no other. -/
structure Inv (s : State B) : Prop where
  nodup : (s.inFlight.map Prod.fst).Nodup
  awaiting : ∀ p i, (p, i) ∈ s.inFlight ↔ s.producer p = .awaiting i
  within : ∀ p, (s.producer p).Within (B.count p).toNat

theorem inv_init (B : Bench w) (serializer : Serializer) : Inv (system B serializer).init where
  nodup := List.nodup_nil
  awaiting _ _ := iff_of_false List.not_mem_nil fun h => by cases h
  within _ := Nat.zero_le _

/-- Whoever is taken, the others go on waiting. -/
theorem Serializer.Takes.perm {waiting rest : List (Consumer B)} {c : Consumer B}
    (h : serializer.Takes waiting c rest) : waiting.Perm (c :: rest) := by
  cases serializer with
  | executor => exact h ▸ List.Perm.refl _
  | mutex =>
    obtain ⟨hc, rfl⟩ := h
    exact List.perm_cons_erase hc

/-- A producer that is not awaiting has nothing in flight. -/
theorem Inv.not_mem (h : Inv s) (hp : ∀ i, s.producer p ≠ .awaiting i) :
    p ∉ s.inFlight.map Prod.fst := by
  intro hmem
  obtain ⟨⟨q, i⟩, hc, rfl⟩ := List.mem_map.mp hmem
  exact hp i ((h.awaiting q i).mp hc)

/-- The running consumer is awaited. -/
theorem Inv.awaiting_of_running (h : Inv s) {i : ℕ} (hrun : s.running = some (p, i)) :
    s.producer p = .awaiting i := by
  refine (h.awaiting p i).mp ?_
  rw [State.inFlight, hrun]
  exact List.mem_cons_self

private theorem Inv.within_update (h : Inv s) {x : Producer} (hx : x.Within (B.count p).toNat)
    (q : Fin B.prodCount.toNat) : (Function.update s.producer p x q).Within (B.count q).toNat :=
  forall_update (P := fun (q : Fin B.prodCount.toNat) (x : Producer) => x.Within (B.count q).toNat)
    h.within hx q

/-- Every step keeps each consumer in one place. -/
theorem inv_step (h : Inv s) (hs : Step B serializer s a s') : Inv s' := by
  cases hs with
  | @post p i hp hi =>
    have hflight : State.inFlight { s with
        producer := Function.update s.producer p (.awaiting i)
        waiting := s.waiting ++ [(p, i)] } = s.inFlight ++ [(p, i)] :=
      (List.append_assoc ..).symm
    have hnot := h.not_mem (p := p) fun j hj => by rw [hp] at hj; cases hj
    refine ⟨?_, fun q j => ?_, h.within_update hi⟩
    · rw [hflight, List.map_append, List.map_singleton, ← List.concat_eq_append]
      exact h.nodup.concat hnot
    · rw [hflight, List.mem_append, List.mem_singleton]
      by_cases hq : q = p
      · subst hq
        have hold : (q, j) ∉ s.inFlight := fun hmem => hnot (List.mem_map_of_mem hmem)
        dsimp only
        rw [Function.update_self]
        refine ⟨fun hmem => ?_, fun hj => ?_⟩
        · obtain ⟨-, rfl⟩ := Prod.mk.inj (hmem.resolve_left hold)
          rfl
        · exact Or.inr (congrArg (Prod.mk q) (Producer.awaiting.inj hj).symm)
      · dsimp only
        rw [Function.update_of_ne hq, ← h.awaiting q j]
        exact or_iff_left fun he => hq (congrArg Prod.fst he)
  | @producerReturn p i hp hi =>
    refine ⟨h.nodup, fun q j => ?_, h.within_update trivial⟩
    by_cases hq : q = p
    · subst hq
      have hold := h.awaiting q j
      rw [hp] at hold
      dsimp only
      rw [Function.update_self]
      exact hold.trans (iff_of_false (fun he => by cases he) fun he => by cases he)
    · dsimp only
      rw [Function.update_of_ne hq]
      exact h.awaiting q j
  | @start c rest hidle htake =>
    -- The consumers in flight are the same, in another order.
    have hperm : s.inFlight.Perm (c :: rest) := by
      rw [State.inFlight, hidle]
      exact htake.perm
    refine ⟨(hperm.map Prod.fst).nodup_iff.mp h.nodup, fun q j => ?_, h.within⟩
    exact hperm.mem_iff.symm.trans (h.awaiting q j)
  | @finish p i hrun =>
    have hp := h.awaiting_of_running hrun
    have hflight : s.inFlight = (p, i) :: s.waiting := by rw [State.inFlight, hrun]; rfl
    have hnodup := h.nodup
    rw [hflight, List.map_cons, List.nodup_cons] at hnodup
    have hwithin := h.within p
    rw [hp] at hwithin
    refine ⟨hnodup.2, fun q j => ?_, h.within_update hwithin⟩
    change (q, j) ∈ s.waiting ↔ Function.update s.producer p (.ready (i + 1)) q = .awaiting j
    by_cases hq : q = p
    · subst hq
      rw [Function.update_self]
      exact iff_of_false (fun hmem => hnodup.1 (List.mem_map.mpr ⟨_, hmem, rfl⟩)) fun he => by
        cases he
    · rw [Function.update_of_ne hq, ← h.awaiting q j, hflight, List.mem_cons]
      exact (or_iff_right fun he => hq (congrArg Prod.fst he)).symm

theorem inv_of_reachable (h : (system B serializer).Reachable s) : Inv s :=
  h.induct (inv_init B serializer) fun _ _ _ _ hinv hs => inv_step hinv hs

/-! ### The consumers that have been started -/

/-- How many consumers of producer `p` have been started. -/
def State.started (s : State B) (p : Fin B.prodCount.toNat) : ℕ :=
  match s.producer p with
  | .ready i => i
  | .awaiting i => if s.running = some (p, i) then i + 1 else i
  | .returned => (B.count p).toNat

/-- Starting and finishing a consumer of another producer does not count. -/
private theorem started_congr {q : Fin B.prodCount.toNat} (hproducer : s'.producer q = s.producer q)
    (hrunning : ∀ i, s'.running = some (q, i) ↔ s.running = some (q, i)) :
    s'.started q = s.started q := by
  simp only [State.started, hproducer, hrunning]

/-- Each producer has had its first consumers started, in order. -/
def InOrder (tr : List (Action B)) (s : State B) : Prop :=
  ∀ p, entriesOf (starts tr) p = List.range (s.started p)

private theorem inOrder_init (B : Bench w) (serializer : Serializer) :
    InOrder [] (system B serializer).init := fun _ => rfl

/-- A step that starts nothing. -/
theorem InOrder.keep (h : InOrder tr s) (ha : a.started? = none)
    (hs : ∀ p, s'.started p = s.started p) : InOrder (tr ++ [a]) s' := by
  intro p
  rw [starts_snoc_of_none tr ha, hs p]
  exact h p

private theorem inOrder_step (hinv : Inv s) (h : InOrder tr s) (hs : Step B serializer s a s') :
    InOrder (tr ++ [a]) s' := by
  cases hs with
  | @post p i hp hi =>
    refine h.keep rfl fun q => ?_
    by_cases hq : q = p
    · subst hq
      have hnot : s.running ≠ some (q, i) := fun hrun => by
        have hawait := hinv.awaiting_of_running hrun
        rw [hp] at hawait
        cases hawait
      simp only [State.started, Function.update_self, hp, if_neg hnot]
    · exact started_congr (Function.update_of_ne hq _ _) fun _ => Iff.rfl
  | @producerReturn p i hp hi =>
    refine h.keep rfl fun q => ?_
    by_cases hq : q = p
    · subst hq
      have hwithin := hinv.within q
      rw [hp] at hwithin
      simp only [State.started, Function.update_self, hp]
      exact Nat.le_antisymm (Nat.le_of_not_lt hi) hwithin
    · exact started_congr (Function.update_of_ne hq _ _) fun _ => Iff.rfl
  | @start c rest hidle htake =>
    obtain ⟨p, i⟩ := c
    have hmem : (p, i) ∈ s.inFlight := by
      rw [State.inFlight, hidle]
      exact htake.perm.mem_iff.mpr List.mem_cons_self
    have hp := (hinv.awaiting p i).mp hmem
    intro q
    have hstarts : starts (tr ++ [.start (p, i)]) = starts tr ++ [(p, i)] := starts_snoc _ _
    rw [hstarts, entriesOf_concat, h q]
    by_cases hq : p = q
    · subst hq
      have hbefore : s.started p = i := by simp [State.started, hp, hidle]
      have hafter : State.started { s with waiting := rest, running := some (p, i) } p = i + 1 := by
        simp [State.started, hp]
      rw [if_pos rfl, hbefore, hafter, List.range_succ]
    · have hsame : State.started { s with waiting := rest, running := some (p, i) } q =
          s.started q := started_congr rfl fun j => by
        rw [hidle]
        exact iff_of_false (fun he => hq (congrArg Prod.fst (Option.some.inj he)))
          fun he => by cases he
      rw [if_neg hq, List.append_nil, hsame]
  | @finish p i hrun =>
    have hp := hinv.awaiting_of_running hrun
    refine h.keep rfl fun q => ?_
    by_cases hq : q = p
    · subst hq
      simp only [State.started, Function.update_self, hp, if_pos hrun]
    · refine started_congr (Function.update_of_ne hq _ _) fun j => ?_
      rw [hrun]
      exact iff_of_false (fun he => by cases he)
        fun he => hq (congrArg Prod.fst (Option.some.inj he)).symm

/-- The consumers of a producer start in the order of their numbers. -/
theorem inOrder_of_run (h : (system B serializer).Run (system B serializer).init tr s) :
    InOrder tr s :=
  LTS.Run.induct (inOrder_init B serializer)
    (fun _ _ _ _ hr hinv hs => inOrder_step (inv_of_reachable hr.reachable) hinv hs) h

/-! ### Fairness of the executor -/

/-- What stands in the queue before a consumer that waits is started before it, in order. -/
private theorem starts_append_of_waiting {c : Consumer B} {l r : List (Consumer B)}
    (h : (system B .executor).Run s tr s') (hwaiting : s.waiting = l ++ c :: r)
    (hc : c ∉ starts tr) : ∃ l' r', s'.waiting = l' ++ c :: r' ∧ l = starts tr ++ l' := by
  induction h with
  | nil => exact ⟨l, r, hwaiting, rfl⟩
  | @snoc tr s₁ s₂ a hr hstep ih =>
    have hc' : c ∉ starts tr := fun hmem => hc (by
      rw [starts_snoc]
      exact List.mem_append_left _ hmem)
    obtain ⟨l', r', hwaiting', hl⟩ := ih hc'
    cases hstep with
    | @post p i hp hi =>
      refine ⟨l', r' ++ [(p, i)], ?_, ?_⟩
      · dsimp only
        rw [hwaiting', List.append_assoc, List.cons_append]
      · rw [starts_snoc_of_none tr rfl]
        exact hl
    | producerReturn | finish =>
      refine ⟨l', r', hwaiting', ?_⟩
      rw [starts_snoc_of_none tr rfl]
      exact hl
    | @start d rest hidle htake =>
      have hstarts : starts (tr ++ [.start d]) = starts tr ++ [d] := starts_snoc _ _
      have htake' : s₁.waiting = d :: rest := htake
      rw [hwaiting'] at htake'
      cases l' with
      | nil =>
        -- The consumer would be the next one.
        obtain ⟨rfl, -⟩ := List.cons.inj htake'
        exact absurd (by rw [hstarts]; exact List.mem_append_right _ List.mem_cons_self) hc
      | cons e l' =>
        obtain ⟨rfl, rfl⟩ := List.cons.inj htake'
        refine ⟨l', r', rfl, ?_⟩
        rw [hl, hstarts, List.append_assoc]
        rfl

/-- **Bounded bypass.** While a consumer waits for the executor, at most one consumer of each
producer is started. -/
theorem bypassed_once (h : (system B .executor).Run (system B .executor).init tr s)
    {tr₁ tr₂ : List (Action B)} {c : Consumer B} (htr : tr = tr₁ ++ .post c :: tr₂)
    (hc : .start c ∉ tr₂) : ((starts tr₂).map Prod.fst).Nodup := by
  rw [htr] at h
  obtain ⟨m, h₁, h₂⟩ := h.split
  obtain ⟨m', hstep, hrest⟩ := h₂.split_cons
  have hinv := inv_of_reachable (h₁.reachable.step hstep)
  obtain ⟨l, hwaiting⟩ : ∃ l, m'.waiting = l ++ [c] := by
    cases hstep
    exact ⟨m.waiting, rfl⟩
  obtain ⟨l', r', -, hl⟩ := starts_append_of_waiting hrest hwaiting fun hmem =>
    hc (mem_starts.mp hmem)
  have hsub : (starts tr₂).Sublist m'.inFlight := by
    rw [State.inFlight, hwaiting, hl, List.append_assoc]
    exact (List.sublist_append_left _ _).trans (List.sublist_append_right _ _)
  exact hinv.nodup.sublist (hsub.map Prod.fst)

end RoundTrip

end TmcExamples
