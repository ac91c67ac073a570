import TmcExamples.FuzzChan.Accounts
import TmcExamples.FuzzChan.Progress

/-!
# The oracle of the fuzzer is sound

`run_one_test(true)` compares `full_sum` with the sum of the numbers below `base`. Behind the
joins nothing is left to post, to pull or to add, so `full_sum` is the sum of all numbers that have
been given to producers, and no party can add to it any more. `base` is the number of these
numbers, as a machine number: the expectation holds in every run, as long as `base` has
not wrapped.
-/

namespace TmcExamples

namespace FuzzChan

variable {w : ℕ} {actions : List (RandAction w)} {wait : Bool}
variable {s s' : State actions} {a : Action w actions.length} {tr : List (Action w actions.length)}

/-! ### Behind the joins -/

/-- The main task compares, or has compared. -/
def Main.Joined : Main w → Prop
  | .compare | .finished => True
  | _ => False

/-- What the test has done when it has joined all of its tasks. -/
theorem Main.Joined.facts {m : Main w} (hm : m.Joined) (n : ℕ) (wait : Bool) :
    m.forked n = n ∧ (∀ b, m.joined wait b = true) ∧ m.unpublished = none ∧ m.drained = true := by
  cases m with
  | compare | finished => exact ⟨rfl, fun _ => rfl, rfl, rfl⟩
  | _ => exact hm.elim

/-- Behind the joins all tasks have returned. -/
theorem ControlInv.returned (h : ControlInv wait s) (hm : s.main.Joined)
    (k : Fin actions.length) : s.task k = .returned := by
  obtain ⟨hforked, hjoined, -, -⟩ := hm.facts actions.length wait
  have hat := h.at_of_act hforked k
  cases ht : s.task k with
  | notForked =>
    rw [ht] at hat
    exact hat.elim
  | posting | consuming =>
    rw [ht] at hat
    obtain ⟨-, hat⟩ := hat
    rw [hjoined] at hat
    cases hat
  | returned => rfl

/-- Behind the joins no party has a local sum to add. -/
theorem unpublished_of_joined (h : ControlInv wait s) (hm : s.main.Joined)
    {g : Agent actions.length} (hg : g.Consumes actions) : s.unpublished g = none := by
  cases g with
  | none => exact (hm.facts actions.length wait).2.2.1
  | some k =>
    have hk : (actions.get k).consumes = true := hg
    rw [State.unpublished, if_pos hk, h.returned hm k]
    rfl

/-- A task that does not consume has nothing to add to `full_sum`. -/
theorem unpublished_of_not_consumes {g : Agent actions.length} (hg : ¬ g.Consumes actions) :
    s.unpublished g = some 0 := by
  cases g with
  | none => exact absurd trivial hg
  | some k =>
    have hk : ¬ (actions.get k).consumes = true := hg
    rw [State.unpublished, if_neg hk]

/-- Behind the joins nothing is left in the channel. -/
theorem drained_of_joined (h : ControlInv wait s) (hm : s.main.Joined) : s.chan.Drained :=
  h.drained (hm.facts actions.length wait).2.2.2

private theorem rest_of_joined (h : ControlInv wait s) (hm : s.main.Joined) : s.rest = 0 :=
  Finset.sum_eq_zero fun k _ => by
    rw [h.returned hm k]
    rfl

/-- Behind the joins `full_sum` is all that has been pulled and added up. -/
private theorem got_of_joined (h : ControlInv wait s) (hm : s.main.Joined) : s.got = s.fullSum := by
  have hzero : ∀ g, (s.unpublished g).getD 0 = 0 := by
    intro g
    by_cases hg : g.Consumes actions
    · rw [unpublished_of_joined h hm hg, Option.getD_none]
    · rw [unpublished_of_not_consumes hg, Option.getD_some]
  rw [State.got, Finset.sum_eq_zero fun g _ => hzero g]
  exact add_zero _

private theorem fullSum_of_joined (h : ControlInv wait s) (hflow : FlowInv s) (hm : s.main.Joined) :
    s.fullSum = (numbers actions).sum := by
  rw [FlowInv, rest_of_joined h hm, got_of_joined h hm] at hflow
  rw [hflow.got_eq (drained_of_joined h hm), Multiset.map_id]

/-! ### The comparison -/

private theorem sum_numbers (actions : List (RandAction w)) : (numbers actions).sum =
    ∑ i ∈ Finset.range (total actions actions.length), BitVec.ofNat w i :=
  sum_rangeItems_from_zero _ _

/-- The loop that computes the expected sum adds up the numbers below `base`. -/
theorem expectedSum_eq (base : BitVec w) :
    expectedSum base = ∑ i ∈ Finset.range base.toNat, BitVec.ofNat w i :=
  foldl_range_add _ _

/-- The expectation holds, if `base` has not wrapped. -/
theorem failures_eq_zero (hlt : total actions actions.length < 2 ^ w)
    (h : (system actions true).Reachable s) : s.failures = 0 := by
  refine h.induct (P := fun s => s.failures = 0) rfl fun s a s' hr hfail hs => ?_
  have hc := controlInv_of_reachable hr
  cases hs with
  | compare hm =>
    have hbase := hc.base
    rw [hm] at hbase
    have hsum := fullSum_of_joined hc (flowInv_of_reachable hr) (by rw [hm]; trivial)
    have hexpected : expectedSum s.base = s.fullSum := by
      rw [expectedSum_eq, hsum, sum_numbers, hbase, BitVec.toNat_ofNat]
      exact congrArg (fun n => ∑ i ∈ Finset.range n, BitVec.ofNat w i) (Nat.mod_eq_of_lt hlt)
    rw [if_pos hexpected, hfail]
  | _ => exact hfail

/-- Nothing is added to `full_sum` behind the comparison. -/
private theorem not_add_of_joined (h : ControlInv wait s) (hm : s.main = .finished)
    (g : Agent actions.length) (sum : BitVec w) :
    ¬ Step actions wait s (.add g sum) s' := by
  intro hs
  cases hs with
  | mainAdd hadd =>
    rw [hm] at hadd
    cases hadd
  | @add k kind count i sum ht hi =>
    have hreturned := h.returned (by rw [hm]; trivial) k
    rw [ht] at hreturned
    cases hreturned

private theorem finished_step (hm : s.main = .finished) (hs : Step actions wait s a s') :
    s'.main = .finished := by
  cases hs with
  | post | producerReturn | pull | closed | tryPullEmpty | add => exact hm
  | compare | joinLateProducers => rfl
  | fork h | endActions h | joinProducers h | close h | mainPull h | mainClosed h | mainAdd h
  | drain h | drained h | joinConsumers h =>
    rw [hm] at h
    cases h

private theorem not_add_after_compare
    (h : (system actions wait).Run (system actions wait).init tr s)
    {tr₁ tr₂ : List (Action w actions.length)} (htr : tr = tr₁ ++ .compare :: tr₂)
    (g : Agent actions.length) (sum : BitVec w) : .add g sum ∉ tr₂ := by
  rw [htr] at h
  obtain ⟨m, h₁, h₂⟩ := h.split
  obtain ⟨m', hstep, hrest⟩ := h₂.split_cons
  have hcompare : m'.main = .finished := by
    cases hstep
    rfl
  refine hrest.not_mem (P := fun s => ControlInv wait s ∧ s.main = .finished)
    (fun _ _ _ hp hs => ⟨controlInv_step hp.1 hs, finished_step hp.2 hs⟩)
    (fun _ _ hp => not_add_of_joined hp.1 hp.2 g sum) ⟨?_, hcompare⟩
  exact controlInv_of_reachable (h₁.reachable.step hstep)

/-! ### The test -/

/-- What the trace of a complete run tells: the values that are pulled are the numbers given
to producers, each once; only consumers and the main task pull, and each of them adds to
`full_sum` once, the sum of what it has pulled. -/
structure ExactlyOnce (tr : List (Action w actions.length)) : Prop where
  pulled : (↑((pulls tr).map Prod.snd) : Multiset (BitVec w)) =
    (Multiset.range (total actions actions.length)).map (BitVec.ofNat w)
  consumes : ∀ p ∈ pulls tr, p.1.Consumes actions
  added : ∀ g, g.Consumes actions → valuesOf (adds tr) g = [(valuesOf (pulls tr) g).sum]
  others : ∀ g, ¬ g.Consumes actions → valuesOf (adds tr) g = []

private theorem exactlyOnce_of_finished
    (h : (system actions true).Run (system actions true).init tr s)
    (hm : s.main = .finished) : ExactlyOnce tr := by
  have hc := controlInv_of_reachable h.reachable
  have hj : s.main.Joined := by rw [hm]; trivial
  have hflow := flowInv_of_reachable h.reachable
  have htrace := traceInv_of_run h
  refine ⟨?_, htrace.consumes, fun g hg => ?_, fun g hg => ?_⟩
  · rw [htrace.taken, (drained_of_joined hc hj).taken_eq]
    have hsent := hflow.sent
    rw [rest_of_joined hc hj, add_zero] at hsent
    rw [hsent, numbers, rangeItems_from_zero]
  · have hacc := htrace.accounted g
    rwa [unpublished_of_joined hc hj hg] at hacc
  · have hacc := htrace.accounted g
    rw [unpublished_of_not_consumes hg] at hacc
    exact hacc.1

/-- **Soundness of the oracle.** For any actions with any counts: every run of the test ends with
all tasks returned, and then `full_sum` is the sum of the numbers given to producers, to which each
of them has been added exactly once. `base` is the number of these numbers, and the comparison
succeeds if it has not wrapped. Nothing is added behind the comparison. -/
theorem run_one_test_sound (actions : List (RandAction w)) :
    (system actions true).Terminating ∧
    (∀ tr s, (system actions true).Run (system actions true).init tr s →
      ¬ (system actions true).Enabled s →
      s.main = .finished ∧ (∀ k, s.task k = .returned) ∧ ExactlyOnce tr ∧
      s.fullSum = ∑ i ∈ Finset.range (total actions actions.length), BitVec.ofNat w i ∧
      s.base = BitVec.ofNat w (total actions actions.length) ∧
      (total actions actions.length < 2 ^ w → s.failures = 0)) ∧
    ∀ tr s, (system actions true).Run (system actions true).init tr s →
      ∀ tr₁ tr₂, tr = tr₁ ++ .compare :: tr₂ → ∀ g sum, .add g sum ∉ tr₂ := by
  refine ⟨system_terminating actions true, fun tr s h hend => ?_,
    fun _ _ h _ _ htr => not_add_after_compare h htr⟩
  have hc := controlInv_of_reachable h.reachable
  have hm := finished_of_not_enabled hc hend
  have hj : s.main.Joined := by rw [hm]; trivial
  have hbase := hc.base
  rw [hm] at hbase
  refine ⟨hm, hc.returned hj, exactlyOnce_of_finished h hm, ?_, hbase,
    fun hlt => failures_eq_zero hlt h.reachable⟩
  rw [fullSum_of_joined hc (flowInv_of_reachable h.reachable) hj, sum_numbers]

end FuzzChan

end TmcExamples
