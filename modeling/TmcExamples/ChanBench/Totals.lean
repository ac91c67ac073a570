import Mathlib.Algebra.BigOperators.Pi
import TmcExamples.ChanBench.Partition
import TmcExamples.ChanBench.Progress
import TmcExamples.Queue.Conservation

/-!
# The totals of the benchmark

The elements in the channel and in the hands of the producers are the numbers below `NELEMS`, and
the consumers have counted and added up what has been pulled (`FlowInv`). The counts are compared
as natural numbers: no `count` of a consumer wraps, because no more is pulled than there is. The
sums are those of machine numbers. When the consumers have returned, nothing is left in the
channel, and both totals are what the main task compares them with.
-/

namespace TmcExamples

namespace ChanBench

variable {w : ℕ} {B : Bench w} {s s' : State B} {a : Action B}

/-! ### Sums of machine numbers -/

theorem total_eq_sum {n : ℕ} (results : Fin n → BitVec w) : total results = ∑ i, results i :=
  foldl_finRange_add results

private theorem sum_eq_ofNat {ι : Type} (t : Finset ι) (f : ι → BitVec w) :
    ∑ i ∈ t, f i = BitVec.ofNat w (∑ i ∈ t, (f i).toNat) := by
  classical
  induction t using Finset.induction_on with
  | empty => rfl
  | insert i t hi ih =>
    rw [Finset.sum_insert hi, Finset.sum_insert hi, ih, BitVec.ofNat_add, BitVec.ofNat_toNat,
      BitVec.setWidth_eq]

/-- The loop of `main` adds up what the producers post. -/
theorem expectedSum_eq (B : Bench w) : B.expectedSum = B.allElements.sum := by
  rw [Bench.expectedSum, foldl_range_add, Bench.allElements, sum_rangeItems_from_zero]

/-! ### What flows through the channel -/

/-- The elements that producer `i` has yet to push. -/
def Bench.rest (B : Bench w) (i : ℕ) : Producer → Multiset (BitVec w)
  | .unstarted => B.elements i 0
  | .running done => B.elements i done
  | .assertFailed | .returned => 0

/-- What a consumer has counted and added up. -/
def Consumer.share (c : Consumer w) : ℕ × BitVec w := (c.count.toNat, c.sum)

/-- An element counts as one and as its value. -/
def countAndSum (x : BitVec w) : ℕ × BitVec w := (1, x)

/-- A consumer that pulls an element adds it to its share, if the count does not wrap. -/
private theorem share_pulled {count sum data : BitVec w} (h : count.toNat + 1 < 2 ^ w) :
    (Consumer.pulling (count + 1) (sum + data)).share =
      (Consumer.pulling count sum).share + countAndSum data := by
  have hlt : 1 < 2 ^ w := by omega
  have hone : (1 : BitVec w).toNat = 1 := Nat.mod_eq_of_lt hlt
  have hcount : (count + 1).toNat = count.toNat + 1 := by
    rw [BitVec.toNat_add, hone, Nat.mod_eq_of_lt h]
  exact Prod.ext hcount rfl

theorem sum_map_countAndSum (t : Multiset (BitVec w)) :
    (t.map countAndSum).sum = (t.card, t.sum) := by
  induction t using Multiset.induction_on with
  | empty => rfl
  | cons x t ih =>
    rw [Multiset.map_cons, Multiset.sum_cons, ih, Multiset.card_cons, Multiset.sum_cons,
      Nat.add_comm]
    rfl

/-- The elements that the producers have yet to push. -/
def State.rest (s : State B) : Multiset (BitVec w) :=
  ∑ p : Fin B.prodCount.toNat, B.rest p (s.producer p)

/-- What the consumers have counted and added up. -/
def State.got (s : State B) : ℕ × BitVec w := ∑ c, (s.consumer c).share

/-- Nothing is lost or doubled on the way from the producers to the consumers. -/
def FlowInv (s : State B) : Prop :=
  Conserved countAndSum B.allElements s.chan s.rest s.got

private theorem flowInv_init (B : Bench w) : FlowInv (system B).init := by
  have hrest : (system B).init.rest = B.allElements := B.sum_elements
  have hgot : (system B).init.got = 0 := Finset.sum_eq_zero fun _ _ => rfl
  rw [FlowInv, hrest, hgot]
  exact .empty _ _

/-- What the producers have left when one of them has made a step. -/
private theorem rest_update {p : Fin B.prodCount.toNat} {x : Producer} (hs : s'.producer =
    Function.update s.producer p x) :
    s'.rest + B.rest p (s.producer p) = s.rest + B.rest p x := by
  rw [State.rest, hs]
  exact sum_update_apply_add (Finset.mem_univ p) s.producer x
    fun q : Fin B.prodCount.toNat => B.rest q

private theorem got_update {c : Fin B.consCount.toNat} {x : Consumer w} (hs : s'.consumer =
    Function.update s.consumer c x) :
    s'.got + (s.consumer c).share = s.got + x.share := by
  rw [State.got, hs]
  exact sum_update_add (Finset.mem_univ c) s.consumer x Consumer.share

/-- No counter of a consumer wraps while there is an element to pull. -/
private theorem FlowInv.count_lt (h : FlowInv s) {data : BitVec w}
    (hfront : s.chan.front? = some data)
    (c : Fin B.consCount.toNat) : (s.consumer c).count.toNat + 1 < 2 ^ w := by
  have hpop := (h.pop hfront).taken_length_le
  have hnelems := B.nelems.isLt
  have hcard : B.allElements.card = B.nelems.toNat := card_rangeItems _ _ _
  rw [LogQueue.taken_pop hfront, List.length_append, List.length_singleton, hcard] at hpop
  have htaken : s.got.1 = s.chan.taken.length := by
    rw [← h.received, ← Multiset.sum_coe, ← Multiset.map_coe, sum_map_countAndSum]
    rfl
  have hle : (s.consumer c).count.toNat ≤ s.got.1 := by
    rw [State.got, Prod.fst_sum]
    exact Finset.single_le_sum (f := fun d => (s.consumer d).share.1)
      (fun _ _ => Nat.zero_le _) (Finset.mem_univ c)
  omega

private theorem flowInv_step (hc : ControlInv s) (h : FlowInv s) (hs : Step B s a s') :
    FlowInv s' := by
  cases hs with
  | fork hm =>
    have hgot : State.got { s with main := .spawn, consumer := fun _ => .pulling 0 0 } = s.got :=
      Finset.sum_congr rfl fun c _ => by
        have hcons := hc.consumer c
        rw [hm] at hcons
        rw [hcons]
        rfl
    exact ⟨h.sent, by rw [h.received, hgot]⟩
  | spawn hm =>
    have hrest : State.rest { s with main := .awaitProducers, producer := fun _ => .running 0 } =
        s.rest := Finset.sum_congr rfl fun p _ => by
      have hprod := hc.producer p
      rw [hm] at hprod
      rw [hprod]
      rfl
    exact ⟨by rw [hrest]; exact h.sent, h.received⟩
  | joinProducers | drained | joinConsumers | checkCount | checkSum => exact h
  | close | drain => exact Conserved.close h
  | @push p i hp hi hopen =>
    -- The element leaves the rest of its producer.
    have hrest : State.rest { s with
        producer := Function.update s.producer p (.running (i + 1))
        chan := s.chan.push (B.base p + BitVec.ofNat w i) } + B.rest p (s.producer p) =
        s.rest + B.rest p (.running (i + 1)) := rest_update rfl
    rw [hp, Bench.rest, B.elements_succ hi, Bench.rest, ← add_assoc, add_right_comm] at hrest
    have hsent := h
    rw [FlowInv, ← add_right_cancel hrest] at hsent
    exact hsent.push
  | refused hp hi hclosed =>
    obtain ⟨-, hopen⟩ := hc.open_of_running hp
    rw [hopen] at hclosed
    cases hclosed
  | @producerReturn p i hp hi =>
    have hrest : State.rest { s with producer := Function.update s.producer p .returned } +
        B.rest p (s.producer p) = s.rest + B.rest p .returned := rest_update rfl
    rw [hp, Bench.rest, B.elements_eq_zero hi, Bench.rest, add_zero, add_zero] at hrest
    exact ⟨by rw [hrest]; exact h.sent, h.received⟩
  | @pull c count sum data hcc hfront =>
    have hgot : State.got { s with
        consumer := Function.update s.consumer c (.pulling (count + 1) (sum + data))
        chan := s.chan.pop } + (s.consumer c).share =
        s.got + (Consumer.pulling (count + 1) (sum + data)).share := got_update rfl
    have hlt : count.toNat + 1 < 2 ^ w := by
      have hlt := h.count_lt hfront c
      rwa [hcc] at hlt
    rw [hcc, share_pulled hlt, ← add_assoc, add_right_comm] at hgot
    exact ⟨h.sent, (h.pop hfront).received.trans (add_right_cancel hgot).symm⟩
  | @consumerReturn c count sum hcc hdrained =>
    have hgot : State.got { s with
        consumer := Function.update s.consumer c (.returned count sum) } + (s.consumer c).share =
        s.got + (Consumer.returned count sum).share := got_update rfl
    rw [hcc] at hgot
    exact ⟨h.sent, h.received.trans (add_right_cancel hgot).symm⟩

theorem flowInv_of_reachable (h : (system B).Reachable s) : FlowInv s :=
  h.induct (flowInv_init B) fun _ _ _ hr hinv hs =>
    flowInv_step (controlInv_of_reachable hr) hinv hs

/-! ### The checks -/

/-- Behind the join the consumers have returned. -/
theorem ControlInv.returned (h : ControlInv s) (hm : s.main.Joined) (c : Fin B.consCount.toNat) :
    s.consumer c = .returned (s.consumer c).count (s.consumer c).sum := by
  obtain ⟨count, sum, hc⟩ := (h.consumer c).of_joined hm
  rw [hc]
  rfl

/-- Behind the join the consumers have counted and added up all elements. -/
theorem FlowInv.got_eq (h : FlowInv s) (hc : ControlInv s) (hm : s.main.Joined) :
    s.got = (B.nelems.toNat, B.allElements.sum) := by
  let c : Fin B.consCount.toNat := ⟨0, B.consCount_pos⟩
  have hdrained := hc.drained c _ _ (hc.returned hm c)
  have hrest : s.rest = 0 := Finset.sum_eq_zero fun p _ => by
    rw [(hc.producer p).of_joined hm]
    rfl
  have hflow := h
  rw [FlowInv, hrest] at hflow
  rw [hflow.got_eq hdrained, sum_map_countAndSum, Bench.allElements, card_rangeItems]

/-- The counts of the consumers, as natural numbers. -/
private theorem sum_count_eq (h : FlowInv s) (hc : ControlInv s) (hm : s.main.Joined) :
    ∑ c, (s.consumer c).count.toNat = B.nelems.toNat := by
  have hgot := congrArg Prod.fst (h.got_eq hc hm)
  rwa [State.got, Prod.fst_sum] at hgot

private theorem sum_sum_eq (h : FlowInv s) (hc : ControlInv s) (hm : s.main.Joined) :
    ∑ c, (s.consumer c).sum = B.allElements.sum := by
  have hgot := congrArg Prod.snd (h.got_eq hc hm)
  rwa [State.got, Prod.snd_sum] at hgot

/-- No `FAIL` line is printed. -/
private theorem output_eq_nil (h : (system B).Reachable s) : s.output = [] := by
  refine h.induct (P := fun s => s.output = []) rfl fun s a s' hr hout hs => ?_
  have hc := controlInv_of_reachable hr
  have hflow := flowInv_of_reachable hr
  cases hs with
  | checkCount hm hcount =>
    have htotal : (total fun c => (s.consumer c).count) = B.nelems := by
      rw [total_eq_sum, sum_eq_ofNat, sum_count_eq hflow hc (by rw [hm]; trivial),
        BitVec.ofNat_toNat, BitVec.setWidth_eq]
    dsimp only
    rw [hcount, if_pos htotal, hout]
  | checkSum hm hsum =>
    have htotal : (total fun c => (s.consumer c).sum) = B.expectedSum := by
      rw [total_eq_sum, expectedSum_eq, sum_sum_eq hflow hc (by rw [hm]; trivial)]
    dsimp only
    rw [hsum, if_pos htotal, hout]
  | _ => exact hout

/-- No producer fails the assertion that its push has succeeded. -/
private theorem ControlInv.not_assertFailed (h : ControlInv s) (p : Fin B.prodCount.toNat) :
    s.producer p ≠ .assertFailed := by
  intro hp
  have hat := h.producer p
  rw [hp] at hat
  cases hm : s.main with
  | awaitProducers =>
    rw [hm] at hat
    rcases hat with hat | ⟨_, hat⟩ <;> cases hat
  | _ =>
    rw [hm] at hat
    cases hat

/-- **Conservation.** For any number of elements, of producers and of consumers: the producers'
ranges partition the numbers below `NELEMS`. In every run all pushes succeed and no `FAIL` line is
printed, every run ends, and at its end the consumers have counted `NELEMS` elements, and their
sums add up to that of the numbers below `NELEMS`. -/
theorem chan_bench_conserves (B : Bench w) :
    B.Partitioned ∧
    (∀ s, (system B).Reachable s → (∀ p, s.producer p ≠ .assertFailed) ∧ s.output = []) ∧
    (system B).Terminating ∧
    ∀ s, (system B).Reachable s → ¬ (system B).Enabled s →
      s.main = .finished ∧
      ∃ count sum : Fin B.consCount.toNat → BitVec w,
        (∀ c, s.consumer c = .returned (count c) (sum c)) ∧
        ∑ c, (count c).toNat = B.nelems.toNat ∧
        ∑ c, sum c = ∑ i ∈ Finset.range B.nelems.toNat, BitVec.ofNat w i := by
  refine ⟨B.partitioned, fun s hr => ⟨(controlInv_of_reachable hr).not_assertFailed,
    output_eq_nil hr⟩, system_terminating B, fun s hr hend => ?_⟩
  have hc := controlInv_of_reachable hr
  have hflow := flowInv_of_reachable hr
  have hfin := finished_of_not_enabled hc hend
  have hm : s.main.Joined := by rw [hfin]; trivial
  refine ⟨hfin, fun c => (s.consumer c).count, fun c => (s.consumer c).sum, hc.returned hm,
    sum_count_eq hflow hc hm, ?_⟩
  rw [sum_sum_eq hflow hc hm, Bench.allElements, sum_rangeItems_from_zero]

end ChanBench

end TmcExamples
