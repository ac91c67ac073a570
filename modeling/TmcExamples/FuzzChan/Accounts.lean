import Mathlib.Algebra.BigOperators.Fin
import TmcExamples.FuzzChan.Effect

/-!
# Every number is added to `full_sum` exactly once

Two invariants follow from what a step does. `FlowInv` is about the state: if the test waits
for its producers, the numbers below `total` are those in the channel's log and those yet to be
posted, and the local sums together with `full_sum` are the sum of what has been pulled. `TraceInv`
is about the trace: it lists what each party has pulled and added so far. A party adds once, and
what it adds is the sum of all that it pulls in the run.
-/

namespace TmcExamples

namespace FuzzChan

variable {w : ℕ} {actions : List (RandAction w)} {wait : Bool}
variable {s s' : State actions} {a : Action w actions.length} {tr : List (Action w actions.length)}

/-! ### The numbers of the producers -/

private theorem total_mono (actions : List (RandAction w)) : Monotone (total actions) := by
  refine monotone_nat_of_le_succ fun k => ?_
  by_cases hk : k < actions.length
  · exact (total_succ ⟨k, hk⟩).symm ▸ Nat.le_add_right _ _
  · rw [total, total, List.take_of_length_le (by omega), List.take_of_length_le (by omega)]

/-- All numbers that are given to producers. -/
def numbers (actions : List (RandAction w)) : Multiset (BitVec w) :=
  rangeItems (BitVec.ofNat w) 0 (total actions actions.length)

private theorem rest_init (actions : List (RandAction w)) (wait : Bool) :
    (system actions wait).init.rest = numbers actions := by
  rw [numbers, ← sum_rangeItems (BitVec.ofNat w) (total_mono actions) (total_zero actions),
    ← Fin.sum_univ_eq_sum_range fun k =>
      rangeItems (BitVec.ofNat w) (total actions k) (total actions (k + 1) - total actions k)]
  refine Finset.sum_congr rfl fun k _ => ?_
  rw [total_succ, Nat.add_sub_cancel_left]
  rfl

/-! ### The flow through the channel -/

/-- What has been pulled and added up, in `full_sum` or in a local sum. -/
def State.got (s : State actions) : BitVec w := s.fullSum + ∑ g, (s.unpublished g).getD 0

/-- The numbers are conserved on the way from the producers to `full_sum`. -/
def FlowInv (s : State actions) : Prop := Conserved id (numbers actions) s.chan s.rest s.got

/-- At the start every party has a local sum of zero. -/
private theorem unpublished_init (actions : List (RandAction w)) (wait : Bool)
    (g : Agent actions.length) : (system actions wait).init.unpublished g = some 0 := by
  cases g with
  | none => rfl
  | some k =>
    simp only [State.unpublished]
    split <;> rfl

private theorem flowInv_init (actions : List (RandAction w)) (wait : Bool) :
    FlowInv (system actions wait).init := by
  have hgot : (system actions wait).init.got = 0 := by
    rw [State.got, Finset.sum_eq_zero fun g _ => by rw [unpublished_init, Option.getD_some]]
    rfl
  rw [FlowInv, rest_init, hgot]
  exact .empty _ _

private theorem flowInv_step (hc : ControlInv true s) (h : FlowInv s) (he : Effect true s a s') :
    FlowInv s' := by
  cases he with
  | post hjoined hchan hrest hlocal hsum =>
    have hopen : s.chan.closed = false := by rw [hc.closed, Main.closed_of_joined hjoined]
    have hgot : s'.got = s.got := by rw [State.got, State.got, hlocal, hsum]
    rw [FlowInv, hrest] at h
    rw [FlowInv, hchan, LogQueue.post_of_open hopen, hgot]
    exact h.push
  | @pull g value sum _ hg hfront hchan hrest hlocal hlocal' hsum =>
    have hgot : s'.got = s.got + value := by
      have hadd := sum_update_add (Finset.mem_univ g) s.unpublished (some (sum + value))
        fun x => x.getD 0
      rw [hlocal, Option.getD_some, Option.getD_some, ← add_assoc, add_right_comm] at hadd
      rw [State.got, State.got, hlocal', hsum, add_right_cancel hadd, add_assoc]
    rw [FlowInv, hchan, hrest, hgot]
    exact h.pop hfront
  | @add g sum _ hg hchan hrest hlocal hlocal' hsum =>
    have hgot : s'.got = s.got := by
      have hadd := sum_update_add (Finset.mem_univ g) s.unpublished none fun x => x.getD 0
      rw [hlocal, Option.getD_some, Option.getD_none, add_zero] at hadd
      rw [State.got, State.got, hlocal', hsum, ← hadd, add_assoc, add_comm sum]
    rw [FlowInv, hchan, hrest, hgot]
    exact h
  | other hpull hadd hchan hrest hlocal hsum =>
    have hgot : s'.got = s.got := by rw [State.got, State.got, hlocal, hsum]
    rw [FlowInv, hrest, hgot]
    rcases hchan with hchan | hchan <;> rw [hchan]
    · exact h
    · exact h.close

theorem flowInv_of_reachable (h : (system actions true).Reachable s) : FlowInv s :=
  h.induct (flowInv_init actions true) fun _ _ _ hr hinv hs =>
    have hc := controlInv_of_reachable hr
    flowInv_step hc hinv (step_effect hc hs)

/-! ### What the trace tells -/

/-- The values that are pulled in a trace, each with the party that pulls it. -/
def pulls (tr : List (Action w actions.length)) : List (Agent actions.length × BitVec w) :=
  tr.filterMap Action.pulled?

/-- The sums that are added to `full_sum` in a trace, each with the party that adds it. -/
def adds (tr : List (Action w actions.length)) : List (Agent actions.length × BitVec w) :=
  tr.filterMap Action.added?

private theorem pulls_snoc (tr : List (Action w actions.length)) (a : Action w actions.length) :
    pulls (tr ++ [a]) = pulls tr ++ a.pulled?.toList := by
  rw [pulls, pulls, List.filterMap_append]
  cases ha : a.pulled? <;> simp [ha]

private theorem adds_snoc (tr : List (Action w actions.length)) (a : Action w actions.length) :
    adds (tr ++ [a]) = adds tr ++ a.added?.toList := by
  rw [adds, adds, List.filterMap_append]
  cases ha : a.added? <;> simp [ha]

/-- The values of one party. -/
def valuesOf {n : ℕ} (l : List (Agent n × BitVec w)) (g : Agent n) : List (BitVec w) :=
  (l.filter (·.1 = g)).map Prod.snd

theorem valuesOf_concat {n : ℕ} (l : List (Agent n × BitVec w)) (g g' : Agent n) (v : BitVec w) :
    valuesOf (l ++ [(g', v)]) g = valuesOf l g ++ if g' = g then [v] else [] := by
  rw [valuesOf, List.filter_append, List.map_append, valuesOf]
  by_cases hg : g' = g
  · rw [if_pos hg, List.filter_cons_of_pos (by simpa using hg)]
    rfl
  · rw [if_neg hg, List.filter_cons_of_neg (by simpa using hg)]
    rfl

/-- The local sum of a party is that of what it has pulled; a party that has none any more
has added it, once. -/
def Accounted (pulled added : List (BitVec w)) : Option (BitVec w) → Prop
  | some sum => added = [] ∧ pulled.sum = sum
  | none => added = [pulled.sum]

/-- What the trace tells of the state. -/
structure TraceInv (tr : List (Action w actions.length)) (s : State actions) : Prop where
  taken : (pulls tr).map Prod.snd = s.chan.taken
  consumes : ∀ p ∈ pulls tr, p.1.Consumes actions
  fullSum : ((adds tr).map Prod.snd).sum = s.fullSum
  accounted : ∀ g, Accounted (valuesOf (pulls tr) g) (valuesOf (adds tr) g) (s.unpublished g)

private theorem traceInv_init (actions : List (RandAction w)) (wait : Bool) :
    TraceInv [] (system actions wait).init where
  taken := rfl
  consumes _ hp := absurd hp List.not_mem_nil
  fullSum := rfl
  accounted g := by
    rw [unpublished_init]
    exact ⟨rfl, rfl⟩

/-- A step that neither pulls nor adds. -/
private theorem TraceInv.keep (h : TraceInv tr s) (hpull : a.pulled? = none)
    (hadd : a.added? = none) (htaken : s'.chan.taken = s.chan.taken)
    (hlocal : s'.unpublished = s.unpublished) (hsum : s'.fullSum = s.fullSum) :
    TraceInv (tr ++ [a]) s' := by
  have hpulls : pulls (tr ++ [a]) = pulls tr := by
    rw [pulls_snoc, hpull, Option.toList_none, List.append_nil]
  have hadds : adds (tr ++ [a]) = adds tr := by
    rw [adds_snoc, hadd, Option.toList_none, List.append_nil]
  refine ⟨?_, ?_, ?_, fun g => ?_⟩
  · rw [hpulls, htaken]
    exact h.taken
  · rw [hpulls]
    exact h.consumes
  · rw [hadds, hsum]
    exact h.fullSum
  · rw [hpulls, hadds, hlocal]
    exact h.accounted g

private theorem traceInv_step (h : TraceInv tr s) (he : Effect wait s a s') :
    TraceInv (tr ++ [a]) s' := by
  cases he with
  | @post k value _ hjoined hchan hrest hlocal hsum =>
    exact h.keep rfl rfl (by rw [hchan, LogQueue.taken_post]) hlocal hsum
  | @pull g value sum _ hg hfront hchan hrest hlocal hlocal' hsum =>
    have hpulls : pulls (tr ++ [.pull g value]) = pulls tr ++ [(g, value)] := pulls_snoc _ _
    have hadds : adds (tr ++ [.pull g value]) = adds tr :=
      (adds_snoc _ _).trans (List.append_nil _)
    refine ⟨?_, ?_, ?_, fun g' => ?_⟩
    · rw [hpulls, hchan, LogQueue.taken_pop hfront, List.map_append, h.taken]
      rfl
    · rw [hpulls]
      intro p hp
      rcases List.mem_append.mp hp with hp | hp
      · exact h.consumes p hp
      · rwa [List.mem_singleton.mp hp]
    · rw [hadds, hsum]
      exact h.fullSum
    · have hg' := h.accounted g'
      rw [hpulls, hadds, hlocal', valuesOf_concat]
      by_cases heq : g = g'
      · -- The party that pulls has not added its sum yet.
        subst heq
        rw [hlocal] at hg'
        rw [if_pos rfl, Function.update_self]
        refine ⟨hg'.1, ?_⟩
        rw [List.sum_append, hg'.2, List.sum_singleton]
      · rw [if_neg heq, List.append_nil, Function.update_of_ne (Ne.symm heq)]
        exact hg'
  | @add g sum _ hg hchan hrest hlocal hlocal' hsum =>
    have hpulls : pulls (tr ++ [.add g sum]) = pulls tr :=
      (pulls_snoc _ _).trans (List.append_nil _)
    have hadds : adds (tr ++ [.add g sum]) = adds tr ++ [(g, sum)] := adds_snoc _ _
    refine ⟨?_, ?_, ?_, fun g' => ?_⟩
    · rw [hpulls, hchan]
      exact h.taken
    · rw [hpulls]
      exact h.consumes
    · rw [hadds, hsum, List.map_append, List.sum_append, h.fullSum, List.map_singleton,
        List.sum_singleton]
    · have hg' := h.accounted g'
      rw [hpulls, hadds, hlocal', valuesOf_concat]
      by_cases heq : g = g'
      · -- What it adds is what it has pulled.
        subst heq
        rw [hlocal] at hg'
        obtain ⟨hadded, hpulled⟩ := hg'
        rw [if_pos rfl, Function.update_self, hadded, List.nil_append]
        exact congrArg (fun x => [x]) hpulled.symm
      · rw [if_neg heq, List.append_nil, Function.update_of_ne (Ne.symm heq)]
        exact hg'
  | other hpull hadd hchan hrest hlocal hsum =>
    refine h.keep hpull hadd ?_ hlocal hsum
    rcases hchan with hchan | hchan <;> rw [hchan]
    rfl

/-- The account of the trace holds along every run. -/
theorem traceInv_of_run (h : (system actions wait).Run (system actions wait).init tr s) :
    TraceInv tr s :=
  LTS.Run.induct (traceInv_init actions wait)
    (fun _ _ _ _ hr hinv hs => traceInv_step hinv
      (step_effect (controlInv_of_reachable hr.reachable) hs)) h

end FuzzChan

end TmcExamples
