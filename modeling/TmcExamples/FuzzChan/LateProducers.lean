import TmcExamples.FuzzChan.Oracle

/-!
# The fuzzer without waiting for its producers

`run_one_test(false)` closes the channel while producers may still be posting, and awaits them at
the end. What a producer posts behind the close is refused, so `full_sum` is not the sum of all
numbers, and the test does not compare it. `PostInv` says what can be told: the log of the channel
holds what has been posted before the close, in that order, and each producer posts its own numbers
in order, so that a producer gets a prefix of its numbers through. The rest follows as for
`run_one_test(true)`.
-/

namespace TmcExamples

namespace FuzzChan

variable {w : ℕ} {actions : List (RandAction w)} {wait : Bool}
variable {s s' : State actions} {a : Action w actions.length} {tr : List (Action w actions.length)}

/-! ### What the trace tells of the posts -/

/-- The value that the action posts, and the task that posts it. -/
def Action.posted? {n : ℕ} : Action w n → Option (Agent n × BitVec w)
  | .post k value => some (some k, value)
  | _ => none

/-- The values that are posted in a trace, each with the task that posts it. -/
def posts (tr : List (Action w actions.length)) : List (Agent actions.length × BitVec w) :=
  tr.filterMap Action.posted?

private theorem posts_snoc (tr : List (Action w actions.length)) (a : Action w actions.length) :
    posts (tr ++ [a]) = posts tr ++ a.posted?.toList := by
  rw [posts, posts, List.filterMap_append]
  cases ha : a.posted? <;> simp [ha]

private theorem posts_snoc_of_none (tr : List (Action w actions.length)) (ha : a.posted? = none) :
    posts (tr ++ [a]) = posts tr := by
  rw [posts_snoc, ha, Option.toList_none, List.append_nil]

/-- The numbers given to task `k`, in order. A consumer has none. -/
def numbersOf (actions : List (RandAction w)) (k : Fin actions.length) : List (BitVec w) :=
  (List.range (actions.get k).produced).map fun i => BitVec.ofNat w (total actions k + i)

/-- What task `k` has posted so far. -/
def PostedBy (actions : List (RandAction w)) (k : Fin actions.length) (posted : List (BitVec w)) :
    Task w → Prop
  | .notForked => posted = []
  | .posting base len i =>
    base = BitVec.ofNat w (total actions k) ∧ len = (actions.get k).produced ∧ i ≤ len ∧
      posted = (List.range i).map fun j => base + BitVec.ofNat w j
  | .consuming .. => posted = [] ∧ (actions.get k).produced = 0
  | .returned => posted = numbersOf actions k

/-- The channel has taken what has been posted before the close. -/
inductive Accepted (tr : List (Action w actions.length)) (q : LogQueue (BitVec w)) : Prop
  | opened (hclosed : q.closed = false) (hclose : .close ∉ tr)
      (hlog : q.log = (posts tr).map Prod.snd)
  | closed (hclosed : q.closed = true) {tr₁ tr₂ : List (Action w actions.length)}
      (htr : tr = tr₁ ++ .close :: tr₂) (hclose₁ : .close ∉ tr₁) (hclose₂ : .close ∉ tr₂)
      (hlog : q.log = (posts tr₁).map Prod.snd)

/-- What the trace tells of the posts. -/
structure PostInv (tr : List (Action w actions.length)) (s : State actions) : Prop where
  accepted : Accepted tr s.chan
  posted : ∀ k, PostedBy actions k (valuesOf (posts tr) (some k)) (s.task k)

private theorem postInv_init (actions : List (RandAction w)) (wait : Bool) :
    PostInv [] (system actions wait).init where
  accepted := .opened rfl List.not_mem_nil rfl
  posted _ := rfl

/-! ### The steps -/

private theorem not_mem_snoc {b : Action w actions.length} (h : b ∉ tr) (ha : a ≠ b) :
    b ∉ tr ++ [a] := by
  intro hmem
  rcases List.mem_append.mp hmem with hmem | hmem
  · exact h hmem
  · exact ha (List.mem_singleton.mp hmem).symm

/-- A step that neither posts nor closes an open channel. -/
theorem Accepted.keep {q q' : LogQueue (BitVec w)} (h : Accepted tr q) (ha : a.posted? = none)
    (hclose : a ≠ .close) (hlog : q'.log = q.log) (hclosed : q'.closed = q.closed) :
    Accepted (tr ++ [a]) q' := by
  cases h with
  | opened hopen htr hposts =>
    refine .opened (hclosed.trans hopen) (not_mem_snoc htr hclose) ?_
    rw [posts_snoc_of_none tr ha, hlog]
    exact hposts
  | @closed hclosed' tr₁ tr₂ htr hclose₁ hclose₂ hposts =>
    have htr' : tr ++ [a] = tr₁ ++ .close :: (tr₂ ++ [a]) := by
      rw [htr, List.append_assoc, List.cons_append]
    exact .closed (hclosed.trans hclosed') htr' hclose₁ (not_mem_snoc hclose₂ hclose)
      (hlog.trans hposts)

/-- A post: an open channel takes it, a closed one refuses it. -/
theorem Accepted.post {q : LogQueue (BitVec w)} (h : Accepted tr q) (k : Fin actions.length)
    (value : BitVec w) : Accepted (tr ++ [.post k value]) (q.post value) := by
  cases h with
  | opened hopen htr hposts =>
    refine .opened ((LogQueue.post_closed q value).trans hopen)
      (not_mem_snoc htr fun he => by cases he) ?_
    rw [posts_snoc, LogQueue.post_of_open hopen, LogQueue.push_log, hposts, List.map_append]
    rfl
  | @closed hclosed tr₁ tr₂ htr hclose₁ hclose₂ hposts =>
    have htr' : tr ++ [.post k value] = tr₁ ++ .close :: (tr₂ ++ [.post k value]) := by
      rw [htr, List.append_assoc, List.cons_append]
    refine .closed ((LogQueue.post_closed q value).trans hclosed) htr' hclose₁
      (not_mem_snoc hclose₂ fun he => by cases he) ?_
    rw [LogQueue.post, if_pos hclosed]
    exact hposts

/-- The close. -/
theorem Accepted.close {q : LogQueue (BitVec w)} (h : Accepted tr q) (hopen : q.closed = false) :
    Accepted (tr ++ [.close]) q.close := by
  cases h with
  | opened _ htr hposts =>
    have htr' : tr ++ [.close] = tr ++ .close :: [] := rfl
    exact .closed rfl htr' htr List.not_mem_nil hposts
  | closed hclosed =>
    rw [hclosed] at hopen
    cases hopen

/-- A step that posts nothing, of a task or of the main task. -/
theorem PostInv.keep (ha : a.posted? = none)
    (haccepted : Accepted (tr ++ [a]) s'.chan)
    (htask : ∀ k, PostedBy actions k (valuesOf (posts tr) (some k)) (s'.task k)) :
    PostInv (tr ++ [a]) s' := by
  refine ⟨haccepted, ?_⟩
  rw [posts_snoc_of_none tr ha]
  exact htask

/-- A step of task `k` that posts nothing. -/
private theorem PostInv.keep_task (h : PostInv tr s) (ha : a.posted? = none) (hclose : a ≠ .close)
    {k : Fin actions.length} {t : Task w} (htask : s'.task = Function.update s.task k t)
    (ht : PostedBy actions k (valuesOf (posts tr) (some k)) t) (hlog : s'.chan.log = s.chan.log)
    (hclosed : s'.chan.closed = s.chan.closed) : PostInv (tr ++ [a]) s' := by
  refine PostInv.keep ha (h.accepted.keep ha hclose hlog hclosed) ?_
  rw [htask]
  exact forall_update
    (P := fun j (t : Task w) => PostedBy actions j (valuesOf (posts tr) (some j)) t) h.posted ht

/-- The numbers of a new task follow those given out before. -/
private theorem postedBy_fork {k : Fin actions.length} {base : BitVec w} {posted : List (BitVec w)}
    (hbase : base = BitVec.ofNat w (total actions k)) (hposted : posted = []) :
    PostedBy actions k posted ((actions.get k).task base) := by
  cases ha : actions.get k with
  | producer count =>
    exact ⟨hbase, by rw [ha]; rfl, Nat.zero_le _, hposted⟩
  | bulkProducer count =>
    exact ⟨hbase, by rw [ha]; exact iotaSize_add _ _, Nat.zero_le _, hposted⟩
  | consumer count | tryPullConsumer count => exact ⟨hposted, by rw [ha]; rfl⟩

/-- A producer that has posted as many numbers as it was told, has posted its own. -/
private theorem posted_eq_numbersOf {k : Fin actions.length} {base : BitVec w} {len i : ℕ}
    {posted : List (BitVec w)} (h : PostedBy actions k posted (.posting base len i))
    (hi : ¬ i < len) : posted = numbersOf actions k := by
  obtain ⟨hbase, hlen, hle, hposted⟩ := h
  obtain rfl : i = len := by omega
  rw [hposted, numbersOf, hlen, hbase]
  exact List.map_congr_left fun j _ => (BitVec.ofNat_add ..).symm

private theorem postInv_step (hc : ControlInv wait s) (h : PostInv tr s)
    (hs : Step actions wait s a s') : PostInv (tr ++ [a]) s' := by
  cases hs with
  | @fork k hm =>
    have hbase := hc.base
    have htask := hc.notForked k
    rw [hm] at hbase htask
    have hposted := h.posted k
    rw [htask le_rfl] at hposted
    exact h.keep_task rfl (fun h => by cases h) rfl (postedBy_fork hbase hposted) rfl rfl
  | endActions | joinProducers | mainPull | mainClosed | mainAdd | drained | joinConsumers | compare
  | joinLateProducers =>
    exact PostInv.keep rfl (h.accepted.keep rfl (fun h => by cases h) rfl rfl) h.posted
  | close hm =>
    have hopen := hc.closed
    rw [hm] at hopen
    exact PostInv.keep rfl (h.accepted.close hopen) h.posted
  | drain hm =>
    -- The channel has been closed before.
    have hclosed := hc.closed
    rw [hm] at hclosed
    exact PostInv.keep rfl (h.accepted.keep rfl (fun h => by cases h) rfl hclosed.symm) h.posted
  | @post k base len i ht hi =>
    have hposted := h.posted k
    rw [ht] at hposted
    obtain ⟨hbase, hlen, -, hposted⟩ := hposted
    have hposts : posts (tr ++ [.post k (base + BitVec.ofNat w i)]) =
      posts tr ++ [(some k, base + BitVec.ofNat w i)] := posts_snoc _ _
    refine ⟨h.accepted.post k _, fun j => ?_⟩
    rw [hposts, valuesOf_concat]
    by_cases hj : j = k
    · subst hj
      change PostedBy actions j _ (Function.update s.task j (.posting base len (i + 1)) j)
      rw [if_pos rfl, Function.update_self]
      refine ⟨hbase, hlen, hi, ?_⟩
      rw [hposted, List.range_succ, List.map_append]
      rfl
    · change PostedBy actions j _ (Function.update s.task k (.posting base len (i + 1)) j)
      rw [if_neg fun h => hj (Option.some.inj h).symm, List.append_nil, Function.update_of_ne hj]
      exact h.posted j
  | @producerReturn k base len i ht hi =>
    have hposted := h.posted k
    rw [ht] at hposted
    exact h.keep_task (t := .returned) rfl (fun h => by cases h) rfl
      (posted_eq_numbersOf hposted hi) rfl rfl
  | @pull k kind count i sum data ht hi hfront =>
    have hposted := h.posted k
    rw [ht] at hposted
    exact h.keep_task (t := .consuming kind count (i + 1) (sum + data)) rfl
      (fun h => by cases h) rfl hposted rfl rfl
  | @closed k kind count i sum ht hi hdrained =>
    have hposted := h.posted k
    rw [ht] at hposted
    exact h.keep_task (t := .consuming kind count (i + 1) sum) rfl (fun h => by cases h) rfl
      hposted rfl rfl
  | @tryPullEmpty k count i sum ht hi hempty hopen =>
    have hposted := h.posted k
    rw [ht] at hposted
    exact h.keep_task (t := .consuming .tryPull count (i + 1) sum) rfl (fun h => by cases h) rfl
      hposted rfl rfl
  | @add k kind count i sum ht hi =>
    have hposted := h.posted k
    rw [ht] at hposted
    have hnumbers : numbersOf actions k = [] := by rw [numbersOf, hposted.2]; rfl
    exact h.keep_task (t := .returned) rfl (fun h => by cases h) rfl
      (hposted.1.trans hnumbers.symm) rfl rfl

private theorem postInv_of_run (h : (system actions wait).Run (system actions wait).init tr s) :
    PostInv tr s :=
  LTS.Run.induct (postInv_init actions wait)
    (fun _ _ _ _ hr hinv hs => postInv_step (controlInv_of_reachable hr.reachable) hinv hs) h

/-! ### The end of the test -/

/-- The values of all parties together. -/
private theorem sum_valuesOf {n : ℕ} (l : List (Agent n × BitVec w)) :
    ∑ g, (valuesOf l g).sum = (l.map Prod.snd).sum := by
  have hsum := sum_entriesOf l fun _ value => value
  simp only [List.map_id_fun'] at hsum
  exact hsum

/-- Behind the joins `full_sum` is the sum of what has been pulled. -/
private theorem fullSum_eq_sum_pulls (hc : ControlInv wait s) (htrace : TraceInv tr s)
    (hm : s.main.Joined) : s.fullSum = ((pulls tr).map Prod.snd).sum := by
  rw [← htrace.fullSum, ← sum_valuesOf, ← sum_valuesOf]
  refine Finset.sum_congr rfl fun g _ => ?_
  have hacc := htrace.accounted g
  by_cases hg : g.Consumes actions
  · rw [unpublished_of_joined hc hm hg] at hacc
    rw [hacc, List.sum_singleton]
  · -- What it has pulled adds up to zero, as it has pulled nothing.
    rw [unpublished_of_not_consumes hg] at hacc
    rw [hacc.1, hacc.2]
    rfl

private theorem failures_of_not_wait (h : (system actions false).Reachable s) :
    s.main ≠ .compare ∧ s.failures = 0 := by
  refine h.induct (P := fun s => s.main ≠ .compare ∧ s.failures = 0) ⟨(fun h => by cases h), rfl⟩
    fun s a s' hr hinv hs => ?_
  obtain ⟨hne, hfail⟩ := hinv
  cases hs with
  | compare hm => exact absurd hm hne
  | post | producerReturn | pull | closed | tryPullEmpty | add => exact ⟨hne, hfail⟩
  | _ => exact ⟨(fun h => by cases h), hfail⟩

/-- What the trace of a complete run tells, when producers may be late. The channel is closed once;
what is posted before is pulled in the same order, and what is posted behind is not; each
producer posts its numbers in order; each consumer and the main task add up once what they have
pulled. -/
structure PrefixOnce (tr : List (Action w actions.length)) (fullSum : BitVec w) : Prop where
  accepted : ∃ tr₁ tr₂, tr = tr₁ ++ .close :: tr₂ ∧ .close ∉ tr₁ ∧ .close ∉ tr₂ ∧
    (pulls tr).map Prod.snd = (posts tr₁).map Prod.snd ∧
    (∀ k, valuesOf (posts tr₁) (some k) <+: numbersOf actions k) ∧
    fullSum = ((posts tr₁).map Prod.snd).sum
  posted : ∀ k, valuesOf (posts tr) (some k) = numbersOf actions k
  consumes : ∀ p ∈ pulls tr, p.1.Consumes actions
  added : ∀ g, g.Consumes actions → valuesOf (adds tr) g = [(valuesOf (pulls tr) g).sum]
  others : ∀ g, ¬ g.Consumes actions → valuesOf (adds tr) g = []

private theorem prefixOnce_of_finished
    (h : (system actions wait).Run (system actions wait).init tr s)
    (hm : s.main = .finished) : PrefixOnce tr s.fullSum := by
  have hc := controlInv_of_reachable h.reachable
  have hj : s.main.Joined := by rw [hm]; trivial
  have htrace := traceInv_of_run h
  have hpost := postInv_of_run h
  have hposted : ∀ k, valuesOf (posts tr) (some k) = numbersOf actions k := fun k => by
    have hk := hpost.posted k
    rwa [hc.returned hj k] at hk
  have hdrained := drained_of_joined hc hj
  refine ⟨?_, hposted, htrace.consumes, fun g hg => ?_, fun g hg => ?_⟩
  · cases hpost.accepted with
    | opened hopen =>
      rw [hdrained.1] at hopen
      cases hopen
    | @closed _ tr₁ tr₂ htr hclose₁ hclose₂ hlog =>
      have hpulls : (pulls tr).map Prod.snd = (posts tr₁).map Prod.snd := by
        rw [htrace.taken, hdrained.taken_eq, hlog]
      refine ⟨tr₁, tr₂, htr, hclose₁, hclose₂, hpulls, fun k => ?_, ?_⟩
      · have hsplit : posts tr = posts tr₁ ++ posts (.close :: tr₂) := by
          rw [htr, posts, List.filterMap_append, posts, posts]
        rw [← hposted k, hsplit, valuesOf, valuesOf, List.filter_append, List.map_append]
        exact List.prefix_append _ _
      · rw [← hpulls]
        exact fullSum_eq_sum_pulls hc htrace hj
  · have hacc := htrace.accounted g
    rwa [unpublished_of_joined hc hj hg] at hacc
  · have hacc := htrace.accounted g
    rw [unpublished_of_not_consumes hg] at hacc
    exact hacc.1

/-- **Late producers.** For any actions with any counts: every run of the test that does not wait
for its producers ends with all tasks returned and no expectation failed. `full_sum` is then the
sum of the numbers posted before the close; each of them has been added exactly once, and no
other. -/
theorem run_one_test_counts_accepted (actions : List (RandAction w)) :
    (system actions false).Terminating ∧
    ∀ tr s, (system actions false).Run (system actions false).init tr s →
      ¬ (system actions false).Enabled s →
      s.main = .finished ∧ (∀ k, s.task k = .returned) ∧ PrefixOnce tr s.fullSum ∧
      s.failures = 0 := by
  refine ⟨system_terminating actions false, fun tr s h hend => ?_⟩
  have hc := controlInv_of_reachable h.reachable
  have hm := finished_of_not_enabled hc hend
  exact ⟨hm, hc.returned (by rw [hm]; trivial), prefixOnce_of_finished h hm,
    (failures_of_not_wait h.reachable).2⟩

end FuzzChan

end TmcExamples
