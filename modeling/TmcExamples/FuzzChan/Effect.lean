import TmcExamples.FuzzChan.Control
import TmcExamples.Queue.Conservation
import TmcExamples.Queue.Ranges

/-!
# What a step of the fuzzer does to the numbers

A number is first to be posted (`State.rest`), then in the channel, then in the local sum of a
party that has pulled it (`State.unpublished`), and at last in `full_sum`. `Effect` says for each
action what it moves: a `post` from the first place to the second, a `pull` from the second to the
third, an `add` from the third to the fourth, and nothing else moves anything. A local sum that has
been added to `full_sum` is gone, which `none` stands for.
-/

namespace TmcExamples

namespace FuzzChan

variable {w : ℕ} {actions : List (RandAction w)} {wait : Bool}
variable {s s' : State actions} {a : Action w actions.length}

/-! ### Where the numbers are -/

/-- The local sum of the main task, unless it has been added to `full_sum`. -/
def Main.unpublished : Main w → Option (BitVec w)
  | .act _ | .awaitProducers | .close => some 0
  | .pull sum | .add sum => some sum
  | _ => none

/-- The local sum of a consumer, unless it has been added to `full_sum`. -/
def Task.unpublished : Task w → Option (BitVec w)
  | .notForked | .posting .. => some 0
  | .consuming _ _ _ sum => some sum
  | .returned => none

/-- The party is one that pulls: a consumer or the main task. -/
def Agent.Consumes (actions : List (RandAction w)) : Agent actions.length → Prop
  | none => True
  | some k => (actions.get k).consumes = true

/-- The local sum of a party, unless it has been added to `full_sum`. A producer has none to
add. -/
def State.unpublished (s : State actions) : Agent actions.length → Option (BitVec w)
  | none => s.main.unpublished
  | some k => if (actions.get k).consumes then (s.task k).unpublished else some 0

/-- The numbers that task `k` has yet to post. -/
def rest (actions : List (RandAction w)) (k : Fin actions.length) : Task w → Multiset (BitVec w)
  | .notForked => rangeItems (BitVec.ofNat w) (total actions k) (actions.get k).produced
  | .posting base len i => rangeItems (fun j => base + BitVec.ofNat w j) i (len - i)
  | .consuming .. | .returned => 0

/-- The numbers that the producers have yet to post. -/
def State.rest (s : State actions) : Multiset (BitVec w) := ∑ k, FuzzChan.rest actions k (s.task k)

/-! ### The actions that move a number -/

namespace Action

variable {n : ℕ}

/-- The value that the action pulls, and the party that pulls it. -/
def pulled? : Action w n → Option (Agent n × BitVec w)
  | .pull agent value => some (agent, value)
  | _ => none

/-- The sum that the action adds to `full_sum`, and the party whose sum it is. -/
def added? : Action w n → Option (Agent n × BitVec w)
  | .add agent sum => some (agent, sum)
  | _ => none

end Action

/-- What a step does. -/
inductive Effect (wait : Bool) (s : State actions) : Action w actions.length → State actions → Prop
  | post {k : Fin actions.length} {value : BitVec w} {s' : State actions}
      (hjoined : s.main.joined wait false = false)
      (hchan : s'.chan = s.chan.post value) (hrest : s.rest = s'.rest + {value})
      (hlocal : s'.unpublished = s.unpublished) (hsum : s'.fullSum = s.fullSum) :
      Effect wait s (.post k value) s'
  | pull {g : Agent actions.length} {value sum : BitVec w} {s' : State actions}
      (hg : g.Consumes actions) (hfront : s.chan.front? = some value)
      (hchan : s'.chan = s.chan.pop) (hrest : s'.rest = s.rest)
      (hlocal : s.unpublished g = some sum)
      (hlocal' : s'.unpublished = Function.update s.unpublished g (some (sum + value)))
      (hsum : s'.fullSum = s.fullSum) :
      Effect wait s (.pull g value) s'
  | add {g : Agent actions.length} {sum : BitVec w} {s' : State actions}
      (hg : g.Consumes actions) (hchan : s'.chan = s.chan) (hrest : s'.rest = s.rest)
      (hlocal : s.unpublished g = some sum)
      (hlocal' : s'.unpublished = Function.update s.unpublished g none)
      (hsum : s'.fullSum = s.fullSum + sum) :
      Effect wait s (.add g sum) s'
  | other {a : Action w actions.length} {s' : State actions}
      (hpull : a.pulled? = none) (hadd : a.added? = none)
      (hchan : s'.chan = s.chan ∨ s'.chan = s.chan.close) (hrest : s'.rest = s.rest)
      (hlocal : s'.unpublished = s.unpublished) (hsum : s'.fullSum = s.fullSum) :
      Effect wait s a s'

/-! ### One party moves -/

private theorem unpublished_main (h : s'.task = s.task) :
    s'.unpublished = Function.update s.unpublished none s'.main.unpublished := by
  funext g
  cases g with
  | none => rw [Function.update_self]; rfl
  | some k =>
    rw [Function.update_of_ne (by nofun)]
    simp only [State.unpublished, h]

/-- A step of the main task that leaves its local sum alone. -/
private theorem unpublished_main_eq (h : s'.task = s.task)
    (hm : s'.main.unpublished = s.main.unpublished) : s'.unpublished = s.unpublished := by
  rw [unpublished_main h, hm]
  exact Function.update_eq_self none s.unpublished

/-- A step of a consumer. -/
private theorem unpublished_consumer {k : Fin actions.length} {t : Task w}
    (hk : (actions.get k).consumes = true) (hm : s'.main = s.main)
    (h : s'.task = Function.update s.task k t) :
    s'.unpublished = Function.update s.unpublished (some k) t.unpublished := by
  funext g
  cases g with
  | none =>
    rw [Function.update_of_ne (by nofun)]
    simp only [State.unpublished, hm]
  | some j =>
    by_cases hj : j = k
    · subst hj
      rw [Function.update_self]
      simp only [State.unpublished, h, Function.update_self, hk, if_true]
    · rw [Function.update_of_ne fun he => hj (Option.some.inj he)]
      simp only [State.unpublished, h, Function.update_of_ne hj]

/-- A step of a task that leaves its local sum alone, if it has one. -/
private theorem unpublished_task_eq {k : Fin actions.length} {t : Task w}
    (hm : s'.main.unpublished = s.main.unpublished)
    (h : s'.task = Function.update s.task k t)
    (ht : (actions.get k).consumes = true → t.unpublished = (s.task k).unpublished) :
    s'.unpublished = s.unpublished := by
  funext g
  cases g with
  | none => exact hm
  | some j =>
    by_cases hj : j = k
    · subst hj
      simp only [State.unpublished, h, Function.update_self]
      split
      · exact ht ‹_›
      · rfl
    · simp only [State.unpublished, h, Function.update_of_ne hj]

/-- A step of a task that posts the numbers `posted`. -/
private theorem rest_task {k : Fin actions.length} {t : Task w} {posted : Multiset (BitVec w)}
    (h : s'.task = Function.update s.task k t)
    (ht : FuzzChan.rest actions k (s.task k) = FuzzChan.rest actions k t + posted) :
    s.rest = s'.rest + posted := by
  have hsum : s'.rest + FuzzChan.rest actions k (s.task k) =
      s.rest + FuzzChan.rest actions k t := by
    rw [State.rest, h]
    exact sum_update_apply_add (Finset.mem_univ k) s.task t fun k => FuzzChan.rest actions k
  rw [ht, ← add_assoc, add_right_comm] at hsum
  exact (add_right_cancel hsum).symm

/-- A step of a task that posts nothing. -/
private theorem rest_task_eq {k : Fin actions.length} {t : Task w}
    (h : s'.task = Function.update s.task k t)
    (ht : FuzzChan.rest actions k t = FuzzChan.rest actions k (s.task k)) : s'.rest = s.rest := by
  have hrest : s.rest = s'.rest + 0 := rest_task h (by rw [ht, add_zero])
  rw [add_zero] at hrest
  exact hrest.symm

/-- A producer in its loop posts the first of the numbers that it has left. -/
private theorem rest_posting (k : Fin actions.length) (base : BitVec w) {len i : ℕ} (hi : i < len) :
    FuzzChan.rest actions k (.posting base len i) =
      FuzzChan.rest actions k (.posting base len (i + 1)) + {base + BitVec.ofNat w i} := by
  obtain ⟨m, hm⟩ : ∃ m, len - i = m + 1 := ⟨len - i - 1, by omega⟩
  have hm' : len - (i + 1) = m := by omega
  rw [FuzzChan.rest, hm, rangeItems_succ, FuzzChan.rest, hm']

/-- A new producer has the numbers to post that follow those given out before. -/
private theorem rest_fork {k : Fin actions.length} {base : BitVec w}
    (h : base = BitVec.ofNat w (total actions k)) :
    FuzzChan.rest actions k ((actions.get k).task base) =
      FuzzChan.rest actions k .notForked := by
  have hitems : ∀ len, rangeItems (fun j => base + BitVec.ofNat w j) 0 (len - 0) =
      rangeItems (BitVec.ofNat w) (total actions k) len := by
    intro len
    rw [rangeItems, rangeItems, Nat.sub_zero, h]
    refine Multiset.map_congr rfl fun j _ => ?_
    rw [Nat.zero_add, ← BitVec.ofNat_add]
  simp only [FuzzChan.rest]
  cases hk : actions.get k with
  | producer count => exact hitems count.toNat
  | bulkProducer count =>
    simp only [RandAction.task, iotaSize_add]
    exact hitems count.toNat
  | consumer | tryPullConsumer => rfl

/-- **Every step has one of these effects.** -/
theorem step_effect (h : ControlInv wait s) (hs : Step actions wait s a s') :
    Effect wait s a s' := by
  cases hs with
  | @fork k hm =>
    have hbase := h.base
    have htask := h.notForked k
    rw [hm] at hbase htask
    have hk : s.task k = .notForked := htask le_rfl
    refine .other rfl rfl (Or.inl rfl) ?_ ?_ rfl
    · refine rest_task_eq rfl ?_
      rw [hk]
      exact rest_fork hbase
    · refine unpublished_task_eq ?_ rfl fun hconsumes => ?_
      · rw [hm]
        rfl
      · rw [hk]
        cases hget : actions.get k with
        | producer | bulkProducer =>
          rw [hget] at hconsumes
          cases hconsumes
        | consumer | tryPullConsumer => rfl
  | endActions hm =>
    refine .other rfl rfl (Or.inl rfl) rfl (unpublished_main_eq rfl ?_) rfl
    rw [hm]
    cases wait <;> rfl
  | joinConsumers hm =>
    refine .other rfl rfl (Or.inl rfl) rfl (unpublished_main_eq rfl ?_) rfl
    rw [hm]
    cases wait <;> rfl
  | joinProducers hm | drained hm | compare hm | joinLateProducers hm | mainClosed hm =>
    exact .other rfl rfl (Or.inl rfl) rfl (unpublished_main_eq rfl (by rw [hm]; rfl)) rfl
  | close hm | drain hm =>
    exact .other rfl rfl (Or.inr rfl) rfl (unpublished_main_eq rfl (by rw [hm]; rfl)) rfl
  | @mainPull sum data hm hfront =>
    have hlocal : s.unpublished none = some sum := by rw [State.unpublished, hm]; rfl
    exact .pull trivial hfront rfl rfl hlocal (unpublished_main rfl) rfl
  | @mainAdd sum hm =>
    have hlocal : s.unpublished none = some sum := by rw [State.unpublished, hm]; rfl
    exact .add trivial rfl rfl hlocal (unpublished_main rfl) rfl
  | @post k base len i ht hi =>
    have hat := h.at (k := k) (by rw [ht]; nofun)
    rw [ht] at hat
    obtain ⟨hconsumes, hjoined⟩ := hat
    refine .post hjoined rfl (rest_task rfl ?_) (unpublished_task_eq rfl rfl fun hc => ?_) rfl
    · rw [ht]
      exact rest_posting k base hi
    · rw [hconsumes] at hc
      cases hc
  | @producerReturn k base len i ht hi =>
    have hat := h.at (k := k) (by rw [ht]; nofun)
    rw [ht] at hat
    refine .other rfl rfl (Or.inl rfl) (rest_task_eq rfl ?_)
      (unpublished_task_eq rfl rfl fun hc => ?_) rfl
    · rw [ht, FuzzChan.rest, FuzzChan.rest, Nat.sub_eq_zero_of_le (Nat.le_of_not_lt hi),
        rangeItems_zero]
    · rw [hat.1] at hc
      cases hc
  | @pull k kind count i sum data ht hi hfront =>
    have hat := h.at (k := k) (by rw [ht]; nofun)
    rw [ht] at hat
    have hlocal : s.unpublished (some k) = some sum := by
      rw [State.unpublished, if_pos hat.1, ht]
      rfl
    exact .pull hat.1 hfront rfl (rest_task_eq rfl (by rw [ht]; rfl)) hlocal
      (unpublished_consumer (t := .consuming kind count (i + 1) (sum + data)) hat.1 rfl rfl) rfl
  | @closed k kind count i sum ht hi hdrained =>
    exact .other rfl rfl (Or.inl rfl) (rest_task_eq rfl (by rw [ht]; rfl))
      (unpublished_task_eq rfl rfl fun _ => by rw [ht]; rfl) rfl
  | @tryPullEmpty k count i sum ht hi hempty hopen =>
    exact .other rfl rfl (Or.inl rfl) (rest_task_eq rfl (by rw [ht]; rfl))
      (unpublished_task_eq rfl rfl fun _ => by rw [ht]; rfl) rfl
  | @add k kind count i sum ht hi =>
    have hat := h.at (k := k) (by rw [ht]; nofun)
    rw [ht] at hat
    have hlocal : s.unpublished (some k) = some sum := by
      rw [State.unpublished, if_pos hat.1, ht]
      rfl
    exact .add hat.1 rfl (rest_task_eq rfl (by rw [ht]; rfl)) hlocal
      (unpublished_consumer (t := .returned) hat.1 rfl rfl) rfl

end FuzzChan

end TmcExamples
