import TmcExamples.FuzzChan.Model
import TmcExamples.Transition.Parties

/-!
# The order of the channel fuzzer

`ControlInv` says where the forked tasks are at each program point of the main task, and what the
main task relies on: `base` is the number of the numbers given to producers so far (`total`),
where it wraps as `size_t` does; the channel is open until the main task closes it; and
when the loop that pulls the remaining data has ended, the channel stays empty, because it
refuses what a late producer posts.
-/

namespace TmcExamples

namespace FuzzChan

variable {w : ℕ} {actions : List (RandAction w)} {wait : Bool}
variable {s s' : State actions} {a : Action w actions.length}

/-! ### The numbers given to producers -/

/-- How many numbers the action gives to a producer. -/
def RandAction.produced : RandAction w → ℕ
  | .producer count | .bulkProducer count => count.toNat
  | .consumer _ | .tryPullConsumer _ => 0

/-- How many numbers the first `tick` actions give to producers. -/
def total (actions : List (RandAction w)) (tick : ℕ) : ℕ :=
  ((actions.take tick).map RandAction.produced).sum

theorem total_zero (actions : List (RandAction w)) : total actions 0 = 0 := by
  rw [total, List.take_zero]
  rfl

/-- The next action adds what it produces to the numbers that are given out. -/
theorem total_succ (k : Fin actions.length) :
    total actions (k + 1) = total actions k + (actions.get k).produced := by
  rw [total, List.take_succ_eq_append_getElem k.isLt, List.map_append, List.sum_append,
    List.map_singleton, List.sum_singleton]
  rfl

private theorem nextBase_ofNat (a : RandAction w) (m : ℕ) :
    a.nextBase (BitVec.ofNat w m) = BitVec.ofNat w (m + a.produced) := by
  cases a <;> simp [RandAction.nextBase, RandAction.produced, BitVec.ofNat_add]

/-- A bulk producer posts as many elements as it was told. -/
theorem iotaSize_add (base count : BitVec w) : iotaSize base (base + count) = count.toNat := by
  rw [iotaSize, BitVec.add_comm, BitVec.add_sub_cancel]

/-! ### The invariant -/

namespace Main

/-- The number of actions made, of `n`. -/
def forked (n : ℕ) : Main w → ℕ
  | .act tick => tick
  | _ => n

/-- The main task has closed the channel. -/
def closed : Main w → Bool
  | .act _ | .awaitProducers | .close => false
  | _ => true

/-- The main task has left the loop that pulls the remaining data. -/
def drained : Main w → Bool
  | .act _ | .awaitProducers | .close | .pull _ => false
  | _ => true

/-- The main task has joined the consumers, or the producers. -/
def joined (wait : Bool) : Main w → (consumes : Bool) → Bool
  | .act _, _ | .awaitProducers, _ => false
  | .compare, _ | .finished, _ => true
  | .awaitLateProducers, consumes => consumes || wait
  | _, consumes => !consumes && wait

/-- Before the producers are joined the channel is open, if the test waits for them. -/
theorem closed_of_joined {m : Main w} (h : m.joined true false = false) : m.closed = false := by
  cases m with
  | act | awaitProducers | close => rfl
  | _ => cases h

end Main

/-- Where the task forked by an action may be, when the tasks of a group have been joined or not. -/
def Task.At (a : RandAction w) (joined : Bool → Bool) : Task w → Prop
  | .notForked => False
  | .posting .. => a.consumes = false ∧ joined false = false
  | .consuming .. => a.consumes = true ∧ joined true = false
  | .returned => True

private theorem Task.at_task (a : RandAction w) (base : BitVec w) {joined : Bool → Bool}
    (h : ∀ b, joined b = false) : (a.task base).At a joined := by
  cases a <;> exact ⟨rfl, h _⟩

/-- Where a task stands depends on the joins alone. -/
theorem Task.At.congr {a : RandAction w} {j j' : Bool → Bool} {t : Task w} (h : t.At a j)
    (hj : ∀ b, j' b = j b) : t.At a j' := by
  obtain rfl : j' = j := funext hj
  exact h

/-- Joining one of the groups, whose tasks have returned. -/
theorem Task.At.join {a : RandAction w} {j j' : Bool → Bool} {t : Task w} (h : t.At a j) {b : Bool}
    (hb : a.consumes = b → t = .returned) (hj : j' (!b) = j (!b)) : t.At a j' := by
  cases t with
  | notForked => exact h.elim
  | posting | consuming =>
    obtain ⟨hconsumes, hopen⟩ := h
    cases b with
    | false | true =>
      first
      | exact ⟨hconsumes, hj.trans hopen⟩
      | cases hb hconsumes
  | returned => trivial

/-- The order of the test. -/
structure ControlInv (wait : Bool) (s : State actions) : Prop where
  forked_le : s.main.forked actions.length ≤ actions.length
  closed : s.chan.closed = s.main.closed
  base : s.base = BitVec.ofNat w (total actions (s.main.forked actions.length))
  notForked : ∀ k : Fin actions.length,
    s.main.forked actions.length ≤ k → s.task k = .notForked
  task : ∀ k : Fin actions.length, k < s.main.forked actions.length →
    (s.task k).At (actions.get k) (s.main.joined wait)
  drained : s.main.drained = true → s.chan.Drained

private theorem controlInv_init (actions : List (RandAction w)) (wait : Bool) :
    ControlInv wait (system actions wait).init where
  forked_le := Nat.zero_le _
  closed := rfl
  base := congrArg (BitVec.ofNat w) (total_zero actions).symm
  notForked _ _ := rfl
  task _ h := absurd h (Nat.not_lt_zero _)
  drained := nofun

/-- A step of the main task that keeps the number of forked tasks. -/
private theorem ControlInv.move (h : ControlInv wait s) {m : Main w}
    (hforked : m.forked actions.length = s.main.forked actions.length)
    (htask : ∀ k, (s.task k).At (actions.get k) (s.main.joined wait) →
      (s.task k).At (actions.get k) (m.joined wait))
    {q : LogQueue (BitVec w)} (hclosed : q.closed = m.closed)
    (hdrained : m.drained = true → q.Drained) (x : BitVec w) (n : ℕ) :
    ControlInv wait { s with main := m, chan := q, fullSum := x, failures := n } where
  forked_le := hforked ▸ h.forked_le
  closed := hclosed
  base := hforked ▸ h.base
  notForked k hk := h.notForked k (hforked ▸ hk)
  task k hk := htask k (h.task k (hforked ▸ hk))
  drained := hdrained

/-- A step of the main task from `m₀` to `m` that leaves the channel alone. -/
private theorem ControlInv.move_main (h : ControlInv wait s) {m₀ m : Main w} (hm : s.main = m₀)
    (hforked : m.forked actions.length = m₀.forked actions.length) (hclosed : m.closed = m₀.closed)
    (hdrained : m.drained = true → m₀.drained = true ∨ s.chan.Drained)
    (htask : ∀ k, (s.task k).At (actions.get k) (m₀.joined wait) →
      (s.task k).At (actions.get k) (m.joined wait)) (x : BitVec w) (n : ℕ) :
    ControlInv wait { s with main := m, fullSum := x, failures := n } := by
  subst hm
  exact h.move hforked htask (h.closed.trans hclosed.symm)
    (fun hd => (hdrained hd).elim h.drained id) x n

/-- A forked task has been made by the action of its number. -/
theorem ControlInv.at (h : ControlInv wait s) {k : Fin actions.length}
    (hk : s.task k ≠ .notForked) : (s.task k).At (actions.get k) (s.main.joined wait) :=
  h.task k (Nat.lt_of_not_le fun hle => hk (h.notForked k hle))

/-- A step of a forked task. -/
private theorem ControlInv.move_task (h : ControlInv wait s) {k : Fin actions.length} {t : Task w}
    (hk : s.task k ≠ .notForked)
    (ht : (s.task k).At (actions.get k) (s.main.joined wait) →
      t.At (actions.get k) (s.main.joined wait))
    {q : LogQueue (BitVec w)} (hclosed : q.closed = s.chan.closed)
    (hdrained : s.chan.Drained → q.Drained) (x : BitVec w) :
    ControlInv wait
      { s with task := Function.update s.task k t, chan := q, fullSum := x } where
  forked_le := h.forked_le
  closed := by rw [hclosed, h.closed]
  base := h.base
  notForked j hj := by
    have hne : j ≠ k := fun hjk => hk (hjk ▸ h.notForked j hj)
    change Function.update s.task k t j = _
    rw [Function.update_of_ne hne, h.notForked j hj]
  task j hj := by
    refine forall_update (P := fun (j : Fin actions.length) (u : Task w) =>
      j < s.main.forked actions.length → u.At (actions.get j) (s.main.joined wait))
      h.task (fun hj => ht (h.task k hj)) j hj
  drained hm := hdrained (h.drained hm)

/-- Every step keeps the tasks in step with the test. -/
theorem controlInv_step (h : ControlInv wait s) (hs : Step actions wait s a s') :
    ControlInv wait s' := by
  cases hs with
  | @fork k hm =>
    have hforked := h.notForked
    have htask := h.task
    have hclosed := h.closed
    have hbase := h.base
    rw [hm] at hforked htask hclosed hbase
    refine ⟨k.isLt, hclosed, ?_, fun j hj => ?_, fun j hj => ?_, nofun⟩
    · have hnext := nextBase_ofNat (actions.get k) (total actions k)
      rw [← total_succ] at hnext
      rw [congrArg (fun b => (actions.get k).nextBase b) hbase]
      exact hnext
    · have hlt : k.val < j.val := hj
      have hne : j ≠ k := fun hjk => by rw [hjk] at hlt; exact Nat.lt_irrefl _ hlt
      change Function.update s.task k _ j = _
      rw [Function.update_of_ne hne, hforked j hlt.le]
    · dsimp only
      by_cases hjk : j = k
      · subst hjk
        rw [Function.update_self]
        exact Task.at_task _ _ fun _ => rfl
      · rw [Function.update_of_ne hjk]
        have hle : j.val ≤ k.val := Nat.le_of_lt_succ hj
        exact htask j (Nat.lt_of_le_of_ne hle fun heq => hjk (Fin.ext heq))
  | endActions hm =>
    refine h.move_main hm ?_ ?_ ?_ (fun k hk => hk.congr fun b => ?_) _ _
    · cases wait <;> rfl
    · cases wait <;> rfl
    · cases wait <;> exact nofun
    · cases wait <;> cases b <;> rfl
  | joinProducers hm hjoin =>
    exact h.move_main (m := .close) hm rfl rfl nofun (fun k hk => hk.join (hjoin k) rfl) _ _
  | close hm =>
    refine h.move (m := .pull 0) (by rw [hm]; rfl) (fun k hk => ?_) rfl nofun _ _
    rw [hm] at hk
    exact hk
  | @mainPull sum data hm hfront =>
    have hclosed := h.closed
    rw [hm] at hclosed
    refine h.move (m := .pull (sum + data)) (q := s.chan.pop) (by rw [hm]; rfl)
      (fun k hk => ?_) hclosed nofun _ _
    rw [hm] at hk
    exact hk
  | @mainClosed sum hm hdrained =>
    exact h.move_main (m := .add sum) hm rfl rfl (fun _ => Or.inr hdrained) (fun _ => id) _ _
  | mainAdd hm => exact h.move_main (m := .drain) hm rfl rfl Or.inl (fun _ => id) _ _
  | drain hm =>
    have hdrained := h.drained
    rw [hm] at hdrained
    refine h.move (m := .drainWait) (by rw [hm]; rfl) (fun k hk => ?_) rfl
      (fun _ => (hdrained rfl).close) _ _
    rw [hm] at hk
    exact hk
  | drained hm hempty =>
    exact h.move_main (m := .awaitConsumers) hm rfl rfl Or.inl (fun _ => id) _ _
  | joinConsumers hm hjoin =>
    refine h.move_main hm ?_ ?_ (fun _ => Or.inl rfl) (fun k hk => hk.join (hjoin k) ?_) _ _
    all_goals cases wait <;> rfl
  | compare hm => exact h.move_main (m := .finished) hm rfl rfl Or.inl (fun _ => id) _ _
  | joinLateProducers hm hjoin =>
    exact h.move_main (m := .finished) hm rfl rfl Or.inl (fun k hk => hk.join (hjoin k) rfl) _ _
  | post ht hi =>
    exact h.move_task (by rw [ht]; nofun) (by rw [ht]; exact id) (LogQueue.post_closed _ _)
      (fun hdrained => hdrained.post _) _
  | producerReturn ht hi =>
    exact h.move_task (t := .returned) (by rw [ht]; nofun) (fun _ => trivial) rfl id _
  | pull ht hi hfront =>
    exact h.move_task (q := s.chan.pop) (by rw [ht]; nofun) (by rw [ht]; exact id) rfl
      LogQueue.Drained.pop _
  | closed ht hi hdrained =>
    exact h.move_task (by rw [ht]; nofun) (by rw [ht]; exact id) rfl id _
  | tryPullEmpty ht hi hempty hopen =>
    exact h.move_task (by rw [ht]; nofun) (by rw [ht]; exact id) rfl id _
  | add ht hi =>
    exact h.move_task (t := .returned) (by rw [ht]; nofun) (fun _ => trivial) rfl id _

theorem controlInv_of_reachable (h : (system actions wait).Reachable s) : ControlInv wait s :=
  h.induct (controlInv_init actions wait) fun _ _ _ _ hinv hs => controlInv_step hinv hs

end FuzzChan

end TmcExamples
