import TmcExamples.PipelineFifo.EndInv
import TmcExamples.PipelineFifo.StageInv

/-!
# The invariant of the FIFO pipeline

`Inv` puts together the invariants of all parties: `MainInv` of the driver, `StageInv` of
every stage and `EndInv` of the end stage, and that every element is sound. A step of one
party is a step upstream or downstream for every other one, so each step has to be looked
at for one party only (`inv_step`), and `Inv` holds in every reachable state
(`inv_reachable`).
-/

namespace TmcExamples

namespace PipelineFifo

namespace Main

/-- The number of inputs, of `n`, that the driver has pushed. -/
def pushed (n : ℕ) : Main → ℕ
  | .construct _ => 0
  | .push i => i
  | .close | .join | .finished => n

/-- The driver has closed the input queue. -/
def Closed : Main → Prop
  | .join | .finished => True
  | _ => False

end Main

variable {pl : Pipeline}

/-- The invariant of the driver. -/
structure MainInv (s : State pl) : Prop where
  construct_le : ∀ j, s.main = .construct j → j ≤ pl.stages
  worker : ∀ k < pl.stages, s.worker k = .unstarted ↔ ∃ j ≤ k, s.main = .construct j
  consumer : s.consumer = .unstarted ↔ ∃ j, s.main = .construct j
  pushed_le : s.main.pushed pl.inputs.length ≤ pl.inputs.length
  values : pl.values (s.queue 0) = pl.inputs.take (s.main.pushed pl.inputs.length)
  closed : (s.queue 0).closed = true ↔ s.main.Closed
  finished : s.main = .finished → s.ForkGroupDone

/-- The invariant of the program. -/
structure Inv (s : State pl) : Prop where
  sound : ∀ k e, e ∈ (s.queue k).log → pl.Sound e
  main : MainInv s
  stage : ∀ k < pl.stages, StageInv k (s.queue k) (s.worker k) (s.queue (k + 1))
  ending : EndInv (s.queue pl.stages) s.consumer s.internalQueue s.active s.consumed

/-- The invariant of a worker at its program point. -/
theorem Inv.stage_at {s : State pl} (h : Inv s) {k : ℕ} (hk : k < pl.stages)
    {w : Worker (pl.Val k)} (hw : s.worker k = w) :
    StageInv k (s.queue k) w (s.queue (k + 1)) := hw ▸ h.stage k hk

/-- The invariant of the end stage at its program point. -/
theorem Inv.ending_at {s : State pl} (h : Inv s) {c : Consumer pl.Out} (hc : s.consumer = c) :
    EndInv (s.queue pl.stages) c s.internalQueue s.active s.consumed := hc ▸ h.ending

/-! ### Updates of the state -/

section Update

variable (s : State pl) {k m : ℕ} (q₂ : LogQueue (Element pl.Val m)) (w : Worker (pl.Val m))

@[simp] theorem setQueue_self : (s.setQueue m q₂).queue m = q₂ := Function.update_self ..

@[simp] theorem setQueue_of_ne (h : k ≠ m) : (s.setQueue m q₂).queue k = s.queue k :=
  Function.update_of_ne h ..

@[simp] theorem setWorker_self : (s.setWorker m w).worker m = w := Function.update_self ..

@[simp] theorem setWorker_of_ne (h : k ≠ m) : (s.setWorker m w).worker k = s.worker k :=
  Function.update_of_ne h ..

@[simp] theorem setQueue_worker : (s.setQueue m q₂).worker = s.worker := rfl
@[simp] theorem setQueue_main : (s.setQueue m q₂).main = s.main := rfl
@[simp] theorem setQueue_consumer : (s.setQueue m q₂).consumer = s.consumer := rfl
@[simp] theorem setWorker_queue : (s.setWorker m w).queue = s.queue := rfl
@[simp] theorem setWorker_main : (s.setWorker m w).main = s.main := rfl
@[simp] theorem setWorker_consumer : (s.setWorker m w).consumer = s.consumer := rfl

variable {s} {q₂}

private theorem upstream_setQueue (h : k = m → Upstream (s.queue m) q₂) :
    Upstream (s.queue k) ((s.setQueue m q₂).queue k) := by
  by_cases hk : k = m
  · subst hk
    rw [setQueue_self]
    exact h rfl
  · rw [setQueue_of_ne _ _ hk]
    exact .refl _

private theorem downstream_setQueue (h : k = m → Downstream (s.queue m) q₂) :
    Downstream (s.queue k) ((s.setQueue m q₂).queue k) := by
  by_cases hk : k = m
  · subst hk
    rw [setQueue_self]
    exact h rfl
  · rw [setQueue_of_ne _ _ hk]
    exact .refl _

private theorem sound_setQueue (hs : ∀ k e, e ∈ (s.queue k).log → pl.Sound e)
    (h : ∀ e ∈ q₂.log, pl.Sound e) :
    ∀ k e, e ∈ ((s.setQueue m q₂).queue k).log → pl.Sound e := by
  intro k e he
  by_cases hk : k = m
  · subst hk
    rw [setQueue_self] at he
    exact h e he
  · rw [setQueue_of_ne _ _ hk] at he
    exact hs k e he

end Update

/-! ### Soundness under the operations of a queue -/

section Sound

variable {k : ℕ} {q : LogQueue (Element pl.Val k)}

private theorem sound_push (hq : ∀ e ∈ q.log, pl.Sound e) {e : Element pl.Val k}
    (he : pl.Sound e) : ∀ x ∈ (q.push e).log, pl.Sound x := by
  intro x hx
  rcases List.mem_append.mp hx with hx | hx
  · exact hq x hx
  · rw [List.mem_singleton.mp hx]
    exact he

private theorem sound_modify (hq : ∀ e ∈ q.log, pl.Sound e) {i : ℕ}
    {f : Element pl.Val k → Element pl.Val k}
    (hf : ∀ e, q.log[i]? = some e → pl.Sound e → pl.Sound (f e)) :
    ∀ x ∈ (q.modify i f).log, pl.Sound x := by
  intro x hx
  obtain ⟨j, hj⟩ := List.mem_iff_getElem?.mp hx
  obtain ⟨y, hy, rfl⟩ := LogQueue.getElem?_modify_eq_some hj
  have hys : pl.Sound y := hq y (List.mem_of_getElem? hy)
  split
  · next hij => exact hf y (hij ▸ hy) hys
  · exact hys

/-- Taking the data of the front element. -/
private theorem sound_take_front (hq : ∀ e ∈ q.log, pl.Sound e) {e : Element pl.Val k}
    {v : pl.Val k} (he : q.front? = some e) (hv : e.ready? = some v) :
    ∀ x ∈ (q.modify q.head Element.take).log, pl.Sound x := by
  refine sound_modify hq fun x hx hs => ?_
  have hsame : some e = some x := by
    rw [← he, ← hx]
    rfl
  cases hsame
  exact Pipeline.sound_take hs hv

end Sound

/-! ### The driver and the others -/

/-- The steps of the other parties, seen from the driver. -/
theorem MainInv.frame {s s' : State pl} (h : MainInv s) (hm : s'.main = s.main)
    (hw : ∀ k < pl.stages, (s'.worker k = .unstarted ↔ s.worker k = .unstarted) ∧
      (s.worker k = .done → s'.worker k = .done))
    (hc : (s'.consumer = .unstarted ↔ s.consumer = .unstarted) ∧
      (s.consumer = .done → s'.consumer = .done))
    (hq : Downstream (s.queue 0) (s'.queue 0)) : MainInv s' where
  construct_le := by rw [hm]; exact h.construct_le
  worker k hk := by rw [hm, (hw k hk).1]; exact h.worker k hk
  consumer := by rw [hm, hc.1]; exact h.consumer
  pushed_le := by rw [hm]; exact h.pushed_le
  values := by rw [hm, hq.values]; exact h.values
  closed := by rw [hm, hq.closed]; exact h.closed
  finished hf := by
    rw [hm] at hf
    exact ⟨fun k hk => (hw k hk).2 ((h.finished hf).1 k hk), hc.2 (h.finished hf).2⟩

/-- A worker's step keeps it started, and is not a step of a worker that is done. -/
private theorem setWorker_started (s : State pl) {m : ℕ} {w : Worker (pl.Val m)}
    (h₁ : s.worker m ≠ .unstarted) (h₂ : s.worker m ≠ .done) (hw : w ≠ .unstarted) (k : ℕ) :
    ((s.setWorker m w).worker k = .unstarted ↔ s.worker k = .unstarted) ∧
      (s.worker k = .done → (s.setWorker m w).worker k = .done) := by
  by_cases hk : k = m
  · subst hk
    rw [setWorker_self]
    exact ⟨iff_of_false hw h₁, fun h => (h₂ h).elim⟩
  · rw [setWorker_of_ne _ _ hk]
    exact ⟨Iff.rfl, id⟩

/-- A step of the other parties, seen from the worker of stage `k`. -/
theorem StageInv.frame {s s' : State pl} {k : ℕ}
    (h : StageInv k (s.queue k) (s.worker k) (s.queue (k + 1))) (hw : s'.worker k = s.worker k)
    (hu : Upstream (s.queue k) (s'.queue k))
    (hd : Downstream (s.queue (k + 1)) (s'.queue (k + 1))) :
    StageInv k (s'.queue k) (s'.worker k) (s'.queue (k + 1)) := by
  rw [hw]
  exact (h.upstream hu).downstream hd

/-- The stages do not depend on what only the driver and the end stage read. -/
private theorem stage_setQueue {s : State pl} {m : ℕ} {q₂ : LogQueue (Element pl.Val m)}
    (h : ∀ k < pl.stages, StageInv k (s.queue k) (s.worker k) (s.queue (k + 1)))
    (hu : m < pl.stages → Upstream (s.queue m) q₂)
    (hd : 0 < m → Downstream (s.queue m) q₂) :
    ∀ k < pl.stages, StageInv k ((s.setQueue m q₂).queue k) (s.worker k)
      ((s.setQueue m q₂).queue (k + 1)) := fun k hk =>
  (h k hk).frame (@rfl _ (s.worker k)) (upstream_setQueue fun hm => hu (hm ▸ hk))
    (downstream_setQueue fun hm => hd (hm ▸ Nat.succ_pos k))

/-! ### The steps of the driver -/

private theorem inv_construct {s : State pl} (h : Inv s) {k : ℕ} (hm : s.main = .construct k)
    (hk : k < pl.stages) :
    Inv ({ s.setWorker k .pull with main := .construct (k + 1) } : State pl) := by
  have hun : s.worker k = .unstarted := (h.main.worker k hk).mpr ⟨k, Nat.le_refl k, hm⟩
  have hpushed : s.main.pushed pl.inputs.length = 0 := by rw [hm]; rfl
  refine ⟨h.sound, ⟨?_, ?_, ?_, Nat.zero_le _, ?_, ?_, nofun⟩, fun j hj => ?_, h.ending⟩
  · rintro j hj
    obtain rfl := Main.construct.inj hj
    exact hk
  · intro j hj
    by_cases hjk : j = k
    · subst hjk
      simp only [setWorker_self, Main.construct.injEq]
      exact iff_of_false (by simp) (by rintro ⟨i, hi, rfl⟩; omega)
    · simp only [setWorker_of_ne _ _ hjk, Main.construct.injEq]
      rw [h.main.worker j hj, hm]
      simp only [Main.construct.injEq]
      constructor
      · rintro ⟨i, hi, rfl⟩
        exact ⟨k + 1, by omega, rfl⟩
      · rintro ⟨i, hi, rfl⟩
        exact ⟨k, by omega, rfl⟩
  · exact h.main.consumer.trans (iff_of_true ⟨k, hm⟩ ⟨k + 1, rfl⟩)
  · rw [setWorker_queue, h.main.values, hpushed]
    rfl
  · rw [setWorker_queue, h.main.closed, hm]
    rfl
  · by_cases hjk : j = k
    · subst hjk
      simp only [setWorker_self, setWorker_queue]
      exact (h.stage_at hj hun).start
    · simp only [setWorker_of_ne _ _ hjk, setWorker_queue]
      exact h.stage j hj

private theorem inv_constructEnd {s : State pl} (h : Inv s) (hm : s.main = .construct pl.stages) :
    Inv ({ s with main := .push 0, consumer := .pull } : State pl) := by
  have hun : s.consumer = .unstarted := h.main.consumer.mpr ⟨_, hm⟩
  refine ⟨h.sound, ⟨nofun, fun k hk => ?_, ?_, Nat.zero_le _, ?_, ?_, nofun⟩, h.stage, ?_⟩
  · rw [h.main.worker k hk, hm]
    simp only [Main.construct.injEq, reduceCtorEq, and_false, exists_false, iff_false]
    rintro ⟨i, hi, rfl⟩
    omega
  · simp
  · rw [h.main.values, hm]
    rfl
  · rw [h.main.closed, hm]
    rfl
  · exact (h.ending_at hun).start

private theorem inv_driverPush {s : State pl} (h : Inv s) {i : ℕ} {v : pl.Val 0}
    (hm : s.main = .push i) (hv : pl.inputs[i]? = some v) :
    Inv ({ s.setQueue 0 ((s.queue 0).push (.value v 0)) with main := .push (i + 1) } :
      State pl) := by
  have hopen : (s.queue 0).closed = false := by
    rw [Bool.eq_false_iff, ne_eq, h.main.closed, hm]
    exact id
  have hup : Upstream (s.queue 0) ((s.queue 0).push (.value v 0)) := .push hopen rfl
  obtain ⟨hi, rfl⟩ := List.getElem?_eq_some_iff.mp hv
  refine ⟨sound_setQueue h.sound (sound_push (h.sound 0) (Pipeline.sound_value _ _)),
    ⟨nofun, fun k hk => ?_, ?_, hi, ?_, ?_, nofun⟩,
    stage_setQueue h.stage (fun _ => hup) (fun h0 => (Nat.lt_irrefl 0 h0).elim),
    h.ending.upstream (upstream_setQueue fun _ => hup)⟩
  · rw [setQueue_worker, h.main.worker k hk, hm]
    simp
  · rw [setQueue_consumer, h.main.consumer, hm]
    simp
  · rw [setQueue_self, Pipeline.values_push, h.main.values, hm]
    exact (List.take_succ_eq_append_getElem hi).symm
  · rw [setQueue_self, LogQueue.push_closed, h.main.closed, hm]
    rfl

private theorem inv_driverLoopExit {s : State pl} (h : Inv s) {i : ℕ} (hm : s.main = .push i)
    (hv : pl.inputs[i]? = none) : Inv ({ s with main := .close } : State pl) := by
  have hle : pl.inputs.length ≤ i := List.getElem?_eq_none_iff.mp hv
  have hval := h.main.values
  rw [hm, Main.pushed, List.take_of_length_le hle] at hval
  refine ⟨h.sound, ⟨nofun, fun k hk => ?_, ?_, Nat.le_refl _, ?_, ?_, nofun⟩, h.stage, h.ending⟩
  · rw [h.main.worker k hk, hm]
    simp
  · rw [h.main.consumer, hm]
    simp
  · rw [hval]
    exact List.take_length.symm
  · rw [h.main.closed, hm]
    rfl

private theorem inv_driverClose {s : State pl} (h : Inv s) (hm : s.main = .close) :
    Inv ({ s.setQueue 0 (s.queue 0).close with main := .join } : State pl) := by
  refine ⟨sound_setQueue h.sound (h.sound 0), ⟨nofun, fun k hk => ?_, ?_, Nat.le_refl _, ?_, ?_,
    nofun⟩, stage_setQueue h.stage (fun _ => .close _) (fun h0 => (Nat.lt_irrefl 0 h0).elim),
    h.ending.upstream (upstream_setQueue fun _ => .close _)⟩
  · rw [setQueue_worker, h.main.worker k hk, hm]
    simp
  · rw [setQueue_consumer, h.main.consumer, hm]
    simp
  · rw [setQueue_self, Pipeline.values_close, h.main.values, hm]
    rfl
  · rw [setQueue_self]
    exact iff_of_true rfl trivial

private theorem inv_driverJoin {s : State pl} (h : Inv s) (hm : s.main = .join)
    (hd : s.ForkGroupDone) : Inv ({ s with main := .finished } : State pl) := by
  refine ⟨h.sound, ⟨nofun, fun k hk => ?_, ?_, Nat.le_refl _, ?_, ?_, fun _ => hd⟩,
    h.stage, h.ending⟩
  · rw [h.main.worker k hk, hm]
    simp
  · rw [h.main.consumer, hm]
    simp
  · rw [h.main.values, hm]
    rfl
  · rw [h.main.closed, hm]
    rfl

/-! ### The steps of the workers and of the forked tasks -/

/-- A step of the worker of stage `j` that changes queue `m`: its own invariant, and that the
change is a step upstream or downstream for the others, give the invariant of the program. -/
private theorem inv_worker {s : State pl} (h : Inv s) {j m : ℕ} (hj : j < pl.stages)
    {w w' : Worker (pl.Val j)} {q₂ : LogQueue (Element pl.Val m)} (hw : s.worker j = w)
    (h₁ : w ≠ .unstarted) (h₂ : w ≠ .done) (h₃ : w' ≠ .unstarted)
    (hsound : ∀ e ∈ q₂.log, pl.Sound e)
    (hown : StageInv j ((s.setQueue m q₂).queue j) w' ((s.setQueue m q₂).queue (j + 1)))
    (hu : m ≠ j → Upstream (s.queue m) q₂) (hd : m ≠ j + 1 → Downstream (s.queue m) q₂) :
    Inv ((s.setQueue m q₂).setWorker j w') := by
  subst hw
  refine ⟨sound_setQueue h.sound hsound,
    h.main.frame rfl (fun k _ => setWorker_started (s.setQueue m q₂) h₁ h₂ h₃ k)
      ⟨Iff.rfl, id⟩ (downstream_setQueue fun hm => hd (by omega)), fun k hk => ?_,
    h.ending.upstream (upstream_setQueue fun hm => hu (by omega))⟩
  by_cases hkj : k = j
  · subst hkj
    rw [setWorker_self]
    exact hown
  · refine (h.stage k hk).frame (setWorker_of_ne _ _ hkj) (upstream_setQueue fun hm => hu ?_)
      (downstream_setQueue fun hm => hd ?_) <;> omega

/-- A step of the worker on the queue that it pulls from. -/
private theorem inv_worker_input {s : State pl} (h : Inv s) {j : ℕ} (hj : j < pl.stages)
    {w w' : Worker (pl.Val j)} {q₂ : LogQueue (Element pl.Val j)} (hw : s.worker j = w)
    (h₁ : w ≠ .unstarted) (h₂ : w ≠ .done) (h₃ : w' ≠ .unstarted)
    (hsound : ∀ e ∈ q₂.log, pl.Sound e) (hd : Downstream (s.queue j) q₂)
    (hown : StageInv j (s.queue j) w (s.queue (j + 1)) → StageInv j q₂ w' (s.queue (j + 1))) :
    Inv ((s.setQueue j q₂).setWorker j w') := by
  refine inv_worker h hj hw h₁ h₂ h₃ hsound ?_ (fun hne => (hne rfl).elim) fun _ => hd
  rw [setQueue_self, setQueue_of_ne _ _ (Nat.succ_ne_self j)]
  exact hown (h.stage_at hj hw)

/-- A step of the worker on the queue that it pushes into. -/
private theorem inv_worker_output {s : State pl} (h : Inv s) {j : ℕ} (hj : j < pl.stages)
    {w w' : Worker (pl.Val j)} {q₂ : LogQueue (Element pl.Val (j + 1))} (hw : s.worker j = w)
    (h₁ : w ≠ .unstarted) (h₂ : w ≠ .done) (h₃ : w' ≠ .unstarted)
    (hsound : ∀ e ∈ q₂.log, pl.Sound e) (hu : Upstream (s.queue (j + 1)) q₂)
    (hown : StageInv j (s.queue j) w (s.queue (j + 1)) → StageInv j (s.queue j) w' q₂) :
    Inv ((s.setQueue (j + 1) q₂).setWorker j w') := by
  refine inv_worker h hj hw h₁ h₂ h₃ hsound ?_ (fun _ => hu) fun hne => (hne rfl).elim
  rw [setQueue_self, setQueue_of_ne _ _ (Nat.succ_ne_self j).symm]
  exact hown (h.stage_at hj hw)

private theorem inv_setWorker {s : State pl} (h : Inv s) {j : ℕ} (hj : j < pl.stages)
    {w w' : Worker (pl.Val j)} (hw : s.worker j = w) (h₁ : w ≠ .unstarted) (h₂ : w ≠ .done)
    (h₃ : w' ≠ .unstarted)
    (hown : StageInv j (s.queue j) w (s.queue (j + 1)) →
      StageInv j (s.queue j) w' (s.queue (j + 1))) : Inv (s.setWorker j w') := by
  have hsame : s.setQueue j (s.queue j) = s := by
    rw [State.setQueue, Function.update_eq_self]
  have hinv := inv_worker_input h hj hw h₁ h₂ h₃ (h.sound j) (.refl _) hown
  rwa [hsame] at hinv

private theorem inv_task {s : State pl} (h : Inv s) {k i : ℕ} {e : TaskEvent}
    {t t' : Fork (pl.Val k) (pl.Val (k + 1))} (ht : (s.queue (k + 1)).log[i]? = some (.fork t))
    (hadv : (pl.func k).Advance e t t') :
    Inv (s.setQueue (k + 1) ((s.queue (k + 1)).modify i fun _ => .fork t')) := by
  have hu := Upstream.task ht hadv
  have hd := Downstream.task ht hadv
  exact ⟨sound_setQueue h.sound
      (sound_modify (h.sound (k + 1)) fun x hx hs =>
        Pipeline.sound_advance (Option.some.inj (ht.symm.trans hx) ▸ hs) hadv),
    h.main.frame rfl (fun _ _ => ⟨Iff.rfl, id⟩) ⟨Iff.rfl, id⟩ (downstream_setQueue fun _ => hd),
    stage_setQueue h.stage (fun _ => hu) (fun _ => hd),
    h.ending.upstream (upstream_setQueue fun _ => hu)⟩

/-! ### The steps of the end stage -/

private theorem inv_consumer {s : State pl} (h : Inv s) {c c' : Consumer pl.Out}
    {iq : LogQueue (Fork pl.Out Unit)} {a : ℕ} {l : List pl.Out} (hc : s.consumer = c)
    (h₁ : c ≠ .unstarted) (h₂ : c ≠ .done) (h₃ : c' ≠ .unstarted)
    (hend : EndInv (s.queue pl.stages) c s.internalQueue s.active s.consumed →
      EndInv (s.queue pl.stages) c' iq a l) :
    Inv ({ s with consumer := c', internalQueue := iq, active := a, consumed := l } :
      State pl) := by
  subst hc
  exact ⟨h.sound, h.main.frame rfl (fun _ _ => ⟨Iff.rfl, id⟩)
    ⟨iff_of_false h₃ h₁, fun hd => (h₂ hd).elim⟩ (.refl _), h.stage, hend h.ending⟩

/-- A step of the end stage that takes the data of the front element or releases it. -/
private theorem inv_consumer_setQueue {s : State pl} (h : Inv s) {c c' : Consumer pl.Out}
    {q₂ : LogQueue (Element pl.Val pl.stages)} (hc : s.consumer = c) (h₁ : c ≠ .unstarted)
    (h₂ : c ≠ .done) (h₃ : c' ≠ .unstarted) (hd : Downstream (s.queue pl.stages) q₂)
    (hsound : ∀ e ∈ q₂.log, pl.Sound e)
    (hend : EndInv (s.queue pl.stages) c s.internalQueue s.active s.consumed →
      EndInv q₂ c' s.internalQueue s.active s.consumed) :
    Inv ({ s.setQueue pl.stages q₂ with consumer := c' } : State pl) := by
  subst hc
  refine ⟨sound_setQueue h.sound hsound, h.main.frame rfl (fun _ _ => ⟨Iff.rfl, id⟩)
    ⟨iff_of_false h₃ h₁, fun hd => (h₂ hd).elim⟩ (downstream_setQueue fun _ => hd),
    stage_setQueue h.stage (fun hlt => (Nat.lt_irrefl _ hlt).elim) (fun _ => hd), ?_⟩
  simp only [setQueue_self]
  exact hend h.ending

private theorem inv_consumeTask {s : State pl} (h : Inv s) {i : ℕ} {e : TaskEvent}
    {t t' : Fork pl.Out Unit} (ht : s.internalQueue.log[i]? = some t)
    (hadv : pl.consume.Advance e t t') (l : List pl.Out) :
    Inv ({ s with internalQueue := s.internalQueue.modify i fun _ => t', consumed := l } :
      State pl) :=
  ⟨h.sound, h.main.frame rfl (fun _ _ => ⟨Iff.rfl, id⟩) ⟨Iff.rfl, id⟩ (.refl _), h.stage,
    h.ending.consumeTask ht hadv l⟩

/-! ### Reachable states -/

private theorem inv_initial (pl : Pipeline) : Inv (initial pl) where
  sound k e h := by simp [initial] at h
  main := ⟨fun j hj => by obtain rfl := Main.construct.inj hj; exact Nat.zero_le _,
    fun k _ => iff_of_true rfl ⟨0, Nat.zero_le k, rfl⟩, iff_of_true rfl ⟨0, rfl⟩, Nat.zero_le _,
    rfl, iff_of_false (by simp [initial]) id, nofun⟩
  stage k _ := .initial
  ending := .initial

/-- Every step keeps the invariant. -/
theorem inv_step {s s' : State pl} {a : Action} (h : Inv s) (hs : Step s a s') : Inv s' := by
  cases hs with
  | construct hm hk => exact inv_construct h hm hk
  | constructEnd hm => exact inv_constructEnd h hm
  | driverPush hm hv _ => exact inv_driverPush h hm hv
  | driverLoopExit hm hv => exact inv_driverLoopExit h hm hv
  | driverClose hm => exact inv_driverClose h hm
  | driverJoin hm hd => exact inv_driverJoin h hm hd
  | pull hk hw he =>
    exact inv_setWorker h hk hw nofun nofun nofun fun hst => hst.pull he
  | pullEmpty hk hw he hc =>
    exact inv_setWorker h hk hw nofun nofun nofun fun hst => hst.pullEmpty he hc
  | @take k e v hk hw he hv =>
    obtain rfl := (h.sound k e (List.mem_of_getElem? he)).denote v hv
    exact inv_worker_input h hk hw nofun nofun nofun (sound_take_front (h.sound k) he hv)
      (.take _ _) fun hst => hst.take he
  | @push k v hk hw hroom =>
    have hopen : (s.queue (k + 1)).closed = false := by
      rw [Bool.eq_false_iff, ne_eq, (h.stage_at hk hw).closed]
      nofun
    exact inv_worker_output h hk hw nofun nofun nofun
      (sound_push (h.sound (k + 1)) (Pipeline.sound_spawn v)) (.push hopen rfl) fun hst => hst.push
  | @release k hk hw =>
    exact inv_worker_input h hk hw nofun nofun nofun (h.sound k) (.pop _) fun hst => hst.release
  | @close k hk hw =>
    exact inv_worker_output h hk hw nofun nofun nofun (h.sound (k + 1)) (.close _) fun hst =>
      hst.close
  | task _ ht hadv => exact inv_task h ht hadv
  | endPull hc he => exact inv_consumer h hc nofun nofun nofun fun hend => hend.pull he
  | endPullEmpty hc he hcl =>
    refine inv_consumer h hc nofun nofun ?_ fun hend => hend.pullEmpty he hcl
    cases pl.endStage <;> nofun
  | @endTake e v hc he hv =>
    obtain rfl := (h.sound pl.stages e (List.mem_of_getElem? he)).denote v hv
    refine inv_consumer_setQueue h hc nofun nofun ?_ (.take _ _)
      (sound_take_front (h.sound _) he hv) fun hend => hend.take he
    cases pl.endStage <;> nofun
  | endRelease hc =>
    exact inv_consumer_setQueue h hc nofun nofun nofun (.pop _) (h.sound _) fun hend =>
      hend.release
  | endCall hc _ => exact inv_consumer h hc nofun nofun nofun fun hend => hend.call _
  | endResume hc => exact inv_consumer h hc nofun nofun nofun fun hend => hend.resume
  | endReturn hc => exact inv_consumer h hc nofun nofun nofun fun hend => hend.return_
  | endPush hc hm _ =>
    refine inv_consumer h hc nofun nofun ?_ fun hend => hend.push hm
    split <;> nofun
  | endDrainTest hc =>
    refine inv_consumer h hc nofun nofun ?_ fun hend => hend.drainTest
    split <;> nofun
  | endDrainPull hc _ => exact inv_consumer h hc nofun nofun nofun fun hend => hend.drainPull
  | endDrainAwait hc ht hr =>
    exact inv_consumer h hc nofun nofun nofun fun hend => hend.drainAwait ht hr
  | endDrainRelease hc =>
    refine inv_consumer h hc nofun nofun ?_ fun hend => hend.drainRelease
    split <;> nofun
  | consumeTask ht hadv => exact inv_consumeTask h ht hadv _

/-- The invariant holds in every reachable state. -/
theorem inv_reachable {s : State pl} (h : (system pl).Reachable s) : Inv s :=
  LTS.Reachable.induct (P := Inv) (inv_initial pl) (fun _ _ _ _ hi hs => inv_step hi hs) h

end PipelineFifo

end TmcExamples
