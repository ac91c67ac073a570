import TmcExamples.PipelineFifo.Queues

/-!
# The invariant of one stage

`StageInv k q w q'` relates the worker `w` of stage `k` to its input queue `q` and its output
queue `q'`: how many elements it has pushed for the number it has released, that the element
in its hand is at the front of `q`, that every element's data has been taken as often as the
program point says, and that `q'` is closed exactly when the worker is done. It holds in
every reachable state (`stageInv_reachable`): it is stable under the steps of everybody else
(`StageInv.upstream`, `StageInv.downstream`), and the worker's own steps keep it.
-/

namespace TmcExamples

namespace PipelineFifo

namespace Worker

variable {α : Type}

/-- The worker holds the scope of a pulled element. -/
def Holds : Worker α → Prop
  | .take | .push _ | .release => True
  | _ => False

/-- The number of elements whose data the worker has taken and whose slot it still holds. -/
def acquired : Worker α → ℕ
  | .push _ | .release => 1
  | _ => 0

/-- The number of elements the worker has pushed a fork for and whose slot it still holds. -/
def forked : Worker α → ℕ
  | .release => 1
  | _ => 0

/-- The worker has left its loop. -/
def Left : Worker α → Prop
  | .close | .done => True
  | _ => False

end Worker

variable {pl : Pipeline}

/-- The invariant of stage `k` between its input queue and its output queue. -/
structure StageInv (k : ℕ) (q : LogQueue (Element pl.Val k)) (w : Worker (pl.Val k))
    (q' : LogQueue (Element pl.Val (k + 1))) : Prop where
  length : q'.log.length = q.head + w.forked
  holds : w.Holds → q.head < q.log.length
  data : ∀ v, w = .push v → (pl.values q)[q.head]? = some v
  values : pl.values q' <+: (pl.values q).map (pl.func k).result
  taken : ∀ i e, q.log[i]? = some e → e.taken = onceBelow (q.head + w.acquired) i
  left : w.Left → q.closed = true ∧ q.head = q.log.length
  closed : q'.closed = true ↔ w = .done

namespace StageInv

variable {k : ℕ} {q q₂ : LogQueue (Element pl.Val k)} {w : Worker (pl.Val k)}
  {q' q'₂ : LogQueue (Element pl.Val (k + 1))}

theorem initial : StageInv k .empty (.unstarted : Worker (pl.Val k)) .empty where
  length := rfl
  holds h := h.elim
  data v h := by cases h
  values := List.prefix_refl _
  taken i e h := by simp at h
  left h := h.elim
  closed := by simp

/-- The elements whose data the worker has taken are in the log. -/
private theorem head_add_acquired_le (h : StageInv k q w q') :
    q.head + w.acquired ≤ q.log.length := by
  cases w with
  | push => exact h.holds trivial
  | release => exact h.holds trivial
  | _ => exact q.head_le

/-! ### Steps of the others -/

/-- What the stage before may do is no harm to this one. -/
theorem upstream (h : StageInv k q w q') (hu : Upstream q q₂) : StageInv k q₂ w q' where
  length := by rw [hu.head]; exact h.length
  holds hw := by
    have := h.holds hw
    have := hu.length_le
    rw [hu.head]
    omega
  data v hv := by
    rw [hu.head]
    exact getElem?_of_prefix hu.values (h.data v hv)
  values := h.values.trans (hu.values.map _)
  taken i e₂ he₂ := by
    rw [hu.head]
    rcases hu.taken i e₂ he₂ with ⟨e, he, ht⟩ | ⟨hi, ht⟩
    · rw [ht]
      exact h.taken i e he
    · have := h.head_add_acquired_le
      rw [ht, onceBelow_of_le (by omega)]
  left hw := by
    obtain ⟨hc, hh⟩ := h.left hw
    obtain ⟨hc₂, hl⟩ := hu.closed hc
    exact ⟨hc₂, by rw [hu.head, hl, hh]⟩
  closed := h.closed

/-- What the stage behind may do is no harm to this one. -/
theorem downstream (h : StageInv k q w q') (hd : Downstream q' q'₂) : StageInv k q w q'₂ where
  length := by rw [hd.length_eq]; exact h.length
  holds := h.holds
  data := h.data
  values := by rw [hd.values]; exact h.values
  taken := h.taken
  left := h.left
  closed := by rw [hd.closed]; exact h.closed

/-! ### The worker's own steps -/

theorem start (h : StageInv k q .unstarted q') : StageInv k q .pull q' :=
  ⟨h.length, fun hw => hw.elim, nofun, h.values, h.taken, fun hw => hw.elim,
    h.closed.trans (by simp)⟩

/-- The worker looks at the front element of its queue. -/
theorem pull (h : StageInv k q .pull q') {e : Element pl.Val k} (he : q.front? = some e) :
    StageInv k q .take q' :=
  ⟨h.length, fun _ => LogQueue.head_lt_of_front? he, nofun, h.values, h.taken,
    fun hw => hw.elim, h.closed.trans (by simp)⟩

/-- With its queue closed and drained, the worker closes the next one. -/
theorem pullEmpty (h : StageInv k q .pull q') (he : q.front? = none) (hc : q.closed = true) :
    StageInv k q .close q' :=
  ⟨h.length, fun hw => hw.elim, nofun, h.values, h.taken,
    fun _ => ⟨hc, LogQueue.front?_eq_none_iff.mp he⟩, h.closed.trans (by simp)⟩

/-- The worker takes the value that the front element stands for. -/
theorem take (h : StageInv k q .take q') {e : Element pl.Val k} (he : q.front? = some e) :
    StageInv k (q.modify q.head Element.take) (.push (pl.denote e)) q' where
  length := h.length
  holds _ := by
    rw [LogQueue.modify_log, List.length_modify]
    exact h.holds trivial
  data v hv := by
    rw [(Downstream.take q q.head).values, LogQueue.modify_head, Pipeline.values_getElem? he]
    exact congrArg some (Worker.push.inj hv)
  values := by rw [(Downstream.take q q.head).values]; exact h.values
  taken i x hx := by
    obtain ⟨x₀, hx₀, rfl⟩ := LogQueue.getElem?_modify_eq_some hx
    have ht : x₀.taken = onceBelow q.head i := h.taken i x₀ hx₀
    change _ = onceBelow (q.head + 1) i
    split
    · next hi => rw [Element.taken_take, ht, ← hi, onceBelow_succ_self]
    · next hi => rw [ht, onceBelow_succ_of_ne hi]
  left hw := hw.elim
  closed := h.closed.trans (by simp)

/-- The worker pushes the handle of the task that it has forked for the value. -/
theorem push {v : pl.Val k} (h : StageInv k q (.push v) q') :
    StageInv k q .release (q'.push (.fork (.spawn v))) where
  length := by
    have := h.length
    simp only [Worker.forked] at this ⊢
    rw [LogQueue.push_log, List.length_append, this]
    rfl
  holds _ := h.holds trivial
  data := nofun
  values := by
    -- The pushed fork stands for the image of the value at the front of the input queue.
    have hlen : (pl.values q').length = q.head := by simpa [Worker.forked] using h.length
    have hval : ((pl.values q).map (pl.func k).result)[q.head]? =
        some ((pl.func k).result v) := by
      rw [List.getElem?_map, h.data v rfl]
      rfl
    rw [Pipeline.values_push, Pipeline.denote_spawn]
    exact prefix_concat h.values (hlen ▸ hval)
  taken := h.taken
  left hw := hw.elim
  closed := h.closed.trans (by simp)

/-- The element is taken off when its task has been pushed. -/
theorem release (h : StageInv k q .release q') : StageInv k q.pop .pull q' := by
  have hh : q.pop.head = q.head + 1 := LogQueue.pop_head (h.holds trivial)
  refine ⟨?_, fun hw => hw.elim, nofun, h.values, fun i e he => ?_, fun hw => hw.elim,
    h.closed.trans (by simp)⟩
  · rw [h.length, hh]
    rfl
  · rw [hh]
    exact h.taken i e he

/-- The next queue is closed behind the last element. -/
theorem close (h : StageInv k q .close q') : StageInv k q .done q'.close :=
  ⟨h.length, fun hw => hw.elim, nofun, h.values, h.taken, fun _ => h.left trivial, by simp⟩

end StageInv

end PipelineFifo

end TmcExamples
