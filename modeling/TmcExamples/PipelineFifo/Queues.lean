import TmcExamples.PipelineFifo.Model

/-!
# What the parties may do to a queue of the pipeline

Every element stands for one value (`Pipeline.denote`): an input for itself, the handle of a
fork for the result its task will have. `Pipeline.values` is the list of these values over
the whole log of a queue, and neither the progress of a task nor the await of its handle
changes it.

Towards the worker that pulls from a queue, everybody else is `Upstream`: elements are
appended and the queue is closed, but nothing is taken out. Towards the party that pushes
into it, everybody else is `Downstream`: elements are awaited and released, but none is
added. Each step of the program is one of the two for every party that it is not a step of,
and the invariants of the parties are stable under both.
-/

namespace TmcExamples

namespace PipelineFifo

/-! ### The values of a queue -/

namespace Pipeline

variable (pl : Pipeline)

/-- The value an element stands for. -/
def denote : {k : ℕ} → Element pl.Val k → pl.Val k
  | _, .value v _ => v
  | _, .fork t => (pl.func _).result t.arg

/-- The values of all elements ever put into a queue. -/
def values {k : ℕ} (q : LogQueue (Element pl.Val k)) : List (pl.Val k) := q.log.map pl.denote

variable {pl} {k : ℕ}

@[simp] theorem denote_take (e : Element pl.Val k) : pl.denote e.take = pl.denote e := by
  cases e <;> rfl

@[simp] theorem denote_spawn (v : pl.Val k) :
    pl.denote (.fork (.spawn v) : Element pl.Val (k + 1)) = (pl.func k).result v := rfl

@[simp] theorem length_values (q : LogQueue (Element pl.Val k)) :
    (pl.values q).length = q.log.length := List.length_map ..

@[simp] theorem values_push (q : LogQueue (Element pl.Val k)) (e : Element pl.Val k) :
    pl.values (q.push e) = pl.values q ++ [pl.denote e] := List.map_append ..

@[simp] theorem values_close (q : LogQueue (Element pl.Val k)) :
    pl.values q.close = pl.values q := rfl

/-- The value that an entry of the queue stands for. -/
theorem values_getElem? {q : LogQueue (Element pl.Val k)} {i : ℕ} {e : Element pl.Val k}
    (h : q.log[i]? = some e) : (pl.values q)[i]? = some (pl.denote e) := by
  rw [values, List.getElem?_map, h]
  rfl

end Pipeline

/-! ### Sound elements -/

/-- The data that can be taken from the element is the value it stands for, and data has only
been taken from an element that has it. -/
structure Pipeline.Sound (pl : Pipeline) {k : ℕ} (e : Element pl.Val k) : Prop where
  denote : ∀ v, e.ready? = some v → v = pl.denote e
  ready : 0 < e.taken → ∃ v, e.ready? = some v

namespace Pipeline

variable {pl : Pipeline} {k : ℕ}

/-- An input stands for itself. -/
theorem sound_value (v : pl.Val 0) (m : ℕ) : pl.Sound (.value v m) :=
  ⟨fun _ h => (Option.some.inj h).symm, fun _ => ⟨v, rfl⟩⟩

/-- A forked task stands for what its function will return. -/
theorem sound_spawn (v : pl.Val k) : pl.Sound (.fork (.spawn v) : Element pl.Val (k + 1)) :=
  ⟨nofun, fun h => (Nat.lt_irrefl 0 h).elim⟩

private theorem ready?_take (e : Element pl.Val k) : e.take.ready? = e.ready? := by cases e <;> rfl

/-- Taking the value of an element leaves it sound. -/
theorem sound_take {e : Element pl.Val k} (h : pl.Sound e) {v : pl.Val k}
    (hv : e.ready? = some v) : pl.Sound e.take :=
  ⟨fun w hw => by rw [denote_take]; exact h.denote w (ready?_take e ▸ hw),
    fun _ => ⟨v, by rw [ready?_take, hv]⟩⟩

/-- A task goes on to the result that it stands for. -/
theorem sound_advance {e : TaskEvent} {t t' : Fork (pl.Val k) (pl.Val (k + 1))}
    (hs : pl.Sound (.fork t : Element pl.Val (k + 1))) (h : (pl.func k).Advance e t t') :
    pl.Sound (.fork t' : Element pl.Val (k + 1)) := by
  refine ⟨fun _ hv => h.ready?_eq hv, fun htaken => ?_⟩
  -- A task that advances has not finished, so its handle has not been awaited.
  have hold : 0 < t.awaited := h.awaited_eq ▸ htaken
  obtain ⟨v, hv⟩ := hs.ready hold
  have hnone : (Element.fork t : Element pl.Val (k + 1)).ready? = none := h.ready?_eq_none
  rw [hnone] at hv
  cases hv

end Pipeline

@[simp] theorem Element.taken_take {Val : ℕ → Type} {k : ℕ} (e : Element Val k) :
    e.take.taken = e.taken + 1 := by
  cases e <;> rfl

/-! ### Steps of the others, seen from either end of a queue -/

section Ends

variable {pl : Pipeline} {k : ℕ}

/-- What may happen to a queue while the party that pulls from it does nothing. -/
structure Upstream (q q₂ : LogQueue (Element pl.Val k)) : Prop where
  head : q₂.head = q.head
  values : pl.values q <+: pl.values q₂
  closed : q.closed = true → q₂.closed = true ∧ q₂.log.length = q.log.length
  taken : ∀ i e₂, q₂.log[i]? = some e₂ →
    (∃ e, q.log[i]? = some e ∧ e₂.taken = e.taken) ∨ q.log.length ≤ i ∧ e₂.taken = 0

/-- What may happen to a queue while the party that pushes into it does nothing. -/
structure Downstream (q q₂ : LogQueue (Element pl.Val k)) : Prop where
  values : pl.values q₂ = pl.values q
  closed : q₂.closed = q.closed

variable {q q₂ : LogQueue (Element pl.Val k)}

theorem Upstream.length_le (h : Upstream q q₂) : q.log.length ≤ q₂.log.length := by
  simpa using h.values.length_le

theorem Downstream.length_eq (h : Downstream q q₂) : q₂.log.length = q.log.length := by
  simpa using congrArg List.length h.values

theorem Upstream.refl (q : LogQueue (Element pl.Val k)) : Upstream q q :=
  ⟨rfl, List.prefix_refl _, fun h => ⟨h, rfl⟩, fun _ e h => Or.inl ⟨e, h, rfl⟩⟩

theorem Downstream.refl (q : LogQueue (Element pl.Val k)) : Downstream q q := ⟨rfl, rfl⟩

/-- Pushing an element whose data has not been taken, into an open queue. -/
theorem Upstream.push {e : Element pl.Val k} (hq : q.closed = false) (he : e.taken = 0) :
    Upstream q (q.push e) where
  head := rfl
  values := by rw [Pipeline.values_push]; exact List.prefix_append _ _
  closed h := by rw [hq] at h; cases h
  taken i e₂ h := by
    rcases LogQueue.getElem?_push_eq_some h with h | ⟨rfl, rfl⟩
    · exact Or.inl ⟨e₂, h, rfl⟩
    · exact Or.inr ⟨Nat.le_refl _, he⟩

/-- A close adds nothing to the queue. -/
theorem Upstream.close (q : LogQueue (Element pl.Val k)) : Upstream q q.close where
  head := rfl
  values := List.prefix_refl _
  closed _ := ⟨rfl, rfl⟩
  taken _ e₂ h := Or.inl ⟨e₂, h, rfl⟩

/-- The consumer of a queue takes values and leaves what they stand for. -/
theorem Downstream.take (q : LogQueue (Element pl.Val k)) (i : ℕ) :
    Downstream q (q.modify i Element.take) where
  values := LogQueue.map_log_modify fun x _ => Pipeline.denote_take x
  closed := rfl

theorem Downstream.pop (q : LogQueue (Element pl.Val k)) : Downstream q q.pop := ⟨rfl, rfl⟩

section Task

variable {q : LogQueue (Element pl.Val (k + 1))} {i : ℕ} {e : TaskEvent}
  {t t' : Fork (pl.Val k) (pl.Val (k + 1))}

/-- A step of a forked task leaves the values of the queue that holds its handle. -/
private theorem values_task (hq : q.log[i]? = some (.fork t)) (ht : (pl.func k).Advance e t t') :
    pl.values (q.modify i fun _ => .fork t') = pl.values q := by
  refine LogQueue.map_log_modify fun x hx => ?_
  rw [hq] at hx
  cases hx
  exact congrArg (pl.func k).result ht.arg_eq

/-- To those behind it, a step of a forked task is one of the upstream side. -/
theorem Upstream.task (hq : q.log[i]? = some (.fork t)) (ht : (pl.func k).Advance e t t') :
    Upstream q (q.modify i fun _ => .fork t') where
  head := rfl
  values := by rw [values_task hq ht]
  closed h := ⟨h, by simp⟩
  taken j e₂ h := by
    left
    obtain ⟨x, hx, rfl⟩ := LogQueue.getElem?_modify_eq_some h
    refine ⟨x, hx, ?_⟩
    split
    · next hij =>
      subst hij
      rw [hq] at hx
      cases hx
      exact ht.awaited_eq
    · rfl

/-- To those before it, a step of a forked task changes nothing. -/
theorem Downstream.task (hq : q.log[i]? = some (.fork t)) (ht : (pl.func k).Advance e t t') :
    Downstream q (q.modify i fun _ => .fork t') := ⟨values_task hq ht, rfl⟩

end Task

end Ends

end PipelineFifo

end TmcExamples
