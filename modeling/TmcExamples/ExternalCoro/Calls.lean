import Mathlib.Data.List.Count
import TmcExamples.ExternalCoro.Model

/-!
# Awaiting as calling

What the coroutines are for: awaiting one is like calling a function. In a nesting of calls
every coroutine returns, its awaiter goes on with the value, and the frame is gone. Here this is
said without frames, by recursion on the body: the `value` of a body, the coroutines that are
awaited on the way to it (`awaits`), what is put into a `std::promise` (`promised`), and the
`trace` of the steps, when frames are numbered in the order of the calls. In the trace every
awaited coroutine is entered once, returns once, transfers to its awaiter once and is destroyed
once.
-/

namespace TmcExamples

namespace ExternalCoro

/-- The coroutine that a step calls, ends or destroys. -/
def Action.frame : Action → Option ℕ
  | .coAwait _ inner => some inner
  | .setValue _ => none
  | .coReturn f | .transfer f _ | .destroy f => some f

section

variable (f g : ℕ) (c : Option ℕ)

@[simp] theorem Action.frame_coAwait : (Action.coAwait f g).frame = some g := rfl

@[simp] theorem Action.frame_setValue : (Action.setValue f).frame = none := rfl

@[simp] theorem Action.frame_coReturn : (Action.coReturn f).frame = some f := rfl

@[simp] theorem Action.frame_transfer : (Action.transfer f c).frame = some f := rfl

@[simp] theorem Action.frame_destroy : (Action.destroy f).frame = some f := rfl

end

namespace Body

variable {V : Type}

/-- The value that the body returns. -/
def value : Body V → V
  | .coReturn v => v
  | .setValue _ rest => rest.value
  | .coAwait type child rest => (rest (type.get child.value)).value

/-- The types of the coroutines that are awaited by the body, and by those that it awaits. -/
def awaits : Body V → List CoroType
  | .coReturn _ => []
  | .setValue _ rest => rest.awaits
  | .coAwait type child rest =>
    type :: (child.awaits ++ (rest (type.get child.value)).awaits)

/-- The values that are put into a promise. -/
def promised : Body V → List V
  | .coReturn _ => []
  | .setValue v rest => v :: rest.promised
  | .coAwait type child rest => child.promised ++ (rest (type.get child.value)).promised

/-- The steps of the body in frame `f`, up to its `co_return`, when the frames from `n` on are
free. -/
def trace : Body V → ℕ → ℕ → List Action
  | .coReturn _, _, _ => []
  | .setValue _ rest, f, n => .setValue f :: rest.trace f n
  | .coAwait type child rest, f, n =>
    .coAwait f n :: (child.trace n (n + 1) ++ .coReturn n :: .transfer n (some f) :: .destroy n ::
      (rest (type.get child.value)).trace f (n + 1 + child.awaits.length))

/-- The steps of the whole nesting under a posted coroutine with this body. -/
def run (b : Body V) : List Action := b.trace 0 1 ++ [.coReturn 0, .destroy 0]

/-! ### What is counted in a trace -/

variable (b : Body V)

/-- The frames of a `co_await` and of what follows it. -/
private theorem range'_awaits (n k m : ℕ) :
    List.range' n (k + m + 1) = n :: (List.range' (n + 1) k ++ List.range' (n + 1 + k) m) := by
  rw [List.range'_succ, ← List.range'_append_1]

/-- Every frame is destroyed once. -/
private theorem count_destroy_trace (f n g : ℕ) :
    (b.trace f n).count (.destroy g) = (List.range' n b.awaits.length).count g := by
  induction b generalizing f n with
  | coReturn v => rfl
  | setValue v rest ih =>
    rw [trace, List.count_cons_of_ne (by nofun)]
    exact ih f n
  | coAwait type child rest ihc ihr =>
    simp only [trace, awaits, List.count_cons, List.count_append, List.length_cons,
      List.length_append, ihc, ihr, range'_awaits]
    simp only [beq_iff_eq, reduceCtorEq, if_false, Action.destroy.injEq]
    omega

/-- Every awaited coroutine transfers to its awaiter as often as it is awaited. -/
private theorem count_transfer_trace (f n g o : ℕ) :
    (b.trace f n).count (.transfer g (some o)) = (b.trace f n).count (.coAwait o g) := by
  induction b generalizing f n with
  | coReturn v => rfl
  | setValue v rest ih =>
    rw [trace, List.count_cons_of_ne (by nofun), List.count_cons_of_ne (by nofun)]
    exact ih f n
  | coAwait type child rest ihc ihr =>
    simp only [trace, List.count_cons, List.count_append, ihc, ihr]
    simp only [beq_iff_eq, reduceCtorEq, if_false, Action.transfer.injEq, Action.coAwait.injEq,
      Option.some.injEq, and_comm (a := n = g)]
    omega

/-- Every frame belongs to at most one `co_await`. -/
private theorem count_coAwait_trace_le (f n g o : ℕ) :
    (b.trace f n).count (.coAwait o g) ≤ (List.range' n b.awaits.length).count g := by
  induction b generalizing f n with
  | coReturn v => exact Nat.zero_le _
  | setValue v rest ih =>
    rw [trace, List.count_cons_of_ne (by nofun)]
    exact ih f n
  | coAwait type child rest ihc ihr =>
    have hchild := ihc n (n + 1)
    have hrest := ihr (type.get child.value) f (n + 1 + child.awaits.length)
    have hself : [Action.coAwait f n].count (.coAwait o g) ≤ [n].count g := by
      rw [List.count_singleton, List.count_singleton]
      split_ifs with h₁ h₂
      · exact le_rfl
      · exact (h₂ (by rw [(Action.coAwait.inj (eq_of_beq h₁)).2, beq_self_eq_true])).elim
      all_goals omega
    simp only [trace, awaits, List.count_cons, List.count_append, List.length_cons,
      List.length_append, range'_awaits, List.count_nil] at hself ⊢
    simp only [beq_iff_eq, reduceCtorEq, if_false] at hself ⊢
    omega

/-- The steps with a frame are those of its coroutine's call, if it is called in the body. -/
private theorem filter_trace_of_not_mem (f n g : ℕ) (hg : g < n ∨ n + b.awaits.length ≤ g) :
    (b.trace f n).filter (fun a => a.frame = some g) = [] := by
  induction b generalizing f n with
  | coReturn v => rfl
  | setValue v rest ih =>
    rw [trace, List.filter_cons_of_neg (by simp)]
    exact ih f n hg
  | coAwait type child rest ihc ihr =>
    simp only [awaits, List.length_cons, List.length_append] at hg
    have hchild := ihc n (n + 1) (by omega)
    have hrest := ihr (type.get child.value) f (n + 1 + child.awaits.length) (by omega)
    have hne : n ≠ g := by omega
    rw [trace, List.filter_cons_of_neg (by simpa using hne), List.filter_append, hchild]
    simp [hrest, hne]

private theorem filter_trace (f n g : ℕ) (hn : n ≤ g) (hg : g < n + b.awaits.length) :
    ∃ outer, (b.trace f n).filter (fun a => a.frame = some g) =
      [.coAwait outer g, .coReturn g, .transfer g (some outer), .destroy g] := by
  induction b generalizing f n with
  | coReturn v => exact absurd hg (Nat.not_lt_of_le hn)
  | setValue v rest ih =>
    rw [trace, List.filter_cons_of_neg (by simp)]
    exact ih f n hn hg
  | coAwait type child rest ihc ihr =>
    simp only [awaits, List.length_cons, List.length_append] at hg
    have hchild := child.filter_trace_of_not_mem n (n + 1) g
    have hrest := (rest (type.get child.value)).filter_trace_of_not_mem f
      (n + 1 + child.awaits.length) g
    -- The frame is that of the `co_await`, one of those under it, or one of those that follow.
    rcases Nat.eq_or_lt_of_le hn with rfl | hlt
    · refine ⟨f, ?_⟩
      rw [trace, List.filter_cons_of_pos (by simp), List.filter_append, hchild (by omega)]
      simp [hrest (by omega)]
    have hne : n ≠ g := by omega
    rcases Nat.lt_or_ge g (n + 1 + child.awaits.length) with hlt' | hge
    · obtain ⟨outer, hfilter⟩ := ihc n (n + 1) hlt hlt'
      refine ⟨outer, ?_⟩
      rw [trace, List.filter_cons_of_neg (by simpa using hne), List.filter_append, hfilter]
      simp [hrest (by omega), hne]
    · obtain ⟨outer, hfilter⟩ := ihr (type.get child.value) f _ hge (by omega)
      refine ⟨outer, ?_⟩
      rw [trace, List.filter_cons_of_neg (by simpa using hne), List.filter_append,
        hchild (by omega)]
      simp [hfilter, hne]

/-- In the whole nesting every awaited coroutine transfers to its awaiter once. -/
theorem count_transfer_run {outer inner : ℕ} (h : .coAwait outer inner ∈ b.run) :
    b.run.count (.transfer inner (some outer)) = 1 := by
  have hmem : .coAwait outer inner ∈ b.trace 0 1 := by simpa [run] using h
  have hle : (List.range' 1 b.awaits.length).count inner ≤ 1 :=
    List.nodup_iff_count_le_one.mp List.nodup_range' inner
  have hone : (b.trace 0 1).count (.coAwait outer inner) = 1 :=
    le_antisymm ((b.count_coAwait_trace_le 0 1 inner outer).trans hle)
      (List.count_pos_iff.mpr hmem)
  simp [run, b.count_transfer_trace, hone]

/-- The steps of the call of an awaited coroutine, in the whole nesting. -/
theorem filter_run {f : ℕ} (hpos : 0 < f) (hf : f < 1 + b.awaits.length) :
    ∃ outer, b.run.filter (fun a => a.frame = some f) =
      [.coAwait outer f, .coReturn f, .transfer f (some outer), .destroy f] := by
  obtain ⟨outer, hfilter⟩ := b.filter_trace 0 1 f hpos hf
  refine ⟨outer, ?_⟩
  rw [run, List.filter_append, hfilter]
  simp [hpos.ne]

/-- In the whole nesting every frame is destroyed once. -/
theorem count_destroy_run {f : ℕ} (hf : f < 1 + b.awaits.length) :
    b.run.count (.destroy f) = 1 := by
  rw [run, List.count_append, b.count_destroy_trace]
  rcases Nat.eq_zero_or_pos f with rfl | hpos
  · rw [List.count_eq_zero.mpr (by simp)]
    rfl
  · have hmem : f ∈ List.range' 1 b.awaits.length := List.mem_range'_1.mpr ⟨hpos, hf⟩
    rw [List.count_eq_one_of_mem List.nodup_range' hmem]
    simp [hpos.ne]

end Body

end ExternalCoro

end TmcExamples
