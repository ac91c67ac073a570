import TmcExamples.CallbackAwaitable.Model

/-!
# The invariant of the callback awaitable

A coroutine goes from `co_await` to `await_resume()` together with the operations that it awaits.
The invariant follows one operation (`OpInv`): the setters that are left will make its customizer
ready, what is stored is what its callback has been given. It follows a coroutine (`CoroInv`): while
it is suspended, some of its operations are not done, and their number is its counter until one of
them has posted the coroutine. No operation belongs to two coroutines, so a step of one coroutine or
of its operations does not interfere with another (`CoroInv.frame`).
-/

namespace TmcExamples

namespace CallbackAwaitable

variable {ι : Type} [DecidableEq ι] {R : ι → ResultTuple} {s s' : State R} {a : Action R}
  {tr tr' : List (Action R)} {op : ι × ℕ} {ops : List (ι × ℕ)} {c : ℕ}

/-! ### What has happened -/

/-- The operation is awaited, anew when the address has been used before. -/
def Action.begins (op : ι × ℕ) : Action R → Bool
  | .await _ ops => ops.contains op
  | _ => false

/-- The arguments of the callback of the operation. -/
def Action.callback? (op : ι × ℕ) : Action R → Option (R op.1).Value
  | .callback op' results => if h : op' = op then some (h ▸ results) else none
  | _ => none

/-- The coroutine comes to a `co_await`. -/
def Action.awaits (c : ℕ) : Action R → Bool
  | .await c' _ => c' = c
  | _ => false

/-- The coroutine is resumed. -/
def Action.resumes (c : ℕ) : Action R → Bool
  | .resume _ k | .resumePosted _ k => k = some c
  | _ => false

/-- The steps since the last one of a kind. -/
def since (p : Action R → Bool) (tr : List (Action R)) : List (Action R) :=
  tr.foldl (fun past a => if p a then [] else past ++ [a]) []

/-- The arguments that the callback of the operation has been called with, since it has been awaited
for the last time. -/
def callbacks (op : ι × ℕ) (tr : List (Action R)) : List (R op.1).Value :=
  (since (Action.begins op) tr).filterMap (Action.callback? op)

/-- How often the coroutine has been resumed since its last `co_await`. -/
def resumes (c : ℕ) (tr : List (Action R)) : ℕ :=
  (since (Action.awaits c) tr).countP (Action.resumes c)

omit [DecidableEq ι] in
private theorem since_snoc (p : Action R → Bool) (tr : List (Action R)) (a : Action R) :
    since p (tr ++ [a]) = if p a then [] else since p tr ++ [a] := by
  rw [since, List.foldl_append]
  rfl

private theorem callbacks_begins (h : a.begins op = true) : callbacks op (tr ++ [a]) = [] := by
  rw [callbacks, since_snoc, if_pos h, List.filterMap_nil]

private theorem callbacks_snoc (h : a.begins op = false) :
    callbacks op (tr ++ [a]) = callbacks op tr ++ (a.callback? op).toList := by
  rw [callbacks, since_snoc, if_neg (by simp [h]), List.filterMap_append, callbacks]
  cases hc : a.callback? op <;> simp [hc]

/-- A step that neither awaits the operation nor is its callback. -/
private theorem callbacks_of_not_about (hbegins : a.begins op = false)
    (hcallback : a.callback? op = none) : callbacks op (tr ++ [a]) = callbacks op tr := by
  rw [callbacks_snoc hbegins, hcallback, Option.toList_none, List.append_nil]

omit [DecidableEq ι] in
/-- An await of the coroutine starts a new count of its resumptions. -/
theorem resumes_awaits (h : a.awaits c = true) : resumes c (tr ++ [a]) = 0 := by
  rw [resumes, since_snoc, if_pos h, List.countP_nil]

omit [DecidableEq ι] in
theorem resumes_snoc (h : a.awaits c = false) :
    resumes c (tr ++ [a]) = resumes c tr + if a.resumes c then 1 else 0 := by
  rw [resumes, since_snoc, if_neg (by simp [h]), List.countP_append, List.countP_singleton,
    resumes]

omit [DecidableEq ι] in
/-- A step that neither suspends nor resumes the coroutine. -/
private theorem resumes_of_not_about (hawaits : a.awaits c = false)
    (hresumes : a.resumes c = false) : resumes c (tr ++ [a]) = resumes c tr := by
  rw [resumes_snoc hawaits, hresumes]
  rfl

/-! ### The invariant -/

/-- The setters that are still to be called. -/
def Phase.setters : Phase → List Setter
  | .configuring fs => fs
  | _ => []

/-- The callback has stored its arguments. -/
def Phase.Stored : Phase → Prop
  | .written | .posted _ | .done => True
  | _ => False

/-- The operation has been begun, and `resume_continuation()` is still to be called. -/
def Phase.Open : Phase → Prop
  | .configuring _ | .pending | .written => True
  | _ => False

/-- The operations that have not counted down. -/
def undone (phase : ι × ℕ → Phase) (ops : List (ι × ℕ)) : ℕ := ops.countP fun op => phase op ≠ .done

/-- The invariant of one of `n` operations that the coroutine `c` awaits. -/
structure OpInv (tr : List (Action R)) (s : State R) (c n : ℕ) (op : ι × ℕ) : Prop where
  live : s.phase op ≠ .absent
  ready : ((s.customizer op).configured (s.phase op).setters).Ready c op.2 n
  posted : ∀ k, s.phase op = .posted k → k = some c
  uncalled : ¬ (s.phase op).Stored → callbacks op tr = []
  stored : (s.phase op).Stored →
    ∃ r, callbacks op tr = [r] ∧ (R op.1).awaitResume (s.result op) = some r

/-- The operations that the coroutine `c` awaits. -/
structure Awaited (tr : List (Action R)) (s : State R) (c : ℕ) (ops : List (ι × ℕ)) : Prop where
  nodup : ops.Nodup
  nonempty : ops ≠ []
  op : ∀ op ∈ ops, OpInv tr s c ops.length op

/-- The invariant of a coroutine that has not been resumed. -/
structure Suspended (tr : List (Action R)) (s : State R) (c : ℕ) (ops : List (ι × ℕ)) : Prop
    extends Awaited tr s c ops where
  waits : ∃ op ∈ ops, s.phase op ≠ .done
  posted : ∀ op ∈ ops, ∀ k, s.phase op = .posted k → ∀ o ∈ ops, o ≠ op → s.phase o = .done
  counted : (∀ op ∈ ops, ∀ k, s.phase op ≠ .posted k) →
    s.doneCount c = undone s.phase ops

/-- The invariant of a coroutine. -/
def CoroInv (tr : List (Action R)) (s : State R) (c : ℕ) : Prop :=
  match s.coro c with
  | .running => resumes c tr ≤ 1
  | .suspended ops => Suspended tr s c ops ∧ resumes c tr = 0
  | .resumed ops => (Awaited tr s c ops ∧ ∀ op ∈ ops, s.phase op = .done) ∧ resumes c tr = 1

/-- The operations that a coroutine awaits. -/
def Coro.awaited : Coro ι → List (ι × ℕ)
  | .running => []
  | .suspended ops | .resumed ops => ops

/-- The invariant of the awaitables. -/
structure Inv (tr : List (Action R)) (s : State R) : Prop where
  defined : s.undefined = false
  coro : ∀ c, CoroInv tr s c
  awaited : ∀ op, s.phase op ≠ .absent → ∃ c, op ∈ (s.coro c).awaited
  disjoint : ∀ c d op, op ∈ (s.coro c).awaited → op ∈ (s.coro d).awaited → c = d

/-! ### What a step leaves alone -/

section BeginAndOver

variable {setters : ι × ℕ → List Setter} {d : ℕ}

theorem coro_begin_self : (s.begin c ops setters).coro c = .suspended ops :=
  Function.update_self ..

theorem coro_begin_of_ne (h : d ≠ c) : (s.begin c ops setters).coro d = s.coro d :=
  Function.update_of_ne h ..

private theorem phase_begin_of_mem (h : op ∈ ops) :
    (s.begin c ops setters).phase op = .configuring (setters op) := if_pos h

theorem phase_begin_of_notMem (h : op ∉ ops) : (s.begin c ops setters).phase op = s.phase op :=
  if_neg h

private theorem coro_finish_self : (s.finish c ops).coro c = .running := Function.update_self ..

theorem coro_finish_of_ne (h : d ≠ c) : (s.finish c ops).coro d = s.coro d :=
  Function.update_of_ne h ..

private theorem phase_finish_of_mem (h : op ∈ ops) : (s.finish c ops).phase op = .absent := if_pos h

private theorem phase_finish_of_notMem (h : op ∉ ops) :
    (s.finish c ops).phase op = s.phase op := if_neg h

end BeginAndOver

/-- An operation does not notice a step that leaves its own part of the state alone. -/
theorem OpInv.congr {n : ℕ} (h : OpInv tr s c n op)
    (hcallbacks : callbacks op tr' = callbacks op tr) (hphase : s'.phase op = s.phase op)
    (hcustomizer : s'.customizer op = s.customizer op) (hresult : s'.result op = s.result op) :
    OpInv tr' s' c n op where
  live := hphase ▸ h.live
  ready := by
    rw [hphase, hcustomizer]
    exact h.ready
  posted := by
    rw [hphase]
    exact h.posted
  uncalled := by
    rw [hphase, hcallbacks]
    exact h.uncalled
  stored := by
    rw [hphase, hcallbacks, hresult]
    exact h.stored

omit [DecidableEq ι] in
private theorem undone_congr {phase phase' : ι × ℕ → Phase}
    (h : ∀ op ∈ ops, phase' op = phase op) : undone phase' ops = undone phase ops :=
  List.countP_congr fun op hop => by rw [h op hop]

/-- A coroutine does not notice a step of other operations. -/
theorem CoroInv.frame (h : CoroInv tr s c) (hcoro : s'.coro c = s.coro c)
    (hcount : s'.doneCount c = s.doneCount c) (hresumes : resumes c tr' = resumes c tr)
    (hop : ∀ op ∈ (s.coro c).awaited, callbacks op tr' = callbacks op tr ∧
      s'.phase op = s.phase op ∧ s'.customizer op = s.customizer op ∧
      s'.result op = s.result op) : CoroInv tr' s' c := by
  have hawaited {ops : List (ι × ℕ)} (hops : (s.coro c).awaited = ops) (h : Awaited tr s c ops) :
      Awaited tr' s' c ops := by
    refine ⟨h.nodup, h.nonempty, fun op hmem => ?_⟩
    obtain ⟨hcallbacks, hphase, hcustomizer, hresult⟩ := hop op (hops ▸ hmem)
    exact (h.op op hmem).congr hcallbacks hphase hcustomizer hresult
  unfold CoroInv at h ⊢
  rw [hcoro, hresumes]
  cases hc : s.coro c with
  | running =>
    rw [hc] at h
    exact h
  | suspended ops =>
    rw [hc] at h hop
    have hphase : ∀ op ∈ ops, s'.phase op = s.phase op := fun op hmem => (hop op hmem).2.1
    obtain ⟨hsuspended, hzero⟩ := h
    refine ⟨⟨hawaited (congrArg Coro.awaited hc) hsuspended.toAwaited, ?_, ?_, ?_⟩, hzero⟩
    · obtain ⟨op, hmem, hundone⟩ := hsuspended.waits
      exact ⟨op, hmem, hphase op hmem ▸ hundone⟩
    · intro op hmem k hk o ho hne
      rw [hphase o ho]
      exact hsuspended.posted op hmem k (hphase op hmem ▸ hk) o ho hne
    · intro hposted
      rw [hcount, undone_congr hphase]
      exact hsuspended.counted fun op hmem k => hphase op hmem ▸ hposted op hmem k
  | resumed ops =>
    rw [hc] at h hop
    refine ⟨⟨hawaited (congrArg Coro.awaited hc) h.1.1, fun op hmem => ?_⟩, h.2⟩
    rw [(hop op hmem).2.1]
    exact h.1.2 op hmem

/-! ### The operations of a coroutine -/

/-- A suspended coroutine waits for the operations that it has started, and has not been resumed. -/
theorem CoroInv.suspended (h : CoroInv tr s c) (hc : s.coro c = .suspended ops) :
    Suspended tr s c ops ∧ resumes c tr = 0 := by
  rwa [CoroInv, hc] at h

/-- A resumed coroutine finds its operations done, and has been resumed once. -/
theorem CoroInv.resumed (h : CoroInv tr s c) (hc : s.coro c = .resumed ops) :
    (Awaited tr s c ops ∧ ∀ op ∈ ops, s.phase op = .done) ∧ resumes c tr = 1 := by
  rwa [CoroInv, hc] at h

omit [DecidableEq ι] in
private theorem Coro.mem_awaited {x : Coro ι} (h : op ∈ x.awaited) : ∃ ops, op ∈ ops ∧
    (x = .suspended ops ∨ x = .resumed ops) := by
  cases x with
  | running => cases h
  | suspended ops => exact ⟨ops, h, .inl rfl⟩
  | resumed ops => exact ⟨ops, h, .inr rfl⟩

/-- The coroutine that awaits an operation which is not done is suspended. -/
theorem Inv.exists_suspended (h : Inv tr s) (hlive : s.phase op ≠ .absent)
    (hdone : s.phase op ≠ .done) : ∃ c ops, s.coro c = .suspended ops ∧ op ∈ ops := by
  obtain ⟨c, hc⟩ := h.awaited op hlive
  obtain ⟨ops, hop, hsuspended | hresumed⟩ := Coro.mem_awaited hc
  · exact ⟨c, ops, hsuspended, hop⟩
  · exact absurd (((h.coro c).resumed hresumed).1.2 op hop) hdone

namespace Suspended

/-- Where an operation has still to count down, none has posted the coroutine. -/
private theorem not_posted (h : Suspended tr s c ops) (hop : op ∈ ops) (hopen : (s.phase op).Open) :
    ∀ o ∈ ops, ∀ k, s.phase o ≠ .posted k := by
  intro o ho k hk
  by_cases hne : op = o
  · subst hne
    rw [hk] at hopen
    exact hopen
  · rw [h.posted o ho k hk op hop hne] at hopen
    exact hopen

/-- All but one operation are done where only one is left. -/
private theorem done_of_undone_eq_one (hnodup : ops.Nodup) {phase : ι × ℕ → Phase}
    (hundone : undone phase ops = 1) (hop : op ∈ ops) (hne : phase op ≠ .done) :
    ∀ o ∈ ops, o ≠ op → phase o = .done := by
  intro o ho hneq
  have hcount := (List.perm_cons_erase hop).countP_eq fun op => decide (phase op ≠ .done)
  rw [undone, hcount,
    List.countP_cons_of_pos (by simpa using hne), Nat.add_eq_right] at hundone
  have hrest := List.countP_eq_zero.mp hundone o ((hnodup.mem_erase_iff).mpr ⟨hneq, ho⟩)
  simpa using hrest

/-- The callback that counts down last finds all other operations done. -/
theorem others_done (h : Suspended tr s c ops) (hop : op ∈ ops) (hw : s.phase op = .written)
    (hlast : s.Last op) : ∀ o ∈ ops, o ≠ op → s.phase o = .done := by
  have hready := (h.op op hop).ready
  rw [hw] at hready
  rcases hready.doneCount with hcount | ⟨-, hone⟩
  · -- The counter of the coroutine is one.
    have hleft : s.doneCount c = 1 := hlast c hcount
    rw [h.counted (h.not_posted hop (by rw [hw]; trivial))] at hleft
    exact done_of_undone_eq_one h.nodup hleft hop (by rw [hw]; nofun)
  · -- There is no other operation.
    obtain ⟨o', rfl⟩ := List.length_eq_one_iff.mp hone
    intro o ho hne
    rw [List.mem_singleton.mp ho, List.mem_singleton.mp hop] at hne
    exact absurd rfl hne

end Suspended

/-- A ready customizer has no counter but that of its coroutine. -/
private theorem Customizer.Ready.doneCount_ne {z : Customizer} {p n d : ℕ} (h : z.Ready c p n)
    (hd : d ≠ c) : z.doneCount ≠ some d := by
  rcases h.doneCount with hcount | ⟨hnone, -⟩
  · rw [hcount]
    exact fun hcd => hd (Option.some.inj hcd).symm
  · rw [hnone]
    nofun

/-! ### Steps of one operation -/

/-- A step of the operation `op`, on which the coroutine `c` waits, changes nothing else but the
counter and the state of that coroutine. -/
structure OnlyAt (op : ι × ℕ) (c : ℕ) (a : Action R) (s s' : State R) : Prop where
  phase : ∀ o, o ≠ op → s'.phase o = s.phase o
  customizer : ∀ o, o ≠ op → s'.customizer o = s.customizer o
  result : ∀ o, o ≠ op → s'.result o = s.result o
  doneCount : ∀ d, d ≠ c → s'.doneCount d = s.doneCount d
  coro : ∀ d, d ≠ c → s'.coro d = s.coro d
  begins : ∀ o, a.begins o = false
  callback : ∀ o, o ≠ op → a.callback? o = none
  awaits : ∀ d, a.awaits d = false
  resumes : ∀ d, d ≠ c → a.resumes d = false

namespace Inv

theorem initial (R : ι → ResultTuple) : Inv [] (initial R) where
  defined := rfl
  coro := fun _ => Nat.zero_le 1
  awaited := fun _ h => (h rfl).elim
  disjoint := fun _ _ _ h => by cases h

/-- It is enough to look at the coroutine that awaits the operation of the step. -/
private theorem of_onlyAt (h : Inv tr s) (hc : op ∈ (s.coro c).awaited) (hstep : OnlyAt op c a s s')
    (hdefined : s'.undefined = s.undefined) (hops : (s'.coro c).awaited = (s.coro c).awaited)
    (hinv : CoroInv (tr ++ [a]) s' c) : Inv (tr ++ [a]) s' := by
  have hops' : ∀ d, (s'.coro d).awaited = (s.coro d).awaited := fun d => by
    by_cases hd : d = c
    · rw [hd, hops]
    · rw [hstep.coro d hd]
  refine ⟨by rw [hdefined, h.defined], fun d => ?_, fun o ho => ?_, fun d e o hd he => ?_⟩
  · by_cases hd : d = c
    · exact hd ▸ hinv
    · refine (h.coro d).frame (hstep.coro d hd) (hstep.doneCount d hd)
        (resumes_of_not_about (hstep.awaits d) (hstep.resumes d hd)) fun o ho => ?_
      have hne : o ≠ op := by
        rintro rfl
        exact hd (h.disjoint d c o ho hc)
      exact ⟨callbacks_of_not_about (hstep.begins o) (hstep.callback o hne), hstep.phase o hne,
        hstep.customizer o hne, hstep.result o hne⟩
  · by_cases hne : o = op
    · subst hne
      exact ⟨c, by rwa [hops]⟩
    · rw [hstep.phase o hne] at ho
      obtain ⟨d, hd⟩ := h.awaited o ho
      exact ⟨d, by rwa [hops']⟩
  · rw [hops'] at hd he
    exact h.disjoint d e o hd he

end Inv

/-- The operations of a coroutine after a step of one of them. -/
private theorem Awaited.of_onlyAt (h : Awaited tr s c ops) (hstep : OnlyAt op c a s s')
    (hop : OpInv (tr ++ [a]) s' c ops.length op) : Awaited (tr ++ [a]) s' c ops := by
  refine ⟨h.nodup, h.nonempty, fun o ho => ?_⟩
  by_cases hne : o = op
  · exact hne ▸ hop
  · exact (h.op o ho).congr (callbacks_of_not_about (hstep.begins o) (hstep.callback o hne))
      (hstep.phase o hne) (hstep.customizer o hne) (hstep.result o hne)

namespace OpInv

variable {n : ℕ}

/-- The phase of the operation changes, and the customizer perhaps, but not what is stored. -/
theorem move (h : OpInv tr s c n op) {p : Phase} (hphase : s'.phase op = p)
    (hbegins : a.begins op = false) (hcallback : a.callback? op = none)
    (hresult : s'.result op = s.result op) (hlive : p ≠ .absent)
    (hstored : p.Stored ↔ (s.phase op).Stored)
    (hready : ((s'.customizer op).configured p.setters).Ready c op.2 n)
    (hposted : ∀ k, p = .posted k → k = some c) : OpInv (tr ++ [a]) s' c n op := by
  subst hphase
  refine ⟨hlive, hready, hposted, ?_, ?_⟩
  · rw [hstored, callbacks_of_not_about hbegins hcallback]
    exact h.uncalled
  · rw [hstored, callbacks_of_not_about hbegins hcallback, hresult]
    exact h.stored

/-- The callback has written to the storage of its own operation. -/
theorem callback (h : OpInv tr s c n op) {r : (R op.1).Value} (hbegins : a.begins op = false)
    (hcallback : a.callback? op = some r) (hcustomizer : s'.customizer op = s.customizer op)
    (hresult : s'.result op = (R op.1).store r) (hold : s.phase op = .pending)
    (hnew : s'.phase op = .written) : OpInv (tr ++ [a]) s' c n op where
  live := by
    rw [hnew]
    nofun
  ready := by
    have hready := h.ready
    rw [hold] at hready
    rw [hnew, hcustomizer]
    exact hready
  posted := by
    rw [hnew]
    nofun
  uncalled := by
    rw [hnew]
    exact fun hno => (hno trivial).elim
  stored _ := by
    refine ⟨r, ?_, by rw [hresult, ResultTuple.awaitResume_store]⟩
    rw [callbacks_snoc hbegins, hcallback, h.uncalled (by rw [hold]; exact id)]
    rfl

end OpInv

namespace Suspended

/-- A step of an operation that has to count down before and after it. -/
theorem advance (h : Suspended tr s c ops) (hop : op ∈ ops) (hstep : OnlyAt op c a s s')
    (hold : (s.phase op).Open) (hnew : (s'.phase op).Open) (hcount : s'.doneCount c = s.doneCount c)
    (hinv : OpInv (tr ++ [a]) s' c ops.length op) : Suspended (tr ++ [a]) s' c ops := by
  have hopen {p : Phase} (hp : p.Open) : p ≠ .done := by
    rintro rfl
    exact hp
  have hposted : ∀ o ∈ ops, ∀ k, s'.phase o ≠ .posted k := by
    intro o ho k
    by_cases hne : o = op
    · subst hne
      intro hk
      rw [hk] at hnew
      exact hnew
    · rw [hstep.phase o hne]
      exact h.not_posted hop hold o ho k
  refine ⟨h.toAwaited.of_onlyAt hstep hinv, ⟨op, hop, hopen hnew⟩,
    fun o ho k hk => absurd hk (hposted o ho k), fun _ => ?_⟩
  rw [hcount, h.counted (h.not_posted hop hold)]
  refine List.countP_congr fun o _ => ?_
  by_cases hne : o = op
  · subst hne
    simp only [decide_eq_true_eq, iff_of_true (hopen hold) (hopen hnew)]
  · rw [hstep.phase o hne]

/-- An operation counts down, and is not the last one. -/
theorem count (h : Suspended tr s c ops) (hop : op ∈ ops) (hstep : OnlyAt op c a s s')
    (hw : s.phase op = .written) (hdone : s'.phase op = .done) (hlast : s.doneCount c ≠ 1)
    (hcount : s'.doneCount c = s.doneCount c - 1)
    (hinv : OpInv (tr ++ [a]) s' c ops.length op) : Suspended (tr ++ [a]) s' c ops := by
  have hposted := h.not_posted hop (by rw [hw]; trivial)
  have hposted' : ∀ o ∈ ops, ∀ k, s'.phase o ≠ .posted k := by
    intro o ho k
    by_cases hne : o = op
    · rw [hne, hdone]
      nofun
    · rw [hstep.phase o hne]
      exact hposted o ho k
  have hmove : undone s'.phase ops + 1 =
      undone s.phase ops := by
    have hperm := List.perm_cons_erase hop
    have hrest : ∀ o ∈ ops.erase op, s'.phase o = s.phase o :=
      fun o ho => hstep.phase o (h.nodup.mem_erase_iff.mp ho).1
    rw [undone, undone, hperm.countP_eq, hperm.countP_eq,
      List.countP_cons_of_neg (by simp [hdone]), List.countP_cons_of_pos (by simp [hw])]
    exact congrArg (· + 1) (undone_congr hrest)
  have hcounted := h.counted hposted
  refine ⟨h.toAwaited.of_onlyAt hstep hinv, ?_, fun o ho k hk => absurd hk (hposted' o ho k),
    fun _ => by omega⟩
  have hpos : 0 < undone s'.phase ops := by omega
  obtain ⟨o, ho, hne⟩ := List.countP_pos_iff.mp hpos
  exact ⟨o, ho, of_decide_eq_true hne⟩

/-- The last operation posts the coroutine. -/
theorem post (h : Suspended tr s c ops) (hop : op ∈ ops) (hstep : OnlyAt op c a s s')
    (hdone : ∀ o ∈ ops, o ≠ op → s.phase o = .done) {k : Option ℕ}
    (hnew : s'.phase op = .posted k) (hinv : OpInv (tr ++ [a]) s' c ops.length op) :
    Suspended (tr ++ [a]) s' c ops := by
  have hdone' : ∀ o ∈ ops, o ≠ op → s'.phase o = .done := fun o ho hne => by
    rw [hstep.phase o hne]
    exact hdone o ho hne
  refine ⟨h.toAwaited.of_onlyAt hstep hinv, ⟨op, hop, by rw [hnew]; nofun⟩,
    fun o ho j hj => ?_, fun hposted => absurd hnew (hposted op hop k)⟩
  by_cases hne : o = op
  · exact hne ▸ hdone'
  · rw [hdone' o ho hne] at hj
    cases hj

end Suspended

omit [DecidableEq ι] in
private theorem resume_of_suspended (h : s.coro c = .suspended ops) :
    s.resume (some c) = { s with coro := Function.update s.coro c (.resumed ops) } := by
  simp only [State.resume, h]

private theorem write_of_own {r : (R op.1).Value} (h : (s.customizer op).resultPtr = some op.2) :
    s.write op r = { s with result := Function.update s.result op ((R op.1).store r) } := by
  simp only [State.write, h]

omit [DecidableEq ι] in
/-- Counting down changes nothing but the counter of the operation, if it has one. -/
theorem exists_countDown (s : State R) (op : ι × ℕ) :
    ∃ n, s.countDown op = { s with doneCount := n } ∧
    (∀ d, (s.customizer op).doneCount ≠ some d → n d = s.doneCount d) ∧
    ∀ d, (s.customizer op).doneCount = some d → n d = s.doneCount d - 1 := by
  cases hd : (s.customizer op).doneCount with
  | none => exact ⟨s.doneCount, by simp only [State.countDown, hd], fun _ _ => rfl, nofun⟩
  | some d =>
    refine ⟨Function.update s.doneCount d (s.doneCount d - 1), by simp only [State.countDown, hd],
      fun e he => Function.update_of_ne (fun hed => he (congrArg some hed.symm)) .., ?_⟩
    rintro _ ⟨⟩
    exact Function.update_self ..

/-- The operations that have just been begun. -/
private theorem suspended_begin {setters : ι × ℕ → List Setter} (hne : ops ≠ [])
    (hnodup : ops.Nodup)
    (hready : ∀ op ∈ ops, (Customizer.initial.configured (setters op)).Ready c op.2 ops.length) :
    Suspended (tr ++ [.await c ops]) (s.begin c ops setters) c ops := by
  refine ⟨⟨hnodup, hne, fun op hop => ?_⟩, ?_, fun op hop k hk => ?_, fun _ => ?_⟩
  · refine ⟨by rw [phase_begin_of_mem hop]; nofun, ?_, by rw [phase_begin_of_mem hop]; nofun,
      fun _ => callbacks_begins (List.contains_iff_mem.mpr hop), ?_⟩
    · rw [phase_begin_of_mem hop]
      have hinitial : (s.begin c ops setters).customizer op = .initial := if_pos hop
      rw [hinitial]
      exact hready op hop
    · rw [phase_begin_of_mem hop]
      exact False.elim
  · obtain ⟨op, hop⟩ := List.exists_mem_of_ne_nil ops hne
    exact ⟨op, hop, by rw [phase_begin_of_mem hop]; nofun⟩
  · rw [phase_begin_of_mem hop] at hk
    cases hk
  · have hcount : (s.begin c ops setters).doneCount c = ops.length := Function.update_self ..
    rw [hcount]
    refine (List.countP_eq_length.mpr fun op hop => ?_).symm
    rw [phase_begin_of_mem hop]
    rfl

/-! ### The steps -/

namespace Inv

/-- A setter is called, an operation is initiated, or its callback writes: the operation has still
to count down. -/
theorem advance (h : Inv tr s) (hc : s.coro c = .suspended ops) (hop : op ∈ ops)
    (hstep : OnlyAt op c a s s') (hold : (s.phase op).Open) (hnew : (s'.phase op).Open)
    (hdefined : s'.undefined = s.undefined) (hcount : s'.doneCount c = s.doneCount c)
    (hcoro : s'.coro c = s.coro c) (hresumes : a.resumes c = false)
    (hinv : OpInv tr s c ops.length op → OpInv (tr ++ [a]) s' c ops.length op) :
    Inv (tr ++ [a]) s' := by
  obtain ⟨hsuspended, hzero⟩ := (h.coro c).suspended hc
  refine h.of_onlyAt (hc ▸ hop) hstep hdefined (by rw [hcoro]) ?_
  rw [CoroInv, hcoro, hc]
  refine ⟨hsuspended.advance hop hstep hold hnew hcount (hinv (hsuspended.op op hop)), ?_⟩
  rw [resumes_of_not_about (hstep.awaits c) hresumes, hzero]

/-- The coroutine is resumed by the last of its operations. -/
theorem resume (h : Inv tr s) (hc : s.coro c = .suspended ops) (hop : op ∈ ops)
    (hstep : OnlyAt op c a s s') (hstored : (s.phase op).Stored)
    (hdone : ∀ o ∈ ops, o ≠ op → s.phase o = .done) (hdefined : s'.undefined = s.undefined)
    (hcoro : s'.coro c = .resumed ops) (hresumes : a.resumes c = true)
    (hcallback : a.callback? op = none) (hphase : s'.phase op = .done)
    (hcustomizer : s'.customizer op = s.customizer op) (hresult : s'.result op = s.result op)
    (hsetters : (s.phase op).setters = []) : Inv (tr ++ [a]) s' := by
  obtain ⟨hsuspended, hzero⟩ := (h.coro c).suspended hc
  refine h.of_onlyAt (hc ▸ hop) hstep hdefined (by rw [hcoro, hc]; rfl) ?_
  rw [CoroInv, hcoro]
  have hready := (hsuspended.op op hop).ready
  rw [hsetters] at hready
  refine ⟨⟨hsuspended.toAwaited.of_onlyAt hstep ?_, fun o ho => ?_⟩, ?_⟩
  · refine (hsuspended.op op hop).move hphase (hstep.begins op) hcallback hresult nofun
      (iff_of_true trivial hstored) ?_ nofun
    rw [hcustomizer]
    exact hready
  · by_cases hne : o = op
    · rw [hne, hphase]
    · rw [hstep.phase o hne]
      exact hdone o ho hne
  · rw [resumes_snoc (hstep.awaits c), hresumes, hzero]
    rfl

/-- New operations are awaited. -/
theorem begin (h : Inv tr s) {setters : ι × ℕ → List Setter} (hrunning : s.coro c = .running)
    (hne : ops ≠ []) (hnodup : ops.Nodup) (habsent : ∀ op ∈ ops, s.phase op = .absent)
    (hready : ∀ op ∈ ops, (Customizer.initial.configured (setters op)).Ready c op.2 ops.length) :
    Inv (tr ++ [.await c ops]) (s.begin c ops setters) := by
  -- The addresses of the new operations were not in use.
  have hnew : ∀ d, ∀ op ∈ (s.coro d).awaited, op ∉ ops := by
    intro d op hop hmem
    obtain ⟨ops', hop', hd | hd⟩ := Coro.mem_awaited hop
    · exact (((h.coro d).suspended hd).1.op op hop').live (habsent op hmem)
    · exact (((h.coro d).resumed hd).1.1.op op hop').live (habsent op hmem)
  refine ⟨h.defined, fun d => ?_, fun op hlive => ?_, fun d e op hd he => ?_⟩
  · by_cases hd : d = c
    · subst hd
      rw [CoroInv, coro_begin_self]
      exact ⟨suspended_begin hne hnodup hready, resumes_awaits (decide_eq_true rfl)⟩
    · refine (h.coro d).frame (coro_begin_of_ne hd) (Function.update_of_ne hd ..)
        (resumes_of_not_about (decide_eq_false (Ne.symm hd)) rfl) fun op hop => ?_
      have hop' := hnew d op hop
      have hbegins : ops.contains op = false := by simpa using hop'
      exact ⟨callbacks_of_not_about hbegins rfl, phase_begin_of_notMem hop',
        if_neg hop', if_neg hop'⟩
  · by_cases hop : op ∈ ops
    · exact ⟨c, by rwa [coro_begin_self]⟩
    · rw [phase_begin_of_notMem hop] at hlive
      obtain ⟨d, hd⟩ := h.awaited op hlive
      have hdc : d ≠ c := by
        rintro rfl
        rw [hrunning] at hd
        cases hd
      exact ⟨d, by rwa [coro_begin_of_ne hdc]⟩
  · by_cases hdc : d = c
    · subst hdc
      by_contra hed
      rw [coro_begin_self] at hd
      rw [coro_begin_of_ne (Ne.symm hed)] at he
      exact hnew e op he hd
    · rw [coro_begin_of_ne hdc] at hd
      by_cases hec : e = c
      · subst hec
        rw [coro_begin_self] at he
        exact absurd he (hnew d op hd)
      · rw [coro_begin_of_ne hec] at he
        exact h.disjoint d e op hd he

/-- The operations of a coroutine are over. -/
theorem finish (h : Inv tr s) (hc : s.coro c = .resumed ops) {results : Results R} :
    Inv (tr ++ [.awaitResume c results]) (s.finish c ops) := by
  have hmem : ∀ d op, op ∈ (s.coro d).awaited → op ∈ ops → d = c :=
    fun d op hd hop => h.disjoint d c op hd (by rwa [hc])
  have hother : ∀ d op, op ∈ ((s.finish c ops).coro d).awaited →
      d ≠ c ∧ op ∈ (s.coro d).awaited := by
    intro d op hd
    by_cases hdc : d = c
    · subst hdc
      rw [coro_finish_self] at hd
      cases hd
    · rw [coro_finish_of_ne hdc] at hd
      exact ⟨hdc, hd⟩
  refine ⟨h.defined, fun d => ?_, fun op hlive => ?_, fun d e op hd he => ?_⟩
  · by_cases hd : d = c
    · subst hd
      rw [CoroInv, coro_finish_self]
      change resumes d _ ≤ 1
      rw [resumes_of_not_about rfl rfl, ((h.coro d).resumed hc).2]
    · refine (h.coro d).frame (coro_finish_of_ne hd) rfl (resumes_of_not_about rfl rfl)
        fun op hop => ?_
      have hop' : op ∉ ops := fun hop' => hd (hmem d op hop hop')
      exact ⟨callbacks_of_not_about rfl rfl, phase_finish_of_notMem hop', rfl, rfl⟩
  · have hop : op ∉ ops := fun hop => hlive (phase_finish_of_mem hop)
    rw [phase_finish_of_notMem hop] at hlive
    obtain ⟨d, hd⟩ := h.awaited op hlive
    have hdc : d ≠ c := by
      rintro rfl
      rw [hc] at hd
      exact hop hd
    exact ⟨d, by rwa [coro_finish_of_ne hdc]⟩
  · exact h.disjoint d e op (hother d op hd).2 (hother e op he).2

/-- An operation that has to count down, with the coroutine that awaits it. -/
theorem of_open (h : Inv tr s) {p : Phase} (hp : s.phase op = p) (hopen : p.Open) :
    ∃ c ops, s.coro c = .suspended ops ∧ op ∈ ops ∧ Suspended tr s c ops ∧
      ((s.customizer op).configured p.setters).Ready c op.2 ops.length := by
  subst hp
  have hne : s.phase op ≠ .absent ∧ s.phase op ≠ .done := by
    constructor <;> intro hp <;> rw [hp] at hopen <;> exact hopen
  obtain ⟨c, ops, hc, hop⟩ := h.exists_suspended hne.1 hne.2
  obtain ⟨hsuspended, -⟩ := (h.coro c).suspended hc
  exact ⟨c, ops, hc, hop, hsuspended, (hsuspended.op op hop).ready⟩

/-- A setter changes the customizer only. -/
theorem set (h : Inv tr s) {f : Setter} {fs : List Setter}
    (hp : s.phase op = .configuring (f :: fs)) :
    Inv (tr ++ [.set op f]) ((s.set op f).setPhase op (.configuring fs)) := by
  obtain ⟨c, ops, hc, hop, -, hready⟩ := h.of_open hp trivial
  have hself : ((s.set op f).setPhase op (.configuring fs)).phase op = .configuring fs :=
    Function.update_self ..
  have hstep : OnlyAt op c (.set op f) s ((s.set op f).setPhase op (.configuring fs)) :=
    ⟨fun o ho => Function.update_of_ne ho .., fun o ho => Function.update_of_ne ho ..,
      fun _ _ => rfl, fun _ _ => rfl, fun _ _ => rfl, fun _ => rfl, fun _ _ => rfl, fun _ => rfl,
      fun _ _ => rfl⟩
  refine h.advance hc hop hstep (by rw [hp]; trivial) (by rw [hself]; trivial) rfl rfl rfl rfl
    fun hinv => hinv.move hself rfl rfl rfl nofun (by rw [hp]; exact Iff.rfl) ?_ nofun
  change (Function.update s.customizer op (f.apply (s.customizer op)) op).configured fs |>.Ready
    _ _ _
  rw [Function.update_self]
  exact hready

/-- Behind the setters the operation is initiated. -/
theorem asyncInitiate (h : Inv tr s) (hp : s.phase op = .configuring []) :
    Inv (tr ++ [.asyncInitiate op]) (s.setPhase op .pending) := by
  obtain ⟨c, ops, hc, hop, -, hready⟩ := h.of_open hp trivial
  have hself : (s.setPhase op .pending).phase op = .pending := Function.update_self ..
  have hstep : OnlyAt op c (.asyncInitiate op) s (s.setPhase op .pending) :=
    ⟨fun o ho => Function.update_of_ne ho .., fun _ _ => rfl, fun _ _ => rfl, fun _ _ => rfl,
      fun _ _ => rfl, fun _ => rfl, fun _ _ => rfl, fun _ => rfl, fun _ _ => rfl⟩
  exact h.advance hc hop hstep (by rw [hp]; trivial) (by rw [hself]; trivial) rfl rfl rfl rfl
    fun hinv => hinv.move hself rfl rfl rfl nofun (by rw [hp]; exact Iff.rfl) hready nofun

/-- The callback writes the result of an operation that is pending. -/
theorem callback (h : Inv tr s) {r : (R op.1).Value} (hp : s.phase op = .pending) :
    Inv (tr ++ [.callback op r]) ((s.write op r).setPhase op .written) := by
  obtain ⟨c, ops, hc, hop, -, hready⟩ := h.of_open hp trivial
  -- The pointer that the setters have left leads to the storage of this operation.
  have hptr : (s.customizer op).resultPtr = some op.2 := hready.resultPtr
  have hself : ((s.write op r).setPhase op .written).phase op = .written := Function.update_self ..
  rw [write_of_own hptr] at hself ⊢
  refine h.advance hc hop ⟨fun o ho => Function.update_of_ne ho .., fun _ _ => rfl,
    fun o ho => Function.update_of_ne ho .., fun _ _ => rfl, fun _ _ => rfl, fun _ => rfl,
    fun o ho => dif_neg (Ne.symm ho), fun _ => rfl, fun _ _ => rfl⟩ (by rw [hp]; trivial)
    (by rw [hself]; trivial) rfl rfl rfl rfl fun hinv => ?_
  exact hinv.callback rfl (dif_pos rfl) rfl (Function.update_self ..) hp hself

/-- A completion that is not the last one counts down and resumes nobody. -/
theorem count (h : Inv tr s) (hp : s.phase op = .written) (hlast : ¬ s.Last op) :
    Inv (tr ++ [.count op]) ((s.countDown op).setPhase op .done) := by
  obtain ⟨c, ops, hc, hop, hsuspended, hready⟩ := h.of_open hp trivial
  -- Only a callback that has a counter may not be the last one.
  have hcount : (s.customizer op).doneCount = some c := by
    refine hready.doneCount.resolve_right fun hnone => hlast fun d hd => ?_
    have hnone' : (s.customizer op).doneCount = none := hnone.1
    rw [hnone'] at hd
    cases hd
  have hne : s.doneCount c ≠ 1 := fun hone => hlast fun d hd => by
    rw [hcount] at hd
    cases hd
    exact hone
  obtain ⟨n, hn, hother, hself⟩ := exists_countDown s op
  rw [hn]
  have hstep : OnlyAt op c (.count op) s ({ s with doneCount := n }.setPhase op .done) :=
    ⟨fun o ho => Function.update_of_ne ho .., fun _ _ => rfl, fun _ _ => rfl,
      fun d hd => hother d (hready.doneCount_ne hd), fun _ _ => rfl, fun _ => rfl, fun _ _ => rfl,
      fun _ => rfl, fun _ _ => rfl⟩
  refine h.of_onlyAt (hc ▸ hop) hstep rfl rfl ?_
  have hc' : ({ s with doneCount := n }.setPhase op .done).coro c = .suspended ops := hc
  rw [CoroInv, hc']
  refine ⟨hsuspended.count hop hstep hp (Function.update_self ..) hne (hself c hcount) ?_, ?_⟩
  · exact (hsuspended.op op hop).move (Function.update_self ..) rfl rfl rfl nofun
      (by rw [hp]; exact Iff.rfl) hready nofun
  · rw [resumes_of_not_about rfl rfl]
    exact ((h.coro c).suspended hc).2

/-- The last completion posts the continuation. -/
theorem post (h : Inv tr s) (hp : s.phase op = .written) (hlast : s.Last op) :
    Inv (tr ++ [.post op])
      ((s.countDown op).setPhase op (.posted (s.customizer op).continuation)) := by
  obtain ⟨c, ops, hc, hop, hsuspended, hready⟩ := h.of_open hp trivial
  have hcontinuation : (s.customizer op).continuation = some c := hready.continuation
  obtain ⟨n, hn, hother, -⟩ := exists_countDown s op
  rw [hn, hcontinuation]
  have hstep : OnlyAt op c (.post op) s
      ({ s with doneCount := n }.setPhase op (.posted (some c))) :=
    ⟨fun o ho => Function.update_of_ne ho .., fun _ _ => rfl, fun _ _ => rfl,
      fun d hd => hother d (hready.doneCount_ne hd), fun _ _ => rfl, fun _ => rfl, fun _ _ => rfl,
      fun _ => rfl, fun _ _ => rfl⟩
  refine h.of_onlyAt (hc ▸ hop) hstep rfl rfl ?_
  have hc' : ({ s with doneCount := n }.setPhase op (.posted (some c))).coro c = .suspended ops :=
    hc
  rw [CoroInv, hc']
  refine ⟨hsuspended.post hop hstep (hsuspended.others_done hop hp hlast)
    (Function.update_self ..) ?_, ?_⟩
  · refine (hsuspended.op op hop).move (Function.update_self ..) rfl rfl rfl nofun
      (by rw [hp]; exact Iff.rfl) hready ?_
    rintro k ⟨⟩
    rfl
  · rw [resumes_of_not_about rfl rfl]
    exact ((h.coro c).suspended hc).2

private theorem resumeLast (h : Inv tr s) (hp : s.phase op = .written) (hlast : s.Last op) :
    Inv (tr ++ [.resume op (s.customizer op).continuation])
      (((s.countDown op).resume (s.customizer op).continuation).setPhase op .done) := by
  obtain ⟨c, ops, hc, hop, hsuspended, hready⟩ := h.of_open hp trivial
  have hcontinuation : (s.customizer op).continuation = some c := hready.continuation
  obtain ⟨n, hn, hother, -⟩ := exists_countDown s op
  have hc' : ({ s with doneCount := n } : State R).coro c = .suspended ops := hc
  rw [hn, hcontinuation, resume_of_suspended hc']
  exact h.resume hc hop ⟨fun o ho => Function.update_of_ne ho .., fun _ _ => rfl, fun _ _ => rfl,
    fun d hd => hother d (hready.doneCount_ne hd), fun d hd => Function.update_of_ne hd ..,
    fun _ => rfl, fun _ _ => rfl, fun _ => rfl,
    fun d hd => decide_eq_false fun hcd => hd (Option.some.inj hcd).symm⟩ (by rw [hp]; trivial)
    (hsuspended.others_done hop hp hlast) rfl (Function.update_self ..) (decide_eq_true rfl) rfl
    (Function.update_self ..) rfl rfl (by rw [hp]; rfl)

/-- The posted continuation is resumed by the executor. -/
theorem resumePosted (h : Inv tr s) {k : Option ℕ} (hp : s.phase op = .posted k) :
    Inv (tr ++ [.resumePosted op k]) ((s.resume k).setPhase op .done) := by
  obtain ⟨c, ops, hc, hop⟩ := h.exists_suspended (by rw [hp]; nofun) (by rw [hp]; nofun)
  obtain ⟨hsuspended, -⟩ := (h.coro c).suspended hc
  obtain rfl := (hsuspended.op op hop).posted k hp
  rw [resume_of_suspended hc]
  exact h.resume hc hop ⟨fun o ho => Function.update_of_ne ho .., fun _ _ => rfl,
    fun _ _ => rfl, fun _ _ => rfl, fun d hd => Function.update_of_ne hd .., fun _ => rfl,
    fun _ _ => rfl, fun _ => rfl,
    fun d hd => decide_eq_false fun hcd => hd (Option.some.inj hcd).symm⟩ (by rw [hp]; trivial)
    (hsuspended.posted op hop _ hp) rfl (Function.update_self ..) (decide_eq_true rfl) rfl
    (Function.update_self ..) rfl rfl (by rw [hp]; rfl)

/-- Every step keeps the invariant. -/
theorem step (h : Inv tr s) (hs : Step s a s') : Inv (tr ++ [a]) s' := by
  cases hs with
  | @await c op hrunning habsent =>
    refine h.begin hrunning (List.cons_ne_nil op []) (List.nodup_singleton op) (fun o ho => ?_)
      fun o _ => ⟨rfl, rfl, .inr ⟨rfl, rfl⟩⟩
    rw [List.mem_singleton.mp ho]
    exact habsent
  | spawn hrunning hne hnodup habsent hready => exact h.begin hrunning hne hnodup habsent hready
  | set hp => exact h.set hp
  | asyncInitiate hp => exact h.asyncInitiate hp
  | callback hp => exact h.callback hp
  | count hp hlast => exact h.count hp hlast
  | post hp hlast => exact h.post hp hlast
  | resume hp hlast => exact h.resumeLast hp hlast
  | resumePosted hp => exact h.resumePosted hp
  | awaitResume hc => exact h.finish hc

end Inv

/-- The account of the operations along a run. -/
theorem inv_run (h : (system R).Run (initial R) tr s) : Inv tr s :=
  LTS.Run.induct (P := Inv) (.initial R) (fun _ _ _ _ _ hi hstep => hi.step hstep) h

end CallbackAwaitable

end TmcExamples
