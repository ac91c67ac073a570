import TmcExamples.Locking.Sections

/-!
# Sections one after the other

`serial order s` executes whole sections: for each party of `order` the next one of its
sections. Every run of the small steps agrees with the serial execution in the order in which
the sections were entered (`completes_of_run`): each section that is under way has only to be
completed. At the end of a run nothing is under way, and the two states are the same
(`eq_serial_of_finished`). `serial_induct` is the rule by which an invariant of whole sections is
an invariant of the runs, and `total_of_finished` the one for a quantity to which every section
adds its own amount.
-/

namespace TmcExamples

universe u v w

namespace Locking

variable {σ : Type u} {ℓ : Type v} {ι : Type w} [DecidableEq ι]

/-- The next section of the party `p` as one step. -/
def serialStep (s : State ι σ ℓ) (p : ι) : State ι σ ℓ :=
  match (s.party p).rest with
  | [] => s
  | c :: cs =>
    { store := (c.run (s.store, (s.party p).loc)).1
      party := Function.update s.party p ⟨(c.run (s.store, (s.party p).loc)).2, none, cs⟩ }

/-- The sections of the parties `order`, one after the other. -/
def serial (order : List ι) (s : State ι σ ℓ) : State ι σ ℓ := order.foldl serialStep s

/-- The parties in the order in which they entered their sections. -/
def entries (tr : List (Action ι)) : List ι := tr.filterMap Action.entered

/-- One party runs its next section as a whole. -/
theorem serialStep_of_rest {s : State ι σ ℓ} {p : ι} {c : Section σ ℓ} {cs : List (Section σ ℓ)}
    (h : (s.party p).rest = c :: cs) :
    serialStep s p =
      { store := (c.run (s.store, (s.party p).loc)).1
        party := Function.update s.party p
          ⟨(c.run (s.store, (s.party p).loc)).2, none, cs⟩ } := by
  rw [serialStep, h]

/-- One section more at the end of a serial run. -/
theorem serial_concat (order : List ι) (p : ι) (s : State ι σ ℓ) :
    serial (order ++ [p]) s = serialStep (serial order s) p := by
  rw [serial, List.foldl_append]
  rfl

omit [DecidableEq ι] in
@[simp] theorem entries_enter (tr : List (Action ι)) (p : ι) :
    entries (tr ++ [.enter p]) = entries tr ++ [p] := by
  rw [entries, List.filterMap_append]
  rfl

omit [DecidableEq ι] in
@[simp] theorem entries_act (tr : List (Action ι)) (p : ι) :
    entries (tr ++ [.act p]) = entries tr := by
  rw [entries, List.filterMap_append]
  exact List.append_nil _

omit [DecidableEq ι] in
@[simp] theorem entries_leave (tr : List (Action ι)) (p : ι) :
    entries (tr ++ [.leave p]) = entries tr := by
  rw [entries, List.filterMap_append]
  exact List.append_nil _

/-! ### Completing the sections under way -/

/-- `t` is the state `s` with every section under way completed. -/
structure Completes (s t : State ι σ ℓ) : Prop where
  party : ∀ p, t.party p = ⟨((s.party p).complete s.store).2, none, (s.party p).rest⟩
  writer : ∀ p, (s.party p).access = some .write → t.store = ((s.party p).complete s.store).1
  free : (∀ p, (s.party p).access ≠ some .write) → t.store = s.store

namespace Party

omit [DecidableEq ι] in
/-- Outside of its sections a party has nothing to complete. -/
theorem complete_of_outside {p : Party σ ℓ} (h : p.inside = none) (s : σ) :
    p.complete s = (s, p.loc) := by
  rw [complete, h]

/-- Inside, it has to complete the rest of its section. -/
theorem complete_of_inside {p : Party σ ℓ} {c : Section σ ℓ} (h : p.inside = some c) (s : σ) :
    p.complete s = c.run (s, p.loc) := by
  rw [complete, h]

/-- A party that a writer admits completes in the same way with every store. -/
theorem complete_of_admits {p : Party σ ℓ} (h : Admits .write p.access) (s t : σ) :
    (p.complete s).2 = (p.complete t).2 := by
  cases hin : p.inside with
  | none => rw [complete_of_outside hin, complete_of_outside hin]
  | some c =>
    rw [complete_of_inside hin, complete_of_inside hin]
    rw [access, hin, Option.map_some] at h
    refine Section.run_local ?_ s t p.loc
    cases hc : c.access with
    | «local» => rfl
    | read | write => exact (hc ▸ h).elim

end Party

variable {s s' t : State ι σ ℓ} {p : ι} {c : Section σ ℓ}

omit [DecidableEq ι] in
/-- Besides a section that is not local there is no writer. -/
private theorem not_writer_of_admits (h : Admits c.access (s.party p).access)
    (hc : c.access ≠ .local) : (s.party p).access ≠ some .write := by
  intro hp
  rw [hp] at h
  cases ha : c.access with
  | «local» => exact hc ha
  | read | write => exact (ha ▸ h).elim

omit [DecidableEq ι] in
/-- A section that the lock admits ends in the same local state from the completed store. -/
private theorem Completes.run_admitted (h : Completes s t)
    (hadmits : ∀ q, Admits c.access (s.party q).access) (l : ℓ) :
    (c.run (t.store, l)).2 = (c.run (s.store, l)).2 := by
  by_cases hc : c.access = .local
  · exact Section.run_local hc _ _ l
  · rw [h.free fun q => not_writer_of_admits (hadmits q) hc]

private theorem Completes.enter (h : Completes s t) {cs : List (Section σ ℓ)}
    (hout : (s.party p).inside = none) (hrest : (s.party p).rest = c :: cs)
    (hadmits : ∀ q, Admits c.access (s.party q).access) :
    Completes { s with party := Function.update s.party p ⟨(s.party p).loc, some c, cs⟩ }
      (serialStep t p) := by
  have htp := h.party p
  rw [Party.complete_of_outside hout, hrest] at htp
  have hstep := serialStep_of_rest (s := t) (p := p) (congrArg Party.rest htp)
  rw [congrArg Party.loc htp] at hstep
  rw [hstep]
  refine ⟨fun q => ?_, fun q hq => ?_, fun hnone => ?_⟩
  · by_cases hqp : q = p
    · subst hqp
      simp only [Function.update_self, Party.complete, h.run_admitted hadmits]
    · simp only [Function.update_of_ne hqp]
      exact h.party q
  · by_cases hqp : q = p
    · subst hqp
      simp only [Function.update_self, Party.access, Option.map_some, Option.some.injEq] at hq
      have hstore := h.free fun r => not_writer_of_admits (hadmits r) (by rw [hq]; decide)
      simp only [Function.update_self, Party.complete, hstore]
    · simp only [Function.update_of_ne hqp] at hq ⊢
      -- Beside a writer only a local section is admitted.
      have hc : c.access ≠ .write := fun hc => by
        have hadmit := hadmits q
        rw [hc, hq] at hadmit
        exact hadmit
      rw [Section.run_store hc]
      exact h.writer q hq
  · have hc : c.access ≠ .write := fun hc => hnone p (by
      simp only [Function.update_self, Party.access, Option.map_some, hc])
    rw [Section.run_store hc]
    refine h.free fun q => ?_
    by_cases hqp : q = p
    · rw [hqp, Party.access, hout]
      exact (Option.some_ne_none _).symm
    · have hq := hnone q
      simpa only [Function.update_of_ne hqp] using hq

private theorem Completes.act (h : Completes s t) (hexcl : Exclusive s.party)
    {f : σ × ℓ → σ × ℓ} {fs : List (σ × ℓ → σ × ℓ)} (hin : (s.party p).inside = some c)
    (hsteps : c.steps = f :: fs) :
    Completes
      { store := (f (s.store, (s.party p).loc)).1
        party := Function.update s.party p
          ⟨(f (s.store, (s.party p).loc)).2, some c.tail, (s.party p).rest⟩ } t := by
  have haccess : (s.party p).access = some c.access := by rw [Party.access, hin, Option.map_some]
  have hcomplete : c.tail.run (f (s.store, (s.party p).loc)) = (s.party p).complete s.store := by
    rw [Section.run_tail hsteps, Party.complete_of_inside hin]
  -- The step of a section that does not write keeps the store, and beside a writer there are
  -- only local sections.
  have hstore : c.access ≠ .write → (f (s.store, (s.party p).loc)).1 = s.store := fun hc =>
    c.keeps hc f (hsteps ▸ List.mem_cons_self) _
  have hother : ∀ q, q ≠ p → ((s.party q).complete (f (s.store, (s.party p).loc)).1).2 =
      ((s.party q).complete s.store).2 := by
    intro q hq
    by_cases hc : c.access = .write
    · exact Party.complete_of_admits (hexcl p q .write hq.symm (haccess.trans (hc ▸ rfl))) _ _
    · rw [hstore hc]
  refine ⟨fun q => ?_, fun q hq => ?_, fun hnone => ?_⟩
  · by_cases hqp : q = p
    · subst hqp
      simp only [Function.update_self, Party.complete]
      rw [h.party q, ← hcomplete]
    · simp only [Function.update_of_ne hqp, hother q hqp]
      exact h.party q
  · by_cases hqp : q = p
    · subst hqp
      simp only [Function.update_self, Party.access, Option.map_some, Option.some.injEq] at hq
      simp only [Function.update_self, Party.complete]
      rw [h.writer q (haccess.trans (congrArg some hq)), ← hcomplete]
    · simp only [Function.update_of_ne hqp] at hq ⊢
      have hc : c.access ≠ .write := by
        intro hc
        have hadmits := hexcl p q c.access (Ne.symm hqp) haccess
        rw [hc, hq] at hadmits
        exact hadmits
      rw [hstore hc]
      exact h.writer q hq
  · have hc : c.access ≠ .write := fun hc => hnone p (by
      simp only [Function.update_self, Party.access, Option.map_some]
      exact congrArg some hc)
    refine (h.free fun q => ?_).trans (hstore hc).symm
    by_cases hqp : q = p
    · rw [hqp, haccess]
      exact fun heq => hc (Option.some.inj heq)
    · have hq := hnone q
      simpa only [Function.update_of_ne hqp] using hq

private theorem Completes.leave (h : Completes s t) (hin : (s.party p).inside = some c)
    (hsteps : c.steps = []) :
    Completes
      { s with party := Function.update s.party p ⟨(s.party p).loc, none, (s.party p).rest⟩ }
      t := by
  have hcomplete : (s.party p).complete s.store = (s.store, (s.party p).loc) := by
    rw [Party.complete_of_inside hin, Section.run_of_steps_eq_nil hsteps]
  refine ⟨fun q => ?_, fun q hq => ?_, fun hnone => ?_⟩
  · by_cases hqp : q = p
    · subst hqp
      simp only [Function.update_self, Party.complete]
      rw [h.party q, hcomplete]
    · simp only [Function.update_of_ne hqp]
      exact h.party q
  · by_cases hqp : q = p
    · subst hqp
      simp only [Function.update_self, Party.access, Option.map_none] at hq
      cases hq
    · simp only [Function.update_of_ne hqp] at hq ⊢
      exact h.writer q hq
  · by_cases hp : (s.party p).access = some .write
    · rw [h.writer p hp, hcomplete]
    · refine h.free fun q => ?_
      by_cases hqp : q = p
      · rwa [hqp]
      · have hq := hnone q
        simpa only [Function.update_of_ne hqp] using hq

section Runs

variable {store : σ} {loc : ι → ℓ} {code : ι → List (Section σ ℓ)} {tr : List (Action ι)}

theorem exclusive_of_reachable (h : (system store loc code).Reachable s) : Exclusive s.party := by
  refine h.induct (P := fun s => Exclusive s.party) ?_ fun _ _ _ _ ih hs => exclusive_step ih hs
  intro p q a _ ha
  cases ha

/-- **Serializability.** A run in small steps is under way to where the sections lead that have
been entered, executed whole and one after the other in the order of their entries. -/
theorem completes_of_run (h : (system store loc code).Run (start store loc code) tr s) :
    Completes s (serial (entries tr) (start store loc code)) := by
  refine LTS.Run.induct (T := system store loc code)
    (P := fun tr s => Completes s (serial (entries tr) (start store loc code))) ?_ ?_ h
  · refine ⟨fun _ => rfl, fun _ hp => ?_, fun _ => rfl⟩
    cases hp
  · intro tr s a s' hr ih hs
    cases hs with
    | enter hout hrest hadmits =>
      rw [entries_enter, serial_concat]
      exact ih.enter hout hrest hadmits
    | act hin hsteps =>
      rw [entries_act]
      exact ih.act (exclusive_of_reachable hr.reachable) hin hsteps
    | leave hin hsteps =>
      rw [entries_leave]
      exact ih.leave hin hsteps

/-- At the end of a run the state is the one of the serial execution. -/
theorem eq_serial_of_finished (h : (system store loc code).Run (start store loc code) tr s)
    (hfin : s.Finished) : s = serial (entries tr) (start store loc code) := by
  have hcompletes := completes_of_run h
  generalize serial (entries tr) (start store loc code) = t at hcompletes
  have hstore : t.store = s.store := hcompletes.free fun p hp => by
    rw [Party.access, (hfin p).1] at hp
    cases hp
  have hparty : ∀ p, t.party p = s.party p := by
    intro p
    rw [hcompletes.party p, Party.complete_of_outside (hfin p).1, ← (hfin p).1]
  obtain ⟨store, party⟩ := t
  obtain rfl : store = s.store := hstore
  obtain rfl : party = s.party := funext hparty
  rfl

/-- **Invariants of whole sections** hold at the end of every run. -/
theorem serial_induct {P : State ι σ ℓ → Prop} {x : State ι σ ℓ} (h0 : P x)
    (hs : ∀ s p c cs, P s → (s.party p).rest = c :: cs →
      P { store := (c.run (s.store, (s.party p).loc)).1
          party := Function.update s.party p ⟨(c.run (s.store, (s.party p).loc)).2, none, cs⟩ })
    (order : List ι) : P (serial order x) := by
  induction order using List.reverseRecOn with
  | nil => exact h0
  | append_singleton order p ih =>
    rw [serial_concat]
    cases hrest : ((serial order x).party p).rest with
    | nil => rwa [serialStep, hrest]
    | cons c cs =>
      rw [serialStep_of_rest hrest]
      exact hs _ p c cs ih hrest

/-- A section that keeps the condition `I` on the store and adds `m` to the quantity `μ`. -/
def Section.Adds {M : Type*} [Add M] (I : σ → Prop) (μ : σ → M) (m : M) (c : Section σ ℓ) : Prop :=
  ∀ s l, I s → I (c.run (s, l)).1 ∧ μ (c.run (s, l)).1 = μ s + m

/-- **Totals.** Where each section adds its own amount to a quantity, all of them add their total,
in whatever order they are executed. -/
theorem total_of_finished {M : Type*} [AddCancelCommMonoid M] [Fintype ι] {I : σ → Prop} {μ : σ → M}
    {amount : Section σ ℓ → M} (hcode : ∀ p, ∀ c ∈ code p, c.Adds I μ (amount c)) (h0 : I store)
    (h : (system store loc code).Run (start store loc code) tr s) (hfin : s.Finished) :
    I s.store ∧ μ s.store = μ store + ∑ p, ((code p).map amount).sum := by
  have hserial := serial_induct (x := start store loc code)
    (P := fun t => (∀ p, ∀ c ∈ (t.party p).rest, c.Adds I μ (amount c)) ∧ I t.store ∧
      μ t.store + ∑ p, ((t.party p).rest.map amount).sum = μ store + ∑ p, ((code p).map amount).sum)
    ⟨hcode, h0, rfl⟩ ?_ (entries tr)
  · rw [← eq_serial_of_finished h hfin] at hserial
    obtain ⟨-, hI, htotal⟩ := hserial
    refine ⟨hI, htotal ▸ ?_⟩
    simp only [(hfin _).2, List.map_nil, List.sum_nil, Finset.sum_const_zero, add_zero]
  · rintro t p c cs ⟨hadds, hI, htotal⟩ hrest
    obtain ⟨hI', hμ⟩ := hadds p c (hrest ▸ List.mem_cons_self) t.store (t.party p).loc hI
    refine ⟨fun q => ?_, hI', ?_⟩
    · refine forall_update (P := fun _ x => ∀ c ∈ Party.rest x, c.Adds I μ (amount c)) hadds ?_ q
      exact fun c' hc' => hadds p c' (hrest ▸ List.mem_cons_of_mem c hc')
    · have hsum := sum_update_add (Finset.mem_univ p) t.party
        ⟨(c.run (t.store, (t.party p).loc)).2, none, cs⟩ fun x => (x.rest.map amount).sum
      rw [hrest, List.map_cons, List.sum_cons, ← add_assoc] at hsum
      rw [← htotal, ← add_right_cancel hsum, hμ, add_assoc, add_comm (amount c)]

end Runs

end Locking

end TmcExamples
