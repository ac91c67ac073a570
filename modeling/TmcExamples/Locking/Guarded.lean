import Mathlib.Data.Finset.Card
import TmcExamples.Locking.Progress
import TmcExamples.Sync.Primitive
import TmcExamples.Transition.Refinement

/-!
# Sections behind a primitive

The parties of `Locking` take a lock that is a synchronization primitive: a party that comes to a
section awaits it, goes on or suspends by the state that it finds, and gives it back at the end of
the section, by a call that may wake a party that waits. A lock that is released where its owner
suspends can be taken again at once: its owner is then among those that wait for it. A section on
the local state alone needs no lock. Nothing in the steps keeps two parties from being inside a
section at once.

If the primitive is an exclusive lock, it is the number of its owners that its state tells (`Inv`).
Then the parties refine those of `Locking` (`refinement`), so that at most one is inside a section
(`eq_of_inside`), and every run ends as a run of `Locking` does (`endsIn`).
-/

namespace TmcExamples

universe u v w x

namespace Locking

namespace Guarded

open Sync (Lock)

variable {κ : Type x} {ω : Type*} {ι : Type w} {σ : Type u} {ℓ : Type v}

/-- The state of the primitive, the parties that wait for it, those that have been woken and not
yet resumed, and the sections. -/
structure State (κ : Type x) (ι : Type w) (σ : Type u) (ℓ : Type v) where
  prim : κ
  waiting : Finset ι
  woken : Finset ι
  sections : Locking.State ι σ ℓ

/-- The steps of a party: it takes the lock or suspends, it is resumed as its owner, it goes into a
section without the lock, takes a step inside, gives the lock back or leaves. -/
inductive Action (ι : Type w)
  | acquire (p : ι)
  | suspend (p : ι)
  | resume (p : ι)
  | enter (p : ι)
  | act (p : ι)
  | release (p : ι)
  | leave (p : ι)

/-- The party is in front of a section, and does not wait. -/
structure State.At (s : State κ ι σ ℓ) (p : ι) (c : Section σ ℓ) (cs : List (Section σ ℓ)) :
    Prop where
  outside : (s.sections.party p).inside = none
  rest : (s.sections.party p).rest = c :: cs
  notWaiting : p ∉ s.waiting
  notWoken : p ∉ s.woken

variable [DecidableEq ι]

/-- The party goes into its next section. -/
def State.enter (s : State κ ι σ ℓ) (p : ι) (c : Section σ ℓ) (cs : List (Section σ ℓ)) :
    State κ ι σ ℓ :=
  { s with
    sections :=
      { s.sections with
        party := Function.update s.sections.party p
          ⟨(s.sections.party p).loc, some c, cs⟩ } }

/-- The party takes the lock again without having given it back: its next section is one under the
lock, and `again` says so of what is left of its code. -/
def State.relocks (s : State κ ι σ ℓ) (again : List (Section σ ℓ) → Bool) (p : ι) : Bool :=
  match (s.sections.party p).rest with
  | [] => false
  | c :: cs => decide (c.access ≠ .local) && again (c :: cs)

/-- The parties that wait for the lock when the party `p` gives it back. -/
def State.queue (s : State κ ι σ ℓ) (again : List (Section σ ℓ) → Bool) (p : ι) : Finset ι :=
  if s.relocks again p then insert p s.waiting else s.waiting

/-- The steps of the parties. A call that gives the lock back wakes some of those that wait. -/
inductive Step (L : Lock κ ω) (again : List (Section σ ℓ) → Bool) :
    State κ ι σ ℓ → Action ι → State κ ι σ ℓ → Prop
  | acquire {s : State κ ι σ ℓ} {p : ι} {c : Section σ ℓ} {cs : List (Section σ ℓ)} {q : κ}
      (hat : s.At p c cs) (hc : c.access ≠ .local) (hawait : L.prim.await s.prim = some q) :
      Step L again s (.acquire p) { s.enter p c cs with prim := q }
  | suspend {s : State κ ι σ ℓ} {p : ι} {c : Section σ ℓ} {cs : List (Section σ ℓ)}
      (hat : s.At p c cs) (hc : c.access ≠ .local) (hawait : L.prim.await s.prim = none) :
      Step L again s (.suspend p) { s with waiting := insert p s.waiting }
  | resume {s : State κ ι σ ℓ} {p : ι} {c : Section σ ℓ} {cs : List (Section σ ℓ)}
      (hwoken : p ∈ s.woken) (hout : (s.sections.party p).inside = none)
      (hrest : (s.sections.party p).rest = c :: cs) :
      Step L again s (.resume p) { s.enter p c cs with woken := s.woken.erase p }
  | enter {s : State κ ι σ ℓ} {p : ι} {c : Section σ ℓ} {cs : List (Section σ ℓ)}
      (hat : s.At p c cs) (hc : c.access = .local) : Step L again s (.enter p) (s.enter p c cs)
  | act {s : State κ ι σ ℓ} {p : ι} {t : Locking.State ι σ ℓ}
      (h : Locking.Step s.sections (.act p) t) : Step L again s (.act p) { s with sections := t }
  | release {s : State κ ι σ ℓ} {p : ι} {c : Section σ ℓ} {W : Finset ι}
      {t : Locking.State ι σ ℓ} (hin : (s.sections.party p).inside = some c)
      (hc : c.access ≠ .local) (h : Locking.Step s.sections (.leave p) t)
      (hW : W ⊆ s.queue again p)
      (hcard : W.card = (L.prim.call L.release (s.queue again p).card s.prim).1) :
      Step L again s (.release p)
        { prim := (L.prim.call L.release (s.queue again p).card s.prim).2
          waiting := s.queue again p \ W
          woken := s.woken ∪ W
          sections := t }
  | leave {s : State κ ι σ ℓ} {p : ι} {c : Section σ ℓ} {t : Locking.State ι σ ℓ}
      (hin : (s.sections.party p).inside = some c) (hc : c.access = .local)
      (h : Locking.Step s.sections (.leave p) t) :
      Step L again s (.leave p) { s with sections := t }

/-- The parties as a transition system. -/
def system (L : Lock κ ω) (again : List (Section σ ℓ) → Bool) (store : σ) (loc : ι → ℓ)
    (code : ι → List (Section σ ℓ)) : LTS (State κ ι σ ℓ) (Action ι) where
  init := ⟨L.initial, ∅, ∅, start store loc code⟩
  step := Step L again

/-! ### The owners -/

/-- The party is inside a section under the lock. -/
def State.Inside (s : State κ ι σ ℓ) (p : ι) : Prop :=
  ∃ c, (s.sections.party p).inside = some c ∧ c.access ≠ .local

/-- The party owns the lock. -/
def State.Owns (s : State κ ι σ ℓ) (p : ι) : Prop := p ∈ s.woken ∨ s.Inside p

/-- The party is in front of a section under the lock. -/
def State.Before (s : State κ ι σ ℓ) (p : ι) : Prop :=
  (s.sections.party p).inside = none ∧
    ∃ c cs, (s.sections.party p).rest = c :: cs ∧ c.access ≠ .local

/-- The lock is owned by at most one party, and its state tells whether it is. -/
structure Inv (L : Lock κ ω) (owned : κ) (s : State κ ι σ ℓ) : Prop where
  free : (∀ p, ¬ s.Owns p) → s.prim = L.initial ∧ s.waiting = ∅
  owner : ∀ p, s.Owns p → s.prim = owned ∧ ∀ q, s.Owns q → q = p
  before : ∀ p, p ∈ s.waiting ∨ p ∈ s.woken → s.Before p
  disjoint : ∀ p ∈ s.woken, p ∉ s.waiting

variable {L : Lock κ ω} {owned : κ} {again : List (Section σ ℓ) → Bool} {s s' : State κ ι σ ℓ}
  {a : Action ι} {p q : ι} {c : Section σ ℓ} {cs : List (Section σ ℓ)}

omit [DecidableEq ι] in
/-- Who is before a section is not inside of one. -/
theorem State.Before.not_inside (h : s.Before p) : ¬ s.Inside p := by
  rintro ⟨c, hin, -⟩
  rw [h.1] at hin
  cases hin

omit [DecidableEq ι] in
/-- Who still has to await the primitive does not own it. -/
theorem State.At.not_owns (h : s.At p c cs) : ¬ s.Owns p := by
  rintro (hwoken | ⟨c, hin, -⟩)
  · exact h.notWoken hwoken
  · rw [h.outside] at hin
    cases hin

theorem party_enter_self : (s.enter p c cs).sections.party p =
    ⟨(s.sections.party p).loc, some c, cs⟩ := Function.update_self ..

theorem party_enter_of_ne (h : q ≠ p) :
    (s.enter p c cs).sections.party q = s.sections.party q := Function.update_of_ne h ..

theorem inside_enter_self (hc : c.access ≠ .local) : (s.enter p c cs).Inside p :=
  ⟨c, by rw [party_enter_self], hc⟩

theorem inside_enter_of_ne (h : q ≠ p) : (s.enter p c cs).Inside q ↔ s.Inside q := by
  rw [State.Inside, State.Inside, party_enter_of_ne h]

theorem before_enter_of_ne (h : q ≠ p) : (s.enter p c cs).Before q ↔ s.Before q := by
  rw [State.Before, State.Before, party_enter_of_ne h]

/-- Who waits when a party gives the lock back. -/
theorem before_of_mem_queue (hq : q ∈ s.queue again p) :
    q ∈ s.waiting ∨ q = p ∧ ∃ c cs, (s.sections.party p).rest = c :: cs ∧ c.access ≠ .local := by
  unfold State.queue at hq
  split at hq
  · rename_i hrelocks
    refine (Finset.mem_insert.mp hq).symm.imp_right fun hqp => ⟨hqp, ?_⟩
    unfold State.relocks at hrelocks
    split at hrelocks
    · cases hrelocks
    · rename_i c cs hrest
      rw [Bool.and_eq_true, decide_eq_true_eq] at hrelocks
      exact ⟨c, cs, hrest, hrelocks.1⟩
  · exact .inl hq

/-- Those that wait go on waiting, whether or not the party locks again. -/
theorem waiting_subset_queue : s.waiting ⊆ s.queue again p := by
  unfold State.queue
  split
  · exact Finset.subset_insert p s.waiting
  · exact subset_rfl

theorem inv_init (L : Lock κ ω) (owned : κ) (again : List (Section σ ℓ) → Bool) (store : σ)
    (loc : ι → ℓ) (code : ι → List (Section σ ℓ)) :
    Inv L owned (system L again store loc code).init where
  free _ := ⟨rfl, rfl⟩
  owner p hp := by
    rcases hp with hp | ⟨c, hc, -⟩
    · cases hp
    · cases hc
  before p hp := by rcases hp with hp | hp <;> cases hp
  disjoint _ hp := by cases hp

namespace Inv

omit [DecidableEq ι] in
/-- A party that finds the lock free. -/
theorem not_owns_of_await (hL : L.Exclusive owned) (h : Inv L owned s) {x : κ}
    (hawait : L.prim.await s.prim = some x) : (∀ p, ¬ s.Owns p) ∧ x = owned := by
  have hno : ∀ p, ¬ s.Owns p := by
    intro p hp
    rw [(h.owner p hp).1, hL.await_owned] at hawait
    cases hawait
  rw [(h.free hno).1, hL.await_initial] at hawait
  exact ⟨hno, (Option.some.inj hawait).symm⟩

omit [DecidableEq ι] in
/-- A party that has to wait. -/
theorem exists_owner (hL : L.Exclusive owned) (h : Inv L owned s)
    (hawait : L.prim.await s.prim = none) : ∃ p, s.Owns p := by
  by_contra hno
  rw [(h.free (not_exists.mp hno)).1, hL.await_initial] at hawait
  cases hawait

omit [DecidableEq ι] in
/-- Only one party moves, which has no part in the queue, and owns the lock as before. -/
theorem of_party (h : Inv L owned s) {p : ι} (hp : p ∉ s.waiting) (hp' : p ∉ s.woken)
    (hprim : s'.prim = s.prim) (hwaiting : s'.waiting = s.waiting) (hwoken : s'.woken = s.woken)
    (hother : ∀ q, q ≠ p → s'.sections.party q = s.sections.party q)
    (hinside : s'.Inside p ↔ s.Inside p) : Inv L owned s' := by
  have howns : ∀ q, s'.Owns q ↔ s.Owns q := by
    intro q
    unfold State.Owns
    rw [hwoken]
    refine or_congr_right ?_
    by_cases hq : q = p
    · exact hq ▸ hinside
    · rw [State.Inside, State.Inside, hother q hq]
  refine ⟨fun hno => ?_, fun q hq => ?_, fun q hq => ?_, ?_⟩
  · rw [hprim, hwaiting]
    exact h.free fun q hq => hno q ((howns q).mpr hq)
  · rw [hprim]
    obtain ⟨hown, hone⟩ := h.owner q ((howns q).mp hq)
    exact ⟨hown, fun r hr => hone r ((howns r).mp hr)⟩
  · rw [hwaiting, hwoken] at hq
    have hne : q ≠ p := by
      rintro rfl
      exact hq.elim hp hp'
    rw [State.Before, hother q hne]
    exact h.before q hq
  · rw [hwaiting, hwoken]
    exact h.disjoint

/-- A party that finds the lock free goes into its section as the owner. -/
theorem acquire (hL : L.Exclusive owned) (h : Inv L owned s) {x : κ} (hc : c.access ≠ .local)
    (hawait : L.prim.await s.prim = some x) : Inv L owned { s.enter p c cs with prim := x } := by
  obtain ⟨hno, rfl⟩ := h.not_owns_of_await hL hawait
  have honly : ∀ q, (s.enter p c cs).Owns q → q = p := by
    rintro q (hq | hq)
    · exact absurd (.inl hq) (hno q)
    · by_contra hne
      exact hno q (.inr ((inside_enter_of_ne hne).mp hq))
  have hempty : s.waiting = ∅ := (h.free hno).2
  refine ⟨fun hfree => absurd (.inr (inside_enter_self hc)) (hfree p), fun q hq =>
    ⟨rfl, fun r hr => ?_⟩, fun q hq => ?_, h.disjoint⟩
  · rw [honly r hr, honly q hq]
  · rcases hq with hq | hq
    · change q ∈ s.waiting at hq
      rw [hempty] at hq
      cases hq
    · exact absurd (.inl hq) (hno q)

/-- A party that does not find the lock free waits. -/
theorem suspend (hL : L.Exclusive owned) (h : Inv L owned s) (hat : s.At p c cs)
    (hc : c.access ≠ .local) (hawait : L.prim.await s.prim = none) :
    Inv L owned { s with waiting := insert p s.waiting } := by
  obtain ⟨o, ho⟩ := h.exists_owner hL hawait
  refine ⟨fun hno => absurd ho (hno o), h.owner, fun q hq => ?_, fun q hq => ?_⟩
  · rcases hq with hq | hq
    · rcases Finset.mem_insert.mp hq with rfl | hq
      · exact ⟨hat.outside, c, cs, hat.rest, hc⟩
      · exact h.before q (.inl hq)
    · exact h.before q (.inr hq)
  · rw [Finset.mem_insert]
    rintro (rfl | hq')
    · exact hat.notWoken hq
    · exact h.disjoint q hq hq'

/-- A party that has been woken goes into its section. -/
theorem resume (h : Inv L owned s) (hwoken : p ∈ s.woken)
    (hrest : (s.sections.party p).rest = c :: cs) :
    Inv L owned { s.enter p c cs with woken := s.woken.erase p } := by
  obtain ⟨hprim, hone⟩ := h.owner p (.inl hwoken)
  obtain ⟨-, c', cs', hrest', hc⟩ := h.before p (.inr hwoken)
  rw [hrest] at hrest'
  cases hrest'
  have honly : ∀ q, q ∈ s.woken.erase p ∨ (s.enter p c cs).Inside q → q = p := by
    rintro q (hq | hq)
    · exact hone q (.inl (Finset.mem_of_mem_erase hq))
    · by_contra hne
      exact hne (hone q (.inr ((inside_enter_of_ne hne).mp hq)))
  refine ⟨fun hfree => absurd (.inr (inside_enter_self hc)) (hfree p), fun q hq =>
    ⟨hprim, fun r hr => ?_⟩, fun q hq => ?_,
    fun q hq => h.disjoint q (Finset.mem_of_mem_erase hq)⟩
  · rw [honly r hr, honly q hq]
  · have hne : q ≠ p := by
      rintro rfl
      rcases hq with hq | hq
      · exact h.disjoint q hwoken hq
      · exact Finset.notMem_erase q s.woken hq
    exact (before_enter_of_ne hne).mpr (h.before q (hq.imp_right Finset.mem_of_mem_erase))

/-- The owner gives the lock back: nobody owns it any more, or one of the parties that waited. -/
theorem release (hL : L.Exclusive owned) (h : Inv L owned s) {W : Finset ι}
    {t : Locking.State ι σ ℓ} (hin : s.Inside p) (hstep : Locking.Step s.sections (.leave p) t)
    (hW : W ⊆ s.queue again p)
    (hcard : W.card = (L.prim.call L.release (s.queue again p).card s.prim).1) :
    Inv L owned
      { prim := (L.prim.call L.release (s.queue again p).card s.prim).2
        waiting := s.queue again p \ W
        woken := s.woken ∪ W
        sections := t } := by
  obtain ⟨hprim, hone⟩ := h.owner p (.inr hin)
  have hnobody : s.woken = ∅ := by
    refine Finset.eq_empty_of_forall_notMem fun q hq => ?_
    obtain rfl := hone q (.inl hq)
    exact (h.before q (.inr hq)).not_inside hin
  have hleft : t.party p = ⟨(s.sections.party p).loc, none, (s.sections.party p).rest⟩ ∧
      ∀ q, q ≠ p → t.party q = s.sections.party q := by
    cases hstep with
    | leave => exact ⟨Function.update_self .., fun q hq => Function.update_of_ne hq ..⟩
  have hout : ∀ q, ¬ ∃ c, (t.party q).inside = some c ∧ c.access ≠ .local := by
    rintro q ⟨c, hq, hc⟩
    by_cases hne : q = p
    · rw [hne, hleft.1] at hq
      cases hq
    · rw [hleft.2 q hne] at hq
      exact hne (hone q (.inr ⟨c, hq, hc⟩))
  have hbefore : ∀ q ∈ s.queue again p, (t.party q).inside = none ∧
      ∃ c cs, (t.party q).rest = c :: cs ∧ c.access ≠ .local := by
    intro q hq
    rcases before_of_mem_queue hq with hwaiting | ⟨rfl, hnext⟩
    · have hne : q ≠ p := by
        rintro rfl
        exact (h.before q (.inl hwaiting)).not_inside hin
      rw [hleft.2 q hne]
      exact h.before q (.inl hwaiting)
    · rw [hleft.1]
      exact ⟨rfl, hnext⟩
  rw [hprim] at hcard ⊢
  rw [hnobody, Finset.empty_union]
  have howns : ∀ q, q ∈ W ∨ (∃ c, (t.party q).inside = some c ∧ c.access ≠ .local) → q ∈ W :=
    fun q hq => hq.resolve_right (hout q)
  refine ⟨fun hno => ?_, fun q hq => ?_, fun q hq => hbefore q ?_, fun q hq hq' =>
    (Finset.mem_sdiff.mp hq').2 hq⟩
  · -- No party has been woken, so that none waited.
    have hempty : W = ∅ := Finset.eq_empty_of_forall_notMem fun q hq => hno q (.inl hq)
    cases hm : (s.queue again p).card with
    | zero =>
      rw [hL.release_nobody, Finset.card_eq_zero.mp hm, Finset.empty_sdiff]
      exact ⟨rfl, rfl⟩
    | succ m =>
      rw [hm, hL.release_waiter, hempty] at hcard
      cases hcard
  · have hmem := howns q hq
    cases hm : (s.queue again p).card with
    | zero =>
      rw [Finset.card_eq_zero.mp hm] at hW
      cases hW hmem
    | succ m =>
      rw [hm, hL.release_waiter] at hcard
      obtain ⟨x, rfl⟩ := Finset.card_eq_one.mp hcard
      rw [hL.release_waiter]
      refine ⟨rfl, fun r hr => ?_⟩
      rw [Finset.mem_singleton.mp (howns r hr), Finset.mem_singleton.mp hmem]
  · rcases hq with hq | hq
    · exact (Finset.mem_sdiff.mp hq).1
    · exact hW hq

/-- A step inside of a section keeps its access. -/
theorem act (h : Inv L owned s) {t : Locking.State ι σ ℓ}
    (hstep : Locking.Step s.sections (.act p) t) : Inv L owned { s with sections := t } := by
  cases hstep with
  | @act _ c f fs hin hsteps =>
    have hqueue : ¬ (p ∈ s.waiting ∨ p ∈ s.woken) := fun hp => by
      have hout := (h.before p hp).1
      rw [hin] at hout
      cases hout
    refine h.of_party (fun hp => hqueue (.inl hp)) (fun hp => hqueue (.inr hp)) rfl rfl rfl
      (fun q hq => Function.update_of_ne hq ..) ?_
    unfold State.Inside
    dsimp only
    rw [Function.update_self, hin]
    constructor
    · rintro ⟨_, ⟨⟩, hc⟩
      exact ⟨c, rfl, hc⟩
    · rintro ⟨_, ⟨⟩, hc⟩
      exact ⟨c.tail, rfl, hc⟩

/-- A party leaves a section on the local state alone. -/
theorem leave (h : Inv L owned s) {t : Locking.State ι σ ℓ}
    (hin : (s.sections.party p).inside = some c) (hc : c.access = .local)
    (hstep : Locking.Step s.sections (.leave p) t) : Inv L owned { s with sections := t } := by
  cases hstep with
  | leave =>
    have hqueue : ¬ (p ∈ s.waiting ∨ p ∈ s.woken) := fun hp => by
      have hout := (h.before p hp).1
      rw [hin] at hout
      cases hout
    refine h.of_party (fun hp => hqueue (.inl hp)) (fun hp => hqueue (.inr hp)) rfl rfl rfl
      (fun q hq => Function.update_of_ne hq ..) ?_
    unfold State.Inside
    dsimp only
    rw [Function.update_self, hin]
    refine iff_of_false (fun ⟨d, hd, _⟩ => by cases hd) fun ⟨d, hd, hd'⟩ => ?_
    obtain rfl := Option.some.inj hd
    exact hd' hc

/-- A party goes into a section on the local state alone. -/
theorem enter (h : Inv L owned s) (hat : s.At p c cs) (hc : c.access = .local) :
    Inv L owned (s.enter p c cs) := by
  refine h.of_party hat.notWaiting hat.notWoken rfl rfl rfl (fun q hq => party_enter_of_ne hq) ?_
  refine iff_of_false ?_ fun hin => hat.not_owns (.inr hin)
  rintro ⟨d, hd, hd'⟩
  rw [party_enter_self] at hd
  obtain rfl := Option.some.inj hd
  exact hd' hc

/-- Every step keeps the invariant. -/
theorem step (hL : L.Exclusive owned) (h : Inv L owned s) (hs : Step L again s a s') :
    Inv L owned s' := by
  cases hs with
  | acquire _ hc hawait => exact h.acquire hL hc hawait
  | suspend hat hc hawait => exact h.suspend hL hat hc hawait
  | resume hwoken _ hrest => exact h.resume hwoken hrest
  | enter hat hc => exact h.enter hat hc
  | act hstep => exact h.act hstep
  | release hin hc hstep hW hcard => exact h.release hL ⟨_, hin, hc⟩ hstep hW hcard
  | leave hin hc hstep => exact h.leave hin hc hstep

end Inv

/-! ### The refinement -/

/-- The step that the sections take. -/
def Action.toLocking : Action ι → Option (Locking.Action ι)
  | .acquire p | .resume p | .enter p => some (.enter p)
  | .suspend _ => none
  | .act p => some (.act p)
  | .release p | .leave p => some (.leave p)

omit [DecidableEq ι] in
/-- A lock that no other party owns admits every section. -/
theorem admits_of_not_inside {b : Access} (h : ¬ s.Inside q) :
    Admits b (s.sections.party q).access := by
  rw [Party.access]
  cases hq : (s.sections.party q).inside with
  | none => exact admits_none b
  | some d =>
    have hlocal : d.access = .local := by
      by_contra hd
      exact h ⟨d, hq, hd⟩
    rw [Option.map_some, hlocal]
    cases b <;> trivial

/-- Where the sections take a step, it is one of parties under a lock. -/
theorem toLocking_step (hL : L.Exclusive owned) (h : Inv L owned s) (hs : Step L again s a s')
    {b : Locking.Action ι} (hb : a.toLocking = some b) :
    Locking.Step s.sections b s'.sections := by
  cases hs with
  | suspend => cases hb
  | acquire hat hc hawait =>
    cases hb
    obtain ⟨hno, -⟩ := h.not_owns_of_await hL hawait
    exact .enter hat.outside hat.rest fun q => admits_of_not_inside fun hq => hno q (.inr hq)
  | @resume p _ _ hwoken hout hrest =>
    cases hb
    refine .enter hout hrest fun q => admits_of_not_inside fun hq => ?_
    obtain rfl := (h.owner p (.inl hwoken)).2 q (.inr hq)
    exact (h.before q (.inr hwoken)).not_inside hq
  | enter hat hc =>
    cases hb
    refine .enter hat.outside hat.rest fun q => ?_
    rw [hc]
    trivial
  | act hstep =>
    cases hb
    exact hstep
  | release _ _ hstep | leave _ _ hstep =>
    cases hb
    exact hstep

variable {store : σ} {loc : ι → ℓ} {code : ι → List (Section σ ℓ)}

/-- **Exclusion.** Parties behind an exclusive lock refine parties under a lock. -/
def refinement (hL : L.Exclusive owned) :
    ((system L again store loc code).restrict (Inv L owned)
      (inv_init L owned again store loc code)).Refinement (Locking.system store loc code) where
  state s := s.1.sections
  action := Action.toLocking
  init := rfl
  hidden {s a s'} hs ha := by
    obtain ⟨s', hs'⟩ := s'
    cases hs with
    | suspend => rfl
    | _ => cases ha
  visible {s a s' b} hs hb := toLocking_step hL s.2 hs hb

theorem inv_of_reachable (hL : L.Exclusive owned)
    (h : (system L again store loc code).Reachable s) :
    Inv L owned s :=
  h.induct (inv_init L owned again store loc code) fun _ _ _ _ ih hs => ih.step hL hs

/-- The sections of a reachable state are reachable under a lock. -/
theorem sections_reachable (hL : L.Exclusive owned)
    (h : (system L again store loc code).Reachable s) :
    (Locking.system store loc code).Reachable s.sections := by
  obtain ⟨tr, hrun⟩ := h
  obtain ⟨hinv, hrun'⟩ := hrun.restrict (inv_init L owned again store loc code)
    fun _ _ _ hi hs => hi.step hL hs
  exact ((refinement hL).run hrun').reachable

/-- At most one party is inside a section under the lock. -/
theorem eq_of_inside (hL : L.Exclusive owned) (h : (system L again store loc code).Reachable s)
    (hp : s.Inside p) (hq : s.Inside q) : p = q :=
  ((inv_of_reachable hL h).owner q (.inr hq)).2 p (.inr hp)

/-! ### Progress -/

/-- A party inside a section is not held up. -/
theorem enabled_of_inside (hL : L.Exclusive owned) (h : Inv L owned s)
    (hin : (s.sections.party p).inside = some c) : (system L again store loc code).Enabled s := by
  cases hsteps : c.steps with
  | cons f fs => exact ⟨_, _, .act (.act hin hsteps)⟩
  | nil =>
    by_cases hc : c.access = .local
    · exact ⟨_, _, .leave hin hc (.leave hin hsteps)⟩
    · have hprim := (h.owner p (.inr ⟨c, hin, hc⟩)).1
      -- The call wakes as many parties as there are, up to one.
      obtain ⟨W, hW, hcard⟩ : ∃ W ⊆ s.queue again p,
          W.card = (L.prim.call L.release (s.queue again p).card s.prim).1 := by
        refine Finset.exists_subset_card_eq ?_
        rw [hprim]
        cases hm : (s.queue again p).card with
        | zero => rw [hL.release_nobody]
        | succ m =>
          rw [hL.release_waiter]
          exact Nat.le_add_left 1 m
      exact ⟨_, _, .release hin hc (.leave hin hsteps) hW hcard⟩

/-- **No deadlock.** -/
theorem enabled_of_not_finished (hL : L.Exclusive owned) (h : Inv L owned s)
    (hfin : ¬ s.sections.Finished) : (system L again store loc code).Enabled s := by
  by_cases hin : ∃ p c, (s.sections.party p).inside = some c
  · obtain ⟨p, c, hin⟩ := hin
    exact enabled_of_inside hL h hin
  have hout : ∀ p, (s.sections.party p).inside = none := fun p =>
    Option.eq_none_iff_forall_ne_some.mpr fun c hc => hin ⟨p, c, hc⟩
  by_cases hwoken : ∃ p, p ∈ s.woken
  · obtain ⟨p, hp⟩ := hwoken
    obtain ⟨-, c, cs, hrest, -⟩ := h.before p (.inr hp)
    exact ⟨_, _, .resume hp (hout p) hrest⟩
  · -- Nobody owns the lock, so that nobody waits, and it is free.
    obtain ⟨hprim, hempty⟩ := h.free fun p hp => by
      rcases hp with hp | ⟨c, hc, -⟩
      · exact hwoken ⟨p, hp⟩
      · exact hin ⟨p, c, hc⟩
    obtain ⟨p, hp⟩ := not_forall.mp hfin
    obtain ⟨c, cs, hrest⟩ := List.exists_cons_of_ne_nil fun hrest => hp ⟨hout p, hrest⟩
    have hat : s.At p c cs :=
      ⟨hout p, hrest, by rw [hempty]; exact Finset.notMem_empty p, fun hp => hwoken ⟨p, hp⟩⟩
    by_cases hc : c.access = .local
    · exact ⟨_, _, .enter hat hc⟩
    · refine ⟨_, _, .acquire (q := owned) hat hc ?_⟩
      rw [hprim]
      exact hL.await_initial

/-- How far a party is from going on. -/
def State.distance (s : State κ ι σ ℓ) (p : ι) : ℕ :=
  if p ∈ s.woken then 0 else if p ∈ s.waiting then 1 else 2

/-- The rank of a state: the steps of the sections that are left, each worth more than a wakeup. -/
def State.rank [Fintype ι] (s : State κ ι σ ℓ) : ℕ :=
  3 * ∑ p, (s.sections.party p).work + ∑ p, s.distance p

/-- A party has at most two moves to make before it goes on: to wait, and to be woken. -/
theorem distance_le_two (s : State κ ι σ ℓ) (p : ι) : s.distance p ≤ 2 := by
  unfold State.distance
  split
  · exact Nat.zero_le 2
  · split
    · exact Nat.le_succ 1
    · exact le_rfl

/-- A party that stays woken, or waits on or is woken, gets no further away. -/
theorem distance_le (hwoken : q ∈ s.woken → q ∈ s'.woken)
    (hwaiting : q ∈ s.waiting → q ∈ s'.waiting ∨ q ∈ s'.woken) : s'.distance q ≤ s.distance q := by
  unfold State.distance
  split
  · exact Nat.zero_le _
  · rename_i hq
    rw [if_neg fun hw => hq (hwoken hw)]
    split
    · split
      · exact le_rfl
      · exact Nat.le_succ 1
    · rename_i hq'
      rw [if_neg fun hw => (hwaiting hw).elim hq' hq]

/-- A step of the sections that takes nobody further away than the party that is resumed. -/
theorem rank_lt_of_sections [Fintype ι] {b : Locking.Action ι}
    (hstep : Locking.Step s.sections b s'.sections)
    (hdistance : ∑ p, s'.distance p ≤ ∑ p, s.distance p + 2) : s'.rank < s.rank := by
  have hlt := Locking.rank_step hstep
  unfold State.rank
  omega

/-- A party that suspends comes closer. -/
theorem rank_suspend [Fintype ι] (hat : s.At p c cs) :
    ({ s with waiting := insert p s.waiting } : State κ ι σ ℓ).rank < s.rank := by
  refine Nat.add_lt_add_left (Finset.sum_lt_sum (fun q _ => ?_) ⟨p, Finset.mem_univ p, ?_⟩) _
  · exact distance_le id fun hq => .inl (Finset.mem_insert_of_mem hq)
  · unfold State.distance
    dsimp only
    rw [if_neg hat.notWoken, if_neg hat.notWoken, if_neg hat.notWaiting,
      if_pos (Finset.mem_insert_self p s.waiting)]
    exact Nat.one_lt_two

/-- Only the party that is resumed gets further away. -/
theorem sum_distance_resume [Fintype ι] :
    ∑ q, ({ s.enter p c cs with woken := s.woken.erase p } : State κ ι σ ℓ).distance q ≤
      ∑ q, s.distance q + 2 := by
  have hsame : ∀ q ∈ Finset.univ, q ≠ p →
      ({ s.enter p c cs with woken := s.woken.erase p } : State κ ι σ ℓ).distance q =
        s.distance q := by
    intro q _ hq
    unfold State.distance
    simp only [Finset.mem_erase, ne_eq, hq, not_false_eq_true, true_and]
    rfl
  have hsum := sum_add_eq_of_eq_off (Finset.mem_univ p) hsame
  have hle := distance_le_two ({ s.enter p c cs with woken := s.woken.erase p } : State κ ι σ ℓ) p
  omega

/-- Every step decreases the rank. -/
theorem rank_step [Fintype ι] (hL : L.Exclusive owned) (h : Inv L owned s)
    (hs : Step L again s a s') : s'.rank < s.rank := by
  have hsections {b : Locking.Action ι} (hb : a.toLocking = some b) := toLocking_step hL h hs hb
  cases hs with
  | acquire | enter | act | leave =>
    exact rank_lt_of_sections (hsections rfl) (Nat.le_add_right _ _)
  | suspend hat => exact rank_suspend hat
  | resume => exact rank_lt_of_sections (hsections rfl) sum_distance_resume
  | @release p c W t =>
    refine rank_lt_of_sections (hsections rfl) (Nat.le_add_right_of_le ?_)
    refine Finset.sum_le_sum fun q _ => ?_
    refine distance_le (fun hq => Finset.mem_union_left _ hq) fun hq => ?_
    by_cases hW : q ∈ W
    · exact .inr (Finset.mem_union_right _ hW)
    · exact .inl (Finset.mem_sdiff.mpr ⟨waiting_subset_queue hq, hW⟩)

/-- The steps of the sections that are left, and the ways to them, bound the run. -/
theorem system_terminating [Fintype ι] (hL : L.Exclusive owned)
    (again : List (Section σ ℓ) → Bool) (store : σ) (loc : ι → ℓ)
    (code : ι → List (Section σ ℓ)) : (system L again store loc code).Terminating :=
  LTS.terminating_of_rank State.rank fun _ _ _ hr hs => rank_step hL (inv_of_reachable hL hr) hs

/-- The parties have come to their ends, and the lock is free again. -/
def State.Finished (s : State κ ι σ ℓ) (L : Lock κ ω) : Prop :=
  s.sections.Finished ∧ s.prim = L.initial

/-- Every run ends, with all parties at their ends and the lock free again, and what holds at the
ends of the runs under a lock holds of it. -/
theorem endsIn [Fintype ι] (hL : L.Exclusive owned) {P : Locking.State ι σ ℓ → Prop}
    (h : ∀ x, (Locking.system store loc code).Reachable x → x.Finished → P x) :
    (system L again store loc code).EndsIn fun s => s.Finished L ∧ P s.sections := by
  refine ⟨system_terminating hL again store loc code, fun s hr hend => ?_⟩
  have hinv := inv_of_reachable hL hr
  have hfin : s.sections.Finished := of_not_not (mt (enabled_of_not_finished hL hinv) hend)
  refine ⟨⟨hfin, (hinv.free fun p hp => ?_).1⟩, h s.sections (sections_reachable hL hr) hfin⟩
  rcases hp with hp | ⟨c, hc, -⟩
  · obtain ⟨-, c, cs, hrest, -⟩ := hinv.before p (.inr hp)
    rw [(hfin p).2] at hrest
    cases hrest
  · rw [(hfin p).1] at hc
    cases hc

/-- Every run ends with all parties at their ends, the lock free again and `P` of the sections, and
no two parties are ever inside a section under the lock. -/
structure Protects (T : LTS (State κ ι σ ℓ) (Action ι)) (L : Lock κ ω)
    (P : Locking.State ι σ ℓ → Prop) : Prop where
  endsIn : T.EndsIn fun s => s.Finished L ∧ P s.sections
  exclusive : ∀ s, T.Reachable s → ∀ p q, s.Inside p → s.Inside q → p = q

/-- What holds at the ends of the runs under a lock holds behind an exclusive lock. -/
theorem protects [Fintype ι] (hL : L.Exclusive owned) {P : Locking.State ι σ ℓ → Prop}
    (h : ∀ x, (Locking.system store loc code).Reachable x → x.Finished → P x) :
    Protects (system L again store loc code) L P :=
  ⟨endsIn hL h, fun _ hr _ _ hp hq => eq_of_inside hL hr hp hq⟩

end Guarded

end Locking

end TmcExamples
