import TmcExamples.Transition.System
import Mathlib.Logic.Function.Basic

/-!
# The coroutines of `external_coro.hpp`

A coroutine body is a tree of the steps it takes between its calls (`Body`): it awaits other
coroutines, goes on with what they return, and returns. The machine keeps one frame for each
coroutine that has been called, with its promise, and with the awaiter object of the `co_await`
that it is suspended in. Control is at one coroutine, or back at the call of `resume()` that has
started the nesting.

* `await_suspend` of an awaiter stores the continuation in the promise of the awaited coroutine
  and transfers to it.
* `final_suspend` of `external_coro<Result>` transfers to the continuation. That of
  `external_coro<void>` never suspends, so that the frame is destroyed and control returns.
* `await_resume` destroys the frame of the awaited coroutine.

Resuming a coroutine that is not suspended, or destroyed, is undefined, as are destroying such a
coroutine and returning a value without a place to put it. Of `tmc::task`, which is not part of
the repository, only this is used: it is awaited and awaits as `external_coro<Result>` does, and
the result of the one that is posted is put into a promise.
-/

namespace TmcExamples

namespace ExternalCoro

/-- The types of coroutines: `external_coro<Result>`, `external_coro<void>` and
`tmc::task<Result>`. -/
inductive CoroType
  | external
  | externalVoid
  | task
  deriving DecidableEq, Repr

namespace CoroType

variable {V : Type}

/-- The type of a `co_await` of a coroutine. -/
abbrev Result (V : Type) : CoroType → Type
  | .externalVoid => Unit
  | .external | .task => V

/-- The value of a `co_await`, from the `result` of the awaiter. -/
def get : (c : CoroType) → V → c.Result V
  | .externalVoid, _ => ()
  | .external, v => v
  | .task, v => v

end CoroType

/-- The body of a coroutine, with results in `V`. A coroutine without a result ignores the
value that it returns. -/
inductive Body (V : Type)
  | coReturn (value : V)
  | setValue (value : V) (rest : Body V)
  | coAwait (type : CoroType) (child : Body V) (rest : type.Result V → Body V)

/-- The awaiter object of a `co_await`. -/
structure Awaiter (V : Type) where
  type : CoroType
  handle : ℕ
  result : V

/-- The points of a coroutine: suspended initially, running, suspended in a `co_await`, resumed
from it, at the final suspend point, suspended there, and destroyed. -/
inductive Point (V : Type)
  | initialSuspend (body : Body V)
  | active (body : Body V)
  | awaiting (aw : Awaiter V) (rest : aw.type.Result V → Body V)
  | awaitResume (aw : Awaiter V) (rest : aw.type.Result V → Body V)
  | finalSuspend
  | suspended
  | destroyed

/-- The coroutine is suspended in a `co_await`. -/
def Point.Awaiting {V : Type} : Point V → Prop
  | .awaiting _ _ => True
  | _ => False

/-- A coroutine frame with the members of its promise. `resultPtr` is the frame that holds the
awaiter whose `result` it points to. -/
structure Frame (V : Type) where
  type : CoroType
  point : Point V
  continuation : Option ℕ
  resultPtr : Option ℕ

/-- Where control is: at a coroutine, back at the caller of `resume()`, or nowhere. -/
inductive Control
  | running (f : ℕ)
  | returned
  | undefined
  deriving DecidableEq, Repr

/-- The frames, of which those below `next` have been created, and the values that have been
put into a `std::promise`. -/
structure State (V : Type) where
  frame : ℕ → Frame V
  next : ℕ
  control : Control
  promised : List V

/-- The steps of the coroutine that has control. `transfer` is the symmetric transfer of
`final_suspend` to the continuation. -/
inductive Action
  | coAwait (outer inner : ℕ)
  | setValue (f : ℕ)
  | coReturn (f : ℕ)
  | transfer (ending : ℕ) (continuation : Option ℕ)
  | destroy (f : ℕ)
  deriving DecidableEq, Repr

namespace State

variable {V : Type} (s : State V)

/-- Replace frame `f`. -/
def setFrame (f : ℕ) (x : Frame V) : State V :=
  { s with frame := Function.update s.frame f x }

/-- Move coroutine `f`. -/
def setPoint (f : ℕ) (p : Point V) : State V := s.setFrame f { s.frame f with point := p }

/-- The call of a coroutine: a new frame, suspended by `initial_suspend`. -/
def create (type : CoroType) (body : Body V) : State V :=
  { s.setFrame s.next ⟨type, .initialSuspend body, none, none⟩ with next := s.next + 1 }

/-- `resume()` of a suspended coroutine. -/
def resume (f : ℕ) : State V :=
  match (s.frame f).point with
  | .initialSuspend body => { s.setPoint f (.active body) with control := .running f }
  | .awaiting aw rest => { s.setPoint f (.awaitResume aw rest) with control := .running f }
  | _ => { s with control := .undefined }

/-- `destroy()` of a suspended coroutine. -/
def destroy (f : ℕ) : State V :=
  match (s.frame f).point with
  | .initialSuspend _ | .awaiting _ _ | .suspended => s.setPoint f .destroyed
  | _ => { s with control := .undefined }

/-- `await_suspend(Outer)` of the awaiter of coroutine `inner`, up to the transfer. -/
def awaitSuspend (outer inner : ℕ) : State V :=
  match (s.frame inner).type with
  | .externalVoid => s.setFrame inner { s.frame inner with continuation := some outer }
  | .external | .task =>
    s.setFrame inner { s.frame inner with continuation := some outer, resultPtr := some outer }

/-- `co_await` of a call of a coroutine: the call, the awaiter, and the transfer to the
coroutine. -/
def coAwait (f : ℕ) (type : CoroType) (child : Body V) (v : V)
    (rest : type.Result V → Body V) : State V :=
  (((s.create type child).setPoint f (.awaiting ⟨type, s.next, v⟩ rest)).awaitSuspend f
    s.next).resume s.next

/-- `*result_ptr = Value`, where the pointer leads to the awaiter in frame `outer`. -/
def writeResult (outer : ℕ) (v : V) : State V :=
  match (s.frame outer).point with
  | .awaiting aw rest => s.setPoint outer (.awaiting { aw with result := v } rest)
  | _ => { s with control := .undefined }

/-- `return_value(Value)`, or `return_void()`. -/
def returnValue (f : ℕ) (v : V) : State V :=
  match (s.frame f).type, (s.frame f).resultPtr with
  | .externalVoid, _ => s
  | .external, some outer | .task, some outer => s.writeResult outer v
  | .task, none => { s with promised := s.promised ++ [v] }
  | .external, none => { s with control := .undefined }

/-- The transfer to the continuation of coroutine `f`, which is suspended at its end. -/
def transfer (f : ℕ) : State V :=
  match (s.frame f).continuation with
  | some outer => (s.setPoint f .suspended).resume outer
  | none => { s with control := .undefined }

/-- The end of a coroutine that does not suspend finally. -/
def finish (f : ℕ) : State V := { s.setPoint f .destroyed with control := .returned }

/-- `final_suspend()` of the promise of coroutine `f`. -/
def finalSuspend (f : ℕ) : Action × State V :=
  match (s.frame f).type, (s.frame f).continuation with
  | .externalVoid, _ => (.destroy f, s.finish f)
  | .external, c | .task, c@(some _) => (.transfer f c, s.transfer f)
  | .task, none => (.destroy f, s.finish f)

/-- `await_resume()` of the awaiter of coroutine `f`, and the body that follows. -/
def awaitResume (f : ℕ) (aw : Awaiter V) (rest : aw.type.Result V → Body V) : State V :=
  (s.destroy aw.handle).setPoint f (.active (rest (aw.type.get aw.result)))

end State

variable {V : Type} [Inhabited V]

/-- The next step of the coroutine that has control. -/
def step (s : State V) : Option (Action × State V) :=
  match s.control with
  | .running f =>
    match (s.frame f).point with
    | .active (.coReturn v) => some (.coReturn f, (s.returnValue f v).setPoint f .finalSuspend)
    | .active (.setValue v rest) =>
      some (.setValue f, { s.setPoint f (.active rest) with promised := s.promised ++ [v] })
    | .active (.coAwait type child rest) =>
      some (.coAwait f s.next, s.coAwait f type child default rest)
    | .awaitResume aw rest => some (.destroy aw.handle, s.awaitResume f aw rest)
    | .finalSuspend => some (s.finalSuspend f)
    | _ => none
  | _ => none

/-- The coroutines that `main` hands to the executor: `post_waitable` of a `tmc::task`, and
`post` of an `external_coro<void>`, which is resumed once. -/
inductive Entry
  | postWaitable
  | post
  deriving DecidableEq, Repr

/-- The type of the posted coroutine. -/
def Entry.type : Entry → CoroType
  | .postWaitable => .task
  | .post => .externalVoid

/-- The state after the posted coroutine has been called and resumed. -/
def initial (entry : Entry) (body : Body V) : State V where
  frame := fun f =>
    if f = 0 then ⟨entry.type, .active body, none, none⟩ else ⟨.task, .destroyed, none, none⟩
  next := 1
  control := .running 0
  promised := []

/-- The nesting of coroutines under a posted one as a transition system. -/
def system (entry : Entry) (body : Body V) : LTS (State V) Action :=
  ⟨initial entry body, fun s a s' => step s = some (a, s')⟩

end ExternalCoro

end TmcExamples
