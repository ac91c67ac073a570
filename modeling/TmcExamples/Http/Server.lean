import Mathlib.Data.Fintype.Card
import Mathlib.Logic.Function.Basic
import TmcExamples.Http.Framing
import TmcExamples.Skynet.Model

/-!
# The servers

`http_server.cpp`, `http_skynet.cpp`, `asio_server_per_cache.cpp` and `asio_thread_per_core.cpp` are
one program up to their answers and the number of their acceptors. An acceptor forks a handler for
every connection until `async_accept` fails, and then waits for the handlers; the main task waits
for the acceptors. A handler reads, without regard to what it reads, and answers, until one of the
two operations fails.

An operation on a socket may take any time, and may succeed or fail. `async_write` hands
the characters of the response over in pieces, and an error may come in between.
-/

namespace TmcExamples

namespace Http

/-- What distinguishes the servers: the results that a request may be answered with, and the number
of acceptors. -/
structure Site where
  Result : List Char → Prop
  acceptors : ℕ
  exists_result : ∃ result, Result result

/-- The servers with the constant response. -/
def constantSite (acceptors : ℕ) : Site where
  Result result := result = "Hello World!".toList
  acceptors := acceptors
  exists_result := ⟨_, rfl⟩

/-! ### Handlers -/

/-- The program points of `handler`: the test of the loop, the three operations in it, the exit
after an error, and `shutdown` and `close` behind the loop. -/
inductive Handler
  | testing
  | reading
  | answering
  | writing (result : List Char) (written : ℕ)
  | failing
  | leaving
  | closing
  | returned

/-- A connection: its handler, `is_open`, the characters that have been handed over, the requests
that have been read, and how often the socket has been shut down and closed. -/
structure Conn where
  handler : Handler
  isOpen : Bool
  sent : List Char
  requests : ℕ
  shutdowns : ℕ
  closes : ℕ

/-- A connection that has been accepted. -/
def Conn.accepted : Conn := ⟨.testing, true, [], 0, 0, 0⟩

/-- The steps of a handler. -/
inductive ConnAction
  | isOpen
  | isClosed
  | read
  | readError
  | answer
  | write (count : ℕ)
  | written
  | writeError
  | fail
  | shutdown
  | close
  deriving DecidableEq, Repr

/-- The steps of a handler. -/
inductive ConnStep (S : Site) : Conn → ConnAction → Conn → Prop
  | isOpen {c : Conn} (h : c.handler = .testing) (hopen : c.isOpen = true) :
      ConnStep S c .isOpen { c with handler := .reading }
  | isClosed {c : Conn} (h : c.handler = .testing) (hopen : c.isOpen = false) :
      ConnStep S c .isClosed { c with handler := .leaving }
  | read {c : Conn} (h : c.handler = .reading) :
      ConnStep S c .read { c with handler := .answering, requests := c.requests + 1 }
  | readError {c : Conn} (h : c.handler = .reading) :
      ConnStep S c .readError { c with handler := .failing }
  | answer {c : Conn} {result : List Char} (h : c.handler = .answering)
      (hresult : S.Result result) :
      ConnStep S c .answer { c with handler := .writing result 0 }
  | write {c : Conn} {result : List Char} {written count : ℕ}
      (h : c.handler = .writing result written) (hpos : 0 < count)
      (hcount : written + count ≤ (response result).length) :
      ConnStep S c (.write count)
        { c with
          handler := .writing result (written + count)
          sent := c.sent ++ ((response result).drop written).take count }
  | written {c : Conn} {result : List Char} {written : ℕ} (h : c.handler = .writing result written)
      (hall : written = (response result).length) :
      ConnStep S c .written { c with handler := .testing }
  | writeError {c : Conn} {result : List Char} {written : ℕ}
      (h : c.handler = .writing result written) (hlt : written < (response result).length) :
      ConnStep S c .writeError { c with handler := .failing }
  | fail {c : Conn} (h : c.handler = .failing) :
      ConnStep S c .fail { c with handler := .returned, isOpen := false, closes := c.closes + 1 }
  | shutdown {c : Conn} (h : c.handler = .leaving) :
      ConnStep S c .shutdown { c with handler := .closing, shutdowns := c.shutdowns + 1 }
  | close {c : Conn} (h : c.handler = .closing) :
      ConnStep S c .close { c with handler := .returned, isOpen := false, closes := c.closes + 1 }

/-! ### Acceptors -/

/-- The program points of `accept`: its loop, `co_await std::move(handlers)`, and the end. -/
inductive Acceptor
  | accepting
  | joining
  | returned
  deriving DecidableEq, Repr

/-- A call of `accept`, with the connections of the handlers that it has forked. -/
structure Worker where
  acceptor : Acceptor
  conns : List Conn

/-- The state of a server. -/
structure State (S : Site) where
  joined : Bool
  worker : Fin S.acceptors → Worker

/-- The steps of a server. -/
inductive Action (S : Site)
  | accept (j : Fin S.acceptors)
  | acceptError (j : Fin S.acceptors)
  | handle (j : Fin S.acceptors) (i : ℕ) (a : ConnAction)
  | handled (j : Fin S.acceptors)
  | join
  deriving DecidableEq, Repr

/-- The steps of a server. -/
inductive Step (S : Site) : State S → Action S → State S → Prop
  | accept {s : State S} {j : Fin S.acceptors} (h : (s.worker j).acceptor = .accepting) :
      Step S s (.accept j)
        { s with
          worker := Function.update s.worker j ⟨.accepting, (s.worker j).conns ++ [.accepted]⟩ }
  | acceptError {s : State S} {j : Fin S.acceptors} (h : (s.worker j).acceptor = .accepting) :
      Step S s (.acceptError j)
        { s with worker := Function.update s.worker j ⟨.joining, (s.worker j).conns⟩ }
  | handle {s : State S} {j : Fin S.acceptors} {i : ℕ} {c c' : Conn} {a : ConnAction}
      (h : (s.worker j).conns[i]? = some c) (hstep : ConnStep S c a c') :
      Step S s (.handle j i a)
        { s with
          worker := Function.update s.worker j
            ⟨(s.worker j).acceptor, (s.worker j).conns.set i c'⟩ }
  | handled {s : State S} {j : Fin S.acceptors} (h : (s.worker j).acceptor = .joining)
      (hall : ∀ c ∈ (s.worker j).conns, c.handler = .returned) :
      Step S s (.handled j)
        { s with worker := Function.update s.worker j ⟨.returned, (s.worker j).conns⟩ }
  | join {s : State S} (h : s.joined = false)
      (hall : ∀ j, (s.worker j).acceptor = .returned) :
      Step S s .join { s with joined := true }

/-- A server, from where its acceptors have been forked. -/
def server (S : Site) : LTS (State S) (Action S) where
  init := ⟨false, fun _ => ⟨.accepting, []⟩⟩
  step := Step S

/-! ### The benchmark as a service -/

/-- The text of `skynet<6>` for a sum `count` and a duration. -/
def skynetText {w : ℕ} (count : BitVec w) (execDur : ℕ) : List Char :=
  (if count = Skynet.expectedResult w then []
    else "got wrong result: ".toList ++ Nat.toDigits 10 count.toNat ++ "\n".toList) ++
  "executed skynet in ".toList ++ Nat.toDigits 10 execDur ++ " us\n".toList

/-- `co_await skynet<6>()` gives a text for the sum of some run of the benchmark. -/
def SkynetResult (w : ℕ) (result : List Char) : Prop :=
  ∃ (count : BitVec w) (execDur : ℕ),
    (Skynet.system 6 0 0 : LTS (Skynet.Task w) _).Reachable (.done count) ∧
      result = skynetText count execDur

end Http

end TmcExamples
