import TmcExamples.Http.Server
import TmcExamples.Skynet.Coverage
import TmcExamples.Transition.Parties

/-!
# What the clients of a server see

`Streamed` says what has been handed over on a connection: one whole response for every request but
the last one, and for the last one perhaps the beginning of a response. So a client reads the
results from its stream, in order, and what is left is a response that is not complete
(`decode_stream`). A handler leaves its loop only through an error, with the socket closed once; the
code behind the loop is never reached. An acceptor returns behind its handlers.
-/

namespace TmcExamples

namespace Http

variable {S : Site} {c c' : Conn} {s s' : State S}

/-- The stream of a connection on which the requests but the last one have been answered with
`results`, and of the last response `tail` has been handed over. -/
structure Streamed (S : Site) (c : Conn) (results : List (List Char)) (tail : List Char) :
    Prop where
  sent : c.sent = http.encodeAll results ++ tail
  valid : ∀ r ∈ results, S.Result r
  requests : results.length + 1 = c.requests

/-- The stream of a connection on which all requests have been answered. -/
structure Answered (S : Site) (c : Conn) (results : List (List Char)) : Prop where
  sent : c.sent = http.encodeAll results
  valid : ∀ r ∈ results, S.Result r
  requests : results.length = c.requests

/-- The stream of a connection whose handler has left its loop. -/
def Stopped (S : Site) (c : Conn) : Prop :=
  (∃ results, Answered S c results) ∨
    ∃ results r tail, S.Result r ∧ http.Broken r tail ∧ Streamed S c results tail

/-- The stream at each program point. -/
def Stream (S : Site) (c : Conn) : Prop :=
  match c.handler with
  | .testing | .reading => ∃ results, Answered S c results
  | .answering => ∃ results, Streamed S c results []
  | .writing r written => S.Result r ∧ written ≤ (response r).length ∧
      ∃ results, Streamed S c results ((response r).take written)
  | .failing | .returned => Stopped S c
  | .leaving | .closing => False

/-- The socket is closed by the return of the handler, and never shut down. -/
structure Lifetime (c : Conn) : Prop where
  isOpen : c.isOpen = true ↔ c.handler ≠ .returned
  closes : c.closes = if c.isOpen then 0 else 1
  shutdowns : c.shutdowns = 0

/-- The invariant of a connection. -/
structure ConnInv (S : Site) (c : Conn) : Prop where
  stream : Stream S c
  lifetime : Lifetime c

private theorem connInv_accepted (S : Site) : ConnInv S .accepted where
  stream := ⟨[], rfl, fun _ h => (List.not_mem_nil h).elim, rfl⟩
  lifetime := ⟨⟨fun _ h => (by cases h), fun _ => rfl⟩, rfl, rfl⟩

/-- A step of the handler that keeps the socket open. -/
private theorem Lifetime.go_on (h : Lifetime c) (hc : c.handler ≠ .returned) {x : Handler}
    (hx : x ≠ .returned) (sent : List Char) (requests : ℕ) :
    Lifetime { c with handler := x, sent := sent, requests := requests } where
  isOpen := iff_of_true (h.isOpen.mpr hc) hx
  closes := h.closes
  shutdowns := h.shutdowns

/-- A piece of a response follows the pieces before it. -/
private theorem take_add_drop (l : List Char) (written count : ℕ) :
    l.take written ++ (l.drop written).take count = l.take (written + count) :=
  (List.take_add ..).symm

private theorem connInv_step {a : ConnAction} (h : ConnInv S c) (hs : ConnStep S c a c') :
    ConnInv S c' := by
  obtain ⟨hstream, hlife⟩ := h
  cases hs with
  | isOpen hc =>
    rw [Stream, hc] at hstream
    obtain ⟨results, hsent, hresults, hrequests⟩ := hstream
    exact ⟨⟨results, hsent, hresults, hrequests⟩, hlife.go_on (by simp [hc]) (by simp) _ _⟩
  | isClosed hc hopen =>
    -- The loop tests a socket that its handler has not closed.
    have hret := hlife.isOpen.mpr (by simp [hc])
    rw [hopen] at hret
    cases hret
  | read hc =>
    rw [Stream, hc] at hstream
    obtain ⟨results, hsent, hresults, hrequests⟩ := hstream
    refine ⟨⟨results, ?_, hresults, congrArg (· + 1) hrequests⟩,
      hlife.go_on (by simp [hc]) (by simp) _ _⟩
    rw [List.append_nil]
    exact hsent
  | readError hc =>
    rw [Stream, hc] at hstream
    obtain ⟨results, hsent, hresults, hrequests⟩ := hstream
    exact ⟨.inl ⟨results, hsent, hresults, hrequests⟩, hlife.go_on (by simp [hc]) (by simp) _ _⟩
  | @answer r hc hr =>
    rw [Stream, hc] at hstream
    obtain ⟨results, hsent, hresults, hrequests⟩ := hstream
    exact ⟨⟨hr, Nat.zero_le _, results, hsent, hresults, hrequests⟩,
      hlife.go_on (by simp [hc]) (by simp) _ _⟩
  | @write r written count hc hpos hcount =>
    rw [Stream, hc] at hstream
    obtain ⟨hr, -, results, hsent, hresults, hrequests⟩ := hstream
    refine ⟨⟨hr, hcount, results, ?_, hresults, hrequests⟩,
      hlife.go_on (by simp [hc]) (by simp) _ _⟩
    change c.sent ++ _ = _
    rw [hsent, List.append_assoc, take_add_drop]
  | @written r written hc hall =>
    rw [Stream, hc] at hstream
    obtain ⟨hr, -, results, hsent, hresults, hrequests⟩ := hstream
    refine ⟨⟨results ++ [r], ?_, ?_, ?_⟩, hlife.go_on (by simp [hc]) (by simp) _ _⟩
    · change c.sent = _
      rw [hsent, hall, List.take_length, Codec.encodeAll_append, Codec.encodeAll_singleton]
      rfl
    · intro x hx
      rcases List.mem_append.mp hx with hx | hx
      · exact hresults x hx
      · exact List.mem_singleton.mp hx ▸ hr
    · rw [List.length_append]
      exact hrequests
  | @writeError r written hc hlt =>
    rw [Stream, hc] at hstream
    obtain ⟨hr, -, results, hsent, hresults, hrequests⟩ := hstream
    refine ⟨.inr ⟨results, r, _, hr, ⟨(response r).drop written, ?_, List.take_append_drop _ _⟩,
      hsent, hresults, hrequests⟩, hlife.go_on (by simp [hc]) (by simp) _ _⟩
    rw [Ne, List.drop_eq_nil_iff]
    exact Nat.not_le_of_lt hlt
  | fail hc =>
    rw [Stream, hc] at hstream
    have hopen := hlife.isOpen.mpr (by simp [hc])
    refine ⟨?_, ⟨iff_of_false Bool.false_ne_true fun h => h rfl, ?_, hlife.shutdowns⟩⟩
    · obtain ⟨results, hsent, hresults, hrequests⟩ |
        ⟨results, r, tail, hr, hbroken, hsent, hresults, hrequests⟩ := hstream
      · exact .inl ⟨results, hsent, hresults, hrequests⟩
      · exact .inr ⟨results, r, tail, hr, hbroken, hsent, hresults, hrequests⟩
    · change c.closes + 1 = 1
      rw [hlife.closes, hopen, if_pos rfl]
  | shutdown hc | close hc =>
    rw [Stream, hc] at hstream
    exact hstream.elim

/-! ### The server -/

/-- An acceptor has returned only behind its handlers. -/
def Worker.Joined (x : Worker) : Prop :=
  x.acceptor = .returned → ∀ c ∈ x.conns, c.handler = .returned

/-- A handler that has returned has no step. -/
theorem ConnStep.not_returned {a : ConnAction} (h : ConnStep S c a c') : c.handler ≠ .returned := by
  intro hc
  cases h with
  | isOpen h | isClosed h | read h | readError h | answer h | write h | written h | writeError h
    | fail h | shutdown h | close h =>
    rw [hc] at h
    cases h

/-- The invariant of a server. -/
structure Inv (s : State S) : Prop where
  conn : ∀ j, ∀ c ∈ (s.worker j).conns, ConnInv S c
  handled : ∀ j, (s.worker j).Joined
  joined : s.joined = true → ∀ j, (s.worker j).acceptor = .returned

theorem inv_init (S : Site) : Inv (server S).init where
  conn _ _ h := (List.not_mem_nil h).elim
  handled _ h := by cases h
  joined h := by cases h

/-- One acceptor moves, which has not returned. -/
theorem Inv.update (h : Inv s) {j : Fin S.acceptors} (hj : (s.worker j).acceptor ≠ .returned)
    {x : Worker} (hconn : ∀ c ∈ x.conns, ConnInv S c) (hhandled : x.Joined) :
    Inv { s with worker := Function.update s.worker j x } where
  conn := forall_update (P := fun _ (x : Worker) => ∀ c ∈ x.conns, ConnInv S c) h.conn hconn
  handled := forall_update h.handled hhandled
  joined hs := absurd (h.joined hs j) hj

/-- Every step keeps the connections apart and their logs in order. -/
theorem inv_step {a : Action S} (h : Inv s) (hs : Step S s a s') : Inv s' := by
  cases hs with
  | @accept j hj =>
    refine h.update (by rw [hj]; decide) (fun c hc => ?_) fun hr => by cases hr
    rcases List.mem_append.mp hc with hc | hc
    · exact h.conn j c hc
    · exact List.mem_singleton.mp hc ▸ connInv_accepted S
  | @acceptError j hj =>
    exact h.update (by rw [hj]; decide) (h.conn j) fun hr => by cases hr
  | @handle j i c c' a hc hstep =>
    have hmem := List.mem_of_getElem? hc
    have hj : (s.worker j).acceptor ≠ .returned := fun hj =>
      hstep.not_returned (h.handled j hj c hmem)
    refine h.update hj (fun x hx => ?_) fun hr => absurd hr hj
    rcases List.mem_or_eq_of_mem_set hx with hx | rfl
    · exact h.conn j x hx
    · exact connInv_step (h.conn j c hmem) hstep
  | @handled j hj hall => exact h.update (by rw [hj]; decide) (h.conn j) fun _ => hall
  | join hm hall => exact ⟨h.conn, h.handled, fun _ => hall⟩

theorem inv_of_reachable (h : (server S).Reachable s) : Inv s :=
  h.induct (inv_init S) fun _ _ _ _ hinv hs => inv_step hinv hs

/-! ### The clients -/

/-- What a client has when it has read all that was handed over on its connection: the results of
its requests, and perhaps the beginning of a response to the last one. -/
structure Seen (S : Site) (c : Conn) (results : List (List Char)) (tail : List Char) : Prop where
  decode : http.decode c.sent = (results, tail)
  valid : ∀ r ∈ results, S.Result r
  requests : results.length = c.requests ∧ tail = [] ∨
    results.length + 1 = c.requests ∧ ∃ r, S.Result r ∧ http.Broken r tail

/-- A client whose requests are answered has one result for each. -/
theorem Answered.seen {results : List (List Char)} (h : Answered S c results) :
    Seen S c results [] where
  decode := by
    rw [h.sent, ← List.append_nil (http.encodeAll results)]
    exact Codec.decode_encodeAll_append results rfl
  valid := h.valid
  requests := .inl ⟨h.requests, rfl⟩

/-- A client within a response has the results before it, and its beginning. -/
theorem Streamed.seen {results : List (List Char)} {r tail : List Char}
    (h : Streamed S c results tail) (hr : S.Result r) (hbroken : http.Broken r tail) :
    Seen S c results tail where
  decode := by
    rw [h.sent]
    exact Codec.decode_broken results hbroken
  valid := h.valid
  requests := .inr ⟨h.requests, r, hr, hbroken⟩

private theorem response_ne_nil (r : List Char) : response r ≠ [] := fun h =>
  absurd (List.append_eq_nil_iff.mp h).1 (by decide)

private theorem seen_of_stopped (h : Stopped S c) : ∃ results tail, Seen S c results tail := by
  obtain ⟨results, h⟩ | ⟨results, r, tail, hr, hbroken, h⟩ := h
  · exact ⟨results, [], h.seen⟩
  · exact ⟨results, tail, h.seen hr hbroken⟩

private theorem seen_of_stream (h : Stream S c) : ∃ results tail, Seen S c results tail := by
  unfold Stream at h
  split at h
  · obtain ⟨results, h⟩ := h
    exact ⟨results, [], h.seen⟩
  · obtain ⟨results, h⟩ := h
    exact ⟨results, [], h.seen⟩
  · obtain ⟨results, h⟩ := h
    obtain ⟨r, hr⟩ := S.exists_result
    exact ⟨results, [], h.seen hr ⟨response r, response_ne_nil r, rfl⟩⟩
  · rename_i r written _
    obtain ⟨hr, hle, results, h⟩ := h
    by_cases hall : written = (response r).length
    · -- The response is complete, only the handler does not know it yet.
      refine ⟨results ++ [r], [], Answered.seen ⟨?_, fun x hx => ?_, ?_⟩⟩
      · rw [h.sent, hall, List.take_length, Codec.encodeAll_append, Codec.encodeAll_singleton]
        rfl
      · rcases List.mem_append.mp hx with hx | hx
        · exact h.valid x hx
        · exact List.mem_singleton.mp hx ▸ hr
      · rw [List.length_append]
        exact h.requests
    · refine ⟨results, _, h.seen hr ⟨(response r).drop written, ?_, List.take_append_drop _ _⟩⟩
      rw [Ne, List.drop_eq_nil_iff]
      omega
  · exact seen_of_stopped h
  · exact seen_of_stopped h
  · exact h.elim
  · exact h.elim

/-! ### Progress -/

/-- A handler that has not returned has a step. -/
private theorem conn_enabled (h : ConnInv S c) (hc : c.handler ≠ .returned) :
    ∃ a c', ConnStep S c a c' := by
  have hstream := h.stream
  have hopen := h.lifetime.isOpen.mpr hc
  cases hhandler : c.handler with
  | testing => exact ⟨_, _, .isOpen hhandler hopen⟩
  | reading => exact ⟨_, _, .read hhandler⟩
  | answering =>
    obtain ⟨r, hr⟩ := S.exists_result
    exact ⟨_, _, .answer hhandler hr⟩
  | writing r written =>
    rw [Stream, hhandler] at hstream
    by_cases hall : written = (response r).length
    · exact ⟨_, _, .written hhandler hall⟩
    · exact ⟨_, _, .writeError hhandler (Nat.lt_of_le_of_ne hstream.2.1 hall)⟩
  | failing => exact ⟨_, _, .fail hhandler⟩
  | leaving => exact ⟨_, _, .shutdown hhandler⟩
  | closing => exact ⟨_, _, .close hhandler⟩
  | returned => exact absurd hhandler hc

/-- The server is never stuck before its end. -/
private theorem enabled_of_not_joined (h : Inv s) (hjoined : s.joined = false) :
    (server S).Enabled s := by
  by_cases hall : ∀ j, (s.worker j).acceptor = .returned
  · exact ⟨_, _, .join hjoined hall⟩
  · obtain ⟨j, hj⟩ := not_forall.mp hall
    cases hacceptor : (s.worker j).acceptor with
    | accepting => exact ⟨_, _, .accept hacceptor⟩
    | returned => exact absurd hacceptor hj
    | joining =>
      by_cases hconns : ∀ c ∈ (s.worker j).conns, c.handler = .returned
      · exact ⟨_, _, .handled hacceptor hconns⟩
      · push Not at hconns
        obtain ⟨c, hmem, hc⟩ := hconns
        obtain ⟨i, hi⟩ := List.getElem?_of_mem hmem
        obtain ⟨a, c', hstep⟩ := conn_enabled (h.conn j c hmem) hc
        exact ⟨_, _, .handle hi hstep⟩

/-! ### A request that is answered -/

/-- The handler of a connection can take its next step. -/
private theorem reachable_conn {j : Fin S.acceptors} {a : ConnAction}
    (h : ∃ s, (server S).Reachable s ∧ c ∈ (s.worker j).conns) (hstep : ConnStep S c a c') :
    ∃ s, (server S).Reachable s ∧ c' ∈ (s.worker j).conns := by
  obtain ⟨s, hr, hc⟩ := h
  obtain ⟨i, hi⟩ := List.mem_iff_getElem?.mp hc
  refine ⟨_, hr.step (.handle hi hstep), ?_⟩
  simp only [Function.update_self]
  exact List.mem_set (List.getElem?_eq_some_iff.mp hi).1 c'

/-- Every result can be the answer to a first request, handed over in one piece. -/
private theorem exists_answered {j : Fin S.acceptors} {result : List Char}
    (hresult : S.Result result) :
    ∃ s, (server S).Reachable s ∧ ∃ c ∈ (s.worker j).conns, c.sent = response result := by
  have haccepted : ∃ s, (server S).Reachable s ∧ .accepted ∈ (s.worker j).conns := by
    refine ⟨_, LTS.Reachable.init.step (.accept (j := j) rfl), ?_⟩
    simp only [Function.update_self]
    exact List.mem_singleton_self _
  have hreading := reachable_conn haccepted (.isOpen rfl rfl)
  have hanswering := reachable_conn hreading (.read rfl)
  have hwriting := reachable_conn hanswering (.answer rfl hresult)
  have hpos := List.length_pos_of_ne_nil (response_ne_nil result)
  obtain ⟨s, hr, hc⟩ := reachable_conn hwriting (.write rfl hpos (Nat.zero_add _).le)
  refine ⟨s, hr, _, hc, ?_⟩
  change [] ++ ((response result).drop 0).take (response result).length = response result
  rw [List.drop_zero, List.take_length, List.nil_append]

/-- A client reads the answer. -/
private theorem mem_decode_response (result : List Char) :
    result ∈ (http.decode (response result)).1 := by
  have hdecode := Codec.decode_of_some (http.decodeOne_encode result [])
  rw [List.append_nil] at hdecode
  change result ∈ (http.decode (http.encode result)).1
  rw [hdecode]
  exact List.mem_cons_self

/-! ### The connections of a server -/

/-- **Connections are served.** In every reachable state of a server, on every connection: a client
decodes the characters it got to one result for every request in order, the last request excepted,
of whose response it may have the beginning; a request is a read that has succeeded. The socket is
closed once, by the return of its handler, and never shut down. An acceptor returns behind its
handlers and the server behind its acceptors, and until then it has a step. -/
theorem connections_are_served (S : Site) {s : State S} (h : (server S).Reachable s) :
    (∀ j, ∀ c ∈ (s.worker j).conns, (∃ results tail, Seen S c results tail) ∧ Lifetime c) ∧
      (∀ j, (s.worker j).Joined) ∧
      (s.joined = true → ∀ j, (s.worker j).acceptor = .returned) ∧
      (s.joined = false → (server S).Enabled s) := by
  have hinv := inv_of_reachable h
  refine ⟨fun j c hc => ?_, hinv.handled, hinv.joined, enabled_of_not_joined hinv⟩
  have hconn := hinv.conn j c hc
  exact ⟨seen_of_stream hconn.stream, hconn.lifetime⟩

/-- A connection of a server with two acceptors whose first request has been answered. -/
theorem connections_are_served_answered :
    ∃ s, (server (constantSite 2)).Reachable s ∧
      ∃ c ∈ (s.worker ⟨0, Nat.zero_lt_two⟩).conns, c.sent = response "Hello World!".toList ∧
        ∃ results tail, Seen (constantSite 2) c results tail ∧
          "Hello World!".toList ∈ results ∧ Lifetime c := by
  obtain ⟨s, hr, c, hc, hsent⟩ :=
    exists_answered (S := constantSite 2) (j := ⟨0, Nat.zero_lt_two⟩) rfl
  obtain ⟨⟨results, tail, hseen⟩, hlife⟩ := (connections_are_served (constantSite 2) hr).1 _ c hc
  refine ⟨s, hr, c, hc, hsent, results, tail, hseen, ?_, hlife⟩
  have hmem := mem_decode_response "Hello World!".toList
  rwa [← hsent, hseen.decode] at hmem

/-! ### The benchmark as a service -/

variable {w : ℕ}

private theorem skynet_count_eq (hw : w = 32 ∨ w = 64) {count : BitVec w}
    (h : (Skynet.system 6 0 0 : LTS (Skynet.Task w) _).Reachable (.done count)) :
    count = Skynet.expectedResult w := by
  obtain ⟨tr, hrun⟩ := h
  have hresult : count = Skynet.skynetOne 6 0 0 := Skynet.run_result hrun
  rw [hresult, Skynet.skynetOne_eq]
  rcases hw with rfl | rfl <;> decide

/-- No answer reports a wrong result. -/
private theorem skynetResult_eq (hw : w = 32 ∨ w = 64) {result : List Char}
    (h : SkynetResult w result) :
    ∃ execDur, result =
      "executed skynet in ".toList ++ Nat.toDigits 10 execDur ++ " us\n".toList := by
  obtain ⟨count, execDur, hreachable, rfl⟩ := h
  refine ⟨execDur, ?_⟩
  rw [skynetText, if_pos (skynet_count_eq hw hreachable), List.nil_append]

private theorem exists_skynetResult (w : ℕ) : ∃ result, SkynetResult w result := by
  obtain ⟨t, hr, hend⟩ := (Skynet.terminating (6 : BitVec w) 0 0).exists_not_enabled
  obtain ⟨count, rfl⟩ := (t.exists_step (6 : BitVec w)).resolve_right hend
  exact ⟨_, count, 0, hr, rfl⟩

/-- `http_skynet.cpp` with its two acceptors. -/
def skynetSite (w : ℕ) : Site where
  Result := SkynetResult w
  acceptors := 2
  exists_result := exists_skynetResult w

/-- **The benchmark as a service.** With `size_t` of 32 or 64 bits, in every reachable state of
`http_skynet`, in whatever order the tasks of the benchmark complete: what a client decodes on
its connection are reports of a right result. -/
theorem skynet_clients_see_right_results (hw : w = 32 ∨ w = 64) {s : State (skynetSite w)}
    (h : (server (skynetSite w)).Reachable s) {j : Fin (skynetSite w).acceptors}
    {c : Conn} (hc : c ∈ (s.worker j).conns) :
    ∀ r ∈ (http.decode c.sent).1, ∃ execDur,
      r = "executed skynet in ".toList ++ Nat.toDigits 10 execDur ++ " us\n".toList := by
  have hconn := (inv_of_reachable h).conn j c hc
  obtain ⟨results, tail, hseen⟩ := seen_of_stream hconn.stream
  rw [hseen.decode]
  exact fun r hr => skynetResult_eq hw (hseen.valid r hr)

/-- The answer to the first request of a connection reports a right result. -/
theorem skynet_clients_see_right_results_answered :
    ∃ c result execDur, result ∈ (http.decode (Conn.sent c)).1 ∧
      result = "executed skynet in ".toList ++ Nat.toDigits 10 execDur ++ " us\n".toList := by
  obtain ⟨result, hresult⟩ := exists_skynetResult 64
  obtain ⟨s, hr, c, hc, hsent⟩ :=
    exists_answered (S := skynetSite 64) (j := ⟨0, Nat.zero_lt_two⟩) hresult
  have hmem : result ∈ (http.decode c.sent).1 := hsent ▸ mem_decode_response result
  obtain ⟨execDur, hreport⟩ := skynet_clients_see_right_results (.inr rfl) hr hc result hmem
  exact ⟨c, result, execDur, hmem, hreport⟩

end Http

end TmcExamples
