import TmcExamples.Framing.Codec

/-!
# Responses on the wire

The servers `http_server.cpp`, `asio_server_per_cache.cpp` and `asio_thread_per_core.cpp` answer
with one constant text, and `http_skynet.cpp` composes its answers; all have the same header, with
the length of the body in it. Lines end with a bare line feed.

`response` is the text, and `parseResponse` is what a client does with the stream of one connection:
it reads the header up to the first empty line, takes the length from it, and then as many
characters as it says. `http` is the codec of the two: the bodies are found again in the stream,
whatever characters they have, and a response that is broken off is not taken for another one.

A string is a list of characters, each of them a byte.
-/

namespace TmcExamples

namespace Http

/-- The text in front of the length. -/
def statusLine : List Char := "HTTP/1.1 200 OK".toList

/-- The name of the field with the length. -/
def contentLength : List Char := "Content-Length: ".toList

/-- The line behind the length. -/
def contentType : List Char := "Content-Type: text/plain; charset=utf-8".toList

/-- What `handler` writes to `output` for the body `result`. -/
def response (result : List Char) : List Char :=
  statusLine ++ '\n' :: (contentLength ++ Nat.toDigits 10 result.length ++ '\n' ::
    (contentType ++ '\n' :: '\n' :: result))

/-- `static_response` -/
def staticResponse : List Char :=
  ("HTTP/1.1 200 OK\nContent-Length: 12\nContent-Type: text/plain; charset=utf-8\n\n" ++
    "Hello World!").toList

/-- The constant of the other servers is the response that its header announces. -/
private theorem staticResponse_eq : staticResponse = response "Hello World!".toList := by decide

/-! ### The client -/

/-- Split the lines off up to the first empty one. `line` is what has been read of the present line,
in reverse order, and `lines` are the lines before it. -/
def splitHeader : List Char → List Char → List (List Char) → Option (List (List Char) × List Char)
  | [], _, _ => none
  | c :: cs, line, lines =>
    if c = '\n' then
      if line = [] then some (lines, cs) else splitHeader cs [] (lines ++ [line.reverse])
    else splitHeader cs (c :: line) lines

/-- The length that a line of the header announces. -/
def lengthOf (line : List Char) : Option ℕ :=
  if contentLength.isPrefixOf line then
    some (Nat.ofDigitChars 10 (line.drop contentLength.length) 0)
  else none

/-- The first response in a stream and what follows it. -/
def parseResponse (s : List Char) : Option (List Char × List Char) :=
  (splitHeader s [] []).bind fun header =>
    (header.1.findSome? lengthOf).bind fun n =>
      if n ≤ header.2.length then some (header.2.take n, header.2.drop n) else none

/-! ### Reading a header -/

/-- The rest of a line that is not empty. -/
private theorem splitHeader_lineRest {l s line : List Char} {lines : List (List Char)}
    (hl : '\n' ∉ l) (hne : line.reverse ++ l ≠ []) :
    splitHeader (l ++ '\n' :: s) line lines = splitHeader s [] (lines ++ [line.reverse ++ l]) := by
  induction l generalizing line with
  | nil =>
    rw [List.append_nil] at hne ⊢
    rw [List.nil_append, splitHeader, if_pos rfl, if_neg fun h => hne (by rw [h]; rfl)]
  | cons c l ih =>
    have hc : c ≠ '\n' := fun h => hl (h ▸ List.mem_cons_self)
    have happ : (c :: line).reverse ++ l = line.reverse ++ c :: l := by
      rw [List.reverse_cons, List.append_assoc, List.singleton_append]
    rw [List.cons_append, splitHeader, if_neg hc,
      ih (fun h => hl (List.mem_cons_of_mem c h)) (happ ▸ hne), happ]

/-- A line that is not empty is split off. -/
private theorem splitHeader_line {l s : List Char} {lines : List (List Char)} (hl : '\n' ∉ l)
    (hne : l ≠ []) : splitHeader (l ++ '\n' :: s) [] lines = splitHeader s [] (lines ++ [l]) :=
  splitHeader_lineRest hl hne

private theorem splitHeader_append {s line rest : List Char} {lines header : List (List Char)}
    (h : splitHeader s line lines = some (header, rest)) (t : List Char) :
    splitHeader (s ++ t) line lines = some (header, rest ++ t) := by
  induction s generalizing line lines with
  | nil => cases h
  | cons c s ih =>
    rw [splitHeader] at h
    rw [List.cons_append, splitHeader]
    split at h
    · rename_i hc
      rw [if_pos hc]
      split at h
      · rename_i hline
        obtain ⟨rfl, rfl⟩ := Prod.mk.inj (Option.some.inj h)
        rw [if_pos hline]
      · rename_i hline
        rw [if_neg hline]
        exact ih h
    · rename_i hc
      rw [if_neg hc]
      exact ih h

private theorem splitHeader_shorter {s line rest : List Char} {lines header : List (List Char)}
    (h : splitHeader s line lines = some (header, rest)) : rest.length < s.length := by
  induction s generalizing line lines with
  | nil => cases h
  | cons c s ih =>
    rw [List.length_cons]
    rw [splitHeader] at h
    split at h
    · split at h
      · obtain ⟨-, rfl⟩ := Prod.mk.inj (Option.some.inj h)
        exact Nat.lt_succ_self _
      · exact Nat.lt_succ_of_lt (ih h)
    · exact Nat.lt_succ_of_lt (ih h)

private theorem lengthOf_contentLength (n : ℕ) :
    lengthOf (contentLength ++ Nat.toDigits 10 n) = some n := by
  rw [lengthOf, if_pos (List.isPrefixOf_iff_prefix.mpr (List.prefix_append _ _)), List.drop_left,
    Nat.ofDigitChars_ten_toDigits]

private theorem newline_not_mem_digits (n : ℕ) : '\n' ∉ Nat.toDigits 10 n := fun h => by
  have hdigit := Nat.isDigit_of_mem_toDigits (by decide) (by decide) h
  revert hdigit
  decide

/-- The header of a response is read as it was written. -/
private theorem splitHeader_response (result rest : List Char) :
    splitHeader (response result ++ rest) [] [] =
      some ([statusLine, contentLength ++ Nat.toDigits 10 result.length, contentType],
        result ++ rest) := by
  have hstatus : '\n' ∉ statusLine := by decide
  have hlength : '\n' ∉ contentLength ++ Nat.toDigits 10 result.length := fun h => by
    rcases List.mem_append.mp h with h | h
    · exact absurd h (by decide)
    · exact newline_not_mem_digits _ h
  have htype : '\n' ∉ contentType := by decide
  have hne : contentLength ++ Nat.toDigits 10 result.length ≠ [] := fun h =>
    absurd (List.append_eq_nil_iff.mp h).1 (by decide)
  have htext : response result ++ rest = statusLine ++ '\n' ::
      ((contentLength ++ Nat.toDigits 10 result.length) ++ '\n' ::
        (contentType ++ '\n' :: '\n' :: (result ++ rest))) := by
    simp only [response, List.append_assoc, List.cons_append]
  rw [htext, splitHeader_line hstatus (by decide), splitHeader_line hlength hne,
    splitHeader_line htype (by decide)]
  rfl

private theorem parseResponse_response (result rest : List Char) :
    parseResponse (response result ++ rest) = some (result, rest) := by
  have hstatus : lengthOf statusLine = none := by decide
  rw [parseResponse, splitHeader_response, Option.bind_some, List.findSome?_cons, hstatus]
  simp only [List.findSome?_cons, lengthOf_contentLength]
  rw [Option.bind_some, if_pos (by rw [List.length_append]; exact Nat.le_add_right _ _),
    List.take_left, List.drop_left]

private theorem parseResponse_append {s result rest : List Char}
    (h : parseResponse s = some (result, rest)) (t : List Char) :
    parseResponse (s ++ t) = some (result, rest ++ t) := by
  obtain ⟨⟨header, tail⟩, hsplit, h⟩ := Option.bind_eq_some_iff.mp h
  obtain ⟨n, hn, h⟩ := Option.bind_eq_some_iff.mp h
  rw [parseResponse, splitHeader_append hsplit t, Option.bind_some, hn, Option.bind_some]
  dsimp only at h ⊢
  split at h
  · rename_i hle
    obtain ⟨rfl, rfl⟩ := Prod.mk.inj (Option.some.inj h)
    rw [if_pos (by rw [List.length_append]; omega), List.take_append_of_le_length hle,
      List.drop_append_of_le_length hle]
  · cases h

private theorem parseResponse_shorter {s result rest : List Char}
    (h : parseResponse s = some (result, rest)) : rest.length < s.length := by
  obtain ⟨⟨header, tail⟩, hsplit, h⟩ := Option.bind_eq_some_iff.mp h
  obtain ⟨n, -, h⟩ := Option.bind_eq_some_iff.mp h
  have hlt := splitHeader_shorter hsplit
  split at h
  · obtain ⟨-, rfl⟩ := Prod.mk.inj (Option.some.inj h)
    rw [List.length_drop]
    exact Nat.lt_of_le_of_lt (Nat.sub_le _ _) hlt
  · cases h

/-- Responses in the stream of a connection. -/
def http : Codec Char (List Char) where
  encode := response
  decodeOne := parseResponse
  decodeOne_encode := parseResponse_response
  decodeOne_append _ _ _ t h := parseResponse_append h t
  decodeOne_shorter _ _ _ h := parseResponse_shorter h

/-- **Round trip of the responses.** However the results look, and wherever the connection breaks
off in a last response: a client reads the results before it, and takes nothing for another one. -/
theorem responses_are_read_back (results : List (List Char)) (last : List Char) {k : ℕ}
    (hk : k < (response last).length) :
    http.decode (results.flatMap response ++ (response last).take k) =
      (results, (response last).take k) := by
  refine http.decode_broken results (b := last)
    ⟨(response last).drop k, ?_, List.take_append_drop _ _⟩
  rw [Ne, List.drop_eq_nil_iff]
  exact Nat.not_le_of_lt hk

/-- Two results, the first of which looks like the end of a header, and the second of which is
empty. -/
theorem responses_are_read_back_newlines :
    http.decode (["\n\n".toList, []].flatMap response ++ (response []).take 5) =
      (["\n\n".toList, []], (response []).take 5) :=
  responses_are_read_back _ _ (by decide)

/-- A client of the constant servers whose connection breaks off in the third response. -/
example : http.decode (staticResponse ++ staticResponse ++ staticResponse.take 80) =
    (["Hello World!".toList, "Hello World!".toList], staticResponse.take 80) := by
  have hbroken : http.Broken "Hello World!".toList (staticResponse.take 80) :=
    ⟨staticResponse.drop 80, by decide, by
      rw [List.take_append_drop, staticResponse_eq]
      rfl⟩
  rw [← http.decode_broken ["Hello World!".toList, "Hello World!".toList] hbroken,
    staticResponse_eq]
  rfl

end Http

end TmcExamples
