import ApiGateway.Http.Parser
import ApiGateway.Library.StreamMachine

/-!
# The parser as a stream machine

Outside chunked bodies the parser reads its input in elements: a leading empty line, the request
line, a header line, the blank line that ends the head, one byte of a body. `tick` reads one
element. An element that has arrived is read in the same way whatever arrives after it
(`tick_feed`), so the elements form a `StreamMachine`, and the processors of the parser are
sequences of its steps (`process_headers_steps`, `process_body_steps`).

`Consumes` is the frame condition of all processors: bytes only move, in order, from the front
of `pending` to the end of `raw`, and the size limit stays.
-/

namespace ApiGateway.Http.HttpParser

open Loop Search

variable {p q r : HttpParser}

/-! ## Consumption -/

/-- `q` has consumed some of the pending bytes of `p`. -/
def Consumes (p q : HttpParser) : Prop :=
  q.maxSize = p.maxSize ∧ ∃ taken, q.raw = p.raw ++ taken ∧ p.pending = taken ++ q.pending

theorem Consumes.refl (p : HttpParser) : Consumes p p := ⟨rfl, [], by simp, by simp⟩

theorem Consumes.of_eq (hmax : q.maxSize = p.maxSize) (hraw : q.raw = p.raw)
    (hpending : q.pending = p.pending) : Consumes p q :=
  ⟨hmax, [], by simp [hraw], by simp [hpending]⟩

theorem Consumes.trans (h : Consumes p q) (hrest : Consumes q r) : Consumes p r := by
  obtain ⟨hmax, first, hraw, hpending⟩ := h
  obtain ⟨hmax', second, hraw', hpending'⟩ := hrest
  exact ⟨hmax'.trans hmax, first ++ second, by simp [hraw', hraw], by simp [hpending, hpending']⟩

/-- No byte is lost or duplicated. -/
theorem Consumes.raw_append_pending (h : Consumes p q) :
    q.raw ++ q.pending = p.raw ++ p.pending := by
  obtain ⟨-, taken, hraw, hpending⟩ := h
  simp [hraw, hpending]

theorem Consumes.raw_length_le (h : Consumes p q) : p.raw.length ≤ q.raw.length := by
  obtain ⟨-, taken, hraw, -⟩ := h
  simp [hraw]

theorem Consumes.raw_length_lt (h : Consumes p q) (hlt : q.pending.length < p.pending.length) :
    p.raw.length < q.raw.length := by
  have := congrArg List.length h.raw_append_pending
  simp only [List.length_append] at this
  omega

theorem consume_partial_consumes (p : HttpParser) (n : Nat) : Consumes p (p.consumePartial n) :=
  ⟨rfl, p.pending.take n, rfl, (List.take_append_drop n p.pending).symm⟩

theorem finalize_headers_consumes (p : HttpParser) : Consumes p p.finalizeHeaders := by
  simp only [finalizeHeaders]
  split
  · exact .of_eq rfl rfl rfl
  · split <;> exact .of_eq rfl rfl rfl

theorem assign_body_consumes (p : HttpParser) : Consumes p p.assignBody := by
  simp only [assignBody]
  split <;> exact .of_eq rfl rfl rfl

theorem check_size_limit_over (h : sizeT p.maxSize < p.raw.length) :
    p.checkSizeLimit = (false, { p with state := .error }) :=
  if_pos h

theorem check_size_limit_within (h : p.raw.length ≤ sizeT p.maxSize) :
    p.checkSizeLimit = (true, p) :=
  if_neg (Nat.not_lt.2 h)

theorem read_body_consumes (p : HttpParser) (count : Nat) : Consumes p (p.readBody count) := by
  have hcount : Consumes p { p.consumePartial count with bodyRead := p.bodyRead + count } :=
    consume_partial_consumes p count
  simp only [readBody]
  split
  · exact hcount.trans (assign_body_consumes _)
  · exact hcount

theorem process_request_line_wait (h : extractLine p.pending = none) :
    p.processRequestLine = p := by
  simp only [processRequestLine, h]

theorem process_request_line_blank (h : extractLine p.pending = some []) :
    p.processRequestLine = p.consumePartial 2 := by
  simp only [processRequestLine, h, if_true, consumeLine, List.length_nil, Nat.zero_add]

theorem process_request_line_error {line : Bytes} (h : extractLine p.pending = some line)
    (hne : line ≠ []) (hparsed : (parseRequestLine line p.request).1 = false) :
    p.processRequestLine =
      { p with request := (parseRequestLine line p.request).2, state := .error } := by
  simp only [processRequestLine, h, if_neg hne, hparsed, Bool.not_false, if_true]

theorem process_request_line_headers {line : Bytes} (h : extractLine p.pending = some line)
    (hne : line ≠ []) (hparsed : (parseRequestLine line p.request).1 = true) :
    p.processRequestLine =
      { p.consumePartial (line.length + 2) with
        request := (parseRequestLine line p.request).2, state := .headers } := by
  simp only [processRequestLine, h, if_neg hne, hparsed, Bool.not_true, Bool.false_eq_true,
    if_false, consumeLine, consumePartial]

theorem process_request_line_consumes (p : HttpParser) : Consumes p p.processRequestLine := by
  simp only [processRequestLine]
  split
  · exact .refl p
  rename_i line _
  split
  · exact consume_partial_consumes p _
  split
  · exact .of_eq rfl rfl rfl
  · exact consume_partial_consumes p (line.length + 2)

/-- The tests of `process_headers` decide what the first line of the pending bytes is. -/
theorem headers_iter_eq (p : HttpParser) :
    p.headersIter = match extractLine p.pending with
      | none => .done p
      | some [] => .done (p.consumePartial 2).finalizeHeaders
      | some line => .next (p.takeHeaderLine line) :=
  line_tests_eq _ _ _ _

/-- The tests of the trailer loop decide what the first line of the pending bytes is. -/
theorem trailer_iter_eq (p : HttpParser) :
    p.trailerIter = match extractLine p.pending with
      | none => .done (false, p)
      | some [] => .done (true, { p.consumePartial 2 with chunkPhase := .finished })
      | some line => .next (p.consumeLine line) :=
  line_tests_eq _ _ _ _

/-! ## Elements -/

/-- Read a leading empty line or the request line. -/
def tickRequestLine (p : HttpParser) : Option HttpParser :=
  match extractLine p.pending with
  | none => none
  | some _ => some p.processRequestLine

/-- Read a header line or the blank line that ends the head. -/
def tickHeaders (p : HttpParser) : Option HttpParser :=
  match extractLine p.pending with
  | none => none
  | some [] => some (p.consumePartial 2).finalizeHeaders
  | some line => some (p.takeHeaderLine line)

/-- Read one byte of a body. The first two cases are those in which `process_body` finds that
the body has been read already. -/
def tickBody (p : HttpParser) : Option HttpParser :=
  if p.contentLength ≤ 0 then some { p with state := .complete }
  else if p.contentLength.toNat - p.bodyRead = 0 then some { p.assignBody with state := .complete }
  else if p.pending = [] then none
  else some (p.readBody 1)

/-- Read one element of the input, or wait for it to arrive. -/
def tick (p : HttpParser) : Option HttpParser :=
  match p.state with
  | .requestLine => p.tickRequestLine
  | .headers => p.tickHeaders
  | .body => p.tickBody
  | .chunkedBody | .complete | .error => none

theorem consume_partial_feed {n : Nat} (h : n ≤ p.pending.length) (input : Bytes) :
    (p.feed input).consumePartial n = (p.consumePartial n).feed input := by
  simp [consumePartial, feed, List.take_append_of_le_length h, List.drop_append_of_le_length h]

theorem take_header_line_feed {line : Bytes} (h : line.length + 2 ≤ p.pending.length)
    (input : Bytes) : (p.feed input).takeHeaderLine line = (p.takeHeaderLine line).feed input := by
  simp [takeHeaderLine, consumeLine, consumePartial, feed, List.take_append_of_le_length h,
    List.drop_append_of_le_length h]

theorem finalize_headers_feed (p : HttpParser) (input : Bytes) :
    (p.feed input).finalizeHeaders = p.finalizeHeaders.feed input := by
  by_cases hchunked : (p.isChunked || selectsChunked p.request.headers) = true
  · simp [finalizeHeaders, feed, hchunked]
  · by_cases hlength : 0 < headerContentLength p.request.headers p.contentLength <;>
      simp [finalizeHeaders, feed, hchunked, hlength]

theorem assign_body_feed (p : HttpParser) (input : Bytes) :
    (p.feed input).assignBody = p.assignBody.feed input := by
  cases hcut : cutSub crlfcrlf p.raw <;> simp [assignBody, feed, hcut]

theorem process_request_line_feed {line : Bytes} (h : extractLine p.pending = some line)
    (input : Bytes) : (p.feed input).processRequestLine = p.processRequestLine.feed input := by
  have hlen := extract_line_length h
  have hmore : extractLine (p.pending ++ input) = some line := extract_line_append_right h input
  by_cases hblank : line = []
  · subst hblank
    simp only [processRequestLine, feed_pending, h, hmore, if_true]
    exact consume_partial_feed hlen input
  · cases hparsed : (parseRequestLine line p.request).1 <;>
      simp [processRequestLine, feed, h, hmore, hblank, hparsed, consumeLine, consumePartial,
        List.take_append_of_le_length hlen, List.drop_append_of_le_length hlen]

theorem read_body_feed {count : Nat} (h : count ≤ p.pending.length) (input : Bytes) :
    (p.feed input).readBody count = (p.readBody count).feed input := by
  have hconsume : { (p.feed input).consumePartial count with bodyRead := p.bodyRead + count } =
      ({ p.consumePartial count with bodyRead := p.bodyRead + count } : HttpParser).feed input := by
    rw [consume_partial_feed h]
    rfl
  simp only [readBody, feed_content_length, feed_body_read, hconsume]
  split
  · rw [assign_body_feed]
    rfl
  · rfl

theorem tick_request_line_feed (input : Bytes) (h : p.tickRequestLine = some q) :
    (p.feed input).tickRequestLine = some (q.feed input) := by
  cases hline : extractLine p.pending with
  | none => simp [tickRequestLine, hline] at h
  | some line =>
      have hmore : extractLine (p.pending ++ input) = some line :=
        extract_line_append_right hline input
      simp only [tickRequestLine, hline, Option.some.injEq] at h
      simp only [tickRequestLine, feed_pending, hmore, process_request_line_feed hline, h]

theorem tick_headers_feed (input : Bytes) (h : p.tickHeaders = some q) :
    (p.feed input).tickHeaders = some (q.feed input) := by
  cases hline : extractLine p.pending with
  | none => simp [tickHeaders, hline] at h
  | some line =>
      have hlen := extract_line_length hline
      have hmore : extractLine (p.pending ++ input) = some line :=
        extract_line_append_right hline input
      cases line with
      | nil =>
          simp only [tickHeaders, hline, Option.some.injEq] at h
          simp only [tickHeaders, feed_pending, hmore]
          rw [consume_partial_feed (by simpa using hlen), finalize_headers_feed, h]
      | cons c rest =>
          simp only [tickHeaders, hline, Option.some.injEq] at h
          simp only [tickHeaders, feed_pending, hmore]
          rw [take_header_line_feed hlen, h]

theorem tick_body_feed (input : Bytes) (h : p.tickBody = some q) :
    (p.feed input).tickBody = some (q.feed input) := by
  unfold tickBody at h
  by_cases hlength : p.contentLength ≤ 0
  · rw [if_pos hlength] at h
    cases h
    exact if_pos hlength
  rw [if_neg hlength] at h
  by_cases hread : p.contentLength.toNat - p.bodyRead = 0
  · rw [if_pos hread] at h
    cases h
    refine (if_neg hlength).trans ((if_pos hread).trans ?_)
    rw [assign_body_feed]
    rfl
  rw [if_neg hread] at h
  by_cases hpending : p.pending = []
  · rw [if_pos hpending] at h
    cases h
  · rw [if_neg hpending] at h
    cases h
    refine (if_neg hlength).trans ((if_neg hread).trans ((if_neg ?_).trans ?_))
    · simp [hpending]
    · rw [read_body_feed (List.length_pos_iff.2 hpending)]

/-- An element that has arrived is read in the same way whatever arrives after it. -/
theorem tick_feed (input : Bytes) (h : p.tick = some q) :
    (p.feed input).tick = some (q.feed input) := by
  unfold tick at h ⊢
  rw [feed_state]
  cases hstate : p.state with
  | requestLine => exact tick_request_line_feed input (by simpa only [hstate] using h)
  | headers => exact tick_headers_feed input (by simpa only [hstate] using h)
  | body => exact tick_body_feed input (by simpa only [hstate] using h)
  | chunkedBody | complete | error => simp [hstate] at h

/-- The parser outside chunked bodies, as a machine that reads a stream of bytes. -/
def machine : StreamMachine HttpParser UInt8 where
  step := tick
  feed := feed
  step_feed := tick_feed

end ApiGateway.Http.HttpParser
