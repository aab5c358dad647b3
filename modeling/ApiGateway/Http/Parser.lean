import ApiGateway.Http.Request
import ApiGateway.Library.Loop

/-!
# The incremental request parser

`HttpParser` of `parser.cpp`: the parser state, the processors of each state, the dispatch loop
`process` and the entry point `parse`. Bytes wait in `pending` (the source's `partial_`) until
they are consumed, which moves them to `raw`.

The loops over header lines, chunks and trailer lines consume bytes on every pass and are total
functions. The dispatch loop has no such measure, so `process` and `parse` take a bound on the
number of its passes and answer `none` when the bound is used up; `Parses` is the relation
"the call returns".
-/

namespace ApiGateway.Http

open Loop Search

/-- `HttpParser::State`. -/
inductive State where
  | requestLine
  | headers
  | body
  | chunkedBody
  | complete
  | error
  deriving DecidableEq

/-- `HttpParser::ChunkPhase`; `finished` is the source's `End`. -/
inductive ChunkPhase where
  | sizeLine
  | data
  | trailer
  | finished
  deriving DecidableEq

/-- The conversion of an `int` to `size_t`. -/
def sizeT (n : Int) : Nat :=
  (n % 2 ^ 64).toNat

/-- `class HttpParser`. -/
structure HttpParser where
  state : State := .requestLine
  request : HttpRequest := {}
  raw : Bytes := []
  pending : Bytes := []
  maxSize : Int := 65536
  isChunked : Bool := false
  contentLength : Int := -1
  bodyRead : Nat := 0
  chunkPhase : ChunkPhase := .sizeLine
  currentChunkSize : Nat := 0
  currentChunkRead : Nat := 0
  deriving DecidableEq

namespace HttpParser

/-- A new parser after `set_max_size`. -/
def fresh (maxSize : Int) : HttpParser :=
  { maxSize := maxSize }

/-- `reset`. The pending bytes stay: they belong to the next pipelined request. -/
def reset (p : HttpParser) : HttpParser :=
  { maxSize := p.maxSize, pending := p.pending }

/-- `check_size_limit`: whether the consumed bytes are within the limit, and the parser, which
is in error when they are not. -/
def checkSizeLimit (p : HttpParser) : Bool × HttpParser :=
  if sizeT p.maxSize < p.raw.length then (false, { p with state := .error })
  else (true, p)

/-- `consume_partial`. -/
def consumePartial (p : HttpParser) (n : Nat) : HttpParser :=
  { p with raw := p.raw ++ p.pending.take n, pending := p.pending.drop n }

/-- `consume_line`. -/
def consumeLine (p : HttpParser) (line : Bytes) : HttpParser :=
  p.consumePartial (line.length + 2)

/-- `process_request_line`. A leading empty line is skipped. -/
def processRequestLine (p : HttpParser) : HttpParser :=
  match extractLine p.pending with
  | none => p
  | some line =>
      if line = [] then p.consumeLine line
      else
        let parsed := parseRequestLine line p.request
        let q := { p with request := parsed.2 }
        if !parsed.1 then { q with state := .error }
        else { q.consumeLine line with state := .headers }

/-- Whether the stored `transfer-encoding` value contains the word `chunked`. -/
def selectsChunked (headers : SortedMap Bytes Bytes) : Bool :=
  match headers.find? (ascii "transfer-encoding") with
  | none => false
  | some value => containsIcase (ascii "chunked") value

/-- The length taken from the stored `content-length` value; without an acceptable value the
field keeps what it had. -/
def headerContentLength (headers : SortedMap Bytes Bytes) (old : Int) : Int :=
  match headers.find? (ascii "content-length") with
  | none => old
  | some value =>
      match parseIntSafe value [] with
      | none => old
      | some n => if 0 ≤ n then n else old

/-- `finalize_headers`. -/
def finalizeHeaders (p : HttpParser) : HttpParser :=
  let chunked := p.isChunked || selectsChunked p.request.headers
  if chunked then
    { p with
      isChunked := true, state := .chunkedBody, chunkPhase := .sizeLine,
      currentChunkSize := 0, currentChunkRead := 0 }
  else
    let length := headerContentLength p.request.headers p.contentLength
    if 0 < length then { p with contentLength := length, state := .body, bodyRead := 0 }
    else { p with contentLength := length, state := .complete }

/-- Store a header line and consume it. -/
def takeHeaderLine (p : HttpParser) (line : Bytes) : HttpParser :=
  { p with request := addHeaderLine p.request line }.consumeLine line

/-- One pass of the loop of `process_headers`. -/
def headersIter (p : HttpParser) : Iter HttpParser HttpParser :=
  if p.pending.length < 2 then .done p
  else if p.pending.take 2 = crlf then .done (p.consumePartial 2).finalizeHeaders
  else
    match extractLine p.pending with
    | none => .done p
    | some line => .next (p.takeHeaderLine line)

theorem consume_partial_pending_length (p : HttpParser) (n : Nat) :
    (p.consumePartial n).pending.length = p.pending.length - n := by
  simp [consumePartial]

/-- Every header line consumes its terminator at least. -/
theorem headers_iter_decreasing : Decreasing headersIter fun p => p.pending.length := by
  intro p q h
  simp only [headersIter] at h
  split at h
  · cases h
  split at h
  · cases h
  split at h
  · cases h
  · rename_i line hline
    cases h
    have := extract_line_length hline
    simp only [takeHeaderLine, consumeLine, consume_partial_pending_length]
    omega

/-- `process_headers`. -/
def processHeaders (p : HttpParser) : HttpParser :=
  total headers_iter_decreasing p

/-- The body that `process_body` extracts from the consumed bytes: `content_length_` bytes
after the first blank line. -/
def assignBody (p : HttpParser) : HttpParser :=
  match cutSub crlfcrlf p.raw with
  | none => p
  | some (_, after) =>
      { p with request := { p.request with body := after.take p.contentLength.toNat } }

/-- The part of `process_body` that consumes `count` bytes and, if they end the body, extracts it
and completes the request. -/
def readBody (p : HttpParser) (count : Nat) : HttpParser :=
  let q : HttpParser := { p.consumePartial count with bodyRead := p.bodyRead + count }
  if p.contentLength.toNat ≤ q.bodyRead then { q.assignBody with state := .complete }
  else q

/-- `process_body`. -/
def processBody (p : HttpParser) : HttpParser :=
  if p.contentLength ≤ 0 then { p with state := .complete }
  else
    let remaining := p.contentLength.toNat - p.bodyRead
    if remaining = 0 then { p.assignBody with state := .complete }
    else p.readBody (min p.pending.length remaining)

/-- The value of one hexadecimal digit. -/
def hexDigit (c : UInt8) : Option Nat :=
  if 48 ≤ c && c ≤ 57 then some (c.toNat - 48)
  else if 97 ≤ c && c ≤ 102 then some (c.toNat - 97 + 10)
  else if 65 ≤ c && c ≤ 70 then some (c.toNat - 65 + 10)
  else none

/-- The accumulator loop of `parse_hex` over a `size_t`. -/
def parseHexFrom (value : Nat) : Bytes → Option Nat
  | [] => some value
  | c :: rest => do
      let digit ← hexDigit c
      parseHexFrom ((value <<< 4) % 2 ^ 64 ||| digit) rest

/-- `parse_hex`. -/
def parseHex (s : Bytes) : Option Nat :=
  if s = [] then none else parseHexFrom 0 s

/-- The size text of a chunk-size line: what stands before a chunk extension. -/
def chunkSizeText (line : Bytes) : Bytes :=
  match cut 59 line with
  | some (size, _) => size
  | none => line

/-- One pass of the trailer loop of `process_chunked`. The flag tells whether the loop was left
by `break`, at the final blank line, and not by `return`. -/
def trailerIter (p : HttpParser) : Iter HttpParser (Bool × HttpParser) :=
  if p.pending.length < 2 then .done (false, p)
  else if p.pending.take 2 = crlf then
    .done (true, { p.consumePartial 2 with chunkPhase := .finished })
  else
    match extractLine p.pending with
    | none => .done (false, p)
    | some line => .next (p.consumeLine line)

/-- Every trailer line consumes its terminator at least. -/
theorem trailer_iter_decreasing : Decreasing trailerIter fun p => p.pending.length := by
  intro p q h
  simp only [trailerIter] at h
  split at h
  · cases h
  split at h
  · cases h
  split at h
  · cases h
  · rename_i line hline
    cases h
    have := extract_line_length hline
    simp only [consumeLine, consume_partial_pending_length]
    omega

/-- The trailer loop of `process_chunked`. -/
def skipTrailer (p : HttpParser) : Bool × HttpParser :=
  total trailer_iter_decreasing p

/-- Note the size of a chunk and consume its size line. -/
def takeSizeLine (p : HttpParser) (line : Bytes) (size : Nat) : HttpParser :=
  { p with currentChunkSize := size }.consumePartial (line.length + 2)

/-- The `SizeLine` phase of `process_chunked`. -/
def chunkSizeLine (p : HttpParser) : Iter HttpParser HttpParser :=
  match extractLine p.pending with
  | none => .done p
  | some line =>
      match parseHex (chunkSizeText line) with
      | none => .done { p with state := .error }
      | some size =>
          let q := p.takeSizeLine line size
          if size = 0 then .next { q with chunkPhase := .trailer }
          else if !q.checkSizeLimit.1 then .done q.checkSizeLimit.2
          else .next { q with chunkPhase := .data, currentChunkRead := 0 }

/-- The `Data` phase of `process_chunked`. -/
def chunkData (p : HttpParser) : Iter HttpParser HttpParser :=
  let remaining := p.currentChunkSize - p.currentChunkRead
  if remaining = 0 then
    if p.pending.length < 2 then .done p
    else if p.pending.take 2 ≠ crlf then .done { p with state := .error }
    else .next { p.consumePartial 2 with chunkPhase := .sizeLine }
  else
    let count := min p.pending.length remaining
    let q : HttpParser :=
      { p.consumePartial count with currentChunkRead := p.currentChunkRead + count }
    if !q.checkSizeLimit.1 then .done q.checkSizeLimit.2
    else if q.currentChunkSize ≤ q.currentChunkRead then .next q
    else .done q

/-- One pass of the loop of `process_chunked`. -/
def chunkedIter (p : HttpParser) : Iter HttpParser HttpParser :=
  if p.state ≠ .chunkedBody then .done p
  else
    match p.chunkPhase with
    | .sizeLine => p.chunkSizeLine
    | .data => p.chunkData
    | .trailer => if p.skipTrailer.1 then .next p.skipTrailer.2 else .done p.skipTrailer.2
    | .finished => .done { p with state := .complete }

/-- The trailer loop left at the blank line has consumed that line. -/
theorem skip_trailer_pending_length {p : HttpParser} (h : p.skipTrailer.1 = true) :
    p.skipTrailer.2.pending.length < p.pending.length := by
  refine (returns_total trailer_iter_decreasing p).invariant
    (fun q => q.pending.length ≤ p.pending.length)
    (fun r => r.1 = true → r.2.pending.length < p.pending.length)
    ?_ ?_ (Nat.le_refl _) h
  · intro s t hinv hbody
    have := trailer_iter_decreasing s t hbody
    simp only at this
    omega
  · intro s r hinv hbody
    simp only [trailerIter] at hbody
    split at hbody
    · cases hbody
      simp
    split at hbody
    · cases hbody
      simp only [consume_partial_pending_length]
      omega
    split at hbody
    · cases hbody
      simp
    · cases hbody

/-- Every pass over a chunk element that goes round again has consumed bytes. -/
theorem chunked_iter_decreasing : Decreasing chunkedIter fun p => p.pending.length := by
  intro p q h
  simp only [chunkedIter] at h
  split at h
  · cases h
  split at h
  · simp only [chunkSizeLine] at h
    split at h
    · cases h
    rename_i line hline
    have := extract_line_length hline
    split at h
    · cases h
    split at h
    · cases h
      simp only [takeSizeLine, consume_partial_pending_length]
      omega
    split at h
    · cases h
    · cases h
      simp only [takeSizeLine, consume_partial_pending_length]
      omega
  · simp only [chunkData] at h
    split at h
    · split at h
      · cases h
      split at h
      · cases h
      · cases h
        simp only [consume_partial_pending_length]
        omega
    · split at h
      · cases h
      split at h
      · rename_i hread
        cases h
        simp only [consumePartial] at hread
        simp only [consume_partial_pending_length]
        omega
      · cases h
  · split at h
    · rename_i hbreak
      cases h
      exact skip_trailer_pending_length hbreak
    · cases h
  · cases h

/-- `process_chunked`. -/
def processChunked (p : HttpParser) : HttpParser :=
  total chunked_iter_decreasing p

/-- The tests of `process` after the `switch`. -/
def afterSwitch (q : HttpParser) : Iter HttpParser HttpParser :=
  if q.state = .requestLine ∨ q.state = .headers then .done q
  else if (q.state = .body ∨ q.state = .chunkedBody) ∧ q.pending = [] ∧ q.state ≠ .complete then
    .done q
  else .next q

/-- One pass of the loop of `process`. -/
def processIter (p : HttpParser) : Iter HttpParser HttpParser :=
  match p.state with
  | .complete | .error => .done p
  | .requestLine =>
      if p.processRequestLine.state = .headers then .next p.processRequestLine
      else afterSwitch p.processRequestLine
  | .headers => afterSwitch p.processHeaders
  | .body => afterSwitch p.processBody
  | .chunkedBody => afterSwitch p.processChunked

/-- `process`, with a bound on the passes of its loop. -/
def process (fuel : Nat) (p : HttpParser) : Option HttpParser :=
  run processIter fuel p

/-- Append input to the pending bytes. -/
def feed (p : HttpParser) (data : Bytes) : HttpParser :=
  { p with pending := p.pending ++ data }

@[simp] theorem feed_state (p : HttpParser) (data : Bytes) : (p.feed data).state = p.state := rfl

@[simp] theorem feed_request (p : HttpParser) (data : Bytes) :
    (p.feed data).request = p.request := rfl

@[simp] theorem feed_raw (p : HttpParser) (data : Bytes) : (p.feed data).raw = p.raw := rfl

@[simp] theorem feed_pending (p : HttpParser) (data : Bytes) :
    (p.feed data).pending = p.pending ++ data := rfl

@[simp] theorem feed_max_size (p : HttpParser) (data : Bytes) :
    (p.feed data).maxSize = p.maxSize := rfl

@[simp] theorem feed_content_length (p : HttpParser) (data : Bytes) :
    (p.feed data).contentLength = p.contentLength := rfl

@[simp] theorem feed_body_read (p : HttpParser) (data : Bytes) :
    (p.feed data).bodyRead = p.bodyRead := rfl

@[simp] theorem feed_nil (p : HttpParser) : p.feed [] = p := by
  simp [feed]

theorem feed_feed (p : HttpParser) (first second : Bytes) :
    (p.feed first).feed second = p.feed (first ++ second) := by
  simp [feed]

/-- `parse`: the parser after the call and the number of bytes reported as consumed. -/
def parse (fuel : Nat) (p : HttpParser) (data : Bytes) : Option (HttpParser × Nat) :=
  if p.state = .error ∨ p.state = .complete then some (p, 0)
  else do
    let q ← process fuel (p.feed data)
    if !q.checkSizeLimit.1 then some (q.checkSizeLimit.2, 0)
    else if 0 < data.length then some (q, data.length)
    else some (q, q.raw.length - p.raw.length)

/-- The call `parse(data)` returns, with this parser and this result. -/
def Parses (p : HttpParser) (data : Bytes) (q : HttpParser) (consumed : Nat) : Prop :=
  ∃ fuel, p.parse fuel data = some (q, consumed)

end HttpParser

end ApiGateway.Http
