import ApiGateway.Http.ChunkSize
import ApiGateway.Http.PlainRequest

/-!
# Complete chunked requests

A `ChunkedBody` is the grammar of a chunked message body: chunks with their size lines, a size line
of zero, trailer lines, and a blank line. After a head that selects chunked transfer coding, one
call of `parse` reads such a body to its end and no further (`chunked_request_read`), whatever bytes
the chunks consist of and whatever follows.
-/

namespace ApiGateway.Http

open Loop Search HttpParser

/-- A chunk-size line without its terminator: digits, and possibly an extension after a
semicolon. -/
structure SizeLine where
  digits : Bytes
  ext : Option Bytes
  size : Nat
  digits_value : hexValue digits = some size
  ext_cr : ∀ e ∈ ext, cr ∉ e

/-- A chunk: its size line and its data. -/
structure DataChunk where
  line : SizeLine
  data : Bytes
  data_ne : data ≠ []
  digits_le : line.digits.length ≤ 16
  size_eq : line.size = data.length

/-- A chunked body. -/
structure ChunkedBody where
  chunks : List DataChunk
  last : SizeLine
  trailer : List Bytes
  last_size : last.size = 0
  trailer_valid : ∀ line ∈ trailer, line ≠ [] ∧ cr ∉ line

namespace SizeLine

/-- The bytes of a size line. -/
def bytes (l : SizeLine) : Bytes :=
  l.digits ++ l.ext.elim [] fun e => 59 :: e

theorem not_mem_digits (l : SizeLine) {c : UInt8} (hc : hexDigit c = none) : c ∉ l.digits := by
  intro hmem
  have hvalue := l.digits_value
  rw [hexValue] at hvalue
  split at hvalue
  · cases hvalue
  · obtain ⟨d, hd⟩ := hex_digit_of_mem hvalue hmem
    cases hc.symm.trans hd

theorem bytes_cr (l : SizeLine) : cr ∉ l.bytes := by
  rw [bytes, List.mem_append, not_or]
  refine ⟨l.not_mem_digits (by decide), ?_⟩
  cases hext : l.ext with
  | none => simp
  | some e =>
      rw [Option.elim_some, List.mem_cons, not_or]
      exact ⟨by decide, l.ext_cr e hext⟩

/-- The size text ends before the extension. -/
theorem chunk_size_text (l : SizeLine) : chunkSizeText l.bytes = l.digits := by
  have hsemicolon : (59 : UInt8) ∉ l.digits := l.not_mem_digits (by decide)
  rw [chunkSizeText, bytes]
  cases l.ext with
  | none =>
      rw [Option.elim_none, List.append_nil]
      split
      · rename_i size _ hcut
        rw [(cut_eq_some_iff.1 hcut).1] at hsemicolon
        simp at hsemicolon
      · rfl
  | some e => rw [Option.elim_some, cut_append hsemicolon]

theorem parse_hex (l : SizeLine) : parseHex (chunkSizeText l.bytes) = some (l.size % 2 ^ 64) := by
  rw [l.chunk_size_text]
  exact parse_hex_of_value l.digits_value

end SizeLine

namespace DataChunk

/-- The bytes of a chunk. -/
def bytes (c : DataChunk) : Bytes :=
  c.line.bytes ++ crlf ++ c.data ++ crlf

/-- Sixteen digits fit a `size_t`. -/
theorem parse_hex (c : DataChunk) :
    parseHex (chunkSizeText c.line.bytes) = some c.data.length := by
  have hlt : c.line.size < 2 ^ 64 := by
    have hvalue := c.line.digits_value
    rw [hexValue] at hvalue
    split at hvalue
    · cases hvalue
    · calc c.line.size < (0 + 1) * 16 ^ c.line.digits.length := hex_value_from_lt hvalue
        _ ≤ (0 + 1) * 16 ^ 16 :=
            Nat.mul_le_mul_left _ (Nat.pow_le_pow_right (by decide) c.digits_le)
        _ = 2 ^ 64 := by decide
  rw [c.line.parse_hex, Nat.mod_eq_of_lt hlt, c.size_eq]

end DataChunk

/-- The bytes of a chunked body. -/
def ChunkedBody.bytes (b : ChunkedBody) : Bytes :=
  (b.chunks.map DataChunk.bytes).flatten ++ (b.last.bytes ++ crlf) ++ (joinLines b.trailer ++ crlf)

theorem ChunkedBody.bytes_ne_nil (b : ChunkedBody) : b.bytes ≠ [] := by
  simp [ChunkedBody.bytes]

namespace HttpParser

variable {p q r : HttpParser} {s s' t u : Bytes} {phase phase' : ChunkPhase}

/-- The loop of `process_chunked` gets from `p` to `q` by reading the bytes `t`; then the bytes `s`
are pending and the given phase is next. -/
structure ReadsChunked (p : HttpParser) (t : Bytes) (q : HttpParser) (phase : ChunkPhase)
    (s : Bytes) : Prop where
  visits : Visits chunkedIter p q
  state : q.state = .chunkedBody
  phase : q.chunkPhase = phase
  raw : q.raw = p.raw ++ t
  pending : q.pending = s
  maxSize : q.maxSize = p.maxSize

theorem ReadsChunked.trans (h : ReadsChunked p t q phase s) (h' : ReadsChunked q u r phase' s') :
    ReadsChunked p (t ++ u) r phase' s' where
  visits := Relation.ReflTransGen.trans h.visits h'.visits
  state := h'.state
  phase := h'.phase
  raw := by rw [h'.raw, h.raw, List.append_assoc]
  pending := h'.pending
  maxSize := h'.maxSize.trans h.maxSize

/-- Consuming the first bytes moves them to the consumed ones. -/
theorem consume_partial_read {n : Nat} (hpending : p.pending = t ++ s) (hn : t.length = n) :
    (p.consumePartial n).raw = p.raw ++ t ∧ (p.consumePartial n).pending = s := by
  subst hn
  constructor
  · show p.raw ++ p.pending.take t.length = _
    rw [hpending, List.take_left]
  · show p.pending.drop t.length = s
    rw [hpending, List.drop_left]

theorem extract_blank (hpending : p.pending = crlf ++ s) : extractLine p.pending = some [] := by
  rw [hpending]
  exact extract_line_append List.not_mem_nil

theorem extract_size_line (l : SizeLine) (hpending : p.pending = l.bytes ++ crlf ++ s) :
    extractLine p.pending = some l.bytes := by
  rw [hpending]
  exact extract_line_append l.bytes_cr

/-- The size line of a chunk is read. -/
theorem size_line_read (c : DataChunk) (hstate : p.state = .chunkedBody)
    (hphase : p.chunkPhase = .sizeLine) (hpending : p.pending = c.line.bytes ++ crlf ++ s)
    (hlimit : p.raw.length + (c.line.bytes.length + 2) ≤ sizeT p.maxSize) :
    ∃ q, ReadsChunked p (c.line.bytes ++ crlf) q .data s ∧ q.currentChunkSize = c.data.length ∧
      q.currentChunkRead = 0 := by
  have hline := extract_size_line c.line hpending
  have hsize : c.data.length ≠ 0 := fun h => c.data_ne (List.eq_nil_of_length_eq_zero h)
  have hpass := (chunked_iter_size_line hstate hphase).trans
    (chunk_size_line_data hline c.parse_hex hsize hlimit)
  obtain ⟨hraw, hrest⟩ := consume_partial_read hpending
    (show _ = c.line.bytes.length + 2 by simp)
  exact ⟨_, ⟨.single hpass, hstate, rfl, hraw, hrest, rfl⟩, rfl, rfl⟩

/-- The data of a chunk is read, whatever bytes it consists of. -/
theorem data_read {data : Bytes} (hne : data ≠ []) (hstate : p.state = .chunkedBody)
    (hphase : p.chunkPhase = .data) (hpending : p.pending = data ++ s)
    (hsize : p.currentChunkSize = data.length) (hread : p.currentChunkRead = 0)
    (hlimit : p.raw.length + data.length ≤ sizeT p.maxSize) :
    ∃ q, ReadsChunked p data q .data s ∧ q.currentChunkSize - q.currentChunkRead = 0 := by
  have hpos := List.length_pos_iff.2 hne
  have hrest : p.currentChunkSize - p.currentChunkRead = data.length := by omega
  have hcount : min p.pending.length (p.currentChunkSize - p.currentChunkRead) = data.length := by
    rw [hrest, hpending, List.length_append]
    omega
  have hlimit' : p.takeChunkData.raw.length ≤ sizeT p.maxSize := by
    rw [take_chunk_data_raw_length, hcount]
    exact hlimit
  have hpass := (chunked_iter_data hstate hphase).trans
    (chunk_data_next (by omega) hlimit' (by rw [hrest, hpending]; simp))
  obtain ⟨hraw, hleft⟩ := consume_partial_read hpending hcount.symm
  refine ⟨_, ⟨.single hpass, hstate, hphase, hraw, hleft, rfl⟩, ?_⟩
  show p.currentChunkSize - (p.currentChunkRead + _) = 0
  rw [hcount]
  omega

/-- The line end after the data of a chunk is read. -/
theorem data_end_read (hstate : p.state = .chunkedBody) (hphase : p.chunkPhase = .data)
    (hpending : p.pending = crlf ++ s) (hdone : p.currentChunkSize - p.currentChunkRead = 0) :
    ∃ q, ReadsChunked p crlf q .sizeLine s := by
  have hpass := (chunked_iter_data hstate hphase).trans
    (chunk_data_crlf hdone (by rw [hpending]; rfl))
  obtain ⟨hraw, hrest⟩ := consume_partial_read hpending (show _ = 2 from rfl)
  exact ⟨_, .single hpass, hstate, rfl, hraw, hrest, rfl⟩

theorem chunk_read (c : DataChunk) (hstate : p.state = .chunkedBody)
    (hphase : p.chunkPhase = .sizeLine) (hpending : p.pending = c.bytes ++ s)
    (hlimit : p.raw.length + c.bytes.length ≤ sizeT p.maxSize) :
    ∃ q, ReadsChunked p c.bytes q .sizeLine s := by
  simp only [DataChunk.bytes, List.append_assoc] at hpending
  simp only [DataChunk.bytes, List.length_append, List.length_cons, List.length_nil] at hlimit
  obtain ⟨p₁, h₁, hsize, hzero⟩ := size_line_read c hstate hphase
    (by rw [hpending, List.append_assoc]) (by omega)
  have hlimit₁ : p₁.raw.length + c.data.length ≤ sizeT p₁.maxSize := by
    rw [h₁.raw, h₁.maxSize]
    simp only [List.length_append, List.length_cons, List.length_nil]
    omega
  obtain ⟨p₂, h₂, hdone⟩ := data_read c.data_ne h₁.state h₁.phase h₁.pending hsize hzero hlimit₁
  obtain ⟨p₃, h₃⟩ := data_end_read h₂.state h₂.phase h₂.pending hdone
  exact ⟨p₃, (h₁.trans h₂).trans h₃⟩

/-- All chunks are read. -/
theorem chunks_read (chunks : List DataChunk) (hstate : p.state = .chunkedBody)
    (hphase : p.chunkPhase = .sizeLine)
    (hpending : p.pending = (chunks.map DataChunk.bytes).flatten ++ s)
    (hlimit : p.raw.length + (chunks.map DataChunk.bytes).flatten.length ≤ sizeT p.maxSize) :
    ∃ q, ReadsChunked p (chunks.map DataChunk.bytes).flatten q .sizeLine s := by
  induction chunks generalizing p with
  | nil => exact ⟨p, .refl, hstate, hphase, by simp, by simpa using hpending, rfl⟩
  | cons c rest ih =>
      simp only [List.map_cons, List.flatten_cons, List.append_assoc] at hpending
      simp only [List.map_cons, List.flatten_cons, List.length_append] at hlimit
      obtain ⟨p₁, h₁⟩ := chunk_read c hstate hphase hpending (by omega)
      have hlimit₁ : p₁.raw.length + (rest.map DataChunk.bytes).flatten.length ≤
          sizeT p₁.maxSize := by
        rw [h₁.raw, h₁.maxSize, List.length_append]
        omega
      obtain ⟨q, h⟩ := ih h₁.state h₁.phase h₁.pending hlimit₁
      exact ⟨q, by simpa using h₁.trans h⟩

/-- The size line of zero is read. -/
theorem last_line_read (l : SizeLine) (hzero : l.size = 0) (hstate : p.state = .chunkedBody)
    (hphase : p.chunkPhase = .sizeLine) (hpending : p.pending = l.bytes ++ crlf ++ s) :
    ∃ q, ReadsChunked p (l.bytes ++ crlf) q .trailer s := by
  have hline := extract_size_line l hpending
  have hhex := l.parse_hex
  rw [hzero] at hhex
  have hpass := (chunked_iter_size_line hstate hphase).trans (chunk_size_line_last hline hhex)
  obtain ⟨hraw, hrest⟩ := consume_partial_read hpending (show _ = l.bytes.length + 2 by simp)
  exact ⟨_, .single hpass, hstate, rfl, hraw, hrest, rfl⟩

/-- A pass that consumes a line and leaves the state and the limit alone. -/
structure ConsumesLine (step : HttpParser → Bytes → HttpParser) : Prop where
  raw : ∀ p line, (step p line).raw = (p.consumeLine line).raw
  pending : ∀ p line, (step p line).pending = (p.consumeLine line).pending
  state : ∀ p line, (step p line).state = p.state
  maxSize : ∀ p line, (step p line).maxSize = p.maxSize

/-- A loop that consumes a line in each pass reads lines that are not blank. -/
theorem lines_read {ρ : Type} {iter : HttpParser → Iter HttpParser ρ}
    {step : HttpParser → Bytes → HttpParser} (hstep : ConsumesLine step)
    (hiter : ∀ p line, line ≠ [] → extractLine p.pending = some line → iter p = .next (step p line))
    (lines : List Bytes) (hvalid : ∀ line ∈ lines, line ≠ [] ∧ cr ∉ line)
    (hpending : p.pending = joinLines lines ++ s) :
    Visits iter p (lines.foldl step p) ∧ (lines.foldl step p).raw = p.raw ++ joinLines lines ∧
      (lines.foldl step p).pending = s ∧ (lines.foldl step p).state = p.state ∧
      (lines.foldl step p).maxSize = p.maxSize := by
  induction lines generalizing p with
  | nil => exact ⟨.refl, (List.append_nil _).symm, hpending, rfl, rfl⟩
  | cons line rest ih =>
      obtain ⟨hne, hcr⟩ := hvalid line List.mem_cons_self
      rw [join_lines_cons, List.append_assoc] at hpending
      have hline : extractLine p.pending = some line := by
        rw [hpending]
        exact extract_line_append hcr
      obtain ⟨hraw, hrest⟩ := consume_partial_read hpending (show _ = line.length + 2 by simp)
      obtain ⟨hvisits, hraw', hpending', hstate, hmax⟩ :=
        ih (fun l hl => hvalid l (List.mem_cons_of_mem line hl))
          ((hstep.pending p line).trans hrest)
      refine ⟨.head (hiter p line hne hline) hvisits, ?_, hpending',
        hstate.trans (hstep.state p line),
        hmax.trans (hstep.maxSize p line)⟩
      rw [List.foldl_cons, hraw', hstep.raw, HttpParser.consumeLine, hraw, join_lines_cons,
        List.append_assoc]

/-- The trailer loop reads the trailer lines and the blank line. -/
theorem skip_trailer_lines (lines : List Bytes) (hvalid : ∀ line ∈ lines, line ≠ [] ∧ cr ∉ line)
    (hpending : p.pending = joinLines lines ++ crlf ++ s) :
    ∃ q : HttpParser, p.skipTrailer = (true, q) ∧ q.state = p.state ∧ q.chunkPhase = .finished ∧
      q.raw = p.raw ++ (joinLines lines ++ crlf) ∧ q.pending = s ∧ q.maxSize = p.maxSize := by
  have hiter : ∀ (p : HttpParser) (line : Bytes), line ≠ [] → extractLine p.pending = some line →
      p.trailerIter = .next (p.consumeLine line) := by
    intro p line hne hline
    rw [trailer_iter_eq, hline]
    cases line with
    | nil => exact absurd rfl hne
    | cons _ _ => rfl
  have hstep : ConsumesLine consumeLine :=
    ⟨fun _ _ => rfl, fun _ _ => rfl, fun _ _ => rfl, fun _ _ => rfl⟩
  obtain ⟨hvisits, hraw, hblank, hstate, hmax⟩ :=
    lines_read hstep hiter lines hvalid (hpending.trans (List.append_assoc _ _ _))
  generalize lines.foldl consumeLine p = last at hvisits hraw hblank hstate hmax
  have hdone : last.trailerIter =
      .done (true, { last.consumePartial 2 with chunkPhase := .finished }) := by
    rw [trailer_iter_eq, extract_blank hblank]
  obtain ⟨hraw', hrest⟩ := consume_partial_read hblank (show _ = 2 from rfl)
  refine ⟨_, (returns_iff_total trailer_iter_decreasing).1
    (hvisits.returns_iff.2 (.of_done hdone)), hstate, rfl, ?_, hrest, hmax⟩
  show (last.consumePartial 2).raw = _
  rw [hraw', hraw, List.append_assoc]

/-- `process_chunked` reads a chunked body to its end. -/
theorem process_chunked_body (b : ChunkedBody) (hstate : p.state = .chunkedBody)
    (hphase : p.chunkPhase = .sizeLine) (hpending : p.pending = b.bytes ++ s)
    (hlimit : p.raw.length + b.bytes.length ≤ sizeT p.maxSize) :
    p.processChunked.state = .complete ∧ p.processChunked.raw = p.raw ++ b.bytes ∧
      p.processChunked.pending = s ∧ p.processChunked.maxSize = p.maxSize := by
  simp only [ChunkedBody.bytes, List.append_assoc] at hpending
  simp only [ChunkedBody.bytes, List.length_append] at hlimit
  obtain ⟨p₁, h₁⟩ := chunks_read b.chunks hstate hphase hpending (by omega)
  obtain ⟨p₂, h₂⟩ := last_line_read (s := joinLines b.trailer ++ crlf ++ s) b.last b.last_size
    h₁.state h₁.phase (h₁.pending.trans (by simp))
  obtain ⟨p₃, htrailer, hstate₃, hphase₃, hraw₃, hpending₃, hmax₃⟩ :=
    skip_trailer_lines b.trailer b.trailer_valid h₂.pending
  have hpass₃ : p₂.chunkedIter = .next p₃ := by
    rw [chunked_iter_trailer h₂.state h₂.phase, htrailer]
    rfl
  have hlast := chunked_iter_finished (hstate₃.trans h₂.state) hphase₃
  have hreturns : Returns chunkedIter p { p₃ with state := .complete } :=
    (h₁.trans h₂).visits.returns_iff.2 ((returns_next_iff hpass₃).2 (.of_done hlast))
  rw [show p.processChunked = _ from (returns_iff_total chunked_iter_decreasing).1 hreturns]
  refine ⟨rfl, ?_, hpending₃, hmax₃.trans (h₂.maxSize.trans h₁.maxSize)⟩
  show p₃.raw = _
  rw [hraw₃, h₂.raw, h₁.raw, ChunkedBody.bytes]
  simp only [List.append_assoc]

/-- `process_headers` reads header lines and the blank line after them. -/
theorem process_headers_lines (fields : List Bytes)
    (hvalid : ∀ line ∈ fields, line ≠ [] ∧ cr ∉ line)
    (hpending : p.pending = joinLines fields ++ crlf ++ s) :
    ∃ q : HttpParser, p.processHeaders = q.finalizeHeaders ∧
      q.request = fields.foldl addHeaderLine p.request ∧
      q.raw = p.raw ++ (joinLines fields ++ crlf) ∧ q.pending = s ∧ q.maxSize = p.maxSize := by
  have hiter : ∀ (p : HttpParser) (line : Bytes), line ≠ [] → extractLine p.pending = some line →
      p.headersIter = .next (p.takeHeaderLine line) := by
    intro p line hne hline
    rw [headers_iter_eq, hline]
    cases line with
    | nil => exact absurd rfl hne
    | cons _ _ => rfl
  have hstep : ConsumesLine takeHeaderLine :=
    ⟨fun _ _ => rfl, fun _ _ => rfl, fun _ _ => rfl, fun _ _ => rfl⟩
  obtain ⟨hvisits, hraw, hblank, -, hmax⟩ :=
    lines_read hstep hiter fields hvalid (hpending.trans (List.append_assoc _ _ _))
  have hrequest : (fields.foldl takeHeaderLine p).request = fields.foldl addHeaderLine p.request :=
    (List.foldl_hom HttpParser.request fun _ _ => rfl).symm
  generalize fields.foldl takeHeaderLine p = last at hvisits hraw hblank hmax hrequest
  have hdone : last.headersIter = .done (last.consumePartial 2).finalizeHeaders := by
    rw [headers_iter_eq, extract_blank hblank]
  obtain ⟨hraw', hrest⟩ := consume_partial_read hblank (show _ = 2 from rfl)
  refine ⟨last.consumePartial 2, (returns_iff_total headers_iter_decreasing).1
    (hvisits.returns_iff.2 (.of_done hdone)), hrequest, ?_, hrest, hmax⟩
  rw [hraw', hraw, List.append_assoc]

/-- A head that selects chunked transfer coding leads the dispatch loop to its body. -/
theorem process_head_chunked (head : RequestHead) (hblanks : head.blanks = 0)
    (hchunked : head.selectsChunked = true) (maxSize : Int) (hs : s ≠ []) :
    ∃ q, Visits processIter ((fresh maxSize).feed (head.bytes ++ s)) q ∧
      q.state = .chunkedBody ∧ q.chunkPhase = .sizeLine ∧ q.raw = head.bytes ∧ q.pending = s ∧
      q.maxSize = maxSize := by
  have hbytes : head.bytes ++ s =
      head.requestLine ++ crlf ++ (joinLines head.fields ++ crlf ++ s) := by
    simp [RequestHead.bytes, RequestHead.opening, RequestHead.lines, hblanks]
  generalize hstart : (fresh maxSize).feed (head.bytes ++ s) = p
  have hpending : p.pending = head.requestLine ++ crlf ++ (joinLines head.fields ++ crlf ++ s) := by
    rw [← hstart, ← hbytes]
    rfl
  have hempty : p.request = {} ∧ p.raw = [] ∧ p.state = .requestLine ∧ p.maxSize = maxSize := by
    rw [← hstart]
    exact ⟨rfl, rfl, rfl, rfl⟩
  obtain ⟨hrequest, hraw, hstate, hmax⟩ := hempty
  -- the request line
  have hline : extractLine p.pending = some head.requestLine := by
    rw [hpending]
    exact extract_line_append head.request_line_cr
  have hfirst := process_request_line_headers hline head.request_line_ne_nil
    (by rw [hrequest]; exact head.request_line_valid)
  obtain ⟨hraw₁, hpending₁⟩ := consume_partial_read hpending
    (show _ = head.requestLine.length + 2 by simp)
  have hpass₁ : p.processIter = .next p.processRequestLine := by
    simp [processIter, hstate, hfirst]
  -- the header lines
  obtain ⟨q, hq, hrequest₂, hraw₂, hpending₂, hmax₂⟩ :=
    process_headers_lines (p := p.processRequestLine) head.fields head.fields_valid
      (by rw [hfirst]; exact hpending₁)
  have hselects : (q.isChunked || selectsChunked q.request.headers) = true := by
    rw [hrequest₂, hfirst, hrequest, Bool.or_eq_true]
    exact .inr hchunked
  rw [finalize_headers_chunked hselects] at hq
  have hstate₁ : p.processRequestLine.state = .headers := by rw [hfirst]
  have hpass₂ : p.processRequestLine.processIter = .next p.processRequestLine.processHeaders := by
    simp only [processIter, hstate₁]
    rw [hq]
    simp [afterSwitch, hpending₂, hs]
  refine ⟨_, .tail (.single hpass₁) hpass₂, ?_⟩
  rw [hq]
  refine ⟨rfl, rfl, ?_, hpending₂, ?_⟩
  · show q.raw = head.bytes
    rw [hraw₂, hfirst]
    show (p.consumePartial (head.requestLine.length + 2)).raw ++ _ = _
    rw [hraw₁, hraw]
    simp [RequestHead.bytes, RequestHead.opening, RequestHead.lines, hblanks]
  · show q.maxSize = maxSize
    rw [hmax₂, hfirst]
    exact hmax

/-- One call of `parse` reads a chunked request to its end, whatever follows it. -/
theorem chunked_request_read (head : RequestHead) (body : ChunkedBody) (rest : Bytes)
    (maxSize : Int) (hblanks : head.blanks = 0) (hchunked : head.selectsChunked = true)
    (hlimit : (head.bytes ++ body.bytes).length ≤ sizeT maxSize) :
    ∃ q consumed, Parses (fresh maxSize) (head.bytes ++ body.bytes ++ rest) q consumed ∧
      q.state = .complete ∧ q.raw = head.bytes ++ body.bytes ∧ q.pending = rest := by
  have hne : body.bytes ++ rest ≠ [] := by simp [body.bytes_ne_nil]
  obtain ⟨p, hvisits, hstate, hphase, hraw, hpending, hmax⟩ :=
    process_head_chunked head hblanks hchunked maxSize hne
  obtain ⟨hcomplete, hraw', hrest, hmax'⟩ := process_chunked_body body hstate hphase hpending
    (by rwa [hraw, hmax, ← List.length_append])
  rw [hraw] at hraw'
  rw [hmax] at hmax'
  have hpass : p.processIter = p.processChunked.afterSwitch := by simp only [processIter, hstate]
  have hreturns : Returns processIter ((fresh maxSize).feed (head.bytes ++ body.bytes ++ rest))
      p.processChunked := by
    rw [List.append_assoc]
    exact hvisits.returns_iff.2 (returns_of_finished hpass (.inl hcomplete))
  exact ⟨_, _, parses_within (by simp [fresh]) hreturns (by rwa [hraw', hmax']), hcomplete, hraw',
    hrest⟩

/-- The head of a chunked request. -/
def uploadHead : RequestHead where
  blanks := 0
  requestLine := ascii "POST /upload HTTP/1.1"
  fields := [ascii "Transfer-Encoding: chunked"]
  request_line_cr := by decide
  request_line_valid := by decide
  fields_valid := by decide

/-- A body of one chunk, whose data contains a line end, and one trailer line. -/
def uploadBody : ChunkedBody where
  chunks := [{
    line := ⟨ascii "04", some (ascii "name=value"), 4, by decide, by decide⟩
    data := ascii "a\r\nb"
    data_ne := by decide
    digits_le := by decide
    size_eq := rfl }]
  last := ⟨ascii "000", none, 0, by decide, by decide⟩
  trailer := [ascii "Expires: 0"]
  last_size := rfl
  trailer_valid := by decide

theorem chunked_request_read_upload :
    ∃ q consumed, Parses (fresh 100) (uploadHead.bytes ++ uploadBody.bytes ++ ascii "GET") q
        consumed ∧
      q.state = .complete ∧ q.raw = uploadHead.bytes ++ uploadBody.bytes ∧
      q.pending = ascii "GET" :=
  chunked_request_read uploadHead uploadBody (ascii "GET") 100 rfl (by decide) (by decide)

end HttpParser

end ApiGateway.Http
