import ApiGateway.Http.Driver

/-!
# Complete plain requests

A `PlainRequest` is a head that selects no chunked body, followed by as many bytes as the head
announces. The parser reads such a request to its end and no further (`PlainRequest.settles`), and
has not decided anything before the last byte has arrived (`PlainRequest.undecided`).
-/

namespace ApiGateway.Http

open Loop Search HttpParser

/-- A complete request without a chunked body. -/
structure PlainRequest where
  head : RequestHead
  body : Bytes
  plain : head.selectsChunked = false
  length_eq : body.length = head.contentLength.toNat

namespace HttpParser

variable {p q : HttpParser} {s line : Bytes}

/-- What reading the lines of a head leaves alone. -/
def SameBody (p q : HttpParser) : Prop :=
  q.isChunked = p.isChunked ∧ q.contentLength = p.contentLength

/-- Empty lines before the request line are read. -/
theorem blanks_steps (blanks : Nat) (hstate : p.state = .requestLine)
    (hpending : p.pending = joinLines (List.replicate blanks []) ++ s) :
    ∃ q, machine.Steps p q ∧ q.state = .requestLine ∧ q.pending = s ∧ q.request = p.request ∧
      SameBody p q := by
  induction blanks generalizing p with
  | zero => exact ⟨p, .refl p, hstate, by simpa using hpending, rfl, rfl, rfl⟩
  | succ n ih =>
      have hline : extractLine p.pending = some [] := by
        rw [hpending, List.replicate_succ, join_lines_cons, List.append_assoc]
        exact extract_line_append (by simp)
      have hstep : machine.step p = some (p.consumePartial 2) := by
        show p.tick = _
        simp only [tick, hstate, tickRequestLine, hline, process_request_line_blank hline]
      have hrest : (p.consumePartial 2).pending = joinLines (List.replicate n []) ++ s := by
        show p.pending.drop 2 = _
        rw [hpending, List.replicate_succ]
        rfl
      obtain ⟨q, hsteps, hq⟩ := ih (p := p.consumePartial 2) hstate hrest
      exact ⟨q, (StreamMachine.Steps.single hstep).trans hsteps, hq⟩

/-- The request line is read. -/
theorem request_line_steps (hstate : p.state = .requestLine)
    (hpending : p.pending = line ++ crlf ++ s)
    (hcr : cr ∉ line) (hparsed : (parseRequestLine line p.request).1 = true) :
    ∃ q, machine.Steps p q ∧ q.state = .headers ∧ q.pending = s ∧
      q.request = (parseRequestLine line p.request).2 ∧ SameBody p q := by
  have hne : line ≠ [] := fun hnil => by
    rw [hnil] at hparsed
    cases hparsed
  have hline : extractLine p.pending = some line := by
    rw [hpending]
    exact extract_line_append hcr
  refine ⟨p.processRequestLine, .single ?_, ?_⟩
  · show p.tick = _
    simp only [tick, hstate, tickRequestLine, hline]
  · rw [process_request_line_headers hline hne hparsed]
    refine ⟨rfl, ?_, rfl, rfl, rfl⟩
    show p.pending.drop (line.length + 2) = s
    rw [hpending]
    exact List.drop_left' (by simp)

/-- Header lines are read. -/
theorem fields_steps {fields : List Bytes} (hstate : p.state = .headers)
    (hpending : p.pending = joinLines fields ++ s)
    (hfields : ∀ line ∈ fields, line ≠ [] ∧ cr ∉ line) :
    ∃ q, machine.Steps p q ∧ q.state = .headers ∧ q.pending = s ∧
      q.request = fields.foldl addHeaderLine p.request ∧ SameBody p q := by
  induction fields generalizing p with
  | nil => exact ⟨p, .refl p, hstate, by simpa using hpending, rfl, rfl, rfl⟩
  | cons line fields ih =>
      obtain ⟨hne, hcr⟩ := hfields line (by simp)
      have hline : extractLine p.pending = some line := by
        rw [hpending, join_lines_cons, List.append_assoc]
        exact extract_line_append hcr
      have hstep : machine.step p = some (p.takeHeaderLine line) := by
        show p.tick = _
        obtain ⟨c, rest, rfl⟩ := List.exists_cons_of_ne_nil hne
        simp only [tick, hstate, tickHeaders, hline]
      have hrest : (p.takeHeaderLine line).pending = joinLines fields ++ s := by
        show p.pending.drop (line.length + 2) = _
        rw [hpending, join_lines_cons, List.append_assoc]
        exact List.drop_left' (by simp)
      obtain ⟨q, hsteps, hq⟩ := ih (p := p.takeHeaderLine line) hstate hrest
        fun l hl => hfields l (by simp [hl])
      exact ⟨q, (StreamMachine.Steps.single hstep).trans hsteps, hq⟩

/-- The blank line and the body are read. -/
theorem body_steps {body : Bytes} (hstate : p.state = .headers)
    (hpending : p.pending = crlf ++ body ++ s) (hchunked : p.isChunked = false)
    (hplain : selectsChunked p.request.headers = false)
    (hlength : body.length = (headerContentLength p.request.headers p.contentLength).toNat) :
    ∃ q, machine.Steps p q ∧ q.state = .complete ∧ q.pending = s := by
  have hline : extractLine p.pending = some [] := by
    rw [hpending, List.append_assoc]
    exact extract_line_eq_some_iff.2 ⟨by simp, body ++ s, rfl⟩
  have hstep : machine.step p = some (p.consumePartial 2).finalizeHeaders := by
    show p.tick = _
    simp only [tick, hstate, tickHeaders, hline]
  have hrest : (p.consumePartial 2).pending = body ++ s := by
    show p.pending.drop 2 = _
    rw [hpending]
    rfl
  by_cases hpos : 0 < headerContentLength p.request.headers p.contentLength
  · -- the body is read in one go, and its last byte completes the request
    have hfinal : (p.consumePartial 2).finalizeHeaders = { p.consumePartial 2 with
        contentLength := headerContentLength p.request.headers p.contentLength,
        state := .body, bodyRead := 0 } := by
      simp [finalizeHeaders, consumePartial, hchunked, hplain, hpos]
    rw [hfinal] at hstep
    refine ⟨readBody _ body.length, (StreamMachine.Steps.single hstep).trans
      (read_body_steps rfl hpos ?_ ?_ ?_), ?_, ?_⟩
    · show 0 < (headerContentLength p.request.headers p.contentLength).toNat
      omega
    · show body.length ≤ (p.consumePartial 2).pending.length
      simp [hrest]
    · show 0 + body.length ≤ (headerContentLength p.request.headers p.contentLength).toNat
      omega
    · simp [readBody, hlength]
    · rw [read_body_pending]
      show (p.consumePartial 2).pending.drop body.length = s
      rw [hrest, List.drop_left]
  · have hnil : body = [] := List.eq_nil_of_length_eq_zero (by omega)
    have hfinal : (p.consumePartial 2).finalizeHeaders.state = .complete ∧
        (p.consumePartial 2).finalizeHeaders.pending = (p.consumePartial 2).pending := by
      simp [finalizeHeaders, consumePartial, hchunked, hplain, hpos]
    refine ⟨_, .single hstep, hfinal.1, ?_⟩
    rw [hfinal.2, hrest, hnil, List.nil_append]

end HttpParser

namespace PlainRequest

/-- The bytes of a request. -/
def bytes (r : PlainRequest) : Bytes :=
  r.head.bytes ++ r.body

theorem bytes_ne_nil (r : PlainRequest) : r.bytes ≠ [] := by
  simp [bytes, RequestHead.bytes, crlf]

/-- The parser reads a request to its end, whatever follows it. -/
theorem settles (r : PlainRequest) (maxSize : Int) (rest : Bytes) :
    ∃ t, machine.Settles ((fresh maxSize).feed (r.bytes ++ rest)) t ∧ t.state = .complete ∧
      t.raw = r.bytes ∧ t.pending = rest ∧ t.maxSize = maxSize := by
  have hbytes : r.bytes ++ rest = joinLines (List.replicate r.head.blanks []) ++
      (r.head.requestLine ++ crlf ++ (joinLines r.head.fields ++ (crlf ++ r.body ++ rest))) := by
    simp [bytes, RequestHead.bytes, RequestHead.opening, RequestHead.lines]
  obtain ⟨p₁, hsteps₁, hstate₁, hpending₁, hrequest₁, hsame₁⟩ :=
    blanks_steps (p := (fresh maxSize).feed (r.bytes ++ rest)) r.head.blanks rfl hbytes
  have hempty : p₁.request = {} := hrequest₁
  obtain ⟨p₂, hsteps₂, hstate₂, hpending₂, hrequest₂, hsame₂⟩ :=
    request_line_steps hstate₁ hpending₁ r.head.request_line_cr
      (by rw [hempty]; exact r.head.request_line_valid)
  obtain ⟨p₃, hsteps₃, hstate₃, hpending₃, hrequest₃, hsame₃⟩ :=
    fields_steps hstate₂ hpending₂ r.head.fields_valid
  have hrequest : p₃.request = r.head.request := by
    rw [hrequest₃, hrequest₂, hempty]
    rfl
  have hchunked : p₃.isChunked = false := hsame₃.1.trans (hsame₂.1.trans hsame₁.1)
  have hlength : p₃.contentLength = -1 := hsame₃.2.trans (hsame₂.2.trans hsame₁.2)
  obtain ⟨t, hsteps₄, hcomplete, hpending⟩ := body_steps hstate₃ hpending₃ hchunked
    (by rw [hrequest]; exact r.plain) (by rw [hrequest, hlength]; exact r.length_eq)
  have hsteps := hsteps₁.trans (hsteps₂.trans (hsteps₃.trans hsteps₄))
  have hconsumes := steps_consumes hsteps
  refine ⟨t, ⟨hsteps, tick_decided (Or.inr hcomplete)⟩, hcomplete, ?_, hpending, hconsumes.1⟩
  have hall := hconsumes.raw_append_pending
  rw [hpending] at hall
  exact List.append_cancel_right hall

/-- Before its last byte has arrived, nothing is decided about a request. -/
theorem undecided {r : PlainRequest} {maxSize : Int} {u v : Bytes} {t : HttpParser}
    (hbytes : u ++ v = r.bytes) (hv : v ≠ [])
    (ht : machine.Settles ((fresh maxSize).feed u) t) :
    t.state ≠ .error ∧ t.state ≠ .complete := by
  obtain ⟨last, hend, hcomplete, hraw, -⟩ := r.settles maxSize []
  rw [List.append_nil, ← hbytes, ← feed_feed] at hend
  have hrest : machine.Settles (t.feed v) last :=
    (StreamMachine.settles_feed_iff ht v).1 hend
  -- a decided parser would not have read the rest of the request
  have hstays : ∀ hdecided : t.state = .error ∨ t.state = .complete, last = t.feed v :=
    fun hdecided => eq_of_settles hrest (tick_decided hdecided)
  refine ⟨fun herror => ?_, fun hdone => ?_⟩
  · rw [hstays (Or.inl herror)] at hcomplete
    cases herror.symm.trans hcomplete
  · have hsame : t.raw = r.bytes := by
      rw [← hraw, hstays (Or.inr hdone)]
      rfl
    have hread : t.raw ++ t.pending = u := (steps_consumes ht.1).raw_append_pending
    have hlength := congrArg List.length hread
    have hpos := List.length_pos_iff.2 hv
    rw [hsame, ← hbytes] at hlength
    simp only [List.length_append] at hlength
    omega

end PlainRequest

end ApiGateway.Http
