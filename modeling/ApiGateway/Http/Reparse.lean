import ApiGateway.Http.Head

/-!
# The second request parser

The worker parses the bytes that `HttpParser` has delimited once more, with
`parse_http_request`. It looks for the first blank line, takes everything after it as the body,
and reads the lines before it. The main result, `parsers_agree_iff`, says that the two parsers
agree on a complete request unless its body is chunked or it starts with two empty lines.
-/

namespace ApiGateway.Http

open Loop Search

/-- The result of `parse_http_request`: the three parts of the request line are present. -/
def requestPresent (req : HttpRequest) : Bool :=
  !req.method.isEmpty && !req.path.isEmpty && !req.version.isEmpty

/-- One pass of the line loop of `parse_http_request`, over the position of the line and the
request read so far. -/
def requestIter (raw : Bytes) (headerEnd : Nat) (s : Nat × HttpRequest) :
    Iter (Nat × HttpRequest) (Bool × HttpRequest) :=
  if headerEnd ≤ s.1 then .done (requestPresent s.2, s.2)
  else
    match cutSub crlf (raw.drop s.1) with
    | none => .done (requestPresent s.2, s.2)
    | some (line, _) =>
        if headerEnd < s.1 + line.length then .done (requestPresent s.2, s.2)
        else if line = [] then .next (s.1 + line.length + 2, s.2)
        else if s.2.method = [] then
          if !(parseRequestLine line s.2).1 then .done (false, (parseRequestLine line s.2).2)
          else .next (s.1 + line.length + 2, (parseRequestLine line s.2).2)
        else .next (s.1 + line.length + 2, addHeaderLine s.2 line)

/-- The line loop moves towards the end of the head. -/
theorem request_iter_decreasing (raw : Bytes) (headerEnd : Nat) :
    Decreasing (requestIter raw headerEnd) fun s => headerEnd - s.1 := by
  intro s t h
  simp only [requestIter] at h
  split at h
  · cases h
  split at h
  · cases h
  split at h
  · cases h
  split at h
  · cases h
    simp only
    omega
  split at h
  · split at h
    · cases h
    · cases h
      simp only
      omega
  · cases h
    simp only
    omega

/-- `parse_http_request`. -/
def parseHttpRequest (raw : Bytes) (req : HttpRequest) : Bool × HttpRequest :=
  match cutSub crlfcrlf raw with
  | none => (false, req)
  | some (front, body) =>
      total (request_iter_decreasing raw front.length) (0, { req with body := body })

/-! ## The end of the head -/

theorem crlfcrlf_not_at_start {c : UInt8} {rest : Bytes} (hc : c ≠ cr) :
    ¬ crlfcrlf <+: crlf ++ c :: rest := by
  intro h
  simp only [List.cons_append, List.nil_append, List.cons_prefix_cons] at h
  exact hc h.2.2.1.symm

/-- A line end that is followed by a line with content is not the end of the head. -/
theorem cut_crlfcrlf_crlf {c : UInt8} {rest : Bytes} (hc : c ≠ cr) :
    cutSub crlfcrlf (crlf ++ c :: rest) =
      (cutSub crlfcrlf (c :: rest)).map fun parts => (crlf ++ parts.1, parts.2) := by
  have hlf : ¬ crlfcrlf <+: lf :: c :: rest := by
    intro h
    exact absurd (List.cons_prefix_cons.1 h).1 (by decide)
  have hcr : cutSub crlfcrlf (cr :: lf :: c :: rest) = _ := cutSub_cons (crlfcrlf_not_at_start hc)
  rw [show crlf ++ c :: rest = cr :: lf :: c :: rest from rfl, hcr, cutSub_cons hlf,
    Option.map_map]
  rfl

/-- The first blank line after lines with content is the one that follows them. -/
theorem cut_crlfcrlf_lines {lines : List Bytes} {line : Bytes} (body : Bytes)
    (hlines : ∀ l ∈ line :: lines, l ≠ [] ∧ cr ∉ l) :
    ∃ front, joinLines (line :: lines) = front ++ crlf ∧
      cutSub crlfcrlf (joinLines (line :: lines) ++ crlf ++ body) = some (front, body) := by
  induction lines generalizing line with
  | nil =>
      obtain ⟨-, hcr⟩ := hlines line (by simp)
      refine ⟨line, by simp, ?_⟩
      have hstart : cutSub crlfcrlf (crlfcrlf ++ body) = some ([], body) :=
        cutSub_at_start (List.prefix_append _ _)
      rw [show joinLines [line] ++ crlf ++ body = line ++ (crlfcrlf ++ body) by simp,
        cutSub_append hcr, hstart]
      simp
  | cons next rest ih =>
      obtain ⟨-, hcr⟩ := hlines line (by simp)
      obtain ⟨hne, hcr'⟩ := hlines next (by simp)
      obtain ⟨front, hfront, hcut⟩ := ih fun l hl => hlines l (List.mem_cons_of_mem _ hl)
      obtain ⟨c, tail, rfl⟩ := List.exists_cons_of_ne_nil hne
      have hc : c ≠ cr := fun h => hcr' (by simp [h])
      refine ⟨line ++ crlf ++ front, by rw [join_lines_cons, hfront]; simp, ?_⟩
      have hbytes : joinLines (line :: (c :: tail) :: rest) ++ crlf ++ body =
          line ++ (crlf ++ c :: (tail ++ crlf ++ joinLines rest ++ crlf ++ body)) := by simp
      have hnext : c :: (tail ++ crlf ++ joinLines rest ++ crlf ++ body) =
          joinLines ((c :: tail) :: rest) ++ crlf ++ body := by simp
      rw [hbytes, cutSub_append hcr, cut_crlfcrlf_crlf hc, hnext, hcut]
      simp

namespace RequestHead

variable {h : RequestHead}

/-- With fewer than two empty lines before it, a head ends at the first blank line. -/
theorem cut_crlfcrlf (hblanks : h.blanks < 2) (body : Bytes) :
    ∃ front, h.opening = front ++ crlf ∧
      cutSub crlfcrlf (h.bytes ++ body) = some (front, body) := by
  have hlines : ∀ l ∈ h.requestLine :: h.fields, l ≠ [] ∧ cr ∉ l := by
    intro l hl
    rcases List.mem_cons.1 hl with rfl | hl
    · exact ⟨h.request_line_ne_nil, h.request_line_cr⟩
    · exact h.fields_valid l hl
  obtain ⟨front, hfront, hcut⟩ := cut_crlfcrlf_lines body hlines
  have hcases : h.blanks = 0 ∨ h.blanks = 1 := by omega
  rcases hcases with hb | hb
  · refine ⟨front, ?_, ?_⟩
    · rw [opening, lines, hb]
      exact hfront
    · rw [bytes, opening, lines, hb]
      exact hcut
  · obtain ⟨c, tail, hline⟩ := List.exists_cons_of_ne_nil h.request_line_ne_nil
    have hc : c ≠ cr := fun hc => h.request_line_cr (by simp [hline, hc])
    have hbytes : joinLines (h.requestLine :: h.fields) ++ crlf ++ body =
        c :: (tail ++ crlf ++ joinLines h.fields ++ crlf ++ body) := by simp [hline]
    refine ⟨crlf ++ front, ?_, ?_⟩
    · rw [opening, lines, hb, join_lines_append, hfront]
      simp
    · rw [bytes, opening, lines, hb, join_lines_append]
      rw [hbytes] at hcut
      rw [show joinLines (List.replicate 1 []) = crlf from rfl, List.append_assoc,
        List.append_assoc,
        ← List.append_assoc _ crlf body, hbytes, cut_crlfcrlf_crlf hc, hcut]
      rfl

/-- With two empty lines before it, a head starts with a blank line. -/
theorem crlfcrlf_at_start_iff (body : Bytes) : crlfcrlf <+: h.bytes ++ body ↔ 2 ≤ h.blanks := by
  obtain ⟨c, tail, hline⟩ := List.exists_cons_of_ne_nil h.request_line_ne_nil
  have hc : c ≠ cr := fun hc => h.request_line_cr (by simp [hline, hc])
  rw [bytes, opening, lines, hline]
  rcases hb : h.blanks with _ | _ | n
  · refine iff_of_false (fun hstart => ?_) (by omega)
    exact hc (List.cons_prefix_cons.1 hstart).1.symm
  · refine iff_of_false (fun hstart => ?_) (by omega)
    have hstart' :
        crlfcrlf <+: crlf ++ c :: (tail ++ crlf ++ joinLines h.fields ++ crlf ++ body) := by
      simpa using hstart
    exact crlfcrlf_not_at_start hc hstart'
  · refine iff_of_true ?_ (by omega)
    simp [List.replicate_succ]

end RequestHead

/-! ## The line loop -/

section LineLoop

variable {raw before line rest : Bytes} {headerEnd : Nat} {req : HttpRequest}

theorem add_header_line_method (req : HttpRequest) (line : Bytes) :
    (addHeaderLine req line).method = req.method := by
  simp only [addHeaderLine]
  split <;> rfl

/-- A line of the head is what the loop finds at its position. -/
theorem request_iter_line (hraw : raw = before ++ (line ++ crlf ++ rest)) (hcr : cr ∉ line)
    (hstart : before.length < headerEnd) (hend : before.length + line.length ≤ headerEnd) :
    requestIter raw headerEnd (before.length, req) =
      if line = [] then .next ((before ++ (line ++ crlf)).length, req)
      else if req.method = [] then
        if !(parseRequestLine line req).1 then .done (false, (parseRequestLine line req).2)
        else .next ((before ++ (line ++ crlf)).length, (parseRequestLine line req).2)
      else .next ((before ++ (line ++ crlf)).length, addHeaderLine req line) := by
  have hcut : cutSub crlf (raw.drop before.length) = some (line, rest) := by
    have hstart : cutSub crlf (crlf ++ rest) = some ([], rest) :=
      cutSub_at_start (List.prefix_append _ _)
    rw [hraw, List.drop_left, List.append_assoc, cutSub_append hcr, hstart]
    simp
  have hlen : (before ++ (line ++ crlf)).length = before.length + line.length + 2 := by
    simp
    omega
  simp only [requestIter, hcut]
  rw [if_neg (by omega), if_neg (by omega), hlen]

/-- Leading empty lines are skipped. -/
theorem request_loop_blanks {blanks : Nat}
    (hraw : raw = before ++ joinLines (List.replicate blanks []) ++ rest)
    (hend : before.length + 2 * blanks ≤ headerEnd) :
    total (request_iter_decreasing raw headerEnd) (before.length, req) =
      total (request_iter_decreasing raw headerEnd)
        ((before ++ joinLines (List.replicate blanks [])).length, req) := by
  induction blanks generalizing before with
  | zero => simp
  | succ n ih =>
      have hbytes : raw = before ++ ([] ++ crlf ++ (joinLines (List.replicate n []) ++ rest)) := by
        simp [hraw, List.replicate_succ]
      have hiter : requestIter raw headerEnd (before.length, req) = _ :=
        request_iter_line hbytes (by simp) (by omega) (by rw [List.length_nil]; omega)
      rw [if_pos rfl] at hiter
      rw [total_next _ hiter, ih (by simp [hbytes]) (by simp; omega)]
      simp [List.replicate_succ]

/-- Header lines are stored one after the other. -/
theorem request_loop_fields {fields : List Bytes} {body : Bytes}
    (hraw : raw = before ++ joinLines fields ++ crlf ++ body)
    (hend : headerEnd + 2 = (before ++ joinLines fields).length)
    (hfields : ∀ l ∈ fields, l ≠ [] ∧ cr ∉ l) (hmethod : req.method ≠ []) :
    total (request_iter_decreasing raw headerEnd) (before.length, req) =
      (requestPresent (fields.foldl addHeaderLine req), fields.foldl addHeaderLine req) := by
  induction fields generalizing before req with
  | nil =>
      refine total_done _ (if_pos ?_)
      simp only [join_lines_nil, List.append_nil] at hend
      show headerEnd ≤ before.length
      omega
  | cons line fields ih =>
      obtain ⟨hne, hcr⟩ := hfields line (by simp)
      have hpos := List.length_pos_iff.2 hne
      simp only [join_lines_cons, List.length_append, List.length_cons, List.length_nil] at hend
      have hbytes : raw = before ++ (line ++ crlf ++ (joinLines fields ++ crlf ++ body)) := by
        simp [hraw]
      have hiter : requestIter raw headerEnd (before.length, req) = _ :=
        request_iter_line hbytes hcr (by omega) (by omega)
      rw [if_neg hne, if_neg hmethod] at hiter
      rw [total_next _ hiter]
      refine ih (by simp [hraw]) ?_ (fun l hl => hfields l (by simp [hl])) ?_
      · simp
        omega
      · rw [add_header_line_method]
        exact hmethod

/-- An accepted request line has all its parts. -/
theorem request_present_of_parsed (h : (parseRequestLine line req).1 = true) :
    requestPresent (parseRequestLine line req).2 = true ∧
      (parseRequestLine line req).2.method ≠ [] := by
  simp only [parseRequestLine] at h ⊢
  split at h
  · cases h
  split at h
  · cases h
  · refine ⟨h, fun hnil => ?_⟩
    simp only at hnil
    simp [hnil] at h

theorem request_present_add (req : HttpRequest) (line : Bytes) :
    requestPresent (addHeaderLine req line) = requestPresent req := by
  simp only [addHeaderLine]
  split <;> rfl

theorem request_present_fields (fields : List Bytes) (req : HttpRequest) :
    requestPresent (fields.foldl addHeaderLine req) = requestPresent req := by
  induction fields generalizing req with
  | nil => rfl
  | cons line rest ih => exact (ih _).trans (request_present_add req line)

/-- The request line and the header lines. -/
theorem request_loop_head {fields : List Bytes} {body : Bytes}
    (hraw : raw = before ++ joinLines (line :: fields) ++ crlf ++ body)
    (hend : headerEnd + 2 = (before ++ joinLines (line :: fields)).length)
    (hline : line ≠ [] ∧ cr ∉ line) (hfields : ∀ l ∈ fields, l ≠ [] ∧ cr ∉ l)
    (hmethod : req.method = []) (hparsed : (parseRequestLine line req).1 = true) :
    total (request_iter_decreasing raw headerEnd) (before.length, req) =
      (true, fields.foldl addHeaderLine (parseRequestLine line req).2) := by
  have hpos := List.length_pos_iff.2 hline.1
  simp only [join_lines_cons, List.length_append, List.length_cons, List.length_nil] at hend
  have hbytes : raw = before ++ (line ++ crlf ++ (joinLines fields ++ crlf ++ body)) := by
    simp [hraw]
  have hiter : requestIter raw headerEnd (before.length, req) = _ :=
    request_iter_line hbytes hline.2 (by omega) (by omega)
  obtain ⟨hpresent, hmethod'⟩ := request_present_of_parsed hparsed
  rw [if_neg hline.1, if_pos hmethod, hparsed, Bool.not_true, if_neg (by simp)] at hiter
  have hrest : raw = before ++ (line ++ crlf) ++ joinLines fields ++ crlf ++ body := by
    simp [hraw]
  have hend' : headerEnd + 2 = (before ++ (line ++ crlf) ++ joinLines fields).length := by
    simp
    omega
  rw [total_next _ hiter, request_loop_fields hrest hend' hfields hmethod',
    request_present_fields, hpresent]

end LineLoop

/-! ## Bodies do not matter while the head is read -/

theorem add_header_line_with_body (req : HttpRequest) (line body : Bytes) :
    addHeaderLine { req with body := body } line =
      { addHeaderLine req line with body := body } := by
  simp only [addHeaderLine]
  split <;> rfl

theorem parse_request_line_with_body (line : Bytes) (req : HttpRequest) (body : Bytes) :
    parseRequestLine line { req with body := body } =
      ((parseRequestLine line req).1, { (parseRequestLine line req).2 with body := body }) := by
  simp only [parseRequestLine]
  split
  · rfl
  · split <;> rfl

theorem fold_with_body (fields : List Bytes) (req : HttpRequest) (body : Bytes) :
    fields.foldl addHeaderLine { req with body := body } =
      { fields.foldl addHeaderLine req with body := body } := by
  induction fields generalizing req with
  | nil => rfl
  | cons line rest ih =>
      rw [List.foldl_cons, List.foldl_cons, add_header_line_with_body, ih]

/-- What the second parser makes of a head and a body. -/
theorem parse_http_request_head {h : RequestHead} (hblanks : h.blanks < 2) (body : Bytes) :
    parseHttpRequest (h.bytes ++ body) {} = (true, { h.request with body := body }) := by
  obtain ⟨front, hfront, hcut⟩ := h.cut_crlfcrlf hblanks body
  have hline : h.requestLine ≠ [] ∧ cr ∉ h.requestLine :=
    ⟨h.request_line_ne_nil, h.request_line_cr⟩
  have hparsed : (parseRequestLine h.requestLine { body := body }).1 = true := by
    have := parse_request_line_with_body h.requestLine {} body
    rw [this]
    exact h.request_line_valid
  have hrequest : h.fields.foldl addHeaderLine
      (parseRequestLine h.requestLine { body := body }).2 = { h.request with body := body } := by
    have := parse_request_line_with_body h.requestLine {} body
    rw [this, fold_with_body]
    rfl
  have hlength : front.length + 2 = h.opening.length := by
    rw [hfront]
    simp
  simp only [parseHttpRequest, hcut]
  rw [← hrequest]
  have hopening : h.opening = joinLines (List.replicate h.blanks []) ++
      joinLines (h.requestLine :: h.fields) := join_lines_append _ _
  have hraw : h.bytes ++ body = joinLines (List.replicate h.blanks []) ++
      joinLines (h.requestLine :: h.fields) ++ crlf ++ body := by
    rw [RequestHead.bytes, hopening]
  have hskip : h.bytes ++ body = [] ++ joinLines (List.replicate h.blanks []) ++
      (joinLines (h.requestLine :: h.fields) ++ crlf ++ body) := by
    simpa using hraw
  have hpos := List.length_pos_iff.2 hline.1
  have hend : front.length + 2 = (joinLines (List.replicate h.blanks []) ++
      joinLines (h.requestLine :: h.fields)).length := by
    rw [hlength, hopening]
  refine (request_loop_blanks hskip ?_).trans
    (request_loop_head hraw hend hline h.fields_valid rfl hparsed)
  have hblank : (joinLines (List.replicate h.blanks [])).length = 2 * h.blanks := by
    simp [joinLines]
    omega
  simp only [join_lines_cons, List.length_append, List.length_cons, hblank] at hend
  simp only [List.length_nil]
  omega

/-- A head after two empty lines is refused: the search for its end stops at the empty lines. -/
theorem parse_http_request_blanks {h : RequestHead} (hblanks : 2 ≤ h.blanks) (body : Bytes) :
    (parseHttpRequest (h.bytes ++ body) {}).1 = false := by
  have hcut := cutSub_at_start ((RequestHead.crlfcrlf_at_start_iff body).2 hblanks)
  simp only [parseHttpRequest, hcut]
  have hdone : requestIter (h.bytes ++ body) 0
      (0, { body := (h.bytes ++ body).drop crlfcrlf.length }) = .done (false, _) :=
    if_pos (Nat.le_refl 0)
  exact congrArg Prod.fst (total_done _ hdone)

/-! ## Agreement -/

/-- The meaning of a chunked body: `ChunkedContent bytes payload` says that the bytes are chunks
followed by the last chunk and a trailer, and that the chunk data together is `payload`. -/
inductive ChunkedContent : Bytes → Bytes → Prop where
  | last {line : Bytes} {trailer : List Bytes} : cr ∉ line →
      HttpParser.parseHex (HttpParser.chunkSizeText line) = some 0 →
      (∀ l ∈ trailer, l ≠ [] ∧ cr ∉ l) →
      ChunkedContent (line ++ crlf ++ joinLines trailer ++ crlf) []
  | chunk {line data rest payload : Bytes} : cr ∉ line → data ≠ [] →
      HttpParser.parseHex (HttpParser.chunkSizeText line) = some data.length →
      ChunkedContent rest payload →
      ChunkedContent (line ++ crlf ++ data ++ crlf ++ rest) (data ++ payload)

/-- The two parsers agree on the request of a complete parser, and its body is what the head
announces. -/
structure ParsersAgree (p : HttpParser) : Prop where
  same : parseHttpRequest p.raw {} = (true, p.request)
  plain_body : ∀ (h : RequestHead) (content : Bytes), p.raw = h.bytes ++ content →
    h.selectsChunked = false → p.request.body = p.raw.drop (p.raw.length - h.contentLength.toNat)
  chunked_body : ∀ (h : RequestHead) (content payload : Bytes), p.raw = h.bytes ++ content →
    h.selectsChunked = true → ChunkedContent content payload → p.request.body = payload

namespace HttpParser

variable {p : HttpParser} {h : RequestHead} {content : Bytes}

/-- A request whose head starts with two empty lines is not accepted twice. -/
theorem not_agree_of_blanks (hraw : p.raw = h.bytes ++ content) (hblanks : 2 ≤ h.blanks) :
    ¬ ParsersAgree p := by
  intro hagree
  have hsame := congrArg Prod.fst hagree.same
  rw [hraw, parse_http_request_blanks hblanks] at hsame
  cases hsame

/-- A chunked request is given the undecoded chunks as its body by one parser and no body by the
other. -/
theorem not_agree_of_chunked (hraw : p.raw = h.bytes ++ content) (hblanks : h.blanks < 2)
    (hne : content ≠ []) (hrequest : p.request = h.request) : ¬ ParsersAgree p := by
  intro hagree
  have hsame := congrArg (fun r => r.2.body) hagree.same
  rw [hraw, parse_http_request_head hblanks, hrequest] at hsame
  exact hne (hsame.trans h.request_body)

/-- The body that `process_body` extracts is what follows the head. -/
theorem body_in_head (hblanks : h.blanks < 2) :
    bodyIn (h.bytes ++ content) content.length = content := by
  obtain ⟨front, -, hcut⟩ := h.cut_crlfcrlf hblanks content
  simp only [bodyIn, hcut, List.take_length]

theorem agree_of_plain (hraw : p.raw = h.bytes ++ content) (hblanks : h.blanks < 2)
    (hplain : h.selectsChunked = false) (hlength : content.length = h.contentLength.toNat)
    (hrequest : p.request = { h.request with body := bodyIn p.raw h.contentLength.toNat }) :
    ParsersAgree p := by
  have hbody : p.request = { h.request with body := content } := by
    rw [hrequest, hraw, ← hlength, body_in_head hblanks]
  have hhead : ∀ (h' : RequestHead) (content' : Bytes), p.raw = h'.bytes ++ content' → h' = h :=
    fun h' content' hraw' => RequestHead.eq_of_prefixes (s := p.raw) ⟨content', hraw'.symm⟩
      ⟨content, hraw.symm⟩
  refine ⟨?_, ?_, ?_⟩
  · rw [hraw, parse_http_request_head hblanks, hbody]
  · intro h' content' hraw' _
    rw [hhead h' content' hraw', ← hlength, hbody, hraw, List.length_append, Nat.add_sub_cancel,
      List.drop_left]
  · intro h' content' _ hraw' hselects
    rw [hhead h' content' hraw', hplain] at hselects
    cases hselects

/-- The two request parsers agree on what a stream of bytes completes, unless the stream starts
with two empty lines or its head selects a chunked body. -/
theorem parsers_agree_iff {maxSize : Int} {s : Bytes} (hreach : Reaches maxSize s p)
    (hcomplete : p.state = .complete) :
    ParsersAgree p ↔ ¬ crlfcrlf <+: s ∧
      ∀ head : RequestHead, head.bytes <+: s → head.selectsChunked = false := by
  have hraw_s := reaches_raw hreach (by simp [hcomplete])
  -- The head of the request is the only head of the stream.
  have hunique : ∀ (h : RequestHead) (content : Bytes), p.raw = h.bytes ++ content →
      (h.bytes <+: s ∧ (crlfcrlf <+: s ↔ 2 ≤ h.blanks)) := by
    intro h content hraw
    obtain ⟨rest, rfl⟩ := hraw_s
    rw [hraw, List.append_assoc]
    exact ⟨List.prefix_append _ _, RequestHead.crlfcrlf_at_start_iff _⟩
  cases reaches_framed hreach with
  | requestLine _ hs | headers _ hs | body _ _ hs | chunkedBody _ _ hs | error hs =>
      cases hcomplete.symm.trans hs
  | plainComplete h content _ hraw hplain hlength hrequest =>
      obtain ⟨hbegin, hstart⟩ := hunique h content hraw
      rw [hstart, Nat.not_le]
      constructor
      · intro hagree
        refine ⟨Nat.lt_of_not_le fun hb => not_agree_of_blanks hraw hb hagree, ?_⟩
        intro head hhead
        rw [RequestHead.eq_of_prefixes hhead hbegin]
        exact hplain
      · intro ⟨hblanks, _⟩
        exact agree_of_plain hraw hblanks hplain hlength hrequest
  | chunkedComplete h content _ hraw hselects hne hrequest =>
      obtain ⟨hbegin, hstart⟩ := hunique h content hraw
      rw [hstart, Nat.not_le]
      constructor
      · intro hagree
        have hblanks := Nat.lt_of_not_le fun hb => not_agree_of_blanks hraw hb hagree
        exact absurd hagree (not_agree_of_chunked hraw hblanks hne hrequest)
      · intro ⟨_, hplain⟩
        rw [hplain h hbegin] at hselects
        cases hselects

/-- A parser reached by one call, with what can be computed about it. -/
theorem exists_reaches (maxSize : Int) (s : Bytes) (fuel : Nat) (post : HttpParser → Bool)
    (h : ((fresh maxSize).parse fuel s).any (fun r => post r.1) = true) :
    ∃ p, Reaches maxSize s p ∧ post p = true := by
  obtain ⟨⟨p, consumed⟩, hp, hpost⟩ := (Option.any_eq_true _ _).1 h
  exact ⟨p, .parse .fresh ⟨fuel, hp⟩, hpost⟩

/-- A plain request without a body. -/
theorem parsers_agree_get : ∃ p, Reaches 65536 (ascii "GET / HTTP/1.1\r\n\r\n") p ∧
    p.state = .complete ∧ ParsersAgree p := by
  obtain ⟨p, hreach, hpost⟩ :=
    exists_reaches 65536 (ascii "GET / HTTP/1.1\r\n\r\n") 3 (fun p => p.state = .complete)
      (by decide)
  have hcomplete : p.state = .complete := of_decide_eq_true hpost
  refine ⟨p, hreach, hcomplete, (parsers_agree_iff hreach hcomplete).2 ⟨by decide, ?_⟩⟩
  intro head hhead
  have hget :
      (⟨0, ascii "GET / HTTP/1.1", [], by decide, by decide, by simp⟩ : RequestHead).bytes <+:
      ascii "GET / HTTP/1.1\r\n\r\n" := by decide
  rw [RequestHead.eq_of_prefixes hhead hget]
  decide

/-- A chunked request that both parsers accept, with different bodies. -/
theorem parsers_disagree_chunked : ∃ p,
    Reaches 65536
      (ascii "POST / HTTP/1.1\r\nTransfer-Encoding: chunked\r\n\r\n1\r\na\r\n0\r\n\r\n") p ∧
    p.state = .complete ∧ ¬ ParsersAgree p := by
  obtain ⟨p, hreach, hpost⟩ := exists_reaches 65536
    (ascii "POST / HTTP/1.1\r\nTransfer-Encoding: chunked\r\n\r\n1\r\na\r\n0\r\n\r\n") 4
    (fun p => p.state = .complete ∧ parseHttpRequest p.raw {} ≠ (true, p.request)) (by decide)
  have hp := of_decide_eq_true hpost
  exact ⟨p, hreach, hp.1, fun hagree => hp.2 hagree.same⟩

end HttpParser

end ApiGateway.Http
