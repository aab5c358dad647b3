import ApiGateway.Http.Chunked

/-!
# Request heads

A `RequestHead` is the grammar of what the parser accepts as the head of a request: empty lines,
a request line, header lines, and a blank line. A byte string starts with at most one head
(`RequestHead.eq_of_prefixes`).

`Framed` describes the parser states by the head that has been read. It is kept by every step
of the parser, chunked bodies included, so a parser in the state `Complete` holds a head and what
belongs to it (`reaches_framed`).
-/

namespace ApiGateway.Http

open Loop Search

/-! ## Lines -/

/-- Lines with their terminators. -/
def joinLines (lines : List Bytes) : Bytes :=
  (lines.map fun line => line ++ crlf).flatten

@[simp] theorem join_lines_nil : joinLines [] = [] := rfl

@[simp] theorem join_lines_cons (line : Bytes) (lines : List Bytes) :
    joinLines (line :: lines) = line ++ crlf ++ joinLines lines := rfl

@[simp] theorem join_lines_append (first second : List Bytes) :
    joinLines (first ++ second) = joinLines first ++ joinLines second := by
  simp [joinLines]

/-- A line with its terminator is what is taken for it. -/
theorem take_line {data line : Bytes} (h : extractLine data = some line) :
    data.take (line.length + 2) = line ++ crlf := by
  obtain ⟨-, rest, rfl⟩ := extract_line_eq_some_iff.1 h
  exact List.take_left' (by simp)

/-- Two sequences of lines at the start of the same bytes agree as far as both go. -/
theorem lines_agree {first second : List Bytes} {s : Bytes} (hfirst : ∀ line ∈ first, cr ∉ line)
    (hsecond : ∀ line ∈ second, cr ∉ line) (h : joinLines first <+: s)
    (h' : joinLines second <+: s) : first <+: second ∨ second <+: first := by
  induction first generalizing second s with
  | nil => exact Or.inl List.nil_prefix
  | cons x xs ih =>
      cases second with
      | nil => exact Or.inr List.nil_prefix
      | cons y ys =>
          obtain ⟨t, ht⟩ := h
          obtain ⟨t', ht'⟩ := h'
          simp only [join_lines_cons, List.append_assoc] at ht ht'
          have hx : extractLine s = some x :=
            extract_line_eq_some_iff.2 ⟨hfirst x (by simp), _, by rw [← ht, List.append_assoc]⟩
          have hy : extractLine s = some y :=
            extract_line_eq_some_iff.2 ⟨hsecond y (by simp), _, by rw [← ht', List.append_assoc]⟩
          obtain rfl := Option.some.inj (hx.symm.trans hy)
          have hrest : joinLines xs ++ t = joinLines ys ++ t' := by
            simpa using ht.trans ht'.symm
          have hor := ih (fun line hl => hfirst line (by simp [hl]))
            (fun line hl => hsecond line (by simp [hl]))
            (List.prefix_append _ t) (hrest ▸ List.prefix_append _ t')
          simpa [List.prefix_cons_inj] using hor

/-! ## Heads -/

/-- The head of a request, line by line. -/
structure RequestHead where
  blanks : Nat
  requestLine : Bytes
  fields : List Bytes
  request_line_cr : cr ∉ requestLine
  request_line_valid : (parseRequestLine requestLine {}).1 = true
  fields_valid : ∀ line ∈ fields, line ≠ [] ∧ cr ∉ line

namespace RequestHead

variable {h h' : RequestHead} {s : Bytes}

/-- The lines of a head without the blank line that ends it. -/
def lines (h : RequestHead) : List Bytes :=
  List.replicate h.blanks [] ++ h.requestLine :: h.fields

/-- The bytes of a head up to the blank line that ends it. -/
def opening (h : RequestHead) : Bytes :=
  joinLines h.lines

/-- The bytes of a head. -/
def bytes (h : RequestHead) : Bytes :=
  h.opening ++ crlf

/-- The request that a head describes. -/
def request (h : RequestHead) : HttpRequest :=
  h.fields.foldl addHeaderLine (parseRequestLine h.requestLine {}).2

/-- Whether a head selects a chunked body. -/
def selectsChunked (h : RequestHead) : Bool :=
  HttpParser.selectsChunked h.request.headers

/-- The body length that a head announces; negative when there is none. -/
def contentLength (h : RequestHead) : Int :=
  HttpParser.headerContentLength h.request.headers (-1)

/-- A head with one more header line. -/
def push (h : RequestHead) (line : Bytes) (hne : line ≠ []) (hcr : cr ∉ line) : RequestHead where
  blanks := h.blanks
  requestLine := h.requestLine
  fields := h.fields ++ [line]
  request_line_cr := h.request_line_cr
  request_line_valid := h.request_line_valid
  fields_valid := by
    intro l hl
    rcases List.mem_append.1 hl with hl | hl
    · exact h.fields_valid l hl
    · rw [List.mem_singleton.1 hl]
      exact ⟨hne, hcr⟩

theorem push_opening {line : Bytes} (hne : line ≠ []) (hcr : cr ∉ line) :
    (h.push line hne hcr).opening = h.opening ++ (line ++ crlf) := by
  simp [push, opening, lines]

theorem push_request {line : Bytes} (hne : line ≠ []) (hcr : cr ∉ line) :
    (h.push line hne hcr).request = addHeaderLine h.request line := by
  simp [push, request]

theorem request_line_ne_nil (h : RequestHead) : h.requestLine ≠ [] := by
  intro hnil
  have hvalid := h.request_line_valid
  rw [hnil] at hvalid
  cases hvalid

theorem lines_cr (h : RequestHead) : ∀ line ∈ h.lines ++ [[]], cr ∉ line := by
  intro line hline
  simp only [lines, List.mem_append, List.mem_replicate, List.mem_cons, List.not_mem_nil,
    or_false] at hline
  rcases hline with (⟨-, rfl⟩ | rfl | hline) | rfl
  · simp
  · exact h.request_line_cr
  · exact (h.fields_valid line hline).2
  · simp

theorem bytes_eq (h : RequestHead) : h.bytes = joinLines (h.lines ++ [[]]) := by
  simp [bytes, opening]

/-- Header lines are read up to the first blank line. -/
theorem fields_eq {fields fields' : List Bytes} (hne : ∀ line ∈ fields, line ≠ [])
    (hne' : ∀ line ∈ fields', line ≠ []) (hp : fields ++ [[]] <+: fields' ++ [[]]) :
    fields = fields' := by
  induction fields generalizing fields' with
  | nil =>
      cases fields' with
      | nil => rfl
      | cons y ys =>
          simp only [List.nil_append, List.cons_append, List.cons_prefix_cons] at hp
          exact absurd hp.1.symm (hne' y (by simp))
  | cons x xs ih =>
      cases fields' with
      | nil =>
          simp only [List.cons_append, List.nil_append, List.cons_prefix_cons] at hp
          exact absurd hp.1 (hne x (by simp))
      | cons y ys =>
          simp only [List.cons_append, List.cons_prefix_cons] at hp
          rw [hp.1, ih (fun line hl => hne line (by simp [hl]))
            (fun line hl => hne' line (by simp [hl])) hp.2]

/-- The leading empty lines end at the first line that is not empty. -/
theorem blanks_eq {k k' : Nat} {x y : Bytes} {xs ys : List Bytes} (hx : x ≠ []) (hy : y ≠ [])
    (hp : List.replicate k [] ++ x :: xs <+: List.replicate k' [] ++ y :: ys) :
    k = k' ∧ x = y ∧ xs <+: ys := by
  induction k generalizing k' with
  | zero =>
      cases k' with
      | zero => simpa using hp
      | succ k' =>
          simp only [List.replicate_zero, List.nil_append, List.replicate_succ, List.cons_append,
            List.cons_prefix_cons] at hp
          exact absurd hp.1 hx
  | succ k ih =>
      cases k' with
      | zero =>
          simp only [List.replicate_zero, List.nil_append, List.replicate_succ, List.cons_append,
            List.cons_prefix_cons] at hp
          exact absurd hp.1.symm hy
      | succ k' =>
          simp only [List.replicate_succ, List.cons_append, List.cons_prefix_cons, true_and] at hp
          obtain ⟨rfl, hrest⟩ := ih hp
          exact ⟨rfl, hrest⟩

theorem eq_of_lines (hp : h.lines ++ [[]] <+: h'.lines ++ [[]]) : h = h' := by
  simp only [lines, List.append_assoc, List.cons_append] at hp
  obtain ⟨hblanks, hline, hrest⟩ :=
    blanks_eq h.request_line_ne_nil h'.request_line_ne_nil hp
  have hfields := fields_eq (fun line hl => (h.fields_valid line hl).1)
    (fun line hl => (h'.fields_valid line hl).1) hrest
  cases h
  cases h'
  simp only at hblanks hline hfields
  subst hblanks hline hfields
  rfl

/-- A byte string starts with at most one head. -/
theorem eq_of_prefixes (hp : h.bytes <+: s) (hp' : h'.bytes <+: s) : h = h' := by
  rw [bytes_eq] at hp hp'
  rcases lines_agree h.lines_cr h'.lines_cr hp hp' with hlines | hlines
  · exact eq_of_lines hlines
  · exact (eq_of_lines hlines).symm

theorem add_header_line_body (req : HttpRequest) (line : Bytes) :
    (addHeaderLine req line).body = req.body := by
  simp only [addHeaderLine]
  split <;> rfl

theorem parse_request_line_body (line : Bytes) (req : HttpRequest) :
    (parseRequestLine line req).2.body = req.body := by
  simp only [parseRequestLine]
  split
  · rfl
  · split <;> rfl

/-- A head describes a request without a body. -/
theorem request_body (h : RequestHead) : h.request.body = [] := by
  have hfold : ∀ (fields : List Bytes) (req : HttpRequest),
      (fields.foldl addHeaderLine req).body = req.body := by
    intro fields
    induction fields with
    | nil => exact fun _ => rfl
    | cons line rest ih => exact fun req => (ih _).trans (add_header_line_body req line)
  exact (hfold _ _).trans (parse_request_line_body _ _)

end RequestHead

/-! ## Framed parsers -/

namespace HttpParser

variable {p q r : HttpParser}

/-- The body that `process_body` extracts from the consumed bytes. -/
def bodyIn (raw : Bytes) (length : Nat) : Bytes :=
  match cutSub crlfcrlf raw with
  | none => []
  | some (_, after) => after.take length

/-- What the parser has read, state by state. -/
inductive Framed (p : HttpParser) : Prop where
  | requestLine (blanks : Nat) (hstate : p.state = .requestLine)
      (hraw : p.raw = joinLines (List.replicate blanks [])) (hrequest : p.request = {})
      (hchunked : p.isChunked = false) (hlength : p.contentLength = -1)
  | headers (h : RequestHead) (hstate : p.state = .headers) (hraw : p.raw = h.opening)
      (hrequest : p.request = h.request) (hchunked : p.isChunked = false)
      (hlength : p.contentLength = -1)
  | body (h : RequestHead) (content : Bytes) (hstate : p.state = .body)
      (hraw : p.raw = h.bytes ++ content) (hrequest : p.request = h.request)
      (hplain : h.selectsChunked = false) (hlength : p.contentLength = h.contentLength)
      (hread : p.bodyRead = content.length) (hlt : content.length < h.contentLength.toNat)
  | chunkedBody (h : RequestHead) (content : Bytes) (hstate : p.state = .chunkedBody)
      (hraw : p.raw = h.bytes ++ content) (hrequest : p.request = h.request)
      (hselects : h.selectsChunked = true) (hphase : content = [] → p.chunkPhase = .sizeLine)
  | plainComplete (h : RequestHead) (content : Bytes) (hstate : p.state = .complete)
      (hraw : p.raw = h.bytes ++ content) (hplain : h.selectsChunked = false)
      (hlength : content.length = h.contentLength.toNat)
      (hrequest : p.request = { h.request with body := bodyIn p.raw h.contentLength.toNat })
  | chunkedComplete (h : RequestHead) (content : Bytes) (hstate : p.state = .complete)
      (hraw : p.raw = h.bytes ++ content) (hselects : h.selectsChunked = true)
      (hne : content ≠ []) (hrequest : p.request = h.request)
  | error (hstate : p.state = .error)

theorem framed_fresh (maxSize : Int) : Framed (fresh maxSize) :=
  .requestLine 0 rfl rfl rfl rfl rfl

/-- Pending bytes do not matter. -/
theorem Framed.congr_pending (h : Framed p) (hq : q = { p with pending := q.pending }) :
    Framed q := by
  rw [hq]
  cases h with
  | requestLine blanks hstate hraw hrequest hchunked hlength =>
      exact .requestLine blanks hstate hraw hrequest hchunked hlength
  | headers h hstate hraw hrequest hchunked hlength =>
      exact .headers h hstate hraw hrequest hchunked hlength
  | body h content hstate hraw hrequest hplain hlength hread hlt =>
      exact .body h content hstate hraw hrequest hplain hlength hread hlt
  | chunkedBody h content hstate hraw hrequest hselects hphase =>
      exact .chunkedBody h content hstate hraw hrequest hselects hphase
  | plainComplete h content hstate hraw hplain hlength hrequest =>
      exact .plainComplete h content hstate hraw hplain hlength hrequest
  | chunkedComplete h content hstate hraw hselects hne hrequest =>
      exact .chunkedComplete h content hstate hraw hselects hne hrequest
  | error hstate => exact .error hstate

theorem Framed.feed (h : Framed p) (data : Bytes) : Framed (p.feed data) :=
  h.congr_pending rfl

/-- Reading an empty line or the request line. -/
theorem process_request_line_framed (hstate : p.state = .requestLine) (hp : Framed p) :
    Framed p.processRequestLine := by
  cases hp with
  | headers _ hs | body _ _ hs | chunkedBody _ _ hs | plainComplete _ _ hs
  | chunkedComplete _ _ hs | error hs => cases hstate.symm.trans hs
  | requestLine blanks _ hraw hrequest hchunked hlength =>
      cases hline : extractLine p.pending with
      | none =>
          rw [process_request_line_wait hline]
          exact .requestLine blanks hstate hraw hrequest hchunked hlength
      | some line =>
          have htake := take_line hline
          by_cases hne : line = []
          · subst hne
            rw [process_request_line_blank hline]
            refine .requestLine (blanks + 1) hstate ?_ hrequest hchunked hlength
            show p.raw ++ p.pending.take 2 = _
            rw [show p.pending.take 2 = crlf from htake, hraw, List.replicate_succ',
              join_lines_append]
            rfl
          cases hparsed : (parseRequestLine line p.request).1 with
          | false =>
              rw [process_request_line_error hline hne hparsed]
              exact .error rfl
          | true =>
              rw [process_request_line_headers hline hne hparsed]
              rw [hrequest] at hparsed
              refine .headers ⟨blanks, line, [], (extract_line_eq_some_iff.1 hline).1, hparsed,
                by simp⟩ rfl ?_ ?_ hchunked hlength
              · show p.raw ++ p.pending.take (line.length + 2) = _
                rw [htake, hraw]
                simp [RequestHead.opening, RequestHead.lines]
              · show (parseRequestLine line p.request).2 = _
                rw [hrequest]
                rfl

theorem body_in_zero (raw : Bytes) : bodyIn raw 0 = [] := by
  unfold bodyIn
  split
  · rfl
  · exact List.take_zero

/-- The end of a head. -/
theorem finalize_headers_framed {h : RequestHead} (hraw : p.raw = h.bytes)
    (hrequest : p.request = h.request) (hchunked : p.isChunked = false)
    (hlength : p.contentLength = -1) : Framed p.finalizeHeaders := by
  by_cases hselects : h.selectsChunked = true
  · have hc : (p.isChunked || selectsChunked p.request.headers) = true := by
      rw [hchunked, hrequest, Bool.false_or]
      exact hselects
    rw [finalize_headers_chunked hc]
    exact .chunkedBody h [] rfl (by simpa using hraw) hrequest hselects fun _ => rfl
  · have hplain : h.selectsChunked = false := by simpa using hselects
    have hc : ¬ (p.isChunked || selectsChunked p.request.headers) = true := by
      rw [hchunked, hrequest, Bool.false_or]
      exact hselects
    have hcl : headerContentLength p.request.headers p.contentLength = h.contentLength := by
      rw [hrequest, hlength]
      rfl
    simp only [finalizeHeaders, if_neg hc, hcl]
    split
    · rename_i hpos
      refine .body h [] rfl (by simpa using hraw) hrequest hplain rfl rfl ?_
      rw [List.length_nil]
      omega
    · rename_i hpos
      have hzero : h.contentLength.toNat = 0 := by omega
      refine .plainComplete h [] rfl (by simpa using hraw) hplain (by simp [hzero]) ?_
      show p.request = _
      rw [hrequest, hzero, body_in_zero, ← h.request_body]

/-- Reading the lines of a head. -/
theorem tick_headers_framed (hstate : p.state = .headers) (hp : Framed p)
    (h : p.tickHeaders = some q) : Framed q := by
  cases hp with
  | requestLine _ hs | body _ _ hs | chunkedBody _ _ hs | plainComplete _ _ hs
  | chunkedComplete _ _ hs | error hs => cases hstate.symm.trans hs
  | headers head _ hraw hrequest hchunked hlength =>
      simp only [tickHeaders] at h
      split at h
      · cases h
      · rename_i hline
        cases h
        refine finalize_headers_framed (h := head) ?_ hrequest hchunked hlength
        show p.raw ++ p.pending.take 2 = _
        rw [show p.pending.take 2 = crlf from take_line hline, hraw]
        rfl
      · rename_i line hne hline
        cases h
        have hcr := (extract_line_eq_some_iff.1 hline).1
        refine .headers (head.push line hne hcr) hstate ?_ ?_ hchunked hlength
        · show p.raw ++ p.pending.take (line.length + 2) = _
          rw [take_line hline, hraw, RequestHead.push_opening]
        · show addHeaderLine p.request line = _
          rw [hrequest, RequestHead.push_request]

theorem assign_body_eq (hbody : p.request.body = []) :
    p.assignBody =
      { p with request := { p.request with body := bodyIn p.raw p.contentLength.toNat } } := by
  cases hcut : cutSub crlfcrlf p.raw with
  | none =>
      simp only [assignBody, bodyIn, hcut]
      rw [← hbody]
  | some parts => simp only [assignBody, bodyIn, hcut]

/-- The end of a body. -/
theorem assign_body_framed {h : RequestHead} {content : Bytes}
    (hraw : p.raw = h.bytes ++ content) (hrequest : p.request = h.request)
    (hplain : h.selectsChunked = false) (hlength : p.contentLength = h.contentLength)
    (hlen : content.length = h.contentLength.toNat) :
    Framed { p.assignBody with state := .complete } := by
  have hassign := assign_body_eq (p := p) (by rw [hrequest, h.request_body])
  rw [hassign, hrequest, hlength]
  exact .plainComplete h content rfl hraw hplain hlen rfl

/-- Reading a byte of a body. -/
theorem tick_body_framed (hstate : p.state = .body) (hp : Framed p)
    (h : p.tickBody = some q) : Framed q := by
  cases hp with
  | requestLine _ hs | headers _ hs | chunkedBody _ _ hs | plainComplete _ _ hs
  | chunkedComplete _ _ hs | error hs => cases hstate.symm.trans hs
  | body head content _ hraw hrequest hplain hlength hread hlt =>
      rw [← hlength] at hlt
      simp only [tickBody] at h
      rw [if_neg (by omega), if_neg (by omega)] at h
      split at h
      · cases h
      rename_i hpending
      cases h
      have hlen : (content ++ p.pending.take 1).length = content.length + 1 := by
        have := List.length_pos_iff.2 hpending
        rw [List.length_append, List.length_take]
        omega
      have hcontent : p.raw ++ p.pending.take 1 = head.bytes ++ (content ++ p.pending.take 1) := by
        rw [hraw, List.append_assoc]
      by_cases hlast : p.contentLength.toNat ≤ p.bodyRead + 1
      · rw [show p.readBody 1 = _ from if_pos hlast]
        refine assign_body_framed hcontent hrequest hplain hlength ?_
        rw [hlen, ← hlength]
        omega
      · rw [show p.readBody 1 = _ from if_neg hlast]
        refine .body head (content ++ p.pending.take 1) hstate hcontent hrequest hplain
          hlength ?_ ?_
        · show p.bodyRead + 1 = _
          rw [hlen, hread]
        · rw [hlen, ← hlength]
          omega

theorem tick_framed (hp : Framed p) (h : p.tick = some q) : Framed q := by
  unfold tick at h
  cases hstate : p.state with
  | requestLine =>
      simp only [hstate, tickRequestLine] at h
      split at h
      · cases h
      · cases h
        exact process_request_line_framed hstate hp
  | headers => exact tick_headers_framed hstate hp (by simpa only [hstate] using h)
  | body => exact tick_body_framed hstate hp (by simpa only [hstate] using h)
  | chunkedBody | complete | error => simp [hstate] at h

theorem steps_framed (h : machine.Steps p q) (hp : Framed p) : Framed q :=
  h.invariant Framed (fun _ _ hs hstep => tick_framed hs hstep) hp

/-- Reading chunk elements. -/
theorem process_chunked_framed (hstate : p.state = .chunkedBody) (hp : Framed p) :
    Framed p.processChunked := by
  cases hp with
  | requestLine _ hs | headers _ hs | body _ _ hs | plainComplete _ _ hs
  | chunkedComplete _ _ hs | error hs => cases hstate.symm.trans hs
  | chunkedBody head content _ hraw hrequest hselects hphase =>
      obtain ⟨⟨-, taken, hraw', -⟩, hrequest', hresult, hsame⟩ := process_chunked_frame hstate
      have hcontent : p.processChunked.raw = head.bytes ++ (content ++ taken) := by
        rw [hraw', hraw, List.append_assoc]
      -- while no content has been read the phase is the first one
      have hfirst : content ++ taken = [] →
          p.processChunked.chunkPhase = .sizeLine ∧ p.processChunked.state ≠ .complete := by
        intro hnil
        obtain ⟨hc, ht⟩ := List.append_eq_nil_iff.1 hnil
        obtain ⟨hstay, hlast⟩ := hsame (by rw [hraw', ht, List.append_nil])
        refine ⟨hstay.trans (hphase hc), fun hcomplete => ?_⟩
        cases (hphase hc).symm.trans (hlast hcomplete)
      rcases hresult with hs | hs | hs
      · exact .chunkedBody head (content ++ taken) hs hcontent (hrequest'.trans hrequest) hselects
          fun hnil => (hfirst hnil).1
      · exact .chunkedComplete head (content ++ taken) hs hcontent hselects
          (fun hnil => (hfirst hnil).2 hs) (hrequest'.trans hrequest)
      · exact .error hs

/-! ## Runs of the parser -/

theorem process_framed (h : Returns processIter p q) (hp : Framed p) : Framed q :=
  process_invariant Framed (fun _ _ => tick_framed) (fun _ => process_chunked_framed) h hp

/-- `parse` keeps what `Framed` says. -/
theorem parses_framed {data : Bytes} {consumed : Nat} (h : Parses p data q consumed)
    (hp : Framed p) : Framed q := by
  by_cases hstate : p.state = .error ∨ p.state = .complete
  · obtain ⟨fuel, hfuel⟩ := h
    rw [parse, if_pos hstate] at hfuel
    cases hfuel
    exact hp
  · obtain ⟨r, hr, hresult⟩ := (parses_iff hstate).1 h
    have hframed := process_framed hr (hp.feed data)
    simp only [parseResult] at hresult
    split at hresult
    · cases hresult
      exact .error rfl
    · cases hresult
      exact hframed

theorem Framed.raw_ne_nil {p : HttpParser} (hp : Framed p) (hstate : p.state = .complete) :
    p.raw ≠ [] := by
  cases hp with
  | requestLine _ hs | headers _ hs | body _ _ hs | chunkedBody _ _ hs | error hs =>
      cases hstate.symm.trans hs
  | plainComplete h content _ hraw | chunkedComplete h content _ hraw =>
      rw [hraw]
      simp [RequestHead.bytes]

/-- The parsers reached from a fresh one by calls of `parse`, with the bytes of all calls. -/
inductive Reaches (maxSize : Int) : Bytes → HttpParser → Prop where
  | fresh : Reaches maxSize [] (fresh maxSize)
  | parse {s data : Bytes} {p q : HttpParser} {consumed : Nat} : Reaches maxSize s p →
      Parses p data q consumed → Reaches maxSize (s ++ data) q

theorem reaches_framed {maxSize : Int} {s : Bytes} (h : Reaches maxSize s p) : Framed p := by
  induction h with
  | fresh => exact framed_fresh maxSize
  | parse _ hparse ih => exact parses_framed hparse ih

/-- What has been read is the beginning of the bytes that were passed. -/
theorem reaches_raw {maxSize : Int} {s : Bytes} (h : Reaches maxSize s p)
    (hne : p.state ≠ .error) : p.raw <+: s := by
  have hboth : p.state ≠ .error → p.raw ++ p.pending <+: s ∧
      (p.state ≠ .complete → p.raw ++ p.pending = s) := by
    clear hne
    induction h with
    | fresh => exact fun _ => ⟨List.nil_prefix, fun _ => rfl⟩
    | @parse s data p q consumed _ hparse ih =>
        intro hq
        by_cases hstate : p.state = .error ∨ p.state = .complete
        · obtain ⟨fuel, hfuel⟩ := hparse
          rw [HttpParser.parse, if_pos hstate] at hfuel
          cases hfuel
          refine ⟨(ih hq).1.trans (List.prefix_append s data), fun hc => ?_⟩
          exact absurd hstate (by simp [hq, hc])
        · obtain ⟨r, hr, hresult⟩ := (parses_iff hstate).1 hparse
          rw [not_or] at hstate
          have hall : r.raw ++ r.pending = s ++ data := by
            rw [(process_consumes hr).raw_append_pending, feed_raw, feed_pending,
              ← List.append_assoc, (ih hstate.1).2 hstate.2]
          simp only [parseResult] at hresult
          split at hresult
          · cases hresult
            exact absurd rfl hq
          · cases hresult
            exact ⟨hall ▸ List.prefix_rfl, fun _ => hall⟩
  exact (List.prefix_append p.raw p.pending).trans (hboth hne).1

end HttpParser

end ApiGateway.Http
