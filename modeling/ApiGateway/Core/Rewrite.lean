import ApiGateway.Core.Gateway
import ApiGateway.Http.Lines

/-!
# Rewriting a response

Before the response of a backend is sent to the client, `process_request` adds a `Connection` header
to it if it has none, and then the headers of the filters that it does not have. The second position
is computed from the first with the wrong length, so that headers which follow an added `Connection`
header end up behind the blank line. `response_preserved_iff` says for which responses and headers
the message is preserved.
-/

namespace ApiGateway.Core

open Http Search

/-! ## What is to be sent -/

/-- A header line. -/
def fieldLine (field : Bytes × Bytes) : Bytes :=
  field.1 ++ ascii ": " ++ field.2

/-- The line that is added to a response without a `Connection` header. -/
def closeLine : Bytes :=
  ascii "Connection: close"

/-- Whether a head has a `Connection` header in one of the two spellings. -/
def hasConnection (head : Bytes) : Bool :=
  contains (ascii "\r\nConnection:") head || contains (ascii "\r\nconnection:") head

/-- A head with the `Connection` header that it gets. -/
def withConnection (head : Bytes) : Bytes :=
  if hasConnection head then head else head ++ joinFields [closeLine]

/-- The headers that are not in a head. -/
def missingHeaders (head : Bytes) (headers : SortedMap Bytes Bytes) : List (Bytes × Bytes) :=
  headers.entries.filter fun field => !contains (crlf ++ field.1 ++ ascii ":") head

/-- The headers of the filters for a response. -/
def filterHeaders (filters : List Filter) (ctx : FilterContext) (rawResp : Bytes) :
    SortedMap Bytes Bytes :=
  (filterResponse filters ctx
    (match statusCode? (addConnectionHeader rawResp).1 with
      | some code => { statusCode := code }
      | none => {})).2.headers

/-- What is sent for a response preserves it: the body is the same, and its head has the lines of
the backend's head, the `Connection` line if it is missing, and the headers that are missing. -/
def Preserves (head body : Bytes) (headers : SortedMap Bytes Bytes) (sent : Bytes) : Prop :=
  ∃ sentHead, cutSub crlfcrlf sent = some (sentHead, body) ∧
    linesOf sentHead = linesOf head ++ (if hasConnection head then [] else [closeLine]) ++
      (missingHeaders (withConnection head) headers).map fieldLine

/-! ## What is sent -/

theorem contains_iff {pattern s : Bytes} : contains pattern s = true ↔ pattern <:+: s :=
  cutSub_isSome_iff

/-- A header name is not found in the line end after a head. -/
theorem contains_append_crlf (pattern s : Bytes) :
    contains (pattern ++ [58]) (s ++ crlf) = contains (pattern ++ [58]) s := by
  have hlast : ∀ (t : Bytes) (c : UInt8), c ≠ 58 →
      (pattern ++ [58] <:+: t ++ [c] ↔ pattern ++ [58] <:+: t) := by
    intro t c hc
    rw [List.infix_concat_iff]
    refine ⟨fun h => h.resolve_left fun hsuffix => hc ?_, .inr⟩
    obtain ⟨front, hfront⟩ := hsuffix
    rw [← List.append_assoc] at hfront
    exact (List.append_inj_right' hfront rfl |> List.cons.inj).1.symm
  rw [Bool.eq_iff_iff, contains_iff, contains_iff,
    show s ++ crlf = s ++ [cr] ++ [lf] by simp, hlast _ lf (by decide), hlast _ cr (by decide)]

theorem field_line_ne_nil (field : Bytes × Bytes) : fieldLine field ≠ [] := by
  simp [fieldLine, ascii]

theorem insert_at_append (front back extra : Bytes) :
    insertAt (front ++ back) front.length extra = front ++ extra ++ back := by
  rw [insertAt, List.take_left, List.drop_left]

section

variable {rawResp head body : Bytes} (hcut : cutSub crlfcrlf rawResp = some (head, body))

include hcut

theorem raw_resp_eq : rawResp = head ++ crlfcrlf ++ body :=
  (cutSub_eq_some_iff.1 hcut).1

/-- The response with a `Connection` header, and where the source goes on. -/
theorem add_connection_header_eq : addConnectionHeader rawResp =
    (withConnection head ++ crlfcrlf ++ body,
      some (if hasConnection head then head.length else head.length + 21)) := by
  have hregion : rawResp.take (head.length + 2) = head ++ crlf := by
    rw [raw_resp_eq hcut, List.append_assoc,
      show crlfcrlf ++ body = crlf ++ (crlf ++ body) from rfl, ← List.append_assoc]
    exact List.take_left' (by simp)
  have hhas : (contains (ascii "\r\nConnection:") (head ++ crlf) ||
      contains (ascii "\r\nconnection:") (head ++ crlf)) = hasConnection head := by
    rw [hasConnection,
      show ascii "\r\nConnection:" = ascii "\r\nConnection" ++ [58] from rfl,
      show ascii "\r\nconnection:" = ascii "\r\nconnection" ++ [58] from rfl,
      contains_append_crlf, contains_append_crlf]
  simp only [addConnectionHeader, hcut, hregion, hhas, withConnection]
  cases hasConnection head with
  | true => rw [if_pos rfl, if_pos rfl, if_pos rfl, raw_resp_eq hcut]
  | false =>
      have hinsert : insertAt rawResp head.length (ascii "\r\nConnection: close") =
          head ++ joinFields [closeLine] ++ crlfcrlf ++ body := by
        rw [raw_resp_eq hcut, List.append_assoc, insert_at_append, List.append_assoc _ _ body]
        rfl
      rw [if_neg Bool.false_ne_true, if_neg Bool.false_ne_true, if_neg Bool.false_ne_true, hinsert]

omit hcut in
/-- The headers that are inserted, if the region that is searched shows the names of a head. -/
theorem extra_headers_eq {out : Bytes} {hdrEnd : Nat}
    (hregion : out.take hdrEnd = head ∨ out.take hdrEnd = head ++ crlf)
    (headers : SortedMap Bytes Bytes) :
    extraHeaders out hdrEnd headers = joinFields ((missingHeaders head headers).map fieldLine) := by
  have hsame : ∀ key : Bytes, contains (crlf ++ key ++ ascii ":") (out.take hdrEnd) =
      contains (crlf ++ key ++ ascii ":") head := by
    intro key
    rcases hregion with h | h
    · rw [h]
    · rw [h]
      exact contains_append_crlf (crlf ++ key) head
  simp only [extraHeaders, missingHeaders, joinFields, hsame]
  induction headers.entries with
  | nil => rfl
  | cons field rest ih =>
      rw [List.map_cons, List.flatten_cons, ih, List.filter_cons]
      cases contains (crlf ++ field.1 ++ ascii ":") head with
      | true => rfl
      | false => simp [fieldLine]

/-- What is sent. Headers behind an added `Connection` header go between the two line ends of the
blank line. -/
theorem rewrite_response_eq (filters : List Filter) (ctx : FilterContext) :
    rewriteResponse filters ctx rawResp =
      if hasConnection head then
        head ++ joinFields ((missingHeaders (withConnection head)
          (filterHeaders filters ctx rawResp)).map fieldLine) ++ crlfcrlf ++ body
      else
        withConnection head ++ (crlf ++ joinFields ((missingHeaders (withConnection head)
          (filterHeaders filters ctx rawResp)).map fieldLine)) ++ crlf ++ body := by
  have hinsert : ∀ {hdrEnd : Nat}, (addConnectionHeader rawResp).2 = some hdrEnd →
      rewriteResponse filters ctx rawResp = insertAt (addConnectionHeader rawResp).1 hdrEnd
        (extraHeaders (addConnectionHeader rawResp).1 hdrEnd
          (filterHeaders filters ctx rawResp)) := by
    intro hdrEnd hsome
    simp only [rewriteResponse, hsome]
    rfl
  rw [hinsert (congrArg Prod.snd (add_connection_header_eq hcut)), add_connection_header_eq hcut]
  generalize filterHeaders filters ctx rawResp = headers
  cases hhas : hasConnection head with
  | true =>
      have hwith : withConnection head = head := if_pos hhas
      have hregion : (head ++ crlfcrlf ++ body).take head.length = head := by
        rw [List.append_assoc, List.take_left]
      simp only [if_true, hwith]
      rw [extra_headers_eq (.inl hregion), List.append_assoc, insert_at_append,
        List.append_assoc _ _ body]
  | false =>
      have hwith : withConnection head = head ++ joinFields [closeLine] :=
        if_neg (by simp [hhas])
      have hlength : (withConnection head ++ crlf).length = head.length + 21 := by
        rw [hwith, List.length_append, List.length_append]
        rfl
      have hsplit : withConnection head ++ crlfcrlf ++ body =
          (withConnection head ++ crlf) ++ (crlf ++ body) := by simp
      have hregion : (withConnection head ++ crlfcrlf ++ body).take (head.length + 21) =
          withConnection head ++ crlf := by
        rw [hsplit]
        exact List.take_left' hlength
      simp only [Bool.false_eq_true, if_false]
      rw [extra_headers_eq (.inr hregion), hsplit, ← hlength, insert_at_append]
      simp only [List.append_assoc]

/-- After a `Connection` header of the backend, every header that is one line is in its place. -/
theorem preserves_iff_of_has (hhas : hasConnection head = true)
    (headers : SortedMap Bytes Bytes) :
    Preserves head body headers (head ++
        joinFields ((missingHeaders (withConnection head) headers).map fieldLine) ++
        crlfcrlf ++ body) ↔
      ∀ field ∈ missingHeaders (withConnection head) headers, ¬ crlf <:+: fieldLine field := by
  constructor
  · rintro ⟨sentHead, -, hlines⟩ field hfield
    refine not_crlf_of_mem_lines (s := sentHead) ?_
    rw [hlines]
    exact List.mem_append_right _ (List.mem_map_of_mem hfield)
  · intro hfields
    have hadded : ∀ line ∈ (missingHeaders (withConnection head) headers).map fieldLine,
        line ≠ [] ∧ ¬ crlf <:+: line := by
      intro line hline
      obtain ⟨field, hfield, rfl⟩ := List.mem_map.1 hline
      exact ⟨field_line_ne_nil field, hfields field hfield⟩
    refine ⟨_, cut_blank_line (raw_resp_eq hcut ▸ hcut) hadded, ?_⟩
    rw [lines_of_join_fields head fun line hline => (hadded line hline).2, hhas, if_pos rfl,
      List.append_nil]

/-- Behind an added `Connection` header, no further header is in its place. -/
theorem preserves_iff_of_lacks (hlacks : hasConnection head = false)
    (headers : SortedMap Bytes Bytes) :
    Preserves head body headers (withConnection head ++
        (crlf ++ joinFields ((missingHeaders (withConnection head) headers).map fieldLine)) ++
        crlf ++ body) ↔
      missingHeaders (withConnection head) headers = [] := by
  have hwith : withConnection head = head ++ joinFields [closeLine] := if_neg (by simp [hlacks])
  have hclose : ∀ line ∈ [closeLine], line ≠ [] ∧ ¬ crlf <:+: line := by decide
  cases hmissing : missingHeaders (withConnection head) headers with
  | nil =>
      refine iff_of_true ⟨withConnection head, ?_, ?_⟩ rfl
      · have hblank := cut_blank_line (raw_resp_eq hcut ▸ hcut) hclose
        rw [hwith]
        simpa [joinFields] using hblank
      · rw [hmissing, hwith, lines_of_join_fields head fun line hline => (hclose line hline).2,
          hlacks, if_neg Bool.false_ne_true]
        exact (List.append_nil _).symm
  | cons field rest =>
      refine iff_of_false ?_ (List.cons_ne_nil _ _)
      rintro ⟨sentHead, hsent, -⟩
      -- the blank line now stands before the first header
      have hsplit : withConnection head ++ (crlf ++ joinFields ((field :: rest).map fieldLine)) ++
            crlf ++ body = head ++ joinFields [closeLine] ++ crlfcrlf ++
            (fieldLine field ++ joinFields (rest.map fieldLine) ++ crlf ++ body) := by
        rw [hwith]
        simp [joinFields]
      have hblank := cut_blank_line (cut_blank_line_of_body (raw_resp_eq hcut ▸ hcut)
        (fieldLine field ++ joinFields (rest.map fieldLine) ++ crlf ++ body)) hclose
      rw [hsplit, hblank, Option.some.injEq, Prod.mk.injEq] at hsent
      have hlength := congrArg List.length hsent.2
      simp only [List.length_append, List.length_cons, List.length_nil] at hlength
      omega

end

/-- The bytes that are handed to the connection for a forwarded request. -/
theorem forward_request_sends (env : Environment) (ctx : FilterContext) (target : Backend)
    (raw : Bytes) :
    responsesOf (forwardRequest env ctx target raw) =
      [(rewriteResponse env.filters ctx (env.forward target raw),
        keepsAlive ctx.req (rewriteResponse env.filters ctx (env.forward target raw)))] := by
  simp only [forwardRequest]
  split <;> rfl

/-- The response that is sent preserves the message of the backend exactly if it has a `Connection`
header and the headers that are added are lines, or if no header is added. -/
theorem response_preserved_iff {env : Environment} {raw : Bytes} {ctx : FilterContext}
    {target : Backend} {head body : Bytes}
    (hforward : processRequest env raw = forwardRequest env ctx target raw)
    (hcut : cutSub crlfcrlf (env.forward target raw) = some (head, body)) :
    (∃ sent keepAlive, responsesOf (processRequest env raw) = [(sent, keepAlive)] ∧
      Preserves head body (filterHeaders env.filters ctx (env.forward target raw)) sent) ↔
    (if hasConnection head then
      ∀ field ∈ missingHeaders (withConnection head)
        (filterHeaders env.filters ctx (env.forward target raw)), ¬ crlf <:+: fieldLine field
    else
      missingHeaders (withConnection head)
        (filterHeaders env.filters ctx (env.forward target raw)) = []) := by
  have hsent : (∃ sent keepAlive, responsesOf (processRequest env raw) = [(sent, keepAlive)] ∧
      Preserves head body (filterHeaders env.filters ctx (env.forward target raw)) sent) ↔
      Preserves head body (filterHeaders env.filters ctx (env.forward target raw))
        (rewriteResponse env.filters ctx (env.forward target raw)) := by
    rw [hforward, forward_request_sends]
    constructor
    · rintro ⟨sent, keepAlive, heq, hpreserves⟩
      cases heq
      exact hpreserves
    · exact fun hpreserves => ⟨_, _, rfl, hpreserves⟩
  rw [hsent, rewrite_response_eq hcut]
  cases hhas : hasConnection head with
  | true =>
      rw [if_pos rfl, if_pos rfl]
      exact preserves_iff_of_has hcut hhas _
  | false =>
      rw [if_neg Bool.false_ne_true, if_neg Bool.false_ne_true]
      exact preserves_iff_of_lacks hcut hhas _

/-! ## The request id -/

/-- `RequestIdFilter`, with the id that `generate_id` returns. -/
def requestIdFilter (generated : Bytes) : Filter where
  onRequest ctx :=
    (true, { ctx with
      requestId := (ctx.req.headers.find? (ascii "x-request-id")).getD generated })
  onResponse ctx resp :=
    (ctx, { resp with headers := resp.headers.assign (ascii "X-Request-Id") ctx.requestId })

/-- A gateway with one backend and the filter for request ids. -/
def answeredBy (answer : Bytes) : Environment where
  internalEndpoint _ := none
  filters := [requestIdFilter (ascii "0123abcd")]
  route _ := some [{ host := ascii "10.0.0.1", port := 9001 }]
  select _ := { host := ascii "10.0.0.1", port := 9001 }
  allowRequest _ := true
  forward _ _ := answer
  elapsed := 0

/-- A request without headers. -/
def plainGet : Bytes :=
  ascii "GET / HTTP/1.1\r\n\r\n"

/-- The head of a backend that keeps its connection open. -/
def keptHead : Bytes :=
  ascii "HTTP/1.1 200 OK\r\nConnection: keep-alive\r\nContent-Length: 2"

theorem response_preserved_kept : ∃ sent keepAlive,
    responsesOf (processRequest (answeredBy (keptHead ++ crlfcrlf ++ ascii "hi")) plainGet) =
        [(sent, keepAlive)] ∧
      Preserves keptHead (ascii "hi")
        (SortedMap.empty.assign (ascii "X-Request-Id") (ascii "0123abcd")) sent := by
  have hcut : cutSub crlfcrlf (keptHead ++ crlfcrlf ++ ascii "hi") =
      some (keptHead, ascii "hi") := by decide
  have hforward : processRequest (answeredBy (keptHead ++ crlfcrlf ++ ascii "hi")) plainGet =
      forwardRequest (answeredBy (keptHead ++ crlfcrlf ++ ascii "hi"))
        { req := (parseHttpRequest plainGet {}).2, requestId := ascii "0123abcd" }
        { host := ascii "10.0.0.1", port := 9001 } plainGet := rfl
  exact (response_preserved_iff hforward hcut).2 (by decide)

/-- The header with the request id is sent as part of the body, to a client of a backend that does
not send a `Connection` header. -/
theorem request_id_misplaced :
    responsesOf (processRequest (answeredBy
        (ascii "HTTP/1.1 200 OK\r\nContent-Length: 2\r\n\r\nhi")) plainGet) =
      [(ascii "HTTP/1.1 200 OK\r\nContent-Length: 2\r\nConnection: close\r\n\r\n" ++
        ascii "X-Request-Id: 0123abcd\r\nhi", false)] ∧
    cutSub crlfcrlf (ascii "HTTP/1.1 200 OK\r\nContent-Length: 2\r\nConnection: close\r\n\r\n" ++
        ascii "X-Request-Id: 0123abcd\r\nhi") =
      some (ascii "HTTP/1.1 200 OK\r\nContent-Length: 2\r\nConnection: close",
        ascii "X-Request-Id: 0123abcd\r\nhi") := by
  decide

end ApiGateway.Core
