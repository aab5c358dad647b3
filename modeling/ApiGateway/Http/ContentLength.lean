import ApiGateway.Http.Reparse

/-!
# Which length a request has

The header map keeps the value of the last field of a name (`request_headers_find`), and a
`Content-Length` value that `parse_int_safe` refuses counts as no length at all. The main
result, `complete_length`, gives the number of bytes that a complete request has after its head
in terms of the `Content-Length` fields of the head.
-/

namespace ApiGateway.Http

open Loop Search

/-- The value of a header line, if the line is a field of the given lower-case name. -/
def fieldValue (name line : Bytes) : Option Bytes :=
  match headerField line with
  | some (key, value) => if key = name then some value else none
  | none => none

/-- The values of all fields of the given lower-case name, in order. -/
def fieldValues (name : Bytes) (fields : List Bytes) : List Bytes :=
  fields.filterMap (fieldValue name)

theorem add_header_line_find (req : HttpRequest) (name line : Bytes) :
    (addHeaderLine req line).headers.find? name =
      (fieldValue name line).or (req.headers.find? name) := by
  unfold addHeaderLine fieldValue
  split
  · rename_i hfield
    rw [hfield]
    rfl
  · rename_i key value hfield
    rw [hfield]
    show (req.headers.assign key value).find? name = (if key = name then some value else none).or _
    rw [SortedMap.find?_assign]
    split <;> rfl

/-- The header map holds the last value of each name. -/
theorem fold_headers_find (fields : List Bytes) (req : HttpRequest) (name : Bytes) :
    (fields.foldl addHeaderLine req).headers.find? name =
      (fieldValues name fields).getLast?.or (req.headers.find? name) := by
  induction fields using List.reverseRecOn with
  | nil => rfl
  | append_singleton fields line ih =>
      rw [List.foldl_append, List.foldl_cons, List.foldl_nil, add_header_line_find, ih]
      cases hvalue : fieldValue name line with
      | none => simp [hvalue, fieldValues]
      | some value => simp [hvalue, fieldValues]

theorem parse_request_line_headers (line : Bytes) (req : HttpRequest) :
    (parseRequestLine line req).2.headers = req.headers := by
  simp only [parseRequestLine]
  split
  · rfl
  · split <;> rfl

namespace RequestHead

variable {h : RequestHead}

theorem request_headers_find (h : RequestHead) (name : Bytes) :
    h.request.headers.find? name = (fieldValues name h.fields).getLast? := by
  rw [request, fold_headers_find, parse_request_line_headers, SortedMap.find?_empty, Option.or_none]

/-- The values of the `Content-Length` fields of a head. -/
def lengthValues (h : RequestHead) : List Bytes :=
  fieldValues (ascii "content-length") h.fields

end RequestHead

/-- The number of body bytes that a `Content-Length` value announces: none if `parse_int_safe`
refuses the value. -/
def announcedLength (value : Bytes) : Nat :=
  match parseIntSafe value [] with
  | none => 0
  | some n => n.toNat

namespace RequestHead

/-- The last `Content-Length` field decides. -/
theorem content_length_eq (h : RequestHead) (hne : h.lengthValues ≠ []) :
    h.contentLength.toNat = announcedLength (h.lengthValues.getLast hne) := by
  unfold contentLength HttpParser.headerContentLength announcedLength
  have hvalues : fieldValues (ascii "content-length") h.fields = h.lengthValues := rfl
  rw [request_headers_find, hvalues, List.getLast?_eq_some_getLast hne]
  cases hn : parseIntSafe (h.lengthValues.getLast hne) [] with
  | none => simp only [hn]; rfl
  | some n => simp only [hn, if_pos (parse_int_safe_range hn).1]

end RequestHead

namespace HttpParser

variable {p : HttpParser} {head : RequestHead}

/-- A complete request without a chunked body is its head followed by as many bytes as its last
`Content-Length` field announces. Where all the fields are digit strings that denote one number in
the range of `int`, that is the number. -/
theorem complete_length {maxSize : Int} {s : Bytes} (hreach : Reaches maxSize s p)
    (hcomplete : p.state = .complete) (hhead : head.bytes <+: s)
    (hplain : head.selectsChunked = false) (hne : head.lengthValues ≠ []) :
    ∃ content, p.raw = head.bytes ++ content ∧
      content.length = announcedLength (head.lengthValues.getLast hne) ∧
      ∀ n, n ≤ 2147483647 →
        (∀ value ∈ head.lengthValues,
          value ≠ [] ∧ (∀ d ∈ value, isDigit d = true) ∧ decimal value = n) →
        content.length = n := by
  have hraw_s := reaches_raw hreach (by simp [hcomplete])
  have hsame : ∀ (h : RequestHead) (content : Bytes), p.raw = h.bytes ++ content → h = head := by
    intro h content hraw
    exact RequestHead.eq_of_prefixes
      ((hraw ▸ List.prefix_append _ _ : h.bytes <+: p.raw).trans hraw_s)
      hhead
  cases reaches_framed hreach with
  | requestLine _ hs | headers _ hs | body _ _ hs | chunkedBody _ _ hs | error hs =>
      cases hcomplete.symm.trans hs
  | chunkedComplete h content _ hraw hselects =>
      rw [hsame h content hraw, hplain] at hselects
      cases hselects
  | plainComplete h content _ hraw _ hlength =>
      obtain rfl := hsame h content hraw
      have hlast := hlength.trans (h.content_length_eq hne)
      refine ⟨content, hraw, hlast, ?_⟩
      intro n hn hall
      obtain ⟨hvalue, hdigits, hdecimal⟩ := hall _ (List.getLast_mem hne)
      rw [hlast, announcedLength, parse_int_safe_digits hvalue hdigits (hdecimal ▸ hn), hdecimal]
      rfl

/-- A request with a body of two bytes. -/
theorem complete_length_two : ∃ (p : HttpParser) (head : RequestHead),
    Reaches 65536 (ascii "POST / HTTP/1.1\r\nContent-Length: 2\r\n\r\nab") p ∧
    head.lengthValues = [ascii "2"] ∧ ∃ content, p.raw = head.bytes ++ content ∧
      content.length = 2 := by
  obtain ⟨p, hreach, hpost⟩ :=
    exists_reaches 65536 (ascii "POST / HTTP/1.1\r\nContent-Length: 2\r\n\r\nab") 4
      (fun p => p.state = .complete) (by decide)
  have hvalues : (⟨0, ascii "POST / HTTP/1.1", [ascii "Content-Length: 2"], by decide, by decide,
      by decide⟩ : RequestHead).lengthValues = [ascii "2"] := by decide
  obtain ⟨content, hraw, -, hlength⟩ := complete_length hreach (of_decide_eq_true hpost)
    (by decide) (by decide) (hvalues ▸ List.cons_ne_nil _ _)
  refine ⟨p, _, hreach, hvalues, content, hraw, hlength 2 (by omega) ?_⟩
  intro value hvalue
  rw [hvalues, List.mem_singleton] at hvalue
  rw [hvalue]
  exact ⟨by decide, List.all_eq_true.1 (by decide), by decide⟩

/-- Two fields that differ, the second one malformed: the request is complete. -/
theorem malformed_length_completes : ∃ (p : HttpParser) (head : RequestHead),
    Reaches 65536 (ascii "P / V\r\nContent-Length: 2\r\nContent-Length: x\r\n\r\n") p ∧
    p.state = .complete ∧
    head.bytes <+: ascii "P / V\r\nContent-Length: 2\r\nContent-Length: x\r\n\r\n" ∧
    head.selectsChunked = false ∧ head.lengthValues = [ascii "2", ascii "x"] := by
  obtain ⟨p, hreach, hpost⟩ := exists_reaches 65536
    (ascii "P / V\r\nContent-Length: 2\r\nContent-Length: x\r\n\r\n") 3
    (fun p => p.state = .complete) (by decide)
  exact ⟨p, ⟨0, ascii "P / V", [ascii "Content-Length: 2", ascii "Content-Length: x"], by decide,
    by decide, by decide⟩, hreach, of_decide_eq_true hpost, by decide, by decide, by decide⟩

end HttpParser

end ApiGateway.Http
