import ApiGateway.Library.Search
import ApiGateway.Library.SortedMap
import ApiGateway.Utils.ParseInt

/-!
# Requests and their lines

The request record of `request.h` and the line-level readers of `parser.cpp`: letter case,
the request line, and one header line. `HttpParser` and `parse_http_request` read header lines
with the same code, `headerField`, and store them with `addHeaderLine`.
-/

namespace ApiGateway.Http

open Search

/-- Carriage return. -/
abbrev cr : UInt8 := 13

/-- Line feed. -/
abbrev lf : UInt8 := 10

/-- The line terminator. -/
abbrev crlf : Bytes := [cr, lf]

/-- The blank line that ends a head, with the terminator of the line before it. -/
abbrev crlfcrlf : Bytes := [cr, lf, cr, lf]

/-- `struct HttpRequest`. -/
structure HttpRequest where
  method : Bytes := []
  path : Bytes := []
  version : Bytes := []
  headers : SortedMap Bytes Bytes := .empty
  body : Bytes := []
  deriving DecidableEq

/-- `ascii_to_lower`. -/
def asciiToLower (c : UInt8) : UInt8 :=
  if 65 ≤ c && c ≤ 90 then c + 32 else c

/-- `to_lower_inplace`. -/
def toLower (s : Bytes) : Bytes :=
  s.map asciiToLower

/-- `str_iequal`. -/
def strIequal (a b : Bytes) : Bool :=
  a.length == b.length && toLower a == toLower b

/-- A sliding comparison: some window of `v` equals `word` up to letter case. -/
def containsIcase (word : Bytes) : Bytes → Bool
  | [] => strIequal [] word
  | c :: rest => strIequal ((c :: rest).take word.length) word || containsIcase word rest

/-- `parse_request_line`. The fields are assigned as soon as both spaces are found, also when
one of them turns out to be empty and the line is refused. -/
def parseRequestLine (line : Bytes) (req : HttpRequest) : Bool × HttpRequest :=
  match cut 32 line with
  | none => (false, req)
  | some (method, afterMethod) =>
      match cut 32 afterMethod with
      | none => (false, req)
      | some (path, version) =>
          (!method.isEmpty && !path.isEmpty && !version.isEmpty,
            { req with method := method, path := path, version := version })

/-- The blanks skipped before a header value. -/
def isBlank (c : UInt8) : Bool :=
  c == 32 || c == 9

/-- The lower-cased name and the value of a header line; `none` for a line without a colon. -/
def headerField (line : Bytes) : Option (Bytes × Bytes) :=
  (cut 58 line).map fun parts => (toLower parts.1, parts.2.dropWhile isBlank)

/-- Store the field of a header line; a line without a colon is dropped. -/
def addHeaderLine (req : HttpRequest) (line : Bytes) : HttpRequest :=
  match headerField line with
  | none => req
  | some (key, value) => { req with headers := req.headers.assign key value }

/-- `extract_line`, on the bytes that are pending: the bytes before the first carriage return,
provided a line feed follows it. -/
def extractLine (data : Bytes) : Option Bytes :=
  match cut cr data with
  | some (line, 10 :: _) => some line
  | _ => none

theorem extract_line_eq_some_iff {data line : Bytes} :
    extractLine data = some line ↔ cr ∉ line ∧ ∃ rest, data = line ++ crlf ++ rest := by
  constructor
  · intro h
    simp only [extractLine] at h
    split at h
    · rename_i front back hcut
      cases h
      obtain ⟨rfl, hmem⟩ := cut_eq_some_iff.1 hcut
      exact ⟨hmem, back, by simp⟩
    · cases h
  · rintro ⟨hmem, rest, rfl⟩
    have hcut : cut cr (line ++ crlf ++ rest) = some (line, lf :: rest) :=
      cut_eq_some_iff.2 ⟨by simp, hmem⟩
    simp only [extractLine, hcut]

theorem extract_line_append {line rest : Bytes} (h : cr ∉ line) :
    extractLine (line ++ crlf ++ rest) = some line :=
  extract_line_eq_some_iff.2 ⟨h, rest, rfl⟩

/-- A complete line stays the first line when more bytes arrive. -/
theorem extract_line_append_right {data line : Bytes} (h : extractLine data = some line)
    (more : Bytes) : extractLine (data ++ more) = some line := by
  obtain ⟨hmem, rest, rfl⟩ := extract_line_eq_some_iff.1 h
  exact extract_line_eq_some_iff.2 ⟨hmem, rest ++ more, by simp⟩

theorem extract_line_length {data line : Bytes} (h : extractLine data = some line) :
    line.length + 2 ≤ data.length := by
  obtain ⟨-, rest, rfl⟩ := extract_line_eq_some_iff.1 h
  simp

@[simp] theorem extract_line_nil : extractLine [] = none := rfl

/-- A line is empty exactly when the data starts with a line terminator. -/
theorem extract_line_eq_nil_iff {data : Bytes} :
    extractLine data = some [] ↔ data.take 2 = crlf := by
  rw [extract_line_eq_some_iff]
  constructor
  · rintro ⟨-, rest, rfl⟩
    rfl
  · intro h
    exact ⟨by simp, data.drop 2, by rw [List.nil_append, ← h, List.take_append_drop]⟩

/-- The three tests made before a header or trailer line decide what the first line of the data
is. -/
theorem line_tests_eq {α : Type} (data : Bytes) (wait blank : α) (next : Bytes → α) :
    (if data.length < 2 then wait
      else if data.take 2 = crlf then blank
      else match extractLine data with
        | none => wait
        | some line => next line) =
      match extractLine data with
        | none => wait
        | some [] => blank
        | some line => next line := by
  by_cases hcrlf : data.take 2 = crlf
  · have hlen : ¬ data.length < 2 := fun h => by
      have := congrArg List.length hcrlf
      simp only [List.length_take, List.length_cons, List.length_nil] at this
      omega
    rw [if_neg hlen, if_pos hcrlf, extract_line_eq_nil_iff.2 hcrlf]
  · have hne : extractLine data ≠ some [] := fun h => hcrlf (extract_line_eq_nil_iff.1 h)
    cases hline : extractLine data with
    | none => simp [hcrlf]
    | some line =>
        have hlen := extract_line_length hline
        rw [if_neg (by omega), if_neg hcrlf]
        cases line with
        | nil => exact absurd hline hne
        | cons c rest => rfl

end ApiGateway.Http
