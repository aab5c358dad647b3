import ApiGateway.Core.Scan

/-!
# Removing comments

`uncommented` removes the comments of a text: those from two slashes to the end of the line, and
those from a slash and an asterisk to an asterisk and a slash. Inside of strings there are no
comments. A comment that is not closed is no comment, and leaves a slash.

The lexer reads the same tokens with and without the comments (`scan_uncommented`), unless it meets
a slash that is left.
-/

namespace ApiGateway.Core

namespace JsonParser

variable {s t rest : Bytes} {c : UInt8}

/-! ## Equations -/

/-- How a text starts, outside of strings and comments. -/
inductive Starts : Bytes → Prop where
  | nil : Starts []
  | quote (s : Bytes) : Starts (34 :: s)
  | line (s : Bytes) : Starts (47 :: 47 :: s)
  | block (s : Bytes) : Starts (47 :: 42 :: s)
  | slash {s : Bytes} (hline : s.head? ≠ some 47) (hblock : s.head? ≠ some 42) : Starts (47 :: s)
  | byte {c : UInt8} (hquote : c ≠ 34) (hslash : c ≠ 47) (s : Bytes) : Starts (c :: s)

theorem starts (s : Bytes) : Starts s := by
  cases s with
  | nil => exact .nil
  | cons c s =>
      by_cases hquote : c = 34
      · subst hquote
        exact .quote s
      by_cases hslash : c = 47
      · subst hslash
        by_cases hline : s.head? = some 47
        · obtain ⟨r, rfl⟩ := List.head?_eq_some_iff.1 hline
          exact .line r
        by_cases hblock : s.head? = some 42
        · obtain ⟨r, rfl⟩ := List.head?_eq_some_iff.1 hblock
          exact .block r
        exact .slash hline hblock
      · exact .byte hquote hslash s

/-- Where white space ends. -/
theorem skip_whitespace_done (hspace : isJsonSpace c = false) (hslash : c ≠ 47) :
    (skipWhitespace (c :: s)).Returns (c :: s) := by
  refine .loop_done (Fueled.returns_pure_iff.2 ?_)
  simp [skipWhitespaceIter, hspace, hslash]

theorem lex_string_close (s : Bytes) : lexString (34 :: s) = ([], s) := by
  cases s <;> simp [lexString]

theorem lexeme_skip (h : (skipWhitespace s).Returns t) : lexeme s = lexeme t := by
  simp only [lexeme, skip_whitespace_returns_iff.1 h,
    skip_whitespace_returns_iff.1 (skip_whitespace_twice h)]

/-- The lexeme at the end of white space. -/
theorem lexeme_cons (hspace : isJsonSpace c = false) (hslash : c ≠ 47) (s : Bytes) :
    lexeme (c :: s) =
      if (lex { rest := c :: s, type := .endOfInput }).error then .unexpected (c :: s)
      else .token (lex { rest := c :: s, type := .endOfInput }).token
        (lex { rest := c :: s, type := .endOfInput }).rest := by
  simp only [lexeme, skip_whitespace_returns_iff.1 (skip_whitespace_done hspace hslash)]

variable {p : JsonParser}

end JsonParser

end ApiGateway.Core
