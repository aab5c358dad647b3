import ApiGateway.Core.Json

/-!
# The tokens of an arbitrary text

What `JsonParser::advance` does on any input. A text starts with a token, is blank, has an
unexpected byte in front, at which the parser stays for ever, or has a slash in front that starts no
comment, on which `skip_whitespace` does not return (`lexeme`). `scan` splits a text into its tokens
and the way in which it ends. The main results are `advance_token`, `advance_blank`,
`advance_unexpected` and `not_advance_slash`, one for each case.
-/

namespace ApiGateway.Core

open Loop

/-- `JsonParser::Token`. -/
structure Token where
  type : TokenType
  text : Bytes
  deriving DecidableEq

namespace JsonParser

variable {p q : JsonParser} {s t : Bytes}

/-- The current token. -/
abbrev token (p : JsonParser) : Token :=
  ⟨p.type, p.text⟩

/-! ## White space -/

theorem skip_block_comment_length (s : Bytes) : (skipBlockComment s).length ≤ s.length := by
  fun_induction skipBlockComment s with
  | case1 rest => simp; omega
  | case2 _ c rest _ ih => exact ih.trans (Nat.le_succ _)
  | case3 => exact le_rfl

/-- A slash that starts no comment is the only text on which `skip_comment` makes no progress. -/
theorem skip_comment_progress (s : Bytes) :
    (skipComment s).length < s.length ∨ skipComment s = s := by
  fun_cases skipComment s with
  | case1 rest =>
      left
      have hlength := (List.dropWhile_suffix (· != 10) (l := rest)).length_le
      simp only [List.dropWhile_cons, List.length_cons]
      exact Nat.lt_succ_of_le (hlength.trans (Nat.le_succ _))
  | case2 rest =>
      left
      have hlength := skip_block_comment_length rest
      simp only [List.length_cons]
      omega
  | case3 => exact .inr rfl

/-- A pass of `skip_whitespace` shortens the text or repeats itself. -/
theorem skip_whitespace_iter_progress (h : skipWhitespaceIter s = .next t) :
    t.length < s.length ∨ t = s := by
  cases s with
  | nil => cases h
  | cons c rest =>
      simp only [skipWhitespaceIter] at h
      split_ifs at h
      · cases h
        exact .inl (Nat.lt_succ_self _)
      · cases h
        exact skip_comment_progress _

/-- If white space ends at all, it ends within as many passes as the text has bytes. -/
theorem skip_whitespace_returns_iff :
    (skipWhitespace s).Returns t ↔ (skipWhitespace s).run (s.length + 1) = some t := by
  refine ⟨fun h => ?_, fun h => ⟨_, h⟩⟩
  have hloop := Fueled.returns_loop_pure_iff.1 h
  exact (Fueled.loop_run_pure _ _ _ s).trans
    (hloop.run_eq List.length fun _ _ => skip_whitespace_iter_progress)

/-- White space ends at a byte that does not belong to it, and is not entered again there. -/
theorem skip_whitespace_twice (h : (skipWhitespace s).Returns t) :
    (skipWhitespace t).Returns t := by
  refine .loop_done (Fueled.returns_pure_iff.2 ?_)
  refine (Fueled.returns_loop_pure_iff.1 h).relates (fun _ t => skipWhitespaceIter t = .done t)
    (fun _ _ _ _ ih => ih) fun s r hdone => ?_
  cases s with
  | nil => cases hdone; rfl
  | cons c rest =>
      have hsame := hdone
      simp only [skipWhitespaceIter] at hsame
      split_ifs at hsame
      cases hsame
      exact hdone

/-! ## Lexemes -/

/-- What stands at the beginning of a text. -/
inductive Lexeme where
  | token (t : Token) (rest : Bytes)
  | blank
  | unexpected (rest : Bytes)
  | slash

/-- The first lexeme of a text. -/
def lexeme (s : Bytes) : Lexeme :=
  match (skipWhitespace s).run (s.length + 1) with
  | none => .slash
  | some [] => .blank
  | some (c :: rest) =>
      let p := lex { rest := c :: rest, type := .endOfInput }
      if p.error then .unexpected (c :: rest) else .token p.token p.rest

/-- The bytes of a token do not depend on what the parser has read before. -/
theorem lex_token {c : UInt8} {rest : Bytes}
    (h : (lex { rest := c :: rest, type := .endOfInput }).error = false) (p : JsonParser) :
    lex { p with rest := c :: rest } =
      { p with
        rest := (lex { rest := c :: rest, type := .endOfInput }).rest
        type := (lex { rest := c :: rest, type := .endOfInput }).type
        text := (lex { rest := c :: rest, type := .endOfInput }).text } := by
  simp only [lex] at h ⊢
  split
  · rfl
  · rename_i hpunct
    simp only [hpunct] at h ⊢
    split_ifs at h ⊢
    all_goals first | rfl | cases h

/-- An unexpected byte changes nothing but the error. -/
theorem lex_unexpected {c : UInt8} {rest : Bytes}
    (h : (lex { rest := c :: rest, type := .endOfInput }).error = true) (p : JsonParser) :
    lex { p with rest := c :: rest } =
      setError { p with rest := c :: rest }
        (ascii "Unexpected character: '" ++ [c] ++ ascii "'") := by
  simp only [lex] at h ⊢
  split
  · rename_i hpunct
    simp only [hpunct] at h
    cases h
  · rename_i hpunct
    simp only [hpunct] at h ⊢
    split_ifs at h ⊢
    all_goals first | rfl | cases h

theorem lex_string_length (s : Bytes) : (lexString s).2.length ≤ s.length := by
  fun_induction lexString s with
  | case1 | case2 | case3 | case4 => simp
  | case5 _ _ _ _ ih => exact ih.trans ((Nat.le_succ _).trans (Nat.le_succ _))
  | case6 _ _ _ _ _ _ ih => exact ih.trans (Nat.le_succ _)

theorem drop_while_length {c : UInt8} {rest : Bytes} {f : UInt8 → Bool} (hc : f c = true) :
    ((c :: rest).dropWhile f).length ≤ rest.length := by
  rw [List.dropWhile_cons_of_pos hc]
  exact (List.dropWhile_suffix f).length_le

/-- A token consumes at least a byte. -/
theorem lex_shorter {c : UInt8} {rest : Bytes}
    (h : (lex { rest := c :: rest, type := .endOfInput }).error = false) :
    (lex { rest := c :: rest, type := .endOfInput }).rest.length ≤ rest.length := by
  simp only [lex] at h ⊢
  split
  · exact le_rfl
  · rename_i hpunct
    simp only [hpunct] at h ⊢
    split_ifs at h ⊢ with hquote hminus hdigit hbool hnull
    · exact lex_string_length rest
    · exact (List.dropWhile_suffix isNumberPart).length_le
    · exact drop_while_length (by simp [isNumberPart, hdigit])
    · exact drop_while_length (by rcases hbool with rfl | rfl <;> decide)
    · exact drop_while_length (by rw [hnull]; decide)
    · cases h

variable {rest : Bytes} {tok : Token}

theorem lexeme_token_length (h : lexeme s = .token tok rest) : rest.length < s.length := by
  have hsuffix : ∀ t, (skipWhitespace s).Returns t → t.length ≤ s.length := fun t ht => by
    refine (Fueled.returns_loop_pure_iff.1 ht).relates (fun s t => t.length ≤ s.length)
      (fun s s' t hnext ih => ?_) fun s t hdone => ?_
    · rcases skip_whitespace_iter_progress hnext with hlt | rfl
      · exact ih.trans hlt.le
      · exact ih
    · cases s with
      | nil => cases hdone; exact le_rfl
      | cons c rest =>
          simp only [skipWhitespaceIter] at hdone
          split_ifs at hdone
          cases hdone
          exact le_rfl
  simp only [lexeme] at h
  split at h
  · cases h
  · cases h
  · rename_i c rest' hskip
    split_ifs at h with herror
    cases h
    have hshort := lex_shorter (Bool.eq_false_iff.2 herror)
    have hle := hsuffix _ ⟨_, hskip⟩
    simp only [List.length_cons] at hle
    omega

/-- `advance` reads the first token of a text. -/
theorem advance_token (h : lexeme p.rest = .token tok rest) :
    p.advance.Returns { p with rest := rest, type := tok.type, text := tok.text } := by
  simp only [lexeme] at h
  split at h
  · cases h
  · cases h
  · rename_i c rest' hskip
    split_ifs at h with herror
    cases h
    exact Fueled.Returns.bind ⟨_, hskip⟩
      (Fueled.returns_pure_iff.2 (lex_token (Bool.eq_false_iff.2 herror) p))

/-- On a blank text `advance` gives the token for the end, and gives it again and again. -/
theorem advance_blank (h : lexeme p.rest = .blank) :
    ∃ q, p.advance.Returns q ∧ q.advance.Returns q ∧ q.token = ⟨.endOfInput, []⟩ ∧
      q.error = p.error := by
  simp only [lexeme] at h
  split at h
  · cases h
  · rename_i hskip
    refine ⟨{ p with rest := [], type := .endOfInput, text := [] },
      Fueled.Returns.bind ⟨_, hskip⟩ (Fueled.returns_pure_iff.2 rfl), ?_, rfl, rfl⟩
    exact Fueled.Returns.bind (skip_whitespace_twice ⟨_, hskip⟩) (Fueled.returns_pure_iff.2 rfl)
  · split_ifs at h

/-- At an unexpected byte `advance` sets the error and gives the current token again and again. -/
theorem advance_unexpected (h : lexeme p.rest = .unexpected rest) :
    ∃ q, p.advance.Returns q ∧ q.advance.Returns q ∧ q.token = p.token ∧ q.error = true := by
  simp only [lexeme] at h
  split at h
  · cases h
  · cases h
  · rename_i c rest' hskip
    split_ifs at h with herror
    refine ⟨_, Fueled.Returns.bind ⟨_, hskip⟩
      (Fueled.returns_pure_iff.2 (lex_unexpected herror p)), ?_, rfl, rfl⟩
    exact Fueled.Returns.bind (skip_whitespace_twice ⟨_, hskip⟩)
      (Fueled.returns_pure_iff.2 (lex_unexpected herror _))

/-- At a slash that starts no comment `advance` does not return. -/
theorem not_advance_slash (h : lexeme p.rest = .slash) : ¬ ∃ q, p.advance.Returns q := by
  rintro ⟨q, hq⟩
  obtain ⟨t, ht, -⟩ := Fueled.returns_bind_iff.1 hq
  simp only [lexeme, skip_whitespace_returns_iff.1 ht] at h
  split at h
  · rename_i hnone
    cases hnone
  · cases h
  · split_ifs at h

/-! ## Texts -/

/-- How a text ends after its tokens. -/
inductive Ending where
  | finished
  | unexpected
  | slash
  deriving DecidableEq

/-- The tokens of a text of fewer than the given number of bytes. -/
def scanFrom : Nat → Bytes → List Token × Ending
  | 0, _ => ([], .finished)
  | n + 1, s =>
      match lexeme s with
      | .token t rest => (t :: (scanFrom n rest).1, (scanFrom n rest).2)
      | .blank => ([], .finished)
      | .unexpected _ => ([], .unexpected)
      | .slash => ([], .slash)

/-- The tokens of a text, and how it ends. -/
def scan (s : Bytes) : List Token × Ending :=
  scanFrom (s.length + 1) s

/-- Any sufficient bound gives the same tokens. -/
theorem scan_from_eq {n m : Nat} (hn : s.length < n) (hm : s.length < m) :
    scanFrom n s = scanFrom m s := by
  induction n generalizing m s with
  | zero => omega
  | succ n ih =>
      obtain ⟨m, rfl⟩ : ∃ k, m = k + 1 := ⟨m - 1, by omega⟩
      simp only [scanFrom]
      split
      · rename_i t rest hlex
        have hlength := lexeme_token_length hlex
        rw [ih (by omega) (show rest.length < m by omega)]
      all_goals rfl

theorem scan_token (h : lexeme s = .token tok rest) :
    scan s = (tok :: (scan rest).1, (scan rest).2) := by
  have hlength := lexeme_token_length h
  have hstep : scan s = (tok :: (scanFrom s.length rest).1, (scanFrom s.length rest).2) := by
    simp only [scan, scanFrom, h]
  rw [hstep, scan_from_eq hlength (Nat.lt_succ_self rest.length)]
  rfl

/-- The first token of a text is its first lexeme. -/
theorem lexeme_of_scan {toks : List Token} (h : (scan s).1 = tok :: toks) :
    ∃ rest, lexeme s = .token tok rest ∧ (scan rest).1 = toks ∧ (scan rest).2 = (scan s).2 := by
  cases hlex : lexeme s with
  | token t rest =>
      rw [scan_token hlex] at h ⊢
      cases h
      exact ⟨rest, rfl, rfl, rfl⟩
  | blank | unexpected | slash => simp [scan, scanFrom, hlex] at h

/-- What stands after the last token. -/
theorem lexeme_of_scan_nil (h : (scan s).1 = []) :
    match (scan s).2 with
    | .finished => lexeme s = .blank
    | .unexpected => ∃ rest, lexeme s = .unexpected rest
    | .slash => lexeme s = .slash := by
  cases hlex : lexeme s with
  | token t rest => simp [scan_token hlex] at h
  | blank | unexpected | slash => simp [scan, scanFrom, hlex]

end JsonParser

end ApiGateway.Core
