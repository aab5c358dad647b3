import ApiGateway.Core.JsonTokens

/-!
# The texts of JSON

How the tokens of JSON are spelled (`Spelled`), and which texts consist of given tokens with white
space around them (`Writes`). Numbers have the exponents of JSON, which the lexer does not know: it
reads a number up to its exponent and is then at an unexpected character. Strings are spelled as
the lexer takes them, and so may also have escapes and control characters that JSON does not allow.

The main results are `advance_string_literal`, that a literal is read as the string it was made of;
`advance_at`, which says that `advance` moves along such a text token by token; and `advance_stuck`,
which says how it stays at an exponent.
-/

namespace ApiGateway.Core

open JsonParser

/-! ## Tokens and their spelling -/

/-- The exponent of a number. -/
def isExponent (s : Bytes) : Bool :=
  !s.isEmpty && (Json.exponent s).any fun r => r.2.isEmpty

/-- A token of JSON. The exponent of a number is apart from the token that the lexer reads. -/
structure Piece where
  token : Token
  exponent : Bytes
  valid : exponent = [] ∨ token.type = .number ∧ isExponent exponent = true

namespace Piece

/-- A token without an exponent. -/
def of (t : Token) : Piece :=
  ⟨t, [], .inl rfl⟩

abbrev objectStart : Piece :=
  .of ⟨.objectStart, ascii "\x7b"⟩

abbrev objectEnd : Piece :=
  .of ⟨.objectEnd, ascii "\x7d"⟩

abbrev arrayStart : Piece :=
  .of ⟨.arrayStart, ascii "["⟩

abbrev arrayEnd : Piece :=
  .of ⟨.arrayEnd, ascii "]"⟩

abbrev colon : Piece :=
  .of ⟨.colon, ascii ":"⟩

abbrev comma : Piece :=
  .of ⟨.comma, ascii ","⟩

end Piece

/-- The tokens that separate the others. -/
def Token.marks : List Token :=
  [Piece.objectStart.token, Piece.objectEnd.token, Piece.arrayStart.token, Piece.arrayEnd.token,
    Piece.colon.token, Piece.comma.token]

/-- A byte or an escape of a string. What follows the letter `u` of an escape is plain. -/
inductive StringChar where
  | plain (c : UInt8) (hquote : c ≠ 34) (hescape : c ≠ 92)
  | escaped (c : UInt8)

namespace StringChar

def bytes : StringChar → Bytes
  | plain c _ _ => [c]
  | escaped c => [92, c]

/-- The byte that the lexer reads. -/
def value : StringChar → UInt8
  | plain c _ _ => c
  | escaped c => unescape c

end StringChar

/-- The bytes of a token. -/
inductive Spelled : Piece → Bytes → Prop where
  | mark {t : Token} (h : t ∈ Token.marks) : Spelled (.of t) t.text
  | word {t : Token} (h : t ∈ Token.words) : Spelled (.of t) t.text
  | string (chars : List StringChar) :
      Spelled (.of ⟨.string, chars.map StringChar.value⟩)
        (34 :: (chars.flatMap StringChar.bytes ++ [34]))
  | number {x : Piece} (htype : x.token.type = .number)
      (h : Json.isPlainNumber x.token.text = true) :
      Spelled x (x.token.text ++ x.exponent)

/-- A text that consists of the tokens, with white space before, between and after them. -/
inductive Writes : List Piece → Bytes → Prop where
  | nil {space : Bytes} (hspace : ∀ c ∈ space, isJsonSpace c = true) : Writes [] space
  | cons {space bytes json : Bytes} {x : Piece} {xs : List Piece}
      (hspace : ∀ c ∈ space, isJsonSpace c = true) (hx : Spelled x bytes) (h : Writes xs json) :
      Writes (x :: xs) (space ++ (bytes ++ json))

/-- Of two neighbours one is a mark. -/
def Apart (xs : List Piece) : Prop :=
  xs.IsChain fun x y => x.token ∈ Token.marks ∨ y.token ∈ Token.marks

/-! ## What the lexer reads -/

theorem lex_string_chars (chars : List StringChar) (rest : Bytes) :
    lexString (chars.flatMap StringChar.bytes ++ 34 :: rest) =
      (chars.map StringChar.value, rest) := by
  induction chars with
  | nil => cases rest <;> rfl
  | cons x chars ih =>
      cases x with
      | plain c hquote hescape =>
          rw [List.flatMap_cons, List.append_assoc, StringChar.bytes, List.singleton_append,
            lex_string_plain hquote hescape, ih]
          rfl
      | escaped c => simp [StringChar.bytes, StringChar.value, lexString, ih]

/-! ## String literals -/

/-- The ways to write a byte of a string. A quote and a backslash are escaped; the control
characters that have an escape and the slash can be written as they are as well. -/
def spellings (c : UInt8) : List Bytes :=
  if c = 34 ∨ c = 92 then [[92, c]]
  else if c = 10 then [[c], [92, 110]]
  else if c = 9 then [[c], [92, 116]]
  else if c = 13 then [[c], [92, 114]]
  else if c = 47 then [[c], [92, c]]
  else [[c]]

/-- What stands between the quotes of a literal for a string, with a choice for each byte. -/
inductive IsLiteral : Bytes → Bytes → Prop where
  | nil : IsLiteral [] []
  | cons {c : UInt8} {s part body : Bytes} (hpart : part ∈ spellings c) (h : IsLiteral s body) :
      IsLiteral (c :: s) (part ++ body)

/-- Every way to write a byte is read as that byte. -/
theorem string_char_of_spelling {c : UInt8} {part : Bytes} (h : part ∈ spellings c) :
    ∃ x : StringChar, x.bytes = part ∧ x.value = c := by
  unfold spellings at h
  split at h
  · rename_i hspecial
    have hself : unescape c = c := by rcases hspecial with rfl | rfl <;> rfl
    exact ⟨.escaped c, (List.mem_singleton.1 h).symm, hself⟩
  · rename_i hplain
    obtain ⟨hquote, hescape⟩ := not_or.1 hplain
    -- raw, or with the letter of the escape
    have hpair : ∀ d, part ∈ [[c], [92, d]] → unescape d = c →
        part = [c] ∨ ∃ d, part = [92, d] ∧ unescape d = c := by
      intro d hpart hd
      rcases List.mem_pair.1 hpart with hraw | hescaped
      · exact .inl hraw
      · exact .inr ⟨d, hescaped, hd⟩
    have hchoice : part = [c] ∨ ∃ d, part = [92, d] ∧ unescape d = c := by
      split_ifs at h with hnewline htab hreturn hslash
      · exact hpair 110 h hnewline.symm
      · exact hpair 116 h htab.symm
      · exact hpair 114 h hreturn.symm
      · exact hpair c h (by rw [hslash]; rfl)
      · exact .inl (List.mem_singleton.1 h)
    rcases hchoice with rfl | ⟨d, rfl, hd⟩
    · exact ⟨.plain c hquote hescape, rfl, rfl⟩
    · exact ⟨.escaped d, rfl, hd⟩

theorem IsLiteral.string_chars {s body : Bytes} (h : IsLiteral s body) :
    ∃ chars : List StringChar,
      chars.flatMap StringChar.bytes = body ∧ chars.map StringChar.value = s := by
  induction h with
  | nil => exact ⟨[], rfl, rfl⟩
  | cons hpart _ ih =>
      obtain ⟨x, hbytes, hvalue⟩ := string_char_of_spelling hpart
      obtain ⟨chars, hbody, hs⟩ := ih
      exact ⟨x :: chars, by rw [List.flatMap_cons, hbytes, hbody],
        by rw [List.map_cons, hvalue, hs]⟩

/-- `advance` reads a literal as the string it was made of, and stops behind its closing quote. -/
theorem advance_string_literal (p : JsonParser) (s body rest : Bytes) (h : IsLiteral s body)
    (hrest : p.rest = 34 :: (body ++ 34 :: rest)) :
    p.advance.Returns { p with rest := rest, type := .string, text := s } := by
  obtain ⟨chars, hbody, hs⟩ := h.string_chars
  have hskip : (skipWhitespace p.rest).Returns (34 :: (body ++ 34 :: rest)) := by
    rw [hrest]
    refine @skip_whitespace_returns [] _ (by rintro _ ⟨⟩) ?_
    rintro _ ⟨⟩
    decide
  have hlex : lexString (body ++ 34 :: rest) = (s, rest) := by
    rw [← hbody, ← hs]
    exact lex_string_chars chars rest
  exact hskip.bind (Fueled.returns_pure_iff.2 (lex_quote hlex))

/-- A backslash, a quote and an escaped and a raw newline, in front of another quote. -/
theorem advance_string_literal_mixed :
    (advance { rest := ascii "\"\\\\\\\"\\n\n\"\"", type := .null }).Returns
      { rest := ascii "\"", type := .string, text := ascii "\\\"\n\n" } :=
  advance_string_literal _ (ascii "\\\"\n\n") (ascii "\\\\\\\"\\n\n") (ascii "\"")
    (@IsLiteral.cons 92 _ [92, 92] _ (by decide)
      (@IsLiteral.cons 34 _ [92, 34] _ (by decide)
        (@IsLiteral.cons 10 _ [92, 110] _ (by decide)
          (@IsLiteral.cons 10 _ [10] _ (by decide) .nil)))) rfl

/-! ## Tokens -/

/-- A mark is a byte that belongs to no other token. -/
theorem mark_kind {t : Token} (h : t ∈ Token.marks) :
    ∃ c, t.text = [c] ∧ punctuation c = some t.type ∧ isJsonSpace c = false ∧ c ≠ 47 ∧
      isNumberPart c = false ∧ isAlpha c = false := by
  have hmark : ∃ c, t.text = [c] ∧ punctuation c = some t.type := by
    simp only [Token.marks, List.mem_cons, List.not_mem_nil, or_false] at h
    rcases h with rfl | rfl | rfl | rfl | rfl | rfl <;> exact ⟨_, rfl, rfl⟩
  obtain ⟨c, htext, hc⟩ := hmark
  exact ⟨c, htext, hc, punctuation_kind hc⟩

theorem type_of_mark {t : Token} (h : t ∈ Token.marks) :
    t.type ≠ .string ∧ t.type ≠ .number ∧ t.type ≠ .boolean ∧ t.type ≠ .null := by
  simp only [Token.marks, List.mem_cons, List.not_mem_nil, or_false] at h
  rcases h with rfl | rfl | rfl | rfl | rfl | rfl <;> decide

/-- A text that starts with a mark or white space continues neither a number nor a word. -/
theorem writes_head {xs : List Piece} {json : Bytes} (h : Writes xs json)
    (hxs : ∀ x ∈ xs.head?, x.token ∈ Token.marks) :
    ∀ c ∈ json.head?, isNumberPart c = false ∧ isAlpha c = false := by
  have hspaces : ∀ space s : Bytes, (∀ c ∈ space, isJsonSpace c = true) →
      (∀ c ∈ s.head?, isNumberPart c = false ∧ isAlpha c = false) →
      ∀ c ∈ (space ++ s).head?, isNumberPart c = false ∧ isAlpha c = false := by
    intro space s hspace hs
    cases space with
    | nil => exact hs
    | cons c space =>
        rintro _ ⟨⟩
        exact space_kind (hspace c (.head _))
  cases h with
  | nil hspace =>
      rw [← List.append_nil json]
      exact hspaces json [] hspace (by rintro _ ⟨⟩)
  | @cons space bytes json x xs hspace hx h =>
      refine hspaces space _ hspace ?_
      obtain ⟨hstring, hnumber, hboolean, hnull⟩ := type_of_mark (hxs x rfl)
      cases hx with
      | mark h =>
          obtain ⟨c, htext, -, -, -, hkind⟩ := mark_kind h
          rw [htext]
          rintro _ ⟨⟩
          exact hkind
      | word h => exact absurd (word_kind h).1 (not_or.2 ⟨hboolean, hnull⟩)
      | string chars => exact absurd rfl hstring
      | number htype h => exact absurd htype hnumber

/-- The bytes of a token start neither with white space nor with a slash. -/
theorem Spelled.head {x : Piece} {bytes : Bytes} (h : Spelled x bytes) :
    ∃ c rest, bytes = c :: rest ∧ isJsonSpace c = false ∧ c ≠ 47 := by
  cases h with
  | mark h =>
      obtain ⟨c, htext, -, hspace, hslash, -⟩ := mark_kind h
      exact ⟨c, [], htext, hspace, hslash⟩
  | word h => exact (word_kind h).2.2
  | string chars => exact ⟨34, _, rfl, by decide, by decide⟩
  | number htype h =>
      obtain ⟨d, parts, htext | htext, hd, -⟩ := number_parts h
      · obtain ⟨hspace, -, -, -, hslash⟩ := digit_kind hd
        exact ⟨d, _, by rw [htext]; rfl, hspace, hslash⟩
      · exact ⟨45, _, by rw [htext]; rfl, by decide, by decide⟩

variable {p q : JsonParser}

theorem exponent_head {s : Bytes} (h : isExponent s = true) :
    ∃ c rest, s = c :: rest ∧ (c = 101 ∨ c = 69) := by
  rw [isExponent, Bool.and_eq_true] at h
  obtain ⟨⟨power, rest⟩, hpower, hrest⟩ := (Option.any_eq_true _ _).1 h.2
  obtain ⟨text, htext, hletter⟩ := Json.exponent_split hpower
  obtain rfl : rest = [] := List.isEmpty_iff.1 hrest
  cases s with
  | nil => simp at h
  | cons c s =>
      rw [List.append_nil] at htext
      exact ⟨c, s, rfl, hletter c (by rw [← htext]; rfl)⟩

/-- The lexer reads a token with the bytes that spell it, up to an exponent. -/
theorem Spelled.lex_eq {x : Piece} {bytes s : Bytes} (h : Spelled x bytes)
    (hs : x.token ∉ Token.marks → ∀ c ∈ s.head?, isNumberPart c = false ∧ isAlpha c = false) :
    lex { p with rest := bytes ++ s } =
      { p with rest := x.exponent ++ s, type := x.token.type, text := x.token.text } := by
  cases h with
  | @mark t h =>
      obtain ⟨c, htext, hpunct, -⟩ := mark_kind h
      simp only [htext, List.cons_append, List.nil_append, lex, hpunct, Piece.of]
  | word h =>
      have hmark : _ ∉ Token.marks := fun hmark => by
        obtain ⟨-, -, hboolean, hnull⟩ := type_of_mark hmark
        exact absurd (word_kind h).1 (not_or.2 ⟨hboolean, hnull⟩)
      exact lex_word_text h fun c hc => (hs hmark c hc).2
  | string chars =>
      rw [List.cons_append, List.append_assoc]
      exact lex_quote (lex_string_chars chars s)
  | number htype h =>
      rw [List.append_assoc, htype]
      refine lex_number_text h ?_
      rcases x.valid with hnil | ⟨-, hexponent⟩
      · rw [hnil]
        exact fun c hc => (hs (fun hmark => (type_of_mark hmark).2.1 htype) c hc).1
      · obtain ⟨c, rest, hsplit, hc⟩ := exponent_head hexponent
        rw [hsplit]
        rintro _ ⟨⟩
        rcases hc with rfl | rfl <;> rfl

/-! ## Moving along a text -/

/-- The first token is the current one, the others follow, and there has been no error. -/
inductive At (p : JsonParser) : List Piece → Prop where
  | mk {x : Piece} {xs : List Piece} {json : Bytes} (htoken : p.token = x.token)
      (hrest : p.rest = x.exponent ++ json) (hjson : Writes xs json) (hapart : Apart (x :: xs))
      (herror : p.error = false) : At p (x :: xs)

theorem At.token_eq {x : Piece} {xs : List Piece} (h : At p (x :: xs)) : p.token = x.token := by
  cases h with
  | mk htoken => exact htoken

theorem At.type_eq {x : Piece} {xs : List Piece} (h : At p (x :: xs)) : p.type = x.token.type :=
  congrArg Token.type h.token_eq

theorem At.text_eq {x : Piece} {xs : List Piece} (h : At p (x :: xs)) : p.text = x.token.text :=
  congrArg Token.text h.token_eq

theorem At.error_eq {xs : List Piece} (h : At p xs) : p.error = false := by
  cases h with
  | mk _ _ _ _ herror => exact herror

/-- `advance` reads the first token of a text. -/
theorem advance_writes {x : Piece} {xs : List Piece} (h : Writes (x :: xs) p.rest)
    (hapart : Apart (x :: xs)) (herror : p.error = false) :
    ∃ q, p.advance.Returns q ∧ At q (x :: xs) := by
  generalize hrest : p.rest = s at h
  cases h with
  | @cons space bytes json _ _ hspace hx hjson =>
      obtain ⟨c, rest, hbytes, hc⟩ := hx.head
      have hskip : (skipWhitespace p.rest).Returns (bytes ++ json) := by
        rw [hrest]
        refine skip_whitespace_returns hspace fun d hd => ?_
        rw [hbytes] at hd
        cases hd
        exact hc
      have hfollow : x.token ∉ Token.marks →
          ∀ c ∈ json.head?, isNumberPart c = false ∧ isAlpha c = false := by
        intro hmark
        refine writes_head hjson fun y hy => ?_
        exact ((List.isChain_cons.1 hapart).1 y hy).resolve_left hmark
      refine ⟨_, hskip.bind (Fueled.returns_pure_iff.2 (hx.lex_eq hfollow)), ?_⟩
      exact ⟨rfl, rfl, hjson, hapart, herror⟩

/-- `advance` moves to the next token. -/
theorem advance_at {x y : Piece} {xs : List Piece} (h : At p (x :: y :: xs))
    (hx : x.exponent = []) : ∃ q, p.advance.Returns q ∧ At q (y :: xs) := by
  cases h with
  | mk _ hrest hjson hapart herror =>
      rw [hx, List.nil_append] at hrest
      exact advance_writes (hrest ▸ hjson) (List.isChain_cons.1 hapart).2 herror

/-- The error of `advance` at a byte that starts no token. -/
def unexpectedCharacter (c : UInt8) : Bytes :=
  ascii "Unexpected character: '" ++ [c] ++ ascii "'"

/-- At an exponent `advance` gives the number again and again. -/
theorem advance_stuck {x : Piece} {xs : List Piece} {c : UInt8} {rest : Bytes}
    (h : At p (x :: xs)) (hx : x.exponent = c :: rest) :
    ∃ q, p.advance.Returns q ∧ q.advance.Returns q ∧ q.type = .number ∧ q.error = true ∧
      q.errorMsg = unexpectedCharacter c := by
  have hvalid := x.valid
  rw [hx] at hvalid
  obtain ⟨htype, hexponent⟩ := hvalid.resolve_left (List.cons_ne_nil c rest)
  obtain ⟨c', rest', hsplit, hc⟩ := exponent_head hexponent
  cases hsplit
  -- the byte is no white space and starts no token
  have hadvance : ∀ (p : JsonParser) (s : Bytes), p.rest = c :: s →
      p.advance.Returns (p.setError (unexpectedCharacter c)) := by
    intro p s hp
    have hskip : (skipWhitespace p.rest).Returns p.rest := by
      refine @skip_whitespace_returns [] p.rest (by rintro _ ⟨⟩) ?_
      rw [hp]
      rintro _ ⟨⟩
      rcases hc with rfl | rfl <;> decide
    refine hskip.bind (Fueled.returns_pure_iff.2 ?_)
    rcases hc with rfl | rfl <;> simp only [lex, hp] <;> rw [← hp] <;> rfl
  cases h with
  | mk htoken hrest =>
      rw [hx] at hrest
      refine ⟨_, hadvance p _ hrest, hadvance (p.setError _) _ hrest, ?_, rfl, rfl⟩
      exact (congrArg Token.type htoken).trans htype

/-! ## A spelling of every token -/

/-- A string with its quotes and backslashes escaped, and any other token as it is. -/
def Piece.text (x : Piece) : Bytes :=
  if x.token.type = .string then 34 :: (Tok.escape x.token.text ++ [34])
  else x.token.text ++ x.exponent

theorem Piece.eq_of {x : Piece} (h : x.exponent = []) : x = .of x.token := by
  cases x with
  | mk token exponent valid =>
      cases h
      rfl

theorem Piece.text_of {t : Token} (h : t.type ≠ .string) : (Piece.of t).text = t.text :=
  (if_neg h).trans (List.append_nil _)

theorem spelled_mark {t : Token} (h : t ∈ Token.marks) : Spelled (.of t) (Piece.of t).text := by
  rw [Piece.text_of (type_of_mark h).1]
  exact .mark h

theorem spelled_word {t : Token} (h : t ∈ Token.words) : Spelled (.of t) (Piece.of t).text := by
  have hstring : t.type ≠ .string := by
    rcases (word_kind h).1 with htype | htype <;> simp [htype]
  rw [Piece.text_of hstring]
  exact .word h

/-- A byte of a string, which is escaped if it is a quote or a backslash. -/
def StringChar.ofByte (c : UInt8) : StringChar :=
  if h : c = 34 ∨ c = 92 then .escaped c else .plain c (not_or.1 h).1 (not_or.1 h).2

theorem StringChar.value_of_byte (c : UInt8) : (ofByte c).value = c := by
  unfold ofByte
  split
  · rename_i h
    rcases h with rfl | rfl <;> rfl
  · rfl

theorem StringChar.bytes_of_byte (c : UInt8) :
    (ofByte c).bytes = if c = 34 ∨ c = 92 then [92, c] else [c] := by
  unfold ofByte
  split <;> rfl

theorem spelled_string (s : Bytes) : Spelled (.of ⟨.string, s⟩) (Piece.of ⟨.string, s⟩).text := by
  have h := Spelled.string (s.map StringChar.ofByte)
  rw [List.map_map, List.flatMap_map] at h
  have hvalue : StringChar.value ∘ StringChar.ofByte = id := funext StringChar.value_of_byte
  rw [hvalue, List.map_id, funext StringChar.bytes_of_byte] at h
  exact h

theorem spelled_scalar {x : Piece} (h : x.token.isScalar = true) : Spelled x x.text := by
  by_cases hnumber : x.token.type = .number
  · have htext : x.text = x.token.text ++ x.exponent := if_neg (by simp [hnumber])
    rw [htext]
    exact .number hnumber (by simpa [Token.isScalar, hnumber] using h)
  · -- only numbers have exponents
    rw [Piece.eq_of (x.valid.resolve_right fun hvalid => hnumber hvalid.1)]
    generalize x.token = t at h hnumber
    cases t with
    | mk type text =>
        cases type with
        | string => exact spelled_string text
        | number => exact absurd rfl hnumber
        | boolean | null =>
            simp only [Token.isScalar, decide_eq_true_eq] at h
            exact spelled_word h
        | _ => cases h

theorem writes_flat_map {xs : List Piece} (h : ∀ x ∈ xs, Spelled x x.text) :
    Writes xs (xs.flatMap Piece.text) := by
  induction xs with
  | nil => exact .nil (by rintro _ ⟨⟩)
  | cons x xs ih =>
      obtain ⟨hx, hxs⟩ := List.forall_mem_cons.1 h
      exact @Writes.cons [] _ _ x xs (by rintro _ ⟨⟩) hx (ih hxs)

end ApiGateway.Core
