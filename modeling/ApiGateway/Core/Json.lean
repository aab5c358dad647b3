import ApiGateway.Library.Fueled
import ApiGateway.Utils.ParseInt

/-!
# The tokens of a configuration file

`JsonParser` of `config_loader.cpp`: white space and comments, tokens, skipped values, and reading
strings and integers. White space that starts with a lone slash is never left, so `advance` and
everything that uses it are `Fueled` computations.

`Spaced` describes the texts that consist of given tokens with any white space between them. The
main result, `advance_on`, says that `advance` moves along such a text token by token.
-/

namespace ApiGateway.Core

open Loop

/-- `JsonParser::TokenType`. -/
inductive TokenType where
  | objectStart
  | objectEnd
  | arrayStart
  | arrayEnd
  | string
  | number
  | boolean
  | colon
  | comma
  | null
  | endOfInput
  deriving DecidableEq

/-- `class JsonParser`; `rest` is the input from `pos_` on. -/
structure JsonParser where
  rest : Bytes
  type : TokenType
  text : Bytes := []
  error : Bool := false
  errorMsg : Bytes := []
  deriving DecidableEq

namespace JsonParser

/-! ## White space and comments -/

/-- The white space of `skip_whitespace`. -/
def isJsonSpace (c : UInt8) : Bool :=
  c == 32 || c == 9 || c == 10 || c == 13

/-- The rest of a block comment. Without its end, the last byte is left over. -/
def skipBlockComment : Bytes → Bytes
  | 42 :: 47 :: rest => rest
  | _ :: c :: rest => skipBlockComment (c :: rest)
  | rest => rest

/-- `skip_comment`. A slash that starts no comment is not skipped. -/
def skipComment : Bytes → Bytes
  | 47 :: 47 :: rest => (47 :: 47 :: rest).dropWhile (· != 10)
  | 47 :: 42 :: rest => skipBlockComment rest
  | rest => rest

/-- One pass of the loop of `skip_whitespace`. -/
def skipWhitespaceIter : Bytes → Iter Bytes Bytes
  | [] => .done []
  | c :: rest =>
      if isJsonSpace c then .next rest
      else if c = 47 then .next (skipComment (c :: rest))
      else .done (c :: rest)

/-- `skip_whitespace`. -/
def skipWhitespace : Bytes → Fueled Bytes :=
  Fueled.loop fun s => pure (skipWhitespaceIter s)

/-! ## Tokens -/

/-- The byte that an escaped byte stands for. -/
def unescape (c : UInt8) : UInt8 :=
  if c = 110 then 10 else if c = 116 then 9 else if c = 114 then 13 else c

/-- The text of a string after its opening quote, and what follows its closing quote. -/
def lexString : Bytes → Bytes × Bytes
  | [] => ([], [])
  | [c] => if c = 34 ∨ c = 92 then ([], []) else ([c], [])
  | c :: d :: rest =>
      if c = 34 then ([], d :: rest)
      else if c = 92 then
        let following := lexString rest
        (unescape d :: following.1, following.2)
      else
        let following := lexString (d :: rest)
        (c :: following.1, following.2)

/-- The tokens of one byte. -/
def punctuation (c : UInt8) : Option TokenType :=
  if c = 123 then some .objectStart
  else if c = 125 then some .objectEnd
  else if c = 91 then some .arrayStart
  else if c = 93 then some .arrayEnd
  else if c = 58 then some .colon
  else if c = 44 then some .comma
  else none

/-- The bytes of a number after its sign. -/
def isNumberPart (c : UInt8) : Bool :=
  isDigit c || c == 46

/-- `isalpha`. -/
def isAlpha (c : UInt8) : Bool :=
  (65 ≤ c && c ≤ 90) || (97 ≤ c && c ≤ 122)

/-- The rest of a number, in front of which `sign` has been read. -/
def lexNumber (p : JsonParser) (sign s : Bytes) : JsonParser :=
  { p with
    rest := s.dropWhile isNumberPart
    type := .number
    text := sign ++ s.takeWhile isNumberPart }

/-- A word of letters. -/
def lexWord (p : JsonParser) (type : TokenType) (s : Bytes) : JsonParser :=
  { p with rest := s.dropWhile isAlpha, type := type, text := s.takeWhile isAlpha }

/-- `set_error`. -/
def setError (p : JsonParser) (msg : Bytes) : JsonParser :=
  { p with error := true, errorMsg := msg }

/-- `advance`, after the white space. An unexpected byte is not consumed, and the current token
stays. -/
def lex (p : JsonParser) : JsonParser :=
  match p.rest with
  | [] => { p with type := .endOfInput, text := [] }
  | c :: rest =>
      match punctuation c with
      | some type => { p with rest := rest, type := type, text := [c] }
      | none =>
          if c = 34 then
            { p with rest := (lexString rest).2, type := .string, text := (lexString rest).1 }
          else if c = 45 then p.lexNumber [45] rest
          else if isDigit c then p.lexNumber [] (c :: rest)
          else if c = 116 ∨ c = 102 then p.lexWord .boolean (c :: rest)
          else if c = 110 then p.lexWord .null (c :: rest)
          else p.setError (ascii "Unexpected character: '" ++ [c] ++ ascii "'")

/-- `advance`. -/
def advance (p : JsonParser) : Fueled JsonParser := do
  let rest ← skipWhitespace p.rest
  pure (lex { p with rest := rest })

/-! ## Values -/

/-- One pass of a loop of `skip_value`, over the parser and the depth of nesting. -/
def skipNestedIter (opening closing : TokenType) :
    JsonParser × Nat → Fueled (Iter (JsonParser × Nat) JsonParser)
  | (p, 0) => pure (.done p)
  | (p, depth + 1) => do
      let p ← p.advance
      if p.type = opening then pure (.next (p, depth + 2))
      else if p.type = closing then pure (.next (p, depth))
      else if p.type = .endOfInput then pure (.done p)
      else pure (.next (p, depth + 1))

/-- `skip_value`. -/
def skipValue (p : JsonParser) : Fueled JsonParser :=
  match p.type with
  | .objectStart => Fueled.loop (skipNestedIter .objectStart .objectEnd) (p, 1)
  | .arrayStart => Fueled.loop (skipNestedIter .arrayStart .arrayEnd) (p, 1)
  | _ => pure p

/-- `read_string`. -/
def readString (p : JsonParser) : Bytes :=
  if p.type = .string then p.text else []

/-- `read_int`. The `long` of `strtol` is converted to `int`. -/
def readInt (p : JsonParser) (defaultVal : Int) : Int :=
  if p.type = .number then
    if (strtol p.text).erange then defaultVal else (strtol p.text).value.bmod (2 ^ 32)
  else defaultVal

end JsonParser

/-- The range of `int`. -/
def IsInt (n : Int) : Prop :=
  -(2 ^ 31) ≤ n ∧ n < 2 ^ 31

instance (n : Int) : Decidable (IsInt n) :=
  inferInstanceAs (Decidable (_ ∧ _))

/-- The range of a 64-bit `long`. -/
def IsLong (n : Int) : Prop :=
  -(2 ^ 63) ≤ n ∧ n < 2 ^ 63

instance (n : Int) : Decidable (IsLong n) :=
  inferInstanceAs (Decidable (_ ∧ _))

/-- The text of an integer: an optional minus sign and at least one digit. -/
structure IntLiteral where
  negative : Bool
  digits : Bytes
  nonempty : digits ≠ []
  allDigits : ∀ d ∈ digits, isDigit d = true

namespace IntLiteral

def text (l : IntLiteral) : Bytes :=
  if l.negative then 45 :: l.digits else l.digits

/-- The integer that the text denotes. -/
def value (l : IntLiteral) : Int :=
  if l.negative then -(decimal l.digits : Int) else decimal l.digits

/-- The text that `std::to_string` writes. -/
def ofInt (n : Int) : IntLiteral where
  negative := n < 0
  digits := natToString n.natAbs
  nonempty := (nat_to_string_spec n.natAbs).1
  allDigits := (nat_to_string_spec n.natAbs).2.1

theorem text_of_int (n : Int) : (ofInt n).text = intToString n := by
  simp only [text, ofInt, decide_eq_true_eq, intToString]

theorem value_of_int (n : Int) : (ofInt n).value = n := by
  simp only [value, ofInt, (nat_to_string_spec n.natAbs).2.2, decide_eq_true_eq]
  split <;> omega

/-- `strtol` reads an integer, unless it does not fit a `long`. -/
theorem strtol_text (l : IntLiteral) :
    ((strtol l.text).erange = true ↔ ¬ IsLong l.value) ∧
      (IsLong l.value → (strtol l.text).value = l.value) := by
  unfold text value IsLong
  cases l.negative with
  | true =>
      simp only [if_true, strtol_minus_eq l.nonempty l.allDigits, decide_eq_true_eq]
      omega
  | false =>
      simp only [Bool.false_eq_true, if_false, strtol_digits_eq l.nonempty l.allDigits,
        decide_eq_true_eq]
      omega

end IntLiteral

/-! ## Texts -/

/-- The tokens of which a rendered configuration consists. -/
inductive Tok where
  | objectStart
  | objectEnd
  | arrayStart
  | arrayEnd
  | colon
  | comma
  | string (s : Bytes)
  | number (n : Int)
  deriving DecidableEq

namespace Tok

/-- A string with its quotes and backslashes escaped. -/
def escape (s : Bytes) : Bytes :=
  s.flatMap fun c => if c = 34 ∨ c = 92 then [92, c] else [c]

/-- The bytes of a token. -/
def bytes : Tok → Bytes
  | objectStart => [123]
  | objectEnd => [125]
  | arrayStart => [91]
  | arrayEnd => [93]
  | colon => [58]
  | comma => [44]
  | string s => 34 :: escape s ++ [34]
  | number n => intToString n

/-- The type under which the parser knows a token. -/
def type : Tok → TokenType
  | objectStart => .objectStart
  | objectEnd => .objectEnd
  | arrayStart => .arrayStart
  | arrayEnd => .arrayEnd
  | colon => .colon
  | comma => .comma
  | string _ => .string
  | number _ => .number

/-- The text under which the parser knows a token. -/
def text : Tok → Bytes
  | string s => s
  | t => t.bytes

/-- Whether a token is a number. -/
def isNumber : Tok → Bool
  | number _ => true
  | _ => false

end Tok

/-- A text that consists of the tokens, with white space before, between and after them. Two
numbers are not neighbours. -/
inductive Spaced : List Tok → Bytes → Prop where
  | nil {space : Bytes} (hspace : ∀ c ∈ space, JsonParser.isJsonSpace c = true) : Spaced [] space
  | cons {space json : Bytes} {t : Tok} {toks : List Tok}
      (hspace : ∀ c ∈ space, JsonParser.isJsonSpace c = true) (ht : t.isNumber = false)
      (h : Spaced toks json) : Spaced (t :: toks) (space ++ t.bytes ++ json)
  | number {space json : Bytes} {n : Int} {t : Tok} {toks : List Tok}
      (hspace : ∀ c ∈ space, JsonParser.isJsonSpace c = true) (ht : t.isNumber = false)
      (h : Spaced (t :: toks) json) :
      Spaced (.number n :: t :: toks) (space ++ (Tok.number n).bytes ++ json)

/-- Every number is followed by a token that is not a number. -/
def Tok.apart : List Tok → Bool
  | [] => true
  | [t] => !t.isNumber
  | t :: t' :: toks => (!t.isNumber || !t'.isNumber) && apart (t' :: toks)

theorem Tok.apart_cons {t : Tok} {toks : List Tok} (ht : t.isNumber = false)
    (h : apart toks = true) : apart (t :: toks) = true := by
  cases toks <;> simp_all [apart]

theorem Tok.apart_append {toks toks' : List Tok} (h : apart toks = true)
    (h' : apart toks' = true) : apart (toks ++ toks') = true := by
  induction toks with
  | nil => exact h'
  | cons t toks ih =>
      cases toks with
      | nil => cases toks' <;> simp_all [apart]
      | cons t' toks => simp_all [apart]

theorem Tok.apart_flat_map {α : Type} {f : α → List Tok} {l : List α}
    (h : ∀ a ∈ l, apart (f a) = true) : apart (l.flatMap f) = true := by
  induction l with
  | nil => rfl
  | cons a l ih => exact apart_append (h a (by simp)) (ih fun b hb => h b (by simp [hb]))

/-- Tokens can be written without white space. -/
theorem spaced_flat_map {toks : List Tok} (h : Tok.apart toks = true) :
    Spaced toks (toks.flatMap Tok.bytes) := by
  induction toks with
  | nil => exact .nil (by simp)
  | cons t toks ih =>
      cases hnumber : t.isNumber with
      | false =>
          refine @Spaced.cons [] _ _ _ (by simp) hnumber (ih ?_)
          cases toks <;> simp_all [Tok.apart]
      | true =>
          cases toks with
          | nil => simp [Tok.apart, hnumber] at h
          | cons t' toks =>
              cases t <;> cases hnumber
              simp only [Tok.apart, Tok.isNumber, Bool.not_true, Bool.false_or, Bool.and_eq_true,
                Bool.not_eq_true'] at h
              exact @Spaced.number [] _ _ _ _ (by simp) h.1 (ih h.2)

namespace JsonParser

variable {p q : JsonParser} {t : Tok} {toks : List Tok}

/-- White space is skipped up to a byte that is neither white space nor a slash. -/
theorem skip_whitespace_returns {space s : Bytes} (hspace : ∀ c ∈ space, isJsonSpace c = true)
    (hs : ∀ c ∈ s.head?, isJsonSpace c = false ∧ c ≠ 47) :
    (skipWhitespace (space ++ s)).Returns s := by
  induction space with
  | nil =>
      refine .loop_done (Fueled.returns_pure_iff.2 ?_)
      cases s with
      | nil => rfl
      | cons c rest =>
          obtain ⟨hc, hslash⟩ := hs c rfl
          simp [skipWhitespaceIter, hc, hslash]
  | cons c space ih =>
      refine .loop_next (Fueled.returns_pure_iff.2 ?_) (ih fun d hd => hspace d (by simp [hd]))
      simp [skipWhitespaceIter, hspace c (by simp)]

theorem lex_string_plain {c : UInt8} (hquote : c ≠ 34) (hescape : c ≠ 92) (s : Bytes) :
    lexString (c :: s) = (c :: (lexString s).1, (lexString s).2) := by
  cases s <;> simp [lexString, hquote, hescape]

/-- An escaped string is read back. -/
theorem lex_string_escape (s rest : Bytes) :
    lexString (Tok.escape s ++ 34 :: rest) = (s, rest) := by
  induction s with
  | nil => cases rest <;> simp [Tok.escape, lexString]
  | cons c s ih =>
      have hcons : Tok.escape (c :: s) =
          (if c = 34 ∨ c = 92 then [92, c] else [c]) ++ Tok.escape s := rfl
      rw [hcons]
      split
      · rename_i hspecial
        have hself : unescape c = c := by rcases hspecial with rfl | rfl <;> rfl
        simp [lexString, ih, hself]
      · rename_i hplain
        rw [not_or] at hplain
        rw [List.append_assoc, List.singleton_append, lex_string_plain hplain.1 hplain.2, ih]

/-- A digit is no other kind of byte. -/
theorem digit_kind {d : UInt8} (h : isDigit d = true) :
    isJsonSpace d = false ∧ punctuation d = none ∧ d ≠ 34 ∧ d ≠ 45 ∧ d ≠ 47 := by
  obtain ⟨n, hn, rfl⟩ := exists_of_is_digit h
  interval_cases n <;> decide

/-- The text of a number starts with a minus sign or a digit. -/
theorem int_to_string_head (n : Int) : ∃ c rest, intToString n = c :: rest ∧
    isJsonSpace c = false ∧ c ≠ 47 := by
  obtain ⟨hne, hdigits, -⟩ := nat_to_string_spec n.natAbs
  unfold intToString
  split
  · exact ⟨45, _, rfl, by decide, by decide⟩
  · obtain ⟨d, rest, hd⟩ := List.exists_cons_of_ne_nil hne
    have hkind := digit_kind (hdigits d (by simp [hd]))
    exact ⟨d, rest, hd, hkind.1, hkind.2.2.2.2⟩

/-- The bytes of a token start neither with white space nor with a slash. -/
theorem bytes_head (t : Tok) : ∃ c rest, t.bytes = c :: rest ∧
    isJsonSpace c = false ∧ c ≠ 47 := by
  cases t with
  | number n => exact int_to_string_head n
  | objectStart | objectEnd | arrayStart | arrayEnd | colon | comma =>
      exact ⟨_, [], rfl, by decide, by decide⟩
  | string s => exact ⟨34, _, rfl, by decide, by decide⟩

/-- A number ends before a byte that is not part of a number. -/
theorem lex_number_parts {parts s : Bytes} (sign : Bytes)
    (hparts : ∀ d ∈ parts, isNumberPart d = true) (hs : ∀ c ∈ s.head?, isNumberPart c = false) :
    p.lexNumber sign (parts ++ s) =
      { p with rest := s, type := .number, text := sign ++ parts } := by
  have hstop : s.takeWhile isNumberPart = [] ∧ s.dropWhile isNumberPart = s := by
    cases s with
    | nil => exact ⟨rfl, rfl⟩
    | cons c rest => simp [hs c rfl]
  simp only [lexNumber, List.takeWhile_append_of_pos hparts, List.dropWhile_append_of_pos hparts,
    hstop.1, hstop.2, List.append_nil]

theorem digit_number_part {d : UInt8} (h : isDigit d = true) : isNumberPart d = true := by
  simp [isNumberPart, h]

/-- The text of an integer becomes the text of a token. -/
theorem lex_int_literal (l : IntLiteral) {s : Bytes} (hs : ∀ c ∈ s.head?, isNumberPart c = false) :
    lex { p with rest := l.text ++ s } = { p with rest := s, type := .number, text := l.text } := by
  unfold IntLiteral.text
  split
  · have hminus : punctuation 45 = none := rfl
    simp only [List.cons_append, lex, hminus]
    exact lex_number_parts [45] (fun d hd => digit_number_part (l.allDigits d hd)) hs
  · have hdigits := l.allDigits
    obtain ⟨d, rest, hd⟩ := List.exists_cons_of_ne_nil l.nonempty
    have hdigit := hdigits d (by simp [hd])
    obtain ⟨-, hpunct, hquote, hminus, -⟩ := digit_kind hdigit
    rw [hd] at hdigits ⊢
    simp only [List.cons_append, lex, hpunct, if_neg hquote, if_neg hminus, hdigit, if_true]
    exact lex_number_parts [] (fun d hd => digit_number_part (hdigits d hd)) hs

/-- A string is read up to its closing quote. -/
theorem lex_quote {s text rest : Bytes} (h : lexString s = (text, rest)) :
    lex { p with rest := 34 :: s } = { p with rest := rest, type := .string, text := text } := by
  have hquote : punctuation 34 = none := rfl
  simp only [lex, hquote, if_true, h]

/-- A token is read with the bytes that render it. -/
theorem lex_bytes (t : Tok) (s : Bytes)
    (hs : t.isNumber = true → ∀ c ∈ s.head?, isNumberPart c = false) :
    lex { p with rest := t.bytes ++ s } = { p with rest := s, type := t.type, text := t.text } := by
  cases t with
  | objectStart | objectEnd | arrayStart | arrayEnd | colon | comma => rfl
  | string x =>
      have hlex : lexString (Tok.escape x ++ [34] ++ s) = (x, s) := by
        rw [List.append_assoc]
        exact lex_string_escape x s
      exact lex_quote hlex
  | number n =>
      have hlex := lex_int_literal (p := p) (.ofInt n) (hs rfl)
      rw [IntLiteral.text_of_int] at hlex
      exact hlex

theorem space_kind {c : UInt8} (h : isJsonSpace c = true) :
    isNumberPart c = false ∧ isAlpha c = false := by
  simp only [isJsonSpace, Bool.or_eq_true, beq_iff_eq] at h
  rcases h with ((rfl | rfl) | rfl) | rfl <;> decide

/-- A text that starts with a token other than a number does not continue a number. -/
theorem spaced_head {json : Bytes} (h : Spaced (t :: toks) json) (ht : t.isNumber = false) :
    ∀ c ∈ json.head?, isNumberPart c = false := by
  cases h with
  | number => cases ht
  | @cons space json _ _ hspace _ _ =>
      cases space with
      | cons c space =>
          intro d hd
          cases hd
          exact (space_kind (hspace c (by simp))).1
      | nil =>
          cases t with
          | number => cases ht
          | objectStart | objectEnd | arrayStart | arrayEnd | colon | comma | string =>
              intro d hd
              cases hd
              decide

/-- The current token is `t`, the tokens `toks` follow, and there has been no error. -/
structure On (p : JsonParser) (t : Tok) (toks : List Tok) : Prop where
  type : p.type = t.type
  text : p.text = t.text
  rest : Spaced toks p.rest
  error : p.error = false

/-- `advance` reads the first token of a text. -/
theorem advance_spaced (h : Spaced (t :: toks) p.rest) (herror : p.error = false) :
    ∃ q, p.advance.Returns q ∧ On q t toks := by
  -- both ways of starting a text give the same factorization of it
  obtain ⟨space, json, hrest, hspace, hjson, hnumber⟩ : ∃ space json,
      p.rest = space ++ (t.bytes ++ json) ∧ (∀ c ∈ space, isJsonSpace c = true) ∧
        Spaced toks json ∧ (t.isNumber = true → ∀ c ∈ json.head?, isNumberPart c = false) := by
    generalize p.rest = s at h
    cases h with
    | cons hspace ht hjson =>
        exact ⟨_, _, List.append_assoc _ _ _, hspace, hjson, fun hn => by simp [ht] at hn⟩
    | number hspace ht hjson =>
        exact ⟨_, _, List.append_assoc _ _ _, hspace, hjson, fun _ => spaced_head hjson ht⟩
  obtain ⟨c, rest, hbytes, hc⟩ := bytes_head t
  have hskip : (skipWhitespace p.rest).Returns (t.bytes ++ json) := by
    rw [hrest]
    refine skip_whitespace_returns hspace fun d hd => ?_
    rw [hbytes] at hd
    cases hd
    exact hc
  refine ⟨_, hskip.bind (Fueled.returns_pure_iff.2 (lex_bytes t json hnumber)), ?_⟩
  exact ⟨rfl, rfl, hjson, herror⟩

/-- `advance` moves to the next token. -/
theorem advance_on {t' : Tok} (h : On p t (t' :: toks)) : ∃ q, p.advance.Returns q ∧ On q t' toks :=
  advance_spaced h.rest h.error

theorem read_string_on {s : Bytes} (h : On p (.string s) toks) : p.readString = s :=
  (if_pos h.type).trans h.text

/-- What `read_int` returns for an integer: its low 32 bits, if it fits a `long`. -/
theorem read_int_literal (l : IntLiteral) (htype : p.type = .number) (htext : p.text = l.text)
    (defaultVal : Int) :
    p.readInt defaultVal = if IsLong l.value then l.value.bmod (2 ^ 32) else defaultVal := by
  obtain ⟨herange, hvalue⟩ := l.strtol_text
  simp only [readInt, htype, htext, if_true]
  by_cases hlong : IsLong l.value
  · rw [if_neg (by simp [herange, hlong]), if_pos hlong, hvalue hlong]
  · rw [if_pos (herange.2 hlong), if_neg hlong]

/-- A number that fits an `int` is read back. -/
theorem read_int_on {n : Int} (h : On p (.number n) toks) (hmin : -(2 ^ 31) ≤ n)
    (hmax : n < 2 ^ 31) (defaultVal : Int) : p.readInt defaultVal = n := by
  have htext : p.text = intToString n := h.text
  rw [read_int_literal (.ofInt n) h.type (htext.trans (IntLiteral.text_of_int n).symm),
    IntLiteral.value_of_int, if_pos ⟨by omega, by omega⟩]
  exact Int.bmod_eq_of_le (by omega) (by omega)

/-- An integer is exact if it fits an `int`, and the default otherwise, exactly if it is not between
the ranges of `int` and `long`, or the default is what is left of it in an `int`. -/
theorem read_int_exact_iff (l : IntLiteral) (rest : Bytes) (defaultVal : Int) :
    ({ rest := rest, type := .number, text := l.text } : JsonParser).readInt defaultVal =
        (if IsInt l.value then l.value else defaultVal) ↔
      IsInt l.value ∨ ¬ IsLong l.value ∨ l.value.bmod (2 ^ 32) = defaultVal := by
  rw [read_int_literal l rfl rfl]
  by_cases hint : IsInt l.value
  · have hlong : IsLong l.value := ⟨by have := hint.1; omega, by have := hint.2; omega⟩
    have hexact : l.value.bmod (2 ^ 32) = l.value :=
      Int.bmod_eq_of_le (by have := hint.1; omega) (by have := hint.2; omega)
    rw [if_pos hint, if_pos hlong]
    exact iff_of_true hexact (.inl hint)
  · by_cases hlong : IsLong l.value
    · simp [hint, hlong]
    · simp [hint, hlong]

/-- The port 80, too large by 2 ^ 32. -/
def largePort : IntLiteral where
  negative := false
  digits := ascii "4294967376"
  nonempty := by decide
  allDigits := List.all_eq_true.1 (by rfl)

/-- A port that is not in range is taken for one that is. -/
theorem read_int_wraps :
    largePort.value = 4294967376 ∧
      ({ rest := [], type := .number, text := largePort.text } : JsonParser).readInt 8080 = 80 := by
  decide

end JsonParser

end ApiGateway.Core
