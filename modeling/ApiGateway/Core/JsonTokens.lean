import ApiGateway.Core.Comments
import ApiGateway.Library.JsonRead

/-!
# The tokens of JSON

What the lexer of `config_loader.cpp` makes of the texts of JSON. It knows neither exponents, at
which it stays for ever, nor the escapes of one letter for backspace and form feed and those for
characters, of which it drops the backslash.

`IsValue` describes the tokens of a JSON value. `Reads` relates a text to the tokens it starts with,
and `value_reads` says that the lexer reads the text of a value as the tokens of a value, at least
up to the first exponent.
-/

namespace ApiGateway.Core

open JsonParser

/-! ## Tokens of values -/

/-- The tokens that are words. -/
def Token.words : List Token :=
  [⟨.boolean, ascii "true"⟩, ⟨.boolean, ascii "false"⟩, ⟨.null, ascii "null"⟩]

/-- The tokens that are values. -/
def Token.isScalar (t : Token) : Bool :=
  match t.type with
  | .string => true
  | .number => Json.isPlainNumber t.text
  | .boolean | .null => t ∈ words
  | _ => false

/-- The tokens of an object with the given members: keys and the tokens of their values. -/
def objectTokens (members : List (Bytes × List Token)) : List Token :=
  ⟨.objectStart, ascii "\x7b"⟩ ::
    [⟨.comma, ascii ","⟩].intercalate
      (members.map fun m => ⟨.string, m.1⟩ :: ⟨.colon, ascii ":"⟩ :: m.2) ++
    [⟨.objectEnd, ascii "\x7d"⟩]

/-- The tokens of an array with the given elements. -/
def arrayTokens (elements : List (List Token)) : List Token :=
  ⟨.arrayStart, ascii "["⟩ :: [⟨.comma, ascii ","⟩].intercalate elements ++
    [⟨.arrayEnd, ascii "]"⟩]

/-- The tokens of a JSON value. -/
inductive IsValue : List Token → Prop where
  | scalar {t : Token} (h : t.isScalar = true) : IsValue [t]
  | array {elements : List (List Token)} (h : ∀ e ∈ elements, IsValue e) :
      IsValue (arrayTokens elements)
  | object {members : List (Bytes × List Token)} (h : ∀ m ∈ members, IsValue m.2) :
      IsValue (objectTokens members)

theorem type_of_scalar {t : Token} (h : t.isScalar = true) :
    t.type = .string ∨ t.type = .number ∨ t.type = .boolean ∨ t.type = .null := by
  unfold Token.isScalar at h
  split at h <;> simp_all

/-! ## Numbers and words -/

/-- A number without an exponent starts with a digit, after its sign. -/
theorem number_parts {s : Bytes} (h : Json.isPlainNumber s = true) :
    ∃ d parts, (s = d :: parts ∨ s = 45 :: d :: parts) ∧ isDigit d = true ∧
      ∀ c ∈ parts, isNumberPart c = true := by
  obtain ⟨d, parts, hs, hd, hparts⟩ := Json.plain_number_parts h
  refine ⟨d, parts, hs, hd, fun c hc => ?_⟩
  rcases hparts c hc with hdigit | rfl
  · exact digit_number_part hdigit
  · rfl

theorem word_kind {t : Token} (h : t ∈ Token.words) :
    (t.type = .boolean ∨ t.type = .null) ∧ (∀ d ∈ t.text, isAlpha d = true) ∧
      ∃ c rest, t.text = c :: rest ∧ isJsonSpace c = false ∧ c ≠ 47 := by
  simp only [Token.words, List.mem_cons, List.not_mem_nil, or_false] at h
  rcases h with rfl | rfl | rfl <;>
    exact ⟨by decide, List.all_eq_true.1 (by rfl), _, _, rfl, by decide⟩

variable {p : JsonParser}

theorem lex_word_text {t : Token} (h : t ∈ Token.words) {s : Bytes}
    (hs : ∀ c ∈ s.head?, isAlpha c = false) :
    lex { p with rest := t.text ++ s } = { p with rest := s, type := t.type, text := t.text } := by
  have hword : lex { p with rest := t.text ++ s } = p.lexWord t.type (t.text ++ s) := by
    simp only [Token.words, List.mem_cons, List.not_mem_nil, or_false] at h
    rcases h with rfl | rfl | rfl <;> rfl
  have hstop : s.takeWhile isAlpha = [] ∧ s.dropWhile isAlpha = s := by
    cases s with
    | nil => exact ⟨rfl, rfl⟩
    | cons c rest => simp [hs c rfl]
  rw [hword, lexWord, List.takeWhile_append_of_pos (word_kind h).2.1,
    List.dropWhile_append_of_pos (word_kind h).2.1, hstop.1, hstop.2, List.append_nil]

theorem lex_number_text {text : Bytes} (h : Json.isPlainNumber text = true) {s : Bytes}
    (hs : ∀ c ∈ s.head?, isNumberPart c = false) :
    lex { p with rest := text ++ s } = { p with rest := s, type := .number, text := text } := by
  obtain ⟨d, parts, htext | htext, hd, hparts⟩ := number_parts h
  all_goals
    have hall : ∀ c ∈ d :: parts, isNumberPart c = true :=
      List.forall_mem_cons.2 ⟨digit_number_part hd, hparts⟩
  · obtain ⟨-, hpunct, hquote, hminus, -⟩ := digit_kind hd
    rw [htext]
    simp only [List.cons_append, lex, hpunct, if_neg hquote, if_neg hminus, hd, if_true]
    exact lex_number_parts [] hall hs
  · have hminus : punctuation 45 = none := rfl
    rw [htext]
    simp only [List.cons_append, lex, hminus]
    exact lex_number_parts [45] hall hs

/-! ## Strings -/

/-- The letters of the escapes that the lexer does not know: backspace, form feed, characters. -/
def unknownEscapes : List UInt8 :=
  [98, 102, 117]

/-- The text has none of the escapes that the lexer does not know. -/
def KnownEscapes (s : Bytes) : Prop :=
  ∀ c ∈ unknownEscapes, ¬ [92, c] <:+: s

theorem KnownEscapes.of_suffix {s t : Bytes} (h : KnownEscapes s) (hsuffix : t <:+ s) :
    KnownEscapes t :=
  fun c hc hinside => h c hc (hinside.trans hsuffix.isInfix)

/-- Bytes other than quotes and backslashes stand for themselves. -/
theorem lex_string_plains {bytes : Bytes} (h : ∀ b ∈ bytes, b ≠ 34 ∧ b ≠ 92) (s : Bytes) :
    lexString (bytes ++ s) = (bytes ++ (lexString s).1, (lexString s).2) := by
  induction bytes with
  | nil => rfl
  | cons b bytes ih =>
      obtain ⟨hquote, hescape⟩ := h b (by simp)
      rw [List.cons_append, lex_string_plain hquote hescape, ih fun c hc => h c (by simp [hc])]
      rfl

theorem lex_string_escaped (c : UInt8) (s : Bytes) :
    lexString (92 :: c :: s) = (unescape c :: (lexString s).1, (lexString s).2) := by
  rw [lexString, if_neg (by decide), if_pos rfl]

/-- The escape of a character is read over. -/
theorem lex_string_unicode {s x rest : Bytes} (h : Json.unicode s = some (x, rest)) :
    ∃ front, lexString s = (front ++ (lexString rest).1, (lexString rest).2) := by
  obtain ⟨hex, hhex, rfl | ⟨low, hlow, rfl⟩⟩ := Json.unicode_split h
  · exact ⟨hex, lex_string_plains hhex rest⟩
  · refine ⟨hex ++ 117 :: low, ?_⟩
    rw [lex_string_plains hhex, lex_string_escaped, lex_string_plains hlow]
    simp [unescape]

/-- The escapes of one letter that the lexer knows. -/
theorem unescape_lookup {c b : UInt8} (h : Json.escapes.lookup c = some b)
    (hc : c ∉ unknownEscapes) : unescape c = b := by
  have hall : ∀ e ∈ Json.escapes, e.1 ∉ unknownEscapes → unescape e.1 = e.2 := by
    simp [Json.escapes, unknownEscapes, unescape]
  obtain ⟨before, after, hsplit, -⟩ := List.lookup_eq_some_iff.1 h
  exact hall (c, b) (hsplit ▸ by simp) hc

/-- A character of a string. -/
theorem lex_string_character {s x rest : Bytes} (h : Json.character s = some (x, rest)) :
    ∃ front, lexString s = (front ++ (lexString rest).1, (lexString rest).2) ∧
      (KnownEscapes s → front = x) := by
  cases s with
  | nil => cases h
  | cons c s =>
      simp only [Json.character] at h
      split at h
      · rename_i hbackslash
        subst hbackslash
        cases s with
        | nil => cases h
        | cons d s =>
            have hknown : KnownEscapes (92 :: d :: s) → d ∉ unknownEscapes :=
              fun hknown hd => hknown d hd ⟨[], s, rfl⟩
            simp only [Json.escape] at h
            split at h
            · rename_i hletter
              obtain ⟨front, hfront⟩ := lex_string_unicode h
              refine ⟨unescape d :: front, ?_, fun hescapes => ?_⟩
              · rw [lex_string_escaped, hfront]
                rfl
              · exact absurd (hletter ▸ by decide) (hknown hescapes)
            · obtain ⟨b, hlookup, hpair⟩ := Option.map_eq_some_iff.1 h
              cases hpair
              refine ⟨[unescape d], lex_string_escaped d _, fun hescapes => ?_⟩
              rw [unescape_lookup hlookup (hknown hescapes)]
      · rename_i hbackslash
        split at h
        · rename_i hunescaped
          cases h
          have hquote : c ≠ 34 := by
            rintro rfl
            cases hunescaped
          exact ⟨[c], lex_string_plain hquote hbackslash _, fun _ => rfl⟩
        · cases h

/-- The lexer reads a string of JSON to its end, and as it is meant if it knows the escapes. -/
theorem lex_string_chars_read {s text rest : Bytes} (h : Json.Chars s text rest) :
    ∃ read, lexString s = (read, rest) ∧ (KnownEscapes s → read = text) := by
  induction h with
  | close => exact ⟨[], lex_string_close _, fun _ => rfl⟩
  | @cons s s' x xs rest hchar hrest ih =>
      obtain ⟨read, hread, hsame⟩ := ih
      obtain ⟨front, hfront, hx⟩ := lex_string_character hchar
      refine ⟨front ++ read, by rw [hfront, hread], fun hescapes => ?_⟩
      rw [hx hescapes, hsame (hescapes.of_suffix (Json.character_suffix hchar))]

/-! ## Reading a text -/

/-- What can follow a number or a word. -/
def BehindValue (s : Bytes) : Prop :=
  ∀ c ∈ s.head?, isNumberPart c = false ∧ isAlpha c = false

theorem head_drop_while {f : UInt8 → Bool} (s : Bytes) :
    ∀ c ∈ (s.dropWhile f).head?, f c = false := by
  intro c hc
  induction s with
  | nil => cases hc
  | cons b s ih =>
      by_cases hb : f b = true
      · rw [List.dropWhile_cons_of_pos hb] at hc
        exact ih hc
      · rw [List.dropWhile_cons_of_neg hb] at hc
        cases hc
        exact Bool.eq_false_iff.2 hb

/-- White space is followed by what it is in front of. -/
theorem behind_value_of_skip {s : Bytes} (h : BehindValue (Json.skip s)) : BehindValue s := by
  intro c hc
  by_cases hspace : isJsonSpace c = true
  · exact space_kind hspace
  · refine h c ?_
    obtain ⟨rest, rfl⟩ := List.head?_eq_some_iff.1 hc
    have hskip : Json.skip (c :: rest) = c :: rest := List.dropWhile_cons_of_neg hspace
    rw [hskip]
    rfl

theorem scan_congr {s t : Bytes} (h : lexeme s = lexeme t) : scan s = scan t := by
  cases hlex : lexeme t with
  | token tok rest => rw [scan_token (h.trans hlex), scan_token hlex]
  | blank | unexpected | slash => simp [scan, scanFrom, h, hlex]

theorem skip_whitespace_skip {s : Bytes} (h : (Json.skip s).head? ≠ some 47) :
    (skipWhitespace s).Returns (Json.skip s) := by
  have hspace : ∀ c ∈ s.takeWhile isJsonSpace, isJsonSpace c = true :=
    fun c hc => List.mem_takeWhile_imp hc
  have hreturns := skip_whitespace_returns hspace
    fun c hc => ⟨head_drop_while s c hc, fun hslash => h (hslash ▸ hc)⟩
  rw [List.takeWhile_append_dropWhile] at hreturns
  exact hreturns

/-- White space does not matter in front of anything but a slash. -/
theorem scan_skip {s : Bytes} (h : (Json.skip s).head? ≠ some 47) :
    scan (Json.skip s) = scan s :=
  (scan_congr (lexeme_skip (skip_whitespace_skip h))).symm

/-- The tokens of `s` are `toks` and then those of `rest`, unless the lexer meets an exponent on the
way. -/
def Reads (s : Bytes) (toks : List Token) (rest : Bytes) : Prop :=
  scan s = (toks ++ (scan rest).1, (scan rest).2) ∨
    ∃ read, read <+: toks ∧ scan s = (read, .unexpected)

variable {s t rest : Bytes} {toks more : List Token} {tok : Token} {c : UInt8}

theorem Reads.trans (h : Reads s toks t) (hmore : Reads t more rest) :
    Reads s (toks ++ more) rest := by
  rcases h with hs | ⟨read, hread, hs⟩
  · rcases hmore with ht | ⟨read, hread, ht⟩
    · exact .inl (by rw [hs, ht, List.append_assoc])
    · exact .inr ⟨toks ++ read, (List.prefix_append_right_inj toks).2 hread, by rw [hs, ht]⟩
  · exact .inr ⟨read, hread.trans (List.prefix_append toks more), hs⟩

theorem reads_token (h : lexeme s = .token tok rest) : Reads s [tok] rest :=
  .inl (scan_token h)

/-- White space before and after what is read. -/
theorem Reads.of_skip (h : Reads (Json.skip s) toks rest) (hs : (Json.skip s).head? ≠ some 47) :
    Reads s toks rest := by
  rwa [Reads, scan_skip hs] at h

theorem Reads.to_skip (h : Reads s toks rest) (hrest : (Json.skip rest).head? ≠ some 47) :
    Reads s toks (Json.skip rest) := by
  rwa [Reads, scan_skip hrest]

theorem lexeme_lex (hspace : isJsonSpace c = false) (hslash : c ≠ 47)
    (h : lex { rest := c :: s, type := .endOfInput } =
      { rest := rest, type := tok.type, text := tok.text }) :
    lexeme (c :: s) = .token tok rest := by
  rw [lexeme_cons hspace hslash, h]
  rfl

theorem punctuation_kind {type : TokenType} (hc : punctuation c = some type) :
    isJsonSpace c = false ∧ c ≠ 47 ∧ isNumberPart c = false ∧ isAlpha c = false := by
  simp only [punctuation] at hc
  split_ifs at hc with h h h h h h <;> subst h <;> exact ⟨rfl, by decide, rfl, rfl⟩

theorem mark_ne_slash {type : TokenType} (ht : Json.skip t = c :: rest)
    (hc : punctuation c = some type) : (Json.skip t).head? ≠ some 47 := by
  rw [ht]
  simpa using (punctuation_kind hc).2.1

/-- A mark of JSON. -/
theorem reads_mark {type : TokenType} (hc : punctuation c = some type) (s : Bytes) :
    Reads (c :: s) [⟨type, [c]⟩] s := by
  obtain ⟨hspace, hslash, -⟩ := punctuation_kind hc
  refine reads_token (lexeme_lex hspace hslash ?_)
  simp only [lex, hc]

theorem reads_chars {text : Bytes} (h : Json.Chars s text rest) :
    ∃ read, Reads (34 :: s) [⟨.string, read⟩] rest ∧ (KnownEscapes s → read = text) := by
  obtain ⟨read, hread, hsame⟩ := lex_string_chars_read h
  have hlexeme : lexeme (34 :: s) = .token ⟨.string, read⟩ rest :=
    lexeme_lex rfl (by decide) (lex_quote (p := { rest := [], type := .endOfInput }) hread)
  exact ⟨read, reads_token hlexeme, hsame⟩

theorem reads_word {w : Token} (h : w ∈ Token.words) (hrest : BehindValue rest) :
    Reads (w.text ++ rest) [w] rest := by
  obtain ⟨-, -, c, letters, htext, hspace, hslash⟩ := word_kind h
  have hlex := lex_word_text (p := { rest := [], type := .endOfInput }) h
    fun c hc => (hrest c hc).2
  rw [htext, List.cons_append] at hlex
  rw [htext, List.cons_append]
  refine reads_token (lexeme_lex hspace hslash ?_)
  rw [hlex, htext]

/-- At an exponent the lexer stays for ever. -/
theorem scan_exponent (h : c = 101 ∨ c = 69) (s : Bytes) : scan (c :: s) = ([], .unexpected) := by
  have hlexeme : lexeme (c :: s) = .unexpected (c :: s) := by
    rcases h with rfl | rfl <;> exact lexeme_cons rfl (by decide) s
  simp [scan, scanFrom, hlexeme]

theorem reads_number {q : ℚ} (h : Json.number s = some (q, rest)) (hrest : BehindValue rest) :
    ∃ text, Json.isPlainNumber text = true ∧ Reads s [⟨.number, text⟩] rest := by
  obtain ⟨text, power, rfl, hplain, hpower⟩ := Json.number_split h
  refine ⟨text, hplain, ?_⟩
  have hstop : ∀ c ∈ (power ++ rest).head?, isNumberPart c = false := by
    cases power with
    | nil => exact fun c hc => (hrest c hc).1
    | cons e power =>
        intro c hc
        cases hc
        rcases hpower e rfl with rfl | rfl <;> rfl
  have hlexeme : lexeme (text ++ (power ++ rest)) = .token ⟨.number, text⟩ (power ++ rest) := by
    have hlex := lex_number_text (p := { rest := [], type := .endOfInput }) hplain hstop
    obtain ⟨d, parts, rfl | rfl, hd, -⟩ := number_parts hplain
    · obtain ⟨hspace, -, -, -, hslash⟩ := digit_kind hd
      exact lexeme_lex hspace hslash hlex
    · exact lexeme_lex rfl (by decide) hlex
  cases power with
  | nil => exact reads_token hlexeme
  | cons e power =>
      refine .inr ⟨[⟨.number, text⟩], List.prefix_refl _, ?_⟩
      rw [scan_token hlexeme, List.cons_append, scan_exponent (hpower e rfl)]

/-! ## Values -/

/-- What is in front of a mark is read up to it, white space included. -/
theorem Reads.to_mark {type : TokenType} (h : Reads s toks t) (ht : Json.skip t = c :: rest)
    (hc : punctuation c = some type) : Reads s (toks ++ [⟨type, [c]⟩]) rest := by
  have hskip := h.to_skip (mark_ne_slash ht hc)
  rw [ht] at hskip
  exact hskip.trans (reads_mark hc rest)

theorem behind_value_of_mark {type : TokenType} (ht : Json.skip t = c :: rest)
    (hc : punctuation c = some type) : BehindValue t := by
  refine behind_value_of_skip fun b hb => ?_
  rw [ht] at hb
  cases hb
  exact (punctuation_kind hc).2.2

/-- A value does not start with a slash. -/
theorem value_head {v : Json} (h : Json.Value s v rest) : s.head? ≠ some 47 := by
  cases h with
  | null | true | false | str | emptyArr | arr | emptyObj | obj => simp
  | num hnum =>
      obtain ⟨text, power, rfl, hplain, -⟩ := Json.number_split hnum
      obtain ⟨d, parts, rfl | rfl, hd, -⟩ := number_parts hplain
      · simpa using (digit_kind hd).2.2.2.2
      · simp

mutual

/-- The lexer reads the text of a value as the tokens of a value, and that of a value which is
neither an array nor an object as one token. -/
theorem value_reads {s rest : Bytes} {v : Json} (h : Json.Value s v rest)
    (hrest : BehindValue rest) :
    ∃ toks, IsValue toks ∧ (v.isScalar = true → ∃ tok : Token, toks = [tok] ∧ tok.isScalar = true) ∧
      Reads s toks rest := by
  have hscalar {tok : Token} (hs : tok.isScalar = true) (hreads : Reads s [tok] rest) :
      ∃ toks, IsValue toks ∧
        (v.isScalar = true → ∃ tok : Token, toks = [tok] ∧ tok.isScalar = true) ∧
        Reads s toks rest := ⟨[tok], .scalar hs, fun _ => ⟨tok, rfl, hs⟩, hreads⟩
  cases h with
  | null => exact hscalar (by decide) (reads_word (w := ⟨.null, ascii "null"⟩) (by decide) hrest)
  | true => exact hscalar (by decide) (reads_word (w := ⟨.boolean, ascii "true"⟩) (by decide) hrest)
  | false =>
      exact hscalar (by decide) (reads_word (w := ⟨.boolean, ascii "false"⟩) (by decide) hrest)
  | num hnum =>
      obtain ⟨text, hplain, hreads⟩ := reads_number hnum hrest
      have hs : Token.isScalar ⟨.number, text⟩ = true := hplain
      exact hscalar hs hreads
  | str hchars =>
      obtain ⟨read, hreads, -⟩ := reads_chars hchars
      exact hscalar rfl hreads
  | emptyArr hclose =>
      refine ⟨arrayTokens [], .array (by simp), fun hs => (by cases hs), ?_⟩
      exact (reads_mark rfl _).to_mark hclose rfl
  | emptyObj hclose =>
      refine ⟨objectTokens [], .object (by simp), fun hs => (by cases hs), ?_⟩
      exact (reads_mark rfl _).to_mark hclose rfl
  | arr hitems =>
      obtain ⟨elements, -, hvalues, hreads⟩ := items_read hitems
      refine ⟨arrayTokens elements, .array hvalues, fun hs => (by cases hs), ?_⟩
      exact (reads_mark rfl _).trans (hreads.trans (reads_mark rfl rest))
  | obj hmembers =>
      obtain ⟨members, -, hvalues, hreads⟩ := members_read hmembers
      refine ⟨objectTokens members, .object hvalues, fun hs => (by cases hs), ?_⟩
      exact (reads_mark rfl _).trans (hreads.trans (reads_mark rfl rest))

/-- The items of an array, up to its closing bracket. -/
theorem items_read {s rest : Bytes} {items : List Json} (h : Json.Items s items rest) :
    ∃ elements : List (List Token), elements ≠ [] ∧ (∀ e ∈ elements, IsValue e) ∧
      Reads s ([⟨.comma, ascii ","⟩].intercalate elements) (93 :: rest) := by
  cases h with
  | @last _ s' _ v hvalue hclose =>
      obtain ⟨toks, hvalues, -, hreads⟩ := value_reads hvalue (behind_value_of_mark hclose rfl)
      refine ⟨[toks], by simp, by simpa using hvalues, ?_⟩
      have hskip := (hreads.of_skip (value_head hvalue)).to_skip (by simp [hclose])
      rw [hclose] at hskip
      simpa using hskip
  | @cons _ s' s'' _ v items hvalue hcomma hitems =>
      obtain ⟨toks, hvalues, -, hreads⟩ := value_reads hvalue (behind_value_of_mark hcomma rfl)
      obtain ⟨elements, hne, hall, hmore⟩ := items_read hitems
      refine ⟨toks :: elements, by simp, List.forall_mem_cons.2 ⟨hvalues, hall⟩, ?_⟩
      obtain ⟨e, es, rfl⟩ := List.exists_cons_of_ne_nil hne
      rw [List.intercalate_cons_cons]
      exact ((hreads.of_skip (value_head hvalue)).to_mark hcomma rfl).trans hmore

/-- A member of an object, up to the mark behind it. -/
theorem member_reads {s rest : Bytes} {m : Bytes × Json} {c : UInt8} {type : TokenType}
    (h : Json.Member s m (c :: rest)) (hc : punctuation c = some type) :
    ∃ member : Bytes × List Token, IsValue member.2 ∧
      Reads s (⟨.string, member.1⟩ :: ⟨.colon, ascii ":"⟩ :: member.2) (c :: rest) := by
  generalize hend : c :: rest = text at h
  cases h with
  | @mk _ s₁ s₂ s₃ rest' key v hquote hkey hcolon hvalue =>
      have hmark : Json.skip rest' = c :: rest := hend.symm
      obtain ⟨read, hname, -⟩ := reads_chars hkey
      obtain ⟨toks, hvalues, -, hreads⟩ := value_reads hvalue (behind_value_of_mark hmark hc)
      rw [← hquote] at hname
      have hfirst := (hname.of_skip (by simp [hquote])).to_mark hcolon rfl
      exact ⟨(read, toks), hvalues,
        hfirst.trans ((hreads.of_skip (value_head hvalue)).to_skip (mark_ne_slash hmark hc))⟩

/-- The members of an object, up to its closing brace. -/
theorem members_read {s rest : Bytes} {ms : List (Bytes × Json)} (h : Json.Members s ms rest) :
    ∃ members : List (Bytes × List Token), members ≠ [] ∧ (∀ m ∈ members, IsValue m.2) ∧
      Reads s ([⟨.comma, ascii ","⟩].intercalate
        (members.map fun m => ⟨.string, m.1⟩ :: ⟨.colon, ascii ":"⟩ :: m.2)) (125 :: rest) := by
  cases h with
  | last hmember =>
      obtain ⟨member, hvalue, hreads⟩ := member_reads hmember rfl
      exact ⟨[member], by simp, by simpa using hvalue, by simpa using hreads⟩
  | cons hmember hmembers =>
      obtain ⟨member, hvalue, hreads⟩ := member_reads hmember rfl
      obtain ⟨members, hne, hall, hmore⟩ := members_read hmembers
      refine ⟨member :: members, by simp, List.forall_mem_cons.2 ⟨hvalue, hall⟩, ?_⟩
      obtain ⟨m, ms, rfl⟩ := List.exists_cons_of_ne_nil hne
      rw [List.map_cons, List.map_cons, List.intercalate_cons_cons]
      exact (hreads.trans (reads_mark rfl _)).trans hmore

end

end ApiGateway.Core
