import ApiGateway.Library.Json

/-!
# Printing JSON

Texts that are put together without escapes. A number text is read as its number wherever a value
can end (`NumberText`, put together from digits by `NumberText.of_parts`). A text of members that
each are read as one member denotes the object of these members (`Members.read`), and a text that
starts with members whose values are numbers denotes an object that starts with them
(`Members.starts`).
-/

namespace ApiGateway.Json

/-- The bytes that follow a value in an array or an object. -/
def delimiter (c : UInt8) : Bool :=
  c == 44 || c == 93 || c == 125

theorem delimiter_cases {c : UInt8} (h : delimiter c = true) : c = 44 ∨ c = 93 ∨ c = 125 := by
  simp only [delimiter, Bool.or_eq_true, beq_iff_eq] at h
  tauto

theorem skip_cons {c : UInt8} (h : isSpace c = false) (s : List UInt8) :
    skip (c :: s) = c :: s := by
  simp [skip, h]

theorem skip_delimiter {c : UInt8} (h : delimiter c = true) (s : List UInt8) :
    skip (c :: s) = c :: s := by
  rcases delimiter_cases h with rfl | rfl | rfl <;> rfl

/-! ## Numbers -/

/-- The bytes of numbers. -/
def numberByte (b : UInt8) : Bool :=
  isDigit b || b == 43 || b == 45 || b == 46 || b == 69 || b == 101

/-- A text that is read as a number, whatever follows the value. -/
structure NumberText (text : List UInt8) (q : ℚ) : Prop where
  reads : ∀ {c : UInt8} (rest : List UInt8), delimiter c = true →
    number (text ++ c :: rest) = some (q, c :: rest)
  bytes : ∀ b ∈ text, numberByte b = true

/-- A text that is read as an exponent, whatever follows the value. -/
structure PowerText (text : List UInt8) (power : ℤ) : Prop where
  reads : ∀ {c : UInt8} (rest : List UInt8), delimiter c = true →
    exponent (text ++ c :: rest) = some (power, c :: rest)
  starts : ∀ b ∈ text.head?, b = 101
  bytes : ∀ b ∈ text, numberByte b = true

/-- Digits after the point, with the point if there are any. -/
def pointed : List UInt8 → List UInt8
  | [] => []
  | d :: ds => 46 :: d :: ds

/-- The text does not start with a digit. -/
def NoDigit (s : List UInt8) : Prop :=
  ∀ b ∈ s.head?, isDigit b = false

theorem digits_read {ds s : List UInt8} (hne : ds ≠ []) (hds : ∀ d ∈ ds, isDigit d = true)
    (hs : NoDigit s) : digits (ds ++ s) = some (ds, s) := by
  have htake : s.takeWhile isDigit = [] := by
    cases s with
    | nil => rfl
    | cons c s => simp [hs c rfl]
  have hdrop : s.dropWhile isDigit = s := by
    cases s with
    | nil => rfl
    | cons c s => simp [hs c rfl]
  rw [digits, List.takeWhile_append_of_pos hds, List.dropWhile_append_of_pos hds, htake, hdrop,
    List.append_nil, if_neg hne]

theorem number_byte_of_digit {b : UInt8} (h : isDigit b = true) : numberByte b = true := by
  simp [numberByte, h]

theorem PowerText.none : PowerText [] 0 where
  reads rest hc := by
    rcases delimiter_cases hc with rfl | rfl | rfl <;> rfl
  starts := nofun
  bytes := nofun

theorem PowerText.of_digits {ds : List UInt8} (hne : ds ≠ []) (hds : ∀ d ∈ ds, isDigit d = true)
    (negative : Bool) :
    PowerText (101 :: (if negative then 45 else 43) :: ds)
      ((if negative then -1 else 1) * digitsValue ds) where
  reads {c} rest hc := by
    have hdelimiter : NoDigit (c :: rest) := by
      intro b hb
      cases hb
      rcases delimiter_cases hc with rfl | rfl | rfl <;> rfl
    have hdigits := digits_read hne hds hdelimiter
    cases negative with
    | true => simp [exponent, sign, hdigits]
    | false => simp [exponent, sign, hdigits]
  starts b hb := (Option.some.inj hb).symm
  bytes b hb := by
    rcases List.mem_cons.1 hb with rfl | hb
    · rfl
    rcases List.mem_cons.1 hb with rfl | hb
    · cases negative <;> rfl
    · exact number_byte_of_digit (hds b hb)

theorem fraction_read {part s : List UInt8} (hpart : ∀ d ∈ part, isDigit d = true) (hs : NoDigit s)
    (hpoint : s.head? ≠ some 46) : fraction (pointed part ++ s) = some (part, s) := by
  cases part with
  | nil =>
      cases s with
      | nil => rfl
      | cons c s => exact if_neg fun hc => hpoint (congrArg some hc)
  | cons d ds =>
      show digits (d :: ds ++ s) = some (d :: ds, s)
      exact digits_read (List.cons_ne_nil d ds) hpart hs

theorem PowerText.next {text : List UInt8} {power : ℤ} (h : PowerText text power) {c : UInt8}
    (hc : delimiter c = true) (rest : List UInt8) :
    NoDigit (text ++ c :: rest) ∧ (text ++ c :: rest).head? ≠ some 46 := by
  cases text with
  | nil => rcases delimiter_cases hc with rfl | rfl | rfl <;> exact ⟨by rintro b ⟨⟩; rfl, by simp⟩
  | cons b text =>
      obtain rfl := h.starts b rfl
      exact ⟨by rintro b ⟨⟩; rfl, by simp⟩

section Parts

variable {whole part text : List UInt8} {power : ℤ} (hne : whole ≠ [])
  (hwhole : ∀ d ∈ whole, isDigit d = true) (hzero : whole.head? ≠ some 48 ∨ whole.length = 1)
  (hpart : ∀ d ∈ part, isDigit d = true) (hpower : PowerText text power)

include hne hwhole hzero hpart hpower

theorem magnitude_read {c : UInt8} (hc : delimiter c = true) (rest : List UInt8) :
    magnitude (whole ++ (pointed part ++ (text ++ c :: rest))) =
      some ((digitsValue (whole ++ part) : ℚ) * 10 ^ (power - part.length), c :: rest) := by
  obtain ⟨hnext, hpoint⟩ := hpower.next hc rest
  have hafter : NoDigit (pointed part ++ (text ++ c :: rest)) := by
    cases part with
    | nil => exact hnext
    | cons d ds =>
        intro b hb
        cases hb
        rfl
  have hinteger : integer (whole ++ (pointed part ++ (text ++ c :: rest))) =
      some (whole, pointed part ++ (text ++ c :: rest)) := by
    rw [integer, digits_read hne hwhole hafter, Option.filter_some, if_pos]
    simpa using hzero
  rw [magnitude, hinteger]
  simp only [Option.bind_eq_bind, Option.bind_some]
  rw [fraction_read hpart hnext hpoint]
  simp only [Option.bind_some]
  rw [hpower.reads rest hc, Option.bind_some]

omit hne hzero in
theorem number_bytes : ∀ b ∈ whole ++ pointed part ++ text, numberByte b = true := by
  intro b hb
  rcases List.mem_append.1 hb with hb | hb
  · rcases List.mem_append.1 hb with hb | hb
    · exact number_byte_of_digit (hwhole b hb)
    · cases part with
      | nil => cases hb
      | cons d ds =>
          rcases List.mem_cons.1 hb with rfl | hb
          · rfl
          · exact number_byte_of_digit (hpart b hb)
  · exact hpower.bytes b hb

/-- A number from its digits before and after the point and its exponent. -/
theorem NumberText.of_parts : NumberText (whole ++ pointed part ++ text)
    (digitsValue (whole ++ part) * 10 ^ (power - part.length)) where
  reads {c} rest hc := by
    have hmagnitude := magnitude_read hne hwhole hzero hpart hpower hc rest
    rw [List.append_assoc, List.append_assoc]
    cases whole with
    | nil => exact absurd rfl hne
    | cons d ds =>
        -- a digit is not a minus sign
        have hminus : d ≠ 45 := by
          rintro rfl
          exact absurd (hwhole 45 List.mem_cons_self) (by decide)
        exact (if_neg hminus).trans hmagnitude
  bytes := number_bytes hwhole hpart hpower

end Parts

theorem NumberText.marks_eq {text : List UInt8} {q : ℚ} (h : NumberText text q) :
    marks text = 0 := by
  refine List.countP_eq_zero.2 fun b hb hmark => ?_
  have hbyte := h.bytes b hb
  rcases (by simpa [isMark] using hmark : b = 92 ∨ b = 117) with rfl | rfl <;> cases hbyte

theorem NumberText.ascii {text : List UInt8} {q : ℚ} (h : NumberText text q) :
    ∀ b ∈ text, b < 128 := by
  intro b hb
  have hbyte := h.bytes b hb
  simp only [numberByte, isDigit, Bool.or_eq_true, Bool.and_eq_true, decide_eq_true_eq,
    beq_iff_eq] at hbyte
  rcases hbyte with ((((⟨-, hle⟩ | rfl) | rfl) | rfl) | rfl) | rfl
  · exact UInt8.lt_of_le_of_lt hle (by decide)
  all_goals decide

theorem number_of_not_digit {c : UInt8} (hdigit : isDigit c = false) (hminus : c ≠ 45)
    (s : List UInt8) : number (c :: s) = none := by
  simp [number, hminus, magnitude, integer, digits, hdigit]

/-- A text that starts with a number is read as that number. -/
theorem Value.number_unique {s rest rest' : List UInt8} {v : Json} {q : ℚ} (h : Value s v rest)
    (hnum : number s = some (q, rest')) : v = .num q ∧ rest = rest' := by
  cases h with
  | num hread =>
      rw [hread] at hnum
      cases hnum
      exact ⟨rfl, rfl⟩
  | null | true | false | str | emptyArr | arr | emptyObj | obj =>
      rw [number_of_not_digit rfl (by decide)] at hnum
      cases hnum

/-! ## Strings -/

theorem character_unescaped {b : UInt8} (h : unescaped b = true) (s : List UInt8) :
    character (b :: s) = some ([b], s) := by
  have hne : b ≠ 92 := by
    rintro rfl
    cases h
  exact (if_neg hne).trans (if_pos h)

/-- A text that denotes itself as a string: it is UTF-8, and no byte has to be escaped. -/
structure Plain (text : List UInt8) : Prop where
  utf8 : Utf8 text
  bytes : ∀ b ∈ text, unescaped b = true

theorem Plain.of_ascii {text : List UInt8}
    (h : text.all (fun b => unescaped b && b < 128) = true) : Plain text where
  utf8 := by
    rw [← List.append_nil text, utf8_ascii_append_iff]
    · exact .nil
    · exact fun b hb => by simpa using (Bool.and_eq_true_iff.1 (List.all_eq_true.1 h b hb)).2
  bytes b hb := (Bool.and_eq_true_iff.1 (List.all_eq_true.1 h b hb)).1

theorem Plain.cost_eq {text : List UInt8} (h : Plain text) : cost text = marks text := by
  have hnone : text.countP (fun b => !unescaped b) = 0 :=
    List.countP_eq_zero.2 fun b hb => by simp [h.bytes b hb]
  rw [cost, hnone, Nat.add_zero]

variable {key : List UInt8}

/-- A string without escapes. -/
theorem Chars.read (hkey : ∀ b ∈ key, unescaped b = true) (rest : List UInt8) :
    Chars (key ++ 34 :: rest) key rest := by
  induction key with
  | nil => exact .close
  | cons b key ih =>
      rw [List.forall_mem_cons] at hkey
      exact .cons (character_unescaped hkey.1 _) (ih hkey.2)

theorem Chars.unique (hkey : ∀ b ∈ key, unescaped b = true) {s text rest : List UInt8}
    (h : Chars (key ++ 34 :: s) text rest) : text = key ∧ rest = s := by
  induction key generalizing text with
  | nil =>
      cases h with
      | close => exact ⟨rfl, rfl⟩
      | cons hchar => cases hchar
  | cons b key ih =>
      rw [List.forall_mem_cons] at hkey
      cases h with
      | close => cases hkey.1
      | cons hchar hrest =>
          rw [List.cons_append, character_unescaped hkey.1] at hchar
          cases hchar
          obtain ⟨rfl, rfl⟩ := ih hkey.2 hrest
          exact ⟨rfl, rfl⟩

/-! ## Members -/

/-- A text that is read as a value, whatever follows it. -/
structure ValueText (text : List UInt8) (v : Json) : Prop where
  skips : ∀ rest, skip (text ++ rest) = text ++ rest
  reads : ∀ {c : UInt8} (rest : List UInt8), delimiter c = true →
    Value (text ++ c :: rest) v (c :: rest)

theorem NumberText.value {text : List UInt8} {q : ℚ} (h : NumberText text q) :
    ValueText text (.num q) where
  skips rest := by
    cases text with
    | nil =>
        have := h.reads (c := 44) [] rfl
        cases this
    | cons b text =>
        refine skip_cons ?_ _
        have hbyte := h.bytes b List.mem_cons_self
        cases hspace : isSpace b with
        | false => rfl
        | true =>
            simp only [isSpace, Bool.or_eq_true, beq_iff_eq] at hspace
            rcases hspace with ((rfl | rfl) | rfl) | rfl <;> cases hbyte
  reads rest hc := .num (h.reads rest hc)

/-- A string without escapes, between its quotation marks. -/
theorem Plain.value {text : List UInt8} (h : Plain text) :
    ValueText (34 :: (text ++ [34])) (.str text) where
  skips _ := skip_cons rfl _
  reads rest _ := by
    rw [List.cons_append, List.append_assoc]
    exact .str (.read h.bytes _)

/-- An array of one value. -/
theorem ValueText.singleton {text : List UInt8} {v : Json} (h : ValueText text v) :
    ValueText (91 :: (text ++ [93])) (.arr [v]) where
  skips _ := skip_cons rfl _
  reads rest _ := by
    rw [List.cons_append, List.append_assoc]
    refine .arr (.last ?_ (skip_cons rfl _))
    rw [h.skips]
    exact h.reads _ rfl

/-- A member with a plain name. -/
def memberText (key text : List UInt8) : List UInt8 :=
  34 :: (key ++ 34 :: 58 :: text)

/-- A text that is read as a member, whatever follows it. -/
def Prints (text : List UInt8) (m : List UInt8 × Json) : Prop :=
  ∀ {c : UInt8} (rest : List UInt8), delimiter c = true → Member (text ++ c :: rest) m (c :: rest)

/-- A text that is not read as any other member. -/
def Fixes (text : List UInt8) (m : List UInt8 × Json) : Prop :=
  ∀ {c : UInt8} {rest rest' : List UInt8} {m' : List UInt8 × Json}, delimiter c = true →
    Member (text ++ c :: rest) m' rest' → m' = m ∧ rest' = c :: rest

theorem member_text_append (key text s : List UInt8) :
    memberText key text ++ s = 34 :: (key ++ 34 :: 58 :: (text ++ s)) := by
  simp [memberText]

theorem ValueText.prints (hkey : Plain key) {text : List UInt8} {v : Json}
    (h : ValueText text v) : Prints (memberText key text) (key, v) := by
  intro c rest hc
  have hvalue : Value (skip (text ++ c :: rest)) v (c :: rest) := by
    rw [h.skips]
    exact h.reads rest hc
  have hmember : Member (memberText key text ++ c :: rest) (key, v) (skip (c :: rest)) := by
    rw [member_text_append]
    exact .mk (skip_cons rfl _) (.read hkey.bytes _) (skip_cons rfl _) hvalue
  rwa [skip_delimiter hc] at hmember

/-- Where the value is a number, there is no other way to read the member. -/
theorem NumberText.fixes (hkey : Plain key) {text : List UInt8} {q : ℚ}
    (h : NumberText text q) : Fixes (memberText key text) (key, .num q) := by
  intro c rest rest' m' hc hmember
  rw [member_text_append] at hmember
  cases hmember with
  | mk hquote hchars hcolon hvalue =>
      rw [skip_cons rfl] at hquote
      cases hquote
      obtain ⟨rfl, rfl⟩ := hchars.unique hkey.bytes
      rw [skip_cons rfl] at hcolon
      cases hcolon
      rw [h.value.skips] at hvalue
      obtain ⟨rfl, rfl⟩ := hvalue.number_unique (h.reads rest hc)
      exact ⟨rfl, skip_delimiter hc rest⟩

/-- Members with commas between them, and the brace that ends them. -/
def membersText (texts : List (List UInt8)) : List UInt8 :=
  [44].intercalate texts ++ [125]

theorem members_text_cons_cons (text next : List UInt8) (texts : List (List UInt8)) :
    membersText (text :: next :: texts) = text ++ 44 :: membersText (next :: texts) := by
  simp [membersText, List.intercalate_cons_cons]

/-- Texts of members make the text of an object. -/
theorem Members.read {texts : List (List UInt8)} {ms : List (List UInt8 × Json)}
    (h : List.Forall₂ Prints texts ms) (hne : texts ≠ []) (rest : List UInt8) :
    Members (membersText texts ++ rest) ms rest := by
  induction h with
  | nil => exact absurd rfl hne
  | @cons text m texts ms hprints hrest ih =>
      cases hrest with
      | nil =>
          have htext : membersText [text] ++ rest = text ++ 125 :: rest := by simp [membersText]
          rw [htext]
          exact .last (hprints rest rfl)
      | cons hnext hmore =>
          rw [members_text_cons_cons, List.append_assoc, List.cons_append]
          exact .cons (hprints _ rfl) (ih (List.cons_ne_nil _ _))

/-- The text of an object. -/
def objectText (texts : List (List UInt8)) : List UInt8 :=
  123 :: membersText texts

theorem Value.read_obj {texts : List (List UInt8)} {ms : List (List UInt8 × Json)}
    (h : List.Forall₂ Prints texts ms) (hne : texts ≠ []) : ValueText (objectText texts) (.obj ms)
    where
  skips _ := skip_cons rfl _
  reads _ _ := .obj (Members.read h hne _)

/-- An object whose text starts with members that cannot be read otherwise starts with them. -/
theorem Members.starts {texts more : List (List UInt8)} {ms all : List (List UInt8 × Json)}
    {rest : List UInt8} (h : List.Forall₂ Fixes texts ms) (hne : more ≠ [])
    (hall : Members (membersText (texts ++ more)) all rest) :
    ∃ others, all = ms ++ others ∧ Members (membersText more) others rest := by
  induction h generalizing all with
  | nil => exact ⟨all, rfl, hall⟩
  | @cons text m texts ms hfixes _ ih =>
      obtain ⟨next, texts', hnext⟩ : ∃ next texts', texts ++ more = next :: texts' :=
        List.exists_cons_of_ne_nil (List.append_ne_nil_of_right_ne_nil texts hne)
      rw [List.cons_append, hnext, members_text_cons_cons, ← hnext] at hall
      cases hall with
      | last hmember =>
          have := (hfixes rfl hmember).2
          cases this
      | cons hmember hmembers =>
          obtain ⟨rfl, hrest⟩ := hfixes rfl hmember
          cases hrest
          obtain ⟨others, rfl, hothers⟩ := ih hmembers
          exact ⟨others, rfl, hothers⟩

/-- A text is read as a document if it is the text of an object. -/
theorem Denotes.read_obj {texts : List (List UInt8)} {ms : List (List UInt8 × Json)}
    (h : List.Forall₂ Prints texts ms) (hne : texts ≠ []) :
    Denotes (objectText texts) (.obj ms) := by
  have hmembers := Members.read h hne []
  rw [List.append_nil] at hmembers
  exact ⟨[], .obj hmembers, rfl⟩

/-- The object of a document is read from its members. -/
theorem Denotes.members {text key : List UInt8} {texts : List (List UInt8)}
    {ms : List (List UInt8 × Json)}
    (h : Denotes (objectText (memberText key text :: texts)) (.obj ms)) :
    ∃ rest, Members (membersText (memberText key text :: texts)) ms rest := by
  obtain ⟨rest, hvalue, -⟩ := h
  rw [objectText, skip_cons rfl] at hvalue
  cases hvalue with
  | emptyObj hclose =>
      -- the members start with a quotation mark
      cases texts with
      | nil => cases hclose
      | cons next texts =>
          rw [members_text_cons_cons] at hclose
          cases hclose
  | obj hmembers => exact ⟨rest, hmembers⟩

/-! ## Bytes of the texts -/

theorem marks_member_text (key text : List UInt8) :
    marks (memberText key text) = marks key + marks text := by
  simp [memberText, marks_append, marks_cons, isMark]

theorem marks_object_text (texts : List (List UInt8)) :
    marks (objectText texts) = (texts.map marks).sum := by
  have hjoin : marks ([44].intercalate texts) = (texts.map marks).sum := by
    induction texts with
    | nil => rfl
    | cons text texts ih =>
        cases texts with
        | nil => simp
        | cons next texts =>
            rw [List.intercalate_cons_cons, marks_append, marks_append, ih]
            simp [marks, isMark]
  rw [objectText, membersText, marks_cons, marks_append, hjoin]
  rfl

theorem utf8_cons_iff {b : UInt8} {s : List UInt8} (hb : b < 128) : Utf8 (b :: s) ↔ Utf8 s :=
  utf8_ascii_append_iff (List.forall_mem_singleton.2 hb)

theorem utf8_member_text (key text : List UInt8) :
    Utf8 (memberText key text) ↔ Utf8 key ∧ Utf8 text := by
  rw [memberText, utf8_cons_iff (by decide), utf8_append_cons_iff (by decide),
    utf8_cons_iff (by decide)]

theorem utf8_object_text (texts : List (List UInt8)) :
    Utf8 (objectText texts) ↔ ∀ text ∈ texts, Utf8 text := by
  have hjoin : Utf8 ([44].intercalate texts) ↔ ∀ text ∈ texts, Utf8 text := by
    induction texts with
    | nil => exact iff_of_true .nil nofun
    | cons text texts ih =>
        cases texts with
        | nil => simp
        | cons next texts =>
            rw [List.intercalate_cons_cons, List.append_assoc, List.singleton_append,
              utf8_append_cons_iff (by decide), ih]
            exact List.forall_mem_cons.symm
  rw [objectText, membersText, utf8_cons_iff (by decide), utf8_append_cons_iff (by decide), hjoin]
  exact and_iff_left .nil

/-! ## Members with numbers -/

/-- A member whose value is a number, with its text. -/
structure NumberMember where
  key : List UInt8
  text : List UInt8
  value : ℚ
  plain : Plain key
  number : NumberText text value

namespace NumberMember

/-- The text of the member. -/
def print (m : NumberMember) : List UInt8 :=
  memberText m.key m.text

/-- What the text is read as. -/
def member (m : NumberMember) : List UInt8 × Json :=
  (m.key, .num m.value)

theorem prints (ms : List NumberMember) : List.Forall₂ Prints (ms.map print) (ms.map member) := by
  rw [List.forall₂_map_left_iff, List.forall₂_map_right_iff, List.forall₂_same]
  exact fun m _ => m.number.value.prints m.plain

theorem fixes (ms : List NumberMember) : List.Forall₂ Fixes (ms.map print) (ms.map member) := by
  rw [List.forall₂_map_left_iff, List.forall₂_map_right_iff, List.forall₂_same]
  exact fun m _ => m.number.fixes m.plain

theorem utf8_print (m : NumberMember) : Utf8 m.print := by
  rw [print, utf8_member_text, ← List.append_nil m.text, utf8_ascii_append_iff m.number.ascii]
  exact ⟨m.plain.utf8, .nil⟩

/-- An object of numbers has no more marks than it needs. -/
theorem price_eq (ms : List NumberMember) :
    price (.obj (ms.map member)) = marks (objectText (ms.map print)) := by
  have hprint (m : NumberMember) : marks m.print = cost m.key + price (.num m.value) := by
    rw [print, marks_member_text, m.number.marks_eq, m.plain.cost_eq]
    rfl
  rw [marks_object_text, price, priceMembers_eq_sum, List.map_map, List.map_map]
  congr 1
  exact List.map_congr_left fun m _ => (hprint m).symm

end NumberMember

end ApiGateway.Json
