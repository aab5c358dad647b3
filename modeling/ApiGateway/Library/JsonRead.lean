import ApiGateway.Library.JsonPrint

/-!
# Reading JSON

What a reader that goes through the text of a JSON value finds. Behind a value there is the rest of
the text (`Value.suffix`). A number is one without an exponent, and an exponent may stand behind it
(`number_split`). An object has a closing brace (`Denotes.brace_mem`).
-/

namespace ApiGateway.Json

/-- A value that is neither an array nor an object. -/
def isScalar : Json → Bool
  | .arr _ | .obj _ => false
  | .null | .bool _ | .num _ | .str _ => true

/-! ## Numbers -/

/-- A number without its sign, which has to be a minus sign. -/
def unsigned (s : List UInt8) : List UInt8 :=
  if s.head? = some 45 then s.tail else s

/-- A number without an exponent. -/
def isPlainNumber (s : List UInt8) : Bool :=
  ((integer (unsigned s)).bind fun r => fraction r.2).any fun r => r.2.isEmpty

variable {s rest ds part : List UInt8}

theorem no_digit_drop_while (s : List UInt8) : NoDigit (s.dropWhile isDigit) := by
  induction s with
  | nil => simp [NoDigit]
  | cons c s ih =>
      by_cases hc : isDigit c = true
      · rw [List.dropWhile_cons_of_pos hc]
        exact ih
      · rw [List.dropWhile_cons_of_neg hc]
        intro b hb
        cases hb
        exact Bool.eq_false_iff.2 hc

theorem digits_split (h : digits s = some (ds, rest)) :
    s = ds ++ rest ∧ ds ≠ [] ∧ (∀ d ∈ ds, isDigit d = true) ∧ NoDigit rest := by
  simp only [digits] at h
  split at h
  · cases h
  · rename_i hne
    cases h
    exact ⟨List.takeWhile_append_dropWhile.symm, hne, fun d hd => List.mem_takeWhile_imp hd,
      no_digit_drop_while s⟩

theorem fraction_split (h : fraction s = some (part, rest)) :
    s = pointed part ++ rest ∧ (∀ d ∈ part, isDigit d = true) := by
  cases s with
  | nil =>
      cases h
      exact ⟨rfl, by simp⟩
  | cons c s =>
      simp only [fraction] at h
      split at h
      · rename_i hpoint
        obtain ⟨hs, hne, hdigits, -⟩ := digits_split h
        obtain ⟨d, ds, rfl⟩ := List.exists_cons_of_ne_nil hne
        exact ⟨by rw [hpoint, hs]; rfl, hdigits⟩
      · cases h
        exact ⟨rfl, by simp⟩

/-- An exponent, if there is one, starts with its letter. -/
theorem exponent_split {power : ℤ} (h : exponent s = some (power, rest)) :
    ∃ text, s = text ++ rest ∧ ∀ c ∈ text.head?, c = 101 ∨ c = 69 := by
  cases s with
  | nil =>
      cases h
      exact ⟨[], rfl, by simp⟩
  | cons c s =>
      simp only [exponent] at h
      split at h
      · rename_i hletter
        obtain ⟨⟨ds, rest'⟩, hdigits, hpair⟩ := Option.map_eq_some_iff.1 h
        cases hpair
        obtain ⟨front, hfront⟩ := (digits_suffix hdigits).trans (sign_suffix s)
        refine ⟨c :: front, by rw [← hfront]; rfl, fun b hb => ?_⟩
        cases hb
        exact hletter
      · cases h
        exact ⟨[], rfl, by simp⟩

theorem no_digit_pointed (part : List UInt8) : NoDigit (pointed part) := by
  cases part with
  | nil => simp [NoDigit, pointed]
  | cons d ds =>
      intro b hb
      cases hb
      rfl

/-- A number without a sign: digits, and possibly a point with digits and an exponent. -/
theorem magnitude_split {q : ℚ} (h : magnitude s = some (q, rest)) :
    ∃ whole part power, s = whole ++ pointed part ++ (power ++ rest) ∧
      integer (whole ++ pointed part) = some (whole, pointed part) ∧
      (∀ d ∈ part, isDigit d = true) ∧ ∀ c ∈ power.head?, c = 101 ∨ c = 69 := by
  simp only [magnitude, Option.bind_eq_bind, Option.bind_eq_some_iff] at h
  obtain ⟨⟨whole, s₁⟩, hwhole, ⟨part, s₂⟩, hpart, ⟨value, s₃⟩, hpower, hq⟩ := h
  cases hq
  obtain ⟨hdigits, hzero⟩ := Option.filter_eq_some_iff.1 hwhole
  obtain ⟨rfl, hne, hall, -⟩ := digits_split hdigits
  obtain ⟨rfl, hpoint⟩ := fraction_split hpart
  obtain ⟨power, rfl, hletter⟩ := exponent_split hpower
  refine ⟨whole, part, power, by rw [List.append_assoc], ?_, hpoint, hletter⟩
  exact Option.filter_eq_some_iff.2 ⟨digits_read hne hall (no_digit_pointed part), hzero⟩

theorem is_plain_number_of {text whole : List UInt8}
    (hwhole : integer (unsigned text) = some (whole, pointed part))
    (hpart : ∀ d ∈ part, isDigit d = true) : isPlainNumber text = true := by
  have hread : fraction (pointed part ++ []) = some (part, []) :=
    fraction_read hpart (by simp [NoDigit]) (by simp)
  rw [List.append_nil] at hread
  rw [isPlainNumber, hwhole, Option.bind_some, hread]
  rfl

/-- A number consists of a number without an exponent and possibly an exponent. -/
theorem number_split {q : ℚ} (h : number s = some (q, rest)) :
    ∃ text power, s = text ++ (power ++ rest) ∧ isPlainNumber text = true ∧
      ∀ c ∈ power.head?, c = 101 ∨ c = 69 := by
  cases s with
  | nil => cases h
  | cons c s =>
      simp only [number] at h
      split at h
      · rename_i hminus
        obtain ⟨⟨q', rest'⟩, hmagnitude, hpair⟩ := Option.map_eq_some_iff.1 h
        cases hpair
        obtain ⟨whole, part, power, rfl, hwhole, hpart, hletter⟩ := magnitude_split hmagnitude
        exact ⟨c :: (whole ++ pointed part), power, rfl,
          is_plain_number_of (by rw [hminus]; exact hwhole) hpart, hletter⟩
      · rename_i hminus
        obtain ⟨whole, part, power, hs, hwhole, hpart, hletter⟩ := magnitude_split h
        refine ⟨whole ++ pointed part, power, hs, ?_, hletter⟩
        obtain ⟨-, hne, -, -⟩ := digits_split (Option.filter_eq_some_iff.1 hwhole).1
        obtain ⟨d, ds, rfl⟩ := List.exists_cons_of_ne_nil hne
        obtain rfl : c = d := (List.cons.inj hs).1
        have hunsigned : unsigned (c :: ds ++ pointed part) = c :: ds ++ pointed part :=
          if_neg (by simpa using hminus)
        exact is_plain_number_of (hunsigned ▸ hwhole) hpart

/-- A number without an exponent starts with a digit, after its sign. -/
theorem plain_number_parts (h : isPlainNumber s = true) :
    ∃ d parts, (s = d :: parts ∨ s = 45 :: d :: parts) ∧ isDigit d = true ∧
      ∀ c ∈ parts, isDigit c = true ∨ c = 46 := by
  obtain ⟨⟨part, rest⟩, hfraction, hempty⟩ := (Option.any_eq_true _ _).1 h
  obtain ⟨⟨whole, s₁⟩, hwhole, hpart⟩ := Option.bind_eq_some_iff.1 hfraction
  obtain rfl : rest = [] := List.isEmpty_iff.1 hempty
  obtain ⟨hs, hne, hall, -⟩ := digits_split (Option.filter_eq_some_iff.1 hwhole).1
  obtain ⟨rfl, hdigits⟩ := fraction_split hpart
  obtain ⟨d, ds, rfl⟩ := List.exists_cons_of_ne_nil hne
  refine ⟨d, ds ++ pointed part, ?_, hall d (by simp), fun c hc => ?_⟩
  · rw [List.append_nil] at hs
    unfold unsigned at hs
    split at hs
    · rename_i hminus
      obtain ⟨tail, rfl⟩ : ∃ tail, s = 45 :: tail := by
        cases s with
        | nil => cases hminus
        | cons b tail => exact ⟨tail, by cases hminus; rfl⟩
      exact .inr (congrArg (45 :: ·) hs)
    · exact .inl hs
  · rcases List.mem_append.1 hc with hc | hc
    · exact .inl (hall c (by simp [hc]))
    · cases part with
      | nil => cases hc
      | cons e es =>
          rcases List.mem_cons.1 hc with rfl | hc
          · exact .inr rfl
          · exact .inl (hdigits c hc)

/-! ## Strings -/

theorem hex_digit_plain {b : UInt8} {n : ℕ} (h : hexDigit b = some n) : b ≠ 34 ∧ b ≠ 92 := by
  refine ⟨?_, ?_⟩
  · rintro rfl
    cases h
  · rintro rfl
    cases h

/-- Four hexadecimal digits are neither quotation marks nor backslashes. -/
theorem code_unit_split {unit : ℕ} (h : codeUnit s = some (unit, rest)) :
    ∃ hex, s = hex ++ rest ∧ ∀ b ∈ hex, b ≠ 34 ∧ b ≠ 92 := by
  simp only [codeUnit] at h
  split at h
  · rename_i a b c d s
    simp only [Option.bind_eq_bind, Option.bind_eq_some_iff] at h
    obtain ⟨_, ha, _, hb, _, hc, _, hd, hpair⟩ := h
    cases hpair
    refine ⟨[a, b, c, d], rfl, ?_⟩
    simp [hex_digit_plain ha, hex_digit_plain hb, hex_digit_plain hc, hex_digit_plain hd]
  · cases h

/-- The escape of a character: four digits, and four more behind another escape. -/
theorem unicode_split {x : List UInt8} (h : unicode s = some (x, rest)) :
    ∃ hex, (∀ b ∈ hex, b ≠ 34 ∧ b ≠ 92) ∧ (s = hex ++ rest ∨
      ∃ low, (∀ b ∈ low, b ≠ 34 ∧ b ≠ 92) ∧ s = hex ++ 92 :: 117 :: (low ++ rest)) := by
  simp only [unicode, Option.bind_eq_bind, Option.bind_eq_some_iff] at h
  obtain ⟨⟨unit, s₁⟩, hunit, h⟩ := h
  obtain ⟨hex, rfl, hhex⟩ := code_unit_split hunit
  refine ⟨hex, hhex, ?_⟩
  dsimp only at h
  split at h
  · simp only [Option.bind_eq_some_iff] at h
    obtain ⟨s₂, hmarker, ⟨value, s₃⟩, hlow, h⟩ := h
    obtain rfl := List.isPrefixOf?_eq_some_iff_append_eq.1 hmarker
    obtain ⟨low, rfl, hplain⟩ := code_unit_split hlow
    split at h
    · obtain ⟨-, rfl⟩ := Prod.mk.inj (Option.some.inj h)
      exact .inr ⟨low, hplain, rfl⟩
    · cases h
  split at h
  · cases h
  · cases h
    exact .inl rfl

/-! ## What is left of a text -/

theorem character_suffix {x : List UInt8} (h : character s = some (x, rest)) : rest <:+ s := by
  cases s with
  | nil => cases h
  | cons c s =>
      refine List.IsSuffix.trans ?_ (List.suffix_cons c s)
      simp only [character] at h
      split at h
      · cases s with
        | nil => cases h
        | cons d s =>
            refine List.IsSuffix.trans ?_ (List.suffix_cons d s)
            simp only [escape] at h
            split at h
            · exact (unicode_spec h).1
            · obtain ⟨b, -, hpair⟩ := Option.map_eq_some_iff.1 h
              cases hpair
              exact List.suffix_refl _
      split at h
      · cases h
        exact List.suffix_refl _
      · cases h

theorem Chars.suffix {text : List UInt8} (h : Chars s text rest) : rest <:+ s := by
  induction h with
  | close => exact List.suffix_cons _ _
  | cons hchar _ ih => exact ih.trans (character_suffix hchar)

theorem suffix_of_skip {c : UInt8} (h : skip s = c :: rest) : rest <:+ s :=
  (List.suffix_cons c rest).trans (h ▸ skip_suffix s)

mutual

/-- What follows a value is the end of the text. -/
theorem Value.suffix {s rest : List UInt8} {v : Json} (h : Value s v rest) : rest <:+ s := by
  cases h with
  | null => exact ⟨[110, 117, 108, 108], rfl⟩
  | true => exact ⟨[116, 114, 117, 101], rfl⟩
  | false => exact ⟨[102, 97, 108, 115, 101], rfl⟩
  | num hnum => exact number_suffix hnum
  | str hchars => exact hchars.suffix.trans (List.suffix_cons _ _)
  | emptyArr hclose | emptyObj hclose => exact (suffix_of_skip hclose).trans (List.suffix_cons _ _)
  | arr hitems => exact hitems.suffix.trans (List.suffix_cons _ _)
  | obj hmembers =>
      exact (List.suffix_cons _ _).trans (hmembers.suffix.trans (List.suffix_cons _ _))

@[inherit_doc Value.suffix]
theorem Items.suffix {s rest : List UInt8} {items : List Json} (h : Items s items rest) :
    rest <:+ s := by
  cases h with
  | last hvalue hclose =>
      exact (suffix_of_skip hclose).trans (hvalue.suffix.trans (skip_suffix s))
  | cons hvalue hcomma hitems =>
      exact hitems.suffix.trans
        ((suffix_of_skip hcomma).trans (hvalue.suffix.trans (skip_suffix s)))

@[inherit_doc Value.suffix]
theorem Member.suffix {s rest : List UInt8} {m : List UInt8 × Json} (h : Member s m rest) :
    rest <:+ s := by
  cases h with
  | @mk _ s₁ s₂ s₃ rest key v hquote hkey hcolon hvalue =>
      have hname : s₂ <:+ s := hkey.suffix.trans (suffix_of_skip hquote)
      have hval : rest <:+ s₂ :=
        hvalue.suffix.trans ((skip_suffix s₃).trans (suffix_of_skip hcolon))
      exact (skip_suffix rest).trans (hval.trans hname)

/-- Behind the members of an object there is its closing brace. -/
theorem Members.suffix {s rest : List UInt8} {members : List (List UInt8 × Json)}
    (h : Members s members rest) : 125 :: rest <:+ s := by
  cases h with
  | last hmember => exact hmember.suffix
  | cons hmember hmembers =>
      exact hmembers.suffix.trans ((List.suffix_cons _ _).trans hmember.suffix)

end

end ApiGateway.Json
