import ApiGateway.Library.Utf8

/-!
# JSON

The grammar of JSON texts over bytes, as relations between a text, the value it starts with and
what follows it. Strings are the bytes that they denote; an escaped character denotes its encoding
in UTF-8. Numbers are read as far as they go, by a function.

Escapes are not free: the backslashes and the letters `u` of a text are at least those of the
strings it denotes, with one more for every byte that a string has to escape (`Value.cost_le`,
`Members.cost_le`). So a text whose own bytes are copied into its strings has no such byte.
-/

namespace ApiGateway

/-- A JSON value. The members of an object are in the order of the text. -/
inductive Json where
  | null
  | bool (b : Bool)
  | num (value : ℚ)
  | str (text : List UInt8)
  | arr (items : List Json)
  | obj (members : List (List UInt8 × Json))

namespace Json

/-! ## Whitespace and numbers -/

def isSpace (b : UInt8) : Bool :=
  b == 32 || b == 9 || b == 10 || b == 13

/-- The text after whitespace. -/
def skip (s : List UInt8) : List UInt8 :=
  s.dropWhile isSpace

def isDigit (b : UInt8) : Bool :=
  48 ≤ b && b ≤ 57

/-- The number that digits denote, most significant first. -/
def digitsValue (digits : List UInt8) : ℕ :=
  digits.foldl (fun n d => 10 * n + (d.toNat - 48)) 0

/-- One digit or more. -/
def digits (s : List UInt8) : Option (List UInt8 × List UInt8) :=
  if s.takeWhile isDigit = [] then none else some (s.takeWhile isDigit, s.dropWhile isDigit)

/-- The digits before the point: there is no zero in front of another digit. -/
def integer (s : List UInt8) : Option (List UInt8 × List UInt8) :=
  (digits s).filter fun r => r.1.head? != some 48 || r.1.length == 1

/-- The digits after the point, if there is one. -/
def fraction : List UInt8 → Option (List UInt8 × List UInt8)
  | [] => some ([], [])
  | c :: s => if c = 46 then digits s else some ([], c :: s)

/-- An optional sign. -/
def sign : List UInt8 → ℤ × List UInt8
  | [] => (1, [])
  | c :: s => if c = 45 then (-1, s) else if c = 43 then (1, s) else (1, c :: s)

/-- The exponent, which is zero if there is none. -/
def exponent : List UInt8 → Option (ℤ × List UInt8)
  | [] => some (0, [])
  | c :: s =>
      if c = 101 ∨ c = 69 then
        (digits (sign s).2).map fun r => ((sign s).1 * digitsValue r.1, r.2)
      else some (0, c :: s)

/-- A number without its sign. -/
def magnitude (s : List UInt8) : Option (ℚ × List UInt8) := do
  let (whole, s) ← integer s
  let (part, s) ← fraction s
  let (power, s) ← exponent s
  some (digitsValue (whole ++ part) * 10 ^ (power - part.length), s)

/-- A number, and what follows it. -/
def number : List UInt8 → Option (ℚ × List UInt8)
  | [] => none
  | c :: s => if c = 45 then (magnitude s).map fun r => (-r.1, r.2) else magnitude (c :: s)

/-! ## Strings -/

/-- A byte that stands for itself in a string. -/
def unescaped (b : UInt8) : Bool :=
  32 ≤ b && b != 34 && b != 92

/-- The escapes of one letter. -/
def escapes : List (UInt8 × UInt8) :=
  [(34, 34), (92, 92), (47, 47), (98, 8), (102, 12), (110, 10), (114, 13), (116, 9)]

def hexDigit (b : UInt8) : Option ℕ :=
  if 48 ≤ b && b ≤ 57 then some (b.toNat - 48)
  else if 65 ≤ b && b ≤ 70 then some (b.toNat - 55)
  else if 97 ≤ b && b ≤ 102 then some (b.toNat - 87)
  else none

/-- Four hexadecimal digits. -/
def codeUnit : List UInt8 → Option (ℕ × List UInt8)
  | a :: b :: c :: d :: s => do
      let a ← hexDigit a
      let b ← hexDigit b
      let c ← hexDigit c
      let d ← hexDigit d
      some (((a * 16 + b) * 16 + c) * 16 + d, s)
  | _ => none

/-- The character of a code unit, or of a pair of surrogates. -/
def unicode (s : List UInt8) : Option (List UInt8 × List UInt8) := do
  let (unit, s) ← codeUnit s
  if 0xD800 ≤ unit ∧ unit < 0xDC00 then
    let s ← [92, 117].isPrefixOf? s
    let (low, s) ← codeUnit s
    if 0xDC00 ≤ low ∧ low < 0xE000 then
      some (String.utf8EncodeChar
        (Char.ofNat (0x10000 + (unit - 0xD800) * 0x400 + (low - 0xDC00))), s)
    else none
  else if 0xDC00 ≤ unit ∧ unit < 0xE000 then none
  else some (String.utf8EncodeChar (Char.ofNat unit), s)

/-- What follows a backslash. -/
def escape : List UInt8 → Option (List UInt8 × List UInt8)
  | [] => none
  | c :: s => if c = 117 then unicode s else (escapes.lookup c).map fun b => ([b], s)

/-- A byte or an escape of a string, and what follows it. -/
def character : List UInt8 → Option (List UInt8 × List UInt8)
  | [] => none
  | c :: s => if c = 92 then escape s else if unescaped c then some ([c], s) else none

/-- The text from inside a string to behind the quotation mark that ends it. -/
inductive Chars : List UInt8 → List UInt8 → List UInt8 → Prop
  | close {rest : List UInt8} : Chars (34 :: rest) [] rest
  | cons {s s' x xs rest : List UInt8} (hchar : character s = some (x, s'))
      (hrest : Chars s' xs rest) : Chars s (x ++ xs) rest

/-! ## Values -/

mutual

/-- A value, from its first byte, and what follows it. -/
inductive Value : List UInt8 → Json → List UInt8 → Prop
  | null {rest : List UInt8} : Value (110 :: 117 :: 108 :: 108 :: rest) .null rest
  | true {rest : List UInt8} : Value (116 :: 114 :: 117 :: 101 :: rest) (.bool true) rest
  | false {rest : List UInt8} : Value (102 :: 97 :: 108 :: 115 :: 101 :: rest) (.bool false) rest
  | num {s rest : List UInt8} {q : ℚ} (hnum : number s = some (q, rest)) : Value s (.num q) rest
  | str {s text rest : List UInt8} (hchars : Chars s text rest) : Value (34 :: s) (.str text) rest
  | emptyArr {s rest : List UInt8} (hclose : skip s = 93 :: rest) : Value (91 :: s) (.arr []) rest
  | arr {s rest : List UInt8} {items : List Json} (hitems : Items s items rest) :
      Value (91 :: s) (.arr items) rest
  | emptyObj {s rest : List UInt8} (hclose : skip s = 125 :: rest) : Value (123 :: s) (.obj []) rest
  | obj {s rest : List UInt8} {members : List (List UInt8 × Json)}
      (hmembers : Members s members rest) : Value (123 :: s) (.obj members) rest

/-- The items of an array, to behind the bracket that ends it. -/
inductive Items : List UInt8 → List Json → List UInt8 → Prop
  | last {s s' rest : List UInt8} {v : Json} (hvalue : Value (skip s) v s')
      (hclose : skip s' = 93 :: rest) : Items s [v] rest
  | cons {s s' s'' rest : List UInt8} {v : Json} {items : List Json}
      (hvalue : Value (skip s) v s') (hcomma : skip s' = 44 :: s'')
        (hitems : Items s'' items rest) :
      Items s (v :: items) rest

/-- A member of an object, to the comma or the brace behind it. -/
inductive Member : List UInt8 → List UInt8 × Json → List UInt8 → Prop
  | mk {s s₁ s₂ s₃ rest key : List UInt8} {v : Json} (hquote : skip s = 34 :: s₁)
      (hkey : Chars s₁ key s₂) (hcolon : skip s₂ = 58 :: s₃) (hvalue : Value (skip s₃) v rest) :
      Member s (key, v) (skip rest)

/-- The members of an object, to behind the brace that ends it. -/
inductive Members : List UInt8 → List (List UInt8 × Json) → List UInt8 → Prop
  | last {s rest : List UInt8} {m : List UInt8 × Json} (hmember : Member s m (125 :: rest)) :
      Members s [m] rest
  | cons {s s' rest : List UInt8} {m : List UInt8 × Json} {members : List (List UInt8 × Json)}
      (hmember : Member s m (44 :: s')) (hmembers : Members s' members rest) :
      Members s (m :: members) rest

end

/-- The whole text is one value, with whitespace around it. -/
def Denotes (text : List UInt8) (v : Json) : Prop :=
  ∃ rest, Value (skip text) v rest ∧ skip rest = []

/-! ## The cost of a value -/

/-- The bytes that escapes are made of. -/
def isMark (b : UInt8) : Bool :=
  b == 92 || b == 117

def marks (s : List UInt8) : ℕ :=
  s.countP isMark

/-- The marks that a text needs for a string: those of the string itself, and one for every byte
that is escaped. -/
def cost (text : List UInt8) : ℕ :=
  marks text + text.countP fun b => !unescaped b

mutual

/-- The marks that a text needs for the strings of a value. -/
def price : Json → ℕ
  | .str text => cost text
  | .arr items => priceItems items
  | .obj members => priceMembers members
  | _ => 0

@[inherit_doc price] def priceItems : List Json → ℕ
  | [] => 0
  | v :: items => price v + priceItems items

@[inherit_doc price] def priceMembers : List (List UInt8 × Json) → ℕ
  | [] => 0
  | (key, v) :: members => cost key + price v + priceMembers members

end

theorem priceMembers_eq_sum (members : List (List UInt8 × Json)) :
    priceMembers members = (members.map fun m => cost m.1 + price m.2).sum := by
  induction members with
  | nil => rfl
  | cons m members ih => rw [priceMembers, ih, List.map_cons, List.sum_cons]

theorem priceMembers_perm {members members' : List (List UInt8 × Json)}
    (h : members.Perm members') : priceMembers members = priceMembers members' := by
  rw [priceMembers_eq_sum, priceMembers_eq_sum]
  exact (h.map _).sum_eq

theorem price_le_of_mem {members : List (List UInt8 × Json)} {m : List UInt8 × Json}
    (h : m ∈ members) : cost m.1 + price m.2 ≤ priceMembers members := by
  rw [priceMembers_eq_sum]
  exact List.le_sum_of_mem (List.mem_map.2 ⟨m, h, rfl⟩)

theorem marks_cons (b : UInt8) (s : List UInt8) :
    marks (b :: s) = marks s + if isMark b then 1 else 0 :=
  List.countP_cons

theorem marks_append (s t : List UInt8) : marks (s ++ t) = marks s + marks t :=
  List.countP_append

theorem marks_le_of_suffix {s t : List UInt8} (h : s <:+ t) : marks s ≤ marks t :=
  h.sublist.countP_le

theorem cost_append (s t : List UInt8) : cost (s ++ t) = cost s + cost t := by
  simp only [cost, marks_append, List.countP_append]
  omega

theorem skip_suffix (s : List UInt8) : skip s <:+ s :=
  List.dropWhile_suffix _

/-- A text that is followed by a byte after whitespace has at least the marks behind that byte. -/
theorem marks_le_of_skip {s rest : List UInt8} {b : UInt8} (h : skip s = b :: rest) :
    marks rest ≤ marks s :=
  marks_le_of_suffix ((List.suffix_cons b rest).trans (h ▸ skip_suffix s))

theorem digits_suffix {s ds rest : List UInt8} (h : digits s = some (ds, rest)) : rest <:+ s := by
  simp only [digits] at h
  split at h
  · cases h
  · cases h
    exact List.dropWhile_suffix _

theorem sign_suffix (s : List UInt8) : (sign s).2 <:+ s := by
  cases s with
  | nil => exact List.suffix_refl _
  | cons c s =>
      simp only [sign]
      split
      · exact List.suffix_cons _ _
      split
      · exact List.suffix_cons _ _
      · exact List.suffix_refl _

theorem fraction_suffix {s ds rest : List UInt8} (h : fraction s = some (ds, rest)) :
    rest <:+ s := by
  cases s with
  | nil =>
      cases h
      exact List.suffix_refl _
  | cons c s =>
      simp only [fraction] at h
      split at h
      · exact (digits_suffix h).trans (List.suffix_cons _ _)
      · cases h
        exact List.suffix_refl _

theorem exponent_suffix {s rest : List UInt8} {power : ℤ} (h : exponent s = some (power, rest)) :
    rest <:+ s := by
  cases s with
  | nil =>
      cases h
      exact List.suffix_refl _
  | cons c s =>
      simp only [exponent] at h
      split at h
      · obtain ⟨⟨ds, rest'⟩, hdigits, hpair⟩ := Option.map_eq_some_iff.1 h
        cases hpair
        exact (digits_suffix hdigits).trans ((sign_suffix s).trans (List.suffix_cons _ _))
      · cases h
        exact List.suffix_refl _

theorem magnitude_suffix {s rest : List UInt8} {q : ℚ} (h : magnitude s = some (q, rest)) :
    rest <:+ s := by
  simp only [magnitude, Option.bind_eq_bind, Option.bind_eq_some_iff] at h
  obtain ⟨⟨whole, s₁⟩, hwhole, ⟨part, s₂⟩, hpart, ⟨power, s₃⟩, hpower, hq⟩ := h
  cases hq
  have h₁ : s₁ <:+ s := digits_suffix (Option.filter_eq_some_iff.1 hwhole).1
  exact (exponent_suffix hpower).trans ((fraction_suffix hpart).trans h₁)

theorem number_suffix {s rest : List UInt8} {q : ℚ} (h : number s = some (q, rest)) :
    rest <:+ s := by
  cases s with
  | nil => cases h
  | cons c s =>
      simp only [number] at h
      split at h
      · obtain ⟨⟨q', rest'⟩, hmagnitude, hpair⟩ := Option.map_eq_some_iff.1 h
        cases hpair
        exact (magnitude_suffix hmagnitude).trans (List.suffix_cons _ _)
      · exact magnitude_suffix h

theorem codeUnit_suffix {s rest : List UInt8} {unit : ℕ} (h : codeUnit s = some (unit, rest)) :
    rest <:+ s := by
  simp only [codeUnit] at h
  split at h
  · simp only [Option.bind_eq_bind, Option.bind_eq_some_iff] at h
    obtain ⟨_, -, _, -, _, -, _, -, hpair⟩ := h
    cases hpair
    exact ⟨[_, _, _, _], rfl⟩
  · cases h

theorem unescaped_of_large {b : UInt8} (h : 128 ≤ b) : isMark b = false ∧ unescaped b = true := by
  have hne (c : UInt8) (hc : c < 128) : b ≠ c := by
    rintro rfl
    exact absurd h (UInt8.not_le.2 hc)
  refine ⟨?_, ?_⟩
  · simp [isMark, hne 92 (by decide), hne 117 (by decide)]
  · have hlow : (32 : UInt8) ≤ b := UInt8.le_trans (by decide) h
    simp [unescaped, hlow, hne 34 (by decide), hne 92 (by decide)]

theorem cost_encode_char_le (c : Char) : cost (String.utf8EncodeChar c) ≤ 2 := by
  rcases utf8_encode_char_cases c with ⟨b, -, hb⟩ | hlarge
  · rw [hb, cost, marks, List.countP_singleton, List.countP_singleton]
    split <;> split <;> decide
  · have hmarks : marks (String.utf8EncodeChar c) = 0 :=
      List.countP_eq_zero.2 fun b hb => by simp [(unescaped_of_large (hlarge b hb)).1]
    have hescaped : (String.utf8EncodeChar c).countP (fun b => !unescaped b) = 0 :=
      List.countP_eq_zero.2 fun b hb => by simp [(unescaped_of_large (hlarge b hb)).2]
    rw [cost, hmarks, hescaped]
    decide

/-- A character that is written with its number costs at most the backslash and the `u`. -/
theorem unicode_spec {s x rest : List UInt8} (h : unicode s = some (x, rest)) :
    rest <:+ s ∧ cost x ≤ 2 := by
  simp only [unicode, Option.bind_eq_bind, Option.bind_eq_some_iff] at h
  obtain ⟨⟨unit, s₁⟩, hunit, h⟩ := h
  have h₁ := codeUnit_suffix hunit
  dsimp only at h
  split at h
  · simp only [Option.bind_eq_some_iff] at h
    obtain ⟨s₂, hmarker, ⟨low, s₃⟩, hlow, h⟩ := h
    have h₂ : s₂ <:+ s₁ := ⟨_, List.isPrefixOf?_eq_some_iff_append_eq.1 hmarker⟩
    have h₃ := codeUnit_suffix hlow
    split at h
    · obtain ⟨rfl, rfl⟩ := Prod.mk.inj (Option.some.inj h)
      exact ⟨h₃.trans (h₂.trans h₁), cost_encode_char_le _⟩
    · cases h
  split at h
  · cases h
  · cases h
    exact ⟨h₁, cost_encode_char_le _⟩

/-- The marks of the escapes of one letter. -/
theorem cost_escape_le {c b : UInt8} (h : escapes.lookup c = some b) :
    cost [b] ≤ 1 + if isMark c then 1 else 0 := by
  have hall : ∀ e ∈ escapes, cost [e.2] ≤ 1 + if isMark e.1 then 1 else 0 := by
    simp [escapes, cost, marks, isMark, unescaped]
  obtain ⟨before, after, hsplit, -⟩ := List.lookup_eq_some_iff.1 h
  exact hall (c, b) (hsplit ▸ by simp)

/-- An escape denotes what costs at most its backslash and the text behind it. -/
theorem escape_cost {s x rest : List UInt8} (h : escape s = some (x, rest)) :
    marks rest + cost x ≤ marks s + 1 := by
  cases s with
  | nil => cases h
  | cons c s =>
      simp only [escape] at h
      rw [marks_cons]
      split at h
      · rename_i hu
        obtain ⟨hsuffix, hcost⟩ := unicode_spec h
        have := marks_le_of_suffix hsuffix
        rw [hu, if_pos (by decide)]
        omega
      · obtain ⟨b, hlookup, hpair⟩ := Option.map_eq_some_iff.1 h
        cases hpair
        have := cost_escape_le hlookup
        omega

/-- What a character of a string denotes does not cost more than its text. -/
theorem character_cost {s x rest : List UInt8} (h : character s = some (x, rest)) :
    marks rest + cost x ≤ marks s := by
  cases s with
  | nil => cases h
  | cons c s =>
      simp only [character] at h
      rw [marks_cons]
      split at h
      · rename_i hbackslash
        rw [hbackslash, if_pos (by decide)]
        exact escape_cost h
      split at h
      · rename_i hunescaped
        cases h
        rw [cost, marks, marks, List.countP_singleton, List.countP_singleton, hunescaped]
        simp
      · cases h

/-- What a string denotes does not cost more than its text. -/
theorem Chars.cost_le {s text rest : List UInt8} (h : Chars s text rest) :
    marks rest + cost text ≤ marks s := by
  induction h with
  | close =>
      rw [marks_cons]
      exact Nat.le_add_right _ _
  | cons hchar hrest ih =>
      have := character_cost hchar
      rw [cost_append]
      omega

mutual

/-- A text has at least the marks that its value needs. -/
theorem Value.cost_le {s rest : List UInt8} {v : Json} (h : Value s v rest) :
    marks rest + price v ≤ marks s := by
  cases h with
  | null | true | false =>
      simp only [price, marks_cons]
      omega
  | num hnum =>
      exact marks_le_of_suffix (number_suffix hnum)
  | str hchars =>
      have := hchars.cost_le
      simp only [price, marks_cons]
      omega
  | emptyArr hclose | emptyObj hclose =>
      have := marks_le_of_skip hclose
      simp only [price, priceItems, priceMembers, marks_cons]
      omega
  | arr hitems =>
      have := hitems.cost_le
      simp only [price, marks_cons]
      omega
  | obj hmembers =>
      have := hmembers.cost_le
      simp only [price, marks_cons]
      omega

@[inherit_doc Value.cost_le]
theorem Items.cost_le {s rest : List UInt8} {items : List Json} (h : Items s items rest) :
    marks rest + priceItems items ≤ marks s := by
  cases h with
  | last hvalue hclose =>
      have := hvalue.cost_le
      have := marks_le_of_skip hclose
      have := marks_le_of_suffix (skip_suffix s)
      simp only [priceItems]
      omega
  | cons hvalue hcomma hitems =>
      have := hvalue.cost_le
      have := marks_le_of_skip hcomma
      have := hitems.cost_le
      have := marks_le_of_suffix (skip_suffix s)
      simp only [priceItems]
      omega

@[inherit_doc Value.cost_le]
theorem Member.cost_le {s rest : List UInt8} {m : List UInt8 × Json} (h : Member s m rest) :
    marks rest + (cost m.1 + price m.2) ≤ marks s := by
  cases h with
  | @mk _ s₁ s₂ s₃ rest key v hquote hkey hcolon hvalue =>
      have hopen := marks_le_of_skip hquote
      have hname := hkey.cost_le
      have hsep := marks_le_of_skip hcolon
      have hval := hvalue.cost_le
      have hskip := marks_le_of_suffix (skip_suffix s₃)
      have hrest := marks_le_of_suffix (skip_suffix rest)
      show marks (skip rest) + (cost key + price v) ≤ marks s
      omega

@[inherit_doc Value.cost_le]
theorem Members.cost_le {s rest : List UInt8} {members : List (List UInt8 × Json)}
    (h : Members s members rest) : marks rest + priceMembers members ≤ marks s := by
  cases h with
  | last hmember =>
      have := hmember.cost_le
      simp only [priceMembers, marks_cons] at *
      omega
  | cons hmember hmembers =>
      have := hmember.cost_le
      have := hmembers.cost_le
      simp only [priceMembers, marks_cons] at *
      omega

end

end Json

end ApiGateway
